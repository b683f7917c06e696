import StructuredMergeDiff.FieldPath.Collision
import StructuredMergeDiff.Typed.TypedValue

/-!
Contract: objects with numbers on which the order of path elements breaks down.

Owns: the set type of numbers, and objects that hold such a set.
-/

namespace StructuredMergeDiff

open Library Typed

variable {N : Type} [Numeric N]

namespace Collision

variable (collision : Collision N)

/-- The set type of numbers. -/
def numberSet : ListType N :=
  { elementType := .inline (.ofScalar .numeric)
    elementRelationship := .associative
    keys := [] }

omit [Numeric N] in
theorem listItemToPathElement_number (sc : Schema N) (n : N) :
    listItemToPathElement sc numberSet (.number n) = .ok (numberElement n) := by
  simp [listItemToPathElement, numberSet, setItemToPathElement, numberElement]

/-- The two integers, which differ, and the float. -/
def integers : List (Value N) := [.number collision.low, .number collision.high]

def floats : List (Value N) := [.number collision.float]

end Collision

/-- An object with a set of numbers in its field `list`. -/
def numberSetObject (items : List (Value N)) : TypedValue N :=
  { value := some (.map [("list", .list items)])
    typeRef := .inline (.ofMap (.struct [("list", .inline (.ofList Collision.numberSet))]))
    schema := ⟨0, ⟨[]⟩⟩ }

end StructuredMergeDiff
