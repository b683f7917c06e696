import StructuredMergeDiff.Typed.Merge
import StructuredMergeDiff.Typed.Reconcile
import StructuredMergeDiff.Typed.Remove
import StructuredMergeDiff.Typed.ToFieldSet

/-!
Contract: values with a type, and the operations the updater uses.

Owns: `TypedValue`, `Comparison`, and `Validate`, `ToFieldSet`, `Merge`,
`Compare`, `RemoveItems` and `ExtractItems` as methods of typed values.

The value is absent where the source holds a nil interface; calling a method
of it is a panic. Schemas are compared by address.
-/

namespace StructuredMergeDiff.Typed

variable {N : Type} [Numeric N]

structure TypedValue (N : Type) where
  value : Option (Value N)
  typeRef : TypeRef N
  schema : Pointer (Schema N)

/-- How an operation ends, if it does not return a result. -/
inductive Failure (N : Type) where
  | errors (errs : ValidationErrors N)
  | panic
  | diverges

/-- `Comparison`. -/
structure Comparison (N : Type) where
  removed : FieldSet N
  modified : FieldSet N
  added : FieldSet N

namespace Comparison

omit [Numeric N] in
def isSame (c : Comparison N) : Bool :=
  c.removed.isEmpty && c.modified.isEmpty && c.added.isEmpty

/-- `ExcludeFields`. -/
def excludeFields (c : Comparison N) (fields : Option (FieldSet N)) : Comparison N :=
  match fields with
  | none => c
  | some fields =>
      if fields.isEmpty then c
      else
        { removed := c.removed.recursiveDifference fields
          modified := c.modified.recursiveDifference fields
          added := c.added.recursiveDifference fields }

end Comparison

namespace TypedValue

/-- `Validate`; `mapValue` reports a nil value, `listValue` panics on it. -/
def isValid (tv : TypedValue N) (allowDuplicates : Bool) : Bool :=
  match tv.value with
  | some v => (validate tv.schema.val allowDuplicates tv.typeRef v).isEmpty
  | none => false

/-- `ToFieldSet`. -/
def toFieldSet (tv : TypedValue N) : Except (Failure N) (FieldSet N) :=
  match tv.value with
  | some v =>
      let walk := toFieldSetWalk tv.schema.val tv.typeRef v
      if walk.errs.length ≠ 0 then .error (.errors walk.errs) else .ok (FieldSet.ofPaths walk.paths)
  | none =>
      match tv.schema.val.resolve tv.typeRef with
      | none => .error (.errors (errorf (.noTypeFound tv.typeRef.namedType)))
      | some atom =>
          match handleAtom atom tv.typeRef with
          | .error message => .error (.errors (errorf message))
          | .ok (.list _) => .error .panic
          | .ok _ => .ok .nil

/-- The checks that `Merge` and `Compare` begin with. -/
def checkOperands (lhs rhs : TypedValue N) : ValidationErrors N :=
  if lhs.schema.addr ≠ rhs.schema.addr then errorf .differentSchemas
  else if !lhs.typeRef.equals rhs.typeRef then errorf .differentTypes
  else []

/-- `Merge`. -/
def merge (lhs rhs : TypedValue N) : Except (Failure N) (TypedValue N) :=
  let mismatch := checkOperands lhs rhs
  if mismatch.length ≠ 0 then .error (.errors mismatch)
  else
    match mergeWalk lhs.schema.val lhs.typeRef lhs.value rhs.value with
    | none => .error .diverges
    | some walk =>
        if walk.errs.length ≠ 0 then .error (.errors walk.errs)
        else .ok { lhs with value := walk.out }

/-- `Compare`. -/
def compare (lhs rhs : TypedValue N) : Except (Failure N) (Comparison N) :=
  let mismatch := checkOperands lhs rhs
  if mismatch.length ≠ 0 then .error (.errors mismatch)
  else
    let walk := compareWalk lhs.schema.val lhs.typeRef lhs.value rhs.value
    if walk.errs.length ≠ 0 then .error (.errors walk.errs)
    else
      .ok
        { removed := FieldSet.ofPaths walk.removed
          modified := FieldSet.ofPaths walk.modified
          added := FieldSet.ofPaths walk.added }

/-- `removeItemsWithSchema` of a value that may be nil: only a scalar, list or
map case that is reached looks at it, and panics. -/
def removing (tv : TypedValue N) (items : FieldSet N) (shouldExtract : Bool) :
    Except (Failure N) (TypedValue N) :=
  match tv.value with
  | some v =>
      .ok { tv with
        value := some (removeItemsWithSchema tv.schema.val tv.typeRef v items shouldExtract) }
  | none =>
      match tv.schema.val.resolve tv.typeRef with
      | none => .ok { tv with value := some .null }
      | some atom =>
          match handleAtom atom tv.typeRef with
          | .error _ => .ok { tv with value := some .null }
          | .ok _ => .error .panic

/-- `RemoveItems`. -/
def removeItems (tv : TypedValue N) (items : FieldSet N) : Except (Failure N) (TypedValue N) :=
  tv.removing items false

/-- `ExtractItems`. -/
def extractItems (tv : TypedValue N) (items : FieldSet N) : Except (Failure N) (TypedValue N) :=
  tv.removing items true

end TypedValue

end StructuredMergeDiff.Typed
