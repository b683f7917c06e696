import StructuredMergeDiff.FieldPath.Set
import StructuredMergeDiff.Typed.Helpers

/-!
Contract: the validating walker.

Owns: `validateScalar` and `validate`, which lists every violation of the
schema; with duplicates allowed, items of an associative list may share a path
element.
-/

namespace StructuredMergeDiff.Typed

open Library

variable {N : Type} [Numeric N]

omit [Numeric N] in
/-- Does a value of the scalar type's kind stand here? An unknown type admits none. -/
def admits : ScalarType → Value N → Bool
  | .numeric, .number _ => true
  | .string, .string _ => true
  | .boolean, .bool _ => true
  | .untyped, v => v.isScalar
  | _, _ => false

omit [Numeric N] in
/-- `validateScalar`; a nil value and null pass. -/
def validateScalar (t : ScalarType) (v : Option (Value N)) (side : Side) : ValidationErrors N :=
  match v with
  | none => []
  | some .null => []
  | some v =>
      match t with
      | .other _ => errorf (.unexpectedScalarType side t)
      | _ => if admits t v then [] else errorf (.expectedScalar side t v)

namespace Validate

/-- The loop over the items of a list: `index` and the path elements observed so
far. An item without a path element ends it. -/
def visitListItems (sc : Schema N) (allowDuplicates : Bool)
    (visit : TypeRef N × Value N → ValidationErrors N) (t : ListType N) :
    Nat → List (PathElement N) → List (Value N) → ValidationErrors N
  | _, _, [] => []
  | index, observed, item :: rest =>
      if t.elementRelationship ≠ .associative then
        (ValidationErrors.withPrefix (visit (t.elementType, item)) (.index index)) ++
          visitListItems sc allowDuplicates visit t (index + 1) observed rest
      else
        match listItemToPathElement sc t item with
        | .error err => errorf (.element index err)
        | .ok pe =>
            let duplicate :=
              if FieldSet.membersHas observed pe && !allowDuplicates then
                errorf (.duplicateEntries pe)
              else []
            duplicate ++ (ValidationErrors.withPrefix (visit (t.elementType, item)) pe) ++
              visitListItems sc allowDuplicates visit t (index + 1)
                (insertBy id .unset id pe observed) rest

def doList (sc : Schema N) (allowDuplicates : Bool)
    (visit : TypeRef N × Value N → ValidationErrors N) (t : ListType N) (v : Value N) :
    ValidationErrors N :=
  match v with
  | .null => []
  | .list items => visitListItems sc allowDuplicates visit t 0 [] items
  | _ => errorf (.expectedList v)

omit [Numeric N] in
/-- The iteration over a map's entries: an undeclared entry of a map without
element type ends it. -/
def visitMapItems (visit : TypeRef N × Value N → ValidationErrors N) (t : MapType N) :
    List (String × Value N) → ValidationErrors N
  | [] => []
  | (key, v) :: rest =>
      if (t.findField key).isNone && t.elementType.isZero then
        (errorf .fieldNotDeclared).withPrefix (.fieldName key)
      else
        (ValidationErrors.withPrefix (visit (t.fieldType key, v)) (.fieldName key)) ++
          visitMapItems visit t rest

omit [Numeric N] in
def doMap (visit : TypeRef N × Value N → ValidationErrors N) (t : MapType N) (v : Value N) :
    ValidationErrors N :=
  match v with
  | .null => []
  | .map _ => visitMapItems visit t v.entries
  | _ => errorf (.expectedMap v)

def body (sc : Schema N) (allowDuplicates : Bool)
    (visit : TypeRef N × Value N → ValidationErrors N) :
    TypeRef N × Value N → ValidationErrors N
  | (tr, v) =>
      match resolveSchema sc tr v with
      | .error message => errorf message
      | .ok (.scalar t) => validateScalar t (some v) .value
      | .ok (.list t) => doList sc allowDuplicates visit t v
      | .ok (.map t) => doMap visit t v

end Validate

/-- `validate`. -/
def validate (sc : Schema N) (allowDuplicates : Bool) (tr : TypeRef N) (v : Value N) :
    ValidationErrors N :=
  measured (fun pair => pair.2.depth) (Validate.body sc allowDuplicates) (fun _ => []) (tr, v)

end StructuredMergeDiff.Typed
