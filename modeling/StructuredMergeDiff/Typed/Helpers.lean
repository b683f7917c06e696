import StructuredMergeDiff.FieldPath.Element
import StructuredMergeDiff.Schema.Elements

/-!
Contract: what all walkers over typed values share.

A walker resolves the type at hand, narrows it to the alternative that fits
the value, and hands over to its scalar, list or map case. Items of
associative lists are named by their key fields, filled up with the declared
defaults, or by their value.

Owns: validation errors, `deduceAtom`, `handleAtom`, `resolveSchema`, and the
path elements of list items.
-/

namespace StructuredMergeDiff

variable {N : Type}

/-! ## Errors -/

/-- Why a list item has no path element. -/
inductive ItemError where
  /-- "invalid indexing of non-associative list" -/
  | nonAssociative
  /-- "associative list with keys may not have a null element" -/
  | nullElement
  /-- "associative list with keys may not have non-map elements" -/
  | nonMapElement
  /-- "couldn't find default value for %v: invalid elementType for list" -/
  | invalidElementType (fieldName : String)
  /-- "couldn't find default value for %v: associative list may not have non-map types" -/
  | nonMapTypes (fieldName : String)
  /-- "associative list with keys has an element that omits key field %q (and doesn't have
  default value)" -/
  | omitsKey (fieldName : String)
  /-- "associative list without keys has an element that's a map type" -/
  | mapInSet
  /-- "not supported: associative list with lists as elements" -/
  | listInSet
  /-- "associative list without keys has an element that's an explicit null" -/
  | nullInSet
deriving DecidableEq, Repr

/-- Which operand an error is about. -/
inductive Side where
  | value
  | lhs
  | rhs
deriving DecidableEq, Repr

/-- The messages of validation errors. -/
inductive Message (N : Type) where
  /-- "schema error: no type found matching: %v", the name or "inlined type" -/
  | noTypeFound (name : Option String)
  /-- "schema error: invalid atom: %v", "named type: " and the name or "inlined" -/
  | invalidAtom (name : Option String)
  /-- "expected list, got %v" -/
  | expectedList (got : Value N)
  /-- "expected map, got %v" -/
  | expectedMap (got : Value N)
  /-- "%vexpected numeric (int or float), got %T", "%vexpected string, got %#v",
  "%vexpected boolean, got %v" or "%vexpected any scalar, got %v" -/
  | expectedScalar (side : Side) (expected : ScalarType) (got : Value N)
  /-- "%vunexpected scalar type in schema: %v" -/
  | unexpectedScalarType (side : Side) (type : ScalarType)
  /-- "element %v: %v" -/
  | element (index : Nat) (reason : ItemError)
  /-- "duplicate entries for key %v" -/
  | duplicateEntries (pe : PathElement N)
  /-- "field not declared in schema" -/
  | fieldNotDeclared
  /-- "at least one of lhs and rhs must be provided" -/
  | noOperand
  /-- "could not resolve %v" -/
  | couldNotResolve
  /-- "expected objects with types from the same schema" -/
  | differentSchemas
  /-- "expected objects of the same type, but got %v and %v" -/
  | differentTypes

/-- `ValidationError`: the path is the concatenation of its elements' strings. -/
structure ValidationError (N : Type) where
  path : Path N
  message : Message N

abbrev ValidationErrors (N : Type) := List (ValidationError N)

/-- `errorf`. -/
def errorf (message : Message N) : ValidationErrors N :=
  [{ path := [], message := message }]

/-- `WithPrefix` and `WithLazyPrefix`, for the string of one path element. -/
def ValidationErrors.withPrefix (errs : ValidationErrors N) (pe : PathElement N) :
    ValidationErrors N :=
  errs.map fun err => { err with path := pe :: err.path }

/-! ## Narrowing a type to a value -/

/-- The case of a walker that handles a value. -/
inductive Alternative (N : Type) where
  | scalar (t : ScalarType)
  | list (t : ListType N)
  | map (t : MapType N)

/-- `deduceAtom`: the one alternative that fits the value, or the whole atom. -/
def deduceAtom (atom : Atom N) (v : Value N) : Atom N :=
  if v.isScalar then
    match atom.scalar with
    | some t => { scalar := some t, list := none, map := none }
    | none => atom
  else if v.isList then
    match atom.list with
    | some t => { scalar := none, list := some t, map := none }
    | none => atom
  else if v.isMap then
    match atom.map with
    | some t => { scalar := none, list := none, map := some t }
    | none => atom
  else atom

/-- `handleAtom`: the alternative that is handled, or the error. -/
def handleAtom (atom : Atom N) (tr : TypeRef N) : Except (Message N) (Alternative N) :=
  match atom.map, atom.scalar, atom.list with
  | some t, _, _ => .ok (.map t)
  | none, some t, _ => .ok (.scalar t)
  | none, none, some t => .ok (.list t)
  | none, none, none => .error (.invalidAtom tr.namedType)

/-- `resolveSchema`. -/
def resolveSchema (sc : Schema N) (tr : TypeRef N) (v : Value N) :
    Except (Message N) (Alternative N) :=
  match sc.resolve tr with
  | none => .error (.noTypeFound tr.namedType)
  | some atom => handleAtom (deduceAtom atom v) tr

/-- The type of a map entry: that of the declared field, or the element type. -/
def MapType.fieldType (t : MapType N) (name : String) : TypeRef N :=
  match t.findField name with
  | some field => field.type
  | none => t.elementType

/-! ## Path elements of list items -/

/-- `getAssociativeKeyDefault`; null stands for no default. -/
def getAssociativeKeyDefault (sc : Schema N) (t : ListType N) (fieldName : String) :
    Except ItemError (Value N) :=
  match sc.resolve t.elementType with
  | none => .error (.invalidElementType fieldName)
  | some atom =>
      match atom.map with
      | none => .error (.nonMapTypes fieldName)
      | some m =>
          match m.findField fieldName with
          | some field => .ok field.default
          | none => .ok .null

/-- One round of the loop over the list's keys. -/
def keyField (sc : Schema N) (t : ListType N) (child : Value N) (fieldName : String) :
    Except ItemError (Field N) :=
  match child.get? fieldName with
  | some v => .ok { name := fieldName, value := v }
  | none =>
      match getAssociativeKeyDefault sc t fieldName with
      | .error err => .error err
      | .ok .null => .error (.omitsKey fieldName)
      | .ok default => .ok { name := fieldName, value := default }

/-- `keyedAssociativeListItemToPathElement`. -/
def keyedAssociativeListItemToPathElement (sc : Schema N) (t : ListType N) (child : Value N) :
    Except ItemError (PathElement N) :=
  match child with
  | .null => .error .nullElement
  | .map _ =>
      match t.keys.mapM (keyField sc t child) with
      | .error err => .error err
      | .ok fields => .ok (.key (FieldList.sort ⟨fields⟩))
  | _ => .error .nonMapElement

/-- `setItemToPathElement`. -/
def setItemToPathElement (child : Value N) : Except ItemError (PathElement N) :=
  match child with
  | .map _ => .error .mapInSet
  | .list _ => .error .listInSet
  | .null => .error .nullInSet
  | _ => .ok (.value child)

/-- `listItemToPathElement`. -/
def listItemToPathElement (sc : Schema N) (t : ListType N) (child : Value N) :
    Except ItemError (PathElement N) :=
  if t.elementRelationship ≠ .associative then .error .nonAssociative
  else if t.keys.length > 0 then keyedAssociativeListItemToPathElement sc t child
  else setItemToPathElement child

/-- The path element where the error is ignored: the zero value on failure. -/
def itemPathElement (sc : Schema N) (t : ListType N) (child : Value N) : PathElement N :=
  match listItemToPathElement sc t child with
  | .ok pe => pe
  | .error _ => .unset

end StructuredMergeDiff
