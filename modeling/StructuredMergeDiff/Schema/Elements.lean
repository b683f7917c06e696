import StructuredMergeDiff.Value.Order

/-!
Contract: the schema language and type resolution.

A type reference names a type or inlines one, and may override how a list or
map treats its elements. An atom offers up to three alternatives: a scalar, a
list and a map type.

Owns: the schema data types, `findField`, `findNamedType` and `resolve`.
Does not own: structural equality (`Schema.Equals`).

A nil `Fields` slice and an empty one are one here, and so are an absent and a
null default.
-/

namespace StructuredMergeDiff

/-- A pointer that is compared by address. -/
structure Pointer (α : Type) where
  addr : Nat
  val : α
deriving Repr

inductive ScalarType where
  | numeric
  | string
  | boolean
  | untyped
  | other (name : String)
deriving DecidableEq, Repr

/-- `ElementRelationship`; `unset` is the empty string. -/
inductive ElementRelationship where
  | unset
  | associative
  | atomic
  | separable
  | other (name : String)
deriving DecidableEq, Repr

structure UnionField where
  fieldName : String
  discriminatorValue : String
deriving DecidableEq, Repr

/-- `Union`: a group of struct fields of which at most one is set. -/
structure UnionType where
  discriminator : Option String
  deduceInvalidDiscriminator : Bool
  fields : List UnionField
deriving DecidableEq, Repr

mutual

structure TypeRef (N : Type) where
  namedType : Option String
  inlined : Atom N
  elementRelationship : Option (Pointer ElementRelationship)

structure Atom (N : Type) where
  scalar : Option ScalarType
  list : Option (ListType N)
  map : Option (MapType N)

structure ListType (N : Type) where
  elementType : TypeRef N
  elementRelationship : ElementRelationship
  keys : List String

structure MapType (N : Type) where
  fields : List (StructField N)
  unions : List UnionType
  elementType : TypeRef N
  elementRelationship : ElementRelationship

/-- `StructField`; a null default stands for no default. -/
structure StructField (N : Type) where
  name : String
  type : TypeRef N
  default : Value N

end

structure TypeDef (N : Type) where
  name : String
  atom : Atom N

structure Schema (N : Type) where
  types : List (TypeDef N)

variable {N : Type}

/-- The zero `Atom`: no alternative at all. -/
def Atom.zero : Atom N :=
  { scalar := none, list := none, map := none }

/-- The zero `TypeRef`. -/
def TypeRef.zero : TypeRef N :=
  { namedType := none, inlined := .zero, elementRelationship := none }

/-- A reference to a type given in place. -/
def TypeRef.inline (atom : Atom N) : TypeRef N :=
  { namedType := none, inlined := atom, elementRelationship := none }

def Atom.ofScalar (t : ScalarType) : Atom N :=
  { scalar := some t, list := none, map := none }

def Atom.ofList (t : ListType N) : Atom N :=
  { scalar := none, list := some t, map := none }

def Atom.ofMap (t : MapType N) : Atom N :=
  { scalar := none, list := none, map := some t }

/-- A granular struct: a map of which only the given fields are declared. -/
def MapType.struct (fields : List (String × TypeRef N)) : MapType N :=
  { fields := fields.map fun field => { name := field.1, type := field.2, default := .null }
    unions := []
    elementType := .zero
    elementRelationship := .unset }

/-- Comparison with `TypeRef{}`: every pointer in it is nil. -/
def TypeRef.isZero (tr : TypeRef N) : Bool :=
  tr.namedType.isNone && tr.inlined.scalar.isNone && tr.inlined.list.isNone &&
    tr.inlined.map.isNone && tr.elementRelationship.isNone

/-- `FindField`: the index is filled in order, so the last declaration counts. -/
def MapType.findField (t : MapType N) (name : String) : Option (StructField N) :=
  t.fields.reverse.find? fun field => field.name == name

/-- `FindNamedType`: the last definition of a name counts. -/
def Schema.findNamedType (s : Schema N) (name : String) : Option (TypeDef N) :=
  s.types.reverse.find? fun definition => definition.name == name

def Schema.resolveNoOverrides (s : Schema N) (tr : TypeRef N) : Option (Atom N) :=
  match tr.namedType with
  | some name => (s.findNamedType name).map TypeDef.atom
  | none => some tr.inlined

/-- `Resolve`: the referenced atom, its map alternative or else its list
alternative taking over the reference's element relationship. -/
def Schema.resolve (s : Schema N) (tr : TypeRef N) : Option (Atom N) :=
  match tr.elementRelationship with
  | none => s.resolveNoOverrides tr
  | some relationship =>
      match s.resolveNoOverrides tr with
      | none => none
      | some atom =>
          match atom.map, atom.list with
          | some t, _ =>
              some { atom with map := some { t with elementRelationship := relationship.val } }
          | none, some t =>
              some { atom with list := some { t with elementRelationship := relationship.val } }
          | none, none => none

end StructuredMergeDiff
