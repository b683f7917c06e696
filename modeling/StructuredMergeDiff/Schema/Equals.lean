import StructuredMergeDiff.Schema.Elements

/-!
Contract: the mutually recursive `Equals` functions of schemas.

They compare structurally, except that an element relationship override is
compared by the address of its pointer, and that of an atom's alternatives
only the first present one is looked into.

Owns: the `equals` functions and their reflexivity.
-/

namespace StructuredMergeDiff

open Library

variable {N : Type} [Numeric N]

/-! ## Defaults -/

namespace Value

/-- The case distinction of `reflect.DeepEqual` on unstructured values: numbers
are the same only if they are of the same kind. -/
def deepEqualBody (equal : Value N × Value N → Bool) : Value N × Value N → Bool
  | (.number x, .number y) => decide (Numeric.number x = Numeric.number y)
  | (.string s, .string t) => s == t
  | (.bool b, .bool c) => b == c
  | (.list xs, .list ys) => listEquals (fun x y => equal (x, y)) xs ys
  | (.map xs, .map ys) =>
      mapEquals (fun x y => equal (x, y)) (normalize xs) (normalize ys)
  | (.null, .null) => true
  | _ => false

def deepEqual (left right : Value N) : Bool :=
  measured (fun pair => pair.1.depth) deepEqualBody (fun _ => true) (left, right)

private theorem deepEqualBody_descends :
    Descends (fun pair : Value N × Value N => pair.1.depth) deepEqualBody := by
  rintro first second ⟨left, right⟩ agree
  cases left <;> cases right <;> simp only [deepEqualBody]
  case list.list xs ys =>
    exact listEquals_congr xs ys fun x member y =>
      agree (x, y) (depth_lt_of_mem_items (v := .list xs) member)
  case map.map xs ys =>
    exact mapEquals_congr _ fun x member y =>
      agree (x.2, y) (depth_lt_of_mem_entries (v := .map xs) member)

theorem deepEqual_eq (left right : Value N) :
    left.deepEqual right = deepEqualBody (fun pair => pair.1.deepEqual pair.2) (left, right) :=
  measured_eq deepEqualBody_descends _ _

theorem deepEqual_self (v : Value N) : v.deepEqual v = true := by
  rw [deepEqual_eq]
  cases v <;> simp only [deepEqualBody, beq_self_eq_true, decide_true]
  case list xs =>
    rw [listEquals_iff, List.forall₂_same]
    exact fun x member => deepEqual_self x
  case map xs =>
    rw [mapEquals_iff (normalize_sorted xs) (normalize_sorted xs), List.forall₂_same]
    exact fun x member => ⟨rfl, deepEqual_self x.2⟩
termination_by v.depth
decreasing_by
  · exact depth_lt_of_mem_items (v := .list _) member
  · exact depth_lt_of_mem_entries (v := .map _) member

end Value

/-! ## Types -/

def pointerEquals : Option (Pointer ElementRelationship) → Option (Pointer ElementRelationship) →
    Bool
  | none, none => true
  | some p, some q => p.addr == q.addr
  | _, _ => false

mutual

def TypeRef.equals : TypeRef N → TypeRef N → Bool
  | ⟨leftName, leftAtom, leftRelationship⟩, ⟨rightName, rightAtom, rightRelationship⟩ =>
      leftName == rightName && pointerEquals leftRelationship rightRelationship &&
        Atom.equals leftAtom rightAtom
termination_by structural left => left

/-- `Atom.Equals`: the same alternatives, the first of which is compared. -/
def Atom.equals : Atom N → Atom N → Bool
  | ⟨some leftScalar, leftList, leftMap⟩, ⟨rightScalar, rightList, rightMap⟩ =>
      rightScalar.isSome && leftList.isNone == rightList.isNone &&
        leftMap.isNone == rightMap.isNone && rightScalar == some leftScalar
  | ⟨none, some leftList, leftMap⟩, ⟨rightScalar, some rightList, rightMap⟩ =>
      rightScalar.isNone && leftMap.isNone == rightMap.isNone &&
        ListType.equals leftList rightList
  | ⟨none, none, some leftMap⟩, ⟨rightScalar, rightList, some rightMap⟩ =>
      rightScalar.isNone && rightList.isNone && MapType.equals leftMap rightMap
  | ⟨none, none, none⟩, ⟨rightScalar, rightList, rightMap⟩ =>
      rightScalar.isNone && rightList.isNone && rightMap.isNone
  | _, _ => false
termination_by structural left => left

def ListType.equals : ListType N → ListType N → Bool
  | ⟨leftElement, leftRelationship, leftKeys⟩, ⟨rightElement, rightRelationship, rightKeys⟩ =>
      TypeRef.equals leftElement rightElement && leftRelationship == rightRelationship &&
        leftKeys == rightKeys
termination_by structural left => left

def MapType.equals : MapType N → MapType N → Bool
  | ⟨leftFields, leftUnions, leftElement, leftRelationship⟩,
    ⟨rightFields, rightUnions, rightElement, rightRelationship⟩ =>
      TypeRef.equals leftElement rightElement && leftRelationship == rightRelationship &&
        StructField.equalsAll leftFields rightFields && leftUnions == rightUnions
termination_by structural left => left

def StructField.equals : StructField N → StructField N → Bool
  | ⟨leftName, leftType, leftDefault⟩, ⟨rightName, rightType, rightDefault⟩ =>
      leftName == rightName && leftDefault.deepEqual rightDefault &&
        TypeRef.equals leftType rightType
termination_by structural left => left

def StructField.equalsAll : List (StructField N) → List (StructField N) → Bool
  | [], [] => true
  | left :: lefts, right :: rights =>
      StructField.equals left right && StructField.equalsAll lefts rights
  | _, _ => false
termination_by structural left => left

end

def TypeDef.equals (left right : TypeDef N) : Bool :=
  left.name == right.name && left.atom.equals right.atom

def TypeDef.equalsAll : List (TypeDef N) → List (TypeDef N) → Bool
  | [], [] => true
  | left :: lefts, right :: rights => left.equals right && equalsAll lefts rights
  | _, _ => false

def Schema.equals (left right : Schema N) : Bool :=
  TypeDef.equalsAll left.types right.types

private theorem pointerEquals_self (pointer : Option (Pointer ElementRelationship)) :
    pointerEquals pointer pointer = true := by
  cases pointer <;> simp [pointerEquals]

mutual

theorem TypeRef.equals_self : ∀ tr : TypeRef N, tr.equals tr = true
  | ⟨_, atom, _⟩ => by
      simp [TypeRef.equals, pointerEquals_self, Atom.equals_self atom]

theorem Atom.equals_self : ∀ atom : Atom N, atom.equals atom = true
  | ⟨some _, _, _⟩ => by simp [Atom.equals]
  | ⟨none, some list, _⟩ => by simp [Atom.equals, ListType.equals_self list]
  | ⟨none, none, some map⟩ => by simp [Atom.equals, MapType.equals_self map]
  | ⟨none, none, none⟩ => by simp [Atom.equals]

theorem ListType.equals_self : ∀ t : ListType N, t.equals t = true
  | ⟨element, _, _⟩ => by simp [ListType.equals, TypeRef.equals_self element]

theorem MapType.equals_self : ∀ t : MapType N, t.equals t = true
  | ⟨fields, _, element, _⟩ => by
      simp [MapType.equals, TypeRef.equals_self element, StructField.equalsAll_self fields]

theorem StructField.equals_self : ∀ field : StructField N, field.equals field = true
  | ⟨_, type, default⟩ => by
      simp [StructField.equals, Value.deepEqual_self default, TypeRef.equals_self type]

theorem StructField.equalsAll_self :
    ∀ fields : List (StructField N), StructField.equalsAll fields fields = true
  | [] => rfl
  | field :: rest => by
      simp [StructField.equalsAll, StructField.equals_self field, StructField.equalsAll_self rest]

end

end StructuredMergeDiff
