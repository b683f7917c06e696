import StructuredMergeDiff.Typed.ListIndex
import StructuredMergeDiff.Typed.Node

/-!
Contract: how list items are named.

An item of a keyed list is named by the values of its key fields, an absent
one standing for its default; an item of a set is named by itself. Equal
values are named alike.

Owns: what equal values have in common, `keyValue`, and when two items have the
same name.
-/

namespace StructuredMergeDiff

open Library Std

variable {N : Type} [Numeric N]

/-! ## Equal values -/

namespace Value

theorem kind_of_beq {v w : Value N} (same : (v == w) = true) : Typed.kind v = Typed.kind w := by
  rw [beq_eq_equalsBody] at same
  cases v <;> cases w <;> first | rfl | cases same

theorem get?_of_beq {v w : Value N} (same : (v == w) = true) (name : String) :
    SameOption (v.get? name) (w.get? name) := by
  have kinds := kind_of_beq same
  cases v <;> cases w <;>
    first | exact beq_map_iff.mp same name | exact Option.Rel.none | cases kinds

end Value

/-! ## Key fields -/

namespace Typed

section

omit [Numeric N]

/-- The value that a key field stands for, given what the item has there. -/
def keyValueOf (sc : Schema N) (t : ListType N) (name : String) (found : Option (Value N)) :
    Except ItemError (Value N) :=
  match found with
  | some v => .ok v
  | none =>
      match getAssociativeKeyDefault sc t name with
      | .error err => .error err
      | .ok .null => .error (.omitsKey name)
      | .ok default => .ok default

theorem keyField_eq (sc : Schema N) (t : ListType N) (item : Value N) (name : String) :
    keyField sc t item name =
      (keyValueOf sc t name (item.get? name)).map fun v => { name := name, value := v } := by
  unfold keyField keyValueOf
  cases item.get? name with
  | some v => rfl
  | none =>
      dsimp only
      cases getAssociativeKeyDefault sc t name with
      | error err => rfl
      | ok default => cases default <;> rfl

/-- The value that an item has for a key, null if there is none. -/
def keyValue (sc : Schema N) (t : ListType N) (item : Value N) (name : String) : Value N :=
  match keyValueOf sc t name (item.get? name) with
  | .ok v => v
  | .error _ => .null

end

/-- The item has a value for each key. -/
def HasKeys (sc : Schema N) (t : ListType N) (item : Value N) : Prop :=
  ∀ name ∈ t.keys, ∃ v, keyValueOf sc t name (item.get? name) = .ok v

variable {pe : PathElement N}

section

omit [Numeric N]

/-- The loop over the keys collects their values, or fails. -/
theorem mapM_keyField (sc : Schema N) (t : ListType N) (item : Value N) (names : List String) :
    ((∀ name ∈ names, ∃ v, keyValueOf sc t name (item.get? name) = .ok v) →
      names.mapM (keyField sc t item) =
        .ok (names.map fun name => { name := name, value := keyValue sc t item name })) ∧
    (∀ fields, names.mapM (keyField sc t item) = .ok fields →
      ∀ name ∈ names, ∃ v, keyValueOf sc t name (item.get? name) = .ok v) := by
  induction names with
  | nil => exact ⟨fun _ => rfl, by simp⟩
  | cons name rest ih =>
      rw [List.mapM_cons, keyField_eq]
      constructor
      · intro all
        obtain ⟨v, found⟩ := all name List.mem_cons_self
        rw [ih.1 fun other member => all other (List.mem_cons_of_mem _ member)]
        simp [found, keyValue, Except.map, bind, Except.bind, pure, Except.pure]
      · intro fields collected
        cases found : keyValueOf sc t name (item.get? name) with
        | error err => simp [found, Except.map, bind, Except.bind] at collected
        | ok v =>
            cases others : rest.mapM (keyField sc t item) with
            | error err => simp [found, others, Except.map, bind, Except.bind] at collected
            | ok otherFields =>
                intro other member
                rcases List.mem_cons.mp member with rfl | inRest
                · exact ⟨v, found⟩
                · exact ih.2 otherFields others other inRest

/-- The name made of the values of the keys, in lexical order of the keys. -/
def keyName (sc : Schema N) (t : ListType N) (item : Value N) : PathElement N :=
  .key ⟨(t.keys.insertionSort (· ≤ ·)).map fun name =>
    { name := name, value := keyValue sc t item name }⟩

private theorem sort_fields (names : List String) (value : String → Value N) :
    FieldList.sort ⟨names.map fun name => { name := name, value := value name }⟩ =
      ⟨(names.insertionSort (· ≤ ·)).map fun name => { name := name, value := value name }⟩ := by
  unfold FieldList.sort
  congr 1
  exact (List.map_insertionSort (r := (· ≤ ·)) (s := fun left right : Field N =>
    left.name ≤ right.name) (fun name => ⟨name, value name⟩) names (by simp)).symm

/-- A map with all keys is named by their values. -/
theorem keyed_named_iff {sc : Schema N} {t : ListType N} {item : Value N}
    (associative : t.elementRelationship = .associative) (keyed : t.keys ≠ []) :
    listItemToPathElement sc t item = .ok pe ↔
      (∃ bindings, item = .map bindings) ∧ HasKeys sc t item ∧ pe = keyName sc t item := by
  have isKeyed : t.keys.length > 0 := List.length_pos_iff.mpr keyed
  rw [listItemToPathElement, if_neg (by simp [associative]), if_pos isKeyed]
  unfold keyedAssociativeListItemToPathElement
  cases item with
  | map bindings =>
      simp only [Value.map.injEq, exists_eq', true_and]
      obtain ⟨collects, inverse⟩ := mapM_keyField sc t (.map bindings) t.keys
      by_cases hasKeys : HasKeys sc t (.map bindings)
      · rw [collects hasKeys]
        simp only [Except.ok.injEq, hasKeys, true_and, keyName, sort_fields]
        exact eq_comm
      · cases collected : t.keys.mapM (keyField sc t (.map bindings)) with
        | error err => simp [hasKeys]
        | ok fields => exact absurd (inverse fields collected) hasKeys
  | _ => simp

/-- A scalar of a set is named by itself. -/
theorem set_named_iff {sc : Schema N} {t : ListType N} {item : Value N}
    (associative : t.elementRelationship = .associative) (noKeys : t.keys = []) :
    listItemToPathElement sc t item = .ok pe ↔ item.isScalar = true ∧ pe = .value item := by
  rw [listItemToPathElement, if_neg (by simp [associative]), if_neg (by simp [noKeys])]
  cases item <;> simp [setItemToPathElement, Value.isScalar, eq_comm]

end

theorem keyName_beq {sc : Schema N} {t : ListType N} {x y : Value N} :
    (keyName sc t x == keyName sc t y) = true ↔
      ∀ name ∈ t.keys, (keyValue sc t x name == keyValue sc t y name) = true := by
  change FieldList.equals _ _ = true ↔ _
  simp only [FieldList.equals, List.length_map, List.zip_map', List.all_map, beq_self_eq_true,
    Bool.true_and, List.all_eq_true, List.mem_insertionSort, Function.comp_apply,
    FieldList.equalsField]

omit [Numeric N] in
theorem associative_of_named {sc : Schema N} {t : ListType N} {x : Value N}
    (named : listItemToPathElement sc t x = .ok pe) : t.elementRelationship = .associative := by
  unfold listItemToPathElement at named
  split at named
  · cases named
  · next isAssociative => simpa using isAssociative

/-- What the name of an item depends on. -/
def SameName (sc : Schema N) (t : ListType N) (x y : Value N) : Prop :=
  if t.keys = [] then (x == y) = true
  else ∀ name ∈ t.keys, (keyValue sc t x name == keyValue sc t y name) = true

/-- Named items have equal names if what their names depend on is equal. -/
theorem name_beq_iff {sc : Schema N} {t : ListType N} {x y : Value N} {first second : PathElement N}
    (namedFirst : listItemToPathElement sc t x = .ok first)
    (namedSecond : listItemToPathElement sc t y = .ok second) :
    (first == second) = true ↔ SameName sc t x y := by
  have associative := associative_of_named namedFirst
  unfold SameName
  split
  · next noKeys =>
      rw [((set_named_iff associative noKeys).mp namedFirst).2,
        ((set_named_iff associative noKeys).mp namedSecond).2]
      rfl
  · next keyed =>
      rw [((keyed_named_iff associative keyed).mp namedFirst).2.2,
        ((keyed_named_iff associative keyed).mp namedSecond).2.2]
      exact keyName_beq

section Lawful

variable [Consistent N] {sc : Schema N} {t : ListType N}

omit [Consistent N] in
/-- A map with equal values for all keys of a named item is named alike. -/
theorem named_of_keys {x : Value N} {bindings : List (String × Value N)}
    (named : listItemToPathElement sc t x = .ok pe) (keyed : t.keys ≠ [])
    (keys : ∀ name ∈ t.keys, ∀ v, keyValueOf sc t name (x.get? name) = .ok v →
      ∃ w, keyValueOf sc t name ((Value.map bindings).get? name) = .ok w ∧ (w == v) = true) :
    ∃ other, listItemToPathElement sc t (.map bindings) = .ok other ∧ (other == pe) = true := by
  have associative := associative_of_named named
  obtain ⟨-, hasKeys, isName⟩ := (keyed_named_iff associative keyed).mp named
  refine ⟨_, (keyed_named_iff associative keyed).mpr ⟨⟨bindings, rfl⟩, ?_, rfl⟩, ?_⟩
  · intro name member
    obtain ⟨v, found⟩ := hasKeys name member
    obtain ⟨w, other, -⟩ := keys name member v found
    exact ⟨w, other⟩
  · rw [isName, keyName_beq]
    intro name member
    obtain ⟨v, found⟩ := hasKeys name member
    obtain ⟨w, other, same⟩ := keys name member v found
    simpa [keyValue, found, other] using same

theorem keyValueOf_congr {name : String} {x y : Option (Value N)} (same : Value.SameOption x y)
    {v : Value N} (found : keyValueOf sc t name x = .ok v) :
    ∃ w, keyValueOf sc t name y = .ok w ∧ (w == v) = true := by
  cases same with
  | none => exact ⟨v, found, BEq.refl v⟩
  | some equal =>
      cases found
      exact ⟨_, rfl, BEq.symm equal⟩

theorem named_of_beq {x y : Value N} (same : (x == y) = true)
    (named : listItemToPathElement sc t x = .ok pe) :
    ∃ other, listItemToPathElement sc t y = .ok other ∧ (other == pe) = true := by
  have kinds := Value.kind_of_beq same
  by_cases noKeys : t.keys = []
  · have associative := associative_of_named named
    obtain ⟨scalar, rfl⟩ := (set_named_iff associative noKeys).mp named
    have scalarKind : ∀ v : Value N, v.isScalar = true ↔ kind v = .scalar := by
      intro v
      cases v <;> simp [Value.isScalar, kind]
    have otherScalar : y.isScalar = true := by
      rw [scalarKind, ← kinds]
      exact (scalarKind x).mp scalar
    exact ⟨_, (set_named_iff associative noKeys).mpr ⟨otherScalar, rfl⟩, BEq.symm same⟩
  · have isMap : ∃ bindings, y = .map bindings := by
      obtain ⟨⟨bindings, rfl⟩, -⟩ :=
        (keyed_named_iff (associative_of_named named) noKeys).mp named
      cases y <;> first | exact ⟨_, rfl⟩ | cases kinds
    obtain ⟨bindings, rfl⟩ := isMap
    apply named_of_keys named noKeys
    intro name _ v found
    exact keyValueOf_congr (Value.get?_of_beq same name) found

end Lawful

end Typed

end StructuredMergeDiff
