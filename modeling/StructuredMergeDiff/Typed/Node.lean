import StructuredMergeDiff.FieldPath.Declared
import StructuredMergeDiff.Typed.Helpers

/-!
Contract: typed values as trees.

All walkers see a value in the same way: its type is narrowed to the
alternative that fits, items of a granular list and entries of a granular map
are its children, and every child has a path element. Scalars, atomic lists
and atomic maps have no children.

Owns: `Node`, `Kid`, `kids`, the nodes at a path, and leaves.

A list item without a path element is a child under the element `unset`, which
is not a proper one. Only duplicates give more than one node at a proper path.
-/

namespace StructuredMergeDiff

open Library Std

variable {N : Type}

/-- The path element selects a map entry or a list item. -/
def PathElement.isProper : PathElement N → Bool
  | .unset => false
  | _ => true

/-- Is the alternative handled as a leaf? -/
def Alternative.isLeaf : Alternative N → Bool
  | .scalar _ => true
  | .list t => t.elementRelationship = .atomic
  | .map t => t.elementRelationship = .atomic

namespace Typed

/-- A value together with its type. -/
structure Node (N : Type) where
  type : TypeRef N
  value : Value N

/-- A child: a list item or a map entry. `name` gives its path element, which for a
list item depends on the value; `named` tells list items and undeclared entries from
declared struct fields. -/
structure Kid (N : Type) where
  named : Bool
  type : TypeRef N
  name : Value N → PathElement N
  value : Value N

namespace Kid

def pe (k : Kid N) : PathElement N :=
  k.name k.value

def node (k : Kid N) : Node N :=
  ⟨k.type, k.value⟩

/-- The same child with another value. -/
def replace (k : Kid N) (v : Value N) : Kid N :=
  { k with value := v }

@[simp] theorem replace_node (k : Kid N) (v : Value N) : (k.replace v).node = ⟨k.type, v⟩ := rfl

@[simp] theorem replace_named (k : Kid N) (v : Value N) : (k.replace v).named = k.named := rfl

end Kid

def listKid (sc : Schema N) (t : ListType N) (item : Value N) : Kid N :=
  ⟨true, t.elementType, itemPathElement sc t, item⟩

def mapKid (t : MapType N) (entry : String × Value N) : Kid N :=
  ⟨(t.findField entry.1).isNone, t.fieldType entry.1, fun _ => .fieldName entry.1, entry.2⟩

/-- The children under an alternative. -/
def kidsOf (sc : Schema N) (alternative : Alternative N) (v : Value N) : List (Kid N) :=
  match alternative with
  | .scalar _ => []
  | .list t => if t.elementRelationship = .atomic then [] else v.items.map (listKid sc t)
  | .map t => if t.elementRelationship = .atomic then [] else v.entries.map (mapKid t)

/-- The children of a node. -/
def kids (sc : Schema N) (n : Node N) : List (Kid N) :=
  match resolveSchema sc n.type n.value with
  | .ok alternative => kidsOf sc alternative n.value
  | .error _ => []

/-- A scalar, or a list or map that is handled as a whole. -/
def holdsItself (sc : Schema N) (n : Node N) : Bool :=
  match resolveSchema sc n.type n.value with
  | .ok alternative => alternative.isLeaf
  | .error _ => false

/-- A leaf: a scalar that is not null, or a value of an atomic list or map type. -/
def isLeaf (sc : Schema N) (n : Node N) : Bool :=
  match resolveSchema sc n.type n.value with
  | .ok (.scalar _) => !n.value.isNull
  | .ok alternative => alternative.isLeaf
  | .error _ => false

variable {sc : Schema N}

theorem kidsOf_of_isLeaf {alternative : Alternative N} (v : Value N)
    (leaf : alternative.isLeaf = true) : kidsOf sc alternative v = [] := by
  cases alternative with
  | scalar t => rfl
  | list t => exact if_pos (by simpa [Alternative.isLeaf] using leaf)
  | map t => exact if_pos (by simpa [Alternative.isLeaf] using leaf)

variable {n : Node N}

theorem kids_of_holdsItself (leaf : holdsItself sc n = true) :
    kids sc n = [] := by
  unfold holdsItself at leaf
  unfold kids
  split at leaf
  · exact kidsOf_of_isLeaf _ leaf
  · cases leaf

theorem holdsItself_of_isLeaf (leaf : isLeaf sc n = true) :
    holdsItself sc n = true := by
  unfold isLeaf at leaf
  unfold holdsItself
  split at leaf
  · next resolved => rw [resolved]; rfl
  · next resolved => rw [resolved]; exact leaf
  · cases leaf

theorem kidsOf_eq_nil (alternative : Alternative N) {v : Value N} (noItems : v.items = [])
    (noEntries : v.entries = []) : kidsOf sc alternative v = [] := by
  cases alternative <;> simp [kidsOf, noItems, noEntries]

theorem kids_null (sc : Schema N) (tr : TypeRef N) : kids sc ⟨tr, .null⟩ = [] := by
  unfold kids
  split
  · exact kidsOf_eq_nil _ rfl rfl
  · rfl

theorem mem_kidsOf {alternative : Alternative N} {v : Value N} {k : Kid N}
    (member : k ∈ kidsOf sc alternative v) :
    (∃ t item, alternative = .list t ∧ t.elementRelationship ≠ .atomic ∧ item ∈ v.items ∧
      k = listKid sc t item) ∨
    ∃ t entry, alternative = .map t ∧ t.elementRelationship ≠ .atomic ∧ entry ∈ v.entries ∧
      k = mapKid t entry := by
  cases alternative with
  | scalar t => cases member
  | list t =>
      unfold kidsOf at member
      dsimp only at member
      split at member
      · cases member
      · next granular =>
          obtain ⟨item, inItems, rfl⟩ := List.mem_map.mp member
          exact Or.inl ⟨t, item, rfl, granular, inItems, rfl⟩
  | map t =>
      unfold kidsOf at member
      dsimp only at member
      split at member
      · cases member
      · next granular =>
          obtain ⟨entry, inEntries, rfl⟩ := List.mem_map.mp member
          exact Or.inr ⟨t, entry, rfl, granular, inEntries, rfl⟩

/-- A child comes from the alternative to which the type narrows. -/
theorem mem_kids {k : Kid N} (member : k ∈ kids sc n) :
    (∃ t item, resolveSchema sc n.type n.value = .ok (.list t) ∧ t.elementRelationship ≠ .atomic ∧
      item ∈ n.value.items ∧ k = listKid sc t item) ∨
    ∃ t entry, resolveSchema sc n.type n.value = .ok (.map t) ∧ t.elementRelationship ≠ .atomic ∧
      entry ∈ n.value.entries ∧ k = mapKid t entry := by
  unfold kids at member
  split at member
  · next alternative resolved =>
      rcases mem_kidsOf member with ⟨t, item, rfl, parts⟩ | ⟨t, entry, rfl, parts⟩
      · exact Or.inl ⟨t, item, resolved, parts⟩
      · exact Or.inr ⟨t, entry, resolved, parts⟩
  · cases member

theorem kids_list {t : ListType N} (resolved : resolveSchema sc n.type n.value = .ok (.list t))
    (granular : t.elementRelationship ≠ .atomic)
    : kids sc n = n.value.items.map (listKid sc t) := by
  simp only [kids, resolved, kidsOf, if_neg granular]

theorem kids_map {t : MapType N} (resolved : resolveSchema sc n.type n.value = .ok (.map t))
    (granular : t.elementRelationship ≠ .atomic) : kids sc n = n.value.entries.map (mapKid t) := by
  simp only [kids, resolved, kidsOf, if_neg granular]

theorem depth_lt_of_mem_kids {k : Kid N} (member : k ∈ kids sc n) :
    k.value.depth < n.value.depth := by
  rcases mem_kids member with ⟨t, item, _, _, inItems, rfl⟩ | ⟨t, entry, _, _, inEntries, rfl⟩
  · exact Value.depth_lt_of_mem_items inItems
  · exact Value.depth_lt_of_mem_entries inEntries

/-! ## Tests on all nodes -/

/-- The test and, for the children, the visit. -/
def everyNodeBody (sc : Schema N) (test : Node N → Bool) (visit : Node N → Bool) (n : Node N) :
    Bool :=
  test n && (kids sc n).all fun k => visit k.node

/-- The test holds for the node and all nodes beneath it. -/
def everyNode (sc : Schema N) (test : Node N → Bool) (n : Node N) : Bool :=
  measured (fun n => n.value.depth) (everyNodeBody sc test) (fun _ => true) n

theorem everyNode_iff (sc : Schema N) (test : Node N → Bool) (n : Node N) :
    everyNode sc test n = true ↔
      test n = true ∧ ∀ k ∈ kids sc n, everyNode sc test k.node = true := by
  have descends : Descends (fun n : Node N => n.value.depth) (everyNodeBody sc test) := by
    intro first second n agree
    unfold everyNodeBody
    congr 1
    rw [Bool.eq_iff_iff, List.all_eq_true, List.all_eq_true]
    refine forall₂_congr fun k member => ?_
    rw [agree k.node (depth_lt_of_mem_kids member)]
  unfold everyNode
  rw [measured_eq descends]
  simp [everyNodeBody]

theorem everyNode_imp {first second : Node N → Bool} (imp : ∀ n, first n = true → second n = true)
    (every : everyNode sc first n = true) : everyNode sc second n = true := by
  induction bound : n.value.depth using Nat.strong_induction_on generalizing n with
  | _ depth ih =>
      subst bound
      rw [everyNode_iff] at every ⊢
      exact ⟨imp n every.1, fun k member =>
        ih _ (depth_lt_of_mem_kids member) (every.2 k member) rfl⟩

/-! ## Narrowing -/

/-- Which alternative of a type fits: a scalar, a list, a map, or none for null. -/
inductive Kind where
  | null
  | scalar
  | list
  | map
deriving DecidableEq

def kind : Value N → Kind
  | .null => .null
  | .list _ => .list
  | .map _ => .map
  | _ => .scalar

theorem deduceAtom_congr (atom : Atom N) {v w : Value N} (same : kind v = kind w) :
    deduceAtom atom v = deduceAtom atom w := by
  cases v <;> cases w <;> simp [kind] at same <;> rfl

theorem resolveSchema_congr (sc : Schema N) (tr : TypeRef N) {v w : Value N}
    (same : kind v = kind w) : resolveSchema sc tr v = resolveSchema sc tr w := by
  unfold resolveSchema
  cases sc.resolve tr with
  | none => rfl
  | some atom => simp only [deduceAtom_congr atom same]

/-! ## Paths -/

section Paths

variable [Numeric N]

/-- The children with a path element. -/
def kidsAt (sc : Schema N) (n : Node N) (pe : PathElement N) : List (Kid N) :=
  (kids sc n).filter fun k => k.pe == pe

/-- The nodes at a path. -/
def nodesAt (sc : Schema N) : Node N → Path N → List (Node N)
  | n, [] => [n]
  | n, pe :: rest => (kidsAt sc n pe).flatMap fun k => nodesAt sc k.node rest

theorem nodesAt_append (sc : Schema N) (n : Node N) (first second : Path N) :
    nodesAt sc n (first ++ second) =
      (nodesAt sc n first).flatMap fun m => nodesAt sc m second := by
  induction first generalizing n with
  | nil => simp [nodesAt]
  | cons pe rest ih =>
      simp only [List.cons_append, nodesAt, List.flatMap_assoc, ih]

theorem nodesAt_ne_nil_of_append {first second : Path N}
    (found : nodesAt sc n (first ++ second) ≠ []) : nodesAt sc n first ≠ [] := by
  intro none
  rw [nodesAt_append, none] at found
  exact found rfl

theorem mem_kidsAt {pe : PathElement N} {k : Kid N} :
    k ∈ kidsAt sc n pe ↔ k ∈ kids sc n ∧ (k.pe == pe) = true :=
  List.mem_filter

/-- A test that all nodes pass is passed by all that are beneath a path. -/
theorem everyNode_nodesAt {test : Node N → Bool} (every : everyNode sc test n = true)
    (path : Path N) :
    ∀ m ∈ nodesAt sc n path, everyNode sc test m = true := by
  induction path generalizing n with
  | nil =>
      intro m member
      rwa [List.mem_singleton.mp member]
  | cons pe rest ih =>
      intro m member
      obtain ⟨k, inKids, beneath⟩ := List.mem_flatMap.mp member
      exact ih (((everyNode_iff sc test n).mp every).2 k (mem_kidsAt.mp inKids).1) m beneath

end Paths

/-! ## Children and declared fields -/

/-- Narrowing keeps an alternative as it is, or drops it. -/
theorem deduceAtom_parts (atom : Atom N) (v : Value N) :
    (∀ t, (deduceAtom atom v).map = some t → atom.map = some t) ∧
      ∀ t, (deduceAtom atom v).list = some t → atom.list = some t := by
  have keeps : (∀ t, atom.map = some t → atom.map = some t) ∧
      ∀ t, atom.list = some t → atom.list = some t := ⟨fun _ same => same, fun _ same => same⟩
  unfold deduceAtom
  split
  · split
    · simp
    · exact keeps
  · split
    · split
      · next isList => simp [isList]
      · exact keeps
    · split
      · split
        · next isMap => simp [isMap]
        · exact keeps
      · exact keeps

private theorem handleAtom_deduced {tr : TypeRef N} {v : Value N} {alternative : Alternative N}
    (resolved : resolveSchema sc tr v = .ok alternative) :
    handleAtom (deduceAtom (FieldSet.atomAt sc tr) v) tr = .ok alternative := by
  unfold resolveSchema at resolved
  unfold FieldSet.atomAt
  split at resolved
  · cases resolved
  · next atom isAtom => rwa [isAtom]

theorem resolveSchema_map {tr : TypeRef N} {v : Value N} {t : MapType N}
    (resolved : resolveSchema sc tr v = .ok (.map t)) :
    (FieldSet.atomAt sc tr).map = some t := by
  have handled := handleAtom_deduced resolved
  unfold handleAtom at handled
  split at handled
  · next isMap =>
      cases handled
      exact (deduceAtom_parts _ v).1 _ isMap
  all_goals cases handled

theorem resolveSchema_list {tr : TypeRef N} {v : Value N} {t : ListType N}
    (resolved : resolveSchema sc tr v = .ok (.list t)) :
    (FieldSet.atomAt sc tr).list = some t := by
  have handled := handleAtom_deduced resolved
  unfold handleAtom at handled
  split at handled
  · cases handled
  · cases handled
  · next isList =>
      cases handled
      exact (deduceAtom_parts _ v).2 _ isList
  · cases handled

/-- Items are named by their key fields or, if they are scalars, by their value. -/
theorem listItemToPathElement_cases {t : ListType N} {item : Value N} {pe : PathElement N}
    (named : listItemToPathElement sc t item = .ok pe) :
    (∃ fields, pe = .key fields) ∨ (pe = .value item ∧ item.isScalar = true) := by
  unfold listItemToPathElement at named
  split at named
  · cases named
  · split at named
    · unfold keyedAssociativeListItemToPathElement at named
      split at named
      · cases named
      · split at named
        · cases named
        · cases named
          exact Or.inl ⟨_, rfl⟩
      · cases named
    · unfold setItemToPathElement at named
      split at named
      · cases named
      · cases named
      · cases named
      · next notMap notList notNull =>
          cases named
          refine Or.inr ⟨rfl, ?_⟩
          cases item with
          | null => exact absurd rfl notNull
          | list items => exact absurd rfl (notList items)
          | map bindings => exact absurd rfl (notMap bindings)
          | _ => rfl

theorem proper_of_named {t : ListType N} {item : Value N} {pe : PathElement N}
    (named : listItemToPathElement sc t item = .ok pe) :
    pe.isProper = true := by
  rcases listItemToPathElement_cases named with ⟨fields, rfl⟩ | ⟨rfl, -⟩
  · rfl
  · rfl

theorem itemPathElement_cases (sc : Schema N) (t : ListType N) (item : Value N) :
    (∃ fields, itemPathElement sc t item = .key fields) ∨
      (itemPathElement sc t item = .value item ∧ item.isScalar = true) ∨
      itemPathElement sc t item = .unset := by
  unfold itemPathElement
  split
  · next pe named => exact (listItemToPathElement_cases named).imp_right Or.inl
  · exact Or.inr (Or.inr rfl)

/-- The set operations take a child for a declared field exactly if it is one. -/
theorem isDeclared_kid {k : Kid N} (member : k ∈ kids sc n) :
    FieldSet.isDeclared (FieldSet.atomAt sc n.type) k.pe = !k.named := by
  rcases mem_kids member with ⟨t, item, _, _, _, rfl⟩ | ⟨t, entry, resolved, _, _, rfl⟩
  · have name : (listKid sc t item).pe = itemPathElement sc t item := rfl
    rw [name]
    rcases itemPathElement_cases sc t item with ⟨fields, same⟩ | ⟨same, _⟩ | same
    all_goals rw [same]; rfl
  · simp [Kid.pe, mapKid, FieldSet.isDeclared, resolveSchema_map resolved]

/-- The set operations follow the type of a child, unless it has no children. -/
theorem childType_kid {k : Kid N} (member : k ∈ kids sc n) (proper : k.pe.isProper = true) :
    k.type = FieldSet.childType (FieldSet.atomAt sc n.type) k.pe ∨ kids sc k.node = [] := by
  rcases mem_kids member with ⟨t, item, resolved, _, _, rfl⟩ | ⟨t, entry, resolved, _, _, rfl⟩
  · have name : (listKid sc t item).pe = itemPathElement sc t item := rfl
    rw [name] at proper ⊢
    rcases itemPathElement_cases sc t item with ⟨fields, same⟩ | ⟨same, scalar⟩ | same
    · rw [same]
      refine Or.inl ?_
      simp [FieldSet.childType, resolveSchema_list resolved, listKid]
    · refine Or.inr ?_
      unfold kids
      split
      · apply kidsOf_eq_nil <;> cases item <;> simp [Value.isScalar] at scalar <;> rfl
      · rfl
    · rw [same] at proper
      cases proper
  · refine Or.inl ?_
    show t.fieldType entry.1 = FieldSet.childType (FieldSet.atomAt sc n.type) (.fieldName entry.1)
    cases found : t.findField entry.1 <;>
      simp [FieldSet.childType, resolveSchema_map resolved, MapType.fieldType, found]

end Typed

end StructuredMergeDiff
