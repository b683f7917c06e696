import Mathlib.Data.List.Induction
import StructuredMergeDiff.FieldPath.PathElementMap
import StructuredMergeDiff.FieldPath.SetSemantics
import StructuredMergeDiff.Library.Insertion

/-!
Contract: the three sorted slices as finite maps.

`PathElementSet`, `PathElementMap` and `SetNodeMap` are filled one insertion after the
other from the empty slice. What they then hold is read off the insertions.

Owns: what each of the three holds after a run of insertions.
Does not own: the binary search and the shifting of the tail (`Library.SortedSlice`).
-/

set_option autoImplicit false

namespace StructuredMergeDiff

open Library Std FieldSet

variable {N β : Type} [Numeric N]

/-! ## Runs of insertions -/

/-- `PathElementSet.Insert`. -/
def membersInsert (members : List (PathElement N)) (pe : PathElement N) : List (PathElement N) :=
  insertBy id .unset id pe members

/-- The members after the insertions, in their order. -/
def insertMembers (inserted : List (PathElement N)) : List (PathElement N) :=
  inserted.foldl membersInsert []

/-- The map after the insertions, in their order. -/
def insertEntries [Inhabited β] (inserted : List (PathElement N × β)) : PathElementMap N β :=
  inserted.foldl (fun m entry => m.insert entry.1 entry.2) []

/-- The children after the descents, each with what its caller did to the set beneath. -/
def descendEach (descents : List (PathElement N × (FieldSet N → FieldSet N))) :
    List (PathElement N × FieldSet N) :=
  descents.foldl (fun children descent => descend descent.1 descent.2 children) []

theorem insertMembers_concat (inserted : List (PathElement N)) (pe : PathElement N) :
    insertMembers (inserted ++ [pe]) = membersInsert (insertMembers inserted) pe := by
  simp [insertMembers]

theorem insertEntries_concat [Inhabited β] (inserted : List (PathElement N × β))
    (entry : PathElement N × β) :
    insertEntries (inserted ++ [entry]) = (insertEntries inserted).insert entry.1 entry.2 := by
  simp [insertEntries]

theorem descendEach_concat (descents : List (PathElement N × (FieldSet N → FieldSet N)))
    (descent : PathElement N × (FieldSet N → FieldSet N)) :
    descendEach (descents ++ [descent]) =
      descend descent.1 descent.2 (descendEach descents) := by
  simp [descendEach]

/-! ## What the slices hold -/

/-- The members are the path elements inserted. -/
structure HoldsMembers (inserted members : List (PathElement N)) : Prop where
  increasing : SortedBy id members
  has : ∀ pe, FieldSet.membersHas members pe = true ↔ ∃ other ∈ inserted, (other == pe) = true
  insertion : ∀ pe, Placed id id pe members (membersInsert members pe)

/-- The map has the path elements inserted, each with its last value. -/
structure HoldsEntries [Inhabited β] (inserted : List (PathElement N × β))
    (m : PathElementMap N β) : Prop where
  increasing : SortedBy Prod.fst m
  has : ∀ pe, (m.get pe).isSome = true ↔ ∃ entry ∈ inserted, (entry.1 == pe) = true
  last : ∀ pe, m.get pe = (inserted.reverse.find? fun entry => entry.1 == pe).map Prod.snd
  insertion : ∀ pe v, Placed Prod.fst (fun entry => (entry.1, v)) (pe, v) m (m.insert pe v)

/-- The children are the path elements descended to, each with what the callers made of an
empty set. A further descent adds an empty child, or none. -/
structure HoldsChildren (descents : List (PathElement N × (FieldSet N → FieldSet N)))
    (children : List (PathElement N × FieldSet N)) : Prop where
  increasing : SortedBy Prod.fst children
  has : ∀ pe, (FieldSet.childrenGet children pe).isSome = true ↔
    ∃ descent ∈ descents, (descent.1 == pe) = true
  child : ∀ pe, (FieldSet.childrenGet children pe).getD .nil =
    (descents.filter fun descent => descent.1 == pe).foldl (fun s descent => descent.2 s) .nil
  descent : ∀ pe, FieldSet.childrenGet (FieldSet.descend pe id children) pe =
    some ((FieldSet.childrenGet children pe).getD .nil)
  insertion : ∀ pe, Placed Prod.fst id (pe, .nil) children (FieldSet.descend pe id children)

/-! ## Path element sets -/

section Lawful

variable [Consistent N]

theorem insertMembers_holds (inserted : List (PathElement N)) :
    HoldsMembers inserted (insertMembers inserted) := by
  -- the last insertion is the step, so the list is taken apart at its end
  induction inserted using List.reverseRecOn with
  | nil =>
      refine ⟨List.Pairwise.nil, fun pe => ?_, fun pe => insertBy_placed _ _ _ List.Pairwise.nil⟩
      show membersHas [] pe = true ↔ _
      simp [membersHas_nil]
  | append_singleton inserted pe ih =>
      have sorted := ih.increasing
      have increasing : SortedBy id (insertMembers (inserted ++ [pe])) := by
        rw [insertMembers_concat]
        exact insert_member_sorted sorted pe
      refine ⟨increasing, fun wanted => ?_, fun new => insertBy_placed _ _ _ increasing⟩
      rw [insertMembers_concat, membersInsert, membersHas_insert sorted, Bool.or_eq_true,
        ih.has]
      simp [or_and_right, exists_or]

/-! ## Path element maps -/

theorem insertEntries_sorted [Inhabited β] (inserted : List (PathElement N × β)) :
    SortedBy Prod.fst (insertEntries inserted) := by
  induction inserted using List.reverseRecOn with
  | nil => exact List.Pairwise.nil
  | append_singleton inserted entry ih =>
      rw [insertEntries_concat]
      exact PathElementMap.insert_sorted ih _ _

/-- The last insertion under a path element decides. -/
theorem get_insertEntries [Inhabited β] (inserted : List (PathElement N × β))
    (pe : PathElement N) :
    (insertEntries inserted).get pe =
      (inserted.reverse.find? fun entry => entry.1 == pe).map Prod.snd := by
  induction inserted using List.reverseRecOn with
  | nil => rfl
  | append_singleton inserted entry ih =>
      rw [insertEntries_concat, PathElementMap.get_insert (insertEntries_sorted inserted),
        ih, List.reverse_append, List.reverse_singleton, List.singleton_append,
        List.find?_cons]
      cases entry.1 == pe <;> rfl

theorem insertEntries_holds [Inhabited β] (inserted : List (PathElement N × β)) :
    HoldsEntries inserted (insertEntries inserted) where
  increasing := insertEntries_sorted inserted
  has pe := by
    rw [get_insertEntries, Option.isSome_map, List.find?_isSome]
    simp
  last := get_insertEntries inserted
  insertion _ _ := insertBy_placed _ _ _ (insertEntries_sorted inserted)

/-! ## Set node maps -/

theorem FieldSet.descend_sorted {children : List (PathElement N × FieldSet N)}
    (sorted : SortedBy Prod.fst children) (pe : PathElement N)
    (update : FieldSet N → FieldSet N) : SortedBy Prod.fst (descend pe update children) :=
  insertBy_sorted sorted _ _ _ fun other _ => BEq.refl other.1

/-- A descent changes what is found under its path element only. -/
theorem FieldSet.childrenGet_descend {children : List (PathElement N × FieldSet N)}
    (sorted : SortedBy Prod.fst children) (pe wanted : PathElement N)
    (update : FieldSet N → FieldSet N) :
    childrenGet (descend pe update children) wanted =
      if pe == wanted then some (update ((childrenGet children wanted).getD nil))
      else childrenGet children wanted := by
  have lookup := lookupBy_insertBy sorted (.unset, nil)
    (fun node : PathElement N × FieldSet N => (node.1, update node.2)) (pe, update nil)
    (fun other _ => BEq.refl other.1) wanted
  rw [childrenGet, childrenGet, getBy_eq_lookupBy (descend_sorted sorted pe update),
    getBy_eq_lookupBy sorted, descend, lookup]
  by_cases same : (pe == wanted) = true
  · rw [if_pos same, if_pos same]
    cases lookupBy Prod.fst wanted children <;> rfl
  · rw [if_neg same, if_neg same]

section

variable (descents : List (PathElement N × (FieldSet N → FieldSet N)))

include descents

theorem descendEach_sorted :
    SortedBy Prod.fst (descendEach descents) := by
  induction descents using List.reverseRecOn with
  | nil => exact List.Pairwise.nil
  | append_singleton descents descent ih =>
      rw [descendEach_concat]
      exact descend_sorted ih _ _

/-- The updates under a path element are applied one after the other to an empty set. -/
theorem childrenGet_descendEach (pe : PathElement N) :
    ((childrenGet (descendEach descents) pe).isSome = true ↔
        ∃ descent ∈ descents, (descent.1 == pe) = true) ∧
      (childrenGet (descendEach descents) pe).getD .nil =
        (descents.filter fun descent => descent.1 == pe).foldl
          (fun s descent => descent.2 s) .nil := by
  induction descents using List.reverseRecOn with
  | nil =>
      have nothing : childrenGet (descendEach []) pe = none := rfl
      simp [nothing]
  | append_singleton descents descent ih =>
      obtain ⟨isSome, child⟩ := ih
      rw [descendEach_concat, childrenGet_descend (descendEach_sorted descents),
        List.filter_append, List.foldl_append, ← child]
      by_cases same : (descent.1 == pe) = true
      · simp [same]
      · rw [if_neg same, isSome]
        simp [same]

theorem descendEach_holds :
    HoldsChildren descents (descendEach descents) where
  increasing := descendEach_sorted descents
  has pe := (childrenGet_descendEach descents pe).1
  child pe := (childrenGet_descendEach descents pe).2
  descent pe := by
    rw [childrenGet_descend (descendEach_sorted descents), if_pos (BEq.refl pe)]
    rfl
  insertion _ := insertBy_placed _ _ _ (descendEach_sorted descents)

end

/-! ## All three -/

/-- After any insertions into the empty slices, the three containers are finite maps of what
has been inserted. -/
theorem sorted_containers_are_finite_maps [Inhabited β] :
    (∀ inserted : List (PathElement N), HoldsMembers inserted (insertMembers inserted)) ∧
      (∀ inserted : List (PathElement N × β), HoldsEntries inserted (insertEntries inserted)) ∧
      ∀ descents : List (PathElement N × (FieldSet N → FieldSet N)),
        HoldsChildren descents (descendEach descents) :=
  ⟨insertMembers_holds, insertEntries_holds, descendEach_holds⟩

end Lawful

/-- Integers inserted out of order, the first of them twice: the second value replaces the
first one where it stands. -/
theorem sorted_containers_of_integers :
    let pe := fun n : Int => (.value (.number n) : PathElement Int)
    HoldsEntries [(pe 2, "b"), (pe 1, "a"), (pe 2, "c")]
        (insertEntries [(pe 2, "b"), (pe 1, "a"), (pe 2, "c")]) ∧
      (insertEntries [(pe 2, "b"), (pe 1, "a"), (pe 2, "c")]).map Prod.snd = ["a", "c"] :=
  ⟨sorted_containers_are_finite_maps.2.1 _, by decide +kernel⟩

end StructuredMergeDiff
