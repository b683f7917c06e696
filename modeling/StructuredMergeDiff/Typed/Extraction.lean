import StructuredMergeDiff.Typed.OwnershipViews
import StructuredMergeDiff.Typed.Equivalence

/-!
Contract: extraction of a partial object from what it was merged into.

A member of the set is extracted by a walk of its value with the set of its
parent. That is harmless where the value is a scalar or handled as a whole. Where
the partial object has null in place of a map, the walk takes from the map of the
object every entry that has the name of a sibling.

Owns: what is extracted with the leaves of a partial object, and when it is that
object again.
-/

namespace StructuredMergeDiff.Typed

open Library Std Compare FieldSet

variable {N : Type} [Numeric N] [Consistent N] {sc : Schema N} {pe : PathElement N} {tr : TypeRef N}
  {v : Value N}

/-! ## Equal names and children -/

theorem FieldSet.withPrefix_congr {set : FieldSet N} (canonical : set.Canonical)
    {first second : PathElement N} (same : (first == second) = true) :
    set.withPrefix first = set.withPrefix second := by
  rw [withPrefix_eq canonical, withPrefix_eq canonical, lookupBy_congr _ _ same]

theorem has_single_congr {set : FieldSet N} (canonical : set.Canonical)
    {first second : PathElement N} (same : (first == second) = true) :
    set.has [first] = set.has [second] :=
  has_congr canonical (by simp [same])

omit [Consistent N] in
theorem kidsAt_ne_nil_iff :
    kidsAt sc ⟨tr, v⟩ pe ≠ [] ↔ kidValues sc tr (some v) pe ≠ [] := by
  simp [kidValues]

omit [Consistent N] in
theorem kidValues_items {t : ListType N} (granular : t.elementRelationship ≠ .atomic)
    (resolved : resolveSchema sc tr v = .ok (.list t)) (proper : pe.isProper = true) :
    kidValues sc tr (some v) pe = entriesAt (namedItems sc t v.items) pe := by
  rw [kidValues_of_resolved resolved, kidValuesOf_list granular _ proper]
  cases v <;> rfl

/-! ## The walk -/

/-- The extracting walk. -/
abbrev extract (sc : Schema N) (tr : TypeRef N) (v : Value N) (set : FieldSet N) : Value N :=
  removeItemsWithSchema sc tr v set true

/-- Does the set select what is under the path element? -/
def selects (set : FieldSet N) (pe : PathElement N) : Bool :=
  set.has [pe] || !(set.withPrefix pe).isEmpty

/-- The set with which the walk goes on under a path element it selects. -/
def onward (set : FieldSet N) (pe : PathElement N) : FieldSet N :=
  if set.has [pe] then set else set.withPrefix pe

omit [Consistent N] in
@[simp] theorem removeItems_null (tr : TypeRef N) (set : FieldSet N) (shouldExtract : Bool) :
    removeItemsWithSchema sc tr .null set shouldExtract = .null := by
  rw [removeItemsWithSchema_eq]
  unfold Remove.body
  split <;> rfl

omit [Numeric N] [Consistent N] in
/-- A list or map without content. -/
def emptyContainer (v : Value N) : Bool :=
  (v.isList && v.items.isEmpty) || (v.isMap && v.entries.isEmpty)

/-- Scalars and values that are handled as a whole are extracted as they are. -/
theorem extract_of_holdsItself (sound : Sound sc false ⟨tr, v⟩)
    (leaf : holdsItself sc ⟨tr, v⟩ = true) (filled : emptyContainer v = false) (set : FieldSet N)
    : extract sc tr v set = v := by
  obtain ⟨alternative, resolved, fits⟩ := sound.alternative
  simp only at resolved
  simp only [holdsItself, resolved] at leaf
  rw [extract, removeItemsWithSchema_eq]
  simp only [Remove.body, resolved]
  cases alternative with
  | scalar t => rfl
  | list t =>
      have atomic : t.elementRelationship = .atomic := by simpa [Alternative.isLeaf] using leaf
      rcases fits with rfl | ⟨items, rfl, -⟩
      · rfl
      · have held : items.isEmpty = false := by
          simpa [emptyContainer, Value.isList, Value.isMap, Value.items] using filled
        simp [Remove.doList, held, atomic]
  | map t =>
      have atomic : t.elementRelationship = .atomic := by simpa [Alternative.isLeaf] using leaf
      rcases fits with rfl | ⟨bindings, rfl, -⟩
      · rfl
      · have held : (Value.map bindings).entries.isEmpty = false := by
          simpa [emptyContainer, Value.isList, Value.isMap] using filled
        simp [Remove.doMap, held, atomic]

omit [Consistent N] in
theorem Remove.doMap_granular {t : MapType N} (granular : t.elementRelationship ≠ .atomic)
    (shouldExtract : Bool) (visit : Remove.Call N → Value N) (v : Value N) (set : FieldSet N) :
    Remove.doMap shouldExtract visit t v set =
      if (v.entries.filterMap (Remove.mapEntry shouldExtract visit t set)).isEmpty then .null
      else .map (v.entries.filterMap (Remove.mapEntry shouldExtract visit t set)) := by
  cases v with
  | map bindings =>
      simp only [Remove.doMap, if_neg granular]
      by_cases empty : (Value.map bindings).entries.isEmpty = true
      · have none : (Value.map bindings).entries = [] := List.isEmpty_iff.mp empty
        rw [if_pos empty, none]
        rfl
      · rw [if_neg empty]
  | _ => rfl

omit [Consistent N] in
theorem get?_removeItems {t : MapType N} (resolved : resolveSchema sc tr v = .ok (.map t))
    (granular : t.elementRelationship ≠ .atomic) (set : FieldSet N) (shouldExtract : Bool)
    (name : String) :
    (removeItemsWithSchema sc tr v set shouldExtract).get? name = (v.get? name).bind fun value =>
      (Remove.mapEntry shouldExtract (fun call =>
        removeItemsWithSchema sc call.type call.value call.toRemove shouldExtract) t set
        (name, value)).map Prod.snd := by
  rw [removeItemsWithSchema_eq]
  simp only [Remove.body, resolved, Remove.doMap_granular granular]
  generalize (fun call : Remove.Call N =>
    removeItemsWithSchema sc call.type call.value call.toRemove shouldExtract) = visit
  have keeps : ∀ {entry out : String × Value N},
      Remove.mapEntry shouldExtract visit t set entry = some out → (out.1 == entry.1) = true := by
    intro entry out isOut
    unfold Remove.mapEntry at isOut
    dsimp only at isOut
    split_ifs at isOut <;> cases isOut <;> simp
  have looked : lookupBy Prod.fst name
        (v.entries.filterMap (Remove.mapEntry shouldExtract visit t set)) =
      (lookupBy Prod.fst name v.entries).bind (Remove.mapEntry shouldExtract visit t set) :=
    Join.lookupBy_filterMap keeps v.entries_sorted name
  have found : ∀ newMap : List (String × Value N),
      (if newMap.isEmpty then (Value.null : Value N) else .map newMap).get? name =
        (lookupBy Prod.fst name newMap).map Prod.snd := by
    intro newMap
    split
    · next empty =>
        rw [List.isEmpty_iff.mp empty]
        rfl
    · rw [Value.get?, Value.entries, Value.lookupBy_normalize]
  rw [found, looked, Value.get?]
  cases entry : lookupBy Prod.fst name v.entries with
  | none => rfl
  | some pair =>
      have isName : pair.1 = name := by simpa using key_of_lookupBy entry
      subst isName
      rfl

/-- What is extracted of a child, if anything. -/
def extractKid (sc : Schema N) (set : FieldSet N) (tr : TypeRef N) (pe : PathElement N)
    (v : Value N) : Option (Value N) :=
  if selects set pe then some (extract sc tr v (onward set pe)) else none

section

omit [Consistent N]

section

variable {t : MapType N} (resolved : resolveSchema sc tr v = .ok (.map t))
  (granular : t.elementRelationship ≠ .atomic) (set : FieldSet N)

include resolved granular set

theorem get?_extract (name : String) :
    (extract sc tr v set).get? name =
      (v.get? name).bind (extractKid sc set (t.fieldType name) (.fieldName name)) := by
  rw [extract, get?_removeItems resolved granular]
  congr 1
  funext value
  unfold Remove.mapEntry extractKid selects onward
  dsimp only
  cases set.has [.fieldName name] with
  | true => rfl
  | false => cases (set.withPrefix (.fieldName name)).isEmpty <;> rfl

/-- The kinds of what is extracted from a map. -/
theorem extract_map_cases :
    extract sc tr v set = .null ∨ ∃ bindings, bindings ≠ [] ∧ extract sc tr v set = .map bindings := by
  rw [extract, removeItemsWithSchema_eq]
  simp only [Remove.body, resolved, Remove.doMap_granular granular]
  split
  · exact Or.inl rfl
  · next held => exact Or.inr ⟨_, by simpa using held, rfl⟩

end

theorem removeItems_list {t : ListType N} (resolved : resolveSchema sc tr v = .ok (.list t))
    (granular : t.elementRelationship ≠ .atomic) (set : FieldSet N) (shouldExtract : Bool) :
    removeItemsWithSchema sc tr v set shouldExtract =
      if (v.items.flatMap (Remove.listItem sc shouldExtract (fun call =>
          removeItemsWithSchema sc call.type call.value call.toRemove shouldExtract) t set)).isEmpty
      then .null
      else .list (v.items.flatMap (Remove.listItem sc shouldExtract (fun call =>
        removeItemsWithSchema sc call.type call.value call.toRemove shouldExtract) t set)) := by
  rw [removeItemsWithSchema_eq]
  simp only [Remove.body, resolved]
  cases v with
  | list items =>
      simp only [Remove.doList, if_neg granular, Value.items]
      by_cases empty : items.isEmpty = true
      · rw [if_pos empty, List.isEmpty_iff.mp empty]
        rfl
      · rw [if_neg empty]
        rfl
  | _ => rfl

/-- The items extracted from a list, with a set that has nothing beneath its members. -/
theorem extract_list {t : ListType N} (resolved : resolveSchema sc tr v = .ok (.list t))
    (granular : t.elementRelationship ≠ .atomic) {set : FieldSet N}
    (leafy : ∀ pe, set.has [pe] = true → (set.withPrefix pe).isEmpty = true) :
    extract sc tr v set =
      if (v.items.filterMap fun item =>
          extractKid sc set t.elementType (itemPathElement sc t item) item).isEmpty then .null
      else .list (v.items.filterMap fun item =>
        extractKid sc set t.elementType (itemPathElement sc t item) item) := by
  have item : ∀ item, Remove.listItem sc true (fun call =>
        removeItemsWithSchema sc call.type call.value call.toRemove true) t set item =
      (extractKid sc set t.elementType (itemPathElement sc t item) item).toList := by
    intro item
    have alone := leafy (itemPathElement sc t item)
    unfold Remove.listItem extractKid selects onward
    dsimp only
    cases named : set.has [itemPathElement sc t item] with
    | true =>
        rw [alone named]
        rfl
    | false => cases (set.withPrefix (itemPathElement sc t item)).isEmpty <;> rfl
  rw [extract, removeItems_list resolved granular, funext item, ← List.filterMap_eq_flatMap_toList]

end

/-! ## Leaves of a partial object -/

omit [Numeric N] [Consistent N] in
/-- No list and no map in the value is empty. -/
def containersFilled (sc : Schema N) (n : Node N) : Bool :=
  everyNode sc (fun n => !emptyContainer n.value) n

omit [Numeric N] [Consistent N] in
theorem listsFilled_of_containersFilled {n : Node N} (filled : containersFilled sc n = true) :
    listsFilled sc n = true := by
  refine everyNode_imp (fun n notEmpty => ?_) filled
  unfold emptyList
  split
  · next isList =>
      rw [isList] at notEmpty
      simp [emptyContainer, Value.isList, Value.items] at notEmpty
  · rfl

/-- The set of the recorded paths with nothing recorded beneath them. -/
structure LeafSet (sc : Schema N) (n : Node N) (set : FieldSet N) : Prop where
  canonical : set.Canonical
  has : ∀ path, set.has path = true ↔ path ≠ [] ∧ Recorded sc n path ∧
    ∀ rest, rest ≠ [] → ¬ Recorded sc n (path ++ rest)

section Leaves

variable {n : Node N} {set : FieldSet N}

/-- Without duplicates a child is alone under its path element. -/
theorem kidsAt_of_mem (sound : Sound sc false n) {k : Kid N} (member : k ∈ kidsAt sc n pe)
    : kidsAt sc n pe = [k] := by
  obtain ⟨x, only⟩ := sound.kidValues_toList pe
  have length := congrArg List.length only
  simp only [kidValues, Option.elim_some, List.length_map] at length
  rcases found : kidsAt sc n pe with _ | ⟨other, _ | ⟨_, _⟩⟩
  · rw [found] at member
    cases member
  · rw [found] at member
    rw [List.mem_singleton.mp member]
  · rw [found] at length
    cases x <;> simp at length

theorem recorded_beneath (sound : Sound sc false n) {k : Kid N} (member : k ∈ kidsAt sc n pe)
    {rest : Path N} (proper : rest ≠ []) :
    Recorded sc n (pe :: rest) ↔ Recorded sc k.node rest := by
  rw [recorded_kid sound, kidsAt_of_mem sound member]
  simp [proper]

/-- A child without children is recorded, with nothing beneath it. -/
theorem recorded_of_no_kids (sound : Sound sc false n) (filled : containersFilled sc n = true)
    {k : Kid N} (member : k ∈ kidsAt sc n pe) (none : kids sc k.node = []) :
    Recorded sc n [pe] ∧ ∀ rest, rest ≠ [] → ¬ Recorded sc n (pe :: rest) := by
  have inKids := (mem_kidsAt.mp member).1
  have soundKid := (sound.kid inKids).1
  have filledKid := ((everyNode_iff sc _ n).mp filled).2 k inKids
  constructor
  · rw [recorded_kid sound]
    refine ⟨k, member, ?_⟩
    by_contra unrecorded
    obtain ⟨notLeaf, notAlways⟩ := not_or.mp unrecorded
    rw [recorded_root] at notLeaf
    simp only [true_and, Kid.alwaysRecorded, Bool.or_eq_true, not_or, Bool.not_eq_true] at notAlways
    exact kids_of_not_recorded soundKid (listsFilled_of_containersFilled filledKid)
      (by simpa using notLeaf) notAlways.2 none
  · intro rest proper recorded
    have beneath := nodesAt_of_recorded ((recorded_beneath sound member proper).mp recorded)
    obtain ⟨next, later, rfl⟩ := List.exists_cons_of_ne_nil proper
    simp [nodesAt, kidsAt, none] at beneath

/-- A value with children has a leaf. -/
theorem exists_leaf (sound : Sound sc false n) (filled : containersFilled sc n = true)
    (held : kids sc n ≠ []) : ∃ pe rest, Recorded sc n (pe :: rest) ∧
      ∀ later, later ≠ [] → ¬ Recorded sc n ((pe :: rest) ++ later) := by
  induction bound : n.value.depth using Nat.strong_induction_on generalizing n with
  | _ depth ih =>
      subst bound
      obtain ⟨k, member⟩ := List.exists_mem_of_ne_nil _ held
      have atName : k ∈ kidsAt sc n k.pe := mem_kidsAt.mpr ⟨member, BEq.refl _⟩
      by_cases none : kids sc k.node = []
      · exact ⟨k.pe, [], recorded_of_no_kids sound filled atName none⟩
      · obtain ⟨pe, rest, recorded, last⟩ := ih _ (depth_lt_of_mem_kids member)
          (sound.kid member).1 (((everyNode_iff sc _ n).mp filled).2 k member) none rfl
        refine ⟨k.pe, pe :: rest, (recorded_beneath sound atName (by simp)).mpr recorded,
          fun later proper beneath => last later proper ?_⟩
        exact (recorded_beneath sound atName (by simp)).mp beneath

namespace LeafSet

variable (leaves : LeafSet sc n set)

include leaves

/-- The members are the children without children. -/
theorem has_kid (sound : Sound sc false n) (filled : containersFilled sc n = true) {k : Kid N}
    (member : k ∈ kidsAt sc n pe) :
    set.has [pe] = true ↔ kids sc k.node = [] := by
  rw [leaves.has]
  constructor
  · rintro ⟨-, -, last⟩
    by_contra held
    have inKids := (mem_kidsAt.mp member).1
    obtain ⟨next, rest, recorded, -⟩ := exists_leaf (sound.kid inKids).1
      (((everyNode_iff sc _ n).mp filled).2 k inKids) held
    exact last (next :: rest) (by simp) ((recorded_beneath sound member (by simp)).mpr recorded)
  · intro none
    obtain ⟨recorded, last⟩ := recorded_of_no_kids sound filled member none
    exact ⟨by simp, recorded, last⟩

/-- Beneath a child with children are the leaves of the child. -/
theorem kid (sound : Sound sc false n) {k : Kid N} (member : k ∈ kidsAt sc n pe)
    : LeafSet sc k.node (set.withPrefix pe) where
  canonical := withPrefix_canonical leaves.canonical pe
  has path := by
    by_cases proper : path = []
    · simp [proper]
    · rw [← has_cons _ _ proper, leaves.has, recorded_beneath sound member proper]
      simp only [ne_eq, reduceCtorEq, not_false_eq_true, true_and, proper]
      refine and_congr_right fun _ => forall₂_congr fun rest _ => ?_
      rw [List.cons_append, recorded_beneath sound member (by simp [proper])]

theorem nothing_beneath (isMember : set.has [pe] = true) :
    (set.withPrefix pe).isEmpty = true := by
  rw [isEmpty_iff_has (withPrefix_canonical leaves.canonical pe)]
  intro path
  rw [Bool.eq_false_iff]
  intro beneath
  have proper : path ≠ [] := by
    rintro rfl
    simp at beneath
  rw [← has_cons _ _ proper] at beneath
  exact ((leaves.has [pe]).mp isMember).2.2 path proper ((leaves.has _).mp beneath).2.1

/-- What the set selects are the children. -/
theorem selects_iff (sound : Sound sc false n) (filled : containersFilled sc n = true)
    (pe : PathElement N) : selects set pe = true ↔ kidsAt sc n pe ≠ [] := by
  have canonical := withPrefix_canonical leaves.canonical pe
  have ofRecorded : ∀ rest, Recorded sc n (pe :: rest) → kidsAt sc n pe ≠ [] := by
    intro rest recorded
    obtain ⟨k, member, -⟩ := (recorded_kid sound).mp recorded
    exact List.ne_nil_of_mem member
  unfold selects
  rw [Bool.or_eq_true, Bool.not_eq_true']
  constructor
  · rintro (isMember | beneath)
    · exact ofRecorded [] ((leaves.has _).mp isMember).2.1
    · by_contra none
      have empty : (set.withPrefix pe).isEmpty = true := by
        rw [isEmpty_iff_has canonical]
        intro path
        rw [Bool.eq_false_iff]
        intro found
        have proper : path ≠ [] := by
          rintro rfl
          simp at found
        rw [← has_cons _ _ proper] at found
        exact ofRecorded path ((leaves.has _).mp found).2.1 none
      rw [beneath] at empty
      cases empty
  · intro held
    obtain ⟨k, member⟩ := List.exists_mem_of_ne_nil _ held
    by_cases none : kids sc k.node = []
    · exact Or.inl ((leaves.has_kid sound filled member).mpr none)
    · right
      have inKids := (mem_kidsAt.mp member).1
      obtain ⟨next, rest, recorded, last⟩ := exists_leaf (sound.kid inKids).1
        (((everyNode_iff sc _ n).mp filled).2 k inKids) none
      have found := ((leaves.kid sound member).has (next :: rest)).mpr ⟨by simp, recorded, last⟩
      rw [Bool.eq_false_iff, ne_eq, isEmpty_iff_has canonical]
      intro nothing
      rw [nothing] at found
      cases found

end LeafSet

end Leaves

end StructuredMergeDiff.Typed
