import StructuredMergeDiff.Typed.Alignment
import StructuredMergeDiff.Typed.Difference
import StructuredMergeDiff.Typed.Names

/-!
Contract: one level of a merge.

Owns: what the merging walker does under one alternative of a type, given that
the children merge: the entries of a merged map, the items of a merged list and
their order.

Does not own: that children merge (`Typed.MergeSpec`).
-/

namespace StructuredMergeDiff.Typed

open Library Std Compare Value Typed.Merge

variable {N : Type} [Numeric N] {sc : Schema N} {pes : List (PathElement N × Value N)}
  {tr : TypeRef N} {alternative : Alternative N}

/-- The value that a merge sets. -/
def merged (sc : Schema N) (tr : TypeRef N) (lhs rhs : Option (Value N)) : Option (Value N) :=
  (mergeWalk sc tr lhs rhs).bind MergeWalk.out

/-- The merge sets a value and reports no error. -/
def Merges (sc : Schema N) (tr : TypeRef N) (lhs rhs : Option (Value N)) : Prop :=
  ∃ m, mergeWalk sc tr lhs rhs = some { out := some m, errs := [] }

theorem Merges.merged {lhs rhs : Option (Value N)} (merges : Merges sc tr lhs rhs)
    : ∃ m, merged sc tr lhs rhs = some m ∧
    mergeWalk sc tr lhs rhs = some { out := some m, errs := [] } := by
  obtain ⟨m, walk⟩ := merges
  exact ⟨m, by simp [Typed.merged, walk], walk⟩

/-- What is merged under a path element that has these values on either side.
Duplicates of the left side stay as they are unless the right side has the item. -/
def mergeAll (sc : Schema N) (tr : TypeRef N) (ls : List (Value N)) : List (Value N) → List (Value N)
  | [] => ls.filterMap fun x => merged sc tr (some x) none
  | y :: _ => (merged sc tr (Merge.indexedValue ls) (some y)).toList

@[simp] theorem merged_none [Consistent N] (tr : TypeRef N) : merged sc tr none none = none := by
  rw [merged, mergeWalk_eq]
  rfl

omit [Numeric N] in
@[simp] theorem indexedValue_toList (x : Option (Value N)) :
    Merge.indexedValue x.toList = x := by
  cases x <;> rfl

theorem mergeAll_toList [Consistent N] (tr : TypeRef N) (x y : Option (Value N)) :
    mergeAll sc tr x.toList y.toList = (merged sc tr x y).toList := by
  cases y with
  | some y => rw [Option.toList_some, mergeAll, indexedValue_toList]
  | none =>
      cases x with
      | none => simp [mergeAll]
      | some x => cases found : merged sc tr (some x) none <;> simp [mergeAll, found]

namespace Merge

/-- The visits of the children. -/
abbrev visitKid (sc : Schema N) : Call N → Option (MergeWalk N) :=
  fun call => mergeWalk sc call.type call.lhs call.rhs

/-- The walk under one alternative. -/
def under (sc : Schema N) (alternative : Alternative N) (lhs rhs : Option (Value N)) :
    Option (MergeWalk N) :=
  match alternative with
  | .scalar t => some (doScalar t lhs rhs)
  | .list t => doList sc (visitKid sc) t lhs rhs
  | .map t => doMap (visitKid sc) t lhs rhs

theorem handle_eq_under {atom : Atom N} (handled : handleAtom atom tr = .ok alternative)
    (lhs rhs : Option (Value N)) :
    handle sc (visitKid sc) ⟨tr, lhs, rhs⟩ atom = under sc alternative lhs rhs := by
  simp only [handle, handled]
  cases alternative <;> rfl

end Merge

omit [Numeric N] in
/-- The alternative that decides the shape of a merge: that of the right side, or
of the left one if there is no right one. -/
def Governs (sc : Schema N) (tr : TypeRef N) (lhs rhs : Option (Value N))
    (alternative : Alternative N) : Prop :=
  ∃ v, rhs.or lhs = some v ∧ resolveSchema sc tr v = .ok alternative

omit [Numeric N] in
theorem handleAtom_of_resolved {v : Value N} (resolved : resolveSchema sc tr v = .ok alternative) :
    ∃ atom, sc.resolve tr = some atom ∧ handleAtom (deduceAtom atom v) tr = .ok alternative := by
  unfold resolveSchema at resolved
  cases found : sc.resolve tr with
  | none => rw [found] at resolved; cases resolved
  | some atom => exact ⟨atom, rfl, by simpa [found] using resolved⟩

/-- The walk is that of the governing alternative, with the errors of the left side's
in front if that is walked too. -/
theorem mergeWalk_cases [Consistent N] {lhs rhs : Option (Value N)}
    (governs : Governs sc tr lhs rhs alternative)
    (leftResolves : ∀ x, lhs = some x → ∃ left, resolveSchema sc tr x = .ok left) :
    mergeWalk sc tr lhs rhs = Merge.under sc alternative lhs rhs ∨
      ∃ x left, lhs = some x ∧ resolveSchema sc tr x = .ok left ∧
        mergeWalk sc tr lhs rhs = (Merge.under sc left lhs rhs).bind fun first =>
          (Merge.under sc alternative lhs rhs).map fun second =>
            { second with errs := first.errs ++ second.errs } := by
  obtain ⟨v, isWinner, resolved⟩ := governs
  obtain ⟨atom, isAtom, handled⟩ := handleAtom_of_resolved resolved
  rw [mergeWalk_eq]
  unfold Merge.body
  cases rhs with
  | none =>
      cases lhs with
      | none => cases isWinner
      | some x =>
          cases isWinner
          simp only [isAtom, Compare.deduceAtomOf]
          exact Or.inl (handle_eq_under handled _ _)
  | some y =>
      cases isWinner
      cases lhs with
      | none =>
          simp only [isAtom, Compare.deduceAtomOf]
          exact Or.inl (handle_eq_under handled _ _)
      | some x =>
          simp only [isAtom, Compare.deduceAtomOf]
          by_cases same : (deduceAtom atom x).equals (deduceAtom atom v) = true
          · simp only [same, if_true]
            exact Or.inl (handle_eq_under handled _ _)
          · simp only [same, Bool.false_eq_true, if_false]
            obtain ⟨left, resolvedLeft⟩ := leftResolves x rfl
            have handledLeft : handleAtom (deduceAtom atom x) tr = .ok left := by
              simpa [resolveSchema, isAtom] using resolvedLeft
            refine Or.inr ⟨x, left, rfl, resolvedLeft, ?_⟩
            rw [handle_eq_under handled, handle_eq_under handledLeft]
            cases Merge.under sc left (some x) (some v) with
            | none => rfl
            | some first => cases Merge.under sc alternative (some x) (some v) <;> rfl

/-- The walk is that of the governing alternative, if the left side's raises no error. -/
theorem mergeWalk_eq_under [Consistent N] {lhs rhs : Option (Value N)}
    (governs : Governs sc tr lhs rhs alternative)
    (leftClean : ∀ x left, lhs = some x → resolveSchema sc tr x = .ok left →
      ∃ out, Merge.under sc left lhs rhs = some { out := out, errs := [] })
    (leftResolves : ∀ x, lhs = some x → ∃ left, resolveSchema sc tr x = .ok left) :
    mergeWalk sc tr lhs rhs = Merge.under sc alternative lhs rhs := by
  rcases mergeWalk_cases governs leftResolves with alone | ⟨x, left, isLeft, resolved, both⟩
  · exact alone
  · obtain ⟨out, clean⟩ := leftClean x left isLeft resolved
    rw [both, clean]
    cases Merge.under sc alternative lhs rhs <;> rfl

/-! ## Maps -/

namespace Merge

omit [Numeric N] in
private theorem lookupBy_map_key (names : List String) (f : String → Value N) (name : String) :
    lookupBy Prod.fst name (names.map fun key => (key, f key)) =
      if name ∈ names then some (name, f name) else none := by
  induction names with
  | nil => rfl
  | cons head tail ih =>
      rw [List.map_cons, lookupBy_cons, ih]
      by_cases same : head = name
      · simp [same]
      · simp [same, Ne.symm same]

omit [Numeric N] in
theorem mem_zipKeys_iff {lhs rhs : List (String × Value N)} {name : String} :
    name ∈ Value.zipKeys lhs rhs ↔ valueAt lhs name ≠ none ∨ valueAt rhs name ≠ none := by
  have present : ∀ entries : List (String × Value N),
      name ∈ entries.map Prod.fst ↔ valueAt entries name ≠ none := by
    intro entries
    rw [valueAt, ne_eq, Option.map_eq_none_iff, lookupBy_eq_none]
    simp
  rw [mem_zipKeys, present, present]

/-- Entries that all merge give a map with what they merge to. -/
theorem visitMapItems_merges [Consistent N] {t : MapType N} {lhs rhs : List (String × Value N)}
    (notEmpty : lhs ≠ [] ∨ rhs ≠ [])
    (each : ∀ name, (valueAt lhs name ≠ none ∨ valueAt rhs name ≠ none) →
      Merges sc (t.fieldType name) (valueAt lhs name) (valueAt rhs name)) :
    ∃ bindings, visitMapItems (visitKid sc) t lhs rhs =
        some { out := some (.map bindings), errs := [] } ∧
      ∀ name, (Value.map bindings).get? name =
        merged sc (t.fieldType name) (valueAt lhs name) (valueAt rhs name) := by
  let value : String → Value N := fun name =>
    (merged sc (t.fieldType name) (valueAt lhs name) (valueAt rhs name)).getD .null
  have isValue : ∀ name ∈ Value.zipKeys lhs rhs,
      mergeWalk sc (t.fieldType name) (valueAt lhs name) (valueAt rhs name) =
        some { out := some (value name), errs := [] } ∧
      merged sc (t.fieldType name) (valueAt lhs name) (valueAt rhs name) = some (value name) := by
    intro name member
    obtain ⟨m, isMerged, walk⟩ := (each name (mem_zipKeys_iff.mp member)).merged
    exact ⟨by simpa [value, isMerged] using walk, by simp [value, isMerged]⟩
  have visited : (Value.mapZip lhs rhs).mapM (visitMapItem (visitKid sc) t) =
      some ((Value.zipKeys lhs rhs).map fun name => (some (name, value name), [])) := by
    rw [Value.mapZip, List.mapM_map]
    apply mapM_some
    intro name member
    simp [visitMapItem, (isValue name member).1, ValidationErrors.withPrefix]
  have present : Value.zipKeys lhs rhs ≠ [] := by
    have listed : ∃ name, name ∈ lhs.map Prod.fst ∨ name ∈ rhs.map Prod.fst := by
      rcases notEmpty with left | right
      · obtain ⟨entry, member⟩ := List.exists_mem_of_ne_nil _ left
        exact ⟨entry.1, Or.inl (List.mem_map.mpr ⟨entry, member, rfl⟩)⟩
      · obtain ⟨entry, member⟩ := List.exists_mem_of_ne_nil _ right
        exact ⟨entry.1, Or.inr (List.mem_map.mpr ⟨entry, member, rfl⟩)⟩
    obtain ⟨name, inEither⟩ := listed
    exact List.ne_nil_of_mem (mem_zipKeys.mpr inEither)
  refine ⟨(Value.zipKeys lhs rhs).map fun name => (name, value name), ?_, fun name => ?_⟩
  · have outs : ((Value.zipKeys lhs rhs).map fun name =>
        (some (name, value name), ([] : ValidationErrors N))).filterMap Prod.fst =
        (Value.zipKeys lhs rhs).map fun name => (name, value name) := by
      simp [List.filterMap_map]
    simp [visitMapItems, visited, outs, present]
  · rw [Value.get?, Value.entries, lookupBy_normalize, lookupBy_map_key]
    by_cases member : name ∈ Value.zipKeys lhs rhs
    · rw [if_pos member, (isValue name member).2]
      rfl
    · obtain ⟨noLeft, noRight⟩ := not_or.mp fun listed => member (mem_zipKeys_iff.mpr listed)
      rw [if_neg member, not_not.mp noLeft, not_not.mp noRight, merged_none]
      rfl

end Merge

/-! ## Lists -/

/-- Is there an item of this name? -/
def hasName (pes : List (PathElement N × Value N)) (pe : PathElement N) : Bool :=
  pes.any fun entry => entry.1 == pe

theorem hasName_eq_false {pe : PathElement N} :
    hasName pes pe = false ↔ entriesAt pes pe = [] := by
  simp [hasName, entriesAt_eq_nil]

section Lists

variable [Consistent N] {t : ListType N} {items : List (Value N)}

theorem hasName_congr (pes : List (PathElement N × Value N)) {first second : PathElement N}
    (same : (first == second) = true) : hasName pes first = hasName pes second := by
  unfold hasName
  congr 1
  funext entry
  exact BEq.congr_right same

theorem entriesAt_of_mem (separate : Separate pes) {entry : PathElement N × Value N}
    (member : entry ∈ pes) :
    entriesAt pes entry.1 = [entry.2] := by
  have short := entriesAt_length_of_separate separate entry.1
  have inside : entry.2 ∈ entriesAt pes entry.1 :=
    List.mem_map.mpr ⟨entry, List.mem_filter.mpr ⟨member, BEq.refl _⟩, rfl⟩
  match entriesAt pes entry.1, short, inside with
  | [only], _, inside => rw [List.mem_singleton.mp inside]
  | _ :: _ :: _, short, _ => simp at short

/-- The named items of a merged list: those that only the left side has, in its
order, and those of the right side, in its order, merged with what the left side
has under the name. -/
structure ItemsMerge (sc : Schema N) (tr : TypeRef N)
    (left right out : List (PathElement N × Value N)) : Prop where
  leftOnly : List.Forall₂ (fun entry item => entry.1 = item.1 ∧
      merged sc tr (some item.2) none = some entry.2)
    (out.filter fun entry => !hasName right entry.1) (left.filter fun item => !hasName right item.1)
  fromRight : List.Forall₂ (fun entry item => (entry.1 == item.1) = true ∧
      merged sc tr (Merge.indexedValue (entriesAt left item.1)) (some item.2) = some entry.2)
    (out.filter fun entry => hasName right entry.1) right

omit [Consistent N] in
/-- The names that both lists have come in the same order in both. -/
def SameOrder (left right : List (PathElement N × Value N)) : Prop :=
  List.Forall₂ (fun first second => (first == second) = true)
    ((left.map Prod.fst).filter fun pe => hasName right pe)
    ((right.map Prod.fst).filter fun pe => hasName left pe)

namespace Merge

omit [Consistent N] in
theorem Indexed.Faithful.isSome_eq {index : Indexed N} (faithful : index.Faithful)
    (pe : PathElement N) : (index.observed.get pe).isSome = hasName index.pes pe := by
  rw [Bool.eq_iff_iff, faithful.isSome_iff]
  simp [hasName]

theorem hasName_of_mem {entry : PathElement N × Value N} (member : entry ∈ pes)
    : hasName pes entry.1 = true :=
  List.any_eq_true.mpr ⟨entry, member, BEq.refl _⟩

/-- Lists whose shared names come in one order are aligned from the start. -/
theorem start_aligned {left right : Indexed N} (faithfulLeft : left.Faithful)
    (faithfulRight : right.Faithful) (separate : Separate right.pes)
    (ordered : SameOrder left.pes right.pes) :
    (LoopState.start left right).Aligned left.observed right.observed where
  shared := by
    simpa only [LoopState.sharedLeft, LoopState.sharedRight, LoopState.start,
      faithfulLeft.isSome_eq, faithfulRight.isSome_eq, SameOrder] using ordered
  queue := advance_queue.1
  drained := advance_queue.2
  leftPresent entry member := by
    rw [faithfulLeft.isSome_eq]
    exact hasName_of_mem member
  rightPresent rpe member := by
    obtain ⟨entry, inPes, rfl⟩ := List.mem_map.mp member
    rw [faithfulRight.isSome_eq]
    exact hasName_of_mem inPes
  distinct := List.pairwise_map.mpr separate
  sorted := List.Pairwise.nil
  unmerged _ _ := rfl

/-- What is emitted for named items, in terms of the items. -/
theorem emitted_items {left right : Indexed N} (faithfulLeft : left.Faithful)
    (faithfulRight : right.Faithful) (separate : Separate right.pes)
    {emissions : List (Emission N)} (scheduled : schedule left right = some emissions) :
    (emissions.filter fun emission => !hasName right.pes emission.pe) =
        (left.pes.filter fun entry => !hasName right.pes entry.1).map
          (fun entry => ⟨entry.1, some entry.2, none⟩) ∧
      List.Forall₂ (fun (emission : Emission N) entry => (emission.pe == entry.1) = true ∧
          emission.lChild = indexedValue (entriesAt left.pes entry.1) ∧
          emission.rChild = some entry.2)
        (emissions.filter fun emission => hasName right.pes emission.pe) right.pes := by
  have observed := faithfulRight.isSome_eq
  have unobserved : ∀ pe, (right.observed.get pe).isNone = !hasName right.pes pe := by
    intro pe
    rw [← observed, Option.not_isSome]
  have emitted := (run_of_loop scheduled).emitted faithfulRight.sorted (by
    intro rpe member
    obtain ⟨entry, inPes, rfl⟩ := List.mem_map.mp member
    rw [observed]
    exact hasName_of_mem inPes)
  have isRight : Emission.fromRight right.observed =
      fun emission => hasName right.pes emission.pe := funext fun emission => observed emission.pe
  simp only [isRight, unobserved, LoopState.start] at emitted
  refine ⟨emitted.1, ?_⟩
  have joined := List.forall₂_map_right_iff.mp emitted.2
  rw [List.forall₂_iff_zip] at joined ⊢
  refine ⟨joined.1, fun {emission entry} inZip => ?_⟩
  obtain ⟨same, lChild, rChild⟩ := joined.2 inZip
  refine ⟨same, ?_, ?_⟩
  · rw [lChild, faithfulLeft.get, entriesAt_congr _ same]
  · rw [rChild, faithfulRight.get, entriesAt_congr _ same,
      entriesAt_of_mem separate (List.of_mem_zip inZip).2]
    rfl

omit [Consistent N] in
/-- An item is merged alone, or it is one of the right side's. -/
theorem emission_cases {left right : List (PathElement N × Value N)} {emissions : List (Emission N)}
    (onlyLeft : (emissions.filter fun emission => !hasName right emission.pe) =
      (left.filter fun entry => !hasName right entry.1).map
        fun entry => ⟨entry.1, some entry.2, none⟩)
    (joined : List.Forall₂ (fun (emission : Emission N) entry =>
        (emission.pe == entry.1) = true ∧
          emission.lChild = indexedValue (entriesAt left entry.1) ∧
          emission.rChild = some entry.2)
      (emissions.filter fun emission => hasName right emission.pe) right)
    {emission : Emission N} (member : emission ∈ emissions) :
    (∃ entry ∈ left, emission.lChild = some entry.2 ∧ emission.rChild = none) ∨
      ∃ entry ∈ right, emission.lChild = indexedValue (entriesAt left entry.1) ∧
        emission.rChild = some entry.2 := by
  cases fromRight : hasName right emission.pe with
  | false =>
      have inFilter : emission ∈ emissions.filter fun emission => !hasName right emission.pe :=
        List.mem_filter.mpr ⟨member, by simp [fromRight]⟩
      rw [onlyLeft] at inFilter
      obtain ⟨entry, inLeft, rfl⟩ := List.mem_map.mp inFilter
      exact Or.inl ⟨entry, (List.mem_filter.mp inLeft).1, rfl, rfl⟩
  | true =>
      obtain ⟨entry, inRight, -, children⟩ := exists_of_mem_left joined
        (List.mem_filter.mpr ⟨member, fromRight⟩)
      exact Or.inr ⟨entry, inRight, children⟩

theorem index_named (allowDuplicates : Bool)
    (named : ∀ item ∈ items, ∃ pe, listItemToPathElement sc t item = .ok pe)
    (distinct : allowDuplicates = false → Separate (namedItems sc t items)) :
    (indexListPathElements sc t allowDuplicates 0 .start items).errs = [] ∧
      (indexListPathElements sc t allowDuplicates 0 .start items).pes = namedItems sc t items := by
  have clean : (indexListPathElements sc t allowDuplicates 0 .start items).errs = [] :=
    index_clean Indexed.start_faithful named (by simpa [Indexed.start] using distinct)
  exact ⟨clean, by simpa [Indexed.start] using (index_of_no_errs clean).2.2⟩

omit [Numeric N] [Consistent N] in
private theorem namedItems_ne_nil (present : items ≠ [])
    (named : ∀ item ∈ items, ∃ pe, listItemToPathElement sc t item = .ok pe) :
    namedItems sc t items ≠ [] := by
  obtain ⟨item, rest, rfl⟩ := List.exists_cons_of_ne_nil present
  obtain ⟨pe, isNamed⟩ := named item List.mem_cons_self
  rw [namedItems_cons_ok isNamed]
  simp

/-- Items that all merge give a list of what they merge to. -/
theorem visitListItems_merges {lhs rhs : List (Value N)} (notEmpty : lhs ≠ [] ∨ rhs ≠ [])
    (namedLeft : ∀ item ∈ lhs, ∃ pe, listItemToPathElement sc t item = .ok pe)
    (namedRight : ∀ item ∈ rhs, ∃ pe, listItemToPathElement sc t item = .ok pe)
    (separate : Separate (namedItems sc t rhs))
    (leftMerges : ∀ entry ∈ namedItems sc t lhs, Merges sc t.elementType (some entry.2) none)
    (rightMerges : ∀ entry ∈ namedItems sc t rhs, Merges sc t.elementType
      (indexedValue (entriesAt (namedItems sc t lhs) entry.1)) (some entry.2)) :
    ∃ out, visitListItems sc (visitKid sc) t lhs rhs =
        some { out := some (.list (out.map Prod.snd)), errs := [] } ∧ out ≠ [] ∧
      ItemsMerge sc t.elementType (namedItems sc t lhs) (namedItems sc t rhs) out ∧
      (SameOrder (namedItems sc t lhs) (namedItems sc t rhs) →
        (out.filter fun entry => hasName (namedItems sc t lhs) entry.1).map Prod.fst =
          (namedItems sc t lhs).map Prod.fst) := by
  obtain ⟨cleanRight, pesRight⟩ := index_named false namedRight fun _ => separate
  obtain ⟨cleanLeft, pesLeft⟩ := index_named true namedLeft (by simp)
  have faithfulRight := indexListPathElements_faithful sc t false rhs 0 Indexed.start_faithful
  have faithfulLeft := indexListPathElements_faithful sc t true lhs 0 Indexed.start_faithful
  obtain ⟨emissions, scheduled⟩ := Option.isSome_iff_exists.mp (schedule_isSome
    (indexListPathElements sc t true 0 .start lhs) faithfulRight)
  obtain ⟨onlyLeft, joined⟩ := emitted_items faithfulLeft faithfulRight
    (pesRight ▸ separate) scheduled
  rw [pesLeft, pesRight] at onlyLeft
  rw [pesLeft, pesRight] at joined
  let value : Emission N → Value N := fun emission =>
    (merged sc t.elementType emission.lChild emission.rChild).getD .null
  have merges : ∀ emission ∈ emissions,
      Merges sc t.elementType emission.lChild emission.rChild := by
    intro emission member
    rcases emission_cases onlyLeft joined member with
      ⟨entry, inLeft, lChild, rChild⟩ | ⟨entry, inRight, lChild, rChild⟩
    · rw [lChild, rChild]
      exact leftMerges entry inLeft
    · rw [lChild, rChild]
      exact rightMerges entry inRight
  have isValue : ∀ emission ∈ emissions,
      mergeWalk sc t.elementType emission.lChild emission.rChild =
        some { out := some (value emission), errs := [] } ∧
      merged sc t.elementType emission.lChild emission.rChild = some (value emission) := by
    intro emission member
    obtain ⟨m, isMerged, walk⟩ := (merges emission member).merged
    exact ⟨by simpa [value, isMerged] using walk, by simp [value, isMerged]⟩
  have visited : (emissions.mapM fun emission =>
      visitKid sc ⟨t.elementType, emission.lChild, emission.rChild⟩) =
      some (emissions.map fun emission => { out := some (value emission), errs := [] }) :=
    mapM_some fun emission member => (isValue emission member).1
  have present : emissions ≠ [] := by
    intro none
    rw [none] at onlyLeft joined
    have noRight : namedItems sc t rhs = [] := List.forall₂_nil_left_iff.mp joined
    have noLeft : namedItems sc t lhs = [] := by
      simpa [noRight, hasName] using onlyLeft.symm
    rcases notEmpty with left | right
    · exact namedItems_ne_nil left namedLeft noLeft
    · exact namedItems_ne_nil right namedRight noRight
  refine ⟨emissions.map fun emission => (emission.pe, value emission), ?_,
    by simpa using present, ⟨?_, ?_⟩, ?_⟩
  · have outs : (emissions.map fun emission =>
        ({ out := some (value emission), errs := [] } : MergeWalk N)).filterMap MergeWalk.out =
        emissions.map value := by
      simp [List.filterMap_map]
    have isEmpty : (emissions.map value).isEmpty = false := by simpa using present
    simp only [visitListItems, cleanLeft, cleanRight, scheduled, List.append_nil, List.length_nil,
      ne_eq, not_true_eq_false, if_false, Option.bind_eq_bind, Option.bind_some, visited, outs,
      isEmpty, Bool.false_eq_true, List.map_map, Function.comp_def]
    rfl
  · rw [List.filter_map, List.forall₂_map_left_iff]
    simp only [Function.comp_def, onlyLeft]
    rw [List.forall₂_map_left_iff, List.forall₂_same]
    intro entry member
    obtain ⟨m, isMerged, -⟩ := (leftMerges entry (List.mem_filter.mp member).1).merged
    exact ⟨rfl, by simp [value, isMerged]⟩
  · rw [List.filter_map, List.forall₂_map_left_iff]
    refine forall₂_of_mem joined fun emission inEmissions entry _ pair => ⟨pair.1, ?_⟩
    rw [← pair.2.1, ← pair.2.2]
    exact (isValue emission (List.mem_filter.mp inEmissions).1).2
  · intro ordered
    have aligned := start_aligned faithfulLeft faithfulRight (pesRight ▸ separate)
      (pesLeft ▸ pesRight ▸ ordered)
    have kept := loop_keeps_left_order faithfulLeft.sorted faithfulRight.sorted aligned scheduled
    simp only [faithfulLeft.isSome_eq, pesLeft, LoopState.start] at kept
    rw [List.filter_map, List.map_map]
    exact kept

end Merge

omit [Consistent N] in
private theorem entriesAt_filter {pe : PathElement N} {keep : PathElement N × Value N → Bool}
    (keeps : ∀ entry, (entry.1 == pe) = true → keep entry = true) :
    entriesAt (pes.filter keep) pe = entriesAt pes pe := by
  unfold entriesAt
  rw [List.filter_filter]
  congr 1
  refine List.filter_congr fun entry _ => ?_
  cases same : entry.1 == pe with
  | false => rfl
  | true => simp [keeps entry same]

omit [Consistent N] in
private theorem entriesAt_of_leftOnly {out left : List (PathElement N × Value N)}
    (pairs : List.Forall₂ (fun entry item => entry.1 = item.1 ∧
      merged sc tr (some item.2) none = some entry.2) out left) (pe : PathElement N) :
    entriesAt out pe = (entriesAt left pe).filterMap fun x => merged sc tr (some x) none := by
  induction pairs with
  | nil => rfl
  | @cons entry item _ _ pair _ ih =>
      simp only [entriesAt, List.filter_cons, pair.1] at ih ⊢
      split
      · simpa [pair.2] using ih
      · exact ih

/-- Under each name, a merged list has what the two lists have there, merged. -/
theorem ItemsMerge.entriesAt_eq {left right out : List (PathElement N × Value N)}
    (items : ItemsMerge sc tr left right out) (separate : Separate right) (pe : PathElement N) :
    entriesAt out pe = mergeAll sc tr (entriesAt left pe) (entriesAt right pe) := by
  cases shared : hasName right pe with
  | false =>
      have absent : ∀ entry : PathElement N × Value N, (entry.1 == pe) = true →
          (!hasName right entry.1) = true := by
        intro entry same
        rw [hasName_congr right same, shared]
        rfl
      have inOut : entriesAt (out.filter fun entry => !hasName right entry.1) pe =
        entriesAt out pe := entriesAt_filter absent
      have inLeft : entriesAt (left.filter fun entry => !hasName right entry.1) pe =
        entriesAt left pe := entriesAt_filter absent
      rw [hasName_eq_false.mp shared, mergeAll, ← inOut, ← inLeft]
      exact entriesAt_of_leftOnly items.leftOnly pe
  | true =>
      have present : ∀ entry : PathElement N × Value N, (entry.1 == pe) = true →
          hasName right entry.1 = true := by
        intro entry same
        rw [hasName_congr right same, shared]
      obtain ⟨entry, member, same⟩ := List.any_eq_true.mp shared
      have only : entriesAt right pe = [entry.2] := by
        rw [← entriesAt_congr right same, entriesAt_of_mem separate member]
      have inOut : entriesAt (out.filter fun entry => hasName right entry.1) pe =
        entriesAt out pe := entriesAt_filter present
      rw [only, mergeAll, ← inOut]
      have pairs := List.rel_filter (p := fun o : PathElement N × Value N => o.1 == pe)
        (q := fun item : PathElement N × Value N => item.1 == pe)
        (fun o item pair => by
          change (o.1 == pe) = true ↔ (item.1 == pe) = true
          rw [BEq.congr_left pair.1]) items.fromRight
      have onlyRight : right.filter (fun item => item.1 == pe) = [entry] := by
        have inFilter : entry ∈ right.filter fun item => item.1 == pe :=
          List.mem_filter.mpr ⟨member, same⟩
        cases found : right.filter (fun item => item.1 == pe) with
        | nil => simp [entriesAt, found] at only
        | cons head tail =>
            have noMore : tail = [] := by
              simp only [entriesAt, found, List.map_cons, List.cons.injEq] at only
              exact List.map_eq_nil_iff.mp only.2
            rw [found, noMore, List.mem_singleton] at inFilter
            rw [inFilter, noMore]
      rw [onlyRight] at pairs
      obtain ⟨o, rest, pair, noMore, isOut⟩ := List.forall₂_cons_right_iff.mp pairs
      rw [List.forall₂_nil_right_iff.mp noMore] at isOut
      rw [entriesAt, isOut, ← entriesAt_congr left same, pair.2]
      rfl

/-! ## Names -/

omit [Numeric N] [Consistent N] in
theorem mem_namedItems {item : Value N} {pe : PathElement N} (member : item ∈ items)
    (named : listItemToPathElement sc t item = .ok pe) : (pe, item) ∈ namedItems sc t items :=
  List.mem_filterMap.mpr ⟨item, member, by simp [named]⟩

omit [Numeric N] [Consistent N] in
theorem namedItems_map_snd
    (named : ∀ item ∈ items, ∃ pe, listItemToPathElement sc t item = .ok pe) :
    (namedItems sc t items).map Prod.snd = items := by
  induction items with
  | nil => rfl
  | cons item rest ih =>
      obtain ⟨pe, isNamed⟩ := named item List.mem_cons_self
      rw [namedItems_cons_ok isNamed, List.map_cons,
        ih fun other member => named other (List.mem_cons_of_mem _ member)]

/-- Items whose names are equal to the ones they are listed with. -/
theorem entriesAt_of_named
    (named : ∀ entry ∈ pes, ∃ other, listItemToPathElement sc t entry.2 = .ok other ∧
      (other == entry.1) = true) (pe : PathElement N) :
    entriesAt (namedItems sc t (pes.map Prod.snd)) pe = entriesAt pes pe := by
  induction pes with
  | nil => rfl
  | cons entry rest ih =>
      obtain ⟨other, isNamed, same⟩ := named entry List.mem_cons_self
      have later := ih fun entry member =>
        named entry (List.mem_cons_of_mem _ member)
      rw [List.map_cons, namedItems_cons_ok isNamed]
      simp only [entriesAt, List.filter_cons, BEq.congr_left same] at later ⊢
      split
      · rw [List.map_cons, List.map_cons, later]
      · exact later

/-- At most one item under each name. -/
theorem separate_of_entriesAt (short : ∀ pe, (entriesAt pes pe).length ≤ 1) : Separate pes := by
  induction pes with
  | nil => exact List.Pairwise.nil
  | cons entry rest ih =>
      refine List.pairwise_cons.mpr ⟨fun other member => ?_, ih fun pe => ?_⟩
      · by_contra same
        have equal : (other.1 == entry.1) = true := BEq.symm (by simpa using same)
        have inRest : other ∈ rest.filter fun other => other.1 == entry.1 :=
          List.mem_filter.mpr ⟨member, equal⟩
        have atName := short entry.1
        rw [entriesAt, List.filter_cons, if_pos (BEq.refl _)] at atName
        have positive := List.length_pos_of_mem inRest
        simp only [List.map_cons, List.length_cons, List.length_map] at atName
        omega
      · refine Nat.le_trans ?_ (short pe)
        simp only [entriesAt, List.length_map]
        exact (List.Sublist.filter _ (List.sublist_cons_self entry rest)).length_le

end Lists

omit [Numeric N] in
theorem indexedValue_eq_some {ls : List (Value N)} {w : Value N}
    (found : Merge.indexedValue ls = some w) : w ∈ ls ∨ w = .null ∧ ls ≠ [] := by
  match ls with
  | [] => cases found
  | [x] =>
      cases found
      exact Or.inl (List.mem_singleton.mpr rfl)
  | _ :: _ :: _ =>
      cases found
      exact Or.inr ⟨rfl, by simp⟩

theorem length_mergeAll {ls : List (Value N)} (rs : List (Value N)) (short : ls.length ≤ 1)
    : (mergeAll sc tr ls rs).length ≤ 1 := by
  cases rs with
  | nil => exact Nat.le_trans (List.length_filterMap_le _ _) short
  | cons y _ =>
      rw [mergeAll]
      cases merged sc tr (Merge.indexedValue ls) (some y) <;> simp

end StructuredMergeDiff.Typed
