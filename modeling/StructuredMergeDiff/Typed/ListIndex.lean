import StructuredMergeDiff.FieldPath.SetSemantics
import StructuredMergeDiff.Typed.Merge
import StructuredMergeDiff.Typed.ToFieldSet

/-!
Contract: how the walkers index the items of an associative list.

Every walker keeps the items, or their path elements, in slices sorted by path
element. Over a consistent number domain all of them agree: what a slice holds
under a path element is determined by the items that have it.

Owns: `namedItems` and `entriesAt`, and what the indexes of `Merge`, `Compare`
and `ToFieldSet` hold in terms of them.
-/

namespace StructuredMergeDiff.Typed

open Library Std FieldSet

variable {N : Type} [Numeric N] {sc : Schema N} {t : ListType N} {pe : PathElement N}

omit [Numeric N] in
/-- The items that have a path element, with it. -/
def namedItems (sc : Schema N) (t : ListType N) (items : List (Value N)) :
    List (PathElement N × Value N) :=
  items.filterMap fun item =>
    match listItemToPathElement sc t item with
    | .ok pe => some (pe, item)
    | .error _ => none

/-- The items under one path element. -/
def entriesAt (pes : List (PathElement N × Value N)) (wanted : PathElement N) : List (Value N) :=
  (pes.filter fun entry => entry.1 == wanted).map Prod.snd

section

omit [Numeric N]

theorem namedItems_cons_ok {item : Value N} (ok : listItemToPathElement sc t item = .ok pe)
    (rest : List (Value N)) :
    namedItems sc t (item :: rest) = (pe, item) :: namedItems sc t rest := by
  simp [namedItems, ok]

theorem namedItems_cons_error {item : Value N} {err : ItemError}
    (failed : listItemToPathElement sc t item = .error err) (rest : List (Value N))
    : namedItems sc t (item :: rest) = namedItems sc t rest := by
  simp [namedItems, failed]

theorem mem_of_mem_namedItems {items : List (Value N)} {entry : PathElement N × Value N}
    (member : entry ∈ namedItems sc t items) :
    entry.2 ∈ items ∧ listItemToPathElement sc t entry.2 = .ok entry.1 := by
  obtain ⟨item, inItems, named⟩ := List.mem_filterMap.mp member
  split at named
  · next pe ok =>
      cases named
      exact ⟨inItems, ok⟩
  · cases named

end

theorem entriesAt_concat (pes : List (PathElement N × Value N)) (pe : PathElement N)
    (item : Value N) (wanted : PathElement N) :
    entriesAt (pes ++ [(pe, item)]) wanted =
      entriesAt pes wanted ++ if pe == wanted then [item] else [] := by
  by_cases same : (pe == wanted) = true
  · simp [entriesAt, same]
  · simp [entriesAt, same]

theorem entriesAt_eq_nil {pes : List (PathElement N × Value N)} {wanted : PathElement N} :
    entriesAt pes wanted = [] ↔ ∀ entry ∈ pes, (entry.1 == wanted) = false := by
  simp [entriesAt, List.filter_eq_nil_iff]

theorem mem_of_mem_entriesAt {pes : List (PathElement N × Value N)} {wanted : PathElement N}
    {item : Value N} (member : item ∈ entriesAt pes wanted) :
    ∃ pe, (pe, item) ∈ pes ∧ (pe == wanted) = true := by
  obtain ⟨entry, filtered, rfl⟩ := List.mem_map.mp member
  obtain ⟨inside, same⟩ := List.mem_filter.mp filtered
  exact ⟨entry.1, inside, same⟩

theorem entriesAt_congr [Consistent N] (pes : List (PathElement N × Value N)) {first second : PathElement N}
    (same : (first == second) = true) : entriesAt pes first = entriesAt pes second := by
  have agree : (fun entry : PathElement N × Value N => entry.1 == first) =
      fun entry => entry.1 == second := by
    funext entry
    exact BEq.congr_right same
  rw [entriesAt, entriesAt, agree]

/-- No two entries under one path element. -/
def Separate (pes : List (PathElement N × Value N)) : Prop :=
  pes.Pairwise fun first second => (first.1 == second.1) = false

/-! ## The index of Merge -/

namespace Merge

omit [Numeric N] in
/-- What an index holds for the items under one path element. -/
def indexedValue : List (Value N) → Option (Value N)
  | [] => none
  | [item] => some item
  | _ :: _ :: _ => some .null

/-- An index finds under every path element what its entries have there. -/
structure Indexed.Faithful (index : Indexed N) : Prop where
  sorted : SortedBy Prod.fst index.observed
  get : ∀ wanted, index.observed.get wanted = indexedValue (entriesAt index.pes wanted)

omit [Numeric N] in
theorem indexedValue_isSome (items : List (Value N)) :
    (indexedValue items).isSome = !items.isEmpty := by
  match items with
  | [] => rfl
  | [_] => rfl
  | _ :: _ :: _ => rfl

section Lawful

variable [Consistent N]

omit [Consistent N] in
theorem Indexed.start_faithful : (Indexed.start : Indexed N).Faithful where
  sorted := List.Pairwise.nil
  get _ := rfl

private theorem Indexed.Faithful.add {index : Indexed N} (faithful : index.Faithful)
    (fresh : index.observed.get pe = none) (item : Value N) :
    ({ index with
        pes := index.pes ++ [(pe, item)]
        observed := index.observed.insert pe item } : Indexed N).Faithful where
  sorted := PathElementMap.insert_sorted faithful.sorted pe item
  get wanted := by
    show (index.observed.insert pe item).get wanted = _
    rw [PathElementMap.get_insert faithful.sorted, entriesAt_concat, faithful.get wanted]
    by_cases same : (pe == wanted) = true
    · have none := (faithful.get pe).symm.trans fresh
      have empty : entriesAt index.pes wanted = [] := by
        rw [← entriesAt_congr index.pes same]
        cases found : entriesAt index.pes pe with
        | nil => rfl
        | cons _ _ =>
            have present := indexedValue_isSome (entriesAt index.pes pe)
            rw [none, found] at present
            simp at present
      rw [if_pos same, if_pos same, empty]
      rfl
    · rw [if_neg same, if_neg same, List.append_nil]

private theorem Indexed.Faithful.duplicate {index : Indexed N} (faithful : index.Faithful)
    {other : Value N} (found : index.observed.get pe = some other) (item : Value N) :
    ({ index with
        pes := index.pes ++ [(pe, item)]
        observed := index.observed.insert pe .null } : Indexed N).Faithful where
  sorted := PathElementMap.insert_sorted faithful.sorted pe .null
  get wanted := by
    show (index.observed.insert pe .null).get wanted = _
    rw [PathElementMap.get_insert faithful.sorted, entriesAt_concat, faithful.get wanted]
    by_cases same : (pe == wanted) = true
    · have present : indexedValue (entriesAt index.pes wanted) = some other := by
        rw [← entriesAt_congr index.pes same, ← faithful.get pe, found]
      rw [if_pos same, if_pos same]
      match entriesAt index.pes wanted, present with
      | [_], _ => rfl
      | _ :: _ :: _, _ => rfl
    · rw [if_neg same, if_neg same, List.append_nil]

theorem indexListPathElements_faithful (sc : Schema N) (t : ListType N) (allowDuplicates : Bool)
    (items : List (Value N)) (position : Nat) {acc : Indexed N} (faithful : acc.Faithful) :
    (indexListPathElements sc t allowDuplicates position acc items).Faithful := by
  induction items generalizing position acc with
  | nil => exact faithful
  | cons item rest ih =>
      unfold indexListPathElements
      split
      · exact ih _ ⟨faithful.sorted, faithful.get⟩
      · split
        · split
          · next found _ => exact ih _ (faithful.duplicate found item)
          · exact ih _ ⟨faithful.sorted, faithful.get⟩
        · next fresh => exact ih _ (faithful.add fresh item)

section

omit [Consistent N]

/-- Is the path element one of those of the index? -/
theorem Indexed.Faithful.isSome_iff {index : Indexed N} (faithful : index.Faithful)
    (wanted : PathElement N) :
    (index.observed.get wanted).isSome = true ↔
      ∃ entry ∈ index.pes, (entry.1 == wanted) = true := by
  rw [faithful.get, indexedValue_isSome]
  constructor
  · intro present
    by_contra absent
    push Not at absent
    have empty : entriesAt index.pes wanted = [] :=
      entriesAt_eq_nil.mpr fun entry member => Bool.eq_false_iff.mpr (absent entry member)
    simp [empty] at present
  · rintro ⟨entry, member, same⟩
    by_contra absent
    have empty : entriesAt index.pes wanted = [] := by simpa using absent
    have differs := entriesAt_eq_nil.mp empty entry member
    rw [same] at differs
    cases differs

/-- Without errors, all items are indexed; without duplicates allowed, there are none. -/
theorem index_of_no_errs {allowDuplicates : Bool} {items : List (Value N)} {position : Nat}
    {acc : Indexed N}
    (clean : (indexListPathElements sc t allowDuplicates position acc items).errs = []) :
    acc.errs = [] ∧ (∀ item ∈ items, ∃ pe, listItemToPathElement sc t item = .ok pe) ∧
      (indexListPathElements sc t allowDuplicates position acc items).pes =
        acc.pes ++ namedItems sc t items := by
  induction items generalizing position acc with
  | nil => exact ⟨clean, by simp, by simp [indexListPathElements, namedItems]⟩
  | cons item rest ih =>
      unfold indexListPathElements at clean ⊢
      split at clean
      · exact absurd (ih clean).1 (by simp [errorf])
      · next pe ok =>
          split at clean
          · split at clean
            · next allowed =>
                obtain ⟨noErrs, named, pes⟩ := ih clean
                refine ⟨noErrs, by simpa using ⟨⟨pe, ok⟩, named⟩, ?_⟩
                simp only [allowed, if_true] at pes ⊢
                rw [pes, namedItems_cons_ok ok, List.append_assoc, List.singleton_append]
            · exact absurd (ih clean).1 (by simp [errorf])
          · obtain ⟨noErrs, named, pes⟩ := ih clean
            refine ⟨noErrs, by simpa using ⟨⟨pe, ok⟩, named⟩, ?_⟩
            rw [pes, namedItems_cons_ok ok, List.append_assoc, List.singleton_append]

theorem Indexed.Faithful.separate_concat {index : Indexed N} (faithful : index.Faithful)
    (separate : Separate index.pes) (fresh : index.observed.get pe = none) (item : Value N)
    : Separate (index.pes ++ [(pe, item)]) := by
  refine List.pairwise_append.mpr ⟨separate, List.pairwise_singleton _ _, ?_⟩
  intro entry member last isLast
  rw [List.mem_singleton.mp isLast]
  by_contra same
  have found := (faithful.isSome_iff pe).mpr ⟨entry, member, by simpa using same⟩
  rw [fresh] at found
  cases found

end

theorem index_separate (sc : Schema N) (t : ListType N) (items : List (Value N)) (position : Nat)
    {acc : Indexed N} (faithful : acc.Faithful) (separate : Separate acc.pes) :
    Separate (indexListPathElements sc t false position acc items).pes := by
  induction items generalizing position acc with
  | nil => exact separate
  | cons item rest ih =>
      unfold indexListPathElements
      split
      · exact ih _ ⟨faithful.sorted, faithful.get⟩ separate
      · split
        · exact ih _ ⟨faithful.sorted, faithful.get⟩ separate
        · next fresh =>
            exact ih _ (faithful.add fresh item)
              (faithful.separate_concat separate fresh item)

/-- Items that all have path elements of their own are indexed without errors. -/
theorem index_clean {allowDuplicates : Bool} {items : List (Value N)} {position : Nat}
    {acc : Indexed N} (faithful : acc.Faithful)
    (named : ∀ item ∈ items, ∃ pe, listItemToPathElement sc t item = .ok pe)
    (distinct : allowDuplicates = false → Separate (acc.pes ++ namedItems sc t items)) :
    (indexListPathElements sc t allowDuplicates position acc items).errs = acc.errs := by
  induction items generalizing position acc with
  | nil => rfl
  | cons item rest ih =>
      obtain ⟨pe, ok⟩ := named item List.mem_cons_self
      have namedRest : ∀ item ∈ rest, ∃ pe, listItemToPathElement sc t item = .ok pe :=
        fun item member => named item (List.mem_cons_of_mem _ member)
      have regroup : acc.pes ++ namedItems sc t (item :: rest) =
          acc.pes ++ [(pe, item)] ++ namedItems sc t rest := by
        rw [namedItems_cons_ok ok, List.append_assoc, List.singleton_append]
      rw [regroup] at distinct
      unfold indexListPathElements
      rw [ok]
      dsimp only
      split
      · next found =>
          split
          · exact ih (faithful.duplicate found item) namedRest distinct
          · next notAllowed =>
              have separate := (List.pairwise_append.mp
                (List.pairwise_append.mp (distinct (by simpa using notAllowed))).1).2.2
              obtain ⟨entry, member, same⟩ := (faithful.isSome_iff pe).mp (by simp [found])
              have differs := separate entry member (pe, item) (by simp)
              rw [same] at differs
              cases differs
      · next fresh => exact ih (faithful.add fresh item) namedRest distinct

end Lawful

end Merge

/-! ## The index of Compare -/

namespace Compare

omit [Numeric N] in
/-- What `Compare` holds for the items under one path element. -/
def gatheredValue : List (Value N) → Option (List (Value N))
  | [] => none
  | item :: rest => some (item :: rest)

/-- All items of the list are held under their path elements, and each path
element is listed once. -/
structure Gathered.Faithful (gathered : Gathered N) (items : List (PathElement N × Value N)) :
    Prop where
  sorted : SortedBy Prod.fst gathered.values
  get : ∀ wanted, gathered.values.get wanted = gatheredValue (entriesAt items wanted)
  listed : ∀ wanted, (∃ pe ∈ gathered.pes, (pe == wanted) = true) ↔ entriesAt items wanted ≠ []
  distinct : gathered.pes.Pairwise fun first second => (first == second) = false

omit [Numeric N] in
@[simp] theorem gatheredValue_getD (items : List (Value N)) :
    (gatheredValue items).getD [] = items := by
  cases items <;> rfl

section Lawful

variable [Consistent N] {gathered : Gathered N} {items : List (PathElement N × Value N)}

private theorem Gathered.Faithful.extend (faithful : gathered.Faithful items)
    {found : List (Value N)} (held : gathered.values.get pe = some found) (item : Value N) :
    ({ gathered with values := gathered.values.insert pe (found ++ [item]) } :
      Gathered N).Faithful (items ++ [(pe, item)]) := by
  have entries : entriesAt items pe = found := by
    have value := faithful.get pe
    rw [held] at value
    rw [← gatheredValue_getD (entriesAt items pe), ← value]
    rfl
  have nonEmpty : found ≠ [] := by
    intro empty
    have value := faithful.get pe
    rw [held, entries, empty] at value
    cases value
  refine ⟨PathElementMap.insert_sorted faithful.sorted pe _, fun wanted => ?_, fun wanted => ?_,
    faithful.distinct⟩
  · show (gathered.values.insert pe (found ++ [item])).get wanted = _
    rw [PathElementMap.get_insert faithful.sorted, entriesAt_concat, faithful.get wanted]
    by_cases same : (pe == wanted) = true
    · rw [if_pos same, if_pos same, ← entriesAt_congr items same, entries]
      cases found <;> rfl
    · rw [if_neg same, if_neg same, List.append_nil]
  · rw [faithful.listed wanted, entriesAt_concat]
    by_cases same : (pe == wanted) = true
    · rw [← entriesAt_congr items same, entries]
      simp [nonEmpty]
    · rw [if_neg same, List.append_nil]

private theorem Gathered.Faithful.add (faithful : gathered.Faithful items)
    (fresh : gathered.values.get pe = none) (item : Value N) :
    ({ gathered with
        values := gathered.values.insert pe [item]
        pes := gathered.pes ++ [pe] } : Gathered N).Faithful (items ++ [(pe, item)]) := by
  have empty : entriesAt items pe = [] := by
    have value := faithful.get pe
    rw [fresh] at value
    cases entries : entriesAt items pe with
    | nil => rfl
    | cons _ _ =>
        rw [entries] at value
        cases value
  refine ⟨PathElementMap.insert_sorted faithful.sorted pe _, fun wanted => ?_, fun wanted => ?_, ?_⟩
  · show (gathered.values.insert pe [item]).get wanted = _
    rw [PathElementMap.get_insert faithful.sorted, entriesAt_concat, faithful.get wanted]
    by_cases same : (pe == wanted) = true
    · rw [if_pos same, if_pos same, ← entriesAt_congr items same, empty]
      rfl
    · rw [if_neg same, if_neg same, List.append_nil]
  · have before := faithful.listed wanted
    rw [entriesAt_concat]
    by_cases same : (pe == wanted) = true
    · simp [same]
    · simpa [same] using before
  · refine List.pairwise_append.mpr ⟨faithful.distinct, List.pairwise_singleton _ _, ?_⟩
    intro other member last isLast
    rw [List.mem_singleton.mp isLast]
    by_contra same
    exact (faithful.listed pe).mp ⟨other, member, by simpa using same⟩ empty

theorem gather_faithful (sc : Schema N) (t : ListType N) (list : List (Value N)) (position : Nat)
    (faithful : gathered.Faithful items) :
    (gather sc t position gathered list).Faithful (items ++ namedItems sc t list) := by
  induction list generalizing position gathered items with
  | nil => simpa [gather, namedItems] using faithful
  | cons item rest ih =>
      unfold gather
      split
      · next failed =>
          rw [namedItems_cons_error failed]
          exact ih _
            ⟨faithful.sorted, faithful.get, faithful.listed, faithful.distinct⟩
      · next pe ok =>
          have regroup : items ++ namedItems sc t (item :: rest) =
              items ++ [(pe, item)] ++ namedItems sc t rest := by
            rw [namedItems_cons_ok ok, List.append_assoc, List.singleton_append]
          rw [regroup]
          split
          · next held => exact ih _ (faithful.extend held item)
          · next fresh => exact ih _ (faithful.add fresh item)

omit [Consistent N] in
theorem gather_start_faithful :
    ({ values := [], pes := [], errs := [] } : Gathered N).Faithful [] where
  sorted := List.Pairwise.nil
  get _ := rfl
  listed _ := by simp [entriesAt]
  distinct := List.Pairwise.nil

end Lawful

/-- The errors of gathering are those of items without a path element. -/
theorem gather_errs_eq_nil {list : List (Value N)} {position : Nat} {gathered : Gathered N} :
    (gather sc t position gathered list).errs = [] ↔
      gathered.errs = [] ∧ ∀ item ∈ list, ∃ pe, listItemToPathElement sc t item = .ok pe := by
  induction list generalizing position gathered with
  | nil => simp [gather]
  | cons item rest ih =>
      unfold gather
      split
      · next failed =>
          rw [ih]
          simp [errorf, failed]
      · next pe ok => split <;> rw [ih] <;> simp [ok]

end Compare

/-! ## The index of ToFieldSet -/

namespace ToFieldSet

/-- How many of the path elements equal the given one. -/
def occurrences (pes : List (PathElement N)) (wanted : PathElement N) : Nat :=
  pes.countP (· == wanted)

/-- The scan has seen these path elements, and knows which of them occur twice. -/
structure DuplicateScan.Faithful (scan : DuplicateScan N) (pes : List (PathElement N)) : Prop where
  seenSorted : SortedBy id scan.seen
  duplicatesSorted : SortedBy id scan.duplicates
  seen : ∀ wanted, FieldSet.membersHas scan.seen wanted = true ↔ 1 ≤ occurrences pes wanted
  duplicates : ∀ wanted,
    FieldSet.membersHas scan.duplicates wanted = true ↔ 2 ≤ occurrences pes wanted
  paths : ∀ path, (∃ recorded ∈ scan.paths, (recorded == path) = true) ↔
    ∃ pe, path = [pe] ∧ FieldSet.membersHas scan.duplicates pe = true

theorem occurrences_concat (pes : List (PathElement N)) (pe wanted : PathElement N) :
    occurrences (pes ++ [pe]) wanted = occurrences pes wanted + if pe == wanted then 1 else 0 := by
  simp [occurrences, List.countP_append, List.countP_singleton]

theorem singleton_beq_iff (pe : PathElement N) (path : Path N) :
    ([pe] == path) = true ↔ ∃ other, path = [other] ∧ (pe == other) = true := by
  match path with
  | [] => simp
  | [other] => simp
  | _ :: _ :: _ => simp

section Lawful

variable [Consistent N]

theorem occurrences_congr (pes : List (PathElement N)) {first second : PathElement N}
    (same : (first == second) = true) : occurrences pes first = occurrences pes second := by
  unfold occurrences
  congr 1
  funext pe
  exact BEq.congr_right same

private theorem le_occurrences_concat {pes : List (PathElement N)} {n : Nat}
    (other : n ≠ occurrences pes pe + 1) (wanted : PathElement N) :
    n ≤ occurrences pes wanted ↔ n ≤ occurrences (pes ++ [pe]) wanted := by
  rw [occurrences_concat]
  by_cases same : (pe == wanted) = true
  · have := occurrences_congr pes same
    simp only [same, if_true]
    omega
  · simp [same]

private theorem step_faithful {scan : DuplicateScan N} {pes : List (PathElement N)}
    (faithful : scan.Faithful pes) (pe : PathElement N) :
    (scan.step pe).Faithful (pes ++ [pe]) := by
  unfold DuplicateScan.step
  split
  · next seenBefore =>
      have once := (faithful.seen pe).mp seenBefore
      have seen : ∀ wanted, membersHas scan.seen wanted = true ↔
          1 ≤ occurrences (pes ++ [pe]) wanted := fun wanted =>
        (faithful.seen wanted).trans (le_occurrences_concat (by omega) wanted)
      split
      · next twiceBefore =>
          have twice := (faithful.duplicates pe).mp twiceBefore
          exact ⟨faithful.seenSorted, faithful.duplicatesSorted, seen, fun wanted =>
            (faithful.duplicates wanted).trans (le_occurrences_concat (by omega) wanted),
            faithful.paths⟩
      · refine ⟨faithful.seenSorted, insert_member_sorted faithful.duplicatesSorted pe,
          seen, fun wanted => ?_, fun path => ?_⟩
        · rw [membersHas_insert faithful.duplicatesSorted, Bool.or_eq_true,
            faithful.duplicates, occurrences_concat]
          by_cases same : (pe == wanted) = true
          · have := occurrences_congr pes same
            simp only [same, if_true, or_true, true_iff]
            omega
          · simp [same]
        · have before := faithful.paths path
          simp only [List.mem_append, List.mem_singleton, or_and_right, exists_or, before,
            exists_eq_left, membersHas_insert faithful.duplicatesSorted,
            Bool.or_eq_true, and_or_left]
          exact or_congr Iff.rfl (singleton_beq_iff pe path)
  · next unseen =>
      have never : occurrences pes pe = 0 := by
        have := (faithful.seen pe).not.mp unseen
        omega
      refine ⟨insert_member_sorted faithful.seenSorted pe, faithful.duplicatesSorted,
        fun wanted => ?_, fun wanted =>
          (faithful.duplicates wanted).trans (le_occurrences_concat (by omega) wanted),
        faithful.paths⟩
      rw [membersHas_insert faithful.seenSorted, Bool.or_eq_true, faithful.seen,
        occurrences_concat]
      by_cases same : (pe == wanted) = true
      · simp [same]
      · simp [same]

theorem DuplicateScan.run_faithful (pes : List (PathElement N)) :
    (DuplicateScan.run pes).Faithful pes := by
  unfold DuplicateScan.run
  suffices general : ∀ (scan : DuplicateScan N) (before : List (PathElement N)),
      scan.Faithful before → (pes.foldl DuplicateScan.step scan).Faithful (before ++ pes) by
    apply general _ []
    exact ⟨List.Pairwise.nil, List.Pairwise.nil, by simp [occurrences, membersHas, getBy],
      by simp [occurrences, membersHas, getBy],
      by simp [membersHas, getBy]⟩
  induction pes with
  | nil => simp
  | cons pe rest ih =>
      intro scan before faithful
      have later := ih _ _ (step_faithful faithful pe)
      rwa [List.append_assoc, List.singleton_append] at later

end Lawful

end ToFieldSet

end StructuredMergeDiff.Typed
