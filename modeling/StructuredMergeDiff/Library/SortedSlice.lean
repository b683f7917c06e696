import Mathlib.Data.List.Basic
import Mathlib.Data.List.Pairwise

/-!
Contract: slices kept sorted by a key, with lookup and insertion by binary
search.

Owns:
- `search`, the binary search of Go's `sort.Search`;
- `getBy`, `insertBy`: lookup and insertion at the found position, the latter
  by growing the slice and shifting its tail;
- the lookup laws of both on slices that are strictly sorted by a lawful
  comparison.

Does not own: what the keys or the stored values are. Keys are compared by
`Ord` and identified by `BEq`; the two agree only where a law is assumed.
-/

namespace StructuredMergeDiff.Library

/-! ## Binary search -/

/-- One run of the halving loop between `low` and `high`. -/
def searchLoop (holds : Nat → Bool) : Nat → Nat → Nat → Nat
  | 0, low, _ => low
  | fuel + 1, low, high =>
      if low < high then
        let middle := (low + high) / 2
        if holds middle then searchLoop holds fuel low middle
        else searchLoop holds fuel (middle + 1) high
      else low

/-- Go's `sort.Search`: the smallest index below `count` at which `holds` is
true, provided it stays true from there on; `count` if there is none. -/
def search (count : Nat) (holds : Nat → Bool) : Nat :=
  searchLoop holds count 0 count

private theorem searchLoop_eq {holds : Nat → Bool} {least : Nat} :
    ∀ (fuel low high : Nat), high - low ≤ fuel → low ≤ least → least ≤ high →
      (∀ index, low ≤ index → index < least → holds index = false) →
      (∀ index, least ≤ index → index < high → holds index = true) →
      searchLoop holds fuel low high = least
  | 0, low, high, enough, lowLe, leHigh, _, _ => by
      simp only [searchLoop]
      omega
  | fuel + 1, low, high, enough, lowLe, leHigh, below, above => by
      simp only [searchLoop]
      split
      · rename_i nonempty
        split
        · rename_i holdsMiddle
          have leastLe : least ≤ (low + high) / 2 := by
            by_contra later
            have := below ((low + high) / 2) (by omega) (by omega)
            simp [this] at holdsMiddle
          exact searchLoop_eq fuel low _ (by omega) lowLe leastLe below
            (fun index atLeast before => above index atLeast (by omega))
        · rename_i failsMiddle
          have middleLt : (low + high) / 2 < least := by
            by_contra earlier
            exact failsMiddle (above _ (by omega) (by omega))
          exact searchLoop_eq fuel _ high (by omega) (by omega) leHigh
            (fun index atLeast before => below index (by omega) before) above
      · omega

theorem search_eq {count : Nat} {holds : Nat → Bool} {least : Nat}
    (leastLe : least ≤ count)
    (below : ∀ index, index < least → holds index = false)
    (above : ∀ index, least ≤ index → index < count → holds index = true) :
    search count holds = least :=
  searchLoop_eq count 0 count (by omega) (by omega) leastLe
    (fun index _ before => below index before) above

/-! ## Sorted slices -/

variable {α κ : Type} {key : α → κ} {slice : List α} {wanted : κ}

section Operations

variable [Ord κ] [BEq κ]

/-- Strictly increasing keys. -/
def SortedBy (key : α → κ) (slice : List α) : Prop :=
  slice.Pairwise (fun first second => compare (key first) (key second) = .lt)

/-- The position of the first entry whose key is not below `wanted`. -/
def locate (key : α → κ) (wanted : κ) (slice : List α) : Nat :=
  search slice.length fun index =>
    match slice[index]? with
    | some entry => !(compare (key entry) wanted).isLT
    | none => true

/-- Lookup by binary search: the entry at the located position, if its key is
the wanted one. -/
def getBy (key : α → κ) (wanted : κ) (slice : List α) : Option α :=
  match slice[locate key wanted slice]? with
  | some entry => if key entry == wanted then some entry else none
  | none => none

theorem mem_of_getBy {entry : α} (found : getBy key wanted slice = some entry) : entry ∈ slice := by
  unfold getBy at found
  split at found
  · rename_i located atPosition
    split at found
    · cases found
      exact List.mem_of_getElem? atPosition
    · cases found
  · cases found

/-- Grow by one slot, shift the tail from `position` on by one with an
overlapping copy, then overwrite the freed slot. -/
def shiftInsert (blank : α) (position : Nat) (entry : α) (slice : List α) : List α :=
  let grown := slice ++ [blank]
  let shifted :=
    grown.take (position + 1) ++ (grown.drop position).take (grown.length - (position + 1))
  shifted.set position entry

/-- Insertion by binary search. An entry already stored under the same key is
passed to `replace`; otherwise the new one is shifted in. -/
def insertBy (key : α → κ) (blank : α) (replace : α → α) (entry : α) (slice : List α) :
    List α :=
  let position := locate key (key entry) slice
  match slice[position]? with
  | none => slice ++ [entry]
  | some found =>
      if key found == key entry then slice.set position (replace found)
      else shiftInsert blank position entry slice

end Operations

/-! ## Slices under a map -/

section Map

variable {β ι : Type} [Ord κ] [BEq κ] [Ord ι] [BEq ι] {g : α → β} {other : β → ι}

omit [BEq κ] [BEq ι] in
theorem locate_map {wanted' : ι}
    (agree : ∀ a, compare (other (g a)) wanted' = compare (key a) wanted) :
    locate other wanted' (slice.map g) = locate key wanted slice := by
  unfold locate
  rw [List.length_map]
  congr 1
  funext index
  rw [List.getElem?_map]
  cases slice[index]? with
  | none => rfl
  | some entry => simp [agree]

theorem getBy_map {wanted' : ι}
    (agree : ∀ a, compare (other (g a)) wanted' = compare (key a) wanted)
    (same : ∀ a, (other (g a) == wanted') = (key a == wanted)) :
    getBy other wanted' (slice.map g) = (getBy key wanted slice).map g := by
  unfold getBy
  rw [locate_map agree, List.getElem?_map]
  cases slice[locate key wanted slice]? with
  | none => rfl
  | some entry =>
      simp only [Option.map_some, same]
      split <;> rfl

theorem insertBy_map {blank entry : α} {replace : α → α} {replace' : β → β}
    (agree : ∀ a b, compare (other (g a)) (other (g b)) = compare (key a) (key b))
    (same : ∀ a b, (other (g a) == other (g b)) = (key a == key b))
    (replaces : ∀ a, replace' (g a) = g (replace a)) :
    insertBy other (g blank) replace' (g entry) (slice.map g) =
      (insertBy key blank replace entry slice).map g := by
  unfold insertBy
  rw [locate_map fun a => agree a entry]
  simp only [List.getElem?_map]
  cases slice[locate key (key entry) slice]? with
  | none => simp
  | some found =>
      simp only [Option.map_some, same, replaces]
      split
      · rw [List.map_set]
      · simp [shiftInsert, List.map_set, List.map_take, List.map_drop]

end Map

section Lookup

variable [BEq κ]

/-- The abstract lookup: the first entry with the wanted key. -/
def lookupBy (key : α → κ) (wanted : κ) (slice : List α) : Option α :=
  slice.find? fun entry => key entry == wanted

@[simp] theorem lookupBy_nil (key : α → κ) (wanted : κ) :
    lookupBy key wanted [] = none := rfl

theorem lookupBy_cons (key : α → κ) (wanted : κ) (entry : α) (slice : List α) :
    lookupBy key wanted (entry :: slice) =
      if key entry == wanted then some entry else lookupBy key wanted slice := by
  simp only [lookupBy, List.find?_cons]
  cases key entry == wanted <;> rfl

theorem lookupBy_append (key : α → κ) (wanted : κ) (first second : List α) :
    lookupBy key wanted (first ++ second) =
      (lookupBy key wanted first).or (lookupBy key wanted second) := by
  simp [lookupBy, List.find?_append]

theorem key_of_lookupBy {entry : α} (found : lookupBy key wanted slice = some entry)
    : (key entry == wanted) = true := by
  simpa using List.find?_some found

theorem mem_of_lookupBy {entry : α} (found : lookupBy key wanted slice = some entry)
    : entry ∈ slice :=
  List.mem_of_find?_eq_some found

theorem lookupBy_eq_none :
    lookupBy key wanted slice = none ↔ ∀ entry ∈ slice, (key entry == wanted) = false := by
  simp [lookupBy]

end Lookup

theorem shiftInsert_eq (blank : α) {position : Nat} (entry : α) (inside : position < slice.length) :
    shiftInsert blank position entry slice =
      slice.take position ++ entry :: slice.drop position := by
  have tail :
      ((slice ++ [blank]).drop position).take
          ((slice ++ [blank]).length - (position + 1)) = slice.drop position := by
    rw [List.drop_append_of_le_length (by omega)]
    have sameLength :
        (slice ++ [blank]).length - (position + 1) = (slice.drop position).length := by
      simp only [List.length_append, List.length_singleton, List.length_drop]
      omega
    rw [sameLength, List.take_left]
  have head :
      (slice ++ [blank]).take (position + 1) =
        slice.take position ++ [slice.get ⟨position, inside⟩] := by
    rw [List.take_append_of_le_length (by omega), List.take_add_one]
    simp [inside]
  simp only [shiftInsert, tail, head]
  have taken : (slice.take position).length = position := by
    simp only [List.length_take]
    omega
  rw [List.append_assoc, List.set_append_right _ _ (by omega), taken, Nat.sub_self]
  rfl

section Lawful

open Std

variable [Ord κ] [BEq κ] [TransOrd κ] [LawfulBEqOrd κ]

omit [BEq κ] [LawfulBEqOrd κ] in
/-- On a sorted slice the located position splits it into the entries below
the wanted key and the rest. -/
theorem locate_split (sorted : SortedBy key slice) (wanted : κ) :
    ∃ below above, slice = below ++ above ∧ locate key wanted slice = below.length ∧
      (∀ entry ∈ below, compare (key entry) wanted = .lt) ∧
      (∀ entry ∈ above, compare (key entry) wanted ≠ .lt) := by
  induction slice with
  | nil => exact ⟨[], [], by simp [locate, search, searchLoop]⟩
  | cons head tail ih =>
      have sortedTail := List.Pairwise.of_cons sorted
      by_cases headBelow : compare (key head) wanted = .lt
      · obtain ⟨below, above, split, position, allBelow, noneBelow⟩ :=
          ih sortedTail
        refine ⟨head :: below, above, by simp [split], ?_, ?_, noneBelow⟩
        · apply search_eq
          · simp [split]
          · intro index before
            cases index with
            | zero => simp [headBelow]
            | succ index =>
                have inBelow : index < below.length := by simpa using before
                have := allBelow (below.get ⟨index, inBelow⟩) (List.get_mem _ _)
                simp only [split, List.getElem?_cons_succ]
                rw [List.getElem?_append_left inBelow]
                simp_all
          · intro index atLeast before
            cases index with
            | zero => simp at atLeast
            | succ index =>
                have fromAbove : below.length ≤ index := by simpa using atLeast
                have inside : index - below.length < above.length := by
                  simp [split] at before
                  omega
                have := noneBelow (above.get ⟨index - below.length, inside⟩) (List.get_mem _ _)
                simp only [split, List.getElem?_cons_succ]
                rw [List.getElem?_append_right fromAbove]
                simpa [inside, Ordering.isGE_iff_ne_lt] using this
        · intro entry member
          rcases List.mem_cons.mp member with rfl | member
          · exact headBelow
          · exact allBelow entry member
      · have noneBelow : ∀ entry ∈ head :: tail, compare (key entry) wanted ≠ .lt := by
          intro entry member
          rcases List.mem_cons.mp member with rfl | member
          · exact headBelow
          · intro entryBelow
            have headEntry := List.rel_of_pairwise_cons sorted member
            exact headBelow (TransCmp.lt_trans headEntry entryBelow)
        refine ⟨[], head :: tail, rfl, ?_, by simp, noneBelow⟩
        apply search_eq (by simp) (by simp)
        intro index _ before
        have := noneBelow ((head :: tail).get ⟨index, before⟩) (List.get_mem _ _)
        simp only [List.get_eq_getElem] at this
        rw [List.getElem?_eq_getElem before]
        simpa [Ordering.isGE_iff_ne_lt] using this

/-- Binary search finds what a linear scan finds. -/
theorem getBy_eq_lookupBy (sorted : SortedBy key slice) (wanted : κ)
    : getBy key wanted slice = lookupBy key wanted slice := by
  obtain ⟨below, above, split, position, allBelow, noneBelow⟩ := locate_split sorted wanted
  have missesBelow : lookupBy key wanted below = none := by
    rw [lookupBy_eq_none]
    intro entry member
    have := allBelow entry member
    rw [← Bool.not_eq_true, ← compare_eq_iff_beq]
    simp [this]
  unfold getBy
  rw [position, split, lookupBy_append, missesBelow, Option.none_or]
  cases above with
  | nil => simp
  | cons head tail =>
      rw [lookupBy_cons]
      simp only [List.getElem?_append_right (Nat.le_refl _), Nat.sub_self,
        List.getElem?_cons_zero]
      by_cases same : (key head == wanted) = true
      · simp [same]
      · -- every later entry is above the head, which is above the wanted key
        have missesTail : lookupBy key wanted tail = none := by
          rw [lookupBy_eq_none]
          intro entry member
          rw [← Bool.not_eq_true, ← compare_eq_iff_beq]
          intro entryWanted
          rw [split] at sorted
          have headEntry : compare (key head) (key entry) = .lt :=
            List.rel_of_pairwise_cons (List.pairwise_append.mp sorted).2.1 member
          exact noneBelow head (by simp) (TransCmp.lt_of_lt_of_eq headEntry entryWanted)
        simp [same, missesTail]

/-- Two entries of a sorted slice with the same key are the same entry. -/
theorem lookupBy_of_mem (sorted : SortedBy key slice) {entry : α} (member : entry ∈ slice)
    (same : (key entry == wanted) = true) :
    lookupBy key wanted slice = some entry := by
  induction slice with
  | nil => cases member
  | cons head tail ih =>
      rw [lookupBy_cons]
      rcases List.mem_cons.mp member with rfl | inTail
      · simp [same]
      · have headEntry := List.rel_of_pairwise_cons sorted inTail
        have headDiffers : ¬ (key head == wanted) = true := by
          rw [← compare_eq_iff_beq] at same ⊢
          intro headWanted
          have := TransCmp.lt_of_lt_of_eq headEntry same
          simp [headWanted] at this
        simp [headDiffers, ih (List.Pairwise.of_cons sorted) inTail]

theorem lookupBy_congr (key : α → κ) (slice : List α) {first second : κ}
    (same : (first == second) = true) :
    lookupBy key first slice = lookupBy key second slice := by
  unfold lookupBy
  congr 1
  funext entry
  have := (LawfulBEqOrd.equivBEq (α := κ))
  exact BEq.congr_right same

theorem lookupBy_of_below (below : ∀ entry ∈ slice, compare wanted (key entry) = .lt) :
    lookupBy key wanted slice = none := by
  rw [lookupBy_eq_none]
  intro entry member
  rw [← Bool.not_eq_true, ← compare_eq_iff_beq]
  intro same
  have swapped := OrientedCmp.eq_symm same
  rw [below entry member] at swapped
  cases swapped

/-- A sorted slice holds each key at most once. -/
theorem filter_key_eq (sorted : SortedBy key slice) (wanted : κ) :
    slice.filter (fun entry => key entry == wanted) = (lookupBy key wanted slice).toList := by
  induction slice with
  | nil => rfl
  | cons entry rest ih =>
      have later := ih (List.Pairwise.of_cons sorted)
      rw [List.filter_cons, lookupBy_cons, later]
      by_cases same : (key entry == wanted) = true
      · have below : ∀ other ∈ rest, compare (key entry) (key other) = .lt :=
          fun other member => List.rel_of_pairwise_cons sorted member
        rw [if_pos same, if_pos same, ← lookupBy_congr key rest same, lookupBy_of_below below]
        rfl
      · rw [if_neg same, if_neg same]

/-- Sorted slices that hold the same keys hold them at the same positions. -/
theorem forall₂_of_same_keys {β : Type} {other : β → κ} {first : List α} {second : List β}
    (sortedFirst : SortedBy key first) (sortedSecond : SortedBy other second)
    (same : ∀ wanted, (lookupBy key wanted first).isSome = (lookupBy other wanted second).isSome) :
    List.Forall₂ (fun a b => (key a == other b) = true) first second := by
  have := (LawfulBEqOrd.equivBEq (α := κ))
  induction first generalizing second with
  | nil =>
      cases second with
      | nil => exact List.Forall₂.nil
      | cons b rest =>
          have found := same (other b)
          simp [lookupBy_cons] at found
  | cons a restFirst ih =>
      cases second with
      | nil =>
          have found := same (key a)
          simp [lookupBy_cons] at found
      | cons b restSecond =>
          have aboveA : ∀ entry ∈ restFirst, compare (key a) (key entry) = .lt :=
            fun entry member => List.rel_of_pairwise_cons sortedFirst member
          have aboveB : ∀ entry ∈ restSecond, compare (other b) (other entry) = .lt :=
            fun entry member => List.rel_of_pairwise_cons sortedSecond member
          have heads : (key a == other b) = true := by
            rw [← compare_eq_iff_beq]
            cases order : compare (key a) (other b) with
            | eq => rfl
            | lt =>
                have missing : lookupBy other (key a) (b :: restSecond) = none := by
                  apply lookupBy_of_below
                  intro entry member
                  rcases List.mem_cons.mp member with rfl | inRest
                  · exact order
                  · exact TransCmp.lt_trans order (aboveB entry inRest)
                have found := same (key a)
                rw [missing, lookupBy_cons, if_pos (BEq.refl _)] at found
                cases found
            | gt =>
                have reversed : compare (other b) (key a) = .lt := OrientedCmp.lt_of_gt order
                have missing : lookupBy key (other b) (a :: restFirst) = none := by
                  apply lookupBy_of_below
                  intro entry member
                  rcases List.mem_cons.mp member with rfl | inRest
                  · exact reversed
                  · exact TransCmp.lt_trans reversed (aboveA entry inRest)
                have found := same (other b)
                rw [missing, lookupBy_cons, if_pos (BEq.refl _)] at found
                cases found
          refine List.Forall₂.cons heads (ih (List.Pairwise.of_cons sortedFirst)
            (List.Pairwise.of_cons sortedSecond) fun wanted => ?_)
          by_cases atHead : (key a == wanted) = true
          · have atHeadB : (other b == wanted) = true := BEq.trans (BEq.symm heads) atHead
            rw [← lookupBy_congr key restFirst atHead, ← lookupBy_congr other restSecond atHeadB,
              lookupBy_of_below aboveA, lookupBy_of_below aboveB]
            rfl
          · have notAtHeadB : ¬ (other b == wanted) = true :=
              fun sameB => atHead (BEq.trans heads sameB)
            have whole := same wanted
            rwa [lookupBy_cons, lookupBy_cons, if_neg atHead, if_neg notAtHeadB] at whole

/-- Slices that agree position by position find entries that belong together. -/
theorem lookupBy_forall₂ {β : Type} {other : β → κ} {Same : α → β → Prop} {first : List α}
    {second : List β}
    (agree : List.Forall₂ (fun a b => (key a == other b) = true ∧ Same a b) first second)
    (wanted : κ) :
    (lookupBy key wanted first = none ∧ lookupBy other wanted second = none) ∨
      ∃ a b, lookupBy key wanted first = some a ∧ lookupBy other wanted second = some b ∧
        Same a b := by
  have := (LawfulBEqOrd.equivBEq (α := κ))
  induction agree with
  | nil => exact Or.inl ⟨rfl, rfl⟩
  | @cons a b _ _ heads _ ih =>
      rw [lookupBy_cons, lookupBy_cons, BEq.congr_left heads.1]
      by_cases atHead : (other b == wanted) = true
      · rw [if_pos atHead, if_pos atHead]
        exact Or.inr ⟨a, b, rfl, rfl, heads.2⟩
      · rw [if_neg atHead, if_neg atHead]
        exact ih

/-- Where an insertion takes place: at an entry under the same key, or between the entries
below and above. -/
theorem insertBy_split (sorted : SortedBy key slice) (blank : α) (replace : α → α) (entry : α) :
    ∃ below above, slice = below ++ above ∧
      (∀ other ∈ below, compare (key other) (key entry) = .lt) ∧
      ((∃ found rest, above = found :: rest ∧ (key found == key entry) = true ∧
          insertBy key blank replace entry slice = below ++ replace found :: rest) ∨
        ((∀ other ∈ above, compare (key entry) (key other) = .lt) ∧
          insertBy key blank replace entry slice = below ++ entry :: above)) := by
  obtain ⟨below, above, split, position, allBelow, noneBelow⟩ :=
    locate_split sorted (key entry)
  refine ⟨below, above, split, allBelow, ?_⟩
  cases above with
  | nil =>
      right
      refine ⟨by simp, ?_⟩
      simp only [insertBy, position]
      simp [split]
  | cons found rest =>
      have atPosition : slice[below.length]? = some found := by simp [split]
      by_cases same : (key found == key entry) = true
      · left
        refine ⟨found, rest, rfl, same, ?_⟩
        simp only [insertBy, position, atPosition, same]
        simp [split]
      · right
        have entryFound : compare (key entry) (key found) = .lt := by
          have notBelow := noneBelow found (by simp)
          rw [← compare_eq_iff_beq] at same
          rw [← OrientedCmp.gt_iff_lt]
          cases ordering : compare (key found) (key entry) <;> simp_all
        refine ⟨?_, ?_⟩
        · intro other member
          rcases List.mem_cons.mp member with rfl | member
          · exact entryFound
          · rw [split] at sorted
            exact TransCmp.lt_trans entryFound
              (List.rel_of_pairwise_cons (List.pairwise_append.mp sorted).2.1 member)
        · simp only [insertBy, position, atPosition, same]
          rw [split, if_neg (by simp), shiftInsert_eq _ _ (by simp)]
          simp

theorem mem_insertBy (sorted : SortedBy key slice) {blank : α} {replace : α → α} {entry other : α}
    (member : other ∈ insertBy key blank replace entry slice) :
    other ∈ slice ∨ other = entry ∨
      ∃ found ∈ slice, (key found == key entry) = true ∧ other = replace found := by
  obtain ⟨below, above, split, -, ⟨found, rest, aboveEq, same, inserted⟩ | ⟨-, inserted⟩⟩ :=
    insertBy_split sorted blank replace entry
  · subst split aboveEq
    rw [inserted] at member
    rcases List.mem_append.mp member with inBelow | inAbove
    · exact Or.inl (List.mem_append_left _ inBelow)
    · rcases List.mem_cons.mp inAbove with rfl | inRest
      · exact Or.inr (Or.inr ⟨found, by simp, same, rfl⟩)
      · exact Or.inl (by simp [inRest])
  · subst split
    rw [inserted] at member
    rcases List.mem_append.mp member with inBelow | inAbove
    · exact Or.inl (List.mem_append_left _ inBelow)
    · rcases List.mem_cons.mp inAbove with rfl | inRest
      · exact Or.inr (Or.inl rfl)
      · exact Or.inl (List.mem_append_right _ inRest)

/-- An entry below all others is inserted at the front. -/
theorem insertBy_eq_cons (blank : α) (replace : α → α) {entry : α}
    (allAbove : ∀ other ∈ slice, compare (key entry) (key other) = .lt) :
    insertBy key blank replace entry slice = entry :: slice := by
  have front : locate key (key entry) slice = 0 := by
    apply search_eq (Nat.zero_le _) (by simp)
    intro index _ before
    have := OrientedCmp.gt_of_lt (allAbove _ (List.getElem_mem before))
    simp [List.getElem?_eq_getElem before, this]
  cases slice with
  | nil => simp [insertBy]
  | cons head tail =>
      have different : ¬ (key head == key entry) = true := by
        rw [← compare_eq_iff_beq, OrientedCmp.gt_of_lt (allAbove head (by simp))]
        simp
      simp only [insertBy, front, List.getElem?_cons_zero, if_neg different]
      rw [shiftInsert_eq _ _ (by simp)]
      rfl

section

variable (sorted : SortedBy key slice) (blank : α) (replace : α → α) (entry : α)
  (keeps : ∀ other, (key other == key entry) = true → (key (replace other) == key other) = true)

include sorted blank replace entry keeps

/-- Insertion keeps the slice sorted, if replacing an entry keeps its key. -/
theorem insertBy_sorted :
    SortedBy key (insertBy key blank replace entry slice) := by
  obtain ⟨below, above, split, allBelow, ⟨found, rest, aboveEq, same, inserted⟩ |
    ⟨allAbove, inserted⟩⟩ := insertBy_split sorted blank replace entry
  · subst split aboveEq
    have sameKey : compare (key (replace found)) (key found) = .eq := by
      rw [compare_eq_iff_beq]
      exact keeps found same
    rw [inserted]
    unfold SortedBy at sorted ⊢
    rw [List.pairwise_append, List.pairwise_cons] at sorted ⊢
    refine ⟨sorted.1, ⟨?_, sorted.2.1.2⟩, ?_⟩
    · intro other member
      exact TransCmp.lt_of_eq_of_lt sameKey (sorted.2.1.1 other member)
    · intro first inBelow second member
      rcases List.mem_cons.mp member with rfl | member
      · exact TransCmp.lt_of_lt_of_eq (sorted.2.2 first inBelow found (by simp))
          (OrientedCmp.eq_symm sameKey)
      · exact sorted.2.2 first inBelow second (by simp [member])
  · subst split
    rw [inserted]
    unfold SortedBy at sorted ⊢
    rw [List.pairwise_append] at sorted ⊢
    refine ⟨sorted.1, List.pairwise_cons.mpr ⟨allAbove, sorted.2.1⟩, ?_⟩
    intro first inBelow second member
    rcases List.mem_cons.mp member with rfl | member
    · exact allBelow first inBelow
    · exact sorted.2.2 first inBelow second member

/-- After an insertion, the inserted key finds the new entry, or the replaced
one; every other key finds what it found before. -/
theorem lookupBy_insertBy (wanted : κ) :
    lookupBy key wanted (insertBy key blank replace entry slice) =
      if key entry == wanted then
        some ((lookupBy key wanted slice).elim entry replace)
      else lookupBy key wanted slice := by
  have := (LawfulBEqOrd.equivBEq (α := κ))
  obtain ⟨below, above, split, allBelow, inserts⟩ := insertBy_split sorted blank replace entry
  have missesBelow : (key entry == wanted) = true → lookupBy key wanted below = none := by
    intro entryWanted
    rw [lookupBy_eq_none]
    intro other member
    rw [← Bool.not_eq_true, ← compare_eq_iff_beq]
    rw [← compare_eq_iff_beq] at entryWanted
    simp [TransCmp.lt_of_lt_of_eq (allBelow other member) entryWanted]
  rcases inserts with ⟨found, rest, aboveEq, same, inserted⟩ | ⟨allAbove, inserted⟩
  · have replaced := BEq.trans (keeps found same) same
    rw [inserted, split, aboveEq, lookupBy_append, lookupBy_append, lookupBy_cons, lookupBy_cons,
      BEq.congr_left replaced, BEq.congr_left same]
    by_cases entryWanted : (key entry == wanted) = true
    · simp [entryWanted, missesBelow entryWanted]
    · simp [entryWanted]
  · rw [inserted, split, lookupBy_append, lookupBy_append, lookupBy_cons]
    by_cases entryWanted : (key entry == wanted) = true
    · have missesAbove : lookupBy key wanted above = none := by
        rw [lookupBy_eq_none]
        intro other member
        rw [← Bool.not_eq_true, ← compare_eq_iff_beq]
        rw [← compare_eq_iff_beq] at entryWanted
        intro otherWanted
        have := TransCmp.lt_of_lt_of_eq (allAbove other member) otherWanted
        simp [entryWanted] at this
      simp [entryWanted, missesBelow entryWanted, missesAbove]
    · simp [entryWanted]

end

end Lawful

end StructuredMergeDiff.Library
