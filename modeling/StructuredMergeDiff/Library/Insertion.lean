import Mathlib.Algebra.BigOperators.Group.List.Basic
import Mathlib.Algebra.GroupWithZero.Nat
import StructuredMergeDiff.Library.SortedSlice

/-!
Contract: insertion of many entries into a sorted slice.

Entries under different keys are all in the slice afterwards. Entries under one key are
there once, and whatever is counted by entry is then less than what has been inserted.

Owns: `Placed`, what one insertion does to the other entries; `insertAll`, that it is a
rearrangement where the keys differ, and that it loses weight where they do not.
-/

namespace StructuredMergeDiff.Library

open Std

variable {α κ : Type} [Ord κ]

/-- Insertion of one entry after the other; `replace` says what becomes of an entry under
the same key. -/
def insertAll [BEq κ] (key : α → κ) (blank : α) (replace : α → α → α) (entries slice : List α) :
    List α :=
  entries.foldl (fun slice entry => insertBy key blank (replace entry) entry slice) slice

/-- One insertion, as it shows in the slice: an entry under the same key is replaced where
it stands, or the new entry stands between two parts that are otherwise as before. -/
inductive Placed [BEq κ] (key : α → κ) (replace : α → α) (entry : α) : List α → List α → Prop
  | replaced (before : List α) (found : α) (after : List α)
      (same : (key found == key entry) = true) :
      Placed key replace entry (before ++ found :: after) (before ++ replace found :: after)
  | added (before after : List α)
      (new : ∀ other ∈ before ++ after, (key other == key entry) = false) :
      Placed key replace entry (before ++ after) (before ++ entry :: after)

variable [BEq κ] [TransOrd κ] [LawfulBEqOrd κ] {key : α → κ} {blank entry : α}

section One

variable {replace : α → α} {slice : List α}

/-- An entry above all others is inserted at the end. -/
theorem insertBy_eq_append (sorted : SortedBy key slice)
    (allBelow : ∀ other ∈ slice, compare (key other) (key entry) = .lt) :
    insertBy key blank replace entry slice = slice ++ [entry] := by
  obtain ⟨below, above, rfl, -, ⟨found, rest, rfl, same, -⟩ | ⟨allAbove, inserted⟩⟩ :=
    insertBy_split sorted blank replace entry
  · rw [← compare_eq_iff_beq, allBelow found (by simp)] at same
    cases same
  · have noneAbove : above = [] := by
      rw [List.eq_nil_iff_forall_not_mem]
      intro other member
      have reversed := OrientedCmp.gt_of_lt (allAbove other member)
      rw [allBelow other (by simp [member])] at reversed
      cases reversed
    rw [inserted, noneAbove, List.append_nil]

theorem insertBy_eq_append_of_last (sorted : SortedBy key slice)
    (below : ∀ last ∈ slice.getLast?, compare (key last) (key entry) = .lt) :
    insertBy key blank replace entry slice = slice ++ [entry] := by
  apply insertBy_eq_append sorted
  intro other member
  obtain ⟨last, isLast⟩ := List.getLast?_isSome.mpr (List.ne_nil_of_mem member) |>
    Option.isSome_iff_exists.mp
  have split := List.dropLast_append_getLast? last isLast
  unfold SortedBy at sorted
  rw [← split] at sorted member
  rcases List.mem_append.mp member with before | atEnd
  · exact TransCmp.lt_trans
      ((List.pairwise_append.mp sorted).2.2 other before last (List.mem_singleton_self _))
      (below last isLast)
  · rw [List.mem_singleton.mp atEnd]
    exact below last isLast

theorem insertBy_perm (sorted : SortedBy key slice)
    (new : ∀ other ∈ slice, (key other == key entry) = false) :
    (insertBy key blank replace entry slice).Perm (entry :: slice) := by
  obtain ⟨below, above, rfl, -, ⟨found, rest, rfl, same, -⟩ | ⟨-, inserted⟩⟩ :=
    insertBy_split sorted blank replace entry
  · rw [new found (by simp)] at same
    cases same
  · rw [inserted]
    exact List.perm_middle

theorem insertBy_ne_nil (sorted : SortedBy key slice) :
    insertBy key blank replace entry slice ≠ [] := by
  obtain ⟨below, above, -, -, ⟨found, rest, -, -, inserted⟩ | ⟨-, inserted⟩⟩ :=
    insertBy_split sorted blank replace entry
  all_goals
    rw [inserted]
    simp

omit [TransOrd κ] in
private theorem absent_between [OrientedOrd κ] {below above : List α}
    (allBelow : ∀ other ∈ below, compare (key other) (key entry) = .lt)
    (allAbove : ∀ other ∈ above, compare (key entry) (key other) = .lt) :
    ∀ other ∈ below ++ above, (key other == key entry) = false := by
  intro other member
  rw [← Bool.not_eq_true, ← compare_eq_iff_beq]
  rcases List.mem_append.mp member with inBelow | inAbove
  · simp [allBelow other inBelow]
  · simp [OrientedCmp.gt_of_lt (allAbove other inAbove)]

/-- One insertion keeps every other entry, once and in its order. -/
theorem insertBy_placed (blank : α) (replace : α → α) (entry : α) (sorted : SortedBy key slice) :
    Placed key replace entry slice (insertBy key blank replace entry slice) := by
  obtain ⟨below, above, rfl, allBelow, ⟨found, rest, rfl, same, inserted⟩ |
    ⟨allAbove, inserted⟩⟩ := insertBy_split sorted blank replace entry
  · rw [inserted]
    exact .replaced below found rest same
  · rw [inserted]
    exact .added below above (absent_between allBelow allAbove)

/-- What is inserted takes the place of what has been found under its key. -/
theorem weight_insertBy {weight : α → Nat} (blank : α) (sorted : SortedBy key slice)
    (same : ∀ found, weight (replace found) = weight entry) :
    ((insertBy key blank replace entry slice).map weight).sum +
        ((lookupBy key (key entry) slice).map weight).getD 0 =
      (slice.map weight).sum + weight entry := by
  obtain ⟨below, above, rfl, allBelow, ⟨found, rest, rfl, isKey, inserted⟩ |
    ⟨allAbove, inserted⟩⟩ := insertBy_split sorted blank replace entry
  · rw [inserted, lookupBy_of_mem sorted (by simp) isKey]
    simp only [List.map_append, List.map_cons, List.sum_append, List.sum_cons, Option.map_some,
      Option.getD_some, same]
    omega
  · have missing : lookupBy key (key entry) (below ++ above) = none :=
      lookupBy_eq_none.mpr (absent_between allBelow allAbove)
    rw [inserted, missing]
    simp only [List.map_append, List.map_cons, List.sum_append, List.sum_cons, Option.map_none,
      Option.getD_none]
    omega

end One

section Many

variable {replace : α → α → α} {entries slice : List α}
  (keeps : ∀ entry found, (key found == key entry) = true →
    (key (replace entry found) == key found) = true)

include keeps

section

variable (sorted : SortedBy key slice)

include sorted

theorem insertAll_sorted :
    SortedBy key (insertAll key blank replace entries slice) := by
  unfold insertAll
  induction entries generalizing slice with
  | nil => exact sorted
  | cons entry rest ih =>
      exact ih (insertBy_sorted sorted _ _ _ (keeps entry))

theorem insertAll_ne_nil (some : entries ≠ [] ∨ slice ≠ []) :
    insertAll key blank replace entries slice ≠ [] := by
  unfold insertAll
  induction entries generalizing slice with
  | nil => exact some.resolve_left (fun nothing => nothing rfl)
  | cons entry rest ih =>
      exact ih (insertBy_sorted sorted _ _ _ (keeps entry))
        (Or.inr (insertBy_ne_nil sorted))

/-- What holds of all that is inserted holds of the slice. -/
theorem insertAll_forall {P : α → Prop} (ofSlice : ∀ other ∈ slice, P other)
    (ofEntries : ∀ entry ∈ entries, P entry)
    (ofReplaced : ∀ entry ∈ entries, ∀ found, P found → P (replace entry found)) :
    ∀ other ∈ insertAll key blank replace entries slice, P other := by
  unfold insertAll
  induction entries generalizing slice with
  | nil => exact ofSlice
  | cons entry rest ih =>
      apply ih (insertBy_sorted sorted _ _ _ (keeps entry))
      · intro other member
        rcases mem_insertBy sorted member with inSlice | rfl | ⟨found, inSlice, -, rfl⟩
        · exact ofSlice other inSlice
        · exact ofEntries other (by simp)
        · exact ofReplaced entry (by simp) found (ofSlice found inSlice)
      · exact fun other member => ofEntries other (by simp [member])
      · exact fun other member => ofReplaced other (by simp [member])

/-- Entries under new and different keys are all there. -/
theorem insertAll_perm
    (distinct : entries.Pairwise fun first second => (key first == key second) = false)
    (new : ∀ entry ∈ entries, ∀ other ∈ slice, (key other == key entry) = false) :
    (insertAll key blank replace entries slice).Perm (entries ++ slice) := by
  unfold insertAll
  induction entries generalizing slice with
  | nil => exact List.Perm.refl _
  | cons entry rest ih =>
      obtain ⟨differs, distinctRest⟩ := List.pairwise_cons.mp distinct
      have inserted : (insertBy key blank (replace entry) entry slice).Perm (entry :: slice) :=
        insertBy_perm sorted (new entry (by simp))
      have newRest : ∀ later ∈ rest, ∀ other ∈ insertBy key blank (replace entry) entry slice,
          (key other == key later) = false := by
        intro later inRest other member
        rcases List.mem_cons.mp (inserted.mem_iff.mp member) with rfl | inSlice
        · exact differs later inRest
        · exact new later (by simp [inRest]) other inSlice
      have onward := ih (insertBy_sorted sorted _ _ _ (keeps entry)) distinctRest
        newRest
      exact onward.trans ((inserted.append_left rest).trans List.perm_middle)

/-- The slice does not weigh more than what has been inserted. -/
theorem weight_insertAll_le {weight : α → Nat}
    (same : ∀ entry found, weight (replace entry found) = weight entry) :
    ((insertAll key blank replace entries slice).map weight).sum ≤
      (entries.map weight).sum + (slice.map weight).sum := by
  unfold insertAll
  induction entries generalizing slice with
  | nil => simp
  | cons entry rest ih =>
      have onward := ih (insertBy_sorted sorted blank _ _ (keeps entry))
      have step := weight_insertBy blank sorted (same entry)
      simp only [List.foldl_cons, List.map_cons, List.sum_cons]
      omega

/-- If nothing is lost, all keys are new and different. -/
theorem distinct_of_weight {weight : α → Nat}
    (same : ∀ entry found, weight (replace entry found) = weight entry)
    (positive : ∀ other ∈ slice, 0 < weight other)
    (positiveEntries : ∀ entry ∈ entries, 0 < weight entry)
    (kept : ((insertAll key blank replace entries slice).map weight).sum =
      (entries.map weight).sum + (slice.map weight).sum) :
    (entries.Pairwise fun first second => (key first == key second) = false) ∧
      ∀ entry ∈ entries, ∀ other ∈ slice, (key other == key entry) = false := by
  induction entries generalizing slice with
  | nil => exact ⟨List.Pairwise.nil, by simp⟩
  | cons entry rest ih =>
      have sortedNext : SortedBy key (insertBy key blank (replace entry) entry slice) :=
        insertBy_sorted sorted _ _ _ (keeps entry)
      have onward : ((insertAll key blank replace rest
          (insertBy key blank (replace entry) entry slice)).map weight).sum ≤
            (rest.map weight).sum +
              ((insertBy key blank (replace entry) entry slice).map weight).sum :=
        weight_insertAll_le keeps sortedNext same
      have step := weight_insertBy blank sorted (same entry)
      have keptRest : ((insertAll key blank replace rest
          (insertBy key blank (replace entry) entry slice)).map weight).sum =
            (entry :: rest |>.map weight).sum + (slice.map weight).sum := kept
      rw [List.map_cons, List.sum_cons] at keptRest
      -- The found entry would be lost: there is none.
      have new : ∀ other ∈ slice, (key other == key entry) = false := by
        rw [← lookupBy_eq_none]
        cases found : lookupBy key (key entry) slice with
        | none => rfl
        | some other =>
            have heavy := positive other (mem_of_lookupBy found)
            rw [found, Option.map_some, Option.getD_some] at step
            omega
      have inserted : (insertBy key blank (replace entry) entry slice).Perm (entry :: slice) :=
        insertBy_perm sorted new
      have positiveNext : ∀ other ∈ insertBy key blank (replace entry) entry slice,
          0 < weight other := by
        intro other member
        rcases List.mem_cons.mp (inserted.mem_iff.mp member) with rfl | inSlice
        · exact positiveEntries other (by simp)
        · exact positive other inSlice
      obtain ⟨distinct, newRest⟩ := ih sortedNext positiveNext
        (fun other member => positiveEntries other (by simp [member])) (by omega)
      refine ⟨List.pairwise_cons.mpr ⟨fun later inRest =>
        newRest later inRest entry (inserted.mem_iff.mpr (by simp)), distinct⟩, ?_⟩
      intro later member other inSlice
      rcases List.mem_cons.mp member with rfl | inRest
      · exact new other inSlice
      · exact newRest later inRest other (inserted.mem_iff.mpr (by simp [inSlice]))

end

end Many

end StructuredMergeDiff.Library
