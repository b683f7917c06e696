import StructuredMergeDiff.Library.SortedSlice

/-!
Contract: the two-pointer walk over two sorted slices.

Both slices are read front to back. The smaller head is handled alone, equal
heads are handled together. Union, intersection and difference of sorted
slices are this walk with different handlers.

Owns: `Join`, `Join.run`, and its lookup and order laws over a lawful
comparison.
Does not own: any particular set operation.
-/

namespace StructuredMergeDiff.Library

variable {α β γ κ : Type}

/-- What to emit for an entry of the left slice only, of the right slice only,
and for two entries under one key. -/
structure Join (α β γ κ : Type) where
  leftKey : α → κ
  rightKey : β → κ
  outKey : γ → κ
  onlyLeft : α → Option γ
  onlyRight : β → Option γ
  both : α → β → Option γ

namespace Join

section Walk

variable [Ord κ]

/-- Walk the right slice up to the left head `x`, then go on with `rest`. -/
def head (join : Join α β γ κ) (x : α) (rest : List β → List γ) : List β → List γ
  | [] => (join.onlyLeft x).toList ++ rest []
  | y :: ys =>
      if compare (join.leftKey x) (join.rightKey y) = .lt then
        (join.onlyLeft x).toList ++ rest (y :: ys)
      else if compare (join.rightKey y) (join.leftKey x) = .lt then
        (join.onlyRight y).toList ++ head join x rest ys
      else (join.both x y).toList ++ rest ys

/-- The walk over both slices. -/
def run (join : Join α β γ κ) : List α → List β → List γ
  | [] => fun ys => ys.filterMap join.onlyRight
  | x :: xs => join.head x (run join xs)

end Walk

/-- What the walk emits under one key, given what either slice holds there. -/
def atKey (join : Join α β γ κ) : Option α → Option β → Option γ
  | none, none => none
  | some x, none => join.onlyLeft x
  | none, some y => join.onlyRight y
  | some x, some y => join.both x y

/-- Entries are emitted under the key they were read under. -/
structure KeepsKeys [BEq κ] (join : Join α β γ κ) : Prop where
  onlyLeft : ∀ {x out}, join.onlyLeft x = some out → (join.outKey out == join.leftKey x) = true
  onlyRight : ∀ {y out}, join.onlyRight y = some out → (join.outKey out == join.rightKey y) = true
  both : ∀ {x y out}, (join.leftKey x == join.rightKey y) = true → join.both x y = some out →
    (join.outKey out == join.leftKey x) = true

/-- Where an emitted entry comes from. -/
inductive Origin [Ord κ] (join : Join α β γ κ) (xs : List α) (ys : List β) (out : γ) : Prop
  | onlyLeft {x : α} (inLeft : x ∈ xs) (emitted : join.onlyLeft x = some out)
  | onlyRight {y : β} (inRight : y ∈ ys) (emitted : join.onlyRight y = some out)
  | both {x : α} {y : β} (inLeft : x ∈ xs) (inRight : y ∈ ys)
      (notBelow : compare (join.leftKey x) (join.rightKey y) ≠ .lt)
      (notAbove : compare (join.rightKey y) (join.leftKey x) ≠ .lt)
      (emitted : join.both x y = some out)

variable {join : Join α β γ κ}

theorem Origin.mono [Ord κ] {xs xs' : List α} {ys ys' : List β} {out : γ}
    (origin : Origin join xs ys out) (left : xs ⊆ xs') (right : ys ⊆ ys') :
    Origin join xs' ys' out := by
  cases origin with
  | onlyLeft inLeft emitted => exact .onlyLeft (left inLeft) emitted
  | onlyRight inRight emitted => exact .onlyRight (right inRight) emitted
  | both inLeft inRight notBelow notAbove emitted =>
      exact .both (left inLeft) (right inRight) notBelow notAbove emitted

/-- What every step of the walk keeps holds of the walk. -/
theorem run_induction [Ord κ] {motive : List α → List β → List γ → Prop} (nil : motive [] [] [])
    (onlyLeft : ∀ x xs ys out, motive xs ys out →
      motive (x :: xs) ys ((join.onlyLeft x).toList ++ out))
    (onlyRight : ∀ xs y ys out, motive xs ys out →
      motive xs (y :: ys) ((join.onlyRight y).toList ++ out))
    (both : ∀ x xs y ys out, compare (join.leftKey x) (join.rightKey y) ≠ .lt →
      compare (join.rightKey y) (join.leftKey x) ≠ .lt → motive xs ys out →
      motive (x :: xs) (y :: ys) ((join.both x y).toList ++ out)) (xs : List α) (ys : List β)
    : motive xs ys (join.run xs ys) := by
  induction xs generalizing ys with
  | nil =>
      induction ys with
      | nil => exact nil
      | cons y ys innerHypothesis =>
          have step := onlyRight [] y ys _ innerHypothesis
          cases emitted : join.onlyRight y <;> simpa [run, emitted] using step
  | cons x xs outerHypothesis =>
      simp only [run]
      induction ys with
      | nil => exact onlyLeft x xs [] _ (outerHypothesis [])
      | cons y ys innerHypothesis =>
          simp only [head]
          split
          · exact onlyLeft x xs (y :: ys) _ (outerHypothesis (y :: ys))
          · next notBelow =>
              split
              · exact onlyRight (x :: xs) y ys _ innerHypothesis
              · next notAbove => exact both x xs y ys _ notBelow notAbove (outerHypothesis ys)

variable {xs : List α}

theorem origin_of_mem_run [Ord κ] {ys : List β} {out : γ} (member : out ∈ join.run xs ys)
    : Origin join xs ys out := by
  have each : ∀ emitted ∈ join.run xs ys, Origin join xs ys emitted := by
    apply run_induction (motive := fun xs ys emitted => ∀ out ∈ emitted, Origin join xs ys out)
    · simp
    · intro x xs ys rest ih out member
      rcases List.mem_append.mp member with emitted | inRest
      · exact .onlyLeft List.mem_cons_self (Option.mem_toList.mp emitted)
      · exact (ih out inRest).mono (List.subset_cons_self _ _)
          (List.Subset.refl _)
    · intro xs y ys rest ih out member
      rcases List.mem_append.mp member with emitted | inRest
      · exact .onlyRight List.mem_cons_self (Option.mem_toList.mp emitted)
      · exact (ih out inRest).mono (List.Subset.refl _)
          (List.subset_cons_self _ _)
    · intro x xs y ys rest notBelow notAbove ih out member
      rcases List.mem_append.mp member with emitted | inRest
      · exact .both List.mem_cons_self List.mem_cons_self notBelow notAbove
          (Option.mem_toList.mp emitted)
      · exact (ih out inRest).mono (List.subset_cons_self _ _)
          (List.subset_cons_self _ _)
  exact each out member

/-- The walk looks at the common handler only where both slices have an entry. -/
theorem run_congr [Ord κ] {leftKey : α → κ} {rightKey : β → κ} {outKey : γ → κ}
    {onlyLeft : α → Option γ} {onlyRight : β → Option γ} {first second : α → β → Option γ}
    {ys : List β} (agree : ∀ x ∈ xs, ∀ y ∈ ys, first x y = second x y) :
    run ⟨leftKey, rightKey, outKey, onlyLeft, onlyRight, first⟩ xs ys =
      run ⟨leftKey, rightKey, outKey, onlyLeft, onlyRight, second⟩ xs ys := by
  induction xs generalizing ys with
  | nil => rfl
  | cons x xs outerHypothesis =>
      have agreeTail : ∀ {zs : List β}, zs ⊆ ys → ∀ z ∈ xs, ∀ y ∈ zs, first z y = second z y :=
        fun subset z inLeft y inRight => agree z (List.mem_cons_of_mem x inLeft) y (subset inRight)
      simp only [run]
      induction ys with
      | nil => simp only [head, outerHypothesis (agreeTail (List.Subset.refl _))]
      | cons y ys innerHypothesis =>
          have rest : ys ⊆ y :: ys := List.subset_cons_self y ys
          simp only [head]
          rw [outerHypothesis (agreeTail (List.Subset.refl _)), outerHypothesis (agreeTail rest),
            agree x List.mem_cons_self y List.mem_cons_self,
            innerHypothesis (fun z inLeft w inRight => agree z inLeft w (rest inRight))
              (fun subset z inLeft w inRight =>
                agreeTail (List.Subset.trans subset rest) z inLeft w inRight)]

section Lawful

open Std

variable [Ord κ] [BEq κ] [TransOrd κ] [LawfulBEqOrd κ]

private theorem lookupBy_toList_append {key : γ → κ} {k wanted : κ} {out : Option γ}
    {rest : List γ} (keeps : ∀ entry, out = some entry → (key entry == k) = true)
    (missing : (k == wanted) = true → lookupBy key wanted rest = none) :
    lookupBy key wanted (out.toList ++ rest) =
      if k == wanted then out else lookupBy key wanted rest := by
  have := (LawfulBEqOrd.equivBEq (α := κ))
  cases out with
  | none =>
      by_cases same : (k == wanted) = true
      · simp [same, missing same]
      · simp [same]
  | some entry =>
      rw [Option.toList_some, List.singleton_append, lookupBy_cons,
        BEq.congr_left (keeps entry rfl)]

theorem lookupBy_filterMap {key : β → κ} {outKey : γ → κ} {emit : β → Option γ}
    (keeps : ∀ {y out}, emit y = some out → (outKey out == key y) = true) {slice : List β}
    (sorted : SortedBy key slice) (wanted : κ) :
    lookupBy outKey wanted (slice.filterMap emit) = (lookupBy key wanted slice).bind emit := by
  induction slice with
  | nil => rfl
  | cons y ys ih =>
      have inRest := ih (List.Pairwise.of_cons sorted)
      have emitted : (y :: ys).filterMap emit = (emit y).toList ++ ys.filterMap emit := by
        cases found : emit y <;> simp [found]
      rw [emitted, lookupBy_toList_append (k := key y) (fun out found => keeps found), lookupBy_cons,
        inRest]
      · split <;> rfl
      · intro same
        rw [inRest, lookupBy_eq_none.mpr, Option.bind_none]
        intro other member
        rw [← Bool.not_eq_true, ← compare_eq_iff_beq]
        rw [← compare_eq_iff_beq] at same
        have above := List.rel_of_pairwise_cons sorted member
        intro otherSame
        have loop := TransCmp.lt_of_lt_of_eq above otherSame
        simp [same] at loop

/-- A key below the head of a sorted slice is not in it. -/
theorem lookupBy_of_lt_head {key : α → κ} {x : α} (sorted : SortedBy key (x :: xs)) {wanted : κ}
    (below : compare wanted (key x) = .lt) :
    lookupBy key wanted (x :: xs) = none := by
  rw [lookupBy_eq_none]
  intro entry member
  rw [← Bool.not_eq_true, ← compare_eq_iff_beq]
  intro same
  rcases List.mem_cons.mp member with rfl | inTail
  · simp [OrientedCmp.eq_symm same] at below
  · have above := List.rel_of_pairwise_cons sorted inTail
    have loop := TransCmp.lt_of_lt_of_eq (TransCmp.lt_trans below above) same
    simp at loop

theorem lookupBy_tail_of_head {key : α → κ} {x : α} (sorted : SortedBy key (x :: xs)) {wanted : κ}
    (same : (key x == wanted) = true) :
    lookupBy key wanted xs = none := by
  rw [lookupBy_eq_none]
  intro entry member
  rw [← Bool.not_eq_true, ← compare_eq_iff_beq]
  rw [← compare_eq_iff_beq] at same
  intro entrySame
  have loop := TransCmp.lt_of_lt_of_eq (List.rel_of_pairwise_cons sorted member) entrySame
  simp [same] at loop

/-- Heads neither of which is below the other are under one key. -/
theorem same_of_not_lt {first second : κ} (notBelow : compare first second ≠ .lt)
    (notAbove : compare second first ≠ .lt) : (first == second) = true := by
  rw [← compare_eq_iff_beq]
  cases ordering : compare first second with
  | lt => exact absurd ordering notBelow
  | eq => rfl
  | gt => exact absurd (OrientedCmp.lt_of_gt ordering) notAbove

/-- The walk emits under each key what its handlers make of the two slices'
entries under that key. -/
theorem lookupBy_run (keeps : join.KeepsKeys) {ys : List β} (sortedLeft : SortedBy join.leftKey xs)
    (sortedRight : SortedBy join.rightKey ys) (wanted : κ) :
    lookupBy join.outKey wanted (join.run xs ys) =
      join.atKey (lookupBy join.leftKey wanted xs) (lookupBy join.rightKey wanted ys) := by
  induction xs generalizing ys with
  | nil =>
      simp only [run]
      rw [lookupBy_filterMap keeps.onlyRight sortedRight]
      cases lookupBy join.rightKey wanted ys <;> rfl
  | cons x xs outerHypothesis =>
      have sortedTail := List.Pairwise.of_cons sortedLeft
      simp only [run]
      induction ys with
      | nil =>
          simp only [head]
          rw [lookupBy_toList_append (k := join.leftKey x) (fun out found => keeps.onlyLeft found),
            outerHypothesis sortedTail sortedRight, lookupBy_cons]
          · split <;> rfl
          · intro same
            rw [outerHypothesis sortedTail sortedRight, lookupBy_tail_of_head sortedLeft same]
            rfl
      | cons y ys innerHypothesis =>
          have sortedRest := List.Pairwise.of_cons sortedRight
          simp only [head]
          split
          · rename_i below
            -- the left head is alone under its key
            have missesRight : ∀ {k : κ}, (join.leftKey x == k) = true →
                lookupBy join.rightKey k (y :: ys) = none := by
              intro k same
              rw [← compare_eq_iff_beq] at same
              exact lookupBy_of_lt_head sortedRight
                (TransCmp.lt_of_eq_of_lt (OrientedCmp.eq_symm same) below)
            rw [lookupBy_toList_append (k := join.leftKey x)
              (fun out found => keeps.onlyLeft found), outerHypothesis sortedTail sortedRight,
              lookupBy_cons join.leftKey]
            · by_cases same : (join.leftKey x == wanted) = true
              · simp [same, missesRight same, Join.atKey]
              · simp [same]
            · intro same
              rw [outerHypothesis sortedTail sortedRight, lookupBy_tail_of_head sortedLeft same,
                missesRight same]
              rfl
          · rename_i notBelow
            split
            · rename_i above
              -- the right head is alone under its key
              have missesLeft : ∀ {k : κ}, (join.rightKey y == k) = true →
                  lookupBy join.leftKey k (x :: xs) = none := by
                intro k same
                rw [← compare_eq_iff_beq] at same
                exact lookupBy_of_lt_head sortedLeft
                  (TransCmp.lt_of_eq_of_lt (OrientedCmp.eq_symm same) above)
              rw [lookupBy_toList_append (k := join.rightKey y)
                (fun out found => keeps.onlyRight found), innerHypothesis sortedRest,
                lookupBy_cons join.rightKey]
              · by_cases same : (join.rightKey y == wanted) = true
                · simp [same, missesLeft same, Join.atKey]
                · simp [same]
              · intro same
                rw [innerHypothesis sortedRest, missesLeft same,
                  lookupBy_tail_of_head sortedRight same]
                rfl
            · rename_i notAbove
              have sameHeads := same_of_not_lt notBelow notAbove
              have rightSame : ∀ {k : κ}, (join.leftKey x == k) = (join.rightKey y == k) := by
                have := (LawfulBEqOrd.equivBEq (α := κ))
                intro k
                exact BEq.congr_left sameHeads
              rw [lookupBy_toList_append (k := join.leftKey x)
                (fun out found => keeps.both sameHeads found), outerHypothesis sortedTail sortedRest,
                lookupBy_cons join.leftKey, lookupBy_cons join.rightKey, ← rightSame]
              · split <;> rfl
              · intro same
                rw [outerHypothesis sortedTail sortedRest, lookupBy_tail_of_head sortedLeft same,
                  lookupBy_tail_of_head sortedRight (rightSame ▸ same)]
                rfl

/-- Every emitted entry stands under a key of one of the slices. -/
theorem key_of_mem_run (keeps : join.KeepsKeys) {ys : List β} {out : γ}
    (member : out ∈ join.run xs ys) :
    (∃ x ∈ xs, (join.outKey out == join.leftKey x) = true) ∨
      ∃ y ∈ ys, (join.outKey out == join.rightKey y) = true := by
  cases origin_of_mem_run member with
  | onlyLeft inLeft emitted => exact Or.inl ⟨_, inLeft, keeps.onlyLeft emitted⟩
  | onlyRight inRight emitted => exact Or.inr ⟨_, inRight, keeps.onlyRight emitted⟩
  | both inLeft _ notBelow notAbove emitted =>
      exact Or.inl ⟨_, inLeft, keeps.both (same_of_not_lt notBelow notAbove) emitted⟩

private theorem toList_append_sorted {key : γ → κ} {k : κ} {out : Option γ} {rest : List γ}
    (keeps : ∀ entry, out = some entry → (key entry == k) = true)
    (below : ∀ entry ∈ rest, compare k (key entry) = .lt) (sorted : SortedBy key rest) :
    SortedBy key (out.toList ++ rest) := by
  cases out with
  | none => exact sorted
  | some entry =>
      refine List.pairwise_cons.mpr ⟨fun other member => ?_, sorted⟩
      have same := keeps entry rfl
      rw [← compare_eq_iff_beq] at same
      exact TransCmp.lt_of_eq_of_lt same (below other member)

private theorem lt_of_mem_run (keeps : join.KeepsKeys) (xs : List α) (ys : List β) {k : κ}
    (belowLeft : ∀ x ∈ xs, compare k (join.leftKey x) = .lt)
    (belowRight : ∀ y ∈ ys, compare k (join.rightKey y) = .lt) {out : γ}
    (member : out ∈ join.run xs ys) : compare k (join.outKey out) = .lt := by
  rcases key_of_mem_run keeps member with ⟨x, inLeft, same⟩ | ⟨y, inRight, same⟩
  · rw [← compare_eq_iff_beq] at same
    exact TransCmp.lt_of_lt_of_eq (belowLeft x inLeft) (OrientedCmp.eq_symm same)
  · rw [← compare_eq_iff_beq] at same
    exact TransCmp.lt_of_lt_of_eq (belowRight y inRight) (OrientedCmp.eq_symm same)

omit [BEq κ] [LawfulBEqOrd κ] in
private theorem lt_of_lt_head {key : α → κ} {x : α} (sorted : SortedBy key (x :: xs)) {k : κ}
    (below : compare k (key x) = .lt) :
    ∀ z ∈ x :: xs, compare k (key z) = .lt := by
  intro z member
  rcases List.mem_cons.mp member with rfl | inTail
  · exact below
  · exact TransCmp.lt_trans below (List.rel_of_pairwise_cons sorted inTail)

theorem run_sorted (keeps : join.KeepsKeys) {ys : List β} (sortedLeft : SortedBy join.leftKey xs)
    (sortedRight : SortedBy join.rightKey ys) :
    SortedBy join.outKey (join.run xs ys) := by
  induction xs generalizing ys with
  | nil =>
      simp only [run]
      induction ys with
      | nil => exact List.Pairwise.nil
      | cons y ys ih =>
          have emitted : (y :: ys).filterMap join.onlyRight =
              (join.onlyRight y).toList ++ ys.filterMap join.onlyRight := by
            cases found : join.onlyRight y <;> simp [found]
          rw [emitted]
          refine toList_append_sorted (fun out found => keeps.onlyRight found)
            (fun out member => ?_) (ih (List.Pairwise.of_cons sortedRight))
          exact lt_of_mem_run keeps [] ys (by simp)
            (fun z inRight => List.rel_of_pairwise_cons sortedRight inRight) member
  | cons x xs outerHypothesis =>
      have sortedTail := List.Pairwise.of_cons sortedLeft
      have aboveHead : ∀ z ∈ xs, compare (join.leftKey x) (join.leftKey z) = .lt :=
        fun z member => List.rel_of_pairwise_cons sortedLeft member
      simp only [run]
      induction ys with
      | nil =>
          refine toList_append_sorted (fun out found => keeps.onlyLeft found)
            (fun out member => ?_) (outerHypothesis sortedTail sortedRight)
          exact lt_of_mem_run keeps xs _ aboveHead (by simp) member
      | cons y ys innerHypothesis =>
          have sortedRest := List.Pairwise.of_cons sortedRight
          simp only [head]
          split
          · rename_i below
            refine toList_append_sorted (fun out found => keeps.onlyLeft found)
              (fun out member => ?_) (outerHypothesis sortedTail sortedRight)
            exact lt_of_mem_run keeps xs _ aboveHead (lt_of_lt_head sortedRight below) member
          · rename_i notBelow
            split
            · rename_i above
              refine toList_append_sorted (fun out found => keeps.onlyRight found)
                (fun out member => ?_) (innerHypothesis sortedRest)
              exact lt_of_mem_run keeps (x :: xs) ys (lt_of_lt_head sortedLeft above)
                (fun z inRight => List.rel_of_pairwise_cons sortedRight inRight) member
            · rename_i notAbove
              have sameHeads := same_of_not_lt notBelow notAbove
              have headsEq := compare_eq_iff_beq.mpr sameHeads
              refine toList_append_sorted (fun out found => keeps.both sameHeads found)
                (fun out member => ?_) (outerHypothesis sortedTail sortedRest)
              exact lt_of_mem_run keeps xs _ aboveHead
                (fun z inRight => TransCmp.lt_of_eq_of_lt headsEq
                  (List.rel_of_pairwise_cons sortedRight inRight)) member

end Lawful

end Join

end StructuredMergeDiff.Library
