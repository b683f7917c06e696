import StructuredMergeDiff.Typed.ListIndex

/-!
Contract: what the interleaving loop of `Merge` does with two indexed lists.

An iteration takes the next item of both sides, of one side, or skips an item
of the left side that the right side has as well. That one of these always
applies rests on a consistent number domain: only then does an item that the
right side has count as merged once the right side is used up.

Owns: the steps of the loop, its progress, and what it emits.
-/

namespace StructuredMergeDiff.Typed.Merge

open Library Std

variable {N : Type} [Numeric N] {state : LoopState N}

/-! ## The steps of the loop -/

/-- What one iteration can do with the two sides and the merged path elements. -/
inductive Step (observedLHS observedRHS : PathElementMap N (Value N)) :
    LoopState N → LoopState N → List (Emission N) → Prop where
  /-- Both sides go on: their heads have one path element. -/
  | both {state next : LoopState N} {pe rpe : PathElement N} {item : Value N}
      (left : state.lhs = (pe, item) :: next.lhs) (right : state.rhs = rpe :: next.rhs)
      (same : (pe == rpe) = true) (merged : next.mergedRHS = state.mergedRHS.insert pe ()) :
      Step observedLHS observedRHS state next [⟨pe, observedLHS.get pe, observedRHS.get pe⟩]
  /-- The left side goes on past an item that the right side has as well. -/
  | skip {state next : LoopState N} {pe : PathElement N} {item : Value N}
      (left : state.lhs = (pe, item) :: next.lhs) (right : state.rhs = next.rhs)
      (shared : (observedRHS.get pe).isSome = true) (merged : next.mergedRHS = state.mergedRHS) :
      Step observedLHS observedRHS state next []
  /-- The left side goes on: the right side has no such item. -/
  | left {state next : LoopState N} {pe : PathElement N} {item : Value N}
      (left : state.lhs = (pe, item) :: next.lhs) (right : state.rhs = next.rhs)
      (unshared : observedRHS.get pe = none) (merged : next.mergedRHS = state.mergedRHS) :
      Step observedLHS observedRHS state next [⟨pe, some item, none⟩]
  /-- The right side goes on. -/
  | right {state next : LoopState N} {rpe : PathElement N}
      (left : state.lhs = next.lhs) (right : state.rhs = rpe :: next.rhs)
      (merged : next.mergedRHS = state.mergedRHS.insert rpe ()) :
      Step observedLHS observedRHS state next
        [⟨rpe, observedLHS.get rpe, observedRHS.get rpe⟩]
  /-- The right side goes on, the left side past an item merged before. -/
  | rightSkip {state next : LoopState N} {pe rpe : PathElement N} {item : Value N}
      (left : state.lhs = (pe, item) :: next.lhs) (right : state.rhs = rpe :: next.rhs)
      (shared : (observedRHS.get pe).isSome = true)
      (merged : next.mergedRHS = state.mergedRHS.insert rpe ()) :
      Step observedLHS observedRHS state next
        [⟨rpe, observedLHS.get rpe, observedRHS.get rpe⟩]
  /-- Neither side goes on: the right side is used up, yet it has an item like the
  next one of the left side that does not count as merged. -/
  | stuck {state : LoopState N} {pe : PathElement N} {item : Value N}
      {rest : List (PathElement N × Value N)} (left : state.lhs = (pe, item) :: rest)
      (right : state.rhs = []) (shared : (observedRHS.get pe).isSome = true)
      (unmerged : state.mergedRHS.get pe = none) :
      Step observedLHS observedRHS state state []

section Steps

variable (observedLHS observedRHS : PathElementMap N (Value N))

/-- `takeRight`, by what it does to the parts of the state that a step names. -/
theorem takeRight_cons (state : LoopState N) {rpe : PathElement N} {rest : List (PathElement N)}
    (right : state.rhs = rpe :: rest) :
    ∃ next, takeRight observedLHS observedRHS state =
        (next, [⟨rpe, observedLHS.get rpe, observedRHS.get rpe⟩]) ∧
      next.lhs = state.lhs ∧ next.rhs = rest ∧
      next.mergedRHS = state.mergedRHS.insert rpe () := by
  unfold takeRight
  rw [right]
  dsimp only
  split
  · split
    · exact ⟨_, rfl, rfl, rfl, rfl⟩
    · exact ⟨_, rfl, rfl, rfl, rfl⟩
  · exact ⟨_, rfl, rfl, rfl, rfl⟩

theorem takeRight_nil (right : state.rhs = []) :
    takeRight observedLHS observedRHS state = (state, []) := by
  simp [takeRight, right]

theorem takeLeft_step (unfinished : ¬ (state.lhs = [] ∧ state.rhs = [])) :
    Step observedLHS observedRHS state (takeLeft observedLHS observedRHS state).1
      (takeLeft observedLHS observedRHS state).2 := by
  unfold takeLeft
  split
  · next left =>
      obtain ⟨rpe, rest, right⟩ := List.exists_cons_of_ne_nil fun right => unfinished ⟨left, right⟩
      obtain ⟨next, taken, lhs, rhs, merged⟩ := takeRight_cons observedLHS observedRHS state right
      rw [taken]
      exact .right lhs.symm (by rw [right, rhs]) merged
  · next pe item lhsRest left =>
      split
      · next absent => exact .left left rfl (Option.isNone_iff_eq_none.mp absent) rfl
      · next present =>
          have shared : (observedRHS.get pe).isSome = true :=
            Option.isSome_iff_ne_none.mpr (by simpa using present)
          split
          · by_cases right : state.rhs = []
            · rw [takeRight_nil observedLHS observedRHS (by exact right)]
              exact .skip left rfl shared rfl
            · obtain ⟨rpe, rest, right⟩ := List.exists_cons_of_ne_nil right
              obtain ⟨next, taken, lhs, rhs, merged⟩ :=
                takeRight_cons observedLHS observedRHS { state with lhs := lhsRest } right
              rw [taken]
              exact .rightSkip (by rw [left, lhs]) (by rw [right, rhs]) shared merged
          · next unmerged =>
              by_cases right : state.rhs = []
              · rw [takeRight_nil observedLHS observedRHS right]
                exact .stuck left right shared (by simpa using unmerged)
              · obtain ⟨rpe, rest, right⟩ := List.exists_cons_of_ne_nil right
                obtain ⟨next, taken, lhs, rhs, merged⟩ :=
                  takeRight_cons observedLHS observedRHS state right
                rw [taken]
                exact .right lhs.symm (by rw [right, rhs]) merged

/-- An iteration is one of the steps. -/
theorem iteration_step (state : LoopState N) (unfinished : ¬ (state.lhs = [] ∧ state.rhs = [])) :
    Step observedLHS observedRHS state (iteration observedLHS observedRHS state).1
      (iteration observedLHS observedRHS state).2 := by
  unfold iteration
  split
  · next pe item lhs rpe rhs left right =>
      split
      · next same => exact .both left right same rfl
      · split
        · next shared =>
            rw [Bool.and_eq_true] at shared
            exact .skip left rfl shared.1 rfl
        · exact takeLeft_step observedLHS observedRHS unfinished
  · exact takeLeft_step observedLHS observedRHS unfinished

end Steps

/-! ## Progress -/

/-- How many items are left. -/
def LoopState.remaining (state : LoopState N) : Nat :=
  state.lhs.length + state.rhs.length

/-- The path elements of the right side that are used up are those that count
as merged. -/
structure Invariant (right : Indexed N) (state : LoopState N) : Prop where
  sorted : SortedBy Prod.fst state.mergedRHS
  consumed : ∃ before, right.pes.map Prod.fst = before ++ state.rhs ∧
    ∀ pe, (state.mergedRHS.get pe).isSome = true ↔ ∃ rpe ∈ before, (rpe == pe) = true

omit [Numeric N] in
theorem remaining_eq_zero :
    state.remaining = 0 ↔ state.lhs = [] ∧ state.rhs = [] := by
  simp [LoopState.remaining]

theorem start_invariant (left right : Indexed N) :
    Invariant right (LoopState.start left right) where
  sorted := List.Pairwise.nil
  consumed := ⟨[], rfl, fun _ => by simp [LoopState.start, PathElementMap.get, getBy]⟩

section Progress

variable [Consistent N] {left right : Indexed N}

private theorem Invariant.consume {state next : LoopState N} (invariant : Invariant right state)
    {pe rpe : PathElement N} (head : state.rhs = rpe :: next.rhs) (same : (pe == rpe) = true)
    (merged : next.mergedRHS = state.mergedRHS.insert pe ()) : Invariant right next where
  sorted := by
    rw [merged]
    exact PathElementMap.insert_sorted invariant.sorted pe ()
  consumed := by
    obtain ⟨before, split, counts⟩ := invariant.consumed
    refine ⟨before ++ [rpe], by simp [split, head], fun wanted => ?_⟩
    rw [merged, PathElementMap.get_insert invariant.sorted]
    by_cases hit : (pe == wanted) = true
    · have found : (rpe == wanted) = true := by rw [← BEq.congr_left same]; exact hit
      simp [hit, found]
    · have missed : (rpe == wanted) = false := by
        rw [← BEq.congr_left same]
        exact Bool.eq_false_iff.mpr hit
      rw [if_neg hit, counts]
      simp [missed]

theorem step_invariant {state next : LoopState N} {emitted : List (Emission N)}
    (step : Step left.observed right.observed state next emitted)
    (invariant : Invariant right state) : Invariant right next := by
  cases step with
  | both _ head same merged => exact invariant.consume head same merged
  | skip _ head _ merged => exact ⟨merged ▸ invariant.sorted, head ▸ merged ▸ invariant.consumed⟩
  | left _ head _ merged => exact ⟨merged ▸ invariant.sorted, head ▸ merged ▸ invariant.consumed⟩
  | right _ head merged => exact invariant.consume head (BEq.refl _) merged
  | rightSkip _ head _ merged => exact invariant.consume head (BEq.refl _) merged
  | stuck => exact invariant

omit [Consistent N] in
/-- Every step of a run goes on on one side at least. -/
theorem step_advances (faithful : right.Faithful) {state next : LoopState N}
    {emitted : List (Emission N)} (step : Step left.observed right.observed state next emitted)
    (invariant : Invariant right state) : next.remaining < state.remaining := by
  unfold LoopState.remaining
  cases step with
  | both lhs rhs => simp only [lhs, rhs, List.length_cons]; omega
  | skip lhs rhs => simp only [lhs, rhs, List.length_cons]; omega
  | left lhs rhs => simp only [lhs, rhs, List.length_cons]; omega
  | right lhs rhs => simp only [lhs, rhs, List.length_cons]; omega
  | rightSkip lhs rhs => simp only [lhs, rhs, List.length_cons]; omega
  | stuck lhs rhs shared unmerged =>
      -- the right side is used up, so its item counts as merged
      obtain ⟨before, split, counts⟩ := invariant.consumed
      obtain ⟨entry, member, same⟩ := (faithful.isSome_iff _).mp shared
      rw [rhs, List.append_nil] at split
      have merged := (counts _).mpr ⟨entry.1, split ▸ List.mem_map_of_mem member, same⟩
      rw [unmerged] at merged
      cases merged

/-- With as much fuel as there are items left, the loop ends. -/
theorem loop_ends (faithful : right.Faithful) (fuel : Nat) (invariant : Invariant right state)
    (enough : state.remaining ≤ fuel) :
    (loop left.observed right.observed fuel state).isSome = true := by
  induction fuel generalizing state with
  | zero =>
      have done := remaining_eq_zero.mp (Nat.le_zero.mp enough)
      simp [loop, done]
  | succ fuel ih =>
      unfold loop
      split
      · rfl
      · next unfinished =>
          have step := iteration_step left.observed right.observed state (by simpa using unfinished)
          have advanced := step_advances faithful step invariant
          have ends := ih (step_invariant step invariant) (by omega)
          simpa using ends

theorem schedule_isSome (left : Indexed N) (faithful : right.Faithful) :
    (schedule left right).isSome = true := by
  apply loop_ends faithful _ (start_invariant left right)
  simp [LoopState.remaining, LoopState.start]

end Progress

/-! ## What is emitted -/

/-- A run of the loop to its end, with what it emits. -/
inductive Run (observedLHS observedRHS : PathElementMap N (Value N)) :
    LoopState N → List (Emission N) → Prop where
  | done {state : LoopState N} (left : state.lhs = []) (right : state.rhs = []) :
      Run observedLHS observedRHS state []
  | step {state next : LoopState N} {emitted rest : List (Emission N)}
      (step : Step observedLHS observedRHS state next emitted)
      (run : Run observedLHS observedRHS next rest) :
      Run observedLHS observedRHS state (emitted ++ rest)

theorem run_of_loop {observedLHS observedRHS : PathElementMap N (Value N)} {fuel : Nat}
    {emissions : List (Emission N)}
    (ends : loop observedLHS observedRHS fuel state = some emissions) :
    Run observedLHS observedRHS state emissions := by
  induction fuel generalizing state emissions with
  | zero =>
      unfold loop at ends
      split at ends
      · next finished =>
          simp only [Bool.and_eq_true, List.isEmpty_iff] at finished
          cases ends
          exact .done finished.1 finished.2
      · cases ends
  | succ fuel ih =>
      unfold loop at ends
      split at ends
      · next finished =>
          simp only [Bool.and_eq_true, List.isEmpty_iff] at finished
          cases ends
          exact .done finished.1 finished.2
      · next unfinished =>
          obtain ⟨rest, later, rfl⟩ := Option.map_eq_some_iff.mp ends
          exact .step (iteration_step _ _ state (by simpa using unfinished))
            (ih later)

section Emissions

variable {observedLHS observedRHS : PathElementMap N (Value N)} {state : LoopState N}
  {emissions : List (Emission N)}

/-- Does the right side have this item? -/
def Emission.fromRight (observedRHS : PathElementMap N (Value N)) (emission : Emission N) : Bool :=
  (observedRHS.get emission.pe).isSome

/-- An emission of an item of the right side, with what the left side has for it. -/
structure Emission.Joins (observedLHS observedRHS : PathElementMap N (Value N))
    (emission : Emission N) (rpe : PathElement N) : Prop where
  same : (emission.pe == rpe) = true
  lChild : emission.lChild = observedLHS.get emission.pe
  rChild : emission.rChild = observedRHS.get emission.pe

/-- Every emission is of what the two indexes hold, or of an item of the left side. -/
theorem Run.origin (run : Run observedLHS observedRHS state emissions) {emission : Emission N}
    (member : emission ∈ emissions) :
    (emission.lChild = observedLHS.get emission.pe ∧
        emission.rChild = observedRHS.get emission.pe) ∨
      ∃ item, (emission.pe, item) ∈ state.lhs ∧ emission.lChild = some item ∧
        emission.rChild = none := by
  induction run with
  | done left right => cases member
  | @step state next emitted rest step _ ih =>
      rcases List.mem_append.mp member with now | later
      · cases step with
        | both => rw [List.mem_singleton.mp now]; exact Or.inl ⟨rfl, rfl⟩
        | skip => cases now
        | left left =>
            rw [List.mem_singleton.mp now]
            exact Or.inr ⟨_, by simp [left], rfl, rfl⟩
        | right => rw [List.mem_singleton.mp now]; exact Or.inl ⟨rfl, rfl⟩
        | rightSkip => rw [List.mem_singleton.mp now]; exact Or.inl ⟨rfl, rfl⟩
        | stuck => cases now
      · have suffix : ∀ entry ∈ next.lhs, entry ∈ state.lhs := by
          cases step with
          | both left => simp +contextual [left]
          | skip left => simp +contextual [left]
          | left left => simp +contextual [left]
          | right left => simp [left]
          | rightSkip left => simp +contextual [left]
          | stuck => simp
        exact (ih later).imp_right fun ⟨item, inside, values⟩ =>
          ⟨item, suffix _ inside, values⟩

variable [Consistent N]

/-- The items only the left side has are emitted as they are and in order; those
of the right side are emitted in its order, each once. -/
theorem Run.emitted (run : Run observedLHS observedRHS state emissions)
    (sorted : SortedBy Prod.fst observedRHS)
    (present : ∀ rpe ∈ state.rhs, (observedRHS.get rpe).isSome = true) :
    (emissions.filter fun emission => !emission.fromRight observedRHS) =
        (state.lhs.filter fun entry => (observedRHS.get entry.1).isNone).map
          (fun entry => ⟨entry.1, some entry.2, none⟩) ∧
      List.Forall₂ (Emission.Joins observedLHS observedRHS)
        (emissions.filter (Emission.fromRight observedRHS)) state.rhs := by
  induction run with
  | done left right => simp [left, right]
  | @step state next emitted rest step _ ih =>
      cases step with
      | @both _ pe rpe item left right same =>
          have head : (observedRHS.get pe).isSome = true := by
            rw [PathElementMap.get_congr sorted same]
            exact present rpe (by simp [right])
          obtain ⟨leftOnly, joined⟩ := ih fun rpe member =>
            present rpe (by simp [right, member])
          constructor
          · simpa [left, Emission.fromRight, Option.isSome_iff_ne_none.mp head] using leftOnly
          · simpa [right, Emission.fromRight, head] using ⟨⟨same, rfl, rfl⟩, joined⟩
      | skip left right shared =>
          obtain ⟨leftOnly, joined⟩ := ih (right ▸ present)
          constructor
          · simpa [left, Option.isSome_iff_ne_none.mp shared] using leftOnly
          · simpa [right] using joined
      | left left right unshared =>
          obtain ⟨leftOnly, joined⟩ := ih (right ▸ present)
          constructor
          · simpa [left, Emission.fromRight, unshared] using leftOnly
          · simpa [right, Emission.fromRight, unshared] using joined
      | @right _ rpe left right =>
          have head : (observedRHS.get rpe).isSome = true := present rpe (by simp [right])
          obtain ⟨leftOnly, joined⟩ := ih fun rpe member =>
            present rpe (by simp [right, member])
          constructor
          · simpa [left, Emission.fromRight, Option.isSome_iff_ne_none.mp head] using leftOnly
          · simpa [right, Emission.fromRight, head] using ⟨⟨BEq.refl _, rfl, rfl⟩, joined⟩
      | @rightSkip _ pe rpe item left right shared =>
          have head : (observedRHS.get rpe).isSome = true := present rpe (by simp [right])
          obtain ⟨leftOnly, joined⟩ := ih fun rpe member =>
            present rpe (by simp [right, member])
          constructor
          · simpa [left, Emission.fromRight, Option.isSome_iff_ne_none.mp head,
              Option.isSome_iff_ne_none.mp shared] using leftOnly
          · simpa [right, Emission.fromRight, head] using ⟨⟨BEq.refl _, rfl, rfl⟩, joined⟩
      | stuck left right => exact ih present

end Emissions

end StructuredMergeDiff.Typed.Merge
