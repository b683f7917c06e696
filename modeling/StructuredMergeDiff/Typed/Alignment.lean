import StructuredMergeDiff.Library.Pairing
import StructuredMergeDiff.Typed.Interleaving

/-!
Contract: the interleaving loop on lists whose shared items come in one order.

While the items that both lists have come in the same order on both sides, the loop
never skips an item of the left side: the next shared item of the left side is the
one that the right side waits for.

Owns: the alignment of the two sides, that the loop keeps it, and that it emits the
items of the left side in their order.
-/

namespace StructuredMergeDiff.Typed.Merge

open Library Std

variable {N : Type} [Numeric N]

/-! ## Aligned sides -/

section Aligned

variable {observedLHS observedRHS : PathElementMap N (Value N)} {state next : LoopState N}

/-- The path elements of the left side that the right side has. -/
def LoopState.sharedLeft (observedRHS : PathElementMap N (Value N)) (state : LoopState N) :
    List (PathElement N) :=
  (state.lhs.map Prod.fst).filter fun pe => (observedRHS.get pe).isSome

/-- The path elements of the right side that the left side has. -/
def LoopState.sharedRight (observedLHS : PathElementMap N (Value N)) (state : LoopState N) :
    List (PathElement N) :=
  state.rhs.filter fun pe => (observedLHS.get pe).isSome

/-- What is left of the two sides has the same shared items, in one order, and none of
them is merged. -/
structure LoopState.Aligned (observedLHS observedRHS : PathElementMap N (Value N))
    (state : LoopState N) : Prop where
  shared : List.Forall₂ (fun first second => (first == second) = true)
    (state.sharedLeft observedRHS) (state.sharedRight observedLHS)
  queue : state.nextShared.toList ++ state.sharedOrder = state.sharedRight observedLHS
  drained : state.nextShared = none → state.sharedOrder = []
  leftPresent : ∀ entry ∈ state.lhs, (observedLHS.get entry.1).isSome = true
  rightPresent : ∀ rpe ∈ state.rhs, (observedRHS.get rpe).isSome = true
  distinct : state.rhs.Pairwise fun first second => (first == second) = false
  sorted : SortedBy Prod.fst state.mergedRHS
  unmerged : ∀ entry ∈ state.lhs, state.mergedRHS.get entry.1 = none

omit [Numeric N] in
theorem advance_queue {sharedOrder : List (PathElement N)} :
    sharedOrder.head?.toList ++ sharedOrder.tail = sharedOrder ∧
      (sharedOrder.head? = none → sharedOrder.tail = []) := by
  cases sharedOrder <;> simp

variable [Consistent N]

section

variable (aligned : state.Aligned observedLHS observedRHS)

include aligned

omit [Consistent N] in
/-- The first item of the left side, if shared, is the one the right side waits for. -/
theorem LoopState.Aligned.next_of_shared {pe : PathElement N} {item : Value N}
    {rest : List (PathElement N × Value N)} (left : state.lhs = (pe, item) :: rest)
    (isShared : (observedRHS.get pe).isSome = true) :
    ∃ shared, state.nextShared = some shared ∧ (pe == shared) = true ∧
      ∃ later, state.sharedRight observedLHS = shared :: later := by
  have pairs := aligned.shared
  rw [LoopState.sharedLeft, left, List.map_cons, List.filter_cons, if_pos isShared] at pairs
  obtain ⟨shared, later, same, -, isRight⟩ := List.forall₂_cons_left_iff.mp pairs
  have queue := aligned.queue
  rw [isRight] at queue
  cases found : state.nextShared with
  | none =>
      rw [found, aligned.drained found] at queue
      cases queue
  | some head =>
      rw [found] at queue
      cases queue
      exact ⟨shared, rfl, same, _, isRight⟩

omit [Consistent N] in
/-- An item that only the left side has is taken. -/
theorem LoopState.Aligned.takeLeft {pe : PathElement N} {item : Value N}
    {rest : List (PathElement N × Value N)} (left : state.lhs = (pe, item) :: rest)
    (unshared : (observedRHS.get pe).isSome = false) :
    ({ state with lhs := rest } : LoopState N).Aligned observedLHS observedRHS where
  shared := by
    have pairs := aligned.shared
    rwa [LoopState.sharedLeft, left, List.map_cons, List.filter_cons,
      if_neg (by simp [unshared])] at pairs
  queue := aligned.queue
  drained := aligned.drained
  leftPresent entry member := aligned.leftPresent entry (by simp [left, member])
  rightPresent := aligned.rightPresent
  distinct := aligned.distinct
  sorted := aligned.sorted
  unmerged entry member := aligned.unmerged entry (by simp [left, member])

/-- An item that only the right side has is taken. -/
theorem LoopState.Aligned.takeRight (sortedLeft : SortedBy Prod.fst observedLHS)
    {rpe : PathElement N} {rest : List (PathElement N)} (right : state.rhs = rpe :: rest)
    (unshared : (observedLHS.get rpe).isSome = false) :
    ({ state with rhs := rest, mergedRHS := state.mergedRHS.insert rpe () } :
      LoopState N).Aligned observedLHS observedRHS := by
  have sharedRight : state.sharedRight observedLHS =
      rest.filter fun pe => (observedLHS.get pe).isSome := by
    rw [LoopState.sharedRight, right, List.filter_cons, if_neg (by simp [unshared])]
  have distinct := aligned.distinct
  rw [right] at distinct
  have shared := aligned.shared
  have queue := aligned.queue
  rw [sharedRight] at shared queue
  exact
    { shared := shared
      queue := queue
      drained := aligned.drained
      leftPresent := aligned.leftPresent
      rightPresent := fun rpe member => aligned.rightPresent rpe (by simp [right, member])
      distinct := distinct.of_cons
      sorted := PathElementMap.insert_sorted aligned.sorted rpe ()
      unmerged := by
        intro entry member
        have present := aligned.leftPresent entry member
        have differs : (rpe == entry.1) = false := by
          rw [Bool.eq_false_iff]
          intro same
          rw [PathElementMap.get_congr sortedLeft same, present] at unshared
          cases unshared
        rw [PathElementMap.get_insert aligned.sorted, differs]
        exact aligned.unmerged entry member }

/-- The shared items at the heads of both sides are taken. -/
theorem LoopState.Aligned.takeBoth (sortedLeft : SortedBy Prod.fst observedLHS)
    (sortedRight : SortedBy Prod.fst observedRHS) {pe rpe : PathElement N} {item : Value N}
    {lhs : List (PathElement N × Value N)} {rhs : List (PathElement N)}
    (left : state.lhs = (pe, item) :: lhs) (right : state.rhs = rpe :: rhs)
    (same : (pe == rpe) = true) :
    ({ lhs := lhs
       rhs := rhs
       nextShared := state.sharedOrder.head?
       sharedOrder := state.sharedOrder.tail
       mergedRHS := state.mergedRHS.insert pe () } :
      LoopState N).Aligned observedLHS observedRHS := by
  have isShared : (observedRHS.get pe).isSome = true := by
    rw [PathElementMap.get_congr sortedRight same]
    exact aligned.rightPresent rpe (by simp [right])
  have isSharedRight : (observedLHS.get rpe).isSome = true := by
    rw [← PathElementMap.get_congr sortedLeft same]
    exact aligned.leftPresent (pe, item) (by simp [left])
  have sharedRight : state.sharedRight observedLHS =
      rpe :: rhs.filter fun pe => (observedLHS.get pe).isSome := by
    rw [LoopState.sharedRight, right, List.filter_cons, if_pos isSharedRight]
  have pairs := aligned.shared
  rw [sharedRight, LoopState.sharedLeft, left, List.map_cons, List.filter_cons,
    if_pos isShared, List.forall₂_cons] at pairs
  have queue := aligned.queue
  rw [sharedRight] at queue
  have order : state.sharedOrder = rhs.filter fun pe => (observedLHS.get pe).isSome := by
    cases found : state.nextShared with
    | none => rw [found, aligned.drained found] at queue; cases queue
    | some head =>
        rw [found] at queue
        exact (List.cons.inj queue).2
  have distinct := aligned.distinct
  rw [right, List.pairwise_cons] at distinct
  exact
    { shared := pairs.2
      queue := advance_queue.1.trans order
      drained := advance_queue.2
      leftPresent := fun entry member => aligned.leftPresent entry (by simp [left, member])
      rightPresent := fun rpe member => aligned.rightPresent rpe (by simp [right, member])
      distinct := distinct.2
      sorted := PathElementMap.insert_sorted aligned.sorted pe ()
      unmerged := by
        intro entry member
        have differs : (pe == entry.1) = false := by
          -- the right side would have another item of the name
          rw [Bool.eq_false_iff]
          intro again
          have inShared : entry.1 ∈ (lhs.map Prod.fst).filter fun pe => (observedRHS.get pe).isSome := by
            rw [List.mem_filter, ← PathElementMap.get_congr sortedRight again]
            exact ⟨List.mem_map_of_mem member, isShared⟩
          obtain ⟨other, inRight, alike⟩ := exists_of_mem_left pairs.2 inShared
          have apart := distinct.1 other (List.mem_filter.mp inRight).1
          rw [← BEq.congr_left same, BEq.congr_left again, alike] at apart
          cases apart
        rw [PathElementMap.get_insert aligned.sorted, differs]
        exact aligned.unmerged entry (by simp [left, member]) }

end

/-- What an iteration does with aligned sides: it takes the next item of the left side,
or one that only the right side has. -/
structure Proceeds (observedLHS observedRHS : PathElementMap N (Value N)) (state : LoopState N)
    (result : LoopState N × List (Emission N)) : Prop where
  aligned : result.1.Aligned observedLHS observedRHS
  emits : ∃ emission, result.2 = [emission] ∧
    ((∃ entry, state.lhs = entry :: result.1.lhs ∧ emission.pe = entry.1) ∨
      state.lhs = result.1.lhs ∧ (observedLHS.get emission.pe).isSome = false)

section

variable (aligned : state.Aligned observedLHS observedRHS)

include aligned

theorem LoopState.Aligned.takeRight_proceeds (sortedLeft : SortedBy Prod.fst observedLHS)
    {rpe : PathElement N} {rest : List (PathElement N)} (right : state.rhs = rpe :: rest)
    (unshared : (observedLHS.get rpe).isSome = false) :
    Proceeds observedLHS observedRHS state (Merge.takeRight observedLHS observedRHS state) := by
  have taken : Merge.takeRight observedLHS observedRHS state =
      ({ state with rhs := rest, mergedRHS := state.mergedRHS.insert rpe () },
        [⟨rpe, observedLHS.get rpe, observedRHS.get rpe⟩]) := by
    simp only [Merge.takeRight, right]
    cases found : state.nextShared with
    | none => rfl
    | some shared =>
        have differs : (shared == rpe) = false := by
          rw [Bool.eq_false_iff]
          intro same
          have waits : shared ∈ state.sharedRight observedLHS := by
            rw [← aligned.queue, found]
            exact List.mem_cons_self ..
          have present := (List.mem_filter.mp waits).2
          rw [PathElementMap.get_congr sortedLeft same, unshared] at present
          cases present
        simp only [differs, Bool.false_eq_true, if_false]
  rw [taken]
  exact ⟨aligned.takeRight sortedLeft right unshared, _, rfl, Or.inr ⟨rfl, unshared⟩⟩

omit [Consistent N] in
theorem LoopState.Aligned.takeLeft_proceeds {pe : PathElement N} {item : Value N}
    {rest : List (PathElement N × Value N)} (left : state.lhs = (pe, item) :: rest)
    (unshared : (observedRHS.get pe).isSome = false) :
    Proceeds observedLHS observedRHS state (Merge.takeLeft observedLHS observedRHS state) := by
  have isNone : (observedRHS.get pe).isNone = true := by
    simpa using unshared
  have taken : Merge.takeLeft observedLHS observedRHS state =
      ({ state with lhs := rest }, [⟨pe, some item, none⟩]) := by
    simp only [Merge.takeLeft, left, isNone, if_true]
  rw [taken]
  exact ⟨aligned.takeLeft left unshared, _, rfl, Or.inl ⟨(pe, item), left, rfl⟩⟩

theorem iteration_proceeds (sortedLeft : SortedBy Prod.fst observedLHS)
    (sortedRight : SortedBy Prod.fst observedRHS)
    (unfinished : ¬ (state.lhs = [] ∧ state.rhs = [])) :
    Proceeds observedLHS observedRHS state (iteration observedLHS observedRHS state) := by
  unfold iteration
  split
  · next pe item lhs rpe rhs left right =>
      split
      · next same =>
          exact ⟨aligned.takeBoth sortedLeft sortedRight left right same, _, rfl,
            Or.inl ⟨(pe, item), left, rfl⟩⟩
      · next differs =>
          cases isShared : (observedRHS.get pe).isSome with
          | false =>
              simp only [Bool.false_and, Bool.false_eq_true, if_false]
              exact aligned.takeLeft_proceeds left isShared
          | true =>
              -- the right side waits for this item
              obtain ⟨shared, isNext, same, later, isRight⟩ := aligned.next_of_shared left isShared
              have waits : (shared == pe) = true := BEq.symm same
              have notMerged := aligned.unmerged (pe, item) (by simp [left])
              have notAbsent : (observedRHS.get pe).isNone = false := by
                simpa using isShared
              simp only [isNext, Option.any_some, waits, Bool.not_true, Bool.and_false,
                Bool.false_eq_true, if_false, Merge.takeLeft, left, notAbsent, notMerged,
                Option.isSome_none]
              refine aligned.takeRight_proceeds sortedLeft right ?_
              rw [Bool.eq_false_iff]
              intro isSharedRight
              rw [LoopState.sharedRight, right, List.filter_cons, if_pos isSharedRight] at isRight
              rw [(List.cons.inj isRight).1] at differs
              exact differs same
  · next notBoth =>
      cases left : state.lhs with
      | nil =>
          obtain ⟨rpe, rest, right⟩ := List.exists_cons_of_ne_nil fun right => unfinished ⟨left, right⟩
          have noShared : state.sharedRight observedLHS = [] := by
            have pairs := aligned.shared
            rw [LoopState.sharedLeft, left] at pairs
            exact List.forall₂_nil_left_iff.mp pairs
          simp only [Merge.takeLeft, left]
          refine aligned.takeRight_proceeds sortedLeft right ?_
          rw [LoopState.sharedRight, right] at noShared
          simpa using (List.filter_eq_nil_iff.mp noShared) rpe List.mem_cons_self
      | cons entry rest =>
          have right : state.rhs = [] := by
            by_contra present
            obtain ⟨rpe, later, right⟩ := List.exists_cons_of_ne_nil present
            exact notBoth entry.1 entry.2 rest rpe later left right
          refine aligned.takeLeft_proceeds left ?_
          rw [Bool.eq_false_iff]
          intro isShared
          obtain ⟨_, -, -, later, isRight⟩ := aligned.next_of_shared left isShared
          rw [LoopState.sharedRight, right] at isRight
          cases isRight

end

/-- The items that the left side has are emitted in its order. -/
theorem loop_keeps_left_order (sortedLeft : SortedBy Prod.fst observedLHS)
    (sortedRight : SortedBy Prod.fst observedRHS) {fuel : Nat} {emissions : List (Emission N)}
    (aligned : state.Aligned observedLHS observedRHS)
    (ends : loop observedLHS observedRHS fuel state = some emissions) :
    (emissions.filter fun emission => (observedLHS.get emission.pe).isSome).map Emission.pe =
      state.lhs.map Prod.fst := by
  induction fuel generalizing state emissions with
  | zero =>
      unfold loop at ends
      split at ends
      · next finished =>
          simp only [Bool.and_eq_true, List.isEmpty_iff] at finished
          cases ends
          rw [finished.1]
          rfl
      · cases ends
  | succ fuel ih =>
      unfold loop at ends
      split at ends
      · next finished =>
          simp only [Bool.and_eq_true, List.isEmpty_iff] at finished
          cases ends
          rw [finished.1]
          rfl
      · next unfinished =>
          obtain ⟨later, run, isRun⟩ := Option.map_eq_some_iff.mp ends
          have isAll : emissions = (iteration observedLHS observedRHS state).2 ++ later := isRun.symm
          obtain ⟨next, emission, emitted, taken⟩ := iteration_proceeds aligned sortedLeft sortedRight
            (by simpa using unfinished)
          have rest := ih next run
          rw [isAll, emitted, List.singleton_append, List.filter_cons]
          rcases taken with ⟨entry, left, isEntry⟩ | ⟨same, unshared⟩
          · have present := aligned.leftPresent entry (by simp [left])
            rw [if_pos (by rw [isEntry, present]), List.map_cons, rest, isEntry, left]
            rfl
          · rw [if_neg (by simp [unshared]), rest, same]

end Aligned

end StructuredMergeDiff.Typed.Merge
