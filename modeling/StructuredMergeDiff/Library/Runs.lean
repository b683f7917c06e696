/-!
Contract: runs of a state machine, and what holds all along them.

Owns: `run`, `Guarded` and the induction rule for both.
-/

namespace StructuredMergeDiff.Library

universe v w

variable {σ : Type v} {α : Type w} (step : σ → α → σ)

/-- The state after a sequence of actions. -/
def run (start : σ) (actions : List α) : σ :=
  actions.foldl step start

/-- Each action of the sequence satisfies the guard in the state it meets. -/
def Guarded (guard : σ → α → Prop) : σ → List α → Prop
  | _, [] => True
  | state, action :: rest => guard state action ∧ Guarded guard (step state action) rest

variable {step}

/-- What every guarded step keeps holds after every guarded run. -/
theorem run_invariant {guard : σ → α → Prop} (Invariant : σ → Prop)
    (keeps : ∀ state action, Invariant state → guard state action →
      Invariant (step state action))
    {start : σ} (invariant : Invariant start) {actions : List α}
    (guarded : Guarded step guard start actions) : Invariant (run step start actions) := by
  induction actions generalizing start with
  | nil => exact invariant
  | cons action rest ih =>
      exact ih (keeps start action invariant guarded.1) guarded.2

theorem guarded_true (start : σ) (actions : List α) :
    Guarded step (fun _ _ => True) start actions := by
  induction actions generalizing start with
  | nil => trivial
  | cons action rest ih => exact ⟨trivial, ih _⟩

end StructuredMergeDiff.Library
