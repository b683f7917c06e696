import Mathlib.Order.Basic
import Mathlib.Tactic.Choose

/-!
Contract: recursion along a measure, in a form that still evaluates.

A function on tree-shaped data that calls itself on normalised children is not
structurally recursive. Here it is given by its body, which takes the
recursive call as a parameter, and run with as much fuel as the measure of its
argument. `measured_eq` is the unfolding equation: the result is a fixed point
of the body whenever the body calls itself only at smaller arguments.
`measured_invariant` is the induction rule that goes with it.

Owns: `unroll`, `measured`, `Descends`, the unfolding laws and the induction rule.
Does not own: the termination argument of any particular function.
-/

namespace StructuredMergeDiff.Library

variable {α β : Type} {body : (α → β) → α → β}

/-- The body nested `fuel` deep. -/
def unroll (body : (α → β) → α → β) (exhausted : α → β) : Nat → α → β
  | 0 => exhausted
  | fuel + 1 => body (unroll body exhausted fuel)

/-- The function with the given body, run with enough fuel for its argument. -/
def measured (measure : α → Nat) (body : (α → β) → α → β) (exhausted : α → β) (a : α) : β :=
  unroll body exhausted (measure a + 1) a

/-- The body uses its recursive call only at arguments of smaller measure. -/
def Descends (measure : α → Nat) (body : (α → β) → α → β) : Prop :=
  ∀ (first second : α → β) (a : α),
    (∀ b, measure b < measure a → first b = second b) → body first a = body second a

section

variable {measure : α → Nat} (descends : Descends measure body) (exhausted : α → β)

include descends exhausted

private theorem unroll_eq_unroll (first second : Nat) (a : α) (enoughFirst : measure a < first)
    (enoughSecond : measure a < second) :
    unroll body exhausted first a = unroll body exhausted second a := by
  induction first generalizing second a with
  | zero => omega
  | succ first ih =>
      cases second with
      | zero => omega
      | succ second =>
          apply descends
          intro b smaller
          exact ih second b (by omega) (by omega)

theorem unroll_eq_measured {fuel : Nat} {a : α} (enough : measure a < fuel) :
    unroll body exhausted fuel a = measured measure body exhausted a :=
  unroll_eq_unroll descends exhausted fuel (measure a + 1) a enough (Nat.lt_succ_self _)

theorem measured_eq (a : α) :
    measured measure body exhausted a = body (measured measure body exhausted) a := by
  apply descends
  intro b smaller
  exact unroll_eq_measured descends exhausted smaller

/-- A property of results that the body establishes from the same property of its
recursive calls holds of the function. -/
theorem measured_invariant {P : α → β → Prop} (possible : ∀ a, ∃ b, P a b)
    (step : ∀ (recurse : α → β) (a : α), (∀ b, P b (recurse b)) → P a (body recurse a)) (a : α) :
    P a (measured measure body exhausted a) := by
  classical
  choose fallback holds using possible
  induction size : measure a using Nat.strongRecOn generalizing a with
  | ind size ih =>
      subst size
      -- the recursive calls that the body does not make may return anything
      have same : body (measured measure body exhausted) a = body (fun b =>
          if measure b < measure a then measured measure body exhausted b else fallback b) a := by
        apply descends
        intro b smaller
        rw [if_pos smaller]
      rw [measured_eq descends, same]
      apply step
      intro b
      by_cases smaller : measure b < measure a
      · rw [if_pos smaller]
        exact ih (measure b) smaller b rfl
      · rw [if_neg smaller]
        exact holds b

end

end StructuredMergeDiff.Library
