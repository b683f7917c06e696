import StructuredMergeDiff.Library.FiniteMap
import StructuredMergeDiff.Library.Runs
import StructuredMergeDiff.Schema.Elements

/-!
Contract: the cache of `Resolve`.

References are told apart by the pointers in them; `read` tells what is behind these.

Owns: `resolveCached`, and that the cache makes no difference.
-/

namespace StructuredMergeDiff.Schema

open Library FiniteMap

variable {N ρ : Type} [DecidableEq ρ] (s : Schema N) (read : ρ → TypeRef N)

/-- `Resolve` with its `resolvedTypes`: only references with a relationship of their own are
saved, and only if they resolve. -/
def resolveCached (resolvedTypes : FiniteMap ρ (Atom N)) (tr : ρ) :
    Option (Atom N) × FiniteMap ρ (Atom N) :=
  if (read tr).elementRelationship.isNone then (s.resolveNoOverrides (read tr), resolvedTypes)
  else
    match resolvedTypes.get? tr with
    | some result => (some result, resolvedTypes)
    | none =>
        match s.resolve (read tr) with
        | some result => (some result, resolvedTypes.set tr result)
        | none => (none, resolvedTypes)

/-- Each saved atom is what its reference resolves to. -/
def Saved (resolvedTypes : FiniteMap ρ (Atom N)) : Prop :=
  ∀ tr result, resolvedTypes.get? tr = some result → s.resolve (read tr) = some result

variable {s read}

private theorem resolveCached_saved {resolvedTypes : FiniteMap ρ (Atom N)}
    (saved : Saved s read resolvedTypes) (tr : ρ) :
    (resolveCached s read resolvedTypes tr).1 = s.resolve (read tr) ∧
      Saved s read (resolveCached s read resolvedTypes tr).2 := by
  unfold resolveCached
  split
  · next plain => exact ⟨by simp [resolve, Option.isNone_iff_eq_none.mp plain], saved⟩
  · split
    · next result found => exact ⟨(saved tr result found).symm, saved⟩
    · split
      · next result resolves =>
          refine ⟨resolves.symm, fun other atom held => ?_⟩
          rw [get?_set] at held
          split at held
          · next same => rwa [← same, ← held]
          · exact saved other atom held
      · next fails => exact ⟨fails.symm, saved⟩

/-- Whatever was resolved before, `Resolve` returns what it would without the cache. -/
theorem resolveCached_eq (s : Schema N) (read : ρ → TypeRef N) (earlier : List ρ) (tr : ρ) :
    (resolveCached s read (run (fun cache tr => (resolveCached s read cache tr).2) [] earlier)
      tr).1 = s.resolve (read tr) :=
  have saved := run_invariant (Saved s read) (fun _ tr saved _ => (resolveCached_saved saved tr).2)
    (fun _ _ held => by cases held) (guarded_true [] earlier)
  (resolveCached_saved saved tr).1

end StructuredMergeDiff.Schema
