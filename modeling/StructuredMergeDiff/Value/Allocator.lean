import Mathlib.Data.List.Nodup
import StructuredMergeDiff.Library.Runs

/-!
Contract: the freelists from which the walkers take temporary values.

Owns: `allocate`, `free`, and that nothing is handed out that is in use.
-/

namespace StructuredMergeDiff

open Library

def freelistMaxSize : Nat := 1000

/-- `freelist`, with the values that are in use. -/
structure Freelist (α : Type) where
  list : List α
  inUse : List α

namespace Freelist

variable {α : Type}

/-- `allocate`: the value freed last, or else what `new` makes. -/
def allocate (f : Freelist α) (new : α) : α × Freelist α :=
  match f.list.getLast? with
  | some v => (v, ⟨f.list.dropLast, v :: f.inUse⟩)
  | none => (new, ⟨f.list, new :: f.inUse⟩)

variable [DecidableEq α]

/-- `free`: what does not fit in the list is left to the garbage collector. -/
def free (f : Freelist α) (v : α) : Freelist α :=
  ⟨if f.list.length < freelistMaxSize then f.list ++ [v] else f.list, f.inUse.erase v⟩

inductive Use (α : Type) where
  | allocate (new : α)
  | free (v : α)

def step (f : Freelist α) : Use α → Freelist α
  | .allocate new => (f.allocate new).2
  | .free v => f.free v

/-- What is new is not in use yet, and what is freed is. -/
def Proper (f : Freelist α) : Use α → Prop
  | .allocate new => new ∉ f.inUse
  | .free v => v ∈ f.inUse

/-- No value is in the list or in use twice, or both. -/
structure Sound (f : Freelist α) : Prop where
  once : (f.list ++ f.inUse).Nodup
  bounded : f.list.length ≤ freelistMaxSize

variable {f : Freelist α} (sound : f.Sound)

include sound

omit [DecidableEq α] in
theorem Sound.allocate {new : α} (fresh : new ∉ f.inUse) :
    (f.allocate new).1 ∉ f.inUse ∧ (f.allocate new).2.Sound := by
  unfold Freelist.allocate
  split
  · next v isLast =>
      obtain ⟨rest, isList⟩ := List.getLast?_eq_some_iff.mp isLast
      have moved : f.list.dropLast ++ v :: f.inUse = f.list ++ f.inUse := by simp [isList]
      have bounded := sound.bounded
      exact ⟨List.disjoint_of_nodup_append sound.once (by simp [isList]), moved ▸ sound.once,
        by simp; omega⟩
  · next none =>
      have once := sound.once
      rw [List.getLast?_eq_none_iff.mp none] at once
      refine ⟨fresh, ?_, sound.bounded⟩
      simpa [List.getLast?_eq_none_iff.mp none] using List.nodup_cons.mpr ⟨fresh, once⟩

theorem Sound.free {v : α} (used : v ∈ f.inUse) : (f.free v).Sound := by
  have fewer : (f.list ++ f.inUse.erase v).Sublist (f.list ++ f.inUse) :=
    List.erase_sublist.append_left _
  have moved : (f.list ++ [v] ++ f.inUse.erase v).Perm (f.list ++ f.inUse) := by
    simpa using (List.perm_cons_erase used).symm.append_left f.list
  unfold Freelist.free
  split
  · next fits => exact ⟨moved.nodup_iff.mpr sound.once, by simpa using Nat.succ_le_of_lt fits⟩
  · exact ⟨sound.once.sublist fewer, sound.bounded⟩

omit sound

/-- Where only what is in use is freed, nothing that is in use is handed out. -/
theorem allocate_unused {uses : List (Use α)} (proper : Guarded step Proper ⟨[], []⟩ uses)
    {new : α} (fresh : new ∉ (run step ⟨[], []⟩ uses).inUse) :
    ((run step ⟨[], []⟩ uses).allocate new).1 ∉ (run step ⟨[], []⟩ uses).inUse ∧
      (run step ⟨[], []⟩ uses).list.length ≤ freelistMaxSize := by
  have start : Sound (⟨[], []⟩ : Freelist α) := ⟨List.nodup_nil, Nat.zero_le _⟩
  have sound := run_invariant Sound (fun f use sound proper => ?_) start proper
  · exact ⟨(sound.allocate fresh).1, sound.bounded⟩
  · cases use with
    | allocate new => exact (sound.allocate proper).2
    | free v => exact sound.free proper

theorem allocate_unused_after_free :
    let f := run step ⟨[], []⟩ [.allocate 0, .allocate 1, .free 0]
    (f.allocate 2).1 ∉ f.inUse ∧ f.list.length ≤ freelistMaxSize :=
  allocate_unused (α := Nat) (by simp [Guarded, Proper, step, allocate]) (by decide)

end Freelist

end StructuredMergeDiff
