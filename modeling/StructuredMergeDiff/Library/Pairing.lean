import Mathlib.Data.List.Forall2

/-!
Contract: lists that correspond entry by entry.

Owns: what an entry of one list says about the other one, for `List.Forall₂`.
-/

namespace StructuredMergeDiff.Library

variable {α β γ : Type} {Pair : α → β → Prop} {first : List α} {second : List β} {list : List α}

section

variable (pairs : List.Forall₂ Pair first second)

include pairs

theorem exists_of_mem_left {a : α} (member : a ∈ first) :
    ∃ b ∈ second, Pair a b := by
  induction pairs with
  | nil => cases member
  | cons head _ ih =>
      rcases List.mem_cons.mp member with rfl | later
      · exact ⟨_, List.mem_cons_self .., head⟩
      · obtain ⟨b, inRest, pair⟩ := ih later
        exact ⟨b, List.mem_cons_of_mem _ inRest, pair⟩

theorem exists_of_mem_right {b : β} (member : b ∈ second) : ∃ a ∈ first, Pair a b :=
  exists_of_mem_left pairs.flip member

/-- A property of the pairs that holds wherever both entries stand in the lists. -/
theorem forall₂_of_mem {Other : α → β → Prop}
    (each : ∀ a ∈ first, ∀ b ∈ second, Pair a b → Other a b) : List.Forall₂ Other first second := by
  induction pairs with
  | nil => exact .nil
  | cons head _ ih =>
      refine .cons (each _ List.mem_cons_self _ List.mem_cons_self head) ?_
      exact ih fun a inFirst b inSecond =>
        each a (List.mem_cons_of_mem _ inFirst) b (List.mem_cons_of_mem _ inSecond)

/-- What holds between any two entries of one list carries over to the other. -/
theorem pairwise_of_forall₂ {Left : α → α → Prop} {Right : β → β → Prop}
    (carries : ∀ {a a' b b'}, Pair a b → Pair a' b' → Right b b' → Left a a')
    (right : second.Pairwise Right) : first.Pairwise Left := by
  induction pairs with
  | nil => exact List.Pairwise.nil
  | cons heads tails ih =>
      obtain ⟨headRight, tailRight⟩ := List.pairwise_cons.mp right
      refine List.pairwise_cons.mpr ⟨fun a' member => ?_, ih tailRight⟩
      obtain ⟨b', inRight, paired⟩ := exists_of_mem_left tails member
      exact carries heads paired (headRight b' inRight)

theorem forall₂_and {Other : α → β → Prop} (others : List.Forall₂ Other first second) :
    List.Forall₂ (fun a b => Pair a b ∧ Other a b) first second := by
  induction pairs with
  | nil => exact .nil
  | cons head _ ih =>
      cases others with
      | cons other rest => exact .cons ⟨head, other⟩ (ih rest)

/-- Two lists that correspond to a third one. -/
theorem forall₂_of_common {third : List γ} {Other : γ → β → Prop}
    (others : List.Forall₂ Other third second) :
    List.Forall₂ (fun a c => ∃ b ∈ second, Pair a b ∧ Other c b) first third := by
  induction pairs generalizing third with
  | nil =>
      cases others
      exact .nil
  | cons head _ ih =>
      cases others with
      | cons other rest =>
          refine .cons ⟨_, List.mem_cons_self .., head, other⟩ ?_
          exact (ih rest).imp fun a c ⟨b, member, both⟩ =>
            ⟨b, List.mem_cons_of_mem _ member, both⟩

end

/-- Lists with the same keys correspond if the entries with selected keys do, and so do
the others. -/
theorem forall₂_of_filter {κ : Type} {keyFirst : α → κ} {keySecond : β → κ} (keep : κ → Bool)
    (keys : first.map keyFirst = second.map keySecond)
    (kept : List.Forall₂ Pair (first.filter fun a => keep (keyFirst a))
      (second.filter fun b => keep (keySecond b)))
    (others : List.Forall₂ Pair (first.filter fun a => !keep (keyFirst a))
      (second.filter fun b => !keep (keySecond b))) : List.Forall₂ Pair first second := by
  induction first generalizing second with
  | nil => rw [List.map_eq_nil_iff.mp keys.symm]; exact .nil
  | cons a rest ih =>
      match second, keys with
      | b :: later, keys =>
          obtain ⟨sameKey, sameRest⟩ := List.cons.inj keys
          cases isKept : keep (keySecond b) <;>
            simp only [List.filter_cons, sameKey, isKept, Bool.not_true, Bool.not_false,
              Bool.false_eq_true, if_true, if_false, List.forall₂_cons] at kept others
          · exact .cons others.1 (ih sameRest kept others.2)
          · exact .cons kept.1 (ih sameRest kept.2 others)

/-- Where every kept entry contributes one entry, and the others none, contributions are a
selection and then a computation. -/
theorem flatMap_eq_map_filter {f : α → List γ} {keep : α → Bool} {g : α → γ}
    (each : ∀ a ∈ list, f a = if keep a then [g a] else []) :
    list.flatMap f = (list.filter keep).map g := by
  induction list with
  | nil => rfl
  | cons head tail ih =>
      have rest := ih fun a member => each a (List.mem_cons_of_mem _ member)
      have here := each head List.mem_cons_self
      cases kept : keep head <;> simp [kept] at here <;> simp [here, kept, rest]

/-- Selection and computation in one pass are a selection and then a computation. -/
theorem filterMap_eq_map_filter {f : α → Option γ} {keep : α → Bool} {g : α → γ}
    (each : ∀ a ∈ list, f a = if keep a then some (g a) else none) :
    list.filterMap f = (list.filter keep).map g := by
  rw [List.filterMap_eq_flatMap_toList]
  apply flatMap_eq_map_filter
  intro a member
  rw [each a member]
  split <;> rfl

/-- If every kept entry contributes, and there are no more contributions than kept entries,
no entry contributes twice. -/
theorem length_le_one_of_flatMap {f : α → List γ} {keep : α → Bool}
    (contributes : ∀ a ∈ list, keep a = true → f a ≠ [])
    (few : (list.flatMap f).length ≤ (list.filter keep).length) : ∀ a ∈ list, (f a).length ≤ 1 := by
  have many : ∀ {tail : List α}, (∀ a ∈ tail, keep a = true → f a ≠ []) →
      (tail.filter keep).length ≤ (tail.flatMap f).length := by
    intro tail each
    induction tail with
    | nil => exact Nat.le_refl _
    | cons head tail ih =>
        have rest := ih fun a member => each a (List.mem_cons_of_mem _ member)
        have here := each head List.mem_cons_self
        rw [List.flatMap_cons, List.length_append, List.filter_cons]
        cases kept : keep head with
        | false => exact Nat.le_trans rest (Nat.le_add_left _ _)
        | true =>
            have := List.length_pos_of_ne_nil (here kept)
            simp only [if_true, List.length_cons]
            omega
  induction list with
  | nil => simp
  | cons head tail ih =>
      have each := fun a member => contributes a (List.mem_cons_of_mem head member)
      have bound := many each
      have here := contributes head List.mem_cons_self
      rw [List.flatMap_cons, List.length_append, List.filter_cons] at few
      have split : (f head).length ≤ 1 ∧
          (tail.flatMap f).length ≤ (tail.filter keep).length := by
        cases kept : keep head with
        | false =>
            rw [kept, if_neg Bool.false_ne_true] at few
            omega
        | true =>
            have := List.length_pos_of_ne_nil (here kept)
            rw [kept, if_pos rfl, List.length_cons] at few
            omega
      exact List.forall_mem_cons.mpr ⟨split.1, ih each split.2⟩

/-- A traversal that succeeds at every entry succeeds. -/
theorem mapM_some {f : α → Option γ} {g : α → γ} (each : ∀ a ∈ list, f a = some (g a))
    : list.mapM f = some (list.map g) := by
  induction list with
  | nil => rfl
  | cons head tail ih =>
      rw [List.mapM_cons, each head List.mem_cons_self,
        ih fun a member => each a (List.mem_cons_of_mem _ member)]
      rfl

theorem mapM_congr {m : Type → Type} [Monad m] [LawfulMonad m] {f g : α → m γ}
    (each : ∀ a ∈ list, f a = g a) : list.mapM f = list.mapM g := by
  induction list with
  | nil => rfl
  | cons head tail ih =>
      rw [List.mapM_cons, List.mapM_cons, each head List.mem_cons_self,
        ih fun a member => each a (List.mem_cons_of_mem _ member)]

/-- A pass that may fail succeeds with the results of its entries. -/
theorem mapM_ok_iff {ε : Type} {f : α → Except ε γ} {results : List γ} :
    list.mapM f = .ok results ↔ List.Forall₂ (fun a c => f a = .ok c) list results := by
  induction list generalizing results with
  | nil => cases results <;> simp [pure, Except.pure]
  | cons head tail ih =>
      rw [List.mapM_cons]
      cases here : f head with
      | error failure => cases results <;> simp [here, bind, Except.bind]
      | ok c =>
          cases later : tail.mapM f with
          | error failure =>
              cases results with
              | nil => simp [bind, Except.bind]
              | cons d rest =>
                  have failed : ¬ List.Forall₂ (fun a c => f a = .ok c) tail rest := by
                    rw [← ih, later]
                    exact nofun
                  simp [bind, Except.bind, failed]
          | ok rest =>
              cases results with
              | nil => simp [bind, Except.bind, pure, Except.pure]
              | cons d others =>
                  rw [List.forall₂_cons, ← ih, later]
                  simp [here, bind, Except.bind, pure, Except.pure]

/-- Entries that each have a counterpart make up a list of counterparts. -/
theorem exists_forall₂ (each : ∀ a ∈ first, ∃ b, Pair a b) :
    ∃ list, List.Forall₂ Pair first list := by
  induction first with
  | nil => exact ⟨[], .nil⟩
  | cons head tail ih =>
      obtain ⟨b, pair⟩ := each head List.mem_cons_self
      obtain ⟨list, pairs⟩ := ih fun a member =>
        each a (List.mem_cons_of_mem _ member)
      exact ⟨b :: list, .cons pair pairs⟩

/-- Lists that correspond to two others are related entry by entry exactly if those
are. -/
theorem forall₂_iff_of_images {δ : Type} {Left : α → γ → Prop} {Right : β → δ → Prop}
    {Other : γ → δ → Prop} {third : List γ} {fourth : List δ}
    (lefts : List.Forall₂ Left first third) (rights : List.Forall₂ Right second fourth)
    (each : ∀ {a b c d}, Left a c → Right b d → (Pair a b ↔ Other c d)) :
    List.Forall₂ Pair first second ↔ List.Forall₂ Other third fourth := by
  induction lefts generalizing second fourth with
  | nil => cases rights <;> simp
  | cons left _ ih =>
      cases rights with
      | nil => simp
      | cons right rest =>
          rw [List.forall₂_cons, List.forall₂_cons, each left right, ih rest]

end StructuredMergeDiff.Library
