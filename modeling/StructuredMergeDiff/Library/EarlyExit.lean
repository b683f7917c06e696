import Mathlib.Data.List.Basic

/-!
Contract: loops that their callback may stop.

A loop hands each item with the state to a callback, which answers whether to go
on; it reports whether it came to the end. The callback may fail.

Owns: `visitWhile`, `callWhile` for callbacks that cannot fail, how they compose,
and what steps that may fail did if they succeeded.
-/

namespace StructuredMergeDiff.Library

variable {α β σ ε : Type} {items : List α}

theorem bind_eq_ok {first : Except ε α} {next : α → Except ε β} {result : β} :
    (first >>= next) = .ok result ↔ ∃ a, first = .ok a ∧ next a = .ok result := by
  cases first with
  | error failure => simp [Bind.bind, Except.bind]
  | ok a => simp [Bind.bind, Except.bind]

theorem map_eq_ok {first : Except ε α} {f : α → β} {result : β} :
    first.map f = .ok result ↔ ∃ a, first = .ok a ∧ f a = result := by
  cases first <;> simp [Except.map]

/-- The loop with a callback that may fail. -/
def visitWhile (visit : α → σ → Except ε (σ × Bool)) : List α → σ → Except ε (σ × Bool)
  | [], state => .ok (state, true)
  | item :: rest, state =>
      (visit item state).bind fun result =>
        if result.2 then visitWhile visit rest result.1 else .ok (result.1, false)

/-- The loop with a callback that always answers. -/
def callWhile (call : α → σ → σ × Bool) : List α → σ → σ × Bool
  | [], state => (state, true)
  | item :: rest, state =>
      let result := call item state
      if result.2 then callWhile call rest result.1 else (result.1, false)

theorem visitWhile_append (visit : α → σ → Except ε (σ × Bool)) (first second : List α)
    (state : σ) :
    visitWhile visit (first ++ second) state =
      (visitWhile visit first state).bind fun result =>
        if result.2 then visitWhile visit second result.1 else .ok (result.1, false) := by
  induction first generalizing state with
  | nil => rfl
  | cons item rest ih =>
      rw [List.cons_append, visitWhile, visitWhile]
      cases visit item state with
      | error failure => rfl
      | ok result =>
          cases goesOn : result.2 with
          | true => simp [Except.bind, goesOn, ih]
          | false => simp [Except.bind, goesOn]

theorem visitWhile_map (visit : β → σ → Except ε (σ × Bool)) (f : α → β) (items : List α)
    (state : σ) :
    visitWhile visit (items.map f) state = visitWhile (fun item => visit (f item)) items state := by
  induction items generalizing state with
  | nil => rfl
  | cons item rest ih =>
      rw [List.map_cons, visitWhile, visitWhile]
      simp only [ih]

theorem visitWhile_congr {visit other : α → σ → Except ε (σ × Bool)}
    (each : ∀ item ∈ items, ∀ state, visit item state = other item state) (state : σ) :
    visitWhile visit items state = visitWhile other items state := by
  induction items generalizing state with
  | nil => rfl
  | cons item rest ih =>
      have later := ih fun other member => each other (List.mem_cons_of_mem _ member)
      rw [visitWhile, visitWhile, each item List.mem_cons_self]
      simp only [later]

/-- A loop over items of which some are passed over. -/
theorem visitWhile_filterMap {visit : α → σ → Except ε (σ × Bool)}
    {shown : β → σ → Except ε (σ × Bool)} {show? : α → Option β}
    (each : ∀ item ∈ items, ∀ state, visit item state =
      match show? item with
      | none => .ok (state, true)
      | some entry => shown entry state) (state : σ) :
    visitWhile visit items state = visitWhile shown (items.filterMap show?) state := by
  induction items generalizing state with
  | nil => rfl
  | cons item rest ih =>
      have later := ih fun other member => each other (List.mem_cons_of_mem _ member)
      rw [visitWhile, each item List.mem_cons_self]
      cases shows : show? item with
      | none =>
          rw [List.filterMap_cons_none shows]
          exact later state
      | some entry =>
          rw [List.filterMap_cons_some shows, visitWhile]
          simp only [later]

theorem visitWhile_succeeds {visit : α → σ → Except ε (σ × Bool)}
    (each : ∀ item ∈ items, ∀ state, ∃ result, visit item state = .ok result) (state : σ) :
    ∃ result, visitWhile visit items state = .ok result := by
  induction items generalizing state with
  | nil => exact ⟨(state, true), rfl⟩
  | cons item rest ih =>
      obtain ⟨result, visited⟩ := each item List.mem_cons_self state
      rw [visitWhile, visited]
      show ∃ final, (if result.2 then visitWhile visit rest result.1 else .ok (result.1, false)) =
        Except.ok final
      split
      · exact ih
          (fun other member => each other (List.mem_cons_of_mem _ member)) result.1
      · exact ⟨_, rfl⟩

/-- A callback that never fails makes a loop that never fails. -/
theorem visitWhile_eq_call {visit : α → σ → Except ε (σ × Bool)} {call : α → σ → σ × Bool}
    (each : ∀ item ∈ items, ∀ state, visit item state = .ok (call item state)) (state : σ)
    : visitWhile visit items state = .ok (callWhile call items state) := by
  induction items generalizing state with
  | nil => rfl
  | cons item rest ih =>
      have later := ih fun other member => each other (List.mem_cons_of_mem _ member)
      rw [visitWhile, each item List.mem_cons_self, callWhile]
      simp only [Except.bind, later]
      split <;> rfl

theorem visitWhile_count (items : List α) (start : Nat) :
    visitWhile (ε := ε) (fun _ count => .ok (count + 1, true)) items start =
      .ok (start + items.length, true) := by
  induction items generalizing start with
  | nil => rfl
  | cons item rest ih =>
      rw [visitWhile, List.length_cons]
      simp only [Except.bind, if_true, ih]
      rw [Nat.add_right_comm, Nat.add_assoc]

theorem visitWhile_stop (items : List α) (state : σ) :
    visitWhile (ε := ε) (fun _ state => .ok (state, false)) items state =
      .ok (state, items.isEmpty) := by
  cases items <;> rfl

theorem visitWhile_gather (f : α → β) (items : List α) (start : List β) :
    visitWhile (ε := ε) (fun item gathered => .ok (gathered ++ [f item], true)) items start =
      .ok (start ++ items.map f, true) := by
  induction items generalizing start with
  | nil => simp [visitWhile]
  | cons item rest ih =>
      rw [visitWhile, List.map_cons]
      simp only [Except.bind, if_true, ih]
      rw [List.append_assoc, List.singleton_append]

/-- A loop that also notes what it visits: it runs as without the notes, and if
it comes to the end, it has noted every item. -/
theorem visitWhile_noting {visit : α → σ → σ × Bool}
    {noting : α → List β × σ → Except ε ((List β × σ) × Bool)} {note : α → β}
    (each : ∀ item ∈ items, ∀ notes state, noting item (notes, state) =
      .ok ((note item :: notes, (visit item state).1), (visit item state).2)) (notes : List β)
    (state : σ) :
    ∃ noted, visitWhile noting items (notes, state) =
        .ok ((noted, (callWhile visit items state).1), (callWhile visit items state).2) ∧
      ((callWhile visit items state).2 = true → noted = (items.map note).reverse ++ notes) := by
  induction items generalizing notes state with
  | nil => exact ⟨notes, rfl, fun _ => rfl⟩
  | cons item rest ih =>
      rw [visitWhile, each item List.mem_cons_self, callWhile]
      simp only [Except.bind]
      cases goesOn : (visit item state).2 with
      | false => exact ⟨note item :: notes, rfl, fun ended => nomatch ended⟩
      | true =>
          obtain ⟨noted, ran, all⟩ := ih
            (fun other member => each other (List.mem_cons_of_mem _ member))
            (note item :: notes) (visit item state).1
          refine ⟨noted, ran, fun ended => ?_⟩
          rw [all ended, List.map_cons, List.reverse_cons, List.append_assoc]
          rfl

theorem callWhile_map (call : β → σ → σ × Bool) (f : α → β) (items : List α) (state : σ) :
    callWhile call (items.map f) state = callWhile (fun item => call (f item)) items state := by
  induction items generalizing state with
  | nil => rfl
  | cons item rest ih =>
      rw [List.map_cons, callWhile, callWhile]
      simp only [ih]

theorem callWhile_congr {call other : α → σ → σ × Bool}
    (each : ∀ item ∈ items, ∀ state, call item state = other item state) (state : σ) :
    callWhile call items state = callWhile other items state := by
  induction items generalizing state with
  | nil => rfl
  | cons item rest ih =>
      have later := ih fun other member => each other (List.mem_cons_of_mem _ member)
      rw [callWhile, callWhile, each item List.mem_cons_self]
      simp only [later]

theorem callWhile_append (call : α → σ → σ × Bool) (first second : List α) (state : σ) :
    callWhile call (first ++ second) state =
      let result := callWhile call first state
      if result.2 then callWhile call second result.1 else (result.1, false) := by
  induction first generalizing state with
  | nil => rfl
  | cons item rest ih =>
      rw [List.cons_append, callWhile, callWhile]
      simp only [ih]
      split
      · rfl
      · simp

/-- A loop that only asks a question of each item comes to the end if all answers are yes. -/
theorem callWhile_all {call : α → σ → σ × Bool} {test : α → Bool}
    (each : ∀ item ∈ items, ∀ state, call item state = (state, test item)) (state : σ) :
    callWhile call items state = (state, items.all test) := by
  induction items with
  | nil => rfl
  | cons item rest ih =>
      have later := ih fun other member => each other (List.mem_cons_of_mem _ member)
      rw [callWhile, each item List.mem_cons_self, List.all_cons, later]
      cases test item <;> rfl

/-- A loop that came through without a failure visited every item, if it does not stop. -/
theorem visit_ok_of_visitWhile {visit : α → σ → Except ε (σ × Bool)}
    (goesOn : ∀ item state result, visit item state = .ok result → result.2 = true) {state : σ}
    {result : σ × Bool} (ran : visitWhile visit items state = .ok result) :
    ∀ item ∈ items, ∃ before after, visit item before = .ok after := by
  induction items generalizing state with
  | nil => exact fun _ member => absurd member List.not_mem_nil
  | cons item rest ih =>
      rw [visitWhile] at ran
      cases visited : visit item state with
      | error failure =>
          rw [visited] at ran
          cases ran
      | ok after =>
          rw [visited] at ran
          simp only [Except.bind, goesOn item state after visited, if_true] at ran
          intro other member
          rcases List.mem_cons.mp member with rfl | later
          · exact ⟨state, after, visited⟩
          · exact ih ran other later

end StructuredMergeDiff.Library
