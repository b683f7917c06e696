import Mathlib.Data.List.Basic
import Mathlib.Data.List.Nodup
import Mathlib.Data.List.Perm.Basic
import Mathlib.Data.List.Perm.Subperm

/-!
Contract: finite maps with an unspecified iteration order.

A map is an association list in which the first binding of a key counts. A
range over it visits each entry once, in an order the program cannot rely on;
the order is a parameter.

Owns: `FiniteMap` with lookup, update and removal, `IterationOrder`, the lookup
laws, and the rule for ranges that act on each key by itself.
-/

namespace StructuredMergeDiff.Library

/-- An association list read as a map. -/
abbrev FiniteMap (κ β : Type) := List (κ × β)

/-- The order in which a range visits the entries: some permutation of them. -/
structure IterationOrder where
  arrange : {α : Type} → List α → List α
  perm : ∀ {α : Type} (entries : List α), (arrange entries).Perm entries

/-- The order in which the entries are stored. -/
def IterationOrder.stored : IterationOrder where
  arrange := id
  perm := fun _ => List.Perm.refl _

/-- The opposite order. -/
def IterationOrder.reversed : IterationOrder where
  arrange := List.reverse
  perm := List.reverse_perm

/-- There is one order for a single entry. -/
theorem IterationOrder.arrange_toList {α : Type} (order : IterationOrder) (entry : Option α) :
    order.arrange entry.toList = entry.toList := by
  cases entry with
  | none => exact List.perm_nil.mp (order.perm [])
  | some a => exact List.perm_singleton.mp (order.perm [a])

namespace FiniteMap

variable {κ β : Type} [DecidableEq κ] {m : FiniteMap κ β} {key : κ}

/-- Lookup. -/
def get? : FiniteMap κ β → κ → Option β
  | [], _ => none
  | (k, v) :: rest, key => if k = key then some v else get? rest key

/-- Removal of a key. -/
def erase (m : FiniteMap κ β) (key : κ) : FiniteMap κ β :=
  m.filter fun entry => entry.1 ≠ key

/-- Assignment to a key. -/
def set (m : FiniteMap κ β) (key : κ) (v : β) : FiniteMap κ β :=
  (key, v) :: erase m key

/-- Each key once, with its first entry. -/
def firsts (m : FiniteMap κ β) : FiniteMap κ β :=
  m.foldr (fun entry rest => set rest entry.1 entry.2) []

/-- Each key has one entry. -/
def Distinct (m : FiniteMap κ β) : Prop :=
  (m.map Prod.fst).Nodup

@[simp] theorem get?_nil (key : κ) : get? ([] : FiniteMap κ β) key = none := rfl

theorem get?_cons (k : κ) (v : β) (rest : FiniteMap κ β) (key : κ) :
    get? ((k, v) :: rest) key = if k = key then some v else get? rest key := rfl

theorem get?_erase (m : FiniteMap κ β) (erased key : κ) :
    get? (erase m erased) key = if erased = key then none else get? m key := by
  induction m with
  | nil => simp [erase]
  | cons head tail ih =>
      obtain ⟨k, v⟩ := head
      by_cases same : k = erased
      · have dropped : erase ((k, v) :: tail) erased = erase tail erased := by
          simp [erase, same]
        rw [dropped, ih, get?_cons, same]
        split <;> rfl
      · have kept : erase ((k, v) :: tail) erased = (k, v) :: erase tail erased := by
          simp [erase, same]
        rw [kept, get?_cons, get?_cons, ih]
        by_cases found : k = key
        · rw [if_pos found, if_pos found, if_neg (fun eq => same (found.trans eq.symm))]
        · rw [if_neg found, if_neg found]

theorem get?_set (m : FiniteMap κ β) (assigned : κ) (v : β) (key : κ) :
    get? (set m assigned v) key = if assigned = key then some v else get? m key := by
  rw [set, get?_cons, get?_erase]
  split <;> rfl

theorem mem_of_get? {v : β} (found : get? m key = some v) :
    (key, v) ∈ m := by
  induction m with
  | nil => cases found
  | cons head tail ih =>
      obtain ⟨k, w⟩ := head
      rw [get?_cons] at found
      split at found
      · rename_i same
        cases found
        simp [same]
      · exact List.mem_cons_of_mem _ (ih found)

theorem get?_of_mem (distinct : Distinct m) {v : β} (member : (key, v) ∈ m)
    : get? m key = some v := by
  induction m with
  | nil => cases member
  | cons head tail ih =>
      obtain ⟨k, w⟩ := head
      obtain ⟨fresh, distinctTail⟩ := List.nodup_cons.mp distinct
      rw [get?_cons]
      rcases List.mem_cons.mp member with same | inTail
      · cases same
        simp
      · have different : k ≠ key := by
          intro eq
          exact fresh (List.mem_map.mpr ⟨(key, v), inTail, eq.symm⟩)
        rw [if_neg different]
        exact ih distinctTail inTail

theorem get?_eq_none_iff :
    get? m key = none ↔ ∀ v, (key, v) ∉ m := by
  induction m with
  | nil => simp
  | cons head tail ih =>
      obtain ⟨k, w⟩ := head
      rw [get?_cons]
      by_cases same : k = key
      · simp only [if_pos same, reduceCtorEq, List.mem_cons, false_iff, not_forall, not_not]
        exact ⟨w, Or.inl (by rw [same])⟩
      · rw [if_neg same, ih]
        refine forall_congr' fun v => ?_
        have : (key, v) ≠ (k, w) := fun eq => same (by cases eq; rfl)
        simp [this]

theorem erase_distinct (distinct : Distinct m) (key : κ) :
    Distinct (erase m key) :=
  List.Nodup.sublist (List.Sublist.map _ List.filter_sublist) distinct

theorem set_distinct (distinct : Distinct m) (key : κ) (v : β) :
    Distinct (set m key v) := by
  refine List.nodup_cons.mpr ⟨?_, erase_distinct distinct key⟩
  intro member
  obtain ⟨entry, inErased, same⟩ := List.mem_map.mp member
  have := (List.mem_filter.mp inErased).2
  simp [same] at this

theorem firsts_distinct (m : FiniteMap κ β) : Distinct (firsts m) := by
  induction m with
  | nil => exact List.nodup_nil
  | cons entry rest ih => exact set_distinct ih _ _

theorem get?_firsts (m : FiniteMap κ β) (key : κ) : get? (firsts m) key = get? m key := by
  induction m with
  | nil => rfl
  | cons entry rest ih =>
      rw [get?_cons, ← ih]
      exact get?_set (firsts rest) entry.1 entry.2 key

omit [DecidableEq κ] in
/-- Items shown under distinct keys, some of them passed over. -/
theorem distinct_filterMap {ι : Type} {keyOf : ι → κ} {show? : ι → Option β} {items : List ι}
    (distinct : (items.map keyOf).Nodup) :
    Distinct (items.filterMap fun item => (show? item).map fun v => (keyOf item, v)) := by
  refine List.Nodup.sublist ?_ distinct
  rw [List.map_filterMap]
  induction items with
  | nil => exact List.Sublist.slnil
  | cons item rest ih =>
      have later := ih (List.nodup_cons.mp distinct).2
      cases shown : show? item with
      | none => simpa [shown] using later.cons _
      | some v => simpa [shown] using later.cons_cons (keyOf item)

theorem get?_filterMap_of_mem {ι : Type} {keyOf : ι → κ} {show? : ι → Option β} {items : List ι}
    (distinct : (items.map keyOf).Nodup) {item : ι} (member : item ∈ items) :
    get? (items.filterMap fun item => (show? item).map fun v => (keyOf item, v)) (keyOf item) =
      show? item := by
  cases shown : show? item with
  | some v =>
      refine get?_of_mem (distinct_filterMap distinct) (List.mem_filterMap.mpr ⟨item, member, ?_⟩)
      rw [shown]
      rfl
  | none =>
      refine get?_eq_none_iff.mpr fun v listed => ?_
      obtain ⟨other, inItems, same⟩ := List.mem_filterMap.mp listed
      obtain ⟨w, shows, pair⟩ := Option.map_eq_some_iff.mp same
      have sameKey : keyOf other = keyOf item := congrArg Prod.fst pair
      have same := List.inj_on_of_nodup_map distinct inItems member sameKey
      rw [same, shown] at shows
      cases shows

theorem get?_filterMap_of_absent {ι : Type} {keyOf : ι → κ} {show? : ι → Option β} {items : List ι}
    (absent : ∀ item ∈ items, keyOf item ≠ key) :
    get? (items.filterMap fun item => (show? item).map fun v => (keyOf item, v)) key = none := by
  refine get?_eq_none_iff.mpr fun v listed => ?_
  obtain ⟨item, inItems, same⟩ := List.mem_filterMap.mp listed
  obtain ⟨w, _, pair⟩ := Option.map_eq_some_iff.mp same
  exact absent item inItems (congrArg Prod.fst pair)

theorem get?_map_snd {γ : Type} (m : FiniteMap κ β) (f : β → γ) (key : κ) :
    get? (m.map fun entry => (entry.1, f entry.2)) key = (get? m key).map f := by
  induction m with
  | nil => rfl
  | cons entry rest ih =>
      rw [List.map_cons, get?_cons, ih]
      show _ = Option.map f (if entry.1 = key then some entry.2 else get? rest key)
      split <;> rfl

/-- The value of a key is replaced, if it has one. -/
def modify (m : FiniteMap κ β) (key : κ) (f : β → β) : FiniteMap κ β :=
  m.map fun entry => if entry.1 = key then (entry.1, f entry.2) else entry

theorem get?_modify_self (m : FiniteMap κ β) (key : κ) (f : β → β) :
    get? (modify m key f) key = (get? m key).map f := by
  induction m with
  | nil => rfl
  | cons entry rest ih =>
      obtain ⟨k, v⟩ := entry
      by_cases same : k = key
      · simp [modify, get?_cons, same]
      · have step : modify ((k, v) :: rest) key f = (k, v) :: modify rest key f := by
          simp [modify, same]
        rw [step, get?_cons, get?_cons, if_neg same, if_neg same, ih]

theorem isSome_get?_iff :
    (get? m key).isSome = true ↔ key ∈ m.map Prod.fst := by
  induction m with
  | nil => simp
  | cons entry rest ih =>
      show Option.isSome (if entry.1 = key then some entry.2 else get? rest key) = true ↔ _
      by_cases same : entry.1 = key
      · simp [same]
      · simp [same, ih, Ne.symm same]

theorem erase_of_absent (absent : key ∉ m.map Prod.fst) :
    erase m key = m := by
  refine List.filter_eq_self.mpr fun entry member => ?_
  have different : entry.1 ≠ key := fun same => absent (same ▸ List.mem_map_of_mem member)
  simpa using different

theorem map_set {γ : Type} (m : FiniteMap κ β) (key : κ) (v : β) (f : β → γ) :
    (set m key v).map (fun entry => (entry.1, f entry.2)) =
      set (m.map fun entry => (entry.1, f entry.2)) key (f v) := by
  rw [set, set, List.map_cons, erase, erase, List.filter_map]
  rfl

/-- The values may be converted before or after they are assigned. -/
theorem map_foldl_set {ι γ : Type} (keyOf : ι → κ) (valueOf : ι → β) (f : β → γ) (items : List ι)
    (m : FiniteMap κ β) :
    (items.foldl (fun m item => set m (keyOf item) (valueOf item)) m).map
        (fun entry => (entry.1, f entry.2)) =
      items.foldl (fun m item => set m (keyOf item) (f (valueOf item)))
        (m.map fun entry => (entry.1, f entry.2)) := by
  induction items generalizing m with
  | nil => rfl
  | cons item rest ih =>
      rw [List.foldl_cons, List.foldl_cons, ih, map_set]

/-- Entries with different keys, assigned one after the other. -/
theorem foldl_set_perm {γ : Type} {keyOf : γ → κ} {valueOf : γ → β} {items : List γ}
    (distinct : (items.map keyOf).Nodup) (fresh : ∀ item ∈ items, keyOf item ∉ m.map Prod.fst) :
    (items.foldl (fun m item => set m (keyOf item) (valueOf item)) m).Perm
      ((items.map fun item => (keyOf item, valueOf item)) ++ m) := by
  induction items generalizing m with
  | nil => exact List.Perm.refl _
  | cons item rest ih =>
      obtain ⟨apart, distinctRest⟩ := List.nodup_cons.mp distinct
      have step : set m (keyOf item) (valueOf item) = (keyOf item, valueOf item) :: m := by
        rw [set, erase_of_absent (fresh item List.mem_cons_self)]
      rw [List.foldl_cons, step]
      refine (ih distinctRest fun other member inMap => ?_).trans
        List.perm_middle
      rcases List.mem_cons.mp inMap with same | inMap
      · exact apart (List.mem_map.mpr ⟨other, member, same⟩)
      · exact fresh other (List.mem_cons_of_mem _ member) inMap

/-! ## Ranges over a map -/

theorem get?_eq_some_iff (distinct : Distinct m) {v : β} :
    get? m key = some v ↔ (key, v) ∈ m :=
  ⟨mem_of_get?, get?_of_mem distinct⟩

omit [DecidableEq κ] in
theorem distinct_of_perm {m n : FiniteMap κ β} (perm : m.Perm n) (distinct : Distinct n) :
    Distinct m :=
  (perm.map Prod.fst).nodup_iff.mpr distinct

theorem get?_of_perm {m n : FiniteMap κ β} (perm : m.Perm n) (distinct : Distinct n) (key : κ) :
    get? m key = get? n key := by
  apply Option.ext
  intro v
  rw [get?_eq_some_iff (distinct_of_perm perm distinct), get?_eq_some_iff distinct, perm.mem_iff]

theorem eq_nil_of_get? (none : ∀ key, get? m key = Option.none) : m = [] := by
  cases m with
  | nil => rfl
  | cons entry rest =>
      have held := none entry.1
      rw [get?_cons, if_pos rfl] at held
      cases held

theorem eq_of_only (distinct : Distinct m) (only : ∀ entry ∈ m, entry.1 = key)
    : m = ((get? m key).map fun v => (key, v)).toList := by
  cases m with
  | nil => rfl
  | cons entry rest =>
      have isKey := only entry List.mem_cons_self
      have noMore : rest = [] := by
        rw [List.eq_nil_iff_forall_not_mem]
        intro other member
        have same := only other (List.mem_cons_of_mem _ member)
        apply (List.nodup_cons.mp distinct).1
        rw [isKey, ← same]
        exact List.mem_map_of_mem member
      rw [noMore, get?_cons, if_pos isKey, ← isKey]
      rfl

theorem get?_of_fresh (fresh : key ∉ m.map Prod.fst) :
    get? m key = none :=
  get?_eq_none_iff.mpr fun v member => fresh (List.mem_map.mpr ⟨(key, v), member, rfl⟩)

/-- A range that, for each entry, changes what another map holds under the entry's
key: the order in which it does so makes no difference. -/
theorem get?_foldl {γ : Type} {step : FiniteMap κ β → κ × γ → FiniteMap κ β}
    (effect : γ → Option β → Option β)
    (pointwise : ∀ m entry key, get? (step m entry) key =
      if entry.1 = key then effect entry.2 (get? m key) else get? m key)
    {entries : FiniteMap κ γ} (distinct : Distinct entries) (m : FiniteMap κ β) (key : κ) :
    get? (entries.foldl step m) key =
      match get? entries key with
      | some v => effect v (get? m key)
      | none => get? m key := by
  induction entries generalizing m with
  | nil => rfl
  | cons entry rest ih =>
      obtain ⟨k, v⟩ := entry
      obtain ⟨fresh, distinctRest⟩ := List.nodup_cons.mp distinct
      rw [List.foldl_cons, ih distinctRest, pointwise, get?_cons]
      by_cases same : k = key
      · rw [← same, get?_of_fresh fresh, if_pos rfl, if_pos rfl]
      · rw [if_neg same, if_neg same]

/-- Counting what the entries of a map are flattened to, where each item tells its
entry's key: only the entry of the key counts. -/
theorem countP_flatMap {α : Type} {items : κ × β → List α} {keyOf : α → κ}
    (keyed : ∀ entry, ∀ item ∈ items entry, keyOf item = entry.1) (distinct : Distinct m) (key : κ)
    {test : α → Bool} (tests : ∀ item, test item = true → keyOf item = key) :
    (m.flatMap items).countP test =
      match get? m key with
      | some v => (items (key, v)).countP test
      | none => 0 := by
  have foreign : ∀ entry : κ × β, entry.1 ≠ key → (items entry).countP test = 0 := by
    intro entry different
    rw [List.countP_eq_zero]
    intro item member passes
    exact different ((keyed entry item member).symm.trans (tests item passes))
  induction m with
  | nil => rfl
  | cons entry rest ih =>
      obtain ⟨k, v⟩ := entry
      obtain ⟨fresh, distinctRest⟩ := List.nodup_cons.mp distinct
      rw [List.flatMap_cons, List.countP_append, ih distinctRest, get?_cons]
      by_cases same : k = key
      · rw [← same, get?_of_fresh fresh, if_pos rfl]
        rfl
      · rw [if_neg same, foreign (k, v) same, Nat.zero_add]

omit [DecidableEq κ] in
theorem foldl_distinct {ι : Type} {step : FiniteMap κ β → ι → FiniteMap κ β}
    (keeps : ∀ m entry, Distinct m → Distinct (step m entry)) (entries : List ι)
    (distinct : Distinct m) : Distinct (entries.foldl step m) := by
  induction entries generalizing m with
  | nil => exact distinct
  | cons entry rest ih => exact ih (keeps m entry distinct)

/-- A fallible range over a map: what it does to a state is seen through a lookup
that each entry changes at its own key only. -/
theorem lookup_foldlM {σ ε γ δ : Type} {step : σ → κ × γ → Except ε σ} {Invariant : σ → Prop}
    (lookup : σ → κ → δ) (effect : κ → γ → δ → δ)
    (pointwise : ∀ state entry next, Invariant state → step state entry = .ok next →
      Invariant next ∧ ∀ key, lookup next key =
        if entry.1 = key then effect key entry.2 (lookup state key) else lookup state key)
    {entries : FiniteMap κ γ} (distinct : Distinct entries) {state final : σ}
    (invariant : Invariant state) (run : entries.foldlM step state = .ok final) :
    Invariant final ∧ ∀ key, lookup final key =
      match get? entries key with
      | some v => effect key v (lookup state key)
      | none => lookup state key := by
  induction entries generalizing state with
  | nil =>
      cases run
      exact ⟨invariant, fun _ => rfl⟩
  | cons entry rest ih =>
      obtain ⟨k, v⟩ := entry
      obtain ⟨fresh, distinctRest⟩ := List.nodup_cons.mp distinct
      rw [List.foldlM_cons] at run
      cases stepped : step state (k, v) with
      | error err =>
          rw [stepped] at run
          cases run
      | ok next =>
          rw [stepped] at run
          obtain ⟨kept, changed⟩ := pointwise state (k, v) next invariant stepped
          obtain ⟨atEnd, lookups⟩ := ih distinctRest kept run
          refine ⟨atEnd, fun key => ?_⟩
          rw [lookups, changed, get?_cons]
          by_cases same : k = key
          · rw [← same, get?_of_fresh fresh, if_pos rfl, if_pos rfl]
          · rw [if_neg same, if_neg same]

section

omit [DecidableEq κ]

/-- What every step of a fallible range keeps, the range keeps. -/
theorem foldlM_keeps {σ ε γ : Type} {step : σ → γ → Except ε σ} {Invariant : σ → Prop}
    (keeps : ∀ state entry next, Invariant state → step state entry = .ok next → Invariant next)
    {entries : List γ} {state final : σ} (invariant : Invariant state)
    (run : entries.foldlM step state = .ok final) : Invariant final := by
  induction entries generalizing state with
  | nil =>
      cases run
      exact invariant
  | cons entry rest ih =>
      rw [List.foldlM_cons] at run
      cases stepped : step state entry with
      | error err =>
          rw [stepped] at run
          cases run
      | ok next =>
          rw [stepped] at run
          exact ih (keeps state entry next invariant stepped) run

/-- A fallible range ends well if every step it takes does. -/
theorem foldlM_succeeds {σ ε γ : Type} {step : σ → γ → Except ε σ} {Invariant : σ → Prop}
    {entries : List γ}
    (steps : ∀ state, ∀ entry ∈ entries, Invariant state →
      ∃ next, step state entry = .ok next ∧ Invariant next)
    {state : σ} (invariant : Invariant state) :
    ∃ final, entries.foldlM step state = .ok final := by
  induction entries generalizing state with
  | nil => exact ⟨state, rfl⟩
  | cons entry rest ih =>
      obtain ⟨next, stepped, kept⟩ := steps state entry List.mem_cons_self invariant
      rw [List.foldlM_cons, stepped]
      exact ih
        (fun state entry member => steps state entry (List.mem_cons_of_mem _ member)) kept

/-- In a fallible range that ends well, every entry had its step. -/
theorem step_of_foldlM {σ ε γ : Type} {step : σ → κ × γ → Except ε σ} {Invariant : σ → Prop}
    (keeps : ∀ state entry next, Invariant state → step state entry = .ok next → Invariant next)
    {entries : FiniteMap κ γ} {state final : σ} (invariant : Invariant state)
    (run : entries.foldlM step state = .ok final) {entry : κ × γ} (member : entry ∈ entries) :
    ∃ before next, Invariant before ∧ step before entry = .ok next := by
  induction entries generalizing state with
  | nil => cases member
  | cons head rest ih =>
      rw [List.foldlM_cons] at run
      cases stepped : step state head with
      | error err =>
          rw [stepped] at run
          cases run
      | ok next =>
          rw [stepped] at run
          rcases List.mem_cons.mp member with rfl | inRest
          · exact ⟨state, next, invariant, stepped⟩
          · exact ih (keeps state head next invariant stepped) run inRest

end

/-! ### Maps that agree -/

private theorem rel_flip {α γ : Type} {R : α → γ → Prop} {a : Option α} {b : Option γ}
    (related : Option.Rel R a b) : Option.Rel (fun w v => R v w) b a := by
  cases related with
  | none => exact .none
  | some related => exact .some related

private theorem rel_isSome {α γ : Type} {R : α → γ → Prop} {a : Option α} {b : Option γ}
    (related : Option.Rel R a b) : a.isSome = b.isSome := by
  cases related <;> rfl

/-- The maps have the same keys, with related values. -/
def Agree {γ : Type} (R : β → γ → Prop) (m : FiniteMap κ β) (n : FiniteMap κ γ) : Prop :=
  ∀ key, Option.Rel R (get? m key) (get? n key)

theorem Agree.flip {γ : Type} {R : β → γ → Prop} {n : FiniteMap κ γ} (agree : Agree R m n)
    : Agree (fun w v => R v w) n m :=
  fun key => rel_flip (agree key)

/-- Maps agree if they have the same number of keys and every entry of the second
is matched in the first. -/
theorem agree_iff_found {γ : Type} {R : β → γ → Prop} {n : FiniteMap κ γ}
    (distinctLeft : Distinct m) (distinctRight : Distinct n) :
    Agree R m n ↔
      m.length = n.length ∧ ∀ entry ∈ n, ∃ v, get? m entry.1 = some v ∧ R v entry.2 := by
  constructor
  · intro agree
    have sameKeys : (m.map Prod.fst).Perm (n.map Prod.fst) := by
      refine (List.perm_ext_iff_of_nodup distinctLeft distinctRight).mpr fun key => ?_
      rw [← isSome_get?_iff, ← isSome_get?_iff, rel_isSome (agree key)]
    refine ⟨by simpa using sameKeys.length_eq, fun entry member => ?_⟩
    have found := agree entry.1
    rw [get?_of_mem distinctRight member] at found
    cases isLeft : get? m entry.1 with
    | none => rw [isLeft] at found; cases found
    | some v =>
        rw [isLeft] at found
        cases found with
        | some related => exact ⟨v, rfl, related⟩
  · intro ⟨sameLength, found⟩ key
    have subset : n.map Prod.fst ⊆ m.map Prod.fst := by
      intro key member
      obtain ⟨entry, inRight, rfl⟩ := List.mem_map.mp member
      obtain ⟨v, isLeft, _⟩ := found entry inRight
      exact isSome_get?_iff.mp (by rw [isLeft]; rfl)
    have sameKeys : (n.map Prod.fst).Perm (m.map Prod.fst) :=
      (List.subperm_of_subset distinctRight subset).perm_of_length_le (by simp [sameLength])
    cases isRight : get? n key with
    | none =>
        have absent : ¬ (get? m key).isSome = true := by
          rw [isSome_get?_iff, ← sameKeys.mem_iff, ← isSome_get?_iff, isRight]
          exact Bool.noConfusion
        rw [Option.not_isSome_iff_eq_none.mp absent]
        exact .none
    | some w =>
        obtain ⟨v, isLeft, related⟩ := found (key, w) (mem_of_get? isRight)
        rw [isLeft]
        exact .some related

/-- Maps whose entries correspond one by one agree. -/
theorem agree_of_forall₂ {γ : Type} {R : β → γ → Prop} {n : FiniteMap κ γ}
    (entries : List.Forall₂ (fun x y => x.1 = y.1 ∧ R x.2 y.2) m n) : Agree R m n := by
  induction entries with
  | nil => exact fun _ => .none
  | @cons x y _ _ head _ ih =>
      intro key
      rw [get?_cons, get?_cons, head.1]
      split
      · exact .some head.2
      · exact ih key

theorem agree_singleton {γ : Type} {R : β → γ → Prop} {v : β} {w : γ} :
    Agree R [(key, v)] [(key, w)] ↔ R v w := by
  constructor
  · intro agree
    have here := agree key
    rw [get?_cons, get?_cons, if_pos rfl, if_pos rfl] at here
    exact Option.rel_some_some.mp here
  · intro related
    exact agree_of_forall₂ (.cons ⟨rfl, related⟩ .nil)

private theorem rel_iff_of_images {α γ δ : Type} {L : α → γ → Prop} {M : β → δ → Prop}
    {R : α → β → Prop} {S : γ → δ → Prop} {a : Option α} {b : Option β} {c : Option γ}
    {d : Option δ} (left : Option.Rel L a c) (right : Option.Rel M b d)
    (each : ∀ {a b c d}, L a c → M b d → (R a b ↔ S c d)) :
    Option.Rel R a b ↔ Option.Rel S c d := by
  cases left with
  | none =>
      cases right with
      | none => exact ⟨fun _ => .none, fun _ => .none⟩
      | some there => exact ⟨nofun, nofun⟩
  | some here =>
      cases right with
      | none => exact ⟨nofun, nofun⟩
      | some there => rw [Option.rel_some_some, Option.rel_some_some, each here there]

/-- Maps agree exactly if the maps of their images do. -/
theorem agree_iff_of_images {α γ δ : Type} {L : α → γ → Prop} {M : β → δ → Prop}
    {R : α → β → Prop} {S : γ → δ → Prop} {m : FiniteMap κ α} {n : FiniteMap κ β}
    {m' : FiniteMap κ γ} {n' : FiniteMap κ δ} (left : Agree L m m') (right : Agree M n n')
    (each : ∀ {a b c d}, L a c → M b d → (R a b ↔ S c d)) : Agree R m n ↔ Agree S m' n' :=
  forall_congr' fun key => rel_iff_of_images (left key) (right key) each

/-- Maps made from one list of keys agree if what they show of each item does. -/
theorem agree_filterMap {ι γ : Type} {R : β → γ → Prop} {keyOf : ι → κ} {left? : ι → Option β}
    {right? : ι → Option γ} {items : List ι} (distinct : (items.map keyOf).Nodup) :
    Agree R (items.filterMap fun item => (left? item).map fun v => (keyOf item, v))
        (items.filterMap fun item => (right? item).map fun v => (keyOf item, v)) ↔
      ∀ item ∈ items, Option.Rel R (left? item) (right? item) := by
  constructor
  · intro agree item member
    have found := agree (keyOf item)
    rwa [get?_filterMap_of_mem distinct member, get?_filterMap_of_mem distinct member] at found
  · intro each key
    by_cases listed : ∃ item ∈ items, keyOf item = key
    · obtain ⟨item, member, same⟩ := listed
      rw [← same, get?_filterMap_of_mem distinct member, get?_filterMap_of_mem distinct member]
      exact each item member
    · have absent : ∀ item ∈ items, keyOf item ≠ key :=
        fun item member same => listed ⟨item, member, same⟩
      rw [get?_filterMap_of_absent absent, get?_filterMap_of_absent absent]
      exact .none

end FiniteMap

namespace IterationOrder

variable {κ β : Type} [DecidableEq κ] {m : FiniteMap κ β}

omit [DecidableEq κ] in
theorem arrange_distinct (order : IterationOrder) (distinct : FiniteMap.Distinct m)
    : FiniteMap.Distinct (order.arrange m) :=
  FiniteMap.distinct_of_perm (order.perm m) distinct

theorem get?_arrange (order : IterationOrder) (distinct : FiniteMap.Distinct m) (key : κ) :
    FiniteMap.get? (order.arrange m) key = FiniteMap.get? m key :=
  FiniteMap.get?_of_perm (order.perm m) distinct key

end IterationOrder

end StructuredMergeDiff.Library
