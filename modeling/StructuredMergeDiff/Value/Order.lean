import Mathlib.Data.List.Forall2
import Mathlib.Data.List.Perm.Subperm
import Mathlib.Data.List.Sort
import StructuredMergeDiff.Library.FiniteMap
import StructuredMergeDiff.Library.MeasuredRecursion
import StructuredMergeDiff.Value.Basic

/-!
Contract: equality and order of values, as the source computes them.

`equals` and `compare` are independent walks of the two values. Over a
consistent number domain `compare` is a total preorder and `equals` is its
equivalence; over other domains neither holds.

Owns: `Value.equals`, `Value.compare`, `FieldList` with its own `Equals`,
`Compare` and `Sort`, and the order laws.
Does not own: the numeric comparison (`Value.Number`).
-/

namespace StructuredMergeDiff

open Library Std FiniteMap

variable {N : Type} [Numeric N]

namespace Value

/-! ## Equality -/

/-- `ListEqualsUsing`: same length and equal items. -/
def listEquals (equal : Value N → Value N → Bool) : List (Value N) → List (Value N) → Bool
  | [], [] => true
  | left :: lefts, right :: rights => equal left right && listEquals equal lefts rights
  | _, _ => false

/-- `MapEqualsUsing`: same number of keys, and every entry of the right map
is found in the left one. -/
def mapEquals (equal : Value N → Value N → Bool) (left right : List (String × Value N)) : Bool :=
  left.length == right.length &&
    right.all fun entry =>
      match lookupBy Prod.fst entry.1 left with
      | some found => equal found.2 entry.2
      | none => false

/-- The case distinction of `EqualsUsing`, with the recursive call open. -/
def equalsBody (equal : Value N × Value N → Bool) : Value N × Value N → Bool
  | (.number x, .number y) => equalNumbers x y
  | (.string s, .string t) => s == t
  | (.bool b, .bool c) => b == c
  | (.list xs, .list ys) => listEquals (fun x y => equal (x, y)) xs ys
  | (.map xs, .map ys) =>
      mapEquals (fun x y => equal (x, y)) (normalize xs) (normalize ys)
  | (.null, .null) => true
  | _ => false

/-- `Equals`. -/
def equals (left right : Value N) : Bool :=
  measured (fun pair => pair.1.depth) equalsBody (fun _ => true) (left, right)

instance : BEq (Value N) := ⟨equals⟩

/-! ## Order -/

/-- The position of a value's kind in the order of kinds. -/
def rank : Value N → Nat
  | .number _ => 0
  | .string _ => 1
  | .bool _ => 2
  | .list _ => 3
  | .map _ => 4
  | .null => 5

/-- The callback of `MapCompareUsing` along the zipped entries: `index` counts
the keys seen so far, all of which both maps had. -/
def mapCompareLoop (cmp : Value N → Value N → Ordering) (leftLength rightLength : Nat) :
    Nat → List (String × Option (Value N) × Option (Value N)) → Ordering
  | _, [] => .eq
  | index, (_, left, right) :: rest =>
      let c :=
        if index = leftLength then .lt
        else if index = rightLength then .gt
        else
          match left, right with
          | none, _ => .gt
          | _, none => .lt
          | some x, some y => cmp x y
      if c = .eq then mapCompareLoop cmp leftLength rightLength (index + 1) rest else c

/-- `MapCompareUsing`. -/
def mapCompare (cmp : Value N → Value N → Ordering) (left right : List (String × Value N)) :
    Ordering :=
  if left.length = 0 ∧ right.length = 0 then .eq
  else mapCompareLoop cmp left.length right.length 0 (mapZip left right)

/-- The case distinction of `CompareUsing`, with the recursive call open;
`List.compareLex` is the position by position loop of `ListCompareUsing`. -/
def compareBody (cmp : Value N × Value N → Ordering) : Value N × Value N → Ordering
  | (.number x, .number y) => compareNumbers x y
  | (.string s, .string t) => Ord.compare s t
  | (.bool b, .bool c) => Ord.compare b c
  | (.list xs, .list ys) => List.compareLex (fun x y => cmp (x, y)) xs ys
  | (.map xs, .map ys) =>
      mapCompare (fun x y => cmp (x, y)) (normalize xs) (normalize ys)
  | (.null, .null) => .eq
  | (left, right) => Ord.compare left.rank right.rank

/-- `Compare`. -/
def compare (left right : Value N) : Ordering :=
  measured (fun pair => pair.1.depth) compareBody (fun _ => .eq) (left, right)

instance : Ord (Value N) := ⟨compare⟩

/-! ## Maps compare by their entries in lexical order -/

/-- Keys first, then values. -/
def compareEntries (cmp : Value N → Value N → Ordering) (left right : String × Value N) :
    Ordering :=
  (Ord.compare left.1 right.1).then (cmp left.2 right.2)

omit [Numeric N] in
private theorem mapCompareLoop_eq (cmp : Value N → Value N → Ordering) :
    ∀ {left right : List (String × Value N)}, SortedBy Prod.fst left → SortedBy Prod.fst right →
      ∀ index : Nat,
        mapCompareLoop cmp (index + left.length) (index + right.length) index (mapZip left right) =
          List.compareLex (compareEntries cmp) left right
  | [], [], _, _, _ => rfl
  | [], y :: ys, _, sortedRight, index => by
      rw [mapZip_nil_cons sortedRight]
      simp [mapCompareLoop, List.compareLex_nil_cons]
  | x :: xs, [], sortedLeft, _, index => by
      rw [mapZip_cons_nil sortedLeft]
      simp [mapCompareLoop, List.compareLex_cons_nil]
  | x :: xs, y :: ys, sortedLeft, sortedRight, index => by
      have step := mapCompareLoop_eq cmp (List.Pairwise.of_cons sortedLeft)
        (List.Pairwise.of_cons sortedRight) (index + 1)
      rw [List.compareLex_cons_cons, compareEntries]
      cases keys : Ord.compare x.1 y.1 with
      | lt =>
          rw [mapZip_cons_lt sortedLeft sortedRight keys]
          simp [mapCompareLoop]
      | gt =>
          rw [mapZip_cons_gt sortedLeft sortedRight keys]
          simp [mapCompareLoop]
      | eq =>
          rw [mapZip_cons_eq sortedLeft sortedRight (LawfulEqCmp.eq_of_compare keys)]
          have leftGoesOn : index ≠ index + (x :: xs).length := by simp
          have rightGoesOn : index ≠ index + (y :: ys).length := by simp
          have leftLength : index + (x :: xs).length = index + 1 + xs.length := by
            simp only [List.length_cons]
            omega
          have rightLength : index + (y :: ys).length = index + 1 + ys.length := by
            simp only [List.length_cons]
            omega
          simp only [mapCompareLoop, if_neg leftGoesOn, if_neg rightGoesOn, Ordering.eq_then]
          rw [leftLength, rightLength, step]
          cases cmp x.2 y.2 <;> rfl

omit [Numeric N] in
theorem mapCompare_eq_compareLex (cmp : Value N → Value N → Ordering)
    {left right : List (String × Value N)} (sortedLeft : SortedBy Prod.fst left)
    (sortedRight : SortedBy Prod.fst right) :
    mapCompare cmp left right = List.compareLex (compareEntries cmp) left right := by
  unfold mapCompare
  split
  · rename_i empty
    rw [List.length_eq_zero_iff.mp empty.1, List.length_eq_zero_iff.mp empty.2]
    rfl
  · have loop := mapCompareLoop_eq cmp sortedLeft sortedRight 0
    simpa using loop

/-! ## Unfolding -/

omit [Numeric N] in
theorem listEquals_congr {first second : Value N → Value N → Bool} :
    ∀ (xs ys : List (Value N)), (∀ x ∈ xs, ∀ y, first x y = second x y) →
      listEquals first xs ys = listEquals second xs ys
  | [], [], _ => rfl
  | [], _ :: _, _ => rfl
  | _ :: _, [], _ => rfl
  | x :: xs, y :: ys, agree => by
      simp only [listEquals]
      rw [agree x (by simp) y,
        listEquals_congr xs ys (fun z member => agree z (by simp [member]))]

omit [Numeric N] in
theorem mapEquals_congr {first second : Value N → Value N → Bool}
    {xs : List (String × Value N)} (ys : List (String × Value N))
    (agree : ∀ x ∈ xs, ∀ y, first x.2 y = second x.2 y) :
    mapEquals first xs ys = mapEquals second xs ys := by
  unfold mapEquals
  congr 2
  funext entry
  cases found : lookupBy Prod.fst entry.1 xs with
  | none => rfl
  | some binding => exact agree binding (mem_of_lookupBy found) entry.2

private theorem compareLex_congr {α : Type} {first second : α → α → Ordering} :
    ∀ (xs ys : List α), (∀ x ∈ xs, ∀ y, first x y = second x y) →
      List.compareLex first xs ys = List.compareLex second xs ys
  | [], [], _ => rfl
  | [], _ :: _, _ => rfl
  | _ :: _, [], _ => rfl
  | x :: xs, y :: ys, agree => by
      rw [List.compareLex_cons_cons, List.compareLex_cons_cons, agree x (by simp) y,
        compareLex_congr xs ys (fun z member => agree z (by simp [member]))]

private theorem equalsBody_descends :
    Descends (fun pair : Value N × Value N => pair.1.depth) equalsBody := by
  rintro first second ⟨left, right⟩ agree
  cases left <;> cases right <;> simp only [equalsBody]
  case list.list xs ys =>
    exact listEquals_congr xs ys fun x member y =>
      agree (x, y) (depth_lt_of_mem_items (v := .list xs) member)
  case map.map xs ys =>
    exact mapEquals_congr _ fun x member y =>
      agree (x.2, y) (depth_lt_of_mem_entries (v := .map xs) member)

private theorem compareBody_descends :
    Descends (fun pair : Value N × Value N => pair.1.depth) compareBody := by
  rintro first second ⟨left, right⟩ agree
  cases left <;> cases right <;> simp only [compareBody]
  case list.list xs ys =>
    exact compareLex_congr xs ys fun x member y =>
      agree (x, y) (depth_lt_of_mem_items (v := .list xs) member)
  case map.map xs ys =>
    rw [mapCompare_eq_compareLex _ (normalize_sorted xs) (normalize_sorted ys),
      mapCompare_eq_compareLex _ (normalize_sorted xs) (normalize_sorted ys)]
    refine compareLex_congr _ _ fun x member y => ?_
    simp only [compareEntries,
      agree (x.2, y.2) (depth_lt_of_mem_entries (v := .map xs) member)]

theorem beq_eq_equalsBody (left right : Value N) :
    (left == right) = equalsBody (fun pair => pair.1 == pair.2) (left, right) :=
  measured_eq equalsBody_descends _ _

theorem compare_eq_compareBody (left right : Value N) :
    Ord.compare left right = compareBody (fun pair => Ord.compare pair.1 pair.2) (left, right) :=
  measured_eq compareBody_descends _ _

/-! ## The loops of equality and order -/

omit [Numeric N] in
theorem listEquals_iff {equal : Value N → Value N → Bool} :
    ∀ (xs ys : List (Value N)),
      listEquals equal xs ys = true ↔ List.Forall₂ (fun x y => equal x y = true) xs ys
  | [], [] => by simp [listEquals]
  | [], _ :: _ => by simp [listEquals]
  | _ :: _, [] => by simp [listEquals]
  | x :: xs, y :: ys => by simp [listEquals, listEquals_iff xs ys]

private theorem compareLex_eq_iff {α : Type} {cmp : α → α → Ordering} :
    ∀ (xs ys : List α),
      List.compareLex cmp xs ys = .eq ↔ List.Forall₂ (fun x y => cmp x y = .eq) xs ys
  | [], [] => by simp [List.compareLex_nil_nil]
  | [], _ :: _ => by simp [List.compareLex_nil_cons]
  | _ :: _, [] => by simp [List.compareLex_cons_nil]
  | x :: xs, y :: ys => by
      rw [List.compareLex_cons_cons, Ordering.then_eq_eq, compareLex_eq_iff xs ys]
      simp

theorem forall₂_congr_of_mem {α : Type} {first second : α → α → Prop} :
    ∀ (xs ys : List α), (∀ x ∈ xs, ∀ y, first x y ↔ second x y) →
      (List.Forall₂ first xs ys ↔ List.Forall₂ second xs ys)
  | [], [], _ => by simp
  | [], _ :: _, _ => by simp
  | _ :: _, [], _ => by simp
  | x :: xs, y :: ys, agree => by
      rw [List.forall₂_cons, List.forall₂_cons, agree x (by simp) y,
        forall₂_congr_of_mem xs ys (fun z member => agree z (by simp [member]))]

omit [Numeric N] in
private theorem keys_eq_of_subset {xs ys : List (String × Value N)}
    (sortedLeft : SortedBy Prod.fst xs) (sortedRight : SortedBy Prod.fst ys)
    (sameLength : xs.length = ys.length)
    (found : ∀ y ∈ ys, ∃ x ∈ xs, x.1 = y.1) : xs.map Prod.fst = ys.map Prod.fst := by
  have strict : ∀ {zs : List (String × Value N)}, SortedBy Prod.fst zs →
      (zs.map Prod.fst).Pairwise (fun s t => Ord.compare s t = .lt) := fun sorted =>
    List.pairwise_map.mpr sorted
  have distinct : ∀ {zs : List String}, zs.Pairwise (fun s t => Ord.compare s t = .lt) →
      zs.Nodup := fun sorted => sorted.imp (fun lt eq => by subst eq; simp at lt)
  have subset : ys.map Prod.fst ⊆ xs.map Prod.fst := by
    intro key member
    obtain ⟨y, inRight, rfl⟩ := List.mem_map.mp member
    obtain ⟨x, inLeft, sameKey⟩ := found y inRight
    exact List.mem_map.mpr ⟨x, inLeft, sameKey⟩
  have permutation : (xs.map Prod.fst).Perm (ys.map Prod.fst) := by
    refine (List.Subperm.perm_of_length_le ?_ (by simp [sameLength])).symm
    exact List.subperm_of_subset (distinct (strict sortedRight)) subset
  refine List.Perm.eq_of_pairwise ?_ (strict sortedLeft) (strict sortedRight) permutation
  intro s t _ _ lt gt
  have loop := TransCmp.lt_trans lt gt
  simp at loop

omit [Numeric N] in
theorem mapEquals_iff {equal : Value N → Value N → Bool}
    {xs ys : List (String × Value N)}
    (sortedLeft : SortedBy Prod.fst xs) (sortedRight : SortedBy Prod.fst ys) :
    mapEquals equal xs ys = true ↔
      List.Forall₂ (fun x y => x.1 = y.1 ∧ equal x.2 y.2 = true) xs ys := by
  have lookup : ∀ y : String × Value N,
      (match lookupBy Prod.fst y.1 xs with
        | some found => equal found.2 y.2
        | none => false) = true ↔ ∃ x ∈ xs, x.1 = y.1 ∧ equal x.2 y.2 = true := by
    intro y
    constructor
    · intro holds
      cases found : lookupBy Prod.fst y.1 xs with
      | none => simp [found] at holds
      | some x =>
          exact ⟨x, mem_of_lookupBy found, by simpa using key_of_lookupBy found,
            by simpa [found] using holds⟩
    · rintro ⟨x, member, sameKey, holds⟩
      rw [lookupBy_of_mem sortedLeft member (by simp [sameKey])]
      exact holds
  unfold mapEquals
  rw [Bool.and_eq_true, List.all_eq_true]
  simp only [lookup, beq_iff_eq]
  constructor
  · rintro ⟨sameLength, found⟩
    have keys := keys_eq_of_subset sortedLeft sortedRight sameLength
      (fun y member => by
        obtain ⟨x, inLeft, sameKey, -⟩ := found y member
        exact ⟨x, inLeft, sameKey⟩)
    rw [List.forall₂_iff_get]
    refine ⟨sameLength, fun index inLeft inRight => ?_⟩
    obtain ⟨x, member, sameKey, holds⟩ := found (ys.get ⟨index, inRight⟩) (List.get_mem _ _)
    have keyAt : (xs.get ⟨index, inLeft⟩).1 = (ys.get ⟨index, inRight⟩).1 := by
      have := congrArg (fun keys => keys[index]?) keys
      simpa [inLeft, inRight] using this
    have sameEntry : lookupBy Prod.fst (ys.get ⟨index, inRight⟩).1 xs =
        some (xs.get ⟨index, inLeft⟩) :=
      lookupBy_of_mem sortedLeft (List.get_mem _ _) (by simpa using keyAt)
    rw [lookupBy_of_mem sortedLeft member (by simpa using sameKey)] at sameEntry
    cases sameEntry
    exact ⟨keyAt, holds⟩
  · intro pairwise
    refine ⟨pairwise.length_eq, fun y member => ?_⟩
    obtain ⟨index, inside, rfl⟩ := List.getElem_of_mem member
    have inLeft : index < xs.length := by rw [pairwise.length_eq]; exact inside
    have := (List.forall₂_iff_get.mp pairwise).2 index inLeft inside
    exact ⟨xs.get ⟨index, inLeft⟩, List.get_mem _ _, this⟩

/-! ## Equality by parts -/

theorem beq_list {xs ys : List (Value N)} :
    ((Value.list xs : Value N) == .list ys) = true ↔
      List.Forall₂ (fun x y => (x == y) = true) xs ys := by
  rw [beq_eq_equalsBody]
  exact listEquals_iff xs ys

section

omit [Numeric N]

theorem get?_eq_lookupBy (bindings : List (String × Value N)) (key : String) :
    FiniteMap.get? bindings key = (lookupBy Prod.fst key bindings).map Prod.snd := by
  induction bindings with
  | nil => rfl
  | cons binding rest ih =>
      rw [get?_cons, lookupBy_cons, ih]
      by_cases same : binding.1 = key <;> simp [same]

theorem get?_normalize (bindings : List (String × Value N)) (key : String) :
    FiniteMap.get? (normalize bindings) key = FiniteMap.get? bindings key := by
  rw [get?_eq_lookupBy, get?_eq_lookupBy, lookupBy_normalize]

theorem normalize_distinct (bindings : List (String × Value N)) :
    FiniteMap.Distinct (normalize bindings) :=
  (keys_increasing (normalize_sorted bindings)).imp LT.lt.ne

end

/-- Two maps are equal if they have the same keys, with equal values. -/
theorem beq_map_iff_agree {xs ys : List (String × Value N)} :
    (Value.map xs == Value.map ys) = true ↔
      FiniteMap.Agree (fun x y => (x == y) = true) xs ys := by
  have normalized : FiniteMap.Agree (fun x y : Value N => (x == y) = true) xs ys ↔
      FiniteMap.Agree (fun x y => (x == y) = true) (normalize xs) (normalize ys) := by
    simp only [FiniteMap.Agree, get?_normalize]
  rw [normalized, agree_iff_found (normalize_distinct xs) (normalize_distinct ys),
    beq_eq_equalsBody, equalsBody, mapEquals, Bool.and_eq_true, beq_iff_eq, List.all_eq_true]
  refine and_congr_right fun _ => forall₂_congr fun entry _ => ?_
  rw [get?_eq_lookupBy]
  cases lookupBy Prod.fst entry.1 (normalize xs) with
  | none => simp
  | some found => simp

/-- Two values that may be absent are both absent, or equal. -/
def SameOption (x y : Option (Value N)) : Prop :=
  Option.Rel (fun x y => (x == y) = true) x y

theorem SameOption.isSome_eq {x y : Option (Value N)} (same : SameOption x y) :
    x.isSome = y.isSome := by
  cases same <;> rfl

/-- Maps are equal if they have equal values under the same keys. -/
theorem beq_map_iff {xs ys : List (String × Value N)} :
    ((Value.map xs : Value N) == .map ys) = true ↔
      ∀ name, SameOption ((Value.map xs).get? name) ((Value.map ys).get? name) := by
  have read (zs : List (String × Value N)) (name : String) :
      (Value.map zs).get? name = FiniteMap.get? zs name := by
    rw [get?_eq_lookupBy, get?, entries, lookupBy_normalize]
  simp only [beq_map_iff_agree, FiniteMap.Agree, read, SameOption]

/-- Equality is reflexive and symmetric over every number domain; it is transitive
over consistent ones only. -/
theorem beq_refl (v : Value N) : (v == v) = true := by
  cases v with
  | null => rfl
  | bool b => rw [beq_eq_equalsBody]; exact beq_self_eq_true b
  | number n =>
      rw [beq_eq_equalsBody]
      exact (compareNumbers_eq_iff n n).mp (compareNumbers_self n)
  | string s => rw [beq_eq_equalsBody]; exact beq_self_eq_true s
  | list xs => exact beq_list.mpr (List.forall₂_same.mpr fun x member => beq_refl x)
  | map xs =>
      refine beq_map_iff_agree.mpr fun key => ?_
      cases found : FiniteMap.get? xs key with
      | none => exact .none
      | some x => exact .some (beq_refl x)
termination_by v.depth
decreasing_by
  · exact Nat.lt_succ_of_le (depth_le_depthItems member)
  · exact Nat.lt_succ_of_le (depth_le_depthBindings (mem_of_get? found))

theorem beq_comm (left right : Value N) : (left == right) = (right == left) := by
  have numbers (x y : N) : equalNumbers x y = equalNumbers y x := by
    rw [Bool.eq_iff_iff, ← compareNumbers_eq_iff, ← compareNumbers_eq_iff, compareNumbers_swap x y]
    cases compareNumbers y x <;> simp
  rw [beq_eq_equalsBody left right, beq_eq_equalsBody right left]
  cases left <;> cases right
  case list.list xs ys =>
    have items : ∀ x ∈ xs, ∀ y, (x == y) = true ↔ (y == x) = true := fun x member y => by
      rw [beq_comm x y]
    rw [← beq_eq_equalsBody, ← beq_eq_equalsBody, Bool.eq_iff_iff, beq_list, beq_list,
      forall₂_congr_of_mem _ _ items]
    exact ⟨List.Forall₂.flip, List.Forall₂.flip⟩
  case map.map xs ys =>
    have entries : ∀ x ∈ xs, ∀ y, (x.2 == y) = (y == x.2) := fun x member y => beq_comm x.2 y
    rw [← beq_eq_equalsBody, ← beq_eq_equalsBody, Bool.eq_iff_iff, beq_map_iff_agree,
      beq_map_iff_agree]
    refine forall_congr' fun key => ?_
    cases found : FiniteMap.get? xs key <;> cases FiniteMap.get? ys key
    case some.some x y => simp [entries _ (mem_of_get? found) y]
    all_goals simp
  case number.number x y => exact numbers x y
  case string.string s t => exact BEq.comm
  case bool.bool b c => exact BEq.comm
  all_goals rfl
termination_by left.depth
decreasing_by
  · exact Nat.lt_succ_of_le (depth_le_depthItems member)
  · exact Nat.lt_succ_of_le (depth_le_depthBindings member)

/-! ## Equality is the equivalence of the order -/

private theorem compare_eq_iff_equals (left right : Value N) :
    Ord.compare left right = .eq ↔ (left == right) = true := by
  rw [compare_eq_compareBody, beq_eq_equalsBody]
  cases left <;> cases right <;> simp only [compareBody, equalsBody]
  case number.number x y => exact compareNumbers_eq_iff x y
  case string.string s t => simp
  case bool.bool b c => simp
  case list.list xs ys =>
    rw [compareLex_eq_iff, listEquals_iff]
    exact forall₂_congr_of_mem _ _ fun x member y => compare_eq_iff_equals x y
  case map.map xs ys =>
    rw [mapCompare_eq_compareLex _ (normalize_sorted xs) (normalize_sorted ys),
      compareLex_eq_iff, mapEquals_iff (normalize_sorted xs) (normalize_sorted ys)]
    refine forall₂_congr_of_mem _ _ fun x member y => ?_
    simp only [compareEntries, Ordering.then_eq_eq, LawfulEqOrd.compare_eq_iff_eq]
    rw [compare_eq_iff_equals x.2 y.2]
  all_goals simp [rank]
termination_by left.depth
decreasing_by
  · exact depth_lt_of_mem_items (v := .list _) member
  · exact depth_lt_of_mem_entries (v := .map _) member

instance : LawfulBEqOrd (Value N) := ⟨compare_eq_iff_equals _ _⟩

/-! ## Transitivity over consistent numbers -/

omit [Numeric N] in
private theorem compareEntries_trans {cmp : Value N → Value N → Ordering} (trans : TransCmp cmp) :
    TransCmp (compareEntries cmp) := by
  have lexical : compareEntries cmp =
      compareLex (fun left right : String × Value N => Ord.compare left.1 right.1)
        (fun left right => cmp left.2 right.2) := rfl
  have keys : TransCmp (fun left right : String × Value N => Ord.compare left.1 right.1) :=
    { eq_swap := OrientedCmp.eq_swap, isLE_trans := TransCmp.isLE_trans }
  have values : TransCmp (fun left right : String × Value N => cmp left.2 right.2) :=
    { eq_swap := OrientedCmp.eq_swap, isLE_trans := TransCmp.isLE_trans }
  rw [lexical]
  infer_instance

private theorem compareBody_of_rank_ne (cmp : Value N × Value N → Ordering)
    {left right : Value N} (different : left.rank ≠ right.rank) :
    compareBody cmp (left, right) = Ord.compare left.rank right.rank := by
  cases left <;> cases right <;> first | rfl | exact absurd rfl different

private theorem rank_le_of_isLE {cmp : Value N × Value N → Ordering} {left right : Value N}
    (le : (compareBody cmp (left, right)).isLE) : left.rank ≤ right.rank := by
  by_cases same : left.rank = right.rank
  · exact Nat.le_of_eq same
  · rwa [compareBody_of_rank_ne cmp same, Nat.isLE_compare] at le

private theorem compareBody_trans [Consistent N] {cmp : Value N × Value N → Ordering}
    (trans : TransCmp fun left right => cmp (left, right)) :
    TransCmp fun left right => compareBody cmp (left, right) := by
  have entries := compareEntries_trans trans
  refine { eq_swap := ?_, isLE_trans := ?_ }
  · intro left right
    cases left <;> cases right <;> simp only [compareBody, rank,
      mapCompare_eq_compareLex _ (normalize_sorted _) (normalize_sorted _)] <;>
      first
        | exact OrientedCmp.eq_swap
        | rfl
  · intro first second third firstLE secondLE
    have lower := rank_le_of_isLE firstLE
    have upper := rank_le_of_isLE secondLE
    by_cases eq : first.rank = third.rank
    · -- all three are of one kind
      have sameKind : first.rank = second.rank := by omega
      cases first <;> cases second <;> simp [rank] at sameKind
      all_goals cases third <;> simp [rank] at eq
      all_goals simp only [compareBody,
        mapCompare_eq_compareLex _ (normalize_sorted _) (normalize_sorted _)]
        at firstLE secondLE ⊢
      all_goals first | rfl | exact TransCmp.isLE_trans firstLE secondLE
    · rw [compareBody_of_rank_ne cmp eq, Nat.isLE_compare]
      omega

private theorem unroll_trans [Consistent N] (fuel : Nat) :
    TransCmp fun left right : Value N =>
      unroll compareBody (fun _ => Ordering.eq) fuel (left, right) := by
  induction fuel with
  | zero => exact { eq_swap := rfl, isLE_trans := fun _ _ => rfl }
  | succ fuel ih => exact compareBody_trans ih

private theorem compare_eq_unroll (left right : Value N) (fuel : Nat)
    (enough : left.depth < fuel) :
    Ord.compare left right = unroll compareBody (fun _ => Ordering.eq) fuel (left, right) :=
  (unroll_eq_measured compareBody_descends _ enough).symm

instance [Consistent N] : TransOrd (Value N) where
  eq_swap := by
    intro left right
    rw [compare_eq_unroll left right (left.depth + right.depth + 1) (by omega),
      compare_eq_unroll right left (left.depth + right.depth + 1) (by omega)]
    exact (unroll_trans _).eq_swap
  isLE_trans := by
    intro first second third
    rw [compare_eq_unroll first second (first.depth + second.depth + 1) (by omega),
      compare_eq_unroll second third (first.depth + second.depth + 1) (by omega),
      compare_eq_unroll first third (first.depth + second.depth + 1) (by omega)]
    exact (unroll_trans _).isLE_trans

end Value

/-! ## Field lists -/

/-- One named value of a list item's key. -/
structure Field (N : Type) where
  name : String
  value : Value N
deriving Repr

/-- The named values that identify an item of a keyed list. -/
structure FieldList (N : Type) where
  fields : List (Field N)
deriving Repr

namespace FieldList

/-- `Sort`: stable, by name. -/
def sort (list : FieldList N) : FieldList N :=
  ⟨list.fields.insertionSort fun left right => left.name ≤ right.name⟩

def compareField (left right : Field N) : Ordering :=
  (Ord.compare left.name right.name).then (Ord.compare left.value right.value)

/-- `Compare`: lexical, names before values at each position. -/
def compare (left right : FieldList N) : Ordering :=
  List.compareLex compareField left.fields right.fields

def equalsField (left right : Field N) : Bool :=
  left.name == right.name && left.value == right.value

/-- `Equals`: same length, and the same name and value at each position. -/
def equals (left right : FieldList N) : Bool :=
  left.fields.length == right.fields.length &&
    (left.fields.zip right.fields).all fun pair => equalsField pair.1 pair.2

instance : BEq (FieldList N) := ⟨equals⟩

instance : Ord (FieldList N) := ⟨compare⟩

instance : LawfulBEqOrd (FieldList N) where
  compare_eq_iff_beq := by
    intro left right
    change List.compareLex compareField left.fields right.fields = .eq ↔
      left.equals right = true
    unfold equals
    rw [Value.compareLex_eq_iff, List.forall₂_iff_zip]
    simp [compareField, equalsField, Ordering.then_eq_eq, compare_eq_iff_beq]

instance [Consistent N] : TransOrd (FieldList N) := by
  have names : TransCmp (fun left right : Field N => Ord.compare left.name right.name) :=
    { eq_swap := OrientedCmp.eq_swap, isLE_trans := TransCmp.isLE_trans }
  have values : TransCmp (fun left right : Field N => Ord.compare left.value right.value) :=
    { eq_swap := OrientedCmp.eq_swap, isLE_trans := TransCmp.isLE_trans }
  have lexical : TransCmp (compareField (N := N)) :=
    inferInstanceAs (TransCmp (compareLex _ _))
  have lists : TransCmp (List.compareLex (compareField (N := N))) := inferInstance
  exact { eq_swap := lists.eq_swap, isLE_trans := lists.isLE_trans }

end FieldList

end StructuredMergeDiff
