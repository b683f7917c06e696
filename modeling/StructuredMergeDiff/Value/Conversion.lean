import StructuredMergeDiff.Library.Pairing
import StructuredMergeDiff.Value.Order

/-!
Contract: values with other numbers in the same places.

Values are compared number by number. If the numbers of two pairs of values compare in
the same way, so do the values.

Owns: `mapNumbers` of values and of field lists, how it goes with comparison, and that
sorting keeps equal field lists equal.
-/

namespace StructuredMergeDiff

open Library Std

namespace Value

variable {N M P Q : Type}

mutual

/-- The value with each number replaced. -/
def mapNumbers (f : N → M) : Value N → Value M
  | .null => .null
  | .bool b => .bool b
  | .number n => .number (f n)
  | .string s => .string s
  | .list items => .list (mapNumbersItems f items)
  | .map bindings => .map (mapNumbersBindings f bindings)

def mapNumbersItems (f : N → M) : List (Value N) → List (Value M)
  | [] => []
  | item :: rest => item.mapNumbers f :: mapNumbersItems f rest

def mapNumbersBindings (f : N → M) : List (String × Value N) → List (String × Value M)
  | [] => []
  | (key, v) :: rest => (key, v.mapNumbers f) :: mapNumbersBindings f rest

end

/-- The binding of a map with each number replaced. -/
def mapBinding (f : N → M) (binding : String × Value N) : String × Value M :=
  (binding.1, binding.2.mapNumbers f)

theorem mapNumbersItems_eq (f : N → M) (items : List (Value N)) :
    mapNumbersItems f items = items.map (mapNumbers f) := by
  induction items with
  | nil => rfl
  | cons item rest ih => rw [mapNumbersItems, ih, List.map_cons]

theorem mapNumbersBindings_eq (f : N → M) (bindings : List (String × Value N)) :
    mapNumbersBindings f bindings = bindings.map (mapBinding f) := by
  induction bindings with
  | nil => rfl
  | cons binding rest ih =>
      rw [mapNumbersBindings, ih, List.map_cons]
      rfl

theorem normalize_mapBinding (f : N → M) (bindings : List (String × Value N)) :
    normalize (bindings.map (mapBinding f)) = (normalize bindings).map (mapBinding f) := by
  induction bindings with
  | nil => rfl
  | cons binding rest ih =>
      show insertBy Prod.fst (mapBinding f ("", .null)) (fun _ => mapBinding f binding)
        (mapBinding f binding) (normalize (rest.map (mapBinding f))) = _
      rw [ih]
      exact insertBy_map (fun _ _ => rfl) (fun _ _ => rfl) (fun _ => rfl)

theorem compareLex_map {α β γ δ : Type} {cmp : γ → γ → Ordering} {cmp' : δ → δ → Ordering}
    {f : α → γ} {g : β → γ} {f' : α → δ} {g' : β → δ} {xs : List α} {ys : List β}
    (agree : ∀ x ∈ xs, ∀ y ∈ ys, cmp (f x) (g y) = cmp' (f' x) (g' y)) :
    List.compareLex cmp (xs.map f) (ys.map g) = List.compareLex cmp' (xs.map f') (ys.map g') := by
  induction xs generalizing ys with
  | nil => cases ys <;> simp [List.compareLex]
  | cons x xs ih =>
      cases ys with
      | nil => simp [List.compareLex]
      | cons y ys =>
          simp only [List.map_cons, List.compareLex_cons_cons]
          rw [agree x (by simp) y (by simp), ih fun x' inLeft y' inRight =>
            agree x' (by simp [inLeft]) y' (by simp [inRight])]

mutual

theorem mapNumbers_id (v : Value N) : v.mapNumbers id = v := by
  cases v with
  | list items => rw [mapNumbers, mapNumbersItems_id]
  | map bindings => rw [mapNumbers, mapNumbersBindings_id]
  | _ => rfl

theorem mapNumbersItems_id (items : List (Value N)) : mapNumbersItems id items = items := by
  cases items with
  | nil => rfl
  | cons item rest => rw [mapNumbersItems, mapNumbers_id, mapNumbersItems_id]

theorem mapNumbersBindings_id (bindings : List (String × Value N)) :
    mapNumbersBindings id bindings = bindings := by
  cases bindings with
  | nil => rfl
  | cons binding rest =>
      obtain ⟨key, v⟩ := binding
      rw [mapNumbersBindings, mapNumbers_id, mapNumbersBindings_id]

end

section Compare

variable [Numeric P] [Numeric Q] {f : N → P} {g : M → P} {f' : N → Q} {g' : M → Q}

theorem compare_mapNumbers
    (agree : ∀ n m, compareNumbers (f n) (g m) = compareNumbers (f' n) (g' m))
    (v : Value N) (w : Value M) :
    Ord.compare (v.mapNumbers f) (w.mapNumbers g) =
      Ord.compare (v.mapNumbers f') (w.mapNumbers g') := by
  rw [compare_eq_compareBody, compare_eq_compareBody]
  cases v <;> cases w <;> simp only [mapNumbers, compareBody, rank]
  case number.number n m => exact agree n m
  case list.list xs ys =>
    rw [mapNumbersItems_eq, mapNumbersItems_eq, mapNumbersItems_eq, mapNumbersItems_eq]
    exact compareLex_map fun x member y _ => compare_mapNumbers agree x y
  case map.map xs ys =>
    rw [mapCompare_eq_compareLex _ (normalize_sorted _) (normalize_sorted _),
      mapCompare_eq_compareLex _ (normalize_sorted _) (normalize_sorted _)]
    simp only [mapNumbersBindings_eq, normalize_mapBinding]
    refine compareLex_map fun x member y _ => ?_
    simp only [compareEntries, mapBinding, compare_mapNumbers agree x.2 y.2]
termination_by v.depth
decreasing_by
  · exact depth_lt_of_mem_items (v := .list _) member
  · exact depth_lt_of_mem_entries (v := .map _) member

end Compare

/-- Equal values stay equal if equal numbers do. -/
theorem beq_mapNumbers [Numeric N] [Numeric M] {f : N → M}
    (respects : ∀ {n m}, equalNumbers n m = true → equalNumbers (f n) (f m) = true)
    (v w : Value N) : (v == w) = true → (v.mapNumbers f == w.mapNumbers f) = true := by
  rw [beq_eq_equalsBody, beq_eq_equalsBody]
  cases v <;> cases w <;> simp only [mapNumbers, equalsBody, Bool.false_eq_true, false_imp_iff] <;>
    intro same
  case number.number n m => exact respects same
  case list.list xs ys =>
    rw [listEquals_iff] at same ⊢
    rw [mapNumbersItems_eq, mapNumbersItems_eq, List.forall₂_map_left_iff,
      List.forall₂_map_right_iff]
    exact forall₂_of_mem same fun x member y _ equal => beq_mapNumbers respects x y equal
  case map.map xs ys =>
    rw [mapEquals_iff (normalize_sorted _) (normalize_sorted _)] at same ⊢
    rw [mapNumbersBindings_eq, mapNumbersBindings_eq, normalize_mapBinding, normalize_mapBinding,
      List.forall₂_map_left_iff, List.forall₂_map_right_iff]
    exact forall₂_of_mem same fun x member y _ equal =>
      ⟨equal.1, beq_mapNumbers respects x.2 y.2 equal.2⟩
  all_goals exact same
termination_by v.depth
decreasing_by
  · exact depth_lt_of_mem_items (v := .list _) member
  · exact depth_lt_of_mem_entries (v := .map _) member

end Value

/-! ## Field lists -/

namespace FieldList

variable {N M P Q : Type}

/-- The key field with each number replaced. -/
def mapField (f : N → M) (field : Field N) : Field M :=
  { name := field.name, value := field.value.mapNumbers f }

/-- The field list with each number replaced. -/
def mapNumbers (f : N → M) (list : FieldList N) : FieldList M :=
  ⟨list.fields.map (mapField f)⟩

theorem mapNumbers_id (list : FieldList N) : list.mapNumbers id = list := by
  have same : mapField (id : N → N) = id := by
    funext field
    rw [mapField, Value.mapNumbers_id, id]
  rw [mapNumbers, same, List.map_id]

theorem compare_mapNumbers [Numeric P] [Numeric Q] {f : N → P} {g : M → P} {f' : N → Q}
    {g' : M → Q} (agree : ∀ n m, compareNumbers (f n) (g m) = compareNumbers (f' n) (g' m))
    (left : FieldList N) (right : FieldList M) :
    Ord.compare (left.mapNumbers f) (right.mapNumbers g) =
      Ord.compare (left.mapNumbers f') (right.mapNumbers g') := by
  apply Value.compareLex_map
  intro x _ y _
  simp only [compareField, mapField, Value.compare_mapNumbers agree x.value y.value]

section Equality

variable [Numeric N]

theorem beq_iff_forall₂ (left right : FieldList N) : (left == right) = true ↔
    List.Forall₂ (fun x y => equalsField x y = true) left.fields right.fields := by
  show left.equals right = true ↔ _
  rw [equals, List.forall₂_iff_zip]
  simp

theorem beq_mapNumbers [Numeric M] {f : N → M}
    (respects : ∀ {n m}, equalNumbers n m = true → equalNumbers (f n) (f m) = true)
    {left right : FieldList N} (same : (left == right) = true) :
    (left.mapNumbers f == right.mapNumbers f) = true := by
  rw [beq_iff_forall₂] at same ⊢
  rw [mapNumbers, mapNumbers, List.forall₂_map_left_iff, List.forall₂_map_right_iff]
  refine same.imp fun x y equal => ?_
  simp only [equalsField, mapField, Bool.and_eq_true] at equal ⊢
  exact ⟨equal.1, Value.beq_mapNumbers respects _ _ equal.2⟩

private theorem orderedInsert_equal {x y : Field N} (head : equalsField x y = true)
    {xs ys : List (Field N)} (tail : List.Forall₂ (fun x y => equalsField x y = true) xs ys) :
    List.Forall₂ (fun x y => equalsField x y = true)
      (xs.orderedInsert (fun left right => left.name ≤ right.name) x)
      (ys.orderedInsert (fun left right => left.name ≤ right.name) y) := by
  have sameName : ∀ {x y : Field N}, equalsField x y = true → x.name = y.name := by
    intro x y equal
    simp only [equalsField, Bool.and_eq_true, beq_iff_eq] at equal
    exact equal.1
  induction tail with
  | nil => exact .cons head .nil
  | cons equal rest ih =>
      simp only [List.orderedInsert, sameName head, sameName equal]
      split
      · exact .cons head (.cons equal rest)
      · exact .cons equal ih

/-- The order in which fields are sorted depends on their names only. -/
theorem sort_beq {left right : FieldList N} (same : (left == right) = true) :
    (left.sort == right.sort) = true := by
  obtain ⟨xs⟩ := left
  obtain ⟨ys⟩ := right
  rw [beq_iff_forall₂] at same ⊢
  show List.Forall₂ _ (xs.insertionSort _) (ys.insertionSort _)
  dsimp only at same
  induction same with
  | nil => exact .nil
  | cons head _ ih => exact orderedInsert_equal head ih

end Equality

theorem sort_sort (list : FieldList N) : list.sort.sort = list.sort := by
  have total : Std.Total fun left right : Field N => left.name ≤ right.name :=
    ⟨fun left right => le_total left.name right.name⟩
  have trans : IsTrans (Field N) fun left right => left.name ≤ right.name :=
    ⟨fun _ _ _ first second => String.le_trans first second⟩
  unfold sort
  rw [(List.pairwise_insertionSort _ _).insertionSort_eq]

end FieldList

end StructuredMergeDiff
