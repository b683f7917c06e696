import StructuredMergeDiff.FieldPath.Element

/-!
Contract: the laws of the order on values and path elements.

The sorted slices of the field sets rest on these laws. They hold without floats.
Where an integer is compared with a float it is rounded first, and a float can lie
between two integers that both round to it.

Owns: that the order without floats is total and lexicographic, and the triples of
numbers on which it is not transitive.
-/

namespace StructuredMergeDiff

open Std Value

/-! ## Orders without floats -/

/-- A comparison is a total order whose equivalence is the equality. -/
structure TotallyOrders {α : Type} (cmp : α → α → Ordering) (equal : α → α → Bool) : Prop where
  antisymmetric : ∀ a b, cmp a b = (cmp b a).swap
  transitive : ∀ a b c, (cmp a b).isLE = true → (cmp b c).isLE = true → (cmp a c).isLE = true
  eq_iff : ∀ a b, cmp a b = .eq ↔ equal a b = true

theorem totallyOrders_of_lawful {α : Type} [Ord α] [BEq α] [TransOrd α] [LawfulBEqOrd α] :
    TotallyOrders (α := α) Ord.compare (· == ·) where
  antisymmetric _ _ := OrientedCmp.eq_swap
  transitive _ _ _ := TransCmp.isLE_trans
  eq_iff _ _ := compare_eq_iff_beq

theorem Value.compare_list {N : Type} [Numeric N] (xs ys : List (Value N)) :
    Ord.compare (Value.list xs) (.list ys) = List.compareLex Ord.compare xs ys := by
  rw [compare_eq_compareBody]
  rfl

/-- Maps compare by their entries in the order of the keys. -/
theorem Value.compare_map {N : Type} [Numeric N] (xs ys : List (String × Value N)) :
    Ord.compare (Value.map xs) (.map ys) =
      List.compareLex (compareEntries Ord.compare) (Value.map xs).entries (Value.map ys).entries := by
  rw [compare_eq_compareBody]
  exact mapCompare_eq_compareLex _ (normalize_sorted xs) (normalize_sorted ys)

/-- Values and path elements without floats are totally ordered, lists and maps
lexicographically. -/
theorem values_and_path_elements_totally_ordered :
    TotallyOrders (α := Value Int) Ord.compare (· == ·) ∧
      (∀ xs ys : List (Value Int),
        Ord.compare (Value.list xs) (.list ys) = List.compareLex Ord.compare xs ys) ∧
      (∀ xs ys : List (String × Value Int),
        ((Value.map xs).entries.map Prod.fst).Pairwise (· < ·) ∧
          Ord.compare (Value.map xs) (.map ys) =
            List.compareLex (fun first second =>
                (Ord.compare first.1 second.1).then (Ord.compare first.2 second.2))
              (Value.map xs).entries (Value.map ys).entries) ∧
      TotallyOrders (α := PathElement Int) Ord.compare (· == ·) := by
  refine ⟨totallyOrders_of_lawful, Value.compare_list, fun xs ys => ⟨?_, ?_⟩,
    totallyOrders_of_lawful⟩
  · exact Value.keys_increasing (Value.entries_sorted _)
  · exact Value.compare_map xs ys

/-! ## Integers and floats -/

/-- The laws of an order, for three numbers. -/
structure TransitiveAt (a b c : Number) : Prop where
  ofEq : Ord.compare (Value.number a) (.number b) = .eq →
    Ord.compare (Value.number b) (.number c) = .eq → Ord.compare (Value.number a) (.number c) = .eq
  ofLE : (Ord.compare (Value.number a) (.number b)).isLE = true →
    (Ord.compare (Value.number b) (.number c)).isLE = true →
    (Ord.compare (Value.number a) (.number c)).isLE = true
  ofEquals : (Value.number a == .number b) = true → (Value.number b == .number c) = true →
    (Value.number a == .number c) = true

theorem Value.compare_number {N : Type} [Numeric N] (x y : N) :
    Ord.compare (Value.number x) (.number y) = compareNumbers x y := by
  rw [compare_eq_compareBody]
  rfl

theorem Value.beq_number {N : Type} [Numeric N] (x y : N) :
    ((Value.number x) == .number y) = equalNumbers x y := by
  rw [beq_eq_equalsBody]
  rfl

/-- An equality is two inequalities, so both laws follow from the one for inequalities. -/
theorem transitiveAt_iff {a b c : Number} : TransitiveAt a b c ↔
    ((compareNumbers a b).isLE = true → (compareNumbers b c).isLE = true →
      (compareNumbers a c).isLE = true) ∧
    (compareNumbers a b = .eq → compareNumbers b c = .eq → compareNumbers a c = .eq) := by
  constructor
  · intro transitive
    simpa only [compare_number] using And.intro transitive.ofLE transitive.ofEq
  · intro ⟨ofLE, ofEq⟩
    refine ⟨?_, ?_, ?_⟩
    · simpa only [compare_number] using ofEq
    · simpa only [compare_number] using ofLE
    · simpa only [beq_number, ← compareNumbers_eq_iff] using ofEq

/-- Only a float between two integers that round to it breaks the laws. -/
theorem number_order_transitive_iff (a b c : Number) :
    TransitiveAt a b c ↔ ¬ RoundsBetween a b c := by
  rw [transitiveAt_iff]
  constructor
  · intro ⟨_, ofEq⟩ rounds
    match a, b, c, rounds with
    | .int i, .float q, .int j, ⟨left, right, different⟩ =>
        have same : compareNumbers (Number.int i) (.int j) = .eq :=
          ofEq (Std.compare_eq_iff_eq.mpr left) (Std.compare_eq_iff_eq.mpr right.symm)
        exact different (Std.compare_eq_iff_eq.mp same)
  · intro apart
    refine ⟨Number.compare_isLE_trans apart, fun first second => ?_⟩
    have numbers : ∀ x y : Number, compareNumbers x y = x.compare y := fun _ _ => rfl
    simp only [numbers] at first second ⊢
    cases a <;> cases b <;> cases c <;>
      simp only [Number.compare, Std.compare_eq_iff_eq] at first second ⊢
    case int.float.int i q j =>
      by_contra different
      exact apart ⟨first, second.symm, different⟩
    all_goals first | exact first.trans second | rw [first, second]

/-- The float 2 ^ 53 equals two integers that are not equal. -/
theorem number_order_not_transitive :
    ¬ TransitiveAt (.int 9007199254740993) (.float 9007199254740992) (.int 9007199254740992) := by
  rw [transitiveAt_iff]
  decide +kernel

end StructuredMergeDiff
