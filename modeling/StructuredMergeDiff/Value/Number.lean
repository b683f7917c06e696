import Mathlib.Algebra.Order.Ring.Rat
import Mathlib.Tactic.Linarith

/-!
Contract: the numbers a value can hold, and how they are compared.

A value holds an `int64` or a `float64`. Two integers are compared exactly,
but as soon as one side is a float the integer is first rounded to the nearest
float. A float is represented by the rational it denotes.

Owns:
- `float64`, the conversion Go applies to the integer, and its monotonicity;
- the numeric cases of `Equals` and `Compare`;
- `Consistent`, the number domains on which the comparison is an order.

Does not own: NaN and the infinities, which no JSON document can hold.
-/

namespace StructuredMergeDiff

/-- A number as the source stores it. -/
inductive Number where
  | int (i : Int)
  | float (q : ℚ)
deriving DecidableEq, Repr

/-! ## Conversion of an integer to a float -/

/-- The multiple of `unit` nearest to `n`, in units; ties go to the even one. -/
def roundHalfEven (n unit : Nat) : Nat :=
  if 2 * (n % unit) < unit ∨ 2 * (n % unit) = unit ∧ n / unit % 2 = 0 then n / unit
  else n / unit + 1

/-- The spacing of the floats at the magnitude of `n`: a significand has 53 bits. -/
def spacing (n : Nat) : Nat :=
  2 ^ (n.log2 - 52)

/-- Rounding of a magnitude to 53 significant bits. -/
def roundMagnitude (n : Nat) : Nat :=
  roundHalfEven n (spacing n) * spacing n

/-- Go's conversion `float64(i)`. -/
def float64 : Int → ℚ
  | .ofNat n => (roundMagnitude n : ℚ)
  | .negSucc n => -(roundMagnitude (n + 1) : ℚ)

private theorem roundHalfEven_le (n unit : Nat) : roundHalfEven n unit ≤ n / unit + 1 := by
  unfold roundHalfEven
  split <;> omega

private theorem le_roundHalfEven (n unit : Nat) : n / unit ≤ roundHalfEven n unit := by
  unfold roundHalfEven
  split <;> omega

private theorem roundHalfEven_mono {n m unit : Nat} (le : n ≤ m) :
    roundHalfEven n unit ≤ roundHalfEven m unit := by
  have quotients : n / unit ≤ m / unit := Nat.div_le_div_right le
  rcases Nat.lt_or_eq_of_le quotients with lt | eq
  · exact le_trans (roundHalfEven_le n unit) (le_trans lt (le_roundHalfEven m unit))
  · have remainders : n % unit ≤ m % unit := by
      have left := Nat.div_add_mod n unit
      have right := Nat.div_add_mod m unit
      rw [eq] at left
      omega
    unfold roundHalfEven
    rw [eq]
    split <;> split <;> omega

private theorem spacing_pos (n : Nat) : 0 < spacing n := by
  unfold spacing
  positivity

private theorem log2_le_of_le {n m : Nat} (positive : n ≠ 0) (le : n ≤ m) :
    n.log2 ≤ m.log2 := by
  rw [Nat.le_log2 (by omega)]
  exact le_trans (Nat.log2_self_le positive) le

private theorem roundMagnitude_le_pow (n : Nat) : roundMagnitude n ≤ 2 ^ (n.log2 + 1) := by
  unfold roundMagnitude
  by_cases small : n.log2 ≤ 52
  · have unit : spacing n = 1 := by simp [spacing, Nat.sub_eq_zero_of_le small]
    have below : n < 2 ^ (n.log2 + 1) := Nat.lt_log2_self
    rw [unit]
    simp only [roundHalfEven, Nat.mod_one, Nat.div_one]
    split <;> omega
  · have split : 2 ^ (n.log2 + 1) = 2 ^ 53 * spacing n := by
      rw [spacing, ← Nat.pow_add]
      congr 1
      omega
    have below : n < 2 ^ 53 * spacing n := by
      rw [← split]
      exact Nat.lt_log2_self
    have quotient : n / spacing n < 2 ^ 53 := by
      rw [Nat.div_lt_iff_lt_mul (spacing_pos n)]
      exact below
    rw [split]
    exact Nat.mul_le_mul_right _ (le_trans (roundHalfEven_le n _) quotient)

private theorem pow_le_roundMagnitude {n : Nat} (positive : n ≠ 0) :
    2 ^ n.log2 ≤ roundMagnitude n := by
  have lower : 2 ^ n.log2 ≤ n := Nat.log2_self_le positive
  have divides : spacing n ∣ 2 ^ n.log2 := Nat.pow_dvd_pow 2 (by omega)
  calc 2 ^ n.log2 = 2 ^ n.log2 / spacing n * spacing n := (Nat.div_mul_cancel divides).symm
    _ ≤ n / spacing n * spacing n :=
        Nat.mul_le_mul_right _ (Nat.div_le_div_right lower)
    _ ≤ roundMagnitude n := Nat.mul_le_mul_right _ (le_roundHalfEven n _)

theorem roundMagnitude_mono {n m : Nat} (le : n ≤ m) : roundMagnitude n ≤ roundMagnitude m := by
  by_cases zero : n = 0
  · subst zero
    have : roundMagnitude 0 = 0 := by decide
    omega
  rcases Nat.lt_or_eq_of_le (log2_le_of_le zero le) with lt | eq
  · -- different binades: the power of two between them separates the results
    calc roundMagnitude n ≤ 2 ^ (n.log2 + 1) := roundMagnitude_le_pow n
      _ ≤ 2 ^ m.log2 := Nat.pow_le_pow_right (by omega) lt
      _ ≤ roundMagnitude m := pow_le_roundMagnitude (by omega)
  · have sameSpacing : spacing n = spacing m := by simp [spacing, eq]
    unfold roundMagnitude
    rw [sameSpacing]
    exact Nat.mul_le_mul_right _ (roundHalfEven_mono le)

theorem float64_mono {i j : Int} (le : i ≤ j) : float64 i ≤ float64 j := by
  match i, j with
  | .ofNat n, .ofNat m =>
      simp only [float64, Nat.cast_le]
      exact roundMagnitude_mono (by simpa using le)
  | .negSucc n, .negSucc m =>
      simp only [float64, neg_le_neg_iff, Nat.cast_le]
      exact roundMagnitude_mono (by omega)
  | .negSucc n, .ofNat m =>
      simp only [float64]
      have first : (0 : ℚ) ≤ roundMagnitude (n + 1) := Nat.cast_nonneg _
      have second : (0 : ℚ) ≤ roundMagnitude m := Nat.cast_nonneg _
      linarith
  | .ofNat n, .negSucc m =>
      have impossible : (n : Int) ≤ Int.negSucc m := le
      omega

/-! ## Comparison -/

/-- The numeric cases of `Equals`: exact between integers, on floats otherwise. -/
def Number.equals : Number → Number → Bool
  | .int i, .int j => i == j
  | .int i, .float r => float64 i == r
  | .float q, .int j => q == float64 j
  | .float q, .float r => q == r

/-- The numeric cases of `Compare`: `IntCompare` or `FloatCompare`. -/
def Number.compare : Number → Number → Ordering
  | .int i, .int j => Ord.compare i j
  | .int i, .float r => Ord.compare (float64 i) r
  | .float q, .int j => Ord.compare q (float64 j)
  | .float q, .float r => Ord.compare q r

/-- A float between two different integers that both round to it. -/
def RoundsBetween : Number → Number → Number → Prop
  | .int i, .float q, .int j => float64 i = q ∧ float64 j = q ∧ i ≠ j
  | _, _, _ => False

private theorem isLE_compare {α : Type} [LinearOrder α] (a b : α) :
    (compare a b).isLE = true ↔ a ≤ b :=
  Ordering.isLE_iff_ne_gt.trans compare_le_iff_le

/-- Three numbers are in order if the outer ones are compared with the one between
them, and it does not hide their difference. -/
theorem Number.compare_isLE_trans {a b c : Number} (apart : ¬ RoundsBetween a b c)
    (first : (a.compare b).isLE) (second : (b.compare c).isLE) : (a.compare c).isLE := by
  cases a <;> cases b <;> cases c <;>
    simp only [Number.compare, isLE_compare] at first second ⊢
  case int.int.int => exact le_trans first second
  case int.int.float => exact le_trans (float64_mono first) second
  case float.int.int => exact le_trans first (float64_mono second)
  case float.int.float => exact le_trans first second
  case float.float.int => exact le_trans first second
  case float.float.float => exact le_trans first second
  case int.float.float => exact le_trans first second
  case int.float.int i q j =>
    -- the float between two integers can only reverse them if both round to it
    by_contra reversed
    have back := float64_mono (le_of_not_ge reversed)
    exact apart ⟨le_antisymm first (le_trans second back), le_antisymm (le_trans back first) second,
      fun same => reversed (le_of_eq same)⟩

/-- A domain of numbers: which integers and floats the values at hand may hold. -/
class Numeric (N : Type) where
  number : N → Number

instance : Numeric Int := ⟨Number.int⟩

instance : Numeric Number := ⟨id⟩

/-- No float of the domain is the rounding of two of its integers. -/
class Consistent (N : Type) [Numeric N] : Prop where
  int_eq_of_float : ∀ {x y z : N} {i j : Int} {q : ℚ},
    Numeric.number x = .int i → Numeric.number y = .int j → Numeric.number z = .float q →
    float64 i = q → float64 j = q → i = j

/-- Integers alone never collide. -/
instance : Consistent Int where
  int_eq_of_float := by
    intro x y z i j q _ _ isFloat
    cases isFloat

section Order

variable {N : Type} [Numeric N]

/-- Comparison of two numbers of the domain. -/
def compareNumbers (x y : N) : Ordering :=
  (Numeric.number x).compare (Numeric.number y)

def equalNumbers (x y : N) : Bool :=
  (Numeric.number x).equals (Numeric.number y)

theorem compareNumbers_eq_iff (x y : N) : compareNumbers x y = .eq ↔ equalNumbers x y = true := by
  unfold compareNumbers equalNumbers
  cases Numeric.number x <;> cases Numeric.number y <;>
    simp [Number.compare, Number.equals]

theorem compareNumbers_self (x : N) : compareNumbers x x = .eq := by
  unfold compareNumbers
  cases Numeric.number x <;> simp [Number.compare]

theorem compareNumbers_swap (x y : N) :
    compareNumbers x y = (compareNumbers y x).swap := by
  unfold compareNumbers
  cases Numeric.number x <;> cases Numeric.number y <;>
    exact Std.OrientedOrd.eq_swap

theorem compareNumbers_isLE_trans [Consistent N] (x y z : N)
    (first : (compareNumbers x y).isLE) (second : (compareNumbers y z).isLE) :
    (compareNumbers x z).isLE := by
  refine Number.compare_isLE_trans ?_ first second
  cases xIs : Numeric.number x <;> cases yIs : Numeric.number y <;> cases zIs : Numeric.number z <;>
    try exact id
  intro ⟨left, right, different⟩
  exact different (Consistent.int_eq_of_float xIs zIs yIs left right)

instance [Consistent N] : Std.TransCmp (compareNumbers (N := N)) where
  eq_swap := compareNumbers_swap _ _
  isLE_trans := compareNumbers_isLE_trans _ _ _

end Order

end StructuredMergeDiff
