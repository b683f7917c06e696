import StructuredMergeDiff.FieldPath.Element

/-!
Contract: numbers on which the order of path elements breaks down.

An integer is compared with a float after rounding it. Two integers that round
to one float are both equal to the float, and different from each other.

Owns: `Collision`, and that a domain without collisions is consistent.
Does not own: the objects in which collisions show (`Typed.Collision`).
-/

namespace StructuredMergeDiff

variable {N : Type} [Numeric N]

/-- A number as the path element of a set item. -/
def numberElement (n : N) : PathElement N :=
  .value (.number n)

theorem compare_numberElement (x y : N) :
    compare (numberElement x) (numberElement y) = compareNumbers x y := by
  show compare (Value.number x) (Value.number y) = compareNumbers x y
  rw [Value.compare_eq_compareBody]
  rfl

theorem beq_numberElement (x y : N) :
    (numberElement x == numberElement y) = equalNumbers x y := by
  show (Value.number x == Value.number y) = equalNumbers x y
  rw [Value.beq_eq_equalsBody]
  rfl

/-- Two different integers of the domain and a float to which both round. -/
structure Collision (N : Type) [Numeric N] where
  low : N
  high : N
  float : N
  below : compareNumbers low high = .lt
  lowRounds : compareNumbers low float = .eq
  highRounds : compareNumbers high float = .eq

/-- A domain without collisions is consistent. -/
theorem consistent_of_no_collision (none : Collision N → False) : Consistent N where
  int_eq_of_float := by
    intro x y z i j q xIs yIs zIs xRounds yRounds
    have rounds : ∀ (n : N) (k : Int), Numeric.number n = .int k → float64 k = q →
        compareNumbers n z = .eq := by
      intro n k nIs nRounds
      simp [compareNumbers, nIs, zIs, Number.compare, nRounds]
    rcases lt_trichotomy i j with lt | eq | gt
    · refine (none ⟨x, y, z, ?_, rounds x i xIs xRounds, rounds y j yIs yRounds⟩).elim
      simpa [compareNumbers, xIs, yIs, Number.compare, compare_lt_iff_lt] using lt
    · exact eq
    · refine (none ⟨y, x, z, ?_, rounds y j yIs yRounds, rounds x i xIs xRounds⟩).elim
      simpa [compareNumbers, xIs, yIs, Number.compare, compare_lt_iff_lt] using gt

namespace Collision

variable (collision : Collision N)

theorem compare_low_high :
    compare (numberElement collision.low) (numberElement collision.high) = .lt := by
  rw [compare_numberElement, collision.below]

theorem compare_low_float :
    compare (numberElement collision.low) (numberElement collision.float) = .eq := by
  rw [compare_numberElement, collision.lowRounds]

theorem compare_float {n : N} (rounds : compareNumbers n collision.float = .eq) :
    compare (numberElement collision.float) (numberElement n) = .eq := by
  rw [compare_numberElement, compareNumbers_swap, rounds]
  rfl

theorem low_beq_float : (numberElement collision.low == numberElement collision.float) = true := by
  rw [beq_numberElement, ← compareNumbers_eq_iff]
  exact collision.lowRounds

end Collision

/-- Two consecutive integers, and the float to which both round. -/
def roundedIntegers : Collision Number where
  low := .int 9007199254740992
  high := .int 9007199254740993
  float := .float 9007199254740992
  below := by decide
  lowRounds := by decide +kernel
  highRounds := by decide +kernel

end StructuredMergeDiff
