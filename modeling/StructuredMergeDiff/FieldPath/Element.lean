import StructuredMergeDiff.Value.Order

/-!
Contract: path elements and paths.

A path element selects a child: a map entry by field name, a list item by its
key fields or by its value, or a list position by index. `==` on path elements
is the source's `Equals`, `compare` its `Compare`.

Owns: `PathElement`, `Path`, their equality and order, and the order laws.

`PathElement` has one constructor for each of the four pointers, exactly one
of which is meant to be set, and `unset` for the zero value, which the walkers
do produce where they ignore an error.
-/

namespace StructuredMergeDiff

open Std

inductive PathElement (N : Type) where
  | fieldName (name : String)
  | key (fields : FieldList N)
  | value (v : Value N)
  | index (i : Int)
  | unset
deriving Repr

/-- A path from the root of an object. -/
abbrev Path (N : Type) := List (PathElement N)

namespace PathElement

variable {N : Type} [Numeric N]

instance : Inhabited (PathElement N) := ⟨.unset⟩

def equals : PathElement N → PathElement N → Bool
  | .fieldName s, .fieldName t => s == t
  | .key fs, .key gs => fs == gs
  | .value v, .value w => v == w
  | .index i, .index j => i == j
  | .unset, .unset => true
  | _, _ => false

instance : BEq (PathElement N) := ⟨equals⟩

omit [Numeric N] in
/-- The order of the kinds of path elements. -/
def rank : PathElement N → Nat
  | .fieldName _ => 0
  | .key _ => 1
  | .value _ => 2
  | .index _ => 3
  | .unset => 4

def compare : PathElement N → PathElement N → Ordering
  | .fieldName s, .fieldName t => Ord.compare s t
  | .key fs, .key gs => Ord.compare fs gs
  | .value v, .value w => Ord.compare v w
  | .index i, .index j => Ord.compare i j
  | left, right => Ord.compare left.rank right.rank

instance : Ord (PathElement N) := ⟨compare⟩

instance : LawfulBEqOrd (PathElement N) where
  compare_eq_iff_beq := by
    intro left right
    change left.compare right = .eq ↔ left.equals right = true
    cases left <;> cases right <;> simp [compare, equals, rank, compare_eq_iff_beq]

private theorem compare_of_rank_ne {left right : PathElement N} (different : left.rank ≠ right.rank) :
    Ord.compare left right = Ord.compare left.rank right.rank := by
  cases left <;> cases right <;> first | rfl | exact absurd rfl different

private theorem rank_le_of_isLE {left right : PathElement N}
    (le : (Ord.compare left right).isLE) : left.rank ≤ right.rank := by
  by_cases same : left.rank = right.rank
  · exact Nat.le_of_eq same
  · rwa [compare_of_rank_ne same, Nat.isLE_compare] at le

instance [Consistent N] : TransOrd (PathElement N) where
  eq_swap := by
    intro left right
    change left.compare right = (right.compare left).swap
    cases left <;> cases right <;> simp only [compare, rank] <;>
      exact OrientedCmp.eq_swap
  isLE_trans := by
    intro first second third firstLE secondLE
    have lower := rank_le_of_isLE firstLE
    have upper := rank_le_of_isLE secondLE
    by_cases eq : first.rank = third.rank
    · have sameKind : first.rank = second.rank := by omega
      change (first.compare second).isLE = true at firstLE
      change (second.compare third).isLE = true at secondLE
      change (first.compare third).isLE = true
      cases first <;> cases second <;> simp [rank] at sameKind
      all_goals cases third <;> simp [rank] at eq
      all_goals simp only [compare] at firstLE secondLE ⊢
      all_goals exact TransCmp.isLE_trans firstLE secondLE
    · rw [compare_of_rank_ne eq, Nat.isLE_compare]
      omega

instance [Consistent N] : EquivBEq (PathElement N) := LawfulBEqOrd.equivBEq

end PathElement

end StructuredMergeDiff
