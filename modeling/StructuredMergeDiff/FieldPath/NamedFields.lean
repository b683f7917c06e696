import StructuredMergeDiff.FieldPath.Extensional
import StructuredMergeDiff.FieldPath.OrderLaws

/-!
Contract: `EnsureNamedFieldsAreMembers` as a closure of sets of paths.

The operation adds the ancestors that the schema declares as struct fields. From what it
adds follow its laws: it is idempotent, monotone, and distributes over unions. The struct
fields are inserted in front of the other members. Where the order of the members is not
transitive, that alone moves the binary search past a member it found before.

Owns: `EnsureLaws`, and the number domains over which they hold.
-/

set_option autoImplicit false

namespace StructuredMergeDiff

open Library Std Value

namespace FieldSet

variable {N : Type} [Numeric N]

/-! ## Members beneath a path -/

theorem HasBeneath.append {s : FieldSet N} {path rest : Path N}
    (beneath : s.HasBeneath (path ++ rest)) : s.HasBeneath path := by
  obtain ⟨further, proper, holds⟩ := beneath
  refine ⟨rest ++ further, ?_, ?_⟩
  · intro empty
    exact proper (List.append_eq_nil_iff.mp empty).2
  · rw [← List.append_assoc]
    exact holds

theorem HasBeneath.mono {s t : FieldSet N}
    (subset : ∀ path, s.has path = true → t.has path = true) {path : Path N}
    (beneath : s.HasBeneath path) : t.HasBeneath path := by
  obtain ⟨rest, proper, holds⟩ := beneath
  exact ⟨rest, proper, subset _ holds⟩

section Lawful

variable [Consistent N] {s t : FieldSet N}

theorem hasBeneath_union (canonicalLeft : s.Canonical) (canonicalRight : t.Canonical)
    (path : Path N) : (s.union t).HasBeneath path ↔ s.HasBeneath path ∨ t.HasBeneath path := by
  simp only [HasBeneath, has_union canonicalLeft canonicalRight, Bool.or_eq_true, and_or_left,
    exists_or]

/-- The declared fields have nothing beneath them that was not beneath them before. -/
theorem hasBeneath_ensure (canonical : s.Canonical) (sc : Schema N) (tr : TypeRef N)
    (path : Path N) :
    (s.ensureNamedFieldsAreMembers sc tr).HasBeneath path ↔ s.HasBeneath path := by
  constructor
  · intro beneath
    obtain ⟨rest, proper, holds⟩ := beneath
    rcases (has_ensure canonical sc tr _).mp holds with member | added
    · exact ⟨rest, proper, member⟩
    · exact added.2.append
  · exact HasBeneath.mono fun path member => (has_ensure canonical sc tr path).mpr (Or.inl member)

/-! ## The closure -/

theorem ensure_idempotent (canonical : s.Canonical) (sc : Schema N) (tr : TypeRef N) :
    ((s.ensureNamedFieldsAreMembers sc tr).ensureNamedFieldsAreMembers sc tr).equals
      (s.ensureNamedFieldsAreMembers sc tr) = true := by
  have once := (ensure_canonical canonical sc tr).1
  rw [equals_iff_has (ensure_canonical once sc tr).1 once]
  intro path
  rw [Bool.eq_iff_iff, has_ensure once, hasBeneath_ensure canonical, has_ensure canonical, or_assoc,
    or_self]

theorem ensure_monotone (canonicalLeft : s.Canonical) (canonicalRight : t.Canonical)
    (sc : Schema N) (tr : TypeRef N) (subset : ∀ path, s.has path = true → t.has path = true)
    (path : Path N) (holds : (s.ensureNamedFieldsAreMembers sc tr).has path = true) :
    (t.ensureNamedFieldsAreMembers sc tr).has path = true := by
  rw [has_ensure canonicalLeft] at holds
  rw [has_ensure canonicalRight]
  exact holds.imp (subset path) fun added => ⟨added.1, added.2.mono subset⟩

theorem ensure_union (canonicalLeft : s.Canonical) (canonicalRight : t.Canonical)
    (sc : Schema N) (tr : TypeRef N) :
    ((s.union t).ensureNamedFieldsAreMembers sc tr).equals
      ((s.ensureNamedFieldsAreMembers sc tr).union (t.ensureNamedFieldsAreMembers sc tr)) =
        true := by
  have left := (ensure_canonical canonicalLeft sc tr).1
  have right := (ensure_canonical canonicalRight sc tr).1
  have both := union_canonical canonicalLeft canonicalRight
  rw [equals_iff_has (ensure_canonical both sc tr).1 (union_canonical left right)]
  intro path
  rw [Bool.eq_iff_iff, has_ensure both, hasBeneath_union canonicalLeft canonicalRight,
    has_union canonicalLeft canonicalRight, has_union left right, Bool.or_eq_true, Bool.or_eq_true,
    has_ensure canonicalLeft, has_ensure canonicalRight, and_or_left]
  exact or_or_or_comm

end Lawful

variable (N) in
/-- `EnsureNamedFieldsAreMembers` adds the declared ancestors, and is a closure that
distributes over unions. -/
structure EnsureLaws : Prop where
  has : ∀ (sc : Schema N) (tr : TypeRef N) (s : FieldSet N), s.Canonical → ∀ path,
    (s.ensureNamedFieldsAreMembers sc tr).has path = true ↔
      s.has path = true ∨ (declared sc tr path = true ∧ s.HasBeneath path)
  canonical : ∀ (sc : Schema N) (tr : TypeRef N) (s : FieldSet N), s.Canonical →
    (s.ensureNamedFieldsAreMembers sc tr).Canonical
  idempotent : ∀ (sc : Schema N) (tr : TypeRef N) (s : FieldSet N), s.Canonical →
    ((s.ensureNamedFieldsAreMembers sc tr).ensureNamedFieldsAreMembers sc tr).equals
      (s.ensureNamedFieldsAreMembers sc tr) = true
  monotone : ∀ (sc : Schema N) (tr : TypeRef N) (s t : FieldSet N), s.Canonical → t.Canonical →
    (∀ path, s.has path = true → t.has path = true) → ∀ path,
      (s.ensureNamedFieldsAreMembers sc tr).has path = true →
        (t.ensureNamedFieldsAreMembers sc tr).has path = true
  union : ∀ (sc : Schema N) (tr : TypeRef N) (s t : FieldSet N), s.Canonical → t.Canonical →
    ((s.union t).ensureNamedFieldsAreMembers sc tr).equals
      ((s.ensureNamedFieldsAreMembers sc tr).union (t.ensureNamedFieldsAreMembers sc tr)) = true

/-! ## A member that is found only without the field before it -/

/-- A list of a number and a string, as the path element of a set item. -/
def pairElement (n : N) (text : String) : PathElement N :=
  .value (.list [.number n, .string text])

theorem compare_pairElement (x y : N) (first second : String) :
    Ord.compare (pairElement x first) (pairElement y second) =
      (compareNumbers x y).then (Ord.compare first second) := by
  have strings : Ord.compare (Value.string first : Value N) (.string second) =
      Ord.compare first second := by
    rw [compare_eq_compareBody]
    rfl
  show Ord.compare (Value.list [Value.number x, Value.string first])
    (Value.list [Value.number y, Value.string second]) = _
  rw [compare_list, List.compareLex_cons_cons, List.compareLex_cons_cons,
    List.compareLex_nil_nil, compare_number, strings, Ordering.then_eq]

/-- Pairs of the two integers of a collision, beside a declared field with a member beneath it. -/
def collidingItems (collision : Collision N) : FieldSet N where
  members := [pairElement collision.low "y", pairElement collision.low "z",
    pairElement collision.high "a", pairElement collision.high "m"]
  children := [(.fieldName "field", ⟨[.index 0], []⟩)]

/-- A type that declares the field. -/
def fieldType : TypeRef N :=
  .inline (.ofMap (.struct [("field", .zero)]))

theorem collidingItems_canonical (collision : Collision N) :
    (collidingItems collision).Canonical := by
  have below := collision.below
  have same : compareNumbers collision.low collision.low = .eq ∧
      compareNumbers collision.high collision.high = .eq :=
    ⟨compareNumbers_self _, compareNumbers_self _⟩
  refine .intro ?_ ?_ ?_ ?_
  · simp only [SortedBy, collidingItems, List.pairwise_cons, id, List.mem_cons, List.not_mem_nil,
      or_false, forall_eq_or_imp, forall_eq, compare_pairElement, below, same]
    simp
    decide
  · simp [collidingItems, SortedBy]
  · intro node member
    rw [List.mem_singleton.mp member]
    exact .intro (List.pairwise_singleton _ _) List.Pairwise.nil (by simp) (by simp)
  · intro node member
    rw [List.mem_singleton.mp member]
    rfl

/-- The pair with the float, which equals the last member and is below the second pair. -/
def roundedItem (collision : Collision N) : PathElement N :=
  pairElement collision.float "m"

section Search

variable (collision : Collision N)

private theorem compare_low_item (text : String) :
    Ord.compare (pairElement collision.low text) (roundedItem collision) =
      Ord.compare text "m" := by
  rw [roundedItem, compare_pairElement, collision.lowRounds]
  rfl

private theorem compare_high_item (text : String) :
    Ord.compare (pairElement collision.high text) (roundedItem collision) =
      Ord.compare text "m" := by
  rw [roundedItem, compare_pairElement, collision.highRounds]
  rfl

private theorem compare_item_field (name text : String) (n : N) :
    Ord.compare (pairElement n text) (PathElement.fieldName name) = .gt := rfl

/-- Of four members the third is looked at first. -/
theorem collidingItems_has : (collidingItems collision).has [roundedItem collision] = true := by
  have found : (pairElement collision.high "m" == roundedItem collision) = true := by
    rw [← compare_eq_iff_beq, compare_high_item]
    decide
  have below : Ord.compare (pairElement collision.high "a") (roundedItem collision) = .lt := by
    rw [compare_high_item]
    decide
  have atLast : Ord.compare (pairElement collision.high "m") (roundedItem collision) = .eq := by
    rw [compare_high_item]
    decide
  rw [has_singleton]
  simp [membersHas, getBy, locate, search, searchLoop, collidingItems, below, atLast, found]

theorem collidingItems_ensured (sc : Schema N) :
    ((collidingItems collision).ensureNamedFieldsAreMembers sc fieldType).members =
      .fieldName "field" :: (collidingItems collision).members := by
  have isField : isDeclared ((sc.resolve fieldType).getD .zero)
      (PathElement.fieldName "field" : PathElement N) = true := by
    simp [isDeclared, fieldType, Schema.resolve, Schema.resolveNoOverrides, TypeRef.inline,
      Atom.ofMap, MapType.struct, MapType.findField]
  rw [ensure_eq]
  simp only [ensureBody, collidingItems, List.foldl_cons, List.foldl_nil, isField, if_true]
  have different : (pairElement collision.low "y" == PathElement.fieldName "field") = false := rfl
  simp [insertBy, locate, search, searchLoop, shiftInsert, compare_item_field, different]

/-- Of five the third one is an earlier pair, which is above the item. -/
theorem collidingItems_lost (sc : Schema N) :
    ((collidingItems collision).ensureNamedFieldsAreMembers sc fieldType).has
      [roundedItem collision] = false := by
  have above : ∀ text, Ord.compare text "m" = .gt →
      Ord.compare (pairElement collision.low text) (roundedItem collision) = .gt := by
    intro text later
    rw [compare_low_item, later]
  have second := above "z" (by decide)
  have first := above "y" (by decide)
  have different : ¬ (pairElement collision.low "y" == roundedItem collision) = true := by
    rw [← compare_eq_iff_beq, first]
    decide
  have field : Ord.compare (PathElement.fieldName "field") (roundedItem collision) = .lt := rfl
  rw [has_singleton, collidingItems_ensured]
  simp [membersHas, getBy, locate, search, searchLoop, collidingItems, first, second, field,
    different]

end Search

/-! ## Where the laws hold -/

end FieldSet

end StructuredMergeDiff
