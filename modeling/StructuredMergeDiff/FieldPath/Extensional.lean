import StructuredMergeDiff.FieldPath.Collision
import StructuredMergeDiff.FieldPath.Declared

/-!
Contract: field sets are determined by their paths.

Every operation keeps the slices strictly sorted and drops empty children, so
that `Equals`, which compares the representations, compares the sets.

Owns: the laws of `Leaves`, `Equals` and `Size`, the sets that can be built,
and the two summaries: the operations are set operations, and sets are
extensional.
-/

namespace StructuredMergeDiff

open Library Std

namespace FieldSet

variable {N : Type} [Numeric N]

/-! ## Leaves -/

theorem leavesChildren_eq (children : List (PathElement N × FieldSet N)) :
    leavesChildren children = children.map fun node => (node.1, node.2.leaves) := by
  induction children with
  | nil => rfl
  | cons node rest ih =>
      rw [leavesChildren, ih]
      rfl

theorem leaves_eq (s : FieldSet N) :
    s.leaves = ⟨leafMembers s.members s.children,
      s.children.map fun node => (node.1, node.2.leaves)⟩ := by
  obtain ⟨members, children⟩ := s
  rw [leaves, leavesChildren_eq]

/-! ## Equality -/

private theorem equalsBody_descends :
    Descends (fun pair : FieldSet N × FieldSet N => pair.1.depth) equalsBody := by
  rintro first second ⟨s, t⟩ agree
  simp only [equalsBody]
  congr 2
  rw [Bool.eq_iff_iff, List.all_eq_true, List.all_eq_true]
  refine forall₂_congr fun pair member => ?_
  rw [agree (pair.1.2, pair.2.2) (depth_lt_of_mem (List.of_mem_zip member).1)]

theorem equals_eq (s t : FieldSet N) :
    s.equals t = equalsBody (fun pair => pair.1.equals pair.2) (s, t) :=
  measured_eq equalsBody_descends _ _

/-- `Equals` goes through both sets position by position. -/
theorem equals_iff_forall₂ (s t : FieldSet N) :
    s.equals t = true ↔
      List.Forall₂ (fun x y => (x == y) = true) s.members t.members ∧
        List.Forall₂ (fun x y => (x.1 == y.1) = true ∧ x.2.equals y.2 = true)
          s.children t.children := by
  rw [equals_eq, List.forall₂_iff_zip, List.forall₂_iff_zip]
  simp [equalsBody, membersEqual]

section Laws

variable [Consistent N] {s t : FieldSet N}

private theorem lookupBy_dropWhile {member wanted : PathElement N}
    (atLeast : compare member wanted ≠ .gt) (children : List (PathElement N × FieldSet N)) :
    lookupBy Prod.fst wanted (children.dropWhile fun node => (compare member node.1).isGT) =
      lookupBy Prod.fst wanted children := by
  induction children with
  | nil => rfl
  | cons node rest ih =>
      rw [List.dropWhile_cons]
      split
      · next skipped =>
          have above : compare member node.1 = .gt := by simpa using skipped
          have differs : ¬ (node.1 == wanted) = true := by
            rw [← compare_eq_iff_beq]
            intro same
            exact atLeast (TransCmp.gt_of_gt_of_eq above same)
          rw [ih, lookupBy_cons, if_neg differs]
      · rfl

theorem leafMembers_eq {members : List (PathElement N)}
    {children : List (PathElement N × FieldSet N)} (sortedMembers : SortedBy id members)
    (sortedChildren : SortedBy Prod.fst children) :
    leafMembers members children =
      members.filter fun pe => (lookupBy Prod.fst pe children).isNone := by
  induction members generalizing children with
  | nil => rfl
  | cons member rest ih =>
      have sortedRest := List.Pairwise.of_cons sortedMembers
      have later : ∀ pe ∈ rest, compare member pe = .lt :=
        fun pe inRest => List.rel_of_pairwise_cons sortedMembers inRest
      have sortedKept : SortedBy Prod.fst
          (children.dropWhile fun node => (compare member node.1).isGT) :=
        List.Pairwise.sublist (List.dropWhile_sublist _) sortedChildren
      have ownLookup := lookupBy_dropWhile (by simp : compare member member ≠ .gt) children
      have laterLookup := fun pe (inRest : pe ∈ rest) =>
        lookupBy_dropWhile (by simp [later pe inRest] : compare member pe ≠ .gt) children
      have restFilter : ∀ kept : List (PathElement N × FieldSet N),
          (∀ pe ∈ rest, lookupBy Prod.fst pe kept = lookupBy Prod.fst pe children) →
          SortedBy Prod.fst kept → leafMembers rest kept =
            rest.filter fun pe => (lookupBy Prod.fst pe children).isNone := by
        intro kept same sortedKept
        rw [ih sortedRest sortedKept]
        exact List.filter_congr fun pe inRest => by rw [same pe inRest]
      rw [leafMembers, List.filter_cons, ← ownLookup]
      cases remaining : children.dropWhile fun node => (compare member node.1).isGT with
      | nil =>
          rw [remaining] at laterLookup
          simp only [lookupBy_nil, Option.isNone_none, if_true]
          rw [restFilter [] laterLookup List.Pairwise.nil]
      | cons node others =>
          rw [remaining] at laterLookup sortedKept
          have notAbove : compare member node.1 ≠ .gt := by
            have := List.head?_dropWhile_not (fun node : PathElement N × FieldSet N =>
              (compare member node.1).isGT) children
            rw [remaining] at this
            intro above
            simp [above] at this
          simp only
          split
          · next same =>
              have found : (node.1 == member) = true := by
                rw [← compare_eq_iff_beq]
                exact OrientedCmp.eq_symm same
              have passed : ∀ pe ∈ rest,
                  lookupBy Prod.fst pe others = lookupBy Prod.fst pe children := by
                intro pe inRest
                have differs : ¬ (node.1 == pe) = true := by
                  rw [← compare_eq_iff_beq]
                  intro samePe
                  have := TransCmp.eq_trans same samePe
                  rw [later pe inRest] at this
                  cases this
                rw [← laterLookup pe inRest, lookupBy_cons, if_neg differs]
              rw [lookupBy_cons, if_pos found, restFilter others passed
                (List.Pairwise.of_cons sortedKept)]
              rfl
          · next differs =>
              have below : compare member node.1 = .lt := by
                cases order : compare member node.1 <;> simp_all
              have missing : lookupBy Prod.fst member (node :: others) = none := by
                apply lookupBy_of_below
                intro entry inKept
                rcases List.mem_cons.mp inKept with rfl | inOthers
                · exact below
                · exact TransCmp.lt_trans below (List.rel_of_pairwise_cons sortedKept inOthers)
              rw [missing, restFilter (node :: others) laterLookup sortedKept]
              rfl

private theorem membersHas_filter {members : List (PathElement N)} (sorted : SortedBy id members)
    {keep : PathElement N → Bool}
    (keepCongr : ∀ first second, (first == second) = true → keep first = keep second)
    (pe : PathElement N) :
    membersHas (members.filter keep) pe = (membersHas members pe && keep pe) := by
  rw [membersHas_eq (List.Pairwise.filter _ sorted), membersHas_eq sorted, Bool.eq_iff_iff,
    Bool.and_eq_true]
  unfold lookupBy
  rw [List.find?_isSome, List.find?_isSome]
  constructor
  · rintro ⟨member, inFilter, same⟩
    obtain ⟨inMembers, kept⟩ := List.mem_filter.mp inFilter
    exact ⟨⟨member, inMembers, same⟩, keepCongr _ _ same ▸ kept⟩
  · rintro ⟨⟨member, inMembers, same⟩, kept⟩
    exact ⟨member, List.mem_filter.mpr ⟨inMembers, (keepCongr _ _ same).symm ▸ kept⟩, same⟩

private theorem leaves_withPrefix (canonical : s.Canonical) (pe : PathElement N) :
    s.leaves.withPrefix pe = (s.withPrefix pe).leaves := by
  have nilLeaves : (nil : FieldSet N).leaves = nil := rfl
  rw [leaves_eq, withPrefix, childrenGet,
    getBy_eq_lookupBy (sorted_map_snd canonical.children), lookupBy_map_snd,
    withPrefix_eq canonical]
  cases lookupBy Prod.fst pe s.children with
  | none => exact nilLeaves.symm
  | some node => rfl

/-- The leaves are the members without a member beneath them. -/
theorem has_leaves (canonical : s.Canonical) (path : Path N) :
    s.leaves.has path = true ↔ s.has path = true ∧ ¬ s.HasBeneath path := by
  induction path generalizing s with
  | nil => simp
  | cons pe rest ih =>
      by_cases leaf : rest = []
      · subst leaf
        rw [has_singleton, has_singleton, ← lookupBy_children_iff canonical, leaves_eq,
          leafMembers_eq canonical.members canonical.children,
          membersHas_filter canonical.members fun _ _ same => by rw [lookupBy_congr _ _ same]]
        cases lookupBy Prod.fst pe s.children <;> simp
      · rw [has_cons _ _ leaf, has_cons _ _ leaf, leaves_withPrefix canonical, hasBeneath_cons]
        exact ih (withPrefix_canonical canonical pe)

section

variable (canonicalLeft : s.Canonical) (canonicalRight : t.Canonical)

include canonicalLeft canonicalRight

private theorem has_of_equals (same : s.equals t = true) (path : Path N)
    : s.has path = t.has path := by
  induction path generalizing s t with
  | nil => simp
  | cons pe rest ih =>
      obtain ⟨sameMembers, sameChildren⟩ := (equals_iff_forall₂ s t).mp same
      by_cases leaf : rest = []
      · subst leaf
        have agree : List.Forall₂ (fun x y => (id x == id y) = true ∧ True) s.members t.members :=
          sameMembers.imp fun x y equal => ⟨equal, trivial⟩
        have found := lookupBy_forall₂ agree pe
        rw [has_singleton, has_singleton, membersHas_eq canonicalLeft.members,
          membersHas_eq canonicalRight.members]
        rcases found with ⟨left, right⟩ | ⟨a, b, left, right, -⟩
        · rw [left, right]
        · rw [left, right]
          rfl
      · rcases lookupBy_forall₂ sameChildren pe with ⟨left, right⟩ | ⟨a, b, left, right, equal⟩
        · rw [has_withPrefix_of_none canonicalLeft left leaf,
            has_withPrefix_of_none canonicalRight right leaf]
        · rw [has_withPrefix_of_some canonicalLeft left leaf,
            has_withPrefix_of_some canonicalRight right leaf]
          exact ih (canonicalLeft.nodes a (mem_of_lookupBy left))
            (canonicalRight.nodes b (mem_of_lookupBy right)) equal

private theorem equals_of_has (same : ∀ path, s.has path = t.has path) : s.equals t = true := by
  induction canonicalLeft generalizing t with
  | @intro s members children nodes nonEmpty ih =>
      have canonicalLeft : s.Canonical := .intro members children nodes nonEmpty
      have sameMembers : List.Forall₂ (fun x y => (x == y) = true) s.members t.members := by
        have sorted : SortedBy id t.members := canonicalRight.members
        apply forall₂_of_same_keys members sorted
        intro pe
        rw [← membersHas_eq members, ← membersHas_eq canonicalRight.members, ← has_singleton,
          ← has_singleton]
        exact same [pe]
      have sameKeys : List.Forall₂ (fun x y => (x.1 == y.1) = true) s.children t.children := by
        apply forall₂_of_same_keys children canonicalRight.children
        intro pe
        rw [Bool.eq_iff_iff, Option.isSome_iff_exists, Option.isSome_iff_exists,
          lookupBy_children_iff canonicalLeft, lookupBy_children_iff canonicalRight]
        unfold HasBeneath
        simp only [same]
      rw [equals_iff_forall₂]
      refine ⟨sameMembers, ?_⟩
      rw [List.forall₂_iff_zip] at sameKeys ⊢
      refine ⟨sameKeys.1, fun {x y} inZip => ⟨sameKeys.2 inZip, ?_⟩⟩
      obtain ⟨inLeft, inRight⟩ := List.of_mem_zip inZip
      have foundLeft := lookupBy_of_mem children inLeft (sameKeys.2 inZip)
      have foundRight := lookupBy_of_mem canonicalRight.children inRight (BEq.refl y.1)
      apply ih x inLeft (canonicalRight.nodes y inRight)
      intro path
      by_cases root : path = []
      · rw [root, has_root, has_root]
      · rw [← has_withPrefix_of_some canonicalLeft foundLeft root,
          ← has_withPrefix_of_some canonicalRight foundRight root]
        exact same _

theorem equals_iff_has :
    s.equals t = true ↔ ∀ path, s.has path = t.has path :=
  ⟨has_of_equals canonicalLeft canonicalRight, equals_of_has canonicalLeft canonicalRight⟩

end

private theorem isEmpty_of_leaves (canonical : s.Canonical) (empty : s.leaves.isEmpty = true) :
    s.isEmpty = true := by
  induction canonical with
  | @intro s members children nodes nonEmpty ih =>
      rw [leaves_eq, isEmpty_iff, leafMembers_eq members children] at empty
      obtain ⟨noLeafMembers, emptyChildren⟩ := empty
      have noChildren : s.children = [] := by
        apply List.eq_nil_iff_forall_not_mem.mpr
        intro node member
        have nodeEmpty := ih node member
          (emptyChildren (node.1, node.2.leaves) (List.mem_map.mpr ⟨node, member, rfl⟩))
        rw [nonEmpty node member] at nodeEmpty
        cases nodeEmpty
      rw [isEmpty_iff, noChildren]
      simpa [noChildren] using noLeafMembers

theorem leaves_canonical (canonical : s.Canonical) : s.leaves.Canonical := by
  induction canonical with
  | @intro s members children nodes nonEmpty ih =>
      rw [leaves_eq, leafMembers_eq members children]
      refine .intro (List.Pairwise.filter _ members) (sorted_map_snd children) ?_ ?_
      · intro node member
        obtain ⟨origin, inChildren, rfl⟩ := List.mem_map.mp member
        exact ih origin inChildren
      · intro node member
        obtain ⟨origin, inChildren, rfl⟩ := List.mem_map.mp member
        by_contra empty
        have originEmpty := isEmpty_of_leaves (nodes origin inChildren) (by simpa using empty)
        rw [nonEmpty origin inChildren] at originEmpty
        cases originEmpty

/-- `Leaves` keeps the maximal members, in a canonical set that is empty only for the empty
set. -/
theorem leaves_keep_maximal_members (canonical : s.Canonical) :
    (∀ path, s.leaves.has path = true ↔
      s.has path = true ∧ ∀ rest, rest ≠ [] → s.has (path ++ rest) = false) ∧
      s.leaves.Canonical ∧ (s.leaves.isEmpty = true → s.isEmpty = true) := by
  refine ⟨fun path => ?_, leaves_canonical canonical, isEmpty_of_leaves canonical⟩
  rw [has_leaves canonical]
  apply and_congr_right
  intro _
  simp [HasBeneath]

end Laws

/-- Of a list, its item and another field, the list is no leaf. -/
theorem leaves_of_list_and_item :
    let s : FieldSet Int := ofPaths
      [[.fieldName "list"], [.fieldName "list", .value (.number 1)], [.fieldName "name"]]
    (∀ path, s.leaves.has path = true ↔
      s.has path = true ∧ ∀ rest, rest ≠ [] → s.has (path ++ rest) = false) ∧
      s.leaves.has [.fieldName "list"] = false ∧ s.leaves.size = 2 :=
  ⟨(leaves_keep_maximal_members (ofPaths_canonical _)).1, by decide +kernel, by decide +kernel⟩

/-! ## Size -/

omit [Numeric N] in
mutual

theorem size_eq_length (s : FieldSet N) : s.size = s.iterate.length := by
  obtain ⟨members, children⟩ := s
  rw [size, iterate, sizeChildren_eq_length children, List.length_append, List.length_map]

theorem sizeChildren_eq_length (children : List (PathElement N × FieldSet N)) :
    sizeChildren children = (iterateChildren children).length := by
  match children with
  | [] => rfl
  | (pe, child) :: rest =>
      rw [sizeChildren, iterateChildren, size_eq_length child, sizeChildren_eq_length rest,
        List.length_append, List.length_map]

end

/-! ## The sets that can be built -/

/-- The sets obtained from the empty set by the operations. -/
inductive Built : FieldSet N → Prop
  | nil : Built nil
  | insert {s : FieldSet N} (built : Built s) (path : Path N) : Built (s.insert path)
  | union {s t : FieldSet N} (left : Built s) (right : Built t) : Built (s.union t)
  | intersection {s t : FieldSet N} (left : Built s) (right : Built t) : Built (s.intersection t)
  | difference {s t : FieldSet N} (left : Built s) (right : Built t) : Built (s.difference t)
  | recursiveDifference {s t : FieldSet N} (left : Built s) (right : Built t) :
      Built (s.recursiveDifference t)
  | leaves {s : FieldSet N} (built : Built s) : Built s.leaves
  | ensureNamedFieldsAreMembers {s : FieldSet N} (built : Built s) (sc : Schema N)
      (tr : TypeRef N) : Built (s.ensureNamedFieldsAreMembers sc tr)
  | withPrefix {s : FieldSet N} (built : Built s) (pe : PathElement N) : Built (s.withPrefix pe)

theorem Built.canonical [Consistent N] {s : FieldSet N} (built : Built s) : s.Canonical := by
  induction built with
  | nil => exact nil_canonical
  | insert _ path canonical => exact (insert_canonical canonical path).1
  | union _ _ left right => exact union_canonical left right
  | intersection _ _ left right => exact intersection_canonical left right
  | difference _ _ left right => exact difference_canonical left right
  | recursiveDifference _ _ left right => exact recursiveDifference_canonical left right
  | leaves _ canonical => exact leaves_canonical canonical
  | ensureNamedFieldsAreMembers _ sc tr canonical => exact (ensure_canonical canonical sc tr).1
  | withPrefix _ pe canonical => exact withPrefix_canonical canonical pe

/-! ## The operations are set operations -/

/-- The four operations on canonical sets, as operations on sets of paths. -/
structure SetAlgebra (s t : FieldSet N) : Prop where
  union : ∀ path, (s.union t).has path = true ↔ s.has path = true ∨ t.has path = true
  intersection : ∀ path,
    (s.intersection t).has path = true ↔ s.has path = true ∧ t.has path = true
  difference : ∀ path,
    (s.difference t).has path = true ↔ s.has path = true ∧ ¬ t.has path = true
  recursiveDifference : ∀ path,
    (s.recursiveDifference t).has path = true ↔ s.has path = true ∧ ¬ t.Covers path
  canonical : (s.union t).Canonical ∧ (s.intersection t).Canonical ∧
    (s.difference t).Canonical ∧ (s.recursiveDifference t).Canonical

theorem operations_implement_sets [Consistent N] {s t : FieldSet N} (canonicalLeft : s.Canonical)
    (canonicalRight : t.Canonical) : SetAlgebra s t where
  union path := by rw [has_union canonicalLeft canonicalRight, Bool.or_eq_true]
  intersection path := by rw [has_intersection canonicalLeft canonicalRight, Bool.and_eq_true]
  difference path := by rw [has_difference canonicalLeft canonicalRight]; simp
  recursiveDifference path := has_recursiveDifference canonicalLeft canonicalRight path
  canonical := ⟨union_canonical canonicalLeft canonicalRight,
    intersection_canonical canonicalLeft canonicalRight,
    difference_canonical canonicalLeft canonicalRight,
    recursiveDifference_canonical canonicalLeft canonicalRight⟩

/-- A field with a list beneath it against the list alone: the recursive
difference drops the item with the list. -/
theorem operations_on_list_and_item :
    let list : Path Int := [.fieldName "list"]
    let item : Path Int := [.fieldName "list", .value (.number 1)]
    SetAlgebra (ofPaths [list, item]) (ofPaths [list]) ∧
      ((ofPaths [list, item]).recursiveDifference (ofPaths [list])).has item = false ∧
      ((ofPaths [list, item]).difference (ofPaths [list])).has item = true :=
  ⟨operations_implement_sets (ofPaths_canonical _) (ofPaths_canonical _),
    by decide +kernel, by decide +kernel⟩

/-! ## Extensionality -/

variable (N) in
/-- Every set that can be built is canonical, and canonical sets are finite sets
of paths. -/
structure Extensional : Prop where
  canonical : ∀ s : FieldSet N, Built s → s.Canonical
  equals : ∀ s t : FieldSet N, s.Canonical → t.Canonical →
    (s.equals t = true ↔ ∀ path, s.has path = t.has path)
  insert : ∀ s : FieldSet N, s.Canonical → ∀ path, path ≠ [] →
    ∀ wanted, (s.insert path).has wanted = true ↔ s.has wanted = true ∨ (path == wanted) = true
  insertRoot : ∀ s : FieldSet N, s.insert [] = s
  iterate : ∀ s : FieldSet N, s.Canonical →
    ∀ path, s.iterate.countP (· == path) = if s.has path then 1 else 0
  size : ∀ s : FieldSet N, s.size = s.iterate.length
  empty : ∀ s : FieldSet N, s.Canonical → (s.isEmpty = true ↔ ∀ path, s.has path = false)

/-- The two integers of a collision, and the float as the other set. -/
def collidingUnion (collision : Collision N) : FieldSet N :=
  (ofPaths [[numberElement collision.low], [numberElement collision.high]]).union
    (ofPaths [[numberElement collision.float]])

theorem collidingUnion_built (collision : Collision N) : Built (collidingUnion collision) :=
  .union (.insert (.insert .nil _) _) (.insert .nil _)

/-- The union walks past both integers with the float: the lower integer is
replaced by it, the higher one stays, and the two are equal. -/
theorem collidingUnion_members (collision : Collision N) :
    (collidingUnion collision).members =
      [numberElement collision.float, numberElement collision.high] := by
  have integers : (ofPaths [[numberElement collision.low], [numberElement collision.high]]).members =
      [numberElement collision.low, numberElement collision.high] := by
    simp [ofPaths, insert, nil, insertBy, locate, search, searchLoop, collision.compare_low_high]
  have float : (ofPaths [[numberElement collision.float]]).members =
      [numberElement collision.float] := by
    simp [ofPaths, insert, nil, insertBy, locate, search, searchLoop]
  rw [collidingUnion, union_eq]
  simp only [unionBody]
  rw [integers, float]
  simp [Join.run, Join.head, membersUnion, collision.compare_low_float,
    collision.compare_float collision.lowRounds]

theorem collidingUnion_not_canonical (collision : Collision N) :
    ¬ (collidingUnion collision).Canonical := by
  intro canonical
  have sorted := canonical.members
  rw [collidingUnion_members] at sorted
  have ascending := List.rel_of_pairwise_cons sorted (List.mem_singleton_self _)
  simp only [id] at ascending
  rw [compare_numberElement, compareNumbers_swap, collision.highRounds] at ascending
  cases ascending

end FieldSet

end StructuredMergeDiff
