import Mathlib.Algebra.Order.BigOperators.Group.List
import StructuredMergeDiff.FieldPath.Collision
import StructuredMergeDiff.FieldPath.SerializeSpec

/-!
Contract: field sets whose path elements are read as others.

If different path elements of a node are read as different ones, what is read has the
paths of the set, element by element. A codec that is faithful in this sense gives the
set back.

Owns: the paths of the set that is read; and that field sets are read back as they were
exactly over consistent numbers.
-/

namespace StructuredMergeDiff

open Library Std

namespace FieldSet

variable {N M : Type} [Numeric N] [Numeric M]

/-- Different members of a node are read as different ones, and so are its children. -/
inductive Separate (d : PathElement N → PathElement M) : FieldSet N → Prop
  | intro {s : FieldSet N}
      (members : s.members.Pairwise fun first second => (d first == d second) = false)
      (children : s.children.Pairwise fun first second => (d first.1 == d second.1) = false)
      (nodes : ∀ node ∈ s.children, Separate d node.2) : Separate d s

/-- Equal path elements are read as equal ones. -/
def Respects (d : PathElement N → PathElement M) : Prop :=
  ∀ {first second : PathElement N}, (first == second) = true → (d first == d second) = true

/-! ## Member paths -/

omit [Numeric N] in
theorem mem_iterateChildren {children : List (PathElement N × FieldSet N)} {path : Path N} :
    path ∈ iterateChildren children ↔
      ∃ node ∈ children, ∃ rest ∈ node.2.iterate, path = node.1 :: rest := by
  induction children with
  | nil => simp [iterateChildren]
  | cons head tail ih =>
      simp [iterateChildren, ih, eq_comm]

omit [Numeric N] in
theorem mem_iterate {s : FieldSet N} {path : Path N} : path ∈ s.iterate ↔
    (∃ pe ∈ s.members, path = [pe]) ∨
      ∃ node ∈ s.children, ∃ rest ∈ node.2.iterate, path = node.1 :: rest := by
  obtain ⟨members, children⟩ := s
  rw [iterate, List.mem_append, mem_iterateChildren]
  simp [eq_comm]

theorem has_iff_mem_iterate [Consistent N] {s : FieldSet N} (canonical : s.Canonical)
    (path : Path N) : s.has path = true ↔ ∃ own ∈ s.iterate, (own == path) = true := by
  rw [← List.countP_pos_iff, countP_iterate canonical]
  split <;> simp_all

/-! ## What is read -/

section Decoded

variable [Consistent N] [Consistent M] {d : PathElement N → PathElement M} {s : FieldSet N}

omit [Consistent M] in
/-- Members are read as they would be under their own path elements. -/
theorem writtenMembers_read (respects : Respects d) : List.Forall₂
    (fun written pe => (d written == d pe) = true) (writtenMembers s.members s.children)
      s.members := by
  refine writtenMembers_forall₂.imp fun written pe cases => ?_
  rcases cases with rfl | ⟨-, notBelow, notAbove⟩
  · exact respects (BEq.refl _)
  · exact respects (BEq.symm (Join.same_of_not_lt notBelow notAbove))

omit [Consistent N] in
private theorem children_read :
    ∀ node ∈ (s.decode d).children, ∃ child ∈ s.children, node.2 = child.2.decode d := by
  have ofEntries : ∀ entry ∈ s.children.map fun node => (d node.1, node.2.decode d),
      ∃ child ∈ s.children, entry.2 = child.2.decode d := by
    intro entry member
    obtain ⟨child, inChildren, rfl⟩ := List.mem_map.mp member
    exact ⟨child, inChildren, rfl⟩
  have keeps : ∀ entry found : PathElement M × FieldSet M, (found.1 == entry.1) = true →
      ((found.1, entry.2).1 == found.1) = true := fun _ _ _ => BEq.refl _
  rw [decode_eq]
  exact insertAll_forall keeps List.Pairwise.nil (by simp) ofEntries
    fun entry member _ _ => ofEntries entry member

omit [Consistent N] in
private theorem children_ne_nil (some : s.children ≠ []) : (s.decode d).children ≠ [] := by
  rw [decode_eq]
  exact insertAll_ne_nil (fun _ _ _ => BEq.refl _) List.Pairwise.nil
    (Or.inl (mt List.map_eq_nil_iff.mp some))

private theorem members_ne_nil (respects : Respects d) (some : s.members ≠ []) :
    (s.decode d).members ≠ [] := by
  have written : (writtenMembers s.members s.children).map d ≠ [] := by
    rw [← List.length_pos_iff, List.length_map, (writtenMembers_read respects).length_eq]
    exact List.length_pos_iff.mpr some
  rw [decode_eq]
  exact insertAll_ne_nil (fun _ _ _ => BEq.refl _) List.Pairwise.nil (Or.inl written)

theorem decode_canonical (respects : Respects d) (canonical : s.Canonical) :
    (s.decode d).Canonical ∧ (s.isEmpty = false → (s.decode d).isEmpty = false) := by
  induction canonical with
  | @intro s _ _ nodes nonEmpty ih =>
      have members : SortedBy id (s.decode d).members := by
        rw [decode_eq]
        exact insertMembers_sorted List.Pairwise.nil _
      have children : SortedBy Prod.fst (s.decode d).children := by
        rw [decode_eq]
        exact insertChildren_sorted List.Pairwise.nil _
      have full : ∀ node ∈ (s.decode d).children, node.2.isEmpty = false := by
        intro node member
        obtain ⟨child, inChildren, isRead⟩ := children_read node member
        rw [isRead]
        exact (ih child inChildren).2 (nonEmpty child inChildren)
      refine ⟨.intro members children ?_ full, fun notEmpty => ?_⟩
      · intro node member
        obtain ⟨child, inChildren, isRead⟩ := children_read node member
        rw [isRead]
        exact (ih child inChildren).1
      · rw [Bool.eq_false_iff]
        intro empty
        obtain ⟨noMembers, emptyNodes⟩ := isEmpty_iff.mp empty
        have noChildren : (s.decode d).children = [] := by
          rw [List.eq_nil_iff_forall_not_mem]
          intro node member
          have holds := full node member
          rw [emptyNodes node member] at holds
          cases holds
        rw [Bool.eq_false_iff] at notEmpty
        apply notEmpty
        rw [isEmpty_iff]
        constructor
        · by_contra some
          exact members_ne_nil respects some noMembers
        · intro node member
          exact absurd noChildren (children_ne_nil (List.ne_nil_of_mem member))

/-! ## Paths -/

private theorem members_perm (respects : Respects d)
    (distinct : s.members.Pairwise fun first second => (d first == d second) = false) :
    (s.decode d).members.Perm ((writtenMembers s.members s.children).map d) := by
  rw [decode_eq]
  apply insertMembers_perm
  rw [List.pairwise_map]
  refine pairwise_of_forall₂ (writtenMembers_read respects) (fun same same' different => ?_) distinct
  rw [BEq.congr_left same, BEq.congr_right same']
  exact different

omit [Consistent N] in
private theorem children_perm
    (distinct : s.children.Pairwise fun first second => (d first.1 == d second.1) = false) :
    (s.decode d).children.Perm (s.children.map fun node => (d node.1, node.2.decode d)) := by
  rw [decode_eq]
  apply insertChildren_perm
  rw [List.pairwise_map]
  exact distinct

private theorem has_single_decode (respects : Respects d) (canonical : s.Canonical)
    (distinct : s.members.Pairwise fun first second => (d first == d second) = false)
    (pe : PathElement M) :
    (s.decode d).has [pe] = true ↔ ∃ member ∈ s.members, (d member == pe) = true := by
  have read := writtenMembers_read respects (s := s)
  rw [has_singleton, membersHas_eq (decode_canonical respects canonical).1.members, lookupBy,
    List.find?_isSome]
  simp only [(members_perm respects distinct).mem_iff, List.mem_map, exists_exists_and_eq_and, id]
  constructor
  · rintro ⟨written, member, same⟩
    obtain ⟨own, inMembers, sameRead⟩ := exists_of_mem_left read member
    exact ⟨own, inMembers, BEq.trans (BEq.symm sameRead) same⟩
  · rintro ⟨own, inMembers, same⟩
    obtain ⟨written, member, sameRead⟩ := exists_of_mem_right read inMembers
    exact ⟨written, member, BEq.trans sameRead same⟩

private theorem has_beneath_decode (respects : Respects d) (canonical : s.Canonical)
    (distinct : s.children.Pairwise fun first second => (d first.1 == d second.1) = false)
    (pe : PathElement M) (rest : Path M) :
    ((s.decode d).withPrefix pe).has rest = true ↔
      ∃ node ∈ s.children, (d node.1 == pe) = true ∧ (node.2.decode d).has rest = true := by
  have perm : (s.decode d).children.Perm (s.children.map fun node => (d node.1, node.2.decode d)) :=
    children_perm distinct
  have canonicalRead := (decode_canonical respects canonical).1
  rw [withPrefix_eq canonicalRead]
  constructor
  · intro has
    cases found : lookupBy Prod.fst pe (s.decode d).children with
    | none =>
        rw [found, Option.map_none, Option.getD_none, has_nil] at has
        cases has
    | some read =>
        rw [found, Option.map_some, Option.getD_some] at has
        obtain ⟨node, inChildren, rfl⟩ :=
          List.mem_map.mp (perm.mem_iff.mp (mem_of_lookupBy found))
        have same : (Prod.fst (d node.1, node.2.decode d) == pe) = true := key_of_lookupBy found
        exact ⟨node, inChildren, same, has⟩
  · rintro ⟨node, inChildren, same, has⟩
    have member : (d node.1, node.2.decode d) ∈ (s.decode d).children :=
      perm.mem_iff.mpr (List.mem_map_of_mem inChildren)
    rw [lookupBy_of_mem canonicalRead.children member same]
    exact has

/-- The paths that are read are those of the set, element by element. -/
theorem has_decode (respects : Respects d) (canonical : s.Canonical) (separate : Separate d s)
    (path : Path M) :
    (s.decode d).has path = true ↔ ∃ own ∈ s.iterate, (own.map d == path) = true := by
  induction path generalizing s with
  | nil =>
      rw [has_root]
      simp only [Bool.false_eq_true, false_iff, not_exists, not_and]
      rintro own member same
      have isRoot : own = [] := by simpa using same
      exact ne_nil_of_mem_iterate s (isRoot ▸ member)
  | cons pe rest ih =>
      obtain ⟨distinctMembers, distinctChildren, separateNodes⟩ := separate
      by_cases isLast : rest = []
      · subst isLast
        rw [has_single_decode respects canonical distinctMembers]
        constructor
        · rintro ⟨member, inMembers, same⟩
          exact ⟨[member], mem_iterate.mpr (Or.inl ⟨member, inMembers, rfl⟩), by simp [same]⟩
        · rintro ⟨own, inPaths, same⟩
          rcases mem_iterate.mp inPaths with ⟨member, inMembers, rfl⟩ |
            ⟨node, inChildren, later, inLater, rfl⟩
          · exact ⟨member, inMembers, by simpa using same⟩
          · obtain ⟨-, isRoot⟩ : (d node.1 == pe) = true ∧ later = [] := by simpa using same
            exact absurd (isRoot ▸ inLater) (ne_nil_of_mem_iterate _)
      · rw [has_cons _ _ isLast, has_beneath_decode respects canonical distinctChildren]
        constructor
        · rintro ⟨node, inChildren, same, has⟩
          obtain ⟨later, inLater, sameRest⟩ := (ih
            (canonical.nodes node inChildren) (separateNodes node inChildren)).mp has
          exact ⟨node.1 :: later, mem_iterate.mpr (Or.inr ⟨node, inChildren, later, inLater, rfl⟩),
            by simp [same, sameRest]⟩
        · rintro ⟨own, inPaths, same⟩
          rcases mem_iterate.mp inPaths with ⟨member, -, rfl⟩ |
            ⟨node, inChildren, later, inLater, rfl⟩
          · obtain ⟨-, isRoot⟩ : (d member == pe) = true ∧ [] = rest := by simpa using same
            exact absurd isRoot.symm isLast
          · obtain ⟨sameHead, sameRest⟩ : (d node.1 == pe) = true ∧ (later.map d == rest) = true := by
              simpa using same
            exact ⟨node, inChildren, sameHead, (ih
              (canonical.nodes node inChildren) (separateNodes node inChildren)).mpr
                ⟨later, inLater, sameRest⟩⟩

omit [Numeric N] [Consistent N] in
private theorem eq_of_read {α : Type} {xs : List α} {read : α → PathElement M}
    (distinct : xs.Pairwise fun first second => (read first == read second) = false)
    {first second : α} (inFirst : first ∈ xs) (inSecond : second ∈ xs)
    (same : (read first == read second) = true) : first = second := by
  by_contra different
  have symmetric : Std.Symm fun first second => (read first == read second) = false :=
    ⟨fun _ _ apart => by rw [BEq.comm, apart]⟩
  rw [distinct.forall inFirst inSecond different] at same
  cases same

omit [Numeric N] [Consistent N] in
/-- Different paths of the set are read as different ones. -/
theorem eq_of_separate (separate : Separate d s) {first second : Path N}
    (inFirst : first ∈ s.iterate) (inSecond : second ∈ s.iterate)
    (same : (first.map d == second.map d) = true) : first = second := by
  induction separate generalizing first second with
  | intro members children _ ih =>
      rcases mem_iterate.mp inFirst with ⟨pe, isMember, rfl⟩ |
          ⟨node, isChild, rest, inRest, rfl⟩ <;>
        rcases mem_iterate.mp inSecond with ⟨pe', isMember', rfl⟩ |
          ⟨node', isChild', rest', inRest', rfl⟩ <;>
        simp only [List.map_cons, List.map_nil, List.cons_beq_cons, Bool.and_eq_true] at same
      · rw [eq_of_read members isMember isMember' same.1]
      · have isRoot : rest' = [] := by simpa using same.2
        exact absurd (isRoot ▸ inRest') (ne_nil_of_mem_iterate _)
      · have isRoot : rest = [] := by simpa using same.2
        exact absurd (isRoot ▸ inRest) (ne_nil_of_mem_iterate _)
      · have sameNode : node = node' := eq_of_read children isChild isChild' same.1
        subst sameNode
        rw [ih node isChild inRest inRest' same.2]

/-! ## Size -/

omit [Numeric N] [Consistent N] in
theorem sizeChildren_eq_sum (children : List (PathElement N × FieldSet N)) :
    sizeChildren children = (children.map fun node => node.2.size).sum := by
  induction children with
  | nil => rfl
  | cons head tail ih => simp [sizeChildren, ih]

omit [Numeric N] [Consistent N] in
theorem size_eq_sum (s : FieldSet N) :
    s.size = s.members.length + (s.children.map fun node => node.2.size).sum := by
  obtain ⟨members, children⟩ := s
  rw [size, sizeChildren_eq_sum]

private theorem members_length_le (respects : Respects d) :
    (s.decode d).members.length ≤ s.members.length := by
  have bound := insertMembers_length_le ((writtenMembers s.members s.children).map d)
  rw [List.length_map, (writtenMembers_read respects).length_eq] at bound
  rw [decode_eq]
  exact bound

private theorem members_apart (respects : Respects d)
    (kept : (s.decode d).members.length = s.members.length) :
    s.members.Pairwise fun first second => (d first == d second) = false := by
  have read := writtenMembers_read respects (s := s)
  have distinct : ((writtenMembers s.members s.children).map d).Pairwise
      fun first second => (first == second) = false := by
    apply distinct_of_insertMembers
    rw [List.length_map, read.length_eq, ← kept, decode_eq]
  rw [List.pairwise_map] at distinct
  refine pairwise_of_forall₂ read.flip (fun same same' different => ?_) distinct
  rw [← BEq.congr_left same, ← BEq.congr_right same']
  exact different

omit [Consistent N] in
private theorem children_size_le : ((s.decode d).children.map fun node => node.2.size).sum ≤
    (s.children.map fun node => (node.2.decode d).size).sum := by
  have bound := insertChildren_size_le (s.children.map fun node => (d node.1, node.2.decode d))
  rw [List.map_map] at bound
  rw [decode_eq]
  exact bound

theorem size_decode_le (respects : Respects d) (canonical : s.Canonical) :
    (s.decode d).size ≤ s.size := by
  induction canonical with
  | @intro s _ _ _ _ ih =>
      have nodes : (s.children.map fun node => (node.2.decode d).size).sum ≤
          (s.children.map fun node => node.2.size).sum :=
        List.sum_le_sum ih
      have members := members_length_le respects (s := s)
      have children := children_size_le (d := d) (s := s)
      rw [size_eq_sum, size_eq_sum]
      omega

/-- Whatever is lost had a path element that is read as another one. -/
theorem separate_of_size (respects : Respects d) (canonical : s.Canonical)
    (kept : (s.decode d).size = s.size) : Separate d s := by
  induction canonical with
  | @intro s _ _ canonicalNodes nonEmpty ih =>
      have bounds : ∀ node ∈ s.children, (node.2.decode d).size ≤ node.2.size :=
        fun node member => size_decode_le respects (canonicalNodes node member)
      have nodes : (s.children.map fun node => (node.2.decode d).size).sum ≤
          (s.children.map fun node => node.2.size).sum := List.sum_le_sum bounds
      have members := members_length_le respects (s := s)
      have children := children_size_le (d := d) (s := s)
      rw [size_eq_sum, size_eq_sum] at kept
      refine .intro (members_apart respects (by omega)) ?_ ?_
      · have keptChildren : ((s.decode d).children.map fun node => node.2.size).sum =
            (s.children.map fun node => (node.2.decode d).size).sum := by omega
        have distinct : (s.children.map fun node => (d node.1, node.2.decode d)).Pairwise
            fun first second => (first.1 == second.1) = false := by
          apply distinct_of_insertChildren
          · intro entry member
            obtain ⟨node, inChildren, rfl⟩ := List.mem_map.mp member
            exact size_pos ((decode_canonical respects (canonicalNodes node inChildren)).2
              (nonEmpty node inChildren))
          · rw [List.map_map]
            rw [decode_eq] at keptChildren
            exact keptChildren
        exact List.pairwise_map.mp distinct
      · intro node member
        apply ih node member
        by_contra lost
        have fewer := List.sum_lt_sum _ _ bounds
          ⟨node, member, Nat.lt_of_le_of_ne (bounds node member) lost⟩
        omega

/-- If path elements stay apart, nothing is lost. -/
theorem size_decode (respects : Respects d) (canonical : s.Canonical) (separate : Separate d s) :
    (s.decode d).size = s.size := by
  induction canonical with
  | @intro s _ _ _ _ ih =>
      obtain ⟨distinctMembers, distinctChildren, separateNodes⟩ := separate
      have members := (members_perm respects distinctMembers).length_eq
      rw [List.length_map, (writtenMembers_read respects).length_eq] at members
      have children := ((children_perm distinctChildren).map fun node => node.2.size).sum_eq
      rw [List.map_map] at children
      rw [size_eq_sum, size_eq_sum, members, children]
      congr 2
      exact List.map_congr_left fun node member =>
        ih node member (separateNodes node member)

end Decoded

/-! ## Faithful codecs -/

section Faithful

variable (lib : JSONLibrary N N)

/-- The path elements of the set are read as equal ones, and different ones have
different texts. -/
structure Faithful (s : FieldSet N) : Prop where
  reads : ∀ pe ∈ s.elements, ∃ text read, serializePathElement lib pe = .ok text ∧
    deserializePathElement lib text = .ok read ∧ (read == pe) = true
  distinct : ∀ first ∈ s.elements, ∀ second ∈ s.elements, (first == second) = false →
    serializePathElement lib first ≠ serializePathElement lib second

/-- The set is written, and read back as an equal canonical set. -/
def RoundTrips (s : FieldSet N) : Prop :=
  ∃ document read, s.toJSON lib = .ok document ∧ fromJSON lib document = (read, none) ∧
    read.Canonical ∧ read.equals s = true

/-- What the path element is read as, if that is equal to it. -/
def readAs (pe : PathElement N) : PathElement N :=
  match serializePathElement lib pe with
  | .ok text =>
      match deserializePathElement lib text with
      | .ok read => if read == pe then read else pe
      | .error _ => pe
  | .error _ => pe

variable {lib}

theorem readAs_beq [Consistent N] (pe : PathElement N) : (readAs lib pe == pe) = true := by
  unfold readAs
  split
  · split
    · split
      · next same => exact same
      · exact BEq.refl pe
    · exact BEq.refl pe
  · exact BEq.refl pe

omit [Numeric N] in
private theorem map_beq [BEq (PathElement N)] {d : PathElement N → PathElement N}
    (equal : ∀ pe, (d pe == pe) = true) (path : Path N) : (path.map d == path) = true := by
  induction path with
  | nil => rfl
  | cons pe rest ih => simp [equal, ih]

variable [Consistent N] {s : FieldSet N}

/-- A map to equal path elements keeps those of a canonical set apart. -/
theorem separate_of_beq {d : PathElement N → PathElement N} (equal : ∀ pe, (d pe == pe) = true)
    (canonical : s.Canonical) : Separate d s := by
  have apart : ∀ {first second : PathElement N}, compare first second = .lt →
      (d first == d second) = false := by
    intro first second below
    rw [BEq.congr_left (equal first), BEq.congr_right (equal second), Bool.eq_false_iff, ne_eq,
      ← compare_eq_iff_beq, below]
    simp
  induction canonical with
  | intro members children _ _ ih =>
      exact .intro (members.imp fun below => apart below) (children.imp fun below => apart below)
        ih

theorem roundTrips_of_faithful (canonical : s.Canonical) (faithful : Faithful lib s) :
    RoundTrips lib s := by
  have respects : Respects (readAs lib) := fun same =>
    BEq.trans (readAs_beq _) (BEq.trans same (BEq.symm (readAs_beq _)))
  have decodes : ∀ pe ∈ s.elements, Decodes lib (readAs lib) pe := by
    intro pe member
    obtain ⟨text, read, isText, isRead, same⟩ := faithful.reads pe member
    refine ⟨text, isText, ?_⟩
    rw [isRead, readAs, isText]
    simp only [isRead, if_pos same]
  obtain ⟨document, written, isRead⟩ := fromJSON_toJSON canonical decodes
  have canonicalRead := (decode_canonical respects canonical).1
  refine ⟨document, s.decode (readAs lib), written, isRead, canonicalRead, ?_⟩
  rw [equals_iff_has canonicalRead canonical]
  intro path
  rw [Bool.eq_iff_iff, has_decode respects canonical (separate_of_beq readAs_beq canonical),
    has_iff_mem_iterate canonical]
  exact exists_congr fun own => and_congr_right fun _ => by
    rw [BEq.congr_left (map_beq readAs_beq own)]

end Faithful

/-! ## Collisions -/

section Collisions

variable (collision : Collision N)

/-- A library that tells the three numbers of a collision apart. -/
def collidingLibrary : JSONLibrary N N where
  writeVal
    | .number n =>
        if Numeric.number n = Numeric.number collision.low then "low"
        else if Numeric.number n = Numeric.number collision.high then "high"
        else "float"
    | _ => ""
  read
    | "low" => .ok (.number collision.low)
    | "high" => .ok (.number collision.high)
    | "float" => .ok (.number collision.float)
    | _ => .error "no number"
  writeObject := fun _ => ""
  readObject := fun _ => .error "no object"
  writeInt := fun _ => ""
  atoi := fun _ => .error "no index"

/-- The two integers as members, and the float as a child. -/
def collidingSet : FieldSet N :=
  { members := [numberElement collision.low, numberElement collision.high]
    children := [(numberElement collision.float, { members := [.fieldName "x"], children := [] })] }

theorem collidingSet_canonical : (collidingSet collision).Canonical := by
  refine .intro ?_ (List.pairwise_singleton _ _) ?_ ?_
  · exact List.pairwise_pair.mpr collision.compare_low_high
  · intro node member
    cases List.mem_singleton.mp member
    exact .intro (List.pairwise_singleton _ _) List.Pairwise.nil (by simp) (by simp)
  · intro node member
    cases List.mem_singleton.mp member
    rfl

private theorem numberElement_self (x : N) : (numberElement x == numberElement x) = true := by
  rw [beq_numberElement, ← compareNumbers_eq_iff, compareNumbers_self]

private theorem compareNumbers_congr {x y : N} (same : Numeric.number x = Numeric.number y) (z : N) :
    compareNumbers z x = compareNumbers z y := by
  rw [compareNumbers, compareNumbers, same]

private theorem collision_apart :
    Numeric.number collision.high ≠ Numeric.number collision.low ∧
      Numeric.number collision.float ≠ Numeric.number collision.low ∧
      Numeric.number collision.float ≠ Numeric.number collision.high := by
  refine ⟨fun same => ?_, fun same => ?_, fun same => ?_⟩
  · have below := collision.below
    rw [compareNumbers_congr same, compareNumbers_self] at below
    cases below
  · have above := collision.highRounds
    rw [compareNumbers_congr same, compareNumbers_swap, collision.below] at above
    cases above
  · have below := collision.lowRounds
    rw [compareNumbers_congr same, collision.below] at below
    cases below

private theorem serialize_low : serializePathElement (collidingLibrary collision)
    (numberElement collision.low) = .ok "v:low" := by
  simp [serializePathElement, numberElement, collidingLibrary]

private theorem serialize_high : serializePathElement (collidingLibrary collision)
    (numberElement collision.high) = .ok "v:high" := by
  simp [serializePathElement, numberElement, collidingLibrary, (collision_apart collision).1]

private theorem serialize_float : serializePathElement (collidingLibrary collision)
    (numberElement collision.float) = .ok "v:float" := by
  simp [serializePathElement, numberElement, collidingLibrary, (collision_apart collision).2]

private theorem deserialize_low : deserializePathElement (collidingLibrary collision) "v:low" =
    .ok (numberElement collision.low) :=
  deserialize_value _ "low"

private theorem deserialize_high : deserializePathElement (collidingLibrary collision) "v:high" =
    .ok (numberElement collision.high) :=
  deserialize_value _ "high"

private theorem deserialize_float : deserializePathElement (collidingLibrary collision) "v:float" =
    .ok (numberElement collision.float) :=
  deserialize_value _ "float"

private theorem deserialize_x : deserializePathElement (collidingLibrary collision) "f:x" =
    .ok (.fieldName "x") :=
  deserialize_fieldName _ "x"

theorem collidingLibrary_faithful :
    Faithful (collidingLibrary collision) (collidingSet collision) := by
  have elements : (collidingSet collision).elements = [numberElement collision.low,
      numberElement collision.high, numberElement collision.float, .fieldName "x"] := rfl
  have each : ∀ pe ∈ (collidingSet collision).elements, ∃ text,
      serializePathElement (collidingLibrary collision) pe = .ok text ∧
        deserializePathElement (collidingLibrary collision) text = .ok pe ∧ (pe == pe) = true := by
    intro pe member
    simp only [elements, List.mem_cons, List.not_mem_nil, or_false] at member
    rcases member with rfl | rfl | rfl | rfl
    · exact ⟨_, serialize_low collision, deserialize_low collision, numberElement_self _⟩
    · exact ⟨_, serialize_high collision, deserialize_high collision, numberElement_self _⟩
    · exact ⟨_, serialize_float collision, deserialize_float collision, numberElement_self _⟩
    · exact ⟨_, rfl, deserialize_x collision, beq_self_eq_true "x"⟩
  constructor
  · intro pe member
    obtain ⟨text, isText, isRead, same⟩ := each pe member
    exact ⟨text, pe, isText, isRead, same⟩
  · intro first inFirst second inSecond different sameText
    obtain ⟨text, isText, isRead, same⟩ := each first inFirst
    obtain ⟨text', isText', isRead', -⟩ := each second inSecond
    have texts : text = text' := Except.ok.inj (isText.symm.trans (sameText.trans isText'))
    have isFirst : first = second := by
      rw [← texts, isRead] at isRead'
      exact Except.ok.inj isRead'
    rw [← isFirst, same] at different
    cases different

/-- The higher integer is not inserted next to the float. -/
theorem collidingSet_read : ∃ document,
    (collidingSet collision).toJSON (collidingLibrary collision) = .ok document ∧
      (fromJSON (collidingLibrary collision) document).1.members =
        [numberElement collision.float] := by
  have child : emitContentsV1 (collidingLibrary collision) true
      (⟨[.fieldName "x"], []⟩ : FieldSet N) = .ok [(".", .object []), ("f:x", .object [])] := rfl
  refine ⟨.object [("v:float", .object [(".", .object []), ("f:x", .object [])]),
    ("v:high", .object [])], ?_, ?_⟩
  · rw [toJSON, emitContentsV1_eq, emitBody]
    simp only [collidingSet, Join.run, Join.head, interleave, id, collision.compare_low_float,
      collision.compare_float collision.lowRounds, reduceCtorEq,
      if_false, List.filterMap_nil, Option.toList_some, List.singleton_append, List.append_nil,
      List.mapM_cons, List.mapM_nil, emitWritten, serialize_float, serialize_high, child]
    rfl
  · have sub : readIterV1 (collidingLibrary collision)
        (.object [(".", .object []), ("f:x", .object [])]) =
          ⟨some ⟨[.fieldName "x"], []⟩, true, none⟩ := rfl
    have empty : readIterV1 (collidingLibrary collision) (.object []) = ⟨none, true, none⟩ := rfl
    have float : Reading.start.field (collidingLibrary collision) "v:float"
        ⟨some ⟨[.fieldName "x"], []⟩, true, none⟩ = ⟨some ⟨[numberElement collision.float],
          [(numberElement collision.float, ⟨[.fieldName "x"], []⟩)]⟩, false, none⟩ := by
      rw [Reading.field, if_neg (by decide), deserialize_float]
      rfl
    have inserted : insertBy id .unset id (numberElement collision.high)
        [numberElement collision.float] = [numberElement collision.float] := by
      have same : (numberElement collision.float == numberElement collision.high) = true := by
        rw [← compare_eq_iff_beq, collision.compare_float collision.highRounds]
      simp [insertBy, locate, search, searchLoop, collision.compare_float collision.highRounds, same]
    rw [fromJSON, readIterV1, readFields, readFields, readFields, sub, empty, float, Reading.field,
      if_neg (by decide), deserialize_high]
    simp [Reading.add, Reading.reportError, Reading.addMember, Reading.appendOK, Reading.finish,
      collision.compare_float collision.highRounds, inserted]

theorem collidingSet_not_roundTrips :
    ¬ RoundTrips (collidingLibrary collision) (collidingSet collision) := by
  rintro ⟨document, read, written, isRead, -, equal⟩
  obtain ⟨other, written', members⟩ := collidingSet_read collision
  cases written.symm.trans written'
  rw [isRead] at members
  have pairs := ((equals_iff_forall₂ _ _).mp equal).1
  rw [members] at pairs
  have lengths := pairs.length_eq
  simp [collidingSet] at lengths

end Collisions

end FieldSet

end StructuredMergeDiff
