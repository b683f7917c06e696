import Mathlib.Data.List.Basic

/-!
Contract: slices over shared backing arrays, and walks that extend one slice.

A slice is the first part of an array. Appending to it writes the array in
place while the array has room, whoever else looks at it, and copies into a
larger one when it is full. A walk over a forest that appends to one slice at
every branch therefore writes the branches of a level into one slot, unless the
slice was full.

Owns: `append` and its laws, `Forest.collect`, and `Forest.collect_reads_iff`,
which says when every slice handed out by the walk still reads as the path to
its leaf.
-/

namespace StructuredMergeDiff.Library

/-- The arrays, each as long as its capacity. -/
abbrev Heap (ε : Type) := List (List ε)

structure Slice where
  array : Nat
  length : Nat
deriving DecidableEq, Repr

variable {ε α : Type}

def Heap.cells (heap : Heap ε) (array : Nat) : List ε :=
  heap.getD array []

namespace Slice

def read (slice : Slice) (heap : Heap ε) : List ε :=
  (heap.cells slice.array).take slice.length

def capacity (slice : Slice) (heap : Heap ε) : Nat :=
  (heap.cells slice.array).length

/-- The slice lies in an array of the heap. -/
structure Valid (slice : Slice) (heap : Heap ε) : Prop where
  allocated : slice.array < heap.length
  within : slice.length ≤ slice.capacity heap

/-- The slice with one more element, and the heap that then holds it. A full
slice moves to a new array, whose size `grow` gives. -/
def append [Inhabited ε] (grow : Nat → Nat) (slice : Slice) (x : ε) (heap : Heap ε) :
    Heap ε × Slice :=
  let backing := heap.cells slice.array
  if slice.length < backing.length then
    (heap.set slice.array (backing.set slice.length x), ⟨slice.array, slice.length + 1⟩)
  else
    (heap ++ [backing ++ x :: List.replicate (grow backing.length - (backing.length + 1)) default],
      ⟨heap.length, slice.length + 1⟩)

/-- What a computation on the slice may do to the heap: other arrays stay, and
of the slice's own array at most what lies beyond the slice changes. -/
structure Extends (slice : Slice) (heap later : Heap ε) : Prop where
  grows : heap.length ≤ later.length
  others : ∀ array < heap.length, array ≠ slice.array → later.cells array = heap.cells array
  capacity : slice.capacity later = slice.capacity heap
  read : slice.read later = slice.read heap

theorem Extends.refl (slice : Slice) (heap : Heap ε) : slice.Extends heap heap :=
  ⟨Nat.le_refl _, fun _ _ _ => rfl, rfl, rfl⟩

theorem Extends.trans {slice : Slice} {first second third : Heap ε}
    (early : slice.Extends first second) (late : slice.Extends second third) :
    slice.Extends first third where
  grows := Nat.le_trans early.grows late.grows
  others := fun array inFirst other =>
    (late.others array (Nat.lt_of_lt_of_le inFirst early.grows) other).trans
      (early.others array inFirst other)
  capacity := late.capacity.trans early.capacity
  read := late.read.trans early.read

theorem Extends.valid {slice : Slice} {heap later : Heap ε} (extended : slice.Extends heap later)
    (valid : slice.Valid heap) : slice.Valid later where
  allocated := Nat.lt_of_lt_of_le valid.allocated extended.grows
  within := by
    rw [extended.capacity]
    exact valid.within

theorem Extends.read_other {slice other : Slice} {heap later : Heap ε}
    (extended : slice.Extends heap later) (allocated : other.array < heap.length)
    (apart : other.array ≠ slice.array) : other.read later = other.read heap := by
  simp only [Slice.read, extended.others other.array allocated apart]

/-- Arrays keep their size, so every slice stays within its own. -/
theorem Extends.valid_other {slice other : Slice} {heap later : Heap ε}
    (extended : slice.Extends heap later) (valid : other.Valid heap) : other.Valid later where
  allocated := Nat.lt_of_lt_of_le valid.allocated extended.grows
  within := by
    refine Nat.le_trans valid.within (Nat.le_of_eq ?_)
    by_cases same : other.array = slice.array
    · have capacity := extended.capacity
      rw [Slice.capacity, Slice.capacity, ← same] at capacity
      exact capacity.symm
    · exact (congrArg List.length (extended.others _ valid.allocated same)).symm

/-- What leaves a slice alone leaves its initial parts alone. -/
theorem Extends.shorten {array long short : Nat} {heap later : Heap ε}
    (extended : Extends ⟨array, long⟩ heap later) (shorter : short ≤ long) :
    Extends ⟨array, short⟩ heap later where
  grows := extended.grows
  others := extended.others
  capacity := extended.capacity
  read := by
    have same := congrArg (List.take short) extended.read
    simpa only [Slice.read, List.take_take, Nat.min_eq_left shorter] using same

/-- A heap in which every array stands as before. -/
theorem extends_of_kept {slice : Slice} {heap later : Heap ε} (valid : slice.Valid heap)
    (grows : heap.length ≤ later.length)
    (kept : ∀ array < heap.length, later.cells array = heap.cells array) :
    slice.Extends heap later where
  grows := grows
  others := fun array allocated _ => kept array allocated
  capacity := congrArg List.length (kept slice.array valid.allocated)
  read := congrArg (List.take slice.length) (kept slice.array valid.allocated)

/-! ## The two cases of `append` -/

variable [Inhabited ε] {grow : Nat → Nat} {slice : Slice} {heap : Heap ε}

/-- With room to spare the element is written into the array of the slice. -/
theorem append_in_place (x : ε) (room : slice.length < slice.capacity heap) :
    slice.append grow x heap =
      (heap.set slice.array ((heap.cells slice.array).set slice.length x),
        ⟨slice.array, slice.length + 1⟩) :=
  if_pos room

/-- A full slice is copied. -/
theorem append_copies (x : ε) (full : ¬ slice.length < slice.capacity heap) :
    slice.append grow x heap =
      (heap ++ [heap.cells slice.array ++ x :: List.replicate
          (grow (slice.capacity heap) - (slice.capacity heap + 1)) default],
        ⟨heap.length, slice.length + 1⟩) :=
  if_neg full

section

omit [Inhabited ε]

private theorem cells_set_self (allocated : slice.array < heap.length) (cells : List ε) :
    Heap.cells (heap.set slice.array cells) slice.array = cells := by
  simp [Heap.cells, List.getD, allocated]

private theorem cells_set_of_ne {array : Nat} (other : array ≠ slice.array) (cells : List ε) :
    Heap.cells (heap.set slice.array cells) array = heap.cells array := by
  simp [Heap.cells, List.getD, List.getElem?_set_ne (Ne.symm other)]

private theorem cells_append_of_lt {array : Nat} (allocated : array < heap.length)
    (cells : List ε) : Heap.cells (heap ++ [cells]) array = heap.cells array := by
  simp [Heap.cells, List.getD, List.getElem?_append_left allocated]

private theorem cells_append_self (cells : List ε) :
    Heap.cells (heap ++ [cells]) heap.length = cells := by
  simp [Heap.cells, List.getD]

end

theorem append_extends (valid : slice.Valid heap) (x : ε) :
    slice.Extends heap (slice.append grow x heap).1 := by
  by_cases room : slice.length < slice.capacity heap
  · rw [append_in_place x room]
    constructor
    · show heap.length ≤ (heap.set _ _).length
      exact Nat.le_of_eq List.length_set.symm
    · exact fun array _ other => cells_set_of_ne other _
    · show (Heap.cells (heap.set _ _) _).length = _
      rw [cells_set_self valid.allocated, List.length_set]
      rfl
    · show (Heap.cells (heap.set _ _) _).take _ = _
      rw [cells_set_self valid.allocated, List.take_set_of_le (Nat.le_refl _)]
      rfl
  · rw [append_copies x room]
    exact extends_of_kept valid (by simp) fun array allocated => cells_append_of_lt allocated _

theorem append_length (x : ε) : (slice.append grow x heap).2.length = slice.length + 1 := by
  by_cases room : slice.length < slice.capacity heap
  · rw [append_in_place x room]
  · rw [append_copies x room]

theorem append_array (x : ε) (room : slice.length < slice.capacity heap) :
    (slice.append grow x heap).2.array = slice.array := by
  rw [append_in_place x room]

theorem length_lt_append (x : ε) : slice.length < (slice.append grow x heap).2.length :=
  Nat.lt_of_lt_of_eq (Nat.lt_succ_self _) (append_length x).symm

section

variable (valid : slice.Valid heap) (x : ε)

include valid x

theorem append_read :
    (slice.append grow x heap).2.read (slice.append grow x heap).1 = slice.read heap ++ [x] := by
  by_cases room : slice.length < slice.capacity heap
  · rw [append_in_place x room]
    show (Heap.cells (heap.set _ _) slice.array).take (slice.length + 1) = _
    rw [cells_set_self valid.allocated, List.take_add_one, List.take_set_of_le (Nat.le_refl _),
      List.getElem?_set_self room]
    rfl
  · have full : (heap.cells slice.array).length = slice.length :=
      Nat.le_antisymm (Nat.not_lt.mp room) valid.within
    rw [append_copies x room]
    show (Heap.cells (heap ++ [_]) heap.length).take (slice.length + 1) = _
    rw [cells_append_self, ← full, List.take_length_add_append]
    simp [Slice.read, ← full]

theorem append_capacity (larger : slice.capacity heap < grow (slice.capacity heap)) :
    (slice.append grow x heap).2.capacity (slice.append grow x heap).1 =
      if slice.length < slice.capacity heap then slice.capacity heap
      else grow (slice.capacity heap) := by
  by_cases room : slice.length < slice.capacity heap
  · rw [append_in_place x room, if_pos room]
    show (Heap.cells (heap.set _ _) slice.array).length = _
    rw [cells_set_self valid.allocated, List.length_set]
    rfl
  · rw [append_copies x room, if_neg room]
    show (Heap.cells (heap ++ [_]) heap.length).length = _
    rw [cells_append_self, List.length_append, List.length_cons, List.length_replicate]
    show slice.capacity heap + _ = _
    omega

theorem append_valid (larger : slice.capacity heap < grow (slice.capacity heap)) :
    (slice.append grow x heap).2.Valid (slice.append grow x heap).1 where
  allocated := by
    by_cases room : slice.length < slice.capacity heap
    · rw [append_in_place x room]
      exact List.length_set.symm ▸ valid.allocated
    · rw [append_copies x room]
      simp
  within := by
    rw [append_capacity valid x larger, append_length]
    have bound := valid.within
    split <;> omega

/-- What happens beyond the extended slice happens beyond the slice itself. -/
theorem extends_of_append {later : Heap ε}
    (extended : (slice.append grow x heap).2.Extends (slice.append grow x heap).1 later) :
    slice.Extends heap later := by
  have step : slice.Extends heap (slice.append grow x heap).1 := append_extends valid x
  by_cases room : slice.length < slice.capacity heap
  · rw [append_in_place x room] at step extended
    exact step.trans (extended.shorten (Nat.le_succ _))
  · -- the slice moved, so the array it came from is one of the others
    rw [append_copies x room] at step extended
    refine extends_of_kept valid (Nat.le_trans step.grows extended.grows) fun array allocated => ?_
    rw [extended.others array (Nat.lt_of_lt_of_le allocated step.grows) (Nat.ne_of_lt allocated)]
    exact cells_append_of_lt allocated _

end

end Slice

/-! ## Walking a forest with one slice -/

/-- The branches of a level, each a labelled leaf or a level of its own. -/
inductive Forest (ε α : Type) where
  | nil
  | leaf (step : ε) (label : α) (rest : Forest ε α)
  | node (step : ε) (below rest : Forest ε α)
deriving Repr

namespace Forest

/-- The leaves with the paths to them. -/
def paths : Forest ε α → List ε → List (α × List ε)
  | .nil, _ => []
  | .leaf step label rest, path => (label, path ++ [step]) :: rest.paths path
  | .node step below rest, path => below.paths (path ++ [step]) ++ rest.paths path

/-- The paths relative to the level they start from. -/
theorem paths_eq (forest : Forest ε α) (path : List ε) :
    forest.paths path = (forest.paths []).map fun found => (found.1, path ++ found.2) := by
  induction forest generalizing path with
  | nil => rfl
  | leaf step label rest later => simp [paths, later path]
  | node step below rest inner later =>
      simp [paths, later path, inner (path ++ [step]), inner [step], Function.comp_def]

theorem mem_paths_leaf {step : ε} {label : α} {rest : Forest ε α} {found : α × List ε} :
    found ∈ (leaf step label rest).paths [] ↔
      found = (label, [step]) ∨ found ∈ rest.paths [] :=
  List.mem_cons

theorem mem_paths_node {step : ε} {below rest : Forest ε α} {label : α} {path : List ε} :
    (label, path) ∈ (node step below rest).paths [] ↔
      (∃ further, path = step :: further ∧ (label, further) ∈ below.paths []) ∨
        (label, path) ∈ rest.paths [] := by
  rw [paths, List.mem_append, paths_eq below]
  refine or_congr_left ?_
  simp only [List.mem_map, Prod.mk.injEq, Prod.exists]
  constructor
  · intro ⟨own, further, member, sameLabel, samePath⟩
    exact ⟨further, samePath.symm, sameLabel ▸ member⟩
  · intro ⟨further, samePath, member⟩
    exact ⟨label, further, member, rfl, samePath.symm⟩

/-- The steps of the branches of the level. -/
def steps : Forest ε α → List ε
  | .nil => []
  | .leaf step _ rest => step :: rest.steps
  | .node step _ rest => step :: rest.steps

/-- No two branches of a level have the same step. -/
def Distinct : Forest ε α → Prop
  | .nil => True
  | .leaf step _ rest => step ∉ rest.steps ∧ rest.Distinct
  | .node step below rest => step ∉ rest.steps ∧ below.Distinct ∧ rest.Distinct

variable {forest : Forest ε α}

theorem steps_of_mem_paths {label : α} {path : List ε} (member : (label, path) ∈ forest.paths []) :
    ∃ step further, path = step :: further ∧ step ∈ forest.steps := by
  induction forest generalizing path with
  | nil => cases member
  | leaf step label rest later =>
      rcases mem_paths_leaf.mp member with same | inRest
      · cases same
        exact ⟨step, [], rfl, List.mem_cons_self ..⟩
      · obtain ⟨own, further, same, inSteps⟩ := later inRest
        exact ⟨own, further, same, List.mem_cons_of_mem _ inSteps⟩
  | node step below rest inner later =>
      rcases mem_paths_node.mp member with ⟨further, same, _⟩ | inRest
      · exact ⟨step, further, same, List.mem_cons_self ..⟩
      · obtain ⟨own, further, same, inSteps⟩ := later inRest
        exact ⟨own, further, same, List.mem_cons_of_mem _ inSteps⟩

private theorem not_prefix_of_step {step : ε} (apart : step ∉ forest.steps) {label : α}
    {path further : List ε} (member : (label, path) ∈ forest.paths []) :
    ¬ step :: further <+: path ∧ ¬ path <+: step :: further := by
  obtain ⟨own, rest, rfl, inSteps⟩ := steps_of_mem_paths member
  rw [List.cons_prefix_cons, List.cons_prefix_cons]
  exact ⟨fun leads => apart (leads.1 ▸ inSteps), fun leads => apart (leads.1 ▸ inSteps)⟩

/-- No path leads on to another leaf. -/
theorem eq_of_prefix (distinct : forest.Distinct) {label other : α} {path longer : List ε}
    (member : (label, path) ∈ forest.paths []) (otherMember : (other, longer) ∈ forest.paths [])
    (leads : path <+: longer) :
    (label, path) = (other, longer) := by
  induction forest generalizing path longer with
  | nil => cases member
  | leaf step own rest later =>
      rcases mem_paths_leaf.mp member with same | inRest <;>
        rcases mem_paths_leaf.mp otherMember with otherSame | otherInRest
      · exact same.trans otherSame.symm
      · cases same
        exact absurd leads (not_prefix_of_step distinct.1 otherInRest).1
      · cases otherSame
        exact absurd leads (not_prefix_of_step distinct.1 inRest).2
      · exact later distinct.2 inRest otherInRest leads
  | node step below rest inner later =>
      rcases mem_paths_node.mp member with ⟨further, rfl, inBelow⟩ | inRest <;>
        rcases mem_paths_node.mp otherMember with ⟨otherFurther, rfl, otherInBelow⟩ | otherInRest
      · have same := inner distinct.2.1 inBelow otherInBelow (List.cons_prefix_cons.mp leads).2
        cases same
        rfl
      · exact absurd leads (not_prefix_of_step distinct.1 otherInRest).1
      · exact absurd leads (not_prefix_of_step distinct.1 inRest).2
      · exact later distinct.2.2 inRest otherInRest leads

/-- The walk that extends one slice for every branch and hands out the slice
of each leaf. -/
def collect [Inhabited ε] (grow : Nat → Nat) :
    Forest ε α → Slice → Heap ε → Heap ε × List (α × Slice)
  | .nil, _, heap => (heap, [])
  | .leaf step label rest, slice, heap =>
      let extended := slice.append grow step heap
      let later := collect grow rest slice extended.1
      (later.1, (label, extended.2) :: later.2)
  | .node step below rest, slice, heap =>
      let extended := slice.append grow step heap
      let inner := collect grow below extended.2 extended.1
      let later := collect grow rest slice inner.1
      (later.1, inner.2 ++ later.2)

/-- What the slices handed out read once the walk is over. -/
def reads [Inhabited ε] (grow : Nat → Nat) (forest : Forest ε α) (slice : Slice) (heap : Heap ε) :
    List (α × List ε) :=
  let walked := collect grow forest slice heap
  walked.2.map fun found => (found.1, found.2.read walked.1)

/-- Some slice of the level stays in the array the walk of the level began in. -/
def stays : Forest ε α → (length capacity : Nat) → Bool
  | .nil, _, _ => false
  | .leaf _ _ rest, length, capacity => decide (length < capacity) || rest.stays length capacity
  | .node _ below rest, length, capacity =>
      (decide (length < capacity) && below.stays (length + 1) capacity) ||
        rest.stays length capacity

/-- No slot is written again while a slice handed out before reads it. -/
def unshared (grow : Nat → Nat) : Forest ε α → (length capacity : Nat) → Bool
  | .nil, _, _ => true
  | .leaf _ _ rest, length, capacity =>
      (decide (capacity ≤ length) || rest.steps.isEmpty) && rest.unshared grow length capacity
  | .node _ below rest, length, capacity =>
      (if length < capacity then
        below.unshared grow (length + 1) capacity &&
          (!below.stays (length + 1) capacity || rest.steps.isEmpty)
      else below.unshared grow (length + 1) (grow capacity)) && rest.unshared grow length capacity

/-- How many levels lie below the outermost one. -/
def levels : Forest ε α → Nat
  | .nil => 0
  | .leaf _ _ rest => rest.levels
  | .node _ below rest => max (below.levels + 1) rest.levels

/-- While arrays grow by one element, every slice of the walk is full when it is
extended, and nothing is shared. -/
theorem unshared_of_levels {grow : Nat → Nat} {deepest : Nat}
    (grows : ∀ length < deepest, grow length = length + 1) {length : Nat}
    (shallow : length + forest.levels ≤ deepest) : forest.unshared grow length length = true := by
  induction forest generalizing length with
  | nil => rfl
  | leaf step label rest later => simp [unshared, later shallow]
  | node step below rest inner later =>
      simp only [levels] at shallow
      have inBelow : below.unshared grow (length + 1) (length + 1) = true := inner (by omega)
      simp only [unshared, Nat.lt_irrefl, if_false, Bool.and_eq_true, grows length (by omega)]
      exact ⟨inBelow, later (by omega)⟩

variable [Inhabited ε] {grow : Nat → Nat} (larger : ∀ capacity, capacity < grow capacity)
  {slice : Slice} {heap : Heap ε}

include larger in
/-- The walk of a level only writes beyond the slice it extends. -/
theorem collect_extends (forest : Forest ε α) (valid : slice.Valid heap) :
    slice.Extends heap (collect grow forest slice heap).1 := by
  induction forest generalizing slice heap with
  | nil => exact Slice.Extends.refl _ _
  | leaf step label rest later =>
      have extended : slice.Extends heap (slice.append grow step heap).1 :=
        Slice.append_extends valid step
      exact extended.trans (later (extended.valid valid))
  | node step below rest inner later =>
      have extended : slice.Extends heap _ := Slice.extends_of_append valid step
        (inner (Slice.append_valid valid step (larger _)))
      exact extended.trans (later (extended.valid valid))

theorem collect_labels (forest : Forest ε α) (path : List ε) :
    (collect grow forest slice heap).2.map Prod.fst = (forest.paths path).map Prod.fst := by
  induction forest generalizing slice heap path with
  | nil => rfl
  | leaf step label rest later => exact congrArg (List.cons label) (later path)
  | node step below rest inner later =>
      simp only [collect, paths, List.map_append]
      rw [inner (path ++ [step]), later path]

/-! ### Where the slices lie -/

include larger in
/-- A slice handed out lies in the array the walk began in, beyond the slice
extended, or in an array made by the walk. -/
theorem collect_origin (forest : Forest ε α) (valid : slice.Valid heap) {found : α × Slice}
    (member : found ∈ (collect grow forest slice heap).2) :
    found.2.array < (collect grow forest slice heap).1.length ∧
      (found.2.array = slice.array ∧ slice.length < found.2.length ∨
        heap.length ≤ found.2.array) := by
  induction forest generalizing slice heap with
  | nil => cases member
  | leaf step label rest later =>
      have extended : slice.Extends heap (slice.append grow step heap).1 :=
        Slice.append_extends valid step
      have validExtended := Slice.append_valid valid step (larger _)
      have grown := (collect_extends larger rest (extended.valid valid)).grows
      rcases List.mem_cons.mp member with rfl | inRest
      · refine ⟨Nat.lt_of_lt_of_le validExtended.allocated grown, ?_⟩
        by_cases room : slice.length < slice.capacity heap
        · rw [Slice.append_in_place step room]
          exact .inl ⟨rfl, Nat.lt_succ_self _⟩
        · rw [Slice.append_copies step room]
          exact .inr (Nat.le_refl _)
      · obtain ⟨allocated, place⟩ := later (extended.valid valid) inRest
        exact ⟨allocated, place.imp_right (Nat.le_trans extended.grows)⟩
  | node step below rest inner later =>
      have validExtended := Slice.append_valid valid step (larger _)
      have walked := collect_extends larger below validExtended
      have extended : slice.Extends heap _ := Slice.extends_of_append valid step walked
      have grown := (collect_extends larger rest (extended.valid valid)).grows
      rcases List.mem_append.mp member with inBelow | inRest
      · obtain ⟨allocated, place⟩ := inner validExtended inBelow
        refine ⟨Nat.lt_of_lt_of_le allocated grown, ?_⟩
        by_cases room : slice.length < slice.capacity heap
        · rw [Slice.append_in_place step room] at place
          refine place.imp (fun here => ⟨here.1, Nat.lt_of_succ_lt here.2⟩) fun fresh => ?_
          exact Nat.le_trans (Nat.le_of_eq List.length_set.symm) fresh
        · rw [Slice.append_copies step room] at place
          refine .inr (place.elim (fun here => Nat.le_of_eq here.1.symm) fun fresh => ?_)
          exact Nat.le_trans (by simp) fresh
      · obtain ⟨allocated, place⟩ := later (extended.valid valid) inRest
        exact ⟨allocated, place.imp_right (Nat.le_trans extended.grows)⟩

include larger in
/-- A slice handed out is longer than the one extended, and within its array. -/
theorem collect_valid (forest : Forest ε α) (valid : slice.Valid heap) {found : α × Slice}
    (member : found ∈ (collect grow forest slice heap).2) :
    slice.length < found.2.length ∧ found.2.Valid (collect grow forest slice heap).1 := by
  induction forest generalizing slice heap with
  | nil => cases member
  | leaf step label rest later =>
      have extended : slice.Extends heap (slice.append grow step heap).1 :=
        Slice.append_extends valid step
      have further := collect_extends larger rest (extended.valid valid)
      rcases List.mem_cons.mp member with rfl | inRest
      · exact ⟨Slice.length_lt_append step,
          further.valid_other (Slice.append_valid valid step (larger _))⟩
      · exact later (extended.valid valid) inRest
  | node step below rest inner later =>
      have validExtended := Slice.append_valid valid step (larger _)
      have extended : slice.Extends heap _ := Slice.extends_of_append valid step
        (collect_extends larger below validExtended)
      have further := collect_extends larger rest (extended.valid valid)
      rcases List.mem_append.mp member with inBelow | inRest
      · obtain ⟨longer, within⟩ := inner validExtended inBelow
        exact ⟨Nat.lt_trans (Slice.length_lt_append step) longer, further.valid_other within⟩
      · exact later (extended.valid valid) inRest

include larger in
/-- `stays` tells whether a slice handed out lies in the array the walk began in. -/
theorem collect_stays (forest : Forest ε α) (valid : slice.Valid heap) :
    (∃ found ∈ (collect grow forest slice heap).2, found.2.array = slice.array) ↔
      forest.stays slice.length (slice.capacity heap) = true := by
  induction forest generalizing slice heap with
  | nil => simp [collect, stays]
  | leaf step label rest later =>
      have extended : slice.Extends heap (slice.append grow step heap).1 :=
        Slice.append_extends valid step
      have inRest := later (extended.valid valid)
      rw [extended.capacity] at inRest
      simp only [collect, stays, List.exists_mem_cons_iff, inRest, Bool.or_eq_true,
        decide_eq_true_eq]
      refine or_congr_left ?_
      by_cases room : slice.length < slice.capacity heap
      · simp [Slice.append_in_place step room, room]
      · simp [Slice.append_copies step room, room, Nat.ne_of_gt valid.allocated]
  | node step below rest inner later =>
      have validExtended := Slice.append_valid valid step (larger _)
      have extended : slice.Extends heap _ := Slice.extends_of_append valid step
        (collect_extends larger below validExtended)
      have inRest := later (extended.valid valid)
      rw [extended.capacity] at inRest
      simp only [collect, stays, List.mem_append, or_and_right, exists_or, inRest,
        Bool.or_eq_true, Bool.and_eq_true, decide_eq_true_eq]
      refine or_congr_left ?_
      by_cases room : slice.length < slice.capacity heap
      · have inBelow := inner validExtended
        rw [Slice.append_capacity valid step (larger _), if_pos room, Slice.append_length] at inBelow
        rw [and_iff_right room, ← inBelow, Slice.append_in_place step room]
      · -- the branch moved to a new array, and nothing below it comes back
        refine iff_of_false ?_ (fun both => room both.1)
        intro ⟨found, member, here⟩
        obtain ⟨_, place⟩ := collect_origin larger below validExtended member
        rw [Slice.append_copies step room] at place
        have allocated := valid.allocated
        simp only [List.length_append, List.length_singleton] at place
        omega

omit [Inhabited ε] in
theorem eq_nil_of_steps (none : forest.steps = []) : forest = .nil := by
  cases forest with
  | nil => rfl
  | leaf | node => cases none

/-! ### What the slices read -/

omit [Inhabited ε] in
private theorem slot_of_read {found : Slice} {later : Heap ε} {step : ε} {further : List ε}
    (valid : slice.Valid heap) (longer : slice.length < found.length)
    (reads : found.read later = slice.read heap ++ step :: further) :
    (later.cells found.array)[slice.length]? = some step := by
  have length : (slice.read heap).length = slice.length :=
    List.length_take_of_le valid.within
  have slot : ((later.cells found.array).take found.length)[slice.length]? = some step := by
    rw [show (later.cells found.array).take found.length = _ from reads, ← length]
    simp
  rwa [List.getElem?_take_of_lt longer] at slot

include larger in
/-- Walked in place, a level leaves one of its steps in the slot after the slice. -/
theorem collect_slot (valid : slice.Valid heap) (room : slice.length < slice.capacity heap)
    (some : forest.steps ≠ []) :
    ∃ step ∈ forest.steps,
      ((collect grow forest slice heap).1.cells slice.array)[slice.length]? = .some step := by
  induction forest generalizing slice heap with
  | nil => exact absurd rfl some
  | leaf step label rest later =>
      have extended : slice.Extends heap (slice.append grow step heap).1 :=
        Slice.append_extends valid step
      by_cases last : rest.steps = []
      · rw [eq_nil_of_steps last]
        have read : (slice.append grow step heap).2.read (slice.append grow step heap).1 = _ :=
          Slice.append_read valid step
        have slot := slot_of_read valid (Slice.length_lt_append step) read
        rw [Slice.append_array step room] at slot
        exact ⟨step, List.mem_cons_self .., slot⟩
      · obtain ⟨other, member, slot⟩ := later (extended.valid valid)
          (extended.capacity.symm ▸ room) last
        exact ⟨other, List.mem_cons_of_mem _ member, slot⟩
  | node step below rest inner later =>
      have validExtended := Slice.append_valid valid step (larger _)
      have walked := collect_extends larger below validExtended
      have extended : slice.Extends heap _ := Slice.extends_of_append valid step walked
      by_cases last : rest.steps = []
      · rw [eq_nil_of_steps last]
        have slot := slot_of_read valid (Slice.length_lt_append step)
          (walked.read.trans (Slice.append_read valid step))
        rw [Slice.append_array step room] at slot
        exact ⟨step, List.mem_cons_self .., slot⟩
      · obtain ⟨other, member, slot⟩ := later (extended.valid valid)
          (extended.capacity.symm ▸ room) last
        exact ⟨other, List.mem_cons_of_mem _ member, slot⟩

omit [Inhabited ε] in
/-- Every path to a leaf begins with the path to its level. -/
theorem path_of_mem_paths {path : List ε} {found : α × List ε} (member : found ∈ forest.paths path)
    : ∃ rest, found.2 = path ++ rest := by
  induction forest generalizing path with
  | nil => cases member
  | leaf step label rest later =>
      rcases List.mem_cons.mp member with rfl | inRest
      · exact ⟨[step], rfl⟩
      · exact later inRest
  | node step below rest inner later =>
      rcases List.mem_append.mp member with inBelow | inRest
      · obtain ⟨further, same⟩ := inner inBelow
        exact ⟨step :: further, by simpa using same⟩
      · exact later inRest

include larger in
private theorem overwritten {rest : Forest ε α} {step : ε} (apart : step ∉ rest.steps)
    (some : rest.steps ≠ []) (valid : slice.Valid heap)
    (room : slice.length < slice.capacity heap) {found : Slice} (here : found.array = slice.array)
    (longer : slice.length < found.length) (further : List ε) :
    found.read (collect grow rest slice heap).1 ≠ slice.read heap ++ step :: further := by
  intro reads
  obtain ⟨other, member, slot⟩ := collect_slot larger valid room some
  have own := slot_of_read valid longer reads
  rw [here, slot] at own
  exact apart (Option.some.inj own ▸ member)

include larger in
private theorem reads_later {rest : Forest ε α} (valid : slice.Valid heap)
    {founds : List (α × Slice)}
    (apart : rest.steps = [] ∨ ∀ found ∈ founds,
      found.2.array < heap.length ∧ found.2.array ≠ slice.array) :
    (founds.map fun found => (found.1, found.2.read (collect grow rest slice heap).1)) =
      founds.map fun found => (found.1, found.2.read heap) := by
  rcases apart with last | apart
  · rw [eq_nil_of_steps last]
    rfl
  · refine List.map_congr_left fun found member => ?_
    obtain ⟨allocated, other⟩ := apart found member
    rw [(collect_extends larger rest valid).read_other allocated other]

include larger in
private theorem leaf_read_iff {rest : Forest ε α} {step : ε} (apart : step ∉ rest.steps)
    (valid : slice.Valid heap) :
    (slice.append grow step heap).2.read
        (collect grow rest slice (slice.append grow step heap).1).1 = slice.read heap ++ [step] ↔
      slice.capacity heap ≤ slice.length ∨ rest.steps = [] := by
  have extended : slice.Extends heap (slice.append grow step heap).1 :=
    Slice.append_extends valid step
  have read : (slice.append grow step heap).2.read (slice.append grow step heap).1 = _ :=
    Slice.append_read valid step
  by_cases last : rest.steps = []
  · rw [eq_nil_of_steps last]
    exact iff_of_true read (.inr rfl)
  · by_cases room : slice.length < slice.capacity heap
    · refine iff_of_false ?_ (by simp [last, room])
      rw [← extended.read]
      exact overwritten larger apart last (extended.valid valid) (extended.capacity.symm ▸ room)
        (Slice.append_array step room) (Slice.length_lt_append step) []
    · refine iff_of_true ?_ (.inl (Nat.not_lt.mp room))
      have allocated := (Slice.append_valid valid step (larger _)).allocated
      have moved : (slice.append grow step heap).2.array ≠ slice.array := by
        rw [Slice.append_copies step room]
        exact Nat.ne_of_gt valid.allocated
      rw [← read]
      exact (collect_extends larger rest (extended.valid valid)).read_other allocated moved

include larger in
private theorem node_reads_iff {below rest : Forest ε α} {step : ε} (apart : step ∉ rest.steps)
    (valid : slice.Valid heap) :
    let extended := slice.append grow step heap
    let inner := collect grow below extended.2 extended.1
    (inner.2.map fun found => (found.1, found.2.read (collect grow rest slice inner.1).1)) =
        below.paths (slice.read heap ++ [step]) ↔
      reads grow below extended.2 extended.1 = below.paths (slice.read heap ++ [step]) ∧
        (slice.length < slice.capacity heap →
          below.stays (slice.length + 1) (slice.capacity heap) = true → rest.steps = []) := by
  intro extended inner
  have validExtended : extended.2.Valid extended.1 := Slice.append_valid valid step (larger _)
  have walked : slice.Extends heap inner.1 := Slice.extends_of_append valid step
    (collect_extends larger below validExtended)
  have stays := collect_stays larger below validExtended
  by_cases written : rest.steps ≠ [] ∧ slice.length < slice.capacity heap ∧
      below.stays (slice.length + 1) (slice.capacity heap) = true
  · obtain ⟨last, room, stayed⟩ := written
    refine iff_of_false ?_ fun both => last (both.2 room stayed)
    rw [Slice.append_capacity valid step (larger _), if_pos room, Slice.append_length] at stays
    obtain ⟨found, member, here⟩ := stays.mpr stayed
    intro same
    have listed : (found.1, found.2.read (collect grow rest slice inner.1).1) ∈
        below.paths (slice.read heap ++ [step]) := same ▸ List.mem_map_of_mem member
    obtain ⟨further, path⟩ := path_of_mem_paths listed
    have longer : slice.length < found.2.length := by
      obtain ⟨_, ⟨_, longer⟩ | fresh⟩ := collect_origin larger below validExtended member
      · exact Nat.lt_trans (Slice.length_lt_append step) longer
      · exact absurd validExtended.allocated (by omega)
    refine overwritten larger apart last (walked.valid valid) (walked.capacity.symm ▸ room)
      (here.trans (Slice.append_array step room)) longer further ?_
    rw [walked.read]
    simpa using path
  · have kept : (inner.2.map fun found =>
        (found.1, found.2.read (collect grow rest slice inner.1).1)) =
        reads grow below extended.2 extended.1 := by
      refine reads_later larger (walked.valid valid) ?_
      refine or_iff_not_imp_left.mpr fun last found member => ?_
      obtain ⟨allocated, place⟩ := collect_origin larger below validExtended member
      refine ⟨allocated, fun here => ?_⟩
      by_cases room : slice.length < slice.capacity heap
      · rw [Slice.append_capacity valid step (larger _), if_pos room, Slice.append_length] at stays
        exact written ⟨last, room,
          stays.mp ⟨found, member, here.trans (Slice.append_array step room).symm⟩⟩
      · have moved : extended = _ := Slice.append_copies step room
        have allocated := valid.allocated
        rw [moved] at place
        simp only [List.length_append, List.length_singleton] at place
        omega
    rw [kept]
    refine (and_iff_left fun room stayed => ?_).symm
    by_contra last
    exact written ⟨last, room, stayed⟩

private theorem appended_eq_iff {β : Type} {first second third fourth : List β}
    (sameLength : first.length = third.length) :
    first ++ second = third ++ fourth ↔ first = third ∧ second = fourth :=
  ⟨fun same => List.append_inj same sameLength, fun both => both.1 ▸ both.2 ▸ rfl⟩

include larger in
/-- Every slice handed out by the walk reads the path to its leaf exactly if no
slot is written again while such a slice reads it. -/
theorem collect_reads_iff (forest : Forest ε α) (distinct : forest.Distinct)
    (valid : slice.Valid heap) :
    reads grow forest slice heap = forest.paths (slice.read heap) ↔
      forest.unshared grow slice.length (slice.capacity heap) = true := by
  induction forest generalizing slice heap with
  | nil => simp [reads, collect, paths, unshared]
  | leaf step label rest later =>
      have extended : slice.Extends heap (slice.append grow step heap).1 :=
        Slice.append_extends valid step
      have inRest := later distinct.2 (extended.valid valid)
      rw [extended.read, extended.capacity] at inRest
      have here := leaf_read_iff larger distinct.1 valid
      simp only [reads] at inRest
      simp only [reads, collect, paths, unshared, List.map_cons, List.cons.injEq, Prod.mk.injEq,
        true_and, here, inRest, Bool.and_eq_true, Bool.or_eq_true, decide_eq_true_eq,
        List.isEmpty_iff]
  | node step below rest inner later =>
      have validExtended := Slice.append_valid valid step (larger _)
      have walked : slice.Extends heap _ := Slice.extends_of_append valid step
        (collect_extends larger below validExtended)
      have inRest := later distinct.2.2 (walked.valid valid)
      rw [walked.read, walked.capacity] at inRest
      have inBelow := inner distinct.2.1 validExtended
      rw [Slice.append_read valid step, Slice.append_capacity valid step (larger _),
        Slice.append_length] at inBelow
      have here := @node_reads_iff _ _ _ _ larger _ _ below rest step distinct.1 valid
      have sameLength : (collect grow below (slice.append grow step heap).2
          (slice.append grow step heap).1).2.length =
          (below.paths (slice.read heap ++ [step])).length := by
        simpa using congrArg List.length (collect_labels below (slice.read heap ++ [step]))
      simp only [reads] at inRest inBelow here
      simp only [reads, collect, paths, unshared, List.map_append]
      rw [appended_eq_iff (by rw [List.length_map, sameLength]), here, inBelow, inRest]
      by_cases room : slice.length < slice.capacity heap
      · simp only [room, if_true, forall_const, Bool.and_eq_true, Bool.or_eq_true,
          Bool.not_eq_true', List.isEmpty_iff, ← Bool.not_eq_true, imp_iff_not_or]
      · simp only [room, if_false, false_implies, and_true, Bool.and_eq_true]

end Forest

end StructuredMergeDiff.Library
