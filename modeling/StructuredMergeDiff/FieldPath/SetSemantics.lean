import StructuredMergeDiff.FieldPath.Set

/-!
Contract: field sets as sets of paths.

Over a consistent number domain, a set whose slices are sorted and that has no
empty child is determined by the paths it has, and the trie operations are the
operations on sets of paths.

Owns: `Canonical`, its preservation by every operation, and the membership
laws of insertion, union, intersection and the two differences.
-/

namespace StructuredMergeDiff

open Library Std

namespace FieldSet

variable {N : Type} [Numeric N] {s : FieldSet N}

/-- Sorted slices at every node, and no empty child. -/
inductive Canonical : FieldSet N → Prop
  | intro {s : FieldSet N} (members : SortedBy id s.members)
      (children : SortedBy Prod.fst s.children)
      (nodes : ∀ node ∈ s.children, Canonical node.2)
      (nonEmpty : ∀ node ∈ s.children, node.2.isEmpty = false) : Canonical s

theorem Canonical.members : s.Canonical → SortedBy id s.members
  | .intro members _ _ _ => members

theorem Canonical.children : s.Canonical → SortedBy Prod.fst s.children
  | .intro _ children _ _ => children

theorem Canonical.nodes :
    s.Canonical → ∀ node ∈ s.children, node.2.Canonical
  | .intro _ _ nodes _ => nodes

theorem Canonical.nonEmpty :
    s.Canonical → ∀ node ∈ s.children, node.2.isEmpty = false
  | .intro _ _ _ nonEmpty => nonEmpty

theorem nil_canonical : (nil : FieldSet N).Canonical :=
  .intro List.Pairwise.nil List.Pairwise.nil (by simp [nil]) (by simp [nil])

/-! ## Emptiness -/

omit [Numeric N] in
theorem isEmptyChildren_iff {children : List (PathElement N × FieldSet N)} :
    isEmptyChildren children = true ↔ ∀ node ∈ children, node.2.isEmpty = true := by
  induction children with
  | nil => simp [isEmptyChildren]
  | cons head tail ih =>
      simp [isEmptyChildren, ih]

omit [Numeric N] in
theorem isEmpty_iff :
    s.isEmpty = true ↔ s.members = [] ∧ ∀ node ∈ s.children, node.2.isEmpty = true := by
  obtain ⟨members, children⟩ := s
  simp [isEmpty, isEmptyChildren_iff]

/-- The only empty canonical set is the one without nodes. -/
theorem Canonical.eq_nil (canonical : s.Canonical) (empty : s.isEmpty = true) :
    s = nil := by
  obtain ⟨noMembers, emptyChildren⟩ := isEmpty_iff.mp empty
  have noChildren : s.children = [] := by
    apply List.eq_nil_iff_forall_not_mem.mpr
    intro node member
    have := canonical.nonEmpty node member
    rw [emptyChildren node member] at this
    cases this
  obtain ⟨members, children⟩ := s
  simp only at noMembers noChildren
  rw [noMembers, noChildren]
  rfl

/-! ## Lookup -/

section Lookup

theorem membersHas_nil (pe : PathElement N) : membersHas [] pe = false := rfl

@[simp] theorem has_root (s : FieldSet N) : s.has [] = false := by
  simp [has]

theorem has_singleton (s : FieldSet N) (pe : PathElement N) :
    s.has [pe] = membersHas s.members pe := by
  simp [has]

@[simp] theorem has_nil (path : Path N) : (nil : FieldSet N).has path = false := by
  match path with
  | [] => rfl
  | [_] => rfl
  | _ :: _ :: _ => rfl

theorem has_cons (s : FieldSet N) (pe : PathElement N) {rest : Path N} (proper : rest ≠ []) :
    s.has (pe :: rest) = (s.withPrefix pe).has rest := by
  cases rest with
  | nil => exact absurd rfl proper
  | cons next rest =>
      simp only [has, withPrefix]
      cases childrenGet s.children pe with
      | none => simp
      | some child => rfl

variable [Consistent N]

theorem membersHas_eq {members : List (PathElement N)} (sorted : SortedBy id members)
    (pe : PathElement N) : membersHas members pe = (lookupBy id pe members).isSome := by
  rw [membersHas, getBy_eq_lookupBy sorted]

theorem withPrefix_eq (canonical : s.Canonical) (pe : PathElement N) :
    s.withPrefix pe = ((lookupBy Prod.fst pe s.children).map Prod.snd).getD nil := by
  rw [withPrefix, childrenGet, getBy_eq_lookupBy canonical.children]

theorem withPrefix_canonical (canonical : s.Canonical) (pe : PathElement N) :
    (s.withPrefix pe).Canonical := by
  rw [withPrefix_eq canonical]
  cases found : lookupBy Prod.fst pe s.children with
  | none => exact nil_canonical
  | some node => exact canonical.nodes node (mem_of_lookupBy found)

/-- Membership does not distinguish equal path elements. -/
theorem has_congr (canonical : s.Canonical) {first second : Path N}
    (same : (first == second) = true) : s.has first = s.has second := by
  induction first generalizing s second with
  | nil =>
      cases second with
      | nil => rfl
      | cons _ _ => simp at same
  | cons pe rest ih =>
      cases second with
      | nil => simp at same
      | cons pe' rest' =>
          obtain ⟨sameHead, sameRest⟩ : (pe == pe') = true ∧ (rest == rest') = true := by
            simpa using same
          cases rest with
          | nil =>
              cases rest' with
              | nil =>
                  rw [has_singleton, has_singleton, membersHas_eq canonical.members,
                    membersHas_eq canonical.members, lookupBy_congr _ _ sameHead]
              | cons _ _ => simp at sameRest
          | cons next rest =>
              cases rest' with
              | nil => simp at sameRest
              | cons next' rest' =>
                  have samePrefix : s.withPrefix pe = s.withPrefix pe' := by
                    rw [withPrefix_eq canonical, withPrefix_eq canonical,
                      lookupBy_congr _ _ sameHead]
                  rw [has_cons s pe (by simp), has_cons s pe' (by simp), samePrefix]
                  exact ih (withPrefix_canonical canonical pe') sameRest

theorem isEmpty_iff_has (canonical : s.Canonical) :
    s.isEmpty = true ↔ ∀ path, s.has path = false := by
  constructor
  · intro empty path
    rw [canonical.eq_nil empty, has_nil]
  · intro none
    induction canonical with
    | @intro s members children nodes nonEmpty ih =>
        have canonical : s.Canonical := .intro members children nodes nonEmpty
        refine isEmpty_iff.mpr ⟨?_, ?_⟩
        · apply List.eq_nil_iff_forall_not_mem.mpr
          intro pe member
          have hasMember := none [pe]
          rw [has_singleton, membersHas_eq members,
            lookupBy_of_mem members member (BEq.refl pe)] at hasMember
          cases hasMember
        · intro node member
          apply ih node member
          intro path
          cases path with
          | nil => simp
          | cons next rest =>
              have beneath := none (node.1 :: next :: rest)
              rw [has_cons _ _ (by simp), withPrefix_eq canonical,
                lookupBy_of_mem children member (BEq.refl node.1)] at beneath
              exact beneath

end Lookup

/-! ## The operations one level at a time -/

private theorem unionBody_descends :
    Descends (fun pair : FieldSet N × FieldSet N => pair.1.depth) unionBody := by
  rintro first second ⟨s, t⟩ agree
  simp only [unionBody]
  congr 1
  refine Join.run_congr fun x inLeft y _ => ?_
  simp only [agree (x.2, y.2) (depth_lt_of_mem inLeft)]

private theorem intersectionBody_descends :
    Descends (fun pair : FieldSet N × FieldSet N => pair.1.depth) intersectionBody := by
  rintro first second ⟨s, t⟩ agree
  simp only [intersectionBody]
  congr 1
  refine Join.run_congr fun x inLeft y _ => ?_
  simp only [agree (x.2, y.2) (depth_lt_of_mem inLeft)]

private theorem differenceBody_descends :
    Descends (fun pair : FieldSet N × FieldSet N => pair.1.depth) differenceBody := by
  rintro first second ⟨s, t⟩ agree
  simp only [differenceBody]
  congr 1
  refine Join.run_congr fun x inLeft y _ => ?_
  simp only [agree (x.2, y.2) (depth_lt_of_mem inLeft)]

private theorem recursiveDifferenceBody_descends :
    Descends (fun pair : FieldSet N × FieldSet N => pair.1.depth) recursiveDifferenceBody := by
  rintro first second ⟨s, t⟩ agree
  simp only [recursiveDifferenceBody]
  congr 1
  refine Join.run_congr fun x inLeft y _ => ?_
  simp only [agree (x.2, y.2) (depth_lt_of_mem inLeft)]

theorem union_eq (s t : FieldSet N) :
    s.union t = unionBody (fun pair => pair.1.union pair.2) (s, t) :=
  measured_eq unionBody_descends _ _

theorem intersection_eq (s t : FieldSet N) :
    s.intersection t = intersectionBody (fun pair => pair.1.intersection pair.2) (s, t) :=
  measured_eq intersectionBody_descends _ _

theorem difference_eq (s t : FieldSet N) :
    s.difference t = differenceBody (fun pair => pair.1.difference pair.2) (s, t) :=
  measured_eq differenceBody_descends _ _

theorem recursiveDifference_eq (s t : FieldSet N) :
    s.recursiveDifference t =
      recursiveDifferenceBody (fun pair => pair.1.recursiveDifference pair.2) (s, t) :=
  measured_eq recursiveDifferenceBody_descends _ _

/-! ## Membership in the results -/

theorem has_of_isEmpty (empty : s.isEmpty = true) (path : Path N) :
    s.has path = false := by
  obtain ⟨noMembers, emptyChildren⟩ := isEmpty_iff.mp empty
  induction path generalizing s with
  | nil => simp
  | cons pe rest ih =>
      cases rest with
      | nil => rw [has_singleton, noMembers, membersHas_nil]
      | cons next rest =>
          simp only [has]
          cases found : childrenGet s.children pe with
          | none => rfl
          | some child =>
              obtain ⟨node, fetched, rfl⟩ := Option.map_eq_some_iff.mp found
              have childEmpty := emptyChildren node (mem_of_getBy fetched)
              obtain ⟨noMembers, emptyChildren⟩ := isEmpty_iff.mp childEmpty
              exact ih childEmpty noMembers emptyChildren

/-- The set under a joined key. -/
def joined (node : Option (PathElement N × FieldSet N)) : FieldSet N :=
  (node.map Prod.snd).getD nil

private theorem has_joined_nonEmptyNode (pe : PathElement N) (s : FieldSet N) (path : Path N) :
    (joined (nonEmptyNode pe s)).has path = s.has path := by
  unfold nonEmptyNode
  split
  · rename_i empty
    rw [has_of_isEmpty empty]
    exact has_nil path
  · rfl

section Laws

variable [Consistent N] {t : FieldSet N}
  {both : PathElement N → FieldSet N → FieldSet N → Option (PathElement N × FieldSet N)}
  {onlyLeft onlyRight : PathElement N × FieldSet N → Option (PathElement N × FieldSet N)}
  {pe : PathElement N}

private theorem membersHas_run
    {join : Join (PathElement N) (PathElement N) (PathElement N) (PathElement N)}
    (keys : join.leftKey = id ∧ join.rightKey = id ∧ join.outKey = id) (keeps : join.KeepsKeys)
    (canonicalLeft : s.Canonical) (canonicalRight : t.Canonical) (pe : PathElement N) :
    membersHas (join.run s.members t.members) pe =
      (join.atKey (lookupBy id pe s.members) (lookupBy id pe t.members)).isSome := by
  obtain ⟨leftKey, rightKey, outKey⟩ := keys
  have sortedLeft : SortedBy join.leftKey s.members := leftKey ▸ canonicalLeft.members
  have sortedRight : SortedBy join.rightKey t.members := rightKey ▸ canonicalRight.members
  have sorted := Join.run_sorted keeps sortedLeft sortedRight
  have lookup := Join.lookupBy_run keeps sortedLeft sortedRight pe
  rw [outKey] at sorted lookup
  rw [membersHas_eq sorted, lookup, leftKey, rightKey]

private theorem membersUnion_keeps : (membersUnion (N := N)).KeepsKeys where
  onlyLeft := fun emitted => by cases emitted; exact BEq.refl _
  onlyRight := fun emitted => by cases emitted; exact BEq.refl _
  both := fun same emitted => by cases emitted; exact BEq.symm same

private theorem membersIntersection_keeps : (membersIntersection (N := N)).KeepsKeys where
  onlyLeft := fun emitted => by cases emitted
  onlyRight := fun emitted => by cases emitted
  both := fun _ emitted => by cases emitted; exact BEq.refl _

private theorem membersDifference_keeps : (membersDifference (N := N)).KeepsKeys where
  onlyLeft := fun emitted => by cases emitted; exact BEq.refl _
  onlyRight := fun emitted => by cases emitted
  both := fun _ emitted => by cases emitted

/-- Handlers that pass on a node unchanged or drop it, and that put the result
for two sets under the left path element. -/
private structure NodeHandlers
    (onlyLeft onlyRight : PathElement N × FieldSet N → Option (PathElement N × FieldSet N))
    (both : PathElement N → FieldSet N → FieldSet N → Option (PathElement N × FieldSet N)) :
    Prop where
  onlyLeft : ∀ {node out}, onlyLeft node = some out → out = node
  onlyRight : ∀ {node out}, onlyRight node = some out → out = node
  both : ∀ {pe x y out}, both pe x y = some out → out.1 = pe

private theorem childrenJoin_keeps (handlers : NodeHandlers onlyLeft onlyRight both) :
    (childrenJoin onlyLeft onlyRight both).KeepsKeys where
  onlyLeft := fun emitted => by rw [handlers.onlyLeft emitted]; exact BEq.refl _
  onlyRight := fun emitted => by rw [handlers.onlyRight emitted]; exact BEq.refl _
  both := fun {x y out} _ emitted => by
    have same : out.1 = x.1 := handlers.both emitted
    change (out.1 == x.1) = true
    rw [same]
    exact BEq.refl _

omit [Numeric N] [Consistent N] in
private theorem nonEmptyNode_fst {out : PathElement N × FieldSet N}
    (emitted : nonEmptyNode pe s = some out) : out.1 = pe := by
  unfold nonEmptyNode at emitted
  split at emitted
  · cases emitted
  · cases emitted
    rfl

section

omit [Consistent N]

private theorem nodeHandlers_union :
    NodeHandlers (N := N) some some
      (fun pe left right => some (pe, left.union right)) where
  onlyLeft := fun emitted => (Option.some.inj emitted).symm
  onlyRight := fun emitted => (Option.some.inj emitted).symm
  both := fun emitted => by cases emitted; rfl

private theorem nodeHandlers_intersection :
    NodeHandlers (N := N) (fun _ => none) (fun _ => none)
      (fun pe left right => nonEmptyNode pe (left.intersection right)) where
  onlyLeft := fun emitted => by cases emitted
  onlyRight := fun emitted => by cases emitted
  both := nonEmptyNode_fst

private theorem nodeHandlers_difference :
    NodeHandlers (N := N) some (fun _ => none)
      (fun pe left right => nonEmptyNode pe (left.difference right)) where
  onlyLeft := fun emitted => (Option.some.inj emitted).symm
  onlyRight := fun emitted => by cases emitted
  both := nonEmptyNode_fst

private theorem nodeHandlers_recursiveDifference (removed : List (PathElement N)) :
    NodeHandlers (N := N) (fun node => if membersHas removed node.1 then none else some node)
      (fun _ => none)
      (fun pe left right =>
        if membersHas removed pe then none
        else nonEmptyNode pe (left.recursiveDifference right)) where
  onlyLeft := fun emitted => by
    split at emitted
    · cases emitted
    · exact (Option.some.inj emitted).symm
  onlyRight := fun emitted => by cases emitted
  both := fun emitted => by
    split at emitted
    · cases emitted
    · exact nonEmptyNode_fst emitted

end

private theorem has_childrenJoin (handlers : NodeHandlers onlyLeft onlyRight both)
    (canonicalLeft : s.Canonical) (canonicalRight : t.Canonical) (members : List (PathElement N))
    (pe : PathElement N) {rest : Path N} (proper : rest ≠ []) :
    has ⟨members, (childrenJoin onlyLeft onlyRight both).run s.children t.children⟩ (pe :: rest) =
      (joined ((childrenJoin onlyLeft onlyRight both).atKey (lookupBy Prod.fst pe s.children)
        (lookupBy Prod.fst pe t.children))).has rest := by
  have keeps := childrenJoin_keeps handlers
  have sorted : SortedBy Prod.fst
      ((childrenJoin onlyLeft onlyRight both).run s.children t.children) :=
    Join.run_sorted keeps canonicalLeft.children canonicalRight.children
  have lookup := Join.lookupBy_run keeps canonicalLeft.children canonicalRight.children pe
  rw [has_cons _ _ proper]
  change (joined (getBy Prod.fst pe
    ((childrenJoin onlyLeft onlyRight both).run s.children t.children))).has rest = _
  rw [getBy_eq_lookupBy sorted]
  exact congrArg (fun node => (joined node).has rest) lookup

theorem has_withPrefix_of_none (canonical : s.Canonical)
    (missing : lookupBy Prod.fst pe s.children = none) {rest : Path N} (proper : rest ≠ []) :
    s.has (pe :: rest) = false := by
  rw [has_cons _ _ proper, withPrefix_eq canonical, missing]
  exact has_nil rest

theorem has_withPrefix_of_some (canonical : s.Canonical) {node : PathElement N × FieldSet N}
    (found : lookupBy Prod.fst pe s.children = some node) {rest : Path N} (proper : rest ≠ []) :
    s.has (pe :: rest) = node.2.has rest := by
  rw [has_cons _ _ proper, withPrefix_eq canonical, found]
  rfl

private theorem has_operation {operation : FieldSet N → FieldSet N → FieldSet N}
    {membersJoin : Join (PathElement N) (PathElement N) (PathElement N) (PathElement N)}
    (combine : Bool → Bool → Bool)
    (unfolds : ∀ s t, operation s t = ⟨membersJoin.run s.members t.members,
      (childrenJoin onlyLeft onlyRight both).run s.children t.children⟩)
    (keys : membersJoin.leftKey = id ∧ membersJoin.rightKey = id ∧ membersJoin.outKey = id)
    (keeps : membersJoin.KeepsKeys) (handlers : NodeHandlers onlyLeft onlyRight both)
    (nowhere : combine false false = false)
    (members : ∀ x y, (membersJoin.atKey x y).isSome = combine x.isSome y.isSome)
    (inLeft : ∀ node path, (joined (onlyLeft node)).has path = combine (node.2.has path) false)
    (inRight : ∀ node path, (joined (onlyRight node)).has path = combine false (node.2.has path))
    (inBoth : ∀ pe x y path, (joined (both pe x y)).has path = (operation x y).has path)
    (canonicalLeft : s.Canonical) (canonicalRight : t.Canonical) (path : Path N) :
    (operation s t).has path = combine (s.has path) (t.has path) := by
  induction path generalizing s t with
  | nil => simp [nowhere]
  | cons pe rest ih =>
      rw [unfolds]
      by_cases leaf : rest = []
      · subst leaf
        simp only [has_singleton]
        rw [membersHas_run keys keeps canonicalLeft canonicalRight, members,
          membersHas_eq canonicalLeft.members, membersHas_eq canonicalRight.members]
      · rw [has_childrenJoin handlers canonicalLeft canonicalRight _ _ leaf]
        cases left : lookupBy Prod.fst pe s.children with
        | none =>
            rw [has_withPrefix_of_none canonicalLeft left leaf]
            cases right : lookupBy Prod.fst pe t.children with
            | none =>
                rw [has_withPrefix_of_none canonicalRight right leaf, nowhere]
                exact has_nil rest
            | some y =>
                rw [has_withPrefix_of_some canonicalRight right leaf]
                exact inRight y rest
        | some x =>
            rw [has_withPrefix_of_some canonicalLeft left leaf]
            cases right : lookupBy Prod.fst pe t.children with
            | none =>
                rw [has_withPrefix_of_none canonicalRight right leaf]
                exact inLeft x rest
            | some y =>
                rw [has_withPrefix_of_some canonicalRight right leaf]
                refine (inBoth x.1 x.2 y.2 rest).trans ?_
                exact ih (canonicalLeft.nodes x (mem_of_lookupBy left))
                  (canonicalRight.nodes y (mem_of_lookupBy right))

section

variable (canonicalLeft : s.Canonical) (canonicalRight : t.Canonical) (path : Path N)

include canonicalLeft canonicalRight path

theorem has_union :
    (s.union t).has path = (s.has path || t.has path) :=
  has_operation or union_eq ⟨rfl, rfl, rfl⟩ membersUnion_keeps nodeHandlers_union rfl
    (fun x y => by cases x <;> cases y <;> rfl) (fun _ _ => (Bool.or_false _).symm)
    (fun _ _ => rfl) (fun _ _ _ _ => rfl) canonicalLeft canonicalRight path

/-- A path is in the intersection exactly if it is in both sets. -/
theorem has_intersection : (s.intersection t).has path = (s.has path && t.has path) :=
  has_operation and intersection_eq ⟨rfl, rfl, rfl⟩ membersIntersection_keeps
    nodeHandlers_intersection rfl (fun x y => by cases x <;> cases y <;> rfl)
    (fun _ path => (has_nil path).trans (Bool.and_false _).symm) (fun _ path => has_nil path)
    (fun pe x y path => has_joined_nonEmptyNode pe _ path) canonicalLeft canonicalRight path

/-- A path is in the difference exactly if it is in the left set only. -/
theorem has_difference : (s.difference t).has path = (s.has path && !t.has path) :=
  has_operation (fun x y => x && !y) difference_eq ⟨rfl, rfl, rfl⟩ membersDifference_keeps
    nodeHandlers_difference rfl (fun x y => by cases x <;> cases y <;> rfl) (fun _ _ => (Bool.and_true _).symm)
    (fun _ path => has_nil path) (fun pe x y path => has_joined_nonEmptyNode pe _ path)
    canonicalLeft canonicalRight path

end

section

omit [Consistent N]

/-- The paths at or beneath a member. -/
def Covers (t : FieldSet N) (path : Path N) : Prop :=
  ∃ first, first <+: path ∧ t.has first = true

theorem not_covers_root (t : FieldSet N) : ¬ t.Covers [] := by
  rintro ⟨first, isPrefix, holds⟩
  rw [List.prefix_nil.mp isPrefix, has_root] at holds
  cases holds

theorem covers_cons {t : FieldSet N} {rest : Path N} :
    t.Covers (pe :: rest) ↔ t.has [pe] = true ∨ (t.withPrefix pe).Covers rest := by
  constructor
  · rintro ⟨first, isPrefix, holds⟩
    cases first with
    | nil => simp at holds
    | cons head tail =>
        obtain ⟨rfl, tailPrefix⟩ := List.cons_prefix_cons.mp isPrefix
        by_cases leaf : tail = []
        · subst leaf
          exact Or.inl holds
        · rw [has_cons _ _ leaf] at holds
          exact Or.inr ⟨tail, tailPrefix, holds⟩
  · rintro (holds | ⟨first, isPrefix, holds⟩)
    · exact ⟨[pe], by simp, holds⟩
    · have proper : first ≠ [] := by
        intro empty
        rw [empty, has_root] at holds
        cases holds
      exact ⟨pe :: first, List.cons_prefix_cons.mpr ⟨rfl, isPrefix⟩, by
        rw [has_cons _ _ proper]; exact holds⟩

end

/-- The recursive difference takes out whatever is at or beneath a member. -/
theorem has_recursiveDifference (canonicalLeft : s.Canonical) (canonicalRight : t.Canonical)
    (path : Path N) :
    (s.recursiveDifference t).has path = true ↔ s.has path = true ∧ ¬ t.Covers path := by
  induction path generalizing s t with
  | nil => simp
  | cons pe rest ih =>
      rw [recursiveDifference_eq, covers_cons, has_singleton]
      simp only [recursiveDifferenceBody]
      by_cases leaf : rest = []
      · subst leaf
        simp only [has_singleton]
        rw [membersHas_run ⟨rfl, rfl, rfl⟩ membersDifference_keeps canonicalLeft canonicalRight,
          membersHas_eq canonicalLeft.members, membersHas_eq canonicalRight.members]
        have notCovered := not_covers_root (t.withPrefix pe)
        cases lookupBy id pe s.members <;> cases lookupBy id pe t.members <;>
          simp [membersDifference, Join.atKey, notCovered]
      · rw [has_childrenJoin (nodeHandlers_recursiveDifference t.members) canonicalLeft
          canonicalRight _ _ leaf]
        cases inLeft : lookupBy Prod.fst pe s.children with
        | none =>
            rw [has_withPrefix_of_none canonicalLeft inLeft leaf]
            have nothing : ∀ node, (joined ((childrenJoin
                (fun node => if membersHas t.members node.1 then none else some node)
                (fun _ => none) (fun pe left right =>
                  if membersHas t.members pe then none
                  else nonEmptyNode pe (left.recursiveDifference right))).atKey none node)).has
                  rest = false := fun node => by cases node <;> exact has_nil rest
            simp [nothing]
        | some x =>
            have sameKey : membersHas t.members x.1 = membersHas t.members pe := by
              rw [membersHas_eq canonicalRight.members, membersHas_eq canonicalRight.members,
                lookupBy_congr _ _ (key_of_lookupBy inLeft)]
            have canonicalX := canonicalLeft.nodes x (mem_of_lookupBy inLeft)
            rw [has_withPrefix_of_some canonicalLeft inLeft leaf, withPrefix_eq canonicalRight]
            by_cases removed : membersHas t.members pe = true
            · cases lookupBy Prod.fst pe t.children <;>
                simp [Join.atKey, childrenJoin, sameKey, removed, joined]
            · cases inRight : lookupBy Prod.fst pe t.children with
              | none =>
                  have notCovered : ¬ (nil : FieldSet N).Covers rest := by
                    rintro ⟨first, -, holds⟩
                    simp at holds
                  simp [Join.atKey, childrenJoin, sameKey, removed, joined, notCovered]
              | some y =>
                  have beneath := ih canonicalX
                    (canonicalRight.nodes y (mem_of_lookupBy inRight))
                  simp only [Join.atKey, childrenJoin, sameKey, removed]
                  rw [if_neg (by simp), has_joined_nonEmptyNode, beneath]
                  simp

/-! ## Canonical results -/

private theorem canonical_join {members : List (PathElement N)}
    (sortedMembers : SortedBy id members) (handlers : NodeHandlers onlyLeft onlyRight both)
    (canonicalLeft : s.Canonical) (canonicalRight : t.Canonical)
    (common : ∀ x ∈ s.children, ∀ y ∈ t.children, ∀ out, both x.1 x.2 y.2 = some out →
      out.2.Canonical ∧ out.2.isEmpty = false) :
    Canonical ⟨members, (childrenJoin onlyLeft onlyRight both).run s.children t.children⟩ := by
  have nodes : ∀ node ∈ (childrenJoin onlyLeft onlyRight both).run s.children t.children,
      node.2.Canonical ∧ node.2.isEmpty = false := by
    intro node member
    cases Join.origin_of_mem_run member with
    | onlyLeft inLeft emitted =>
        rw [handlers.onlyLeft emitted]
        exact ⟨canonicalLeft.nodes _ inLeft, canonicalLeft.nonEmpty _ inLeft⟩
    | onlyRight inRight emitted =>
        rw [handlers.onlyRight emitted]
        exact ⟨canonicalRight.nodes _ inRight, canonicalRight.nonEmpty _ inRight⟩
    | both inLeft inRight _ _ emitted => exact common _ inLeft _ inRight node emitted
  exact .intro sortedMembers
    (Join.run_sorted (childrenJoin_keeps handlers) canonicalLeft.children canonicalRight.children)
    (fun node member => (nodes node member).1) (fun node member => (nodes node member).2)

omit [Consistent N] in
private theorem nonEmptyNode_common {out : PathElement N × FieldSet N}
    (emitted : nonEmptyNode pe s = some out) (canonical : s.Canonical)
    : out.2.Canonical ∧ out.2.isEmpty = false := by
  unfold nonEmptyNode at emitted
  split at emitted
  · cases emitted
  · rename_i nonEmpty
    cases emitted
    exact ⟨canonical, by simpa using nonEmpty⟩

section

variable (canonicalLeft : s.Canonical) (canonicalRight : t.Canonical)

include canonicalLeft canonicalRight

theorem union_canonical :
    (s.union t).Canonical := by
  induction canonicalLeft generalizing t with
  | @intro s members children nodes nonEmpty ih =>
      have canonicalLeft : s.Canonical := .intro members children nodes nonEmpty
      rw [union_eq]
      refine canonical_join (Join.run_sorted membersUnion_keeps members canonicalRight.members)
        nodeHandlers_union canonicalLeft canonicalRight ?_
      intro x inLeft y inRight out emitted
      cases emitted
      have canonicalY := canonicalRight.nodes y inRight
      have canonical := ih x inLeft canonicalY
      refine ⟨canonical, ?_⟩
      by_contra empty
      have noPath := (isEmpty_iff_has canonical).mp (by simpa using empty)
      have leftEmpty : x.2.isEmpty = true := by
        rw [isEmpty_iff_has (nodes x inLeft)]
        intro path
        have := noPath path
        rw [has_union (nodes x inLeft) canonicalY, Bool.or_eq_false_iff] at this
        exact this.1
      rw [nonEmpty x inLeft] at leftEmpty
      cases leftEmpty

theorem intersection_canonical :
    (s.intersection t).Canonical := by
  induction canonicalLeft generalizing t with
  | @intro s members children nodes nonEmpty ih =>
      rw [intersection_eq]
      refine canonical_join
        (Join.run_sorted membersIntersection_keeps members canonicalRight.members)
        nodeHandlers_intersection (.intro members children nodes nonEmpty) canonicalRight ?_
      intro x inLeft y inRight out emitted
      exact nonEmptyNode_common emitted
        (ih x inLeft (canonicalRight.nodes y inRight))

theorem difference_canonical :
    (s.difference t).Canonical := by
  induction canonicalLeft generalizing t with
  | @intro s members children nodes nonEmpty ih =>
      rw [difference_eq]
      refine canonical_join
        (Join.run_sorted membersDifference_keeps members canonicalRight.members)
        nodeHandlers_difference (.intro members children nodes nonEmpty) canonicalRight ?_
      intro x inLeft y inRight out emitted
      exact nonEmptyNode_common emitted
        (ih x inLeft (canonicalRight.nodes y inRight))

theorem recursiveDifference_canonical : (s.recursiveDifference t).Canonical := by
  induction canonicalLeft generalizing t with
  | @intro s members children nodes nonEmpty ih =>
      rw [recursiveDifference_eq]
      refine canonical_join
        (Join.run_sorted membersDifference_keeps members canonicalRight.members)
        (nodeHandlers_recursiveDifference t.members) (.intro members children nodes nonEmpty)
        canonicalRight ?_
      intro x inLeft y inRight out emitted
      split at emitted
      · cases emitted
      · exact nonEmptyNode_common emitted
          (ih x inLeft (canonicalRight.nodes y inRight))

end

/-! ## Insertion -/

private theorem lookupBy_insert_member {members : List (PathElement N)}
    (sorted : SortedBy id members) (pe wanted : PathElement N) :
    (lookupBy id wanted (insertBy id .unset id pe members)).isSome =
      ((lookupBy id wanted members).isSome || pe == wanted) := by
  have lookup := lookupBy_insertBy sorted .unset id pe (fun other _ => BEq.refl other) wanted
  rw [lookup]
  simp only [id_eq]
  by_cases same : (pe == wanted) = true
  · simp [same]
  · simp [same]

theorem insert_member_sorted {members : List (PathElement N)} (sorted : SortedBy id members)
    (pe : PathElement N) : SortedBy id (insertBy id .unset id pe members) :=
  insertBy_sorted sorted .unset id pe (fun other _ => BEq.refl other)

theorem membersHas_insert {members : List (PathElement N)} (sorted : SortedBy id members)
    (pe wanted : PathElement N) :
    membersHas (insertBy id .unset id pe members) wanted =
      (membersHas members wanted || pe == wanted) := by
  rw [membersHas_eq (insert_member_sorted sorted pe), membersHas_eq sorted,
    lookupBy_insert_member sorted]

theorem lookupBy_descend {children : List (PathElement N × FieldSet N)}
    (sorted : SortedBy Prod.fst children) (pe wanted : PathElement N)
    (update : FieldSet N → FieldSet N) :
    joined (lookupBy Prod.fst wanted (descend pe update children)) =
      if pe == wanted then update (joined (lookupBy Prod.fst wanted children))
      else joined (lookupBy Prod.fst wanted children) := by
  have lookup := lookupBy_insertBy sorted (.unset, nil)
    (fun node : PathElement N × FieldSet N => (node.1, update node.2)) (pe, update nil) (fun other _ => BEq.refl other.1) wanted
  rw [descend, lookup]
  by_cases same : (pe == wanted) = true
  · rw [if_pos same, if_pos same]
    cases lookupBy Prod.fst wanted children <;> rfl
  · rw [if_neg same, if_neg same]

theorem insert_canonical (canonical : s.Canonical) (path : Path N) :
    (s.insert path).Canonical ∧ (path ≠ [] → (s.insert path).isEmpty = false) := by
  induction path generalizing s with
  | nil => exact ⟨by simpa [insert] using canonical, fun proper => absurd rfl proper⟩
  | cons pe rest ih =>
      cases rest with
      | nil =>
          refine ⟨.intro (insert_member_sorted canonical.members pe) canonical.children
            canonical.nodes canonical.nonEmpty, fun _ => ?_⟩
          by_contra empty
          have noMembers := (isEmpty_iff.mp (by simpa using empty)).1
          have inserted := lookupBy_insert_member canonical.members pe pe
          simp only [insert] at noMembers
          rw [noMembers, BEq.refl, Bool.or_true] at inserted
          cases inserted
      | cons next rest =>
          have nodes : ∀ node ∈ (s.insert (pe :: next :: rest)).children,
              node.2.Canonical ∧ node.2.isEmpty = false := by
            intro node member
            simp only [insert, descend] at member
            rcases mem_insertBy canonical.children member with old | rfl | ⟨found, old, -, rfl⟩
            · exact ⟨canonical.nodes node old, canonical.nonEmpty node old⟩
            · have inserted := ih nil_canonical
              exact ⟨inserted.1, inserted.2 (by simp)⟩
            · have inserted := ih (canonical.nodes found old)
              exact ⟨inserted.1, inserted.2 (by simp)⟩
          have sorted : SortedBy Prod.fst (s.insert (pe :: next :: rest)).children :=
            insertBy_sorted canonical.children _ _ _ (fun other _ => BEq.refl other.1)
          refine ⟨.intro canonical.members sorted (fun node member => (nodes node member).1)
            (fun node member => (nodes node member).2), fun _ => ?_⟩
          by_contra empty
          have emptyNodes := (isEmpty_iff.mp (by simpa using empty)).2
          have lookup := lookupBy_insertBy canonical.children (.unset, nil)
            (fun node : PathElement N × FieldSet N => (node.1, node.2.insert (next :: rest)))
            (pe, nil.insert (next :: rest)) (fun other _ => BEq.refl other.1) pe
          rw [if_pos (BEq.refl pe)] at lookup
          have member := mem_of_lookupBy lookup
          have nonEmpty := (nodes _ member).2
          rw [emptyNodes _ member] at nonEmpty
          cases nonEmpty

theorem has_insert (canonical : s.Canonical) {path : Path N} (proper : path ≠ [])
    (wanted : Path N) : (s.insert path).has wanted = (s.has wanted || path == wanted) := by
  induction path generalizing s wanted with
  | nil => exact absurd rfl proper
  | cons pe rest ih =>
      have canonicalResult := (insert_canonical canonical (pe :: rest)).1
      cases wanted with
      | nil => simp
      | cons target remaining =>
          cases rest with
          | nil =>
              by_cases leaf : remaining = []
              · subst leaf
                rw [has_singleton, has_singleton, membersHas_eq canonicalResult.members,
                  membersHas_eq canonical.members]
                simpa [insert] using lookupBy_insert_member canonical.members pe target
              · have sameChildren : (s.insert [pe]).children = s.children := rfl
                have differs : ([pe] == target :: remaining) = false := by
                  cases remaining with
                  | nil => exact absurd rfl leaf
                  | cons _ _ => simp
                rw [has_cons _ _ leaf, has_cons _ _ leaf, differs, Bool.or_false, withPrefix,
                  withPrefix, sameChildren]
          | cons next rest =>
              by_cases leaf : remaining = []
              · subst leaf
                have sameMembers : (s.insert (pe :: next :: rest)).members = s.members := rfl
                rw [has_singleton, has_singleton, sameMembers]
                simp
              · have beneath : (s.insert (pe :: next :: rest)).withPrefix target =
                    if pe == target then (s.withPrefix target).insert (next :: rest)
                    else s.withPrefix target := by
                  rw [withPrefix_eq canonicalResult, withPrefix_eq canonical]
                  exact lookupBy_descend canonical.children pe target
                    (fun child => child.insert (next :: rest))
                rw [has_cons _ _ leaf, has_cons s target leaf, beneath]
                by_cases same : (pe == target) = true
                · rw [if_pos same, ih (withPrefix_canonical canonical target)
                    (by simp)]
                  simp [same]
                · rw [if_neg same]
                  simp [same]

theorem ofPaths_canonical (paths : List (Path N)) : (ofPaths paths).Canonical := by
  unfold ofPaths
  suffices general : ∀ start : FieldSet N, start.Canonical →
      (paths.foldl insert start).Canonical from general nil nil_canonical
  induction paths with
  | nil => exact fun start canonical => canonical
  | cons path rest ih =>
      intro start canonical
      exact ih _ (insert_canonical canonical path).1

/-- A set made of paths has exactly these, the root apart. -/
theorem has_ofPaths (paths : List (Path N)) (wanted : Path N) :
    (ofPaths paths).has wanted = true ↔
      ∃ path ∈ paths, path ≠ [] ∧ (path == wanted) = true := by
  unfold ofPaths
  suffices general : ∀ start : FieldSet N, start.Canonical →
      ((paths.foldl insert start).has wanted = true ↔
        start.has wanted = true ∨ ∃ path ∈ paths, path ≠ [] ∧ (path == wanted) = true) by
    simpa using general nil nil_canonical
  induction paths with
  | nil => simp
  | cons path rest ih =>
      intro start canonical
      have step := ih (start.insert path) (insert_canonical canonical path).1
      rw [List.foldl_cons, step]
      by_cases proper : path = []
      · subst proper
        simp [insert]
      · rw [has_insert canonical proper, Bool.or_eq_true, or_assoc]
        simp [proper]

end Laws

end FieldSet

end StructuredMergeDiff
