import StructuredMergeDiff.FieldPath.SetSemantics

/-!
Contract: the declared struct fields of a set and the listing of its paths.

`EnsureNamedFieldsAreMembers` adds those ancestors of members that the schema
declares as struct fields. `Iterate` lists the members.

Owns: `atomAt`, `declared`, `HasBeneath`, the membership law of
`ensureNamedFieldsAreMembers`, and the exactness of `iterate`.
-/

namespace StructuredMergeDiff

open Library Std

namespace FieldSet

variable {N : Type} [Numeric N]

/-- The atom a type reference stands for; the zero atom if it does not resolve. -/
def atomAt (sc : Schema N) (tr : TypeRef N) : Atom N :=
  (sc.resolve tr).getD .zero

/-- Does the schema declare the last element of the path as a struct field? -/
def declared (sc : Schema N) : TypeRef N → Path N → Bool
  | _, [] => false
  | tr, [pe] => isDeclared (atomAt sc tr) pe
  | tr, pe :: next :: rest => declared sc (childType (atomAt sc tr) pe) (next :: rest)

/-- Some member of the set lies strictly beneath the path. -/
def HasBeneath (s : FieldSet N) (path : Path N) : Prop :=
  ∃ rest, rest ≠ [] ∧ s.has (path ++ rest) = true

theorem hasBeneath_cons (s : FieldSet N) (pe : PathElement N) (rest : Path N) :
    s.HasBeneath (pe :: rest) ↔ (s.withPrefix pe).HasBeneath rest := by
  unfold HasBeneath
  refine exists_congr fun below => and_congr_right fun proper => ?_
  rw [List.cons_append, has_cons _ _ (by simp [proper])]

omit [Numeric N] in
theorem declared_cons (sc : Schema N) (tr : TypeRef N) (pe : PathElement N) {rest : Path N}
    (proper : rest ≠ []) :
    declared sc tr (pe :: rest) = declared sc (childType (atomAt sc tr) pe) rest := by
  cases rest with
  | nil => exact absurd rfl proper
  | cons next rest => simp [declared]

/-! ## Equal path elements select alike -/

theorem childType_congr (atom : Atom N) {first second : PathElement N}
    (same : (first == second) = true) : childType atom first = childType atom second := by
  change first.equals second = true at same
  cases first <;> cases second <;> simp [PathElement.equals] at same <;> first | rfl | rw [same]

theorem isDeclared_congr (atom : Atom N) {first second : PathElement N}
    (same : (first == second) = true) : isDeclared atom first = isDeclared atom second := by
  change first.equals second = true at same
  cases first <;> cases second <;> simp [PathElement.equals] at same <;> first | rfl | rw [same]

/-! ## Unfolding -/

private theorem ensureBody_descends (sc : Schema N) :
    Descends (fun pair : TypeRef N × FieldSet N => pair.2.depth) (ensureBody sc) := by
  rintro first second ⟨tr, s⟩ agree
  simp only [ensureBody]
  congr 1
  refine List.map_congr_left fun node member => ?_
  rw [agree (_, node.2) (depth_lt_of_mem member)]

theorem ensure_eq (s : FieldSet N) (sc : Schema N) (tr : TypeRef N) :
    s.ensureNamedFieldsAreMembers sc tr =
      ensureBody sc (fun pair => pair.2.ensureNamedFieldsAreMembers sc pair.1) (tr, s) :=
  measured_eq (ensureBody_descends sc) _ _

section Laws

variable [Consistent N] {s : FieldSet N}

omit [Numeric N] [Consistent N] in
theorem lookupBy_map_snd [BEq (PathElement N)] {update : PathElement N × FieldSet N → FieldSet N}
    (children : List (PathElement N × FieldSet N)) (pe : PathElement N) :
    lookupBy Prod.fst pe (children.map fun node => (node.1, update node)) =
      (lookupBy Prod.fst pe children).map fun node => (node.1, update node) := by
  induction children with
  | nil => rfl
  | cons head tail ih =>
      rw [List.map_cons, lookupBy_cons, lookupBy_cons, ih]
      split <;> rfl

omit [Consistent N] in
theorem sorted_map_snd {update : PathElement N × FieldSet N → FieldSet N}
    {children : List (PathElement N × FieldSet N)} (sorted : SortedBy Prod.fst children) :
    SortedBy Prod.fst (children.map fun node => (node.1, update node)) :=
  List.pairwise_map.mpr sorted

private theorem foldl_insert_members (test : PathElement N → Bool)
    (nodes : List (PathElement N × FieldSet N)) {members : List (PathElement N)}
    (sorted : SortedBy id members) :
    SortedBy id (nodes.foldl (fun members node =>
        if test node.1 then insertBy id .unset id node.1 members else members) members) ∧
      ∀ pe, membersHas (nodes.foldl (fun members node =>
          if test node.1 then insertBy id .unset id node.1 members else members) members) pe =
        true ↔ membersHas members pe = true ∨ ∃ node ∈ nodes, test node.1 = true ∧
          (node.1 == pe) = true := by
  induction nodes generalizing members with
  | nil => exact ⟨sorted, by simp⟩
  | cons node rest ih =>
      simp only [List.foldl_cons]
      by_cases passes : test node.1 = true
      · rw [if_pos passes]
        obtain ⟨sortedResult, lookup⟩ :=
          ih (insert_member_sorted sorted node.1)
        refine ⟨sortedResult, fun pe => ?_⟩
        rw [lookup, membersHas_insert sorted, Bool.or_eq_true]
        simp [passes, or_assoc]
      · rw [if_neg passes]
        obtain ⟨sortedResult, lookup⟩ := ih sorted
        refine ⟨sortedResult, fun pe => ?_⟩
        rw [lookup]
        simp [passes]

/-- A child exists exactly if a member lies beneath its path element. -/
theorem lookupBy_children_iff (canonical : s.Canonical) (pe : PathElement N) :
    (∃ node, lookupBy Prod.fst pe s.children = some node) ↔ s.HasBeneath [pe] := by
  constructor
  · rintro ⟨node, found⟩
    have member := mem_of_lookupBy found
    have canonicalNode := canonical.nodes node member
    have nonEmpty := canonical.nonEmpty node member
    by_contra none
    have empty : node.2.isEmpty = true := by
      rw [isEmpty_iff_has canonicalNode]
      intro path
      by_contra holds
      have holds : node.2.has path = true := by simpa using holds
      have proper : path ≠ [] := by
        intro root
        rw [root, has_root] at holds
        cases holds
      refine none ⟨path, proper, ?_⟩
      rw [List.singleton_append, has_cons _ _ proper, withPrefix_eq canonical, found]
      exact holds
    rw [empty] at nonEmpty
    cases nonEmpty
  · rintro ⟨rest, proper, holds⟩
    rw [List.singleton_append, has_cons _ _ proper, withPrefix_eq canonical] at holds
    cases found : lookupBy Prod.fst pe s.children with
    | none => simp [found] at holds
    | some node => exact ⟨node, rfl⟩

section

variable (canonical : s.Canonical) (sc : Schema N) (tr : TypeRef N)

include canonical sc tr

theorem ensure_withPrefix (pe : PathElement N) :
    (s.ensureNamedFieldsAreMembers sc tr).withPrefix pe =
      ((s.withPrefix pe).ensureNamedFieldsAreMembers sc (childType (atomAt sc tr) pe)) := by
  have nilEnsure : ∀ tr' : TypeRef N, (nil : FieldSet N).ensureNamedFieldsAreMembers sc tr' = nil :=
    fun tr' => by rw [ensure_eq]; rfl
  rw [ensure_eq, withPrefix, childrenGet]
  simp only [ensureBody]
  rw [getBy_eq_lookupBy (sorted_map_snd canonical.children), lookupBy_map_snd,
    withPrefix_eq canonical]
  cases found : lookupBy Prod.fst pe s.children with
  | none => simp [nilEnsure]
  | some node =>
      have same := childType_congr (atomAt sc tr) (key_of_lookupBy found)
      simp only [atomAt] at same
      simp [same, atomAt]

/-- The result has the members, and those declared struct fields that have a
member beneath them. -/
theorem has_ensure (path : Path N) :
    (s.ensureNamedFieldsAreMembers sc tr).has path = true ↔
      s.has path = true ∨ (declared sc tr path = true ∧ s.HasBeneath path) := by
  induction path generalizing s tr with
  | nil => simp [declared]
  | cons pe rest ih =>
      by_cases leaf : rest = []
      · subst leaf
        rw [ensure_eq, has_singleton, has_singleton]
        simp only [ensureBody]
        rw [(foldl_insert_members _ s.children canonical.members).2 pe,
          ← lookupBy_children_iff canonical]
        refine or_congr Iff.rfl ⟨?_, ?_⟩
        · rintro ⟨node, member, isField, same⟩
          refine ⟨?_, node, lookupBy_of_mem canonical.children member same⟩
          rw [declared, ← isDeclared_congr _ same]
          exact isField
        · rintro ⟨isField, node, found⟩
          have same := key_of_lookupBy found
          refine ⟨node, mem_of_lookupBy found, ?_, same⟩
          rw [declared, ← isDeclared_congr _ same] at isField
          exact isField
      · rw [has_cons _ _ leaf, has_cons _ _ leaf, ensure_withPrefix canonical,
          declared_cons _ _ _ leaf, hasBeneath_cons]
        exact ih (withPrefix_canonical canonical pe) _

theorem ensure_canonical :
    (s.ensureNamedFieldsAreMembers sc tr).Canonical ∧
      (s.isEmpty = false → (s.ensureNamedFieldsAreMembers sc tr).isEmpty = false) := by
  induction canonical generalizing tr with
  | @intro s members children nodes nonEmpty ih =>
      have canonical : s.Canonical := .intro members children nodes nonEmpty
      have result : (s.ensureNamedFieldsAreMembers sc tr).Canonical := by
        rw [ensure_eq]
        refine .intro (foldl_insert_members _ s.children members).1 (sorted_map_snd children) ?_ ?_
        · intro node member
          obtain ⟨origin, inChildren, rfl⟩ := List.mem_map.mp member
          exact (ih origin inChildren _).1
        · intro node member
          obtain ⟨origin, inChildren, rfl⟩ := List.mem_map.mp member
          exact (ih origin inChildren _).2 (nonEmpty origin inChildren)
      refine ⟨result, fun someMember => ?_⟩
      by_contra empty
      have noPath := (isEmpty_iff_has result).mp (by simpa using empty)
      have sourceEmpty : s.isEmpty = true := by
        rw [isEmpty_iff_has canonical]
        intro path
        by_contra holds
        have kept := (has_ensure canonical sc tr path).mpr (Or.inl (by simpa using holds))
        rw [noPath path] at kept
        cases kept
      rw [someMember] at sourceEmpty
      cases sourceEmpty

end

/-! ## Listing -/

omit [Numeric N] [Consistent N] in
mutual

theorem ne_nil_of_mem_iterate (s : FieldSet N) : [] ∉ s.iterate := by
  obtain ⟨members, children⟩ := s
  simp only [iterate, List.mem_append, List.mem_map, not_or]
  exact ⟨by simp, ne_nil_of_mem_iterateChildren children⟩

theorem ne_nil_of_mem_iterateChildren (children : List (PathElement N × FieldSet N)) :
    [] ∉ iterateChildren children := by
  match children with
  | [] => simp [iterateChildren]
  | (pe, child) :: rest =>
      simp only [iterateChildren, List.mem_append, not_or]
      exact ⟨by simp, ne_nil_of_mem_iterateChildren rest⟩

end

private theorem countP_sorted {α : Type} {key : α → PathElement N} {slice : List α}
    (sorted : SortedBy key slice) (wanted : PathElement N) :
    slice.countP (fun entry => key entry == wanted) =
      if (lookupBy key wanted slice).isSome then 1 else 0 := by
  induction slice with
  | nil => rfl
  | cons entry rest ih =>
      have sortedRest := List.Pairwise.of_cons sorted
      rw [List.countP_cons, ih sortedRest, lookupBy_cons]
      by_cases same : (key entry == wanted) = true
      · have absent : lookupBy key wanted rest = none := by
          rw [lookupBy_eq_none]
          intro other member
          have below := List.rel_of_pairwise_cons sorted member
          rw [Bool.eq_false_iff]
          intro sameOther
          have equal : (key entry == key other) = true := by
            rw [BEq.congr_left same]
            exact BEq.symm sameOther
          rw [← compare_eq_iff_beq, below] at equal
          cases equal
        simp [same, absent]
      · simp [same]

private theorem countP_iterateChildren {children : List (PathElement N × FieldSet N)}
    (sorted : SortedBy Prod.fst children) (pe : PathElement N) (rest : Path N) :
    (iterateChildren children).countP (· == pe :: rest) =
      match lookupBy Prod.fst pe children with
      | some node => node.2.iterate.countP (· == rest)
      | none => 0 := by
  induction children with
  | nil => rfl
  | cons node later ih =>
      obtain ⟨name, child⟩ := node
      have sortedLater := List.Pairwise.of_cons sorted
      rw [iterateChildren, List.countP_append, ih sortedLater, lookupBy_cons,
        List.countP_map]
      by_cases same : (name == pe) = true
      · have absent : lookupBy Prod.fst pe later = none := by
          have once := countP_sorted sorted pe
          rw [List.countP_cons, countP_sorted sortedLater, lookupBy_cons] at once
          simp only [same, if_true, Option.isSome_some] at once
          by_contra found
          have isSome := Option.isSome_iff_ne_none.mpr found
          simp [isSome] at once
        rw [absent, if_pos same]
        simp only [Nat.add_zero]
        congr 1
        funext path
        simp [same]
      · have none : (child.iterate.countP ((· == pe :: rest) ∘ (name :: ·))) = 0 := by
          rw [List.countP_eq_zero]
          intro path _
          simp [same]
        rw [none, if_neg same, Nat.zero_add]

/-- The listing holds every path of the set once, and no other. -/
theorem countP_iterate (canonical : s.Canonical) (path : Path N) :
    s.iterate.countP (· == path) = if s.has path then 1 else 0 := by
  induction path generalizing s with
  | nil =>
      rw [has_root, if_neg (by simp), List.countP_eq_zero]
      intro listed member same
      have empty : listed = [] := by
        cases listed with
        | nil => rfl
        | cons _ _ => simp at same
      exact ne_nil_of_mem_iterate s (empty ▸ member)
  | cons pe rest ih =>
      have split : s.iterate = s.members.map (fun pe => [pe]) ++ iterateChildren s.children := by
        obtain ⟨members, children⟩ := s
        rw [iterate]
      rw [split, List.countP_append, List.countP_map, countP_iterateChildren canonical.children]
      by_cases leaf : rest = []
      · subst leaf
        have members : s.members.countP ((· == [pe]) ∘ fun pe => [pe]) =
            if membersHas s.members pe then 1 else 0 := by
          rw [membersHas_eq canonical.members, ← countP_sorted canonical.members]
          congr 1
          funext member
          simp
        rw [members, has_singleton]
        cases found : lookupBy Prod.fst pe s.children with
        | none => rfl
        | some node =>
            have none := ih (canonical.nodes node (mem_of_lookupBy found))
            rw [has_root, if_neg (by simp)] at none
            simp only [none, Nat.add_zero]
      · have none : s.members.countP ((· == pe :: rest) ∘ fun pe => [pe]) = 0 := by
          rw [List.countP_eq_zero]
          intro member _
          cases rest with
          | nil => exact absurd rfl leaf
          | cons _ _ => simp
        rw [none, has_cons _ _ leaf, withPrefix_eq canonical]
        cases found : lookupBy Prod.fst pe s.children with
        | none => simp
        | some node =>
            simpa using ih (canonical.nodes node (mem_of_lookupBy found))

theorem has_of_mem_iterate (canonical : s.Canonical) {path : Path N} (listed : path ∈ s.iterate) :
    s.has path = true := by
  have counted := countP_iterate canonical path
  by_contra absent
  rw [if_neg absent, List.countP_eq_zero] at counted
  exact counted path listed (BEq.refl path)

end Laws

end FieldSet

end StructuredMergeDiff
