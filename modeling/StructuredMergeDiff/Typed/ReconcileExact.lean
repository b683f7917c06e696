import StructuredMergeDiff.FieldPath.Collision
import StructuredMergeDiff.FieldPath.Declared
import StructuredMergeDiff.Typed.ReconcileSpec

/-!
Contract: reconciliation cuts a set back to exactly the atomic values it reaches into.

The types along a path are those that the schema declares. Where they lead to an atomic
list or map, and the set has something beneath it, the set is cut back to that path; the
rest of the set stays. A second run changes nothing.

Owns: `Collapsing`, and the equivalence of exact reconciliation with consistent numbers.
Does not own: the walk (`Typed.Reconcile`) and that its sets are well formed
(`Typed.ReconcileSpec`).
-/

namespace StructuredMergeDiff.Typed

open Library Std FieldSet

variable {N : Type} [Numeric N] {s : FieldSet N} {sc : Schema N}

namespace Reconcile

/-! ## Types along a path -/

section

omit [Numeric N]

/-- The alternative that the walk takes at a type. -/
def alternative? (sc : Schema N) (tr : TypeRef N) : Option (Alternative N) :=
  match sc.resolve tr with
  | none => none
  | some atom => (handleAtom atom tr).toOption

/-- Is this an atomic list, or an atomic map other than an untyped deduced one? -/
def collapsible (sc : Schema N) (tr : TypeRef N) : Bool :=
  match alternative? sc tr with
  | some (.list t) => t.elementRelationship = .atomic
  | some (.map t) => !isUntypedDeducedMap t && t.elementRelationship = .atomic
  | _ => false

/-- The declared type of an element. There is none in a scalar, in an atomic value and in an
untyped deduced map, nor for a field that is not in the schema. -/
def below (sc : Schema N) (tr : TypeRef N) (pe : PathElement N) : Option (TypeRef N) :=
  match alternative? sc tr with
  | some (.list t) => if t.elementRelationship = .atomic then none else some t.elementType
  | some (.map t) =>
      if isUntypedDeducedMap t || t.elementRelationship = .atomic then none
      else typeRefAtPath t pe
  | _ => none

/-- The declared type at the end of a path. -/
def typeAt (sc : Schema N) : TypeRef N → Path N → Option (TypeRef N)
  | tr, [] => some tr
  | tr, pe :: rest =>
      match below sc tr pe with
      | some next => typeAt sc next rest
      | none => none

end

end Reconcile

open Reconcile

variable {call : Call N}

/-- The path leads to an atomic value that the set reaches into. -/
def Collapsing (sc : Schema N) (tr : TypeRef N) (s : FieldSet N) (path : Path N) : Prop :=
  (∃ type, typeAt sc tr path = some type ∧ collapsible sc type = true) ∧ s.HasBeneath path

namespace Reconcile

/-! ## One node -/

omit [Numeric N] in
theorem below_of_collapsible {tr : TypeRef N} (atomic : collapsible sc tr = true)
    (pe : PathElement N) : below sc tr pe = none := by
  unfold collapsible at atomic
  unfold below
  split at atomic
  · next t _ => simp_all
  · next t _ => simp_all
  · cases atomic

/-- A descent starts with a set exactly if it may cut back; at a type where it does, it is
beneath the root and the set is not empty. -/
structure Call.Ready (sc : Schema N) (call : Call N) : Prop where
  isAtomic : call.isAtomic = call.fieldSet.isNone
  canonical : ∀ s, call.fieldSet = some s → s.Canonical
  nonEmpty : ∀ s, call.fieldSet = some s → collapsible sc call.type = true → s.isEmpty = false
  proper : collapsible sc call.type = true → call.path ≠ []

theorem visitItems_none (visit : Call N → Result N) (call : Call N) (element : FieldSet N) :
    visitItems visit call element (fun _ => none) = { errs := [], pending := call.pending } := by
  have skips : ∀ (pes : List (PathElement N)) (isMember : Bool) (state : Result N),
      pes.foldl (fun state pe =>
        handleElement visit call element (fun _ => none) state pe isMember) state = state := by
    intro pes isMember state
    induction pes with
    | nil => rfl
    | cons pe rest ih => exact ih
  unfold visitItems
  dsimp only
  rw [skips, skips]

theorem body_of_unresolved (visit : Call N → Result N)
    (unresolved : alternative? sc call.type = none) :
    (body sc visit call).errs ≠ [] ∧ (body sc visit call).pending = call.pending := by
  unfold alternative? at unresolved
  unfold body
  split
  · simp [errorf]
  · next atom isAtom =>
      rw [isAtom] at unresolved
      split
      · simp [errorf]
      all_goals
        next handled => simp [handled, Except.toOption] at unresolved

/-- A node of an atomic type is cut back, any other one is left to its elements. -/
theorem body_of_resolved (ready : call.Ready sc) (visit : Call N → Result N)
    {alternative : Alternative N} (resolved : alternative? sc call.type = some alternative) :
    body sc visit call = match call.fieldSet with
      | none => { errs := [], pending := call.pending }
      | some s =>
          if collapsible sc call.type then collapse call
          else visitItems visit call s (below sc call.type) := by
  have handled : ∃ atom, sc.resolve call.type = some atom ∧
      handleAtom atom call.type = .ok alternative := by
    unfold alternative? at resolved
    split at resolved
    · cases resolved
    · next atom isAtom =>
        cases handled : handleAtom atom call.type with
        | error _ => simp [handled, Except.toOption] at resolved
        | ok found =>
            simp only [handled, Except.toOption, Option.some.injEq] at resolved
            exact ⟨atom, isAtom, resolved ▸ handled⟩
  obtain ⟨atom, isAtom, isAlternative⟩ := handled
  have granular : call.isAtomic = call.fieldSet.isNone := ready.isAtomic
  unfold body
  rw [isAtom]
  dsimp only
  rw [isAlternative]
  cases alternative with
  | scalar t =>
      have nothing : below sc call.type = fun _ => none := by
        funext pe
        simp [below, resolved]
      cases call.fieldSet with
      | none => rfl
      | some s => simp [collapsible, resolved, nothing, visitItems_none]
  | list t =>
      by_cases atomic : t.elementRelationship = .atomic
      · cases isSet : call.fieldSet with
        | none => simp [doList, granular, isSet]
        | some s => simp [doList, granular, isSet, collapsible, resolved, atomic]
      · have types : below sc call.type = fun _ => some t.elementType := by
          funext pe
          simp [below, resolved, atomic]
        cases isSet : call.fieldSet with
        | none => simp [doList, isSet, atomic]
        | some s => simp [doList, isSet, collapsible, resolved, atomic, types]
  | map t =>
      by_cases untyped : isUntypedDeducedMap t = true
      · have nothing : below sc call.type = fun _ => none := by
          funext pe
          simp [below, resolved, untyped]
        cases isSet : call.fieldSet with
        | none => simp [doMap, untyped]
        | some s => simp [doMap, collapsible, resolved, untyped, nothing, visitItems_none]
      · by_cases atomic : t.elementRelationship = .atomic
        · cases isSet : call.fieldSet with
          | none => simp [doMap, untyped, granular, isSet]
          | some s =>
              have collapses : collapsible sc call.type = true := by
                simp [collapsible, resolved, atomic, untyped]
              have positive : 0 < s.size := size_pos (ready.nonEmpty s isSet collapses)
              simp [doMap, untyped, granular, isSet, atomic, positive, collapses]
        · have types : below sc call.type = typeRefAtPath t := by
            funext pe
            simp [below, resolved, atomic, untyped]
          cases isSet : call.fieldSet with
          | none => simp [doMap, untyped, atomic, isSet]
          | some s => simp [doMap, untyped, atomic, isSet, collapsible, resolved, types]

/-! ## Elements that are visited -/

/-- The children that are not members, and the members. -/
def visited (s : FieldSet N) : List (PathElement N) :=
  ((s.children.map Prod.fst).filter fun pe => !membersHas s.members pe) ++ s.members

/-- A path that is in the set or leads to one that is. -/
def Reached (s : FieldSet N) (path : Path N) : Prop :=
  s.has path = true ∨ s.HasBeneath path

section Lawful

variable [Consistent N] {visit : Call N → Result N}

section

variable (canonical : s.Canonical)

include canonical

theorem childrenGet_eq (pe : PathElement N) :
    childrenGet s.children pe = (lookupBy Prod.fst pe s.children).map Prod.snd := by
  rw [childrenGet, getBy_eq_lookupBy canonical.children]

theorem childrenGet_congr {first second : PathElement N} (same : (first == second) = true) :
    childrenGet s.children first = childrenGet s.children second := by
  rw [childrenGet_eq canonical, childrenGet_eq canonical, lookupBy_congr _ _ same]

theorem childrenGet_of_mem {node : PathElement N × FieldSet N} (member : node ∈ s.children) :
    childrenGet s.children node.1 = some node.2 := by
  rw [childrenGet_eq canonical, lookupBy_of_mem canonical.children member (BEq.refl _)]
  rfl

/-- Every element of the set is visited. -/
theorem exists_visited_iff (pe : PathElement N) :
    (∃ own ∈ visited s, (own == pe) = true) ↔ Reached s [pe] := by
  have isMember : s.has [pe] = true ↔ ∃ own ∈ s.members, (own == pe) = true := by
    rw [has_singleton, membersHas_eq canonical.members]
    constructor
    · intro found
      obtain ⟨own, isOwn⟩ := Option.isSome_iff_exists.mp found
      exact ⟨own, mem_of_lookupBy isOwn, key_of_lookupBy isOwn⟩
    · rintro ⟨own, member, same⟩
      rw [lookupBy_of_mem canonical.members member same]
      rfl
  have isChild := lookupBy_children_iff canonical pe
  constructor
  · rintro ⟨own, member, same⟩
    rcases List.mem_append.mp member with inChildren | inMembers
    · obtain ⟨node, isNode, rfl⟩ := List.mem_map.mp (List.mem_filter.mp inChildren).1
      exact Or.inr (isChild.mp ⟨node, lookupBy_of_mem canonical.children isNode same⟩)
    · exact Or.inl (isMember.mpr ⟨own, inMembers, same⟩)
  · rintro (held | beneath)
    · obtain ⟨own, member, same⟩ := isMember.mp held
      exact ⟨own, List.mem_append_right _ member, same⟩
    · obtain ⟨node, found⟩ := isChild.mpr beneath
      have inChildren := mem_of_lookupBy found
      have same : (node.1 == pe) = true := key_of_lookupBy found
      by_cases also : membersHas s.members node.1 = true
      · have samePath : (([node.1] : Path N) == [pe]) = true := by simpa using same
        have held : s.has [pe] = true := by
          rw [← has_congr canonical samePath, has_singleton, also]
        obtain ⟨own, member, same⟩ := isMember.mp held
        exact ⟨own, List.mem_append_right _ member, same⟩
      · refine ⟨node.1, List.mem_append_left _ (List.mem_filter.mpr ⟨?_, by simp [also]⟩), same⟩
        exact List.mem_map_of_mem inChildren

theorem visitItems_eq (typeOf : PathElement N → Option (TypeRef N)) :
    visitItems visit call s typeOf = (visited s).foldl
      (fun state pe => handleElement visit call s typeOf state pe true)
      { errs := [], pending := call.pending } := by
  -- a child that is not a member has a set, so whether it is a member does not matter
  have asMember : ∀ (pes : List (PathElement N)) (state : Result N),
      (∀ pe ∈ pes, ∃ node ∈ s.children, node.1 = pe) →
      pes.foldl (fun state pe => handleElement visit call s typeOf state pe false) state =
        pes.foldl (fun state pe => handleElement visit call s typeOf state pe true) state := by
    intro pes
    induction pes with
    | nil => exact fun _ _ => rfl
    | cons pe rest ih =>
        intro state listed
        obtain ⟨node, member, rfl⟩ := listed pe List.mem_cons_self
        have same : handleElement visit call s typeOf state node.1 false =
            handleElement visit call s typeOf state node.1 true := by
          unfold handleElement
          rw [childrenGet_of_mem canonical member]
          rfl
        rw [List.foldl_cons, List.foldl_cons, same]
        exact ih _ fun pe member => listed pe (List.mem_cons_of_mem _ member)
  unfold visitItems visited
  dsimp only
  rw [List.foldl_append, asMember]
  intro pe member
  obtain ⟨node, isNode, isFirst⟩ := List.mem_map.mp (List.mem_filter.mp member).1
  exact ⟨node, isNode, isFirst⟩

end

/-! ## What a node adds -/

omit [Numeric N] [Consistent N] in
theorem typeAt_cons (sc : Schema N) (tr : TypeRef N) (pe : PathElement N) (rest : Path N) :
    typeAt sc tr (pe :: rest) = (below sc tr pe).bind fun next => typeAt sc next rest := by
  rw [typeAt]
  cases below sc tr pe <;> rfl

omit [Consistent N] in
theorem below_congr (sc : Schema N) (tr : TypeRef N) {first second : PathElement N}
    (same : (first == second) = true) : below sc tr first = below sc tr second := by
  have types : ∀ t : MapType N, typeRefAtPath t first = typeRefAtPath t second := by
    intro t
    cases first <;> cases second <;> first | rfl | cases same | skip
    next name other =>
      have sameName : name = other := eq_of_beq same
      rw [sameName]
  simp only [below, types]

omit [Consistent N] in
theorem collapsing_cons (sc : Schema N) (tr : TypeRef N) (s : FieldSet N) (pe : PathElement N)
    (rest : Path N) : Collapsing sc tr s (pe :: rest) ↔
      ∃ next, below sc tr pe = some next ∧ Collapsing sc next (s.withPrefix pe) rest := by
  unfold Collapsing
  rw [typeAt_cons, hasBeneath_cons]
  cases below sc tr pe <;> simp

/-- A path of a pending set. -/
def pendingHas (pending : Option (FieldSet N)) (path : Path N) : Prop :=
  ∃ s, pending = some s ∧ s.has path = true

/-- The paths to which a node is cut back: they collapse in its set. -/
def New (sc : Schema N) (fieldSet : Option (FieldSet N)) (type : TypeRef N) (base path : Path N) :
    Prop :=
  ∃ s rest, fieldSet = some s ∧ (path == base ++ rest) = true ∧ Collapsing sc type s rest

/-- The declared types of all that the set reaches are known. -/
def Resolved (sc : Schema N) (fieldSet : Option (FieldSet N)) (type : TypeRef N) : Prop :=
  ∀ rest found, typeAt sc type rest = some found →
    (rest = [] ∨ ∃ s, fieldSet = some s ∧ Reached s rest) → (alternative? sc found).isSome = true

/-- The same paths are to be removed and to be added, and there are some. -/
structure Pending.Kept (pending : Pending N) : Prop where
  same : pending.toRemove = pending.toAdd
  canonical : ∀ s, pending.toAdd = some s → s.Canonical
  nonEmpty : ∀ s, pending.toAdd = some s → ∃ path, s.has path = true

/-- A call adds its new paths, and reports exactly the types that are not known. -/
structure Exact (sc : Schema N) (call : Call N) (result : Result N) : Prop where
  kept : result.pending.Kept
  sound : ∀ path, pendingHas result.pending.toAdd path →
    pendingHas call.pending.toAdd path ∨ New sc call.fieldSet call.type call.path path
  complete : ∀ path, New sc call.fieldSet call.type call.path path →
    pendingHas result.pending.toAdd path
  errs : result.errs = [] ↔ Resolved sc call.fieldSet call.type

theorem pendingHas_merge {own child : Option (FieldSet N)}
    (canonicalOwn : ∀ s, own = some s → s.Canonical)
    (canonicalChild : ∀ s, child = some s → s.Canonical) (path : Path N) :
    pendingHas (mergePending own child) path ↔ pendingHas own path ∨ pendingHas child path := by
  unfold pendingHas
  constructor
  · rintro ⟨s, isSet, holds⟩
    exact has_of_mergePending canonicalOwn canonicalChild isSet holds
  · unfold mergePending
    split
    · simp
    · simp
    · next first second =>
        have has := has_union (canonicalOwn first rfl) (canonicalChild second rfl) path
        rintro (⟨s, isSet, holds⟩ | ⟨s, isSet, holds⟩) <;> cases isSet <;>
          exact ⟨_, rfl, by rw [has, holds]; simp⟩

theorem Pending.Kept.merge {own child : Pending N} (keptOwn : own.Kept) (keptChild : child.Kept) :
    Pending.Kept { toRemove := mergePending own.toRemove child.toRemove
                   toAdd := mergePending own.toAdd child.toAdd } where
  same := by rw [keptOwn.same, keptChild.same]
  canonical := mergePending_canonical keptOwn.canonical keptChild.canonical
  nonEmpty := by
    intro s isSet
    have has := pendingHas_merge keptOwn.canonical keptChild.canonical
    dsimp only at isSet
    have some : ∃ path, pendingHas own.toAdd path ∨ pendingHas child.toAdd path := by
      cases isOwn : own.toAdd with
      | some t =>
          obtain ⟨path, holds⟩ := keptOwn.nonEmpty t isOwn
          exact ⟨path, Or.inl ⟨t, rfl, holds⟩⟩
      | none =>
          cases isChild : child.toAdd with
          | some t =>
              obtain ⟨path, holds⟩ := keptChild.nonEmpty t isChild
              exact ⟨path, Or.inr ⟨t, rfl, holds⟩⟩
          | none => rw [isOwn, isChild] at isSet; cases isSet
    obtain ⟨path, holds⟩ := some
    obtain ⟨t, isMerged, holds⟩ := (has path).mpr holds
    rw [isSet] at isMerged
    cases isMerged
    exact ⟨path, holds⟩

/-! ## What the elements add -/

/-- What has been gathered from some elements of a set. -/
structure Gathered (sc : Schema N) (call : Call N) (s : FieldSet N) (pes : List (PathElement N))
    (state : Result N) : Prop where
  kept : state.pending.Kept
  has : ∀ path, pendingHas state.pending.toAdd path ↔
    pendingHas call.pending.toAdd path ∨ ∃ pe ∈ pes, ∃ type, below sc call.type pe = some type ∧
      New sc (FieldSet.childrenGet s.children pe) type (call.path ++ [pe]) path
  errs : state.errs = [] ↔ ∀ pe ∈ pes, ∀ type, below sc call.type pe = some type →
    Resolved sc (FieldSet.childrenGet s.children pe) type

theorem child_ready (canonical : s.Canonical) (pe : PathElement N) (type : TypeRef N)
    (base : Path N) (pending : Pending N) :
    Call.Ready sc
      { fieldSet := childrenGet s.children pe
        type := type
        path := base ++ [pe]
        isAtomic := true && (childrenGet s.children pe).isNone
        pending := pending } := by
  have node : ∀ child, childrenGet s.children pe = some child →
      ∃ node ∈ s.children, node.2 = child := by
    intro child isChild
    rw [childrenGet_eq canonical] at isChild
    obtain ⟨node, found, isSecond⟩ := Option.map_eq_some_iff.mp isChild
    exact ⟨node, mem_of_lookupBy found, isSecond⟩
  refine ⟨rfl, fun child isChild => ?_, fun child isChild _ => ?_, fun _ => by simp⟩
  · obtain ⟨node, member, rfl⟩ := node child isChild
    exact canonical.nodes node member
  · obtain ⟨node, member, rfl⟩ := node child isChild
    exact canonical.nonEmpty node member

section

variable (isSet : call.fieldSet = some s) (canonical : s.Canonical)
  (visits : ∀ child : Call N, child.depth < call.depth → child.Ready sc → child.pending.Kept → Exact sc child (visit child))

include isSet canonical visits

theorem handleElement_gathered {done : List (PathElement N)} {state : Result N}
    (gathered : Gathered sc call s done state) (pe : PathElement N)
    : Gathered sc call s (done ++ [pe])
      (handleElement visit call s (below sc call.type) state pe true) := by
  unfold handleElement
  cases isType : below sc call.type pe with
  | none =>
      refine ⟨gathered.kept, fun path => ?_, ?_⟩
      · rw [gathered.has]
        simp [or_and_right, exists_or, isType]
      · rw [gathered.errs]
        simp [or_imp, forall_and, isType]
  | some type =>
      dsimp only
      have exact := visits _ (depth_child isSet rfl)
        (child_ready canonical pe type call.path state.pending) gathered.kept
      generalize visit _ = result at exact ⊢
      have merged := pendingHas_merge gathered.kept.canonical exact.kept.canonical
      refine ⟨gathered.kept.merge exact.kept, fun path => ?_, ?_⟩
      · rw [merged, gathered.has]
        simp only [List.mem_append, List.mem_singleton, or_and_right, exists_or, exists_eq_left,
          isType, Option.some.injEq, exists_eq_left']
        constructor
        · rintro (before | added)
          · exact before.imp id Or.inl
          · rcases exact.sound path added with before | new
            · exact ((gathered.has path).mp before).imp id Or.inl
            · exact Or.inr (Or.inr new)
        · rintro (before | earlier | new)
          · exact Or.inl (Or.inl before)
          · exact Or.inl (Or.inr earlier)
          · exact Or.inr (exact.complete path new)
      · rw [List.append_eq_nil_iff, gathered.errs, exact.errs]
        simp [or_imp, forall_and, isType]

theorem foldl_gathered (pes : List (PathElement N)) {done : List (PathElement N)} {state : Result N}
    (gathered : Gathered sc call s done state) : Gathered sc call s (done ++ pes)
      (pes.foldl (fun state pe => handleElement visit call s (below sc call.type) state pe true)
        state) := by
  induction pes generalizing done state with
  | nil => simpa using gathered
  | cons pe rest ih =>
      have more := ih (handleElement_gathered isSet canonical visits gathered pe)
      simpa using more

end

theorem visitItems_gathered (isSet : call.fieldSet = some s) (canonical : s.Canonical)
    (kept : call.pending.Kept)
    (visits : ∀ child : Call N, child.depth < call.depth → child.Ready sc → child.pending.Kept →
      Exact sc child (visit child)) :
    Gathered sc call s (visited s) (visitItems visit call s (below sc call.type)) := by
  have start : Gathered sc call s [] { errs := [], pending := call.pending } :=
    ⟨kept, by simp, by simp⟩
  have all := foldl_gathered isSet canonical visits (visited s) start
  rw [List.nil_append] at all
  rwa [visitItems_eq canonical]

/-! ## The whole walk -/

omit [Consistent N] in
theorem reached_of_cons {pe : PathElement N} {rest : Path N} (reached : Reached s (pe :: rest))
    : Reached s [pe] := by
  rcases reached with held | ⟨suffix, proper, held⟩
  · by_cases last : rest = []
    · exact Or.inl (last ▸ held)
    · exact Or.inr ⟨rest, last, held⟩
  · exact Or.inr ⟨rest ++ suffix, by simp [proper], held⟩

omit [Consistent N] in
theorem reached_cons_iff {pe : PathElement N} {rest : Path N} (proper : rest ≠ []) :
    Reached s (pe :: rest) ↔
      ∃ child, childrenGet s.children pe = some child ∧ Reached child rest := by
  unfold Reached
  rw [has_cons _ _ proper, hasBeneath_cons, withPrefix]
  cases childrenGet s.children pe with
  | none => simp [HasBeneath]
  | some child => simp

/-- Beneath a type that is not cut back, the new paths are those of the elements. -/
theorem new_iff_visited {tr : TypeRef N} (canonical : s.Canonical)
    (granular : collapsible sc tr = false) (base path : Path N) :
    New sc (some s) tr base path ↔ ∃ pe ∈ visited s, ∃ type, below sc tr pe = some type ∧
      New sc (childrenGet s.children pe) type (base ++ [pe]) path := by
  constructor
  · rintro ⟨_, rest, isSet, samePath, collapsing⟩
    cases isSet
    cases rest with
    | nil =>
        obtain ⟨⟨type, isType, atomic⟩, -⟩ := collapsing
        cases isType
        rw [granular] at atomic
        cases atomic
    | cons pe rest =>
        obtain ⟨next, isNext, atNext⟩ := (collapsing_cons ..).mp collapsing
        obtain ⟨suffix, proper, held⟩ := collapsing.2
        have reached : Reached s (pe :: rest) := Or.inr ⟨suffix, proper, held⟩
        obtain ⟨own, isVisited, same⟩ :=
          (exists_visited_iff canonical pe).mpr (reached_of_cons reached)
        refine ⟨own, isVisited, next, by rw [below_congr sc tr same, isNext], ?_⟩
        rw [childrenGet_congr canonical same]
        rw [withPrefix] at atNext
        cases found : childrenGet s.children pe with
        | none =>
            rw [found] at atNext
            obtain ⟨_, _, nothing⟩ := atNext.2
            simp at nothing
        | some child =>
            rw [found] at atNext
            refine ⟨child, rest, rfl, ?_, atNext⟩
            have sameElement : ((base ++ [pe] ++ rest : Path N) == base ++ [own] ++ rest) = true := by
              apply append_beq
              exact append_beq_right base (by simpa using BEq.symm same)
            exact BEq.trans (by simpa using samePath) sameElement
  · rintro ⟨pe, -, type, isType, child, rest, isChild, samePath, collapsing⟩
    refine ⟨s, pe :: rest, rfl, by simpa using samePath, (collapsing_cons ..).mpr ⟨type, isType, ?_⟩⟩
    rwa [withPrefix, isChild]

/-- Types are known if the own type is, and those of the elements. -/
theorem resolved_iff_visited {tr : TypeRef N} (canonical : s.Canonical)
    (known : (alternative? sc tr).isSome = true) :
    Resolved sc (some s) tr ↔ ∀ pe ∈ visited s, ∀ type, below sc tr pe = some type →
      Resolved sc (childrenGet s.children pe) type := by
  constructor
  · intro resolved pe isVisited type isType rest found isFound reached
    refine resolved (pe :: rest) found (by rw [typeAt_cons, isType]; exact isFound)
      (Or.inr ⟨s, rfl, ?_⟩)
    by_cases last : rest = []
    · rw [last]
      exact (exists_visited_iff canonical pe).mp ⟨pe, isVisited, BEq.refl pe⟩
    · exact (reached_cons_iff last).mpr (reached.resolve_left last)
  · intro resolved rest found isFound reached
    cases rest with
    | nil =>
        cases isFound
        exact known
    | cons pe rest =>
        obtain ⟨_, isSet, reachedAt⟩ := reached.resolve_left (by simp)
        cases isSet
        obtain ⟨own, isVisited, same⟩ := (exists_visited_iff canonical pe).mpr
          (reached_of_cons reachedAt)
        rw [typeAt_cons] at isFound
        obtain ⟨type, isType, atType⟩ := Option.bind_eq_some_iff.mp isFound
        refine resolved own isVisited type (by rw [below_congr sc tr same, isType]) rest found
          atType ?_
        rw [childrenGet_congr canonical same]
        by_cases last : rest = []
        · exact Or.inl last
        · exact Or.inr ((reached_cons_iff last).mp reachedAt)

omit [Consistent N] in
/-- Nothing is beneath a type that has no elements. -/
theorem collapsing_nil_only {tr : TypeRef N} (leaf : ∀ pe, below sc tr pe = none) {path : Path N}
    (collapsing : Collapsing sc tr s path) :
    path = [] ∧ collapsible sc tr = true := by
  cases path with
  | nil =>
      obtain ⟨⟨type, isType, atomic⟩, -⟩ := collapsing
      cases isType
      exact ⟨rfl, atomic⟩
  | cons pe rest =>
      obtain ⟨next, isNext, -⟩ := (collapsing_cons ..).mp collapsing
      rw [leaf] at isNext
      cases isNext

theorem hasBeneath_root (canonical : s.Canonical) (nonEmpty : s.isEmpty = false) :
    s.HasBeneath [] := by
  by_contra nothing
  have empty : s.isEmpty = true := (isEmpty_iff_has canonical).mpr fun path => by
    rw [Bool.eq_false_iff]
    intro held
    refine nothing ⟨path, ?_, held⟩
    intro root
    rw [root] at held
    simp at held
  rw [empty] at nonEmpty
  cases nonEmpty

/-- A node of an atomic type has one new path, its own. -/
theorem collapse_exact (ready : call.Ready sc) (isSet : call.fieldSet = some s)
    (atomic : collapsible sc call.type = true) :
    Exact sc call (collapse call) := by
  have proper := ready.proper atomic
  have leaf := below_of_collapsible atomic
  have has : ∀ path, pendingHas (collapse call).pending.toAdd path ↔ (path == call.path) = true := by
    intro path
    show (∃ t, some (ofPaths [call.path]) = some t ∧ t.has path = true) ↔ _
    simp only [Option.some.injEq, exists_eq_left', has_ofPaths, List.mem_singleton,
      exists_eq_left, proper, ne_eq, not_false_eq_true, true_and]
    exact ⟨BEq.symm, BEq.symm⟩
  have canonical := ready.canonical s isSet
  have collapsing : Collapsing sc call.type s [] :=
    ⟨⟨call.type, rfl, atomic⟩, hasBeneath_root canonical (ready.nonEmpty s isSet atomic)⟩
  refine ⟨⟨rfl, ?_, ?_⟩, fun path held => Or.inr ?_, fun path new => ?_, ?_⟩
  · intro t isAdded
    cases isAdded
    exact ofPaths_canonical _
  · intro t isAdded
    obtain ⟨_, isOther, held⟩ := (has call.path).mpr (BEq.refl _)
    rw [isAdded] at isOther
    cases isOther
    exact ⟨call.path, held⟩
  · exact ⟨s, [], isSet, by simpa using (has path).mp held, collapsing⟩
  · obtain ⟨t, rest, -, same, collapsing⟩ := new
    rw [(collapsing_nil_only leaf collapsing).1, List.append_nil] at same
    exact (has path).mpr same
  · refine iff_of_true rfl fun rest found isFound _ => ?_
    cases rest with
    | nil =>
        cases isFound
        unfold collapsible at atomic
        split at atomic
        · next resolved => rw [resolved]; rfl
        · next resolved => rw [resolved]; rfl
        · cases atomic
    | cons pe rest =>
        rw [typeAt_cons, leaf] at isFound
        cases isFound

/-- The walk adds the paths that collapse, and succeeds exactly if all types are known. -/
theorem reconcileWalk_exact (sc : Schema N) (call : Call N) (ready : call.Ready sc)
    (kept : call.pending.Kept) : Exact sc call (reconcileWalk sc call) := by
  induction size : call.depth using Nat.strongRecOn generalizing call with
  | ind size ih =>
      subst size
      have visits : ∀ child : Call N, child.depth < call.depth → child.Ready sc →
          child.pending.Kept → Exact sc child (reconcileWalk sc child) :=
        fun child smaller readyChild keptChild =>
          ih child.depth smaller child readyChild keptChild rfl
      rw [reconcileWalk_eq]
      cases resolved : alternative? sc call.type with
      | none =>
          obtain ⟨errs, pending⟩ := body_of_unresolved (reconcileWalk sc) resolved
          have leaf : ∀ pe, below sc call.type pe = none := fun pe => by simp [below, resolved]
          refine ⟨pending ▸ kept, fun path held => Or.inl (pending ▸ held), fun path new => ?_, ?_⟩
          · obtain ⟨s, rest, -, -, collapsing⟩ := new
            have atomic := (collapsing_nil_only leaf collapsing).2
            simp [collapsible, resolved] at atomic
          · refine iff_of_false errs fun all => ?_
            have known := all [] call.type rfl (Or.inl rfl)
            rw [resolved] at known
            cases known
      | some alternative =>
          have known : (alternative? sc call.type).isSome = true := by rw [resolved]; rfl
          rw [body_of_resolved ready (reconcileWalk sc) resolved]
          cases isSet : call.fieldSet with
          | none =>
              refine ⟨kept, fun path held => Or.inl held, fun path new => ?_, ?_⟩
              · obtain ⟨s, rest, isSome, -⟩ := new
                rw [isSet] at isSome
                cases isSome
              · refine iff_of_true rfl fun rest found isFound reached => ?_
                rcases reached with rfl | ⟨s, isSome, -⟩
                · cases isFound
                  exact known
                · rw [isSet] at isSome
                  cases isSome
          | some s =>
              have canonical := ready.canonical s isSet
              dsimp only
              split
              · next atomic => exact collapse_exact ready isSet atomic
              · next granular =>
                  have granular : collapsible sc call.type = false := by simpa using granular
                  have gathered := visitItems_gathered isSet canonical kept visits
                  have new := new_iff_visited canonical granular call.path
                  rw [← isSet] at new
                  refine ⟨gathered.kept, fun path held => ?_, fun path isNew => ?_, ?_⟩
                  · rw [new]
                    exact (gathered.has path).mp held
                  · exact (gathered.has path).mpr (Or.inr ((new path).mp isNew))
                  · rw [gathered.errs, isSet, resolved_iff_visited canonical known]

end Lawful

omit [Numeric N] in
theorem typeAt_append (sc : Schema N) (tr : TypeRef N) (first second : Path N) :
    typeAt sc tr (first ++ second) =
      (typeAt sc tr first).bind fun type => typeAt sc type second := by
  induction first generalizing tr with
  | nil => rfl
  | cons pe rest ih =>
      rw [List.cons_append, typeAt_cons, typeAt_cons]
      cases below sc tr pe with
      | none => rfl
      | some next => exact ih next

/-- Nothing has a declared type beneath an atomic value. -/
theorem not_collapsing_beneath {tr type : TypeRef N} {first second : Path N}
    (isType : typeAt sc tr first = some type) (atomic : collapsible sc type = true)
    (proper : second ≠ []) (s : FieldSet N) : ¬ Collapsing sc tr s (first ++ second) := by
  rintro ⟨⟨found, isFound, -⟩, -⟩
  obtain ⟨pe, rest, rfl⟩ := List.exists_cons_of_ne_nil proper
  rw [typeAt_append, isType, Option.bind_some, typeAt_cons, below_of_collapsible atomic] at isFound
  cases isFound

theorem typeAt_congr (sc : Schema N) (tr : TypeRef N) {first second : Path N}
    (same : (first == second) = true) : typeAt sc tr first = typeAt sc tr second := by
  induction first generalizing tr second with
  | nil =>
      cases second with
      | nil => rfl
      | cons _ _ => simp at same
  | cons pe rest ih =>
      cases second with
      | nil => simp at same
      | cons other others =>
          rw [List.cons_beq_cons, Bool.and_eq_true] at same
          rw [typeAt_cons, typeAt_cons, below_congr sc tr same.1]
          congr 1
          funext next
          exact ih next same.2

end Reconcile

/-! ## The reconciled set -/

/-- The root of the object is a map whose entries are owned one by one. -/
def GranularMap (sc : Schema N) (tr : TypeRef N) : Prop :=
  ∃ t : MapType N, alternative? sc tr = some (.map t) ∧ t.elementRelationship ≠ .atomic

/-- The set is changed only if some path collapses. It then has the collapsing paths, and
the old ones that are not at or beneath them, and is not changed again. -/
structure ReconciledExactly (sc : Schema N) (tr : TypeRef N) (s : FieldSet N)
    (out : Option (FieldSet N)) : Prop where
  unchanged : out = none ↔ ∀ path, ¬ Collapsing sc tr s path
  canonical : ∀ r, out = some r → r.Canonical
  has : ∀ r, out = some r → ∀ path, r.has path = true ↔
    s.has path = true ∧ (∀ first, first <+: path → ¬ Collapsing sc tr s first) ∨
      Collapsing sc tr s path
  again : ∀ r, out = some r → reconcileFieldSetWithSchema sc tr r = .ok none

omit [Numeric N] in
theorem GranularMap.not_collapsible {tr : TypeRef N} (root : GranularMap sc tr) :
    collapsible sc tr = false := by
  obtain ⟨t, resolved, granular⟩ := root
  simp [collapsible, resolved, granular]

section Lawful

variable [Consistent N] {tr : TypeRef N}

theorem collapsing_congr (canonical : s.Canonical) {first second : Path N}
    (same : (first == second) = true) : Collapsing sc tr s first ↔ Collapsing sc tr s second := by
  unfold Collapsing HasBeneath
  rw [typeAt_congr sc tr same]
  simp only [has_congr canonical (append_beq same _)]

private theorem reconcile_outcome (root : GranularMap sc tr) (canonical : s.Canonical) :
    ∃ collapsed : Option (FieldSet N),
      (∀ t, collapsed = some t → t.Canonical ∧ ∃ path, t.has path = true) ∧
      (∀ path, pendingHas collapsed path ↔ Collapsing sc tr s path) ∧
      (Resolved sc (some s) tr → reconcileFieldSetWithSchema sc tr s =
        .ok (collapsed.map fun t => (s.recursiveDifference t).union t)) ∧
      (¬ Resolved sc (some s) tr → ∃ errs, reconcileFieldSetWithSchema sc tr s = .error errs) := by
  have notWhole := root.not_collapsible
  have exact := reconcileWalk_exact sc
    { fieldSet := some s
      type := tr
      path := []
      isAtomic := false
      pending := { toRemove := none, toAdd := none } }
    ⟨rfl, by simpa using canonical, by simp [notWhole], by simp [notWhole]⟩
    ⟨rfl, by simp, by simp⟩
  unfold reconcileFieldSetWithSchema
  dsimp only
  generalize reconcileWalk sc _ = result at exact ⊢
  refine ⟨result.pending.toAdd, fun t isSet => ⟨exact.kept.canonical t isSet,
    exact.kept.nonEmpty t isSet⟩, fun path => ⟨fun held => ?_, fun collapsing => ?_⟩,
    fun resolved => ?_, fun unresolved => ?_⟩
  · rcases exact.sound path held with ⟨_, impossible, -⟩ | ⟨_, rest, isSet, same, collapsing⟩
    · cases impossible
    · cases isSet
      exact (collapsing_congr canonical same).mpr collapsing
  · exact exact.complete path ⟨s, path, rfl, BEq.refl path, collapsing⟩
  · rw [exact.errs.mpr resolved, exact.kept.same]
    cases result.pending.toAdd <;> simp
  · have some : result.errs ≠ [] := fun none => unresolved (exact.errs.mp none)
    rw [if_pos (List.length_pos_iff.mpr some)]
    exact ⟨_, rfl⟩

/-- The set is left alone if all types are known and no path collapses. -/
theorem reconcile_eq_none (root : GranularMap sc tr) (canonical : s.Canonical)
    (resolved : Resolved sc (some s) tr) (nothing : ∀ path, ¬ Collapsing sc tr s path) :
    reconcileFieldSetWithSchema sc tr s = .ok none := by
  obtain ⟨collapsed, nonEmpty, has, succeeds, -⟩ := reconcile_outcome root canonical
  rw [succeeds resolved]
  cases collapsed with
  | none => rfl
  | some t =>
      obtain ⟨-, path, held⟩ := nonEmpty t rfl
      exact absurd ((has path).mp ⟨t, rfl, held⟩) (nothing path)

omit [Consistent N] in
private theorem no_collapsing_again {r : FieldSet N}
    (has : ∀ path, r.has path = true ↔
      s.has path = true ∧ (∀ first, first <+: path → ¬ Collapsing sc tr s first) ∨
        Collapsing sc tr s path) (path : Path N) : ¬ Collapsing sc tr r path := by
  rintro ⟨⟨type, isType, atomic⟩, rest, proper, held⟩
  rcases (has _).mp held with ⟨old, outside⟩ | collapsing
  · exact outside path (List.prefix_append _ _) ⟨⟨type, isType, atomic⟩, rest, proper, old⟩
  · exact not_collapsing_beneath isType atomic proper s collapsing

omit [Consistent N] in
private theorem resolved_again {r : FieldSet N} (resolved : Resolved sc (some s) tr)
    (has : ∀ path, r.has path = true ↔
      s.has path = true ∧ (∀ first, first <+: path → ¬ Collapsing sc tr s first) ∨
        Collapsing sc tr s path) : Resolved sc (some r) tr := by
  have leads : ∀ path, r.has path = true → Reached s path := by
    intro path held
    exact ((has path).mp held).imp And.left And.right
  intro path found isFound reached
  refine resolved path found isFound (reached.imp id ?_)
  rintro ⟨_, isSet, reachedAt⟩
  cases isSet
  refine ⟨s, rfl, ?_⟩
  rcases reachedAt with held | ⟨rest, proper, held⟩
  · exact leads path held
  · right
    rcases leads _ held with old | ⟨more, -, old⟩
    · exact ⟨rest, proper, old⟩
    · exact ⟨rest ++ more, by simp [proper], by rwa [← List.append_assoc]⟩

/-- Over consistent numbers reconciliation is exact. -/
theorem reconciledExactly_of_ok (root : GranularMap sc tr) (canonical : s.Canonical)
    {out : Option (FieldSet N)} (ok : reconcileFieldSetWithSchema sc tr s = .ok out) :
    ReconciledExactly sc tr s out := by
  obtain ⟨collapsed, nonEmpty, hasCollapsed, succeeds, fails⟩ := reconcile_outcome root canonical
  have resolved : Resolved sc (some s) tr := by
    by_contra unresolved
    obtain ⟨errs, failed⟩ := fails unresolved
    rw [ok] at failed
    cases failed
  have isOut : collapsed.map (fun t => (s.recursiveDifference t).union t) = out := by
    have both := (succeeds resolved).symm.trans ok
    exact Except.ok.inj both
  subst isOut
  cases collapsed with
  | none =>
      refine ⟨iff_of_true rfl fun path collapsing => ?_, by simp, by simp, by simp⟩
      obtain ⟨_, impossible, -⟩ := (hasCollapsed path).mpr collapsing
      cases impossible
  | some t =>
      obtain ⟨canonicalAdded, path, held⟩ := nonEmpty t rfl
      have added : ∀ path, t.has path = true ↔ Collapsing sc tr s path := by
        intro path
        rw [← hasCollapsed]
        simp [pendingHas]
      have canonicalCut := recursiveDifference_canonical canonical canonicalAdded
      have canonicalResult := union_canonical canonicalCut canonicalAdded
      have has : ∀ path, ((s.recursiveDifference t).union t).has path = true ↔
          s.has path = true ∧ (∀ first, first <+: path → ¬ Collapsing sc tr s first) ∨
            Collapsing sc tr s path := by
        intro path
        rw [has_union canonicalCut canonicalAdded, Bool.or_eq_true,
          has_recursiveDifference canonical canonicalAdded, added]
        simp [Covers, added]
      refine ⟨iff_of_false (by simp) fun none => none path ((added path).mp held), ?_, ?_, ?_⟩
      · intro r isResult
        cases isResult
        exact canonicalResult
      · intro r isResult
        cases isResult
        exact has
      · intro r isResult
        cases isResult
        exact reconcile_eq_none root canonicalResult (resolved_again resolved has)
          (no_collapsing_again has)

end Lawful

/-! ## Numbers that collide -/

section Colliding

variable (collision : Collision N)

omit [Numeric N] in
/-- A struct with an atomic list in `a`, and a number in `b`. -/
def atomicField : TypeRef N :=
  .inline (.ofMap (.struct
    [("a", .inline (.ofList { elementType := .zero, elementRelationship := .atomic, keys := [] })),
      ("b", .inline (.ofScalar .numeric))]))

omit [Numeric N] in
/-- A map of such structs. -/
def atomicFields : TypeRef N :=
  .inline (.ofMap { MapType.struct [] with elementType := atomicField })

/-- What is under the higher integer is hidden by the lower one: the walk looks up the
float, which is a member, and finds the child of the lower integer. -/
def hiddenSet : FieldSet N :=
  { members := [numberElement collision.float]
    children :=
      [(numberElement collision.low, ⟨[.fieldName "b"], []⟩),
        (numberElement collision.high, ⟨[], [(.fieldName "a", ⟨[.fieldName "x"], []⟩)]⟩)] }

private theorem compare_high_float :
    compare (numberElement collision.high) (numberElement collision.float) = .eq := by
  rw [compare_numberElement, collision.highRounds]

private theorem compare_fieldName (name : String) :
    compare (.fieldName name : PathElement N) (.fieldName name) = .eq := by
  show compare name name = .eq
  simp

private theorem beq_of_compare {x y : PathElement N} (same : compare x y = .eq) :
    (x == y) = true :=
  compare_eq_iff_beq.mp same

theorem hiddenSet_canonical : (hiddenSet collision).Canonical := by
  have single : ∀ name : String, (⟨[.fieldName name], []⟩ : FieldSet N).Canonical := by
    intro name
    exact .intro (List.pairwise_singleton _ _) List.Pairwise.nil (by simp) (by simp)
  have beneath : (⟨[], [(.fieldName "a", ⟨[.fieldName "x"], []⟩)]⟩ : FieldSet N).Canonical := by
    refine .intro List.Pairwise.nil (List.pairwise_singleton _ _) (fun node member => ?_)
      (fun node member => ?_)
    · rw [List.mem_singleton.mp member]
      exact single "x"
    · rw [List.mem_singleton.mp member]
      rfl
  refine .intro (List.pairwise_singleton _ _)
    (List.pairwise_pair.mpr collision.compare_low_high) (fun node member => ?_)
    (fun node member => ?_)
  · rcases List.mem_pair.mp member with rfl | rfl
    · exact single "b"
    · exact beneath
  · rcases List.mem_pair.mp member with rfl | rfl <;> rfl

private theorem hiddenSet_member {n : N} (rounds : compareNumbers n collision.float = .eq) :
    membersHas (hiddenSet collision).members (numberElement n) = true := by
  have order := collision.compare_float rounds
  simp [membersHas, hiddenSet, getBy, locate, search, searchLoop, order,
    beq_of_compare order]

private theorem hiddenSet_child_float :
    childrenGet (hiddenSet collision).children (numberElement collision.float) =
      some ⟨[.fieldName "b"], []⟩ := by
  simp [childrenGet, hiddenSet, getBy, locate, search, searchLoop,
    collision.compare_low_float, compare_high_float collision,
    beq_of_compare collision.compare_low_float]

private theorem hiddenSet_child_high :
    childrenGet (hiddenSet collision).children (numberElement collision.high) =
      some ⟨[], [(.fieldName "a", ⟨[.fieldName "x"], []⟩)]⟩ := by
  have self : compare (numberElement collision.high) (numberElement collision.high) = .eq := by
    rw [compare_numberElement]
    exact compareNumbers_self collision.high
  simp [childrenGet, hiddenSet, getBy, locate, search, searchLoop,
    collision.compare_low_high, self, beq_of_compare self]

private theorem reconcileWalk_map {t : MapType N} (isSet : call.fieldSet = some s)
    (isType : call.type = .inline (.ofMap t)) (typed : isUntypedDeducedMap t = false)
    (granular : t.elementRelationship ≠ .atomic) :
    reconcileWalk sc call = visitItems (reconcileWalk sc) call s (typeRefAtPath t) := by
  have resolved : sc.resolve call.type = some (.ofMap t) := by
    rw [isType]
    rfl
  rw [reconcileWalk_eq, body, resolved]
  show doMap (reconcileWalk sc) t call = _
  simp [doMap, typed, granular, isSet]

theorem hiddenSet_unchanged :
    reconcileFieldSetWithSchema ⟨[]⟩ atomicFields (hiddenSet collision) = .ok none := by
  have lowIsMember := hiddenSet_member collision collision.lowRounds
  have highIsMember := hiddenSet_member collision collision.highRounds
  have noOther : ((hiddenSet collision).children.map Prod.fst).filter (fun pe =>
      !membersHas (hiddenSet collision).members pe) = [] := by
    simp [hiddenSet] at lowIsMember highIsMember ⊢
    exact ⟨lowIsMember, highIsMember⟩
  have number : ∀ call : Call N, call.type = .inline (.ofScalar .numeric) →
      reconcileWalk ⟨[]⟩ call = ⟨[], call.pending⟩ := by
    intro call isType
    rw [reconcileWalk_eq, body, isType]
    rfl
  have struct : ∀ call : Call N, call.fieldSet = some ⟨[.fieldName "b"], []⟩ →
      call.type = atomicField → call.pending = ⟨none, none⟩ →
      reconcileWalk ⟨[]⟩ call = ⟨[], ⟨none, none⟩⟩ := by
    intro call isSet isType nothing
    rw [reconcileWalk_map isSet isType rfl (by simp [MapType.struct])]
    have typeB : typeRefAtPath (.struct
        [("a", .inline (.ofList { elementType := .zero, elementRelationship := .atomic, keys := [] })),
          ("b", .inline (.ofScalar .numeric))]) (.fieldName "b" : PathElement N) =
        some (.inline (.ofScalar .numeric)) := rfl
    simp only [visitItems, List.map_nil, List.filter_nil, List.foldl_nil, List.foldl_cons,
      handleElement, typeB, nothing]
    rw [number _ rfl]
    rfl
  have walk : reconcileWalk ⟨[]⟩
      { fieldSet := some (hiddenSet collision)
        type := atomicFields
        path := []
        isAtomic := false
        pending := { toRemove := none, toAdd := none } } = ⟨[], ⟨none, none⟩⟩ := by
    rw [reconcileWalk_map rfl rfl rfl (by simp [MapType.struct])]
    have members : (hiddenSet collision).members = [numberElement collision.float] := rfl
    have typeFloat : typeRefAtPath { MapType.struct [] with elementType := atomicField }
        (numberElement collision.float) = some atomicField := rfl
    unfold visitItems
    rw [noOther, members]
    simp only [List.foldl_nil, List.foldl_cons, handleElement, typeFloat]
    rw [struct _ (hiddenSet_child_float collision) rfl rfl]
    rfl
  unfold reconcileFieldSetWithSchema
  rw [walk]
  rfl

theorem hiddenSet_collapsing :
    Collapsing ⟨[]⟩ atomicFields (hiddenSet collision)
      [numberElement collision.high, .fieldName "a"] := by
  refine ⟨⟨_, rfl, rfl⟩, [.fieldName "x"], by simp, ?_⟩
  show (hiddenSet collision).has [numberElement collision.high, .fieldName "a", .fieldName "x"] = true
  rw [has_cons _ _ (by simp), withPrefix, hiddenSet_child_high]
  have field : ∀ name, (compare (.fieldName name : PathElement N) (.fieldName name)) = .eq :=
    compare_fieldName
  simp [FieldSet.has, childrenGet, membersHas, getBy, locate, search, searchLoop,
    field, beq_of_compare (field _)]

end Colliding

end StructuredMergeDiff.Typed
