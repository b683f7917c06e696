import StructuredMergeDiff.FieldPath.SetSemantics
import StructuredMergeDiff.Typed.Reconcile

/-!
Contract: what reconciliation can do to a set.

A path that reconciliation adds is a list or map that has become atomic, and
the set already reached into it. So every path of the result is a path of the
set or leads to one.

Owns: `reconcileWalk_spec` and `reconcileFieldSetWithSchema_spec`.
-/

namespace StructuredMergeDiff.Typed

open Library Std FieldSet

variable {N : Type} [Numeric N]

omit [Numeric N] in
theorem append_beq [BEq (PathElement N)] [ReflBEq (PathElement N)] {first second : Path N}
    (same : (first == second) = true) (rest : Path N) :
    (first ++ rest == second ++ rest) = true := by
  induction first generalizing second with
  | nil =>
      cases second with
      | nil => exact BEq.refl _
      | cons _ _ => simp at same
  | cons pe first ih =>
      cases second with
      | nil => simp at same
      | cons pe' second =>
          rw [List.cons_beq_cons, Bool.and_eq_true] at same
          rw [List.cons_append, List.cons_append, List.cons_beq_cons, same.1,
            ih same.2, Bool.and_self]

omit [Numeric N] in
theorem append_beq_right [BEq (PathElement N)] [ReflBEq (PathElement N)] (base : Path N)
    {first second : Path N} (same : (first == second) = true) :
    (base ++ first == base ++ second) = true := by
  induction base with
  | nil => exact same
  | cons pe rest ih =>
      rw [List.cons_append, List.cons_append, List.cons_beq_cons, ih, BEq.refl,
        Bool.and_self]

namespace Reconcile

/-! ## The walk descends along the set -/

private theorem depth_childrenGet {element child : FieldSet N} {pe : PathElement N}
    (found : childrenGet element.children pe = some child) :
    child.depth < element.depth := by
  unfold childrenGet at found
  obtain ⟨node, isNode, rfl⟩ := Option.map_eq_some_iff.mp found
  exact depth_lt_of_mem (mem_of_getBy isNode)

/-- The calls for the elements of a set are smaller. -/
theorem depth_child {call child : Call N} {element : FieldSet N}
    (isElement : call.fieldSet = some element) {pe : PathElement N}
    (isChild : child.fieldSet = childrenGet element.children pe) :
    child.depth < call.depth := by
  unfold Call.depth
  rw [isChild, isElement]
  cases found : childrenGet element.children pe with
  | none => simp
  | some set =>
      have := depth_childrenGet found
      simp only [Option.elim_some]
      omega

private theorem visitItems_congr {first second : Call N → Result N} (call : Call N)
    {element : FieldSet N} (isElement : call.fieldSet = some element)
    (typeOf : PathElement N → Option (TypeRef N))
    (agree : ∀ child, child.depth < call.depth → first child = second child) :
    visitItems first call element typeOf = visitItems second call element typeOf := by
  have handled : ∀ state pe isMember,
      handleElement first call element typeOf state pe isMember =
        handleElement second call element typeOf state pe isMember := by
    intro state pe isMember
    unfold handleElement
    split
    · rfl
    · next type _ =>
        dsimp only
        rw [agree _ (depth_child isElement rfl)]
  unfold visitItems
  simp only [handled]

private theorem body_descends (sc : Schema N) : Descends Call.depth (body sc) := by
  intro first second call agree
  unfold body
  split
  · rfl
  · split
    · rfl
    · rfl
    · unfold doList
      split
      · rfl
      · split
        · next element isElement => exact visitItems_congr call isElement _ agree
        · rfl
    · unfold doMap
      dsimp only
      split
      · rfl
      · split
        · rfl
        · split
          · next element isElement => exact visitItems_congr call isElement _ agree
          · rfl

theorem reconcileWalk_eq (sc : Schema N) (call : Call N) :
    reconcileWalk sc call = body sc (reconcileWalk sc) call :=
  measured_eq (body_descends sc) _ _

/-! ## What the walk adds -/

/-- The set has a path strictly beneath this one. -/
def Reaches (fieldSet : Option (FieldSet N)) (base path : Path N) : Prop :=
  ∃ s, fieldSet = some s ∧ ∃ middle rest, (path == base ++ middle) = true ∧ rest ≠ [] ∧
    s.has (middle ++ rest) = true

/-- What is accumulated is well formed, and was so before or lies above the set. -/
structure Accumulates (fieldSet : Option (FieldSet N)) (base : Path N) (before after : Pending N) :
    Prop where
  removed : ∀ s, after.toRemove = some s → s.Canonical
  added : ∀ s, after.toAdd = some s → s.Canonical ∧ ∀ path, s.has path = true →
    (∃ t, before.toAdd = some t ∧ t.has path = true) ∨ Reaches fieldSet base path

/-- The pending sets are well formed. -/
structure Pending.Canonical (pending : Pending N) : Prop where
  removed : ∀ s, pending.toRemove = some s → s.Canonical
  added : ∀ s, pending.toAdd = some s → s.Canonical

/-- What the walk relies on: well formed sets, and a set that is not empty wherever
the walk may cut back. -/
structure Call.Sound (call : Call N) : Prop where
  pending : call.pending.Canonical
  fieldSet : ∀ s, call.fieldSet = some s → s.Canonical
  reaches : call.isAtomic = false → call.path = [] ∨
    ∃ s, call.fieldSet = some s ∧ s.isEmpty = false

theorem Pending.Canonical.accumulates {pending : Pending N} (canonical : pending.Canonical)
    (fieldSet : Option (FieldSet N)) (base : Path N) :
    Accumulates fieldSet base pending pending where
  removed := canonical.removed
  added s isSet := ⟨canonical.added s isSet, fun _ holds => Or.inl ⟨s, isSet, holds⟩⟩

theorem Accumulates.canonical {fieldSet : Option (FieldSet N)} {base : Path N}
    {before after : Pending N} (accumulates : Accumulates fieldSet base before after) :
    after.Canonical :=
  ⟨accumulates.removed, fun s isSet => (accumulates.added s isSet).1⟩

section Lawful

variable [Consistent N]

theorem mergePending_canonical {own child : Option (FieldSet N)}
    (canonicalOwn : ∀ s, own = some s → s.Canonical)
    (canonicalChild : ∀ s, child = some s → s.Canonical) :
    ∀ s, mergePending own child = some s → s.Canonical := by
  intro s isSet
  unfold mergePending at isSet
  split at isSet
  · exact canonicalOwn s isSet
  · exact canonicalChild s isSet
  · next first second =>
      cases isSet
      exact union_canonical (canonicalOwn first rfl) (canonicalChild second rfl)

theorem has_of_mergePending {own child : Option (FieldSet N)}
    (canonicalOwn : ∀ s, own = some s → s.Canonical)
    (canonicalChild : ∀ s, child = some s → s.Canonical) {s : FieldSet N}
    (isSet : mergePending own child = some s) {path : Path N} (holds : s.has path = true) :
    (∃ t, own = some t ∧ t.has path = true) ∨ ∃ t, child = some t ∧ t.has path = true := by
  unfold mergePending at isSet
  split at isSet
  · exact Or.inl ⟨s, isSet, holds⟩
  · exact Or.inr ⟨s, isSet, holds⟩
  · next first second =>
      cases isSet
      rw [has_union (canonicalOwn first rfl) (canonicalChild second rfl),
        Bool.or_eq_true] at holds
      exact holds.imp (fun holds => ⟨first, rfl, holds⟩) (fun holds => ⟨second, rfl, holds⟩)

theorem collapse_accumulates {call : Call N} (sound : call.Sound) (granular : call.isAtomic = false) :
    Accumulates call.fieldSet call.path call.pending (collapse call).pending where
  removed s isSet := by
    cases isSet
    exact ofPaths_canonical _
  added s isSet := by
    cases isSet
    refine ⟨ofPaths_canonical _, fun path holds => Or.inr ?_⟩
    obtain ⟨added, isAdded, proper, same⟩ := (has_ofPaths _ _).mp holds
    rw [List.mem_singleton.mp isAdded] at proper same
    rcases sound.reaches granular with root | ⟨set, isSet, nonEmpty⟩
    · exact absurd root proper
    · have canonical := sound.fieldSet set isSet
      have member : ∃ rest, set.has rest = true := by
        by_contra none
        push Not at none
        have empty := (isEmpty_iff_has canonical).mpr fun path =>
          Bool.eq_false_iff.mpr (none path)
        rw [nonEmpty] at empty
        cases empty
      obtain ⟨rest, holdsRest⟩ := member
      refine ⟨set, isSet, [], rest, ?_, ?_, holdsRest⟩
      · rw [List.append_nil]
        exact BEq.symm same
      · rintro rfl
        simp at holdsRest

section

variable {visit : Call N → Result N} {call : Call N} {element : FieldSet N}
  (visits : ∀ child : Call N, child.Sound → Accumulates child.fieldSet child.path child.pending (visit child).pending)
  (sound : call.Sound) (isElement : call.fieldSet = some element)
  (typeOf : PathElement N → Option (TypeRef N))

include visits sound isElement typeOf

/-- One element: what its descent accumulates lies above the parent's set. -/
theorem handleElement_accumulates {state : Result N}
    (invariant : Accumulates call.fieldSet call.path call.pending state.pending)
    {pe : PathElement N} {isMember : Bool}
    (listed : isMember = false → ∃ node ∈ element.children, node.1 = pe) :
    Accumulates call.fieldSet call.path call.pending
      (handleElement visit call element typeOf state pe isMember).pending := by
  unfold handleElement
  split
  · exact invariant
  · next type _ =>
      have canonical := sound.fieldSet element isElement
      have get : childrenGet element.children pe =
          (lookupBy Prod.fst pe element.children).map Prod.snd := by
        rw [childrenGet, getBy_eq_lookupBy canonical.children]
      have childSound : Call.Sound
          { fieldSet := childrenGet element.children pe
            type := type
            path := call.path ++ [pe]
            isAtomic := isMember && (childrenGet element.children pe).isNone
            pending := state.pending } := by
        refine ⟨invariant.canonical, fun s isSet => ?_, fun granular => Or.inr ?_⟩
        · rw [get] at isSet
          obtain ⟨node, found, rfl⟩ := Option.map_eq_some_iff.mp isSet
          exact canonical.nodes node (mem_of_lookupBy found)
        · have found : ∃ node, lookupBy Prod.fst pe element.children = some node := by
            cases isMember with
            | false =>
                obtain ⟨node, member, rfl⟩ := listed rfl
                exact ⟨node, lookupBy_of_mem canonical.children member (BEq.refl _)⟩
            | true =>
                cases found : lookupBy Prod.fst pe element.children with
                | none => simp [get, found] at granular
                | some node => exact ⟨node, rfl⟩
          obtain ⟨node, found⟩ := found
          exact ⟨node.2, by simp [get, found], canonical.nonEmpty node (mem_of_lookupBy found)⟩
      have descent := visits _ childSound
      refine ⟨mergePending_canonical invariant.removed descent.removed, fun s isSet => ?_⟩
      refine ⟨mergePending_canonical invariant.canonical.added descent.canonical.added s isSet,
        fun path holds => ?_⟩
      have own : ∀ t, state.pending.toAdd = some t → t.has path = true →
          (∃ t, call.pending.toAdd = some t ∧ t.has path = true) ∨
            Reaches call.fieldSet call.path path :=
        fun t isOwn holdsOwn => (invariant.added t isOwn).2 path holdsOwn
      rcases has_of_mergePending invariant.canonical.added descent.canonical.added isSet holds with
        ⟨t, isOwn, holdsOwn⟩ | ⟨t, isChild, holdsChild⟩
      · exact own t isOwn holdsOwn
      · rcases (descent.added t isChild).2 path holdsChild with ⟨t, isOwn, holdsOwn⟩ | reaches
        · exact own t isOwn holdsOwn
        · obtain ⟨child, isChildSet, middle, rest, same, proper, holdsRest⟩ := reaches
          refine Or.inr ⟨element, isElement, pe :: middle, rest, by simpa using same, proper, ?_⟩
          have beneath : element.withPrefix pe = child := by
            rw [withPrefix]
            dsimp only at isChildSet
            rw [isChildSet]
            rfl
          rw [List.cons_append, has_cons _ _ (by simp [proper]), beneath]
          exact holdsRest

theorem visitItems_accumulates :
    Accumulates call.fieldSet call.path call.pending
      (visitItems visit call element typeOf).pending := by
  have range : ∀ (pes : List (PathElement N)) (isMember : Bool),
      (isMember = false → ∀ pe ∈ pes, ∃ node ∈ element.children, node.1 = pe) →
      ∀ state : Result N, Accumulates call.fieldSet call.path call.pending state.pending →
        Accumulates call.fieldSet call.path call.pending
          (pes.foldl (fun state pe => handleElement visit call element typeOf state pe isMember)
            state).pending := by
    intro pes isMember
    induction pes with
    | nil => exact fun _ state invariant => invariant
    | cons pe rest ih =>
        intro listed state invariant
        exact ih
          (fun notMember pe member => listed notMember pe (List.mem_cons_of_mem _ member)) _
          (handleElement_accumulates visits sound isElement typeOf invariant
            fun notMember => listed notMember pe List.mem_cons_self)
  unfold visitItems
  dsimp only
  refine range _ true (by simp) _ (range _ false (fun _ pe member => ?_) _
    (sound.pending.accumulates call.fieldSet call.path))
  obtain ⟨node, isNode, same⟩ := List.mem_map.mp (List.mem_filter.mp member).1
  exact ⟨node, isNode, same⟩

end

/-- The walk accumulates well formed sets; what it adds lies above the visited set. -/
theorem reconcileWalk_spec (sc : Schema N) (call : Call N) (sound : call.Sound) :
    Accumulates call.fieldSet call.path call.pending (reconcileWalk sc call).pending := by
  refine measured_invariant (P := fun call result => call.Sound →
    Accumulates call.fieldSet call.path call.pending result.pending) (body_descends sc) _
    ?_ ?_ call sound
  · exact fun call => ⟨{ errs := [], pending := call.pending },
      fun sound => sound.pending.accumulates call.fieldSet call.path⟩
  · intro visit call visits sound
    have unchanged := sound.pending.accumulates call.fieldSet call.path
    unfold body
    split
    · exact unchanged
    · split
      · exact unchanged
      · exact unchanged
      · unfold doList
        split
        · next atomic => exact collapse_accumulates sound (by simpa using (Bool.and_eq_true _ _).mp atomic |>.1)
        · split
          · next element isElement => exact visitItems_accumulates visits sound isElement _
          · exact unchanged
      · unfold doMap
        dsimp only
        split
        · exact unchanged
        · split
          · next atomic =>
              split
              · split
                · exact collapse_accumulates sound
                    (by simpa using (Bool.and_eq_true _ _).mp atomic |>.1)
                · exact unchanged
              · exact unchanged
          · split
            · next element isElement => exact visitItems_accumulates visits sound isElement _
            · exact unchanged

end Lawful

end Reconcile

/-- A reconciled set is well formed, and each of its paths leads to one of the
original set. -/
theorem reconcileFieldSetWithSchema_spec [Consistent N] {sc : Schema N} {tr : TypeRef N}
    {fieldset reconciled : FieldSet N} (canonical : fieldset.Canonical)
    (ok : reconcileFieldSetWithSchema sc tr fieldset = .ok (some reconciled)) :
    reconciled.Canonical ∧ ∀ path, reconciled.has path = true →
      ∃ rest, fieldset.has (path ++ rest) = true := by
  have walk := Reconcile.reconcileWalk_spec sc
    { fieldSet := some fieldset
      type := tr
      path := []
      isAtomic := false
      pending := { toRemove := none, toAdd := none } }
    ⟨⟨by simp, by simp⟩, by simpa using canonical, fun _ => Or.inl rfl⟩
  unfold reconcileFieldSetWithSchema at ok
  dsimp only at ok
  generalize (reconcileWalk sc
    { fieldSet := some fieldset
      type := tr
      path := []
      isAtomic := false
      pending := { toRemove := none, toAdd := none } }) = result at ok walk
  split at ok
  · cases ok
  · split at ok
    · cases ok
      have cutBack : ((result.pending.toRemove.map fieldset.recursiveDifference).getD
          fieldset).Canonical ∧ ∀ path, ((result.pending.toRemove.map
            fieldset.recursiveDifference).getD fieldset).has path = true →
            fieldset.has path = true := by
        cases removed : result.pending.toRemove with
        | none => exact ⟨canonical, fun _ holds => holds⟩
        | some toRemove =>
            have canonicalRemoved := walk.removed toRemove removed
            exact ⟨recursiveDifference_canonical canonical canonicalRemoved,
              fun path holds => ((has_recursiveDifference canonical canonicalRemoved
                path).mp holds).1⟩
      cases added : result.pending.toAdd with
      | none => exact ⟨cutBack.1, fun path holds => ⟨[], by simpa using cutBack.2 path holds⟩⟩
      | some toAdd =>
          obtain ⟨canonicalAdded, above⟩ := walk.added toAdd added
          refine ⟨union_canonical cutBack.1 canonicalAdded, fun path holds => ?_⟩
          simp only [Option.map_some, Option.getD_some] at holds
          rw [has_union cutBack.1 canonicalAdded, Bool.or_eq_true] at holds
          rcases holds with kept | new
          · exact ⟨[], by simpa using cutBack.2 path kept⟩
          · rcases above path new with ⟨t, impossible, _⟩ | ⟨s, isSet, middle, rest, same, _, holds⟩
            · cases impossible
            · cases isSet
              rw [List.nil_append] at same
              exact ⟨rest, by rw [has_congr canonical (append_beq same rest), holds]⟩
    · cases ok

end StructuredMergeDiff.Typed
