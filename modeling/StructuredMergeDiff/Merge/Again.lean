import StructuredMergeDiff.Merge.Deletion
import StructuredMergeDiff.Typed.Idempotence
import StructuredMergeDiff.Typed.Rebuilt

/-!
Contract: applying a configuration once more.

The second application merges into the object that the first has pruned, and prunes by the
set that the first has recorded. That set is the configuration's own, so that pruning
removes nothing: only merging can still change the object.

Owns: when a second application changes neither the object nor the managers.
Does not own: configurations with empty lists or maps.
-/

namespace StructuredMergeDiff.Merge

open Library Typed FieldSet FiniteMap Updater

variable {N E : Type} [Numeric N] [Consistent N] {sc : Schema N} {tr : TypeRef N}

/-! ## Equal objects -/

omit [Consistent N] in
private theorem sameCount_of_forall₂ {ls rs : List (Value N)}
    (pairs : List.Forall₂ (fun x y => (x == y) = true) ls rs) : SameCount ls rs := by
  have equal : Compare.listEqual ls rs = true := (Value.listEquals_iff ls rs).mpr pairs
  have length := pairs.length_eq
  simp only [SameCount, equal, and_true, ← List.length_eq_zero_iff]
  omega

/-- Comparing equal values records nothing. -/
theorem silent_of_beq {left right : Bool} {l r : Value N} (same : (l == r) = true)
    (soundLeft : Sound sc left ⟨tr, l⟩) (soundRight : Sound sc right ⟨tr, r⟩) :
    (compareWalk sc tr (some l) (some r)).Silent := by
  induction bound : l.depth using Nat.strong_induction_on generalizing tr l r with
  | _ depth ih =>
      subst bound
      refine silent_of_kids soundLeft soundRight ?_ fun pe proper => ?_
      · rintro change ⟨-, differs, -⟩
        rw [BEq.symm same] at differs
        cases differs
      · have pairs : List.Forall₂ (fun x y => (x == y) = true) (kidValues sc tr (some l) pe)
            (kidValues sc tr (some r) pe) := kidValues_of_beq same proper
        refine ⟨sameCount_of_forall₂ pairs, fun x y isLeft isRight soundX soundY => ?_⟩
        rw [isLeft, isRight] at pairs
        have inLeft : x ∈ kidValues sc tr (some l) pe := by simp [isLeft]
        have shallower := sideDepth_lt_of_kid inLeft
        exact ih x.depth (by simpa [sideDepth] using shallower) (List.forall₂_cons.mp pairs).1
          soundX soundY rfl

/-- The comparison of equal objects is empty. -/
theorem compare_of_beq {lhs rhs : TypedValue N} {l r : Value N} (sameType : SameType lhs rhs)
    (soundLeft : SoundObject false lhs) (soundRight : SoundObject false rhs)
    (isLeft : lhs.value = some l) (isRight : rhs.value = some r) (same : (l == r) = true) :
    lhs.compare rhs = .ok ⟨.nil, .nil, .nil⟩ := by
  obtain ⟨c, compares, records⟩ := compare_of_sound sameType soundLeft soundRight
  have leftSound := soundSide_some.mp (isLeft ▸ soundLeft.side)
  have rightSound := soundSide_some.mp (isRight ▸ soundRight.side)
  rw [sameType.schema, sameType.typeRef] at rightSound
  have silent := silent_of_beq same leftSound rightSound
  rw [isLeft, isRight] at records
  have nothing : ∀ change, c.changed change = .nil := by
    intro change
    obtain ⟨canonical, has⟩ := records change
    apply canonical.eq_nil
    rw [isEmpty_iff_has canonical]
    intro path
    rw [Bool.eq_false_iff, ne_eq, has]
    exact fun ⟨_, recorded⟩ => silent change path recorded
  obtain ⟨removed, modified, added⟩ := c
  cases (nothing .removed : removed = .nil)
  cases (nothing .modified : modified = .nil)
  cases (nothing .added : added = .nil)
  exact compares

/-- An update without changes succeeds and leaves the entries that own something. -/
theorem Updater.update_of_no_changes {u : Updater N E} {oldObject newObject : TypedValue N}
    {version : APIVersion} {managers : ManagedFields N} (orders : Orders) (workflow : String)
    (force : Bool) (notIgnored : u.ignoredFields = []) (wellFormed : WellFormed managers)
    (oneVersion : ∀ name entry, managers.get? name = some entry → entry.apiVersion = version)
    (compares : oldObject.compare newObject = .ok ⟨.nil, .nil, .nil⟩) :
    ∃ settled comparison, u.update orders oldObject newObject version managers workflow force =
        .ok (settled, comparison) ∧
      ∀ name, settled.get? name = (managers.get? name).bind nonEmptyEntry := by
  have comparable : u.Comparable oldObject newObject version managers :=
    fun name entry held => ⟨_, Or.inl ⟨oneVersion name entry held, compares⟩⟩
  obtain ⟨detection, run⟩ := detection_succeeds orders.managers workflow wellFormed.distinct
    compares comparable
  obtain ⟨sound, -, lookups⟩ := detection_spec wellFormed.distinct run
  have unchanged : ∀ name, detection.lookup name = (managers.get? name, none, none) := by
    intro name
    rw [lookups]
    cases held : managers.get? name with
    | none => rfl
    | some entry =>
        have noConflict : (conflictSet entry ⟨.nil, .nil, .nil⟩).isEmpty = true := by
          obtain ⟨canonical, has⟩ := conflictSet_spec (c := ⟨.nil, .nil, .nil⟩)
            (wellFormed.canonical name entry held) (compare_canonical compares)
          rw [isEmpty_iff_has canonical]
          simp [has]
        simp [detectionEffect, comparisonFor, oneVersion name entry held, notIgnored,
          Comparison.excludeFields, noConflict]
        exact fun _ => rfl
  have noConflicts : detection.conflicts = [] :=
    eq_nil_of_get? fun name => congrArg (fun held => held.2.1) (unchanged name)
  refine ⟨_, _, update_eq_ok.mpr ⟨_, detection, compares, rfl, run, Or.inr noConflicts, rfl⟩,
    fun name => ?_⟩
  have held := unchanged name
  simp only [Detection.lookup, Prod.mk.injEq] at held
  rw [get?_settle orders sound, held.1, held.2.1, held.2.2]
  cases managers.get? name <;> rfl

/-! ## Filled values -/

/-- Every list and map in the value that is merged by its items or entries has some. -/
def filled (sc : Schema N) (n : Node N) : Bool :=
  everyNode sc (fun n => holdsItself sc n || !(kids sc n).isEmpty) n

section Filled

variable {n : Node N} {path : Path N}

private theorem exists_leaf_of_filled (sound : Sound sc false n) (isFilled : filled sc n = true) :
    ∃ rest last, Spine sc n rest last ∧ holdsItself sc last = true := by
  induction bound : n.value.depth using Nat.strong_induction_on generalizing n with
  | _ depth ih =>
      subst bound
      obtain ⟨here, below⟩ := (everyNode_iff sc _ n).mp isFilled
      by_cases leaf : holdsItself sc n = true
      · exact ⟨[], n, .root n, leaf⟩
      · obtain ⟨k, member⟩ := List.exists_mem_of_ne_nil (kids sc n) (by simpa [leaf] using here)
        obtain ⟨rest, last, onward, isLeaf⟩ := ih _ (depth_lt_of_mem_kids member)
          (sound.kid member).1 (below k member) rfl
        have inNodes : k.node ∈ nodesAt sc n [k.pe] := by
          simp only [nodesAt, List.mem_flatMap, List.mem_singleton]
          exact ⟨k, mem_kidsAt.mpr ⟨member, BEq.refl _⟩, rfl⟩
        exact ⟨k.pe :: rest, last, (spine_of_mem sound inNodes).append onward, isLeaf⟩

/-- What is recorded of a filled value is on the way to a leaf. -/
theorem leafPath_of_recorded (sound : Sound sc false n) (stable : StableKeys sc n.type)
    (isFilled : filled sc n = true) (proper : path ≠ []) (recorded : Recorded sc n path) :
    ∃ rest last, LeafPath sc n (path ++ rest) last := by
  obtain ⟨mid, member⟩ := List.exists_mem_of_ne_nil _ (nodesAt_of_recorded recorded)
  have spine := spine_of_mem sound member
  obtain ⟨rest, last, onward, leaf⟩ := exists_leaf_of_filled (spine.sound sound stable).1
    (everyNode_nodesAt isFilled path mid member)
  exact ⟨rest, last, by simp [proper], spine.append onward, leaf⟩

end Filled

section Own

variable {c m : Value N} (sound : Sound sc false ⟨tr, c⟩) (stable : StableKeys sc tr)
  (isFilled : filled sc ⟨tr, c⟩ = true)

include sound stable isFilled

/-- What realises a filled value has all that is recorded of it. -/
theorem Realises.ensured_of_filled {w : Value N} (realises : Realises sc tr c w) {path : Path N}
    (has : (ensured sc ⟨tr, c⟩).has path = true) : (ensured sc ⟨tr, w⟩).has path = true := by
  have proper : path ≠ [] := by
    intro isRoot
    rw [isRoot, has_root] at has
    cases has
  rcases (has_ensured proper).mp has with recorded | ⟨-, below, -, recorded⟩
  · obtain ⟨rest, last, leafPath⟩ := leafPath_of_recorded sound stable isFilled proper recorded
    exact realises.ensured_way leafPath rfl proper
  · obtain ⟨rest, last, leafPath⟩ := leafPath_of_recorded sound stable isFilled (by simp [proper])
      recorded
    exact realises.ensured_way leafPath (List.append_assoc ..) proper

private theorem kids_of_realised (realises : Realises sc tr c m)
    (notNil : ofPaths (toFieldSetWalk sc tr c).paths ≠ .nil) : kids sc ⟨tr, m⟩ ≠ [] := by
  intro none
  have canonical := ofPaths_canonical (toFieldSetWalk sc tr c).paths
  refine notNil (canonical.eq_nil ((isEmpty_iff_has canonical).mpr fun path => ?_))
  rw [Bool.eq_false_iff]
  intro has
  obtain ⟨proper, recorded⟩ := (has_ofPaths_iff _ path).mp has
  obtain ⟨rest, last, leafPath⟩ := leafPath_of_recorded sound stable isFilled proper recorded
  have found := (realises _ _ leafPath).nodesAt_eq
  obtain ⟨pe, later, isPath⟩ := List.exists_cons_of_ne_nil leafPath.proper
  rw [isPath] at found
  simp [nodesAt, kidsAt, none] at found

private theorem dropDangling_of_filled {p : Value N} (realises : Realises sc tr c m)
    (soundMerged : Sound sc false ⟨tr, m⟩) (realised : Realises sc tr c p)
    (notNil : ofPaths (toFieldSetWalk sc tr c).paths ≠ .nil) :
    let out := dropDangling sc tr m p (ofPaths (toFieldSetWalk sc tr c).paths)
    (out == m) = true ∧ Valid sc false ⟨tr, out⟩ := by
  have canonicalOf : ∀ v : Value N, (ensured sc ⟨tr, v⟩).Canonical := fun _ => ensured_canonical _
  have difference := difference_canonical (canonicalOf m) (canonicalOf p)
  refine remove_of_isEmpty soundMerged.valid ?_
    (kids_of_realised sound stable isFilled realises notNil)
  apply (isEmpty_iff_has (intersection_canonical difference (canonicalOf c))).mpr
  intro path
  rw [has_intersection difference (canonicalOf c),
    has_difference (canonicalOf m) (canonicalOf p)]
  cases own : (ensured sc ⟨tr, c⟩).has path with
  | false => exact Bool.and_false _
  | true => simp [Realises.ensured_of_filled sound stable isFilled realised own]

/-- Pruning by the paths of a filled value leaves an object that has been merged with it. -/
theorem pruneValue_of_filled {own set : FieldSet N} (realises : Realises sc tr c m)
    (soundMerged : Sound sc false ⟨tr, m⟩)
    (isOwn : own = ofPaths (toFieldSetWalk sc tr c).paths) (notNil : own ≠ .nil)
    (canonical : set.Canonical) (includes : ∀ path, own.has path = true → set.has path = true) :
    (pruneValue sc tr m own [set] == m) = true ∧
      Valid sc false ⟨tr, pruneValue sc tr m own [set]⟩ := by
  subst isOwn
  apply dropDangling_of_filled sound stable isFilled realises soundMerged _ notNil
  exact realises_foldl_addBack realises sound stable soundMerged (by simpa using canonical)
    (Or.inr ⟨set, List.mem_singleton.mpr rfl, covers_of_recorded canonical includes⟩)

end Own

/-! ## Apply -/

def FilledObject (tv : TypedValue N) : Prop :=
  ∀ v, tv.value = some v → filled tv.schema.val ⟨tv.typeRef, v⟩ = true

/-- The application succeeds and changes neither the object nor the managers. -/
def Updater.ChangesNothing (u : Updater N E) (orders : Orders)
    (liveObject configObject : TypedValue N) (version : APIVersion) (managers : ManagedFields N)
    (manager : String) (force : Bool) : Prop :=
  ∃ object after, u.apply orders liveObject configObject version managers manager force =
      .ok (object, after) ∧
    (object.getD liveObject).SameValue liveObject ∧ ∀ name, after.get? name = managers.get? name

section Apply

variable {u : Updater N E} {orders : Orders} {liveObject configObject : TypedValue N}
  {version : APIVersion} {managers : ManagedFields N} {manager : String} {force : Bool}
  (single : SingleVersion u managers liveObject configObject version)

include single

/-- Nothing fails before `update`. -/
theorem SingleVersion.prepares (orders : Orders) (manager : String) : ∃ recorded newObject,
    u.prepare orders liveObject configObject version managers manager =
      .ok (recorded, newObject) := by
  obtain ⟨reconciled, isReconciled, -, -⟩ := reconcile_unchanged u orders liveObject
    single.wellFormed.distinct single.fits
  obtain ⟨m, merges, isMerged⟩ := merge_of_sound single.same single.soundLive single.soundConfig
  obtain ⟨c, isConfig, sound⟩ := single.soundConfig.value
  have isSet := toFieldSet_eq isConfig sound.resolves
  have isValue : (withValue liveObject m).value = some m := rfl
  have prunes : ∀ (recorded : ManagedFields N) applied, recorded.get? manager = some applied →
      ∃ newObject, u.prune orders (withValue liveObject m) recorded manager
        (reconciled.get? manager) = .ok (some newObject) := by
    intro recorded applied isApplied
    cases reconciled.get? manager with
    | none => exact ⟨_, rfl⟩
    | some last =>
        cases empty : last.set.isEmpty with
        | true => exact ⟨_, if_pos empty⟩
        | false =>
            exact ⟨_, prune_identity single.identity isValue isMerged.sound.resolves empty
              isApplied⟩
  obtain ⟨newObject, isPruned⟩ := prunes (reconciled.set manager
    ⟨u.recordedSet version _, version, true⟩) _ (by rw [get?_set, if_pos rfl])
  exact ⟨_, newObject, prepare_eq_ok.mpr
    ⟨reconciled, _, _, isReconciled, merges, isSet, rfl, isPruned⟩⟩

/-- Where the applier is recorded with a filled configuration, applying it once more makes
the merged object. -/
theorem SingleVersion.prepares_merged (isFilled : FilledObject configObject)
    (own : configObject.toFieldSet = .ok (ownedSet managers manager)) (orders : Orders) :
    ∃ m w recorded, liveObject.merge configObject = .ok (withValue liveObject m) ∧
      u.prepare orders liveObject configObject version managers manager =
        .ok (recorded, withValue liveObject w) ∧
      (w == m) = true ∧ SoundObject false (withValue liveObject w) := by
  obtain ⟨recorded, newObject, prepares⟩ := single.prepares orders manager
  obtain ⟨m, set, merges, soundMerged, -, canonicalSet, -, sameOwned, isNew⟩ :=
    single.pruned prepares
  have soundObject : ∀ w, Valid liveObject.schema.val false ⟨liveObject.typeRef, w⟩ →
      SoundObject false (withValue liveObject w) :=
    fun w valid => ⟨List.isEmpty_iff.mpr valid, single.soundLive.supported⟩
  rcases isNew with ⟨-, rfl⟩ | ⟨notNil, rfl⟩
  · exact ⟨m, m, recorded, merges, prepares, BEq.refl m, soundObject m soundMerged.valid⟩
  · obtain ⟨c, isConfig, sound⟩ := single.soundConfig.value
    have isSet := Except.ok.inj (own.symm.trans (toFieldSet_eq isConfig sound.resolves))
    have isFilledConfig := isFilled c isConfig
    rw [single.same.schema, single.same.typeRef] at sound isSet isFilledConfig
    obtain ⟨_, isMerge, isMerged⟩ := merge_of_sound single.same single.soundLive single.soundConfig
    cases merges.symm.trans isMerge
    rw [isConfig] at isMerged
    obtain ⟨same, valid⟩ := pruneValue_of_filled sound single.stable isFilledConfig
      (isMerged.realises single.soundLive.side sound) soundMerged isSet notNil canonicalSet
      fun path has => (sameOwned path).mpr
        (HeldBesides.has (Or.inr ⟨_, own, has⟩) single.wellFormed version)
    exact ⟨m, _, recorded, merges, prepares, same, soundObject _ valid⟩

theorem SingleVersion.changesNothing_iff (isFilled : FilledObject configObject)
    {configSet : FieldSet N} (isSet : configObject.toFieldSet = .ok configSet)
    (own : managers.get? manager = nonEmptyEntry ⟨configSet, version, true⟩)
    (owning : ∀ name, (managers.get? name).bind nonEmptyEntry = managers.get? name)
    (orders : Orders) (force : Bool) :
    u.ChangesNothing orders liveObject configObject version managers manager force ↔
      ∃ merged, liveObject.merge configObject = .ok merged ∧ merged.SameValue liveObject := by
  have isOwned : ownedSet managers manager = configSet :=
    ownedSet_of_nonEmptyEntry (toFieldSet_canonical isSet) own
  obtain ⟨m, w, recorded, merges, prepares, same, soundNew⟩ :=
    single.prepares_merged isFilled (isOwned.symm ▸ isSet) orders
  obtain ⟨live, isLive, -⟩ := single.soundLive.value
  constructor
  · rintro ⟨object, after, ok, unchanged, -⟩
    obtain ⟨_, _, settled, comparison, prepared, -, finished⟩ := apply_eq_ok.mp ok
    cases prepared.symm.trans prepares
    refine ⟨_, merges, m, live, rfl, isLive, BEq.trans (BEq.symm same) ?_⟩
    rcases finish_object finished with rfl | ⟨-, _, _, isOld, isNew, equal⟩
    · obtain ⟨_, _, isNew, isOld, equal⟩ := unchanged
      cases isNew
      cases isLive.symm.trans isOld
      exact equal
    · cases isNew
      cases isLive.symm.trans isOld
      exact BEq.symm equal
  · rintro ⟨_, isMerge, _, _, isMerged, isOld, equal⟩
    cases merges.symm.trans isMerge
    cases isMerged
    cases isLive.symm.trans isOld
    have unchanged : (live == w) = true := BEq.symm (BEq.trans same equal)
    have compares : liveObject.compare (withValue liveObject w) = .ok ⟨.nil, .nil, .nil⟩ :=
      compare_of_beq ⟨rfl, rfl⟩ single.soundLive soundNew isLive rfl unchanged
    obtain ⟨wellFormed, oneVersion, entries⟩ := single.recordedEntries prepares
    obtain ⟨settled, comparison, updates, settles⟩ := update_of_no_changes orders manager
      force single.notIgnored wellFormed oneVersion
      compares
    have finishes : u.finish liveObject (withValue liveObject w) settled =
        .ok (if u.returnInputOnNoop then some (withValue liveObject w) else none,
          settled) := by
      unfold finish
      split
      · rfl
      · simp [sameValue, isLive, unchanged]
    refine ⟨_, settled, apply_eq_ok.mpr ⟨_, _, _, _, prepares, updates, finishes⟩, ?_,
      fun name => ?_⟩
    · split
      · exact ⟨w, live, rfl, isLive, BEq.symm unchanged⟩
      · exact ⟨live, live, isLive, isLive, BEq.refl live⟩
    · rw [settles, entries, withConfiguration, isSet, get?_set]
      split
      · next isManager =>
          subst isManager
          exact own.symm
      · exact owning name

/-- After an application its manager is recorded with the configuration, and everybody
owns something. -/
theorem SingleVersion.entries {object : Option (TypedValue N)} {result : ManagedFields N}
    (ok : u.apply orders liveObject configObject version managers manager force =
      .ok (object, result)) {configSet : FieldSet N}
    (isSet : configObject.toFieldSet = .ok configSet) :
    result.get? manager = nonEmptyEntry ⟨configSet, version, true⟩ ∧
      ∀ name, (result.get? name).bind nonEmptyEntry = result.get? name := by
  obtain ⟨recorded, newObject, settled, comparison, prepares, updates, finished⟩ :=
    apply_eq_ok.mp ok
  cases finish_managers finished
  obtain ⟨wellFormed, -, entries⟩ := single.recordedEntries prepares
  obtain ⟨-, -, after⟩ := update_spec wellFormed.distinct updates
  refine ⟨?_, update_owning wellFormed.distinct updates⟩
  rw [after, entries, withConfiguration, isSet, get?_set, if_pos rfl, Option.bind_some,
    afterUpdate, if_pos rfl]
  rfl

end Apply

end StructuredMergeDiff.Merge
