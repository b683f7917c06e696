import StructuredMergeDiff.Merge.Failures
import StructuredMergeDiff.Merge.Ownership

/-!
Contract: the conflicts of `Apply`.

Once the merged object is pruned, `Apply` compares it with the live object in
the version of every manager. What another manager owns and the comparison
shows as modified or added is a conflict; without force the call fails with all
of them, and where there is none, force makes no difference.

Owns: `Conflicting`, the exact conflicts of `Apply`, and `toSet`.
-/

namespace StructuredMergeDiff.Merge

open Library Typed FieldSet FiniteMap

variable {N E : Type} [Numeric N] {compared : Comparison N}

/-- Another manager owns a path that is modified or added in its version, and not
ignored there. -/
def Conflicting (u : Updater N E) (liveObject newObject : TypedValue N) (version : APIVersion)
    (managers : ManagedFields N) (applier manager : String) (path : Path N) : Prop :=
  manager ≠ applier ∧ ∃ managerSet raw, managers.get? manager = some managerSet ∧
    u.ComparesTo liveObject newObject version managerSet.apiVersion raw ∧
    managerSet.set.has path = true ∧ (raw.modified.has path = true ∨ raw.added.has path = true) ∧
    ¬ u.Ignored managerSet.apiVersion path

/-- The conflict is about this manager and this path. -/
def Conflict.isAbout (manager : String) (path : Path N) (conflict : Conflict N) : Bool :=
  conflict.manager == manager && conflict.path == path

/-! ## What is reported -/

/-- Each path of a manager's collected set is reported once. -/
theorem countP_conflictsFromManagers [Consistent N] (orders : Orders)
    {conflicts : ManagedFields N} (wellFormed : WellFormed conflicts) (manager : String)
    (path : Path N) :
    (conflictsFromManagers orders conflicts).countP (Conflict.isAbout manager path) =
      if (ownedSet conflicts manager).has path then 1 else 0 := by
  have keyed : ∀ entry : String × VersionedSet N, ∀ conflict ∈ entry.2.set.iterate.map
      (fun path => ({ manager := entry.1, path := path } : Conflict N)),
      conflict.manager = entry.1 := by
    intro entry conflict member
    obtain ⟨path, _, rfl⟩ := List.mem_map.mp member
    rfl
  have about : ∀ conflict : Conflict N, conflict.isAbout manager path = true →
      conflict.manager = manager := by
    intro conflict isAbout
    simpa using ((Bool.and_eq_true _ _).mp isAbout).1
  unfold conflictsFromManagers
  rw [countP_flatMap keyed (orders.reported.arrange_distinct wellFormed.distinct) manager
    about, orders.reported.get?_arrange wellFormed.distinct, ownedSet]
  cases held : conflicts.get? manager with
  | none => simp
  | some managerSet =>
      have counts := countP_iterate (wellFormed.canonical manager managerSet held) path
      simp only [Option.map_some, Option.getD_some, List.countP_map]
      rw [← counts]
      congr 1
      funext member
      simp [Function.comp, Conflict.isAbout]

/-- `ToSet`. -/
def toSet (conflicts : List (Conflict N)) : FieldSet N :=
  ofPaths (conflicts.map Conflict.path)

namespace Updater

variable {u : Updater N E} {oldObject newObject : TypedValue N} {version : APIVersion}
  {managers : ManagedFields N} {workflow : String} {orders : Orders} {detection : Detection N}

/-- What a comparison in a version counts as for the managers there. -/
theorem comparisonFor_of_comparesTo {compared raw : Comparison N} {managed : APIVersion}
    (isCompared : oldObject.compare newObject = .ok compared)
    (compares : u.ComparesTo oldObject newObject version managed raw) :
    u.comparisonFor oldObject newObject version
        (compared.excludeFields (u.ignoredFields.get? version)) managed =
      .ok (some (raw.excludeFields (u.ignoredFields.get? managed))) := by
  unfold comparisonFor
  rcases compares with ⟨rfl, isRaw⟩ | ⟨foreign, old, new, isOld, isNew, isRaw⟩
  · rw [isCompared] at isRaw
    cases isRaw
    rw [if_pos rfl]
  · rw [if_neg foreign, compareAt, isOld, isNew]
    simp [deref, lift, isRaw, Bind.bind, Except.bind, pure, Except.pure]

/-- The objects compare in the version of every manager. -/
def Comparable (u : Updater N E) (oldObject newObject : TypedValue N) (version : APIVersion)
    (managers : ManagedFields N) : Prop :=
  ∀ manager managerSet, managers.get? manager = some managerSet →
    ∃ raw, u.ComparesTo oldObject newObject version managerSet.apiVersion raw

/-- A round ends well if there is a comparison in the manager's version. -/
theorem detectManager_succeeds {comparison : Comparison N} {entry : String × VersionedSet N}
    {found : Option (Comparison N)}
    (sound : detection.Sound u oldObject newObject version comparison)
    (compares : u.comparisonFor oldObject newObject version comparison entry.2.apiVersion =
      .ok found) :
    ∃ next, u.detectManager oldObject newObject workflow detection entry = .ok next := by
  unfold detectManager
  dsimp only
  split
  · exact ⟨_, rfl⟩
  · split
    · exact ⟨_, rfl⟩
    · next uncached =>
        have foreign : entry.2.apiVersion ≠ version := by
          intro same
          rw [same, sound.own] at uncached
          cases uncached
        rw [comparisonFor, if_neg foreign] at compares
        rw [compares]
        cases found <;> exact ⟨_, rfl⟩

/-- The range over the managers ends well if the objects compare in every version. -/
theorem detection_succeeds (order : IterationOrder) (workflow : String)
    (distinct : Distinct managers)
    (isCompared : oldObject.compare newObject = .ok compared)
    (comparable : u.Comparable oldObject newObject version managers) :
    ∃ detection, (order.arrange managers).foldlM (u.detectManager oldObject newObject workflow)
      (.start version (compared.excludeFields (u.ignoredFields.get? version)) managers) =
        .ok detection := by
  have start : (Detection.start version
      (compared.excludeFields (u.ignoredFields.get? version)) managers).Sound u oldObject newObject
      version (compared.excludeFields (u.ignoredFields.get? version)) :=
    Detection.start_sound distinct
  refine foldlM_succeeds (fun detection entry member sound => ?_) start
  have held := get?_of_mem distinct ((order.perm managers).mem_iff.mp member)
  obtain ⟨raw, compares⟩ := comparable entry.1 entry.2 held
  obtain ⟨next, stepped⟩ := detectManager_succeeds sound
    (comparisonFor_of_comparesTo isCompared compares)
  exact ⟨next, stepped, (detectManager_inv sound stepped).1.1⟩

/-- A collected conflict is that of a manager with a comparison in its version. -/
theorem detection_conflicts_inv {comparison : Comparison N} {order : IterationOrder}
    (distinct : Distinct managers)
    (run : (order.arrange managers).foldlM (u.detectManager oldObject newObject workflow)
      (.start version comparison managers) = .ok detection) {manager : String}
    {collected : VersionedSet N} (isCollected : detection.conflicts.get? manager = some collected) :
    manager ≠ workflow ∧ ∃ managerSet found, managers.get? manager = some managerSet ∧
      u.comparisonFor oldObject newObject version comparison managerSet.apiVersion =
        .ok (some found) ∧
      collected.set = conflictSet managerSet found := by
  obtain ⟨_, _, lookups⟩ := detection_spec distinct run
  have held := congrArg (fun held => held.2.1) (lookups manager)
  simp only [Detection.lookup, isCollected] at held
  cases recorded : managers.get? manager with
  | none =>
      rw [recorded] at held
      cases held
  | some managerSet =>
      rw [recorded] at held
      simp only [detectionEffect] at held
      split at held
      · cases held
      · next other =>
          split at held
          · next found counts =>
              dsimp only at held
              split at held
              · cases held
              · cases held
                exact ⟨other, managerSet, found, rfl, counts, rfl⟩
          · cases held

/-- The collected conflicts are the paths that conflict. -/
theorem detection_conflicts [Consistent N] {order : IterationOrder}
    (wellFormed : WellFormed managers) (ignores : u.IgnoresWellFormed)
    (isCompared : oldObject.compare newObject = .ok compared)
    (comparable : u.Comparable oldObject newObject version managers)
    (run : (order.arrange managers).foldlM (u.detectManager oldObject newObject workflow)
      (.start version (compared.excludeFields (u.ignoredFields.get? version)) managers) =
        .ok detection) :
    WellFormed detection.conflicts ∧
      (detection.conflicts = [] ↔
        ∀ manager path, ¬ Conflicting u oldObject newObject version managers workflow manager path) ∧
      ∀ manager path, (ownedSet detection.conflicts manager).has path = true ↔
        Conflicting u oldObject newObject version managers workflow manager path := by
  obtain ⟨sound, _, lookups⟩ := detection_spec wellFormed.distinct run
  have collectedOf := fun manager => congrArg (fun held => held.2.1) (lookups manager)
  simp only [Detection.lookup] at collectedOf
  have nothing : ∀ manager, (managers.get? manager = none ∨ manager = workflow) →
      detection.conflicts.get? manager = none := by
    intro manager own
    rw [collectedOf]
    rcases own with absent | rfl
    · rw [absent]
    · cases managers.get? manager <;> simp [detectionEffect]
  have entry : ∀ manager managerSet raw, managers.get? manager = some managerSet →
      manager ≠ workflow →
      u.ComparesTo oldObject newObject version managerSet.apiVersion raw →
      EntryIs detection.conflicts manager managerSet.apiVersion false fun path =>
        managerSet.set.has path = true ∧ (raw.modified.has path = true ∨ raw.added.has path = true) ∧
          ¬ u.Ignored managerSet.apiVersion path := by
    intro manager managerSet raw held other compares
    have collected : detection.conflicts.get? manager = nonEmptyEntry
        ⟨conflictSet managerSet (raw.excludeFields (u.ignoredFields.get? managerSet.apiVersion)),
          managerSet.apiVersion, false⟩ := by
      rw [collectedOf, held]
      simp only [detectionEffect, if_neg other, comparisonFor_of_comparesTo isCompared compares]
      rfl
    obtain ⟨canonicalFound, excludedHas⟩ := excludeFields_spec compares.canonical
      (ignores managerSet.apiVersion)
    obtain ⟨canonicalConflict, conflictHas⟩ := conflictSet_spec
      (wellFormed.canonical _ _ held) canonicalFound
    refine entryIs_of_nonEmptyEntry collected canonicalConflict fun path => ?_
    have parts := excludedHas path
    rw [conflictHas]
    simp only [Bool.and_eq_true, Bool.or_eq_true, parts, ← or_and_right]
    rfl
  have owned : ∀ manager path, (ownedSet detection.conflicts manager).has path = true ↔
      Conflicting u oldObject newObject version managers workflow manager path := by
    intro manager path
    by_cases own : managers.get? manager = none ∨ manager = workflow
    · simp only [ownedSet, nothing manager own, Option.map_none, Option.getD_none, has_nil,
        Bool.false_eq_true, false_iff]
      rintro ⟨other, managerSet, raw, held, _⟩
      rcases own with absent | same
      · rw [absent] at held
        cases held
      · exact other same
    · push Not at own
      obtain ⟨managerSet, held⟩ := Option.ne_none_iff_exists'.mp own.1
      obtain ⟨raw, compares⟩ := comparable manager managerSet held
      rw [ownedSet_has_iff, (entry manager managerSet raw held own.2 compares).owns_iff]
      constructor
      · exact fun conflicts => ⟨own.2, managerSet, raw, held, compares, conflicts⟩
      · rintro ⟨_, otherSet, otherRaw, otherHeld, otherCompares, conflicts⟩
        rw [held] at otherHeld
        cases otherHeld
        rwa [ComparesTo_unique compares otherCompares]
  have inverse : ∀ manager collected, detection.conflicts.get? manager = some collected →
      collected.set.Canonical ∧ ∃ path,
        Conflicting u oldObject newObject version managers workflow manager path := by
    intro manager collected isCollected
    have own : ¬ (managers.get? manager = none ∨ manager = workflow) := by
      intro own
      rw [nothing manager own] at isCollected
      cases isCollected
    push Not at own
    obtain ⟨managerSet, held⟩ := Option.ne_none_iff_exists'.mp own.1
    obtain ⟨raw, compares⟩ := comparable manager managerSet held
    rcases entry manager managerSet raw held own.2 compares with
      ⟨absent, _⟩ | ⟨s, present, canonical, ⟨path, conflicts⟩, _⟩
    · rw [absent] at isCollected
      cases isCollected
    · rw [present] at isCollected
      cases isCollected
      exact ⟨canonical, path, own.2, managerSet, raw, held, compares, conflicts⟩
  refine ⟨⟨sound.conflicts, fun manager collected held => (inverse manager collected held).1⟩, ?_,
    owned⟩
  constructor
  · intro empty manager path conflicting
    have holds := (owned manager path).mpr conflicting
    rw [empty] at holds
    simp [ownedSet] at holds
  · intro none
    apply List.eq_nil_iff_forall_not_mem.mpr
    intro collected member
    obtain ⟨_, path, conflicting⟩ := inverse collected.1 collected.2
      (get?_of_mem sound.conflicts member)
    exact none collected.1 path conflicting

/-- `update`, once the range over the managers has ended. -/
theorem update_of_detected (isCompared : oldObject.compare newObject = .ok compared)
    (run : (orders.managers.arrange managers).foldlM
      (u.detectManager oldObject newObject workflow)
      (.start version (compared.excludeFields (u.ignoredFields.get? version)) managers) =
        .ok detection) (force : Bool) :
    u.update orders oldObject newObject version managers workflow force =
      if !force && !detection.conflicts.isEmpty then
        .error (.conflicts (conflictsFromManagers orders detection.conflicts))
      else
        .ok (settle orders detection, compared.excludeFields (u.ignoredFields.get? version)) := by
  unfold update
  rw [isCompared]
  dsimp only [lift, Bind.bind, Except.bind]
  rw [run]
  rfl

end Updater

/-! ## What the applier records is well formed -/

theorem toFieldSet_canonical [Consistent N] {tv : TypedValue N} {s : FieldSet N}
    (ok : tv.toFieldSet = .ok s) : s.Canonical := by
  unfold TypedValue.toFieldSet at ok
  split at ok
  · dsimp only at ok
    split at ok
    · cases ok
    · cases ok
      exact ofPaths_canonical _
  · split at ok
    · cases ok
    · split at ok
      · cases ok
      · cases ok
      · cases ok
        exact nil_canonical

theorem recordedSet_canonical [Consistent N] {u : Updater N E} (ignores : u.IgnoresWellFormed)
    (version : APIVersion) {configSet : FieldSet N} (canonical : configSet.Canonical) :
    (u.recordedSet version configSet).Canonical := by
  unfold Updater.recordedSet
  split
  · next ignored isIgnored =>
      exact recursiveDifference_canonical canonical (ignores version ignored isIgnored)
  · exact canonical

theorem prepare_wellFormed [Consistent N] {u : Updater N E} {orders : Orders}
    {liveObject configObject newObject : TypedValue N} {version : APIVersion}
    {managers recorded : ManagedFields N} {manager : String} (wellFormed : WellFormed managers)
    (ignores : u.IgnoresWellFormed)
    (ok : u.prepare orders liveObject configObject version managers manager =
      .ok (recorded, newObject)) :
    WellFormed recorded ∧ ∃ own, recorded.get? manager = some own ∧ own.apiVersion = version := by
  obtain ⟨reconciled, merged, configSet, isReconciled, _, isSet, rfl, _⟩ :=
    Updater.prepare_eq_ok.mp ok
  have wellFormedReconciled := wellFormed.reconciled isReconciled
  refine ⟨⟨set_distinct wellFormedReconciled.distinct _ _, fun other managerSet held => ?_⟩,
    _, by rw [get?_set, if_pos rfl], rfl⟩
  rw [get?_set] at held
  split at held
  · cases held
    exact recordedSet_canonical ignores version (toFieldSet_canonical isSet)
  · exact wellFormedReconciled.canonical other managerSet held

/-! ## The conflicts of an application -/

/-- The failures of a call without force against those of a forced one: it fails with
conflicts exactly if there are some, reports each of them once, and is the forced call
where it does not. -/
structure ConflictsExact (unforced forced : Except (Failure N E) (Option (TypedValue N) ×
    ManagedFields N)) (conflicting : String → Path N → Prop) : Prop where
  fails_iff : (∃ reported, unforced = .error (.conflicts reported)) ↔
    ∃ manager path, conflicting manager path
  once : ∀ reported, unforced = .error (.conflicts reported) → ∀ manager path,
    conflicting manager path → reported.countP (Conflict.isAbout manager path) = 1
  nothingElse : ∀ reported, unforced = .error (.conflicts reported) → ∀ manager path,
    ¬ conflicting manager path → reported.countP (Conflict.isAbout manager path) = 0
  agrees : (∀ reported, unforced ≠ .error (.conflicts reported)) → unforced = forced

/-- Under the identity converter, objects that compare do so in every version. -/
theorem comparable_of_identity {u : Updater N E} (identity : u.converter = .identity)
    {oldObject newObject : TypedValue N} (isCompared : oldObject.compare newObject = .ok compared)
    (version : APIVersion) (managers : ManagedFields N)
    : u.Comparable oldObject newObject version managers := by
  intro manager managerSet _
  refine ⟨compared, ?_⟩
  by_cases same : managerSet.apiVersion = version
  · exact Or.inl ⟨same, isCompared⟩
  · exact Or.inr ⟨same, oldObject, newObject, by rw [identity]; rfl, by rw [identity]; rfl, isCompared⟩

omit [Numeric N] in
theorem exists_of_any {ε α : Type} {result : Except ε α} {test : α → Bool}
    (passes : result.toOption.any test = true) : ∃ a, result = .ok a ∧ test a = true := by
  cases result with
  | error err => cases passes
  | ok a => exact ⟨a, rfl, passes⟩

/-- The conflicts a call fails with. -/
def reportedConflicts {α : Type} : Except (Failure N E) α → List (Conflict N)
  | .error (.conflicts reported) => reported
  | _ => []

end StructuredMergeDiff.Merge
