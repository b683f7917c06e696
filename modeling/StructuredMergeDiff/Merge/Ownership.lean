import StructuredMergeDiff.Merge.UpdateSpec
import StructuredMergeDiff.Typed.Collision
import StructuredMergeDiff.Typed.ReconcileSpec

/-!
Contract: ownership as sets of paths, and its transfer by `Update`.

Over a consistent number domain the trie operations are set operations, so
what `update` leaves to a manager is its old paths without the changed ones.

Owns: `WellFormed` managers, `Ignored`, `Changed`, `EntryIs`, and the exact
transfer of ownership.
-/

namespace StructuredMergeDiff

open Library Typed FieldSet FiniteMap

variable {N E : Type} [Numeric N] {c : Comparison N}

/-! ## Comparisons as sets -/

namespace Typed.Comparison

/-- The three sets are well formed. -/
structure Canonical (c : Comparison N) : Prop where
  removed : c.removed.Canonical
  modified : c.modified.Canonical
  added : c.added.Canonical

/-- The path is recorded as modified, added or removed. -/
def Changes (c : Comparison N) (path : Path N) : Prop :=
  c.modified.has path = true ∨ c.added.has path = true ∨ c.removed.has path = true

end Typed.Comparison

theorem compare_canonical [Consistent N] {lhs rhs : TypedValue N} (ok : lhs.compare rhs = .ok c)
    : c.Canonical := by
  unfold TypedValue.compare at ok
  dsimp only at ok
  split at ok
  · cases ok
  · split at ok
    · cases ok
    · cases ok
      exact ⟨ofPaths_canonical _, ofPaths_canonical _,
        ofPaths_canonical _⟩

/-- At or under a path of the set, if there is one. -/
def CoveredBy (fields : Option (FieldSet N)) (path : Path N) : Prop :=
  ∃ s, fields = some s ∧ s.Covers path

/-- `ExcludeFields` takes out what is at or under the given fields. -/
theorem excludeFields_spec [Consistent N] (canonical : c.Canonical) {fields : Option (FieldSet N)}
    (canonicalFields : ∀ s, fields = some s → s.Canonical) :
    (c.excludeFields fields).Canonical ∧ ∀ path,
      ((c.excludeFields fields).removed.has path = true ↔
        c.removed.has path = true ∧ ¬ CoveredBy fields path) ∧
      ((c.excludeFields fields).modified.has path = true ↔
        c.modified.has path = true ∧ ¬ CoveredBy fields path) ∧
      ((c.excludeFields fields).added.has path = true ↔
        c.added.has path = true ∧ ¬ CoveredBy fields path) := by
  cases fields with
  | none => simp [Comparison.excludeFields, CoveredBy, canonical]
  | some s =>
      have canonicalSet := canonicalFields s rfl
      have covered : ∀ path, CoveredBy (some s) path ↔ s.Covers path := by simp [CoveredBy]
      simp only [Comparison.excludeFields, covered]
      split
      · next empty =>
          have nothing : ∀ path, ¬ s.Covers path := by
            rintro path ⟨first, _, holds⟩
            rw [has_of_isEmpty empty] at holds
            cases holds
          exact ⟨canonical, fun path => by simp [nothing]⟩
      · refine ⟨⟨recursiveDifference_canonical canonical.removed canonicalSet,
          recursiveDifference_canonical canonical.modified canonicalSet,
          recursiveDifference_canonical canonical.added canonicalSet⟩, fun path => ?_⟩
        exact ⟨has_recursiveDifference canonical.removed canonicalSet path,
          has_recursiveDifference canonical.modified canonicalSet path,
          has_recursiveDifference canonical.added canonicalSet path⟩

namespace Merge

/-- What a manager conflicts on is what it owns of the modified and added paths. -/
theorem conflictSet_spec [Consistent N] {managerSet : VersionedSet N}
    (canonicalSet : managerSet.set.Canonical) (canonical : c.Canonical) :
    (conflictSet managerSet c).Canonical ∧ ∀ path, (conflictSet managerSet c).has path =
      (managerSet.set.has path && (c.modified.has path || c.added.has path)) := by
  have canonicalUnion := union_canonical canonical.modified canonical.added
  refine ⟨intersection_canonical canonicalSet canonicalUnion, fun path => ?_⟩
  rw [conflictSet, has_intersection canonicalSet canonicalUnion,
    has_union canonical.modified canonical.added]

/-- What is left to a manager is its set without the changed paths. -/
theorem leftTo_spec [Consistent N] {managerSet : VersionedSet N}
    (canonicalSet : managerSet.set.Canonical) (canonical : c.Canonical) :
    (leftTo managerSet c).Canonical ∧ ∀ path,
      (leftTo managerSet c).has path = true ↔
        managerSet.set.has path = true ∧ ¬ c.Changes path := by
  obtain ⟨canonicalConflict, conflictHas⟩ := conflictSet_spec canonicalSet canonical
  have kept : ∀ s : FieldSet N, s.Canonical → ∀ t : FieldSet N, t.Canonical →
      (if t.isEmpty then s else s.difference t).Canonical ∧ ∀ path,
        (if t.isEmpty then s else s.difference t).has path = (s.has path && !t.has path) := by
    intro s canonicalS t canonicalT
    split
    · next empty =>
        refine ⟨canonicalS, fun path => ?_⟩
        simp [has_of_isEmpty empty]
    · exact ⟨difference_canonical canonicalS canonicalT,
        has_difference canonicalS canonicalT⟩
  obtain ⟨canonicalKept, keptHas⟩ := kept _ canonicalSet _ canonicalConflict
  obtain ⟨canonicalLeft, leftHas⟩ := kept _ canonicalKept _ canonical.removed
  refine ⟨canonicalLeft, fun path => ?_⟩
  unfold leftTo
  dsimp only
  rw [leftHas, keptHas, conflictHas]
  simp only [Comparison.Changes]
  cases managerSet.set.has path <;> cases c.modified.has path <;> cases c.added.has path <;>
    cases c.removed.has path <;> simp

/-! ## Managers -/

/-- Each manager has one entry, and the sets are well formed. -/
structure WellFormed (managers : ManagedFields N) : Prop where
  distinct : FiniteMap.Distinct managers
  canonical : ∀ manager managerSet, managers.get? manager = some managerSet →
    managerSet.set.Canonical

/-- What reconciliation keeps of an entry is well formed, and every path of it leads to
one that was owned. -/
theorem reconciledEntry_spec [Consistent N] {u : Updater N E} {liveObject : TypedValue N}
    {managerSet kept : VersionedSet N} (canonical : managerSet.set.Canonical)
    (isKept : u.reconciledEntry liveObject managerSet = some kept) :
    kept.apiVersion = managerSet.apiVersion ∧ kept.applied = managerSet.applied ∧
      kept.set.Canonical ∧ ∀ path, kept.set.has path = true →
        ∃ rest, managerSet.set.has (path ++ rest) = true := by
  unfold Updater.reconciledEntry at isKept
  dsimp only at isKept
  split at isKept
  · cases isKept
  · obtain ⟨tv, _, isKept⟩ := Option.map_eq_some_iff.mp isKept
    split at isKept
    · next reconciles =>
        cases isKept
        obtain ⟨canonicalKept, leads⟩ := reconcileFieldSetWithSchema_spec canonical reconciles
        exact ⟨rfl, rfl, canonicalKept, leads⟩
    · cases isKept
      exact ⟨rfl, rfl, canonical, fun path holds => ⟨[], by rwa [List.append_nil]⟩⟩

theorem WellFormed.reconciled [Consistent N] {u : Updater N E} {orders : Orders}
    {liveObject : TypedValue N} {managers reconciled : ManagedFields N}
    (wellFormed : WellFormed managers)
    (ok : u.reconcileManagedFieldsWithSchemaChanges orders liveObject managers = .ok reconciled) :
    WellFormed reconciled where
  distinct := Updater.reconcile_distinct ok
  canonical manager kept held := by
    rw [Updater.reconcile_spec wellFormed.distinct ok] at held
    obtain ⟨managerSet, recorded, isKept⟩ := Option.bind_eq_some_iff.mp held
    exact (reconciledEntry_spec (wellFormed.canonical _ _ recorded) isKept).2.2.1

/-- The entry of a manager holds these paths, and is there exactly if there are any. -/
def EntryIs (managers : ManagedFields N) (manager : String) (version : APIVersion)
    (applied : Bool) (owned : Path N → Prop) : Prop :=
  (managers.get? manager = none ∧ ∀ path, ¬ owned path) ∨
    ∃ s : FieldSet N, managers.get? manager = some ⟨s, version, applied⟩ ∧ s.Canonical ∧
      (∃ path, owned path) ∧ ∀ path, s.has path = true ↔ owned path

variable {managers : ManagedFields N} {manager : String}

theorem entryIs_of_nonEmptyEntry [Consistent N] {s : FieldSet N} {version : APIVersion}
    {applied : Bool} {owned : Path N → Prop}
    (entry : managers.get? manager = nonEmptyEntry ⟨s, version, applied⟩) (canonical : s.Canonical)
    (has : ∀ path, s.has path = true ↔ owned path) :
    EntryIs managers manager version applied owned := by
  unfold nonEmptyEntry at entry
  split at entry
  · next empty =>
      refine Or.inl ⟨entry, fun path holds => ?_⟩
      have none := has_of_isEmpty empty path
      rw [(has path).mpr holds] at none
      cases none
  · next nonEmpty =>
      refine Or.inr ⟨s, entry, canonical, ?_, has⟩
      by_contra none
      push Not at none
      apply nonEmpty
      rw [isEmpty_iff_has canonical]
      intro path
      exact Bool.eq_false_iff.mpr fun holds => none path ((has path).mp holds)

namespace Updater

variable (u : Updater N E)

/-- At or under an ignored field of the version. -/
def Ignored (version : APIVersion) (path : Path N) : Prop :=
  CoveredBy (u.ignoredFields.get? version) path

/-- The sets of ignored fields are well formed. -/
def IgnoresWellFormed : Prop :=
  ∀ version s, u.ignoredFields.get? version = some s → s.Canonical

/-- The comparison of two objects as seen in a version: as given in the version of
the call, and converted in every other one. -/
def ComparesTo (oldObject newObject : TypedValue N) (version managed : APIVersion)
    (c : Comparison N) : Prop :=
  (managed = version ∧ oldObject.compare newObject = .ok c) ∨
    (managed ≠ version ∧ ∃ old new, u.converter.convert (some oldObject) managed = (some old, none) ∧
      u.converter.convert (some newObject) managed = (some new, none) ∧ old.compare new = .ok c)

/-- The object converts to every version at which a manager is recorded. -/
def Convertible (managers : ManagedFields N) (object : TypedValue N) : Prop :=
  ∀ manager managerSet, managers.get? manager = some managerSet →
    ∃ converted, u.converter.convert (some object) managerSet.apiVersion = (some converted, none)

variable {u} {oldObject newObject : TypedValue N} {version managed : APIVersion}

theorem compareAt_eq_some {found : Comparison N}
    (ok : u.compareAt oldObject newObject managed = .ok (some found)) :
    ∃ old new raw, u.converter.convert (some oldObject) managed = (some old, none) ∧
      u.converter.convert (some newObject) managed = (some new, none) ∧
      old.compare new = .ok raw ∧ found = raw.excludeFields (u.ignoredFields.get? managed) := by
  unfold compareAt at ok
  split at ok
  · split at ok <;> cases ok
  · next convertedOld isOld =>
      split at ok
      · split at ok <;> cases ok
      · next convertedNew isNew =>
          simp only [bind_eq_ok, lift_eq_ok, deref_eq_ok] at ok
          obtain ⟨old, rfl, new, rfl, raw, compared, finished⟩ := ok
          cases finished
          exact ⟨old, new, raw, isOld, isNew, compared, rfl⟩

/-- The comparison that counts in a version is that of the objects in this version
without the fields ignored there. -/
theorem comparisonFor_eq_some {comparison compared found : Comparison N}
    (isCompared : oldObject.compare newObject = .ok compared)
    (excluded : comparison = compared.excludeFields (u.ignoredFields.get? version))
    (ok : u.comparisonFor oldObject newObject version comparison managed = .ok (some found)) :
    ∃ raw, u.ComparesTo oldObject newObject version managed raw ∧
      found = raw.excludeFields (u.ignoredFields.get? managed) := by
  unfold comparisonFor at ok
  split at ok
  · next same =>
      cases ok
      exact ⟨compared, Or.inl ⟨same, isCompared⟩, by rw [excluded, same]⟩
  · next foreign =>
      obtain ⟨old, new, raw, isOld, isNew, isRaw, isFound⟩ := compareAt_eq_some ok
      exact ⟨raw, Or.inr ⟨foreign, old, new, isOld, isNew, isRaw⟩, isFound⟩

theorem ComparesTo.canonical [Consistent N]
    (compares : u.ComparesTo oldObject newObject version managed c) : c.Canonical := by
  rcases compares with ⟨_, ok⟩ | ⟨_, old, new, _, _, ok⟩
  · exact compare_canonical ok
  · exact compare_canonical ok

/-- A version to which both objects convert is not missing. -/
theorem comparisonFor_isSome {comparison : Comparison N}
    {convertedOld convertedNew : TypedValue N}
    (isOld : u.converter.convert (some oldObject) managed = (some convertedOld, none))
    (isNew : u.converter.convert (some newObject) managed = (some convertedNew, none)) :
    u.comparisonFor oldObject newObject version comparison managed ≠ .ok none := by
  unfold comparisonFor
  split
  · simp
  · intro missing
    unfold compareAt at missing
    rw [isOld, isNew] at missing
    simp only [bind_eq_ok, lift_eq_ok, deref_eq_ok] at missing
    obtain ⟨_, _, _, _, _, _, finished⟩ := missing
    cases finished

/-- What `update` leaves to a manager other than the caller. -/
theorem entryIs_afterUpdate [Consistent N] {orders : Orders} {managers remaining : ManagedFields N}
    {workflow : String} {force : Bool} {comparison compared : Comparison N}
    (wellFormed : WellFormed managers) (ignores : u.IgnoresWellFormed)
    (convertibleOld : u.Convertible managers oldObject)
    (convertibleNew : u.Convertible managers newObject)
    (isCompared : oldObject.compare newObject = .ok compared)
    (excluded : comparison = compared.excludeFields (u.ignoredFields.get? version))
    (ok : u.update orders oldObject newObject version managers workflow force =
      .ok (remaining, comparison)) {managerSet : VersionedSet N}
    (held : managers.get? manager = some managerSet) (other : manager ≠ workflow) :
    ∃ raw, u.ComparesTo oldObject newObject version managerSet.apiVersion raw ∧
      EntryIs remaining manager managerSet.apiVersion managerSet.applied fun path =>
        managerSet.set.has path = true ∧
          ¬ (raw.Changes path ∧ ¬ u.Ignored managerSet.apiVersion path) := by
  obtain ⟨_, compares, entries⟩ := update_spec wellFormed.distinct ok
  obtain ⟨found, isFound⟩ := compares manager managerSet held other
  obtain ⟨convertedOld, isOld⟩ := convertibleOld manager managerSet held
  obtain ⟨convertedNew, isNew⟩ := convertibleNew manager managerSet held
  cases found with
  | none => exact absurd isFound (comparisonFor_isSome isOld isNew)
  | some found =>
      obtain ⟨raw, isRaw, rfl⟩ := comparisonFor_eq_some isCompared excluded isFound
      refine ⟨raw, isRaw, ?_⟩
      have entry : remaining.get? manager = nonEmptyEntry { managerSet with
          set := leftTo managerSet (raw.excludeFields
            (u.ignoredFields.get? managerSet.apiVersion)) } := by
        rw [entries, held, Option.bind_some, afterUpdate, if_neg other, isFound]
      obtain ⟨canonicalFound, excludedHas⟩ := excludeFields_spec isRaw.canonical
        (ignores managerSet.apiVersion)
      obtain ⟨canonicalLeft, leftHas⟩ := leftTo_spec (wellFormed.canonical _ _ held) canonicalFound
      refine entryIs_of_nonEmptyEntry entry canonicalLeft fun path => ?_
      have parts := excludedHas path
      rw [leftHas]
      simp only [Comparison.Changes, parts, ← or_and_right]
      rfl

/-- What the updating manager records: its old paths without the removed ones, the
modified and the added ones, and nothing that is ignored. -/
theorem entryIs_recordUpdate [Consistent N] {owned : FieldSet N} {compared : Comparison N}
    (ignores : u.IgnoresWellFormed) (canonicalOwned : owned.Canonical)
    (canonical : compared.Canonical)
    (held : ((managers.get? manager).map VersionedSet.set).getD .nil = owned) :
    EntryIs (u.recordUpdate version managers manager
        (compared.excludeFields (u.ignoredFields.get? version))) manager version false
      fun path => ((owned.has path = true ∧ compared.removed.has path = false) ∨
        compared.modified.has path = true ∨ compared.added.has path = true) ∧
          ¬ u.Ignored version path := by
  obtain ⟨canonicalExcluded, excludedHas⟩ := excludeFields_spec canonical (ignores version)
  have canonicalIgnored : ((u.ignoredFields.get? version).getD .nil).Canonical := by
    cases ignored : u.ignoredFields.get? version with
    | none => exact nil_canonical
    | some s => exact ignores version s ignored
  have covered : ∀ path, ((u.ignoredFields.get? version).getD .nil).Covers path ↔
      u.Ignored version path := by
    intro path
    cases ignored : u.ignoredFields.get? version with
    | none =>
        simp only [Ignored, CoveredBy, ignored, Option.getD_none, reduceCtorEq, false_and,
          exists_false, iff_false]
        rintro ⟨first, _, holds⟩
        simp at holds
    | some s => simp [Ignored, CoveredBy, ignored]
  have canonicalDifference := difference_canonical canonicalOwned canonicalExcluded.removed
  have canonicalModified := union_canonical canonicalDifference canonicalExcluded.modified
  have canonicalAdded := union_canonical canonicalModified canonicalExcluded.added
  have canonicalSet := recursiveDifference_canonical canonicalAdded canonicalIgnored
  have setHas := fun path => has_recursiveDifference canonicalAdded canonicalIgnored path
  have entry : (u.recordUpdate version managers manager
      (compared.excludeFields (u.ignoredFields.get? version))).get? manager =
      nonEmptyEntry ⟨(((owned.difference
          (compared.excludeFields (u.ignoredFields.get? version)).removed).union
          (compared.excludeFields (u.ignoredFields.get? version)).modified).union
          (compared.excludeFields (u.ignoredFields.get? version)).added).recursiveDifference
          ((u.ignoredFields.get? version).getD .nil), version, false⟩ := by
    unfold recordUpdate nonEmptyEntry
    rw [held]
    dsimp only
    split
    · rw [get?_erase, if_pos rfl]
    · rw [get?_set, if_pos rfl]
  refine entryIs_of_nonEmptyEntry entry canonicalSet fun path => ?_
  have parts := excludedHas path
  rw [setHas, covered, has_union canonicalModified canonicalExcluded.added,
    has_union canonicalDifference canonicalExcluded.modified,
    has_difference canonicalOwned canonicalExcluded.removed]
  refine and_congr_left fun notIgnored => ?_
  have notCovered : ¬ CoveredBy (u.ignoredFields.get? version) path := notIgnored
  simp only [Bool.or_eq_true, Bool.and_eq_true, Bool.not_eq_true', Bool.eq_false_iff, ne_eq, parts,
    notCovered, not_false_eq_true, and_true, or_assoc]

theorem get?_recordUpdate_of_ne {manager other : String} (different : other ≠ manager) :
    (u.recordUpdate version managers manager c).get? other = managers.get? other := by
  unfold recordUpdate
  dsimp only
  split
  · rw [get?_erase, if_neg different.symm]
  · rw [get?_set, if_neg different.symm]

/-- A successful `Update`, step by step. -/
theorem performUpdate_eq_ok {orders : Orders} {liveObject object : TypedValue N}
    {managers result : ManagedFields N} :
    u.performUpdate orders liveObject newObject version managers manager = .ok (object, result) ↔
      ∃ reconciled remaining c,
        u.reconcileManagedFieldsWithSchemaChanges orders liveObject managers = .ok reconciled ∧
        u.update orders liveObject newObject version reconciled manager true =
          .ok (remaining, c) ∧
        object = newObject ∧ result = u.recordUpdate version remaining manager c := by
  unfold performUpdate
  simp only [bind_eq_ok]
  constructor
  · rintro ⟨reconciled, isReconciled, ⟨remaining, c⟩, updated, finished⟩
    cases finished
    exact ⟨reconciled, remaining, c, isReconciled, updated, rfl, rfl⟩
  · rintro ⟨reconciled, remaining, c, isReconciled, updated, rfl, rfl⟩
    exact ⟨reconciled, isReconciled, (remaining, c), updated, rfl⟩

end Updater

/-! ## Transfer of ownership -/

/-- The manager owns the path. -/
def Owns (managers : ManagedFields N) (manager : String) (path : Path N) : Prop :=
  ∃ managerSet, managers.get? manager = some managerSet ∧ managerSet.set.has path = true

theorem EntryIs.owns_iff {version : APIVersion} {applied : Bool} {owned : Path N → Prop}
    (entry : EntryIs managers manager version applied owned) (path : Path N)
    : Owns managers manager path ↔ owned path := by
  rcases entry with ⟨absent, nothing⟩ | ⟨s, held, _, _, has⟩
  · simp [Owns, absent, nothing]
  · simp [Owns, held, has]

/-- The paths a manager owns; none if it is not recorded. -/
def ownedSet (managers : ManagedFields N) (manager : String) : FieldSet N :=
  ((managers.get? manager).map VersionedSet.set).getD .nil

theorem ownedSet_has_iff {path : Path N} :
    (ownedSet managers manager).has path = true ↔ Owns managers manager path := by
  unfold ownedSet Owns
  cases managers.get? manager <;> simp

theorem WellFormed.ownedSet_canonical (wellFormed : WellFormed managers) (manager : String)
    : (ownedSet managers manager).Canonical := by
  unfold ownedSet
  cases held : managers.get? manager with
  | none => exact nil_canonical
  | some managerSet => exact wellFormed.canonical manager managerSet held

/-- What the updating manager holds after an update, from what it held after
reconciliation. -/
theorem entryIs_own [Consistent N] {u : Updater N E} {orders : Orders}
    {liveObject newObject : TypedValue N} {version : APIVersion}
    {reconciled remaining : ManagedFields N} {force : Bool} {c raw : Comparison N}
    (wellFormed : WellFormed reconciled) (ignores : u.IgnoresWellFormed)
    (isRaw : liveObject.compare newObject = .ok raw)
    (excluded : c = raw.excludeFields (u.ignoredFields.get? version))
    (updated : u.update orders liveObject newObject version reconciled manager force =
      .ok (remaining, c)) :
    EntryIs (u.recordUpdate version remaining manager c) manager version false fun path =>
      (((ownedSet reconciled manager).has path = true ∧ raw.removed.has path = false) ∨
        raw.modified.has path = true ∨ raw.added.has path = true) ∧ ¬ u.Ignored version path := by
  obtain ⟨_, _, entries⟩ := Updater.update_spec wellFormed.distinct updated
  have canonicalOwned := wellFormed.ownedSet_canonical manager
  -- an own entry that owned nothing was dropped, and counts as empty again
  have owned : ((remaining.get? manager).map VersionedSet.set).getD .nil =
      ownedSet reconciled manager := by
    rw [entries, ownedSet]
    cases held : reconciled.get? manager with
    | none => rfl
    | some managerSet =>
        rw [Option.bind_some, Updater.afterUpdate, if_pos rfl, nonEmptyEntry]
        split
        · next empty => exact ((wellFormed.canonical _ _ held).eq_nil empty).symm
        · rfl
  rw [excluded]
  exact Updater.entryIs_recordUpdate ignores canonicalOwned (compare_canonical isRaw) owned

/-- The managers after an update are the managers before it, with exactly the
changed paths transferred to the updating manager. -/
structure Transferred (u : Updater N E) (liveObject newObject : TypedValue N)
    (version : APIVersion) (manager : String) (before after : ManagedFields N) : Prop where
  /-- Every other manager loses the paths that changed in its version, and no more. -/
  others : ∀ other managerSet, before.get? other = some managerSet → other ≠ manager →
    ∃ raw, u.ComparesTo liveObject newObject version managerSet.apiVersion raw ∧
      EntryIs after other managerSet.apiVersion managerSet.applied fun path =>
        managerSet.set.has path = true ∧
          ¬ (raw.Changes path ∧ ¬ u.Ignored managerSet.apiVersion path)
  /-- No other manager is new. -/
  absent : ∀ other, before.get? other = none → other ≠ manager → after.get? other = none
  /-- The updating manager gains what it modified or added and loses what it removed. -/
  own : ∃ raw, liveObject.compare newObject = .ok raw ∧
    EntryIs after manager version false fun path =>
      (((ownedSet before manager).has path = true ∧ raw.removed.has path = false) ∨
        raw.modified.has path = true ∨ raw.added.has path = true) ∧ ¬ u.Ignored version path
  /-- No other manager of the version keeps a changed path. -/
  exclusive : ∀ other managerSet raw path, after.get? other = some managerSet →
    other ≠ manager → managerSet.apiVersion = version → liveObject.compare newObject = .ok raw →
    raw.Changes path → managerSet.set.has path = true → u.Ignored version path
  /-- Nothing is gained or lost outside the changed paths. -/
  frame : ∀ other managerSet raw path, before.get? other = some managerSet → other ≠ manager →
    u.ComparesTo liveObject newObject version managerSet.apiVersion raw → ¬ raw.Changes path →
    (Owns after other path ↔ Owns before other path)

theorem ComparesTo_unique {u : Updater N E} {oldObject newObject : TypedValue N}
    {version managed : APIVersion} {first second : Comparison N}
    (isFirst : u.ComparesTo oldObject newObject version managed first)
    (isSecond : u.ComparesTo oldObject newObject version managed second) : first = second := by
  rcases isFirst with ⟨same, first⟩ | ⟨foreign, old, new, isOld, isNew, first⟩
  · rcases isSecond with ⟨_, second⟩ | ⟨foreign, _⟩
    · rw [first] at second
      cases second
      rfl
    · exact absurd same foreign
  · rcases isSecond with ⟨same, _⟩ | ⟨_, old', new', isOld', isNew', second⟩
    · exact absurd same foreign
    · rw [isOld] at isOld'
      rw [isNew] at isNew'
      cases isOld'
      cases isNew'
      rw [first] at second
      cases second
      rfl

omit [Numeric N] in
theorem exists_ok_of_isOk {ε α : Type} {result : Except ε α} (ok : result.isOk = true) :
    ∃ a, result = .ok a := by
  cases result with
  | error err => cases ok
  | ok a => exact ⟨a, rfl⟩

/-- The path of a number in the field `list`. -/
def numberPath (n : N) : Path N :=
  [.fieldName "list", numberElement n]

theorem wellFormed_of_forall [Consistent N] (distinct : Distinct managers)
    (canonical : ∀ entry ∈ managers, entry.2.set.Canonical) : WellFormed managers :=
  ⟨distinct, fun _ _ held => canonical _ (mem_of_get? held)⟩

/-- Does the manager own the path after the call? -/
def ownsAfter {α : Type} (result : Except (Failure N E) (α × ManagedFields N)) (manager : String)
    (path : Path N) : Bool :=
  match result with
  | .ok (_, managers) => (ownedSet managers manager).has path
  | .error _ => false

end Merge

end StructuredMergeDiff
