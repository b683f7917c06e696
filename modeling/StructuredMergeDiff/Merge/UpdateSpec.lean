import StructuredMergeDiff.FieldPath.Declared
import StructuredMergeDiff.Library.EarlyExit
import StructuredMergeDiff.Merge.Update

/-!
Contract: what `update` does to every manager, in any iteration order.

`update` ranges over the managers with a cache of comparisons, collects
conflicts and removed fields in two maps, and ranges over these. Here the four
ranges are put together: the result holds for each manager what is left of its
own set after the comparison in its own version, whatever the orders.

Owns: `comparisonFor`, `leftTo` and `update_spec`.
-/

namespace StructuredMergeDiff.Merge

open Library Typed FiniteMap

variable {N E : Type} [Numeric N]

/-- The paths a manager conflicts on. -/
def conflictSet (managerSet : VersionedSet N) (comparison : Comparison N) : FieldSet N :=
  managerSet.set.intersection (comparison.modified.union comparison.added)

/-- What is left of a manager's set after a comparison. -/
def leftTo (managerSet : VersionedSet N) (comparison : Comparison N) : FieldSet N :=
  let kept :=
    if (conflictSet managerSet comparison).isEmpty then managerSet.set
    else managerSet.set.difference (conflictSet managerSet comparison)
  if comparison.removed.isEmpty then kept else kept.difference comparison.removed

omit [Numeric N] in
/-- An entry that is dropped if it owns nothing. -/
def nonEmptyEntry (managerSet : VersionedSet N) : Option (VersionedSet N) :=
  if managerSet.set.isEmpty then none else some managerSet

omit [Numeric N] in
theorem eq_of_nonEmptyEntry {entry left : VersionedSet N} (isLeft : nonEmptyEntry entry = some left) :
    left = entry := by
  unfold nonEmptyEntry at isLeft
  split at isLeft
  · cases isLeft
  · cases isLeft
    rfl

omit [Numeric N] in
theorem nonEmptyEntry_again (entry : VersionedSet N) :
    (nonEmptyEntry entry).bind nonEmptyEntry = nonEmptyEntry entry := by
  cases empty : entry.set.isEmpty <;> simp [nonEmptyEntry, empty]

namespace Updater

variable (u : Updater N E) (oldObject newObject : TypedValue N) (version : APIVersion)
  (comparison : Comparison N)

/-- The comparison that counts for managers of a version. -/
def comparisonFor (managed : APIVersion) : Except (Failure N E) (Option (Comparison N)) :=
  if managed = version then .ok (some comparison)
  else u.compareAt oldObject newObject managed

/-! ## The range over the managers -/

/-- What the collected maps hold for a manager. -/
def Detection.lookup (detection : Detection N) (manager : String) :
    Option (VersionedSet N) × Option (VersionedSet N) × Option (VersionedSet N) :=
  (detection.managers.get? manager, detection.conflicts.get? manager,
    detection.removed.get? manager)

/-- What one round changes for its manager. -/
def detectionEffect (workflow manager : String) (managerSet : VersionedSet N)
    (held : Option (VersionedSet N) × Option (VersionedSet N) × Option (VersionedSet N)) :
    Option (VersionedSet N) × Option (VersionedSet N) × Option (VersionedSet N) :=
  if manager = workflow then held
  else
    match u.comparisonFor oldObject newObject version comparison managerSet.apiVersion with
    | .ok (some found) =>
        (held.1,
          (if (conflictSet managerSet found).isEmpty then held.2.1
            else some ⟨conflictSet managerSet found, managerSet.apiVersion, false⟩),
          (if found.removed.isEmpty then held.2.2
            else some ⟨found.removed, managerSet.apiVersion, false⟩))
    | _ => (none, held.2)

/-- The cache holds comparisons that count, and each map has one entry per key. -/
structure Detection.Sound (detection : Detection N) : Prop where
  own : detection.versions.get? version = some comparison
  cached : ∀ managed found, detection.versions.get? managed = some found →
    u.comparisonFor oldObject newObject version comparison managed = .ok (some found)
  managers : FiniteMap.Distinct detection.managers
  conflicts : FiniteMap.Distinct detection.conflicts
  removed : FiniteMap.Distinct detection.removed

variable {u oldObject newObject version comparison}

theorem recordManager_lookup (detection : Detection N) (manager : String)
    (managerSet : VersionedSet N) (found : Comparison N) (key : String) :
    (recordManager detection manager managerSet found).lookup key =
      if manager = key then
        (detection.managers.get? key,
          (if (conflictSet managerSet found).isEmpty then detection.conflicts.get? key
            else some ⟨conflictSet managerSet found, managerSet.apiVersion, false⟩),
          (if found.removed.isEmpty then detection.removed.get? key
            else some ⟨found.removed, managerSet.apiVersion, false⟩))
      else detection.lookup key := by
  simp only [recordManager, Detection.lookup, conflictSet]
  by_cases same : manager = key
  · rw [if_pos same]
    split <;> split <;> simp [get?_set, *]
  · rw [if_neg same]
    split <;> split <;> simp [get?_set, same]

theorem recordManager_sound {detection : Detection N}
    (sound : detection.Sound u oldObject newObject version comparison) (manager : String)
    (managerSet : VersionedSet N) (found : Comparison N) :
    (recordManager detection manager managerSet found).Sound u oldObject newObject version
      comparison where
  own := sound.own
  cached := sound.cached
  managers := sound.managers
  conflicts := by
    simp only [recordManager]
    split
    · exact sound.conflicts
    · exact set_distinct sound.conflicts _ _
  removed := by
    simp only [recordManager]
    split
    · exact sound.removed
    · exact set_distinct sound.removed _ _

/-- A round that succeeds had a comparison, unless it is the caller's own. -/
theorem detectManager_inv {workflow : String} {detection next : Detection N}
    {entry : String × VersionedSet N}
    (sound : detection.Sound u oldObject newObject version comparison)
    (step : u.detectManager oldObject newObject workflow detection entry = .ok next) :
    (next.Sound u oldObject newObject version comparison ∧
      ∀ key, next.lookup key =
        if entry.1 = key then
          u.detectionEffect oldObject newObject version comparison workflow key entry.2
            (detection.lookup key)
        else detection.lookup key) ∧
      (entry.1 ≠ workflow → ∃ found,
        u.comparisonFor oldObject newObject version comparison entry.2.apiVersion = .ok found) := by
  obtain ⟨manager, managerSet⟩ := entry
  unfold detectManager at step
  dsimp only at step ⊢
  split at step
  · next own =>
      cases step
      refine ⟨⟨sound, fun key => ?_⟩, fun other => absurd own other⟩
      by_cases same : manager = key
      · rw [if_pos same, detectionEffect, if_pos (same.symm.trans own)]
      · rw [if_neg same]
  · next other =>
      split at step
      · next found cached =>
          have counts := sound.cached _ _ cached
          cases step
          refine ⟨⟨recordManager_sound sound manager managerSet found, fun key => ?_⟩,
            fun _ => ⟨_, counts⟩⟩
          rw [recordManager_lookup]
          by_cases same : manager = key
          · subst same
            rw [if_pos rfl, if_pos rfl, detectionEffect, if_neg other, counts]
            rfl
          · rw [if_neg same, if_neg same]
      · next uncached =>
          have foreign : managerSet.apiVersion ≠ version := by
            intro same
            rw [same, sound.own] at uncached
            cases uncached
          have converted : u.comparisonFor oldObject newObject version comparison
              managerSet.apiVersion = u.compareAt oldObject newObject managerSet.apiVersion := by
            rw [comparisonFor, if_neg foreign]
          split at step
          · cases step
          · next missing =>
              cases step
              refine ⟨⟨⟨sound.own, sound.cached, erase_distinct sound.managers _,
                sound.conflicts, sound.removed⟩, fun key => ?_⟩, fun _ => ⟨_, converted.trans missing⟩⟩
              by_cases same : manager = key
              · subst same
                rw [if_pos rfl, detectionEffect, if_neg other, converted, missing]
                simp [Detection.lookup, get?_erase]
              · rw [if_neg same]
                simp [Detection.lookup, get?_erase, same]
          · next found compared =>
              cases step
              have extended : ({ detection with
                  versions := detection.versions.set managerSet.apiVersion found } :
                  Detection N).Sound u oldObject newObject version comparison := by
                refine ⟨?_, fun managed cached isCached => ?_, sound.managers, sound.conflicts,
                  sound.removed⟩
                · rw [get?_set, if_neg foreign]
                  exact sound.own
                · rw [get?_set] at isCached
                  split at isCached
                  · next same =>
                      cases isCached
                      rw [← same, converted, compared]
                  · exact sound.cached _ _ isCached
              refine ⟨⟨recordManager_sound extended manager managerSet found, fun key => ?_⟩,
                fun _ => ⟨_, converted.trans compared⟩⟩
              rw [recordManager_lookup]
              by_cases same : manager = key
              · subst same
                rw [if_pos rfl, if_pos rfl, detectionEffect, if_neg other, converted, compared]
                rfl
              · rw [if_neg same, if_neg same]
                rfl

theorem Detection.start_sound {managers : ManagedFields N}
    (distinct : Distinct managers) :
    (Detection.start version comparison managers).Sound u oldObject newObject version
      comparison := by
  refine ⟨by simp [Detection.start, get?_cons], fun managed found cached => ?_, distinct,
    List.nodup_nil, List.nodup_nil⟩
  rw [Detection.start, get?_cons] at cached
  split at cached
  · next same =>
      cases cached
      rw [comparisonFor, if_pos same.symm]
  · cases cached

/-- The range over the managers, in any order. -/
theorem detection_spec {order : IterationOrder} {managers : ManagedFields N} {workflow : String}
    {detection : Detection N} (distinct : Distinct managers)
    (run : (order.arrange managers).foldlM (u.detectManager oldObject newObject workflow)
      (.start version comparison managers) = .ok detection) :
    detection.Sound u oldObject newObject version comparison ∧
      (∀ manager managerSet, managers.get? manager = some managerSet → manager ≠ workflow →
        ∃ found, u.comparisonFor oldObject newObject version comparison managerSet.apiVersion =
          .ok found) ∧
      ∀ manager, detection.lookup manager =
        match managers.get? manager with
        | some managerSet =>
            u.detectionEffect oldObject newObject version comparison workflow manager managerSet
              (some managerSet, none, none)
        | none => (none, none, none) := by
  have start : (Detection.start version comparison managers).Sound u oldObject newObject version
      comparison := Detection.start_sound distinct
  have steps := fun before entry next
    (sound : Detection.Sound u oldObject newObject version comparison before)
    (stepped : u.detectManager oldObject newObject workflow before entry = .ok next) =>
    detectManager_inv sound stepped
  obtain ⟨sound, lookups⟩ := lookup_foldlM Detection.lookup
    (u.detectionEffect oldObject newObject version comparison workflow)
    (fun before entry next sound stepped => (steps before entry next sound stepped).1)
    (order.arrange_distinct distinct) start run
  refine ⟨sound, fun manager managerSet held other => ?_, fun manager => ?_⟩
  · have member : (manager, managerSet) ∈ order.arrange managers :=
      (order.perm managers).mem_iff.mpr (mem_of_get? held)
    obtain ⟨before, next, soundBefore, stepped⟩ := step_of_foldlM
      (fun before entry next sound stepped => (steps before entry next sound stepped).1.1)
      start run member
    exact (steps before _ next soundBefore stepped).2 other
  · rw [lookups, order.get?_arrange distinct]
    cases held : managers.get? manager <;> simp [Detection.lookup, Detection.start, held]

/-! ## Taking away and dropping -/

section

variable (managers : ManagedFields N) (entry : String × VersionedSet N)

include managers entry

theorem get?_takeAway (key : String) :
    (takeAway managers entry).get? key =
      if entry.1 = key then
        (managers.get? key).map fun owned => { owned with set := owned.set.difference entry.2.set }
      else managers.get? key := by
  unfold takeAway
  by_cases same : entry.1 = key
  · subst same
    rw [if_pos rfl]
    cases held : managers.get? entry.1 <;> simp [get?_set, held]
  · rw [if_neg same]
    cases held : managers.get? entry.1 <;> simp [get?_set, same]

theorem takeAway_distinct (distinct : Distinct managers)
    : Distinct (takeAway managers entry) := by
  unfold takeAway
  split
  · exact set_distinct distinct _ _
  · exact distinct

omit [Numeric N] in
theorem get?_dropEmptied (key : String) :
    (dropEmptied managers entry).get? key =
      if entry.1 = key then if entry.2.set.isEmpty then none else managers.get? key
      else managers.get? key := by
  unfold dropEmptied
  by_cases same : entry.1 = key
  · rw [if_pos same]
    split
    · rw [get?_erase, if_pos same]
    · rfl
  · rw [if_neg same]
    split
    · rw [get?_erase, if_neg same]
    · rfl

omit [Numeric N] in
theorem dropEmptied_distinct (distinct : Distinct managers)
    : Distinct (dropEmptied managers entry) := by
  unfold dropEmptied
  split
  · exact erase_distinct distinct _
  · exact distinct

end

/-- What `update` returns for the managers once it has found no conflict, or is
forced. -/
def settle (orders : Orders) (detection : Detection N) : ManagedFields N :=
  let afterConflicts :=
    (orders.conflicts.arrange detection.conflicts).foldl takeAway detection.managers
  let afterRemoved := (orders.removed.arrange detection.removed).foldl takeAway afterConflicts
  (orders.emptied.arrange afterRemoved).foldl dropEmptied afterRemoved

/-- A manager's entry without the collected set. -/
def withoutCollected (collected : Option (VersionedSet N)) (owned : VersionedSet N) :
    VersionedSet N :=
  match collected with
  | some taken => { owned with set := owned.set.difference taken.set }
  | none => owned

private theorem get?_foldl_takeAway (order : IterationOrder) {collected : ManagedFields N}
    (distinct : Distinct collected) (managers : ManagedFields N) (manager : String) :
    ((order.arrange collected).foldl takeAway managers).get? manager =
      (managers.get? manager).map (withoutCollected (collected.get? manager)) := by
  rw [get?_foldl (fun (taken : VersionedSet N) (owned : Option (VersionedSet N)) =>
      owned.map fun owned => { owned with set := owned.set.difference taken.set })
      get?_takeAway (order.arrange_distinct distinct), order.get?_arrange distinct]
  cases collected.get? manager with
  | none => cases managers.get? manager <;> rfl
  | some taken => rfl

theorem get?_settle (orders : Orders) {detection : Detection N}
    (sound : detection.Sound u oldObject newObject version comparison) (manager : String) :
    (settle orders detection).get? manager =
      ((detection.managers.get? manager).map fun owned =>
        withoutCollected (detection.removed.get? manager)
          (withoutCollected (detection.conflicts.get? manager) owned)).bind nonEmptyEntry := by
  unfold settle
  dsimp only
  have distinctRemoved := foldl_distinct takeAway_distinct
    (orders.removed.arrange detection.removed) (foldl_distinct takeAway_distinct
      (orders.conflicts.arrange detection.conflicts) sound.managers)
  rw [get?_foldl (fun (held : VersionedSet N) (owned : Option (VersionedSet N)) =>
      if held.set.isEmpty then none else owned)
      get?_dropEmptied (orders.emptied.arrange_distinct distinctRemoved),
    orders.emptied.get?_arrange distinctRemoved, get?_foldl_takeAway _ sound.removed,
    get?_foldl_takeAway _ sound.conflicts]
  cases detection.managers.get? manager with
  | none => rfl
  | some owned => rfl

theorem settle_distinct (orders : Orders) {detection : Detection N}
    (sound : detection.Sound u oldObject newObject version comparison) :
    Distinct (settle orders detection) :=
  foldl_distinct dropEmptied_distinct _
    (foldl_distinct takeAway_distinct _
      (foldl_distinct takeAway_distinct _ sound.managers))

section

omit [Numeric N]

theorem lift_eq_ok {α : Type} {text : String} {first : Except (Typed.Failure N) α} {result : α} :
    (lift text first : Except (Failure N E) α) = .ok result ↔ first = .ok result := by
  match first with
  | .ok _ => simp [lift]
  | .error (.errors _) => simp [lift]
  | .error .panic => simp [lift]
  | .error .diverges => simp [lift]

theorem deref_eq_ok {object : Option (TypedValue N)} {tv : TypedValue N} :
    (deref object : Except (Failure N E) (TypedValue N)) = .ok tv ↔ object = some tv := by
  cases object <;> simp [deref]

theorem wrap_eq_ok {α : Type} {text : String} {first : Except (Failure N E) α} {result : α} :
    first.mapError (Failure.wrap text) = .ok result ↔ first = .ok result := by
  cases first <;> simp [Except.mapError]

end

variable {orders : Orders} {managers : ManagedFields N} {workflow : String}

theorem update_eq_ok {force : Bool} {remaining : ManagedFields N} :
    u.update orders oldObject newObject version managers workflow force =
        .ok (remaining, comparison) ↔
      ∃ compared detection, oldObject.compare newObject = .ok compared ∧
        comparison = compared.excludeFields (u.ignoredFields.get? version) ∧
        (orders.managers.arrange managers).foldlM (u.detectManager oldObject newObject workflow)
          (.start version comparison managers) = .ok detection ∧
        (force = true ∨ detection.conflicts = []) ∧ remaining = settle orders detection := by
  unfold update
  simp only [bind_eq_ok, lift_eq_ok]
  constructor
  · rintro ⟨compared, isCompared, detection, detected, finished⟩
    split at finished
    · cases finished
    · next noConflict =>
        cases finished
        refine ⟨compared, detection, isCompared, rfl, detected, ?_, rfl⟩
        simpa [Classical.or_iff_not_imp_left] using noConflict
  · rintro ⟨compared, detection, isCompared, rfl, detected, noConflict, rfl⟩
    refine ⟨compared, isCompared, detection, detected, ?_⟩
    rw [if_neg (by simpa [Classical.or_iff_not_imp_left] using noConflict)]
    rfl

/-- What reconciliation keeps of a manager's entry. -/
def reconciledEntry (u : Updater N E) (liveObject : TypedValue N) (managerSet : VersionedSet N) :
    Option (VersionedSet N) :=
  let (converted, err) := u.converter.convert (some liveObject) managerSet.apiVersion
  if u.converter.isMissingVersionError err then none
  else
    converted.map fun tv =>
      match reconcileFieldSetWithSchema tv.schema.val tv.typeRef managerSet.set with
      | .ok (some reconciled) => { managerSet with set := reconciled }
      | _ => managerSet

theorem reconcileManager_inv {liveObject : TypedValue N} {result next : ManagedFields N}
    {entry : String × VersionedSet N}
    (step : u.reconcileManager liveObject result entry = .ok next) :
    (u.reconciledEntry liveObject entry.2 = none ∧ next = result) ∨
      ∃ kept, u.reconciledEntry liveObject entry.2 = some kept ∧ next = result.set entry.1 kept := by
  unfold reconcileManager at step
  unfold reconciledEntry
  dsimp only at step ⊢
  split at step
  · next missing =>
      cases step
      exact Or.inl ⟨if_pos missing, rfl⟩
  · next notMissing =>
      rw [if_neg notMissing]
      split at step
      · cases step
      · obtain ⟨tv, converted, later⟩ := bind_eq_ok.mp step
        rw [deref_eq_ok.mp converted]
        refine Or.inr ?_
        split at later
        · cases later
        · next reconciles =>
            cases later
            exact ⟨_, by rw [Option.map_some, reconciles], rfl⟩
        · next fits =>
            cases later
            exact ⟨_, by rw [Option.map_some, fits], rfl⟩

theorem reconcile_distinct {liveObject : TypedValue N} {reconciled : ManagedFields N}
    (ok : u.reconcileManagedFieldsWithSchemaChanges orders liveObject managers = .ok reconciled) :
    Distinct reconciled := by
  have start : Distinct ([] : ManagedFields N) := List.nodup_nil
  refine foldlM_keeps (fun result entry next distinct stepped => ?_) start ok
  rcases reconcileManager_inv stepped with ⟨_, rfl⟩ | ⟨kept, _, rfl⟩
  · exact distinct
  · exact set_distinct distinct _ _

/-- Reconciliation looks at each manager on its own. -/
theorem reconcile_spec {liveObject : TypedValue N} {reconciled : ManagedFields N}
    (distinct : Distinct managers)
    (ok : u.reconcileManagedFieldsWithSchemaChanges orders liveObject managers = .ok reconciled)
    (manager : String) :
    reconciled.get? manager = (managers.get? manager).bind (u.reconciledEntry liveObject) := by
  have pointwise : ∀ (result : ManagedFields N) entry next, Distinct result →
      u.reconcileManager liveObject result entry = .ok next →
      Distinct next ∧ ∀ key, next.get? key =
        if entry.1 = key then (u.reconciledEntry liveObject entry.2).or (result.get? key)
        else result.get? key := by
    intro result entry next distinct stepped
    rcases reconcileManager_inv stepped with ⟨dropped, rfl⟩ | ⟨kept, isKept, rfl⟩
    · refine ⟨distinct, fun key => ?_⟩
      rw [dropped, Option.none_or, ite_self]
    · refine ⟨set_distinct distinct _ _, fun key => ?_⟩
      rw [isKept, get?_set, Option.some_or]
  have start : Distinct ([] : ManagedFields N) := List.nodup_nil
  have range := (lookup_foldlM get?
    (fun _ managerSet held => (u.reconciledEntry liveObject managerSet).or held) pointwise
    (orders.reconcile.arrange_distinct distinct) start ok).2 manager
  rw [orders.reconcile.get?_arrange distinct] at range
  cases held : managers.get? manager with
  | none => rwa [held] at range
  | some managerSet =>
      rw [held] at range
      simpa using range

/-- The manager's set fits the schema of the live object in its version: it converts
there, and nothing is to be reconciled. -/
def Reconciled (u : Updater N E) (liveObject : TypedValue N) (managerSet : VersionedSet N) : Bool :=
  match u.converter.convert (some liveObject) managerSet.apiVersion with
  | (some tv, none) =>
      !u.converter.isMissingVersionError none &&
        match reconcileFieldSetWithSchema tv.schema.val tv.typeRef managerSet.set with
        | .ok none => true
        | _ => false
  | _ => false

/-- Reconciliation leaves managers alone whose sets fit the schema. -/
theorem reconcile_unchanged (u : Updater N E) (orders : Orders) (liveObject : TypedValue N)
    {managers : ManagedFields N} (distinct : Distinct managers)
    (fits : ∀ manager managerSet, managers.get? manager = some managerSet →
      u.Reconciled liveObject managerSet = true) :
    ∃ reconciled,
      u.reconcileManagedFieldsWithSchemaChanges orders liveObject managers = .ok reconciled ∧
      Distinct reconciled ∧
      ∀ manager, reconciled.get? manager = managers.get? manager := by
  have step : ∀ (result : ManagedFields N) entry, entry ∈ orders.reconcile.arrange managers →
      u.reconcileManager liveObject result entry = .ok (result.set entry.1 entry.2) := by
    intro result entry member
    have held := get?_of_mem distinct
      ((orders.reconcile.perm managers).mem_iff.mp member)
    have fit := fits entry.1 entry.2 held
    unfold Reconciled at fit
    unfold reconcileManager
    split at fit
    · next tv converted =>
        obtain ⟨notMissing, settled⟩ := (Bool.and_eq_true _ _).mp fit
        have notMissing : u.converter.isMissingVersionError none = false := by simpa using notMissing
        split at settled
        · next unreconciled =>
            simp [converted, notMissing, deref, unreconciled, Bind.bind, Except.bind]
            rfl
        · cases settled
    · cases fit
  have range : ∀ (entries : ManagedFields N) (start : ManagedFields N),
      (∀ entry ∈ entries, entry ∈ orders.reconcile.arrange managers) →
      entries.foldlM (u.reconcileManager liveObject) start =
        .ok (entries.foldl (fun result entry => result.set entry.1 entry.2) start) := by
    intro entries
    induction entries with
    | nil => exact fun _ _ => rfl
    | cons entry rest ih =>
        intro start inside
        rw [List.foldlM_cons, step start entry (inside entry List.mem_cons_self)]
        exact ih _ fun other member => inside other (List.mem_cons_of_mem _ member)
  refine ⟨_, range _ [] fun _ member => member, ?_, fun manager => ?_⟩
  · exact foldl_distinct (fun m entry distinct => set_distinct distinct _ _) _
      List.nodup_nil
  · rw [get?_foldl (fun (held : VersionedSet N) _ => some held)
      (fun m entry key => by rw [get?_set])
      (orders.reconcile.arrange_distinct distinct), orders.reconcile.get?_arrange distinct]
    cases managers.get? manager <;> rfl

/-- What is recorded for a manager after `update`. -/
def afterUpdate (u : Updater N E) (oldObject newObject : TypedValue N) (version : APIVersion)
    (comparison : Comparison N) (workflow manager : String) (managerSet : VersionedSet N) :
    Option (VersionedSet N) :=
  if manager = workflow then nonEmptyEntry managerSet
  else
    match u.comparisonFor oldObject newObject version comparison managerSet.apiVersion with
    | .ok (some found) => nonEmptyEntry { managerSet with set := leftTo managerSet found }
    | _ => none

/-- The effect of a successful `update` on every manager, in any iteration order. -/
theorem update_spec {force : Bool} {remaining : ManagedFields N}
    (distinct : Distinct managers)
    (ok : u.update orders oldObject newObject version managers workflow force =
      .ok (remaining, comparison)) :
    Distinct remaining ∧
      (∀ manager managerSet, managers.get? manager = some managerSet → manager ≠ workflow →
        ∃ found, u.comparisonFor oldObject newObject version comparison managerSet.apiVersion =
          .ok found) ∧
      ∀ manager, remaining.get? manager = (managers.get? manager).bind
        (u.afterUpdate oldObject newObject version comparison workflow manager) := by
  obtain ⟨compared, detection, _, _, detected, _, rfl⟩ := update_eq_ok.mp ok
  obtain ⟨sound, compares, lookups⟩ := detection_spec distinct detected
  refine ⟨settle_distinct orders sound, compares, fun manager => ?_⟩
  rw [get?_settle orders sound]
  have held := lookups manager
  simp only [Detection.lookup] at held
  cases recorded : managers.get? manager with
  | none =>
      rw [recorded] at held
      simp only [Prod.mk.injEq] at held
      simp [held]
  | some managerSet =>
      rw [recorded] at held
      simp only [detectionEffect] at held
      simp only [Option.bind_some, afterUpdate]
      by_cases own : manager = workflow
      · simp only [own, if_true, Prod.mk.injEq] at held ⊢
        simp [held, withoutCollected]
      · simp only [own, if_false] at held ⊢
        split at held
        · next found counts =>
            simp only [Prod.mk.injEq] at held
            simp only [held, Option.map_some, Option.bind_some]
            congr 1
            simp only [leftTo]
            split <;> split <;> simp [withoutCollected]
        · simp only [Prod.mk.injEq] at held
          simp [held]

/-- Who is recorded after `update` owns something. -/
theorem update_owning {force : Bool} {remaining : ManagedFields N}
    (distinct : Distinct managers)
    (ok : u.update orders oldObject newObject version managers workflow force =
      .ok (remaining, comparison)) (name : String) :
    (remaining.get? name).bind nonEmptyEntry = remaining.get? name := by
  rw [(update_spec distinct ok).2.2]
  cases managers.get? name with
  | none => rfl
  | some entry =>
      simp only [Option.bind_some, afterUpdate]
      split
      · exact nonEmptyEntry_again entry
      · split
        · exact nonEmptyEntry_again _
        · rfl

end Updater

end StructuredMergeDiff.Merge
