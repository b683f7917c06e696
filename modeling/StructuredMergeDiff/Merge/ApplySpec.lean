import StructuredMergeDiff.Merge.UpdateSpec

/-!
Contract: the two halves of `Apply`.

`Apply` first makes the object and the managers with the applier's new set, and
then hands over to `update`. Only the second half depends on `force`.

Owns: `prepare`, `finish` and the decomposition of `apply`.
-/

namespace StructuredMergeDiff.Merge.Updater

open Library Typed

variable {N E : Type} [Numeric N]

/-- What the applier records for its configuration. -/
def recordedSet (u : Updater N E) (version : APIVersion) (configSet : FieldSet N) : FieldSet N :=
  match u.ignoredFields.get? version with
  | some ignored => configSet.recursiveDifference ignored
  | none => configSet

/-- `Apply` up to the call of `update`: the managers and the object it is called with. -/
def prepare (u : Updater N E) (orders : Orders) (liveObject configObject : TypedValue N)
    (version : APIVersion) (managers : ManagedFields N) (manager : String) :
    Except (Failure N E) (ManagedFields N × TypedValue N) := do
  let reconciled ← u.reconcileManagedFieldsWithSchemaChanges orders liveObject managers
  let merged ← lift "failed to merge config" (liveObject.merge configObject)
  let configSet ← lift "failed to get field set" configObject.toFieldSet
  let recorded := reconciled.set manager ⟨u.recordedSet version configSet, version, true⟩
  let pruned ← (u.prune orders merged recorded manager (reconciled.get? manager)).mapError
    (Failure.wrap "failed to prune fields")
  let newObject ← deref pruned
  pure (recorded, newObject)

/-- `Apply` after the call of `update`. -/
def finish (u : Updater N E) (liveObject newObject : TypedValue N) (managers : ManagedFields N) :
    Except (Failure N E) (Option (TypedValue N) × ManagedFields N) :=
  if u.returnInputOnNoop then .ok (some newObject, managers)
  else do
    let same ← sameValue liveObject newObject
    pure (if same then none else some newObject, managers)

theorem apply_eq (u : Updater N E) (orders : Orders) (liveObject configObject : TypedValue N)
    (version : APIVersion) (managers : ManagedFields N) (manager : String) (force : Bool) :
    u.apply orders liveObject configObject version managers manager force =
      (do
        let (recorded, newObject) ←
          u.prepare orders liveObject configObject version managers manager
        let (remaining, _) ←
          u.update orders liveObject newObject version recorded manager force
        u.finish liveObject newObject remaining) := by
  simp only [apply, prepare, finish, recordedSet, bind_assoc, pure_bind]
  rfl

variable {u : Updater N E} {orders : Orders} {liveObject configObject : TypedValue N}
  {version : APIVersion} {managers : ManagedFields N} {manager : String}

theorem prepare_eq_ok {recorded : ManagedFields N} {newObject : TypedValue N} :
    u.prepare orders liveObject configObject version managers manager =
        .ok (recorded, newObject) ↔
      ∃ reconciled merged configSet,
        u.reconcileManagedFieldsWithSchemaChanges orders liveObject managers = .ok reconciled ∧
        liveObject.merge configObject = .ok merged ∧ configObject.toFieldSet = .ok configSet ∧
        recorded = reconciled.set manager ⟨u.recordedSet version configSet, version, true⟩ ∧
        u.prune orders merged recorded manager (reconciled.get? manager) =
          .ok (some newObject) := by
  unfold prepare
  simp only [bind_eq_ok, lift_eq_ok, wrap_eq_ok, deref_eq_ok]
  constructor
  · rintro ⟨reconciled, isReconciled, merged, isMerged, configSet, isSet, _, isPruned, _, rfl,
      finished⟩
    cases finished
    exact ⟨reconciled, merged, configSet, isReconciled, isMerged, isSet, rfl, isPruned⟩
  · rintro ⟨reconciled, merged, configSet, isReconciled, isMerged, isSet, rfl, isPruned⟩
    exact ⟨reconciled, isReconciled, merged, isMerged, configSet, isSet, _, isPruned, newObject, rfl,
      rfl⟩

/-- A successful `Apply`, step by step. -/
theorem apply_eq_ok {force : Bool} {object : Option (TypedValue N)} {remaining : ManagedFields N} :
    u.apply orders liveObject configObject version managers manager force =
        .ok (object, remaining) ↔
      ∃ recorded newObject settled comparison,
        u.prepare orders liveObject configObject version managers manager =
          .ok (recorded, newObject) ∧
        u.update orders liveObject newObject version recorded manager force =
          .ok (settled, comparison) ∧
        u.finish liveObject newObject settled = .ok (object, remaining) := by
  rw [apply_eq]
  simp only [bind_eq_ok, Prod.exists]
  constructor
  · rintro ⟨recorded, newObject, prepared, settled, comparison, updated, finished⟩
    exact ⟨recorded, newObject, settled, comparison, prepared, updated, finished⟩
  · rintro ⟨recorded, newObject, settled, comparison, prepared, updated, finished⟩
    exact ⟨recorded, newObject, prepared, settled, comparison, updated, finished⟩

theorem finish_managers {newObject : TypedValue N} {object : Option (TypedValue N)}
    {after : ManagedFields N}
    (ok : u.finish liveObject newObject managers = .ok (object, after)) : after = managers := by
  unfold finish at ok
  split at ok
  · cases ok
    rfl
  · obtain ⟨same, _, finished⟩ := bind_eq_ok.mp ok
    cases finished
    rfl

/-- No object is returned only if the value has not changed. -/
theorem finish_object {newObject : TypedValue N} {object : Option (TypedValue N)}
    {after : ManagedFields N}
    (ok : u.finish liveObject newObject managers = .ok (object, after)) :
    object = some newObject ∨ object = none ∧ ∃ live new, liveObject.value = some live ∧
      newObject.value = some new ∧ (live == new) = true := by
  unfold finish at ok
  split at ok
  · cases ok
    exact Or.inl rfl
  · obtain ⟨same, compared, finished⟩ := bind_eq_ok.mp ok
    cases finished
    unfold sameValue at compared
    split at compared
    · next live new isLive isNew =>
        cases compared
        split
        · next equal => exact Or.inr ⟨rfl, live, new, isLive, isNew, equal⟩
        · exact Or.inl rfl
    · cases compared

end StructuredMergeDiff.Merge.Updater
