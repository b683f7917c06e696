import StructuredMergeDiff.Merge.ApplySpec
import StructuredMergeDiff.Typed.Unfolding

/-!
Contract: the failures in which the operations of the updater can end.

Errors of the converter, validation errors and panics may come from anywhere.
Conflicts come from `update` alone, and a call that does not return from
`Merge` alone.

Owns: `Avoids`, its rules for monadic code, and the failures each operation
avoids.
-/

namespace StructuredMergeDiff.Merge

open Library Typed

variable {N E α β : Type} [Numeric N]

/-- A kind of failure apart from errors and panics. -/
structure Exceptional (bad : Failure N E → Prop) : Prop where
  converter : ∀ texts err, ¬ bad (.converter texts err)
  errors : ∀ texts errs, ¬ bad (.errors texts errs)
  panic : ¬ bad .panic

omit [Numeric N] in
theorem exceptional_diverges : Exceptional fun failure : Failure N E => failure = .diverges := by
  refine ⟨?_, ?_, ?_⟩ <;> simp

omit [Numeric N] in
theorem exceptional_conflicts :
    Exceptional fun failure : Failure N E => ∃ reported, failure = .conflicts reported := by
  refine ⟨?_, ?_, ?_⟩ <;> simp

/-- The call does not end in a failure of this kind. -/
def Avoids (bad : Failure N E → Prop) (result : Except (Failure N E) α) : Prop :=
  ∀ failure, result = .error failure → ¬ bad failure

section Rules

variable {bad : Failure N E → Prop}

section

omit [Numeric N]

theorem avoids_ok (a : α) : Avoids bad (.ok a) := by
  intro failure isError
  cases isError

theorem avoids_error {failure : Failure N E} (other : ¬ bad failure) :
    Avoids bad (.error failure : Except (Failure N E) α) := by
  intro failure' isError
  cases isError
  exact other

theorem avoids_bind {result : Except (Failure N E) α} {next : α → Except (Failure N E) β}
    (avoids : Avoids bad result) (later : ∀ a, Avoids bad (next a)) :
    Avoids bad (result >>= next) := by
  cases result with
  | error failure => exact avoids_error (avoids failure rfl)
  | ok a => exact later a

/-- A bad failure of a sequence comes from the part that does not avoid it. -/
theorem Avoids.bind_inv {result : Except (Failure N E) α} {next : α → Except (Failure N E) β}
    {failure : Failure N E} (avoids : Avoids bad result) (isBad : bad failure)
    (fails : (result >>= next) = .error failure) :
    ∃ a, result = .ok a ∧ next a = .error failure := by
  cases result with
  | error other =>
      cases fails
      exact absurd isBad (avoids _ rfl)
  | ok a => exact ⟨a, rfl, fails⟩

theorem avoids_wrap (exceptional : Exceptional bad) {result : Except (Failure N E) α}
    (text : String) (avoids : Avoids bad result) :
    Avoids bad (result.mapError (Failure.wrap text)) := by
  cases result with
  | ok a => exact avoids_ok a
  | error failure =>
      have other := avoids failure rfl
      apply avoids_error
      cases failure with
      | diverges => exact other
      | conflicts _ => exact other
      | converter _ _ => exact exceptional.converter _ _
      | errors _ _ => exact exceptional.errors _ _
      | panic => exact other

theorem avoids_lift (exceptional : Exceptional bad) {result : Except (Typed.Failure N) α}
    (text : String) (ends : result = .error .diverges → ¬ bad .diverges) :
    Avoids bad (lift text result : Except (Failure N E) α) := by
  match result, ends with
  | .ok a, _ => exact avoids_ok a
  | .error (.errors _), _ => exact avoids_error (exceptional.errors _ _)
  | .error .panic, _ => exact avoids_error exceptional.panic
  | .error .diverges, ends => exact avoids_error (ends rfl)

theorem avoids_deref (exceptional : Exceptional bad) (object : Option (TypedValue N)) :
    Avoids bad (deref object : Except (Failure N E) (TypedValue N)) := by
  cases object with
  | none => exact avoids_error exceptional.panic
  | some tv => exact avoids_ok tv

theorem avoids_foldlM {step : β → α → Except (Failure N E) β}
    (avoids : ∀ state a, Avoids bad (step state a)) (list : List α) (start : β) :
    Avoids bad (list.foldlM step start) := by
  induction list generalizing start with
  | nil => exact avoids_ok start
  | cons a rest ih =>
      rw [List.foldlM_cons]
      exact avoids_bind (avoids start a) ih

end

end Rules

/-! ## Operations on typed values return -/

theorem toFieldSet_returns (tv : TypedValue N) : tv.toFieldSet ≠ .error .diverges := by
  unfold TypedValue.toFieldSet
  split
  · dsimp only
    split <;> simp
  · split
    · simp
    · split <;> simp

theorem compare_returns (lhs rhs : TypedValue N) : lhs.compare rhs ≠ .error .diverges := by
  unfold TypedValue.compare
  dsimp only
  split
  · simp
  · split <;> simp

theorem removeItems_returns (tv : TypedValue N) (items : FieldSet N) :
    tv.removeItems items ≠ .error .diverges := by
  unfold TypedValue.removeItems TypedValue.removing
  split
  · simp
  · split
    · simp
    · split <;> simp

/-- Over a consistent number domain `Merge` returns. -/
theorem merge_returns [Consistent N] (lhs rhs : TypedValue N) :
    lhs.merge rhs ≠ .error .diverges := by
  unfold TypedValue.merge
  dsimp only
  split
  · simp
  · split
    · next endless =>
        have ends := mergeWalk_isSome lhs.schema.val lhs.typeRef lhs.value rhs.value
        rw [endless] at ends
        cases ends
    · split <;> simp

section Operations

variable {bad : Failure N E → Prop} (exceptional : Exceptional bad) (text : String)

include exceptional

theorem avoids_toFieldSet (tv : TypedValue N) :
    Avoids bad (lift text tv.toFieldSet : Except (Failure N E) (FieldSet N)) :=
  avoids_lift exceptional text fun endless => absurd endless (toFieldSet_returns tv)

theorem avoids_compare (lhs rhs : TypedValue N) :
    Avoids bad (lift text (lhs.compare rhs) : Except (Failure N E) (Comparison N)) :=
  avoids_lift exceptional text fun endless => absurd endless (compare_returns lhs rhs)

theorem avoids_removeItems (tv : TypedValue N) (items : FieldSet N) :
    Avoids bad (lift text (tv.removeItems items) : Except (Failure N E) (TypedValue N)) :=
  avoids_lift exceptional text fun endless => absurd endless (removeItems_returns tv items)

end Operations

namespace Updater

/-! ## Operations of the updater -/

section Prepare

variable {bad : Failure N E → Prop} (exceptional : Exceptional bad) (u : Updater N E)
  (orders : Orders)

include exceptional

theorem compareAt_avoids (oldObject newObject : TypedValue N) (version : APIVersion) :
    Avoids bad (u.compareAt oldObject newObject version) := by
  unfold compareAt
  split
  · split
    · exact avoids_ok _
    · exact avoids_error (exceptional.converter _ _)
  · split
    · split
      · exact avoids_ok _
      · exact avoids_error (exceptional.converter _ _)
    · refine avoids_bind (avoids_deref exceptional _) fun old => ?_
      refine avoids_bind (avoids_deref exceptional _) fun new => ?_
      exact avoids_bind (avoids_compare exceptional _ old new) fun _ => avoids_ok _

theorem detectManager_avoids (oldObject newObject : TypedValue N) (workflow : String)
    (detection : Detection N) (entry : String × VersionedSet N) :
    Avoids bad (u.detectManager oldObject newObject workflow detection entry) := by
  unfold detectManager
  dsimp only
  split
  · exact avoids_ok _
  · split
    · exact avoids_ok _
    · split
      · next failed =>
          exact avoids_error (compareAt_avoids exceptional u oldObject newObject _ _ failed)
      · exact avoids_ok _
      · exact avoids_ok _

theorem reconcile_avoids (liveObject : TypedValue N) (managers : ManagedFields N) :
    Avoids bad (u.reconcileManagedFieldsWithSchemaChanges orders liveObject managers) := by
  unfold reconcileManagedFieldsWithSchemaChanges
  refine avoids_foldlM (fun result entry => ?_) _ _
  unfold reconcileManager
  dsimp only
  split
  · exact avoids_ok _
  · split
    · exact avoids_error (exceptional.converter _ _)
    · refine avoids_bind (avoids_deref exceptional _) fun tv => ?_
      split
      · exact avoids_error (exceptional.errors _ _)
      · exact avoids_ok _
      · exact avoids_ok _

theorem addBackOwnedItemsForVersion_avoids
    (objects : Option (TypedValue N) × Option (TypedValue N)) (version : APIVersion)
    (managed : FieldSet N) :
    Avoids bad (u.addBackOwnedItemsForVersion objects version managed) := by
  unfold addBackOwnedItemsForVersion
  dsimp only
  split
  · split
    · exact avoids_ok _
    · exact avoids_error (exceptional.converter _ _)
  · split
    · split
      · exact avoids_ok _
      · exact avoids_error (exceptional.converter _ _)
    · refine avoids_bind (avoids_deref exceptional _) fun merged => ?_
      refine avoids_bind (avoids_toFieldSet exceptional _ _) fun mergedSet => ?_
      refine avoids_bind (avoids_deref exceptional _) fun pruned => ?_
      refine avoids_bind (avoids_toFieldSet exceptional _ _) fun prunedSet => ?_
      exact avoids_bind (avoids_removeItems exceptional _ _ _) fun _ => avoids_ok _

theorem addBackOwnedItems_avoids (merged pruned : TypedValue N) (prunedVersion : APIVersion)
    (managers : ManagedFields N) :
    Avoids bad (u.addBackOwnedItems orders merged pruned prunedVersion managers) := by
  unfold addBackOwnedItems
  dsimp only
  have step := fun (objects : Option (TypedValue N) × Option (TypedValue N))
    (entry : APIVersion × FieldSet N) =>
    addBackOwnedItemsForVersion_avoids exceptional u objects entry.1 entry.2
  split
  · refine avoids_bind (addBackOwnedItemsForVersion_avoids exceptional u _ _ _) fun first => ?_
    exact avoids_bind (avoids_foldlM step _ _) fun _ => avoids_ok _
  · refine avoids_bind (avoids_ok _) fun first => ?_
    exact avoids_bind (avoids_foldlM step _ _) fun _ => avoids_ok _

theorem addBackDanglingItems_avoids (merged : TypedValue N) (pruned : Option (TypedValue N))
    (lastSet : VersionedSet N) : Avoids bad (u.addBackDanglingItems merged pruned lastSet) := by
  unfold addBackDanglingItems
  split
  · split
    · exact avoids_ok _
    · exact avoids_error (exceptional.converter _ _)
  · refine avoids_bind (avoids_deref exceptional _) fun converted => ?_
    refine avoids_bind (avoids_toFieldSet exceptional _ _) fun prunedSet => ?_
    refine avoids_bind (avoids_toFieldSet exceptional _ _) fun mergedSet => ?_
    exact avoids_removeItems exceptional _ _ _

theorem prune_avoids (merged : TypedValue N) (managers : ManagedFields N)
    (applyingManager : String) (lastSet : Option (VersionedSet N)) :
    Avoids bad (u.prune orders merged managers applyingManager lastSet) := by
  unfold prune
  split
  · exact avoids_ok _
  · split
    · exact avoids_ok _
    · split
      · split
        · exact avoids_ok _
        · exact avoids_error (exceptional.converter _ _)
      · refine avoids_bind (avoids_deref exceptional _) fun converted => ?_
        refine avoids_bind (avoids_removeItems exceptional _ _ _) fun pruned => ?_
        refine avoids_bind (avoids_wrap exceptional _
          (addBackOwnedItems_avoids exceptional u orders _ _ _ _)) fun pruned => ?_
        refine avoids_bind (avoids_wrap exceptional _
          (addBackDanglingItems_avoids exceptional u _ _ _)) fun pruned => ?_
        split
        · exact avoids_error exceptional.panic
        · split
          · exact avoids_error (exceptional.converter _ _)
          · exact avoids_ok _

theorem prepare_avoids (liveObject configObject : TypedValue N)
    (ends : liveObject.merge configObject = .error .diverges → ¬ bad .diverges)
    (version : APIVersion) (managers : ManagedFields N) (manager : String) :
    Avoids bad (u.prepare orders liveObject configObject version managers manager) := by
  unfold prepare
  refine avoids_bind (reconcile_avoids exceptional u orders liveObject managers)
    fun reconciled => ?_
  refine avoids_bind (avoids_lift exceptional _ ends) fun merged => ?_
  refine avoids_bind (avoids_toFieldSet exceptional _ configObject) fun configSet => ?_
  refine avoids_bind (avoids_wrap exceptional _ (prune_avoids exceptional u orders merged _ _ _))
    fun pruned => ?_
  exact avoids_bind (avoids_deref exceptional pruned) fun newObject => avoids_ok _

theorem finish_avoids (liveObject newObject : TypedValue N) (managers : ManagedFields N) :
    Avoids bad (u.finish liveObject newObject managers) := by
  unfold finish
  split
  · exact avoids_ok _
  · refine avoids_bind ?_ fun _ => avoids_ok _
    unfold sameValue
    split
    · exact avoids_ok _
    · exact avoids_error exceptional.panic

end Prepare

/-- Conflicts apart, `update` avoids what is exceptional. -/
theorem update_avoids {bad : Failure N E → Prop} (exceptional : Exceptional bad)
    (notConflicts : ∀ reported, ¬ bad (.conflicts reported)) (u : Updater N E) (orders : Orders)
    (oldObject newObject : TypedValue N) (version : APIVersion) (managers : ManagedFields N)
    (workflow : String) (force : Bool) :
    Avoids bad (u.update orders oldObject newObject version managers workflow force) := by
  unfold update
  refine avoids_bind (avoids_compare exceptional _ oldObject newObject) fun compared => ?_
  refine avoids_bind (avoids_foldlM (detectManager_avoids exceptional u _ _ _) _ _)
    fun detection => ?_
  split
  · exact avoids_error (notConflicts _)
  · exact avoids_ok _

/-- Conflicts that `update` fails with are those it has collected, without force. -/
theorem update_eq_conflicts {u : Updater N E} {orders : Orders} {oldObject newObject : TypedValue N}
    {version : APIVersion} {managers : ManagedFields N} {workflow : String} {force : Bool}
    {reported : List (Conflict N)}
    (fails : u.update orders oldObject newObject version managers workflow force =
      .error (.conflicts reported)) :
    force = false ∧ ∃ compared detection, oldObject.compare newObject = .ok compared ∧
      (orders.managers.arrange managers).foldlM (u.detectManager oldObject newObject workflow)
        (.start version (compared.excludeFields (u.ignoredFields.get? version)) managers) =
          .ok detection ∧
      reported = conflictsFromManagers orders detection.conflicts := by
  have exceptional := exceptional_conflicts (N := N) (E := E)
  unfold update at fails
  obtain ⟨compared, isCompared, fails⟩ := (avoids_compare exceptional _ oldObject newObject).bind_inv
    ⟨reported, rfl⟩ fails
  obtain ⟨detection, detected, fails⟩ := (avoids_foldlM
    (detectManager_avoids exceptional u oldObject newObject workflow) _ _).bind_inv
    ⟨reported, rfl⟩ fails
  split at fails
  · next unforced =>
      cases fails
      refine ⟨?_, compared, detection, lift_eq_ok.mp isCompared, detected, rfl⟩
      simpa using ((Bool.and_eq_true _ _).mp unforced).1
  · cases fails

/-- Conflicts that `Apply` fails with come from `update`. -/
theorem apply_eq_conflicts {u : Updater N E} {orders : Orders}
    {liveObject configObject : TypedValue N} {version : APIVersion} {managers : ManagedFields N}
    {manager : String} {force : Bool} {reported : List (Conflict N)}
    (fails : u.apply orders liveObject configObject version managers manager force =
      .error (.conflicts reported)) :
    ∃ recorded newObject,
      u.prepare orders liveObject configObject version managers manager =
        .ok (recorded, newObject) ∧
      u.update orders liveObject newObject version recorded manager force =
        .error (.conflicts reported) := by
  have exceptional := exceptional_conflicts (N := N) (E := E)
  rw [apply_eq] at fails
  obtain ⟨⟨recorded, newObject⟩, prepared, fails⟩ := (prepare_avoids exceptional u orders liveObject
    configObject (by simp) version managers manager).bind_inv ⟨reported, rfl⟩ fails
  refine ⟨recorded, newObject, prepared, ?_⟩
  cases updated : u.update orders liveObject newObject version recorded manager force with
  | error failure =>
      dsimp only at fails
      rw [updated] at fails
      cases fails
      rfl
  | ok result =>
      dsimp only at fails
      rw [updated] at fails
      exact absurd ⟨reported, rfl⟩ (finish_avoids exceptional u liveObject newObject result.1 _ fails)

/-- Over a consistent number domain `Apply` returns. -/
theorem apply_returns [Consistent N] (u : Updater N E) (orders : Orders)
    (liveObject configObject : TypedValue N) (version : APIVersion) (managers : ManagedFields N)
    (manager : String) (force : Bool) :
    u.apply orders liveObject configObject version managers manager force ≠ .error .diverges := by
  have exceptional := exceptional_diverges (N := N) (E := E)
  have avoids : Avoids (· = .diverges)
      (u.apply orders liveObject configObject version managers manager force) := by
    rw [apply_eq]
    refine avoids_bind (prepare_avoids exceptional u orders liveObject configObject
      (fun endless => absurd endless (merge_returns _ _)) version managers manager) fun prepared => ?_
    refine avoids_bind (update_avoids exceptional (by simp) u orders _ _ _ _ _ _) fun updated => ?_
    exact finish_avoids exceptional u _ _ _
  exact fun endless => avoids _ endless rfl

end Updater

end StructuredMergeDiff.Merge
