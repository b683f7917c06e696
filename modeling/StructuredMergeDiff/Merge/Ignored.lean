import StructuredMergeDiff.Library.Runs
import StructuredMergeDiff.Merge.Conflicts

/-!
Contract: ignored fields along runs of the updater.

Every set that enters the managers has the fields ignored in its version taken
out, schema changes add only paths above owned ones, and everything else only
takes paths away.

Owns: `Call`, `perform`, `serve`, the absence of ignored fields from every reachable
state and every conflict, and that whoever is recorded owns something.
-/

namespace StructuredMergeDiff.Merge

open Library Typed FiniteMap

variable {N E : Type} [Numeric N]

/-! ## Calls -/

inductive Operation where
  | update
  | apply (force : Bool)

/-- A call of `Update` or `Apply`, with everything but the managers. -/
structure Call (N : Type) where
  operation : Operation
  orders : Orders
  liveObject : TypedValue N
  object : TypedValue N
  version : APIVersion
  manager : String

namespace Updater

variable (u : Updater N E)

def perform (managers : ManagedFields N) (call : Call N) :
    Except (Failure N E) (Option (TypedValue N) × ManagedFields N) :=
  match call.operation with
  | .update => do
      let (object, managers) ← u.performUpdate call.orders call.liveObject call.object call.version
        managers call.manager
      pure (some object, managers)
  | .apply force =>
      u.apply call.orders call.liveObject call.object call.version managers call.manager force

/-- The managers after a call; one that fails leaves them as they were. -/
def serve (managers : ManagedFields N) (call : Call N) : ManagedFields N :=
  match u.perform managers call with
  | .ok (_, after) => after
  | .error _ => managers

/-- No manager owns a field that is ignored in its version. -/
def OwnsNoIgnored (managers : ManagedFields N) : Prop :=
  ∀ manager managerSet path, managers.get? manager = some managerSet →
    managerSet.set.has path = true → ¬ u.Ignored managerSet.apiVersion path

/-- No conflict is about a field that is ignored in the version of its manager. -/
def ReportsNoIgnored (managers : ManagedFields N) (reported : List (Conflict N)) : Prop :=
  ∀ conflict ∈ reported, ∀ managerSet, managers.get? conflict.manager = some managerSet →
    ¬ u.Ignored managerSet.apiVersion conflict.path

variable {u} {orders : Orders} {oldObject newObject liveObject : TypedValue N}
  {version : APIVersion} {managers reconciled remaining : ManagedFields N} {workflow : String}

theorem ignored_append {path : Path N} (ignored : u.Ignored version path) (rest : Path N) :
    u.Ignored version (path ++ rest) := by
  obtain ⟨s, isSet, first, isPrefix, holds⟩ := ignored
  exact ⟨s, isSet, first, isPrefix.trans (List.prefix_append path rest), holds⟩

/-! ## One step at a time -/

section Lawful

variable [Consistent N]

theorem reconcile_ownsNoIgnored (wellFormed : WellFormed managers)
    (ownsNone : u.OwnsNoIgnored managers)
    (ok : u.reconcileManagedFieldsWithSchemaChanges orders liveObject managers = .ok reconciled) :
    u.OwnsNoIgnored reconciled := by
  intro manager kept path held holds ignored
  rw [reconcile_spec wellFormed.distinct ok] at held
  obtain ⟨managerSet, recorded, isKept⟩ := Option.bind_eq_some_iff.mp held
  obtain ⟨sameVersion, _, _, leads⟩ :=
    reconciledEntry_spec (wellFormed.canonical _ _ recorded) isKept
  obtain ⟨rest, holdsRest⟩ := leads path holds
  rw [sameVersion] at ignored
  exact ownsNone manager managerSet _ recorded holdsRest (ignored_append ignored rest)

/-- The comparison that counts in a version is well formed. -/
theorem comparisonFor_canonical {comparison compared found : Comparison N} {managed : APIVersion}
    (ignores : u.IgnoresWellFormed) (isCompared : oldObject.compare newObject = .ok compared)
    (excluded : comparison = compared.excludeFields (u.ignoredFields.get? version))
    (ok : u.comparisonFor oldObject newObject version comparison managed = .ok (some found)) :
    found.Canonical := by
  obtain ⟨raw, isRaw, rfl⟩ := comparisonFor_eq_some isCompared excluded ok
  exact (excludeFields_spec isRaw.canonical (ignores managed)).1

section

variable {force : Bool} {comparison : Comparison N} (wellFormed : WellFormed managers)
  (ignores : u.IgnoresWellFormed)
  (ok : u.update orders oldObject newObject version managers workflow force = .ok (remaining, comparison))

include wellFormed ignores ok

/-- What `update` leaves to a manager is part of what it owned, in the same version. -/
theorem update_shrinks {manager : String} {left : VersionedSet N}
    (held : remaining.get? manager = some left) :
    ∃ managerSet, managers.get? manager = some managerSet ∧
      left.apiVersion = managerSet.apiVersion ∧ left.set.Canonical ∧
      ∀ path, left.set.has path = true → managerSet.set.has path = true := by
  obtain ⟨compared, _, isCompared, excluded, _⟩ := update_eq_ok.mp ok
  obtain ⟨_, _, entries⟩ := update_spec wellFormed.distinct ok
  rw [entries] at held
  obtain ⟨managerSet, recorded, isLeft⟩ := Option.bind_eq_some_iff.mp held
  have canonical := wellFormed.canonical manager managerSet recorded
  refine ⟨managerSet, recorded, ?_⟩
  unfold afterUpdate at isLeft
  split at isLeft
  · rw [eq_of_nonEmptyEntry isLeft]
    exact ⟨rfl, canonical, fun _ holds => holds⟩
  · split at isLeft
    · next found counts =>
        have canonicalFound := comparisonFor_canonical ignores isCompared excluded counts
        obtain ⟨canonicalLeft, leftHas⟩ := leftTo_spec canonical canonicalFound
        rw [eq_of_nonEmptyEntry isLeft]
        exact ⟨rfl, canonicalLeft, fun path holds => ((leftHas path).mp holds).1⟩
    · cases isLeft

theorem update_wellFormed : WellFormed remaining where
  distinct := (update_spec wellFormed.distinct ok).1
  canonical manager left held := by
    obtain ⟨_, _, _, canonical, _⟩ := update_shrinks wellFormed ignores ok held
    exact canonical

end

theorem update_ownsNoIgnored {force : Bool} {comparison : Comparison N}
    (wellFormed : WellFormed managers) (ignores : u.IgnoresWellFormed)
    (ownsNone : u.OwnsNoIgnored managers)
    (ok : u.update orders oldObject newObject version managers workflow force =
      .ok (remaining, comparison)) : u.OwnsNoIgnored remaining := by
  intro manager left path held holds
  obtain ⟨managerSet, recorded, sameVersion, _, part⟩ :=
    update_shrinks wellFormed ignores ok held
  rw [sameVersion]
  exact ownsNone manager managerSet path recorded (part path holds)

/-- The managers are well formed and own nothing that is ignored. -/
structure Clean (u : Updater N E) (managers : ManagedFields N) : Prop where
  wellFormed : WellFormed managers
  ownsNone : u.OwnsNoIgnored managers

omit [Consistent N] in
theorem clean_nil (u : Updater N E) : u.Clean [] :=
  ⟨⟨List.nodup_nil, fun _ _ held => by cases held⟩, fun _ _ _ held => by cases held⟩

section

variable (clean : u.Clean managers)

include clean

theorem clean_reconcile
    (ok : u.reconcileManagedFieldsWithSchemaChanges orders liveObject managers = .ok reconciled) :
    u.Clean reconciled :=
  ⟨clean.wellFormed.reconciled ok, reconcile_ownsNoIgnored clean.wellFormed clean.ownsNone ok⟩

section

variable (ignores : u.IgnoresWellFormed)

include ignores

theorem clean_update {force : Bool} {comparison : Comparison N}
    (ok : u.update orders oldObject newObject version managers workflow force =
      .ok (remaining, comparison)) : u.Clean remaining :=
  ⟨update_wellFormed clean.wellFormed ignores ok,
    update_ownsNoIgnored clean.wellFormed ignores clean.ownsNone ok⟩

/-- `Update` records nothing that is ignored in its version. -/
theorem clean_recordUpdate {compared : Comparison N} (canonical : compared.Canonical)
    (manager : String) :
    u.Clean (u.recordUpdate version managers manager
      (compared.excludeFields (u.ignoredFields.get? version))) := by
  have canonicalOwned := clean.wellFormed.ownedSet_canonical manager
  have own : EntryIs (u.recordUpdate version managers manager
      (compared.excludeFields (u.ignoredFields.get? version))) manager version false _ :=
    entryIs_recordUpdate ignores canonicalOwned canonical rfl
  have distinct : FiniteMap.Distinct (u.recordUpdate version managers manager
      (compared.excludeFields (u.ignoredFields.get? version))) := by
    unfold recordUpdate
    dsimp only
    split
    · exact erase_distinct clean.wellFormed.distinct _
    · exact set_distinct clean.wellFormed.distinct _ _
  have entries : ∀ other managerSet, (u.recordUpdate version managers manager
      (compared.excludeFields (u.ignoredFields.get? version))).get? other = some managerSet →
      managerSet.set.Canonical ∧ ∀ path, managerSet.set.has path = true →
        ¬ u.Ignored managerSet.apiVersion path := by
    intro other managerSet held
    by_cases same : other = manager
    · subst same
      rcases own with ⟨absent, _⟩ | ⟨s, present, canonicalSet, _, hasIff⟩
      · rw [absent] at held
        cases held
      · rw [present] at held
        cases held
        exact ⟨canonicalSet, fun path holds => ((hasIff path).mp holds).2⟩
    · rw [get?_recordUpdate_of_ne same] at held
      exact ⟨clean.wellFormed.canonical other managerSet held,
        fun path => clean.ownsNone other managerSet path held⟩
  exact ⟨⟨distinct, fun other managerSet held => (entries other managerSet held).1⟩,
    fun other managerSet path held => (entries other managerSet held).2 path⟩

/-- `Apply` records nothing that is ignored in its version. -/
theorem clean_prepare {configObject : TypedValue N} {recorded : ManagedFields N} {manager : String}
    (ok : u.prepare orders liveObject configObject version managers manager =
      .ok (recorded, newObject)) : u.Clean recorded := by
  refine ⟨(prepare_wellFormed clean.wellFormed ignores ok).1, ?_⟩
  obtain ⟨reconciled, merged, configSet, isReconciled, _, isSet, rfl, _⟩ := prepare_eq_ok.mp ok
  intro other managerSet path held holds
  rw [get?_set] at held
  split at held
  · cases held
    unfold recordedSet at holds
    split at holds
    · next ignored isIgnored =>
        rw [FieldSet.has_recursiveDifference (toFieldSet_canonical isSet)
          (ignores version ignored isIgnored)] at holds
        rintro ⟨s, isSet, covers⟩
        rw [isIgnored] at isSet
        cases isSet
        exact holds.2 covers
    · next none =>
        rintro ⟨s, isSet, _⟩
        rw [none] at isSet
        cases isSet
  · exact (clean_reconcile clean isReconciled).ownsNone other managerSet path held holds

theorem clean_serve (call : Call N) :
    u.Clean (u.serve managers call) := by
  unfold serve
  split
  · next object after ok =>
      unfold perform at ok
      split at ok
      · obtain ⟨⟨updated, result⟩, isUpdated, finished⟩ := bind_eq_ok.mp ok
        cases finished
        obtain ⟨reconciled, remaining, c, isReconciled, settled, _, rfl⟩ :=
          performUpdate_eq_ok.mp isUpdated
        obtain ⟨compared, _, isCompared, rfl, _⟩ := update_eq_ok.mp settled
        exact clean_recordUpdate (clean_update (clean_reconcile clean isReconciled) ignores settled)
          ignores (compare_canonical isCompared) call.manager
      · obtain ⟨recorded, newObject, settled, comparison, prepared, updated, finished⟩ :=
          apply_eq_ok.mp ok
        rw [finish_managers finished]
        exact clean_update (clean_prepare clean ignores prepared) ignores updated
  · exact clean

end

end

/-- A path that a conflict is reported on is not ignored in its manager's version. -/
theorem update_reportsNoIgnored {force : Bool} {reported : List (Conflict N)}
    (wellFormed : WellFormed managers) (ignores : u.IgnoresWellFormed)
    (fails : u.update orders oldObject newObject version managers workflow force =
      .error (.conflicts reported)) {conflict : Conflict N} (member : conflict ∈ reported) :
    conflict.manager ≠ workflow ∧ ∃ managerSet, managers.get? conflict.manager = some managerSet ∧
      ¬ u.Ignored managerSet.apiVersion conflict.path := by
  obtain ⟨_, compared, detection, isCompared, detected, rfl⟩ := update_eq_conflicts fails
  obtain ⟨sound, _, _⟩ := detection_spec wellFormed.distinct detected
  obtain ⟨⟨manager, collected⟩, inConflicts, reportedHere⟩ := List.mem_flatMap.mp member
  obtain ⟨path, listed, rfl⟩ := List.mem_map.mp reportedHere
  have isCollected := get?_of_mem sound.conflicts
    ((orders.reported.perm detection.conflicts).mem_iff.mp inConflicts)
  obtain ⟨other, managerSet, found, held, counts, isConflictSet⟩ :=
    detection_conflicts_inv wellFormed.distinct detected isCollected
  refine ⟨other, managerSet, held, ?_⟩
  obtain ⟨raw, isRaw, rfl⟩ := comparisonFor_eq_some isCompared rfl counts
  obtain ⟨canonicalFound, excludedHas⟩ := excludeFields_spec isRaw.canonical
    (ignores managerSet.apiVersion)
  obtain ⟨canonicalConflict, conflictHas⟩ := conflictSet_spec
    (wellFormed.canonical manager managerSet held) canonicalFound
  dsimp only at listed
  rw [isConflictSet] at listed
  have holds := FieldSet.has_of_mem_iterate canonicalConflict listed
  rw [conflictHas, Bool.and_eq_true, Bool.or_eq_true] at holds
  rcases holds.2 with modified | added
  · exact ((excludedHas path).2.1.mp modified).2
  · exact ((excludedHas path).2.2.mp added).2

omit [Consistent N] in
theorem performUpdate_ne_conflicts (manager : String) (reported : List (Conflict N)) :
    u.performUpdate orders liveObject newObject version managers manager ≠
      .error (.conflicts reported) := by
  intro fails
  have exceptional := exceptional_conflicts (N := N) (E := E)
  unfold performUpdate at fails
  obtain ⟨reconciled, _, fails⟩ := (reconcile_avoids exceptional u orders liveObject
    managers).bind_inv ⟨reported, rfl⟩ fails
  cases updated : u.update orders liveObject newObject version reconciled manager true with
  | error failure =>
      rw [updated] at fails
      cases fails
      exact absurd (update_eq_conflicts updated).1 (by simp)
  | ok result =>
      rw [updated] at fails
      cases fails

/-- No call reports a conflict on an ignored field. -/
theorem perform_reportsNoIgnored (clean : u.Clean managers) (ignores : u.IgnoresWellFormed)
    {call : Call N} {reported : List (Conflict N)}
    (fails : u.perform managers call = .error (.conflicts reported)) :
    u.ReportsNoIgnored managers reported := by
  intro conflict member managerSet held
  unfold perform at fails
  split at fails
  · cases updated : u.performUpdate call.orders call.liveObject call.object call.version managers
      call.manager with
    | error failure =>
        rw [updated] at fails
        cases fails
        exact absurd updated (performUpdate_ne_conflicts _ _)
    | ok result =>
        rw [updated] at fails
        cases fails
  · obtain ⟨recorded, newObject, prepared, fails⟩ := apply_eq_conflicts fails
    obtain ⟨other, recordedSet, recordedHeld, notIgnored⟩ := update_reportsNoIgnored
      (clean_prepare clean ignores prepared).wellFormed ignores fails member
    obtain ⟨reconciled, _, _, isReconciled, _, _, rfl, _⟩ := prepare_eq_ok.mp prepared
    rw [get?_set, if_neg other.symm, reconcile_spec clean.wellFormed.distinct isReconciled,
      held, Option.bind_some] at recordedHeld
    rwa [(reconciledEntry_spec (clean.wellFormed.canonical _ _ held) recordedHeld).1] at notIgnored

end Lawful

end Updater

/-! ## Runs -/

/-- An updater that ignores one number of the field `list`. -/
def ignoringNumber (n : N) : Updater N Unit :=
  { Updater.plain with ignoredFields := [("v1", FieldSet.ofPaths [numberPath n])] }

/-- An application of numbers in the field `list`. -/
def applyNumbers (items : List (Value N)) : Call N where
  operation := .apply false
  orders := .stored
  liveObject := numberSetObject []
  object := numberSetObject items
  version := "v1"
  manager := "applier"

/-- Everybody who is recorded owns something. -/
def Owning (managers : ManagedFields N) : Prop :=
  ∀ name, (managers.get? name).bind nonEmptyEntry = managers.get? name

/-- A call records nobody who owns nothing. -/
theorem Updater.serve_owning [Consistent N] {u : Updater N E} {managers : ManagedFields N}
    (clean : u.Clean managers) (ignores : u.IgnoresWellFormed) (owning : Owning managers)
    (call : Call N) : Owning (u.serve managers call) := by
  unfold serve
  split
  · next object after ok =>
      unfold perform at ok
      split at ok
      · obtain ⟨⟨updated, result⟩, isUpdated, finished⟩ := bind_eq_ok.mp ok
        cases finished
        obtain ⟨reconciled, remaining, c, isReconciled, settled, _, rfl⟩ :=
          performUpdate_eq_ok.mp isUpdated
        have left := update_owning (clean_reconcile clean isReconciled).wellFormed.distinct settled
        intro name
        by_cases isCaller : name = call.manager
        · unfold recordUpdate
          dsimp only
          split
          · rw [get?_erase, if_pos isCaller.symm]
            rfl
          · next nonEmpty =>
              rw [get?_set, if_pos isCaller.symm]
              exact if_neg nonEmpty
        · rw [get?_recordUpdate_of_ne isCaller]
          exact left name
      · obtain ⟨recorded, newObject, settled, comparison, prepared, updated, finished⟩ :=
          apply_eq_ok.mp ok
        rw [finish_managers finished]
        exact update_owning (clean_prepare clean ignores prepared).wellFormed.distinct updated
  · exact owning

/-- Whatever is called, in whatever order: nobody is ever recorded who owns nothing. -/
theorem recorded_owns [Consistent N] (u : Updater N E) (ignores : u.IgnoresWellFormed)
    (calls : List (Call N)) :
    ∀ manager entry, (run u.serve [] calls).get? manager = some entry →
      ∃ path, entry.set.has path = true := by
  intro manager entry held
  obtain ⟨clean, owning⟩ := run_invariant (fun managers => u.Clean managers ∧ Owning managers)
    (fun _ call kept _ => ⟨Updater.clean_serve kept.1 ignores call,
      Updater.serve_owning kept.1 ignores kept.2 call⟩)
    ⟨Updater.clean_nil u, fun _ => rfl⟩ (guarded_true [] calls)
  have nonEmpty := owning manager
  by_contra none
  have empty := (FieldSet.isEmpty_iff_has (clean.wellFormed.canonical _ _ held)).mpr
    (by simpa using none)
  simp [held, nonEmptyEntry, empty] at nonEmpty

theorem applied_number_owned : ∃ entry,
    (run (Updater.plain (E := Unit)).serve [] [applyNumbers [.number (1 : Int)]]).get? "applier" =
      some entry ∧ ∃ path, entry.set.has path = true :=
  .imp (fun _ held => ⟨held, recorded_owns .plain (fun _ _ none => by cases none) _ _ _ held⟩)
    (Option.isSome_iff_exists.mp (by decide +kernel))

end StructuredMergeDiff.Merge
