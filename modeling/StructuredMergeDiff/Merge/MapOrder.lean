import StructuredMergeDiff.Merge.Conflicts
import StructuredMergeDiff.Merge.Prune

/-!
Contract: `Apply` and the order of ranges over maps.

What is recorded for a manager does not depend on the order in which managers are visited.
The passes of pruning do depend on theirs: each one is judged by what the one before it has
left. The version in which the applier was recorded comes first, so that one other version
leaves no choice.

Owns: that `Apply` returns the same in every order if there is at most one other version.
-/

namespace StructuredMergeDiff.Merge

open Library Typed FieldSet

variable {N E : Type} [Numeric N]

section

omit [Numeric N]

/-- The managers have the same entries. -/
def SameEntries (first second : ManagedFields N) : Prop :=
  ∀ name, first.get? name = second.get? name

/-- The calls return the same object and the same managers, or both fail. -/
def SameReturn : Except (Failure N E) (Option (TypedValue N) × ManagedFields N) →
    Except (Failure N E) (Option (TypedValue N) × ManagedFields N) → Prop
  | .ok (object, result), .ok (other, otherResult) => object = other ∧ SameEntries result otherResult
  | .error _, .error _ => True
  | _, _ => False

theorem SameEntries.set {first second : ManagedFields N} (same : SameEntries first second)
    (manager : String) (entry : VersionedSet N) :
    SameEntries (first.set manager entry) (second.set manager entry) := by
  intro name
  rw [FiniteMap.get?_set, FiniteMap.get?_set, same]

end

namespace Updater

variable {u : Updater N E}

/-! ## Managers -/

section Managers

variable {liveObject oldObject newObject : TypedValue N} {version : APIVersion}

/-- Whether a round of reconciliation ends well depends on its entry only. -/
theorem reconcileManager_succeeds {result next : ManagedFields N}
    {entry : String × VersionedSet N}
    (step : u.reconcileManager liveObject result entry = .ok next) (other : ManagedFields N) :
    ∃ otherNext, u.reconcileManager liveObject other entry = .ok otherNext := by
  unfold reconcileManager at step ⊢
  dsimp only at step ⊢
  split at step
  · next missing => exact ⟨_, if_pos missing⟩
  · next notMissing =>
      rw [if_neg notMissing]
      split at step
      · cases step
      · obtain ⟨tv, converted, later⟩ := bind_eq_ok.mp step
        simp only [bind_eq_ok]
        split at later
        · cases later
        · next reconciles => exact ⟨_, tv, converted, by rw [reconciles]; rfl⟩
        · next fits => exact ⟨_, tv, converted, by rw [fits]; rfl⟩

theorem reconcile_order {managers reconciled : ManagedFields N} {orders : Orders}
    (distinct : FiniteMap.Distinct managers)
    (ok : u.reconcileManagedFieldsWithSchemaChanges orders liveObject managers = .ok reconciled)
    (others : Orders) :
    ∃ other, u.reconcileManagedFieldsWithSchemaChanges others liveObject managers = .ok other ∧
      SameEntries reconciled other := by
  obtain ⟨other, isOther⟩ : ∃ other,
      u.reconcileManagedFieldsWithSchemaChanges others liveObject managers = .ok other := by
    refine FiniteMap.foldlM_succeeds (fun state entry member (_ : True) => ?_) trivial
    have inFirst : entry ∈ orders.reconcile.arrange managers :=
      (orders.reconcile.perm managers).mem_iff.mpr ((others.reconcile.perm managers).mem_iff.mp member)
    obtain ⟨before, next, -, stepped⟩ := FiniteMap.step_of_foldlM
      (fun _ _ _ (kept : True) _ => kept) trivial ok inFirst
    obtain ⟨otherNext, otherStep⟩ := reconcileManager_succeeds stepped state
    exact ⟨otherNext, otherStep, trivial⟩
  refine ⟨other, isOther, fun name => ?_⟩
  rw [reconcile_spec distinct ok, reconcile_spec distinct isOther]

/-- `update` in another order of managers with the same entries. -/
theorem update_order {first second remaining : ManagedFields N} {orders : Orders} {workflow : String}
    {force : Bool} {comparison : Comparison N} (distinctFirst : FiniteMap.Distinct first)
    (distinctSecond : FiniteMap.Distinct second) (same : SameEntries first second)
    (ok : u.update orders oldObject newObject version first workflow force =
      .ok (remaining, comparison)) (others : Orders) :
    ∃ other, u.update others oldObject newObject version second workflow force =
      .ok (other, comparison) ∧ SameEntries remaining other := by
  obtain ⟨compared, detection, isCompared, isComparison, detected, allowed, -⟩ := update_eq_ok.mp ok
  obtain ⟨-, compares, lookups⟩ := detection_spec distinctFirst detected
  obtain ⟨otherDetection, otherDetected⟩ : ∃ other, (others.managers.arrange second).foldlM
      (u.detectManager oldObject newObject workflow) (.start version comparison second) =
        .ok other := by
    have start : (Detection.start version comparison second).Sound u oldObject newObject version
        comparison := Detection.start_sound distinctSecond
    refine FiniteMap.foldlM_succeeds (fun state entry member sound => ?_) start
    have held := FiniteMap.get?_of_mem distinctSecond
      ((others.managers.perm second).mem_iff.mp member)
    obtain ⟨next, stepped⟩ : ∃ next,
        u.detectManager oldObject newObject workflow state entry = .ok next := by
      by_cases own : entry.1 = workflow
      · exact ⟨state, if_pos own⟩
      · rw [← same] at held
        obtain ⟨found, isFound⟩ := compares _ _ held own
        exact detectManager_succeeds sound isFound
    exact ⟨next, stepped, (detectManager_inv sound stepped).1.1⟩
  obtain ⟨-, -, otherLookups⟩ := detection_spec distinctSecond otherDetected
  have otherAllowed : force = true ∨ otherDetection.conflicts = [] := by
    refine allowed.imp_right fun none => FiniteMap.eq_nil_of_get? fun name => ?_
    have sameLookup : otherDetection.lookup name = detection.lookup name := by
      rw [otherLookups, lookups, same]
    have sameConflicts := congrArg (fun held => held.2.1) sameLookup
    simp only [Detection.lookup, none, FiniteMap.get?_nil] at sameConflicts
    exact sameConflicts
  have otherOk := update_eq_ok.mpr
    ⟨compared, otherDetection, isCompared, isComparison, otherDetected, otherAllowed, rfl⟩
  refine ⟨_, otherOk, fun name => ?_⟩
  rw [(update_spec distinctFirst ok).2.2, (update_spec distinctSecond otherOk).2.2, same]

end Managers

/-! ## Passes -/

/-- The sets have the same paths. -/
structure SameSet (first second : FieldSet N) : Prop where
  left : first.Canonical
  right : second.Canonical
  has : ∀ path, first.has path = second.has path

section Passes

variable [Consistent N] (orders others : Orders) {first second : ManagedFields N}

theorem SameSet.ensured {s t : FieldSet N} (same : SameSet s t) (sc : Schema N) (tr : TypeRef N) :
    SameSet (s.ensureNamedFieldsAreMembers sc tr) (t.ensureNamedFieldsAreMembers sc tr) where
  left := (ensure_canonical same.left sc tr).1
  right := (ensure_canonical same.right sc tr).1
  has path := by
    rw [Bool.eq_iff_iff, has_ensure same.left, has_ensure same.right]
    simp only [HasBeneath, same.has]

omit [Consistent N] in
private theorem bind_congr_ok {ε α β : Type} {call : Except ε α} {next other : α → Except ε β}
    (same : ∀ a, call = .ok a → next a = other a) : call >>= next = call >>= other := by
  cases call with
  | error err => rfl
  | ok a => exact same a rfl

/-- A pass removes the same for sets with the same paths. -/
theorem addBackOwnedItemsForVersion_congr (identity : u.converter = .identity)
    {s t : FieldSet N} (same : SameSet s t)
    (objects : Option (TypedValue N) × Option (TypedValue N)) (version : APIVersion) :
    u.addBackOwnedItemsForVersion objects version s =
      u.addBackOwnedItemsForVersion objects version t := by
  simp only [addBackOwnedItemsForVersion, identity, Converter.identity]
  refine bind_congr fun merged => bind_congr_ok fun mergedSet isMergedSet => bind_congr fun pruned =>
    bind_congr_ok fun prunedSet isPrunedSet => ?_
  have canonicalMerged := (ensure_canonical
    (toFieldSet_canonical (lift_eq_ok.mp isMergedSet)) merged.schema.val merged.typeRef).1
  have canonicalPruned := (ensure_canonical
    (toFieldSet_canonical (lift_eq_ok.mp isPrunedSet)) merged.schema.val merged.typeRef).1
  have ensured := same.ensured merged.schema.val merged.typeRef
  have canonicalLeft := union_canonical canonicalPruned ensured.left
  have canonicalRight := union_canonical canonicalPruned ensured.right
  have removes : ∀ {items others : FieldSet N}, SameSet items others →
      merged.removeItems items = merged.removeItems others := by
    intro items others sameItems
    unfold TypedValue.removeItems TypedValue.removing
    cases merged.value with
    | none => rfl
    | some v =>
        have sameValue : removeItemsWithSchema merged.schema.val merged.typeRef v items false =
            removeItemsWithSchema merged.schema.val merged.typeRef v others false :=
          remove_congr sameItems.left sameItems.right sameItems.has
        simp only [sameValue]
  rw [removes ⟨difference_canonical canonicalMerged canonicalLeft,
    difference_canonical canonicalMerged canonicalRight, fun path => by
      rw [has_difference canonicalMerged canonicalLeft,
        has_difference canonicalMerged canonicalRight,
        has_union canonicalPruned ensured.left,
        has_union canonicalPruned ensured.right, ensured.has]⟩]

omit [Consistent N] in
/-- Passes with the versions and their sets. -/
def passes (orders : Orders) (managers : ManagedFields N) (version : APIVersion) :
    List (APIVersion × FieldSet N) :=
  let managed := managedAtVersion orders managers
  ((managed.get? version).map fun set => (version, set)).toList ++
    orders.versions.arrange (managed.erase version)

omit [Consistent N] in
theorem addBackOwnedItems_eq (u : Updater N E) (orders : Orders) (merged pruned : TypedValue N)
    (version : APIVersion) (managers : ManagedFields N) :
    u.addBackOwnedItems orders merged pruned version managers =
      (passes orders managers version).foldlM
        (fun objects entry => u.addBackOwnedItemsForVersion objects entry.1 entry.2)
        (some merged, some pruned) >>= fun final => pure final.2 := by
  unfold addBackOwnedItems passes
  dsimp only
  cases (managedAtVersion orders managers).get? version with
  | none => rfl
  | some set => simp

/-- What is collected for a version has the same paths in every order. -/
theorem managedAtVersion_order (canonicalFirst : ∀ entry ∈ first, entry.2.set.Canonical)
    (canonicalSecond : ∀ entry ∈ second, entry.2.set.Canonical)
    (same : ∀ entry, entry ∈ first ↔ entry ∈ second) (version : APIVersion) :
    Option.Rel SameSet ((managedAtVersion orders first).get? version)
      ((managedAtVersion others second).get? version) := by
  have left := collects_managedAtVersion orders canonicalFirst version
  have right := collects_managedAtVersion others canonicalSecond version
  match foundLeft : (managedAtVersion orders first).get? version,
      foundRight : (managedAtVersion others second).get? version with
  | none, none => exact .none
  | none, some set =>
      rw [foundLeft] at left
      rw [foundRight] at right
      obtain ⟨entry, member, isVersion⟩ := right.2.1
      exact absurd isVersion (left entry ((same entry).mpr member))
  | some set, none =>
      rw [foundLeft] at left
      rw [foundRight] at right
      obtain ⟨entry, member, isVersion⟩ := left.2.1
      exact absurd isVersion (right entry ((same entry).mp member))
  | some set, some other =>
      rw [foundLeft] at left
      rw [foundRight] at right
      refine .some ⟨left.1, right.1, fun path => ?_⟩
      rw [Bool.eq_iff_iff, left.2.2, right.2.2]
      simp only [same]

/-- With one version besides the first, the passes come in one order. -/
theorem passes_eq {managers : ManagedFields N}
    (canonical : ∀ entry ∈ managers, entry.2.set.Canonical) (orders : Orders)
    {version other : APIVersion} (different : version ≠ other)
    (only : ∀ entry ∈ managers, entry.2.apiVersion = version ∨ entry.2.apiVersion = other) :
    passes orders managers version =
      (((managedAtVersion orders managers).get? version).map fun set => (version, set)).toList ++
        (((managedAtVersion orders managers).get? other).map fun set => (other, set)).toList := by
  have distinct := FiniteMap.erase_distinct (managedAtVersion_distinct orders managers) version
  have onlyOther : ∀ entry ∈ (managedAtVersion orders managers).erase version,
      entry.1 = other := by
    intro entry member
    have held := FiniteMap.get?_of_mem distinct member
    rw [FiniteMap.get?_erase] at held
    split at held
    · cases held
    · next notFirst =>
        have collects := collects_managedAtVersion orders canonical entry.1
        rw [held] at collects
        obtain ⟨found, inManagers, isVersion⟩ := collects.2.1
        rcases only found inManagers with isFirst | isOther
        · exact absurd (isFirst.symm.trans isVersion) notFirst
        · exact isVersion.symm.trans isOther
  rw [passes, FiniteMap.eq_of_only distinct onlyOther, IterationOrder.arrange_toList,
    FiniteMap.get?_erase, if_neg different]

/-- Passes of the same versions with sets of the same paths end in the same objects. -/
theorem foldlM_passes_congr (identity : u.converter = .identity)
    {entries otherEntries : List (APIVersion × FieldSet N)}
    (same : List.Forall₂ (fun entry other => entry.1 = other.1 ∧ SameSet entry.2 other.2) entries
      otherEntries) (objects : Option (TypedValue N) × Option (TypedValue N)) :
    entries.foldlM (fun objects entry => u.addBackOwnedItemsForVersion objects entry.1 entry.2)
        objects =
      otherEntries.foldlM
        (fun objects entry => u.addBackOwnedItemsForVersion objects entry.1 entry.2) objects := by
  induction same generalizing objects with
  | nil => rfl
  | cons sameEntry _ ih =>
      rw [List.foldlM_cons, List.foldlM_cons, sameEntry.1,
        addBackOwnedItemsForVersion_congr identity sameEntry.2]
      exact bind_congr fun next => ih next

omit [Consistent N] in
private theorem forall₂_toList {first second : Option (FieldSet N)}
    (same : Option.Rel SameSet first second) (version : APIVersion) :
    List.Forall₂ (fun entry other => entry.1 = other.1 ∧ SameSet entry.2 other.2)
      (first.map fun set => (version, set)).toList (second.map fun set => (version, set)).toList := by
  cases same with
  | none => exact .nil
  | some sameSet => exact .cons ⟨rfl, sameSet⟩ .nil

/-- With one version besides the first, `addBackOwnedItems` does not depend on the order. -/
theorem addBackOwnedItems_order (identity : u.converter = .identity)
    (canonicalFirst : ∀ entry ∈ first, entry.2.set.Canonical)
    (canonicalSecond : ∀ entry ∈ second, entry.2.set.Canonical)
    (same : ∀ entry, entry ∈ first ↔ entry ∈ second) {version other : APIVersion}
    (only : ∀ entry ∈ first, entry.2.apiVersion = version ∨ entry.2.apiVersion = other)
    (merged pruned : TypedValue N) :
    u.addBackOwnedItems orders merged pruned version first =
      u.addBackOwnedItems others merged pruned version second := by
  -- any other label will do if there is no other version
  obtain ⟨label, different, onlyLabel⟩ : ∃ label, version ≠ label ∧
      ∀ entry ∈ first, entry.2.apiVersion = version ∨ entry.2.apiVersion = label := by
    by_cases isFirst : version = other
    · refine ⟨version ++ "'", fun equal => ?_, fun entry member => ?_⟩
      · have lengths := congrArg String.length equal
        rw [String.length_append, show "'".length = 1 from rfl] at lengths
        omega
      · exact Or.inl ((only entry member).elim id fun isOther => isOther.trans isFirst.symm)
    · exact ⟨other, isFirst, only⟩
  have collected := fun label => managedAtVersion_order orders others
    canonicalFirst canonicalSecond same label
  rw [addBackOwnedItems_eq, addBackOwnedItems_eq, passes_eq canonicalFirst orders different onlyLabel,
    passes_eq canonicalSecond others different fun entry member =>
      onlyLabel entry ((same entry).mpr member)]
  rw [foldlM_passes_congr identity
    (List.rel_append (forall₂_toList (collected version) version)
      (forall₂_toList (collected label) label))]

/-- With one version besides the last one, `prune` does not depend on the order. -/
theorem prune_order (identity : u.converter = .identity)
    (distinctFirst : FiniteMap.Distinct first) (distinctSecond : FiniteMap.Distinct second)
    (canonicalFirst : ∀ entry ∈ first, entry.2.set.Canonical) (same : SameEntries first second)
    {last : Option (VersionedSet N)}
    (only : ∀ set, last = some set → ∃ other, ∀ entry ∈ first,
      entry.2.apiVersion = set.apiVersion ∨ entry.2.apiVersion = other)
    (merged : TypedValue N) (manager : String) :
    u.prune orders merged first manager last = u.prune others merged second manager last := by
  have sameMembers : ∀ entry, entry ∈ first ↔ entry ∈ second := by
    intro entry
    rw [← FiniteMap.get?_eq_some_iff distinctFirst, ← FiniteMap.get?_eq_some_iff distinctSecond, same]
  cases last with
  | none => rfl
  | some set =>
      obtain ⟨other, onlyOther⟩ := only set rfl
      have adds := addBackOwnedItems_order orders others identity
        canonicalFirst (fun entry member => canonicalFirst entry ((sameMembers entry).mpr member))
        sameMembers onlyOther
      simp only [prune, adds, same manager]

end Passes

/-! ## Apply -/

/-- Besides the version in which the applier was recorded there is at most one other, that
of the call included. -/
def OneOtherVersion (managers : ManagedFields N) (manager : String) (version : APIVersion) : Prop :=
  ∀ last, managers.get? manager = some last → ∃ other,
    (version = last.apiVersion ∨ version = other) ∧
      ∀ name entry, managers.get? name = some entry → name ≠ manager →
        entry.apiVersion = last.apiVersion ∨ entry.apiVersion = other

section Apply

variable [Consistent N] {liveObject configObject : TypedValue N} {version : APIVersion}
  {managers : ManagedFields N} {manager : String}

private theorem OneOtherVersion.recorded {orders : Orders} {reconciled : ManagedFields N}
    {set : FieldSet N} (oneOther : OneOtherVersion managers manager version)
    (wellFormed : WellFormed managers)
    (isReconciled : u.reconcileManagedFieldsWithSchemaChanges orders liveObject managers =
      .ok reconciled) :
    ∀ last, reconciled.get? manager = some last → ∃ other,
      ∀ entry ∈ reconciled.set manager ⟨set, version, true⟩,
        entry.2.apiVersion = last.apiVersion ∨ entry.2.apiVersion = other := by
  have origin : ∀ name entry, reconciled.get? name = some entry →
      ∃ given, managers.get? name = some given ∧ entry.apiVersion = given.apiVersion := by
    intro name entry held
    rw [reconcile_spec wellFormed.distinct isReconciled] at held
    obtain ⟨given, isGiven, isKept⟩ := Option.bind_eq_some_iff.mp held
    exact ⟨given, isGiven, (reconciledEntry_spec (wellFormed.canonical _ _ isGiven) isKept).1⟩
  intro last held
  obtain ⟨given, isGiven, sameVersion⟩ := origin manager last held
  obtain ⟨other, ofCall, ofOthers⟩ := oneOther given isGiven
  refine ⟨other, fun entry member => ?_⟩
  have distinct := FiniteMap.set_distinct (reconcile_distinct isReconciled) manager
    (⟨set, version, true⟩ : VersionedSet N)
  have isEntry := FiniteMap.get?_of_mem distinct member
  rw [FiniteMap.get?_set] at isEntry
  rw [sameVersion]
  split at isEntry
  · rw [← Option.some.inj isEntry]
    exact ofCall
  · next isOther =>
      obtain ⟨before, isBefore, sameEntry⟩ := origin entry.1 entry.2 isEntry
      rw [sameEntry]
      exact ofOthers entry.1 before isBefore (Ne.symm isOther)

private theorem apply_order_of_ok {orders : Orders} {force : Bool}
    {object : Option (TypedValue N)} {result : ManagedFields N}
    (identity : u.converter = .identity) (ignores : u.IgnoresWellFormed)
    (wellFormed : WellFormed managers) (oneOther : OneOtherVersion managers manager version)
    (ok : u.apply orders liveObject configObject version managers manager force =
      .ok (object, result)) (others : Orders) :
    ∃ other, u.apply others liveObject configObject version managers manager force =
      .ok (object, other) ∧ SameEntries result other := by
  obtain ⟨recorded, newObject, settled, comparison, prepares, updated, finished⟩ :=
    apply_eq_ok.mp ok
  obtain ⟨reconciled, merged, configSet, isReconciled, isMerged, isSet, rfl, pruned⟩ :=
    prepare_eq_ok.mp prepares
  obtain ⟨otherReconciled, isOther, sameReconciled⟩ :=
    reconcile_order wellFormed.distinct isReconciled others
  have same := sameReconciled.set manager ⟨u.recordedSet version configSet, version, true⟩
  have wellFormedRecorded := (prepare_wellFormed wellFormed ignores prepares).1
  have distinctOther := FiniteMap.set_distinct (reconcile_distinct isOther) manager
    (⟨u.recordedSet version configSet, version, true⟩ : VersionedSet N)
  have canonical : ∀ entry ∈ reconciled.set manager ⟨u.recordedSet version configSet, version, true⟩,
      entry.2.set.Canonical := fun entry member =>
    wellFormedRecorded.canonical _ _ (FiniteMap.get?_of_mem wellFormedRecorded.distinct member)
  have otherPruned : u.prune others merged
      (otherReconciled.set manager ⟨u.recordedSet version configSet, version, true⟩) manager
      (otherReconciled.get? manager) = .ok (some newObject) := by
    rw [← sameReconciled, ← prune_order orders others identity wellFormedRecorded.distinct
      distinctOther canonical same (oneOther.recorded wellFormed isReconciled)]
    exact pruned
  have otherPrepares := prepare_eq_ok.mpr ⟨otherReconciled, merged, configSet, isOther, isMerged,
    isSet, rfl, otherPruned⟩
  obtain ⟨otherSettled, otherUpdated, sameSettled⟩ := update_order wellFormedRecorded.distinct
    distinctOther same updated others
  rw [finish_managers finished]
  refine ⟨otherSettled, apply_eq_ok.mpr ⟨_, newObject, otherSettled, comparison, otherPrepares,
    otherUpdated, ?_⟩, sameSettled⟩
  unfold finish at finished ⊢
  split at finished
  · next returns =>
      cases finished
      rw [if_pos returns]
  · next returns =>
      obtain ⟨equal, compared, isObject⟩ := bind_eq_ok.mp finished
      cases isObject
      rw [if_neg returns, bind_eq_ok]
      exact ⟨equal, compared, rfl⟩

end Apply

end Updater

/-- Every range in the opposite order. -/
def Orders.reversed : Orders :=
  ⟨.reversed, .reversed, .reversed, .reversed, .reversed, .reversed, .reversed, .reversed⟩

/-- Objects with entries that have entries, none of them declared. -/
def entriesObject (value : Value Int) : TypedValue Int :=
  let entries (elementType : TypeRef Int) : TypeRef Int :=
    .inline (.ofMap { fields := [], unions := [], elementType, elementRelationship := .unset })
  { value := some value
    typeRef := entries (entries (.inline (.ofScalar .numeric)))
    schema := ⟨0, ⟨[]⟩⟩ }

end StructuredMergeDiff.Merge
