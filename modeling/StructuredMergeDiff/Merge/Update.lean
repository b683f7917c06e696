import StructuredMergeDiff.FieldPath.Managers
import StructuredMergeDiff.Typed.TypedValue

/-!
Contract: the updater, which computes who owns what after a write.

`update` compares the old and the new object in the version of every manager,
reports or resolves conflicts and takes removed fields away. `Update` records
what the caller changed; `Apply` merges a configuration, prunes what the
applier has stopped applying, and records the configuration's fields.

Owns: `Updater` with `update`, `Update`, `Apply`, `prune` and its helpers.

Go ranges over maps in an order that differs from run to run. Every such range
takes its order from `Orders`.
-/

namespace StructuredMergeDiff.Merge

open Library Typed

variable {N E : Type} [Numeric N]

/-- `Converter`. Objects are pointers, so either may be nil; the predicate is
also asked about a nil error. -/
structure Converter (N E : Type) where
  convert : Option (TypedValue N) → APIVersion → Option (TypedValue N) × Option E
  isMissingVersionError : Option E → Bool

omit [Numeric N] in
/-- The converter under which versions differ in label only. -/
def Converter.identity : Converter N E where
  convert := fun object _ => (object, none)
  isMissingVersionError := fun _ => false

/-- The order of each range over a map. -/
structure Orders where
  reconcile : IterationOrder
  managers : IterationOrder
  conflicts : IterationOrder
  removed : IterationOrder
  emptied : IterationOrder
  managed : IterationOrder
  versions : IterationOrder
  reported : IterationOrder

/-- Every range in the order in which the entries are stored. -/
def Orders.stored : Orders :=
  ⟨.stored, .stored, .stored, .stored, .stored, .stored, .stored, .stored⟩

/-- `Updater`. -/
structure Updater (N E : Type) where
  converter : Converter N E
  ignoredFields : FiniteMap APIVersion (FieldSet N)
  returnInputOnNoop : Bool

omit [Numeric N] in
/-- The updater with the identity converter and nothing ignored. -/
def Updater.plain : Updater N E :=
  { converter := .identity, ignoredFields := [], returnInputOnNoop := false }

/-- `Conflict`. -/
structure Conflict (N : Type) where
  manager : String
  path : Path N

/-- How a call ends, if it does not return an object. The texts are those with
which the source wraps the cause, outermost first. -/
inductive Failure (N E : Type) where
  | conflicts (conflicts : List (Conflict N))
  | converter (texts : List String) (err : E)
  | errors (texts : List String) (errs : ValidationErrors N)
  | panic
  | diverges

/-- Wrap a failure in a further text. -/
def Failure.wrap (text : String) : Failure N E → Failure N E
  | .conflicts reported => .conflicts reported
  | .converter texts err => .converter (text :: texts) err
  | .errors texts errs => .errors (text :: texts) errs
  | .panic => .panic
  | .diverges => .diverges

section

omit [Numeric N]

/-- A result of an operation on typed values, its errors wrapped in a text. -/
def lift {α : Type} (text : String) : Except (Typed.Failure N) α → Except (Failure N E) α
  | .ok result => .ok result
  | .error (.errors errs) => .error (.errors [text] errs)
  | .error .panic => .error .panic
  | .error .diverges => .error .diverges

/-- The object behind a pointer. -/
def deref (object : Option (TypedValue N)) : Except (Failure N E) (TypedValue N) :=
  match object with
  | some tv => .ok tv
  | none => .error .panic

/-- `ConflictsFromManagers`. -/
def conflictsFromManagers (orders : Orders) (sets : ManagedFields N) : List (Conflict N) :=
  (orders.reported.arrange sets).flatMap fun entry =>
    entry.2.set.iterate.map fun path => { manager := entry.1, path := path }

end

namespace Updater

/-! ## Conflicts and removed fields -/

/-- What the range over the managers accumulates. -/
structure Detection (N : Type) where
  versions : FiniteMap APIVersion (Comparison N)
  managers : ManagedFields N
  conflicts : ManagedFields N
  removed : ManagedFields N

omit [Numeric N] in
/-- Before the range only the comparison in the call's version is known. -/
def Detection.start (version : APIVersion) (comparison : Comparison N)
    (managers : ManagedFields N) : Detection N :=
  { versions := [(version, comparison)], managers := managers, conflicts := [], removed := [] }

/-- The comparison of the two objects in a version: `none` if the version is no
longer there. -/
def compareAt (u : Updater N E) (oldObject newObject : TypedValue N) (version : APIVersion) :
    Except (Failure N E) (Option (Comparison N)) :=
  match u.converter.convert (some oldObject) version with
  | (_, some err) =>
      if u.converter.isMissingVersionError (some err) then .ok none
      else .error (.converter ["failed to convert old object"] err)
  | (versionedOldObject, none) =>
      match u.converter.convert (some newObject) version with
      | (_, some err) =>
          if u.converter.isMissingVersionError (some err) then .ok none
          else .error (.converter ["failed to convert new object"] err)
      | (versionedNewObject, none) => do
          let old ← deref versionedOldObject
          let new ← deref versionedNewObject
          let comparison ← lift "failed to compare objects" (old.compare new)
          pure (some (comparison.excludeFields (u.ignoredFields.get? version)))

/-- What one manager loses by a comparison: the fields it conflicts on, and the
removed ones. -/
def recordManager (detection : Detection N) (manager : String) (managerSet : VersionedSet N)
    (comparison : Comparison N) : Detection N :=
  let conflictSet := managerSet.set.intersection (comparison.modified.union comparison.added)
  let conflicts :=
    if conflictSet.isEmpty then detection.conflicts
    else detection.conflicts.set manager ⟨conflictSet, managerSet.apiVersion, false⟩
  let removed :=
    if comparison.removed.isEmpty then detection.removed
    else detection.removed.set manager ⟨comparison.removed, managerSet.apiVersion, false⟩
  { detection with conflicts := conflicts, removed := removed }

/-- One round of the range over the managers. -/
def detectManager (u : Updater N E) (oldObject newObject : TypedValue N) (workflow : String)
    (detection : Detection N) (entry : String × VersionedSet N) :
    Except (Failure N E) (Detection N) :=
  let (manager, managerSet) := entry
  if manager = workflow then .ok detection
  else
    match detection.versions.get? managerSet.apiVersion with
    | some comparison => .ok (recordManager detection manager managerSet comparison)
    | none =>
        match u.compareAt oldObject newObject managerSet.apiVersion with
        | .error err => .error err
        | .ok none => .ok { detection with managers := detection.managers.erase manager }
        | .ok (some comparison) =>
            .ok (recordManager
              { detection with
                versions := detection.versions.set managerSet.apiVersion comparison }
              manager managerSet comparison)

/-- Take a set away from what a manager owns. -/
def takeAway (managers : ManagedFields N) (entry : String × VersionedSet N) : ManagedFields N :=
  match managers.get? entry.1 with
  | some owned => managers.set entry.1 { owned with set := owned.set.difference entry.2.set }
  | none => managers

omit [Numeric N] in
/-- Drop a manager that owns nothing. -/
def dropEmptied (managers : ManagedFields N) (entry : String × VersionedSet N) :
    ManagedFields N :=
  if entry.2.set.isEmpty then managers.erase entry.1 else managers

/-- `update`. -/
def update (u : Updater N E) (orders : Orders) (oldObject newObject : TypedValue N)
    (version : APIVersion) (managers : ManagedFields N) (workflow : String) (force : Bool) :
    Except (Failure N E) (ManagedFields N × Comparison N) := do
  let compared ← lift "failed to compare objects" (oldObject.compare newObject)
  let comparison := compared.excludeFields (u.ignoredFields.get? version)
  let detection ← (orders.managers.arrange managers).foldlM
    (u.detectManager oldObject newObject workflow) (.start version comparison managers)
  if !force && !detection.conflicts.isEmpty then
    .error (.conflicts (conflictsFromManagers orders detection.conflicts))
  else
    let afterConflicts :=
      (orders.conflicts.arrange detection.conflicts).foldl takeAway detection.managers
    let afterRemoved := (orders.removed.arrange detection.removed).foldl takeAway afterConflicts
    let remaining := (orders.emptied.arrange afterRemoved).foldl dropEmptied afterRemoved
    pure (remaining, comparison)

/-! ## Schema changes -/

/-- One round of `reconcileManagedFieldsWithSchemaChanges`. -/
def reconcileManager (u : Updater N E) (liveObject : TypedValue N) (result : ManagedFields N)
    (entry : String × VersionedSet N) : Except (Failure N E) (ManagedFields N) := do
  let (manager, versionedSet) := entry
  let (converted, err) := u.converter.convert (some liveObject) versionedSet.apiVersion
  if u.converter.isMissingVersionError err then pure result
  else
    match err with
    | some err => .error (.converter [] err)
    | none =>
        let tv ← deref converted
        match reconcileFieldSetWithSchema tv.schema.val tv.typeRef versionedSet.set with
        | .error errs => .error (.errors ["errors reconciling field set with schema"] errs)
        | .ok (some reconciled) =>
            pure (result.set manager { versionedSet with set := reconciled })
        | .ok none => pure (result.set manager versionedSet)

/-- `reconcileManagedFieldsWithSchemaChanges`. -/
def reconcileManagedFieldsWithSchemaChanges (u : Updater N E) (orders : Orders)
    (liveObject : TypedValue N) (managers : ManagedFields N) :
    Except (Failure N E) (ManagedFields N) :=
  (orders.reconcile.arrange managers).foldlM (u.reconcileManager liveObject) []

/-! ## Update -/

/-- What `Update` records for its caller. -/
def recordUpdate (u : Updater N E) (version : APIVersion) (managers : ManagedFields N)
    (manager : String) (comparison : Comparison N) : ManagedFields N :=
  let owned := ((managers.get? manager).map VersionedSet.set).getD .nil
  let ignored := (u.ignoredFields.get? version).getD .nil
  let set := (((owned.difference comparison.removed).union comparison.modified).union
    comparison.added).recursiveDifference ignored
  if set.isEmpty then managers.erase manager else managers.set manager ⟨set, version, false⟩

/-- `Update`: the new object and the managers. -/
def performUpdate (u : Updater N E) (orders : Orders) (liveObject newObject : TypedValue N)
    (version : APIVersion) (managers : ManagedFields N) (manager : String) :
    Except (Failure N E) (TypedValue N × ManagedFields N) := do
  let managers ← u.reconcileManagedFieldsWithSchemaChanges orders liveObject managers
  let (managers, comparison) ← u.update orders liveObject newObject version managers manager true
  pure (newObject, u.recordUpdate version managers manager comparison)

/-! ## Pruning -/

/-- `addBackOwnedItemsForVersion`. -/
def addBackOwnedItemsForVersion (u : Updater N E)
    (objects : Option (TypedValue N) × Option (TypedValue N)) (version : APIVersion)
    (managed : FieldSet N) :
    Except (Failure N E) (Option (TypedValue N) × Option (TypedValue N)) := do
  let (merged, mergedErr) := u.converter.convert objects.1 version
  match mergedErr with
  | some err =>
      if u.converter.isMissingVersionError (some err) then pure (merged, objects.2)
      else .error (.converter ["failed to convert merged object at version " ++ version] err)
  | none =>
      let (pruned, prunedErr) := u.converter.convert objects.2 version
      match prunedErr with
      | some err =>
          if u.converter.isMissingVersionError (some err) then pure (merged, pruned)
          else .error (.converter ["failed to convert pruned object at version " ++ version] err)
      | none =>
          let mergedObject ← deref merged
          let mergedSet ← lift
            ("failed to create field set from merged object at version " ++ version)
            mergedObject.toFieldSet
          let prunedObject ← deref pruned
          let prunedSet ← lift
            ("failed to create field set from pruned object at version " ++ version)
            prunedObject.toFieldSet
          let ensure (s : FieldSet N) :=
            s.ensureNamedFieldsAreMembers mergedObject.schema.val mergedObject.typeRef
          let result ← lift "" (mergedObject.removeItems
            ((ensure mergedSet).difference ((ensure prunedSet).union (ensure managed))))
          pure (merged, some result)

/-- The sets of all managers of one version, united. -/
def managedAtVersion (orders : Orders) (managers : ManagedFields N) :
    FiniteMap APIVersion (FieldSet N) :=
  (orders.managed.arrange managers).foldl
    (fun collected entry =>
      collected.set entry.2.apiVersion
        (((collected.get? entry.2.apiVersion).getD .nil).union entry.2.set))
    []

/-- `addBackOwnedItems`: the version the object was pruned in comes first. -/
def addBackOwnedItems (u : Updater N E) (orders : Orders) (merged pruned : TypedValue N)
    (prunedVersion : APIVersion) (managers : ManagedFields N) :
    Except (Failure N E) (Option (TypedValue N)) := do
  let managed := managedAtVersion orders managers
  let start : Option (TypedValue N) × Option (TypedValue N) := (some merged, some pruned)
  let first ←
    match managed.get? prunedVersion with
    | some set => u.addBackOwnedItemsForVersion start prunedVersion set
    | none => pure start
  let rest := managed.erase prunedVersion
  let final ← (orders.versions.arrange rest).foldlM
    (fun objects entry => u.addBackOwnedItemsForVersion objects entry.1 entry.2) first
  pure final.2

/-- `addBackDanglingItems`. -/
def addBackDanglingItems (u : Updater N E) (merged : TypedValue N)
    (pruned : Option (TypedValue N)) (lastSet : VersionedSet N) :
    Except (Failure N E) (TypedValue N) :=
  match u.converter.convert pruned lastSet.apiVersion with
  | (_, some err) =>
      if u.converter.isMissingVersionError (some err) then pure merged
      else
        .error (.converter ["failed to convert pruned object to last applied version"] err)
  | (convertedPruned, none) => do
      let convertedObject ← deref convertedPruned
      let prunedSet ← lift
        "failed to create field set from pruned object in last applied version"
        convertedObject.toFieldSet
      let mergedSet ← lift
        "failed to create field set from merged object in last applied version"
        merged.toFieldSet
      let ensure (s : FieldSet N) :=
        s.ensureNamedFieldsAreMembers merged.schema.val merged.typeRef
      lift "" (merged.removeItems
        (((ensure mergedSet).difference (ensure prunedSet)).intersection (ensure lastSet.set)))

/-- `prune`: the resulting pointer is the converter's. -/
def prune (u : Updater N E) (orders : Orders) (merged : TypedValue N) (managers : ManagedFields N)
    (applyingManager : String) (lastSet : Option (VersionedSet N)) :
    Except (Failure N E) (Option (TypedValue N)) :=
  match lastSet with
  | none => .ok (some merged)
  | some lastSet =>
      if lastSet.set.isEmpty then .ok (some merged)
      else
        match u.converter.convert (some merged) lastSet.apiVersion with
        | (_, some err) =>
            if u.converter.isMissingVersionError (some err) then .ok (some merged)
            else
              .error (.converter
                ["failed to convert merged object to last applied version"] err)
        | (converted, none) => do
            let convertedMerged ← deref converted
            let pruned ← lift "" (convertedMerged.removeItems
              (lastSet.set.ensureNamedFieldsAreMembers convertedMerged.schema.val
                convertedMerged.typeRef))
            let pruned ← (u.addBackOwnedItems orders convertedMerged pruned lastSet.apiVersion
              managers).mapError (Failure.wrap "failed add back owned items")
            let pruned ← (u.addBackDanglingItems convertedMerged pruned lastSet).mapError
              (Failure.wrap "failed add back dangling items")
            match managers.get? applyingManager with
            | none => .error .panic
            | some applied =>
                match u.converter.convert (some pruned) applied.apiVersion with
                | (_, some err) => .error (.converter [] err)
                | (object, none) => pure object

/-! ## Apply -/

/-- `value.Equals` of two objects' values, either of which may be nil. -/
def sameValue (liveObject newObject : TypedValue N) : Except (Failure N E) Bool :=
  match liveObject.value, newObject.value with
  | some live, some new => .ok (live == new)
  | _, _ => .error .panic

/-- `Apply`: the object, nil if nothing changed, and the managers. -/
def apply (u : Updater N E) (orders : Orders) (liveObject configObject : TypedValue N)
    (version : APIVersion) (managers : ManagedFields N) (manager : String) (force : Bool) :
    Except (Failure N E) (Option (TypedValue N) × ManagedFields N) := do
  let managers ← u.reconcileManagedFieldsWithSchemaChanges orders liveObject managers
  let merged ← lift "failed to merge config" (liveObject.merge configObject)
  let lastSet := managers.get? manager
  let configSet ← lift "failed to get field set" configObject.toFieldSet
  let set :=
    match u.ignoredFields.get? version with
    | some ignored => configSet.recursiveDifference ignored
    | none => configSet
  let managers := managers.set manager ⟨set, version, true⟩
  let pruned ← (u.prune orders merged managers manager lastSet).mapError
    (Failure.wrap "failed to prune fields")
  let newObject ← deref pruned
  let (managers, _) ← u.update orders liveObject newObject version managers manager force
  if u.returnInputOnNoop then pure (some newObject, managers)
  else
    let same ← sameValue liveObject newObject
    pure (if same then none else some newObject, managers)

end Updater

end StructuredMergeDiff.Merge
