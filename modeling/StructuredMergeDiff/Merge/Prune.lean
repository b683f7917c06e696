import Mathlib.Data.List.Induction
import StructuredMergeDiff.Merge.ApplySpec
import StructuredMergeDiff.Typed.Absence

/-!
Contract: pruning, where the versions of an object differ in label only.

Every pass removes items from the merged object. The first removes what the applier
had; each further one removes less, judged by what the pass before it has left.

Owns: the values that the passes make, and the sets that they are given.
-/

namespace StructuredMergeDiff.Merge

open Library Typed FieldSet

variable {N E : Type} [Numeric N]

/-! ## Values -/

section Values

variable (sc : Schema N) (tr : TypeRef N) (merged pruned : Value N)

/-- What `addBackOwnedItemsForVersion` leaves of the merged value. -/
def addBack (managed : FieldSet N) : Value N :=
  remove sc tr merged ((ensured sc ⟨tr, merged⟩).difference
    ((ensured sc ⟨tr, pruned⟩).union (managed.ensureNamedFieldsAreMembers sc tr)))

/-- What `addBackDanglingItems` leaves of the merged value. -/
def dropDangling (last : FieldSet N) : Value N :=
  remove sc tr merged (((ensured sc ⟨tr, merged⟩).difference (ensured sc ⟨tr, pruned⟩)).intersection
    (last.ensureNamedFieldsAreMembers sc tr))

/-- What `prune` leaves of the merged value: the sets of the managers come in the order
of the versions. -/
def pruneValue (last : FieldSet N) (managed : List (FieldSet N)) : Value N :=
  dropDangling sc tr merged
    (managed.foldl (addBack sc tr merged)
      (remove sc tr merged (last.ensureNamedFieldsAreMembers sc tr)))
    last

end Values

/-! ## Managed sets -/

/-- The set has what the entries of the version have; there is none if no entry is of
the version. -/
def Collects (entries : List (String × VersionedSet N)) (version : APIVersion) :
    Option (FieldSet N) → Prop
  | none => ∀ entry ∈ entries, entry.2.apiVersion ≠ version
  | some set => set.Canonical ∧ (∃ entry ∈ entries, entry.2.apiVersion = version) ∧
      ∀ path, set.has path = true ↔
        ∃ entry ∈ entries, entry.2.apiVersion = version ∧ entry.2.set.has path = true

/-- A further entry is collected if it is of the version. -/
theorem Collects.snoc [Consistent N] {before : List (String × VersionedSet N)}
    {entry : String × VersionedSet N} {version : APIVersion} {collected : Option (FieldSet N)}
    (soFar : Collects before version collected) (canonical : entry.2.set.Canonical) :
    Collects (before ++ [entry]) version
      (if entry.2.apiVersion = version then some ((collected.getD .nil).union entry.2.set)
        else collected) := by
  have split : ∀ test : String × VersionedSet N → Prop,
      (∃ other ∈ before ++ [entry], test other) ↔ (∃ other ∈ before, test other) ∨ test entry := by
    simp [or_and_right, exists_or]
  by_cases isVersion : entry.2.apiVersion = version
  · rw [if_pos isVersion]
    have canonicalCollected : (collected.getD .nil).Canonical := by
      cases collected with
      | none => exact nil_canonical
      | some set => exact soFar.1
    have hasCollected : ∀ path, (collected.getD .nil).has path = true ↔
        ∃ other ∈ before, other.2.apiVersion = version ∧ other.2.set.has path = true := by
      intro path
      cases collected with
      | none =>
          simp only [Option.getD_none, has_nil, Bool.false_eq_true, false_iff]
          exact fun ⟨other, member, same, _⟩ => soFar other member same
      | some set => exact soFar.2.2 path
    refine ⟨union_canonical canonicalCollected canonical, ⟨entry, by simp, isVersion⟩,
      fun path => ?_⟩
    rw [has_union canonicalCollected canonical, Bool.or_eq_true, hasCollected, split]
    simp [isVersion]
  · rw [if_neg isVersion]
    cases collected with
    | none =>
        intro other member
        rcases List.mem_append.mp member with inBefore | isEntry
        · exact soFar other inBefore
        · rwa [List.mem_singleton.mp isEntry]
    | some set =>
        refine ⟨soFar.1, (split _).mpr (Or.inl soFar.2.1), fun path => ?_⟩
        rw [soFar.2.2 path, split]
        simp [isVersion]

theorem Collects.perm {first second : List (String × VersionedSet N)} {version : APIVersion}
    {collected : Option (FieldSet N)} (perm : first.Perm second)
    (collects : Collects first version collected) : Collects second version collected := by
  cases collected <;> simpa only [Collects, perm.mem_iff] using collects

/-- What `addBackOwnedItems` collects for a version. -/
theorem collects_managedAtVersion [Consistent N] (orders : Orders) {managers : ManagedFields N}
    (canonical : ∀ entry ∈ managers, entry.2.set.Canonical) (version : APIVersion) :
    Collects managers version ((Updater.managedAtVersion orders managers).get? version) := by
  have arranged : ∀ entry ∈ orders.managed.arrange managers, entry.2.set.Canonical :=
    fun entry member => canonical entry ((orders.managed.perm managers).mem_iff.mp member)
  apply Collects.perm (orders.managed.perm managers)
  unfold Updater.managedAtVersion
  generalize orders.managed.arrange managers = entries at arranged
  induction entries using List.reverseRecOn with
  | nil => simp [Collects]
  | append_singleton before entry ih =>
      have soFar := ih fun other member =>
        arranged other (List.mem_append_left _ member)
      rw [List.foldl_append, List.foldl_cons, List.foldl_nil, FiniteMap.get?_set]
      have step := soFar.snoc (arranged entry (by simp))
      by_cases isVersion : entry.2.apiVersion = version
      · rw [if_pos isVersion] at step ⊢
        rwa [isVersion]
      · rwa [if_neg isVersion] at step ⊢

/-- The collected sets in the order of the passes. -/
def managedSets (orders : Orders) (managers : ManagedFields N) (first : APIVersion) :
    List (FieldSet N) :=
  let managed := Updater.managedAtVersion orders managers
  (managed.get? first).toList ++ (orders.versions.arrange (managed.erase first)).map Prod.snd

theorem managedAtVersion_distinct (orders : Orders)
    (managers : ManagedFields N) :
    FiniteMap.Distinct (Updater.managedAtVersion orders managers) := by
  unfold Updater.managedAtVersion
  generalize orders.managed.arrange managers = entries
  induction entries using List.reverseRecOn with
  | nil => exact List.nodup_nil
  | append_singleton before entry ih =>
      rw [List.foldl_append]
      exact FiniteMap.set_distinct ih _ _

/-- The passes are given the collected sets, each once. -/
theorem mem_managedSets {orders : Orders} {managers : ManagedFields N} {first : APIVersion}
    {set : FieldSet N} : set ∈ managedSets orders managers first ↔
      ∃ version, (Updater.managedAtVersion orders managers).get? version = some set := by
  have distinct := managedAtVersion_distinct orders managers
  simp only [managedSets, List.mem_append, Option.mem_toList, List.mem_map, Prod.exists,
    exists_eq_right, (orders.versions.perm _).mem_iff]
  simp only [← FiniteMap.get?_eq_some_iff (FiniteMap.erase_distinct distinct first),
    FiniteMap.get?_erase]
  constructor
  · rintro (found | ⟨version, found⟩)
    · exact ⟨first, found⟩
    · split at found
      · cases found
      · exact ⟨version, found⟩
  · rintro ⟨version, found⟩
    by_cases isFirst : first = version
    · exact Or.inl (isFirst ▸ found)
    · exact Or.inr ⟨version, by rwa [if_neg isFirst]⟩

section Sets

variable [Consistent N] (orders : Orders) {managers : ManagedFields N} (first : APIVersion)
  (canonical : ∀ entry ∈ managers, entry.2.set.Canonical)

include canonical

theorem managedSets_canonical {set : FieldSet N}
    (member : set ∈ managedSets orders managers first) : set.Canonical := by
  obtain ⟨version, found⟩ := mem_managedSets.mp member
  have collects := collects_managedAtVersion orders canonical version
  rw [found] at collects
  exact collects.1

/-- Every entry is part of one of the sets. -/
theorem exists_managedSet {entry : String × VersionedSet N} (member : entry ∈ managers) :
    ∃ set ∈ managedSets orders managers first, ∀ path, entry.2.set.has path = true →
      set.has path = true := by
  have collects := collects_managedAtVersion orders canonical entry.2.apiVersion
  match found : (Updater.managedAtVersion orders managers).get? entry.2.apiVersion with
  | none =>
      rw [found] at collects
      exact absurd rfl (collects entry member)
  | some set =>
      rw [found] at collects
      exact ⟨set, mem_managedSets.mpr ⟨_, found⟩, fun path has =>
        (collects.2.2 path).mpr ⟨entry, member, rfl, has⟩⟩

end Sets

/-! ## The passes -/

namespace Updater

variable {u : Updater N E} {orders : Orders} {merged : TypedValue N} {m p : Value N}

theorem removeItems_eq {tv : TypedValue N} {v : Value N} (isValue : tv.value = some v)
    (items : FieldSet N) : tv.removeItems items =
      .ok { tv with value := some (remove tv.schema.val tv.typeRef v items) } := by
  rw [TypedValue.removeItems, TypedValue.removing, isValue]

/-- All nodes of a value of the object's type have alternatives. -/
def Resolves (tv : TypedValue N) (v : Value N) : Prop :=
  everyNode tv.schema.val (resolves tv.schema.val) ⟨tv.typeRef, v⟩ = true

theorem toFieldSet_eq {tv : TypedValue N} {v : Value N} (isValue : tv.value = some v)
    (every : Resolves tv v) : tv.toFieldSet =
      .ok (ofPaths (toFieldSetWalk tv.schema.val tv.typeRef v).paths) := by
  simp [TypedValue.toFieldSet, isValue, toFieldSetWalk_clean every]

/-- The merged object with another value. -/
abbrev withValue (merged : TypedValue N) (v : Value N) : TypedValue N :=
  { merged with value := some v }

section

variable (identity : u.converter = .identity) (isValue : merged.value = some m)
  (every : Resolves merged m)

include identity isValue every

theorem addBackOwnedItemsForVersion_identity (everyPruned : Resolves merged p)
    (version : APIVersion) (managed : FieldSet N) :
    u.addBackOwnedItemsForVersion (some merged, some (withValue merged p)) version managed =
      .ok (some merged, some (withValue merged
        (addBack merged.schema.val merged.typeRef m p managed))) := by
  have prunedSet : (withValue merged p).toFieldSet =
      .ok (ofPaths (toFieldSetWalk merged.schema.val merged.typeRef p).paths) :=
    toFieldSet_eq rfl everyPruned
  simp only [addBackOwnedItemsForVersion, identity, Converter.identity, bind_eq_ok, lift_eq_ok,
    deref_eq_ok, Option.some.injEq, exists_eq_left']
  exact ⟨_, toFieldSet_eq isValue every, _, prunedSet, _, removeItems_eq isValue _, rfl⟩

/-- Further passes, each judged by what the one before it has left. -/
theorem addBack_passes (entries : List (APIVersion × FieldSet N))
    (everyPruned : Resolves merged p) :
    entries.foldlM (fun objects entry => u.addBackOwnedItemsForVersion objects entry.1 entry.2)
        (some merged, some (withValue merged p)) =
      .ok (some merged, some (withValue merged
        ((entries.map Prod.snd).foldl (addBack merged.schema.val merged.typeRef m) p))) := by
  induction entries generalizing p with
  | nil => rfl
  | cons entry rest ih =>
      rw [List.foldlM_cons, bind_eq_ok]
      exact ⟨_, addBackOwnedItemsForVersion_identity identity isValue every everyPruned _ _,
        ih (resolves_remove every _)⟩

theorem addBackOwnedItems_identity (everyPruned : Resolves merged p) (version : APIVersion)
    (managers : ManagedFields N) :
    u.addBackOwnedItems orders merged (withValue merged p) version managers =
      .ok (some (withValue merged ((managedSets orders managers version).foldl
        (addBack merged.schema.val merged.typeRef m) p))) := by
  simp only [addBackOwnedItems]
  rw [managedSets]
  cases found : (managedAtVersion orders managers).get? version with
  | none =>
      simp only [pure_bind, bind_eq_ok]
      exact ⟨_, addBack_passes identity isValue every _ everyPruned, rfl⟩
  | some set =>
      simp only [bind_eq_ok]
      exact ⟨_, addBackOwnedItemsForVersion_identity identity isValue every everyPruned _ _, _,
        addBack_passes identity isValue every _ (resolves_remove every _), rfl⟩

theorem addBackDanglingItems_identity (everyPruned : Resolves merged p) (last : VersionedSet N) :
    u.addBackDanglingItems merged (some (withValue merged p)) last =
      .ok (withValue merged (dropDangling merged.schema.val merged.typeRef m p last.set)) := by
  have prunedSet : (withValue merged p).toFieldSet =
      .ok (ofPaths (toFieldSetWalk merged.schema.val merged.typeRef p).paths) :=
    toFieldSet_eq rfl everyPruned
  simp only [addBackDanglingItems, identity, Converter.identity, bind_eq_ok, lift_eq_ok,
    deref_eq_ok, Option.some.injEq, exists_eq_left']
  exact ⟨_, prunedSet, _, toFieldSet_eq isValue every, removeItems_eq isValue _⟩

end

theorem resolves_foldl_addBack (every : Resolves merged m) (managed : List (FieldSet N))
    (everyPruned : Resolves merged p) :
    Resolves merged (managed.foldl (addBack merged.schema.val merged.typeRef m) p) := by
  induction managed generalizing p with
  | nil => exact everyPruned
  | cons set rest ih => exact ih (resolves_remove every _)

/-- `prune` of an object that the applier has applied before. -/
theorem prune_identity (identity : u.converter = .identity) (isValue : merged.value = some m)
    (every : Resolves merged m) {managers : ManagedFields N} {manager : String}
    {last applied : VersionedSet N} (notEmpty : last.set.isEmpty = false)
    (isApplied : managers.get? manager = some applied) :
    u.prune orders merged managers manager (some last) =
      .ok (some (withValue merged (pruneValue merged.schema.val merged.typeRef m last.set
        (managedSets orders managers last.apiVersion)))) := by
  have everyPruned : Resolves merged (remove merged.schema.val merged.typeRef m
      (last.set.ensureNamedFieldsAreMembers merged.schema.val merged.typeRef)) :=
    resolves_remove every _
  simp only [prune, notEmpty, Bool.false_eq_true, ↓reduceIte, identity, Converter.identity,
    bind_eq_ok, lift_eq_ok, wrap_eq_ok, deref_eq_ok, Option.some.injEq, exists_eq_left', isApplied]
  exact ⟨_, removeItems_eq isValue _, _,
    addBackOwnedItems_identity identity isValue every everyPruned _ _, _,
    addBackDanglingItems_identity identity isValue every
      (resolves_foldl_addBack every _ everyPruned) _, rfl⟩

/-! ## Apply -/

/-- What `Apply` makes, up to the call of `update`, of a configuration without ignored
fields. -/
structure Prepared (u : Updater N E) (orders : Orders) (liveObject configObject : TypedValue N)
    (version : APIVersion) (managers : ManagedFields N) (manager : String)
    (recorded : ManagedFields N) (newObject : TypedValue N) (duplicates : Bool)
    (reconciled : ManagedFields N) (configSet : FieldSet N) (m : Value N) : Prop where
  isReconciled : u.reconcileManagedFieldsWithSchemaChanges orders liveObject managers =
    .ok reconciled
  isConfigSet : configObject.toFieldSet = .ok configSet
  isRecorded : recorded = reconciled.set manager ⟨configSet, version, true⟩
  isMerged : Merged liveObject.schema.val duplicates liveObject.typeRef liveObject.value
    configObject.value m
  isPruned : newObject = withValue liveObject m ∧
      (∀ last, reconciled.get? manager = some last → last.set.isEmpty = true) ∨
    ∃ last, reconciled.get? manager = some last ∧ last.set.isEmpty = false ∧
      newObject = withValue liveObject (pruneValue liveObject.schema.val liveObject.typeRef m
        last.set (managedSets orders recorded last.apiVersion))

theorem prepare_identity [Consistent N] {liveObject configObject newObject : TypedValue N}
    {version : APIVersion} {managers recorded : ManagedFields N} {manager : String}
    {duplicates : Bool} (identity : u.converter = .identity) (notIgnored : u.ignoredFields = [])
    (same : SameType liveObject configObject) (soundLive : SoundObject duplicates liveObject)
    (soundConfig : SoundObject false configObject)
    (ok : u.prepare orders liveObject configObject version managers manager =
      .ok (recorded, newObject)) :
    ∃ reconciled configSet m, Prepared u orders liveObject configObject version managers manager
      recorded newObject duplicates reconciled configSet m := by
  obtain ⟨reconciled, merged, configSet, isReconciled, isMerged, isSet, isRecorded, pruned⟩ :=
    prepare_eq_ok.mp ok
  obtain ⟨m, merges, mergedSpec⟩ := merge_of_sound same soundLive soundConfig
  cases isMerged.symm.trans merges
  have recordsAll : u.recordedSet version configSet = configSet := by
    simp [recordedSet, notIgnored]
  rw [recordsAll] at isRecorded
  refine ⟨reconciled, configSet, m, isReconciled, isSet, isRecorded, mergedSpec, ?_⟩
  cases held : reconciled.get? manager with
  | none =>
      rw [held] at pruned
      cases pruned
      exact Or.inl ⟨rfl, by simp⟩
  | some last =>
      rw [held] at pruned
      cases empty : last.set.isEmpty with
      | true =>
          simp only [prune, empty, if_true] at pruned
          cases pruned
          exact Or.inl ⟨rfl, fun other isOther => by cases isOther; exact empty⟩
      | false =>
          have isValue : (withValue liveObject m).value = some m := rfl
          have isApplied : recorded.get? manager = some ⟨configSet, version, true⟩ := by
            rw [isRecorded, FiniteMap.get?_set, if_pos rfl]
          rw [prune_identity identity isValue mergedSpec.sound.resolves empty isApplied] at pruned
          exact Or.inr ⟨last, rfl, empty, (Option.some.inj (Except.ok.inj pruned)).symm⟩

end Updater

end StructuredMergeDiff.Merge
