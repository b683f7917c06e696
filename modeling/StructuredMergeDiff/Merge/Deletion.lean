import StructuredMergeDiff.Merge.PruneExact

/-!
Contract: what `Apply` deletes.

An applier that leaves something out has it deleted, unless another manager owns it.
Where every value of the merged object is in the set of some manager, a leaf is deleted
with a path of the applier on the way to it, or with the key of an item that it is in.

Owns: when every deleted leaf had been applied by the manager that deletes it, and that
items which others hold with their keys stay.
Does not own: objects with values that nobody owns.
-/

namespace StructuredMergeDiff.Merge

open Library Typed FieldSet FiniteMap Updater

variable {N E : Type} [Numeric N]

/-! ## Deleted leaves -/

section Leaves

variable (sc : Schema N) (tr : TypeRef N) (last owned : FieldSet N) (merged : Value N)

/-- The set has the path, or a path on the way to it. -/
def AppliedOnWay (path : Path N) : Prop :=
  ∃ first rest, path = first ++ rest ∧ last.has first = true

/-- Leaves of the merged value that are absent from the result had been applied. -/
def DeletesOnlyApplied (result : Value N) : Prop :=
  ∀ path leaf, path ≠ [] → leaf ∈ nodesAt sc ⟨tr, merged⟩ path → isLeaf sc leaf = true →
    nodesAt sc ⟨tr, result⟩ path = [] → AppliedOnWay last path

/-- Leaves in items of which a key is dropped had been applied. -/
def KeysGoWithApplied : Prop :=
  ∀ path leaf, path ≠ [] → leaf ∈ nodesAt sc ⟨tr, merged⟩ path → isLeaf sc leaf = true →
    DroppedKey sc tr last owned path → AppliedOnWay last path

end Leaves

variable [Consistent N] {sc : Schema N} {tr : TypeRef N} {last owned : FieldSet N} {m : Value N}

/-- A field that is dropped because of what the applier had in it has nothing else in it. -/
theorem appliedOnWay_of_dropped {path : Path N} {leaf : Node N}
    (canonicalLast : last.Canonical) (canonicalOwned : owned.Canonical)
    (covered : Covered sc ⟨tr, m⟩ last owned) (leafPath : LeafPath sc ⟨tr, m⟩ path leaf)
    (dropped : DroppedOnWay sc tr last owned path) : AppliedOnWay last path := by
  obtain ⟨first, rest, rfl, proper, had, notOwned⟩ := dropped
  rw [Bool.eq_false_iff, ne_eq, has_ensure canonicalOwned, not_or] at notOwned
  rcases (has_ensure canonicalLast _ _ _).mp had with own | ⟨declared, -⟩
  · exact ⟨first, rest, rfl, own⟩
  · have whole := covered.recorded canonicalLast canonicalOwned leafPath.spine leafPath.proper
      (leafPath.spine.recorded leafPath.leaf) (Or.inl leafPath.leaf)
    rcases whole with applied | isOwned
    · exact ⟨first ++ rest, [], (List.append_nil _).symm, applied⟩
    · -- An owned leaf would keep the declared field that it is in.
      by_cases isLast : rest = []
      · rw [isLast, List.append_nil] at isOwned
        exact absurd isOwned notOwned.1
      · exact absurd ⟨declared, rest, isLast, isOwned⟩ notOwned.2

theorem not_dropped_nil {path : Path N} : ¬ Dropped sc tr .nil owned path := by
  rintro ⟨had, -⟩
  rw [has_ensure nil_canonical] at had
  simp [HasBeneath] at had

/-! ## Results -/

/-- The result has the leaves of the merged value, as they were, that are not dropped. -/
def Decided (sc : Schema N) (tr : TypeRef N) (last owned : FieldSet N) (m w : Value N) : Prop :=
  ∀ path leaf, LeafPath sc ⟨tr, m⟩ path leaf →
    (DroppedOnWay sc tr last owned path ∨ DroppedKey sc tr last owned path) ∧
        nodesAt sc ⟨tr, w⟩ path = [] ∨
      ¬ (DroppedOnWay sc tr last owned path ∨ DroppedKey sc tr last owned path) ∧
        Spine sc ⟨tr, w⟩ path leaf

theorem decided_self : Decided sc tr .nil owned m m := by
  intro path leaf leafPath
  refine Or.inr ⟨?_, leafPath.spine⟩
  rintro (⟨first, rest, -, -, dropped⟩ | ⟨first, fields, rest, -, -, field, -, dropped⟩)
  · exact not_dropped_nil dropped
  · exact not_dropped_nil dropped

omit [Consistent N] in
theorem Decided.congr {other : FieldSet N} {w : Value N} (decided : Decided sc tr last owned m w)
    (same : Dropped sc tr last owned = Dropped sc tr last other) :
    Decided sc tr last other m w := by
  unfold Decided DroppedOnWay DroppedKey at decided ⊢
  rwa [← same]

/-- What `Apply` returns in place of an equal result decides as the result does. -/
theorem deletesOnlyApplied_iff {w result : Value N} (sound : Sound sc false ⟨tr, m⟩)
    (canonicalLast : last.Canonical) (canonicalOwned : owned.Canonical)
    (covered : Covered sc ⟨tr, m⟩ last owned) (decided : Decided sc tr last owned m w)
    (returned : result = w ∨ Sound sc false ⟨tr, result⟩ ∧ (result == w) = true) :
    DeletesOnlyApplied sc tr last m result ↔ KeysGoWithApplied sc tr last owned m := by
  have absent : ∀ path leaf, LeafPath sc ⟨tr, m⟩ path leaf →
      (nodesAt sc ⟨tr, result⟩ path = [] ↔
        DroppedOnWay sc tr last owned path ∨ DroppedKey sc tr last owned path) := by
    intro path leaf leafPath
    rcases decided path leaf leafPath with ⟨dropped, gone⟩ | ⟨notDropped, stays⟩
    · refine iff_of_true ?_ dropped
      rcases returned with rfl | ⟨soundResult, same⟩
      · exact gone
      · by_contra found
        obtain ⟨node, member⟩ := List.exists_mem_of_ne_nil _ found
        obtain ⟨value, spine, -⟩ := (spine_of_mem soundResult member).of_beq same
        rw [spine.nodesAt_eq] at gone
        cases gone
    · refine iff_of_false ?_ notDropped
      rcases returned with rfl | ⟨-, same⟩
      · rw [stays.nodesAt_eq]
        simp
      · obtain ⟨value, spine, -⟩ := stays.of_beq (BEq.symm same)
        rw [spine.nodesAt_eq]
        simp
  have leafPath : ∀ {path leaf}, path ≠ [] → leaf ∈ nodesAt sc ⟨tr, m⟩ path →
      isLeaf sc leaf = true → LeafPath sc ⟨tr, m⟩ path leaf :=
    fun proper member leaf => ⟨proper, spine_of_mem sound member, holdsItself_of_isLeaf leaf⟩
  constructor
  · intro deletes path leaf proper member isLeaf ofKey
    apply deletes path leaf proper member isLeaf
    exact (absent path leaf (leafPath proper member isLeaf)).mpr (Or.inr ofKey)
  · intro keys path leaf proper member isLeaf gone
    have isLeafPath := leafPath proper member isLeaf
    rcases (absent path leaf isLeafPath).mp gone with onWay | ofKey
    · exact appliedOnWay_of_dropped canonicalLast canonicalOwned covered isLeafPath onWay
    · exact keys path leaf proper member isLeaf ofKey

/-! ## Apply -/

/-- The managers with what the applier is about to own. -/
def withConfiguration (managers : ManagedFields N) (manager : String) (version : APIVersion)
    (configObject : TypedValue N) : ManagedFields N :=
  managers.set manager ⟨(configObject.toFieldSet.toOption).getD .nil, version, true⟩

theorem WellFormed.withConfiguration {managers : ManagedFields N} (wellFormed : WellFormed managers)
    (manager : String) (version : APIVersion) (configObject : TypedValue N) :
    WellFormed (withConfiguration managers manager version configObject) where
  distinct := set_distinct wellFormed.distinct _ _
  canonical name entry held := by
    rw [Merge.withConfiguration, get?_set] at held
    split at held
    · cases held
      cases isSet : configObject.toFieldSet with
      | error failure => exact nil_canonical
      | ok set => exact toFieldSet_canonical isSet
    · exact wellFormed.canonical name entry held

omit [Consistent N] in
theorem WellFormed.of_mem {managers : ManagedFields N} (wellFormed : WellFormed managers) :
    ∀ entry ∈ managers, entry.2.set.Canonical :=
  fun _ member => wellFormed.canonical _ _ (get?_of_mem wellFormed.distinct member)

/-- The conditions of an application in one version, where managers fit the schema and keys
of list items have no defaults. -/
structure SingleVersion (u : Updater N E) (managers : ManagedFields N)
    (liveObject configObject : TypedValue N) (version : APIVersion) : Prop
    extends Applicable u managers liveObject configObject false where
  oneVersion : ∀ name entry, managers.get? name = some entry → entry.apiVersion = version
  fits : ∀ name entry, managers.get? name = some entry → u.Reconciled liveObject entry = true
  stable : StableKeys liveObject.schema.val liveObject.typeRef

/-- Everything in the merged object is owned. -/
structure Accountable (u : Updater N E) (managers : ManagedFields N)
    (liveObject configObject : TypedValue N) (version : APIVersion) (manager : String) : Prop
    extends SingleVersion u managers liveObject configObject version where
  covered : ∀ merged m, liveObject.merge configObject = .ok merged → merged.value = some m →
    Covered liveObject.schema.val ⟨liveObject.typeRef, m⟩ (ownedSet managers manager)
      (unionOfSets (withConfiguration managers manager version configObject))

section Apply

variable {u : Updater N E} {orders : Orders} {liveObject configObject newObject : TypedValue N}
  {version : APIVersion} {managers recorded : ManagedFields N} {manager : String}

omit [Consistent N] in
private theorem exists_entry_iff {first second : ManagedFields N}
    (distinctFirst : Distinct first) (distinctSecond : Distinct second)
    (same : ∀ name, first.get? name = second.get? name) (path : Path N) :
    (∃ entry ∈ first, entry.2.set.has path = true) ↔
      ∃ entry ∈ second, entry.2.set.has path = true := by
  refine exists_congr fun entry => and_congr_left fun _ => ?_
  rw [← get?_eq_some_iff distinctFirst, ← get?_eq_some_iff distinctSecond, same]

section

variable (single : SingleVersion u managers liveObject configObject version)
  (ok : u.prepare orders liveObject configObject version managers manager = .ok (recorded, newObject))

include single ok

/-- The managers with which `Apply` calls `update`. -/
theorem SingleVersion.recordedEntries :
    WellFormed recorded ∧
      (∀ name entry, recorded.get? name = some entry → entry.apiVersion = version) ∧
      ∀ name, recorded.get? name =
        (withConfiguration managers manager version configObject).get? name := by
  obtain ⟨reconciled, configSet, m, prepared⟩ := prepare_identity single.identity
    single.notIgnored single.same single.soundLive single.soundConfig ok
  obtain ⟨others, unchanged, distinct, sameEntries⟩ := reconcile_unchanged u orders
    liveObject single.wellFormed.distinct single.fits
  cases prepared.isReconciled.symm.trans unchanged
  have same : ∀ name, recorded.get? name =
      (withConfiguration managers manager version configObject).get? name := by
    intro name
    rw [prepared.isRecorded, withConfiguration, prepared.isConfigSet, get?_set,
      get?_set, sameEntries]
    rfl
  have given := single.wellFormed.withConfiguration manager version configObject
  refine ⟨⟨?_, fun name entry held => given.canonical name entry (same name ▸ held)⟩, ?_, same⟩
  · rw [prepared.isRecorded]
    exact set_distinct distinct _ _
  · intro name entry held
    rw [same, withConfiguration, get?_set] at held
    split at held
    · rw [← Option.some.inj held]
    · exact single.oneVersion _ _ held

private theorem SingleVersion.managedSets :
    (unionOfSets (withConfiguration managers manager version configObject)).Canonical ∧
      ∃ set, managedSets orders recorded version = [set] ∧ set.Canonical ∧ ∀ path,
        set.has path = true ↔ (unionOfSets
          (withConfiguration managers manager version configObject)).has path = true := by
  obtain ⟨wellFormed, oneVersion, same⟩ := single.recordedEntries ok
  have given := single.wellFormed.withConfiguration manager version configObject
  have notNone : recorded ≠ [] := by
    intro none
    have own := same manager
    rw [none, withConfiguration, get?_set, if_pos rfl] at own
    cases own
  obtain ⟨canonicalUnion, hasUnion⟩ := unionOfSets_spec given.of_mem
  obtain ⟨set, isManaged, canonicalSet, hasSet⟩ := managedSets_of_oneVersion wellFormed.of_mem orders
    notNone fun entry member => oneVersion _ _ (get?_of_mem wellFormed.distinct member)
  refine ⟨canonicalUnion, set, isManaged, canonicalSet, fun path => ?_⟩
  rw [hasSet, hasUnion]
  exact exists_entry_iff wellFormed.distinct given.distinct same path

/-- The object that `Apply` makes is the merged one, or what pruning leaves of it. -/
theorem SingleVersion.pruned :
    ∃ m set, liveObject.merge configObject = .ok (withValue liveObject m) ∧
      Sound liveObject.schema.val false ⟨liveObject.typeRef, m⟩ ∧
      (ownedSet managers manager).Canonical ∧ set.Canonical ∧
      (unionOfSets (withConfiguration managers manager version configObject)).Canonical ∧
      (∀ path, set.has path = true ↔ (unionOfSets
        (withConfiguration managers manager version configObject)).has path = true) ∧
      (ownedSet managers manager = .nil ∧ newObject = withValue liveObject m ∨
        ownedSet managers manager ≠ .nil ∧ newObject = withValue liveObject
          (pruneValue liveObject.schema.val liveObject.typeRef m (ownedSet managers manager)
            [set])) := by
  have ⟨identity, notIgnored, wellFormed, sameType, soundLive, soundConfig⟩ := single.toApplicable
  obtain ⟨reconciled, configSet, m, prepared⟩ :=
    prepare_identity identity notIgnored sameType soundLive soundConfig ok
  obtain ⟨merged, merges, isMerged⟩ := merge_of_sound sameType soundLive soundConfig
  cases Option.some.inj (isMerged.isMerged.symm.trans prepared.isMerged.isMerged)
  obtain ⟨others, unchanged, -, sameEntries⟩ := reconcile_unchanged u orders
    liveObject wellFormed.distinct single.fits
  cases prepared.isReconciled.symm.trans unchanged
  obtain ⟨canonicalUnion, set, isManaged, canonicalSet, sameOwned⟩ := single.managedSets ok
  have isPruned := prepared.isPruned
  rw [sameEntries manager] at isPruned
  have canonicalLast := wellFormed.ownedSet_canonical manager
  refine ⟨m, set, merges, isMerged.sound, canonicalLast, canonicalSet, canonicalUnion, sameOwned, ?_⟩
  rcases isPruned with ⟨isMerge, empty⟩ | ⟨last, isLast, notEmpty, isPruned⟩
  · refine Or.inl ⟨?_, isMerge⟩
    cases isLast : managers.get? manager with
    | none => rw [ownedSet, isLast]; rfl
    | some last =>
        apply canonicalLast.eq_nil
        rw [ownedSet, isLast]
        exact empty last isLast
  · have isOwned : ownedSet managers manager = last.set := by rw [ownedSet, isLast]; rfl
    rw [single.oneVersion _ _ isLast, isManaged] at isPruned
    rw [isOwned]
    refine Or.inr ⟨fun none => ?_, isPruned⟩
    rw [none] at notEmpty
    cases notEmpty

end

/-- The object that `Apply` makes has the leaves that are not dropped. -/
theorem Accountable.decided
    (accountable : Accountable u managers liveObject configObject version manager)
    (ok : u.prepare orders liveObject configObject version managers manager =
      .ok (recorded, newObject)) :
    ∃ m w, liveObject.merge configObject = .ok (withValue liveObject m) ∧
      Sound liveObject.schema.val false ⟨liveObject.typeRef, m⟩ ∧
      newObject = withValue liveObject w ∧ (ownedSet managers manager).Canonical ∧
      (unionOfSets (withConfiguration managers manager version configObject)).Canonical ∧
      Decided liveObject.schema.val liveObject.typeRef (ownedSet managers manager)
        (unionOfSets (withConfiguration managers manager version configObject)) m w := by
  obtain ⟨m, set, merges, sound, canonicalLast, canonicalSet, canonicalUnion, sameOwned, isNew⟩ :=
    accountable.pruned ok
  rcases isNew with ⟨nothing, isMerged⟩ | ⟨-, isPruned⟩
  · refine ⟨m, m, merges, sound, isMerged, canonicalLast, canonicalUnion, ?_⟩
    rw [nothing]
    exact decided_self
  · have covered : Covered liveObject.schema.val ⟨liveObject.typeRef, m⟩
        (ownedSet managers manager) set := by
      intro path mid k inNodes inKids reported
      rw [sameOwned]
      exact accountable.covered _ m merges rfl path mid k inNodes inKids reported
    have decided : Decided liveObject.schema.val liveObject.typeRef (ownedSet managers manager) set m
        (pruneValue liveObject.schema.val liveObject.typeRef m (ownedSet managers manager) [set]) :=
      fun path leaf => pruned_cases sound accountable.stable canonicalLast canonicalSet covered
    exact ⟨m, _, merges, sound, isPruned, canonicalLast, canonicalUnion,
      decided.congr (dropped_congr canonicalSet canonicalUnion sameOwned)⟩

end Apply

private theorem merge_numbers :
    (numberSetObject [.number (1 : Int)]).merge (numberSetObject [.number 2]) =
      .ok (numberSetObject [.number 1, .number 2]) := rfl

private theorem toFieldSet_number :
    (numberSetObject [.number (2 : Int)]).toFieldSet = .ok (ofPaths [numberPath 2]) := rfl

theorem singleVersion_numbers {managers : ManagedFields Int} {live config : List (Value Int)}
    {entry : VersionedSet Int} (distinct : Distinct managers)
    (entries : ∀ other ∈ managers, other.2 = entry) (canonical : entry.set.Canonical)
    (validLive : (numberSetObject live).isValid false = true)
    (validConfig : (numberSetObject config).isValid false = true)
    (fits : (plain (E := Unit)).Reconciled (numberSetObject live) entry = true) :
    SingleVersion (plain (E := Unit)) managers (numberSetObject live)
      (numberSetObject config) entry.apiVersion where
  identity := rfl
  notIgnored := rfl
  wellFormed := wellFormed_of_forall distinct fun other member => by
    rw [entries other member]
    exact canonical
  same := ⟨rfl, rfl⟩
  soundLive := ⟨validLive, numberSetObject_supported _⟩
  soundConfig := ⟨validConfig, numberSetObject_supported _⟩
  oneVersion name other held := by
    cases entries _ (mem_of_get? held)
    rfl
  fits name other held := by
    cases entries _ (mem_of_get? held)
    exact fits
  stable := numberSetObject_stable _

private theorem singleVersion_number {managers : ManagedFields Int}
    (distinct : Distinct managers)
    (entries : ∀ entry ∈ managers, entry.2 = ⟨ofPaths [numberPath 1], "v1", true⟩) :
    SingleVersion (plain (E := Unit)) managers (numberSetObject [.number 1])
      (numberSetObject [.number 2]) "v1" :=
  singleVersion_numbers distinct entries (ofPaths_canonical _) (by decide +kernel)
    (by decide +kernel) (by decide +kernel)

/-- Another manager has the path, or the new configuration does. -/
def HeldBesides (managers : ManagedFields N) (manager : String) (configObject : TypedValue N)
    (path : Path N) : Prop :=
  (∃ other, other ≠ manager ∧ Owns managers other path) ∨
    ∃ set, configObject.toFieldSet = .ok set ∧ set.has path = true

/-- The item is held besides the applier, what it is in apart from declared fields, and the
keys of all items. -/
structure ItemHeld (sc : Schema N) (tr : TypeRef N) (held : Path N → Prop) (path : Path N) :
    Prop where
  item : held path
  enclosing : ∀ first rest, path = first ++ rest → first ≠ [] → rest ≠ [] →
    FieldSet.declared sc tr first = false → held first
  keys : ∀ first fields rest, path = first ++ .key fields :: rest → ∀ field ∈ fields.fields,
    held (first ++ [.key fields, .fieldName field.name])

/-- What is held besides the applier is owned after the application. -/
theorem HeldBesides.has {managers : ManagedFields N} {manager : String} {configObject : TypedValue N}
    {path : Path N} (held : HeldBesides managers manager configObject path)
    (wellFormed : WellFormed managers) (version : APIVersion) :
    (unionOfSets (withConfiguration managers manager version configObject)).has path = true := by
  apply ((unionOfSets_spec (wellFormed.withConfiguration manager version configObject).of_mem).2
    path).mpr
  have lookup := get?_set managers manager
    ⟨(configObject.toFieldSet.toOption).getD .nil, version, true⟩
  rcases held with ⟨other, different, entry, isEntry, has⟩ | ⟨set, isSet, has⟩
  · refine ⟨(other, entry), mem_of_get? ?_, has⟩
    rw [withConfiguration, lookup, if_neg different.symm, isEntry]
  · refine ⟨(manager, ⟨set, version, true⟩), mem_of_get? ?_, has⟩
    rw [withConfiguration, lookup, if_pos rfl, isSet]
    rfl

/-- Objects with a field `m` that has the fields `x` and `y`. -/
def nestedFieldsObject (value : Value Int) : TypedValue Int :=
  { value := some value
    typeRef := .inline (.ofMap (.struct [("m", .inline (.ofMap (.struct
      [("x", .inline (.ofScalar .numeric)), ("y", .inline (.ofScalar .numeric))])))]))
    schema := ⟨0, ⟨[]⟩⟩ }

end StructuredMergeDiff.Merge
