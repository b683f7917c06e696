import StructuredMergeDiff.Merge.Conflicts
import StructuredMergeDiff.Merge.Prune

/-!
Contract: what a successful `Apply` realises.

Where the keys of list items are never filled in, no pass of pruning renames an item.
What the configuration records is then spared by every pass.

Owns: that the leaves of the configuration are in the resulting object, and that the
applier is recorded with the configuration's fields.
-/

namespace StructuredMergeDiff.Merge

open Library Typed FieldSet FiniteMap

variable {N E : Type} [Numeric N] [Consistent N] {sc : Schema N} {tr : TypeRef N}

/-! ## Passes -/

/-- The set has all paths on the way to the leaves of the partial object. -/
def Covers (sc : Schema N) (tr : TypeRef N) (c : Value N) (set : FieldSet N) : Prop :=
  ∀ path last, LeafPath sc ⟨tr, c⟩ path last → ∀ first rest, path = first ++ rest → first ≠ [] →
    set.has first = true

section Passes

variable {c m p : Value N}

theorem covers_ensured (realises : Realises sc tr c p) : Covers sc tr c (ensured sc ⟨tr, p⟩) :=
  fun _ _ leafPath _ _ isPath proper => realises.ensured_way leafPath isPath proper

/-- A set with all that is recorded of the partial object covers it. -/
theorem covers_of_recorded {set : FieldSet N} (canonical : set.Canonical)
    (recorded : ∀ path, (ofPaths (toFieldSetWalk sc tr c).paths).has path = true →
      set.has path = true) :
    Covers sc tr c (set.ensureNamedFieldsAreMembers sc tr) := by
  intro path last leafPath first rest isPath proper
  have own := leafPath.ensured_way isPath proper
  rw [ensured, has_ensure (ofPaths_canonical _)] at own
  rw [has_ensure canonical]
  rcases own with has | ⟨declared, later, below, has⟩
  · exact Or.inl (recorded first has)
  · exact Or.inr ⟨declared, later, below, recorded _ has⟩

variable {duplicates : Bool} (realises : Realises sc tr c m)
  (soundPartial : Sound sc false ⟨tr, c⟩) (stable : StableKeys sc tr)
  (sound : Sound sc duplicates ⟨tr, m⟩)

include realises soundPartial stable sound

theorem realises_addBack {managed : FieldSet N} (canonical : managed.Canonical)
    (covered : Realises sc tr c p ∨ Covers sc tr c (managed.ensureNamedFieldsAreMembers sc tr)) :
    Realises sc tr c (addBack sc tr m p managed) := by
  have canonicalOf : ∀ v : Value N, (ensured sc ⟨tr, v⟩).Canonical := fun _ => ensured_canonical _
  have canonicalManaged := (ensure_canonical canonical sc tr).1
  have canonicalKept := union_canonical (canonicalOf p) canonicalManaged
  have has := has_difference (canonicalOf m) canonicalKept
  refine realises.remove soundPartial stable sound
    (difference_canonical (canonicalOf m) canonicalKept) (fun path member => ?_)
    fun path last leafPath first rest isPath proper => ?_
  · rw [has, Bool.and_eq_true] at member
    exact ensured_inside _ path member.1
  · rw [has, has_union (canonicalOf p) canonicalManaged]
    rcases covered with realised | covers
    · simp [covers_ensured realised path last leafPath first rest isPath proper]
    · simp [covers path last leafPath first rest isPath proper]

theorem realises_dropDangling {last : FieldSet N} (canonical : last.Canonical)
    (realised : Realises sc tr c p) : Realises sc tr c (dropDangling sc tr m p last) := by
  have canonicalOf : ∀ v : Value N, (ensured sc ⟨tr, v⟩).Canonical := fun _ => ensured_canonical _
  have canonicalDifference := difference_canonical (canonicalOf m) (canonicalOf p)
  have canonicalLast := (ensure_canonical canonical sc tr).1
  have has := has_intersection canonicalDifference canonicalLast
  have hasDifference := has_difference (canonicalOf m) (canonicalOf p)
  refine realises.remove soundPartial stable sound
    (intersection_canonical canonicalDifference canonicalLast) (fun path member => ?_)
    fun path last leafPath first rest isPath proper => ?_
  · rw [has, Bool.and_eq_true, hasDifference, Bool.and_eq_true] at member
    exact ensured_inside _ path member.1.1
  · rw [has, hasDifference]
    simp [covers_ensured realised path last leafPath first rest isPath proper]

/-- Once a pass has spared the partial object, so do all later ones. -/
theorem realises_foldl_addBack {sets : List (FieldSet N)}
    (canonical : ∀ set ∈ sets, set.Canonical)
    (covered : Realises sc tr c p ∨
      ∃ set ∈ sets, Covers sc tr c (set.ensureNamedFieldsAreMembers sc tr)) :
    Realises sc tr c (sets.foldl (addBack sc tr m) p) := by
  induction sets generalizing p with
  | nil => simpa using covered
  | cons set rest ih =>
      apply ih fun other member => canonical other (List.mem_cons_of_mem _ member)
      have pass := fun covered => realises_addBack (p := p) realises soundPartial stable sound
        (canonical set List.mem_cons_self) covered
      rcases covered with realised | ⟨other, member, covers⟩
      · exact Or.inl (pass (Or.inl realised))
      · rcases List.mem_cons.mp member with rfl | later
        · exact Or.inl (pass (Or.inr covers))
        · exact Or.inr ⟨other, later, covers⟩

/-- Pruning spares a partial object that one of the managers has recorded. -/
theorem realises_pruneValue {last : FieldSet N} (canonicalLast : last.Canonical)
    {sets : List (FieldSet N)} (canonical : ∀ set ∈ sets, set.Canonical)
    (covered : ∃ set ∈ sets, Covers sc tr c (set.ensureNamedFieldsAreMembers sc tr)) :
    Realises sc tr c (pruneValue sc tr m last sets) :=
  realises_dropDangling realises soundPartial stable sound canonicalLast
    (realises_foldl_addBack realises soundPartial stable sound canonical (Or.inr covered))

end Passes

/-! ## Objects -/

/-- Beneath its root the object has the leaf at the path. -/
def LeafAt (tv : TypedValue N) (path : Path N) (x : Value N) : Prop :=
  path ≠ [] ∧ ∃ v last, tv.value = some v ∧ last ∈ nodesAt tv.schema.val ⟨tv.typeRef, v⟩ path ∧
    isLeaf tv.schema.val last = true ∧ last.value = x

/-- The object has one value at the path, and it is equal to this one. -/
def Holds (tv : TypedValue N) (path : Path N) (x : Value N) : Prop :=
  ∃ v last, tv.value = some v ∧ nodesAt tv.schema.val ⟨tv.typeRef, v⟩ path = [last] ∧
    (x == last.value) = true

/-- An object without duplicates has its leaves at leaf paths. -/
theorem leafPath_of_leafAt {tv : TypedValue N} {v : Value N} {path : Path N} {x : Value N}
    (isValue : tv.value = some v) (sound : Sound tv.schema.val false ⟨tv.typeRef, v⟩)
    (leafAt : LeafAt tv path x) :
    ∃ last, LeafPath tv.schema.val ⟨tv.typeRef, v⟩ path last ∧ last.value = x := by
  obtain ⟨proper, w, last, isOther, member, leaf, same⟩ := leafAt
  cases isValue.symm.trans isOther
  exact ⟨last, ⟨proper, spine_of_mem sound member, holdsItself_of_isLeaf leaf⟩, same⟩

namespace Updater

variable {u : Updater N E} {orders : Orders} {liveObject configObject newObject : TypedValue N}
  {version : APIVersion} {managers recorded : ManagedFields N} {manager : String}

/-- The object that `Apply` makes realises the configuration. -/
theorem Prepared.realises {duplicates : Bool} {reconciled : ManagedFields N}
    {configSet : FieldSet N} {m c : Value N}
    (prepared : Prepared u orders liveObject configObject version managers manager recorded newObject
      duplicates reconciled configSet m)
    (wellFormed : WellFormed managers) (soundLive : SoundObject duplicates liveObject)
    (same : SameType liveObject configObject) (isConfig : configObject.value = some c)
    (sound : Sound liveObject.schema.val false ⟨liveObject.typeRef, c⟩)
    (stable : StableKeys liveObject.schema.val liveObject.typeRef) :
    ∃ w, newObject = withValue liveObject w ∧
      Realises liveObject.schema.val liveObject.typeRef c w := by
  have isMerged := prepared.isMerged
  rw [isConfig] at isMerged
  have realises := isMerged.realises soundLive.side sound
  rcases prepared.isPruned with ⟨isMerge, -⟩ | ⟨last, held, -, isPruned⟩
  · exact ⟨m, isMerge, realises⟩
  · have wellFormedReconciled := wellFormed.reconciled prepared.isReconciled
    have everyConfig : Resolves configObject c := by
      unfold Resolves
      rw [same.schema, same.typeRef]
      exact sound.resolves
    have isSet := Except.ok.inj (prepared.isConfigSet.symm.trans (toFieldSet_eq isConfig everyConfig))
    rw [same.schema, same.typeRef] at isSet
    have canonicalConfig := toFieldSet_canonical prepared.isConfigSet
    have distinct : Distinct recorded := by
      rw [prepared.isRecorded]
      exact set_distinct wellFormedReconciled.distinct _ _
    have canonical : ∀ entry ∈ recorded, entry.2.set.Canonical := by
      intro entry member
      have found := get?_of_mem distinct member
      rw [prepared.isRecorded, get?_set] at found
      split at found
      · rw [← Option.some.inj found]
        exact canonicalConfig
      · exact wellFormedReconciled.canonical _ _ found
    refine ⟨_, isPruned, realises_pruneValue realises sound stable isMerged.sound
      (wellFormedReconciled.canonical _ _ held)
      (fun set member => managedSets_canonical orders _ canonical member) ?_⟩
    have own : (manager, (⟨configSet, version, true⟩ : VersionedSet N)) ∈ recorded := by
      rw [prepared.isRecorded]
      exact List.mem_cons_self ..
    obtain ⟨set, member, includes⟩ := exists_managedSet orders last.apiVersion canonical own
    refine ⟨set, member, covers_of_recorded (managedSets_canonical orders _ canonical member) ?_⟩
    rw [← isSet]
    exact includes

end Updater

/-- The conditions of an application in one version with nothing ignored. -/
structure Applicable (u : Updater N E) (managers : ManagedFields N)
    (liveObject configObject : TypedValue N) (duplicates : Bool) : Prop where
  identity : u.converter = .identity
  notIgnored : u.ignoredFields = []
  wellFormed : WellFormed managers
  same : SameType liveObject configObject
  soundLive : SoundObject duplicates liveObject
  soundConfig : SoundObject false configObject

omit [Consistent N] in
theorem ownedSet_of_nonEmptyEntry {managers : ManagedFields N} {manager : String}
    {entry : VersionedSet N} (canonical : entry.set.Canonical)
    (held : managers.get? manager = nonEmptyEntry entry) : ownedSet managers manager = entry.set := by
  rw [ownedSet, held, nonEmptyEntry]
  split
  · next empty => exact (canonical.eq_nil empty).symm
  · rfl

/-- The applier is recorded with what the configuration holds. -/
theorem apply_records_configuration {u : Updater N E} {orders : Orders}
    {liveObject configObject newObject : TypedValue N} {version : APIVersion}
    {managers recorded settled : ManagedFields N} {manager : String} {force duplicates : Bool}
    {comparison : Comparison N} {reconciled : ManagedFields N} {configSet : FieldSet N} {m : Value N}
    (wellFormed : WellFormed managers)
    (prepared : u.Prepared orders liveObject configObject version managers manager recorded
      newObject duplicates reconciled configSet m)
    (updated : u.update orders liveObject newObject version recorded manager force =
      .ok (settled, comparison)) : ownedSet settled manager = configSet := by
  have distinct : Distinct recorded := by
    rw [prepared.isRecorded]
    exact set_distinct (wellFormed.reconciled prepared.isReconciled).distinct _ _
  have held := (Updater.update_spec distinct updated).2.2 manager
  rw [prepared.isRecorded, get?_set, if_pos rfl, Option.bind_some, Updater.afterUpdate,
    if_pos rfl] at held
  exact ownedSet_of_nonEmptyEntry (toFieldSet_canonical prepared.isConfigSet) held

omit [Numeric N] [Consistent N] in
theorem numberSetObject_stable (items : List (Value N)) :
    StableKeys (numberSetObject items).schema.val (numberSetObject items).typeRef := by
  intro other reached t isList
  cases reached with
  | refl => cases isList
  | item isRootList => cases isRootList
  | @entry _ _ root name isMap onward =>
      cases isMap
      by_cases isField : name = "list"
      · subst isField
        cases onward with
        | refl =>
            cases isList
            exact fun key isKey => absurd isKey List.not_mem_nil
        | entry _ isMap => cases isMap
        | item isSet onItem =>
            cases isSet
            cases onItem with
            | refl => cases isList
            | item isScalar => cases isScalar
            | entry _ isScalar => cases isScalar
      · have unknown : (MapType.struct [("list", TypeRef.inline (.ofList
            (Collision.numberSet (N := N))))]).fieldType name = .zero := by
          simp [MapType.fieldType, MapType.findField, MapType.struct, Ne.symm isField]
        rw [unknown] at onward
        cases onward with
        | refl => cases isList
        | item isZero => cases isZero
        | entry _ isZero => cases isZero

/-- Objects with a list whose items have the key `k`, 0 where it is left out. -/
def defaultedObject (items : List (Value Int)) : TypedValue Int :=
  { value := some (.map [("list", .list items)])
    typeRef := .inline (.ofMap (.struct [("list", .inline (.ofList
      { elementType := .inline (.ofMap
          { fields := [⟨"k", .inline (.ofScalar .numeric), .number 0⟩]
            unions := []
            elementType := .inline (.ofScalar .numeric)
            elementRelationship := .unset })
        elementRelationship := .associative
        keys := ["k"] }))]))
    schema := ⟨0, ⟨[]⟩⟩ }

/-- The path of the item with the key. -/
def itemPath (key : Int) (rest : Path Int) : Path Int :=
  .fieldName "list" :: .key ⟨[⟨"k", .number key⟩]⟩ :: rest

end StructuredMergeDiff.Merge
