import StructuredMergeDiff.Value.Reflect.MapView

/-!
Contract: what the reads of a map agree on.

A map that can be read without a panic shows a list of entries, and all its
reads are reads of that list (`shows_entries`). The zips of two such maps are
then one loop over the keys of either, whichever implementation runs.

Owns: `Complete`, the entries shown, `ZipsRight`.
Does not own: when a struct can be read without a panic (`Value.Reflect.Reads`).
-/

namespace StructuredMergeDiff.Reflect

open Library FiniteMap

variable {N σ : Type} {grow : Nat → Nat}

/-! ## The entries a map shows -/

/-- What is shown of an entry of a Go map. -/
def shownEntry (elem : GoType) (value : GoValue) : Item N :=
  .reflected (dereference ⟨elem, value⟩)

def shownEntries (elem : GoType) (entries : List (String × GoValue)) : List (String × Item N) :=
  entries.map fun entry => (entry.1, shownEntry elem entry.2)

theorem shownEntries_keys (elem : GoType) (entries : List (String × GoValue)) :
    (shownEntries elem entries : List (String × Item N)).map Prod.fst = entries.map Prod.fst := by
  rw [shownEntries, List.map_map]
  rfl

theorem get?_shownEntries (elem : GoType) (entries : List (String × GoValue)) (key : String) :
    get? (shownEntries elem entries : List (String × Item N)) key =
      (get? entries key).map (shownEntry elem) :=
  get?_map_snd entries (shownEntry elem) key

/-- What is shown of a field, if the lookup succeeds. -/
def shownField (structVal : ReflectValue) (entry : FieldCacheEntry (List Nat)) :
    Option (Item N) :=
  match getFrom entry.fieldPath structVal with
  | .ok fieldVal =>
      if entry.canOmit fieldVal then none else some (.reflected (dereference fieldVal))
  | .error _ => none

namespace MapValue

/-- The entries in the order of iteration. -/
def entries (grow : Nat → Nat) : MapValue N → List (String × Item N)
  | .unstructured bindings _ => bindings.map fun binding => (binding.1, .unstructured binding.2)
  | .mapReflect elem entries _ => shownEntries elem entries
  | .structReflect name fields values =>
      (orderedStructFields grow fields).filterMap fun entry =>
        (shownField ⟨.struct name fields, .struct values⟩ entry).map fun item =>
          (entry.jsonName, item)

/-- The map can be read without a panic: the entries of a Go map are of supported
types, and every JSON field of a struct can be looked up and, unless it is
omitted, is of a supported type. -/
def Complete (grow : Nat → Nat) : MapValue N → Prop
  | .unstructured .. => True
  | .mapReflect elem entries _ =>
      ∀ entry ∈ entries, ∃ wrapped, mustReuse ⟨elem, entry.2⟩ = .ok wrapped
  | .structReflect name fields values =>
      ∀ entry ∈ orderedStructFields grow fields, ∃ fieldVal,
        getFrom entry.fieldPath ⟨.struct name fields, .struct values⟩ = .ok fieldVal ∧
          (entry.canOmit fieldVal = true ∨ ∃ wrapped, mustReuse fieldVal = .ok wrapped)

end MapValue

/-- The reads of a map, absent or not, are the reads of a list of entries. -/
structure Shows (grow : Nat → Nat) (m : Option (MapValue N)) (entries : List (String × Item N)) :
    Prop where
  distinct : FiniteMap.Distinct entries
  length : lengthOrNil grow m = .ok entries.length
  empty : emptyOrNil grow m = .ok entries.isEmpty
  get : ∀ key, getOrNil grow key m = .ok (FiniteMap.get? entries key)
  has : ∀ key, hasOrNil grow key m = .ok (FiniteMap.get? entries key).isSome
  iterate : ∀ {σ : Type} (fn : String → Item N → σ → Except Panic (σ × Bool)) (state : σ),
    iterateOrNil grow fn m state = visitWhile (fun entry => fn entry.1 entry.2) entries state

theorem shows_nil : Shows grow (none : Option (MapValue N)) [] where
  distinct := List.nodup_nil
  length := rfl
  empty := rfl
  get := fun _ => rfl
  has := fun _ => rfl
  iterate := fun _ _ => rfl

private theorem shows_unstructured (bindings : List (String × Value N))
    (distinct : (bindings.map Prod.fst).Nodup) :
    Shows grow (some (.unstructured bindings distinct))
      (MapValue.entries grow (.unstructured bindings distinct)) where
  distinct := by
    rw [Distinct, MapValue.entries, List.map_map]
    exact distinct
  length := by simp [lengthOrNil, MapValue.length, MapValue.entries]
  empty := by cases bindings <;> rfl
  get := fun key => by
    rw [MapValue.entries, get?_map_snd]
    rfl
  has := fun key => by
    rw [MapValue.entries, get?_map_snd, Option.isSome_map]
    rfl
  iterate := fun fn state => by
    rw [MapValue.entries, visitWhile_map]
    rfl

private theorem shows_mapReflect {elem : GoType} {entries : List (String × GoValue)}
    {distinct : (entries.map Prod.fst).Nodup}
    (complete : (MapValue.mapReflect elem entries distinct : MapValue N).Complete grow) :
    Shows grow (some (.mapReflect elem entries distinct) : Option (MapValue N))
      (MapValue.entries grow (.mapReflect elem entries distinct)) where
  distinct := by
    rw [Distinct, MapValue.entries, shownEntries_keys]
    exact distinct
  length := by simp [lengthOrNil, MapValue.length, MapValue.entries, shownEntries]
  empty := by cases entries <;> rfl
  get := fun key => by
    rw [MapValue.entries, get?_shownEntries, getOrNil, MapValue.get]
    cases found : get? entries key with
    | none => rfl
    | some value =>
        obtain ⟨wrapped, wraps⟩ := complete _ (mem_of_get? found)
        have same := mustReuse_eq wraps
        subst same
        rw [Option.map_some]
        simp only [wraps, Except.map]
        rfl
  has := fun key => by
    rw [MapValue.entries, get?_shownEntries, Option.isSome_map]
    rfl
  iterate := fun fn state => by
    rw [MapValue.entries, shownEntries, visitWhile_map]
    refine visitWhile_congr (fun entry member state => ?_) state
    obtain ⟨wrapped, wraps⟩ := complete entry member
    have same := mustReuse_eq wraps
    subst same
    simp only [wraps]
    rfl

section Struct

variable {name : String} {fields : GoFields} {values : List GoValue}

/-- Each JSON field can be looked up and is omitted or of a supported type. -/
theorem shownField_eq {structVal : ReflectValue} {entry : FieldCacheEntry (List Nat)}
    {fieldVal : ReflectValue} (looked : getFrom entry.fieldPath structVal = .ok fieldVal) :
    (shownField structVal entry : Option (Item N)) =
      if entry.canOmit fieldVal then none else some (.reflected (dereference fieldVal)) := by
  rw [shownField, looked]

private theorem eachStructField_eq {structVal : ReflectValue}
    (fn : String → ReflectValue → σ → Except Panic (σ × Bool))
    (shown : String → Item N → σ → Except Panic (σ × Bool))
    (each : ∀ entry ∈ orderedStructFields grow fields, ∃ fieldVal,
      getFrom entry.fieldPath structVal = .ok fieldVal ∧
        (entry.canOmit fieldVal = false → ∀ state, fn entry.jsonName fieldVal state =
          shown entry.jsonName (.reflected (dereference fieldVal)) state)) (state : σ) :
    eachStructField grow fields structVal fn state =
      visitWhile (fun entry => shown entry.1 entry.2)
        ((orderedStructFields grow fields).filterMap fun entry =>
          (shownField structVal entry).map fun item => (entry.jsonName, item)) state := by
  refine visitWhile_filterMap (fun entry member state => ?_) state
  obtain ⟨fieldVal, looked, same⟩ := each entry member
  simp only [looked, shownField_eq looked, bind, Except.bind]
  cases omitted : entry.canOmit fieldVal with
  | true => rfl
  | false => exact same omitted state

private theorem findJsonNameField_eq {structVal : ReflectValue}
    (each : ∀ entry ∈ orderedStructFields grow fields, ∃ fieldVal,
      getFrom entry.fieldPath structVal = .ok fieldVal ∧
        (entry.canOmit fieldVal = true ∨ ∃ wrapped, mustReuse fieldVal = .ok wrapped))
    (key : String) :
    ∃ fieldVal?, findJsonNameField grow fields structVal key = .ok fieldVal? ∧
      (∀ fieldVal, fieldVal? = some fieldVal → ∃ wrapped, mustReuse fieldVal = .ok wrapped) ∧
      (fieldVal?.map fun fieldVal => Item.reflected (N := N) (dereference fieldVal)) =
        get? ((orderedStructFields grow fields).filterMap fun entry =>
          (shownField structVal entry).map fun item => (entry.jsonName, item)) key := by
  have distinct := (orderedStructFields_increasing grow fields).imp ne_of_lt
  unfold findJsonNameField
  cases found : (structFields grow fields).get? key with
  | none =>
      refine ⟨none, rfl, by simp, Eq.symm ?_⟩
      refine get?_filterMap_of_absent fun entry member same => ?_
      rw [← same, mem_orderedStructFields.mp member] at found
      cases found
  | some entry =>
      have sameName : entry.jsonName = key := name_of_mem_structFields (mem_of_get? found)
      subst sameName
      have member := mem_orderedStructFields.mpr found
      obtain ⟨fieldVal, looked, wraps⟩ := each entry member
      refine ⟨if entry.canOmit fieldVal then none else some fieldVal, by simp [looked], ?_, ?_⟩
      · cases omitted : entry.canOmit fieldVal with
        | true => simp
        | false =>
            intro _ isSome
            cases isSome
            exact wraps.resolve_left (by simp [omitted])
      · rw [get?_filterMap_of_mem distinct member, shownField_eq looked]
        split <;> rfl

private theorem shows_structReflect
    (complete : (MapValue.structReflect name fields values : MapValue N).Complete grow) :
    Shows grow (some (.structReflect name fields values) : Option (MapValue N))
      (MapValue.entries grow (.structReflect name fields values)) where
  distinct := distinct_filterMap
    ((orderedStructFields_increasing grow fields).imp ne_of_lt)
  length := by
    have counted := eachStructField_eq (N := N) (fun _ _ count => .ok (count + 1, true))
      (fun _ _ count => .ok (count + 1, true))
      (fun entry member => (complete entry member).imp fun _ looked => ⟨looked.1, fun _ _ => rfl⟩) 0
    rw [lengthOrNil, MapValue.length, counted, visitWhile_count, Nat.zero_add]
    rfl
  empty := by
    have stopped := eachStructField_eq (N := N) (fun _ _ state => .ok (state, false))
      (fun _ _ state => .ok (state, false))
      (fun entry member => (complete entry member).imp fun _ looked => ⟨looked.1, fun _ _ => rfl⟩) ()
    rw [emptyOrNil, MapValue.empty, stopped, visitWhile_stop]
    rfl
  get := fun key => by
    obtain ⟨fieldVal?, found, wraps, same⟩ := findJsonNameField_eq (N := N) complete key
    rw [MapValue.entries, ← same, getOrNil, MapValue.get, found]
    cases fieldVal? with
    | none => rfl
    | some fieldVal =>
        obtain ⟨wrapped, wraps⟩ := wraps fieldVal rfl
        have same := mustReuse_eq wraps
        subst same
        simp only [bind, Except.bind, wraps]
        rfl
  has := fun key => by
    obtain ⟨fieldVal?, found, _, same⟩ := findJsonNameField_eq (N := N) complete key
    rw [MapValue.entries, ← same, hasOrNil, MapValue.has, found, Option.isSome_map]
    rfl
  iterate := fun fn state => by
    rw [iterateOrNil, MapValue.iterate, MapValue.entries]
    refine eachStructField_eq _ fn (fun entry member => ?_) state
    obtain ⟨fieldVal, looked, wraps⟩ := complete entry member
    refine ⟨fieldVal, looked, fun kept state => ?_⟩
    rcases wraps with omitted | ⟨wrapped, wraps⟩
    · rw [kept] at omitted
      cases omitted
    · have same := mustReuse_eq wraps
      subst same
      simp only [wraps]
      rfl

end Struct

/-- A map that can be read without a panic shows its entries, by every read. -/
theorem shows_entries {m : MapValue N} (complete : m.Complete grow) :
    Shows grow (some m) (m.entries grow) := by
  cases m with
  | unstructured bindings distinct => exact shows_unstructured bindings distinct
  | mapReflect elem entries distinct => exact shows_mapReflect complete
  | structReflect name fields values => exact shows_structReflect complete

/-! ## The zips -/

/-- The keys of either list of entries, each once. -/
structure Enumerates (lhs rhs : List (String × Item N)) (keys : List String) : Prop where
  distinct : keys.Nodup
  mem : ∀ key, key ∈ keys ↔
    (FiniteMap.get? lhs key).isSome = true ∨ (FiniteMap.get? rhs key).isSome = true

/-- The call for a key, with the values that both sides have under it. -/
def zipCall (fn : Callback N σ) (lhs rhs : List (String × Item N)) (key : String) : σ → σ × Bool :=
  fn key (get? lhs key) (get? rhs key)

/-- A zip is the loop over the keys of either side. -/
def ZipsAs (lhs rhs : List (String × Item N)) (ascending : Prop)
    (zip : {σ : Type} → Callback N σ → σ → Except Panic (σ × Bool)) : Prop :=
  ∃ keys, Enumerates lhs rhs keys ∧ (ascending → keys.Pairwise (· < ·)) ∧
    ∀ {σ : Type} (fn : Callback N σ) (state : σ),
      zip fn state = .ok (callWhile (zipCall fn lhs rhs) keys state)

section Zips

variable {lhs rhs : Option (MapValue N)} {left right : List (String × Item N)}

/-- The keys on the right that are not on the left. -/
private def newKeys (left right : List (String × Item N)) : List String :=
  right.filterMap fun entry =>
    if (get? left entry.1).isSome then none else some entry.1

private theorem mem_newKeys {key : String} :
    key ∈ newKeys left right ↔
      (get? left key).isSome = false ∧ (get? right key).isSome = true := by
  rw [newKeys, List.mem_filterMap, isSome_get?_iff, List.mem_map]
  constructor
  · rintro ⟨entry, member, same⟩
    split at same
    · cases same
    · rename_i absent
      cases same
      exact ⟨Bool.eq_false_iff.mpr absent, entry, member, rfl⟩
  · rintro ⟨absent, entry, member, same⟩
    exact ⟨entry, member, by simp [same, absent]⟩

private theorem newKeys_sublist (left right : List (String × Item N)) :
    (newKeys left right).Sublist (right.map Prod.fst) := by
  induction right with
  | nil => exact List.Sublist.slnil
  | cons entry rest ih =>
      rw [newKeys, List.filterMap_cons]
      split
      · exact ih.cons _
      · rename_i key same
        split at same <;> cases same
        exact ih.cons_cons _

private theorem enumerates_append (distinctLeft : Distinct left)
    (distinctRight : Distinct right) :
    Enumerates left right (left.map Prod.fst ++ newKeys left right) where
  distinct := by
    refine List.nodup_append.mpr ⟨distinctLeft, distinctRight.sublist (newKeys_sublist _ _), ?_⟩
    intro key inLeft other isNew same
    have absent := (mem_newKeys.mp isNew).1
    rw [← same, isSome_get?_iff.mpr inLeft] at absent
    cases absent
  mem := fun key => by
    rw [List.mem_append, ← isSome_get?_iff, mem_newKeys]
    cases (get? left key).isSome <;> simp

theorem Enumerates.perm {keys keys' : List String} (enumerates : Enumerates left right keys)
    (perm : keys'.Perm keys) : Enumerates left right keys' where
  distinct := perm.nodup_iff.mpr enumerates.distinct
  mem := fun key => perm.mem_iff.trans (enumerates.mem key)

private theorem visit_left {visit : String × Item N → σ → Except Panic (σ × Bool)}
    {fn : Callback N σ} (distinct : Distinct left)
    (each : ∀ entry ∈ left, ∀ state,
      visit entry state = .ok (fn entry.1 (some entry.2) (get? right entry.1) state))
    (state : σ) :
    visitWhile visit left state =
      visitWhile (fun key state => .ok (zipCall fn left right key state)) (left.map Prod.fst)
        state := by
  rw [visitWhile_map]
  refine visitWhile_congr (fun entry member state => ?_) state
  rw [each entry member state, zipCall, get?_of_mem distinct member]

private theorem visit_right {visit : String × Item N → σ → Except Panic (σ × Bool)}
    {fn : Callback N σ} (distinct : Distinct right)
    (each : ∀ entry ∈ right, ∀ state, visit entry state =
      if (get? left entry.1).isSome then .ok (state, true)
      else .ok (fn entry.1 none (some entry.2) state)) (state : σ) :
    visitWhile visit right state =
      visitWhile (fun key state => .ok (zipCall fn left right key state)) (newKeys left right)
        state := by
  refine visitWhile_filterMap (fun entry member state => ?_) state
  rw [each entry member state]
  cases found : get? left entry.1 with
  | some item => rfl
  | none =>
      show Except.ok (fn entry.1 none (some entry.2) state) =
        .ok (fn entry.1 (get? left entry.1) (get? right entry.1) state)
      rw [found, get?_of_mem distinct member]

theorem unorderedMapZip_zipsAs (showsLeft : Shows grow lhs left) (showsRight : Shows grow rhs right) :
    ZipsAs left right False (fun fn state => unorderedMapZip grow lhs rhs fn state) := by
  refine ⟨left.map Prod.fst ++ newKeys left right,
    enumerates_append showsLeft.distinct showsRight.distinct, False.elim, fun fn state => ?_⟩
  rw [← visitWhile_eq_call (fun _ _ _ => rfl), visitWhile_append]
  simp only [unorderedMapZip, showsLeft.empty, showsRight.empty, showsLeft.iterate,
    showsRight.iterate, showsRight.get, showsLeft.has, bind, Except.bind, pure, Except.pure]
  have newLoop : ∀ state, visitWhile (fun entry state =>
      if (get? left entry.1).isSome = true then Except.ok (state, true)
      else .ok (fn entry.1 none (some entry.2) state)) right state =
      visitWhile (fun key state => .ok (zipCall fn left right key state)) (newKeys left right)
        state := visit_right showsRight.distinct fun _ _ _ => rfl
  rw [visit_left showsLeft.distinct (fun _ _ _ => rfl)]
  simp only [newLoop]
  cases left with
  | cons entry rest => rfl
  | nil => cases right <;> rfl

theorem lexicalKeyOrderedMapZip_zipsAs (showsLeft : Shows grow lhs left)
    (showsRight : Shows grow rhs right) :
    ZipsAs left right True (fun fn state => lexicalKeyOrderedMapZip grow lhs rhs fn state) := by
  have enumerates := enumerates_append showsLeft.distinct showsRight.distinct
  let keys := (left.map Prod.fst ++ newKeys left right).insertionSort (· ≤ ·)
  have sorted : Enumerates left right keys := enumerates.perm (List.perm_insertionSort _ _)
  refine ⟨keys, sorted, fun _ => ?_, fun fn state => ?_⟩
  · have ordered : keys.Pairwise (· ≤ ·) := List.pairwise_insertionSort _ _
    exact (ordered.and sorted.distinct).imp fun both => lt_of_le_of_ne both.1 both.2
  · have newLoop : visitWhile (ε := Panic) (fun entry ordered =>
        if (get? left entry.1).isSome = true then .ok (ordered, true)
        else .ok (ordered ++ [entry.1], true)) right (left.map Prod.fst) =
        .ok (left.map Prod.fst ++ newKeys left right, true) := by
      rw [← List.map_id (newKeys left right), ← visitWhile_gather]
      refine visitWhile_filterMap (fun entry _ ordered => ?_) _
      split <;> rfl
    rw [← visitWhile_eq_call (fun _ _ _ => rfl)]
    simp only [lexicalKeyOrderedMapZip, showsLeft.length, showsRight.length, showsLeft.iterate,
      showsRight.iterate, showsLeft.get, showsRight.get, showsLeft.has, bind, Except.bind, pure,
      Except.pure, visitWhile_gather, List.nil_append, newLoop]
    split
    · rename_i bothEmpty
      have noLeft := List.length_eq_zero_iff.mp bothEmpty.1
      have noRight := List.length_eq_zero_iff.mp bothEmpty.2
      subst noLeft noRight
      rfl
    · rfl

theorem Enumerates.symm {keys : List String} (enumerates : Enumerates right left keys) :
    Enumerates left right keys where
  distinct := enumerates.distinct
  mem := fun key => (enumerates.mem key).trans or_comm

section GoMaps

variable {lhsElem rhsElem : GoType} {lhsEntries rhsEntries : List (String × GoValue)}
  {lhsDistinct : (lhsEntries.map Prod.fst).Nodup} {rhsDistinct : (rhsEntries.map Prod.fst).Nodup}

private theorem zipRhsEntry_eq
    (completeLeft : (MapValue.mapReflect lhsElem lhsEntries lhsDistinct : MapValue N).Complete grow)
    (completeRight :
      (MapValue.mapReflect rhsElem rhsEntries rhsDistinct : MapValue N).Complete grow)
    (fn : Callback N σ) {entry : String × GoValue} (member : entry ∈ rhsEntries)
    (visited : List String) (state : σ) :
    let result := fn entry.1 ((get? lhsEntries entry.1).map (shownEntry lhsElem))
      (some (shownEntry rhsElem entry.2)) state
    zipRhsEntry lhsElem lhsEntries rhsElem fn entry (visited, state) =
      .ok ((entry.1 :: visited, result.1), result.2) := by
  obtain ⟨wrapped, wraps⟩ := completeRight entry member
  have same := mustReuse_eq wraps
  subst same
  unfold zipRhsEntry
  cases found : get? lhsEntries entry.1 with
  | none =>
      simp only [wraps, bind, Except.bind]
      rfl
  | some value =>
      obtain ⟨_, wrapsLeft⟩ := completeLeft _ (mem_of_get? found)
      have same := mustReuse_eq wrapsLeft
      subst same
      simp only [wraps, wrapsLeft, bind, Except.bind, Except.map]
      rfl

private theorem right_calls (fn : Callback N σ) (distinct : (rhsEntries.map Prod.fst).Nodup)
    (state : σ) :
    callWhile (fun entry : String × GoValue =>
        fn entry.1 ((get? lhsEntries entry.1).map (shownEntry lhsElem))
          (some (shownEntry rhsElem entry.2))) rhsEntries state =
      callWhile (zipCall fn (shownEntries lhsElem lhsEntries) (shownEntries rhsElem rhsEntries))
        (rhsEntries.map Prod.fst) state := by
  rw [callWhile_map]
  refine callWhile_congr (fun entry member state => ?_) state
  rw [zipCall, get?_shownEntries, get?_shownEntries, get?_of_mem distinct member]
  rfl

private theorem left_calls
    (completeLeft : (MapValue.mapReflect lhsElem lhsEntries lhsDistinct : MapValue N).Complete grow)
    (fn : Callback N σ) {visited : List String}
    (all : ∀ key, visited.contains key = (get? rhsEntries key).isSome) (state : σ) :
    visitWhile (fun entry state => do
        if visited.contains entry.1 then return (state, true)
        else return fn entry.1 (some (.reflected (← mustReuse ⟨lhsElem, entry.2⟩))) none state)
        lhsEntries state =
      .ok (callWhile (zipCall fn (shownEntries lhsElem lhsEntries) (shownEntries rhsElem rhsEntries))
        (newKeys (shownEntries (N := N) rhsElem rhsEntries) (shownEntries lhsElem lhsEntries))
        state) := by
  have loop := @visit_right _ _ (shownEntries rhsElem rhsEntries) (shownEntries lhsElem lhsEntries)
    _ (fun key rhs lhs => fn key lhs rhs) (shows_mapReflect completeLeft).distinct
    (fun _ _ _ => rfl) state
  rw [← visitWhile_eq_call (fun _ _ _ => rfl)]
  refine Eq.trans ?_ ((visitWhile_map _ _ lhsEntries state).symm.trans loop)
  refine visitWhile_congr (fun entry member state => ?_) state
  obtain ⟨wrapped, wraps⟩ := completeLeft entry member
  have same := mustReuse_eq wraps
  subst same
  rw [get?_shownEntries, Option.isSome_map, all]
  simp only [wraps]
  rfl

/-- Two Go maps, walked from the right one on. -/
theorem unorderedReflectZip_zipsAs
    (completeLeft : (MapValue.mapReflect lhsElem lhsEntries lhsDistinct : MapValue N).Complete grow)
    (completeRight :
      (MapValue.mapReflect rhsElem rhsEntries rhsDistinct : MapValue N).Complete grow) :
    ZipsAs (shownEntries (N := N) lhsElem lhsEntries) (shownEntries rhsElem rhsEntries) False
      (fun fn state => unorderedReflectZip lhsElem lhsEntries rhsElem rhsEntries fn state) := by
  have distinctLeft : Distinct (shownEntries (N := N) lhsElem lhsEntries) :=
    (shows_mapReflect completeLeft).distinct
  have distinctRight : Distinct (shownEntries (N := N) rhsElem rhsEntries) :=
    (shows_mapReflect completeRight).distinct
  refine ⟨_, (enumerates_append distinctRight distinctLeft).symm, False.elim, fun fn state => ?_⟩
  obtain ⟨visited, ran, all⟩ := visitWhile_noting (fun entry member visited state =>
    zipRhsEntry_eq completeLeft completeRight fn member visited state) [] state
  rw [right_calls fn rhsDistinct] at ran all
  rw [callWhile_append, shownEntries_keys]
  simp only [unorderedReflectZip, ran, bind, Except.bind]
  split
  · rename_i bothEmpty
    rw [Bool.and_eq_true, List.isEmpty_iff, List.isEmpty_iff] at bothEmpty
    obtain ⟨rfl, rfl⟩ := bothEmpty
    rfl
  · cases ended : (callWhile (zipCall fn (shownEntries lhsElem lhsEntries)
        (shownEntries rhsElem rhsEntries)) (rhsEntries.map Prod.fst) state).2 with
    | false => simp [pure, Except.pure]
    | true =>
        simp only [if_true]
        refine left_calls completeLeft fn (fun key => ?_) _
        rw [all ended, List.append_nil, Bool.eq_iff_iff, isSome_get?_iff,
          List.contains_iff_mem, List.mem_reverse]

end GoMaps

section Structs

variable {name : String} {fields : GoFields} {values values' : List GoValue}

private theorem fieldItem_eq
    (complete : (MapValue.structReflect name fields values : MapValue N).Complete grow)
    {entry : FieldCacheEntry (List Nat)} (member : entry ∈ orderedStructFields grow fields) :
    let structVal : ReflectValue := ⟨.struct name fields, .struct values⟩
    ∃ fieldVal, getFrom entry.fieldPath structVal = .ok fieldVal ∧
      fieldItem (N := N) entry.toFieldInfo fieldVal = .ok (shownField structVal entry) ∧
      entry.canOmit fieldVal = (shownField (N := N) structVal entry).isNone := by
  obtain ⟨fieldVal, looked, wraps⟩ := complete entry member
  refine ⟨fieldVal, looked, ?_⟩
  rw [shownField_eq looked, fieldItem]
  cases omitted : entry.canOmit fieldVal with
  | true => exact ⟨rfl, rfl⟩
  | false =>
      obtain ⟨wrapped, wraps⟩ := wraps.resolve_left (by simp [omitted])
      have same := mustReuse_eq wraps
      subst same
      simp [wraps, Except.map]

/-- The names of the fields shown on either side. -/
private def shownNames (entries : List (FieldCacheEntry (List Nat)))
    (lhs rhs : FieldCacheEntry (List Nat) → Option (Item N)) : List String :=
  entries.filterMap fun entry =>
    if (lhs entry).isNone && (rhs entry).isNone then none else some entry.jsonName

private theorem shownNames_sublist (entries : List (FieldCacheEntry (List Nat)))
    (lhs rhs : FieldCacheEntry (List Nat) → Option (Item N)) :
    (shownNames entries lhs rhs).Sublist (entries.map fun entry => entry.jsonName) := by
  induction entries with
  | nil => exact List.Sublist.slnil
  | cons entry rest ih =>
      rw [shownNames, List.filterMap_cons]
      split
      · exact ih.cons _
      · rename_i key same
        split at same <;> cases same
        exact ih.cons_cons _

private theorem enumerates_shownNames {entries : List (FieldCacheEntry (List Nat))}
    (distinct : (entries.map fun entry => entry.jsonName).Nodup)
    (lhs rhs : FieldCacheEntry (List Nat) → Option (Item N)) :
    Enumerates
      (entries.filterMap fun entry => (lhs entry).map fun item => (entry.jsonName, item))
      (entries.filterMap fun entry => (rhs entry).map fun item => (entry.jsonName, item))
      (shownNames entries lhs rhs) where
  distinct := distinct.sublist (shownNames_sublist _ _ _)
  mem := fun key => by
    rw [shownNames, List.mem_filterMap]
    by_cases named : ∃ entry ∈ entries, entry.jsonName = key
    · obtain ⟨entry, member, rfl⟩ := named
      rw [get?_filterMap_of_mem distinct member,
        get?_filterMap_of_mem distinct member]
      constructor
      · intro ⟨other, inEntries, same⟩
        split at same
        · cases same
        · rename_i shown
          have sameEntry := List.inj_on_of_nodup_map distinct inEntries member (Option.some.inj same)
          subst sameEntry
          cases shownLeft : lhs other <;> cases shownRight : rhs other <;>
            simp_all
      · intro shown
        refine ⟨entry, member, if_neg ?_⟩
        cases shownLeft : lhs entry <;> cases shownRight : rhs entry <;> simp_all
    · have absent : ∀ entry ∈ entries, entry.jsonName ≠ key :=
        fun entry member same => named ⟨entry, member, same⟩
      rw [get?_filterMap_of_absent absent, get?_filterMap_of_absent absent]
      refine iff_of_false ?_ (by simp)
      intro ⟨entry, member, same⟩
      split at same
      · cases same
      · exact absent entry member (Option.some.inj same)

/-- Two structs of one type, walked along their common fields. -/
theorem structZip_zipsAs
    (completeLeft : (MapValue.structReflect name fields values : MapValue N).Complete grow)
    (completeRight : (MapValue.structReflect name fields values' : MapValue N).Complete grow) :
    ZipsAs ((MapValue.structReflect name fields values : MapValue N).entries grow)
      ((MapValue.structReflect name fields values' : MapValue N).entries grow) True
      (fun fn state => structZip grow fields ⟨.struct name fields, .struct values⟩
        ⟨.struct name fields, .struct values'⟩ fn state) := by
  have increasing := orderedStructFields_increasing grow fields
  have distinct := increasing.imp ne_of_lt
  refine ⟨_, enumerates_shownNames distinct _ _,
    fun _ => increasing.sublist (shownNames_sublist _ _ _), fun fn state => ?_⟩
  rw [← visitWhile_eq_call (fun _ _ _ => rfl)]
  refine visitWhile_filterMap (fun entry member state => ?_) state
  obtain ⟨lhsFieldVal, lookedLeft, itemLeft, omittedLeft⟩ := fieldItem_eq completeLeft member
  obtain ⟨rhsFieldVal, lookedRight, itemRight, omittedRight⟩ := fieldItem_eq completeRight member
  simp only [lookedLeft, lookedRight, omittedLeft, omittedRight, itemLeft, itemRight, bind,
    Except.bind]
  split
  · rfl
  · show _ = Except.ok (fn entry.jsonName (get? _ entry.jsonName)
      (get? _ entry.jsonName) state)
    rw [MapValue.entries, MapValue.entries, get?_filterMap_of_mem distinct member,
      get?_filterMap_of_mem distinct member]
    rfl

end Structs

/-! ## `MapZip` -/

def entriesOrNil (grow : Nat → Nat) : Option (MapValue N) → List (String × Item N)
  | none => []
  | some m => m.entries grow

theorem shows_entriesOrNil (complete : ∀ m ∈ lhs, m.Complete grow) :
    Shows grow lhs (entriesOrNil grow lhs) := by
  cases lhs with
  | none => exact shows_nil
  | some m => exact shows_entries (complete m rfl)

theorem ZipsAs.mono {ascending weaker : Prop}
    {zip : {σ : Type} → Callback N σ → σ → Except Panic (σ × Bool)}
    (zips : ZipsAs left right ascending zip) (imp : weaker → ascending) :
    ZipsAs left right weaker zip := by
  obtain ⟨keys, enumerates, increasing, runs⟩ := zips
  exact ⟨keys, enumerates, fun holds => increasing (imp holds), runs⟩

theorem ZipsAs.of_eq {ascending : Prop}
    {zip other : {σ : Type} → Callback N σ → σ → Except Panic (σ × Bool)}
    (zips : ZipsAs left right ascending zip)
    (same : ∀ {σ : Type} (fn : Callback N σ) (state : σ), other fn state = zip fn state) :
    ZipsAs left right ascending other := by
  obtain ⟨keys, enumerates, increasing, runs⟩ := zips
  exact ⟨keys, enumerates, increasing, fun fn state => (same fn state).trans (runs fn state)⟩

theorem defaultMapZip_zipsAs (showsLeft : Shows grow lhs left) (showsRight : Shows grow rhs right)
    (order : MapTraverseOrder) :
    ZipsAs left right (order = .lexicalKeyOrder)
      (fun fn state => defaultMapZip grow lhs rhs order fn state) := by
  cases order with
  | unordered => exact (unorderedMapZip_zipsAs showsLeft showsRight).mono fun same => nomatch same
  | lexicalKeyOrder => exact (lexicalKeyOrderedMapZip_zipsAs showsLeft showsRight).mono fun _ => trivial

/-- Every implementation of `Zip`, on maps that can be read without a panic. -/
theorem zip_zipsAs {m : MapValue N} (completeLeft : m.Complete grow)
    (completeRight : ∀ other ∈ rhs, other.Complete grow) (order : MapTraverseOrder) :
    ZipsAs (m.entries grow) (entriesOrNil grow rhs) (order = .lexicalKeyOrder)
      (fun fn state => m.zip grow rhs order fn state) := by
  have default := defaultMapZip_zipsAs (shows_entries completeLeft)
    (shows_entriesOrNil completeRight) order
  cases m with
  | unstructured bindings distinct => exact default
  | mapReflect elem entries distinct =>
      cases rhs with
      | none => exact default
      | some other =>
          cases other with
          | mapReflect otherElem otherEntries otherDistinct =>
              cases order with
              | lexicalKeyOrder => exact default
              | unordered =>
                  exact (unorderedReflectZip_zipsAs completeLeft (completeRight _ rfl)).mono
                    fun same => nomatch same
          | unstructured | structReflect => exact default
  | structReflect name fields values =>
      cases rhs with
      | none => exact default
      | some other =>
          cases other with
          | structReflect name' fields' values' =>
              by_cases same : GoType.struct name fields = .struct name' fields'
              · cases same
                have zips := structZip_zipsAs completeLeft (completeRight _ rfl)
                exact (zips.mono fun _ => trivial).of_eq fun _ _ => if_pos rfl
              · exact default.of_eq fun _ _ => if_neg same
          | unstructured | mapReflect => exact default

theorem mapZip_zipsAs (completeLeft : ∀ m ∈ lhs, m.Complete grow)
    (completeRight : ∀ m ∈ rhs, m.Complete grow) (order : MapTraverseOrder) :
    ZipsAs (entriesOrNil grow lhs) (entriesOrNil grow rhs) (order = .lexicalKeyOrder)
      (fun fn state => mapZip grow lhs rhs order fn state) := by
  cases lhs with
  | some m => exact zip_zipsAs (completeLeft m rfl) completeRight order
  | none =>
      cases rhs with
      | none =>
          exact ⟨[], ⟨List.nodup_nil, fun key => by simp [entriesOrNil]⟩,
            fun _ => List.Pairwise.nil, fun _ _ => rfl⟩
      | some m =>
          -- the arguments are swapped twice
          obtain ⟨keys, enumerates, increasing, runs⟩ :=
            zip_zipsAs (completeRight m rfl) completeLeft order
          exact ⟨keys, enumerates.symm, increasing, fun fn state => runs _ state⟩

end Zips

/-- `MapZip` in either order calls the callback once for each key of either map,
with the values that `Get` returns for it, until the callback answers no, and
reports whether it never did; in lexical order the keys ascend. -/
def ZipsRight (grow : Nat → Nat) (lhs rhs : Option (MapValue N)) : Prop :=
  ∃ getLeft getRight : String → Option (Item N),
    (∀ key, getOrNil grow key lhs = .ok (getLeft key)) ∧
    (∀ key, getOrNil grow key rhs = .ok (getRight key)) ∧
    ∀ order, ∃ keys : List String, keys.Nodup ∧
      (∀ key, key ∈ keys ↔ (getLeft key).isSome = true ∨ (getRight key).isSome = true) ∧
      (order = .lexicalKeyOrder → keys.Pairwise (· < ·)) ∧
      ∀ {σ : Type} (fn : Callback N σ) (state : σ), mapZip grow lhs rhs order fn state =
        .ok (callWhile (fun key => fn key (getLeft key) (getRight key)) keys state)

/-- A map whose `Get` answers for every key can be read without a panic. -/
theorem complete_of_get {m : MapValue N} {get : String → Option (Item N)}
    (answers : ∀ key, m.get grow key = .ok (get key)) : m.Complete grow := by
  cases m with
  | unstructured bindings distinct => trivial
  | mapReflect elem entries distinct =>
      intro entry member
      have answer := answers entry.1
      rw [MapValue.get, get?_of_mem distinct member] at answer
      cases wraps : mustReuse ⟨elem, entry.2⟩ with
      | error failure => simp [wraps, Except.map] at answer
      | ok wrapped => exact ⟨wrapped, rfl⟩
  | structReflect name fields values =>
      intro entry member
      have answer := answers entry.jsonName
      simp only [MapValue.get, findJsonNameField, mem_orderedStructFields.mp member, bind,
        Except.bind] at answer
      cases looked : getFrom entry.fieldPath ⟨.struct name fields, .struct values⟩ with
      | error failure => simp [looked] at answer
      | ok fieldVal =>
          refine ⟨fieldVal, rfl, ?_⟩
          cases omitted : entry.canOmit fieldVal with
          | true => exact .inl rfl
          | false =>
              simp only [looked, omitted] at answer
              cases wraps : mustReuse fieldVal with
              | error failure => simp [wraps, pure, Except.pure] at answer
              | ok wrapped => exact .inr ⟨wrapped, rfl⟩

/-- A struct with an inlined pointer to a struct with one field. -/
def inlinedPointer : GoFields :=
  .cons "Inner" ",inline" (.pointer (.struct "Inner" (.cons "X" "x" .string .nil))) .nil

end StructuredMergeDiff.Reflect
