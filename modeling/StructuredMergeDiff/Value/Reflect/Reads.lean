import StructuredMergeDiff.Value.Reflect.Unstructured
import StructuredMergeDiff.Value.Reflect.Zip

/-!
Contract: when a struct can be read without a panic.

The field cache is built from the types and follows inlined pointers, while the
lookup of a field panics at a nil one. Every read of the map view of a struct
completes exactly if no JSON field lies behind a nil inlined pointer and the
fields shown can themselves be converted.

Owns: `ReadsComplete` and its characterisation.
-/

namespace StructuredMergeDiff.Reflect

open Library

variable {N : Type} {grow : Nat → Nat} {encode : List Nat → String}

/-- No read of the map view of the struct panics. -/
structure ReadsComplete (N : Type) (grow : Nat → Nat) (encode : List Nat → String) (name : String)
    (fields : GoFields) (values : List GoValue) : Prop where
  length : ∃ n, (MapValue.structReflect name fields values : MapValue N).length grow = .ok n
  empty : ∃ b, (MapValue.structReflect name fields values : MapValue N).empty grow = .ok b
  get : ∀ key, ∃ item,
    (MapValue.structReflect name fields values : MapValue N).get grow key = .ok item
  has : ∀ key, ∃ b, (MapValue.structReflect name fields values : MapValue N).has grow key = .ok b
  iterate : ∀ {σ : Type} (fn : String → Item N → σ → σ × Bool) (state : σ), ∃ result,
    (MapValue.structReflect name fields values : MapValue N).iterate grow
      (fun key item state => .ok (fn key item state)) state = .ok result
  zip : ∀ other : Option (MapValue N), (∀ m ∈ other, m.Complete grow) →
    ∀ (order : MapTraverseOrder) {σ : Type} (fn : Callback N σ) (state : σ),
      (∃ result, mapZip grow (some (.structReflect name fields values)) other order fn state =
        .ok result) ∧
      ∃ result, mapZip grow other (some (.structReflect name fields values)) order fn state =
        .ok result
  unstructured : ∃ v, unstructured grow encode ⟨.struct name fields, .struct values⟩ = .ok v

/-- A JSON field can be reached, and if it is shown, it can be converted. -/
def FieldReadable (grow : Nat → Nat) (encode : List Nat → String) (info : FieldInfo)
    (path : List Nat) (values : List GoValue) : Prop :=
  ¬ BehindNil path (.struct values) ∧
    ∀ own, GoValue.select path (.struct values) = some own →
      info.canOmit ⟨info.fieldType, own⟩ = true ∨
        ∃ v, convertChild (unstructured grow encode) ⟨info.fieldType, own⟩ = .ok v

section Struct

variable {name : String} {fields : GoFields} {values : List GoValue}

/-- With kept paths the cache lists the JSON fields by name. -/
theorem mem_ordered_iff_of_kept (larger : ∀ capacity, capacity < grow capacity)
    (kept : pathsKept grow fields = true) {entry : FieldCacheEntry (List Nat)} :
    entry ∈ orderedStructFields grow fields ↔
      (byName (jsonFields fields)).get? entry.jsonName = some entry := by
  rw [mem_orderedStructFields, structFields_eq, (reads_eq_iff_kept larger fields).mpr kept]

private theorem looked_of_ordered (name : String) (larger : ∀ capacity, capacity < grow capacity)
    (kept : pathsKept grow fields = true) (typed : hasTypeFields values fields = true)
    {entry : FieldCacheEntry (List Nat)} (member : entry ∈ orderedStructFields grow fields) :
    Looked entry.toFieldInfo entry.fieldPath ⟨.struct name fields, .struct values⟩ := by
  have listed := listed_of_cached larger kept (mem_orderedStructFields.mp member)
  exact looked_of_mem_jsonFields listed.2 name typed

private theorem field_converts {info : FieldInfo} {path : List Nat}
    (looked : Looked info path ⟨.struct name fields, .struct values⟩)
    (readable : FieldReadable grow encode info path values) :
    ∃ own, getFrom path ⟨.struct name fields, .struct values⟩ = .ok ⟨info.fieldType, own⟩ ∧
      (info.canOmit ⟨info.fieldType, own⟩ = true ∨
        ∃ v, convertChild (unstructured grow encode) ⟨info.fieldType, own⟩ = .ok v) := by
  rcases looked with ⟨own, selected, _, looked⟩ | ⟨behind, _⟩
  · exact ⟨own, looked, readable.2 own selected⟩
  · exact absurd behind readable.1

private theorem wraps_of_converts {child : ReflectValue} {v : Value Number}
    {recurse : ReflectValue → Except Panic (Value Number)}
    (converts : convertChild recurse child = .ok v) :
    ∃ wrapped, mustReuse child = .ok wrapped := by
  obtain ⟨wrapped, wraps, _⟩ := bind_eq_ok.mp converts
  exact ⟨wrapped, wraps⟩

private theorem readsComplete_of_readable (larger : ∀ capacity, capacity < grow capacity)
    (kept : pathsKept grow fields = true) (typed : hasTypeFields values fields = true)
    (readable : ∀ entry ∈ orderedStructFields grow fields,
      FieldReadable grow encode entry.toFieldInfo entry.fieldPath values) :
    ReadsComplete N grow encode name fields values := by
  have complete : (MapValue.structReflect name fields values : MapValue N).Complete grow := by
    intro entry member
    obtain ⟨own, looked, shown⟩ :=
      field_converts (looked_of_ordered name larger kept typed member) (readable entry member)
    exact ⟨_, looked, shown.imp_right fun ⟨_, converts⟩ => wraps_of_converts converts⟩
  have self : ∀ m ∈ some (MapValue.structReflect name fields values : MapValue N),
      m.Complete grow := fun m isSelf => Option.some.inj isSelf ▸ complete
  have shows := shows_entries complete
  constructor
  · exact ⟨_, shows.length⟩
  · exact ⟨_, shows.empty⟩
  · exact fun key => ⟨_, shows.get key⟩
  · exact fun key => ⟨_, shows.has key⟩
  · intro σ fn state
    have ran := shows.iterate (fun key item state => .ok (fn key item state)) state
    rw [visitWhile_eq_call (fun _ _ _ => rfl)] at ran
    exact ⟨_, ran⟩
  · intro other otherComplete order σ fn state
    obtain ⟨_, _, _, runs⟩ := mapZip_zipsAs self otherComplete order
    obtain ⟨_, _, _, runsBack⟩ := mapZip_zipsAs otherComplete self order
    exact ⟨⟨_, runs fn state⟩, ⟨_, runsBack fn state⟩⟩
  · rw [unstructured_eq larger]
    have loop : ∃ result, eachStructField grow fields ⟨.struct name fields, .struct values⟩
        (convertField (unstructured grow encode)) [] = .ok result := by
      refine visitWhile_succeeds (fun entry member result => ?_) []
      obtain ⟨own, looked, shown⟩ :=
        field_converts (looked_of_ordered name larger kept typed member) (readable entry member)
      rw [looked]
      show ∃ after, (if entry.canOmit ⟨entry.fieldType, own⟩ then Except.ok (result, true)
        else convertField (unstructured grow encode) entry.jsonName ⟨entry.fieldType, own⟩ result) =
          .ok after
      rcases shown with omitted | ⟨v, converts⟩
      · exact ⟨_, if_pos omitted⟩
      · rw [convertField, converts]
        split <;> exact ⟨_, rfl⟩
    obtain ⟨result, ran⟩ := loop
    refine ⟨.map result.1, ?_⟩
    rw [unstructuredBody, ran]
    rfl

private theorem converts_of_convertField
    {recurse : ReflectValue → Except Panic (Value Number)} {jsonName : String}
    {fieldVal : ReflectValue} {result : List (String × Value Number)}
    {after : List (String × Value Number) × Bool}
    (entered : convertField recurse jsonName fieldVal result = .ok after) :
    (∃ v, convertChild recurse fieldVal = .ok v) ∧ after.2 = true := by
  obtain ⟨v, converted, rest⟩ := bind_eq_ok.mp entered
  cases rest
  exact ⟨⟨v, converted⟩, rfl⟩

private theorem converts_of_step {recurse : ReflectValue → Except Panic (Value Number)}
    {structVal : ReflectValue} {entry : FieldCacheEntry (List Nat)}
    {result : List (String × Value Number)} {after : List (String × Value Number) × Bool}
    (visited : (do
      let fieldVal ← getFrom entry.fieldPath structVal
      if entry.canOmit fieldVal then return (result, true)
      else convertField recurse entry.jsonName fieldVal result) = .ok after) :
    (∃ fieldVal, getFrom entry.fieldPath structVal = .ok fieldVal ∧
      (entry.canOmit fieldVal = true ∨ ∃ v, convertChild recurse fieldVal = .ok v)) ∧
      after.2 = true := by
  obtain ⟨fieldVal, looked, entered⟩ := bind_eq_ok.mp visited
  split at entered
  · rename_i omitted
    cases entered
    exact ⟨⟨fieldVal, looked, .inl omitted⟩, rfl⟩
  · obtain ⟨converted, goesOn⟩ := converts_of_convertField entered
    exact ⟨⟨fieldVal, looked, .inr converted⟩, goesOn⟩

/-- What the conversion of the struct tells about each JSON field. -/
theorem fieldReadable_of_unstructured (larger : ∀ capacity, capacity < grow capacity)
    (kept : pathsKept grow fields = true) (typed : hasTypeFields values fields = true)
    {v : Value Number}
    (converts : unstructured grow encode ⟨.struct name fields, .struct values⟩ = .ok v) :
    ∀ entry ∈ orderedStructFields grow fields,
      FieldReadable grow encode entry.toFieldInfo entry.fieldPath values := by
  intro entry member
  rw [unstructured_eq larger, unstructuredBody] at converts
  obtain ⟨result, ran, _⟩ := bind_eq_ok.mp converts
  obtain ⟨before, after, visited⟩ := visit_ok_of_visitWhile
    (fun _ _ _ visited => (converts_of_step visited).2) ran entry member
  obtain ⟨fieldVal, found, shown⟩ := (converts_of_step visited).1
  rcases looked_of_ordered name larger kept typed member with
    ⟨own, selected, _, looked⟩ | ⟨_, panics⟩
  · cases found.symm.trans looked
    refine ⟨fun behind => ?_, fun other isOther => ?_⟩
    · cases selected.symm.trans behind.select_eq_none
    · cases selected.symm.trans isOther
      exact shown
  · cases found.symm.trans panics

end Struct

end StructuredMergeDiff.Reflect
