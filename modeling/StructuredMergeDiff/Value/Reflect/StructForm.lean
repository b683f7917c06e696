import StructuredMergeDiff.Value.Order
import StructuredMergeDiff.Value.Reflect.Reads

/-!
Contract: the unstructured form of a struct, field by field.

Each JSON field is behind a nil inlined pointer, omitted, or shown in its own
unstructured form. A struct whose fields can all be read has the map of those
that are shown, and two such maps are equal if every field shows the same.

Owns: `shown`, `Readable`, `Alike`, and their agreement with `unstructured`.
-/

namespace StructuredMergeDiff.Reflect

open Library

/-! ## What is shown of a value -/

variable (grow : Nat → Nat) (encode : List Nat → String)

def omits (omitEmpty : Bool) (r : ReflectValue) : Bool :=
  omitEmpty && (safeIsNil r || isZero r)

/-- The unstructured form of a value, none if it is omitted, if it has one. -/
def shown (omitEmpty : Bool) (type : GoType) (value : GoValue) : Option (Option (Value Number)) :=
  if omits omitEmpty ⟨type, value⟩ then some none
  else (convertChild (unstructured grow encode) ⟨type, value⟩).toOption.map some

def fieldShown (field : FieldInfo × List Nat) (value : GoValue) : Option (Option (Value Number)) :=
  (value.select field.2).bind (shown grow encode field.1.isOmitEmpty field.1.fieldType)

/-- Every field of the list can be read. -/
def Readable (fields : List (FieldInfo × List Nat)) (value : GoValue) : Prop :=
  ∀ field ∈ fields, (fieldShown grow encode field value).isSome = true

/-- The fields of the list show the same of both values. -/
def Alike (fields : List (FieldInfo × List Nat)) (x y : GoValue) : Prop :=
  ∀ field ∈ fields,
    Option.Rel Value.SameOption (fieldShown grow encode field x) (fieldShown grow encode field y)

variable {grow encode}

theorem sameOption_some {u v : Value Number} :
    Value.SameOption (some u) (some v) ↔ (u == v) = true :=
  Option.rel_some_some

theorem sameOption_refl (u : Option (Value Number)) : Value.SameOption u u := by
  cases u with
  | none => exact .none
  | some v => exact .some (Value.beq_refl v)

theorem Readable.alike {fields : List (FieldInfo × List Nat)}
    {x : GoValue} (readable : Readable grow encode fields x) : Alike grow encode fields x x := by
  intro field member
  obtain ⟨u, isShown⟩ := Option.isSome_iff_exists.mp (readable field member)
  rw [isShown]
  exact .some (sameOption_refl u)

/-! ## The map of a struct -/

section Struct

variable {name : String} {fields : GoFields} {values : List GoValue}

variable (grow encode) in
/-- The bindings of the fields that are shown, in the order of the cache. -/
def bindings (fields : GoFields) (values : List GoValue) : List (String × Value Number) :=
  (orderedStructFields grow fields).filterMap fun entry =>
    (fieldShown grow encode (entry.toFieldInfo, entry.fieldPath) (.struct values)).join.map
      fun v => (entry.jsonName, v)

/-- What the conversion meets at a field that can be read. -/
theorem looked_of_shown {info : FieldInfo} {path : List Nat} {u : Option (Value Number)}
    (looked : Looked info path ⟨.struct name fields, .struct values⟩)
    (isShown : fieldShown grow encode (info, path) (.struct values) = some u) :
    ∃ own, own.hasType info.fieldType = true ∧
      getFrom path ⟨.struct name fields, .struct values⟩ = .ok ⟨info.fieldType, own⟩ ∧
      shown grow encode info.isOmitEmpty info.fieldType own = some u := by
  obtain ⟨own, selected, ownShown⟩ := Option.bind_eq_some_iff.mp isShown
  rcases looked with ⟨other, isOther, typed, found⟩ | ⟨behind, _⟩
  · cases selected.symm.trans isOther
    exact ⟨own, typed, found, ownShown⟩
  · cases selected.symm.trans behind.select_eq_none

theorem shown_eq_some_some {omitEmpty : Bool} {type : GoType} {value : GoValue}
    {v : Value Number} :
    shown grow encode omitEmpty type value = some (some v) ↔
      omits omitEmpty ⟨type, value⟩ = false ∧
        convertChild (unstructured grow encode) ⟨type, value⟩ = .ok v := by
  unfold shown
  cases omits omitEmpty ⟨type, value⟩ <;>
    cases convertChild (unstructured grow encode) ⟨type, value⟩ <;> simp [Except.toOption]

theorem shown_eq_some_none {omitEmpty : Bool} {type : GoType} {value : GoValue} :
    shown grow encode omitEmpty type value = some none ↔
      omits omitEmpty ⟨type, value⟩ = true := by
  unfold shown
  cases omits omitEmpty ⟨type, value⟩ <;>
    cases convertChild (unstructured grow encode) ⟨type, value⟩ <;> simp [Except.toOption]

section

variable (larger : ∀ capacity, capacity < grow capacity)

include larger

/-- A struct whose fields can be read is converted to the map of those shown. -/
theorem unstructured_struct (kept : pathsKept grow fields = true)
    (typed : hasTypeFields values fields = true)
    (readable : Readable grow encode (jsonFields fields) (.struct values)) :
    unstructured grow encode ⟨.struct name fields, .struct values⟩ =
      .ok (.map (bindings grow encode fields values)) := by
  have gathers : eachStructField grow fields ⟨.struct name fields, .struct values⟩
      (convertField (unstructured grow encode)) [] =
        visitWhile (fun binding result => .ok (result ++ [binding], true))
          (bindings grow encode fields values) [] := by
    refine visitWhile_filterMap (fun entry member result => ?_) []
    have listed := (listed_of_cached larger kept (mem_orderedStructFields.mp member)).2
    obtain ⟨u, isShown⟩ := Option.isSome_iff_exists.mp (readable _ listed)
    obtain ⟨own, _, found, ownShown⟩ :=
      looked_of_shown (looked_of_mem_jsonFields listed name typed) isShown
    rw [found, isShown]
    cases u with
    | none =>
        have omitted : entry.canOmit ⟨entry.fieldType, own⟩ = true :=
          shown_eq_some_none.mp ownShown
        simp only [bind, Except.bind, omitted]
        rfl
    | some v =>
        obtain ⟨kept, converts⟩ := shown_eq_some_some.mp ownShown
        have kept : entry.canOmit ⟨entry.fieldType, own⟩ = false := kept
        simp only [bind, Except.bind, kept, convertField, converts]
        rfl
  rw [unstructured_eq larger, unstructuredBody, gathers]
  have all := visitWhile_gather (ε := Panic) id (bindings grow encode fields values) []
  rw [List.map_id, List.nil_append] at all
  exact congrArg (fun run => run.bind fun result => .ok (Value.map result.1)) all

section

variable (distinct : DistinctNames fields) (kept : pathsKept grow fields = true)

include distinct kept

theorem mem_ordered_of_listed {info : FieldInfo} {path : List Nat}
    (listed : (info, path) ∈ jsonFields fields) :
    ⟨info, path⟩ ∈ orderedStructFields grow fields :=
  mem_orderedStructFields.mpr ((cached_of_kept larger distinct kept).mpr ⟨rfl, listed⟩)

/-- A struct can be converted exactly if its fields can be read. -/
theorem readable_iff_converts (typed : hasTypeFields values fields = true) :
    Readable grow encode (jsonFields fields) (.struct values) ↔
      ∃ v, unstructured grow encode ⟨.struct name fields, .struct values⟩ = .ok v := by
  constructor
  · intro readable
    exact ⟨_, unstructured_struct larger kept typed readable⟩
  · intro ⟨v, converts⟩ ⟨info, path⟩ listed
    have readable := fieldReadable_of_unstructured larger kept typed converts _
      (mem_ordered_of_listed larger distinct kept listed)
    rcases looked_of_mem_jsonFields listed name typed with ⟨own, selected, _⟩ | ⟨behind, _⟩
    · rw [fieldShown, selected, Option.bind_some, Option.isSome_iff_exists]
      rcases readable.2 own selected with omitted | ⟨w, shows⟩
      · exact ⟨none, shown_eq_some_none.mpr omitted⟩
      · cases omitted : omits info.isOmitEmpty ⟨info.fieldType, own⟩ with
        | true => exact ⟨none, shown_eq_some_none.mpr omitted⟩
        | false => exact ⟨some w, shown_eq_some_some.mpr ⟨omitted, shows⟩⟩
    · exact absurd behind readable.1

/-- The maps of two structs are equal exactly if every field shows the same of both. -/
theorem bindings_beq_iff_alike {others : List GoValue}
    (readable : Readable grow encode (jsonFields fields) (.struct values))
    (readableOther : Readable grow encode (jsonFields fields) (.struct others)) :
    (Value.map (bindings grow encode fields values) ==
        Value.map (bindings grow encode fields others)) = true ↔
      Alike grow encode (jsonFields fields) (.struct values) (.struct others) := by
  rw [Value.beq_map_iff_agree, bindings, bindings, FiniteMap.agree_filterMap
    ((orderedStructFields_increasing grow fields).imp LT.lt.ne)]
  have same {info : FieldInfo} {path : List Nat} (listed : (info, path) ∈ jsonFields fields) :
      Option.Rel (fun x y : Value Number => (x == y) = true)
          (fieldShown grow encode (info, path) (.struct values)).join
          (fieldShown grow encode (info, path) (.struct others)).join ↔
        Option.Rel Value.SameOption (fieldShown grow encode (info, path) (.struct values))
          (fieldShown grow encode (info, path) (.struct others)) := by
    obtain ⟨u, isShown⟩ := Option.isSome_iff_exists.mp (readable _ listed)
    obtain ⟨v, otherShown⟩ := Option.isSome_iff_exists.mp (readableOther _ listed)
    rw [isShown, otherShown]
    exact Option.rel_some_some.symm
  constructor
  · intro each ⟨info, path⟩ listed
    exact (same listed).mp (each _ (mem_ordered_of_listed larger distinct kept listed))
  · intro alike entry member
    have listed := (listed_of_cached larger kept (mem_orderedStructFields.mp member)).2
    exact (same listed).mpr (alike _ listed)

end

end

end Struct

end StructuredMergeDiff.Reflect
