import StructuredMergeDiff.Value.Reflect.Agreement

/-!
Contract: the types for which `reflect.DeepEqual` and the unstructured form
distinguish the same values.

A struct adds the fields without a JSON name and those behind an inlined pointer
to what the unstructured form does not show. A type is faithful if nothing of the
kind occurs in it, at any depth, and all its values can be converted.

Owns: `faithful` and the equivalence with agreement on all values of a type.
Does not own: equality through the interface (`Value.Reflect.ListEquality`).
-/

namespace StructuredMergeDiff.Reflect

open Library

/-! ## Faithful types -/

mutual

/-- The type has one value. -/
def GoType.single : GoType → Bool
  | .struct _ fields => fields.single
  | _ => false

def GoFields.single : GoFields → Bool
  | .nil => true
  | .cons _ _ type rest => type.single && rest.single

end

mutual

/-- `reflect.DeepEqual` and the unstructured form distinguish the same values of the
type, where empty ones are omitted or not. -/
def faithful (omitEmpty : Bool) : GoType → Bool
  | .uint .bits64 | .interface => false
  | .pointer elem => elem.pointable omitEmpty && faithful false elem
  | .slice elem | .map elem => !omitEmpty && faithful false elem
  | .struct _ fields => faithfulFields fields
  | _ => true

def faithfulFields : GoFields → Bool
  | .nil => true
  | .cons name tag type rest =>
      (match fieldRole name tag type with
        | .dropped => type.single
        | .field info => faithful info.isOmitEmpty type
        | .inlined _ =>
            match type with
            | .struct _ fields => faithfulFields fields
            | _ => false) && faithfulFields rest

end

mutual

/-- The struct types that are read have distinct JSON names and are looked up right. -/
def regular (grow : Nat → Nat) : GoType → Bool
  | .pointer elem | .slice elem | .map elem => regular grow elem
  | .struct _ fields =>
      decide (DistinctNames fields) && pathsKept grow fields && regularFields grow fields
  | _ => true

def regularFields (grow : Nat → Nat) : GoFields → Bool
  | .nil => true
  | .cons name tag type rest =>
      (match fieldRole name tag type with
        | .dropped => true
        | .field _ => regular grow type
        | .inlined _ =>
            match type with
            | .struct _ fields | .pointer (.struct _ fields) => regularFields grow fields
            | _ => true) && regularFields grow rest

end

theorem regularFields_cons (grow : Nat → Nat) (name tag : String) (type : GoType)
    (rest : GoFields) :
    regularFields grow (.cons name tag type rest) =
      ((match fieldRole name tag type with
        | .dropped => true
        | .field _ => regular grow type
        | .inlined fields => regularFields grow fields) && regularFields grow rest) := by
  rw [regularFields.eq_def]
  cases role : fieldRole name tag type with
  | dropped | field => simp only [role]
  | inlined fields => obtain ⟨s, rfl | rfl⟩ := type_of_inlined role <;> simp only [role]

theorem faithfulFields_cons (name tag : String) (type : GoType) (rest : GoFields) :
    faithfulFields (.cons name tag type rest) =
      ((match fieldRole name tag type with
        | .dropped => type.single
        | .field info => faithful info.isOmitEmpty type
        | .inlined _ =>
            match type with
            | .struct _ fields => faithfulFields fields
            | _ => false) && faithfulFields rest) := by
  rw [faithfulFields.eq_def]

/-! ## Agreement on the values of a type -/

variable (grow : Nat → Nat) (encode : List Nat → String)

/-- The fields of the list can be read in all values of the type, and tell apart
those that `reflect.DeepEqual` tells apart. -/
def TellApart (fields : List (FieldInfo × List Nat)) (type : GoType) : Prop :=
  ∀ x y, x.hasType type = true → y.hasType type = true →
    Readable grow encode fields x ∧ Readable grow encode fields y ∧
      (deepValueEqual x y = true ↔ Alike grow encode fields x y)

variable {grow encode}

/-! ## The fields of a struct, one by one -/

/-- The JSON fields that a field contributes, with their paths from its value. -/
def headFields : FieldRole → List (FieldInfo × List Nat)
  | .dropped => []
  | .inlined fields => jsonFields fields
  | .field info => [(info, [])]

/-- The path in a struct with one more field at the beginning. -/
def bump : List Nat → List Nat
  | [] => []
  | index :: path => (index + 1) :: path

private theorem paths_succ (fields : GoFields) (index : Nat) :
    (jsonForest fields (index + 1)).paths [] =
      ((jsonForest fields index).paths []).map fun field => (field.1, bump field.2) := by
  induction fields using fields_induction generalizing index with
  | nil => rfl
  | dropped name tag type rest role later =>
      rw [jsonForest_cons, jsonForest_cons, role]
      exact later _
  | inlined name tag type rest fields role _ later =>
      rw [jsonForest_cons, jsonForest_cons, role]
      simp only [Forest.paths, List.map_append, later]
      rw [Forest.paths_eq _ ([] ++ [index + 1]), Forest.paths_eq _ ([] ++ [index])]
      simp only [List.map_map]
      rfl
  | field name tag type rest info role later =>
      rw [jsonForest_cons, jsonForest_cons, role]
      simp only [Forest.paths, List.map_cons, later]
      rfl

theorem jsonFields_cons (name tag : String) (type : GoType) (rest : GoFields) :
    jsonFields (.cons name tag type rest) =
      (headFields (fieldRole name tag type)).map (fun field => (field.1, 0 :: field.2)) ++
        (jsonFields rest).map fun field => (field.1, bump field.2) := by
  rw [jsonFields, jsonForest_cons]
  cases fieldRole name tag type with
  | dropped => exact paths_succ rest 0
  | inlined fields =>
      show Forest.paths (.node 0 _ _) [] = _
      rw [Forest.paths, Forest.paths_eq _ ([] ++ [0]), paths_succ]
      rfl
  | field info =>
      show Forest.paths (.leaf 0 info _) [] = _
      rw [Forest.paths, paths_succ]
      rfl

section Cons

variable {name tag : String} {type : GoType} {rest : GoFields} {x y : GoValue}
  {xs ys : List GoValue}

private theorem fieldShown_bump {field : FieldInfo × List Nat} (member : field ∈ jsonFields rest)
    (x : GoValue) (xs : List GoValue) :
    fieldShown grow encode (field.1, bump field.2) (.struct (x :: xs)) =
      fieldShown grow encode field (.struct xs) := by
  obtain ⟨info, path⟩ := field
  cases path with
  | nil => exact absurd rfl (ne_nil_of_mem_paths member)
  | cons index path => rfl

private theorem readable_cons :
    Readable grow encode (jsonFields (.cons name tag type rest)) (.struct (x :: xs)) ↔
      Readable grow encode (headFields (fieldRole name tag type)) x ∧
        Readable grow encode (jsonFields rest) (.struct xs) := by
  rw [jsonFields_cons, Readable, List.forall_mem_append, List.forall_mem_map, List.forall_mem_map]
  refine and_congr Iff.rfl (forall₂_congr fun field member => ?_)
  rw [fieldShown_bump member]

private theorem alike_cons :
    Alike grow encode (jsonFields (.cons name tag type rest)) (.struct (x :: xs))
        (.struct (y :: ys)) ↔
      Alike grow encode (headFields (fieldRole name tag type)) x y ∧
        Alike grow encode (jsonFields rest) (.struct xs) (.struct ys) := by
  rw [jsonFields_cons, Alike, List.forall_mem_append, List.forall_mem_map, List.forall_mem_map]
  refine and_congr Iff.rfl (forall₂_congr fun field member => ?_)
  rw [fieldShown_bump member, fieldShown_bump member]

mutual

theorem zero_deepValueEqual : (type : GoType) → deepValueEqual (zero type) (zero type) = true
  | .bool | .int _ | .uint _ | .float32 | .float64 | .string | .interface | .pointer _ | .slice _
  | .map _ => rfl
  | .struct _ fields => zeroFields_deepValueEqual fields

theorem zeroFields_deepValueEqual : (fields : GoFields) →
    deepValueEqualItems (zeroFields fields) (zeroFields fields) = true
  | .nil => rfl
  | .cons _ _ type rest => by
      rw [zeroFields, deepValueEqualItems, zero_deepValueEqual type, zeroFields_deepValueEqual rest]
      rfl

end

private theorem struct_of_hasType {n : String} {fields : GoFields} {value : GoValue}
    (typed : value.hasType (.struct n fields) = true) :
    ∃ values, value = .struct values ∧ hasTypeFields values fields = true := by
  cases value with
  | struct values => exact ⟨values, rfl, typed⟩
  | _ => simp [GoValue.hasType] at typed

private theorem cons_of_hasTypeFields {values : List GoValue}
    (typed : hasTypeFields values (.cons name tag type rest) = true) :
    ∃ x xs, values = x :: xs ∧ x.hasType type = true ∧ hasTypeFields xs rest = true := by
  cases values with
  | nil => cases typed
  | cons x xs =>
      rw [hasTypeFields, Bool.and_eq_true] at typed
      exact ⟨x, xs, rfl, typed⟩

private theorem struct_of_cons {n : String} {value : GoValue}
    (typed : value.hasType (.struct n (.cons name tag type rest)) = true) :
    ∃ x xs, value = .struct (x :: xs) ∧ x.hasType type = true ∧
      (GoValue.struct xs).hasType (.struct n rest) = true := by
  obtain ⟨values, rfl, valuesTyped⟩ := struct_of_hasType typed
  obtain ⟨x, xs, rfl, both⟩ := cons_of_hasTypeFields valuesTyped
  exact ⟨x, xs, rfl, both⟩

/-- A struct type tells its values apart if each of its fields does. -/
theorem tellApart_cons (n name tag : String) (type : GoType) (rest : GoFields) :
    TellApart grow encode (jsonFields (.cons name tag type rest))
        (.struct n (.cons name tag type rest)) ↔
      TellApart grow encode (headFields (fieldRole name tag type)) type ∧
        TellApart grow encode (jsonFields rest) (.struct n rest) := by
  have typedCons {x : GoValue} {xs : List GoValue} (here : x.hasType type = true)
      (later : hasTypeFields xs rest = true) :
      (GoValue.struct (x :: xs)).hasType (.struct n (.cons name tag type rest)) = true := by
    show (x.hasType type && hasTypeFields xs rest) = true
    rw [here, later]
    rfl
  have equalCons (x y : GoValue) (xs ys : List GoValue) :
      deepValueEqual (.struct (x :: xs)) (.struct (y :: ys)) = true ↔
        deepValueEqual x y = true ∧ deepValueEqualItems xs ys = true := Bool.and_eq_true_iff
  constructor
  · intro apart
    constructor
    · intro x y xTyped yTyped
      -- the later fields are zero on both sides
      obtain ⟨readableX, readableY, tells⟩ := apart _ _ (typedCons xTyped (zeroFields_hasType rest))
        (typedCons yTyped (zeroFields_hasType rest))
      rw [readable_cons] at readableX readableY
      rw [alike_cons, equalCons, and_iff_left (zeroFields_deepValueEqual rest),
        and_iff_left readableX.2.alike] at tells
      exact ⟨readableX.1, readableY.1, tells⟩
    · intro first second firstTyped secondTyped
      obtain ⟨xs, rfl, xsTyped⟩ := struct_of_hasType firstTyped
      obtain ⟨ys, rfl, ysTyped⟩ := struct_of_hasType secondTyped
      -- the first field is zero on both sides
      obtain ⟨readableX, readableY, tells⟩ := apart _ _ (typedCons (zero_hasType type) xsTyped)
        (typedCons (zero_hasType type) ysTyped)
      rw [readable_cons] at readableX readableY
      rw [alike_cons, equalCons, and_iff_right (zero_deepValueEqual type),
        and_iff_right readableX.1.alike] at tells
      exact ⟨readableX.2, readableY.2, tells⟩
  · intro ⟨head, tail⟩ first second firstTyped secondTyped
    obtain ⟨x, xs, rfl, xTyped, xsTyped⟩ := struct_of_cons firstTyped
    obtain ⟨y, ys, rfl, yTyped, ysTyped⟩ := struct_of_cons secondTyped
    obtain ⟨readableX, readableY, tellsHead⟩ := head x y xTyped yTyped
    obtain ⟨readableXs, readableYs, tellsTail⟩ := tail _ _ xsTyped ysTyped
    rw [readable_cons, readable_cons, alike_cons, equalCons]
    exact ⟨⟨readableX, readableXs⟩, ⟨readableY, readableYs⟩, and_congr tellsHead tellsTail⟩

end Cons

/-! ## Structs -/

theorem agrees_struct_iff (larger : ∀ capacity, capacity < grow capacity) {fields : GoFields}
    (distinct : DistinctNames fields) (kept : pathsKept grow fields = true) (name : String)
    (omitEmpty : Bool) :
    Agrees grow encode omitEmpty (.struct name fields) ↔
      TellApart grow encode (jsonFields fields) (.struct name fields) := by
  have notOmitted (values : List GoValue) :
      omits omitEmpty ⟨.struct name fields, .struct values⟩ = false := by
    cases omitEmpty <;> rfl
  constructor
  · intro agrees x y xTyped yTyped
    obtain ⟨xs, rfl, xsTyped⟩ := struct_of_hasType xTyped
    obtain ⟨ys, rfl, ysTyped⟩ := struct_of_hasType yTyped
    obtain ⟨u?, v?, uShown, vShown, tells⟩ := agrees _ _ xTyped yTyped
    have converts {values : List GoValue} {u? : Option (Value Number)}
        (isShown : shown grow encode omitEmpty (.struct name fields) (.struct values) = some u?) :
        ∃ u, u? = some u ∧
          unstructured grow encode ⟨.struct name fields, .struct values⟩ = .ok u := by
      cases u? with
      | none => cases (notOmitted values).symm.trans (shown_eq_some_none.mp isShown)
      | some u => exact ⟨u, rfl, (shown_eq_some_some.mp isShown).2⟩
    obtain ⟨u, rfl, isU⟩ := converts uShown
    obtain ⟨v, rfl, isV⟩ := converts vShown
    have readableX := (readable_iff_converts larger distinct kept xsTyped).mpr ⟨u, isU⟩
    have readableY := (readable_iff_converts larger distinct kept ysTyped).mpr ⟨v, isV⟩
    cases (unstructured_struct larger kept xsTyped readableX).symm.trans isU
    cases (unstructured_struct larger kept ysTyped readableY).symm.trans isV
    refine ⟨readableX, readableY, ?_⟩
    rw [tells, sameOption_some, bindings_beq_iff_alike larger distinct kept readableX readableY]
  · intro apart x y xTyped yTyped
    obtain ⟨xs, rfl, xsTyped⟩ := struct_of_hasType xTyped
    obtain ⟨ys, rfl, ysTyped⟩ := struct_of_hasType yTyped
    obtain ⟨readableX, readableY, tells⟩ := apart _ _ xTyped yTyped
    refine ⟨_, _, shown_eq_some_some.mpr ⟨notOmitted xs,
        unstructured_struct larger kept xsTyped readableX⟩, shown_eq_some_some.mpr ⟨notOmitted ys,
        unstructured_struct larger kept ysTyped readableY⟩, ?_⟩
    rw [tells, sameOption_some, bindings_beq_iff_alike larger distinct kept readableX readableY]

/-! ### What a field contributes -/

theorem tellApart_nil_iff {type : GoType} :
    TellApart grow encode [] type ↔
      ∀ x y, x.hasType type = true → y.hasType type = true → deepValueEqual x y = true := by
  refine forall₄_congr fun x y _ _ => ?_
  simp [Readable, Alike]

theorem tellApart_field_iff {info : FieldInfo} {type : GoType} (isType : info.fieldType = type) :
    TellApart grow encode [(info, [])] type ↔ Agrees grow encode info.isOmitEmpty type := by
  subst isType
  refine forall₄_congr fun x y _ _ => ?_
  have reads (value : GoValue) : fieldShown grow encode (info, []) value =
      shown grow encode info.isOmitEmpty info.fieldType value := rfl
  simp only [Readable, Alike, List.mem_singleton, forall_eq, reads, Option.isSome_iff_exists]
  constructor
  · intro ⟨⟨u, isU⟩, ⟨v, isV⟩, tells⟩
    refine ⟨u, v, isU, isV, ?_⟩
    rw [tells, isU, isV, Option.rel_some_some]
  · intro ⟨u, v, isU, isV, tells⟩
    refine ⟨⟨u, isU⟩, ⟨v, isV⟩, ?_⟩
    rw [tells, isU, isV, Option.rel_some_some]

/-- The fields of an inlined pointer cannot be read if it is nil. -/
theorem not_tellApart_pointer (name : String) (fields : GoFields) :
    ¬ TellApart grow encode (jsonFields fields) (.pointer (.struct name fields)) := by
  intro apart
  have zeroTyped : (GoValue.pointer (zero (.struct name fields))).hasType
      (.pointer (.struct name fields)) = true := zero_hasType (.struct name fields)
  obtain ⟨readable, _, tells⟩ := apart .nil _ rfl zeroTyped
  have noField : jsonFields fields = [] := by
    apply List.eq_nil_iff_forall_not_mem.mpr
    intro field member
    have isShown := readable field member
    obtain ⟨info, path⟩ := field
    cases path with
    | nil => exact ne_nil_of_mem_paths member rfl
    | cons index path => cases isShown
  rw [noField] at tells
  cases tells.mpr (by simp [Alike])

/-! ## Types with one value -/

private theorem other_value {type : GoType} (notStruct : ∀ name fields, type ≠ .struct name fields) :
    ∃ value, value.hasType type = true ∧ deepValueEqual (zero type) value = false := by
  cases type with
  | bool => exact ⟨.bool true, rfl, rfl⟩
  | int width => exact ⟨.int 1, by cases width <;> decide, rfl⟩
  | uint width => exact ⟨.uint 1, by cases width <;> decide, rfl⟩
  | float32 | float64 => exact ⟨.float 1, rfl, by decide⟩
  | string => exact ⟨.string "a", rfl, rfl⟩
  | interface => exact ⟨.interface .bool (.bool true), by decide, rfl⟩
  | pointer elem => exact ⟨.pointer (zero elem), zero_hasType elem, rfl⟩
  | slice elem => exact ⟨.slice [], rfl, rfl⟩
  | map elem => exact ⟨.map [], rfl, rfl⟩
  | struct name fields => exact absurd rfl (notStruct name fields)

private theorem not_all_equal {type : GoType}
    (notStruct : ∀ name fields, type ≠ .struct name fields)
    (each : ∀ x y, x.hasType type = true → y.hasType type = true → deepValueEqual x y = true) :
    False := by
  obtain ⟨value, typed, differs⟩ := other_value notStruct
  rw [each _ value (zero_hasType type) typed] at differs
  cases differs

mutual

theorem single_iff : (type : GoType) → (type.single = true ↔
    ∀ x y, x.hasType type = true → y.hasType type = true → deepValueEqual x y = true)
  | .struct name fields => by
      rw [GoType.single, singleFields_iff fields]
      constructor
      · intro each x y xTyped yTyped
        obtain ⟨xs, rfl, xsTyped⟩ := struct_of_hasType xTyped
        obtain ⟨ys, rfl, ysTyped⟩ := struct_of_hasType yTyped
        exact each xs ys xsTyped ysTyped
      · intro each xs ys xsTyped ysTyped
        exact each (.struct xs) (.struct ys) xsTyped ysTyped
  | .bool | .int _ | .uint _ | .float32 | .float64 | .string | .interface | .pointer _ | .slice _
  | .map _ => ⟨nofun, fun each => (not_all_equal (by exact fun _ _ => nofun) each).elim⟩

theorem singleFields_iff : (fields : GoFields) → (fields.single = true ↔
    ∀ xs ys, hasTypeFields xs fields = true → hasTypeFields ys fields = true →
      deepValueEqualItems xs ys = true)
  | .nil => by
      refine ⟨fun _ xs ys xsTyped ysTyped => ?_, fun _ => rfl⟩
      cases xs with
      | nil => cases ys with
        | nil => rfl
        | cons => cases ysTyped
      | cons => cases xsTyped
  | .cons name tag type rest => by
      rw [GoFields.single, Bool.and_eq_true, single_iff type, singleFields_iff rest]
      have typedCons {x : GoValue} {xs : List GoValue} (here : x.hasType type = true)
          (later : hasTypeFields xs rest = true) :
          hasTypeFields (x :: xs) (.cons name tag type rest) = true := by
        rw [hasTypeFields, here, later]
        rfl
      constructor
      · intro ⟨here, later⟩ xs ys xsTyped ysTyped
        obtain ⟨x, xs, rfl, xTyped, xsTyped⟩ := cons_of_hasTypeFields xsTyped
        obtain ⟨y, ys, rfl, yTyped, ysTyped⟩ := cons_of_hasTypeFields ysTyped
        rw [deepValueEqualItems, here x y xTyped yTyped, later xs ys xsTyped ysTyped]
        rfl
      · intro each
        constructor
        · intro x y xTyped yTyped
          have both := each _ _ (typedCons xTyped (zeroFields_hasType rest))
            (typedCons yTyped (zeroFields_hasType rest))
          rw [deepValueEqualItems, Bool.and_eq_true] at both
          exact both.1
        · intro xs ys xsTyped ysTyped
          have both := each _ _ (typedCons (zero_hasType type) xsTyped)
            (typedCons (zero_hasType type) ysTyped)
          rw [deepValueEqualItems, Bool.and_eq_true] at both
          exact both.2

end

/-! ## Faithful types agree -/

mutual

/-- `reflect.DeepEqual` and the unstructured form agree on a type exactly if it is faithful. -/
theorem agrees_iff_faithful (larger : ∀ capacity, capacity < grow capacity)
    (injective : Function.Injective encode) : (omitEmpty : Bool) → (type : GoType) →
    regular grow type = true → (Agrees grow encode omitEmpty type ↔ faithful omitEmpty type = true)
  | omitEmpty, .bool, _ => iff_of_true (agrees_bool omitEmpty) rfl
  | omitEmpty, .int width, _ => iff_of_true (agrees_int width omitEmpty) rfl
  | omitEmpty, .uint .bits64, _ => iff_of_false (not_agrees_uint64 omitEmpty) nofun
  | omitEmpty, .uint .native, _ => iff_of_true (agrees_uint (by decide) omitEmpty) rfl
  | omitEmpty, .uint .bits8, _ => iff_of_true (agrees_uint (by decide) omitEmpty) rfl
  | omitEmpty, .uint .bits16, _ => iff_of_true (agrees_uint (by decide) omitEmpty) rfl
  | omitEmpty, .uint .bits32, _ => iff_of_true (agrees_uint (by decide) omitEmpty) rfl
  | omitEmpty, .float32, _ => iff_of_true (agrees_float (.inl rfl) omitEmpty) rfl
  | omitEmpty, .float64, _ => iff_of_true (agrees_float (.inr rfl) omitEmpty) rfl
  | omitEmpty, .string, _ => iff_of_true (agrees_string omitEmpty) rfl
  | omitEmpty, .interface, _ => iff_of_false (not_agrees_interface omitEmpty) nofun
  | omitEmpty, .pointer elem, isRegular => by
      rw [agrees_pointer_iff larger, agrees_iff_faithful larger injective false elem isRegular,
        faithful, Bool.and_eq_true]
  | true, .slice elem, _ => iff_of_false (not_agrees_omitted_slice elem) nofun
  | false, .slice elem, isRegular => by
      rw [agrees_slice_iff larger injective,
        agrees_iff_faithful larger injective false elem isRegular, faithful]
      rfl
  | true, .map elem, _ => iff_of_false (not_agrees_omitted_map elem) nofun
  | false, .map elem, isRegular => by
      rw [agrees_map_iff larger, agrees_iff_faithful larger injective false elem isRegular, faithful]
      rfl
  | omitEmpty, .struct name fields, isRegular => by
      rw [regular, Bool.and_eq_true, Bool.and_eq_true, decide_eq_true_eq] at isRegular
      rw [agrees_struct_iff larger isRegular.1.1 isRegular.1.2 name omitEmpty,
        tellApart_iff_faithful larger injective name fields isRegular.2, faithful]

theorem tellApart_iff_faithful (larger : ∀ capacity, capacity < grow capacity)
    (injective : Function.Injective encode) : (name : String) → (fields : GoFields) →
    regularFields grow fields = true →
      (TellApart grow encode (jsonFields fields) (.struct name fields) ↔
        faithfulFields fields = true)
  | name, .nil, _ =>
      iff_of_true (tellApart_nil_iff.mpr ((single_iff (.struct name .nil)).mp rfl)) rfl
  | n, .cons name tag type rest, isRegular => by
      rw [regularFields_cons, Bool.and_eq_true] at isRegular
      obtain ⟨hereRegular, laterRegular⟩ := isRegular
      rw [tellApart_cons, tellApart_iff_faithful larger injective n rest laterRegular,
        faithfulFields_cons, Bool.and_eq_true]
      refine and_congr ?_ Iff.rfl
      cases role : fieldRole name tag type with
      | dropped =>
          simp only [headFields]
          rw [tellApart_nil_iff, single_iff]
      | field info =>
          simp only [headFields]
          rw [role] at hereRegular
          rw [tellApart_field_iff (fieldType_of_role role),
            agrees_iff_faithful larger injective info.isOmitEmpty type hereRegular]
      | inlined fields =>
          simp only [headFields]
          rw [role] at hereRegular
          obtain ⟨s, isStruct | isPointer⟩ := type_of_inlined role
          · subst isStruct
            exact tellApart_iff_faithful larger injective s fields hereRegular
          · subst isPointer
            exact iff_of_false (not_tellApart_pointer s fields) nofun

end

end StructuredMergeDiff.Reflect
