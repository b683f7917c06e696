import StructuredMergeDiff.Value.Reflect.Equality
import StructuredMergeDiff.Value.Reflect.StructForm

/-!
Contract: `reflect.DeepEqual` and the unstructured form, for each kind of type.

`reflect.DeepEqual` sees what the unstructured form does not show: the type in
an interface, a nil slice behind a pointer, an empty slice that is omitted. Here
is, for each kind but structs, when the two distinguish the same values.

Owns: `Agrees`, and what it asks of the parts of a scalar, pointer, slice or map type.
Does not own: structs and the types nested in each other (`Value.Reflect.Faithful`).
-/

namespace StructuredMergeDiff.Reflect

open Library FiniteMap Value

variable (grow : Nat → Nat) (encode : List Nat → String)

/-- All values of the type can be converted, and what is shown of two of them tells them
apart like `reflect.DeepEqual` does. -/
def Agrees (omitEmpty : Bool) (type : GoType) : Prop :=
  ∀ x y, x.hasType type = true → y.hasType type = true →
    ∃ u v, shown grow encode omitEmpty type x = some u ∧
      shown grow encode omitEmpty type y = some v ∧
      (deepValueEqual x y = true ↔ Value.SameOption u v)

variable {grow encode} {elem type : GoType}

/-! ## Scalars -/

variable (grow encode) in
/-- The value is one of the type and has this form. -/
def Converts (type : GoType) (value : GoValue) (form : Value Number) : Prop :=
  value.hasType type = true ∧ convertChild (unstructured grow encode) ⟨type, value⟩ = .ok form

theorem agrees_false_iff :
    Agrees grow encode false type ↔
      ∀ x y, x.hasType type = true → y.hasType type = true →
        ∃ u v, convertChild (unstructured grow encode) ⟨type, x⟩ = .ok u ∧
          convertChild (unstructured grow encode) ⟨type, y⟩ = .ok v ∧
          (deepValueEqual x y = true ↔ (u == v) = true) := by
  have notOmitted (value : GoValue) {u : Option (Value Number)}
      (isShown : shown grow encode false type value = some u) :
      ∃ v, u = some v ∧ convertChild (unstructured grow encode) ⟨type, value⟩ = .ok v := by
    cases u with
    | none => cases shown_eq_some_none.mp isShown
    | some v => exact ⟨v, rfl, (shown_eq_some_some.mp isShown).2⟩
  constructor
  · intro agrees x y xTyped yTyped
    obtain ⟨_, _, xShown, yShown, tells⟩ := agrees x y xTyped yTyped
    obtain ⟨u, rfl, xConverts⟩ := notOmitted x xShown
    obtain ⟨v, rfl, yConverts⟩ := notOmitted y yShown
    exact ⟨u, v, xConverts, yConverts, tells.trans sameOption_some⟩
  · intro agrees x y xTyped yTyped
    obtain ⟨u, v, xConverts, yConverts, tells⟩ := agrees x y xTyped yTyped
    exact ⟨some u, some v, shown_eq_some_some.mpr ⟨rfl, xConverts⟩,
      shown_eq_some_some.mpr ⟨rfl, yConverts⟩, tells.trans sameOption_some.symm⟩

/-- Where both agree, they agree on the forms of any two values. -/
theorem Agrees.tells (agrees : Agrees grow encode false type) {x y : GoValue} {u v : Value Number}
    (xConverts : Converts grow encode type x u) (yConverts : Converts grow encode type y v) :
    deepValueEqual x y = true ↔ (u == v) = true := by
  obtain ⟨_, _, isU, isV, tells⟩ := agrees_false_iff.mp agrees x y xConverts.1 yConverts.1
  cases xConverts.2.symm.trans isU
  cases yConverts.2.symm.trans isV
  exact tells

theorem Agrees.converts (agrees : Agrees grow encode false type) {x : GoValue}
    (typed : x.hasType type = true) : ∃ u, Converts grow encode type x u := by
  obtain ⟨u, _, converts, _⟩ := agrees_false_iff.mp agrees x x typed typed
  exact ⟨u, typed, converts⟩

/-- Two different values that show the same, if they are values of the type. -/
theorem not_agrees_of_same {omitEmpty : Bool} {x y : GoValue} {u : Option (Value Number)}
    (xTyped : x.hasType type = true) (yTyped : y.hasType type = true)
    (xShown : shown grow encode omitEmpty type x = some u)
    (yShown : shown grow encode omitEmpty type y = some u) (differ : deepValueEqual x y = false)
    : ¬ Agrees grow encode omitEmpty type := by
  intro agrees
  obtain ⟨_, _, isShown, otherShown, tells⟩ := agrees x y xTyped yTyped
  cases xShown.symm.trans isShown
  cases yShown.symm.trans otherShown
  rw [tells.mpr (sameOption_refl u)] at differ
  cases differ

/-- A type whose values carry a datum, which their forms tell, and of which one is empty. -/
theorem agrees_scalar {α : Type} (wrap : α → GoValue) (form : α → Value Number) (empty : α)
    (values : ∀ x, x.hasType type = true → ∃ a, x = wrap a)
    (converts : ∀ a, convertChild (unstructured grow encode) ⟨type, wrap a⟩ = .ok (form a))
    (equal : ∀ a b, deepValueEqual (wrap a) (wrap b) = true ↔ a = b)
    (forms : ∀ a b, (wrap a).hasType type = true → (wrap b).hasType type = true →
      ((form a == form b) = true ↔ a = b))
    (isEmpty : ∀ a, omits true ⟨type, wrap a⟩ = true ↔ a = empty) (omitEmpty : Bool) :
    Agrees grow encode omitEmpty type := by
  intro x y xTyped yTyped
  obtain ⟨a, rfl⟩ := values x xTyped
  obtain ⟨b, rfl⟩ := values y yTyped
  have asForm (c : α) (kept : omits omitEmpty ⟨type, wrap c⟩ = false) :
      shown grow encode omitEmpty type (wrap c) = some (some (form c)) :=
    shown_eq_some_some.mpr ⟨kept, converts c⟩
  have onlyEmpty (c : α) (omitted : omits omitEmpty ⟨type, wrap c⟩ = true) : c = empty := by
    have strong : omits true ⟨type, wrap c⟩ = true := by
      cases omitEmpty with
      | false => cases omitted
      | true => exact omitted
    exact (isEmpty c).mp strong
  rw [equal]
  cases aOmitted : omits omitEmpty ⟨type, wrap a⟩ <;>
    cases bOmitted : omits omitEmpty ⟨type, wrap b⟩
  · exact ⟨_, _, asForm a aOmitted, asForm b bOmitted,
      (forms a b xTyped yTyped).symm.trans sameOption_some.symm⟩
  · refine ⟨_, _, asForm a aOmitted, shown_eq_some_none.mpr bOmitted, fun same => ?_, nofun⟩
    rw [same, bOmitted] at aOmitted
    cases aOmitted
  · refine ⟨_, _, shown_eq_some_none.mpr aOmitted, asForm b bOmitted, fun same => ?_, nofun⟩
    rw [same, bOmitted] at aOmitted
    cases aOmitted
  · refine ⟨none, none, shown_eq_some_none.mpr aOmitted, shown_eq_some_none.mpr bOmitted,
      fun _ => .none, fun _ => ?_⟩
    rw [onlyEmpty a aOmitted, onlyEmpty b bOmitted]

private theorem number_beq (m n : Number) :
    ((Value.number m : Value Number) == .number n) = m.equals n := by
  rw [beq_eq_equalsBody]
  rfl

theorem agrees_bool (omitEmpty : Bool) : Agrees grow encode omitEmpty .bool := by
  refine agrees_scalar .bool .bool false ?_ (fun _ => rfl) ?_ ?_ ?_ omitEmpty
  · intro x xTyped
    cases x with
    | bool b => exact ⟨b, rfl⟩
    | _ => cases xTyped
  · intro a b
    exact beq_iff_eq
  · intro a b _ _
    rw [beq_eq_equalsBody]
    exact beq_iff_eq
  · intro a
    simp [omits, isZero, safeIsNil]

theorem agrees_string (omitEmpty : Bool) : Agrees grow encode omitEmpty .string := by
  refine agrees_scalar .string .string "" ?_ (fun _ => rfl) ?_ ?_ ?_ omitEmpty
  · intro x xTyped
    cases x with
    | string s => exact ⟨s, rfl⟩
    | _ => cases xTyped
  · intro a b
    exact beq_iff_eq
  · intro a b _ _
    rw [beq_eq_equalsBody]
    exact beq_iff_eq
  · intro a
    simp [omits, isZero, safeIsNil]

theorem agrees_int (width : Width) (omitEmpty : Bool) :
    Agrees grow encode omitEmpty (.int width) := by
  refine agrees_scalar .int (fun n => .number (.int n)) 0 ?_ (fun _ => rfl) ?_ ?_ ?_ omitEmpty
  · intro x xTyped
    cases x with
    | int n => exact ⟨n, rfl⟩
    | _ => cases xTyped
  · intro a b
    exact beq_iff_eq
  · intro a b _ _
    rw [number_beq]
    exact beq_iff_eq
  · intro a
    simp [omits, isZero, safeIsNil]

private theorem asInt_inj {m n : Nat} (mFits : m < 2 ^ 64) (nFits : n < 2 ^ 64) :
    asInt m = asInt n ↔ m = n := by
  unfold asInt
  split <;> split <;> omega

theorem agrees_uint {width : Width} (supported : width ≠ .bits64) (omitEmpty : Bool) :
    Agrees grow encode omitEmpty (.uint width) := by
  have fits {n : Nat} (typed : (GoValue.uint n).hasType (.uint width) = true) : n < 2 ^ 64 := by
    have below : n < 2 ^ width.bits := of_decide_eq_true typed
    have atMost : width.bits ≤ 64 := by cases width <;> decide
    exact Nat.lt_of_lt_of_le below (Nat.pow_le_pow_right (by decide) atMost)
  refine agrees_scalar .uint (fun n => .number (.int (asInt n))) 0 ?_ ?_ ?_ ?_ ?_ omitEmpty
  · intro x xTyped
    cases x with
    | uint n => exact ⟨n, rfl⟩
    | _ => cases xTyped
  · intro n
    cases width with
    | bits64 => exact absurd rfl supported
    | _ => rfl
  · intro a b
    exact beq_iff_eq
  · intro a b aTyped bTyped
    rw [number_beq, ← asInt_inj (fits aTyped) (fits bTyped)]
    exact beq_iff_eq
  · intro a
    simp [omits, isZero, safeIsNil]

theorem agrees_float (isFloat : type = .float32 ∨ type = .float64) (omitEmpty : Bool)
    : Agrees grow encode omitEmpty type := by
  refine agrees_scalar .float (fun q => .number (.float q)) 0 ?_ ?_ ?_ ?_ ?_ omitEmpty
  · intro x xTyped
    cases x with
    | float q => exact ⟨q, rfl⟩
    | _ => rcases isFloat with rfl | rfl <;> cases xTyped
  · intro q
    rcases isFloat with rfl | rfl <;> rfl
  · intro a b
    exact beq_iff_eq
  · intro a b _ _
    rw [number_beq]
    exact beq_iff_eq
  · intro a
    simp [omits, isZero, safeIsNil]

/-- `uint64` is not supported. -/
theorem not_agrees_uint64 (omitEmpty : Bool) :
    ¬ Agrees grow encode omitEmpty (.uint .bits64) := by
  intro agrees
  obtain ⟨u, _, isShown, _⟩ := agrees (.uint 1) (.uint 1) (by decide) (by decide)
  cases omitEmpty <;> cases isShown

/-- The form does not tell the type of an integer in an interface. -/
theorem not_agrees_interface (omitEmpty : Bool) : ¬ Agrees grow encode omitEmpty .interface := by
  have isShown (width : Width) :
      shown grow encode omitEmpty .interface (.interface (.int width) (.int 1)) =
        some (some (.number (.int 1))) := by
    cases omitEmpty <;> rfl
  exact not_agrees_of_same (by decide) (by decide) (isShown .bits32) (isShown .bits64) rfl

/-! ## Pointers -/

/-- A nil pointer is told apart from a pointer to any value of the type: it is
omitted, or shown as null, which then must not be the form of such a value. Two
pointers are not followed at once. -/
def GoType.pointable (omitEmpty : Bool) : GoType → Bool
  | .pointer _ | .interface => false
  | .slice _ | .map _ => omitEmpty
  | _ => true

theorem dereference_of_pointable (direct : type.pointable true = true) (value : GoValue)
    : dereference ⟨type, value⟩ = ⟨type, value⟩ := by
  cases type with
  | pointer _ | interface => cases direct
  | _ => rfl

theorem shown_pointer (direct : elem.pointable true = true) (omitEmpty : Bool) (value : GoValue) :
    shown grow encode omitEmpty (.pointer elem) (.pointer value) =
      shown grow encode false elem value := by
  have wraps : mustReuse ⟨.pointer elem, .pointer value⟩ = mustReuse ⟨elem, value⟩ := by
    rw [mustReuse, mustReuse, dereference_of_pointable direct]
    rfl
  have kept : omits omitEmpty ⟨.pointer elem, .pointer value⟩ = false := by
    cases omitEmpty <;> rfl
  have converts : convertChild (unstructured grow encode) ⟨.pointer elem, .pointer value⟩ =
      convertChild (unstructured grow encode) ⟨elem, value⟩ := by
    rw [convertChild, wraps]
    rfl
  rw [shown, shown, kept, converts]
  rfl

/-- What is shown of a nil pointer, slice or map. -/
def nilShown (omitEmpty : Bool) : Option (Value Number) :=
  if omitEmpty then none else some .null

theorem shown_nil_pointer (omitEmpty : Bool) (elem : GoType) :
    shown grow encode omitEmpty (.pointer elem) .nil = some (nilShown omitEmpty) := by
  cases omitEmpty <;> rfl

theorem shown_nil_map (omitEmpty : Bool) (elem : GoType) :
    shown grow encode omitEmpty (.map elem) .nil = some (nilShown omitEmpty) := by
  cases omitEmpty <;> rfl

theorem shown_nil_slice (omitEmpty : Bool) (elem : GoType) :
    shown grow encode omitEmpty (.slice elem) .nil = some (nilShown omitEmpty) := by
  cases omitEmpty with
  | true => rfl
  | false =>
      -- the conversion asks first whether the items are bytes
      cases elem with
      | uint width => cases width <;> rfl
      | _ => rfl

theorem eq_null_of_beq {v : Value Number} (same : (Value.null == v) = true) : v = .null := by
  rw [beq_eq_equalsBody] at same
  cases v with
  | null => rfl
  | _ => cases same

/-- Only nil is converted to null. -/
theorem eq_nil_of_null (larger : ∀ capacity, capacity < grow capacity) {r : ReflectValue}
    (converts : unstructured grow encode r = .ok .null) : r.value = .nil := by
  rw [unstructured_eq larger] at converts
  unfold unstructuredBody at converts
  split at converts
  case h_1 | h_2 | h_4 =>
    obtain ⟨_, _, isMap⟩ := bind_eq_ok.mp converts
    cases isMap
  all_goals first | rfl | cases converts

private theorem null_beq_eq_false (larger : ∀ capacity, capacity < grow capacity)
    (direct : type.pointable true = true) {value : GoValue} (notNil : value ≠ .nil)
    {v : Value Number} (converts : convertChild (unstructured grow encode) ⟨type, value⟩ = .ok v) :
    (Value.null == v) = false := by
  rw [Bool.eq_false_iff]
  intro same
  obtain ⟨wrapped, wraps, isNull⟩ := bind_eq_ok.mp converts
  rw [eq_null_of_beq same, mustReuse_eq wraps, dereference_of_pointable direct] at isNull
  exact notNil (eq_nil_of_null larger isNull)

private theorem ne_nil_of_pointable (pointable : elem.pointable false = true) {value : GoValue}
    (typed : value.hasType elem = true) : value ≠ .nil := by
  intro isNil
  rw [isNil] at typed
  cases elem with
  | pointer _ | interface | slice _ | map _ => cases pointable
  | _ => cases typed

theorem pointable_true {omitEmpty : Bool} (pointable : elem.pointable omitEmpty = true)
    : elem.pointable true = true := by
  cases elem <;> first | rfl | cases pointable

private theorem pointable_of_agrees {omitEmpty : Bool}
    (agrees : Agrees grow encode omitEmpty (.pointer elem)) :
    elem.pointable omitEmpty = true := by
  have notShown {value : GoValue} (typed : value.hasType (.pointer elem) = true)
      (fails : shown grow encode omitEmpty (.pointer elem) value = none) : False := by
    obtain ⟨_, _, isShown, _⟩ := agrees value value typed typed
    cases fails.symm.trans isShown
  have nilTold (typed : GoValue.nil.hasType elem = true)
      (isShown : shown grow encode omitEmpty (.pointer elem) (.pointer .nil) =
        some (nilShown omitEmpty)) : False := by
    have typedPointer : (GoValue.pointer .nil).hasType (.pointer elem) = true := typed
    exact not_agrees_of_same rfl typedPointer (shown_nil_pointer omitEmpty elem) isShown rfl agrees
  cases elem with
  | pointer inner =>
      have typed : (GoValue.pointer (.pointer (zero inner))).hasType (.pointer (.pointer inner)) =
          true := zero_hasType inner
      exact (notShown typed (by cases omitEmpty <;> rfl)).elim
  | interface =>
      have typed : (GoValue.pointer (.interface .bool (.bool true))).hasType (.pointer .interface) =
          true := by decide
      exact (notShown typed (by cases omitEmpty <;> rfl)).elim
  | slice inner =>
      cases omitEmpty with
      | true => rfl
      | false =>
          refine (nilTold rfl ?_).elim
          rw [shown_pointer rfl]
          exact shown_nil_slice false inner
  | map inner =>
      cases omitEmpty with
      | true => rfl
      | false => exact (nilTold rfl rfl).elim
  | _ => rfl

private theorem nil_apart (larger : ∀ capacity, capacity < grow capacity) {omitEmpty : Bool}
    (pointable : elem.pointable omitEmpty = true) {value : GoValue}
    (typed : value.hasType elem = true) {u : Option (Value Number)}
    (isShown : shown grow encode false elem value = some u) :
    ¬ Value.SameOption (nilShown omitEmpty) u := by
  intro same
  cases u with
  | none => cases shown_eq_some_none.mp isShown
  | some v =>
      cases omitEmpty with
      | true => cases same
      | false =>
          have differs := null_beq_eq_false larger (pointable_true pointable)
            (ne_nil_of_pointable pointable typed) (shown_eq_some_some.mp isShown).2
          rw [sameOption_some.mp same] at differs
          cases differs

theorem sameOption_comm {u v : Option (Value Number)} :
    Value.SameOption u v ↔ Value.SameOption v u := by
  cases u <;> cases v
  case some.some u v => rw [sameOption_some, sameOption_some, beq_comm]
  case none.none => exact Iff.rfl
  all_goals exact ⟨nofun, nofun⟩

theorem agrees_pointer_iff (larger : ∀ capacity, capacity < grow capacity) {omitEmpty : Bool} :
    Agrees grow encode omitEmpty (.pointer elem) ↔
      elem.pointable omitEmpty = true ∧ Agrees grow encode false elem := by
  constructor
  · intro agrees
    have pointable := pointable_of_agrees agrees
    refine ⟨pointable, fun x y xTyped yTyped => ?_⟩
    have both := agrees (.pointer x) (.pointer y) xTyped yTyped
    rwa [shown_pointer (pointable_true pointable), shown_pointer (pointable_true pointable)] at both
  · intro ⟨pointable, agrees⟩ x y xTyped yTyped
    have isPointer {value : GoValue} (typed : value.hasType (.pointer elem) = true) :
        value = .nil ∨ ∃ a, value = .pointer a ∧ a.hasType elem = true := by
      cases value with
      | nil => exact .inl rfl
      | pointer a => exact .inr ⟨a, rfl, typed⟩
      | _ => cases typed
    have ofPointer {a : GoValue} (typed : a.hasType elem = true) :
        ∃ u, shown grow encode omitEmpty (.pointer elem) (.pointer a) = some u ∧
          ¬ Value.SameOption (nilShown omitEmpty) u := by
      obtain ⟨u, _, isShown, _⟩ := agrees a a typed typed
      rw [shown_pointer (pointable_true pointable)]
      exact ⟨u, isShown, nil_apart larger pointable typed isShown⟩
    rcases isPointer xTyped with rfl | ⟨a, rfl, aTyped⟩ <;>
      rcases isPointer yTyped with rfl | ⟨b, rfl, bTyped⟩
    · exact ⟨_, _, shown_nil_pointer omitEmpty elem, shown_nil_pointer omitEmpty elem,
        fun _ => sameOption_refl _, fun _ => rfl⟩
    · obtain ⟨v, isShown, apart⟩ := ofPointer bTyped
      exact ⟨_, v, shown_nil_pointer omitEmpty elem, isShown, nofun, fun same => (apart same).elim⟩
    · obtain ⟨u, isShown, apart⟩ := ofPointer aTyped
      exact ⟨u, _, isShown, shown_nil_pointer omitEmpty elem, nofun,
        fun same => (apart (sameOption_comm.mp same)).elim⟩
    · rw [shown_pointer (pointable_true pointable), shown_pointer (pointable_true pointable)]
      exact agrees a b aTyped bTyped

/-! ## Slices and maps, nil or not -/

private theorem nil_deepValueEqual {value : GoValue} (notNil : value ≠ .nil) :
    deepValueEqual .nil value = false ∧ deepValueEqual value .nil = false := by
  cases value with
  | nil => exact absurd rfl notNil
  | _ => exact ⟨rfl, rfl⟩

/-- Of a type with a nil, the other values decide. -/
theorem agrees_of_not_nil (larger : ∀ capacity, capacity < grow capacity)
    (direct : type.pointable true = true)
    (nilConverts : convertChild (unstructured grow encode) ⟨type, .nil⟩ = .ok .null)
    (others : ∀ x y, x.hasType type = true → y.hasType type = true → x ≠ .nil → y ≠ .nil →
      ∃ u v, convertChild (unstructured grow encode) ⟨type, x⟩ = .ok u ∧
        convertChild (unstructured grow encode) ⟨type, y⟩ = .ok v ∧
        (deepValueEqual x y = true ↔ (u == v) = true)) :
    Agrees grow encode false type := by
  refine agrees_false_iff.mpr fun x y xTyped yTyped => ?_
  by_cases xNil : x = .nil <;> by_cases yNil : y = .nil
  · subst xNil yNil
    exact ⟨.null, .null, nilConverts, nilConverts, fun _ => beq_refl _, fun _ => rfl⟩
  · subst xNil
    obtain ⟨v, _, converts, _⟩ := others y y yTyped yTyped yNil yNil
    refine ⟨.null, v, nilConverts, converts, ?_⟩
    rw [(nil_deepValueEqual yNil).1, null_beq_eq_false larger direct yNil converts]
  · subst yNil
    obtain ⟨u, _, converts, _⟩ := others x x xTyped xTyped xNil xNil
    refine ⟨u, .null, converts, nilConverts, ?_⟩
    rw [(nil_deepValueEqual xNil).2, beq_comm,
      null_beq_eq_false larger direct xNil converts]
  · exact others x y xTyped yTyped xNil yNil

/-! ## Slices -/

theorem hasTypeItems_iff {items : List GoValue} :
    hasTypeItems items type = true ↔ ∀ item ∈ items, item.hasType type = true := by
  induction items with
  | nil => simp [hasTypeItems]
  | cons item rest ih => simp [hasTypeItems, ih]

theorem deepValueEqualItems_iff {xs ys : List GoValue} :
    deepValueEqualItems xs ys = true ↔
      List.Forall₂ (fun x y => deepValueEqual x y = true) xs ys := by
  induction xs generalizing ys with
  | nil => cases ys <;> simp [deepValueEqualItems]
  | cons x xs ih =>
      cases ys with
      | nil => simp [deepValueEqualItems]
      | cons y ys => simp [deepValueEqualItems, ih]

theorem not_agrees_omitted_slice (elem : GoType) : ¬ Agrees grow encode true (.slice elem) :=
  not_agrees_of_same rfl rfl (shown_nil_slice true elem) (y := .slice []) (shown_eq_some_none.mpr rfl) rfl

theorem convertChild_slice (elem : GoType) (items : List GoValue) :
    convertChild (unstructured grow encode) ⟨.slice elem, .slice items⟩ =
      unstructured grow encode ⟨.slice elem, .slice items⟩ := by
  have wraps : mustReuse ⟨.slice elem, .slice items⟩ = .ok ⟨.slice elem, .slice items⟩ := by
    cases elem with
    | uint width => cases width <;> rfl
    | _ => rfl
  rw [convertChild, wraps]
  rfl

section

variable (larger : ∀ capacity, capacity < grow capacity) (noBytes : elem ≠ .uint .bits8)

include larger noBytes

theorem convert_slice (items : List GoValue) :
    convertChild (unstructured grow encode) ⟨.slice elem, .slice items⟩ =
      (do return .list (← items.mapM fun item =>
        convertChild (unstructured grow encode) ⟨elem, item⟩)) := by
  rw [convertChild_slice, unstructured_eq larger]
  cases elem with
  | uint width =>
      cases width with
      | bits8 => exact absurd rfl noBytes
      | _ => rfl
  | _ => rfl

theorem convert_slice_iff {items : List GoValue} {v : Value Number} :
    convertChild (unstructured grow encode) ⟨.slice elem, .slice items⟩ = .ok v ↔
      ∃ us, v = .list us ∧ List.Forall₂ (fun item u =>
        convertChild (unstructured grow encode) ⟨elem, item⟩ = .ok u) items us := by
  rw [convert_slice larger noBytes, bind_eq_ok]
  constructor
  · intro ⟨us, converted, isList⟩
    cases isList
    exact ⟨us, rfl, mapM_ok_iff.mp converted⟩
  · intro ⟨us, isList, converted⟩
    exact ⟨us, mapM_ok_iff.mpr converted, by rw [isList]; rfl⟩

private theorem agrees_items (agrees : Agrees grow encode false elem) {xs ys : List GoValue}
    (xsTyped : hasTypeItems xs elem = true) (ysTyped : hasTypeItems ys elem = true) :
    ∃ u v, convertChild (unstructured grow encode) ⟨.slice elem, .slice xs⟩ = .ok u ∧
      convertChild (unstructured grow encode) ⟨.slice elem, .slice ys⟩ = .ok v ∧
      (deepValueEqualItems xs ys = true ↔ (u == v) = true) := by
  have converted {items : List GoValue} (typed : hasTypeItems items elem = true) :
      ∃ us, List.Forall₂ (Converts grow encode elem) items us :=
    exists_forall₂ fun item member => agrees.converts (hasTypeItems_iff.mp typed item member)
  obtain ⟨us, xsConvert⟩ := converted xsTyped
  obtain ⟨vs, ysConvert⟩ := converted ysTyped
  refine ⟨.list us, .list vs,
    (convert_slice_iff larger noBytes).mpr ⟨us, rfl, xsConvert.imp fun _ _ both => both.2⟩,
    (convert_slice_iff larger noBytes).mpr ⟨vs, rfl, ysConvert.imp fun _ _ both => both.2⟩, ?_⟩
  rw [deepValueEqualItems_iff, beq_list]
  exact forall₂_iff_of_images xsConvert ysConvert agrees.tells

end

private theorem bytes_eq_iff {xs ys : List GoValue}
    (xsTyped : hasTypeItems xs (.uint .bits8) = true)
    (ysTyped : hasTypeItems ys (.uint .bits8) = true) :
    deepValueEqualItems xs ys = true ↔ bytes xs = bytes ys := by
  have isByte {x : GoValue} (typed : x.hasType (.uint .bits8) = true) : ∃ n, x = .uint n := by
    cases x with
    | uint n => exact ⟨n, rfl⟩
    | _ => cases typed
  induction xs generalizing ys with
  | nil => cases ys <;> simp [deepValueEqualItems, bytes]
  | cons x xs ih =>
      cases ys with
      | nil => simp [deepValueEqualItems, bytes]
      | cons y ys =>
          rw [hasTypeItems, Bool.and_eq_true] at xsTyped ysTyped
          obtain ⟨m, rfl⟩ := isByte xsTyped.1
          obtain ⟨n, rfl⟩ := isByte ysTyped.1
          have rest := ih xsTyped.2 ysTyped.2
          simp only [bytes] at rest
          simp [deepValueEqualItems, deepValueEqual, bytes, rest]

theorem slice_of_hasType {value : GoValue} (typed : value.hasType (.slice elem) = true)
    (notNil : value ≠ .nil) :
    ∃ items, value = .slice items ∧ hasTypeItems items elem = true := by
  cases value with
  | nil => exact absurd rfl notNil
  | slice items => exact ⟨items, rfl, typed⟩
  | _ => cases typed

theorem agrees_slice_iff (larger : ∀ capacity, capacity < grow capacity)
    (injective : Function.Injective encode) :
    Agrees grow encode false (.slice elem) ↔ Agrees grow encode false elem := by
  have nilConverts : convertChild (unstructured grow encode) ⟨.slice elem, .nil⟩ = .ok .null :=
    (shown_eq_some_some.mp (shown_nil_slice false elem)).2
  by_cases isBytes : elem = .uint .bits8
  · subst isBytes
    refine ⟨fun _ => agrees_uint (by decide) false, fun _ => ?_⟩
    refine agrees_of_not_nil larger rfl nilConverts fun x y xTyped yTyped xSome ySome => ?_
    obtain ⟨xs, rfl, xsTyped⟩ := slice_of_hasType xTyped xSome
    obtain ⟨ys, rfl, ysTyped⟩ := slice_of_hasType yTyped ySome
    refine ⟨.string (encode (bytes xs)), .string (encode (bytes ys)), rfl, rfl, ?_⟩
    have strings : ((Value.string (encode (bytes xs)) : Value Number) ==
        .string (encode (bytes ys))) = (encode (bytes xs) == encode (bytes ys)) := by
      rw [beq_eq_equalsBody]
      rfl
    rw [strings, beq_iff_eq, injective.eq_iff]
    exact bytes_eq_iff xsTyped ysTyped
  · constructor
    · intro agrees
      refine agrees_false_iff.mpr fun x y xTyped yTyped => ?_
      have single {value : GoValue} (typed : value.hasType elem = true) :
          (GoValue.slice [value]).hasType (.slice elem) = true :=
        hasTypeItems_iff.mpr fun item member => by rwa [List.mem_singleton.mp member]
      obtain ⟨u, v, xConverts, yConverts, tells⟩ :=
        agrees_false_iff.mp agrees _ _ (single xTyped) (single yTyped)
      obtain ⟨us, rfl, xs⟩ := (convert_slice_iff larger isBytes).mp xConverts
      obtain ⟨vs, rfl, ys⟩ := (convert_slice_iff larger isBytes).mp yConverts
      cases xs with
      | cons xHere xRest =>
          cases ys with
          | cons yHere yRest =>
              cases xRest
              cases yRest
              refine ⟨_, _, xHere, yHere, ?_⟩
              have items : deepValueEqual (.slice [x]) (.slice [y]) = true ↔
                  deepValueEqual x y = true := by
                show (deepValueEqual x y && true) = true ↔ _
                rw [Bool.and_true]
              rw [← items, tells, beq_list, List.forall₂_cons]
              simp
    · intro agrees
      refine agrees_of_not_nil larger rfl nilConverts fun x y xTyped yTyped xSome ySome => ?_
      obtain ⟨xs, rfl, xsTyped⟩ := slice_of_hasType xTyped xSome
      obtain ⟨ys, rfl, ysTyped⟩ := slice_of_hasType yTyped ySome
      exact agrees_items larger isBytes agrees xsTyped ysTyped

/-! ## Maps -/

theorem hasTypeEntries_iff {entries : List (String × GoValue)} :
    hasTypeEntries entries type = true ↔ ∀ entry ∈ entries, entry.2.hasType type = true := by
  induction entries with
  | nil => simp [hasTypeEntries]
  | cons entry rest ih => simp [hasTypeEntries, ih]

private theorem deepValueEqualEntries_iff {xs ys : List (String × GoValue)} :
    deepValueEqualEntries xs ys = true ↔
      ∀ entry ∈ xs, ∃ y, get? ys entry.1 = some y ∧ deepValueEqual entry.2 y = true := by
  induction xs with
  | nil => simp [deepValueEqualEntries]
  | cons entry rest ih =>
      rw [deepValueEqualEntries, Bool.and_eq_true, ih, List.forall_mem_cons]
      refine and_congr ?_ Iff.rfl
      cases get? ys entry.1 with
      | none => simp
      | some y => simp

/-- Maps are deeply equal if they have the same keys, with deeply equal values. -/
theorem deepValueEqual_map_iff {xs ys : List (String × GoValue)}
    (xsDistinct : (xs.map Prod.fst).Nodup) (ysDistinct : (ys.map Prod.fst).Nodup) :
    deepValueEqual (.map xs) (.map ys) = true ↔
      Agree (fun x y => deepValueEqual x y = true) xs ys := by
  have found := agree_iff_found (R := fun y x => deepValueEqual x y = true) ysDistinct
    xsDistinct
  have flipped : Agree (fun x y => deepValueEqual x y = true) xs ys ↔
      Agree (fun y x => deepValueEqual x y = true) ys xs :=
    ⟨FiniteMap.Agree.flip, FiniteMap.Agree.flip⟩
  rw [flipped, found, deepValueEqual, Bool.and_eq_true, beq_iff_eq, deepValueEqualEntries_iff,
    eq_comm]

theorem not_agrees_omitted_map (elem : GoType) : ¬ Agrees grow encode true (.map elem) :=
  not_agrees_of_same rfl rfl (shown_nil_map true elem) (y := .map []) (shown_eq_some_none.mpr rfl) rfl

section

variable (larger : ∀ capacity, capacity < grow capacity)

include larger

theorem convert_map_iff {entries : List (String × GoValue)} {v : Value Number} :
    convertChild (unstructured grow encode) ⟨.map elem, .map entries⟩ = .ok v ↔
      ∃ us, v = .map us ∧ List.Forall₂ (fun entry binding => entry.1 = binding.1 ∧
        convertChild (unstructured grow encode) ⟨elem, entry.2⟩ = .ok binding.2) entries us := by
  have converts : convertChild (unstructured grow encode) ⟨.map elem, .map entries⟩ =
      (do return .map (← entries.mapM fun entry => do
        return (entry.1, ← convertChild (unstructured grow encode) ⟨elem, entry.2⟩))) := by
    show unstructured grow encode ⟨.map elem, .map entries⟩ = _
    rw [unstructured_eq larger]
    rfl
  have each (entry : String × GoValue) (binding : String × Value Number) :
      (do return (entry.1, ← convertChild (unstructured grow encode) ⟨elem, entry.2⟩)) =
          Except.ok binding ↔
        entry.1 = binding.1 ∧
          convertChild (unstructured grow encode) ⟨elem, entry.2⟩ = .ok binding.2 := by
    rw [bind_eq_ok]
    constructor
    · intro ⟨u, converted, isBinding⟩
      cases isBinding
      exact ⟨rfl, converted⟩
    · intro ⟨sameKey, converted⟩
      exact ⟨binding.2, converted, by rw [sameKey]; rfl⟩
  rw [converts, bind_eq_ok]
  constructor
  · intro ⟨us, converted, isMap⟩
    cases isMap
    exact ⟨us, rfl, (mapM_ok_iff.mp converted).imp fun entry binding => (each entry binding).mp⟩
  · intro ⟨us, isMap, converted⟩
    exact ⟨us, mapM_ok_iff.mpr (converted.imp fun entry binding => (each entry binding).mpr),
      by rw [isMap]; rfl⟩

private theorem agrees_entries (agrees : Agrees grow encode false elem)
    {xs ys : List (String × GoValue)} (xsTyped : (GoValue.map xs).hasType (.map elem) = true)
    (ysTyped : (GoValue.map ys).hasType (.map elem) = true) :
    ∃ u v, convertChild (unstructured grow encode) ⟨.map elem, .map xs⟩ = .ok u ∧
      convertChild (unstructured grow encode) ⟨.map elem, .map ys⟩ = .ok v ∧
      (deepValueEqual (.map xs) (.map ys) = true ↔ (u == v) = true) := by
  have parts {entries : List (String × GoValue)}
      (typed : (GoValue.map entries).hasType (.map elem) = true) :
      (entries.map Prod.fst).Nodup ∧ hasTypeEntries entries elem = true := by
    rw [GoValue.hasType, Bool.and_eq_true] at typed
    exact ⟨of_decide_eq_true typed.1, typed.2⟩
  have converted {entries : List (String × GoValue)} (typed : hasTypeEntries entries elem = true) :
      ∃ us : List (String × Value Number), List.Forall₂ (fun entry binding =>
        entry.1 = binding.1 ∧ Converts grow encode elem entry.2 binding.2) entries us := by
    refine exists_forall₂ fun entry member => ?_
    obtain ⟨u, converts⟩ := agrees.converts (hasTypeEntries_iff.mp typed entry member)
    exact ⟨(entry.1, u), rfl, converts⟩
  obtain ⟨us, xsConvert⟩ := converted (parts xsTyped).2
  obtain ⟨vs, ysConvert⟩ := converted (parts ysTyped).2
  refine ⟨.map us, .map vs,
    (convert_map_iff larger).mpr ⟨us, rfl, xsConvert.imp fun _ _ all => ⟨all.1, all.2.2⟩⟩,
    (convert_map_iff larger).mpr ⟨vs, rfl, ysConvert.imp fun _ _ all => ⟨all.1, all.2.2⟩⟩, ?_⟩
  rw [deepValueEqual_map_iff (parts xsTyped).1 (parts ysTyped).1, beq_map_iff_agree]
  exact agree_iff_of_images (agree_of_forall₂ xsConvert)
    (agree_of_forall₂ ysConvert) agrees.tells

theorem agrees_map_iff :
    Agrees grow encode false (.map elem) ↔ Agrees grow encode false elem := by
  constructor
  · intro agrees
    refine agrees_false_iff.mpr fun x y xTyped yTyped => ?_
    have single {value : GoValue} (typed : value.hasType elem = true) :
        (GoValue.map [("k", value)]).hasType (.map elem) = true := by
      simp [GoValue.hasType, hasTypeEntries, typed]
    obtain ⟨u, v, xConverts, yConverts, tells⟩ :=
      agrees_false_iff.mp agrees _ _ (single xTyped) (single yTyped)
    obtain ⟨us, rfl, xs⟩ := (convert_map_iff larger).mp xConverts
    obtain ⟨vs, rfl, ys⟩ := (convert_map_iff larger).mp yConverts
    cases xs with
    | @cons _ binding _ _ xHere xRest =>
        cases ys with
        | @cons _ other _ _ yHere yRest =>
            cases xRest
            cases yRest
            obtain ⟨key, u⟩ := binding
            obtain ⟨_, v⟩ := other
            obtain ⟨rfl, xConverts⟩ := xHere
            obtain ⟨rfl, yConverts⟩ := yHere
            refine ⟨u, v, xConverts, yConverts, ?_⟩
            rw [deepValueEqual_map_iff (by simp) (by simp), agree_singleton,
              beq_map_iff_agree, agree_singleton] at tells
            exact tells
  · intro agrees
    refine agrees_of_not_nil larger rfl rfl fun x y xTyped yTyped xSome ySome => ?_
    have isMap {value : GoValue} (typed : value.hasType (.map elem) = true)
        (notNil : value ≠ .nil) : ∃ entries, value = .map entries := by
      cases value with
      | nil => exact absurd rfl notNil
      | map entries => exact ⟨entries, rfl⟩
      | _ => cases typed
    obtain ⟨xs, rfl⟩ := isMap xTyped xSome
    obtain ⟨ys, rfl⟩ := isMap yTyped ySome
    exact agrees_entries larger agrees xTyped yTyped

end

end StructuredMergeDiff.Reflect
