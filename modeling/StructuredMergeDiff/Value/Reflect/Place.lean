import StructuredMergeDiff.Value.Reflect.MapView

/-!
Contract: places in a Go value, and writing at them.

A place is the way from the root to a part of it, through pointers, interfaces,
slices, structs and maps. A `reflect.Value` that was reached from the root knows
its place and whether it is addressable; only then it can be set.

Owns: `atPlace`, `put`, `Located`, and what writing a struct field does to the other
fields.
Does not own: the operations that write (`Value.Reflect.Update`).
-/

namespace StructuredMergeDiff.Reflect

open Library

inductive Selector where
  /-- what a pointer points to, or an interface holds -/
  | elem
  | index (i : Nat)
  | field (i : Nat)
  | key (k : String)
deriving DecidableEq, Repr

variable {index : Nat} {path : List Nat}

namespace GoValue

/-- The part of a value at a place. -/
def atPlace : GoValue → List Selector → Option GoValue
  | value, [] => some value
  | .pointer value, .elem :: place | .interface _ value, .elem :: place => value.atPlace place
  | .slice items, .index i :: place => items[i]?.bind fun item => item.atPlace place
  | .struct values, .field i :: place => values[i]?.bind fun value => value.atPlace place
  | .map entries, .key k :: place => (FiniteMap.get? entries k).bind fun value => value.atPlace place
  | _, _ :: _ => none

/-- The value with the part at a place replaced. -/
def put : GoValue → List Selector → GoValue → GoValue
  | _, [], new => new
  | .pointer value, .elem :: place, new => .pointer (value.put place new)
  | .interface type value, .elem :: place, new => .interface type (value.put place new)
  | .slice items, .index i :: place, new => .slice (items.modify i fun item => item.put place new)
  | .struct values, .field i :: place, new =>
      .struct (values.modify i fun value => value.put place new)
  | .map entries, .key k :: place, new =>
      .map (FiniteMap.modify entries k fun value => value.put place new)
  | value, _ :: _, _ => value

theorem atPlace_append (value : GoValue) (place further : List Selector) :
    value.atPlace (place ++ further) = (value.atPlace place).bind fun part => part.atPlace further := by
  induction place generalizing value with
  | nil => simp [atPlace]
  | cons selector place ih =>
      cases value <;> cases selector <;>
        simp [atPlace, ih, Option.bind_assoc]

/-- Writing further down changes the part on the way by the same write. -/
theorem atPlace_put_append {value part : GoValue} {place : List Selector}
    (here : value.atPlace place = some part) (further : List Selector) (new : GoValue) :
    (value.put (place ++ further) new).atPlace place = some (part.put further new) := by
  induction place generalizing value with
  | nil =>
      cases here
      simp [atPlace]
  | cons selector place ih =>
      cases value <;> cases selector <;>
        simp only [atPlace, reduceCtorEq, Option.bind_eq_some_iff] at here
      case pointer.elem | interface.elem => exact ih here
      case slice.index items i =>
        obtain ⟨item, isItem, below⟩ := here
        simp [atPlace, put, isItem, ih below]
      case struct.field values i =>
        obtain ⟨value, isValue, below⟩ := here
        simp [atPlace, put, isValue, ih below]
      case map.key entries k =>
        obtain ⟨value, isValue, below⟩ := here
        simp [atPlace, put, FiniteMap.get?_modify_self, isValue, ih below]

theorem atPlace_put_self {value part : GoValue} {place : List Selector}
    (here : value.atPlace place = some part) (new : GoValue) :
    (value.put place new).atPlace place = some new := by
  have written := atPlace_put_append here [] new
  rwa [List.append_nil] at written

/-! ## Struct fields -/

/-- The value with the field at the end of a path of field indices replaced. -/
def putField : List Nat → GoValue → GoValue → GoValue
  | [], _, new => new
  | index :: path, .struct values, new =>
      .struct (values.modify index fun value => putField path value new)
  | index :: path, .pointer (.struct values), new =>
      .pointer (.struct (values.modify index fun value => putField path value new))
  | _ :: _, value, _ => value

/-- A pointer is followed on the way to the field. -/
def crossesPointer : List Nat → GoValue → Bool
  | index :: path, .struct values => values[index]?.any (crossesPointer path)
  | _ :: _, .pointer (.struct _) => true
  | _, _ => false

theorem exists_of_select_cons {value own : GoValue}
    (selected : value.select (index :: path) = some own) :
    ∃ values next, (value = .struct values ∨ value = .pointer (.struct values)) ∧
      values[index]? = some next ∧ next.select path = some own := by
  have step {values : List GoValue} (found : values[index]?.bind (select path) = some own) :
      ∃ next, values[index]? = some next ∧ next.select path = some own :=
    Option.bind_eq_some_iff.mp found
  cases value with
  | struct values =>
      obtain ⟨next, found⟩ := step selected
      exact ⟨values, next, .inl rfl, found⟩
  | pointer elem =>
      cases elem with
      | struct values =>
          obtain ⟨next, found⟩ := step selected
          exact ⟨values, next, .inr rfl, found⟩
      | _ => cases selected
  | _ => cases selected

theorem select_putField_self {value own : GoValue} (selected : value.select path = some own)
    (new : GoValue) :
    (putField path value new).select path = some new := by
  induction path generalizing value with
  | nil => rfl
  | cons index path ih =>
      obtain ⟨values, next, rfl | rfl, isNext, below⟩ := exists_of_select_cons selected <;>
        simp [putField, select, isNext, ih below]

theorem select_putField_other {path other : List Nat} (notBelow : ¬ path <+: other)
    (notAbove : ¬ other <+: path) (value new : GoValue) :
    (putField path value new).select other = value.select other := by
  induction path generalizing value other with
  | nil => exact absurd List.nil_prefix notBelow
  | cons index path ih =>
      cases other with
      | nil => exact absurd List.nil_prefix notAbove
      | cons step other =>
          have item (values : List GoValue) :
              ((values.modify index fun value => putField path value new)[step]?).bind
                  (select other) = values[step]?.bind (select other) := by
            by_cases same : index = step
            · subst same
              rw [List.cons_prefix_cons, and_iff_right rfl] at notBelow notAbove
              simp [Option.bind_map, ih notBelow notAbove]
            · rw [List.getElem?_modify_ne _ _ same]
          cases value with
          | struct values => exact item values
          | pointer elem =>
              cases elem with
              | struct values => exact item values
              | _ => rfl
          | _ => rfl

end GoValue

theorem fieldByIndex_ok {r field : ReflectValue} (found : fieldByIndex index r = .ok field) :
    ∃ name fields values, r = ⟨.struct name fields, .struct values⟩ ∧
      fields.types[index]? = some field.type ∧ values[index]? = some field.value := by
  unfold fieldByIndex at found
  split at found
  · rename_i name fields values
    split at found
    · rename_i isType isValue
      cases found
      exact ⟨name, fields, values, rfl, isType, isValue⟩
    · cases found
  · cases found

theorem getFrom_cons_ok {r field : ReflectValue} (found : getFrom (index :: path) r = .ok field) :
    ∃ next, fieldByIndex index (dereference r) = .ok next ∧ getFrom path next = .ok field := by
  rw [getFrom_cons] at found
  cases isNext : fieldByIndex index (dereference r) with
  | error failure => simp [isNext, Except.bind] at found
  | ok next =>
      rw [isNext] at found
      exact ⟨next, rfl, found⟩

theorem hasTypeFields_modify {values : List GoValue} {fields : GoFields}
    (typed : hasTypeFields values fields = true) {type : GoType} {value : GoValue}
    {f : GoValue → GoValue} (isType : fields.types[index]? = some type)
    (isValue : values[index]? = some value) (newTyped : (f value).hasType type = true) :
    hasTypeFields (values.modify index f) fields = true := by
  induction values generalizing fields index with
  | nil => cases isValue
  | cons first values later =>
      cases fields with
      | nil => cases typed
      | cons name tag firstType rest =>
          rw [hasTypeFields, Bool.and_eq_true] at typed
          cases index with
          | zero =>
              cases isType
              cases isValue
              simp [hasTypeFields, newTyped, typed.2]
          | succ index => simp [hasTypeFields, typed.1, later typed.2 isType isValue]

/-! ## Values with a place -/

/-- A `reflect.Value` reached from the root. -/
structure Located where
  val : ReflectValue
  place : List Selector
  addressable : Bool
deriving Repr

namespace Located

/-- What a pointer points to is addressable, what an interface holds is not. -/
def dereference : Located → Located
  | ⟨⟨.pointer type, .pointer elem⟩, place, _⟩ => ⟨⟨type, elem⟩, place ++ [.elem], true⟩
  | ⟨⟨.interface, .interface dynamic elem⟩, place, _⟩ =>
      ⟨⟨dynamic, elem⟩, place ++ [.elem], false⟩
  | other => other

/-- A field is addressable if its struct is. -/
def fieldByIndex (index : Nat) (loc : Located) : Except Panic Located := do
  let val ← Reflect.fieldByIndex index loc.val
  return ⟨val, loc.place ++ [.field index], loc.addressable⟩

def getFrom (fieldPath : List Nat) (loc : Located) : Except Panic Located :=
  fieldPath.foldlM (fun loc index => loc.dereference.fieldByIndex index) loc

theorem val_dereference (loc : Located) : loc.dereference.val = Reflect.dereference loc.val := by
  obtain ⟨⟨type, value⟩, place, addressable⟩ := loc
  cases type <;> cases value <;> rfl

theorem dereference_cases (loc : Located) :
    loc.dereference.addressable = true ∨
      (∃ dynamic elem, loc.val = ⟨.interface, .interface dynamic elem⟩ ∧
        loc.dereference = ⟨⟨dynamic, elem⟩, loc.place ++ [.elem], false⟩) ∨
      loc.dereference = loc := by
  unfold dereference
  split
  · exact .inl rfl
  · exact .inr (.inl ⟨_, _, rfl, rfl⟩)
  · exact .inr (.inr rfl)

theorem getFrom_cons (index : Nat) (path : List Nat) (loc : Located) :
    loc.getFrom (index :: path) = (loc.dereference.fieldByIndex index).bind (getFrom path) :=
  rfl

theorem fieldByIndex_eq (index : Nat) (loc : Located) :
    loc.fieldByIndex index = (Reflect.fieldByIndex index loc.val).map fun val =>
      ⟨val, loc.place ++ [.field index], loc.addressable⟩ := by
  unfold fieldByIndex
  cases Reflect.fieldByIndex index loc.val <;> rfl

/-- Without the places it is the lookup of the cache. -/
theorem val_getFrom (path : List Nat) (loc : Located) :
    (loc.getFrom path).map val = Reflect.getFrom path loc.val := by
  induction path generalizing loc with
  | nil => rfl
  | cons index path ih =>
      rw [getFrom_cons, Reflect.getFrom_cons, fieldByIndex_eq, val_dereference]
      cases Reflect.fieldByIndex index (Reflect.dereference loc.val) with
      | error failure => rfl
      | ok field => exact ih _

/-- The value lies at its place in the root. -/
structure Within (root : GoValue) (loc : Located) : Prop where
  there : root.atPlace loc.place = some loc.val.value
  typed : loc.val.value.hasType loc.val.type = true

theorem Within.dereference {root : GoValue} {loc : Located} (within : loc.Within root) :
    loc.dereference.Within root := by
  unfold Located.dereference
  split
  · exact ⟨by rw [GoValue.atPlace_append, within.there]; rfl, within.typed⟩
  · have typed := within.typed
    rw [GoValue.hasType, Bool.and_eq_true] at typed
    exact ⟨by rw [GoValue.atPlace_append, within.there]; rfl, typed.2⟩
  · exact within

/-- The field that is looked up, with its place. -/
theorem fieldByIndex_ok {loc field : Located} (found : loc.fieldByIndex index = .ok field) :
    Reflect.fieldByIndex index loc.val = .ok field.val ∧
      field.place = loc.place ++ [.field index] ∧ field.addressable = loc.addressable := by
  rw [fieldByIndex_eq] at found
  cases isField : Reflect.fieldByIndex index loc.val with
  | error failure => simp [isField, Except.map] at found
  | ok val =>
      simp only [isField, Except.map, Except.ok.injEq] at found
      subst found
      exact ⟨rfl, rfl, rfl⟩

theorem Within.fieldByIndex {root : GoValue} {loc field : Located} (within : loc.Within root)
    (found : loc.fieldByIndex index = .ok field) : field.Within root := by
  obtain ⟨isField, place, _⟩ := fieldByIndex_ok found
  obtain ⟨name, fields, values, isStruct, isType, isValue⟩ := Reflect.fieldByIndex_ok isField
  obtain ⟨there, typed⟩ := within
  rw [isStruct] at there typed
  obtain ⟨value, sameValue, valueTyped⟩ := value_of_type typed isType
  cases isValue.symm.trans sameValue
  refine ⟨?_, valueTyped⟩
  rw [place, GoValue.atPlace_append, there]
  simp [GoValue.atPlace, isValue]

theorem getFrom_cons_ok {loc field : Located} (found : loc.getFrom (index :: path) = .ok field) :
    ∃ next, loc.dereference.fieldByIndex index = .ok next ∧ next.getFrom path = .ok field := by
  rw [getFrom_cons] at found
  cases isNext : loc.dereference.fieldByIndex index with
  | error failure => simp [isNext, Except.bind] at found
  | ok next =>
      rw [isNext] at found
      exact ⟨next, rfl, found⟩

theorem Within.getFrom {root : GoValue} {loc field : Located} (within : loc.Within root)
    (found : loc.getFrom path = .ok field) : field.Within root := by
  induction path generalizing loc with
  | nil =>
      cases found
      exact within
  | cons index path ih =>
      obtain ⟨next, isNext, below⟩ := getFrom_cons_ok found
      exact ih (within.dereference.fieldByIndex isNext) below

private theorem modify_congr {α : Type} {items : List α} {item : α}
    (isItem : items[index]? = some item) {f g : α → α} (same : f item = g item) :
    items.modify index f = items.modify index g := by
  refine List.ext_getElem? fun j => ?_
  by_cases here : index = j
  · subst here
    simp [isItem, same]
  · rw [List.getElem?_modify_ne _ _ here, List.getElem?_modify_ne _ _ here]

private theorem next_of_struct {loc next : Located} {values : List GoValue}
    (isStruct : loc.val.value = .struct values)
    (found : loc.dereference.fieldByIndex index = .ok next) :
    values[index]? = some next.val.value ∧
      next.place = loc.place ++ [.field index] ∧ next.addressable = loc.addressable := by
  have unchanged : loc.dereference = loc := by
    obtain ⟨⟨type, value⟩, place, addressable⟩ := loc
    cases isStruct
    cases type <;> rfl
  rw [unchanged] at found
  obtain ⟨isField, place, addressable⟩ := fieldByIndex_ok found
  obtain ⟨name, fields, own, isOwn, _, isValue⟩ := Reflect.fieldByIndex_ok isField
  rw [isOwn] at isStruct
  cases isStruct
  exact ⟨isValue, place, addressable⟩

private theorem next_of_pointer {loc next : Located} {values : List GoValue}
    (isPointer : loc.val.value = .pointer (.struct values))
    (found : loc.dereference.fieldByIndex index = .ok next) :
    values[index]? = some next.val.value ∧
      next.place = loc.place ++ [.elem, .field index] ∧ next.addressable = true := by
  obtain ⟨isField, place, addressable⟩ := fieldByIndex_ok found
  obtain ⟨name, fields, own, isOwn, _, isValue⟩ := Reflect.fieldByIndex_ok isField
  obtain ⟨⟨type, value⟩, here, flag⟩ := loc
  cases isPointer
  cases type with
  | pointer elem =>
      cases isOwn
      exact ⟨isValue, place.trans (List.append_assoc ..), addressable⟩
  | _ => cases isOwn

/-- The field that is looked up lies below the struct: writing at its place
replaces the field, and it is addressable if the struct is or a pointer leads
to it. -/
theorem getFrom_spec {loc field : Located} {own : GoValue}
    (selected : loc.val.value.select path = some own) (found : loc.getFrom path = .ok field) :
    (∃ place, field.place = loc.place ++ place ∧
      ∀ new, loc.val.value.put place new = GoValue.putField path loc.val.value new) ∧
    field.addressable = (loc.addressable || GoValue.crossesPointer path loc.val.value) := by
  induction path generalizing loc with
  | nil =>
      cases found
      exact ⟨⟨[], (List.append_nil _).symm, fun new => rfl⟩, (Bool.or_false _).symm⟩
  | cons index path ih =>
      obtain ⟨next, isNext, below⟩ := getFrom_cons_ok found
      obtain ⟨values, value, shape, isValue, rest⟩ := GoValue.exists_of_select_cons selected
      rcases shape with isStruct | isPointer
      · obtain ⟨sameValue, place, addressable⟩ := next_of_struct isStruct isNext
        cases isValue.symm.trans sameValue
        obtain ⟨⟨further, isPlace, writes⟩, isAddressable⟩ := ih rest below
        rw [isStruct]
        refine ⟨⟨.field index :: further, ?_, fun new => ?_⟩, ?_⟩
        · rw [isPlace, place, List.append_assoc]
          rfl
        · exact congrArg GoValue.struct (modify_congr sameValue (writes new))
        · rw [isAddressable, addressable, GoValue.crossesPointer, sameValue]
          rfl
      · obtain ⟨sameValue, place, addressable⟩ := next_of_pointer isPointer isNext
        cases isValue.symm.trans sameValue
        obtain ⟨⟨further, isPlace, writes⟩, isAddressable⟩ := ih rest below
        rw [isPointer]
        refine ⟨⟨.elem :: .field index :: further, ?_, fun new => ?_⟩, ?_⟩
        · rw [isPlace, place, List.append_assoc]
          rfl
        · exact congrArg (fun values => GoValue.pointer (.struct values))
            (modify_congr sameValue (writes new))
        · rw [isAddressable, addressable, GoValue.crossesPointer, Bool.true_or, Bool.or_true]

section

variable {r field : ReflectValue} {own : GoValue} (typed : r.value.hasType r.type = true)
  (selected : r.value.select path = some own) (found : Reflect.getFrom path r = .ok field)

include typed selected found

/-- Writing a value of the field's type keeps the type of the struct. -/
theorem putField_hasType {new : GoValue} (newTyped : new.hasType field.type = true) :
    (GoValue.putField path r.value new).hasType r.type = true := by
  induction path generalizing r with
  | nil =>
      cases found
      exact newTyped
  | cons index path ih =>
      obtain ⟨next, isNext, below⟩ := Reflect.getFrom_cons_ok found
      obtain ⟨name, fields, _, isOwn, isType, isValue⟩ := Reflect.fieldByIndex_ok isNext
      obtain ⟨type, value⟩ := r
      obtain ⟨values, value, shape, sameValue, rest⟩ := GoValue.exists_of_select_cons selected
      have written (typedOwn : hasTypeFields values fields = true)
          (same : values[index]? = some next.value) :
          hasTypeFields (values.modify index fun value => GoValue.putField path value new)
            fields = true := by
        cases same.symm.trans sameValue
        obtain ⟨_, isNextValue, nextTyped⟩ := value_of_type typedOwn isType
        cases same.symm.trans isNextValue
        exact hasTypeFields_modify typedOwn isType same (ih nextTyped rest below)
      rcases shape with rfl | rfl
      · cases type <;> cases isOwn
        exact written typed isValue
      · cases type with
        | pointer elem =>
            cases isOwn
            exact written typed isValue
        | _ => cases isOwn

/-- If no pointer leads to a field, every value of the struct's type has it. -/
theorem select_of_direct (direct : GoValue.crossesPointer path r.value = false) {other : GoValue}
    (otherTyped : other.hasType r.type = true) : ∃ otherOwn, other.select path = some otherOwn := by
  induction path generalizing r other with
  | nil => exact ⟨other, rfl⟩
  | cons index path ih =>
      obtain ⟨next, isNext, below⟩ := Reflect.getFrom_cons_ok found
      obtain ⟨name, fields, _, isOwn, isType, isValue⟩ := Reflect.fieldByIndex_ok isNext
      obtain ⟨type, value⟩ := r
      obtain ⟨values, value, rfl | rfl, sameValue, rest⟩ := GoValue.exists_of_select_cons selected
      · cases type <;> cases isOwn
        cases isValue.symm.trans sameValue
        rw [GoValue.crossesPointer, isValue] at direct
        cases other with
        | struct others =>
            obtain ⟨_, same, nextTyped⟩ := value_of_type typed isType
            cases isValue.symm.trans same
            obtain ⟨otherNext, isOther, otherNextTyped⟩ := value_of_type otherTyped isType
            obtain ⟨otherOwn, otherSelected⟩ :=
              ih nextTyped rest below direct otherNextTyped
            exact ⟨otherOwn, by rw [GoValue.select, isOther]; exact otherSelected⟩
        | _ => simp [GoValue.hasType] at otherTyped
      · cases direct

end

end Located

end StructuredMergeDiff.Reflect
