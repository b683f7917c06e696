import StructuredMergeDiff.Value.Reflect.Place

/-!
Contract: setting and deleting a field of a struct reached from the root.

A field of an addressable struct is set in place. A struct that a Go map holds by
value is not addressable; it is replaced in the map by a new struct in which only
the one field is set.

Owns: `set`, `delete`, `update`, and when they change the one field only.
-/

namespace StructuredMergeDiff.Reflect

open Library

/-! ## The operations -/

/-- The value stored by an assignment to a variable of the type; the `Value` of
nil is none, and cannot be assigned. -/
def assignTo (type : GoType) : Option ReflectValue → Except Panic GoValue
  | none => .error .notAssignable
  | some new =>
      if new.type = type then .ok new.value
      else if type = .interface then .ok (.interface new.type new.value)
      else .error .notAssignable

/-- The root after `SetMapIndex` on a map in it. -/
def setMapIndex (root : GoValue) (parent : Located) (key : String) (new : ReflectValue) :
    Except Panic GoValue :=
  match parent.val with
  | ⟨.map elem, .map entries⟩ => do
      return root.put parent.place (.map (FiniteMap.set entries key (← assignTo elem new)))
  | _ => .error .setOfNonMap

/-- A wrapped value. One that was read from a Go map knows the map and its key. -/
structure ValueReflect where
  loc : Located
  parentMap : Option (Located × String)
deriving Repr

variable (grow : Nat → Nat) {entry : FieldCacheEntry (List Nat)} {key : String} {r : ValueReflect}

/-- The cache entry of a field of a struct type. -/
def fieldEntry (type : GoType) (key : String) : Option (FieldCacheEntry (List Nat)) :=
  match type with
  | .struct _ fields => (structFields grow fields).get? key
  | _ => none

namespace ValueReflect

/-- The root after a field was updated. -/
def update (root : GoValue) (r : ValueReflect) (fieldPath : List Nat) (oldVal : Located)
    (newVal : Option ReflectValue) : Except Panic GoValue :=
  if oldVal.addressable then do
    return root.put oldVal.place (← assignTo oldVal.val.type newVal)
  else
    -- map items are not addressable: the only way to modify the struct is to
    -- write a replacement into the map
    match r.parentMap with
    | some (parent, key) => do
        let replacement : Located := ⟨⟨r.loc.val.type, zero r.loc.val.type⟩, [], true⟩
        let field ← replacement.getFrom fieldPath
        let new ← assignTo field.val.type newVal
        setMapIndex root parent key ⟨r.loc.val.type, replacement.val.value.put field.place new⟩
    | none => .error .notSettable

def set (root : GoValue) (r : ValueReflect) (key : String) (newVal : Option ReflectValue) :
    Except Panic GoValue :=
  match fieldEntry grow r.loc.val.type key with
  | none => .error .fieldDoesNotExist
  | some entry => do
      let oldVal ← r.loc.getFrom entry.fieldPath
      r.update root entry.fieldPath oldVal newVal

def delete (root : GoValue) (r : ValueReflect) (key : String) : Except Panic GoValue :=
  match fieldEntry grow r.loc.val.type key with
  | none => .error .fieldDoesNotExist
  | some entry => do
      let oldVal ← r.loc.getFrom entry.fieldPath
      match oldVal.val.type, entry.isOmitEmpty with
      | .pointer _, _ | _, true =>
          r.update root entry.fieldPath oldVal (some ⟨oldVal.val.type, zero oldVal.val.type⟩)
      | _, false => .error .notDeletable

/-- The values that can be reached from the root by `Get`, `At` and iteration. The
root is what the pointer given to `NewValueReflect` points to. -/
inductive Reached (root : ReflectValue) : ValueReflect → Prop
  | root : Reached root ⟨⟨root, [], true⟩, none⟩
  | field {r : ValueReflect} {key : String} {entry : FieldCacheEntry (List Nat)} {field : Located}
      (reached : Reached root r) (cached : fieldEntry grow r.loc.val.type key = some entry)
      (looked : r.loc.getFrom entry.fieldPath = .ok field)
      (shown : entry.canOmit field.val = false) : Reached root ⟨field.dereference, none⟩
  | entry {r : ValueReflect} {elem : GoType} {entries : List (String × GoValue)} {key : String}
      {value : GoValue} (reached : Reached root r)
      (isMap : r.loc.val = ⟨.map elem, .map entries⟩)
      (found : FiniteMap.get? entries key = some value) :
      Reached root
        ⟨Located.dereference ⟨⟨elem, value⟩, r.loc.place ++ [.key key], false⟩, some (r.loc, key)⟩
  | item {r : ValueReflect} {elem : GoType} {items : List GoValue} {index : Nat} {value : GoValue}
      (reached : Reached root r) (isList : r.loc.val = ⟨.slice elem, .slice items⟩)
      (isItem : items[index]? = some value) :
      Reached root
        ⟨Located.dereference ⟨⟨elem, value⟩, r.loc.place ++ [.index index], true⟩, none⟩

end ValueReflect

/-! ## Where a reached value lies -/

namespace ValueReflect

variable {grow : Nat → Nat}

/-- The value lies at its place, and if it was read from a map, it is the entry of
the map or what the entry points to or holds. -/
structure Sound (root : GoValue) (r : ValueReflect) : Prop where
  within : r.loc.Within root
  parent : ∀ parent key, r.parentMap = some (parent, key) →
    parent.Within root ∧ ∃ elem entries value, parent.val = ⟨.map elem, .map entries⟩ ∧
      FiniteMap.get? entries key = some value ∧
      r.loc = Located.dereference ⟨⟨elem, value⟩, parent.place ++ [.key key], false⟩

theorem Reached.sound {root : ReflectValue} (typed : root.value.hasType root.type = true)
    (reached : Reached grow root r) : r.Sound root.value := by
  induction reached with
  | root => exact ⟨⟨rfl, typed⟩, fun _ _ isParent => by cases isParent⟩
  | field _ _ looked _ sound =>
      exact ⟨(sound.within.getFrom looked).dereference, fun _ _ isParent => by cases isParent⟩
  | @entry r elem entries key value _ isMap found sound =>
      obtain ⟨there, mapTyped⟩ := sound.within
      rw [isMap] at there mapTyped
      rw [GoValue.hasType, Bool.and_eq_true] at mapTyped
      refine ⟨Located.Within.dereference ⟨?_, typed_of_get? mapTyped.2 found⟩, ?_⟩
      · rw [GoValue.atPlace_append, there]
        simp [GoValue.atPlace, found]
      · intro parent _ isParent
        cases isParent
        exact ⟨sound.within, elem, entries, value, isMap, found, rfl⟩
  | @item r elem items index value _ isList isItem sound =>
      obtain ⟨there, listTyped⟩ := sound.within
      rw [isList] at there listTyped
      refine ⟨Located.Within.dereference ⟨?_, typed_of_getElem? listTyped isItem⟩,
        fun _ _ isParent => by cases isParent⟩
      rw [GoValue.atPlace_append, there]
      simp [GoValue.atPlace, isItem]

/-- Writing a replacement into the map puts it at the place of the struct. -/
theorem Sound.setMapIndex {root : GoValue} (sound : r.Sound root) {parent : Located}
    (isParent : r.parentMap = some (parent, key)) (fixed : r.loc.addressable = false)
    (new : GoValue) :
    ∃ root', setMapIndex root parent key ⟨r.loc.val.type, new⟩ = .ok root' ∧
      root'.atPlace r.loc.place = some new := by
  obtain ⟨parentWithin, elem, entries, value, isMap, found, isLoc⟩ := sound.parent parent key isParent
  have there := parentWithin.there
  have written (stored : GoValue) (further : List Selector)
      (reads : stored.atPlace further = some new) :
      (root.put parent.place (.map (FiniteMap.set entries key stored))).atPlace
        (parent.place ++ .key key :: further) = some new := by
    rw [GoValue.atPlace_append, GoValue.atPlace_put_self there]
    simp [GoValue.atPlace, FiniteMap.get?_set, reads]
  have stores {type : GoType} {stored : GoValue}
      (assigned : assignTo elem (some ⟨type, new⟩) = .ok stored) :
      Reflect.setMapIndex root parent key ⟨type, new⟩ =
        .ok (root.put parent.place (.map (FiniteMap.set entries key stored))) := by
    simp only [Reflect.setMapIndex, isMap, assigned]
    rfl
  have entryTyped : value.hasType elem = true := by
    have mapTyped := parentWithin.typed
    rw [isMap, GoValue.hasType, Bool.and_eq_true] at mapTyped
    exact typed_of_get? mapTyped.2 found
  rw [isLoc] at fixed ⊢
  rcases Located.dereference_cases ⟨⟨elem, value⟩, parent.place ++ [.key key], false⟩ with
    addressable | ⟨dynamic, held, isInterface, isLoc⟩ | isLoc
  · exact absurd (addressable.symm.trans fixed) Bool.noConfusion
  · cases isInterface
    rw [GoValue.hasType, Bool.and_eq_true, bne_iff_ne] at entryTyped
    rw [isLoc]
    refine ⟨_, stores (by rw [assignTo, if_neg entryTyped.1, if_pos rfl]), ?_⟩
    rw [List.append_assoc]
    exact written _ [.elem] rfl
  · rw [isLoc]
    exact ⟨_, stores (by rw [assignTo, if_pos rfl]), written _ [] rfl⟩

end ValueReflect

/-! ## Reading a field after a write -/

/-- What reading a field with this value shows. -/
def FieldInfo.reading (info : FieldInfo) (value : GoValue) : Option ReflectValue :=
  if info.canOmit ⟨info.fieldType, value⟩ then none else some ⟨info.fieldType, value⟩

section Struct

variable {grow : Nat → Nat} {name : String} {fields : GoFields}

section

variable (larger : ∀ capacity, capacity < grow capacity) (kept : pathsKept grow fields = true)
  (cached : (structFields grow fields).get? key = some entry)

include larger kept cached

/-- The lookup of a cached field in a value of the struct type. -/
theorem looked_of_cached {value : GoValue} (typed : value.hasType (.struct name fields) = true) :
    Looked entry.toFieldInfo entry.fieldPath ⟨.struct name fields, value⟩ := by
  cases value with
  | struct values =>
      exact looked_of_mem_jsonFields (listed_of_cached larger kept cached).2 name typed
  | _ => simp [GoValue.hasType] at typed

/-- What is read depends on the value of the field only. -/
theorem find_eq {value : GoValue} (typed : value.hasType (.struct name fields) = true) :
    findJsonNameField grow fields ⟨.struct name fields, value⟩ key =
      match value.select entry.fieldPath with
      | some own => .ok (entry.reading own)
      | none => .error .fieldOfNonStruct := by
  rw [findJsonNameField, cached]
  rcases looked_of_cached larger kept cached typed with
    ⟨own, selected, _, looked⟩ | ⟨behind, panics⟩
  · simp only [looked, selected]
    rfl
  · simp only [panics, behind.select_eq_none]
    rfl

/-- Fields with different names have paths that part. -/
theorem paths_part {other : String} {otherEntry : FieldCacheEntry (List Nat)}
    (otherCached : (structFields grow fields).get? other = some otherEntry)
    (different : other ≠ key) : ¬ entry.fieldPath <+: otherEntry.fieldPath := by
  intro leads
  obtain ⟨named, listed⟩ := listed_of_cached larger kept cached
  obtain ⟨otherNamed, otherListed⟩ := listed_of_cached larger kept otherCached
  have same := Forest.eq_of_prefix (jsonForest_distinct fields 0) listed otherListed leads
  have sameInfo : entry.toFieldInfo = otherEntry.toFieldInfo := congrArg Prod.fst same
  exact different (otherNamed.symm.trans ((congrArg FieldInfo.jsonName sameInfo.symm).trans named))

/-- After the write the field reads as the new value, and every other one as
before. -/
theorem find_putField {value own new : GoValue} (typed : value.hasType (.struct name fields) = true)
    (selected : value.select entry.fieldPath = some own)
    (newTyped : new.hasType entry.fieldType = true) :
    findJsonNameField grow fields ⟨.struct name fields, value.putField entry.fieldPath new⟩ key =
        .ok (entry.reading new) ∧
      ∀ other ≠ key,
        findJsonNameField grow fields ⟨.struct name fields, value.putField entry.fieldPath new⟩
            other =
          findJsonNameField grow fields ⟨.struct name fields, value⟩ other := by
  have found : getFrom entry.fieldPath ⟨.struct name fields, value⟩ =
      .ok ⟨entry.fieldType, own⟩ := by
    rcases looked_of_cached larger kept cached typed with
      ⟨_, isOwn, _, looked⟩ | ⟨behind, _⟩
    · cases selected.symm.trans isOwn
      exact looked
    · cases selected.symm.trans behind.select_eq_none
  have written : (value.putField entry.fieldPath new).hasType (.struct name fields) = true :=
    Located.putField_hasType typed selected found newTyped
  constructor
  · rw [find_eq larger kept cached written, GoValue.select_putField_self selected]
  · intro other different
    cases otherCached : (structFields grow fields).get? other with
    | none => rw [findJsonNameField, findJsonNameField, otherCached]
    | some otherEntry =>
        rw [find_eq larger kept otherCached written, find_eq larger kept otherCached typed,
          GoValue.select_putField_other
            (paths_part larger kept cached otherCached different)
            (paths_part larger kept otherCached cached different.symm)]

/-- The lookup of a cached field, with its place. -/
theorem located_of_cached {loc : Located} (isStruct : loc.val.type = .struct name fields)
    (typed : loc.val.value.hasType loc.val.type = true) :
    (∃ own oldVal, loc.val.value.select entry.fieldPath = some own ∧
        loc.getFrom entry.fieldPath = .ok oldVal ∧ oldVal.val = ⟨entry.fieldType, own⟩) ∨
      BehindNil entry.fieldPath loc.val.value ∧
        loc.getFrom entry.fieldPath = .error .fieldOfNonStruct := by
  obtain ⟨⟨type, value⟩, place, addressable⟩ := loc
  cases isStruct
  have forgets := Located.val_getFrom entry.fieldPath
    ⟨⟨.struct name fields, value⟩, place, addressable⟩
  rcases looked_of_cached larger kept cached typed with
    ⟨own, selected, _, looked⟩ | ⟨behind, panics⟩
  · rw [looked] at forgets
    cases found : Located.getFrom entry.fieldPath
      ⟨⟨.struct name fields, value⟩, place, addressable⟩ with
    | error failure => simp [found, Except.map] at forgets
    | ok oldVal =>
        simp only [found, Except.map, Except.ok.injEq] at forgets
        exact .inl ⟨own, oldVal, selected, rfl, forgets⟩
  · rw [panics] at forgets
    cases found : Located.getFrom entry.fieldPath
      ⟨⟨.struct name fields, value⟩, place, addressable⟩ with
    | error failure =>
        simp only [found, Except.map, Except.error.injEq] at forgets
        exact .inr ⟨behind, congrArg _ forgets⟩
    | ok oldVal => simp [found, Except.map] at forgets

end

end Struct

/-! ## One field only -/

namespace ValueReflect

variable {grow : Nat → Nat} {name : String} {fields : GoFields}

/-- Read again from the root, the struct shows the field as expected and every
other field as before. -/
def UpdatesOnly (grow : Nat → Nat) (r : ValueReflect) (fields : GoFields) (key : String)
    (expected : Option ReflectValue) (result : Except Panic GoValue) : Prop :=
  ∃ root value, result = .ok root ∧ root.atPlace r.loc.place = some value ∧
    findJsonNameField grow fields ⟨r.loc.val.type, value⟩ key = .ok expected ∧
    ∀ other ≠ key, findJsonNameField grow fields ⟨r.loc.val.type, value⟩ other =
      findJsonNameField grow fields r.loc.val other

/-- The field can be reached and set in place, or the struct is an entry of a map
and its other fields read as those of a zero struct. -/
def Updatable (grow : Nat → Nat) (r : ValueReflect) (fields : GoFields) (key : String)
    (fieldPath : List Nat) : Prop :=
  ¬ BehindNil fieldPath r.loc.val.value ∧
    (r.loc.addressable = true ∨ r.loc.val.value.crossesPointer fieldPath = true ∨
      r.parentMap.isSome = true ∧ ∀ other ≠ key,
        findJsonNameField grow fields ⟨r.loc.val.type, zero r.loc.val.type⟩ other =
          findJsonNameField grow fields r.loc.val other)

section

variable (larger : ∀ capacity, capacity < grow capacity) (kept : pathsKept grow fields = true)

include larger kept

private theorem updates_iff_of_written (isStruct : r.loc.val.type = .struct name fields)
    (cached : (structFields grow fields).get? key = some entry) {root base own new : GoValue}
    (typed : base.hasType (.struct name fields) = true)
    (selected : base.select entry.fieldPath = some own)
    (newTyped : new.hasType entry.fieldType = true)
    (there : root.atPlace r.loc.place = some (base.putField entry.fieldPath new))
    (expected : Option ReflectValue) :
    UpdatesOnly grow r fields key expected (.ok root) ↔
      entry.reading new = expected ∧ ∀ other ≠ key,
        findJsonNameField grow fields ⟨.struct name fields, base⟩ other =
          findJsonNameField grow fields r.loc.val other := by
  obtain ⟨self, others⟩ := find_putField larger kept cached typed selected newTyped
  constructor
  · intro ⟨_, value, isRoot, isValue, shows, same⟩
    cases isRoot
    cases there.symm.trans isValue
    rw [isStruct] at shows same
    rw [self] at shows
    exact ⟨Except.ok.inj shows,
      fun other different => (others other different).symm.trans (same other different)⟩
  · intro ⟨shows, same⟩
    refine ⟨root, _, rfl, there, ?_, ?_⟩
    · rw [isStruct, self, shows]
    · intro other different
      rw [isStruct, others other different, same other different]

section

variable {root : GoValue} {newVal : Option ReflectValue} {new : GoValue} (sound : r.Sound root)
  (isStruct : r.loc.val.type = .struct name fields)
  (cached : (structFields grow fields).get? key = some entry)
  (assigned : assignTo entry.fieldType newVal = .ok new)

include sound isStruct cached assigned

private theorem update_in_map {blank : GoValue}
    (hasField : (zero (.struct name fields)).select entry.fieldPath = some blank) {parent : Located}
    {mapKey : String} (isParent : r.parentMap = some (parent, mapKey))
    (fixed : r.loc.addressable = false) {oldVal : Located}
    (unsettable : ¬ oldVal.addressable = true) :
    ∃ after, r.update root entry.fieldPath oldVal newVal = .ok after ∧
      after.atPlace r.loc.place =
        some ((zero (.struct name fields)).putField entry.fieldPath new) := by
  let replacement : Located := ⟨⟨r.loc.val.type, zero r.loc.val.type⟩, [], true⟩
  have typed : replacement.val.value.hasType replacement.val.type = true := zero_hasType _
  have isType : replacement.val.type = .struct name fields := isStruct
  rcases located_of_cached larger kept cached isType typed with
    ⟨own, field, selected, found, isField⟩ | ⟨behind, _⟩
  · obtain ⟨⟨further, isPlace, writes⟩, _⟩ := Located.getFrom_spec selected found
    obtain ⟨after, replaced, there⟩ := sound.setMapIndex isParent fixed
      ((zero r.loc.val.type).putField entry.fieldPath new)
    refine ⟨after, ?_, isStruct ▸ there⟩
    rw [update, if_neg unsettable, isParent]
    show (replacement.getFrom entry.fieldPath).bind (fun field =>
      (assignTo field.val.type newVal).bind fun new => Reflect.setMapIndex root parent mapKey
        ⟨r.loc.val.type, replacement.val.value.put field.place new⟩) = _
    have here : field.place = further := isPlace.trans (List.nil_append _)
    rw [found]
    simp only [Except.bind, isField, assigned, here, writes]
    exact replaced
  · have none := behind.select_eq_none
    simp only [replacement, isStruct] at none
    cases hasField.symm.trans none

theorem updates_iff (newTyped : new.hasType entry.fieldType = true)
    (expected : Option ReflectValue) :
    UpdatesOnly grow r fields key expected ((r.loc.getFrom entry.fieldPath).bind fun oldVal =>
        r.update root entry.fieldPath oldVal newVal) ↔
      entry.reading new = expected ∧ r.Updatable grow fields key entry.fieldPath := by
  have typed := sound.within.typed
  rcases located_of_cached larger kept cached isStruct typed with
    ⟨own, oldVal, selected, found, isOld⟩ | ⟨behind, panics⟩
  · have reachable : ¬ BehindNil entry.fieldPath r.loc.val.value := by
      intro behind
      cases selected.symm.trans behind.select_eq_none
    obtain ⟨⟨further, isPlace, writes⟩, isAddressable⟩ := Located.getFrom_spec selected found
    rw [found]
    show UpdatesOnly grow r fields key expected (r.update root entry.fieldPath oldVal newVal) ↔ _
    by_cases settable : oldVal.addressable = true
    · have inPlace : r.update root entry.fieldPath oldVal newVal =
          .ok (root.put oldVal.place new) := by
        rw [update, if_pos settable, isOld, assigned]
        rfl
      have there : (root.put oldVal.place new).atPlace r.loc.place =
          some (r.loc.val.value.putField entry.fieldPath new) := by
        rw [isPlace, GoValue.atPlace_put_append sound.within.there, writes]
      rw [inPlace, updates_iff_of_written larger kept isStruct cached (isStruct ▸ typed) selected
        newTyped there, ← isStruct]
      refine and_congr_right fun _ => ⟨fun _ => ⟨reachable, ?_⟩, fun _ _ _ => rfl⟩
      rw [isAddressable, Bool.or_eq_true] at settable
      exact settable.imp_right .inl
    · have both : ¬ (r.loc.addressable = true ∨
          r.loc.val.value.crossesPointer entry.fieldPath = true) := by
        rwa [isAddressable, Bool.or_eq_true] at settable
      obtain ⟨fixed, direct⟩ := not_or.mp both
      cases isParent : r.parentMap with
      | none =>
          rw [update, if_neg settable, isParent]
          constructor
          · intro ⟨_, _, failed, _⟩
            cases failed
          · intro ⟨_, _, possible⟩
            simp [fixed, direct, isParent] at possible
      | some parent =>
          have looked : Reflect.getFrom entry.fieldPath r.loc.val = .ok oldVal.val := by
            rw [← Located.val_getFrom, found]
            rfl
          have zeroTyped : (zero r.loc.val.type).hasType r.loc.val.type = true := zero_hasType _
          obtain ⟨blank, hasField⟩ := Located.select_of_direct typed selected looked
            (Bool.not_eq_true _ ▸ direct) zeroTyped
          rw [isStruct] at zeroTyped hasField
          obtain ⟨after, ran, there⟩ := update_in_map larger kept sound isStruct cached assigned
            hasField isParent (Bool.not_eq_true _ ▸ fixed) settable
          rw [ran, updates_iff_of_written larger kept isStruct cached zeroTyped hasField newTyped
            there, ← isStruct]
          refine and_congr_right fun _ => ⟨fun same => ⟨reachable, ?_⟩, fun ⟨_, possible⟩ => ?_⟩
          · exact .inr (.inr ⟨by rw [isParent]; rfl, same⟩)
          · exact ((possible.resolve_left fixed).resolve_left direct).2
  · rw [panics]
    constructor
    · intro ⟨_, _, failed, _⟩
      cases failed
    · intro ⟨_, reachable, _⟩
      exact absurd behind reachable

end

end

private theorem set_eq (isStruct : r.loc.val.type = .struct name fields)
    (cached : (structFields grow fields).get? key = some entry) (root : GoValue)
    (newVal : Option ReflectValue) :
    r.set grow root key newVal = (r.loc.getFrom entry.fieldPath).bind fun oldVal =>
      r.update root entry.fieldPath oldVal newVal := by
  have isEntry : fieldEntry grow r.loc.val.type key = some entry := by rw [isStruct]; exact cached
  rw [set, isEntry]
  rfl

private theorem delete_eq (larger : ∀ capacity, capacity < grow capacity)
    (kept : pathsKept grow fields = true) (isStruct : r.loc.val.type = .struct name fields)
    (typed : r.loc.val.value.hasType r.loc.val.type = true)
    (cached : (structFields grow fields).get? key = some entry)
    (permitted : (∃ elem, entry.fieldType = .pointer elem) ∨ entry.isOmitEmpty = true)
    (root : GoValue) :
    r.delete grow root key = (r.loc.getFrom entry.fieldPath).bind fun oldVal =>
      r.update root entry.fieldPath oldVal (some ⟨entry.fieldType, zero entry.fieldType⟩) := by
  have isEntry : fieldEntry grow r.loc.val.type key = some entry := by rw [isStruct]; exact cached
  rw [delete, isEntry]
  rcases located_of_cached larger kept cached isStruct typed with
    ⟨own, oldVal, _, found, isOld⟩ | ⟨_, panics⟩
  · simp only [found, isOld, bind, Except.bind]
    rcases permitted with ⟨elem, isPointer⟩ | omitEmpty
    · simp only [isPointer]
    · rw [omitEmpty]
      cases entry.fieldType <;> rfl
  · simp only [panics, bind, Except.bind]

/-- A struct of two strings. -/
def pairFields : GoFields :=
  .cons "A" "a" .string (.cons "B" "b" .string .nil)

/-- A map of pointers to pairs, and its entry. -/
def pointerMap : ReflectValue :=
  ⟨.map (.pointer (.struct "Pair" pairFields)),
    .map [("k", .pointer (.struct [.string "1", .string "2"]))]⟩

def pointerEntry : ValueReflect :=
  ⟨⟨⟨.struct "Pair" pairFields, .struct [.string "1", .string "2"]⟩, [.key "k", .elem], true⟩,
    some (⟨pointerMap, [], true⟩, "k")⟩

/-- A map of pairs, and its entry. -/
def pairMap : ReflectValue :=
  ⟨.map (.struct "Pair" pairFields), .map [("k", .struct [.string "1", .string "2"])]⟩

def pairEntry : ValueReflect :=
  ⟨⟨⟨.struct "Pair" pairFields, .struct [.string "1", .string "2"]⟩, [.key "k"], false⟩,
    some (⟨pairMap, [], true⟩, "k")⟩

end ValueReflect

end StructuredMergeDiff.Reflect
