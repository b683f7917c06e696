import StructuredMergeDiff.Value.Order
import StructuredMergeDiff.Value.Reflect.Unstructured

/-!
Contract: equality of values that may be backed by Go values.

`EqualsUsing` reads both values through the interface. Two Go slices are an
exception: they are compared by `reflect.DeepEqual`, without regard to what
the interface shows of their elements.

Owns: `deepEqual`, `equalsUsing` and its unfolding equation.
Does not own: when the two agree (`Value.Reflect.Faithful`).
-/

namespace StructuredMergeDiff.Reflect

open Library FiniteMap

/-! ## `reflect.DeepEqual` -/

mutual

/-- `reflect.DeepEqual` of two values of one type. -/
def deepValueEqual : GoValue → GoValue → Bool
  | .bool a, .bool b => a == b
  | .int a, .int b => a == b
  | .uint a, .uint b => a == b
  | .float a, .float b => a == b
  | .string a, .string b => a == b
  | .nil, .nil => true
  | .pointer a, .pointer b => deepValueEqual a b
  | .interface type a, .interface otherType b => type == otherType && deepValueEqual a b
  | .slice as, .slice bs => deepValueEqualItems as bs
  | .map as, .map bs => as.length == bs.length && deepValueEqualEntries as bs
  | .struct as, .struct bs => deepValueEqualItems as bs
  | _, _ => false

def deepValueEqualItems : List GoValue → List GoValue → Bool
  | [], [] => true
  | a :: as, b :: bs => deepValueEqual a b && deepValueEqualItems as bs
  | _, _ => false

/-- Every entry is found in the other map. -/
def deepValueEqualEntries : List (String × GoValue) → List (String × GoValue) → Bool
  | [], _ => true
  | (key, a) :: as, bs =>
      (match get? bs key with
        | some b => deepValueEqual a b
        | none => false) && deepValueEqualEntries as bs

end

/-- `reflect.DeepEqual` of two interfaces that hold the values. -/
def deepEqual (lhs rhs : ReflectValue) : Bool :=
  lhs.type == rhs.type && deepValueEqual lhs.value rhs.value

/-! ## Lists -/

inductive ListValue where
  | unstructured (items : List (Value Number))
  | listReflect (elem : GoType) (items : List GoValue)

namespace ListValue

def length : ListValue → Nat
  | .unstructured items => items.length
  | .listReflect _ items => items.length

/-- The items, each wrapped when the loop gets to it. -/
def range : ListValue → List (Except Panic (Item Number))
  | .unstructured items => items.map fun item => .ok (.unstructured item)
  | .listReflect elem items => items.map fun item => (mustReuse ⟨elem, item⟩).map .reflected

end ListValue

def listEqualsUsing (equal : Item Number → Item Number → Except Panic Bool)
    (lhs rhs : ListValue) : Except Panic Bool :=
  if lhs.length ≠ rhs.length then .ok false
  else
    (visitWhile (fun (pair : Except Panic (Item Number) × Except Panic (Item Number)) _ => do
      let lv ← pair.1
      let rv ← pair.2
      return ((), ← equal lv rv)) (lhs.range.zip rhs.range) ()).map Prod.snd

/-- `EqualsUsing` of each implementation of lists. -/
def ListValue.equalsUsing (equal : Item Number → Item Number → Except Panic Bool) :
    ListValue → ListValue → Except Panic Bool
  | .listReflect lhsElem lhs, .listReflect rhsElem rhs =>
      .ok (deepEqual ⟨.slice lhsElem, .slice lhs⟩ ⟨.slice rhsElem, .slice rhs⟩)
  | lhs, rhs => listEqualsUsing equal lhs rhs

/-! ## Maps -/

variable (grow : Nat → Nat) (encode : List Nat → String)

/-- The callback of `MapEqualsUsing`. A panic of the comparison stops the zip and
is kept as its state. -/
def equalsCallback (equal : Item Number → Item Number → Except Panic Bool) :
    Callback Number (Option Panic) :=
  fun _ lhs rhs panicked =>
    match lhs, rhs with
    | some lhs, some rhs =>
        match equal lhs rhs with
        | .ok same => (panicked, same)
        | .error failure => (some failure, false)
    | _, _ => (panicked, false)

def mapEqualsUsing (equal : Item Number → Item Number → Except Panic Bool)
    (lhs rhs : MapValue Number) : Except Panic Bool := do
  if (← lhs.length grow) ≠ (← rhs.length grow) then return false
  else
    match ← mapZip grow (some lhs) (some rhs) .unordered (equalsCallback equal) none with
    | (none, same) => return same
    | (some failure, _) => throw failure

/-- `EqualsUsing` of unstructured maps and of Go maps: every entry of the right map is
looked up in the left one. -/
def lookupEqualsUsing (equal : Item Number → Item Number → Except Panic Bool)
    (lhs rhs : MapValue Number) : Except Panic Bool := do
  let lhsLength ← lhs.length grow
  if lhsLength ≠ (← rhs.length grow) then return false
  else if lhsLength = 0 then return true
  else
    let (_, same) ← rhs.iterate grow (fun key value _ => do
      match ← lhs.get grow key with
      | none => return ((), false)
      | some lhsVal => return ((), ← equal lhsVal value)) ()
    return same

def MapValue.equalsUsing (equal : Item Number → Item Number → Except Panic Bool) :
    MapValue Number → MapValue Number → Except Panic Bool
  | .structReflect name fields values, rhs =>
      mapEqualsUsing grow equal (.structReflect name fields values) rhs
  | lhs, rhs => lookupEqualsUsing grow equal lhs rhs

/-! ## Values -/

/-- What `IsX` and `AsX` show of a value. -/
inductive View where
  | number (n : Number)
  | string (s : String)
  | bool (b : Bool)
  | list (items : ListValue)
  | map (entries : MapValue Number)
  | null

def view : Item Number → Except Panic View
  | .unstructured (.number n) => .ok (.number n)
  | .unstructured (.string s) => .ok (.string s)
  | .unstructured (.bool b) => .ok (.bool b)
  | .unstructured (.list items) => .ok (.list (.unstructured items))
  | .unstructured (.map bindings) =>
      .ok (.map (.unstructured (Value.normalize bindings) (Value.normalize_distinct bindings)))
  | .unstructured .null => .ok .null
  | .reflected ⟨.struct name fields, .struct values⟩ =>
      .ok (.map (.structReflect name fields values))
  | .reflected ⟨.map elem, .map entries⟩ =>
      -- the keys of a Go map are distinct
      if distinct : (entries.map Prod.fst).Nodup then .ok (.map (.mapReflect elem entries distinct))
      else .error .unsupportedType
  | .reflected ⟨.slice (.uint .bits8), .slice items⟩ => .ok (.string (encode (bytes items)))
  | .reflected ⟨.slice elem, .slice items⟩ => .ok (.list (.listReflect elem items))
  | .reflected ⟨.uint .bits64, _⟩ => .error .unsupportedType
  | .reflected ⟨.uint _, .uint n⟩ => .ok (.number (.int (asInt n)))
  | .reflected ⟨.int _, .int n⟩ => .ok (.number (.int n))
  | .reflected ⟨.float32, .float q⟩ | .reflected ⟨.float64, .float q⟩ => .ok (.number (.float q))
  | .reflected ⟨.string, .string s⟩ => .ok (.string s)
  | .reflected ⟨.bool, .bool b⟩ => .ok (.bool b)
  | .reflected ⟨_, .nil⟩ => .ok .null
  | _ => .error .unsupportedType

/-- The case distinction of `EqualsUsing`, with the recursive call open. -/
def equalsUsingBody (equal : Item Number × Item Number → Except Panic Bool)
    (pair : Item Number × Item Number) : Except Panic Bool := do
  match ← view encode pair.1, ← view encode pair.2 with
  | .number x, .number y => return x.equals y
  | .string s, .string t => return s == t
  | .bool b, .bool c => return b == c
  | .list lhs, .list rhs => lhs.equalsUsing (fun x y => equal (x, y)) rhs
  | .map lhs, .map rhs => lhs.equalsUsing grow (fun x y => equal (x, y)) rhs
  | .null, .null => return true
  | _, _ => return false

def Item.depth : Item Number → Nat
  | .unstructured v => v.depth
  | .reflected r => r.value.depth

/-- `EqualsUsing`. -/
def equalsUsing (lhs rhs : Item Number) : Except Panic Bool :=
  measured (fun pair => pair.1.depth) (equalsUsingBody grow encode) (fun _ => .ok true) (lhs, rhs)

/-! ## The recursion descends -/

variable {grow encode} {item : Item Number}

def ListValue.depth : ListValue → Nat
  | .unstructured items => Value.depthItems items + 1
  | .listReflect _ items => depthItems items + 1

def MapValue.depth : MapValue Number → Nat
  | .unstructured bindings _ => Value.depthBindings bindings + 1
  | .mapReflect _ entries _ => depthEntries entries + 1
  | .structReflect _ _ values => depthItems values + 1

theorem depth_of_mustReuse {child wrapped : ReflectValue} (wraps : mustReuse child = .ok wrapped) :
    wrapped.value.depth ≤ child.value.depth := by
  rw [mustReuse_eq wraps]
  exact depth_dereference_le child

theorem ListValue.depth_of_mem_range {list : ListValue} (member : .ok item ∈ list.range)
    : item.depth < list.depth := by
  cases list with
  | unstructured items =>
      obtain ⟨v, inItems, same⟩ := List.mem_map.mp member
      cases same
      exact Nat.lt_succ_of_le (Value.depth_le_depthItems inItems)
  | listReflect elem items =>
      obtain ⟨v, inItems, same⟩ := List.mem_map.mp member
      obtain ⟨wrapped, wraps, rfl⟩ := map_eq_ok.mp same
      exact Nat.lt_succ_of_le
        (Nat.le_trans (depth_of_mustReuse wraps) (depth_le_depthItems inItems))

section

variable (larger : ∀ capacity, capacity < grow capacity)

include larger

/-- A field that is looked up is smaller than the struct. -/
theorem depth_of_cached {fields : GoFields} {key : String} {entry : FieldCacheEntry (List Nat)}
    (cached : (structFields grow fields).get? key = some entry) {structVal fieldVal : ReflectValue}
    (looked : getFrom entry.fieldPath structVal = .ok fieldVal) :
    fieldVal.value.depth < structVal.value.depth :=
  depth_getFrom_lt (path_ne_nil larger (mem_of_get? cached)) looked

theorem depth_of_findJsonNameField {fields : GoFields} {structVal fieldVal : ReflectValue}
    {key : String} (found : findJsonNameField grow fields structVal key = .ok (some fieldVal)) :
    fieldVal.value.depth < structVal.value.depth := by
  unfold findJsonNameField at found
  split at found
  · cases found
  · rename_i entry cached
    obtain ⟨own, looked, isFound⟩ := bind_eq_ok.mp found
    have kept : (if entry.canOmit own then none else some own) = some fieldVal :=
      Except.ok.inj isFound
    split at kept
    · cases kept
    · cases kept
      exact depth_of_cached larger cached looked

/-- A value that `Get` returns is smaller than the map. -/
theorem MapValue.depth_of_get {m : MapValue Number} {key : String}
    (found : m.get grow key = .ok (some item)) : item.depth < m.depth := by
  cases m with
  | unstructured bindings distinct =>
      obtain ⟨v, isValue, rfl⟩ := Option.map_eq_some_iff.mp (Except.ok.inj found)
      exact Nat.lt_succ_of_le (Value.depth_le_depthBindings (mem_of_get? isValue))
  | mapReflect elem entries distinct =>
      rw [MapValue.get] at found
      cases isValue : get? entries key with
      | none => simp [isValue] at found
      | some value =>
          rw [isValue] at found
          obtain ⟨wrapped, wraps, isItem⟩ := map_eq_ok.mp found
          cases isItem
          exact Nat.lt_succ_of_le (Nat.le_trans (depth_of_mustReuse wraps)
            (depth_le_depthEntries (mem_of_get? isValue)))
  | structReflect name fields values =>
      rw [MapValue.get] at found
      obtain ⟨fieldVal?, isField, shown⟩ := bind_eq_ok.mp found
      cases fieldVal? with
      | none => cases shown
      | some fieldVal =>
          obtain ⟨wrapped, wraps, isItem⟩ := bind_eq_ok.mp shown
          cases isItem
          exact Nat.lt_of_le_of_lt (depth_of_mustReuse wraps)
            (depth_of_findJsonNameField larger isField)

end

theorem depth_of_fieldItem {entry : FieldInfo} {fieldVal : ReflectValue}
    (shown : fieldItem entry fieldVal = .ok (some item)) : item.depth ≤ fieldVal.value.depth := by
  unfold fieldItem at shown
  split at shown
  · cases shown
  · obtain ⟨wrapped, wraps, isItem⟩ := map_eq_ok.mp shown
    cases isItem
    exact depth_of_mustReuse wraps

section Agree

variable {first second : Item Number → Item Number → Except Panic Bool} {bound : Nat}
  (agree : ∀ lhs rhs, lhs.depth < bound → first lhs rhs = second lhs rhs)

include agree

private theorem listEqualsUsing_congr {lhs : ListValue} (within : lhs.depth ≤ bound)
    (rhs : ListValue) : listEqualsUsing first lhs rhs = listEqualsUsing second lhs rhs := by
  unfold listEqualsUsing
  split
  · rfl
  · refine congrArg _ (visitWhile_congr (fun pair member _ => ?_) ())
    obtain ⟨lv?, rv?⟩ := pair
    cases lv? with
    | error failure => rfl
    | ok lv =>
        have smaller := ListValue.depth_of_mem_range (List.of_mem_zip member).1
        cases rv? with
        | error failure => rfl
        | ok rv =>
            have same := agree lv rv (Nat.lt_of_lt_of_le smaller within)
            simp only [bind, Except.bind, same]

private theorem ListValue.equalsUsing_congr {lhs : ListValue} (within : lhs.depth ≤ bound)
    (rhs : ListValue) : lhs.equalsUsing first rhs = lhs.equalsUsing second rhs := by
  cases lhs <;> cases rhs <;> first | rfl | exact listEqualsUsing_congr agree within _

private theorem lookupEqualsUsing_congr (larger : ∀ capacity, capacity < grow capacity)
    {lhs : MapValue Number} (within : lhs.depth ≤ bound) (rhs : MapValue Number) :
    lookupEqualsUsing grow first lhs rhs = lookupEqualsUsing grow second lhs rhs := by
  have visits (key : String) (value : Item Number) :
      (do
        match ← lhs.get grow key with
        | none => return ((), false)
        | some lhsVal => return ((), ← first lhsVal value) : Except Panic (Unit × Bool)) =
      do
        match ← lhs.get grow key with
        | none => return ((), false)
        | some lhsVal => return ((), ← second lhsVal value) := by
    cases found : lhs.get grow key with
    | error failure => rfl
    | ok lhsVal? =>
        cases lhsVal? with
        | none => rfl
        | some lhsVal =>
            have smaller := Nat.lt_of_lt_of_le (MapValue.depth_of_get larger found) within
            simp only [bind, Except.bind, agree lhsVal value smaller]
  unfold lookupEqualsUsing
  simp only [visits]

private theorem equalsCallback_congr {key : String} {lhs : Option (Item Number)}
    (smaller : ∀ item, lhs = some item → item.depth < bound) (rhs : Option (Item Number))
    (panicked : Option Panic) :
    equalsCallback first key lhs rhs panicked = equalsCallback second key lhs rhs panicked := by
  cases lhs with
  | none => rfl
  | some item =>
      cases rhs with
      | none => rfl
      | some other => simp only [equalsCallback, agree item other (smaller item rfl)]

section

variable (larger : ∀ capacity, capacity < grow capacity)

include larger

private theorem structZip_congr {fields : GoFields} {lhs : ReflectValue}
    (within : lhs.value.depth ≤ bound) (rhs : ReflectValue) (panicked : Option Panic) :
    structZip grow fields lhs rhs (equalsCallback first) panicked =
      structZip grow fields lhs rhs (equalsCallback second) panicked := by
  refine visitWhile_congr (fun entry member panicked => ?_) panicked
  cases looked : getFrom entry.fieldPath lhs with
  | error failure => rfl
  | ok lhsFieldVal =>
      have smaller := depth_of_cached larger (mem_orderedStructFields.mp member) looked
      cases getFrom entry.fieldPath rhs with
      | error failure => rfl
      | ok rhsFieldVal =>
          simp only [bind, Except.bind]
          split
          · rfl
          · cases shown : fieldItem entry.toFieldInfo lhsFieldVal (N := Number) with
            | error failure => rfl
            | ok item? =>
                have below : ∀ item, item? = some item → item.depth < bound := by
                  intro item isItem
                  subst isItem
                  exact Nat.lt_of_le_of_lt (depth_of_fieldItem shown)
                    (Nat.lt_of_lt_of_le smaller within)
                simp only [equalsCallback_congr agree below]

private theorem unorderedMapZip_congr (name : String) (fields : GoFields) {values : List GoValue}
    (within : depthItems values + 1 ≤ bound) (rhs : MapValue Number) (panicked : Option Panic) :
    unorderedMapZip grow (some (.structReflect name fields values)) (some rhs)
        (equalsCallback first) panicked =
      unorderedMapZip grow (some (.structReflect name fields values)) (some rhs)
        (equalsCallback second) panicked := by
  have left (panicked : Option Panic) :
      iterateOrNil grow (fun key lhsValue state => do
          return equalsCallback first key (some lhsValue) (← getOrNil grow key (some rhs)) state)
          (some (.structReflect name fields values)) panicked =
        iterateOrNil grow (fun key lhsValue state => do
          return equalsCallback second key (some lhsValue) (← getOrNil grow key (some rhs)) state)
          (some (.structReflect name fields values)) panicked := by
    refine visitWhile_congr (fun entry member panicked => ?_) panicked
    cases looked : getFrom entry.fieldPath ⟨.struct name fields, .struct values⟩ with
    | error failure => rfl
    | ok fieldVal =>
        have smaller := depth_of_cached larger (mem_orderedStructFields.mp member) looked
        simp only [bind, Except.bind]
        split
        · rfl
        · cases wraps : mustReuse fieldVal with
          | error failure => rfl
          | ok wrapped =>
              have below : ∀ item, some (Item.reflected wrapped) = some item →
                  item.depth < bound := by
                intro item isItem
                cases isItem
                exact Nat.lt_of_le_of_lt (depth_of_mustReuse wraps)
                  (Nat.lt_of_lt_of_le smaller within)
              simp only [equalsCallback_congr agree below]
  have right (key : String) (rhsValue : Item Number) (panicked : Option Panic) :
      equalsCallback first key none (some rhsValue) panicked =
        equalsCallback second key none (some rhsValue) panicked := rfl
  unfold unorderedMapZip
  simp only [left, right]

private theorem mapEqualsUsing_congr {name : String} {fields : GoFields} {values : List GoValue}
    (within : depthItems values + 1 ≤ bound) (rhs : MapValue Number) :
    mapEqualsUsing grow first (.structReflect name fields values) rhs =
      mapEqualsUsing grow second (.structReflect name fields values) rhs := by
  have zips : mapZip grow (some (.structReflect name fields values)) (some rhs) .unordered
        (equalsCallback first) none =
      mapZip grow (some (.structReflect name fields values)) (some rhs) .unordered
        (equalsCallback second) none := by
    have default := unorderedMapZip_congr agree larger name fields within rhs none
    have below : (ReflectValue.mk (.struct name fields) (.struct values)).value.depth ≤ bound :=
      within
    unfold mapZip MapValue.zip
    cases rhs with
    | structReflect otherName otherFields others =>
        simp only
        split
        · exact structZip_congr agree larger below _ none
        · exact default
    | _ => exact default
  unfold mapEqualsUsing
  rw [zips]

private theorem MapValue.equalsUsing_congr {lhs : MapValue Number} (within : lhs.depth ≤ bound)
    (rhs : MapValue Number) :
    lhs.equalsUsing grow first rhs = lhs.equalsUsing grow second rhs := by
  cases lhs with
  | structReflect name fields values => exact mapEqualsUsing_congr agree larger within rhs
  | unstructured bindings distinct => exact lookupEqualsUsing_congr agree larger within rhs
  | mapReflect elem entries distinct => exact lookupEqualsUsing_congr agree larger within rhs

end

end Agree

theorem depth_of_view_list {list : ListValue} (shown : view encode item = .ok (.list list))
    : list.depth ≤ item.depth := by
  unfold view at shown
  split at shown
  case h_8 => split at shown <;> cases shown
  all_goals first | cases shown; exact Nat.le_refl _ | cases shown

private theorem depthBindings_le {bound : Nat} :
    ∀ {bindings : List (String × Value Number)},
      (∀ binding ∈ bindings, binding.2.depth ≤ bound) → Value.depthBindings bindings ≤ bound
  | [], _ => Nat.zero_le _
  | _ :: _, each => Nat.max_le.mpr ⟨each _ (List.mem_cons_self ..),
      depthBindings_le fun _ member => each _ (List.mem_cons_of_mem _ member)⟩

theorem depth_normalize_le (bindings : List (String × Value Number)) :
    Value.depthBindings (Value.normalize bindings) ≤ Value.depthBindings bindings :=
  depthBindings_le fun _ member => Value.depth_le_depthBindings (Value.mem_of_mem_normalize member)

theorem depth_of_view_map {m : MapValue Number} (shown : view encode item = .ok (.map m))
    : m.depth ≤ item.depth := by
  unfold view at shown
  split at shown
  case h_8 =>
    split at shown <;> cases shown
    exact Nat.le_refl _
  case h_5 =>
    cases shown
    exact Nat.succ_le_succ (depth_normalize_le _)
  all_goals first | cases shown; exact Nat.le_refl _ | cases shown

private theorem equalsUsingBody_descends (larger : ∀ capacity, capacity < grow capacity) :
    Descends (fun pair : Item Number × Item Number => pair.1.depth)
      (equalsUsingBody grow encode) := by
  intro first second pair agree
  have agreeBelow (lhs rhs : Item Number) (smaller : lhs.depth < pair.1.depth) :
      first (lhs, rhs) = second (lhs, rhs) := agree (lhs, rhs) smaller
  unfold equalsUsingBody
  cases left : view encode pair.1 with
  | error failure => rfl
  | ok lhs =>
      cases view encode pair.2 with
      | error failure => rfl
      | ok rhs =>
          simp only [bind, Except.bind]
          split
          case h_4 list _ =>
            exact ListValue.equalsUsing_congr agreeBelow (depth_of_view_list left) _
          case h_5 m _ =>
            exact MapValue.equalsUsing_congr agreeBelow larger (depth_of_view_map left) _
          all_goals rfl

theorem equalsUsing_eq (larger : ∀ capacity, capacity < grow capacity) (lhs rhs : Item Number) :
    equalsUsing grow encode lhs rhs =
      equalsUsingBody grow encode (fun pair => equalsUsing grow encode pair.1 pair.2) (lhs, rhs) :=
  measured_eq (equalsUsingBody_descends larger) _ _

end StructuredMergeDiff.Reflect
