import Mathlib.Algebra.Group.Int.Defs
import Mathlib.Algebra.Group.Nat.Defs
import Mathlib.Data.Rat.Defs
import StructuredMergeDiff.Library.FiniteMap

/-!
Contract: the Go types and values that reflection shows as values.

A Go value is a finite tree: what a pointer points to lies below it, and no two
pointers share it. One `nil` stands for the nil of every kind that has one. A
type that mentions itself is represented by as much of its unfolding as a value
needs. Maps have string keys, and struct fields are exported ones. Arrays,
channels, functions and types with their own JSON encoding are left out, as are
floats that are not finite.

Owns: `GoType`, `GoValue`, typing, `zero`, and the reads of package reflect that the
view uses.
Does not own: the field cache (`Value.Reflect.Cache`) and the map view
(`Value.Reflect.MapView`).
-/

namespace StructuredMergeDiff.Reflect

open Library

/-- The width of an integer kind; `native` is that of `int` and `uint`. -/
inductive Width where
  | native
  | bits8
  | bits16
  | bits32
  | bits64
deriving DecidableEq, Repr

def Width.bits : Width → Nat
  | .bits8 => 8
  | .bits16 => 16
  | .bits32 => 32
  | .native | .bits64 => 64

mutual

inductive GoType where
  | bool
  | int (width : Width)
  | uint (width : Width)
  | float32
  | float64
  | string
  | interface
  | pointer (elem : GoType)
  | slice (elem : GoType)
  | map (elem : GoType)
  | struct (name : String) (fields : GoFields)
deriving DecidableEq, Repr

/-- The fields of a struct type, each with the text of its `json` tag. -/
inductive GoFields where
  | nil
  | cons (name tag : String) (type : GoType) (rest : GoFields)
deriving DecidableEq, Repr

end

def GoFields.types : GoFields → List GoType
  | .nil => []
  | .cons _ _ type rest => type :: rest.types

inductive GoValue where
  | bool (b : Bool)
  | int (n : Int)
  | uint (n : Nat)
  | float (q : ℚ)
  | string (s : String)
  | nil
  | pointer (elem : GoValue)
  | interface (type : GoType) (elem : GoValue)
  | slice (items : List GoValue)
  | map (entries : List (String × GoValue))
  | struct (fields : List GoValue)
deriving Repr

instance : Inhabited GoValue := ⟨.nil⟩

/-! ## Depth -/

mutual

def GoValue.depth : GoValue → Nat
  | .pointer elem => elem.depth + 1
  | .interface _ elem => elem.depth + 1
  | .slice items => depthItems items + 1
  | .map entries => depthEntries entries + 1
  | .struct values => depthItems values + 1
  | _ => 0

def depthItems : List GoValue → Nat
  | [] => 0
  | item :: rest => max item.depth (depthItems rest)

def depthEntries : List (String × GoValue) → Nat
  | [] => 0
  | entry :: rest => max entry.2.depth (depthEntries rest)

end

theorem depth_le_depthItems {item : GoValue} {items : List GoValue} (member : item ∈ items) :
    item.depth ≤ depthItems items := by
  induction items with
  | nil => cases member
  | cons head tail ih =>
      simp only [depthItems]
      rcases List.mem_cons.mp member with rfl | inTail
      · exact Nat.le_max_left _ _
      · exact Nat.le_trans (ih inTail) (Nat.le_max_right _ _)

theorem depth_le_depthEntries {entry : String × GoValue} {entries : List (String × GoValue)}
    (member : entry ∈ entries) : entry.2.depth ≤ depthEntries entries := by
  induction entries with
  | nil => cases member
  | cons head tail ih =>
      simp only [depthEntries]
      rcases List.mem_cons.mp member with rfl | inTail
      · exact Nat.le_max_left _ _
      · exact Nat.le_trans (ih inTail) (Nat.le_max_right _ _)

/-! ## Typing -/

mutual

/-- The value is one of the type. -/
def GoValue.hasType : GoValue → GoType → Bool
  | .bool _, .bool => true
  | .int n, .int width => decide (-2 ^ (width.bits - 1) ≤ n ∧ n < 2 ^ (width.bits - 1))
  | .uint n, .uint width => decide (n < 2 ^ width.bits)
  | .float _, .float32 | .float _, .float64 => true
  | .string _, .string => true
  | .nil, .interface | .nil, .pointer _ | .nil, .slice _ | .nil, .map _ => true
  | .pointer elem, .pointer type => elem.hasType type
  | .interface dynamic elem, .interface => dynamic != .interface && elem.hasType dynamic
  | .slice items, .slice type => hasTypeItems items type
  | .map entries, .map type =>
      decide ((entries.map Prod.fst).Nodup) && hasTypeEntries entries type
  | .struct values, .struct _ fields => hasTypeFields values fields
  | _, _ => false

def hasTypeItems : List GoValue → GoType → Bool
  | [], _ => true
  | item :: rest, type => item.hasType type && hasTypeItems rest type

def hasTypeEntries : List (String × GoValue) → GoType → Bool
  | [], _ => true
  | (_, value) :: rest, type => value.hasType type && hasTypeEntries rest type

def hasTypeFields : List GoValue → GoFields → Bool
  | [], .nil => true
  | value :: values, .cons _ _ type rest => value.hasType type && hasTypeFields values rest
  | _, _ => false

end

theorem typed_of_get? {entries : List (String × GoValue)} {elem : GoType}
    (typed : hasTypeEntries entries elem = true) {key : String} {value : GoValue}
    (found : FiniteMap.get? entries key = some value) : value.hasType elem = true := by
  induction entries with
  | nil => cases found
  | cons entry rest ih =>
      obtain ⟨k, first⟩ := entry
      rw [hasTypeEntries, Bool.and_eq_true] at typed
      rw [FiniteMap.get?_cons] at found
      split at found
      · cases found
        exact typed.1
      · exact ih typed.2 found

theorem typed_of_getElem? {items : List GoValue} {elem : GoType}
    (typed : hasTypeItems items elem = true) {index : Nat} {value : GoValue}
    (found : items[index]? = some value) : value.hasType elem = true := by
  induction items generalizing index with
  | nil => cases found
  | cons item rest ih =>
      rw [hasTypeItems, Bool.and_eq_true] at typed
      cases index with
      | zero =>
          cases found
          exact typed.1
      | succ index => exact ih typed.2 found

/-! ## Zero values -/

mutual

/-- `reflect.Zero` -/
def zero : GoType → GoValue
  | .bool => .bool false
  | .int _ => .int 0
  | .uint _ => .uint 0
  | .float32 | .float64 => .float 0
  | .string => .string ""
  | .interface | .pointer _ | .slice _ | .map _ => .nil
  | .struct _ fields => .struct (zeroFields fields)

def zeroFields : GoFields → List GoValue
  | .nil => []
  | .cons _ _ type rest => zero type :: zeroFields rest

end

mutual

theorem zero_hasType : (type : GoType) → (zero type).hasType type = true
  | .bool | .float32 | .float64 | .string | .interface | .pointer _ | .slice _ | .map _ => rfl
  | .int width => by cases width <;> decide
  | .uint width => by cases width <;> decide
  | .struct _ fields => zeroFields_hasType fields

theorem zeroFields_hasType : (fields : GoFields) → hasTypeFields (zeroFields fields) fields = true
  | .nil => rfl
  | .cons _ _ type rest => by
      rw [zeroFields, hasTypeFields, zero_hasType type, zeroFields_hasType rest]
      rfl

end

/-! ## Package reflect -/

/-- A `reflect.Value`: a value with its static type. -/
structure ReflectValue where
  type : GoType
  value : GoValue
deriving Repr

/-- The panics of the view. -/
inductive Panic where
  /-- reflect: call of reflect.Value.Field on a Value that is no struct -/
  | fieldOfNonStruct
  /-- reflect: Field index out of range -/
  | fieldOutOfRange
  /-- unsupported type: %v -/
  | unsupportedType
  /-- key %s may not be set (deleted) on struct %T: field does not exist -/
  | fieldDoesNotExist
  /-- key %s may not be deleted on struct: %T: value is neither a pointer nor an
  omitempty field -/
  | notDeletable
  /-- key %s may not be modified on struct: %T: struct is not settable -/
  | notSettable
  /-- reflect.Set: the value, or the absence of one, is not assignable to the type -/
  | notAssignable
  /-- reflect: call of reflect.Value.SetMapIndex on a Value that is no map -/
  | setOfNonMap
deriving DecidableEq, Repr

def safeIsNil : ReflectValue → Bool
  | ⟨_, .nil⟩ => true
  | _ => false

/-- One pointer or interface is followed, if it is not nil. -/
def dereference : ReflectValue → ReflectValue
  | ⟨.pointer type, .pointer elem⟩ => ⟨type, elem⟩
  | ⟨.interface, .interface dynamic elem⟩ => ⟨dynamic, elem⟩
  | other => other

theorem hasType_dereference {r : ReflectValue} (typed : r.value.hasType r.type = true) :
    (dereference r).value.hasType (dereference r).type = true := by
  unfold dereference
  split
  · exact typed
  · exact (Bool.and_eq_true_iff.mp typed).2
  · exact typed

/-- `FieldByIndex` with the one-element index of a direct field. -/
def fieldByIndex (index : Nat) : ReflectValue → Except Panic ReflectValue
  | ⟨.struct _ fields, .struct values⟩ =>
      match fields.types[index]?, values[index]? with
      | some type, some value => .ok ⟨type, value⟩
      | _, _ => .error .fieldOutOfRange
  | _ => .error .fieldOfNonStruct

theorem depth_dereference_le (r : ReflectValue) :
    (dereference r).value.depth ≤ r.value.depth := by
  unfold dereference
  split
  · exact Nat.le_succ _
  · exact Nat.le_succ _
  · exact Nat.le_refl _

theorem depth_fieldByIndex_lt {index : Nat} {r field : ReflectValue}
    (found : fieldByIndex index r = .ok field) : field.value.depth < r.value.depth := by
  unfold fieldByIndex at found
  split at found
  · split at found
    · rename_i isValue
      cases found
      exact Nat.lt_succ_of_le (depth_le_depthItems (List.mem_of_getElem? isValue))
    · cases found
  · cases found

/-- The empty value of the kinds that `omitempty` omits. -/
def isZero : ReflectValue → Bool
  | ⟨_, .nil⟩ => true
  | ⟨_, .slice items⟩ => items.isEmpty
  | ⟨_, .map entries⟩ => entries.isEmpty
  | ⟨_, .string s⟩ => s == ""
  | ⟨_, .bool b⟩ => !b
  | ⟨_, .int n⟩ => n == 0
  | ⟨_, .uint n⟩ => n == 0
  | ⟨_, .float q⟩ => q == 0
  | ⟨_, .pointer _⟩ | ⟨_, .interface ..⟩ | ⟨_, .struct _⟩ => false

end StructuredMergeDiff.Reflect
