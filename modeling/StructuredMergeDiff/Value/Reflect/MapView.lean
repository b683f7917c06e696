import StructuredMergeDiff.Library.EarlyExit
import StructuredMergeDiff.Value.Basic
import StructuredMergeDiff.Value.Reflect.Cache

/-!
Contract: the maps behind values, and walking two of them together.

A map is an unstructured map with string keys, a Go map, or a Go struct seen
through its JSON fields. Each is read by `Length`, `Empty`, `Get`, `Has` and
`Iterate`; two are walked together by `MapZip`, which has an implementation of
its own for two Go maps and for two structs of one type. A Go map is listed in
the order in which the range over it happens to visit it.

Owns: `MapValue` with its reads and the zips, as the code computes them, panics
included.
Does not own: what the reads agree on (`Value.Reflect.Zip`).
-/

namespace StructuredMergeDiff.Reflect

open Library

/-! ## Wrapped values -/

inductive ReflectType where
  | mapType
  | structMapType
  | listType
  | intType
  | uintType
  | floatType
  | stringType
  | byteStringType
  | boolType
  | nullType
deriving DecidableEq, Repr

/-- The kind of value a Go value is shown as. `uint64` is deliberately left out,
and one pointer or interface is followed before, not more. -/
def kind : ReflectValue → Except Panic ReflectType
  | ⟨.map _, .nil⟩ => .ok .nullType
  | ⟨.map _, _⟩ => .ok .mapType
  | ⟨.struct .., _⟩ => .ok .structMapType
  | ⟨.int _, _⟩ => .ok .intType
  | ⟨.uint .bits64, _⟩ => .error .unsupportedType
  | ⟨.uint _, _⟩ => .ok .uintType
  | ⟨.float32, _⟩ | ⟨.float64, _⟩ => .ok .floatType
  | ⟨.string, _⟩ => .ok .stringType
  | ⟨.bool, _⟩ => .ok .boolType
  | ⟨.slice _, .nil⟩ => .ok .nullType
  | ⟨.slice (.uint .bits8), _⟩ => .ok .byteStringType
  | ⟨.slice _, _⟩ => .ok .listType
  | ⟨.pointer _, .nil⟩ | ⟨.interface, .nil⟩ => .ok .nullType
  | ⟨.pointer _, _⟩ | ⟨.interface, _⟩ => .error .unsupportedType

/-- `mustReuse`: the value that a `reflect.Value` is wrapped as. -/
def mustReuse (value : ReflectValue) : Except Panic ReflectValue :=
  let dereferenced := dereference value
  (kind dereferenced).map fun _ => dereferenced

theorem mustReuse_eq {value wrapped : ReflectValue} (wraps : mustReuse value = .ok wrapped) :
    wrapped = dereference value := by
  unfold mustReuse at wraps
  cases isKind : kind (dereference value) with
  | error failure => simp [isKind, Except.map] at wraps
  | ok type =>
      simp only [isKind, Except.map, Except.ok.injEq] at wraps
      exact wraps.symm

/-- A value as a callback gets it. -/
inductive Item (N : Type) where
  | unstructured (v : Value N)
  | reflected (r : ReflectValue)
deriving Repr

inductive MapValue (N : Type) where
  | unstructured (bindings : List (String × Value N)) (distinct : (bindings.map Prod.fst).Nodup)
  | mapReflect (elem : GoType) (entries : List (String × GoValue))
      (distinct : (entries.map Prod.fst).Nodup)
  | structReflect (name : String) (fields : GoFields) (values : List GoValue)

variable {N σ : Type} (grow : Nat → Nat)

/-! ## Structs -/

/-- The loop over the JSON fields that are not omitted. -/
def eachStructField (fields : GoFields) (structVal : ReflectValue)
    (fn : String → ReflectValue → σ → Except Panic (σ × Bool)) :
    σ → Except Panic (σ × Bool) :=
  visitWhile (fun entry state => do
    let fieldVal ← getFrom entry.fieldPath structVal
    if entry.canOmit fieldVal then return (state, true)
    else fn entry.jsonName fieldVal state) (orderedStructFields grow fields)

def findJsonNameField (fields : GoFields) (structVal : ReflectValue) (jsonName : String) :
    Except Panic (Option ReflectValue) :=
  match (structFields grow fields).get? jsonName with
  | none => .ok none
  | some entry => do
      let fieldVal ← getFrom entry.fieldPath structVal
      return if entry.canOmit fieldVal then none else some fieldVal

/-! ## The reads of a map -/

namespace MapValue

def length : MapValue N → Except Panic Nat
  | .unstructured bindings _ => .ok bindings.length
  | .mapReflect _ entries _ => .ok entries.length
  | .structReflect name fields values =>
      (eachStructField grow fields ⟨.struct name fields, .struct values⟩
        (fun _ _ count => .ok (count + 1, true)) 0).map Prod.fst

def empty : MapValue N → Except Panic Bool
  | .unstructured bindings _ => .ok bindings.isEmpty
  | .mapReflect _ entries _ => .ok entries.isEmpty
  | .structReflect name fields values =>
      -- exit early if the struct is non-empty
      (eachStructField grow fields ⟨.struct name fields, .struct values⟩
        (fun _ _ state => .ok (state, false)) ()).map Prod.snd

def get (key : String) : MapValue N → Except Panic (Option (Item N))
  | .unstructured bindings _ =>
      .ok ((FiniteMap.get? bindings key).map .unstructured)
  | .mapReflect elem entries _ =>
      match FiniteMap.get? entries key with
      | none => .ok none
      | some value => (mustReuse ⟨elem, value⟩).map fun wrapped => some (.reflected wrapped)
  | .structReflect name fields values => do
      match ← findJsonNameField grow fields ⟨.struct name fields, .struct values⟩ key with
      | none => return none
      | some fieldVal => return some (.reflected (← mustReuse fieldVal))

def has (key : String) : MapValue N → Except Panic Bool
  | .unstructured bindings _ => .ok (FiniteMap.get? bindings key).isSome
  | .mapReflect _ entries _ => .ok (FiniteMap.get? entries key).isSome
  | .structReflect name fields values =>
      (findJsonNameField grow fields ⟨.struct name fields, .struct values⟩ key).map Option.isSome

def iterate (fn : String → Item N → σ → Except Panic (σ × Bool)) :
    MapValue N → σ → Except Panic (σ × Bool)
  | .unstructured bindings _ =>
      visitWhile (fun binding => fn binding.1 (.unstructured binding.2)) bindings
  | .mapReflect elem entries _ =>
      visitWhile (fun entry state => do
        fn entry.1 (.reflected (← mustReuse ⟨elem, entry.2⟩)) state) entries
  | .structReflect name fields values =>
      eachStructField grow fields ⟨.struct name fields, .struct values⟩
        fun jsonName fieldVal state => do fn jsonName (.reflected (← mustReuse fieldVal)) state

end MapValue

/-! ## A map that may be absent -/

def emptyOrNil : Option (MapValue N) → Except Panic Bool
  | none => .ok true
  | some m => m.empty grow

def lengthOrNil : Option (MapValue N) → Except Panic Nat
  | none => .ok 0
  | some m => m.length grow

def getOrNil (key : String) : Option (MapValue N) → Except Panic (Option (Item N))
  | none => .ok none
  | some m => m.get grow key

def hasOrNil (key : String) : Option (MapValue N) → Except Panic Bool
  | none => .ok false
  | some m => m.has grow key

def iterateOrNil (fn : String → Item N → σ → Except Panic (σ × Bool)) :
    Option (MapValue N) → σ → Except Panic (σ × Bool)
  | none, state => .ok (state, true)
  | some m, state => m.iterate grow fn state

/-! ## Two maps together -/

/-- A callback of `MapZip`, with whatever state it keeps. -/
abbrev Callback (N σ : Type) := String → Option (Item N) → Option (Item N) → σ → σ × Bool

inductive MapTraverseOrder where
  | unordered
  | lexicalKeyOrder
deriving DecidableEq, Repr

def unorderedMapZip (lhs rhs : Option (MapValue N)) (fn : Callback N σ) (state : σ) :
    Except Panic (σ × Bool) := do
  let lhsEmpty ← emptyOrNil grow lhs
  let bothEmpty ← if lhsEmpty then emptyOrNil grow rhs else pure false
  if bothEmpty then return (state, true)
  let (state, ok) ← iterateOrNil grow (fun key lhsValue state => do
    return fn key (some lhsValue) (← getOrNil grow key rhs) state) lhs state
  if ok then
    iterateOrNil grow (fun key rhsValue state => do
      if ← hasOrNil grow key lhs then return (state, true)
      else return fn key none (some rhsValue) state) rhs state
  else return (state, false)

def lexicalKeyOrderedMapZip (lhs rhs : Option (MapValue N)) (fn : Callback N σ) (state : σ) :
    Except Panic (σ × Bool) := do
  let lhsLength ← lengthOrNil grow lhs
  let rhsLength ← lengthOrNil grow rhs
  if lhsLength = 0 ∧ rhsLength = 0 then return (state, true)
  let (ordered, _) ← iterateOrNil grow (fun key _ ordered => .ok (ordered ++ [key], true)) lhs []
  let (ordered, _) ← iterateOrNil grow (fun key _ ordered => do
    if ← hasOrNil grow key lhs then return (ordered, true)
    else return (ordered ++ [key], true)) rhs ordered
  visitWhile (fun key state => do
    let litem ← getOrNil grow key lhs
    let ritem ← getOrNil grow key rhs
    return fn key litem ritem state) (ordered.insertionSort (· ≤ ·)) state

def defaultMapZip (lhs rhs : Option (MapValue N)) :
    MapTraverseOrder → Callback N σ → σ → Except Panic (σ × Bool)
  | .unordered => unorderedMapZip grow lhs rhs
  | .lexicalKeyOrder => lexicalKeyOrderedMapZip grow lhs rhs

/-- A step of the loop over the right map, which notes the keys it visits. -/
def zipRhsEntry (lhsElem : GoType) (lhs : List (String × GoValue)) (rhsElem : GoType)
    (fn : Callback N σ) (entry : String × GoValue) (seen : List String × σ) :
    Except Panic ((List String × σ) × Bool) := do
  let rhsVal ← mustReuse ⟨rhsElem, entry.2⟩
  let lhsVal ← match FiniteMap.get? lhs entry.1 with
    | none => pure none
    | some value => (mustReuse ⟨lhsElem, value⟩).map fun wrapped => some (.reflected wrapped)
  let result := fn entry.1 lhsVal (some (.reflected rhsVal)) seen.2
  return ((entry.1 :: seen.1, result.1), result.2)

/-- The zip of two Go maps: the entries of the right one first, then those of
the left one whose keys were not visited. -/
def unorderedReflectZip (lhsElem : GoType) (lhs : List (String × GoValue)) (rhsElem : GoType)
    (rhs : List (String × GoValue)) (fn : Callback N σ) (state : σ) :
    Except Panic (σ × Bool) := do
  if lhs.isEmpty && rhs.isEmpty then return (state, true)
  let (seen, ok) ← visitWhile (zipRhsEntry lhsElem lhs rhsElem fn) rhs ([], state)
  if ok then
    visitWhile (fun entry state => do
      if seen.1.contains entry.1 then return (state, true)
      else return fn entry.1 (some (.reflected (← mustReuse ⟨lhsElem, entry.2⟩))) none state)
      lhs seen.2
  else return (seen.2, false)

/-- The value of a field for the callback, unless it is omitted. -/
def fieldItem (entry : FieldInfo) (fieldVal : ReflectValue) : Except Panic (Option (Item N)) :=
  if entry.canOmit fieldVal then .ok none
  else (mustReuse fieldVal).map fun wrapped => some (.reflected wrapped)

/-- The zip of two structs of one type, always in lexical order. -/
def structZip (fields : GoFields) (lhs rhs : ReflectValue) (fn : Callback N σ) :
    σ → Except Panic (σ × Bool) :=
  visitWhile (fun entry state => do
    let lhsFieldVal ← getFrom entry.fieldPath lhs
    let rhsFieldVal ← getFrom entry.fieldPath rhs
    if entry.canOmit lhsFieldVal && entry.canOmit rhsFieldVal then return (state, true)
    let lhsVal ← fieldItem entry.toFieldInfo lhsFieldVal
    let rhsVal ← fieldItem entry.toFieldInfo rhsFieldVal
    return fn entry.jsonName lhsVal rhsVal state) (orderedStructFields grow fields)

/-- `ZipUsing` of each implementation. -/
def MapValue.zip (lhs : MapValue N) (rhs : Option (MapValue N)) (order : MapTraverseOrder)
    (fn : Callback N σ) (state : σ) : Except Panic (σ × Bool) :=
  match lhs, rhs, order with
  | .mapReflect lhsElem lhs _, some (.mapReflect rhsElem rhs _), .unordered =>
      unorderedReflectZip lhsElem lhs rhsElem rhs fn state
  | .structReflect name fields values, some (.structReflect name' fields' values'), order =>
      if GoType.struct name fields = .struct name' fields' then
        structZip grow fields ⟨.struct name fields, .struct values⟩
          ⟨.struct name' fields', .struct values'⟩ fn state
      else
        defaultMapZip grow (some (.structReflect name fields values))
          (some (.structReflect name' fields' values')) order fn state
  | lhs, rhs, order => defaultMapZip grow (some lhs) rhs order fn state

def mapZip (lhs rhs : Option (MapValue N)) (order : MapTraverseOrder) (fn : Callback N σ)
    (state : σ) : Except Panic (σ × Bool) :=
  match lhs, rhs with
  | some lhs, rhs => lhs.zip grow rhs order fn state
  -- the argument positions are swapped, and swapped back for the callback
  | none, some rhs => rhs.zip grow none order (fun key rhs lhs => fn key lhs rhs) state
  | none, none => .ok (state, true)

end StructuredMergeDiff.Reflect
