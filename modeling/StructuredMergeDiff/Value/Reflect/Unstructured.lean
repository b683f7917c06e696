import StructuredMergeDiff.Library.MeasuredRecursion
import StructuredMergeDiff.Library.Pairing
import StructuredMergeDiff.Value.Reflect.MapView

/-!
Contract: the unstructured form of a Go value.

Byte slices become strings; how they are encoded is a parameter. The numbers are
those of `Value.Number`: every integer kind is read as an `int64`.

Owns: `unstructured` and its unfolding equation.
-/

namespace StructuredMergeDiff.Reflect

open Library

/-- `int64` of a `uint64`. -/
def asInt (n : Nat) : Int :=
  if n < 2 ^ 63 then n else n - 2 ^ 64

/-- The bytes of a slice of `uint8`. -/
def bytes (items : List GoValue) : List Nat :=
  items.map fun item =>
    match item with
    | .uint n => n
    | _ => 0

variable (grow : Nat → Nat) (encode : List Nat → String)

/-- A child is wrapped before it is converted. -/
def convertChild (recurse : ReflectValue → Except Panic (Value Number)) (child : ReflectValue) :
    Except Panic (Value Number) := do
  recurse (← mustReuse child)

/-- The entry that a field adds to the map of a struct. -/
def convertField (recurse : ReflectValue → Except Panic (Value Number)) (jsonName : String)
    (fieldVal : ReflectValue) (result : List (String × Value Number)) :
    Except Panic (List (String × Value Number) × Bool) := do
  return (result ++ [(jsonName, ← convertChild recurse fieldVal)], true)

/-- The case distinction of `Unstructured` on a wrapped value, with the recursive
call open. -/
def unstructuredBody (recurse : ReflectValue → Except Panic (Value Number)) :
    ReflectValue → Except Panic (Value Number)
  | ⟨.struct name fields, value⟩ => do
      let (result, _) ← eachStructField grow fields ⟨.struct name fields, value⟩
        (convertField recurse) []
      return .map result
  | ⟨.map elem, .map entries⟩ => do
      return .map (← entries.mapM fun entry => do
        return (entry.1, ← convertChild recurse ⟨elem, entry.2⟩))
  | ⟨.slice (.uint .bits8), .slice items⟩ => .ok (.string (encode (bytes items)))
  | ⟨.slice elem, .slice items⟩ => do
      return .list (← items.mapM fun item => convertChild recurse ⟨elem, item⟩)
  | ⟨.uint .bits64, _⟩ => .error .unsupportedType
  | ⟨.uint _, .uint n⟩ => .ok (.number (.int (asInt n)))
  | ⟨.int _, .int n⟩ => .ok (.number (.int n))
  | ⟨.float32, .float q⟩ | ⟨.float64, .float q⟩ => .ok (.number (.float q))
  | ⟨.string, .string s⟩ => .ok (.string s)
  | ⟨.bool, .bool b⟩ => .ok (.bool b)
  | ⟨_, .nil⟩ => .ok .null
  | _ => .error .unsupportedType

/-- `Unstructured` of a wrapped value. -/
def unstructured : ReflectValue → Except Panic (Value Number) :=
  measured (fun r => r.value.depth) (unstructuredBody grow encode) fun _ => .ok .null

theorem depth_getFrom_lt {path : List Nat} (some : path ≠ []) {structVal fieldVal : ReflectValue}
    (looked : getFrom path structVal = .ok fieldVal) :
    fieldVal.value.depth < structVal.value.depth := by
  induction path generalizing structVal with
  | nil => exact absurd rfl some
  | cons index path ih =>
      rw [getFrom_cons] at looked
      cases found : fieldByIndex index (dereference structVal) with
      | error failure => simp [found, Except.bind] at looked
      | ok field =>
          have step := Nat.lt_of_lt_of_le (depth_fieldByIndex_lt found)
            (depth_dereference_le structVal)
          simp only [found, Except.bind] at looked
          by_cases last : path = []
          · subst last
            cases looked
            exact step
          · exact Nat.lt_trans (ih last looked) step

variable {grow encode}

private theorem convertChild_congr {first second : ReflectValue → Except Panic (Value Number)}
    {r child : ReflectValue} (smaller : child.value.depth < r.value.depth)
    (agree : ∀ b : ReflectValue, b.value.depth < r.value.depth → first b = second b) :
    convertChild first child = convertChild second child := by
  unfold convertChild
  cases wraps : mustReuse child with
  | error failure => rfl
  | ok wrapped =>
      have same := mustReuse_eq wraps
      subst same
      exact agree _ (Nat.lt_of_le_of_lt (depth_dereference_le child) smaller)

private theorem unstructuredBody_descends (larger : ∀ capacity, capacity < grow capacity) :
    Descends (fun r : ReflectValue => r.value.depth) (unstructuredBody grow encode) := by
  intro first second r agree
  unfold unstructuredBody
  split
  · rename_i name fields value
    have loops : eachStructField grow fields ⟨.struct name fields, value⟩ (convertField first) [] =
        eachStructField grow fields ⟨.struct name fields, value⟩ (convertField second) [] := by
      refine visitWhile_congr (fun entry member result => ?_) _
      cases looked : getFrom entry.fieldPath ⟨.struct name fields, value⟩ with
      | error failure => rfl
      | ok fieldVal =>
          have listed := FiniteMap.mem_of_get? (mem_orderedStructFields.mp member)
          have smaller := depth_getFrom_lt (path_ne_nil larger listed) looked
          simp only [bind, Except.bind, convertField, convertChild_congr smaller agree]
    rw [loops]
  · rename_i elem entries
    have pass : (entries.mapM fun entry => do
        return (entry.1, ← convertChild first ⟨elem, entry.2⟩)) =
        entries.mapM fun entry => do
          return (entry.1, ← convertChild second ⟨elem, entry.2⟩) := by
      refine mapM_congr fun entry member => ?_
      have smaller : entry.2.depth < (GoValue.map entries).depth :=
        Nat.lt_succ_of_le (depth_le_depthEntries member)
      rw [convertChild_congr smaller agree]
    rw [pass]
  · rfl
  · rename_i elem items _
    have pass : (items.mapM fun item => convertChild first ⟨elem, item⟩) =
        items.mapM fun item => convertChild second ⟨elem, item⟩ := by
      refine mapM_congr fun item member => ?_
      have smaller : item.depth < (GoValue.slice items).depth :=
        Nat.lt_succ_of_le (depth_le_depthItems member)
      exact convertChild_congr smaller agree
    rw [pass]
  all_goals rfl

theorem unstructured_eq (larger : ∀ capacity, capacity < grow capacity) (r : ReflectValue) :
    unstructured grow encode r = unstructuredBody grow encode (unstructured grow encode) r :=
  measured_eq (unstructuredBody_descends larger) _ r

end StructuredMergeDiff.Reflect
