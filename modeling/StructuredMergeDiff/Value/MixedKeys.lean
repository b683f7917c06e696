import Mathlib.Data.List.Sort
import StructuredMergeDiff.Library.FiniteMap
import StructuredMergeDiff.Library.MeasuredRecursion
import StructuredMergeDiff.Value.Order

/-!
Contract: unstructured values whose maps may have keys that are no strings.

`NewValueInterface` accepts map[interface{}]interface{}, as YAML documents with
numeric or boolean keys are read into. `Length` and `Empty` of such a map count all
its entries; `Get`, `Iterate` and the zip see only those under strings.

Owns: equality and order of such values, and for which they are sound.
Does not own: values whose maps have only strings as keys (`Value.Order`).
-/

set_option autoImplicit false

namespace StructuredMergeDiff

open Library FiniteMap

/-- A key of a map[interface{}]interface{}; `K` are the keys that are no strings. -/
inductive Key (K : Type) where
  | string (s : String)
  | other (k : K)
deriving DecidableEq, Repr

/-- What `NewValueInterface` wraps. A map[string]interface{} is a map with only
strings as keys. Of several bindings of a key the first counts. -/
inductive Unstructured (N K : Type) where
  | null
  | bool (b : Bool)
  | number (n : N)
  | string (s : String)
  | list (items : List (Unstructured N K))
  | map (bindings : List (Key K × Unstructured N K))
deriving Repr

namespace Unstructured

variable {N K : Type}

mutual

def depth : Unstructured N K → Nat
  | .list items => depthItems items + 1
  | .map bindings => depthBindings bindings + 1
  | _ => 0

def depthItems : List (Unstructured N K) → Nat
  | [] => 0
  | item :: rest => max item.depth (depthItems rest)

def depthBindings : List (Key K × Unstructured N K) → Nat
  | [] => 0
  | binding :: rest => max binding.2.depth (depthBindings rest)

end

/-! ## Maps -/

section Maps

variable [DecidableEq K]

/-- `Length` -/
def length (bindings : List (Key K × Unstructured N K)) : Nat :=
  (firsts bindings).length

/-- `Get` -/
def get (bindings : List (Key K × Unstructured N K)) (key : String) : Option (Unstructured N K) :=
  get? bindings (.string key)

def stringEntry : Key K × Unstructured N K → Option (String × Unstructured N K)
  | (.string key, value) => some (key, value)
  | (.other _, _) => none

/-- What `Iterate` visits: keys that are no strings are passed over. -/
def iterated (bindings : List (Key K × Unstructured N K)) : List (String × Unstructured N K) :=
  (firsts bindings).filterMap stringEntry

/-- `EqualsUsing` of maps. -/
def mapEquals (equal : Unstructured N K → Unstructured N K → Bool)
    (left right : List (Key K × Unstructured N K)) : Bool :=
  if length left ≠ length right then false
  else if length left = 0 then true
  else
    (iterated right).all fun entry =>
      match get left entry.1 with
      | none => false
      | some value => equal value entry.2

/-- The keys that `lexicalKeyOrderedMapZip` collects and sorts. -/
def zipKeys (left right : List (Key K × Unstructured N K)) : List String :=
  ((iterated left).map Prod.fst ++
      ((iterated right).map Prod.fst).filter fun key => (get left key).isNone).insertionSort
    (· ≤ ·)

def mapZip (left right : List (Key K × Unstructured N K)) :
    List (String × Option (Unstructured N K) × Option (Unstructured N K)) :=
  (zipKeys left right).map fun key => (key, get left key, get right key)

/-- The callback of `MapCompareUsing` along the zipped entries. -/
def compareLoop {V : Type} (cmp : V → V → Ordering) (leftLength rightLength : Nat) :
    Nat → List (String × Option V × Option V) → Ordering
  | _, [] => .eq
  | index, (_, left, right) :: rest =>
      let c :=
        if index = leftLength then .lt
        else if index = rightLength then .gt
        else
          match left, right with
          | none, _ => .gt
          | _, none => .lt
          | some x, some y => cmp x y
      if c = .eq then compareLoop cmp leftLength rightLength (index + 1) rest else c

/-- `MapCompareUsing` -/
def mapCompare (cmp : Unstructured N K → Unstructured N K → Ordering)
    (left right : List (Key K × Unstructured N K)) : Ordering :=
  if length left = 0 ∧ length right = 0 then .eq
  else compareLoop cmp (length left) (length right) 0 (mapZip left right)

end Maps

/-! ## Values -/

def rank : Unstructured N K → Nat
  | .number _ => 0
  | .string _ => 1
  | .bool _ => 2
  | .list _ => 3
  | .map _ => 4
  | .null => 5

section Values

variable [Numeric N] [DecidableEq K]

/-- The case distinction of `EqualsUsing`, with the recursive call open. -/
def equalsBody (equal : Unstructured N K × Unstructured N K → Bool) :
    Unstructured N K × Unstructured N K → Bool
  | (.number x, .number y) => equalNumbers x y
  | (.string s, .string t) => s == t
  | (.bool b, .bool c) => b == c
  | (.list xs, .list ys) => xs.length == ys.length && (xs.zip ys).all equal
  | (.map xs, .map ys) => mapEquals (fun x y => equal (x, y)) xs ys
  | (.null, .null) => true
  | _ => false

/-- `Equals`. -/
def equals (left right : Unstructured N K) : Bool :=
  measured (fun pair => pair.1.depth) equalsBody (fun _ => true) (left, right)

/-- The case distinction of `CompareUsing`, with the recursive call open. -/
def compareBody (cmp : Unstructured N K × Unstructured N K → Ordering) :
    Unstructured N K × Unstructured N K → Ordering
  | (.number x, .number y) => compareNumbers x y
  | (.string s, .string t) => Ord.compare s t
  | (.bool b, .bool c) => Ord.compare b c
  | (.list xs, .list ys) => List.compareLex (fun x y => cmp (x, y)) xs ys
  | (.map xs, .map ys) => mapCompare (fun x y => cmp (x, y)) xs ys
  | (.null, .null) => .eq
  | (left, right) => Ord.compare left.rank right.rank

/-- `Compare`. -/
def compare (left right : Unstructured N K) : Ordering :=
  measured (fun pair => pair.1.depth) compareBody (fun _ => .eq) (left, right)

end Values

/-! ## String keys -/

mutual

/-- No map in the value has a key that is no string. -/
def stringKeyed : Unstructured N K → Bool
  | .list items => stringKeyedItems items
  | .map bindings => stringKeyedBindings bindings
  | _ => true

def stringKeyedItems : List (Unstructured N K) → Bool
  | [] => true
  | item :: rest => item.stringKeyed && stringKeyedItems rest

def stringKeyedBindings : List (Key K × Unstructured N K) → Bool
  | [] => true
  | (.string _, value) :: rest => value.stringKeyed && stringKeyedBindings rest
  | (.other _, _) :: _ => false

end

mutual

/-- The value without the entries under other keys. -/
def view : Unstructured N K → Value N
  | .null => .null
  | .bool b => .bool b
  | .number n => .number n
  | .string s => .string s
  | .list items => .list (viewItems items)
  | .map bindings => .map (viewBindings bindings)

def viewItems : List (Unstructured N K) → List (Value N)
  | [] => []
  | item :: rest => item.view :: viewItems rest

def viewBindings : List (Key K × Unstructured N K) → List (String × Value N)
  | [] => []
  | (.string key, value) :: rest => (key, value.view) :: viewBindings rest
  | (.other _, _) :: rest => viewBindings rest

end

mutual

private theorem stringKeyed_of_isEmpty [IsEmpty K] : (a : Unstructured N K) → a.stringKeyed = true
  | .null | .bool _ | .number _ | .string _ => rfl
  | .list items => stringKeyedItems_of_isEmpty items
  | .map bindings => stringKeyedBindings_of_isEmpty bindings

private theorem stringKeyedItems_of_isEmpty [IsEmpty K] :
    (items : List (Unstructured N K)) → stringKeyedItems items = true
  | [] => rfl
  | item :: rest => by
      rw [stringKeyedItems, stringKeyed_of_isEmpty item, stringKeyedItems_of_isEmpty rest]
      rfl

private theorem stringKeyedBindings_of_isEmpty [IsEmpty K] :
    (bindings : List (Key K × Unstructured N K)) → stringKeyedBindings bindings = true
  | [] => rfl
  | (.string _, value) :: rest => by
      rw [stringKeyedBindings, stringKeyed_of_isEmpty value, stringKeyedBindings_of_isEmpty rest]
      rfl
  | (.other k, _) :: _ => isEmptyElim k

end

/-! ## The recursion descends -/

theorem depth_le_depthItems {item : Unstructured N K} {items : List (Unstructured N K)}
    (member : item ∈ items) : item.depth ≤ depthItems items := by
  induction items with
  | nil => cases member
  | cons head tail ih =>
      rw [depthItems]
      rcases List.mem_cons.mp member with rfl | inTail
      · exact Nat.le_max_left _ _
      · exact le_trans (ih inTail) (Nat.le_max_right _ _)

theorem depth_le_depthBindings {binding : Key K × Unstructured N K}
    {bindings : List (Key K × Unstructured N K)} (member : binding ∈ bindings) :
    binding.2.depth ≤ depthBindings bindings := by
  induction bindings with
  | nil => cases member
  | cons head tail ih =>
      rw [depthBindings]
      rcases List.mem_cons.mp member with rfl | inTail
      · exact Nat.le_max_left _ _
      · exact le_trans (ih inTail) (Nat.le_max_right _ _)

theorem depth_lt_of_get [DecidableEq K] {bindings : List (Key K × Unstructured N K)} {key : String}
    {value : Unstructured N K} (found : get bindings key = some value) :
    value.depth < (Unstructured.map bindings).depth :=
  Nat.lt_succ_of_le (depth_le_depthBindings (mem_of_get? found))

theorem compareLex_map {V W : Type} {cmp : V → V → Ordering} {cmp' : W → W → Ordering} (f : V → W)
    {xs ys : List V} (each : ∀ x ∈ xs, ∀ y ∈ ys, cmp' (f x) (f y) = cmp x y) :
    List.compareLex cmp' (xs.map f) (ys.map f) = List.compareLex cmp xs ys := by
  induction xs generalizing ys with
  | nil => cases ys <;> rfl
  | cons x xs ih =>
      cases ys with
      | nil => rfl
      | cons y ys =>
          rw [List.map_cons, List.map_cons, List.compareLex_cons_cons, List.compareLex_cons_cons,
            each x (List.mem_cons_self ..) y (List.mem_cons_self ..),
            ih fun x inXs y inYs =>
              each x (List.mem_cons_of_mem _ inXs) y (List.mem_cons_of_mem _ inYs)]

/-- The loop on the images of the zipped values. -/
theorem compareLoop_map {V W : Type} {cmp : V → V → Ordering} {cmp' : W → W → Ordering} (f : V → W)
    {zipped : List (String × Option V × Option V)}
    (each : ∀ entry ∈ zipped, ∀ x y, entry.2.1 = some x → entry.2.2 = some y →
      cmp' (f x) (f y) = cmp x y) (leftLength rightLength index : Nat) :
    compareLoop cmp' leftLength rightLength index
        (zipped.map fun entry => (entry.1, entry.2.1.map f, entry.2.2.map f)) =
      compareLoop cmp leftLength rightLength index zipped := by
  induction zipped generalizing index with
  | nil => rfl
  | cons entry rest ih =>
      obtain ⟨key, left, right⟩ := entry
      have here := each _ (List.mem_cons_self ..)
      have later := ih fun other member => each other (List.mem_cons_of_mem _ member)
      simp only [List.map_cons, compareLoop, later]
      cases left with
      | none => rfl
      | some x =>
          cases right with
          | none => rfl
          | some y => simp only [Option.map_some, here x y rfl rfl]

section Unfolding

variable [Numeric N] [DecidableEq K]

private theorem equalsBody_descends :
    Descends (fun pair : Unstructured N K × Unstructured N K => pair.1.depth) equalsBody := by
  intro first second ⟨left, right⟩ agree
  cases left <;> cases right <;> simp only [equalsBody]
  case list.list xs ys =>
    congr 1
    rw [Bool.eq_iff_iff, List.all_eq_true, List.all_eq_true]
    refine forall₂_congr fun pair member => ?_
    rw [agree pair (Nat.lt_succ_of_le (depth_le_depthItems (List.of_mem_zip member).1))]
  case map.map xs ys =>
    unfold mapEquals
    congr 3
    funext entry
    cases found : get xs entry.1 with
    | none => rfl
    | some value => exact agree (value, entry.2) (depth_lt_of_get found)

private theorem compareBody_descends :
    Descends (fun pair : Unstructured N K × Unstructured N K => pair.1.depth) compareBody := by
  intro first second ⟨left, right⟩ agree
  cases left <;> cases right <;> simp only [compareBody]
  case list.list xs ys =>
    have items : List.compareLex (fun x y => first (x, y)) (xs.map id) (ys.map id) =
        List.compareLex (fun x y => second (x, y)) xs ys :=
      compareLex_map id fun x member y _ =>
        agree (x, y) (Nat.lt_succ_of_le (depth_le_depthItems member))
    rwa [List.map_id, List.map_id] at items
  case map.map xs ys =>
    have smaller : ∀ entry ∈ mapZip xs ys, ∀ x y, entry.2.1 = some x → entry.2.2 = some y →
        first (id x, id y) = second (x, y) := by
      intro entry member x y isX _
      obtain ⟨key, _, rfl⟩ := List.mem_map.mp member
      exact agree (x, y) (depth_lt_of_get isX)
    have entries : compareLoop (fun x y => first (x, y)) (length xs) (length ys) 0
        ((mapZip xs ys).map fun entry => (entry.1, entry.2.1.map id, entry.2.2.map id)) =
          compareLoop (fun x y => second (x, y)) (length xs) (length ys) 0 (mapZip xs ys) :=
      compareLoop_map id smaller _ _ _
    simp only [Option.map_id, id_eq, List.map_id'] at entries
    rw [mapCompare, mapCompare, entries]

theorem equals_eq_equalsBody (left right : Unstructured N K) :
    equals left right = equalsBody (fun pair => equals pair.1 pair.2) (left, right) :=
  measured_eq equalsBody_descends _ _

theorem compare_eq_compareBody (left right : Unstructured N K) :
    compare left right = compareBody (fun pair => compare pair.1 pair.2) (left, right) :=
  measured_eq compareBody_descends _ _

end Unfolding

/-! ## What is read of a map -/

section Reads

variable [DecidableEq K] {bindings : List (Key K × Unstructured N K)}

theorem mem_iterated {key : String} {value : Unstructured N K} :
    (key, value) ∈ iterated bindings ↔ get bindings key = some value := by
  have distinct := firsts_distinct bindings
  rw [get, ← get?_firsts, get?_eq_some_iff distinct, iterated,
    List.mem_filterMap]
  constructor
  · intro ⟨⟨other, _⟩, member, isEntry⟩
    cases other with
    | string _ =>
        cases isEntry
        exact member
    | other _ => cases isEntry
  · intro member
    exact ⟨_, member, rfl⟩

theorem iterated_distinct (bindings : List (Key K × Unstructured N K)) :
    Distinct (iterated bindings) := by
  have distinct := firsts_distinct bindings
  rw [Distinct, List.Nodup, List.pairwise_map] at distinct ⊢
  refine distinct.filterMap stringEntry fun ⟨first, _⟩ ⟨second, _⟩ differ => ?_
  intro _ isFirst _ isSecond
  cases first <;> cases second <;> cases isFirst <;> cases isSecond
  exact fun same => differ (congrArg Key.string same)

theorem get?_iterated (key : String) :
    get? (iterated bindings) key = get bindings key := by
  refine Option.ext fun value => ?_
  rw [get?_eq_some_iff (iterated_distinct bindings), mem_iterated]

/-- The view has the string entries. -/
theorem get?_viewBindings (bindings : List (Key K × Unstructured N K)) (key : String) :
    get? (viewBindings bindings) key = (get bindings key).map view := by
  induction bindings with
  | nil => rfl
  | cons binding rest ih =>
      obtain ⟨other, value⟩ := binding
      cases other with
      | other k => exact ih
      | string name =>
          rw [viewBindings, get?_cons, ih, get, get, get?_cons]
          by_cases same : name = key
          · rw [if_pos same, if_pos (congrArg Key.string same)]
            rfl
          · rw [if_neg same, if_neg fun equal => same (Key.string.inj equal)]

section

variable (only : stringKeyedBindings bindings = true)

include only

omit [DecidableEq K] in
theorem string_of_mem {binding : Key K × Unstructured N K} (member : binding ∈ bindings) :
    (∃ key, binding.1 = .string key) ∧ binding.2.stringKeyed = true := by
  induction bindings with
  | nil => cases member
  | cons head rest ih =>
      obtain ⟨key, value⟩ := head
      cases key with
      | other k => cases only
      | string key =>
          rw [stringKeyedBindings, Bool.and_eq_true] at only
          rcases List.mem_cons.mp member with rfl | later
          · exact ⟨⟨key, rfl⟩, only.1⟩
          · exact ih only.2 later

/-- With only string keys, `Length` counts what `Iterate` visits. -/
theorem length_eq_iterated :
    length bindings = (iterated bindings).length := by
  refine (List.filterMap_length_eq_length.mpr fun ⟨key, value⟩ member => ?_).symm
  have found := (get?_eq_some_iff (firsts_distinct bindings)).mpr member
  rw [get?_firsts] at found
  obtain ⟨⟨name, isString⟩, _⟩ := string_of_mem only (mem_of_get? found)
  cases isString
  rfl

theorem stringKeyed_of_get {key : String} {value : Unstructured N K}
    (found : get bindings key = some value) :
    value.stringKeyed = true :=
  (string_of_mem only (mem_of_get? found)).2

theorem get?_other (k : K) :
    get? bindings (.other k) = none := by
  refine get?_eq_none_iff.mpr fun value member => ?_
  obtain ⟨⟨name, isString⟩, _⟩ := string_of_mem only member
  cases isString

end

/-- The keys visited are those of the view. -/
theorem keys_perm_view (bindings : List (Key K × Unstructured N K)) :
    ((iterated bindings).map Prod.fst).Perm
      ((Value.normalize (viewBindings bindings)).map Prod.fst) := by
  refine (List.perm_ext_iff_of_nodup (iterated_distinct bindings)
    (Value.normalize_distinct _)).mpr fun key => ?_
  rw [← isSome_get?_iff, ← isSome_get?_iff, get?_iterated,
    Value.get?_normalize, get?_viewBindings, Option.isSome_map]

end Reads

/-! ## Values with only string keys compare as their views -/

section StringKeyed

variable [DecidableEq K] {left right : List (Key K × Unstructured N K)}

theorem mapEquals_iff_agree (onlyLeft : stringKeyedBindings left = true)
    (onlyRight : stringKeyedBindings right = true)
    {equal : Unstructured N K → Unstructured N K → Bool} :
    mapEquals equal left right = true ↔
      Agree (fun x y => equal x y = true) (iterated left) (iterated right) := by
  rw [agree_iff_found (iterated_distinct left) (iterated_distinct right), mapEquals,
    length_eq_iterated onlyLeft, length_eq_iterated onlyRight]
  by_cases sameLength : (iterated left).length = (iterated right).length
  · rw [if_neg (not_not_intro sameLength), and_iff_right sameLength]
    by_cases isEmpty : (iterated left).length = 0
    · have rightEmpty := List.length_eq_zero_iff.mp (sameLength.symm.trans isEmpty)
      rw [if_pos isEmpty, rightEmpty]
      simp
    · rw [if_neg isEmpty, List.all_eq_true]
      refine forall₂_congr fun entry _ => ?_
      rw [get?_iterated]
      cases get left entry.1 <;> simp
  · rw [if_pos sameLength]
    exact iff_of_false Bool.false_ne_true fun both => sameLength both.1

theorem zipKeys_view (left right : List (Key K × Unstructured N K)) :
    zipKeys left right = Value.zipKeys (Value.normalize (viewBindings left))
      (Value.normalize (viewBindings right)) := by
  have antisymmetric (first second : String) (_ : first ∈ zipKeys left right)
      (_ : second ∈ Value.zipKeys (Value.normalize (viewBindings left))
        (Value.normalize (viewBindings right))) (le : first ≤ second) (ge : second ≤ first) :
      first = second := le_antisymm le ge
  refine List.Perm.eq_of_pairwise antisymmetric (List.pairwise_insertionSort _ _)
    (List.pairwise_insertionSort _ _) ?_
  have absent (key : String) : (get left key).isNone =
      (lookupBy Prod.fst key (Value.normalize (viewBindings left))).isNone := by
    have same := get?_viewBindings left key
    rw [← Value.get?_normalize, Value.get?_eq_lookupBy] at same
    rw [← Option.isNone_map, ← same, Option.isNone_map]
  simp only [zipKeys, absent]
  refine (List.perm_insertionSort _ _).trans (List.Perm.trans ?_ (List.perm_insertionSort _ _).symm)
  exact (keys_perm_view left).append ((keys_perm_view right).filter _)

theorem mapZip_view (left right : List (Key K × Unstructured N K)) :
    Value.mapZip (Value.normalize (viewBindings left)) (Value.normalize (viewBindings right)) =
      (mapZip left right).map fun entry => (entry.1, entry.2.1.map view, entry.2.2.map view) := by
  have looked (bindings : List (Key K × Unstructured N K)) (key : String) :
      (lookupBy Prod.fst key (Value.normalize (viewBindings bindings))).map Prod.snd =
        (get bindings key).map view := by
    rw [← Value.get?_eq_lookupBy, Value.get?_normalize, get?_viewBindings]
  rw [Value.mapZip, mapZip, ← zipKeys_view, List.map_map]
  refine List.map_congr_left fun key _ => ?_
  rw [looked, looked]
  rfl

omit [DecidableEq K] in
private theorem mapCompareLoop_eq_compareLoop (cmp : Value N → Value N → Ordering)
    (leftLength rightLength : Nat) (zipped : List (String × Option (Value N) × Option (Value N)))
    (index : Nat) :
    Value.mapCompareLoop cmp leftLength rightLength index zipped =
      compareLoop cmp leftLength rightLength index zipped := by
  induction zipped generalizing index with
  | nil => rfl
  | cons entry rest ih =>
      obtain ⟨key, x, y⟩ := entry
      simp only [Value.mapCompareLoop, compareLoop, ih]
      cases x <;> cases y <;> rfl

theorem mapCompare_view (onlyLeft : stringKeyedBindings left = true)
    (onlyRight : stringKeyedBindings right = true)
    {cmp : Unstructured N K → Unstructured N K → Ordering}
    {cmp' : Value N → Value N → Ordering}
    (each : ∀ key x y, get left key = some x → get right key = some y →
      cmp' x.view y.view = cmp x y) :
    mapCompare cmp left right = Value.mapCompare cmp' (Value.normalize (viewBindings left))
      (Value.normalize (viewBindings right)) := by
  have counted {bindings : List (Key K × Unstructured N K)}
      (only : stringKeyedBindings bindings = true) :
      (Value.normalize (viewBindings bindings)).length = length bindings := by
    have keys := (keys_perm_view bindings).length_eq
    rw [List.length_map, List.length_map] at keys
    rw [length_eq_iterated only, keys]
  rw [mapCompare, Value.mapCompare, counted onlyLeft, counted onlyRight, mapZip_view,
    mapCompareLoop_eq_compareLoop, compareLoop_map]
  intro entry member x y isX isY
  obtain ⟨key, _, rfl⟩ := List.mem_map.mp member
  exact each key x y isX isY

omit [DecidableEq K] in
theorem viewItems_eq_map (items : List (Unstructured N K)) : viewItems items = items.map view := by
  induction items with
  | nil => rfl
  | cons item rest ih => rw [viewItems, ih, List.map_cons]

omit [DecidableEq K] in
theorem stringKeyed_of_mem {items : List (Unstructured N K)} (only : stringKeyedItems items = true)
    {item : Unstructured N K} (member : item ∈ items) : item.stringKeyed = true := by
  induction items with
  | nil => cases member
  | cons head rest ih =>
      rw [stringKeyedItems, Bool.and_eq_true] at only
      rcases List.mem_cons.mp member with rfl | later
      · exact only.1
      · exact ih only.2 later

variable [Numeric N]

theorem equals_view (a b : Unstructured N K) :
    a.stringKeyed = true → b.stringKeyed = true → equals a b = (a.view == b.view) := by
  cases a <;> cases b <;> intro onlyA onlyB <;> rw [equals_eq_equalsBody]
  case list.list xs ys =>
    have items : ∀ pair ∈ xs.zip ys, equals pair.1 pair.2 = (pair.1.view == pair.2.view) := by
      intro pair member
      have inside := List.of_mem_zip member
      exact equals_view pair.1 pair.2 (stringKeyed_of_mem onlyA inside.1)
        (stringKeyed_of_mem onlyB inside.2)
    rw [Bool.eq_iff_iff, view, view, Value.beq_list, viewItems_eq_map, viewItems_eq_map,
      List.forall₂_map_left_iff, List.forall₂_map_right_iff, List.forall₂_iff_zip, equalsBody,
      Bool.and_eq_true, beq_iff_eq, List.all_eq_true]
    refine and_congr_right fun _ => ?_
    constructor
    · intro each x y member
      rw [← items _ member]
      exact each _ member
    · intro each pair member
      rw [items pair member]
      exact each member
  case map.map xs ys =>
    rw [Bool.eq_iff_iff, view, view, Value.beq_map_iff_agree, equalsBody,
      mapEquals_iff_agree onlyA onlyB]
    refine forall_congr' fun key => ?_
    rw [get?_iterated, get?_iterated, get?_viewBindings, get?_viewBindings]
    cases isX : get xs key <;> cases isY : get ys key
    case some.some x y =>
      rw [Option.map_some, Option.map_some, Option.rel_some_some, Option.rel_some_some,
        equals_view x y (stringKeyed_of_get onlyA isX) (stringKeyed_of_get onlyB isY)]
    all_goals simp
  all_goals
    rw [Value.beq_eq_equalsBody]
    rfl
termination_by a.depth
decreasing_by
  · exact Nat.lt_succ_of_le (depth_le_depthItems inside.1)
  · exact depth_lt_of_get isX

theorem compare_view (a b : Unstructured N K) :
    a.stringKeyed = true → b.stringKeyed = true → compare a b = Ord.compare a.view b.view := by
  cases a <;> cases b <;> intro onlyA onlyB <;>
    rw [compare_eq_compareBody, Value.compare_eq_compareBody]
  case list.list xs ys =>
    rw [view, view, viewItems_eq_map, viewItems_eq_map, compareBody, Value.compareBody]
    refine (compareLex_map view fun x inXs y inYs => ?_).symm
    exact (compare_view x y (stringKeyed_of_mem onlyA inXs) (stringKeyed_of_mem onlyB inYs)).symm
  case map.map xs ys =>
    rw [view, view, compareBody, Value.compareBody]
    refine mapCompare_view onlyA onlyB fun key x y isX isY => ?_
    exact (compare_view x y (stringKeyed_of_get onlyA isX) (stringKeyed_of_get onlyB isY)).symm
  all_goals rfl
termination_by a.depth
decreasing_by
  · exact Nat.lt_succ_of_le (depth_le_depthItems inXs)
  · exact depth_lt_of_get isX

end StringKeyed

/-! ## Soundness -/

/-- What equality of two values should satisfy: it is symmetric, it is the equality
of the order, and equal maps have equal values under the same keys. -/
structure Sound [Numeric N] [DecidableEq K] (a b : Unstructured N K) : Prop where
  symmetric : equals a b = equals b a
  equal_iff : equals a b = true ↔ compare a b = .eq
  entries : ∀ xs ys, a = .map xs → b = .map ys → equals a b = true →
    FiniteMap.Agree (fun x y => equals x y = true) xs ys

variable [Numeric N] [DecidableEq K]

/-- Values with only string keys are compared soundly. -/
theorem sound_of_stringKeyed {a b : Unstructured N K} (onlyA : a.stringKeyed = true)
    (onlyB : b.stringKeyed = true) : Sound a b where
  symmetric := by
    rw [equals_view a b onlyA onlyB, equals_view b a onlyB onlyA]
    exact Value.beq_comm _ _
  equal_iff := by
    rw [equals_view a b onlyA onlyB, compare_view a b onlyA onlyB, Std.LawfulBEqOrd.compare_eq_iff_beq]
  entries := by
    intro xs ys isA isB same key
    subst isA isB
    cases key with
    | other k =>
        rw [get?_other onlyA, get?_other onlyB]
        exact .none
    | string name =>
        rw [equals_eq_equalsBody, equalsBody, mapEquals_iff_agree onlyA onlyB] at same
        have here := same name
        rwa [get?_iterated, get?_iterated] at here

/-- One other key is enough to make equality asymmetric. -/
theorem not_sound_of_other (k : K) :
    ¬ Sound (.map [(.other k, .null), (.string "k", .null)] : Unstructured N K)
      (.map [(.string "k", .null), (.string "l", .null)]) := by
  intro sound
  have found : mapEquals equals ([(.string "k", .null), (.string "l", .null)] :
      List (Key K × Unstructured N K)) [(.other k, .null), (.string "k", .null)] = true := rfl
  have missed : mapEquals equals ([(.other k, .null), (.string "k", .null)] :
      List (Key K × Unstructured N K)) [(.string "k", .null), (.string "l", .null)] = false := rfl
  have symmetric := sound.symmetric
  rw [equals_eq_equalsBody, equals_eq_equalsBody] at symmetric
  exact Bool.false_ne_true (missed.symm.trans (symmetric.trans found))

end Unstructured

end StructuredMergeDiff
