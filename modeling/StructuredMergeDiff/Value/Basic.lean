import Mathlib.Data.List.Perm.Subperm
import Mathlib.Data.List.Sort
import Mathlib.Data.String.Basic
import StructuredMergeDiff.Library.SortedSlice
import StructuredMergeDiff.Value.Number

/-!
Contract: unstructured values.

A value is null, a boolean, a number, a string, a list, or a map from strings.
Maps are Go maps: one value per key and no order. They are represented by
association lists in which the first binding of a key counts, and read through
`entries`, which lists each key once in lexical order. Go ranges over them in
a random order; where a walk only collects what it finds, lexical order stands
for any.

Owns: `Value`, its depth, the reading of maps, and the `IsX`/`AsX` accessors
the walkers use.
Does not own: comparison (`Value.Order`).
-/

namespace StructuredMergeDiff

open Library

inductive Value (N : Type) where
  | null
  | bool (b : Bool)
  | number (n : N)
  | string (s : String)
  | list (items : List (Value N))
  | map (bindings : List (String × Value N))
deriving Repr

namespace Value

variable {N : Type} {bindings : List (String × Value N)}

instance : Inhabited (Value N) := ⟨.null⟩

/-! ## Depth -/

mutual

/-- Nesting depth: scalars and null have depth zero. -/
def depth : Value N → Nat
  | .list items => depthItems items + 1
  | .map bindings => depthBindings bindings + 1
  | _ => 0

def depthItems : List (Value N) → Nat
  | [] => 0
  | item :: rest => max item.depth (depthItems rest)

def depthBindings : List (String × Value N) → Nat
  | [] => 0
  | binding :: rest => max binding.2.depth (depthBindings rest)

end

theorem depth_le_depthItems {item : Value N} {items : List (Value N)} (member : item ∈ items) :
    item.depth ≤ depthItems items := by
  induction items with
  | nil => cases member
  | cons head tail ih =>
      simp only [depthItems]
      rcases List.mem_cons.mp member with rfl | inTail
      · exact Nat.le_max_left _ _
      · exact le_trans (ih inTail) (Nat.le_max_right _ _)

theorem depth_le_depthBindings {binding : String × Value N} (member : binding ∈ bindings)
    : binding.2.depth ≤ depthBindings bindings := by
  induction bindings with
  | nil => cases member
  | cons head tail ih =>
      simp only [depthBindings]
      rcases List.mem_cons.mp member with rfl | inTail
      · exact Nat.le_max_left _ _
      · exact le_trans (ih inTail) (Nat.le_max_right _ _)

/-! ## Maps -/

/-- The bindings in lexical order of their keys, each key with its first binding. -/
def normalize (bindings : List (String × Value N)) : List (String × Value N) :=
  bindings.foldr (fun binding rest => insertBy Prod.fst ("", .null) (fun _ => binding) binding rest)
    []

theorem normalize_sorted (bindings : List (String × Value N)) :
    SortedBy Prod.fst (normalize bindings) := by
  induction bindings with
  | nil => exact List.Pairwise.nil
  | cons head tail ih =>
      exact insertBy_sorted ih _ _ _ (fun _ same => BEq.symm same)

theorem lookupBy_normalize (bindings : List (String × Value N)) (key : String) :
    lookupBy Prod.fst key (normalize bindings) = lookupBy Prod.fst key bindings := by
  induction bindings with
  | nil => rfl
  | cons head tail ih =>
      have keeps : ∀ other : String × Value N, (other.1 == head.1) = true →
          (head.1 == other.1) = true := fun _ same => BEq.symm same
      rw [lookupBy_cons, ← ih]
      refine (lookupBy_insertBy (normalize_sorted tail) _ _ _ keeps key).trans ?_
      cases lookupBy Prod.fst key (normalize tail) <;> rfl

theorem mem_of_mem_normalize {binding : String × Value N} (member : binding ∈ normalize bindings)
    : binding ∈ bindings := by
  have sameKey : (binding.1 == binding.1) = true := by simp
  have found := lookupBy_of_mem (normalize_sorted bindings) member sameKey
  rw [lookupBy_normalize] at found
  exact mem_of_lookupBy found

theorem eq_nil_of_normalize (none : normalize bindings = []) :
    bindings = [] := by
  cases bindings with
  | nil => rfl
  | cons head tail =>
      have found := lookupBy_normalize (head :: tail) head.1
      rw [none, lookupBy_cons, if_pos (by simp)] at found
      cases found

theorem normalize_eq_self (sorted : SortedBy Prod.fst bindings)
    : normalize bindings = bindings := by
  induction bindings with
  | nil => rfl
  | cons head tail ih =>
      have sortedTail := List.Pairwise.of_cons sorted
      have step : normalize (head :: tail) =
          insertBy Prod.fst ("", .null) (fun _ => head) head (normalize tail) := rfl
      rw [step, ih sortedTail]
      exact insertBy_eq_cons _ _ (fun other member => List.rel_of_pairwise_cons sorted member)

/-! ## Two maps together -/

/-- The keys of either map in lexical order. -/
def zipKeys (left right : List (String × Value N)) : List String :=
  (left.map Prod.fst ++
      (right.map Prod.fst).filter fun key => (lookupBy Prod.fst key left).isNone).insertionSort
    (· ≤ ·)

/-- `MapZip`: each key of either map once, with its value in both. -/
def mapZip (left right : List (String × Value N)) :
    List (String × Option (Value N) × Option (Value N)) :=
  (zipKeys left right).map fun key =>
    (key, (lookupBy Prod.fst key left).map Prod.snd, (lookupBy Prod.fst key right).map Prod.snd)

section Zip

variable {left right : List (String × Value N)} {entry : String × Value N}

theorem mem_zipKeys {key : String} :
    key ∈ zipKeys left right ↔ key ∈ left.map Prod.fst ∨ key ∈ right.map Prod.fst := by
  unfold zipKeys
  rw [List.mem_insertionSort, List.mem_append, List.mem_filter]
  constructor
  · rintro (inLeft | ⟨inRight, -⟩)
    · exact Or.inl inLeft
    · exact Or.inr inRight
  · intro member
    by_cases inLeft : key ∈ left.map Prod.fst
    · exact Or.inl inLeft
    · refine Or.inr ⟨member.resolve_left inLeft, ?_⟩
      rw [Option.isNone_iff_eq_none, lookupBy_eq_none]
      intro entry inEntries
      by_contra same
      exact inLeft (List.mem_map.mpr ⟨entry, inEntries, by simpa using same⟩)

theorem keys_increasing (sorted : SortedBy Prod.fst left) :
    (left.map Prod.fst).Pairwise (· < ·) := by
  rw [List.pairwise_map]
  exact List.Pairwise.imp (fun lt => compare_lt_iff_lt.mp lt) sorted

section

variable (sortedLeft : SortedBy Prod.fst left) (sortedRight : SortedBy Prod.fst right)

include sortedLeft sortedRight

theorem zipKeys_sorted : (zipKeys left right).Pairwise (· < ·) := by
  have ordered : (zipKeys left right).Pairwise (· ≤ ·) := List.pairwise_insertionSort _ _
  have distinct : (zipKeys left right).Nodup := by
    unfold zipKeys
    rw [(List.perm_insertionSort _ _).nodup_iff, List.nodup_append]
    refine ⟨(keys_increasing sortedLeft).imp ne_of_lt,
      List.Nodup.filter _ ((keys_increasing sortedRight).imp ne_of_lt), ?_⟩
    rintro key inLeft other inRight rfl
    obtain ⟨entry, member, rfl⟩ := List.mem_map.mp inLeft
    have missing := (List.mem_filter.mp inRight).2
    rw [lookupBy_of_mem sortedLeft member (by simp)] at missing
    simp at missing
  exact (ordered.and distinct).imp fun both => lt_of_le_of_ne both.1 both.2

private theorem zipKeys_eq {keys : List String} (increasing : keys.Pairwise (· < ·))
    (same : ∀ key, key ∈ keys ↔ key ∈ left.map Prod.fst ∨ key ∈ right.map Prod.fst) :
    zipKeys left right = keys := by
  have zipSorted := zipKeys_sorted sortedLeft sortedRight
  refine List.Perm.eq_of_pairwise ?_ zipSorted increasing ?_
  · intro first second _ _ lt gt
    exact absurd (lt_trans lt gt) (lt_irrefl _)
  · rw [List.perm_ext_iff_of_nodup (zipSorted.imp ne_of_lt) (increasing.imp ne_of_lt)]
    intro key
    rw [mem_zipKeys, same]

private theorem mapZip_eq_cons (key : String) {restLeft restRight : List (String × Value N)}
    (sortedRestLeft : SortedBy Prod.fst restLeft) (sortedRestRight : SortedBy Prod.fst restRight)
    (keys : ∀ other, other ∈ left.map Prod.fst ∨ other ∈ right.map Prod.fst ↔
      other = key ∨ other ∈ restLeft.map Prod.fst ∨ other ∈ restRight.map Prod.fst)
    (least : ∀ other, other ∈ restLeft.map Prod.fst ∨ other ∈ restRight.map Prod.fst → key < other)
    (restOf : ∀ other, key < other →
      lookupBy Prod.fst other left = lookupBy Prod.fst other restLeft ∧
        lookupBy Prod.fst other right = lookupBy Prod.fst other restRight) :
    mapZip left right =
      (key, (lookupBy Prod.fst key left).map Prod.snd, (lookupBy Prod.fst key right).map Prod.snd) ::
        mapZip restLeft restRight := by
  have zipped : zipKeys left right = key :: zipKeys restLeft restRight := by
    apply zipKeys_eq sortedLeft sortedRight
    · refine List.pairwise_cons.mpr ⟨fun other member => ?_, zipKeys_sorted sortedRestLeft
        sortedRestRight⟩
      exact least other (mem_zipKeys.mp member)
    · intro other
      rw [List.mem_cons, mem_zipKeys, keys]
  unfold mapZip
  rw [zipped, List.map_cons]
  congr 1
  refine List.map_congr_left fun other member => ?_
  have above := restOf other (least other (mem_zipKeys.mp member))
  rw [above.1, above.2]

end

private theorem lookupBy_cons_of_lt {key : String} (lt : entry.1 < key) :
    lookupBy Prod.fst key (entry :: left) = lookupBy Prod.fst key left := by
  rw [lookupBy_cons, if_neg (by simpa using ne_of_lt lt)]

private theorem lookupBy_of_all_lt {key : String} (all : ∀ entry ∈ left, key < entry.1) :
    lookupBy Prod.fst key left = none := by
  rw [lookupBy_eq_none]
  intro entry member
  simpa using (ne_of_lt (all entry member)).symm

private theorem head_lt (sorted : SortedBy Prod.fst (entry :: left)) :
    ∀ other ∈ left, entry.1 < other.1 := fun _ member =>
  compare_lt_iff_lt.mp (List.rel_of_pairwise_cons sorted member)

theorem mapZip_nil_cons (sortedRight : SortedBy Prod.fst (entry :: right)) :
    mapZip [] (entry :: right) = (entry.1, none, some entry.2) :: mapZip [] right := by
  have above := head_lt sortedRight
  rw [mapZip_eq_cons List.Pairwise.nil sortedRight entry.1 List.Pairwise.nil
    (List.Pairwise.of_cons sortedRight)]
  · simp [lookupBy_cons]
  · simp
  · intro other member
    obtain ⟨found, inRight, rfl⟩ : ∃ found ∈ right, found.1 = other := by simpa using member
    exact above found inRight
  · intro other lt
    exact ⟨rfl, lookupBy_cons_of_lt lt⟩

theorem mapZip_cons_nil (sortedLeft : SortedBy Prod.fst (entry :: left)) :
    mapZip (entry :: left) [] = (entry.1, some entry.2, none) :: mapZip left [] := by
  have above := head_lt sortedLeft
  rw [mapZip_eq_cons sortedLeft List.Pairwise.nil entry.1
    (List.Pairwise.of_cons sortedLeft) List.Pairwise.nil]
  · simp [lookupBy_cons]
  · simp
  · intro other member
    obtain ⟨found, inLeft, rfl⟩ : ∃ found ∈ left, found.1 = other := by simpa using member
    exact above found inLeft
  · intro other lt
    exact ⟨lookupBy_cons_of_lt lt, rfl⟩

section

variable {x y : String × Value N} (sortedLeft : SortedBy Prod.fst (x :: left))
  (sortedRight : SortedBy Prod.fst (y :: right))

include sortedLeft sortedRight

theorem mapZip_cons_lt (keys : compare x.1 y.1 = .lt) :
    mapZip (x :: left) (y :: right) = (x.1, some x.2, none) :: mapZip left (y :: right) := by
  have below : x.1 < y.1 := compare_lt_iff_lt.mp keys
  have allRight : ∀ found ∈ y :: right, x.1 < found.1 := by
    intro found member
    rcases List.mem_cons.mp member with rfl | inRight
    · exact below
    · exact lt_trans below (head_lt sortedRight found inRight)
  rw [mapZip_eq_cons sortedLeft sortedRight x.1 (List.Pairwise.of_cons sortedLeft)
    sortedRight]
  · simp [lookupBy_cons _ _ x, lookupBy_of_all_lt allRight]
  · simp [or_assoc]
  · rintro other (inLeft | inRight)
    · obtain ⟨found, member, rfl⟩ := List.mem_map.mp inLeft
      exact head_lt sortedLeft found member
    · obtain ⟨found, member, rfl⟩ := List.mem_map.mp inRight
      exact allRight found member
  · intro other lt
    exact ⟨lookupBy_cons_of_lt lt, rfl⟩

theorem mapZip_cons_gt (keys : compare x.1 y.1 = .gt) :
    mapZip (x :: left) (y :: right) = (y.1, none, some y.2) :: mapZip (x :: left) right := by
  have below : y.1 < x.1 := compare_gt_iff_gt.mp keys
  have allLeft : ∀ found ∈ x :: left, y.1 < found.1 := by
    intro found member
    rcases List.mem_cons.mp member with rfl | inLeft
    · exact below
    · exact lt_trans below (head_lt sortedLeft found inLeft)
  rw [mapZip_eq_cons sortedLeft sortedRight y.1 sortedLeft
    (List.Pairwise.of_cons sortedRight)]
  · simp [lookupBy_cons _ _ y, lookupBy_of_all_lt allLeft]
  · simp only [List.map_cons, List.mem_cons]
    tauto
  · rintro other (inLeft | inRight)
    · obtain ⟨found, member, rfl⟩ := List.mem_map.mp inLeft
      exact allLeft found member
    · obtain ⟨found, member, rfl⟩ := List.mem_map.mp inRight
      exact head_lt sortedRight found member
  · intro other lt
    exact ⟨rfl, lookupBy_cons_of_lt lt⟩

theorem mapZip_cons_eq (keys : x.1 = y.1) :
    mapZip (x :: left) (y :: right) = (x.1, some x.2, some y.2) :: mapZip left right := by
  rw [mapZip_eq_cons sortedLeft sortedRight x.1 (List.Pairwise.of_cons sortedLeft)
    (List.Pairwise.of_cons sortedRight)]
  · simp [lookupBy_cons, keys]
  · simp only [List.map_cons, List.mem_cons, keys]
    tauto
  · rintro other (inLeft | inRight)
    · obtain ⟨found, member, rfl⟩ := List.mem_map.mp inLeft
      exact head_lt sortedLeft found member
    · obtain ⟨found, member, rfl⟩ := List.mem_map.mp inRight
      rw [keys]
      exact head_lt sortedRight found member
  · intro other lt
    exact ⟨lookupBy_cons_of_lt lt, lookupBy_cons_of_lt (keys ▸ lt)⟩

end

end Zip

/-! ## Accessors -/

def isNull : Value N → Bool
  | .null => true
  | _ => false

def isList : Value N → Bool
  | .list _ => true
  | _ => false

def isMap : Value N → Bool
  | .map _ => true
  | _ => false

/-- `IsFloat() || IsInt() || IsString() || IsBool()`. -/
def isScalar : Value N → Bool
  | .bool _ | .number _ | .string _ => true
  | _ => false

/-- The items of a list; none for other values. -/
def items : Value N → List (Value N)
  | .list items => items
  | _ => []

/-- The entries of a map, each key once; none for other values. -/
def entries : Value N → List (String × Value N)
  | .map bindings => normalize bindings
  | _ => []

/-- `Map.Get`. -/
def get? (v : Value N) (key : String) : Option (Value N) :=
  (lookupBy Prod.fst key v.entries).map Prod.snd

theorem entries_sorted (v : Value N) : SortedBy Prod.fst v.entries := by
  cases v with
  | map bindings => exact normalize_sorted bindings
  | _ => exact List.Pairwise.nil

theorem get?_eq_some_iff {v : Value N} {key : String} {entry : Value N} :
    v.get? key = some entry ↔ (key, entry) ∈ v.entries := by
  unfold get?
  constructor
  · intro found
    obtain ⟨binding, lookup, rfl⟩ := Option.map_eq_some_iff.mp found
    have sameKey : binding.1 = key := by simpa using key_of_lookupBy lookup
    rw [← sameKey]
    exact mem_of_lookupBy lookup
  · intro member
    rw [lookupBy_of_mem v.entries_sorted member (by simp)]
    rfl

theorem depth_lt_of_mem_items {v item : Value N} (member : item ∈ v.items) :
    item.depth < v.depth := by
  cases v with
  | list items => exact Nat.lt_succ_of_le (depth_le_depthItems member)
  | _ => cases member

theorem depth_lt_of_mem_entries {v : Value N} {binding : String × Value N}
    (member : binding ∈ v.entries) : binding.2.depth < v.depth := by
  cases v with
  | map bindings =>
      exact Nat.lt_succ_of_le (depth_le_depthBindings (mem_of_mem_normalize member))
  | _ => cases member

end Value

end StructuredMergeDiff
