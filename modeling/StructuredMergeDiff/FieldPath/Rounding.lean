import StructuredMergeDiff.FieldPath.Decoded
import StructuredMergeDiff.Value.Conversion

/-!
Contract: integers in field sets that have been written and read.

An integer is written in decimal, and read as the float next to it. Integers that round
to one float are read as one path element, and then every one of them is found there.

Owns: which sets of integers are read with as many members, and with the same integers.
Does not own: the texts of numbers, which are those of the JSON library.
-/

namespace StructuredMergeDiff

open Library Std

/-! ## Domains -/

/-- The integers that a value can hold. -/
instance : Numeric Int64 := ⟨fun i => .int i.toInt⟩

instance : Consistent Int64 where
  int_eq_of_float := by
    intro x y z i j q _ _ isFloat
    cases isFloat

/-- The floats that a value can hold. -/
instance : Numeric ℚ := ⟨Number.float⟩

instance : Consistent ℚ where
  int_eq_of_float := by
    intro x y z i j q isInt
    cases isInt

/-- Go's conversion `float64(i)` of an `int64`. -/
def toFloat (i : Int64) : ℚ :=
  float64 i.toInt

theorem toFloat_respects {i j : Int64} (same : equalNumbers i j = true) :
    equalNumbers (toFloat i) (toFloat j) = true := by
  have equal : i.toInt = j.toInt := by simpa [equalNumbers, Numeric.number, Number.equals] using same
  simp [equalNumbers, Numeric.number, Number.equals, toFloat, equal]

/-! ## Path elements -/

namespace PathElement

variable {N M P Q : Type}

/-- The path element with each number replaced. -/
def mapNumbers (f : N → M) : PathElement N → PathElement M
  | .fieldName name => .fieldName name
  | .key fields => .key (fields.mapNumbers f)
  | .value v => .value (v.mapNumbers f)
  | .index i => .index i
  | .unset => .unset

/-- The path element with the fields of a key in order. -/
def sortKey : PathElement N → PathElement N
  | .key fields => .key fields.sort
  | pe => pe

theorem mapNumbers_id (pe : PathElement N) : pe.mapNumbers id = pe := by
  cases pe with
  | key fields => rw [mapNumbers, FieldList.mapNumbers_id]
  | value v => rw [mapNumbers, Value.mapNumbers_id]
  | _ => rfl

theorem sortKey_sortKey (pe : PathElement N) : pe.sortKey.sortKey = pe.sortKey := by
  cases pe with
  | key fields => rw [sortKey, sortKey, FieldList.sort_sort]
  | _ => rfl

theorem compare_mapNumbers [Numeric P] [Numeric Q] {f : N → P} {g : M → P} {f' : N → Q} {g' : M → Q}
    (agree : ∀ n m, compareNumbers (f n) (g m) = compareNumbers (f' n) (g' m))
    (first : PathElement N) (second : PathElement M) :
    Ord.compare (first.mapNumbers f) (second.mapNumbers g) =
      Ord.compare (first.mapNumbers f') (second.mapNumbers g') := by
  cases first <;> cases second <;> try rfl
  case key.key fields others => exact FieldList.compare_mapNumbers agree fields others
  case value.value v w => exact Value.compare_mapNumbers agree v w

theorem mapNumbers_respects [Numeric N] [Numeric M] {f : N → M}
    (respects : ∀ {n m}, equalNumbers n m = true → equalNumbers (f n) (f m) = true) :
    FieldSet.Respects (mapNumbers f) := by
  intro first second same
  cases first <;> cases second <;> try exact same
  case key.key => exact FieldList.beq_mapNumbers respects same
  case value.value v w => exact Value.beq_mapNumbers respects v w same

theorem sortKey_respects [Numeric N] : FieldSet.Respects (sortKey (N := N)) := by
  intro first second same
  cases first <;> cases second <;> try exact same
  case key.key => exact FieldList.sort_beq same

/-- The path element in the domain of all numbers. -/
def asNumbers [Numeric N] : PathElement N → PathElement Number :=
  mapNumbers Numeric.number

/-- The path element with the float next to each integer. -/
def asFloats : PathElement Int64 → PathElement ℚ :=
  mapNumbers toFloat

/-- What the path element is read as: keys are sorted as soon as they are read. -/
def rounded (pe : PathElement Int64) : PathElement ℚ :=
  pe.asFloats.sortKey

theorem asFloats_respects : FieldSet.Respects asFloats :=
  mapNumbers_respects toFloat_respects

theorem rounded_respects : FieldSet.Respects rounded :=
  fun same => sortKey_respects (asFloats_respects same)

/-- Integers are compared with integers as they are. -/
theorem compare_asNumbers [Numeric N] (first second : PathElement N) :
    Ord.compare first.asNumbers second.asNumbers = Ord.compare first second := by
  have agree : ∀ n m : N, compareNumbers (Numeric.number n) (Numeric.number m) =
      compareNumbers (id n) (id m) := fun _ _ => rfl
  rw [asNumbers, compare_mapNumbers agree, mapNumbers_id, mapNumbers_id]

/-- Integers are compared with floats as floats. -/
theorem compare_asFloats (first : PathElement ℚ) (second : PathElement Int64) :
    Ord.compare first.asNumbers second.asNumbers = Ord.compare first second.asFloats := by
  have agree : ∀ (q : ℚ) (i : Int64), compareNumbers (Numeric.number q) (Numeric.number i) =
      compareNumbers (id q) (toFloat i) := fun _ _ => rfl
  rw [asNumbers, asNumbers, compare_mapNumbers agree, mapNumbers_id, asFloats]

end PathElement

namespace FieldSet

/-! ## Lookup among all numbers -/

section Lookup

variable {N M : Type} [Numeric N] [Numeric M]

mutual

/-- The set in the domain of all numbers. -/
def asNumbers : FieldSet N → FieldSet Number
  | ⟨members, children⟩ => ⟨members.map PathElement.asNumbers, asNumbersChildren children⟩

def asNumbersChildren :
    List (PathElement N × FieldSet N) → List (PathElement Number × FieldSet Number)
  | [] => []
  | (pe, child) :: rest => (pe.asNumbers, child.asNumbers) :: asNumbersChildren rest

end

theorem asNumbersChildren_eq (children : List (PathElement N × FieldSet N)) :
    asNumbersChildren children = children.map fun node => (node.1.asNumbers, node.2.asNumbers) := by
  induction children with
  | nil => rfl
  | cons node rest ih =>
      rw [asNumbersChildren, ih, List.map_cons]

theorem asNumbers_eq (s : FieldSet N) : s.asNumbers = ⟨s.members.map PathElement.asNumbers,
    s.children.map fun node => (node.1.asNumbers, node.2.asNumbers)⟩ := by
  obtain ⟨members, children⟩ := s
  rw [asNumbers, asNumbersChildren_eq]

/-- Lookup among all numbers is lookup in the domain of the set. -/
theorem has_asNumbers {wanted : PathElement M → PathElement N}
    (agree : ∀ own pe, compare (PathElement.asNumbers own) (PathElement.asNumbers pe) =
      compare own (wanted pe)) (s : FieldSet N) (path : Path M) :
    s.asNumbers.has (path.map PathElement.asNumbers) = s.has (path.map wanted) := by
  have same : ∀ own pe, (PathElement.asNumbers own == PathElement.asNumbers pe) =
      (own == wanted pe) := by
    intro own pe
    rw [Bool.eq_iff_iff, ← compare_eq_iff_beq, ← compare_eq_iff_beq, agree]
  induction path generalizing s with
  | nil => rfl
  | cons pe rest ih =>
      have members : getBy id pe.asNumbers (s.members.map PathElement.asNumbers) =
          (getBy id (wanted pe) s.members).map PathElement.asNumbers :=
        getBy_map (fun own => agree own pe) (fun own => same own pe)
      have children : getBy Prod.fst pe.asNumbers
          (s.children.map fun node => (node.1.asNumbers, node.2.asNumbers)) =
            (getBy Prod.fst (wanted pe) s.children).map
              fun node => (node.1.asNumbers, node.2.asNumbers) :=
        getBy_map (fun node => agree node.1 pe) (fun node => same node.1 pe)
      rw [asNumbers_eq, List.map_cons, List.map_cons]
      cases rest with
      | nil =>
          rw [List.map_nil, List.map_nil, has_singleton, has_singleton, membersHas, membersHas,
            members, Option.isSome_map]
      | cons next later =>
          rw [has_cons _ _ (by simp), has_cons _ _ (by simp), withPrefix, withPrefix, childrenGet,
            childrenGet, children]
          cases getBy Prod.fst (wanted pe) s.children with
          | none =>
              show nil.has _ = nil.has _
              rw [has_nil, has_nil]
          | some node => exact ih node.2

theorem has_integer (s : FieldSet N) (path : Path N) :
    s.asNumbers.has (path.map PathElement.asNumbers) = s.has path := by
  have looked : s.asNumbers.has (path.map PathElement.asNumbers) = s.has (path.map id) :=
    has_asNumbers PathElement.compare_asNumbers s path
  rw [looked, List.map_id]

end Lookup

/-! ## Reading of floats -/

section Floats

variable (lib : JSONLibrary Int64 ℚ)

/-- The library gives back what it wrote, with the float next to each integer. -/
def ReadsAsFloats : PathElement Int64 → Prop
  | .fieldName _ => True
  | .key fields =>
      lib.readObject (lib.writeObject fields.fields) = .ok (fields.mapNumbers toFloat).fields
  | .value v => lib.read (lib.writeVal v) = .ok (v.mapNumbers toFloat)
  | .index i => lib.atoi (lib.writeInt i) = .ok i
  | .unset => False

variable {lib}

theorem ReadsAsFloats.decodes {pe : PathElement Int64} (reads : ReadsAsFloats lib pe) :
    Decodes lib PathElement.rounded pe := by
  cases pe with
  | fieldName name => exact ⟨_, rfl, deserialize_fieldName lib name⟩
  | key fields =>
      refine ⟨_, rfl, ?_⟩
      rw [deserialize_key, show lib.readObject (lib.writeObject fields.fields) = _ from reads]
      rfl
  | value v =>
      refine ⟨_, rfl, ?_⟩
      rw [deserialize_value, show lib.read (lib.writeVal v) = _ from reads]
      rfl
  | index i =>
      refine ⟨_, rfl, ?_⟩
      rw [deserialize_index, show lib.atoi (lib.writeInt i) = _ from reads]
      rfl
  | unset => exact reads.elim

end Floats

/-! ## Integers that are kept -/

/-- As many members are read as there were, and the same integers are found at each node. -/
def KeepsIntegers (s : FieldSet Int64) (read : FieldSet ℚ) : Prop :=
  read.size = s.size ∧ ∀ (node : Path Int64) (n : Int64),
    read.asNumbers.has ((node ++ [numberElement n]).map PathElement.asNumbers) =
      s.asNumbers.has ((node ++ [numberElement n]).map PathElement.asNumbers)

/-- What a path of the set is read as is found as an integer exactly if it is that integer. -/
def Recognised (s : FieldSet Int64) : Prop :=
  ∀ own ∈ s.iterate, ∀ (node : Path Int64) (n : Int64),
    (own.map PathElement.rounded == (node ++ [numberElement n]).map PathElement.asFloats) =
      (own == node ++ [numberElement n])

private theorem map_respects {N M : Type} [Numeric N] [Numeric M]
    {d : PathElement N → PathElement M} (respects : Respects d) {first second : Path N}
    (same : (first == second) = true) : (first.map d == second.map d) = true := by
  induction first generalizing second with
  | nil =>
      have isRoot : second = [] := by simpa using same
      rw [isRoot]
      rfl
  | cons pe rest ih =>
      cases second with
      | nil => cases same
      | cons other later =>
          rw [List.cons_beq_cons, Bool.and_eq_true] at same
          rw [List.map_cons, List.map_cons, List.cons_beq_cons, Bool.and_eq_true]
          exact ⟨respects same.1, ih same.2⟩

private theorem rounded_of_asFloats {own path : Path Int64}
    (same : (own.map PathElement.rounded == path.map PathElement.asFloats) = true) :
    (own.map PathElement.rounded == path.map PathElement.rounded) = true := by
  have sorted := map_respects PathElement.sortKey_respects same
  rw [List.map_map, List.map_map] at sorted
  have twice : PathElement.sortKey ∘ PathElement.rounded = PathElement.rounded :=
    funext fun pe => pe.asFloats.sortKey_sortKey
  rwa [twice] at sorted

private theorem keepsIntegers_decode_iff {s : FieldSet Int64} (canonical : s.Canonical) :
    KeepsIntegers s (s.decode PathElement.rounded) ↔
      Separate PathElement.rounded s ∧ Recognised s := by
  have found : ∀ path : Path Int64, (s.decode PathElement.rounded).asNumbers.has
      (path.map PathElement.asNumbers) =
        (s.decode PathElement.rounded).has (path.map PathElement.asFloats) :=
    has_asNumbers PathElement.compare_asFloats _
  constructor
  · rintro ⟨sameSize, sameIntegers⟩
    have separate := separate_of_size PathElement.rounded_respects canonical sameSize
    refine ⟨separate, fun own inOwn node n => ?_⟩
    have integers := sameIntegers node n
    generalize node ++ [numberElement n] = path at integers ⊢
    rw [found, has_integer, Bool.eq_iff_iff,
      has_decode PathElement.rounded_respects canonical separate,
      has_iff_mem_iterate canonical] at integers
    rw [Bool.eq_iff_iff]
    constructor
    · intro sameRead
      obtain ⟨other, inOther, isPath⟩ := integers.mp ⟨own, inOwn, sameRead⟩
      have sameRounded : (own.map PathElement.rounded == other.map PathElement.rounded) = true :=
        BEq.trans (rounded_of_asFloats sameRead)
          (BEq.symm (map_respects PathElement.rounded_respects isPath))
      rw [eq_of_separate separate inOwn inOther sameRounded]
      exact isPath
    · intro isPath
      obtain ⟨other, inOther, sameRead⟩ := integers.mpr ⟨own, inOwn, isPath⟩
      have sameRounded : (own.map PathElement.rounded == other.map PathElement.rounded) = true :=
        BEq.trans (map_respects PathElement.rounded_respects isPath)
          (BEq.symm (rounded_of_asFloats sameRead))
      rw [eq_of_separate separate inOwn inOther sameRounded]
      exact sameRead
  · rintro ⟨separate, recognised⟩
    refine ⟨size_decode PathElement.rounded_respects canonical separate, fun node n => ?_⟩
    rw [found, has_integer, Bool.eq_iff_iff,
      has_decode PathElement.rounded_respects canonical separate, has_iff_mem_iterate canonical]
    exact exists_congr fun own => and_congr_right fun inOwn => by
      rw [recognised own inOwn node n]

/-! ## Integers in decimal -/

/-- The number that decimal digits denote. -/
def readDigits (text : List Char) : Except String Nat :=
  if text.all Char.isDigit then .ok (Nat.ofDigitChars 10 text 0) else .error "no decimal"

/-- The integer that a decimal denotes. -/
def readDecimal (text : String) : Except String Int :=
  match text.toList with
  | '-' :: rest => (readDigits rest).map fun n => -Int.ofNat n
  | all => (readDigits all).map Int.ofNat

private theorem readDigits_toDigits (n : Nat) : readDigits (Nat.toDigits 10 n) = .ok n := by
  have all : (Nat.toDigits 10 n).all Char.isDigit = true :=
    List.all_eq_true.mpr fun _ member => Nat.isDigit_of_mem_toDigits (by omega) (by omega) member
  rw [readDigits, if_pos all, Nat.ofDigitChars_ten_toDigits]

/-- Integers are written in decimal so that they can be read. -/
theorem readDecimal_repr (i : Int) : readDecimal i.repr = .ok i := by
  cases i with
  | ofNat n =>
      have text : (Int.ofNat n).repr.toList = Nat.toDigits 10 n := Nat.toList_repr
      rw [readDecimal, text]
      split
      · next rest isText =>
          have isDigit : '-'.isDigit = true :=
            Nat.isDigit_of_mem_toDigits (b := 10) (n := n) (by omega) (by omega) (by simp [isText])
          cases isDigit
      · rw [readDigits_toDigits]
        rfl
  | negSucc n =>
      have text : (Int.negSucc n).repr.toList = '-' :: Nat.toDigits 10 (n + 1) := by
        show ("-" ++ (n + 1).repr).toList = _
        rw [String.toList_append, Nat.toList_repr]
        rfl
      rw [readDecimal, text]
      show (readDigits (Nat.toDigits 10 (n + 1))).map _ = _
      rw [readDigits_toDigits]
      rfl

/-- A library for path elements that are integers. -/
def decimals : JSONLibrary Int64 ℚ where
  writeVal
    | .number n => n.toInt.repr
    | _ => ""
  read := fun text => (readDecimal text).map fun i => Value.number (float64 i)
  writeObject := fun _ => ""
  readObject := fun _ => .error "no object"
  writeInt := Int.repr
  atoi := readDecimal

theorem decimals_read (n : Int64) : ReadsAsFloats decimals (numberElement n) := by
  show (readDecimal n.toInt.repr).map _ = .ok (Value.number (float64 n.toInt))
  rw [readDecimal_repr]
  rfl

/-- Two integers at the root. -/
def twoIntegers (low high : Int64) : FieldSet Int64 :=
  { members := [numberElement low, numberElement high], children := [] }

theorem twoIntegers_canonical {low high : Int64} (below : compareNumbers low high = .lt) :
    (twoIntegers low high).Canonical := by
  refine .intro (List.pairwise_pair.mpr ?_) List.Pairwise.nil (by simp [twoIntegers])
    (by simp [twoIntegers])
  show compare (numberElement low) (numberElement high) = .lt
  rw [compare_numberElement, below]

theorem twoIntegers_read (low high : Int64) :
    ∀ pe ∈ (twoIntegers low high).elements, ReadsAsFloats decimals pe := by
  have elements : (twoIntegers low high).elements = [numberElement low, numberElement high] := rfl
  intro pe member
  simp only [elements, List.mem_cons, List.not_mem_nil, or_false] at member
  rcases member with rfl | rfl
  · exact decimals_read low
  · exact decimals_read high

theorem twoIntegers_separate_iff {low high : Int64} :
    Separate PathElement.rounded (twoIntegers low high) ↔ toFloat low ≠ toFloat high := by
  have equal : (PathElement.rounded (numberElement low) ==
      PathElement.rounded (numberElement high)) = equalNumbers (toFloat low) (toFloat high) :=
    beq_numberElement (toFloat low) (toFloat high)
  have floats : equalNumbers (toFloat low) (toFloat high) = (toFloat low == toFloat high) := rfl
  constructor
  · intro separate
    obtain ⟨members, -, -⟩ := separate
    have apart := List.pairwise_pair.mp members
    rw [equal, floats] at apart
    exact ne_of_beq_false apart
  · intro different
    refine .intro (List.pairwise_pair.mpr ?_) List.Pairwise.nil (by simp [twoIntegers])
    rw [equal, floats, beq_eq_false_iff_ne]
    exact different

/-- No other integer rounds to a float that is away from the roundings of its neighbours. -/
theorem eq_of_toFloat_eq {i j : Int64} (above : float64 (i.toInt - 1) < toFloat i)
    (below : toFloat i < float64 (i.toInt + 1)) (same : toFloat i = toFloat j) : i = j := by
  apply Int64.toInt_inj.mp
  rcases Int.lt_trichotomy i.toInt j.toInt with less | equal | greater
  · have bound : float64 (i.toInt + 1) ≤ toFloat j := float64_mono (by omega)
    linarith
  · exact equal
  · have bound : toFloat j ≤ float64 (i.toInt - 1) := float64_mono (by omega)
    linarith

private theorem recognised_single {i : Int64} (alone : ∀ j, toFloat i = toFloat j → i = j)
    (node : Path Int64) (n : Int64) :
    ([PathElement.rounded (numberElement i)] ==
        (node ++ [numberElement n]).map PathElement.asFloats) =
      ([numberElement i] == node ++ [numberElement n]) := by
  cases node with
  | nil =>
      have floats : (PathElement.rounded (numberElement i) ==
          PathElement.asFloats (numberElement n)) = (toFloat i == toFloat n) :=
        beq_numberElement (toFloat i) (toFloat n)
      have integers : (numberElement i == numberElement n) = (i.toInt == n.toInt) :=
        beq_numberElement i n
      rw [List.nil_append, List.map_singleton, List.cons_beq_cons, List.cons_beq_cons, floats,
        integers, Bool.eq_iff_iff]
      simp only [BEq.refl, Bool.and_true, beq_iff_eq, Int64.toInt_inj]
      exact ⟨alone n, fun equal => by rw [equal]⟩
  | cons pe rest => cases rest <;> simp

theorem twoIntegers_recognised {low high : Int64} (lowAlone : ∀ j, toFloat low = toFloat j → low = j)
    (highAlone : ∀ j, toFloat high = toFloat j → high = j) :
    Recognised (twoIntegers low high) := by
  intro own inOwn node n
  have paths : (twoIntegers low high).iterate = [[numberElement low], [numberElement high]] := rfl
  simp only [paths, List.mem_cons, List.not_mem_nil, or_false] at inOwn
  rcases inOwn with rfl | rfl
  · exact recognised_single lowAlone node n
  · exact recognised_single highAlone node n

/-- A set of integers is read with as many members and the same integers exactly if no two
path elements of a node round to one, and no integer rounds to a member but itself. -/
theorem integers_kept_iff_recognised {lib : JSONLibrary Int64 ℚ} {s : FieldSet Int64}
    (canonical : s.Canonical) (reads : ∀ pe ∈ s.elements, ReadsAsFloats lib pe) :
    ∃ document read, s.toJSON lib = .ok document ∧ fromJSON lib document = (read, none) ∧
      (KeepsIntegers s read ↔ Separate PathElement.rounded s ∧ Recognised s) := by
  obtain ⟨document, written, isRead⟩ :=
    fromJSON_toJSON canonical fun pe member => (reads pe member).decodes
  exact ⟨document, _, written, isRead, keepsIntegers_decode_iff canonical⟩

/-- Two small integers are read back. -/
theorem small_integers_read : ∃ document read,
    (twoIntegers 1 2).toJSON decimals = .ok document ∧
      fromJSON decimals document = (read, none) ∧ KeepsIntegers (twoIntegers 1 2) read := by
  have canonical : (twoIntegers 1 2).Canonical := twoIntegers_canonical (by decide +kernel)
  obtain ⟨document, read, written, isRead, kept⟩ := integers_kept_iff_recognised
    canonical (twoIntegers_read 1 2)
  refine ⟨document, read, written, isRead, kept.mpr ⟨?_, ?_⟩⟩
  · exact twoIntegers_separate_iff.mpr (by decide +kernel)
  · apply twoIntegers_recognised <;> intro j same <;>
      exact eq_of_toFloat_eq (by decide +kernel) (by decide +kernel) same

/-- Two consecutive integers past `2 ^ 53` are read as one. -/
theorem consecutive_integers_read_as_one : ∃ document read,
    (twoIntegers 9007199254740992 9007199254740993).toJSON decimals = .ok document ∧
      fromJSON decimals document = (read, none) ∧
      ¬ KeepsIntegers (twoIntegers 9007199254740992 9007199254740993) read := by
  have canonical : (twoIntegers 9007199254740992 9007199254740993).Canonical :=
    twoIntegers_canonical (by decide +kernel)
  obtain ⟨document, written, isRead⟩ := fromJSON_toJSON canonical fun pe member =>
    (twoIntegers_read _ _ pe member).decodes
  refine ⟨document, _, written, isRead, fun keeps => ?_⟩
  have separate := ((keepsIntegers_decode_iff canonical).mp keeps).1
  exact twoIntegers_separate_iff.mp separate (by decide +kernel)

end FieldSet

end StructuredMergeDiff
