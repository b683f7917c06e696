import StructuredMergeDiff.Typed.Node
import StructuredMergeDiff.Typed.Unfolding

/-!
Contract: what the comparison of two lists or of two maps records.

Items are gathered by path element and compared per path element, entries are
compared per key. Beneath a path element, the walk records what `compareAll`
records for the values that both sides hold there.

Owns: `CompareWalk.Records`, `compareAll`, and what `visitListItems` and
`visitMapItems` record and when they fail.
Does not own: which of them a walk uses (`Typed.CompareSpec`).
-/

namespace StructuredMergeDiff.Typed

open Library Std

variable {N : Type} [Numeric N] {sc : Schema N} {pe : PathElement N} {change : Change}

/-! ## Recorded paths -/

/-- The three sets of a comparison. -/
inductive Change where
  | added
  | removed
  | modified
deriving DecidableEq

namespace CompareWalk

omit [Numeric N] in
def paths (walk : CompareWalk N) : Change → List (Path N)
  | .added => walk.added
  | .removed => walk.removed
  | .modified => walk.modified

/-- The walk records the path as a change. -/
def Records (walk : CompareWalk N) (change : Change) (path : Path N) : Prop :=
  ∃ recorded ∈ walk.paths change, (recorded == path) = true

omit [Numeric N] in
/-- A single change. -/
def only (change : Change) (path : Path N) : CompareWalk N :=
  match change with
  | .added => { nothing with added := [path] }
  | .removed => { nothing with removed := [path] }
  | .modified => { nothing with modified := [path] }

section Records

variable {change : Change} {path : Path N}

@[simp] theorem records_nothing : ¬ (nothing : CompareWalk N).Records change path := by
  cases change <;> simp [Records, paths, nothing]

@[simp] theorem records_ofErrors {errs : ValidationErrors N} :
    ¬ (ofErrors errs).Records change path := by
  cases change <;> simp [Records, paths, nothing, ofErrors]

theorem records_only {other : Change} {recorded : Path N} :
    (only other recorded).Records change path ↔
      other = change ∧ (recorded == path) = true := by
  cases change <;> cases other <;> simp [Records, paths, nothing, only]

@[simp] theorem records_append {first second : CompareWalk N} :
    (first.append second).Records change path ↔
      first.Records change path ∨ second.Records change path := by
  cases change <;> simp [Records, paths, append, or_and_right, exists_or]

theorem records_concat {walks : List (CompareWalk N)} :
    (concat walks).Records change path ↔ ∃ walk ∈ walks, walk.Records change path := by
  induction walks with
  | nil => simp [concat]
  | cons walk rest ih =>
      have split : concat (walk :: rest) = walk.append (concat rest) := rfl
      rw [split, records_append, ih]
      simp

theorem records_beneath_cons {pe wanted : PathElement N} {walk : CompareWalk N} :
    (walk.beneath pe).Records change (wanted :: path) ↔
      (pe == wanted) = true ∧ walk.Records change path := by
  cases change <;> simp [Records, paths, beneath, and_left_comm]

@[simp] theorem records_beneath_nil {walk : CompareWalk N} :
    ¬ (walk.beneath pe).Records change [] := by
  cases change <;> simp [Records, paths, beneath]

end Records

section

omit [Numeric N]

@[simp] theorem errs_nothing : (nothing : CompareWalk N).errs = [] := rfl

@[simp] theorem errs_only (change : Change) (path : Path N) : (only change path).errs = [] := by
  cases change <;> rfl

@[simp] theorem errs_ofErrors (errs : ValidationErrors N) : (ofErrors errs).errs = errs := rfl

@[simp] theorem errs_append {first second : CompareWalk N} :
    (first.append second).errs = [] ↔ first.errs = [] ∧ second.errs = [] := by
  simp [append]

theorem errs_concat {walks : List (CompareWalk N)} :
    (concat walks).errs = [] ↔ ∀ walk ∈ walks, walk.errs = [] := by
  induction walks with
  | nil => simp [concat]
  | cons walk rest ih =>
      have split : concat (walk :: rest) = walk.append (concat rest) := rfl
      rw [split, errs_append, ih]
      simp

@[simp] theorem errs_beneath {walk : CompareWalk N} :
    (walk.beneath pe).errs = [] ↔ walk.errs = [] := by
  simp [beneath, ValidationErrors.withPrefix]

end

end CompareWalk

/-! ## The values under one path element -/

/-- The comparison of all values that the two sides hold under one path element. -/
def compareAll (sc : Schema N) (tr : TypeRef N) (ls rs : List (Value N)) : CompareWalk N :=
  match ls, rs with
  | [], [] => .nothing
  | [], [r] => compareWalk sc tr none (some r)
  | [l], [] => compareWalk sc tr (some l) none
  | [l], [r] => compareWalk sc tr (some l) (some r)
  | _ :: _ :: _, _ :: _ :: _ => if Compare.listEqual ls rs then .nothing else .only .modified []
  | _ :: _ :: _, [] => .only .removed []
  | _ :: _ :: _, [r] => (compareWalk sc tr none (some r)).append (.only .removed [])
  | [], _ :: _ :: _ => .only .added []
  | [l], _ :: _ :: _ => (compareWalk sc tr (some l) none).append (.only .added [])

@[simp] theorem compareAll_nil (sc : Schema N) (tr : TypeRef N) :
    compareAll sc tr [] [] = .nothing := rfl

theorem compareAll_toList (sc : Schema N) (tr : TypeRef N) {l r : Option (Value N)}
    (present : l ≠ none ∨ r ≠ none) :
    compareAll sc tr l.toList r.toList = compareWalk sc tr l r := by
  cases l <;> cases r <;> simp at present <;> rfl

omit [Numeric N] in
/-- The value, if there is exactly one. -/
def sole : List (Value N) → Option (Value N)
  | [v] => some v
  | _ => none

omit [Numeric N] in
theorem mem_of_sole {values : List (Value N)} {v : Value N} (isSole : sole values = some v) :
    v ∈ values := by
  match values with
  | [] => cases isSole
  | [w] => exact Option.some.inj isSole ▸ List.mem_singleton_self _
  | _ :: _ :: _ => cases isSole

/-- The change that several values on one side are recorded as. -/
def severalChange (ls rs : List (Value N)) : Option Change :=
  if 2 ≤ ls.length then
    if 2 ≤ rs.length then if Compare.listEqual ls rs then none else some .modified
    else some .removed
  else if 2 ≤ rs.length then some .added else none

/-- Single values are compared, and several ones recorded as a whole. -/
theorem records_compareAll {tr : TypeRef N} {ls rs : List (Value N)} {path : Path N} :
    (compareAll sc tr ls rs).Records change path ↔
      ((sole ls ≠ none ∨ sole rs ≠ none) ∧
        (compareWalk sc tr (sole ls) (sole rs)).Records change path) ∨
      path = [] ∧ severalChange ls rs = some change := by
  have root : ∀ other : Change, (CompareWalk.only other []).Records change path ↔
      path = [] ∧ some other = some change := by
    intro other
    cases path <;> simp [CompareWalk.records_only]
  match ls, rs with
  | [], [] | [], [_] | [_], [] | [_], [_] | _ :: _ :: _, [] | _ :: _ :: _, [_] | [], _ :: _ :: _
  | [_], _ :: _ :: _ => simp [compareAll, sole, severalChange, root]
  | _ :: _ :: _, _ :: _ :: _ =>
      simp only [compareAll, severalChange]
      split <;> simp [sole, root]

theorem errs_compareAll_iff {tr : TypeRef N} {ls rs : List (Value N)} :
    (compareAll sc tr ls rs).errs = [] ↔ (sole ls ≠ none ∨ sole rs ≠ none →
      (compareWalk sc tr (sole ls) (sole rs)).errs = []) := by
  match ls, rs with
  | [], [] | [], [_] | [_], [] | [_], [_] | _ :: _ :: _, [] | _ :: _ :: _, [_] | [], _ :: _ :: _
  | [_], _ :: _ :: _ => simp [compareAll, sole]
  | _ :: _ :: _, _ :: _ :: _ =>
      simp only [compareAll]
      split <;> simp [sole]

namespace Compare

/-- The walker's comparison of children. -/
abbrev visitKid (sc : Schema N) : Call N → CompareWalk N :=
  fun call => compareWalk sc call.type call.lhs call.rhs

theorem visitPathElement_eq (sc : Schema N) (t : ListType N) (pe : PathElement N)
    (ls rs : List (Value N)) :
    visitPathElement (visitKid sc) t pe ls rs =
      if ls = [] ∧ rs = [] then none
      else some ((compareAll sc t.elementType ls rs).beneath pe) := by
  match ls, rs with
  | [], [] => rfl
  | [], [_] => rfl
  | [_], [] => rfl
  | [_], [_] => rfl
  | _ :: _ :: _, _ :: _ :: _ =>
      simp only [visitPathElement, compareAll]
      split <;> rfl
  | _ :: _ :: _, [] => rfl
  | _ :: _ :: _, [r] =>
      simp [visitPathElement, compareAll, CompareWalk.beneath, CompareWalk.append,
        CompareWalk.only, CompareWalk.nothing, ValidationErrors.withPrefix]
  | [], _ :: _ :: _ => rfl
  | [l], _ :: _ :: _ =>
      simp [visitPathElement, compareAll, CompareWalk.beneath, CompareWalk.append,
        CompareWalk.only, CompareWalk.nothing, ValidationErrors.withPrefix]

/-- While there is something under every path element, the loop does not end early. -/
theorem visitPathElements_eq (sc : Schema N) (t : ListType N)
    (lValues rValues : PathElementMap N (List (Value N))) {pes : List (PathElement N)}
    (held : ∀ pe ∈ pes, ¬ ((lValues.get pe).getD [] = [] ∧ (rValues.get pe).getD [] = [])) :
    visitPathElements (visitKid sc) t lValues rValues pes =
      .concat (pes.map fun pe => (compareAll sc t.elementType ((lValues.get pe).getD [])
        ((rValues.get pe).getD [])).beneath pe) := by
  induction pes with
  | nil => rfl
  | cons pe rest ih =>
      rw [visitPathElements, visitPathElement_eq, if_neg (held pe List.mem_cons_self)]
      simp only
      rw [ih fun other member => held other (List.mem_cons_of_mem _ member)]
      rfl

section Lists

variable [Consistent N]

/-- The items of a list under a path element. -/
abbrev itemsAt (sc : Schema N) (t : ListType N) (items : List (Value N)) (pe : PathElement N) :
    List (Value N) :=
  entriesAt (namedItems sc t items) pe

omit [Consistent N] in
/-- Items are found under proper path elements only. -/
theorem itemsAt_of_improper {t : ListType N} (items : List (Value N))
    (improper : pe.isProper = false) : itemsAt sc t items pe = [] := by
  rw [itemsAt, entriesAt_eq_nil]
  intro entry member
  have proper := proper_of_named (mem_of_mem_namedItems member).2
  change entry.1.equals pe = false
  cases pe <;> cases improper
  cases named : entry.1 <;> first | rfl | (rw [named] at proper; cases proper)

private theorem visitListItems_eq (sc : Schema N) (t : ListType N) (lhs rhs : List (Value N)) :
    ∃ (errs : ValidationErrors N) (pes : List (PathElement N)),
      visitListItems sc (visitKid sc) t lhs rhs = (CompareWalk.ofErrors errs).append
        (.concat (pes.map fun pe => (compareAll sc t.elementType (itemsAt sc t lhs pe)
          (itemsAt sc t rhs pe)).beneath pe)) ∧
      (errs = [] ↔ (∀ item ∈ lhs, ∃ pe, listItemToPathElement sc t item = .ok pe) ∧
        ∀ item ∈ rhs, ∃ pe, listItemToPathElement sc t item = .ok pe) ∧
      ∀ wanted, (∃ pe ∈ pes, (pe == wanted) = true) ↔
        itemsAt sc t lhs wanted ≠ [] ∨ itemsAt sc t rhs wanted ≠ [] := by
  have leftFaithful := gather_faithful sc t lhs 0 gather_start_faithful
  have rightFaithful := gather_faithful sc t rhs 0 gather_start_faithful
  rw [List.nil_append] at leftFaithful rightFaithful
  have leftErrs := @gather_errs_eq_nil N _ sc t lhs 0 { values := [], pes := [], errs := [] }
  have rightErrs := @gather_errs_eq_nil N _ sc t rhs 0 { values := [], pes := [], errs := [] }
  unfold visitListItems
  dsimp only
  generalize gather sc t 0 { values := [], pes := [], errs := [] } lhs = left at *
  generalize gather sc t 0 { values := [], pes := [], errs := [] } rhs = right at *
  have leftGet : ∀ pe, (left.values.get pe).getD [] = itemsAt sc t lhs pe := fun pe => by
    rw [leftFaithful.get, gatheredValue_getD]
  have rightGet : ∀ pe, (right.values.get pe).getD [] = itemsAt sc t rhs pe := fun pe => by
    rw [rightFaithful.get, gatheredValue_getD]
  have listed : ∀ wanted, (∃ pe ∈ left.pes ++ right.pes.filter fun pe =>
      (left.values.get pe).isNone, (pe == wanted) = true) ↔
        itemsAt sc t lhs wanted ≠ [] ∨ itemsAt sc t rhs wanted ≠ [] := by
    intro wanted
    rw [← leftFaithful.listed wanted, ← rightFaithful.listed wanted]
    constructor
    · rintro ⟨pe, member, same⟩
      rcases List.mem_append.mp member with inLeft | inRight
      · exact Or.inl ⟨pe, inLeft, same⟩
      · exact Or.inr ⟨pe, (List.mem_filter.mp inRight).1, same⟩
    · rintro (⟨pe, inLeft, same⟩ | ⟨pe, inRight, same⟩)
      · exact ⟨pe, List.mem_append_left _ inLeft, same⟩
      · by_cases inLeft : ∃ pe ∈ left.pes, (pe == wanted) = true
        · obtain ⟨pe, inLeft, same⟩ := inLeft
          exact ⟨pe, List.mem_append_left _ inLeft, same⟩
        · refine ⟨pe, List.mem_append_right _ (List.mem_filter.mpr ⟨inRight, ?_⟩), same⟩
          have missing : entriesAt (namedItems sc t lhs) wanted = [] := by
            by_contra present
            exact inLeft ((leftFaithful.listed wanted).mpr present)
          rw [leftFaithful.get, entriesAt_congr _ same, missing]
          rfl
  have held : ∀ pe ∈ left.pes ++ right.pes.filter fun pe => (left.values.get pe).isNone,
      ¬ ((left.values.get pe).getD [] = [] ∧ (right.values.get pe).getD [] = []) := by
    intro pe member
    rw [leftGet, rightGet, not_and_or]
    exact (listed pe).mp ⟨pe, member, BEq.refl pe⟩
  have walk := visitPathElements_eq sc t left.values right.values held
  simp only [leftGet, rightGet] at walk
  refine ⟨_, _, congrArg _ walk, ?_, listed⟩
  rw [List.append_eq_nil_iff, leftErrs, rightErrs]
  simp

theorem records_visitListItems {t : ListType N} {lhs rhs : List (Value N)} {rest : Path N} :
    (visitListItems sc (visitKid sc) t lhs rhs).Records change (pe :: rest) ↔
      (compareAll sc t.elementType (itemsAt sc t lhs pe) (itemsAt sc t rhs pe)).Records
        change rest := by
  obtain ⟨errs, pes, walk, -, listed⟩ := visitListItems_eq sc t lhs rhs
  rw [walk, CompareWalk.records_append, CompareWalk.records_concat]
  constructor
  · rintro (inErrors | ⟨kid, member, recorded⟩)
    · exact absurd inErrors CompareWalk.records_ofErrors
    · obtain ⟨other, inPes, rfl⟩ := List.mem_map.mp member
      obtain ⟨same, recorded⟩ := CompareWalk.records_beneath_cons.mp recorded
      rwa [itemsAt, itemsAt, entriesAt_congr _ same, entriesAt_congr _ same] at recorded
  · intro recorded
    have present : itemsAt sc t lhs pe ≠ [] ∨ itemsAt sc t rhs pe ≠ [] := by
      by_contra none
      obtain ⟨noLeft, noRight⟩ := not_or.mp none
      rw [not_not.mp noLeft, not_not.mp noRight] at recorded
      exact CompareWalk.records_nothing recorded
    obtain ⟨other, inPes, same⟩ := (listed pe).mpr present
    refine Or.inr ⟨_, List.mem_map.mpr ⟨other, inPes, rfl⟩, ?_⟩
    rw [CompareWalk.records_beneath_cons, itemsAt, itemsAt, entriesAt_congr _ same,
      entriesAt_congr _ same]
    exact ⟨same, recorded⟩

theorem not_records_visitListItems {t : ListType N} {lhs rhs : List (Value N)}
    : ¬ (visitListItems sc (visitKid sc) t lhs rhs).Records change [] := by
  obtain ⟨errs, pes, walk, -, -⟩ := visitListItems_eq sc t lhs rhs
  rw [walk, CompareWalk.records_append, CompareWalk.records_concat]
  rintro (inErrors | ⟨kid, member, recorded⟩)
  · exact CompareWalk.records_ofErrors inErrors
  · obtain ⟨other, inPes, rfl⟩ := List.mem_map.mp member
    exact CompareWalk.records_beneath_nil recorded

theorem errs_visitListItems {t : ListType N} {lhs rhs : List (Value N)} :
    (visitListItems sc (visitKid sc) t lhs rhs).errs = [] ↔
      ((∀ item ∈ lhs, ∃ pe, listItemToPathElement sc t item = .ok pe) ∧
        ∀ item ∈ rhs, ∃ pe, listItemToPathElement sc t item = .ok pe) ∧
      ∀ pe, (compareAll sc t.elementType (itemsAt sc t lhs pe) (itemsAt sc t rhs pe)).errs = [] := by
  obtain ⟨errs, pes, walk, clean, listed⟩ := visitListItems_eq sc t lhs rhs
  rw [walk, CompareWalk.errs_append, CompareWalk.errs_ofErrors, clean, CompareWalk.errs_concat]
  refine and_congr_right fun _ => ⟨?_, ?_⟩
  · intro all pe
    by_cases present : itemsAt sc t lhs pe ≠ [] ∨ itemsAt sc t rhs pe ≠ []
    · obtain ⟨other, inPes, same⟩ := (listed pe).mpr present
      have kid := CompareWalk.errs_beneath.mp (all _ (List.mem_map.mpr ⟨other, inPes, rfl⟩))
      rwa [itemsAt, itemsAt, entriesAt_congr _ same, entriesAt_congr _ same] at kid
    · obtain ⟨noLeft, noRight⟩ := not_or.mp present
      rw [not_not.mp noLeft, not_not.mp noRight]
      rfl
  · intro all kid member
    obtain ⟨other, inPes, rfl⟩ := List.mem_map.mp member
    exact CompareWalk.errs_beneath.mpr (all other)

end Lists

/-! ## Maps -/

omit [Numeric N] in
/-- The value under a key of a map's entries. -/
abbrev valueAt (entries : List (String × Value N)) (name : String) : Option (Value N) :=
  (lookupBy Prod.fst name entries).map Prod.snd

theorem beq_fieldName {name : String} :
    ((PathElement.fieldName name : PathElement N) == pe) = true ↔ pe = .fieldName name := by
  change (PathElement.fieldName name).equals pe = true ↔ _
  cases pe with
  | fieldName other =>
      simp only [PathElement.equals, beq_iff_eq, PathElement.fieldName.injEq]
      exact eq_comm
  | _ => simp [PathElement.equals]

private theorem visitMapItems_eq (sc : Schema N) (t : MapType N)
    (lhs rhs : List (String × Value N)) :
    ∃ names : List String,
      visitMapItems (visitKid sc) t lhs rhs = .concat (names.map fun name =>
        (compareAll sc (t.fieldType name) (valueAt lhs name).toList
          (valueAt rhs name).toList).beneath (.fieldName name)) ∧
      ∀ name, name ∈ names ↔ valueAt lhs name ≠ none ∨ valueAt rhs name ≠ none := by
  have present : ∀ (entries : List (String × Value N)) (name : String),
      name ∈ entries.map Prod.fst ↔ valueAt entries name ≠ none := by
    intro entries name
    rw [valueAt, ne_eq, Option.map_eq_none_iff, lookupBy_eq_none]
    simp
  have listed : ∀ name, name ∈ Value.zipKeys lhs rhs ↔
      valueAt lhs name ≠ none ∨ valueAt rhs name ≠ none := by
    intro name
    rw [Value.mem_zipKeys, present, present]
  refine ⟨Value.zipKeys lhs rhs, ?_, listed⟩
  unfold visitMapItems Value.mapZip
  rw [List.map_map]
  congr 1
  refine List.map_congr_left fun name member => ?_
  rw [compareAll_toList sc _ ((listed name).mp member)]
  rfl

theorem records_visitMapItems {t : MapType N} {lhs rhs : List (String × Value N)} {rest : Path N} :
    (visitMapItems (visitKid sc) t lhs rhs).Records change (pe :: rest) ↔
      ∃ name, pe = .fieldName name ∧ (compareAll sc (t.fieldType name) (valueAt lhs name).toList
        (valueAt rhs name).toList).Records change rest := by
  obtain ⟨names, walk, listed⟩ := visitMapItems_eq sc t lhs rhs
  rw [walk, CompareWalk.records_concat]
  constructor
  · rintro ⟨kid, member, recorded⟩
    obtain ⟨name, -, rfl⟩ := List.mem_map.mp member
    obtain ⟨same, recorded⟩ := CompareWalk.records_beneath_cons.mp recorded
    exact ⟨name, beq_fieldName.mp same, recorded⟩
  · rintro ⟨name, rfl, recorded⟩
    have present : valueAt lhs name ≠ none ∨ valueAt rhs name ≠ none := by
      by_contra none
      obtain ⟨noLeft, noRight⟩ := not_or.mp none
      rw [not_not.mp noLeft, not_not.mp noRight] at recorded
      exact CompareWalk.records_nothing recorded
    refine ⟨_, List.mem_map.mpr ⟨name, (listed name).mpr present, rfl⟩, ?_⟩
    exact CompareWalk.records_beneath_cons.mpr ⟨beq_fieldName.mpr rfl, recorded⟩

theorem not_records_visitMapItems {t : MapType N} {lhs rhs : List (String × Value N)} :
    ¬ (visitMapItems (visitKid sc) t lhs rhs).Records change [] := by
  obtain ⟨names, walk, -⟩ := visitMapItems_eq sc t lhs rhs
  rw [walk, CompareWalk.records_concat]
  rintro ⟨kid, member, recorded⟩
  obtain ⟨name, -, rfl⟩ := List.mem_map.mp member
  exact CompareWalk.records_beneath_nil recorded

theorem errs_visitMapItems {t : MapType N} {lhs rhs : List (String × Value N)} :
    (visitMapItems (visitKid sc) t lhs rhs).errs = [] ↔
      ∀ name, (compareAll sc (t.fieldType name) (valueAt lhs name).toList
        (valueAt rhs name).toList).errs = [] := by
  obtain ⟨names, walk, listed⟩ := visitMapItems_eq sc t lhs rhs
  rw [walk, CompareWalk.errs_concat]
  constructor
  · intro all name
    by_cases present : valueAt lhs name ≠ none ∨ valueAt rhs name ≠ none
    · exact CompareWalk.errs_beneath.mp
        (all _ (List.mem_map.mpr ⟨name, (listed name).mpr present, rfl⟩))
    · obtain ⟨noLeft, noRight⟩ := not_or.mp present
      rw [not_not.mp noLeft, not_not.mp noRight]
      rfl
  · intro all kid member
    obtain ⟨name, -, rfl⟩ := List.mem_map.mp member
    exact CompareWalk.errs_beneath.mpr (all name)

end Compare

end StructuredMergeDiff.Typed
