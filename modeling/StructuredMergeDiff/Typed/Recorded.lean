import StructuredMergeDiff.Typed.CompareSpec

/-!
Contract: the paths that `ToFieldSet` records.

Owns: what the walk records for a value itself and beneath each path element, for
any value, duplicates included.
-/

namespace StructuredMergeDiff.Typed

open Library Std

variable {N : Type} [Numeric N] {pe : PathElement N}

namespace FieldSetWalk

/-- The walk records the path. -/
def Records (walk : FieldSetWalk N) (path : Path N) : Prop :=
  ∃ recorded ∈ walk.paths, (recorded == path) = true

section Records

variable {path : Path N}

@[simp] theorem records_nothing : ¬ (nothing : FieldSetWalk N).Records path := by
  simp [Records, nothing]

@[simp] theorem records_self : (self : FieldSetWalk N).Records path ↔ path = [] := by
  cases path <;> simp [Records, self]

@[simp] theorem records_append {first second : FieldSetWalk N} :
    (first.append second).Records path ↔ first.Records path ∨ second.Records path := by
  simp [Records, append, or_and_right, exists_or]

theorem records_concat {walks : List (FieldSetWalk N)} :
    (concat walks).Records path ↔ ∃ walk ∈ walks, walk.Records path := by
  induction walks with
  | nil => simp [concat]
  | cons walk rest ih =>
      have split : concat (walk :: rest) = walk.append (concat rest) := rfl
      rw [split, records_append, ih]
      simp

theorem records_beneath_cons {pe wanted : PathElement N} {walk : FieldSetWalk N} :
    (walk.beneath pe).Records (wanted :: path) ↔ (pe == wanted) = true ∧ walk.Records path := by
  simp [Records, beneath, and_left_comm]

@[simp] theorem records_beneath_nil {walk : FieldSetWalk N} :
    ¬ (walk.beneath pe).Records [] := by
  simp [Records, beneath]

end Records

end FieldSetWalk

/-- `ToFieldSet` records the path for the node. -/
def Recorded (sc : Schema N) (n : Node N) (path : Path N) : Prop :=
  (toFieldSetWalk sc n.type n.value).Records path

/-- A child that is recorded whatever it holds. -/
def Kid.alwaysRecorded (k : Kid N) : Bool :=
  k.named || ToFieldSet.isNullOrEmptyMap k.value

omit [Numeric N] in
theorem kids_of_isNullOrEmptyMap {sc : Schema N} {n : Node N}
    (hollow : ToFieldSet.isNullOrEmptyMap n.value = true) : kids sc n = [] := by
  have nothing : n.value.items = [] ∧ n.value.entries = [] := by
    cases held : n.value <;>
      simp_all [ToFieldSet.isNullOrEmptyMap, Value.isNull, Value.isMap, Value.items, Value.entries]
  unfold kids
  split
  · exact kidsOf_eq_nil _ nothing.1 nothing.2
  · rfl

/-- What is recorded beneath a path element with these children: duplicates are
recorded together, and nothing beneath them. -/
def RecordedKids (sc : Schema N) (ks : List (Kid N)) (rest : Path N) : Prop :=
  match ks with
  | [] => False
  | [k] => Recorded sc k.node rest ∨ (rest = [] ∧ k.alwaysRecorded = true)
  | _ :: _ :: _ => rest = []

section Level

variable [Consistent N] {sc : Schema N}

private theorem records_items {t : ListType N} {items : List (Value N)} {rest : Path N} :
    (ToFieldSet.visitListItems sc (fun pair => toFieldSetWalk sc pair.1 pair.2) t items).Records
        (pe :: rest) ↔
      (rest = [] ∧ 2 ≤ ToFieldSet.occurrences (items.map (itemPathElement sc t)) pe) ∨
        ∃ item ∈ items, ¬ 2 ≤ ToFieldSet.occurrences (items.map (itemPathElement sc t)) pe ∧
          (itemPathElement sc t item == pe) = true ∧
          (Recorded sc ⟨t.elementType, item⟩ rest ∨ rest = []) := by
  have faithful := ToFieldSet.DuplicateScan.run_faithful (items.map (itemPathElement sc t))
  have scanned : (∃ recorded ∈ (ToFieldSet.DuplicateScan.run
        (items.map (itemPathElement sc t))).paths, (recorded == pe :: rest) = true) ↔
      rest = [] ∧ 2 ≤ ToFieldSet.occurrences (items.map (itemPathElement sc t)) pe := by
    rw [faithful.paths, ← faithful.duplicates]
    constructor
    · rintro ⟨other, same, twice⟩
      cases same
      exact ⟨rfl, twice⟩
    · rintro ⟨rfl, twice⟩
      exact ⟨pe, rfl, twice⟩
  unfold ToFieldSet.visitListItems
  rw [FieldSetWalk.records_append, FieldSetWalk.records_concat]
  refine or_congr scanned ?_
  simp only [List.mem_map, exists_exists_and_eq_and]
  refine exists_congr fun item => and_congr_right fun member => ?_
  by_cases same : (itemPathElement sc t item == pe) = true
  · have counted := ToFieldSet.occurrences_congr (items.map (itemPathElement sc t)) same
    by_cases twice : 2 ≤ ToFieldSet.occurrences (items.map (itemPathElement sc t)) pe
    · rw [if_pos ((faithful.duplicates _).mpr (counted ▸ twice))]
      simp [twice]
    · have once : ¬ FieldSet.membersHas (ToFieldSet.DuplicateScan.run
          (items.map (itemPathElement sc t))).duplicates (itemPathElement sc t item) = true := by
        rw [faithful.duplicates, counted]
        exact twice
      rw [if_neg once, FieldSetWalk.records_beneath_cons, FieldSetWalk.records_append,
        FieldSetWalk.records_self]
      simp only [twice, not_false_eq_true, true_and]
      rfl
  · have nothing : ∀ walk : FieldSetWalk N,
        ¬ (walk.beneath (itemPathElement sc t item)).Records (pe :: rest) := by
      intro walk recorded
      exact same (FieldSetWalk.records_beneath_cons.mp recorded).1
    simp only [same, Bool.false_eq_true, false_and, and_false, iff_false]
    split
    · exact FieldSetWalk.records_nothing
    · exact nothing _

private theorem records_visitListItems {t : ListType N} {items : List (Value N)} {rest : Path N} :
    (ToFieldSet.visitListItems sc (fun pair => toFieldSetWalk sc pair.1 pair.2) t items).Records
        (pe :: rest) ↔
      RecordedKids sc ((items.map (listKid sc t)).filter fun k => k.pe == pe) rest := by
  have count : ToFieldSet.occurrences (items.map (itemPathElement sc t)) pe =
      ((items.map (listKid sc t)).filter fun k => k.pe == pe).length := by
    rw [ToFieldSet.occurrences, ← List.countP_eq_length_filter, List.countP_map, List.countP_map]
    rfl
  have among : ∀ k, k ∈ ((items.map (listKid sc t)).filter fun k => k.pe == pe) ↔
      ∃ item ∈ items, (itemPathElement sc t item == pe) = true ∧ listKid sc t item = k := by
    intro k
    simp only [List.mem_filter, List.mem_map]
    constructor
    · rintro ⟨⟨item, member, rfl⟩, same⟩
      exact ⟨item, member, same, rfl⟩
    · rintro ⟨item, member, same, rfl⟩
      exact ⟨⟨item, member, rfl⟩, same⟩
  rw [records_items, count]
  generalize ((items.map (listKid sc t)).filter fun k => k.pe == pe) = ks at among
  match ks with
  | [] =>
      show _ ↔ False
      rw [iff_false]
      rintro (⟨-, twice⟩ | ⟨item, member, -, same, -⟩)
      · exact absurd twice (by simp)
      · exact List.not_mem_nil ((among _).mpr ⟨item, member, same, rfl⟩)
  | [k] =>
      obtain ⟨item, member, same, rfl⟩ := (among k).mp (List.mem_singleton.mpr rfl)
      show _ ↔ Recorded sc ⟨t.elementType, item⟩ rest ∨ (rest = [] ∧ true = true)
      constructor
      · rintro (⟨-, twice⟩ | ⟨other, inItems, -, sameOther, recorded⟩)
        · exact absurd twice (by simp)
        · have only := List.mem_singleton.mp ((among _).mpr ⟨other, inItems, sameOther, rfl⟩)
          have equal : other = item := congrArg Kid.value only
          subst equal
          exact recorded.imp_right fun root => ⟨root, rfl⟩
      · intro recorded
        exact Or.inr ⟨item, member, by simp, same, recorded.imp_right And.left⟩
  | first :: second :: others =>
      show _ ↔ rest = []
      have twice : 2 ≤ (first :: second :: others).length := by simp
      constructor
      · rintro (⟨root, -⟩ | ⟨_, _, notTwice, -⟩)
        · exact root
        · exact absurd twice notTwice
      · exact fun root => Or.inl ⟨root, twice⟩

omit [Consistent N] in
private theorem records_entries {t : MapType N} {entries : List (String × Value N)}
    {rest : Path N} :
    (ToFieldSet.visitMapItems (fun pair => toFieldSetWalk sc pair.1 pair.2) t entries).Records
        (pe :: rest) ↔
      ∃ entry ∈ entries, ((mapKid t entry).pe == pe) = true ∧
        (Recorded sc (mapKid t entry).node rest ∨
          (rest = [] ∧ (mapKid t entry).alwaysRecorded = true)) := by
  unfold ToFieldSet.visitMapItems
  rw [FieldSetWalk.records_concat]
  simp only [List.mem_map, exists_exists_and_eq_and]
  refine exists_congr fun entry => and_congr_right fun _ => ?_
  rw [FieldSetWalk.records_beneath_cons]
  refine and_congr Iff.rfl ?_
  show _ ↔ (toFieldSetWalk sc (t.fieldType entry.1) entry.2).Records rest ∨
    (rest = [] ∧ ((t.findField entry.1).isNone || ToFieldSet.isNullOrEmptyMap entry.2) = true)
  split
  · next isEmpty => simp [isEmpty]
  · next notEmpty =>
      split
      · next undeclared => simp [undeclared]
      · next declared => simp [notEmpty, declared]

omit [Consistent N] in
private theorem records_visitMapItems {t : MapType N} {v : Value N} {rest : Path N} :
    (ToFieldSet.visitMapItems (fun pair => toFieldSetWalk sc pair.1 pair.2) t v.entries).Records
        (pe :: rest) ↔
      RecordedKids sc ((v.entries.map (mapKid t)).filter fun k => k.pe == pe) rest := by
  have among : ∀ k, k ∈ ((v.entries.map (mapKid t)).filter fun k => k.pe == pe) ↔
      ∃ entry ∈ v.entries, ((mapKid t entry).pe == pe) = true ∧ mapKid t entry = k := by
    intro k
    simp only [List.mem_filter, List.mem_map]
    constructor
    · rintro ⟨⟨entry, member, rfl⟩, same⟩
      exact ⟨entry, member, same, rfl⟩
    · rintro ⟨entry, member, same, rfl⟩
      exact ⟨⟨entry, member, rfl⟩, same⟩
  have short : ((v.entries.map (mapKid t)).filter fun k => k.pe == pe).length ≤ 1 := by
    rw [List.filter_map, List.length_map]
    by_cases isField : ∃ name, pe = .fieldName name
    · obtain ⟨name, rfl⟩ := isField
      have keys : (fun k : Kid N => k.pe == .fieldName name) ∘ mapKid t =
          fun entry => entry.1 == name := by
        funext entry
        rw [Bool.eq_iff_iff]
        show ((PathElement.fieldName entry.1 : PathElement N) == .fieldName name) = true ↔ _
        rw [Compare.beq_fieldName, PathElement.fieldName.injEq, beq_iff_eq, eq_comm]
      rw [keys, filter_key_eq v.entries_sorted]
      cases lookupBy Prod.fst name v.entries <;> simp
    · rw [List.filter_eq_nil_iff.mpr]
      · exact Nat.zero_le 1
      · exact fun entry _ same => isField ⟨entry.1, Compare.beq_fieldName.mp same⟩
  rw [records_entries]
  generalize ((v.entries.map (mapKid t)).filter fun k => k.pe == pe) = ks at among short
  rcases ks with _ | ⟨k, _ | ⟨_, _⟩⟩
  · show _ ↔ False
    rw [iff_false]
    rintro ⟨entry, member, same, -⟩
    exact List.not_mem_nil ((among _).mpr ⟨entry, member, same, rfl⟩)
  · obtain ⟨entry, member, same, rfl⟩ := (among k).mp (List.mem_singleton.mpr rfl)
    constructor
    · rintro ⟨other, inEntries, sameOther, recorded⟩
      have only := List.mem_singleton.mp ((among _).mpr ⟨other, inEntries, sameOther, rfl⟩)
      rw [only] at recorded
      exact recorded
    · exact fun recorded => ⟨entry, member, same, recorded⟩
  · simp at short

private theorem not_records_visitListItems {t : ListType N} {items : List (Value N)} :
    ¬ (ToFieldSet.visitListItems sc (fun pair => toFieldSetWalk sc pair.1 pair.2) t items).Records
      [] := by
  have faithful := ToFieldSet.DuplicateScan.run_faithful (items.map (itemPathElement sc t))
  unfold ToFieldSet.visitListItems
  rw [FieldSetWalk.records_append, FieldSetWalk.records_concat]
  rintro (scanned | ⟨walk, member, recorded⟩)
  · obtain ⟨pe, isRoot, -⟩ := (faithful.paths []).mp scanned
    cases isRoot
  · obtain ⟨item, -, rfl⟩ := List.mem_map.mp member
    dsimp only at recorded
    split at recorded
    · exact FieldSetWalk.records_nothing recorded
    · exact FieldSetWalk.records_beneath_nil recorded

omit [Consistent N] in
private theorem not_records_visitMapItems {t : MapType N} {entries : List (String × Value N)} :
    ¬ (ToFieldSet.visitMapItems (fun pair => toFieldSetWalk sc pair.1 pair.2) t entries).Records
      [] := by
  unfold ToFieldSet.visitMapItems
  rw [FieldSetWalk.records_concat]
  rintro ⟨walk, member, recorded⟩
  obtain ⟨entry, -, rfl⟩ := List.mem_map.mp member
  exact FieldSetWalk.records_beneath_nil recorded

theorem recorded_root (n : Node N) : Recorded sc n [] ↔ holdsItself sc n = true := by
  obtain ⟨tr, v⟩ := n
  unfold Recorded holdsItself
  rw [toFieldSetWalk_eq]
  simp only [ToFieldSet.body]
  cases resolveSchema sc tr v with
  | error message => simp [FieldSetWalk.Records]
  | ok alternative =>
      cases alternative with
      | scalar t => simp [Alternative.isLeaf]
      | list t =>
          simp only [ToFieldSet.doList, Alternative.isLeaf]
          split
          · next atomic => simp [atomic]
          · next granular =>
              simp only [granular, decide_false, Bool.false_eq_true, iff_false]
              split
              · exact not_records_visitListItems
              · simp
      | map t =>
          simp only [ToFieldSet.doMap, Alternative.isLeaf]
          split
          · next atomic => simp [atomic]
          · next granular =>
              simp only [granular, decide_false, Bool.false_eq_true, iff_false]
              split
              · exact not_records_visitMapItems
              · simp

theorem recorded_cons (n : Node N) (pe : PathElement N) (rest : Path N) :
    Recorded sc n (pe :: rest) ↔ RecordedKids sc (kidsAt sc n pe) rest := by
  obtain ⟨tr, v⟩ := n
  unfold Recorded kidsAt kids
  rw [toFieldSetWalk_eq]
  simp only [ToFieldSet.body]
  cases resolveSchema sc tr v with
  | error message => simp [FieldSetWalk.Records, RecordedKids]
  | ok alternative =>
      cases alternative with
      | scalar t => simp [kidsOf, RecordedKids]
      | list t =>
          simp only [ToFieldSet.doList, kidsOf]
          split
          · simp [RecordedKids]
          · split
            · exact records_visitListItems
            · next notList =>
                have none : v.items = [] := by
                  cases v <;> first | rfl | exact absurd rfl (notList _)
                simp [none, RecordedKids]
      | map t =>
          simp only [ToFieldSet.doMap, kidsOf]
          split
          · simp [RecordedKids]
          · split
            · exact records_visitMapItems
            · next notMap =>
                have none : v.entries = [] := by
                  cases v <;> first | rfl | exact absurd rfl (notMap _)
                simp [none, RecordedKids]

end Level

end StructuredMergeDiff.Typed
