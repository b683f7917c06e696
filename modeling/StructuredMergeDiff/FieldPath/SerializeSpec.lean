import StructuredMergeDiff.FieldPath.Extensional
import StructuredMergeDiff.FieldPath.Serialize
import StructuredMergeDiff.Library.Insertion
import StructuredMergeDiff.Library.Pairing

/-!
Contract: what is read from a field set that has been written.

The reader inserts what it finds under each path element, in the order of the text. It
does not matter whether it appends or inserts, as long as the path elements that it
reads are in a total order.

Owns: the set that is read, in terms of what the path elements are read as; and that a
faithful codec gives the written set back.
-/

namespace StructuredMergeDiff

open Library Std

namespace FieldSet

variable {N M : Type}

/-! ## The path elements of a set -/

mutual

/-- The path elements of all nodes. -/
def elements : FieldSet N → List (PathElement N)
  | ⟨members, children⟩ => members ++ elementsChildren children

def elementsChildren : List (PathElement N × FieldSet N) → List (PathElement N)
  | [] => []
  | (pe, child) :: rest => pe :: (child.elements ++ elementsChildren rest)

end

theorem mem_elementsChildren {children : List (PathElement N × FieldSet N)}
    {pe : PathElement N} : pe ∈ elementsChildren children ↔
      ∃ node ∈ children, pe = node.1 ∨ pe ∈ node.2.elements := by
  induction children with
  | nil => simp [elementsChildren]
  | cons head tail ih =>
      simp [elementsChildren, ih, or_assoc]

theorem mem_elements {s : FieldSet N} {pe : PathElement N} : pe ∈ s.elements ↔
    pe ∈ s.members ∨ ∃ node ∈ s.children, pe = node.1 ∨ pe ∈ node.2.elements := by
  obtain ⟨members, children⟩ := s
  rw [elements, List.mem_append, mem_elementsChildren]

/-! ## The walk of the writer -/

section Interleave

variable [Numeric N] {members : List (PathElement N)} {children : List (PathElement N × FieldSet N)}

/-- The path elements under which members are written. -/
def writtenMembers (members : List (PathElement N)) (children : List (PathElement N × FieldSet N)) :
    List (PathElement N) :=
  ((interleave.run members children).filter Written.isMember).map Written.pe

/-- Every child is written, with the set beneath it. -/
theorem interleave_children : (interleave.run members children).filterMap
    (fun written => written.beneath.map (Prod.mk written.pe)) = children := by
  apply Join.run_induction (motive := fun _ children (out : List (Written N)) =>
    out.filterMap (fun written => written.beneath.map (Prod.mk written.pe)) = children)
  · rfl
  · intro x xs ys out ih
    simpa [interleave] using ih
  · intro xs y ys out ih
    simpa [interleave] using ih
  · intro x xs y ys out _ _ ih
    simpa [interleave] using ih

/-- Every member is written, under its path element or that of a child. -/
theorem writtenMembers_forall₂ : List.Forall₂ (fun written pe => written = pe ∨
      (∃ node ∈ children, written = node.1) ∧ compare pe written ≠ .lt ∧ compare written pe ≠ .lt)
    (writtenMembers members children) members := by
  unfold writtenMembers
  apply Join.run_induction (motive := fun members (children : List (PathElement N × FieldSet N)) out =>
    List.Forall₂ (fun written pe => written = pe ∨ (∃ node ∈ children, written = node.1) ∧
      compare pe written ≠ .lt ∧ compare written pe ≠ .lt)
      ((out.filter Written.isMember).map Written.pe) members)
  · exact .nil
  · intro x xs ys out ih
    simpa [interleave] using ih
  · intro xs y ys out ih
    simp only [interleave, Option.toList_some, List.singleton_append, Bool.false_eq_true,
      not_false_eq_true, List.filter_cons_of_neg]
    exact ih.imp fun written pe =>
      Or.imp_right fun ⟨⟨node, member, same⟩, sides⟩ => ⟨⟨node, by simp [member], same⟩, sides⟩
  · intro x xs y ys out notBelow notAbove ih
    simp only [interleave, Option.toList_some, List.singleton_append, List.filter_cons_of_pos,
      List.map_cons]
    refine .cons (Or.inr ⟨⟨y, by simp, rfl⟩, notBelow, notAbove⟩) ?_
    exact ih.imp fun written pe =>
      Or.imp_right fun ⟨⟨node, member, same⟩, sides⟩ => ⟨⟨node, by simp [member], same⟩, sides⟩

theorem interleave_eq_nil :
    interleave.run members children = [] ↔ members = [] ∧ children = [] := by
  apply Join.run_induction (motive := fun members children out =>
    out = [] ↔ members = [] ∧ children = [])
  · simp
  · simp [interleave]
  · simp [interleave]
  · simp [interleave]

/-- A member, or a child with the set beneath it. -/
theorem interleave_mem {written : Written N} (member : written ∈ interleave.run members children) :
    (written.pe ∈ members ∧ written.isMember = true ∧ written.beneath = none) ∨
      ∃ node ∈ children, written.pe = node.1 ∧ written.beneath = some node.2 := by
  rcases Join.origin_of_mem_run member with ⟨inLeft, emitted⟩ | ⟨inRight, emitted⟩ |
    ⟨-, inRight, -, -, emitted⟩
  · cases emitted
    exact Or.inl ⟨inLeft, rfl, rfl⟩
  · cases emitted
    exact Or.inr ⟨_, inRight, rfl, rfl⟩
  · cases emitted
    exact Or.inr ⟨_, inRight, rfl, rfl⟩

end Interleave

/-! ## Writing -/

section Writing

variable [Numeric N] (lib : JSONLibrary N M)

private theorem emitBody_descends :
    Descends (fun pair : Bool × FieldSet N => pair.2.depth) (emitBody lib) := by
  rintro first second ⟨includeSelf, s⟩ agree
  have each : (interleave.run s.members s.children).mapM (emitWritten lib first) =
      (interleave.run s.members s.children).mapM (emitWritten lib second) := by
    apply mapM_congr
    intro written member
    unfold emitWritten
    rcases interleave_mem member with ⟨-, -, nothing⟩ | ⟨node, inChildren, -, beneath⟩
    · simp only [nothing]
    · simp only [beneath, agree (written.isMember, node.2) (depth_lt_of_mem inChildren)]
  simp only [emitBody, each]

theorem emitContentsV1_eq (includeSelf : Bool) (s : FieldSet N) :
    emitContentsV1 lib includeSelf s =
      emitBody lib (fun pair => emitContentsV1 lib pair.1 pair.2) (includeSelf, s) :=
  measured_eq (emitBody_descends lib) _ _

omit [Numeric N] in
theorem serializePathElement_ne_dot {pe : PathElement N} {text : String}
    (ok : serializePathElement lib pe = .ok text) : text ≠ "." := by
  intro isDot
  have long := congrArg (fun s => s.toList.length) isDot
  cases pe <;> cases ok <;> simp at long

end Writing

/-! ## Reading -/

section Texts

variable (lib : JSONLibrary N M) (contents : String)

private theorem deserialize_text {kind : Char} (small : kind.utf8Size = 1) :
    deserializePathElement lib (String.ofList [kind, ':'] ++ contents) =
      deserializeContents lib kind contents := by
  have colon : ":".utf8ByteSize = 1 := by decide
  have long : ¬ (String.ofList [kind, ':'] ++ contents).utf8ByteSize < 2 := by
    have marks : (String.ofList [kind, ':']).utf8ByteSize = 2 := by
      simp [String.ofList_cons, small, colon]
    rw [String.utf8ByteSize_append, marks]
    omega
  have chars : (String.ofList [kind, ':'] ++ contents).toList = kind :: ':' :: contents.toList := by
    simp
  simp only [deserializePathElement, if_neg long, chars, small, ne_eq, not_true_eq_false, if_false,
    String.ofList_toList]

theorem deserialize_fieldName :
    deserializePathElement lib ("f:" ++ contents) = .ok (.fieldName contents) :=
  deserialize_text lib contents (by decide)

theorem deserialize_value : deserializePathElement lib ("v:" ++ contents) =
    ((lib.read contents).map .value).mapError .unreadable :=
  deserialize_text lib contents (by decide)

theorem deserialize_key : deserializePathElement lib ("k:" ++ contents) =
    ((lib.readObject contents).map fun fields =>
      .key (FieldList.sort ⟨fields⟩)).mapError .unreadable :=
  deserialize_text lib contents (by decide)

theorem deserialize_index : deserializePathElement lib ("i:" ++ contents) =
    ((lib.atoi contents).map .index).mapError .unreadable :=
  deserialize_text lib contents (by decide)

end Texts

section Slices

variable [Numeric M]

/-- Members that are inserted one after the other: of equal ones the first stays. -/
def insertMembers (entries members : List (PathElement M)) : List (PathElement M) :=
  insertAll id .unset (fun _ found => found) entries members

/-- Children that are inserted one after the other: the last set stays. -/
def insertChildren (entries children : List (PathElement M × FieldSet M)) :
    List (PathElement M × FieldSet M) :=
  insertAll Prod.fst (.unset, nil) (fun node found => (found.1, node.2)) entries children

variable [Consistent M]

theorem addMember_eq (reading : Reading M) (pe : PathElement M)
    (sorted : SortedBy id (reading.children.getD nil).members) :
    reading.addMember pe = { reading with
      children := some ⟨insertMembers [pe] (reading.children.getD nil).members,
        (reading.children.getD nil).children⟩ } := by
  unfold Reading.addMember insertMembers insertAll
  simp only [List.foldl_cons, List.foldl_nil]
  split
  · next allBelow =>
      have below : ∀ last ∈ (reading.children.getD nil).members.getLast?,
          compare (id last) (id pe) = .lt := by
        intro last isLast
        rw [Option.mem_def.mp isLast] at allBelow
        exact eq_of_beq allBelow
      have same : insertBy id .unset (fun found => found) pe (reading.children.getD nil).members =
          (reading.children.getD nil).members ++ [pe] := insertBy_eq_append_of_last sorted below
      rw [same]
  · rfl

theorem addChild_eq (reading : Reading M) (pe : PathElement M) (grandchildren : FieldSet M)
    (sorted : SortedBy Prod.fst (reading.children.getD nil).children) :
    reading.addChild pe grandchildren = { reading with
      children := some ⟨(reading.children.getD nil).members,
        insertChildren [(pe, grandchildren)] (reading.children.getD nil).children⟩ } := by
  unfold Reading.addChild insertChildren insertAll
  simp only [List.foldl_cons, List.foldl_nil]
  split
  · next allBelow =>
      have below : ∀ last ∈ (reading.children.getD nil).children.getLast?,
          compare last.1 (pe, grandchildren).1 = .lt := by
        intro last isLast
        rw [Option.mem_def.mp isLast] at allBelow
        exact eq_of_beq allBelow
      have same : insertBy Prod.fst (.unset, nil) (fun found => (found.1, grandchildren))
          (pe, grandchildren) (reading.children.getD nil).children =
            (reading.children.getD nil).children ++ [(pe, grandchildren)] :=
        insertBy_eq_append_of_last sorted below
      rw [same]
  · rfl

theorem insertMembers_sorted {members : List (PathElement M)} (sorted : SortedBy id members)
    (entries : List (PathElement M)) : SortedBy id (insertMembers entries members) :=
  insertAll_sorted (fun _ _ _ => BEq.refl _) sorted

theorem insertChildren_sorted {children : List (PathElement M × FieldSet M)}
    (sorted : SortedBy Prod.fst children) (entries : List (PathElement M × FieldSet M)) :
    SortedBy Prod.fst (insertChildren entries children) :=
  insertAll_sorted (fun _ _ _ => BEq.refl _) sorted

theorem insertMembers_perm {entries : List (PathElement M)}
    (distinct : entries.Pairwise fun first second => (first == second) = false) :
    (insertMembers entries []).Perm entries := by
  have inserted : (insertMembers entries []).Perm (entries ++ []) :=
    insertAll_perm (fun _ _ _ => BEq.refl _) List.Pairwise.nil distinct (by simp)
  rwa [List.append_nil] at inserted

theorem insertChildren_perm {entries : List (PathElement M × FieldSet M)}
    (distinct : entries.Pairwise fun first second => (first.1 == second.1) = false) :
    (insertChildren entries []).Perm entries := by
  have inserted : (insertChildren entries []).Perm (entries ++ []) :=
    insertAll_perm (fun _ _ _ => BEq.refl _) List.Pairwise.nil distinct (by simp)
  rwa [List.append_nil] at inserted

private theorem keepsMember (entry found : PathElement M) (_ : (id found == id entry) = true) :
    (id found == id found) = true :=
  BEq.refl _

private theorem keepsChild (entry found : PathElement M × FieldSet M)
    (_ : (found.1 == entry.1) = true) : ((found.1, entry.2).1 == found.1) = true :=
  BEq.refl _

theorem insertMembers_length_le (entries : List (PathElement M)) :
    (insertMembers entries []).length ≤ entries.length := by
  have bound : ((insertMembers entries []).map fun _ => 1).sum ≤
      (entries.map fun _ => 1).sum + (([] : List (PathElement M)).map fun _ => 1).sum :=
    weight_insertAll_le keepsMember List.Pairwise.nil fun _ _ => rfl
  simpa using bound

theorem distinct_of_insertMembers {entries : List (PathElement M)}
    (kept : (insertMembers entries []).length = entries.length) :
    entries.Pairwise fun first second => (first == second) = false := by
  have weights : ((insertMembers entries []).map fun _ => 1).sum =
      (entries.map fun _ => 1).sum + (([] : List (PathElement M)).map fun _ => 1).sum := by
    simpa using kept
  exact (distinct_of_weight keepsMember List.Pairwise.nil (fun _ _ => rfl) (by simp) (by simp)
    weights).1

theorem insertChildren_size_le (entries : List (PathElement M × FieldSet M)) :
    ((insertChildren entries []).map fun node => node.2.size).sum ≤
      (entries.map fun node => node.2.size).sum := by
  have bound : ((insertChildren entries []).map fun node => node.2.size).sum ≤
      (entries.map fun node => node.2.size).sum +
        (([] : List (PathElement M × FieldSet M)).map fun node => node.2.size).sum :=
    weight_insertAll_le keepsChild List.Pairwise.nil fun _ _ => rfl
  simpa using bound

theorem distinct_of_insertChildren {entries : List (PathElement M × FieldSet M)}
    (positive : ∀ entry ∈ entries, 0 < entry.2.size)
    (kept : ((insertChildren entries []).map fun node => node.2.size).sum =
      (entries.map fun node => node.2.size).sum) :
    entries.Pairwise fun first second => (first.1 == second.1) = false := by
  have weights : ((insertChildren entries []).map fun node => node.2.size).sum =
      (entries.map fun node => node.2.size).sum +
        (([] : List (PathElement M × FieldSet M)).map fun node => node.2.size).sum := by
    simpa using kept
  exact (distinct_of_weight keepsChild List.Pairwise.nil (fun _ _ => rfl) (by simp) positive
    weights).1

omit [Consistent M] in
theorem insertMembers_append (first second members : List (PathElement M)) :
    insertMembers (first ++ second) members = insertMembers second (insertMembers first members) :=
  List.foldl_append

omit [Consistent M] in
theorem insertChildren_append (first second children : List (PathElement M × FieldSet M)) :
    insertChildren (first ++ second) children =
      insertChildren second (insertChildren first children) :=
  List.foldl_append

end Slices

/-! ## The set that is read -/

section Decode

variable [Numeric N] [Numeric M] (d : PathElement N → PathElement M)

mutual

/-- What is read of a set, if `d` is what its path elements are read as. -/
def decode : FieldSet N → FieldSet M
  | ⟨members, children⟩ =>
      ⟨insertMembers ((writtenMembers members children).map d) [],
        insertChildren (decodeChildren children) []⟩

def decodeChildren : List (PathElement N × FieldSet N) → List (PathElement M × FieldSet M)
  | [] => []
  | (pe, child) :: rest => (d pe, child.decode) :: decodeChildren rest

end

theorem decodeChildren_eq (children : List (PathElement N × FieldSet N)) :
    decodeChildren d children = children.map fun node => (d node.1, node.2.decode d) := by
  induction children with
  | nil => rfl
  | cons head tail ih => rw [decodeChildren, ih, List.map_cons]

theorem decode_eq (s : FieldSet N) : s.decode d =
    ⟨insertMembers ((writtenMembers s.members s.children).map d) [],
      insertChildren (s.children.map fun node => (d node.1, node.2.decode d)) []⟩ := by
  obtain ⟨members, children⟩ := s
  rw [decode, decodeChildren_eq]

/-- The members that are read under a path element. -/
def memberEntry (written : Written N) : List (PathElement M) :=
  if written.isMember then [d written.pe] else []

/-- The children that are read under a path element. -/
def childEntry (written : Written N) : List (PathElement M × FieldSet M) :=
  (written.beneath.map fun set => (d written.pe, set.decode d)).toList

omit [Numeric M] in
theorem flatMap_memberEntry (members : List (PathElement N))
    (children : List (PathElement N × FieldSet N)) :
    (interleave.run members children).flatMap (memberEntry d) =
      (writtenMembers members children).map d := by
  rw [writtenMembers, List.map_map]
  exact flatMap_eq_map_filter fun _ _ => rfl

theorem flatMap_childEntry (members : List (PathElement N))
    (children : List (PathElement N × FieldSet N)) :
    (interleave.run members children).flatMap (childEntry d) =
      children.map fun node => (d node.1, node.2.decode d) := by
  have each : ∀ all : List (Written N), all.flatMap (childEntry d) =
      (all.filterMap fun written => written.beneath.map (Prod.mk written.pe)).map
        fun node => (d node.1, node.2.decode d) := by
    intro all
    induction all with
    | nil => rfl
    | cons written rest ih =>
        rw [List.flatMap_cons, ih, childEntry]
        cases beneath : written.beneath <;> simp [beneath]
  rw [each, interleave_children]

end Decode

section Reads

variable [Numeric N] [Numeric M] [Consistent M] (lib : JSONLibrary N M)
  (d : PathElement N → PathElement M)

/-- The path element is read as `d` has it. -/
def Decodes (pe : PathElement N) : Prop :=
  ∃ text, serializePathElement lib pe = .ok text ∧ deserializePathElement lib text = .ok (d pe)

/-- What is written beneath the path element is read back, and whether it is a member. -/
def ReadsBeneath (emit : Bool × FieldSet N → Except SerializeError (List (String × Document)))
    (written : Written N) : Prop :=
  (written.beneath = none ∧ written.isMember = true) ∨
    ∃ set fields, written.beneath = some set ∧ emit (written.isMember, set) = .ok fields ∧
      readIterV1 lib (.object fields) = ⟨some (set.decode d), written.isMember, none⟩

variable {lib d}

omit [Numeric M] [Consistent M] in
theorem reportError_none (reading : Reading M) : reading.reportError none = reading := by
  obtain ⟨children, isMember, error⟩ := reading
  cases error <;> rfl

theorem field_written {emit : Bool × FieldSet N → Except SerializeError (List (String × Document))}
    {written : Written N} (decodes : Decodes lib d written.pe)
    (reads : ReadsBeneath lib d emit written) (reading : Reading M)
    (sortedMembers : SortedBy id (reading.children.getD nil).members)
    (sortedChildren : SortedBy Prod.fst (reading.children.getD nil).children) :
    ∃ name sub, emitWritten lib emit written = .ok (name, sub) ∧
      reading.field lib name (readIterV1 lib sub) = { reading with
        children := some
          ⟨insertMembers (memberEntry d written) (reading.children.getD nil).members,
            insertChildren (childEntry d written) (reading.children.getD nil).children⟩ } := by
  obtain ⟨name, isName, isRead⟩ := decodes
  have notDot := serializePathElement_ne_dot lib isName
  rcases reads with ⟨nothing, isMember⟩ | ⟨set, fields, beneath, emitted, isSub⟩
  · have emits : emitWritten lib emit written = .ok (name, .object []) := by
      simp only [emitWritten, isName, nothing]
      rfl
    refine ⟨name, .object [], emits, ?_⟩
    have empty : readIterV1 lib (.object []) = ⟨none, true, none⟩ := rfl
    simp only [Reading.field, if_neg notDot, isRead, empty, Reading.add, reportError_none, if_true]
    rw [addMember_eq reading _ sortedMembers, memberEntry, if_pos isMember, childEntry, nothing]
    rfl
  · have emits : emitWritten lib emit written = .ok (name, .object fields) := by
      simp only [emitWritten, isName, beneath, emitted]
      rfl
    refine ⟨name, .object fields, emits, ?_⟩
    simp only [Reading.field, if_neg notDot, isRead, isSub, Reading.add, reportError_none,
      memberEntry, childEntry, beneath]
    cases written.isMember with
    | false => exact addChild_eq reading _ _ sortedChildren
    | true =>
        simp only [if_true]
        rw [addMember_eq reading _ sortedMembers]
        exact addChild_eq _ _ _ sortedChildren

theorem readFields_written
    {emit : Bool × FieldSet N → Except SerializeError (List (String × Document))}
    {all : List (Written N)} (decodes : ∀ written ∈ all, Decodes lib d written.pe)
    (reads : ∀ written ∈ all, ReadsBeneath lib d emit written) (reading : Reading M)
    (sortedMembers : SortedBy id (reading.children.getD nil).members)
    (sortedChildren : SortedBy Prod.fst (reading.children.getD nil).children) :
    ∃ fields, all.mapM (emitWritten lib emit) = .ok fields ∧
      readFields lib fields reading = { reading with
        children := if all = [] then reading.children else some
          ⟨insertMembers (all.flatMap (memberEntry d)) (reading.children.getD nil).members,
            insertChildren (all.flatMap (childEntry d)) (reading.children.getD nil).children⟩ } := by
  induction all generalizing reading with
  | nil => exact ⟨[], rfl, rfl⟩
  | cons written rest ih =>
      obtain ⟨name, sub, emits, isRead⟩ := field_written (decodes written (by simp))
        (reads written (by simp)) reading sortedMembers sortedChildren
      obtain ⟨fields, emitsRest, readRest⟩ := ih
        (fun other member => decodes other (by simp [member]))
        (fun other member => reads other (by simp [member]))
        (reading.field lib name (readIterV1 lib sub))
        (by rw [isRead]; exact insertMembers_sorted sortedMembers _)
        (by rw [isRead]; exact insertChildren_sorted sortedChildren _)
      refine ⟨(name, sub) :: fields, ?_, ?_⟩
      · rw [List.mapM_cons, emits, emitsRest]
        rfl
      · rw [readFields, readRest, isRead]
        simp only [Option.getD_some, List.flatMap_cons, insertMembers_append,
          insertChildren_append, reduceCtorEq, if_false]
        by_cases isLast : rest = []
        · subst isLast
          rfl
        · rw [if_neg isLast]

/-- A canonical set is written, and `decode` is what is read. -/
theorem readFields_emitted {s : FieldSet N} (canonical : s.Canonical)
    (decodes : ∀ pe ∈ s.elements, Decodes lib d pe) (includeSelf : Bool) :
    ∃ fields, emitContentsV1 lib includeSelf s = .ok fields ∧
      readFields lib fields .start =
        if s.members = [] ∧ s.children = [] then .start
        else ⟨some (s.decode d), includeSelf, none⟩ := by
  induction canonical generalizing includeSelf with
  | @intro s _ _ nodes nonEmpty ih =>
      have decodesAll : ∀ written ∈ interleave.run s.members s.children,
          Decodes lib d written.pe := by
        intro written member
        apply decodes
        rw [mem_elements]
        rcases interleave_mem member with ⟨inMembers, -⟩ | ⟨node, inChildren, isNode, -⟩
        · exact Or.inl inMembers
        · exact Or.inr ⟨node, inChildren, Or.inl isNode⟩
      have readsAll : ∀ written ∈ interleave.run s.members s.children, ReadsBeneath lib d
          (fun pair => emitContentsV1 lib pair.1 pair.2) written := by
        intro written member
        rcases interleave_mem member with ⟨-, isMember, nothing⟩ |
          ⟨node, inChildren, -, beneath⟩
        · exact Or.inl ⟨nothing, isMember⟩
        · obtain ⟨fields, emitted, isRead⟩ := ih node inChildren
            (fun pe inNode => decodes pe (mem_elements.mpr (Or.inr ⟨node, inChildren, Or.inr inNode⟩)))
            written.isMember
          have notNil : ¬ (node.2.members = [] ∧ node.2.children = []) := by
            rintro ⟨noMembers, noChildren⟩
            have full := nonEmpty node inChildren
            rw [isEmpty_iff.mpr ⟨noMembers, by simp [noChildren]⟩] at full
            cases full
          rw [if_neg notNil] at isRead
          refine Or.inr ⟨node.2, fields, beneath, emitted, ?_⟩
          rw [readIterV1, isRead]
          rfl
      obtain ⟨fields, emits, isRead⟩ := readFields_written decodesAll readsAll
        ⟨none, includeSelf, none⟩ List.Pairwise.nil List.Pairwise.nil
      by_cases empty : s.members = [] ∧ s.children = []
      · refine ⟨[], ?_, by rw [if_pos empty]; rfl⟩
        rw [emitContentsV1_eq, emitBody, interleave_eq_nil.mpr empty, empty.1, empty.2]
        cases includeSelf <;> rfl
      · rw [if_neg empty]
        rw [if_neg (mt interleave_eq_nil.mp empty), flatMap_memberEntry, flatMap_childEntry] at isRead
        have filled : (s.members.isEmpty && s.children.isEmpty) = false := by
          rw [Bool.eq_false_iff]
          simpa using empty
        cases includeSelf with
        | false =>
            refine ⟨fields, ?_, ?_⟩
            · rw [emitContentsV1_eq, emitBody, emits]
              rfl
            · rw [decode_eq]
              exact isRead
        | true =>
            refine ⟨(".", .object []) :: fields, ?_, ?_⟩
            · rw [emitContentsV1_eq, emitBody, emits, filled]
              rfl
            · rw [decode_eq]
              exact isRead

/-- What `FromJSON` makes of what `ToJSON` has written. -/
theorem fromJSON_toJSON {s : FieldSet N} (canonical : s.Canonical)
    (decodes : ∀ pe ∈ s.elements, Decodes lib d pe) :
    ∃ document, s.toJSON lib = .ok document ∧ fromJSON lib document = (s.decode d, none) := by
  obtain ⟨fields, emitted, isRead⟩ := readFields_emitted canonical decodes false
  refine ⟨.object fields, by rw [toJSON, emitted]; rfl, ?_⟩
  rw [fromJSON, readIterV1, isRead]
  split
  · next empty =>
      rw [decode_eq, empty.1, empty.2]
      rfl
  · rfl

end Reads

end FieldSet

end StructuredMergeDiff
