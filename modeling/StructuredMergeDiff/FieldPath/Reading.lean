import StructuredMergeDiff.FieldPath.Rounding

/-!
Contract: the field set that is read from any JSON object.

The fields may come in any order, a path element may occur more than once and in several
spellings, and fields of unknown kinds are left out. What is read is always well formed.
Of the objects under one path element every one counts for whether it is a member, and the
last one that has anything beneath it for what is beneath it.

Owns: what `readIterV1` reads, and what of it does not depend on fields of unknown kinds.
Does not own: objects that were written from a set (`FieldPath.SerializeSpec`).
-/

namespace StructuredMergeDiff

open Library Std

/-! ## Objects at paths -/

namespace Document

/-- The fields of the object; null is read like an object without fields. -/
def fields : Document → List (String × Document)
  | .object fields => fields
  | .null => []

/-- The object says itself that its path is a member: it is empty, or has the field `"."`. -/
def marked (document : Document) : Bool :=
  document.fields.isEmpty || document.fields.any fun field => field.1 == "."

variable {N M : Type} (lib : JSONLibrary N M)

/-- The path element that a field is for, if it is of a known kind. -/
def element? (field : String × Document) : Option (PathElement M) :=
  if field.1 = "." then none else (deserializePathElement lib field.1).toOption

/-- Is anything in the object of a known kind? -/
def hasKnown (document : Document) : Bool :=
  document.fields.any fun field => (element? lib field).isSome

variable [Numeric M]

/-- Is this a field for the path element? -/
def isFor (pe : PathElement M) (field : String × Document) : Bool :=
  (element? lib field).any (· == pe)

/-- The object at a path, which leads through the last field for each path element. -/
def at? : Document → Path M → Option Document
  | document, [] => some document
  | document, pe :: rest =>
      match document.fields.reverse.find? (isFor lib pe) with
      | some field => at? field.2 rest
      | none => none

end Document

variable {document : Document} {field : String × Document}

namespace FieldSet

variable {N M : Type} [Numeric M] {lib : JSONLibrary N M} {pe : PathElement M}

/-! ## One field -/

/-- The set with other paths beneath `pe`. -/
def replaceBeneath (s : FieldSet M) (pe : PathElement M) (beneath : FieldSet M) : FieldSet M :=
  { s with children := descend pe (fun _ => beneath) s.children }

/-- What has been read is well formed, and there only if it is not empty. -/
structure Reading.Sound (reading : Reading M) : Prop where
  canonical : (reading.children.getD nil).Canonical
  nonEmpty : ∀ s, reading.children = some s → s.isEmpty = false

section Lawful

variable [Consistent M] {reading : Reading M}

theorem addMember_insert (sound : reading.Sound) (pe : PathElement M) :
    reading.addMember pe =
      { reading with children := some ((reading.children.getD nil).insert [pe]) } :=
  addMember_eq reading pe sound.canonical.members

theorem addChild_replaceBeneath (sound : reading.Sound) (pe : PathElement M)
    (grandchildren : FieldSet M) :
    reading.addChild pe grandchildren =
      { reading with
        children := some ((reading.children.getD nil).replaceBeneath pe grandchildren) } :=
  addChild_eq reading pe grandchildren sound.canonical.children

theorem replaceBeneath_canonical {s beneath : FieldSet M} (canonical : s.Canonical)
    (pe : PathElement M) (canonicalBeneath : beneath.Canonical) (nonEmpty : beneath.isEmpty = false) :
    (s.replaceBeneath pe beneath).Canonical := by
  have nodes : ∀ node ∈ (s.replaceBeneath pe beneath).children,
      node.2.Canonical ∧ node.2.isEmpty = false := by
    intro node member
    simp only [replaceBeneath, descend] at member
    rcases mem_insertBy canonical.children member with old | rfl | ⟨found, old, -, rfl⟩
    · exact ⟨canonical.nodes node old, canonical.nonEmpty node old⟩
    · exact ⟨canonicalBeneath, nonEmpty⟩
    · exact ⟨canonicalBeneath, nonEmpty⟩
  exact .intro canonical.members
    (insertBy_sorted canonical.children _ _ _ (fun other _ => BEq.refl other.1))
    (fun node member => (nodes node member).1) (fun node member => (nodes node member).2)

theorem withPrefix_replaceBeneath {s beneath : FieldSet M} (canonical : s.Canonical)
    (canonicalResult : (s.replaceBeneath pe beneath).Canonical) (target : PathElement M) :
    (s.replaceBeneath pe beneath).withPrefix target =
      if pe == target then beneath else s.withPrefix target := by
  rw [withPrefix_eq canonicalResult, withPrefix_eq canonical]
  exact lookupBy_descend canonical.children pe target fun _ => beneath

theorem replaceBeneath_isEmpty {s beneath : FieldSet M} (canonical : s.Canonical)
    (canonicalResult : (s.replaceBeneath pe beneath).Canonical) (nonEmpty : beneath.isEmpty = false)
    : (s.replaceBeneath pe beneath).isEmpty = false := by
  rw [Bool.eq_false_iff]
  intro empty
  have found := withPrefix_replaceBeneath canonical canonicalResult pe
  rw [if_pos (BEq.refl pe), canonicalResult.eq_nil empty] at found
  rw [← found] at nonEmpty
  cases nonEmpty

/-- What one field changes: the path elements that are members, and what is beneath each. -/
structure Reading.Adds (before after : Reading M) (pe : PathElement M) (sub : Reading M) : Prop where
  sound : after.Sound
  some : after.children.isSome = true
  isMember : after.isMember = before.isMember
  member : ∀ target, (after.children.getD nil).has [target] =
    ((before.children.getD nil).has [target] || pe == target && sub.isMember)
  beneath : ∀ target, (after.children.getD nil).withPrefix target =
    if pe == target then sub.children.getD ((before.children.getD nil).withPrefix target)
    else (before.children.getD nil).withPrefix target

theorem Reading.Sound.addMember (sound : reading.Sound) (pe : PathElement M)
    : (reading.addMember pe).Sound := by
  obtain ⟨canonical, nonEmpty⟩ := insert_canonical sound.canonical [pe]
  rw [addMember_insert sound]
  exact ⟨canonical, fun s isSet => Option.some.inj isSet ▸ nonEmpty (by simp)⟩

theorem Reading.Sound.addChild (sound : reading.Sound) (pe : PathElement M)
    {grandchildren : FieldSet M} (canonical : grandchildren.Canonical)
    (nonEmpty : grandchildren.isEmpty = false) : (reading.addChild pe grandchildren).Sound := by
  have canonicalResult := replaceBeneath_canonical sound.canonical pe canonical nonEmpty
  rw [addChild_replaceBeneath sound]
  exact ⟨canonicalResult, fun s isSet => Option.some.inj isSet ▸
    replaceBeneath_isEmpty sound.canonical canonicalResult nonEmpty⟩

omit [Consistent M] in
theorem Reading.Sound.reportError (sound : reading.Sound) (err : Option DeserializeError)
    : (reading.reportError err).Sound :=
  ⟨sound.canonical, sound.nonEmpty⟩

private theorem member_added (sound : reading.Sound) (pe : PathElement M) (isMember : Bool) :
    ∃ after : Reading M, (if isMember then reading.addMember pe else reading) = after ∧
      after.Sound ∧ (isMember = true → after.children.isSome = true) ∧
      after.isMember = reading.isMember ∧
      (∀ target, (after.children.getD nil).has [target] =
        ((reading.children.getD nil).has [target] || pe == target && isMember)) ∧
      ∀ target, (after.children.getD nil).withPrefix target =
        (reading.children.getD nil).withPrefix target := by
  cases isMember with
  | false => exact ⟨reading, rfl, sound, by simp, rfl, by simp, fun _ => rfl⟩
  | true =>
      refine ⟨reading.addMember pe, rfl, sound.addMember pe, ?_⟩
      rw [addMember_insert sound]
      refine ⟨fun _ => rfl, rfl, fun target => ?_, fun _ => rfl⟩
      show ((reading.children.getD nil).insert [pe]).has [target] = _
      rw [has_insert sound.canonical (by simp)]
      simp

theorem Reading.add_adds {reading sub : Reading M} (sound : reading.Sound) (soundSub : sub.Sound)
    (there : sub.isMember = true ∨ sub.children.isSome = true) (pe : PathElement M) :
    reading.Adds (reading.add pe sub) pe sub := by
  obtain ⟨after, isAfter, soundAfter, some, isMember, member, beneath⟩ :=
    member_added (sound.reportError sub.error) pe sub.isMember
  unfold Reading.add
  dsimp only
  rw [isAfter]
  cases isSub : sub.children with
  | none =>
      refine ⟨soundAfter, some (there.resolve_right (by simp [isSub])), isMember, member,
        fun target => ?_⟩
      rw [beneath, isSub, Option.getD_none, ite_self]
      rfl
  | some grandchildren =>
      have canonical : grandchildren.Canonical := by simpa [isSub] using soundSub.canonical
      have nonEmpty := soundSub.nonEmpty grandchildren isSub
      have soundResult := soundAfter.addChild pe canonical nonEmpty
      dsimp only
      rw [addChild_replaceBeneath soundAfter] at soundResult ⊢
      refine ⟨soundResult, rfl, isMember, member, fun target => ?_⟩
      show ((after.children.getD nil).replaceBeneath pe grandchildren).withPrefix target = _
      rw [withPrefix_replaceBeneath soundAfter.canonical soundResult.canonical, beneath, isSub]
      rfl

/-! ## All fields -/

variable (lib)

/-- What the fields put beneath a path element: each one that has anything beneath it takes
the place of those before it. -/
def beneathAfter (pe : PathElement M) (fields : List (String × Document)) (start : FieldSet M) :
    FieldSet M :=
  fields.foldl (fun s field =>
    if Document.isFor lib pe field then (readIterV1 lib field.2).children.getD s else s) start

/-- What the fields change. -/
structure Reads (before after : Reading M) (fields : List (String × Document)) : Prop where
  sound : after.Sound
  some : after.children.isSome = (before.children.isSome ||
    fields.any fun field => (Document.element? lib field).isSome)
  isMember : after.isMember = (before.isMember || fields.any fun field => field.1 == ".")
  member : ∀ target, (after.children.getD nil).has [target] =
    ((before.children.getD nil).has [target] || fields.any fun field =>
      Document.isFor lib target field && (readIterV1 lib field.2).isMember)
  beneath : ∀ target, (after.children.getD nil).withPrefix target =
    beneathAfter lib target fields ((before.children.getD nil).withPrefix target)

variable {lib}

omit [Consistent M] in
theorem Reads.cons {before middle after : Reading M} {rest : List (String × Document)}
    (first : Reads lib before middle [field]) (others : Reads lib middle after rest)
    : Reads lib before after (field :: rest) where
  sound := others.sound
  some := by rw [others.some, first.some]; simp [Bool.or_assoc]
  isMember := by rw [others.isMember, first.isMember]; simp [Bool.or_assoc]
  member target := by rw [others.member, first.member]; simp [Bool.or_assoc]
  beneath target := by rw [others.beneath, first.beneath]; rfl

theorem field_reads {before : Reading M} (sound : before.Sound) (name : String) (sub : Document)
    (soundSub : (readIterV1 lib sub).Sound)
    (there : (readIterV1 lib sub).isMember = true ∨ (readIterV1 lib sub).children.isSome = true) :
    Reads lib before (before.field lib name (readIterV1 lib sub)) [(name, sub)] := by
  -- a field that is not for any path element changes nothing beneath them
  have skipped : Document.element? lib (name, sub) = none → ∀ after : Reading M,
      after.children = before.children →
      after.isMember = (before.isMember || name == ".") → Reads lib before after [(name, sub)] := by
    intro none after same isMember
    have notFor : ∀ target, Document.isFor lib target (name, sub) = false := by
      intro target
      rw [Document.isFor, none]
      rfl
    refine ⟨⟨same ▸ sound.canonical, same ▸ sound.nonEmpty⟩, ?_, ?_, ?_, ?_⟩
    · simp [same, none]
    · simp [isMember]
    · simp [same, notFor]
    · intro target
      simp [same, beneathAfter, notFor]
  unfold Reading.field
  split
  · next isDot => exact skipped (by simp [Document.element?, isDot]) _ rfl (by simp [isDot])
  · next notDot =>
      have noDot : (name == ".") = false := by simpa using notDot
      split
      · next pe isElement =>
          have known : Document.element? lib (name, sub) = some pe := by
            simp [Document.element?, notDot, isElement, Except.toOption]
          have isFor : ∀ target, Document.isFor lib target (name, sub) = (pe == target) := by
            intro target
            rw [Document.isFor, known]
            rfl
          have adds := Reading.add_adds sound soundSub there pe
          refine ⟨adds.sound, ?_, ?_, ?_, ?_⟩
          · simp [adds.some, known]
          · simp [adds.isMember, noDot]
          · intro target
            simp [adds.member, isFor]
          · intro target
            simp [adds.beneath, beneathAfter, isFor]
      · next unknown =>
          exact skipped (by simp [Document.element?, unknown, Except.toOption]) _ rfl
            (by simp [noDot])
      · next failed =>
          exact skipped (by simp [Document.element?, failed, Except.toOption]) _ rfl
            (by simp [noDot, Reading.reportError])

omit [Consistent M] in
theorem start_sound : (Reading.start : Reading M).Sound :=
  ⟨nil_canonical, by simp [Reading.start]⟩

omit [Consistent M] in
theorem Reading.Sound.finish (sound : reading.Sound) :
    reading.finish.Sound ∧ (reading.finish.isMember = true ∨
      reading.finish.children.isSome = true) := by
  unfold Reading.finish
  split
  · exact ⟨⟨sound.canonical, sound.nonEmpty⟩, Or.inl rfl⟩
  · next there => exact ⟨sound, Or.inr (by simpa [Option.isNone_iff_eq_none,
      Option.isSome_iff_ne_none] using there)⟩

end Lawful

mutual

/-- What is read of an object is well formed; the object is for a member, or has something
beneath it. -/
theorem readIterV1_sound [Consistent M] : ∀ document : Document,
    (readIterV1 lib document).Sound ∧ ((readIterV1 lib document).isMember = true ∨
      (readIterV1 lib document).children.isSome = true)
  | .null => start_sound.finish
  | .object fields => (readFields_reads fields Reading.start start_sound).sound.finish

theorem readFields_reads [Consistent M] : ∀ (fields : List (String × Document))
    (before : Reading M), before.Sound → Reads lib before (readFields lib fields before) fields
  | [], before, sound => by
      refine ⟨sound, ?_, ?_, ?_, fun _ => rfl⟩ <;> simp [readFields]
  | (name, sub) :: rest, before, sound => by
      obtain ⟨soundSub, there⟩ := readIterV1_sound sub
      have first := field_reads sound name sub soundSub there
      rw [readFields]
      exact first.cons (readFields_reads rest _ first.sound)

end

/-! ## The set that is read -/

section Result

variable [Consistent M]

omit [Numeric M] [Consistent M] in
theorem finish_children (reading : Reading M) : reading.finish.children = reading.children := by
  unfold Reading.finish
  split <;> rfl

omit [Consistent M] in
theorem readIterV1_eq (document : Document) :
    readIterV1 lib document = (readFields lib document.fields Reading.start).finish := by
  cases document <;> rfl

omit [Consistent M] in
theorem fromJSON_eq (document : Document) : (fromJSON lib document).1 =
    (readFields lib document.fields Reading.start).children.getD nil := by
  show (readIterV1 lib document).children.getD nil = _
  rw [readIterV1_eq, finish_children]

theorem fromJSON_canonical (document : Document) : (fromJSON lib document).1.Canonical :=
  (readIterV1_sound document).1.canonical

theorem fromJSON_has_single (document : Document) (pe : PathElement M) :
    (fromJSON lib document).1.has [pe] = document.fields.any fun field =>
      Document.isFor lib pe field && (readIterV1 lib field.2).isMember := by
  have reads : Reads lib Reading.start (readFields lib document.fields Reading.start)
      document.fields := readFields_reads _ _ start_sound
  rw [fromJSON_eq, reads.member]
  exact Bool.false_or _

theorem fromJSON_withPrefix (document : Document) (pe : PathElement M) :
    (fromJSON lib document).1.withPrefix pe = beneathAfter lib pe document.fields nil := by
  have reads : Reads lib Reading.start (readFields lib document.fields Reading.start)
      document.fields := readFields_reads _ _ start_sound
  rw [fromJSON_eq, reads.beneath]
  rfl

/-- The path of an object is a member if the object has the field `"."`, or nothing of a
known kind. -/
theorem readIterV1_isMember (document : Document) : (readIterV1 lib document).isMember =
    ((document.fields.any fun field => field.1 == ".") || !document.hasKnown lib) := by
  have reads : Reads lib Reading.start (readFields lib document.fields Reading.start)
      document.fields := readFields_reads _ _ start_sound
  have some : (readFields lib document.fields Reading.start).children.isSome =
      document.hasKnown lib := by
    rw [reads.some]
    exact Bool.false_or _
  have isMember : (readFields lib document.fields Reading.start).isMember =
      document.fields.any fun field => field.1 == "." := by
    rw [reads.isMember]
    exact Bool.false_or _
  rw [readIterV1_eq, ← some, ← isMember]
  unfold Reading.finish
  cases (readFields lib document.fields Reading.start).children <;> simp

theorem isMember_of_marked (marked : document.marked = true) :
    (readIterV1 lib document).isMember = true := by
  rw [readIterV1_isMember]
  unfold Document.marked at marked
  rcases Bool.or_eq_true_iff.mp marked with empty | dot
  · rw [List.isEmpty_iff] at empty
    simp [Document.hasKnown, empty]
  · simp [dot]

/-! ## The last field for a path element -/

section

omit [Consistent M]

/-- Fields that are not for the path element put nothing beneath it. -/
theorem beneathAfter_of_none {fields : List (String × Document)}
    (none : ∀ field ∈ fields, Document.isFor lib pe field = false) (start : FieldSet M) :
    beneathAfter lib pe fields start = start := by
  induction fields generalizing start with
  | nil => rfl
  | cons field rest ih =>
      have notFor := none field (by simp)
      show beneathAfter lib pe rest (if Document.isFor lib pe field then _ else start) = start
      rw [notFor]
      exact ih (fun other member => none other (by simp [member])) start

theorem beneathAfter_append (pe : PathElement M) (first second : List (String × Document))
    (start : FieldSet M) : beneathAfter lib pe (first ++ second) start =
      beneathAfter lib pe second (beneathAfter lib pe first start) :=
  List.foldl_append

private theorem last_split {fields : List (String × Document)}
    (found : fields.reverse.find? (Document.isFor lib pe) = some field) :
    Document.isFor lib pe field = true ∧ ∃ first rest, fields = first ++ field :: rest ∧
      ∀ other ∈ rest, Document.isFor lib pe other = false := by
  obtain ⟨isFor, later, earlier, split, noneLater⟩ := List.find?_eq_some_iff_append.mp found
  refine ⟨isFor, earlier.reverse, later.reverse, ?_, fun other member => ?_⟩
  · have reversed := congrArg List.reverse split
    simpa using reversed
  · simpa using noneLater other (List.mem_reverse.mp member)

end

/-- What is beneath a path element is what its last field has beneath it, if anything. -/
theorem withPrefix_of_last
    (found : document.fields.reverse.find? (Document.isFor lib pe) = some field)
    {grandchildren : FieldSet M} (there : (readIterV1 lib field.2).children = some grandchildren) :
    (fromJSON lib document).1.withPrefix pe = grandchildren := by
  obtain ⟨isFor, first, rest, split, noneAfter⟩ := last_split found
  rw [fromJSON_withPrefix, split, beneathAfter_append]
  show beneathAfter lib pe rest (if Document.isFor lib pe field then
    (readIterV1 lib field.2).children.getD _ else _) = grandchildren
  rw [if_pos isFor, there, Option.getD_some]
  exact beneathAfter_of_none noneAfter grandchildren

/-- The path of an object that is for a member is a member. -/
theorem has_of_at? {document sub : Document} {path : Path M} (proper : path ≠ [])
    (found : document.at? lib path = some sub) (isMember : (readIterV1 lib sub).isMember = true) :
    (fromJSON lib document).1.has path = true := by
  induction path generalizing document with
  | nil => exact absurd rfl proper
  | cons pe rest ih =>
      rw [Document.at?] at found
      split at found
      · next field isLast =>
          by_cases last : rest = []
          · subst last
            obtain rfl : field.2 = sub := Option.some.inj found
            obtain ⟨isFor, first, later, split, -⟩ := last_split isLast
            rw [fromJSON_has_single, split]
            simp [isFor, isMember]
          · have beneath := ih last found
            cases there : (readIterV1 lib field.2).children with
            | none => simp [fromJSON, there] at beneath
            | some grandchildren =>
                rw [has_cons _ _ last, withPrefix_of_last isLast there]
                simpa [fromJSON, there] using beneath
      · cases found

/-- Any JSON object is read as a well formed set, which has each path at whose end, through
the last field for each path element, there is an empty object or one with the field `"."`. -/
theorem read_set_canonical_and_last (lib : JSONLibrary N M) (document : Document) :
    (fromJSON lib document).1.Canonical ∧ ∀ (path : Path M) (sub : Document), path ≠ [] →
      document.at? lib path = some sub → sub.marked = true →
      (fromJSON lib document).1.has path = true :=
  ⟨fromJSON_canonical document, fun _ _ proper found marked =>
    has_of_at? proper found (isMember_of_marked marked)⟩

end Result

/-- An object with a field of an unknown kind next to a known one. -/
def besideUnknown : Document :=
  .object [("f:a", .object [("x:c", .object []), ("f:b", .object [])])]

/-- An object with nothing but a field of an unknown kind. -/
def onlyUnknown : Document :=
  .object [("f:a", .object [("x:c", .object [])])]

theorem field_beside_unknown_read : (fromJSON decimals besideUnknown).1.Canonical ∧
    (fromJSON decimals besideUnknown).1.has [.fieldName "a", .fieldName "b"] = true := by
  obtain ⟨canonical, has⟩ := read_set_canonical_and_last decimals besideUnknown
  exact ⟨canonical, has _ (.object []) (by simp) rfl rfl⟩

/-! ## Fields of unknown kinds -/

end FieldSet

namespace Document

variable {N M : Type} [Numeric M] (lib : JSONLibrary N M)

/-- In no object are two fields for one path element. -/
inductive Distinct : Document → Prop
  | intro {document : Document}
      (apart : document.fields.Pairwise fun first second =>
        ∀ pe, isFor lib pe first = true → isFor lib pe second = false)
      (subs : ∀ field ∈ document.fields, Distinct field.2) : Distinct document

/-- A path is read as a member exactly if the object at it is empty or has the field `"."`. -/
def ReadAsMarked (document : Document) : Prop :=
  ∀ path, path ≠ [] → ((FieldSet.fromJSON lib document).1.has path = true ↔
    ∃ sub, document.at? lib path = some sub ∧ sub.marked = true)

/-- Every object at a path that has nothing of a known kind is empty or has the field
`"."`. -/
def UnknownMarked (document : Document) : Prop :=
  ∀ path sub, path ≠ [] → document.at? lib path = some sub → sub.hasKnown lib = false →
    sub.marked = true

variable {lib}

theorem Distinct.apart : document.Distinct lib →
    document.fields.Pairwise fun first second =>
      ∀ pe, isFor lib pe first = true → isFor lib pe second = false
  | .intro apart _ => apart

theorem Distinct.subs : document.Distinct lib →
    ∀ field ∈ document.fields, field.2.Distinct lib
  | .intro _ subs => subs

/-- The only field for a path element is the last one. -/
theorem Distinct.find? (distinct : document.Distinct lib) {pe : PathElement M}
    (member : field ∈ document.fields) (forElement : isFor lib pe field = true) :
    document.fields.reverse.find? (isFor lib pe) = some field := by
  obtain ⟨first, rest, split⟩ := List.append_of_mem member
  have apart := distinct.apart
  rw [split, List.pairwise_append, List.pairwise_cons] at apart
  rw [List.find?_eq_some_iff_append]
  refine ⟨forElement, rest.reverse, first.reverse, by simp [split], fun other inRest => ?_⟩
  simpa using apart.2.1.1 other (List.mem_reverse.mp inRest) pe forElement

end Document

namespace FieldSet

variable {N M : Type} [Numeric M] [Consistent M] {lib : JSONLibrary N M}

/-- With one field for each path element, there is nothing else beneath it. -/
theorem withPrefix_of_distinct (distinct : document.Distinct lib) (pe : PathElement M)
    : (fromJSON lib document).1.withPrefix pe =
      ((document.fields.reverse.find? (Document.isFor lib pe)).map fun field =>
        (fromJSON lib field.2).1).getD nil := by
  cases found : document.fields.reverse.find? (Document.isFor lib pe) with
  | none =>
      rw [fromJSON_withPrefix]
      apply beneathAfter_of_none
      intro field member
      have notFor := List.find?_eq_none.mp found field (List.mem_reverse.mpr member)
      simpa using notFor
  | some field =>
      obtain ⟨isFor, first, rest, split, noneAfter⟩ := last_split found
      have noneBefore : ∀ other ∈ first, Document.isFor lib pe other = false := by
        intro other member
        have apart := distinct.apart
        rw [split, List.pairwise_append] at apart
        rw [Bool.eq_false_iff]
        intro alsoFor
        rw [apart.2.2 other member field (by simp) pe alsoFor] at isFor
        cases isFor
      rw [fromJSON_withPrefix, split, beneathAfter_append, beneathAfter_of_none noneBefore]
      show beneathAfter lib pe rest (if Document.isFor lib pe field then
        (readIterV1 lib field.2).children.getD nil else nil) = _
      rw [if_pos isFor]
      exact beneathAfter_of_none noneAfter _

/-- The members are the paths of the objects that have the field `"."`, or nothing of a
known kind. -/
theorem fromJSON_has_iff (distinct : document.Distinct lib) {path : Path M} (proper : path ≠ [])
    : (fromJSON lib document).1.has path = true ↔
      ∃ sub, document.at? lib path = some sub ∧ (readIterV1 lib sub).isMember = true := by
  induction path generalizing document with
  | nil => exact absurd rfl proper
  | cons pe rest ih =>
      by_cases last : rest = []
      · subst last
        rw [fromJSON_has_single, List.any_eq_true]
        constructor
        · rintro ⟨field, member, holds⟩
          rw [Bool.and_eq_true] at holds
          exact ⟨field.2, by rw [Document.at?, distinct.find? member holds.1]; rfl, holds.2⟩
        · rintro ⟨sub, found, isMember⟩
          rw [Document.at?] at found
          split at found
          · next field isLast =>
              obtain ⟨isFor, first, later, split, -⟩ := last_split isLast
              obtain rfl : field.2 = sub := Option.some.inj found
              exact ⟨field, by simp [split], by simp [isFor, isMember]⟩
          · cases found
      · rw [has_cons _ _ last, withPrefix_of_distinct distinct, Document.at?]
        cases found : document.fields.reverse.find? (Document.isFor lib pe) with
        | none => simp
        | some field =>
            have member := List.mem_reverse.mp (List.mem_of_find?_eq_some found)
            exact ih (distinct.subs field member) last

/-- Paths are read as the objects say exactly if no object has fields all of which are of
unknown kinds. -/
theorem read_as_marked_iff {document : Document} (distinct : document.Distinct lib) :
    document.ReadAsMarked lib ↔ document.UnknownMarked lib := by
  constructor
  · intro asMarked path sub proper found unknown
    have isMember : (readIterV1 lib sub).isMember = true := by
      rw [readIterV1_isMember, unknown]
      simp
    obtain ⟨other, same, marked⟩ := (asMarked path proper).mp
      ((fromJSON_has_iff distinct proper).mpr ⟨sub, found, isMember⟩)
    rw [found] at same
    rwa [Option.some.inj same]
  · intro unknownMarked path proper
    rw [fromJSON_has_iff distinct proper]
    apply exists_congr
    intro sub
    apply and_congr_right
    intro found
    refine ⟨fun isMember => ?_, isMember_of_marked⟩
    rw [readIterV1_isMember, Bool.or_eq_true] at isMember
    rcases isMember with dot | unknown
    · simp [Document.marked, dot]
    · exact unknownMarked path sub proper found (by simpa using unknown)

private theorem besideUnknown_distinct : besideUnknown.Distinct decimals := by
  have leaf : ∀ document : Document, document.fields = [] → document.Distinct decimals := by
    intro document none
    exact .intro (by simp [none]) (by simp [none])
  have unknown : ∀ pe, Document.isFor decimals pe ("x:c", .object []) = false := fun _ => rfl
  refine .intro (List.pairwise_singleton _ _) fun field member => ?_
  rw [List.mem_singleton.mp member]
  refine .intro (List.pairwise_pair.mpr fun pe isFor => ?_) fun field member => ?_
  · rw [unknown] at isFor
    cases isFor
  · rcases List.mem_pair.mp member with rfl | rfl
    · exact leaf _ rfl
    · exact leaf _ rfl

theorem beside_unknown_read_as_marked : besideUnknown.Distinct decimals ∧
    (besideUnknown.ReadAsMarked decimals ↔ besideUnknown.UnknownMarked decimals) :=
  ⟨besideUnknown_distinct, read_as_marked_iff besideUnknown_distinct⟩

/-- An object with fields of unknown kinds only makes its path a member. -/
theorem unknown_only_read_as_member :
    (fromJSON decimals onlyUnknown).1.has [.fieldName "a"] = true ∧
      ∃ sub, onlyUnknown.at? decimals [.fieldName "a"] = some sub ∧ sub.marked = false :=
  ⟨rfl, _, rfl, rfl⟩

end FieldSet

end StructuredMergeDiff
