import StructuredMergeDiff.Typed.CompareSpec

/-!
Contract: what the validator accepts.

A value is valid if it fits the alternative to which its type narrows: a scalar
of the right kind, a list whose items have path elements, a map with known
fields, or null; and if all its items and entries are valid.

Owns: `Valid`, its characterisation, `ListsSupported`, and `Sound`, which is
both, for a node and its children.
-/

namespace StructuredMergeDiff.Typed

open Library Std FieldSet

variable {N : Type} [Numeric N] {visit : TypeRef N × Value N → ValidationErrors N}
  {allowDuplicates : Bool}

/-- The validator reports nothing. -/
def Valid (sc : Schema N) (allowDuplicates : Bool) (n : Node N) : Prop :=
  validate sc allowDuplicates n.type n.value = []

/-- The items of an associative list have path elements and, unless duplicates are
allowed, different ones. -/
def ItemsNamed (sc : Schema N) (allowDuplicates : Bool) (t : ListType N) (items : List (Value N)) :
    Prop :=
  t.elementRelationship = .associative →
    (∀ item ∈ items, ∃ pe, listItemToPathElement sc t item = .ok pe) ∧
      (allowDuplicates = false → Separate (namedItems sc t items))

omit [Numeric N] in
/-- The map type knows the key. -/
def MapType.Knows (t : MapType N) (name : String) : Prop :=
  ((t.findField name).isNone && t.elementType.isZero) = false

/-- What the validator asks of a value under an alternative. -/
def Fits (sc : Schema N) (allowDuplicates : Bool) (v : Value N) : Alternative N → Prop
  | .scalar t => validateScalar t (some v) .value = []
  | .list t => v = .null ∨ ∃ items, v = .list items ∧ ItemsNamed sc allowDuplicates t items ∧
      ∀ item ∈ items, Valid sc allowDuplicates ⟨t.elementType, item⟩
  | .map t => v = .null ∨ ∃ bindings, v = .map bindings ∧
      ∀ entry ∈ v.entries, MapType.Knows t entry.1 ∧
        Valid sc allowDuplicates ⟨t.fieldType entry.1, entry.2⟩

omit [Numeric N] in
private theorem withPrefix_eq_nil {errs : ValidationErrors N} {pe : PathElement N} :
    errs.withPrefix pe = [] ↔ errs = [] := by
  simp [ValidationErrors.withPrefix]

omit [Numeric N] in
private theorem errorf_ne_nil (message : Message N) : errorf message ≠ [] := by
  simp [errorf]

private theorem visitListItems_of_not_associative {sc : Schema N} {t : ListType N}
    (notAssociative : t.elementRelationship ≠ .associative) (items : List (Value N)) (index : Nat)
    (observed : List (PathElement N)) :
    Validate.visitListItems sc allowDuplicates visit t index observed items = [] ↔
      ∀ item ∈ items, visit (t.elementType, item) = [] := by
  induction items generalizing index with
  | nil => simp [Validate.visitListItems]
  | cons item rest ih =>
      rw [Validate.visitListItems, if_pos notAssociative, List.append_eq_nil_iff,
        withPrefix_eq_nil, ih]
      simp

/-- What the validator asks of a value under an alternative, apart from the names of
list items. -/
def Shaped (sc : Schema N) (allowDuplicates : Bool) (v : Value N) : Alternative N → Prop
  | .scalar _ => True
  | .list t => (v = .null ∨ v.isList = true) ∧
      ∀ item ∈ v.items, Valid sc allowDuplicates ⟨t.elementType, item⟩
  | .map t => (v = .null ∨ v.isMap = true) ∧
      ∀ entry ∈ v.entries, Valid sc allowDuplicates ⟨t.fieldType entry.1, entry.2⟩

private theorem items_visited {sc : Schema N} {t : ListType N} {items : List (Value N)}
    {index : Nat} {observed : List (PathElement N)}
    (silent : Validate.visitListItems sc allowDuplicates visit t index observed items = []) :
    ∀ item ∈ items, visit (t.elementType, item) = [] := by
  induction items generalizing index observed with
  | nil => simp
  | cons item rest ih =>
      rw [Validate.visitListItems] at silent
      split at silent
      · obtain ⟨first, others⟩ := List.append_eq_nil_iff.mp silent
        exact List.forall_mem_cons.mpr ⟨withPrefix_eq_nil.mp first, ih others⟩
      · split at silent
        · exact absurd silent (errorf_ne_nil _)
        · dsimp only at silent
          obtain ⟨before, others⟩ := List.append_eq_nil_iff.mp silent
          exact List.forall_mem_cons.mpr
            ⟨withPrefix_eq_nil.mp (List.append_eq_nil_iff.mp before).2, ih others⟩

omit [Numeric N] in
private theorem entries_visited {t : MapType N} {entries : List (String × Value N)}
    (silent : Validate.visitMapItems visit t entries = []) :
    ∀ entry ∈ entries, visit (t.fieldType entry.1, entry.2) = [] := by
  induction entries with
  | nil => simp
  | cons entry rest ih =>
      obtain ⟨name, value⟩ := entry
      rw [Validate.visitMapItems] at silent
      split at silent
      · exact absurd (withPrefix_eq_nil.mp silent) (errorf_ne_nil _)
      · obtain ⟨first, others⟩ := List.append_eq_nil_iff.mp silent
        exact List.forall_mem_cons.mpr ⟨withPrefix_eq_nil.mp first, ih others⟩

theorem Valid.shaped {sc : Schema N} {n : Node N} (valid : Valid sc allowDuplicates n) :
    ∃ alternative, resolveSchema sc n.type n.value = .ok alternative ∧
      Shaped sc allowDuplicates n.value alternative := by
  obtain ⟨tr, v⟩ := n
  unfold Valid at valid
  rw [validate_eq] at valid
  simp only [Validate.body] at valid
  cases resolved : resolveSchema sc tr v with
  | error message =>
      rw [resolved] at valid
      exact absurd valid (errorf_ne_nil _)
  | ok alternative =>
      rw [resolved] at valid
      refine ⟨alternative, rfl, ?_⟩
      cases alternative with
      | scalar t => exact trivial
      | list t =>
          cases v with
          | null => exact ⟨Or.inl rfl, by simp [Value.items]⟩
          | list items => exact ⟨Or.inr rfl, items_visited valid⟩
          | _ => exact absurd valid (errorf_ne_nil _)
      | map t =>
          cases v with
          | null => exact ⟨Or.inl rfl, by simp [Value.entries]⟩
          | map bindings => exact ⟨Or.inr rfl, entries_visited valid⟩
          | _ => exact absurd valid (errorf_ne_nil _)

theorem Valid.kid {sc : Schema N} {n : Node N} (valid : Valid sc allowDuplicates n) {k : Kid N}
    (member : k ∈ kids sc n) :
    Valid sc allowDuplicates k.node := by
  obtain ⟨alternative, resolved, shaped⟩ := valid.shaped
  rcases mem_kids member with ⟨t, item, isList, -, inItems, rfl⟩ |
    ⟨t, entry, isMap, -, inEntries, rfl⟩
  · cases Except.ok.inj (isList.symm.trans resolved)
    exact shaped.2 item inItems
  · cases Except.ok.inj (isMap.symm.trans resolved)
    exact shaped.2 entry inEntries

section Lawful

variable [Consistent N]

private theorem visitListItems_of_associative {sc : Schema N} {t : ListType N}
    (associative : t.elementRelationship = .associative) (items : List (Value N)) (index : Nat)
    {observed : List (PathElement N)} (sorted : SortedBy id observed) :
    Validate.visitListItems sc allowDuplicates visit t index observed items = [] ↔
      (∀ item ∈ items, ∃ pe, listItemToPathElement sc t item = .ok pe) ∧
      (allowDuplicates = false → Separate (namedItems sc t items) ∧
        ∀ entry ∈ namedItems sc t items, membersHas observed entry.1 = false) ∧
      ∀ item ∈ items, visit (t.elementType, item) = [] := by
  induction items generalizing index observed with
  | nil => simp [Validate.visitListItems, namedItems, Separate]
  | cons item rest ih =>
      rw [Validate.visitListItems, if_neg (by simp [associative])]
      cases named : listItemToPathElement sc t item with
      | error err => simp [errorf, named]
      | ok pe =>
          have duplicate : (if (membersHas observed pe && !allowDuplicates) = true then
              errorf (.duplicateEntries pe) else ([] : ValidationErrors N)) = [] ↔
              (allowDuplicates = false → membersHas observed pe = false) := by
            cases allowDuplicates <;> cases membersHas observed pe <;> simp [errorf]
          dsimp only
          rw [List.append_eq_nil_iff, List.append_eq_nil_iff, withPrefix_eq_nil,
            ih (index + 1) (insert_member_sorted sorted pe), duplicate,
            namedItems_cons_ok named]
          simp only [membersHas_insert sorted, Separate, List.pairwise_cons,
            List.forall_mem_cons, named, Bool.or_eq_false_iff, forall_and]
          cases allowDuplicates <;> grind

/-- The validator asks for a fitting alternative and for valid items and entries. -/
theorem valid_iff (sc : Schema N) (allowDuplicates : Bool) (n : Node N) :
    Valid sc allowDuplicates n ↔
      ∃ alternative, resolveSchema sc n.type n.value = .ok alternative ∧
        Fits sc allowDuplicates n.value alternative := by
  obtain ⟨tr, v⟩ := n
  unfold Valid
  rw [validate_eq]
  simp only [Validate.body]
  cases resolved : resolveSchema sc tr v with
  | error message => simp [errorf]
  | ok alternative =>
      simp only [Except.ok.injEq, exists_eq_left']
      cases alternative with
      | scalar t => rfl
      | list t =>
          simp only [Validate.doList, Fits]
          cases v with
          | null => simp
          | list items =>
              simp only [reduceCtorEq, Value.list.injEq, exists_eq_left', false_or, ItemsNamed]
              by_cases associative : t.elementRelationship = .associative
              · rw [visitListItems_of_associative associative items 0 List.Pairwise.nil]
                simp [associative, Valid, membersHas_nil, and_assoc]
              · rw [visitListItems_of_not_associative associative]
                simp [associative, Valid]
          | _ => simp [errorf]
      | map t =>
          simp only [Validate.doMap, Fits]
          cases v with
          | null => simp
          | map bindings =>
              simp only [reduceCtorEq, Value.map.injEq, exists_eq_left', false_or]
              generalize (Value.map bindings).entries = entries
              induction entries with
              | nil => simp [Validate.visitMapItems]
              | cons entry rest ih =>
                  obtain ⟨name, value⟩ := entry
                  rw [Validate.visitMapItems, List.forall_mem_cons, ← ih]
                  split
                  · next unknown => simp [MapType.Knows, unknown, errorf, ValidationErrors.withPrefix]
                  · next known =>
                      rw [List.append_eq_nil_iff, withPrefix_eq_nil]
                      simp [MapType.Knows, known, Valid]
          | _ => simp [errorf]

end Lawful

/-! ## Supported lists -/

omit [Numeric N] in
/-- The types that values of a type hold at any depth. -/
inductive Reaches (sc : Schema N) : TypeRef N → TypeRef N → Prop
  | refl (tr : TypeRef N) : Reaches sc tr tr
  | item {tr other : TypeRef N} {t : ListType N} (isList : (FieldSet.atomAt sc tr).list = some t)
      (onward : Reaches sc t.elementType other) : Reaches sc tr other
  | entry {tr other : TypeRef N} {t : MapType N} (name : String)
      (isMap : (FieldSet.atomAt sc tr).map = some t)
      (onward : Reaches sc (t.fieldType name) other) : Reaches sc tr other

omit [Numeric N] in
/-- Every list type is atomic or associative, as the schema documentation asks. -/
def ListsSupported (sc : Schema N) (tr : TypeRef N) : Prop :=
  ∀ other, Reaches sc tr other → ∀ t, (atomAt sc other).list = some t →
    t.elementRelationship = .atomic ∨ t.elementRelationship = .associative

section Inline

omit [Numeric N]

variable {sc : Schema N}

@[simp] theorem atomAt_inline (atom : Atom N) : atomAt sc (.inline atom) = atom := rfl

private theorem listsSupported_inline {atom : Atom N}
    (list : ∀ t, atom.list = some t → (t.elementRelationship = .atomic ∨
      t.elementRelationship = .associative) ∧ ListsSupported sc t.elementType)
    (map : ∀ t, atom.map = some t → ∀ name, ListsSupported sc (t.fieldType name)) :
    ListsSupported sc (.inline atom) := by
  intro other reached
  cases reached with
  | refl => exact fun t isList => (list t isList).1
  | item isList onward => exact (list _ isList).2 other onward
  | entry name isMap onward => exact map _ isMap name other onward

theorem listsSupported_scalar (t : ScalarType) : ListsSupported sc (.inline (.ofScalar t)) :=
  listsSupported_inline (by simp [Atom.ofScalar]) (by simp [Atom.ofScalar])

theorem listsSupported_list {t : ListType N}
    (supported : t.elementRelationship = .atomic ∨ t.elementRelationship = .associative)
    (items : ListsSupported sc t.elementType) : ListsSupported sc (.inline (.ofList t)) := by
  apply listsSupported_inline
  · intro other isList
    cases isList
    exact ⟨supported, items⟩
  · simp [Atom.ofList]

theorem listsSupported_struct {fields : List (String × TypeRef N)}
    (supported : ∀ field ∈ fields, ListsSupported sc field.2) :
    ListsSupported sc (.inline (.ofMap (.struct fields))) := by
  apply listsSupported_inline
  · simp [Atom.ofMap]
  · intro t isMap name
    cases isMap
    unfold MapType.fieldType
    split
    · next field found =>
        have member : field ∈ (MapType.struct fields).fields.reverse := List.mem_of_find?_eq_some found
        rw [List.mem_reverse] at member
        obtain ⟨source, inFields, rfl⟩ := List.mem_map.mp member
        exact supported source inFields
    · exact listsSupported_inline (by simp [Atom.zero]) (by simp [Atom.zero])

end Inline

/-! ## Sound nodes -/

/-- A valid value of a type with supported lists. -/
structure Sound (sc : Schema N) (allowDuplicates : Bool) (n : Node N) : Prop where
  valid : Valid sc allowDuplicates n
  supported : ListsSupported sc n.type

section Sound

variable [Consistent N] {sc : Schema N} {allowDuplicates : Bool} {n : Node N}

section

variable (sound : Sound sc allowDuplicates n)

include sound

theorem Sound.alternative :
    ∃ alternative, resolveSchema sc n.type n.value = .ok alternative ∧
      Fits sc allowDuplicates n.value alternative :=
  (valid_iff sc allowDuplicates n).mp sound.valid

/-- Narrowing to a granular list, all items have path elements. -/
theorem Sound.items_named {t : ListType N}
    (resolved : resolveSchema sc n.type n.value = .ok (.list t))
    (granular : t.elementRelationship ≠ .atomic) :
    (∀ item ∈ n.value.items, ∃ pe, listItemToPathElement sc t item = .ok pe) ∧
      (allowDuplicates = false → Separate (namedItems sc t n.value.items)) ∧
      ∀ item ∈ n.value.items, Sound sc allowDuplicates ⟨t.elementType, item⟩ := by
  obtain ⟨alternative, isAlternative, fits⟩ := sound.alternative
  cases Except.ok.inj (resolved.symm.trans isAlternative)
  have isList := resolveSchema_list resolved
  have associative : t.elementRelationship = .associative :=
    (sound.supported n.type (.refl n.type) t isList).resolve_left granular
  rcases fits with isNull | ⟨items, isItems, named, valid⟩
  · rw [isNull]
    simp [Value.items, namedItems, Separate]
  · rw [isItems]
    refine ⟨(named associative).1, (named associative).2, fun item member => ⟨valid item member, ?_⟩⟩
    exact fun other reached => sound.supported other (.item isList reached)

theorem Sound.entries_known {t : MapType N}
    (resolved : resolveSchema sc n.type n.value = .ok (.map t)) :
    ∀ entry ∈ n.value.entries, MapType.Knows t entry.1 ∧
      Sound sc allowDuplicates ⟨t.fieldType entry.1, entry.2⟩ := by
  obtain ⟨alternative, isAlternative, fits⟩ := sound.alternative
  cases Except.ok.inj (resolved.symm.trans isAlternative)
  have isMap := resolveSchema_map resolved
  rcases fits with isNull | ⟨bindings, isBindings, known⟩
  · rw [isNull]
    simp [Value.entries]
  · intro entry member
    refine ⟨(known entry member).1, (known entry member).2, ?_⟩
    exact fun other reached => sound.supported other (.entry entry.1 isMap reached)

/-- Children of sound nodes are sound and have proper path elements. -/
theorem Sound.kid {k : Kid N} (member : k ∈ kids sc n) :
    Sound sc allowDuplicates k.node ∧ k.pe.isProper = true := by
  rcases mem_kids member with ⟨t, item, resolved, granular, inItems, rfl⟩ |
    ⟨t, entry, resolved, _, inEntries, rfl⟩
  · obtain ⟨named, -, valid⟩ := sound.items_named resolved granular
    refine ⟨valid item inItems, ?_⟩
    obtain ⟨pe, isNamed⟩ := named item inItems
    change (itemPathElement sc t item).isProper = true
    rw [itemPathElement, isNamed]
    exact proper_of_named isNamed
  · exact ⟨(sound.entries_known resolved entry inEntries).2, rfl⟩

end

omit [Numeric N] in
private theorem toList_of_length {α : Type} {list : List α} (short : list.length ≤ 1) :
    ∃ entry : Option α, list = entry.toList := by
  match list with
  | [] => exact ⟨none, rfl⟩
  | [entry] => exact ⟨some entry, rfl⟩
  | _ :: _ :: _ => simp at short

theorem entriesAt_length_of_separate {pes : List (PathElement N × Value N)}
    (separate : Separate pes) (wanted : PathElement N) : (entriesAt pes wanted).length ≤ 1 := by
  rw [entriesAt, List.length_map]
  induction pes with
  | nil => simp
  | cons entry rest ih =>
      have later := ih (List.Pairwise.of_cons separate)
      rw [List.filter_cons]
      split
      · next same =>
          have none : rest.filter (fun other => other.1 == wanted) = [] := by
            rw [List.filter_eq_nil_iff]
            intro other member otherSame
            have differs := List.rel_of_pairwise_cons separate member
            rw [BEq.trans same (BEq.symm otherSame)] at differs
            cases differs
          simp [none]
      · exact later

omit [Consistent N] in
theorem isProper_congr {first second : PathElement N} (same : (first == second) = true) :
    first.isProper = second.isProper := by
  change first.equals second = true at same
  cases first <;> cases second <;> first | rfl | simp [PathElement.equals] at same

theorem Sound.kidsAt_improper (sound : Sound sc allowDuplicates n) {pe : PathElement N}
    (improper : pe.isProper = false) : kidsAt sc n pe = [] := by
  rw [kidsAt, List.filter_eq_nil_iff]
  intro k member same
  have proper := (sound.kid member).2
  rw [isProper_congr same, improper] at proper
  cases proper

/-- Without duplicates there is at most one value under a path element. -/
theorem Sound.kidValues_toList {tr : TypeRef N} {v : Value N} (sound : Sound sc false ⟨tr, v⟩)
    (pe : PathElement N) : ∃ x : Option (Value N), kidValues sc tr (some v) pe = x.toList := by
  by_cases proper : pe.isProper = true
  · obtain ⟨alternative, resolved, -⟩ := sound.alternative
    rw [kidValues_of_resolved resolved]
    by_cases leaf : alternative.isLeaf = true
    · exact ⟨none, kidValuesOf_of_isLeaf leaf _ pe⟩
    · cases alternative with
      | scalar t => exact absurd rfl leaf
      | list t =>
          have granular : t.elementRelationship ≠ .atomic := by
            simpa [Alternative.isLeaf] using leaf
          rw [kidValuesOf_list granular (some v) proper]
          have items : (Compare.derefList (some v)).getD [] = v.items := by cases v <;> rfl
          rw [items]
          exact toList_of_length (entriesAt_length_of_separate
            ((sound.items_named resolved granular).2.1 rfl) pe)
      | map t =>
          have granular : t.elementRelationship ≠ .atomic := by
            simpa [Alternative.isLeaf] using leaf
          cases pe with
          | fieldName name => exact ⟨_, kidValuesOf_map granular (some v) name⟩
          | _ => exact ⟨none, kidValuesOf_map_of_ne (some v) (by simp)⟩
  · have none : kidsAt sc ⟨tr, v⟩ pe = [] := sound.kidsAt_improper (by simpa using proper)
    exact ⟨.none, by simp [kidValues, none]⟩

end Sound

end StructuredMergeDiff.Typed
