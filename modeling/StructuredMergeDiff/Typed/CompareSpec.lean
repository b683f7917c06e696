import StructuredMergeDiff.Typed.Compared

/-!
Contract: what a comparison records, one level at a time.

A comparison records a path beneath a child exactly if the comparison of what
the two sides hold under that child's path element records the rest of the
path, whatever the kinds of the two values; and it fails exactly if it fails
here or beneath some child.

Owns: `kidType`, `kidValues`, and `compareWalk_meets`, the equations of
`compareWalk` for the root, for the paths beneath it and for the errors.
-/

namespace StructuredMergeDiff.Typed

open Library Std Compare

variable {N : Type} [Numeric N] {sc : Schema N} {tr : TypeRef N} {alternative : Alternative N}
  {lhs rhs : Option (Value N)} {pe : PathElement N} {l r : Value N}

/-! ## Alternatives -/

omit [Numeric N] in
/-- The type of the children under a path element. -/
def kidTypeOf (alternative : Alternative N) (pe : PathElement N) : TypeRef N :=
  match alternative, pe with
  | .map t, .fieldName name => t.fieldType name
  | .list t, _ => t.elementType
  | _, _ => .zero

/-- The values of the children under a path element. -/
def kidValuesOf (sc : Schema N) (alternative : Alternative N) (v : Option (Value N))
    (pe : PathElement N) : List (Value N) :=
  ((v.elim [] (kidsOf sc alternative)).filter fun k => k.pe == pe).map Kid.value

@[simp] theorem kidValuesOf_none (sc : Schema N) (alternative : Alternative N)
    (pe : PathElement N) : kidValuesOf sc alternative none pe = [] := rfl

theorem kidValuesOf_of_isLeaf (leaf : alternative.isLeaf = true) (v : Option (Value N))
    (pe : PathElement N) :
    kidValuesOf sc alternative v pe = [] := by
  cases v with
  | none => rfl
  | some v => simp [kidValuesOf, kidsOf_of_isLeaf v leaf]

theorem unset_beq_of_proper (proper : pe.isProper = true) :
    ((PathElement.unset : PathElement N) == pe) = false := by
  change (PathElement.unset : PathElement N).equals pe = false
  cases pe <;> first | rfl | cases proper

theorem kidValuesOf_list {t : ListType N} (granular : t.elementRelationship ≠ .atomic)
    (v : Option (Value N)) (proper : pe.isProper = true) :
    kidValuesOf sc (.list t) v pe =
      entriesAt (namedItems sc t ((Compare.derefList v).getD [])) pe := by
  have named : ∀ items : List (Value N),
      ((items.map (listKid sc t)).filter fun k => k.pe == pe).map Kid.value =
        entriesAt (namedItems sc t items) pe := by
    intro items
    induction items with
    | nil => rfl
    | cons item rest ih =>
        have name : (listKid sc t item).pe = itemPathElement sc t item := rfl
        rw [List.map_cons, List.filter_cons, name, itemPathElement]
        cases itemNamed : listItemToPathElement sc t item with
        | error err =>
            rw [namedItems_cons_error itemNamed]
            simpa [unset_beq_of_proper proper] using ih
        | ok other =>
            rw [namedItems_cons_ok itemNamed, entriesAt, List.filter_cons]
            by_cases same : (other == pe) = true
            · simp only [same, if_true, List.map_cons]
              exact congrArg (item :: ·) ih
            · simpa [same, entriesAt] using ih
  cases v with
  | none => rfl
  | some v =>
      simp only [kidValuesOf, kidsOf, Option.elim_some, if_neg granular]
      rw [named]
      cases v <;> rfl

theorem kidValuesOf_map {t : MapType N} (granular : t.elementRelationship ≠ .atomic)
    (v : Option (Value N)) (name : String) :
    kidValuesOf sc (.map t) v (.fieldName name) =
      (Compare.valueAt ((Compare.derefMap v).getD []) name).toList := by
  cases v with
  | none => rfl
  | some v =>
      have same : (Compare.derefMap (some v)).getD [] = v.entries := by cases v <;> rfl
      have keys : (fun k : Kid N => k.pe == .fieldName name) ∘ mapKid t =
          fun entry => entry.1 == name := by
        funext entry
        rw [Bool.eq_iff_iff]
        change ((PathElement.fieldName entry.1 : PathElement N) == .fieldName name) = true ↔ _
        rw [beq_fieldName, PathElement.fieldName.injEq, beq_iff_eq, eq_comm]
      simp only [kidValuesOf, kidsOf, Option.elim_some, if_neg granular]
      rw [List.filter_map, keys, filter_key_eq v.entries_sorted, same, List.map_map,
        Compare.valueAt]
      cases lookupBy Prod.fst name v.entries <;> rfl

theorem kidValuesOf_map_of_ne {t : MapType N} (v : Option (Value N))
    (differs : ∀ name, pe ≠ .fieldName name) :
    kidValuesOf sc (.map t) v pe = [] := by
  cases v with
  | none => rfl
  | some v =>
      rw [kidValuesOf, List.map_eq_nil_iff, List.filter_eq_nil_iff]
      intro k member same
      change k ∈ kidsOf sc (.map t) v at member
      rcases mem_kidsOf member with ⟨t, item, isList, -⟩ | ⟨t, entry, -, -, -, rfl⟩
      · cases isList
      · exact differs entry.1 (beq_fieldName.mp same)

section Alternatives

variable [Consistent N]

namespace Compare

section

omit [Consistent N]

/-- Is the pair handled as a leaf? -/
def leafPair (alternative : Alternative N) (lhs rhs : Option (Value N)) : Bool :=
  match alternative with
  | .scalar t => (validateScalar t lhs .lhs).isEmpty || (validateScalar t rhs .rhs).isEmpty
  | .list t => t.elementRelationship = .atomic ||
      (((derefList lhs).getD []).isEmpty && ((derefList rhs).getD []).isEmpty)
  | .map t => t.elementRelationship = .atomic ||
      (((derefMap lhs).getD []).isEmpty && ((derefMap rhs).getD []).isEmpty)

/-- Does the pair itself raise no error? -/
def PairOk (sc : Schema N) (alternative : Alternative N) (lhs rhs : Option (Value N)) : Prop :=
  leafPair alternative lhs rhs = true ∨
    match alternative with
    | .scalar _ => False
    | .list t => (∀ item ∈ (derefList lhs).getD [], ∃ pe, listItemToPathElement sc t item = .ok pe) ∧
        ∀ item ∈ (derefList rhs).getD [], ∃ pe, listItemToPathElement sc t item = .ok pe
    | .map _ => True

/-- The change of a leaf. -/
def leafChange : Option (Value N) → Option (Value N) → Option Change
  | none, _ => some .added
  | some _, none => some .removed
  | some l, some r => if r == l then none else some .modified

theorem records_doLeaf {change : Change} {path : Path N} :
    (doLeaf lhs rhs).walk.Records change path ↔ leafChange lhs rhs = some change ∧ path = [] := by
  have empty : ∀ path : Path N, (([] : Path N) == path) = true ↔ path = [] := by
    intro path
    cases path <;> simp
  match lhs, rhs with
  | none, r =>
      have walk : (doLeaf none r).walk = .only .added [] := rfl
      rw [walk, CompareWalk.records_only, empty]
      simp [leafChange]
  | some l, none =>
      have walk : (doLeaf (some l) none).walk = .only .removed [] := rfl
      rw [walk, CompareWalk.records_only, empty]
      simp [leafChange]
  | some l, some r =>
      simp only [doLeaf, leafChange]
      split
      · simp
      · have walk : { CompareWalk.nothing with modified := [[]] } =
            (.only .modified [] : CompareWalk N) := rfl
        rw [walk, CompareWalk.records_only, empty]
        simp

theorem errs_doLeaf (lhs rhs : Option (Value N)) : (doLeaf lhs rhs).walk.errs = [] := by
  match lhs, rhs with
  | none, _ => rfl
  | some _, none => rfl
  | some l, some r =>
      simp only [doLeaf]
      split <;> rfl

end

/-- What one alternative of a walk records and when it fails. -/
structure Handled.Meets (sc : Schema N) (alternative : Alternative N) (lhs rhs : Option (Value N))
    (handled : Handled N) : Prop where
  inLeaf : handled.inLeaf = leafPair alternative lhs rhs
  root : ∀ change, handled.walk.Records change [] ↔
    leafPair alternative lhs rhs = true ∧ leafChange lhs rhs = some change
  kid : ∀ change {pe : PathElement N} (rest : Path N), pe.isProper = true →
    (handled.walk.Records change (pe :: rest) ↔
      (compareAll sc (kidTypeOf alternative pe) (kidValuesOf sc alternative lhs pe)
        (kidValuesOf sc alternative rhs pe)).Records change rest)
  improper : ∀ change {pe : PathElement N} (rest : Path N), pe.isProper = false →
    ¬ handled.walk.Records change (pe :: rest)
  errs : handled.walk.errs = [] ↔ PairOk sc alternative lhs rhs ∧
    ∀ pe : PathElement N, pe.isProper = true →
      (compareAll sc (kidTypeOf alternative pe) (kidValuesOf sc alternative lhs pe)
        (kidValuesOf sc alternative rhs pe)).errs = []

omit [Consistent N] in
private theorem doLeaf_meets (sc : Schema N) (leaf : leafPair alternative lhs rhs = true)
    (noKids : ∀ pe : PathElement N, pe.isProper = true → kidValuesOf sc alternative lhs pe = [] ∧
      kidValuesOf sc alternative rhs pe = []) :
    (doLeaf lhs rhs).Meets sc alternative lhs rhs := by
  refine ⟨leaf.symm, fun change => ?_, fun change pe rest proper => ?_,
    fun change pe rest _ => ?_, ?_⟩
  · rw [records_doLeaf]
    simp [leaf]
  · rw [(noKids pe proper).1, (noKids pe proper).2, records_doLeaf]
    simp
  · rw [records_doLeaf]
    simp
  · refine iff_of_true (errs_doLeaf lhs rhs) ⟨Or.inl leaf, fun pe proper => ?_⟩
    rw [(noKids pe proper).1, (noKids pe proper).2]
    rfl

omit [Consistent N] in
private theorem doScalar_meets (sc : Schema N) (t : ScalarType) (lhs rhs : Option (Value N)) :
    (doScalar t lhs rhs).Meets sc (.scalar t) lhs rhs := by
  have noKids : ∀ (v : Option (Value N)) (pe : PathElement N),
      kidValuesOf sc (.scalar t) v pe = [] := kidValuesOf_of_isLeaf rfl
  have lengths : leafPair (.scalar t) lhs rhs = !((validateScalar t lhs .lhs).length > 0 &&
      (validateScalar t rhs .rhs).length > 0 : Bool) := by
    simp only [leafPair]
    cases validateScalar t lhs .lhs <;> cases validateScalar t rhs .rhs <;> rfl
  unfold doScalar
  dsimp only
  split
  · next invalid =>
      have notLeaf : leafPair (.scalar t) lhs rhs = false := by rw [lengths, invalid]; rfl
      have failed : validateScalar t lhs .lhs ++ validateScalar t rhs .rhs ≠ [] := by
        intro none
        rw [(List.append_eq_nil_iff.mp none).1] at invalid
        cases invalid
      refine ⟨notLeaf.symm, by simp [notLeaf], fun change pe rest _ => ?_, by simp, ?_⟩
      · rw [noKids, noKids]
        simp
      · simp [PairOk, notLeaf, failed]
  · next valid =>
      refine doLeaf_meets sc ?_ fun pe _ => ⟨noKids lhs pe, noKids rhs pe⟩
      rw [lengths, Bool.eq_false_of_not_eq_true valid]
      rfl

private theorem doList_meets (sc : Schema N) (t : ListType N) (lhs rhs : Option (Value N)) :
    (doList sc (visitKid sc) t lhs rhs).Meets sc (.list t) lhs rhs := by
  have leafIs : leafPair (.list t) lhs rhs = (t.elementRelationship = .atomic ||
      (((derefList lhs).getD []).isEmpty && ((derefList rhs).getD []).isEmpty) : Bool) := rfl
  unfold doList
  dsimp only
  split
  · next leaf =>
      refine doLeaf_meets sc (leafIs.trans leaf) fun pe proper => ?_
      by_cases atomic : t.elementRelationship = .atomic
      · have isLeaf : (Alternative.list t).isLeaf = true := by simpa [Alternative.isLeaf] using atomic
        exact ⟨kidValuesOf_of_isLeaf isLeaf lhs pe, kidValuesOf_of_isLeaf isLeaf rhs pe⟩
      · obtain ⟨noLeft, noRight⟩ : (derefList lhs).getD [] = [] ∧ (derefList rhs).getD [] = [] := by
          simpa [atomic] using leaf
        rw [kidValuesOf_list atomic lhs proper, kidValuesOf_list atomic rhs proper, noLeft, noRight]
        exact ⟨rfl, rfl⟩
  · next granular =>
      have notLeaf : leafPair (.list t) lhs rhs = false := leafIs.trans (by simpa using granular)
      have notAtomic : t.elementRelationship ≠ .atomic := by
        intro atomic
        simp [atomic] at granular
      refine ⟨notLeaf.symm, ?_, fun change pe rest proper => ?_, ?_, ?_⟩
      · simp [notLeaf, not_records_visitListItems]
      · rw [kidValuesOf_list notAtomic lhs proper, kidValuesOf_list notAtomic rhs proper,
          records_visitListItems]
        rfl
      · intro change pe rest improper
        rw [records_visitListItems, itemsAt_of_improper _ improper, itemsAt_of_improper _ improper]
        simp
      · rw [errs_visitListItems]
        refine and_congr (by simp [PairOk, notLeaf]) ⟨?_, ?_⟩
        · intro all pe proper
          rw [kidValuesOf_list notAtomic lhs proper, kidValuesOf_list notAtomic rhs proper]
          exact all pe
        · intro all pe
          by_cases proper : pe.isProper = true
          · have kid := all pe proper
            rwa [kidValuesOf_list notAtomic lhs proper, kidValuesOf_list notAtomic rhs proper] at kid
          · rw [itemsAt_of_improper _ (by simpa using proper),
              itemsAt_of_improper _ (by simpa using proper)]
            rfl

omit [Consistent N] in
private theorem doMap_meets (sc : Schema N) (t : MapType N) (lhs rhs : Option (Value N)) :
    (doMap (visitKid sc) t lhs rhs).Meets sc (.map t) lhs rhs := by
  have leafIs : leafPair (.map t) lhs rhs = (t.elementRelationship = .atomic ||
      (((derefMap lhs).getD []).isEmpty && ((derefMap rhs).getD []).isEmpty) : Bool) := rfl
  have fieldNames : ∀ pe : PathElement N, (∃ name, pe = .fieldName name) ∨
      ∀ name, pe ≠ .fieldName name := by
    intro pe
    cases pe <;> simp
  unfold doMap
  dsimp only
  split
  · next leaf =>
      refine doLeaf_meets sc (leafIs.trans leaf) fun pe proper => ?_
      by_cases atomic : t.elementRelationship = .atomic
      · have isLeaf : (Alternative.map t).isLeaf = true := by simpa [Alternative.isLeaf] using atomic
        exact ⟨kidValuesOf_of_isLeaf isLeaf lhs pe, kidValuesOf_of_isLeaf isLeaf rhs pe⟩
      · obtain ⟨noLeft, noRight⟩ : (derefMap lhs).getD [] = [] ∧ (derefMap rhs).getD [] = [] := by
          simpa [atomic] using leaf
        rcases fieldNames pe with ⟨name, rfl⟩ | differs
        · rw [kidValuesOf_map atomic lhs, kidValuesOf_map atomic rhs, noLeft, noRight]
          exact ⟨rfl, rfl⟩
        · exact ⟨kidValuesOf_map_of_ne lhs differs, kidValuesOf_map_of_ne rhs differs⟩
  · next granular =>
      have notLeaf : leafPair (.map t) lhs rhs = false := leafIs.trans (by simpa using granular)
      have notAtomic : t.elementRelationship ≠ .atomic := by
        intro atomic
        simp [atomic] at granular
      refine ⟨notLeaf.symm, ?_, fun change pe rest proper => ?_, ?_, ?_⟩
      · simp [notLeaf, not_records_visitMapItems]
      · rw [records_visitMapItems]
        rcases fieldNames pe with ⟨name, rfl⟩ | differs
        · rw [kidValuesOf_map notAtomic lhs, kidValuesOf_map notAtomic rhs]
          simp [kidTypeOf]
        · rw [kidValuesOf_map_of_ne lhs differs, kidValuesOf_map_of_ne rhs differs]
          simp [differs]
      · intro change pe rest improper
        rw [records_visitMapItems]
        rintro ⟨name, rfl, -⟩
        cases improper
      · rw [errs_visitMapItems]
        have ok : PairOk sc (.map t) lhs rhs := Or.inr trivial
        refine ⟨fun all => ⟨ok, fun pe proper => ?_⟩, fun all name => ?_⟩
        · rcases fieldNames pe with ⟨name, rfl⟩ | differs
          · rw [kidValuesOf_map notAtomic lhs, kidValuesOf_map notAtomic rhs]
            exact all name
          · rw [kidValuesOf_map_of_ne lhs differs, kidValuesOf_map_of_ne rhs differs]
            rfl
        · have kid := all.2 (.fieldName name) rfl
          rwa [kidValuesOf_map notAtomic lhs, kidValuesOf_map notAtomic rhs] at kid

theorem handle_meets (sc : Schema N) {atom : Atom N}
    (handled : handleAtom atom tr = .ok alternative) :
    (handle sc (visitKid sc) ⟨tr, lhs, rhs⟩ atom).Meets sc alternative lhs rhs := by
  unfold handle
  rw [handled]
  cases alternative with
  | scalar t => exact doScalar_meets sc t lhs rhs
  | list t => exact doList_meets sc t lhs rhs
  | map t => exact doMap_meets sc t lhs rhs

end Compare

end Alternatives

/-! ## Types and values beneath a node -/

omit [Numeric N] in
/-- The type of whatever stands under a path element of a value of a type. -/
def kidType (sc : Schema N) (tr : TypeRef N) (pe : PathElement N) : TypeRef N :=
  match pe with
  | .fieldName name => ((FieldSet.atomAt sc tr).map.map fun t => t.fieldType name).getD .zero
  | _ => ((FieldSet.atomAt sc tr).list.map fun t => t.elementType).getD .zero

/-- The values under a path element of a value that may be absent. -/
def kidValues (sc : Schema N) (tr : TypeRef N) (v : Option (Value N)) (pe : PathElement N) :
    List (Value N) :=
  v.elim [] fun v => (kidsAt sc ⟨tr, v⟩ pe).map Kid.value

@[simp] theorem kidValues_none (sc : Schema N) (tr : TypeRef N) (pe : PathElement N) :
    kidValues sc tr none pe = [] := rfl

theorem kidValues_of_resolved {v : Value N} (resolved : resolveSchema sc tr v = .ok alternative)
    (pe : PathElement N) :
    kidValues sc tr (some v) pe = kidValuesOf sc alternative (some v) pe := by
  simp [kidValues, kidsAt, kids, resolved, kidValuesOf]

theorem not_fieldName_of_listKid {t : ListType N} {item : Value N} {name : String} :
    ¬ ((listKid sc t item).pe == .fieldName name) = true := by
  intro same
  change (itemPathElement sc t item).equals _ = true at same
  rcases itemPathElement_cases sc t item with ⟨fields, named⟩ | ⟨named, _⟩ | named
  all_goals
    rw [named] at same
    cases same

theorem kidType_of_mem {n : Node N} {k : Kid N} (member : k ∈ kidsAt sc n pe)
    (proper : pe.isProper = true) :
    k.type = kidType sc n.type pe := by
  obtain ⟨inKids, same⟩ := mem_kidsAt.mp member
  change k.pe.equals pe = true at same
  rcases mem_kids inKids with ⟨t, item, resolved, _, _, rfl⟩ | ⟨t, entry, resolved, _, _, rfl⟩
  · cases pe with
    | fieldName name => exact absurd same not_fieldName_of_listKid
    | _ => simp [kidType, resolveSchema_list resolved, listKid]
  · change (PathElement.fieldName entry.1 == pe) = true at same
    rw [beq_fieldName.mp same]
    simp [kidType, resolveSchema_map resolved, mapKid]

omit [Numeric N] in
/-- A value with children under the alternative of another value has that
alternative too. -/
theorem resolveSchema_of_kidsOf (resolved : resolveSchema sc tr l = .ok alternative)
    (present : kidsOf sc alternative r ≠ []) : resolveSchema sc tr r = .ok alternative := by
  obtain ⟨k, member⟩ := List.exists_mem_of_ne_nil _ present
  have found : ∃ atom, sc.resolve tr = some atom := by
    unfold resolveSchema at resolved
    split at resolved
    · cases resolved
    · exact ⟨_, ‹_›⟩
  obtain ⟨atom, isAtom⟩ := found
  rcases mem_kidsOf member with ⟨t, item, rfl, _, inItems, _⟩ | ⟨t, entry, rfl, _, inEntries, _⟩
  · have list := resolveSchema_list resolved
    rw [FieldSet.atomAt, isAtom, Option.getD_some] at list
    cases r with
    | list items => simp [resolveSchema, isAtom, deduceAtom, Value.isScalar, Value.isList, list,
        handleAtom]
    | _ => cases inItems
  · have map := resolveSchema_map resolved
    rw [FieldSet.atomAt, isAtom, Option.getD_some] at map
    cases r with
    | map bindings => simp [resolveSchema, isAtom, deduceAtom, Value.isScalar, Value.isList,
        Value.isMap, map, handleAtom]
    | _ => cases inEntries

/-- Values of different alternatives have no path element in common. -/
theorem alternatives_agree {left right : Alternative N}
    (resolvedLeft : resolveSchema sc tr l = .ok left)
    (resolvedRight : resolveSchema sc tr r = .ok right) (inLeft : kidValues sc tr (some l) pe ≠ [])
    (inRight : kidValues sc tr (some r) pe ≠ []) :
    left = right := by
  have someKid : ∀ v, kidValues sc tr (some v) pe ≠ [] →
      ∃ k ∈ kids sc ⟨tr, v⟩, (k.pe == pe) = true := by
    intro v present
    obtain ⟨value, member⟩ := List.exists_mem_of_ne_nil _ present
    obtain ⟨k, inKids, -⟩ := List.mem_map.mp member
    exact ⟨k, mem_kidsAt.mp inKids⟩
  obtain ⟨kl, memberLeft, sameLeft⟩ := someKid l inLeft
  obtain ⟨kr, memberRight, sameRight⟩ := someKid r inRight
  rcases mem_kids memberLeft with ⟨t, x, isLeft, _, _, rfl⟩ | ⟨t, x, isLeft, _, _, rfl⟩
  · rcases mem_kids memberRight with ⟨t', y, isRight, _, _, rfl⟩ | ⟨t', y, isRight, _, _, rfl⟩
    · have same := (resolveSchema_list isLeft).symm.trans (resolveSchema_list isRight)
      cases same
      exact Except.ok.inj (resolvedLeft.symm.trans (isLeft.trans (isRight.symm.trans resolvedRight)))
    · rw [beq_fieldName.mp sameRight] at sameLeft
      exact absurd sameLeft not_fieldName_of_listKid
  · rcases mem_kids memberRight with ⟨t', y, isRight, _, _, rfl⟩ | ⟨t', y, isRight, _, _, rfl⟩
    · rw [beq_fieldName.mp sameLeft] at sameRight
      exact absurd sameRight not_fieldName_of_listKid
    · have same := (resolveSchema_map isLeft).symm.trans (resolveSchema_map isRight)
      cases same
      exact Except.ok.inj (resolvedLeft.symm.trans (isLeft.trans (isRight.symm.trans resolvedRight)))

/-- Under an alternative of one value, another value has its own children or none. -/
theorem kidValuesOf_cases (resolved : resolveSchema sc tr l = .ok alternative)
    (pe : PathElement N) :
    kidValuesOf sc alternative (some r) pe = [] ∨ resolveSchema sc tr r = .ok alternative := by
  by_cases present : kidsOf sc alternative r = []
  · exact Or.inl (by simp [kidValuesOf, present])
  · exact Or.inr (resolveSchema_of_kidsOf resolved present)

omit [Numeric N] in
theorem kidType_map {v : Value N} {t : MapType N} (resolved : resolveSchema sc tr v = .ok (.map t))
    (name : String) : kidType sc tr (.fieldName name) = t.fieldType name := by
  simp [kidType, resolveSchema_map resolved]

theorem kidTypeOf_eq {v : Value N} (resolved : resolveSchema sc tr v = .ok alternative)
    (proper : pe.isProper = true) (present : kidValues sc tr (some v) pe ≠ []) :
    kidTypeOf alternative pe = kidType sc tr pe := by
  obtain ⟨value, member⟩ := List.exists_mem_of_ne_nil _ present
  obtain ⟨k, inKidsAt, -⟩ := List.mem_map.mp member
  rw [← kidType_of_mem inKidsAt proper]
  obtain ⟨inKids, same⟩ := mem_kidsAt.mp inKidsAt
  rcases mem_kids inKids with ⟨t, x, isList, _, _, rfl⟩ | ⟨t, x, isMap, _, _, rfl⟩
  · cases Except.ok.inj (resolved.symm.trans isList)
    rfl
  · cases Except.ok.inj (resolved.symm.trans isMap)
    rw [beq_fieldName.mp same]
    rfl

/-- The comparison of what two values hold under a path element. -/
abbrev kidWalk (sc : Schema N) (tr : TypeRef N) (lhs rhs : Option (Value N)) (pe : PathElement N) :
    CompareWalk N :=
  compareAll sc (kidType sc tr pe) (kidValues sc tr lhs pe) (kidValues sc tr rhs pe)

/-- The same under one alternative of the type. -/
abbrev kidWalkOf (sc : Schema N) (alternative : Alternative N) (lhs rhs : Option (Value N))
    (pe : PathElement N) : CompareWalk N :=
  compareAll sc (kidTypeOf alternative pe) (kidValuesOf sc alternative lhs pe)
    (kidValuesOf sc alternative rhs pe)

theorem kidWalkOf_eq (left : ∀ v, lhs = some v → resolveSchema sc tr v = .ok alternative)
    (right : ∀ v, rhs = some v → resolveSchema sc tr v = .ok alternative)
    (proper : pe.isProper = true) :
    kidWalkOf sc alternative lhs rhs pe = kidWalk sc tr lhs rhs pe := by
  have values : ∀ side : Option (Value N),
      (∀ v, side = some v → resolveSchema sc tr v = .ok alternative) →
      kidValuesOf sc alternative side pe = kidValues sc tr side pe ∧
        (kidValues sc tr side pe ≠ [] → kidTypeOf alternative pe = kidType sc tr pe) := by
    intro side resolved
    cases side with
    | none => exact ⟨rfl, fun present => absurd rfl present⟩
    | some v => exact ⟨(kidValues_of_resolved (resolved v rfl) pe).symm,
        kidTypeOf_eq (resolved v rfl) proper⟩
  obtain ⟨sameLeft, typeLeft⟩ := values lhs left
  obtain ⟨sameRight, typeRight⟩ := values rhs right
  rw [kidWalkOf, kidWalk, sameLeft, sameRight]
  by_cases noLeft : kidValues sc tr lhs pe = []
  · by_cases noRight : kidValues sc tr rhs pe = []
    · rw [noLeft, noRight]
      rfl
    · rw [typeRight noRight]
  · rw [typeLeft noLeft]

/-- Walking two values under the alternative of either finds what they hold
under the path element; `Finds` is any property that an empty walk does not have. -/
theorem kidWalkOf_join {left right : Alternative N}
    (resolvedLeft : resolveSchema sc tr l = .ok left)
    (resolvedRight : resolveSchema sc tr r = .ok right) (proper : pe.isProper = true)
    (Finds : CompareWalk N → Prop) (nothing : ¬ Finds .nothing) :
    (Finds (kidWalkOf sc left (some l) (some r) pe) ∨
        Finds (kidWalkOf sc right (some l) (some r) pe)) ↔
      Finds (kidWalk sc tr (some l) (some r) pe) := by
  by_cases same : left = right
  · subst same
    rw [or_self, kidWalkOf_eq (by simpa using resolvedLeft) (by simpa using resolvedRight) proper]
  · have onlyLeft : kidWalkOf sc left (some l) (some r) pe = kidWalk sc tr (some l) none pe := by
      have none : kidValuesOf sc left (some r) pe = [] := by
        rcases kidValuesOf_cases resolvedLeft (r := r) pe with none | other
        · exact none
        · exact absurd (Except.ok.inj (other.symm.trans resolvedRight)) same
      rw [← kidWalkOf_eq (by simpa using resolvedLeft) (by simp) proper, kidWalkOf, none]
      rfl
    have onlyRight : kidWalkOf sc right (some l) (some r) pe = kidWalk sc tr none (some r) pe := by
      have none : kidValuesOf sc right (some l) pe = [] := by
        rcases kidValuesOf_cases resolvedRight (r := l) pe with none | other
        · exact none
        · exact absurd (Except.ok.inj (resolvedLeft.symm.trans other)) same
      rw [← kidWalkOf_eq (by simp) (by simpa using resolvedRight) proper, kidWalkOf, none]
      rfl
    rw [onlyLeft, onlyRight]
    by_cases noLeft : kidValues sc tr (some l) pe = []
    · simp [kidWalk, noLeft, nothing]
    · by_cases noRight : kidValues sc tr (some r) pe = []
      · simp [kidWalk, noRight, nothing]
      · exact absurd (alternatives_agree resolvedLeft resolvedRight noLeft noRight) same

/-! ## The walk -/

/-- Narrowings of one type that compare equal are the same. -/
theorem deduceAtom_eq_of_equals {atom : Atom N} {v w : Value N}
    (same : (deduceAtom atom v).equals (deduceAtom atom w) = true) :
    deduceAtom atom v = deduceAtom atom w := by
  obtain ⟨scalar, list, map⟩ := atom
  unfold deduceAtom at *
  cases scalar <;> cases list <;> cases map <;> cases v <;> cases w <;>
    simp_all [Value.isScalar, Value.isList, Value.isMap, Atom.equals]

section Walk

variable [Consistent N]

open Compare

/-- The change recorded for a pair itself. -/
def RootChange (sc : Schema N) (tr : TypeRef N) (change : Change) :
    Option (Value N) → Option (Value N) → Prop
  | none, none => False
  | none, some _ => change = .added ∧ (sc.resolve tr).isSome = true
  | some _, none => change = .removed ∧ (sc.resolve tr).isSome = true
  | some l, some r => change = .modified ∧ (r == l) = false ∧
      ∃ alternative, (resolveSchema sc tr l = .ok alternative ∨
        resolveSchema sc tr r = .ok alternative) ∧ leafPair alternative (some l) (some r) = true

/-- What a comparison records and when it fails, one level at a time. -/
structure CompareWalk.Meets (sc : Schema N) (tr : TypeRef N) (lhs rhs : Option (Value N))
    (walk : CompareWalk N) : Prop where
  root : ∀ change, walk.Records change [] ↔ RootChange sc tr change lhs rhs
  kid : ∀ change {pe : PathElement N} (rest : Path N), pe.isProper = true →
    (walk.Records change (pe :: rest) ↔ (kidWalk sc tr lhs rhs pe).Records change rest)
  improper : ∀ change {pe : PathElement N} (rest : Path N), pe.isProper = false →
    ¬ walk.Records change (pe :: rest)
  errs : walk.errs = [] ↔ (lhs ≠ none ∨ rhs ≠ none) ∧
    (∀ v, lhs = some v ∨ rhs = some v →
      ∃ alternative, resolveSchema sc tr v = .ok alternative ∧ PairOk sc alternative lhs rhs) ∧
    ∀ pe : PathElement N, pe.isProper = true → (kidWalk sc tr lhs rhs pe).errs = []

section

omit [Consistent N]

theorem kidValues_of_error {v : Value N} {message : Message N}
    (failed : resolveSchema sc tr v = .error message) (pe : PathElement N) :
    kidValues sc tr (some v) pe = [] := by
  simp [kidValues, kidsAt, kids, failed]

private theorem meets_of_oneSided {handled : Handled N} {v : Value N} {side : Change}
    (meets : handled.Meets sc alternative lhs rhs)
    (resolved : resolveSchema sc tr v = .ok alternative)
    (isSide : (lhs = none ∧ rhs = some v ∧ side = .added) ∨
      (lhs = some v ∧ rhs = none ∧ side = .removed)) :
    CompareWalk.Meets sc tr lhs rhs
      (if handled.inLeaf then handled.walk else handled.walk.append (.only side [])) := by
  have kids : ∀ {pe : PathElement N}, pe.isProper = true →
      kidWalkOf sc alternative lhs rhs pe = kidWalk sc tr lhs rhs pe := by
    rcases isSide with ⟨rfl, rfl, -⟩ | ⟨rfl, rfl, -⟩
    · exact kidWalkOf_eq (by simp) (by simpa using resolved)
    · exact kidWalkOf_eq (by simpa using resolved) (by simp)
  have isResolved : (sc.resolve tr).isSome = true := by
    unfold resolveSchema at resolved
    cases found : sc.resolve tr with
    | none => rw [found] at resolved; cases resolved
    | some atom => rfl
  have leaf : leafChange lhs rhs = some side := by
    rcases isSide with ⟨rfl, rfl, rfl⟩ | ⟨rfl, rfl, rfl⟩ <;> rfl
  have root : ∀ change, RootChange sc tr change lhs rhs ↔ side = change := by
    intro change
    rcases isSide with ⟨rfl, rfl, rfl⟩ | ⟨rfl, rfl, rfl⟩ <;>
      simp [RootChange, isResolved, eq_comm]
  have operands : (lhs ≠ none ∨ rhs ≠ none) ∧ ∀ w, lhs = some w ∨ rhs = some w ↔ v = w := by
    rcases isSide with ⟨rfl, rfl, -⟩ | ⟨rfl, rfl, -⟩ <;> simp
  have marker : ∀ change, (CompareWalk.only side [] : CompareWalk N).Records change [] ↔
      side = change := by
    intro change
    rw [CompareWalk.records_only]
    simp
  have notBeneath : ∀ change (pe : PathElement N) (rest : Path N),
      ¬ (CompareWalk.only side [] : CompareWalk N).Records change (pe :: rest) := by
    intro change pe rest
    rw [CompareWalk.records_only]
    simp
  have errs : handled.walk.errs = [] ↔ (lhs ≠ none ∨ rhs ≠ none) ∧
      (∀ w, lhs = some w ∨ rhs = some w →
        ∃ alternative, resolveSchema sc tr w = .ok alternative ∧ PairOk sc alternative lhs rhs) ∧
      ∀ pe : PathElement N, pe.isProper = true → (kidWalk sc tr lhs rhs pe).errs = [] := by
    rw [meets.errs, and_iff_right operands.1]
    refine and_congr ⟨?_, ?_⟩ (forall₂_congr fun pe proper => by rw [← kids proper])
    · intro ok w isOperand
      rw [← (operands.2 w).mp isOperand]
      exact ⟨alternative, resolved, ok⟩
    · intro all
      obtain ⟨other, resolvedOther, ok⟩ := all v ((operands.2 v).mpr rfl)
      cases Except.ok.inj (resolved.symm.trans resolvedOther)
      exact ok
  split
  · next inLeaf =>
      rw [meets.inLeaf] at inLeaf
      refine ⟨fun change => ?_, fun change pe rest proper => ?_, meets.improper, errs⟩
      · rw [meets.root, root, leaf, inLeaf]
        simp
      · rw [meets.kid change rest proper, ← kids proper]
  · next inLeaf =>
      rw [meets.inLeaf] at inLeaf
      refine ⟨fun change => ?_, fun change pe rest proper => ?_, fun change pe rest improper => ?_,
        ?_⟩
      · rw [CompareWalk.records_append, meets.root, root, marker]
        simp [inLeaf]
      · rw [CompareWalk.records_append, meets.kid change rest proper, ← kids proper]
        simp [notBeneath]
      · rw [CompareWalk.records_append]
        simp [notBeneath, meets.improper change rest improper]
      · rw [CompareWalk.errs_append, ← errs]
        simp

private theorem meets_of_twoSided {left right : Alternative N}
    {handledLeft handledRight : Handled N} {walk : CompareWalk N}
    (resolvedLeft : resolveSchema sc tr l = .ok left)
    (resolvedRight : resolveSchema sc tr r = .ok right)
    (meetsLeft : handledLeft.Meets sc left (some l) (some r))
    (meetsRight : handledRight.Meets sc right (some l) (some r))
    (records : ∀ change path, walk.Records change path ↔
      handledLeft.walk.Records change path ∨ handledRight.walk.Records change path)
    (failed : walk.errs = [] ↔ handledLeft.walk.errs = [] ∧ handledRight.walk.errs = []) :
    CompareWalk.Meets sc tr (some l) (some r) walk := by
  refine ⟨fun change => ?_, fun change pe rest proper => ?_, fun change pe rest improper => ?_, ?_⟩
  · have leaf : leafChange (some l) (some r) = some change ↔
        change = .modified ∧ (r == l) = false := by
      simp only [leafChange]
      split
      · next same => simp [same]
      · next differs => simp [differs, eq_comm]
    rw [records, meetsLeft.root, meetsRight.root, leaf, RootChange]
    constructor
    · rintro (⟨isLeaf, isChange, differs⟩ | ⟨isLeaf, isChange, differs⟩)
      · exact ⟨isChange, differs, left, Or.inl resolvedLeft, isLeaf⟩
      · exact ⟨isChange, differs, right, Or.inr resolvedRight, isLeaf⟩
    · rintro ⟨isChange, differs, alternative, resolved | resolved, isLeaf⟩
      · cases Except.ok.inj (resolvedLeft.symm.trans resolved)
        exact Or.inl ⟨isLeaf, isChange, differs⟩
      · cases Except.ok.inj (resolvedRight.symm.trans resolved)
        exact Or.inr ⟨isLeaf, isChange, differs⟩
  · rw [records, meetsLeft.kid change rest proper, meetsRight.kid change rest proper]
    exact kidWalkOf_join resolvedLeft resolvedRight proper
      (fun walk => walk.Records change rest) CompareWalk.records_nothing
  · rw [records]
    simp [meetsLeft.improper change rest improper, meetsRight.improper change rest improper]
  · have joined : ∀ pe : PathElement N, pe.isProper = true →
        ((kidWalkOf sc left (some l) (some r) pe).errs = [] ∧
          (kidWalkOf sc right (some l) (some r) pe).errs = [] ↔
        (kidWalk sc tr (some l) (some r) pe).errs = []) := by
      intro pe proper
      have join := kidWalkOf_join resolvedLeft resolvedRight proper
        (fun walk => walk.errs ≠ []) (by simp)
      rw [← not_iff_not, not_and_or]
      exact join
    rw [failed, meetsLeft.errs, meetsRight.errs]
    constructor
    · rintro ⟨⟨okLeft, kidsLeft⟩, okRight, kidsRight⟩
      refine ⟨Or.inl (by simp), ?_, fun pe proper =>
        (joined pe proper).mp ⟨kidsLeft pe proper, kidsRight pe proper⟩⟩
      rintro v (isLeft | isRight)
      · cases isLeft
        exact ⟨left, resolvedLeft, okLeft⟩
      · cases isRight
        exact ⟨right, resolvedRight, okRight⟩
    · rintro ⟨-, ok, kids⟩
      obtain ⟨other, resolved, okLeft⟩ := ok l (Or.inl rfl)
      cases Except.ok.inj (resolvedLeft.symm.trans resolved)
      obtain ⟨other, resolved, okRight⟩ := ok r (Or.inr rfl)
      cases Except.ok.inj (resolvedRight.symm.trans resolved)
      exact ⟨⟨okLeft, fun pe proper => ((joined pe proper).mpr (kids pe proper)).1⟩,
        okRight, fun pe proper => ((joined pe proper).mpr (kids pe proper)).2⟩

end

omit [Numeric N] [Consistent N] in
/-- A type without any alternative fails for all values. -/
theorem resolveSchema_error_congr {v : Value N} {message : Message N}
    (failed : resolveSchema sc tr v = .error message) (w : Value N) :
    resolveSchema sc tr w = .error message := by
  unfold resolveSchema at *
  cases found : sc.resolve tr with
  | none => rw [found] at failed; exact failed
  | some atom =>
      rw [found] at failed
      obtain ⟨scalar, list, map⟩ := atom
      cases scalar <;> cases list <;> cases map <;> cases v <;>
        simp [deduceAtom, Value.isScalar, Value.isList, Value.isMap, handleAtom] at failed
      all_goals
        subst failed
        cases w <;> rfl

section

omit [Consistent N]

private theorem meets_of_error {message : Message N} {walk : CompareWalk N}
    (failed : ∀ v, resolveSchema sc tr v = .error message) (present : lhs ≠ none ∨ rhs ≠ none)
    (records : ∀ change path, walk.Records change path ↔
      path = [] ∧ RootChange sc tr change lhs rhs) (errs : walk.errs ≠ []) :
    CompareWalk.Meets sc tr lhs rhs walk := by
  have noKids : ∀ (side : Option (Value N)) pe, kidValues sc tr side pe = [] := by
    intro side pe
    cases side with
    | none => rfl
    | some v => exact kidValues_of_error (failed v) pe
  refine ⟨fun change => by simp [records], fun change pe rest _ => ?_, by simp [records], ?_⟩
  · rw [records, kidWalk, noKids, noKids]
    simp
  · refine iff_of_false errs ?_
    rintro ⟨-, ok, -⟩
    have someOperand : ∃ v, lhs = some v ∨ rhs = some v := by
      cases lhs with
      | some v => exact ⟨v, Or.inl rfl⟩
      | none =>
          cases rhs with
          | some v => exact ⟨v, Or.inr rfl⟩
          | none => simp at present
    obtain ⟨v, isOperand⟩ := someOperand
    obtain ⟨alternative, resolved, -⟩ := ok v isOperand
    rw [failed v] at resolved
    cases resolved

private theorem not_rootChange_of_error {change : Change} {message : Message N}
    (failed : ∀ v, resolveSchema sc tr v = .error message) :
    ¬ RootChange sc tr change (some l) (some r) := by
  rintro ⟨-, -, alternative, resolved | resolved, -⟩
  · rw [failed l] at resolved
    cases resolved
  · rw [failed r] at resolved
    cases resolved

private theorem meets_of_unresolved (missing : sc.resolve tr = none)
    (present : lhs ≠ none ∨ rhs ≠ none) :
    CompareWalk.Meets sc tr lhs rhs (.ofErrors (errorf (.noTypeFound tr.namedType))) := by
  have failed : ∀ v : Value N, resolveSchema sc tr v = .error (.noTypeFound tr.namedType) := by
    intro v
    simp [resolveSchema, missing]
  refine meets_of_error failed present (fun change path => ?_) (by simp [errorf])
  refine iff_of_false CompareWalk.records_ofErrors ?_
  rintro ⟨-, root⟩
  cases lhs with
  | none =>
      cases rhs with
      | none => exact root
      | some _ => simp [RootChange, missing] at root
  | some _ =>
      cases rhs with
      | none => simp [RootChange, missing] at root
      | some _ => exact not_rootChange_of_error failed root

end

private theorem meets_of_handled {atom : Atom N} {v : Value N} {side : Change}
    (found : sc.resolve tr = some atom) (isSide : (lhs = none ∧ rhs = some v ∧ side = .added) ∨
      (lhs = some v ∧ rhs = none ∧ side = .removed)) :
    CompareWalk.Meets sc tr lhs rhs
      (if (handle sc (visitKid sc) ⟨tr, lhs, rhs⟩ (deduceAtom atom v)).inLeaf then
        (handle sc (visitKid sc) ⟨tr, lhs, rhs⟩ (deduceAtom atom v)).walk
      else (handle sc (visitKid sc) ⟨tr, lhs, rhs⟩ (deduceAtom atom v)).walk.append
        (.only side [])) := by
  have resolves : resolveSchema sc tr v = handleAtom (deduceAtom atom v) tr := by
    simp [resolveSchema, found]
  cases handled : handleAtom (deduceAtom atom v) tr with
  | ok alternative =>
      exact meets_of_oneSided (handle_meets sc handled) (resolves.trans handled) isSide
  | error message =>
      have failed := resolveSchema_error_congr (resolves.trans handled)
      have walk : handle sc (visitKid sc) ⟨tr, lhs, rhs⟩ (deduceAtom atom v) =
          ⟨.ofErrors (errorf message), false⟩ := by
        simp [handle, handled]
      have root : ∀ change, RootChange sc tr change lhs rhs ↔ side = change := by
        intro change
        rcases isSide with ⟨rfl, rfl, rfl⟩ | ⟨rfl, rfl, rfl⟩ <;>
          simp [RootChange, found, eq_comm]
      have present : lhs ≠ none ∨ rhs ≠ none := by
        rcases isSide with ⟨-, rfl, -⟩ | ⟨rfl, -, -⟩ <;> simp
      rw [walk, if_neg (by simp)]
      refine meets_of_error failed present (fun change path => ?_) ?_
      · rw [CompareWalk.records_append, CompareWalk.records_only, root, and_comm]
        cases path <;> simp
      · rw [ne_eq, CompareWalk.errs_append]
        simp [errorf]

theorem compareWalk_meets (sc : Schema N) (tr : TypeRef N) (lhs rhs : Option (Value N)) :
    CompareWalk.Meets sc tr lhs rhs (compareWalk sc tr lhs rhs) := by
  rw [compareWalk_eq]
  unfold body
  match lhs, rhs with
  | none, none =>
      refine ⟨by simp [RootChange], fun change pe rest _ => ?_, by simp, ?_⟩
      · simp [kidWalk]
      · simp [errorf]
  | none, some r =>
      cases found : sc.resolve tr with
      | none => exact meets_of_unresolved found (by simp)
      | some atom => exact meets_of_handled found (Or.inl ⟨rfl, rfl, rfl⟩)
  | some l, none =>
      cases found : sc.resolve tr with
      | none => exact meets_of_unresolved found (by simp)
      | some atom => exact meets_of_handled found (Or.inr ⟨rfl, rfl, rfl⟩)
  | some l, some r =>
      cases found : sc.resolve tr with
      | none => exact meets_of_unresolved found (by simp)
      | some atom =>
          have resolves : ∀ v, resolveSchema sc tr v = handleAtom (deduceAtom atom v) tr := by
            intro v
            simp [resolveSchema, found]
          dsimp only [deduceAtomOf]
          cases handled : handleAtom (deduceAtom atom l) tr with
          | ok left =>
              have resolvedLeft := (resolves l).trans handled
              cases handledRight : handleAtom (deduceAtom atom r) tr with
              | error message =>
                  have failed := resolveSchema_error_congr ((resolves r).trans handledRight) l
                  rw [resolvedLeft] at failed
                  cases failed
              | ok right =>
                  have resolvedRight := (resolves r).trans handledRight
                  split
                  · next same =>
                      have sameAlternative : right = left := by
                        rw [← deduceAtom_eq_of_equals same, handled] at handledRight
                        exact (Except.ok.inj handledRight).symm
                      subst sameAlternative
                      exact meets_of_twoSided resolvedLeft resolvedRight
                        (handle_meets sc handledRight) (handle_meets sc handledRight)
                        (by simp) (by simp)
                  · exact meets_of_twoSided resolvedLeft resolvedRight (handle_meets sc handled)
                      (handle_meets sc handledRight) (by simp) (by simp)
          | error message =>
              have failed := resolveSchema_error_congr ((resolves l).trans handled)
              have walk : ∀ v, handle sc (visitKid sc) ⟨tr, some l, some r⟩ (deduceAtom atom v) =
                  ⟨.ofErrors (errorf message), false⟩ := by
                intro v
                simp [handle, ← resolves v, failed v]
              rw [walk, walk]
              refine meets_of_error failed (by simp) (fun change path => ?_) ?_
              · refine iff_of_false ?_ fun root => not_rootChange_of_error failed root.2
                split <;> simp
              · split
                · simp [errorf]
                · rw [ne_eq, CompareWalk.errs_append]
                  simp [errorf]

end Walk

end StructuredMergeDiff.Typed
