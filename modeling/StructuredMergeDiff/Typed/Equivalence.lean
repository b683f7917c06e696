import StructuredMergeDiff.Typed.Difference

/-!
Contract: an empty comparison means that the objects are equivalent.

Owns: `Equivalent`, the sameness of two values up to the order of the items of
associative lists, and that a comparison records nothing exactly for
equivalent values.
-/

namespace StructuredMergeDiff.Typed

open Library Std Compare

variable {N : Type} [Numeric N] {sc : Schema N} {tr : TypeRef N}

/-- A value that is compared as a whole: a scalar, an atomic list or map, null or an
empty container. -/
def AsLeaf (sc : Schema N) (n : Node N) : Prop :=
  holdsItself sc n = true ∨ (n.value.items = [] ∧ n.value.entries = [])

/-- A path element occurs on neither side, once on both, or repeatedly on both with
equal items in order. -/
def SameCount (ls rs : List (Value N)) : Prop :=
  (ls = [] ∧ rs = []) ∨ (ls.length = 1 ∧ rs.length = 1) ∨
    (2 ≤ ls.length ∧ 2 ≤ rs.length ∧ listEqual ls rs = true)

/-- Leaves are equal, maps have equivalent values under the same keys, and associative
lists equivalent items under the same path elements, in any order. -/
inductive Equivalent (sc : Schema N) : TypeRef N → Value N → Value N → Prop
  | leaf {tr : TypeRef N} {l r : Value N} (left : AsLeaf sc ⟨tr, l⟩) (right : AsLeaf sc ⟨tr, r⟩)
      (same : (l == r) = true) : Equivalent sc tr l r
  | map {tr : TypeRef N} {t : MapType N} {ls rs : List (String × Value N)}
      (resolved : resolveSchema sc tr (.map ls) = .ok (.map t))
      (granular : t.elementRelationship ≠ .atomic)
      (keys : ∀ name, ((Value.map ls).get? name).isSome = ((Value.map rs).get? name).isSome)
      (values : ∀ name l r, (Value.map ls).get? name = some l → (Value.map rs).get? name = some r →
        Equivalent sc (t.fieldType name) l r) :
      Equivalent sc tr (.map ls) (.map rs)
  | list {tr : TypeRef N} {t : ListType N} {ls rs : List (Value N)}
      (resolved : resolveSchema sc tr (.list ls) = .ok (.list t))
      (granular : t.elementRelationship ≠ .atomic)
      (counts : ∀ pe, SameCount (itemsAt sc t ls pe) (itemsAt sc t rs pe))
      (items : ∀ pe l r, itemsAt sc t ls pe = [l] → itemsAt sc t rs pe = [r] →
        Equivalent sc t.elementType l r) :
      Equivalent sc tr (.list ls) (.list rs)

/-- The walk records nothing. -/
def CompareWalk.Silent (walk : CompareWalk N) : Prop :=
  ∀ change path, ¬ walk.Records change path

section Silence

variable [Consistent N]

theorem compareWalk_silent_iff {lhs rhs : Option (Value N)} :
    (compareWalk sc tr lhs rhs).Silent ↔
      (∀ change, ¬ RootChange sc tr change lhs rhs) ∧
        ∀ pe : PathElement N, pe.isProper = true → (kidWalk sc tr lhs rhs pe).Silent := by
  have meets := compareWalk_meets sc tr lhs rhs
  constructor
  · intro silent
    refine ⟨fun change root => silent change [] ((meets.root change).mpr root),
      fun pe proper change rest recorded => ?_⟩
    exact silent change (pe :: rest) ((meets.kid change rest proper).mpr recorded)
  · rintro ⟨root, kids⟩ change path recorded
    cases path with
    | nil => exact root change ((meets.root change).mp recorded)
    | cons pe rest =>
        by_cases proper : pe.isProper = true
        · exact kids pe proper change rest ((meets.kid change rest proper).mp recorded)
        · exact meets.improper change rest (by simpa using proper) recorded

/-- A comparison with one side only is never silent. -/
theorem not_silent_of_oneSided {v : Value N} (resolves : (sc.resolve tr).isSome = true) :
    ¬ (compareWalk sc tr none (some v)).Silent ∧ ¬ (compareWalk sc tr (some v) none).Silent := by
  rw [compareWalk_silent_iff, compareWalk_silent_iff]
  exact ⟨fun silent => silent.1 .added ⟨rfl, resolves⟩,
    fun silent => silent.1 .removed ⟨rfl, resolves⟩⟩

omit [Consistent N] in
theorem not_silent_only (change : Change) : ¬ (CompareWalk.only change [] : CompareWalk N).Silent :=
  fun silent => silent change [] (CompareWalk.records_only.mpr ⟨rfl, rfl⟩)

omit [Consistent N] in
theorem silent_append {first second : CompareWalk N} :
    (first.append second).Silent ↔ first.Silent ∧ second.Silent := by
  simp [CompareWalk.Silent, forall_and]

/-- The comparison of all values under a path element is silent if they occur alike. -/
theorem compareAll_silent_iff {ls rs : List (Value N)}
    (resolves : ls ≠ [] ∨ rs ≠ [] → (sc.resolve tr).isSome = true) :
    (compareAll sc tr ls rs).Silent ↔ SameCount ls rs ∧
      ∀ l r, ls = [l] → rs = [r] → (compareWalk sc tr (some l) (some r)).Silent := by
  have nothing : (CompareWalk.nothing : CompareWalk N).Silent :=
    fun change path => CompareWalk.records_nothing
  match ls, rs with
  | [], [] => simp [SameCount, nothing]
  | [], [r] => simp [SameCount, compareAll, (not_silent_of_oneSided (resolves (by simp))).1]
  | [l], [] => simp [SameCount, compareAll, (not_silent_of_oneSided (resolves (by simp))).2]
  | [l], [r] => simp [SameCount, compareAll]
  | l :: l' :: ls, r :: r' :: rs =>
      simp only [compareAll]
      split
      · next equal => simp [SameCount, nothing, equal]
      · next differs => simp [SameCount, not_silent_only, differs]
  | _ :: _ :: _, [] => simp [SameCount, compareAll, not_silent_only]
  | _ :: _ :: _, [r] => simp [SameCount, compareAll, silent_append, not_silent_only]
  | [], _ :: _ :: _ => simp [SameCount, compareAll, not_silent_only]
  | [l], _ :: _ :: _ => simp [SameCount, compareAll, silent_append, not_silent_only]

theorem kidWalk_silent_iff {left right : Bool} {lhs rhs : Option (Value N)}
    (soundLeft : SoundSide sc left tr lhs) (soundRight : SoundSide sc right tr rhs)
    {pe : PathElement N} (proper : pe.isProper = true) :
    (kidWalk sc tr lhs rhs pe).Silent ↔
      SameCount (kidValues sc tr lhs pe) (kidValues sc tr rhs pe) ∧
        ∀ l r, kidValues sc tr lhs pe = [l] → kidValues sc tr rhs pe = [r] →
          (compareWalk sc (kidType sc tr pe) (some l) (some r)).Silent := by
  apply compareAll_silent_iff
  rintro (present | present)
  · obtain ⟨v, member⟩ := List.exists_mem_of_ne_nil _ present
    exact (soundSide_some.mpr (soundLeft.kid proper member)).resolves
  · obtain ⟨v, member⟩ := List.exists_mem_of_ne_nil _ present
    exact (soundSide_some.mpr (soundRight.kid proper member)).resolves

theorem silent_of_kids {left right : Bool} {l r : Value N} (soundLeft : Sound sc left ⟨tr, l⟩)
    (soundRight : Sound sc right ⟨tr, r⟩)
    (root : ∀ change, ¬ RootChange sc tr change (some l) (some r))
    (kids : ∀ pe : PathElement N, pe.isProper = true →
      SameCount (kidValues sc tr (some l) pe) (kidValues sc tr (some r) pe) ∧
        ∀ x y, kidValues sc tr (some l) pe = [x] → kidValues sc tr (some r) pe = [y] →
          Sound sc left ⟨kidType sc tr pe, x⟩ → Sound sc right ⟨kidType sc tr pe, y⟩ →
          (compareWalk sc (kidType sc tr pe) (some x) (some y)).Silent) :
    (compareWalk sc tr (some l) (some r)).Silent := by
  have sideLeft := soundSide_some.mpr soundLeft
  have sideRight := soundSide_some.mpr soundRight
  refine compareWalk_silent_iff.mpr ⟨root, fun pe proper => ?_⟩
  obtain ⟨counts, silent⟩ := kids pe proper
  refine (kidWalk_silent_iff sideLeft sideRight proper).mpr ⟨counts, fun x y isLeft isRight => ?_⟩
  exact silent x y isLeft isRight (sideLeft.kid proper (by simp [isLeft]))
    (sideRight.kid proper (by simp [isRight]))

end Silence

/-! ## Leaves -/

section Leaves

variable [Consistent N] {allowDuplicates : Bool} {n : Node N}

omit [Numeric N] [Consistent N] in
theorem kids_of_asLeaf (leaf : AsLeaf sc n) : kids sc n = [] := by
  rcases leaf with itself | ⟨noItems, noEntries⟩
  · exact kids_of_holdsItself itself
  · unfold kids
    split
    · exact kidsOf_eq_nil _ noItems noEntries
    · rfl

theorem asLeaf_of_no_kids (sound : Sound sc allowDuplicates n) (none : kids sc n = []) :
    AsLeaf sc n := by
  obtain ⟨alternative, resolved, fits⟩ := sound.alternative
  by_cases leaf : alternative.isLeaf = true
  · exact Or.inl (by simp [holdsItself, resolved, leaf])
  · refine Or.inr ?_
    simp only [kids, resolved] at none
    cases alternative with
    | scalar t => exact absurd rfl leaf
    | list t =>
        rcases fits with isNull | ⟨items, isList, -⟩
        · rw [isNull]
          exact ⟨rfl, rfl⟩
        · have granular : t.elementRelationship ≠ .atomic := by
            simpa [Alternative.isLeaf] using leaf
          rw [kidsOf, if_neg granular, List.map_eq_nil_iff] at none
          exact ⟨none, by rw [isList]; rfl⟩
    | map t =>
        rcases fits with isNull | ⟨bindings, isMap, -⟩
        · rw [isNull]
          exact ⟨rfl, rfl⟩
        · have granular : t.elementRelationship ≠ .atomic := by
            simpa [Alternative.isLeaf] using leaf
          rw [kidsOf, if_neg granular, List.map_eq_nil_iff] at none
          exact ⟨by rw [isMap]; rfl, none⟩

omit [Consistent N] in
/-- Two values without children are compared as leaves. -/
theorem leafPair_of_no_kids {l r : Value N} {alternative : Alternative N}
    (resolved : resolveSchema sc tr l = .ok alternative)
    (fits : Fits sc allowDuplicates l alternative) (noLeft : kids sc ⟨tr, l⟩ = [])
    (noRight : kids sc ⟨tr, r⟩ = []) : leafPair alternative (some l) (some r) = true := by
  have noRight : kidsOf sc alternative r = [] := by
    by_contra present
    simp only [kids, resolveSchema_of_kidsOf resolved present] at noRight
    exact present noRight
  simp only [kids, resolved] at noLeft
  cases alternative with
  | scalar t =>
      have valid : validateScalar t (some l) .lhs = [] := validateScalar_side.mp fits
      simp [leafPair, valid]
  | list t =>
      by_cases atomic : t.elementRelationship = .atomic
      · simp [leafPair, atomic]
      · rw [kidsOf, if_neg atomic, List.map_eq_nil_iff] at noLeft noRight
        simp [leafPair, derefList_getD, noLeft, noRight]
  | map t =>
      by_cases atomic : t.elementRelationship = .atomic
      · simp [leafPair, atomic]
      · rw [kidsOf, if_neg atomic, List.map_eq_nil_iff] at noLeft noRight
        simp [leafPair, derefMap_getD, noLeft, noRight]

end Leaves

/-! ## Silence and equivalence -/

section Equivalence

variable [Consistent N]

section

omit [Consistent N]

/-- The values that a granular list holds under a path element. -/
theorem kidValues_list {t : ListType N} {items : List (Value N)}
    (resolved : resolveSchema sc tr (.list items) = .ok (.list t))
    (granular : t.elementRelationship ≠ .atomic) {pe : PathElement N}
    (proper : pe.isProper = true) :
    kidValues sc tr (some (.list items)) pe = itemsAt sc t items pe := by
  rw [kidValues_of_resolved resolved, kidValuesOf_list granular _ proper, derefList_getD]
  rfl

theorem kidType_list {t : ListType N} {items : List (Value N)}
    (resolved : resolveSchema sc tr (.list items) = .ok (.list t))
    (granular : t.elementRelationship ≠ .atomic) {pe : PathElement N}
    (proper : pe.isProper = true) (present : itemsAt sc t items pe ≠ []) :
    t.elementType = kidType sc tr pe := by
  rw [← kidValues_list resolved granular proper] at present
  exact kidTypeOf_eq resolved proper present

/-- The value that a granular map holds under a name. -/
theorem kidValues_map {t : MapType N} {v : Value N}
    (resolved : resolveSchema sc tr v = .ok (.map t)) (granular : t.elementRelationship ≠ .atomic)
    (name : String) : kidValues sc tr (some v) (.fieldName name) = (v.get? name).toList := by
  rw [kidValues_of_resolved resolved, kidValuesOf_map granular, derefMap_getD]
  rfl

theorem sameCount_toList {x y : Option (Value N)} :
    SameCount x.toList y.toList ↔ x.isSome = y.isSome := by
  cases x <;> cases y <;> simp [SameCount]

end

private theorem kidValues_ne_nil {v : Value N} {k : Kid N} (member : k ∈ kids sc ⟨tr, v⟩)
    : kidValues sc tr (some v) k.pe ≠ [] := by
  have inKidsAt : k ∈ kidsAt sc ⟨tr, v⟩ k.pe := mem_kidsAt.mpr ⟨member, BEq.refl k.pe⟩
  exact List.ne_nil_of_mem (List.mem_map.mpr ⟨k, inKidsAt, rfl⟩)

section

omit [Consistent N]

private theorem SameCount.both_ne_nil {ls rs : List (Value N)} (count : SameCount ls rs)
    (present : ls ≠ [] ∨ rs ≠ []) : ls ≠ [] ∧ rs ≠ [] := by
  rcases count with ⟨rfl, rfl⟩ | ⟨one, other⟩ | ⟨two, others, -⟩
  · simp at present
  · exact ⟨by rintro rfl; simp at one, by rintro rfl; simp at other⟩
  · exact ⟨by rintro rfl; simp at two, by rintro rfl; simp at others⟩

private theorem list_of_kidValuesOf {t : ListType N} {v : Value N} {pe : PathElement N}
    (present : kidValuesOf sc (.list t) (some v) pe ≠ []) :
    t.elementRelationship ≠ .atomic ∧ ∃ items, v = .list items := by
  constructor
  · intro atomic
    exact present (kidValuesOf_of_isLeaf (by simpa [Alternative.isLeaf] using atomic) _ pe)
  · cases v with
    | list items => exact ⟨items, rfl⟩
    | _ => simp [kidValuesOf, kidsOf, Value.items] at present

private theorem map_of_kidValuesOf {t : MapType N} {v : Value N} {pe : PathElement N}
    (present : kidValuesOf sc (.map t) (some v) pe ≠ []) :
    t.elementRelationship ≠ .atomic ∧ ∃ bindings, v = .map bindings := by
  constructor
  · intro atomic
    exact present (kidValuesOf_of_isLeaf (by simpa [Alternative.isLeaf] using atomic) _ pe)
  · cases v with
    | map bindings => exact ⟨bindings, rfl⟩
    | _ => simp [kidValuesOf, kidsOf, Value.entries] at present

end

/-- Sound values whose comparison records nothing are equivalent. -/
theorem equivalent_of_silent {left right : Bool} {l r : Value N} (soundLeft : Sound sc left ⟨tr, l⟩)
    (soundRight : Sound sc right ⟨tr, r⟩) (silent : (compareWalk sc tr (some l) (some r)).Silent)
    : Equivalent sc tr l r := by
  induction bound : l.depth using Nat.strong_induction_on generalizing tr l r with
  | _ total ih =>
      subst bound
      obtain ⟨root, kidsSilent⟩ := compareWalk_silent_iff.mp silent
      obtain ⟨alternative, resolved, fits⟩ := soundLeft.alternative
      obtain ⟨other, resolvedRight, -⟩ := soundRight.alternative
      have sideLeft := soundSide_some.mpr soundLeft
      have sideRight := soundSide_some.mpr soundRight
      have counts : ∀ {pe : PathElement N}, pe.isProper = true →
          SameCount (kidValues sc tr (some l) pe) (kidValues sc tr (some r) pe) ∧
          ∀ x y, kidValues sc tr (some l) pe = [x] → kidValues sc tr (some r) pe = [y] →
            Equivalent sc (kidType sc tr pe) x y := by
        intro pe proper
        obtain ⟨count, once⟩ :=
          (kidWalk_silent_iff sideLeft sideRight proper).mp (kidsSilent pe proper)
        refine ⟨count, fun x y isLeft isRight => ?_⟩
        have member : x ∈ kidValues sc tr (some l) pe := by simp [isLeft]
        have shallower := sideDepth_lt_of_kid member
        exact ih x.depth (by simpa [sideDepth] using shallower)
          (sideLeft.kid proper member) (sideRight.kid proper (by simp [isRight]))
          (once x y isLeft isRight) rfl
      by_cases noKids : kids sc ⟨tr, l⟩ = [] ∧ kids sc ⟨tr, r⟩ = []
      · have leaf := leafPair_of_no_kids resolved fits noKids.1 noKids.2
        have same : (r == l) = true := by
          by_contra differs
          exact root .modified ⟨rfl, by simpa using differs, alternative, Or.inl resolved, leaf⟩
        exact .leaf (asLeaf_of_no_kids soundLeft noKids.1) (asLeaf_of_no_kids soundRight noKids.2)
          (BEq.symm same)
      · obtain ⟨pe, proper, inLeft, inRight⟩ :
            ∃ pe : PathElement N, pe.isProper = true ∧ kidValues sc tr (some l) pe ≠ [] ∧
              kidValues sc tr (some r) pe ≠ [] := by
          have common : ∃ pe : PathElement N, pe.isProper = true ∧
              (kidValues sc tr (some l) pe ≠ [] ∨ kidValues sc tr (some r) pe ≠ []) := by
            rcases not_and_or.mp noKids with present | present
            · obtain ⟨k, member⟩ := List.exists_mem_of_ne_nil _ present
              exact ⟨k.pe, (soundLeft.kid member).2, Or.inl (kidValues_ne_nil member)⟩
            · obtain ⟨k, member⟩ := List.exists_mem_of_ne_nil _ present
              exact ⟨k.pe, (soundRight.kid member).2, Or.inr (kidValues_ne_nil member)⟩
          obtain ⟨pe, proper, present⟩ := common
          exact ⟨pe, proper, (counts proper).1.both_ne_nil present⟩
        cases alternatives_agree resolved resolvedRight inLeft inRight
        rw [kidValues_of_resolved resolved] at inLeft
        rw [kidValues_of_resolved resolvedRight] at inRight
        cases alternative with
        | scalar t => exact absurd (kidValuesOf_of_isLeaf rfl _ pe) inLeft
        | list t =>
            obtain ⟨granular, ls, rfl⟩ := list_of_kidValuesOf inLeft
            obtain ⟨-, rs, rfl⟩ := list_of_kidValuesOf inRight
            have itemCounts : ∀ pe, SameCount (itemsAt sc t ls pe) (itemsAt sc t rs pe) ∧
                ∀ x y, itemsAt sc t ls pe = [x] → itemsAt sc t rs pe = [y] →
                  Equivalent sc t.elementType x y := by
              intro pe
              by_cases proper : pe.isProper = true
              · obtain ⟨count, once⟩ := counts proper
                rw [kidValues_list resolved granular proper,
                  kidValues_list resolvedRight granular proper] at count once
                refine ⟨count, fun x y isLeft isRight => ?_⟩
                rw [kidType_list resolved granular proper (by simp [isLeft])]
                exact once x y isLeft isRight
              · have improper : pe.isProper = false := by simpa using proper
                rw [itemsAt_of_improper ls improper, itemsAt_of_improper rs improper]
                simp [SameCount]
            exact .list resolved granular (fun pe => (itemCounts pe).1) fun pe => (itemCounts pe).2
        | map t =>
            obtain ⟨granular, ls, rfl⟩ := map_of_kidValuesOf inLeft
            obtain ⟨-, rs, rfl⟩ := map_of_kidValuesOf inRight
            have names : ∀ name, ((Value.map ls).get? name).isSome = ((Value.map rs).get? name).isSome ∧
                ∀ x y, (Value.map ls).get? name = some x → (Value.map rs).get? name = some y →
                  Equivalent sc (t.fieldType name) x y := by
              intro name
              obtain ⟨count, once⟩ := @counts (.fieldName name) rfl
              rw [kidValues_map resolved granular, kidValues_map resolvedRight granular] at count once
              refine ⟨sameCount_toList.mp count, fun x y isLeft isRight => ?_⟩
              rw [← kidType_map resolved]
              exact once x y (by simp [isLeft]) (by simp [isRight])
            exact .map resolved granular (fun name => (names name).1) fun name => (names name).2

omit [Consistent N] in
private theorem RootChange.leaf {change : Change} {l r : Value N} {alternative : Alternative N}
    (root : RootChange sc tr change (some l) (some r))
    (left : resolveSchema sc tr l = .ok alternative)
    (right : resolveSchema sc tr r = .ok alternative) :
    leafPair alternative (some l) (some r) = true := by
  obtain ⟨-, -, other, isLeft | isRight, leaf⟩ := root
  · cases isLeft.symm.trans left
    exact leaf
  · cases isRight.symm.trans right
    exact leaf

omit [Consistent N] in
private theorem RootChange.empty_maps {change : Change} {l r : Value N} {t : MapType N}
    (root : RootChange sc tr change (some l) (some r)) (left : resolveSchema sc tr l = .ok (.map t))
    (right : resolveSchema sc tr r = .ok (.map t)) (granular : t.elementRelationship ≠ .atomic)
    : l.entries = [] ∧ r.entries = [] := by
  have leaf := root.leaf left right
  simpa [leafPair, granular, derefMap_getD] using leaf

omit [Consistent N] in
private theorem RootChange.empty_lists {change : Change} {ls rs : List (Value N)} {t : ListType N}
    (root : RootChange sc tr change (some (.list ls)) (some (.list rs)))
    (left : resolveSchema sc tr (.list ls) = .ok (.list t))
    (right : resolveSchema sc tr (.list rs) = .ok (.list t))
    (granular : t.elementRelationship ≠ .atomic) : ls = [] ∧ rs = [] := by
  have leaf := root.leaf left right
  simpa [leafPair, granular, derefList_getD, Value.items] using leaf

/-- Comparing equivalent values records nothing. -/
theorem silent_of_equivalent {left right : Bool} {l r : Value N} (equivalent : Equivalent sc tr l r)
    (soundLeft : Sound sc left ⟨tr, l⟩) (soundRight : Sound sc right ⟨tr, r⟩)
    : (compareWalk sc tr (some l) (some r)).Silent := by
  induction equivalent with
  | @leaf tr l r leafLeft leafRight same =>
      refine silent_of_kids soundLeft soundRight ?_ fun pe proper => ?_
      · rintro change ⟨-, differs, -⟩
        rw [BEq.symm same] at differs
        cases differs
      · simp [kidValues, kidsAt, kids_of_asLeaf leafLeft, kids_of_asLeaf leafRight, SameCount]
  | @map tr t ls rs resolved granular keys values ih =>
      have resolvedRight : resolveSchema sc tr (.map rs) = .ok (.map t) :=
        (resolveSchema_congr sc tr rfl).trans resolved
      refine silent_of_kids soundLeft soundRight (fun change root => ?_) fun pe proper => ?_
      · obtain ⟨noLeft, noRight⟩ := root.empty_maps resolved resolvedRight granular
        have same : (Value.map rs == Value.map ls) = true := by
          change Value.normalize ls = [] at noLeft
          change Value.normalize rs = [] at noRight
          rw [Value.beq_eq_equalsBody, Value.equalsBody, noLeft, noRight]
          rfl
        rw [root.2.1] at same
        cases same
      · cases pe with
        | fieldName name =>
            rw [kidValues_map resolved granular, kidValues_map resolvedRight granular,
              kidType_map resolved]
            refine ⟨sameCount_toList.mpr (keys name), fun l r isLeft isRight => ?_⟩
            exact ih name l r (Option.toList_eq_singleton_iff.mp isLeft)
              (Option.toList_eq_singleton_iff.mp isRight)
        | _ =>
            rw [kidValues_of_resolved resolved, kidValues_of_resolved resolvedRight,
              kidValuesOf_map_of_ne _ (by simp), kidValuesOf_map_of_ne _ (by simp)]
            simp [SameCount]
  | @list tr t ls rs resolved granular counts items ih =>
      have resolvedRight : resolveSchema sc tr (.list rs) = .ok (.list t) :=
        (resolveSchema_congr sc tr rfl).trans resolved
      refine silent_of_kids soundLeft soundRight (fun change root => ?_) fun pe proper => ?_
      · obtain ⟨rfl, rfl⟩ := root.empty_lists resolved resolvedRight granular
        have same : (Value.list ([] : List (Value N)) == Value.list []) = true := BEq.refl _
        rw [root.2.1] at same
        cases same
      · rw [kidValues_list resolved granular proper, kidValues_list resolvedRight granular proper]
        refine ⟨counts pe, fun l r isLeft isRight => ?_⟩
        rw [← kidType_list resolved granular proper (by simp [isLeft])]
        exact ih pe l r isLeft isRight

/-- The root is a non-empty map of a granular map type. -/
def GranularRoot (tv : TypedValue N) : Prop :=
  ∃ v t, tv.value = some v ∧ resolveSchema tv.schema.val tv.typeRef v = .ok (.map t) ∧
    t.elementRelationship ≠ .atomic ∧ v.entries ≠ []

/-- Two objects hold equivalent values. -/
def TypedValue.EquivalentTo (lhs rhs : TypedValue N) : Prop :=
  ∃ l r, lhs.value = some l ∧ rhs.value = some r ∧
    Equivalent lhs.schema.val lhs.typeRef l r

omit [Numeric N] [Consistent N] in
theorem isSame_iff (c : Comparison N) :
    c.isSame = true ↔ ∀ change, (c.changed change).isEmpty = true := by
  constructor
  · intro same change
    simp only [Comparison.isSame, Bool.and_eq_true] at same
    cases change
    · exact same.2
    · exact same.1.1
    · exact same.1.2
  · intro empty
    have removed : c.removed.isEmpty = true := empty .removed
    have modified : c.modified.isEmpty = true := empty .modified
    have added : c.added.isEmpty = true := empty .added
    simp [Comparison.isSame, removed, modified, added]

/-- The comparison of two accepted objects is empty exactly if they are equivalent. -/
theorem compare_isSame_iff_equivalent {lhs rhs : TypedValue N} (same : SameType lhs rhs)
    (soundLeft : SoundObject true lhs) (soundRight : SoundObject true rhs)
    (rootLeft : GranularRoot lhs) (rootRight : GranularRoot rhs) :
    ∃ c, lhs.compare rhs = .ok c ∧ (c.isSame = true ↔ lhs.EquivalentTo rhs) := by
  obtain ⟨c, compared, records⟩ := compare_of_sound same soundLeft soundRight
  refine ⟨c, compared, ?_⟩
  obtain ⟨l, t, isLeft, resolvedLeft, granular, notEmpty⟩ := rootLeft
  obtain ⟨r, t', isRight, resolvedRight, -, -⟩ := rootRight
  have leftSound := soundSide_some.mp (isLeft ▸ soundLeft.side)
  have rightSound := soundSide_some.mp (isRight ▸ soundRight.side)
  rw [same.schema, same.typeRef] at rightSound resolvedRight
  have sameTypes := (resolveSchema_map resolvedLeft).symm.trans (resolveSchema_map resolvedRight)
  cases sameTypes
  rw [isLeft, isRight] at records
  -- the root itself is never recorded
  have noRoot : ∀ change, ¬ (compareWalk lhs.schema.val lhs.typeRef (some l) (some r)).Records
      change [] := by
    intro change recorded
    rw [(compareWalk_meets _ _ _ _).root] at recorded
    exact notEmpty (recorded.empty_maps resolvedLeft resolvedRight granular).1
  have silent : c.isSame = true ↔
      (compareWalk lhs.schema.val lhs.typeRef (some l) (some r)).Silent := by
    rw [isSame_iff]
    refine forall_congr' fun change => ?_
    rw [FieldSet.isEmpty_iff_has (records change).1]
    refine forall_congr' fun path => ?_
    rw [← Bool.not_eq_true, (records change).2 path]
    by_cases root : path = []
    · simp [root, noRoot]
    · simp [root]
  rw [silent]
  constructor
  · intro isSilent
    exact ⟨l, r, isLeft, isRight, equivalent_of_silent leftSound rightSound isSilent⟩
  · rintro ⟨l', r', isLeft', isRight', equivalent⟩
    cases isLeft.symm.trans isLeft'
    cases isRight.symm.trans isRight'
    exact silent_of_equivalent equivalent leftSound rightSound

omit [Numeric N] [Consistent N] in
theorem numberSetObject_root (items : List (Value N)) : GranularRoot (numberSetObject items) := by
  refine ⟨_, _, rfl, rfl, by simp [MapType.struct], ?_⟩
  intro none
  have found : (Value.map [("list", Value.list items)]).get? "list" = some (.list items) := rfl
  rw [Value.get?, none] at found
  cases found

/-- The order of the items of a set does not matter. -/
theorem compare_reordered_number_set :
    ∃ c : Comparison Int, (numberSetObject [.number 1, .number 2]).compare
        (numberSetObject [.number 2, .number 1]) = .ok c ∧
      (c.isSame = true ↔ (numberSetObject [.number (1 : Int), .number 2]).EquivalentTo
        (numberSetObject [.number 2, .number 1])) :=
  compare_isSame_iff_equivalent ⟨rfl, rfl⟩
    ⟨by decide +kernel, numberSetObject_supported _⟩
    ⟨by decide +kernel, numberSetObject_supported _⟩
    (numberSetObject_root _) (numberSetObject_root _)

end Equivalence

end StructuredMergeDiff.Typed
