import StructuredMergeDiff.Typed.Extraction
import StructuredMergeDiff.Typed.MergeBounds
import StructuredMergeDiff.Typed.StuckMerge

/-!
Contract: what is extracted from a merge with the leaves of a partial object.

Owns: extraction level by level, the entries that null in the partial object lets
through, and that without them extraction gives back the partial object.
-/

namespace StructuredMergeDiff.Typed

open Library Std Compare Value

variable {N : Type} [Numeric N] [Consistent N] {sc : Schema N}

/-! ## Equal names -/

theorem extractKid_congr {set : FieldSet N} (canonical : set.Canonical) (tr : TypeRef N)
    {first second : PathElement N} (same : (first == second) = true) (v : Value N) :
    extractKid sc set tr first v = extractKid sc set tr second v := by
  unfold extractKid selects onward
  rw [has_single_congr canonical same, FieldSet.withPrefix_congr canonical same]

/-! ## One level -/

section Level

variable {tr : TypeRef N} {y m : Value N} {set : FieldSet N}

omit [Consistent N] in
/-- Extraction gives back each child. -/
def KidsExtracted (sc : Schema N) (tr : TypeRef N) (m y : Value N) (set : FieldSet N) : Prop :=
  ∀ pe yk mk, kidValues sc tr (some y) pe = [yk] → kidValues sc tr (some m) pe = [mk] →
    (extract sc (kidType sc tr pe) mk (onward set pe) == yk) = true

theorem extract_map_beq_iff (soundY : Sound sc false ⟨tr, y⟩)
    (filled : containersFilled sc ⟨tr, y⟩ = true) (leaves : LeafSet sc ⟨tr, y⟩ set)
    (held : kids sc ⟨tr, y⟩ ≠ []) {t : MapType N} (granular : t.elementRelationship ≠ .atomic)
    (resolved : resolveSchema sc tr y = .ok (.map t))
    (resolvedMerged : resolveSchema sc tr m = .ok (.map t))
    (kept : ∀ name, y.get? name ≠ none → m.get? name ≠ none) :
    (extract sc tr m set == y) = true ↔ KidsExtracted sc tr m y set := by
  obtain ⟨ys, rfl⟩ : ∃ ys, y = .map ys := by
    obtain ⟨k, member⟩ := List.exists_mem_of_ne_nil _ held
    rcases mem_kids member with ⟨_, _, other, _⟩ | ⟨_, entry, _, _, inEntries, _⟩
    · cases resolved.symm.trans other
    · cases y with
      | map ys => exact ⟨ys, rfl⟩
      | _ => cases inEntries
  have selected : ∀ name, selects set (.fieldName name) = true ↔ (Value.map ys).get? name ≠ none := by
    intro name
    rw [leaves.selects_iff soundY filled, kidsAt_ne_nil_iff, kidValues_map resolved granular]
    simp
  have type := kidType_map resolved
  -- key by key, a null result having no keys
  have byName : (extract sc tr m set == .map ys) = true ↔
      ∀ name, Value.SameOption ((extract sc tr m set).get? name) ((Value.map ys).get? name) := by
    rcases extract_map_cases resolvedMerged granular set with isNull | ⟨bindings, -, isMap⟩
    · rw [isNull]
      refine iff_of_false (fun same => absurd (kind_of_beq same) (by simp [kind])) fun same =>
        held ?_
      have absent : ∀ name, (Value.map ys).get? name = none := by
        intro name
        have := (same name).isSome_eq
        simpa [Value.get?, Value.entries, lookupBy] using this.symm
      by_contra present
      obtain ⟨k, member⟩ := List.exists_mem_of_ne_nil _ present
      have proper := (soundY.kid member).2
      have found : kidValues sc tr (some (.map ys)) k.pe ≠ [] :=
        kidsAt_ne_nil_iff.mp (List.ne_nil_of_mem (mem_kidsAt.mpr ⟨member, BEq.refl _⟩))
      rw [kidValues_of_resolved resolved] at found
      cases isName : k.pe with
      | fieldName name =>
          rw [isName, ← kidValues_of_resolved resolved, kidValues_map resolved granular,
            absent] at found
          exact found rfl
      | _ =>
          rw [isName] at found
          exact found (kidValuesOf_map_of_ne _ (by simp))
    · rw [isMap]
      exact beq_map_iff
  rw [byName]
  constructor
  · intro same pe yk mk isRight isMerged
    cases pe with
    | fieldName name =>
        rw [kidValues_map resolved granular] at isRight
        rw [kidValues_map resolvedMerged granular] at isMerged
        have right : (Value.map ys).get? name = some yk := by
          simpa using congrArg List.head? isRight
        have merged : m.get? name = some mk := by simpa using congrArg List.head? isMerged
        have here := same name
        rw [get?_extract resolvedMerged granular, merged, right, Option.bind_some, extractKid,
          if_pos ((selected name).mpr (by simp [right]))] at here
        rw [type]
        cases here with
        | some equal => exact equal
    | _ =>
        rw [kidValues_of_resolved resolved, kidValuesOf_map_of_ne _ (by simp)] at isRight
        cases isRight
  · intro each name
    rw [get?_extract resolvedMerged granular]
    cases right : (Value.map ys).get? name with
    | none =>
        have unselected : selects set (.fieldName name) = false := by
          rw [Bool.eq_false_iff, ne_eq, selected, right]
          simp
        have nothing : (m.get? name).bind
            (extractKid sc set (t.fieldType name) (.fieldName name)) = none := by
          cases m.get? name <;> simp [extractKid, unselected]
        rw [nothing]
        exact .none
    | some yk =>
        obtain ⟨mk, merged⟩ := Option.ne_none_iff_exists'.mp (kept name (by simp [right]))
        have equal := each (.fieldName name) yk mk
          (by rw [kidValues_map resolved granular, right]; rfl)
          (by rw [kidValues_map resolvedMerged granular, merged]; rfl)
        rw [merged, Option.bind_some, extractKid, if_pos ((selected name).mpr (by simp [right])),
          ← type]
        exact .some equal

theorem extract_list_beq_iff {x : Option (Value N)} (soundY : Sound sc false ⟨tr, y⟩)
    (soundMerged : Sound sc false ⟨tr, m⟩) (filled : containersFilled sc ⟨tr, y⟩ = true)
    (leaves : LeafSet sc ⟨tr, y⟩ set) (held : kids sc ⟨tr, y⟩ ≠ []) {t : ListType N}
    (granular : t.elementRelationship ≠ .atomic) (resolved : resolveSchema sc tr y = .ok (.list t))
    (resolvedMerged : resolveSchema sc tr m = .ok (.list t))
    (listMerged : ListMerged sc t x (some y) m) :
    (extract sc tr m set == y) = true ↔ KidsExtracted sc tr m y set := by
  obtain ⟨ys, rfl⟩ : ∃ ys, y = .list ys := by
    obtain ⟨k, member⟩ := List.exists_mem_of_ne_nil _ held
    rcases mem_kids member with ⟨_, item, _, _, inItems, _⟩ | ⟨_, _, other, _⟩
    · cases y with
      | list ys => exact ⟨ys, rfl⟩
      | _ => cases inItems
    · cases resolved.symm.trans other
  obtain ⟨named, distinct, -⟩ := soundY.items_named resolved granular
  obtain ⟨out, rfl, items, outNamed⟩ := listMerged
  have isRight : sideItems sc t (some (.list ys)) = namedItems sc t ys := rfl
  rw [isRight] at items
  have properOut : ∀ entry ∈ out, entry.1.isProper = true := by
    intro entry member
    obtain ⟨other, isNamed, same⟩ := outNamed entry member
    rw [← isProper_congr same]
    exact proper_of_named isNamed
  have type : ∀ {pe : PathElement N}, pe.isProper = true →
      kidValues sc tr (some (.list ys)) pe ≠ [] → t.elementType = kidType sc tr pe :=
    fun proper present => kidTypeOf_eq resolved proper present
  have mergedAt : ∀ {pe : PathElement N}, pe.isProper = true →
      kidValues sc tr (some (.list (out.map Prod.snd))) pe = entriesAt out pe := by
    intro pe proper
    rw [kidValues_items granular resolvedMerged proper]
    exact entriesAt_of_named outNamed pe
  -- the extracted items are those with a name of the right side
  have extracted : (out.map Prod.snd).filterMap (fun item =>
        extractKid sc set t.elementType (itemPathElement sc t item) item) =
      (out.filter fun entry => hasName (namedItems sc t ys) entry.1).map
        fun entry => extract sc t.elementType entry.2 (onward set entry.1) := by
    rw [List.filterMap_map]
    apply filterMap_eq_map_filter
    intro entry member
    obtain ⟨other, isNamed, same⟩ := outNamed entry member
    have selected : selects set entry.1 = hasName (namedItems sc t ys) entry.1 := by
      rw [Bool.eq_iff_iff, leaves.selects_iff soundY filled, kidsAt_ne_nil_iff,
        kidValues_items granular resolved (properOut entry member), ne_eq, ← hasName_eq_false,
        Bool.not_eq_false]
      rfl
    rw [Function.comp_apply, itemPathElement, isNamed, extractKid_congr leaves.canonical _ same,
      extractKid, selected]
  have listed : (namedItems sc t ys).map Prod.snd = ys := namedItems_map_snd named
  have notEmpty : ¬ ((out.filter fun entry => hasName (namedItems sc t ys) entry.1).map
      fun entry => extract sc t.elementType entry.2 (onward set entry.1)).isEmpty = true := by
    intro empty
    have none : (namedItems sc t ys).length = 0 := by
      rw [← items.fromRight.length_eq]
      simpa using empty
    have noItems : ys = [] := by rw [← listed, List.length_eq_zero_iff.mp none]; rfl
    subst noItems
    simp [kids, resolved, kidsOf, Value.items] at held
  have byItem : (extract sc tr (.list (out.map Prod.snd)) set == .list ys) = true ↔
      List.Forall₂ (fun (entry item : PathElement N × Value N) =>
        (extract sc t.elementType entry.2 (onward set entry.1) == item.2) = true)
        (out.filter fun entry => hasName (namedItems sc t ys) entry.1) (namedItems sc t ys) := by
    rw [extract_list resolvedMerged granular fun pe => leaves.nothing_beneath, Value.items, extracted,
      if_neg notEmpty, beq_list, List.forall₂_map_left_iff]
    have onItems := List.forall₂_map_right_iff (R := fun (entry : PathElement N × Value N) w =>
        (extract sc t.elementType entry.2 (onward set entry.1) == w) = true) (f := Prod.snd)
      (l := out.filter fun entry => hasName (namedItems sc t ys) entry.1) (u := namedItems sc t ys)
    rwa [listed] at onItems
  have onward_same : ∀ {first second : PathElement N}, (first == second) = true →
      onward set first = onward set second := by
    intro first second same
    rw [onward, onward, has_single_congr leaves.canonical same,
      FieldSet.withPrefix_congr leaves.canonical same]
  rw [byItem]
  constructor
  · intro each pe yk mk isKid isMerged
    have present : kidValues sc tr (some (.list ys)) pe ≠ [] := by simp [isKid]
    have proper : pe.isProper = true := by
      by_contra improper
      exact kidsAt_ne_nil_iff.mpr present (soundY.kidsAt_improper (by simpa using improper))
    have inRight : yk ∈ entriesAt (namedItems sc t ys) pe := by
      rw [kidValues_items granular resolved proper] at isKid
      exact isKid ▸ List.mem_singleton.mpr rfl
    obtain ⟨item, found, rfl⟩ := List.mem_map.mp inRight
    obtain ⟨member, isName⟩ := List.mem_filter.mp found
    obtain ⟨entry, inOut, ⟨same, -⟩, equal⟩ :=
      exists_of_mem_right (forall₂_and items.fromRight each) member
    have isEntry : entry.2 ∈ entriesAt out pe := List.mem_map.mpr
      ⟨entry, List.mem_filter.mpr ⟨(List.mem_filter.mp inOut).1, BEq.trans same isName⟩, rfl⟩
    rw [← mergedAt proper, isMerged] at isEntry
    rw [← type proper present, ← List.mem_singleton.mp isEntry,
      ← onward_same (BEq.trans same isName)]
    exact equal
  · intro each
    apply forall₂_of_mem items.fromRight
    intro entry inOut item member pair
    have proper : item.1.isProper = true := by
      rw [← isProper_congr pair.1]
      exact properOut entry (List.mem_filter.mp inOut).1
    have isKid : kidValues sc tr (some (.list ys)) item.1 = [item.2] := by
      rw [kidValues_items granular resolved proper]
      exact entriesAt_of_mem (distinct rfl) member
    have isEntry : entry.2 ∈ kidValues sc tr (some (.list (out.map Prod.snd))) item.1 := by
      rw [mergedAt proper]
      exact List.mem_map.mpr
        ⟨entry, List.mem_filter.mpr ⟨(List.mem_filter.mp inOut).1, pair.1⟩, rfl⟩
    obtain ⟨only, alone⟩ := soundMerged.kidValues_toList item.1
    have isMerged : kidValues sc tr (some (.list (out.map Prod.snd))) item.1 = [entry.2] := by
      rw [alone] at isEntry ⊢
      rw [Option.mem_toList.mp isEntry]
      rfl
    rw [type proper (by simp [isKid]), onward_same pair.1]
    exact each item.1 item.2 entry.2 isKid isMerged

end Level

/-! ## Null in the partial object -/

section Null

variable {tr : TypeRef N} {set : FieldSet N}

omit [Numeric N] [Consistent N] in
/-- Null is a map where some value is. -/
theorem resolveSchema_null {v : Value N} {t : MapType N}
    (resolved : resolveSchema sc tr v = .ok (.map t)) :
    resolveSchema sc tr .null = .ok (.map t) := by
  have isMap := resolveSchema_map resolved
  obtain ⟨atom, found, -⟩ := handleAtom_of_resolved resolved
  simp only [FieldSet.atomAt, found, Option.getD_some] at isMap
  have whole : deduceAtom atom (.null : Value N) = atom := by
    unfold deduceAtom
    split_ifs <;> first | rfl | contradiction
  simp only [resolveSchema, found, whole, handleAtom, isMap]

omit [Consistent N] in
/-- The entries of a value are those it has under the alternative of null. -/
theorem kidValues_under_null {g : Alternative N} (resolved : resolveSchema sc tr .null = .ok g)
    (side : Option (Value N)) (key : String) :
    kidValues sc tr side (.fieldName key) = kidValuesOf sc g side (.fieldName key) := by
  cases side with
  | none => rfl
  | some v =>
      rcases kidValuesOf_cases resolved (r := v) (.fieldName key) with none | own
      · rw [none]
        by_contra held
        obtain ⟨k, member⟩ := List.exists_mem_of_ne_nil _ (kidsAt_ne_nil_iff.mpr held)
        obtain ⟨inKids, isName⟩ := mem_kidsAt.mp member
        rcases mem_kids inKids with ⟨t, item, _, _, _, rfl⟩ | ⟨t, entry, own, _, _, rfl⟩
        · exact not_fieldName_of_listKid isName
        · cases (resolveSchema_null own).symm.trans resolved
          exact held (by rw [kidValues_of_resolved own, none])
      · exact kidValues_of_resolved own _

/-- What is extracted where the partial object has null in a map: null again, unless
the object has a map there with an entry that the set of the parent selects. -/
theorem removeItems_null_iff {x : Option (Value N)} {m : Value N} (soundX : SoundSide sc false tr x)
    (soundNull : Sound sc false ⟨tr, .null⟩) (isMerged : Merged sc false tr x (some .null) m)
    (leafy : ∀ pe, set.has [pe] = true → (set.withPrefix pe).isEmpty = true)
    (names : ∀ pe, selects set pe = true → ∃ name, pe = .fieldName name) :
    (extract sc tr m set == .null) = true ↔
      ∀ key, selects set (.fieldName key) = true → ¬ Present sc tr x [.fieldName key] := by
  obtain ⟨g, resolved, fits⟩ := soundNull.alternative
  have level := isMerged.level g ⟨.null, rfl, resolved⟩
  have atKey := kidValues_under_null resolved x
  simp only [present_single, not_not]
  by_cases leaf : leafPair g x (some .null) = true
  · have isNull : m = .null := (Option.some.inj (level.leaf leaf)).symm
    rw [isNull, extract, removeItems_null]
    refine iff_of_true (BEq.refl _) fun key _ => ?_
    rw [atKey]
    exact (kidValuesOf_of_leafPair leaf rfl).1
  · cases g with
    | scalar t =>
        have scalar : validateScalar t (some (.null : Value N)) .rhs = [] := validateScalar_side.mp fits
        simp [leafPair, scalar] at leaf
    | list t =>
        have granular : t.elementRelationship ≠ .atomic := by
          intro atomic
          simp [leafPair, atomic] at leaf
        have none : m.items.filterMap (fun item =>
            extractKid sc set t.elementType (itemPathElement sc t item) item) = [] := by
          rw [List.filterMap_eq_nil_iff]
          intro item _
          have unselected : ¬ selects set (itemPathElement sc t item) = true := by
            intro selected
            obtain ⟨name, isName⟩ := names _ selected
            have same : (listKid sc t item).pe.equals (.fieldName name) = true := by
              rw [show (listKid sc t item).pe = itemPathElement sc t item from rfl, isName]
              exact BEq.refl (PathElement.fieldName name : PathElement N)
            exact not_fieldName_of_listKid same
          rw [extractKid, if_neg unselected]
        rw [extract_list level.resolved granular leafy, none]
        refine iff_of_true (BEq.refl _) fun key _ => ?_
        rw [atKey]
        cases x with
        | none => rfl
        | some v =>
            rw [kidValuesOf, List.map_eq_nil_iff, List.filter_eq_nil_iff]
            intro k member same
            rw [Option.elim_some] at member
            rcases mem_kidsOf member with ⟨_, item, _, _, _, rfl⟩ | ⟨_, _, other, _⟩
            · exact not_fieldName_of_listKid same
            · cases other
    | map t =>
        have granular : t.elementRelationship ≠ .atomic := by
          intro atomic
          simp [leafPair, atomic] at leaf
        have absent : ∀ key, m.get? key = none ↔ kidValues sc tr x (.fieldName key) = [] := by
          intro key
          have kid := level.kid (.fieldName key) rfl
          have right : kidValuesOf sc (.map t) (some (.null : Value N)) (.fieldName key) =
              (none : Option (Value N)).toList := by
            rw [kidValuesOf_map granular]
            rfl
          obtain ⟨left, isLeft, soundLeft, -⟩ :=
            soundX.kidSide (rfl : (PathElement.fieldName key : PathElement N).isProper = true)
          rw [kidValues_map level.resolved granular, ← atKey, right, isLeft, mergeAll_toList] at kid
          rw [isLeft]
          cases left with
          | none =>
              rw [merged_none] at kid
              simpa using kid
          | some w =>
              obtain ⟨value, kidMerged⟩ := merged_of_sound soundLeft
                (soundSide_none : SoundSide sc false _ none) (Or.inl (by simp))
              rw [kidMerged.isMerged] at kid
              cases found : m.get? key <;> simp [found] at kid ⊢
        have atName := get?_extract level.resolved granular set
        rcases extract_map_cases level.resolved granular set with isNull | ⟨bindings, held, isMap⟩
        · rw [isNull] at atName ⊢
          refine iff_of_true (BEq.refl _) fun key selected => (absent key).mp ?_
          by_contra present
          obtain ⟨w, found⟩ := Option.ne_none_iff_exists'.mp present
          have here := atName key
          rw [found, Option.bind_some, extractKid, if_pos selected] at here
          cases here
        · rw [isMap] at atName ⊢
          refine iff_of_false (fun same => absurd (kind_of_beq same) (by simp [kind]))
            fun unheld => ?_
          obtain ⟨entry, rest, rfl⟩ := List.exists_cons_of_ne_nil held
          have here := atName entry.1
          rw [Value.get?, Value.entries, lookupBy_normalize, lookupBy_cons] at here
          cases found : m.get? entry.1 with
          | none => simp [found] at here
          | some w =>
              have selected : selects set (.fieldName entry.1) = true := by
                by_contra unselected
                simp [found, extractKid, unselected] at here
              rw [(absent entry.1).mpr (unheld entry.1 selected)] at found
              cases found

end Null

/-! ## Entries that null lets through -/

section Leaks

variable {tr : TypeRef N} {x : Option (Value N)} {y : Value N}

omit [Consistent N] in
/-- Where the partial object has null in a map, the object has no entry there with
the name of another entry of that map. -/
def NoLeak (sc : Schema N) (tr : TypeRef N) (x : Option (Value N)) (y : Value N) : Prop :=
  ∀ path name key, (∃ n ∈ nodesAt sc ⟨tr, y⟩ (path ++ [.fieldName name]), n.value = .null) →
    Present sc tr (some y) (path ++ [.fieldName key]) →
    ¬ Present sc tr x (path ++ [.fieldName name, .fieldName key])

omit [Consistent N] in
/-- The same for null as a child of the value itself. -/
def NoLeakHere (sc : Schema N) (tr : TypeRef N) (y : Value N) (pe : PathElement N)
    (xk : Option (Value N)) (yk : Value N) : Prop :=
  ∀ name, pe = .fieldName name → yk = .null → ∀ key, Present sc tr (some y) [.fieldName key] →
    ¬ Present sc (kidType sc tr pe) xk [.fieldName key]

/-- Leaks are those here and those of the children. -/
theorem noLeak_iff (soundX : SoundSide sc false tr x) (soundY : Sound sc false ⟨tr, y⟩) :
    NoLeak sc tr x y ↔ ∀ (pe : PathElement N) yk xk, pe.isProper = true →
      kidValues sc tr (some y) pe = [yk] → kidValues sc tr x pe = xk.toList →
      NoLeakHere sc tr y pe xk yk ∧ NoLeak sc (kidType sc tr pe) xk yk := by
  constructor
  · intro noLeak pe yk xk proper isKid isLeft
    constructor
    · intro name isName isNull key present leaked
      subst isName isNull
      apply noLeak [] name key
      · refine ⟨⟨kidType sc tr (.fieldName name), .null⟩, ?_, rfl⟩
        rw [List.nil_append, nodesAt_cons_kid rfl isKid]
        exact List.mem_singleton.mpr rfl
      · exact present
      · exact (present_cons_toList rfl isLeft _).mpr leaked
    · intro path name key isNull present leaked
      apply noLeak (pe :: path) name key
      · rw [List.cons_append, nodesAt_cons_kid proper isKid]
        exact isNull
      · exact (present_cons_toList proper (k := some yk) isKid _).mpr present
      · exact (present_cons_toList proper isLeft _).mpr leaked
  · intro each path name key isNull present leaked
    cases path with
    | nil =>
        obtain ⟨n, found, value⟩ := isNull
        have proper : (PathElement.fieldName name : PathElement N).isProper = true := rfl
        obtain ⟨yk, isKid, -⟩ := (soundSide_some.mpr soundY).kidSide proper
        obtain ⟨xk, isLeft, -⟩ := soundX.kidSide proper
        cases yk with
        | none =>
            have some : Present sc tr (some y) [.fieldName name] := ⟨y, rfl, List.ne_nil_of_mem found⟩
            exact present_single.mp some isKid
        | some yk =>
            rw [List.nil_append, nodesAt_cons_kid rfl isKid, nodesAt, List.mem_singleton] at found
            subst found
            exact (each _ yk xk rfl isKid isLeft).1 name rfl value key present
              ((present_cons_toList rfl isLeft _).mp leaked)
    | cons pe rest =>
        by_cases proper : pe.isProper = true
        · obtain ⟨yk, isKid, -⟩ := (soundSide_some.mpr soundY).kidSide proper
          obtain ⟨xk, isLeft, -⟩ := soundX.kidSide proper
          have beneath := (present_cons_toList proper isKid _).mp present
          cases yk with
          | none => exact not_present_none beneath
          | some yk =>
              apply (each pe yk xk proper isKid isLeft).2 rest name key
              · rw [List.cons_append, nodesAt_cons_kid proper isKid] at isNull
                exact isNull
              · exact beneath
              · exact (present_cons_toList proper isLeft _).mp leaked
        · exact (soundSide_some.mpr soundY).not_present_improper (by simpa using proper) present

end Leaks

/-! ## The whole value -/

section Reversible

variable {tr : TypeRef N} {x : Option (Value N)} {y m : Value N} {set : FieldSet N}

omit [Numeric N] [Consistent N] in
theorem not_named_null {t : ListType N} {pe : PathElement N} :
    listItemToPathElement sc t .null ≠ .ok pe := by
  unfold listItemToPathElement
  split_ifs <;> simp [keyedAssociativeListItemToPathElement, setItemToPathElement]

/-- A child without children, extracted with the set of its parent. -/
theorem extract_childless_iff (soundY : Sound sc false ⟨tr, y⟩)
    (filled : containersFilled sc ⟨tr, y⟩ = true) (leaves : LeafSet sc ⟨tr, y⟩ set) {k : Kid N}
    {pe : PathElement N} (member : k ∈ kidsAt sc ⟨tr, y⟩ pe) (childless : kids sc k.node = [])
    {xk : Option (Value N)} (soundX : SoundSide sc false (kidType sc tr pe) xk) {mk : Value N}
    (kid : Merged sc false (kidType sc tr pe) xk (some k.value) mk) :
    (extract sc (kidType sc tr pe) mk set == k.value) = true ↔
      NoLeakHere sc tr y pe xk k.value := by
  obtain ⟨inKids, isName⟩ := mem_kidsAt.mp member
  have properKid := (soundY.kid inKids).2
  have proper : pe.isProper = true := by rwa [← isProper_congr isName]
  have type : k.type = kidType sc tr pe := kidType_of_mem member proper
  have soundKid : Sound sc false ⟨kidType sc tr pe, k.value⟩ := by
    rw [← type]
    exact (soundY.kid inKids).1
  have filledKid : emptyContainer k.value = false := by
    have each := ((everyNode_iff sc _ _).mp filled).2 k inKids
    simpa [Kid.node] using ((everyNode_iff sc _ _).mp each).1
  by_cases isNull : k.value = .null
  · -- null is no list item, so the parent is a map
    rcases mem_kids inKids with ⟨t, item, resolved, granular, inItems, isKid⟩ |
      ⟨t, entry, resolved, granular, -, -⟩
    · obtain ⟨other, isNamed⟩ := (soundY.items_named resolved granular).1 item inItems
      have isItem : item = .null := by rw [← isNull, isKid]; rfl
      rw [isItem] at isNamed
      exact absurd isNamed not_named_null
    · have names : ∀ other, selects set other = true → ∃ name, other = .fieldName name := by
        intro other selected
        by_contra noName
        rw [leaves.selects_iff soundY filled, kidsAt_ne_nil_iff, kidValues_of_resolved resolved] at selected
        exact selected (kidValuesOf_map_of_ne _ fun name isName => noName ⟨name, isName⟩)
      have selects_iff : ∀ key, selects set (.fieldName key) = true ↔
          Present sc tr (some y) [.fieldName key] := by
        intro key
        rw [leaves.selects_iff soundY filled, kidsAt_ne_nil_iff, present_single]
      obtain ⟨name, isFieldName⟩ := names pe
        ((leaves.selects_iff soundY filled pe).mpr (List.ne_nil_of_mem member))
      rw [isNull] at kid soundKid ⊢
      rw [removeItems_null_iff soundX soundKid kid (fun _ => leaves.nothing_beneath) names]
      simp only [selects_iff, NoLeakHere, isFieldName, PathElement.fieldName.injEq, forall_eq',
        forall_const]
  · have leaf : holdsItself sc ⟨kidType sc tr pe, k.value⟩ = true := by
      by_contra notLeaf
      have filledLists := listsFilled_of_containersFilled (((everyNode_iff sc _ _).mp filled).2 k inKids)
      rw [Kid.node, type] at filledLists childless
      apply kids_of_not_recorded soundKid filledLists (by simpa using notLeaf) _ childless
      cases held : k.value <;> simp_all [ToFieldSet.isNullOrEmptyMap, emptyContainer, Value.isNull,
        Value.isMap, Value.isList]
    rw [kid.of_holdsItself soundKid leaf, extract_of_holdsItself soundKid leaf filledKid]
    exact iff_of_true (BEq.refl _) fun _ _ null => absurd null isNull

section

variable (soundX : SoundSide sc false tr x) (soundY : Sound sc false ⟨tr, y⟩)
  (filled : containersFilled sc ⟨tr, y⟩ = true) (isMerged : Merged sc false tr x (some y) m)
  (leaves : LeafSet sc ⟨tr, y⟩ set) (held : kids sc ⟨tr, y⟩ ≠ [])

include soundX soundY filled isMerged leaves held

/-- A value with children is extracted child by child. -/
theorem extract_beq_iff :
    (extract sc tr m set == y) = true ↔ KidsExtracted sc tr m y set := by
  obtain ⟨k, member⟩ := List.exists_mem_of_ne_nil _ held
  rcases mem_kids member with ⟨t, item, resolved, granular, inItems, isKid⟩ |
    ⟨t, entry, resolved, granular, -, -⟩
  · have level := isMerged.level _ ⟨y, rfl, resolved⟩
    have notLeaf : leafPair (.list t) x (some y) = false := by
      rw [Bool.eq_false_iff]
      intro leaf
      have none : kidValuesOf sc (.list t) (some y) k.pe = [] :=
        (kidValuesOf_of_leafPair leaf (soundY.kid member).2).2
      rw [← kidValues_of_resolved resolved] at none
      exact kidsAt_ne_nil_iff.mp (List.ne_nil_of_mem (mem_kidsAt.mpr ⟨member, BEq.refl _⟩)) none
    exact extract_list_beq_iff soundY isMerged.sound filled leaves held granular resolved
      level.resolved (level.items t rfl notLeaf)
  · have level := isMerged.level _ ⟨y, rfl, resolved⟩
    apply extract_map_beq_iff soundY filled leaves held granular resolved level.resolved
    intro name present
    have found : Present sc tr (some y) [.fieldName name] := by
      rw [present_single, kidValues_map resolved granular]
      simpa using present
    have kept := isMerged.present_right soundX (soundSide_some.mpr soundY) found
    rw [present_single, kidValues_map level.resolved granular] at kept
    simpa using kept

/-- What is extracted from a merge with the leaves of the right side is the right
side, exactly if null lets nothing through. -/
theorem extract_merged_iff :
    (extract sc tr m set == y) = true ↔ NoLeak sc tr x y := by
  induction bound : y.depth using Nat.strong_induction_on generalizing tr x y m set with
  | _ depth ih =>
      subst bound
      have sideY := soundSide_some.mpr soundY
      have each : ∀ (pe : PathElement N) yk xk mk, pe.isProper = true →
          kidValues sc tr (some y) pe = [yk] → kidValues sc tr x pe = xk.toList →
          kidValues sc tr (some m) pe = [mk] →
          ((extract sc (kidType sc tr pe) mk (onward set pe) == yk) = true ↔
            NoLeakHere sc tr y pe xk yk ∧ NoLeak sc (kidType sc tr pe) xk yk) := by
        intro pe yk xk mk proper isKid isLeft isValue
        obtain ⟨k, member⟩ := List.exists_mem_of_ne_nil _
          (kidsAt_ne_nil_iff.mpr (by simp [isKid] : kidValues sc tr (some y) pe ≠ []))
        have value : k.value = yk := by
          simpa [kidValues, kidsAt_of_mem soundY member] using isKid
        subst value
        have inKids := (mem_kidsAt.mp member).1
        have type : k.type = kidType sc tr pe := kidType_of_mem member proper
        have soundKid : Sound sc false ⟨kidType sc tr pe, k.value⟩ := type ▸ (soundY.kid inKids).1
        obtain ⟨soundXk, kid⟩ : SoundSide sc false (kidType sc tr pe) xk ∧
            Merged sc false (kidType sc tr pe) xk (some k.value) mk := by
          cases isMerged.kid_cases soundX sideY proper with
          | lost left _ noRight _ _ => simp [noRight] at isKid
          | kept left right other isLeft' isRight isOther soundLeft soundRight kid =>
              have sameLeft : left = xk := by
                simpa using congrArg List.head? (isLeft'.symm.trans isLeft)
              have sameRight : right = some k.value := by
                simpa using congrArg List.head? (isRight.symm.trans isKid)
              have sameValue : other = mk := by simpa using isOther.symm.trans isValue
              subst sameLeft sameRight sameValue
              exact ⟨soundLeft, kid⟩
        by_cases childless : kids sc k.node = []
        · have isMember := (leaves.has_kid soundY filled member).mpr childless
          have apart : NoLeak sc (kidType sc tr pe) xk k.value := by
            rw [noLeak_iff soundXk soundKid]
            intro other yk' _ _ beneath
            have none : kids sc ⟨kidType sc tr pe, k.value⟩ = [] := type ▸ childless
            simp [kidValues, kidsAt, none] at beneath
          rw [onward, if_pos isMember,
            extract_childless_iff soundY filled leaves member childless soundXk kid]
          exact (and_iff_left apart).symm
        · have notMember : ¬ set.has [pe] = true := fun isMember =>
            childless ((leaves.has_kid soundY filled member).mp isMember)
          have notNull : k.value ≠ .null := by
            intro isNull
            apply childless
            rw [Kid.node, isNull]
            exact kids_null ..
          have here : NoLeakHere sc tr y pe xk k.value := fun _ _ null => absurd null notNull
          have filledKid : containersFilled sc ⟨kidType sc tr pe, k.value⟩ = true :=
            type ▸ ((everyNode_iff sc _ _).mp filled).2 k inKids
          have leavesKid : LeafSet sc ⟨kidType sc tr pe, k.value⟩ (set.withPrefix pe) :=
            type ▸ leaves.kid soundY member
          rw [onward, if_neg notMember, and_iff_right here]
          exact ih _ (depth_lt_of_mem_kids inKids) soundXk soundKid filledKid kid
            leavesKid (type ▸ childless) rfl
      rw [extract_beq_iff soundX soundY filled isMerged leaves held, noLeak_iff soundX soundY]
      constructor
      · intro extracted pe yk xk proper isKid isLeft
        have present := isMerged.present_right soundX sideY
          (present_single.mpr (by simp [isKid] : kidValues sc tr (some y) pe ≠ []))
        obtain ⟨mk, isValue⟩ := isMerged.sound.kidValues_toList pe
        cases mk with
        | none => exact absurd isValue (present_single.mp present)
        | some mk =>
            exact (each pe yk xk mk proper isKid isLeft isValue).mp (extracted pe yk mk isKid isValue)
      · intro apart pe yk mk isKid isValue
        have present : kidValues sc tr (some y) pe ≠ [] := by simp [isKid]
        have proper : pe.isProper = true := by
          by_contra improper
          exact kidsAt_ne_nil_iff.mpr present (soundY.kidsAt_improper (by simpa using improper))
        obtain ⟨xk, isLeft, -⟩ := soundX.kidSide proper
        exact (each pe yk xk mk proper isKid isLeft isValue).mpr (apart pe yk xk proper isKid isLeft)

end

end Reversible

/-! ## Objects -/

omit [Numeric N] [Consistent N] in
/-- No list and no map of the object is empty. -/
def TypedValue.containersFilled (tv : TypedValue N) : Bool :=
  match tv.value with
  | some v => Typed.containersFilled tv.schema.val ⟨tv.typeRef, v⟩
  | none => true

section

omit [Consistent N]

/-- What is extracted from the merge with the leaves of the partial object is the
partial object. -/
def TypedValue.givesBack (object pso : TypedValue N) : Bool :=
  match object.merge pso, pso.toFieldSet with
  | .ok merged, .ok set =>
      match merged.extractItems set.leaves with
      | .ok extracted => extracted.value == pso.value
      | .error _ => false
  | _, _ => false

/-- Null in the partial object lets nothing of the object through. -/
def TypedValue.NoLeak (object pso : TypedValue N) : Prop :=
  ∀ v, pso.value = some v → Typed.NoLeak pso.schema.val pso.typeRef object.value v

/-- An object, and a partial object of its type in which containers are null or filled. -/
structure Extractable (object pso : TypedValue N) : Prop where
  sameType : SameType object pso
  soundObject : SoundObject false object
  soundPartial : SoundObject false pso
  root : GranularRoot pso
  filled : pso.containersFilled = true

end

/-- The leaves of what an object records. -/
theorem leafSet_of_toFieldSet {tr : TypeRef N} (v : Value N) :
    LeafSet sc ⟨tr, v⟩ (FieldSet.ofPaths (toFieldSetWalk sc tr v).paths).leaves := by
  have canonical := FieldSet.ofPaths_canonical (toFieldSetWalk sc tr v).paths
  have recorded : ∀ path, (FieldSet.ofPaths (toFieldSetWalk sc tr v).paths).has path = true ↔
      path ≠ [] ∧ Recorded sc ⟨tr, v⟩ path := has_ofPaths_iff _
  refine ⟨FieldSet.leaves_canonical canonical, fun path => ?_⟩
  rw [FieldSet.has_leaves canonical, recorded, and_assoc]
  refine and_congr_right fun proper => and_congr_right fun _ => ?_
  simp [FieldSet.HasBeneath, recorded, proper]

theorem givesBack_iff_noLeak {object pso : TypedValue N} (extractable : Extractable object pso) :
    object.givesBack pso = true ↔ object.NoLeak pso := by
  obtain ⟨same, soundObject, soundPartial, root, filled⟩ := extractable
  obtain ⟨y, isValue, soundY⟩ := soundPartial.value
  obtain ⟨m, merged, isMerged⟩ := merge_of_sound same soundObject soundPartial
  rw [isValue, ← same.schema, ← same.typeRef] at isMerged
  have soundX := soundObject.side
  rw [← same.schema, ← same.typeRef] at soundX
  have recordedSet : pso.toFieldSet =
      .ok (FieldSet.ofPaths (toFieldSetWalk pso.schema.val pso.typeRef y).paths) := by
    simp [TypedValue.toFieldSet, isValue, toFieldSetWalk_clean soundY.resolves]
  have held : kids pso.schema.val ⟨pso.typeRef, y⟩ ≠ [] := by
    obtain ⟨v, t, isRoot, resolved, granular, entries⟩ := root
    cases isValue.symm.trans isRoot
    simpa [kids, resolved, kidsOf, granular] using entries
  have filledValue : Typed.containersFilled pso.schema.val ⟨pso.typeRef, y⟩ = true := by
    simpa [TypedValue.containersFilled, isValue] using filled
  have extracted := extract_merged_iff soundX soundY filledValue isMerged (leafSet_of_toFieldSet y)
    held
  have value : object.givesBack pso =
      (extract pso.schema.val pso.typeRef m
        (FieldSet.ofPaths (toFieldSetWalk pso.schema.val pso.typeRef y).paths).leaves == y) := by
    simp only [TypedValue.givesBack, merged, recordedSet, TypedValue.extractItems,
      TypedValue.removing, isValue, ← same.schema, ← same.typeRef]
    rfl
  rw [value, extracted, TypedValue.NoLeak, isValue]
  simp

omit [Consistent N] in
private theorem noLeak_numberSet (collision : Collision N) :
    (numberSetObject collision.integers).NoLeak (numberSetObject collision.floats) := by
  intro v isValue path name key isNull
  cases isValue
  obtain ⟨n, member, null⟩ := isNull
  have noNull : everyNode (numberSetObject collision.floats).schema.val (fun n => !n.value.isNull)
      ⟨(numberSetObject collision.floats).typeRef, .map [("list", .list collision.floats)]⟩ =
        true := rfl
  have notNull := ((everyNode_iff _ _ n).mp (everyNode_nodesAt noNull _ n member)).1
  rw [null] at notNull
  cases notNull

/-- Objects with a number `x` and a map `m` that has a number `x` too. -/
def nestedObject (bindings : List (String × Value Int)) : TypedValue Int :=
  { value := some (.map bindings)
    typeRef := .inline (.ofMap (.struct [
      ("m", .inline (.ofMap (.struct [("x", .inline (.ofScalar .numeric))]))),
      ("x", .inline (.ofScalar .numeric))]))
    schema := ⟨0, ⟨[]⟩⟩ }

private theorem nestedObject_sound {bindings : List (String × Value Int)}
    (valid : (nestedObject bindings).isValid false = true) :
    SoundObject false (nestedObject bindings) := by
  refine ⟨valid, listsSupported_struct ?_⟩
  intro field member
  rcases List.mem_cons.mp member with rfl | later
  · apply listsSupported_struct
    intro inner isInner
    rw [List.mem_singleton.mp isInner]
    exact listsSupported_scalar .numeric
  · rw [List.mem_singleton.mp later]
    exact listsSupported_scalar .numeric

end StructuredMergeDiff.Typed
