import StructuredMergeDiff.Typed.MergeLevel

/-!
Contract: what a merge of sound values is.

Owns: that such a merge succeeds with a sound value, which holds under every path
element what the two sides hold there, merged; and that it is equal to either
side where the other adds nothing.
-/

namespace StructuredMergeDiff.Typed

open Library Std Compare Value

variable {N : Type} [Numeric N] [Consistent N] {sc : Schema N}

/-! ## Sound values -/

theorem Valid.weaken (allowDuplicates : Bool) {n : Node N} (valid : Valid sc false n) :
    Valid sc allowDuplicates n := by
  induction bound : n.value.depth using Nat.strong_induction_on generalizing n with
  | _ depth ih =>
      subst bound
      rw [valid_iff] at valid ⊢
      obtain ⟨alternative, resolved, fits⟩ := valid
      refine ⟨alternative, resolved, ?_⟩
      cases alternative with
      | scalar t => exact fits
      | list t =>
          rcases fits with isNull | ⟨items, isItems, named, valid⟩
          · exact Or.inl isNull
          · refine Or.inr ⟨items, isItems, fun associative => ?_, fun item member => ?_⟩
            · exact ⟨(named associative).1, fun _ => (named associative).2 rfl⟩
            · have less : item.depth < n.value.depth := by
                rw [isItems]
                exact depth_lt_of_mem_items (v := .list items) member
              exact ih _ less (valid item member) rfl
      | map t =>
          rcases fits with isNull | ⟨bindings, isBindings, known⟩
          · exact Or.inl isNull
          · refine Or.inr ⟨bindings, isBindings, fun entry member => ?_⟩
            exact ⟨(known entry member).1, ih _
              (depth_lt_of_mem_entries member) (known entry member).2 rfl⟩

theorem Sound.weaken {allowDuplicates : Bool} {n : Node N} (sound : Sound sc false n) :
    Sound sc allowDuplicates n :=
  ⟨sound.valid.weaken allowDuplicates, sound.supported⟩

/-- Null is sound wherever some value is. -/
theorem Sound.null {allowDuplicates other : Bool} {tr : TypeRef N} {v : Value N}
    (sound : Sound sc other ⟨tr, v⟩) : Sound sc allowDuplicates ⟨tr, .null⟩ := by
  refine ⟨?_, sound.supported⟩
  obtain ⟨alternative, resolved, -⟩ := sound.alternative
  rw [valid_iff]
  cases found : resolveSchema sc tr .null with
  | error message =>
      have failed := resolveSchema_error_congr found v
      rw [resolved] at failed
      cases failed
  | ok chosen =>
      refine ⟨chosen, rfl, ?_⟩
      cases chosen with
      | scalar t => rfl
      | list t => exact Or.inl rfl
      | map t => exact Or.inl rfl

/-! ## Merged values -/

/-- The left side has nothing to add to the value. -/
def Absorbed (lhs : Option (Value N)) (y : Value N) : Prop :=
  ∀ x, lhs = some x → x = .null ∨ (x == y) = true

omit [Consistent N] in
/-- What an absorbed side holds under a key, the value holds too. -/
theorem Absorbed.get? {lhs : Option (Value N)} {y : Value N} (absorbed : Absorbed lhs y)
    {name : String} {a : Value N} (found : lhs.bind (·.get? name) = some a) :
    ∃ b, y.get? name = some b ∧ (a == b) = true := by
  obtain ⟨x, isLeft, inLeft⟩ := Option.bind_eq_some_iff.mp found
  rcases absorbed x isLeft with rfl | same
  · cases inLeft
  · have sameEntry := get?_of_beq same name
    rw [inLeft] at sameEntry
    cases entry : y.get? name with
    | none => rw [entry] at sameEntry; cases sameEntry
    | some b =>
        rw [entry] at sameEntry
        cases sameEntry with
        | some equal => exact ⟨b, rfl, equal⟩

omit [Numeric N] [Consistent N] in
/-- The named items of a side. -/
abbrev sideItems (sc : Schema N) (t : ListType N) (side : Option (Value N)) :
    List (PathElement N × Value N) :=
  namedItems sc t ((derefList side).getD [])

/-- The value is a list of merged items, which have the names they are listed with. -/
def ListMerged (sc : Schema N) (t : ListType N) (lhs rhs : Option (Value N)) (m : Value N) : Prop :=
  ∃ out, m = .list (out.map Prod.snd) ∧
    ItemsMerge sc t.elementType (sideItems sc t lhs) (sideItems sc t rhs) out ∧
    ∀ entry ∈ out, ∃ other, listItemToPathElement sc t entry.2 = .ok other ∧
      (other == entry.1) = true

/-- One level of a merged value, under the alternative that decides its shape. -/
structure LevelMerged (sc : Schema N) (tr : TypeRef N) (lhs rhs : Option (Value N)) (m : Value N)
    (alternative : Alternative N) : Prop where
  resolved : resolveSchema sc tr m = .ok alternative
  leaf : leafPair alternative lhs rhs = true → rhs.or lhs = some m
  holds : leafPair alternative lhs rhs = false → kids sc ⟨tr, m⟩ ≠ []
  kid : ∀ pe : PathElement N, pe.isProper = true → kidValues sc tr (some m) pe =
    mergeAll sc (kidType sc tr pe) (kidValuesOf sc alternative lhs pe)
      (kidValuesOf sc alternative rhs pe)
  items : ∀ t, alternative = .list t → leafPair alternative lhs rhs = false →
    ListMerged sc t lhs rhs m

/-- The value of a merge, how it comes about level by level, and when it is equal
to one of the two sides. -/
structure Merged (sc : Schema N) (allowDuplicates : Bool) (tr : TypeRef N)
    (lhs rhs : Option (Value N)) (m : Value N) : Prop where
  walk : mergeWalk sc tr lhs rhs = some { out := some m, errs := [] }
  sound : Sound sc allowDuplicates ⟨tr, m⟩
  level : ∀ alternative, Governs sc tr lhs rhs alternative → LevelMerged sc tr lhs rhs m alternative
  ofLeft : ∀ x, lhs = some x → rhs = none → (m == x) = true
  ofRight : ∀ y, rhs = some y → Absorbed lhs y → (m == y) = true

omit [Consistent N] in
theorem Merged.isMerged {allowDuplicates : Bool} {tr : TypeRef N} {lhs rhs : Option (Value N)}
    {m : Value N} (is : Merged sc allowDuplicates tr lhs rhs m) :
    merged sc tr lhs rhs = some m := by
  simp [merged, is.walk]

/-- All pairs of sound sides that are less deep merge. -/
def MergesBelow (sc : Schema N) (allowDuplicates : Bool) (bound : Nat) : Prop :=
  ∀ (tr : TypeRef N) (x y : Option (Value N)), sideDepth x + sideDepth y < bound →
    (x ≠ none ∨ y ≠ none) → SoundSide sc allowDuplicates tr x → SoundSide sc false tr y →
    ∃ m, Merged sc allowDuplicates tr x y m

/-! ## Children -/

omit [Consistent N] in
/-- A value held under an alternative of either side is one of the side's own children. -/
theorem mem_kidValues_of_kidValuesOf {tr : TypeRef N} {v : Value N} {side : Option (Value N)}
    {alternative : Alternative N} (resolved : resolveSchema sc tr v = .ok alternative)
    {pe : PathElement N} (proper : pe.isProper = true) {x : Value N}
    (member : x ∈ kidValuesOf sc alternative side pe) :
    x ∈ kidValues sc tr side pe ∧ kidTypeOf alternative pe = kidType sc tr pe := by
  cases side with
  | none => cases member
  | some w =>
      rcases kidValuesOf_cases resolved (r := w) pe with none | other
      · rw [none] at member
        cases member
      · rw [← kidValues_of_resolved other] at member
        exact ⟨member, kidTypeOf_eq other proper (List.ne_nil_of_mem member)⟩

section Under

variable {allowDuplicates rightDuplicates : Bool} {tr : TypeRef N} {lhs rhs : Option (Value N)}
  {v : Value N} {alternative : Alternative N} {entry : PathElement N × Value N}

/-- Children of the two sides, with null in place of duplicates, are sound sides
again and less deep. -/
theorem soundSides_of_kids (soundLeft : SoundSide sc allowDuplicates tr lhs)
    (soundRight : SoundSide sc rightDuplicates tr rhs)
    (resolved : resolveSchema sc tr v = .ok alternative) (pe : PathElement N)
    (proper : pe.isProper = true) {x y : Option (Value N)} (present : x ≠ none ∨ y ≠ none)
    (inLeft : ∀ w, x = some w → w ∈ kidValuesOf sc alternative lhs pe ∨
      w = .null ∧ kidValuesOf sc alternative lhs pe ≠ [])
    (inRight : ∀ w, y = some w → w ∈ kidValuesOf sc alternative rhs pe) :
    SoundSide sc allowDuplicates (kidTypeOf alternative pe) x ∧
      SoundSide sc rightDuplicates (kidTypeOf alternative pe) y ∧
      sideDepth x + sideDepth y < sideDepth lhs + sideDepth rhs := by
  have left : ∀ w, x = some w →
      Sound sc allowDuplicates ⟨kidTypeOf alternative pe, w⟩ ∧ w.depth + 1 < sideDepth lhs := by
    intro w isLeft
    rcases inLeft w isLeft with member | ⟨rfl, held⟩
    · obtain ⟨inKids, type⟩ := mem_kidValues_of_kidValuesOf resolved proper member
      rw [type]
      exact ⟨soundLeft.kid proper inKids, sideDepth_lt_of_kid inKids⟩
    · obtain ⟨other, member⟩ := List.exists_mem_of_ne_nil _ held
      obtain ⟨inKids, type⟩ := mem_kidValues_of_kidValuesOf resolved proper member
      rw [type]
      have less := sideDepth_lt_of_kid inKids
      have shallow : (Value.null : Value N).depth ≤ other.depth := Nat.zero_le _
      exact ⟨(soundLeft.kid proper inKids).null, by omega⟩
  have right : ∀ w, y = some w →
      Sound sc rightDuplicates ⟨kidTypeOf alternative pe, w⟩ ∧ w.depth + 1 < sideDepth rhs := by
    intro w isRight
    obtain ⟨inKids, type⟩ := mem_kidValues_of_kidValuesOf resolved proper (inRight w isRight)
    rw [type]
    exact ⟨soundRight.kid proper inKids, sideDepth_lt_of_kid inKids⟩
  refine ⟨fun w isLeft => (left w isLeft).1, fun w isRight => (right w isRight).1, ?_⟩
  · cases x with
    | none =>
        cases y with
        | none => simp at present
        | some y =>
            have := (right y rfl).2
            simp only [sideDepth, Option.elim_none, Option.elim_some] at this ⊢
            omega
    | some x =>
        have onLeft := (left x rfl).2
        cases y with
        | none =>
            simp only [sideDepth, Option.elim_none, Option.elim_some] at onLeft ⊢
            omega
        | some y =>
            have onRight := (right y rfl).2
            simp only [sideDepth, Option.elim_some] at onLeft onRight ⊢
            omega

theorem MergesBelow.kid (below : MergesBelow sc allowDuplicates (sideDepth lhs + sideDepth rhs))
    (soundLeft : SoundSide sc allowDuplicates tr lhs) (soundRight : SoundSide sc false tr rhs)
    (resolved : resolveSchema sc tr v = .ok alternative) (pe : PathElement N)
    (proper : pe.isProper = true) {x y : Option (Value N)} (present : x ≠ none ∨ y ≠ none)
    (inLeft : ∀ w, x = some w → w ∈ kidValuesOf sc alternative lhs pe ∨
      w = .null ∧ kidValuesOf sc alternative lhs pe ≠ [])
    (inRight : ∀ w, y = some w → w ∈ kidValuesOf sc alternative rhs pe) :
    ∃ m, Merged sc allowDuplicates (kidTypeOf alternative pe) x y m := by
  obtain ⟨left, right, less⟩ :=
    soundSides_of_kids soundLeft soundRight resolved pe proper present inLeft inRight
  exact below _ x y less present left right

/-- A merge under an alternative in which one of the sides has children. -/
structure HeldMerged (sc : Schema N) (allowDuplicates : Bool) (tr : TypeRef N)
    (lhs rhs : Option (Value N)) (m : Value N) (alternative : Alternative N) : Prop where
  walk : Merge.under sc alternative lhs rhs = some { out := some m, errs := [] }
  sound : Sound sc allowDuplicates ⟨tr, m⟩
  holds : kidsOf sc alternative m ≠ []
  kid : ∀ pe : PathElement N, pe.isProper = true → kidValuesOf sc alternative (some m) pe =
    mergeAll sc (kidTypeOf alternative pe) (kidValuesOf sc alternative lhs pe)
      (kidValuesOf sc alternative rhs pe)
  items : ∀ t, alternative = .list t → ListMerged sc t lhs rhs m
  ofLeft : ∀ x, lhs = some x → rhs = none → (m == x) = true
  ofRight : ∀ y, rhs = some y → Absorbed lhs y → (m == y) = true

omit [Consistent N] in
theorem ListsSupported.ofSides (soundLeft : SoundSide sc allowDuplicates tr lhs)
    (soundRight : SoundSide sc false tr rhs) (present : lhs ≠ none ∨ rhs ≠ none) :
    ListsSupported sc tr := by
  cases lhs with
  | some x => exact (soundLeft x rfl).supported
  | none =>
      cases rhs with
      | some y => exact (soundRight y rfl).supported
      | none => simp at present

section

omit [Numeric N] [Consistent N]

theorem valueAt_derefMap (side : Option (Value N)) (name : String) :
    valueAt ((derefMap side).getD []) name = side.bind (·.get? name) := by
  cases side with
  | none => rfl
  | some v => rw [derefMap_getD]; rfl

theorem isMap_of_entries {v : Value N} (present : v.entries ≠ []) :
    ∃ bindings, v = .map bindings := by
  cases v with
  | map bindings => exact ⟨bindings, rfl⟩
  | _ => exact absurd rfl present

private theorem get?_of_entries {side : Option (Value N)} (present : (derefMap side).getD [] ≠ []) :
    ∃ name, side.bind (·.get? name) ≠ none := by
  cases side with
  | none => exact absurd rfl present
  | some v =>
      rw [derefMap_getD] at present
      obtain ⟨entry, member⟩ := List.exists_mem_of_ne_nil _ present
      have found : v.get? entry.1 = some entry.2 := get?_eq_some_iff.mpr member
      exact ⟨entry.1, by simp [found]⟩

theorem kidsOf_map_ne_nil {t : MapType N} (granular : t.elementRelationship ≠ .atomic)
    {w : Value N} {name : String} (found : w.get? name ≠ none) : kidsOf sc (.map t) w ≠ [] := by
  obtain ⟨value, isValue⟩ := Option.ne_none_iff_exists'.mp found
  have member := get?_eq_some_iff.mp isValue
  simp only [kidsOf, if_neg granular, ne_eq, List.map_eq_nil_iff]
  exact List.ne_nil_of_mem member

end

private theorem SoundSide.knows {t : MapType N} {side : Option (Value N)}
    (sound : SoundSide sc allowDuplicates tr side)
    (resolved : resolveSchema sc tr v = .ok (.map t)) (granular : t.elementRelationship ≠ .atomic)
    {name : String} (found : side.bind (·.get? name) ≠ none) : MapType.Knows t name := by
  cases side with
  | none => exact absurd rfl found
  | some w =>
      obtain ⟨value, isValue⟩ := Option.ne_none_iff_exists'.mp found
      have own := resolveSchema_of_kidsOf resolved (kidsOf_map_ne_nil granular found)
      exact ((sound w rfl).entries_known own _ (get?_eq_some_iff.mp isValue)).1

/-- Entries of the two sides under a name. -/
theorem entry_sides {t : MapType N} (soundLeft : SoundSide sc allowDuplicates tr lhs)
    (soundRight : SoundSide sc rightDuplicates tr rhs)
    (resolved : resolveSchema sc tr v = .ok (.map t)) (granular : t.elementRelationship ≠ .atomic)
    {name : String} (held : lhs.bind (·.get? name) ≠ none ∨ rhs.bind (·.get? name) ≠ none) :
    SoundSide sc allowDuplicates (t.fieldType name) (lhs.bind (·.get? name)) ∧
      SoundSide sc rightDuplicates (t.fieldType name) (rhs.bind (·.get? name)) ∧
      sideDepth (lhs.bind (·.get? name)) + sideDepth (rhs.bind (·.get? name)) <
        sideDepth lhs + sideDepth rhs := by
  refine soundSides_of_kids soundLeft soundRight resolved (.fieldName name) rfl held ?_ ?_
  · intro w isLeft
    rw [kidValuesOf_map granular, valueAt_derefMap]
    exact Or.inl (by simp [isLeft])
  · intro w isRight
    rw [kidValuesOf_map granular, valueAt_derefMap]
    simp [isRight]

/-- Merging under a map type. -/
theorem doMap_merged {t : MapType N}
    (below : MergesBelow sc allowDuplicates (sideDepth lhs + sideDepth rhs))
    (soundLeft : SoundSide sc allowDuplicates tr lhs) (soundRight : SoundSide sc false tr rhs)
    (resolved : resolveSchema sc tr v = .ok (.map t)) (present : lhs ≠ none ∨ rhs ≠ none)
    (held : leafPair (.map t) lhs rhs = false) :
    ∃ m, HeldMerged sc allowDuplicates tr lhs rhs m (.map t) := by
  obtain ⟨granular, notEmpty⟩ : t.elementRelationship ≠ .atomic ∧
      ((derefMap lhs).getD [] ≠ [] ∨ (derefMap rhs).getD [] ≠ []) := by
    simpa [leafPair, imp_iff_not_or] using held
  have kid : ∀ name, (lhs.bind (·.get? name) ≠ none ∨ rhs.bind (·.get? name) ≠ none) →
      ∃ m, Merged sc allowDuplicates (t.fieldType name) (lhs.bind (·.get? name))
        (rhs.bind (·.get? name)) m := by
    intro name held
    obtain ⟨left, right, less⟩ := entry_sides soundLeft soundRight resolved granular held
    exact below _ _ _ less held left right
  obtain ⟨bindings, walk, entry⟩ := Merge.visitMapItems_merges (t := t) notEmpty (by
    intro name held
    rw [valueAt_derefMap, valueAt_derefMap] at held ⊢
    obtain ⟨m, isMerged⟩ := kid name held
    exact ⟨m, isMerged.walk⟩)
  simp only [valueAt_derefMap] at entry
  have entryMerged : ∀ name value, (Value.map bindings).get? name = some value →
      (lhs.bind (·.get? name) ≠ none ∨ rhs.bind (·.get? name) ≠ none) ∧
        Merged sc allowDuplicates (t.fieldType name) (lhs.bind (·.get? name))
          (rhs.bind (·.get? name)) value := by
    intro name value found
    rw [entry] at found
    by_cases held : lhs.bind (·.get? name) ≠ none ∨ rhs.bind (·.get? name) ≠ none
    · obtain ⟨m, isMerged⟩ := kid name held
      cases Option.some.inj (isMerged.isMerged.symm.trans found)
      exact ⟨held, isMerged⟩
    · obtain ⟨noLeft, noRight⟩ := not_or.mp held
      rw [not_not.mp noLeft, not_not.mp noRight, merged_none] at found
      cases found
  have holds : kidsOf sc (.map t) (.map bindings) ≠ [] := by
    obtain ⟨name, held⟩ : ∃ name, lhs.bind (·.get? name) ≠ none ∨ rhs.bind (·.get? name) ≠ none := by
      rcases notEmpty with left | right
      · obtain ⟨name, found⟩ := get?_of_entries left
        exact ⟨name, Or.inl found⟩
      · obtain ⟨name, found⟩ := get?_of_entries right
        exact ⟨name, Or.inr found⟩
    obtain ⟨m, isMerged⟩ := kid name held
    have found : (Value.map bindings).get? name ≠ none := by
      rw [entry, isMerged.isMerged]
      simp
    exact kidsOf_map_ne_nil granular found
  refine ⟨.map bindings, ?_, ?_, holds, ?_, by simp, ?_, ?_⟩
  · have notLeaf : ¬ (decide (t.elementRelationship = .atomic) ||
        (((derefMap lhs).getD []).isEmpty && ((derefMap rhs).getD []).isEmpty)) = true := by
      simpa [leafPair] using held
    unfold Merge.under Merge.doMap
    dsimp only
    rw [if_neg notLeaf]
    exact walk
  · refine ⟨?_, .ofSides soundLeft soundRight present⟩
    rw [valid_iff]
    refine ⟨.map t, resolveSchema_of_kidsOf resolved holds, Or.inr ⟨bindings, rfl, ?_⟩⟩
    intro item member
    obtain ⟨held, isMerged⟩ := entryMerged item.1 item.2 (get?_eq_some_iff.mpr member)
    refine ⟨?_, isMerged.sound.valid⟩
    rcases held with left | right
    · exact soundLeft.knows resolved granular left
    · exact soundRight.knows resolved granular right
  · intro pe proper
    cases pe with
    | fieldName name =>
        rw [kidValuesOf_map granular, kidValuesOf_map granular, kidValuesOf_map granular,
          valueAt_derefMap, valueAt_derefMap, valueAt_derefMap, mergeAll_toList]
        exact congrArg Option.toList (entry name)
    | _ => simp [kidValuesOf_map_of_ne, mergeAll]
  · intro x isLeft isRight
    subst isLeft isRight
    have isMap : x.entries ≠ [] := by
      rw [← derefMap_getD]
      exact notEmpty.resolve_right fun present => present rfl
    obtain ⟨xs, rfl⟩ := isMap_of_entries isMap
    rw [beq_map_iff]
    intro name
    rw [entry]
    cases found : (Value.map xs).get? name with
    | none =>
        rw [Option.bind_some, found, Option.bind_none, merged_none]
        exact Option.Rel.none
    | some value =>
        obtain ⟨m, isMerged⟩ := kid name (Or.inl (by simp [found]))
        rw [isMerged.isMerged]
        exact Option.Rel.some (isMerged.ofLeft value found rfl)
  · intro y isRight absorbed
    subst isRight
    have isMap : ∃ ys, y = .map ys := by
      rcases notEmpty with left | right
      · cases lhs with
        | none => exact absurd rfl left
        | some x =>
            rw [derefMap_getD] at left
            obtain ⟨xs, rfl⟩ := isMap_of_entries left
            have same := (absorbed _ rfl).resolve_left (by simp)
            have kinds := kind_of_beq same
            cases y <;> first | exact ⟨_, rfl⟩ | cases kinds
      · rw [derefMap_getD] at right
        exact isMap_of_entries right
    obtain ⟨ys, rfl⟩ := isMap
    rw [beq_map_iff]
    intro name
    rw [entry]
    cases found : (Value.map ys).get? name with
    | none =>
        have noLeft : lhs.bind (·.get? name) = none := by
          rw [Option.eq_none_iff_forall_ne_some]
          intro a inLeft
          obtain ⟨b, isEntry, -⟩ := absorbed.get? inLeft
          rw [found] at isEntry
          cases isEntry
        rw [noLeft, Option.bind_some, found, merged_none]
        exact Option.Rel.none
    | some value =>
        obtain ⟨m, isMerged⟩ := kid name (Or.inr (by simp [found]))
        rw [isMerged.isMerged]
        refine Option.Rel.some (isMerged.ofRight value found fun a inLeft => Or.inr ?_)
        obtain ⟨b, isEntry, same⟩ := absorbed.get? inLeft
        cases Option.some.inj (isEntry.symm.trans found)
        exact same

/-! ## Names of merged items -/

theorem Merged.get?_side {t : MapType N} {y m : Value N}
    (isMerged : Merged sc allowDuplicates tr lhs (some y) m)
    (resolved : resolveSchema sc tr y = .ok (.map t)) (granular : t.elementRelationship ≠ .atomic)
    (name : String) :
    m.get? name = merged sc (t.fieldType name) (lhs.bind (·.get? name)) (y.get? name) := by
  have level := isMerged.level _ ⟨y, rfl, resolved⟩
  have kid := level.kid (.fieldName name) rfl
  have type := kidType_map resolved name
  rw [kidValues_of_resolved level.resolved, kidValuesOf_map granular, kidValuesOf_map granular,
    kidValuesOf_map granular, valueAt_derefMap, valueAt_derefMap, valueAt_derefMap, mergeAll_toList,
    type] at kid
  simpa using congrArg List.head? kid

section

variable {t : MapType N} {x y m : Value N}
  (isMerged : Merged sc allowDuplicates tr (some x) (some y) m)
  (resolved : resolveSchema sc tr y = .ok (.map t)) (granular : t.elementRelationship ≠ .atomic)

include isMerged resolved granular

theorem Merged.get?_eq (name : String)
    : m.get? name = merged sc (t.fieldType name) (x.get? name) (y.get? name) :=
  isMerged.get?_side resolved granular name

private theorem keyValueOf_merged {list : ListType N} {name : String}
    (kid : (x.get? name ≠ none ∨ y.get? name ≠ none) →
      ∃ m, Merged sc allowDuplicates (t.fieldType name) (x.get? name) (y.get? name) m)
    (same : (keyValue sc list x name == keyValue sc list y name) = true) {value : Value N}
    (found : keyValueOf sc list name (y.get? name) = .ok value) :
    ∃ w, keyValueOf sc list name (m.get? name) = .ok w ∧ (w == value) = true := by
  rw [isMerged.get?_eq resolved granular]
  simp only [keyValue, found] at same
  cases inRight : y.get? name with
  | some b =>
      rw [inRight] at found
      cases found
      obtain ⟨w, entryMerged⟩ := kid (Or.inr (by simp [inRight]))
      rw [inRight] at entryMerged
      rw [entryMerged.isMerged]
      refine ⟨w, rfl, entryMerged.ofRight value rfl fun a inLeft => Or.inr ?_⟩
      simpa [inLeft, keyValueOf] using same
  | none =>
      cases inLeft : x.get? name with
      | none =>
          rw [merged_none, ← inRight]
          exact ⟨value, found, BEq.refl _⟩
      | some a =>
          obtain ⟨w, entryMerged⟩ := kid (Or.inl (by simp [inLeft]))
          rw [inLeft, inRight] at entryMerged
          rw [entryMerged.isMerged]
          simp only [inLeft, keyValueOf] at same
          exact ⟨w, rfl, BEq.trans (entryMerged.ofLeft a rfl rfl) same⟩

end

private theorem Sound.isMap {n : Node N} {t : MapType N} (sound : Sound sc allowDuplicates n)
    (resolved : resolveSchema sc n.type n.value = .ok (.map t)) (notNull : n.value ≠ .null) :
    ∃ bindings, n.value = .map bindings := by
  obtain ⟨chosen, isChosen, fits⟩ := sound.alternative
  cases Except.ok.inj (resolved.symm.trans isChosen)
  rcases fits with isNull | ⟨bindings, isMap, -⟩
  · exact absurd isNull notNull
  · exact ⟨bindings, isMap⟩

/-- A map is sound only under a map type. -/
theorem Sound.map_resolved {bindings : List (String × Value N)}
    (sound : Sound sc allowDuplicates ⟨tr, .map bindings⟩) :
    ∃ t, resolveSchema sc tr (.map bindings) = .ok (.map t) := by
  obtain ⟨chosen, isChosen, fits⟩ := sound.alternative
  cases chosen with
  | scalar t => cases t <;> simp [Fits, validateScalar, admits, Value.isScalar, errorf] at fits
  | list t => simp [Fits] at fits
  | map t => exact ⟨t, isChosen⟩

/-- What is merged for an item of the right side has the name of the item. -/
theorem Merged.named {list : ListType N} {x : Option (Value N)} {y m : Value N}
    {pe : PathElement N} (isMerged : Merged sc allowDuplicates list.elementType x (some y) m)
    (below : MergesBelow sc allowDuplicates (sideDepth x + sideDepth (some y)))
    (soundLeft : SoundSide sc allowDuplicates list.elementType x)
    (soundRight : Sound sc false ⟨list.elementType, y⟩)
    (named : listItemToPathElement sc list y = .ok pe)
    (alike : ∀ w, x = some w → w = .null ∨
      ∃ other, listItemToPathElement sc list w = .ok other ∧ (other == pe) = true) :
    ∃ other, listItemToPathElement sc list m = .ok other ∧ (other == pe) = true := by
  by_cases absorbed : Absorbed x y
  · exact named_of_beq (BEq.symm (isMerged.ofRight y rfl absorbed)) named
  · obtain ⟨w, rfl, notNull, differs⟩ : ∃ w, x = some w ∧ w ≠ .null ∧ ¬ (w == y) = true := by
      simpa [Absorbed] using absorbed
    obtain ⟨other, namedLeft, same⟩ := (alike w rfl).resolve_left notNull
    have sameName := (name_beq_iff namedLeft named).mp same
    by_cases keyed : list.keys = []
    · rw [SameName, if_pos keyed] at sameName
      exact absurd sameName differs
    · rw [SameName, if_neg keyed] at sameName
      obtain ⟨⟨ys, rfl⟩, -⟩ := (keyed_named_iff (associative_of_named named) keyed).mp named
      obtain ⟨t, resolved⟩ := soundRight.map_resolved
      have level := isMerged.level _ ⟨_, rfl, resolved⟩
      cases leaf : leafPair (.map t) (some w) (some (.map ys)) with
      | true =>
          cases Option.some.inj (level.leaf leaf)
          exact ⟨pe, named, BEq.refl _⟩
      | false =>
          have granular : t.elementRelationship ≠ .atomic := by
            intro atomic
            simp [leafPair, atomic] at leaf
          have notNull : m ≠ .null := by
            intro isNull
            exact level.holds leaf (by rw [isNull, kids_null])
          obtain ⟨ms, isMap⟩ := isMerged.sound.isMap level.resolved notNull
          cases isMap
          apply named_of_keys named keyed
          intro name member value found
          refine keyValueOf_merged isMerged resolved granular (fun held => ?_)
            (sameName name member) found
          have inner := below.kid soundLeft (soundSide_some.mpr soundRight) resolved
            (.fieldName name) rfl held
          refine inner (fun a inLeft => Or.inl ?_) fun b inRight => ?_
          · rw [kidValuesOf_map granular, valueAt_derefMap]
            simp [inLeft]
          · rw [kidValuesOf_map granular, valueAt_derefMap]
            simp [inRight]

/-! ## Lists -/

/-- The items of either side under a list type. -/
theorem SoundSide.items_of_resolved {t : ListType N} {side : Option (Value N)}
    (sound : SoundSide sc allowDuplicates tr side)
    (resolved : resolveSchema sc tr v = .ok (.list t))
    (granular : t.elementRelationship ≠ .atomic) :
    (∀ item ∈ (derefList side).getD [], ∃ pe, listItemToPathElement sc t item = .ok pe) ∧
      (allowDuplicates = false → Separate (namedItems sc t ((derefList side).getD []))) ∧
      ∀ item ∈ (derefList side).getD [], Sound sc allowDuplicates ⟨t.elementType, item⟩ := by
  cases side with
  | none => simp [derefList, namedItems, Separate]
  | some w =>
      rw [derefList_getD]
      by_cases present : w.items = []
      · rw [present]
        simp [namedItems, Separate]
      · have held : kidsOf sc (.list t) w ≠ [] := by
          simpa [kidsOf, granular] using present
        exact (sound w rfl).items_named (resolveSchema_of_kidsOf resolved held) granular

theorem mem_entriesAt {pes : List (PathElement N × Value N)} (member : entry ∈ pes)
    : entry.2 ∈ entriesAt pes entry.1 :=
  List.mem_map.mpr ⟨entry, List.mem_filter.mpr ⟨member, BEq.refl _⟩, rfl⟩

omit [Consistent N] in
private theorem kidValuesOf_sideItems {t : ListType N} (granular : t.elementRelationship ≠ .atomic)
    (side : Option (Value N)) {other : Option (Value N)} (member : entry ∈ sideItems sc t other) :
    entry.1.isProper = true ∧
      kidValuesOf sc (.list t) side entry.1 = entriesAt (sideItems sc t side) entry.1 := by
  have proper := proper_of_named (mem_of_mem_namedItems member).2
  exact ⟨proper, kidValuesOf_list granular side proper⟩

section

variable {t : ListType N} (soundLeft : SoundSide sc allowDuplicates tr lhs)
  (soundRight : SoundSide sc rightDuplicates tr rhs)
  (resolved : resolveSchema sc tr v = .ok (.list t)) (granular : t.elementRelationship ≠ .atomic)

include soundLeft soundRight resolved granular

theorem leftItem_sides (member : entry ∈ sideItems sc t lhs) :
    SoundSide sc allowDuplicates t.elementType (some entry.2) ∧
      SoundSide sc rightDuplicates t.elementType none ∧
      sideDepth (some entry.2) + sideDepth (none : Option (Value N)) <
        sideDepth lhs + sideDepth rhs := by
  obtain ⟨proper, entries⟩ := kidValuesOf_sideItems granular lhs member
  refine soundSides_of_kids soundLeft soundRight resolved entry.1 proper (Or.inl (by simp)) ?_
    (by simp)
  intro w isItem
  cases isItem
  exact Or.inl (entries ▸ mem_entriesAt member)

/-- An item of the right side, with what the left side has under its name. -/
theorem rightItem_sides (member : entry ∈ sideItems sc t rhs) :
    SoundSide sc allowDuplicates t.elementType
        (Merge.indexedValue (entriesAt (sideItems sc t lhs) entry.1)) ∧
      SoundSide sc rightDuplicates t.elementType (some entry.2) ∧
      sideDepth (Merge.indexedValue (entriesAt (sideItems sc t lhs) entry.1)) +
        sideDepth (some entry.2) < sideDepth lhs + sideDepth rhs := by
  obtain ⟨proper, entriesLeft⟩ := kidValuesOf_sideItems granular lhs member
  obtain ⟨-, entriesRight⟩ := kidValuesOf_sideItems granular rhs member
  refine soundSides_of_kids soundLeft soundRight resolved entry.1 proper (Or.inr (by simp))
    (fun w isItem => entriesLeft ▸ indexedValue_eq_some isItem) ?_
  intro w isItem
  cases isItem
  exact entriesRight ▸ mem_entriesAt member

end

section

variable {t : ListType N} (below : MergesBelow sc allowDuplicates (sideDepth lhs + sideDepth rhs))
  (soundLeft : SoundSide sc allowDuplicates tr lhs) (soundRight : SoundSide sc false tr rhs)
  (resolved : resolveSchema sc tr v = .ok (.list t)) (granular : t.elementRelationship ≠ .atomic)

include below soundLeft soundRight resolved granular

private theorem leftItem_merged (member : entry ∈ sideItems sc t lhs) :
    ∃ m, Merged sc allowDuplicates t.elementType (some entry.2) none m := by
  obtain ⟨left, right, less⟩ := leftItem_sides soundLeft soundRight resolved granular member
  exact below _ _ _ less (Or.inl (by simp)) left right

private theorem rightItem_merged (member : entry ∈ sideItems sc t rhs) :
    ∃ m, Merged sc allowDuplicates t.elementType
        (Merge.indexedValue (entriesAt (sideItems sc t lhs) entry.1)) (some entry.2) m ∧
      ∃ other, listItemToPathElement sc t m = .ok other ∧ (other == entry.1) = true := by
  obtain ⟨left, right, less⟩ := rightItem_sides soundLeft soundRight resolved granular member
  obtain ⟨m, isMerged⟩ := below _ _ _ less (Or.inr (by simp)) left right
  refine ⟨m, isMerged, isMerged.named ?_ left (soundSide_some.mp right)
    (mem_of_mem_namedItems member).2 ?_⟩
  · intro tr x y smaller
    exact below tr x y (Nat.lt_trans smaller less)
  · intro w isItem
    rcases indexedValue_eq_some isItem with inEntries | ⟨isNull, -⟩
    · obtain ⟨other, named, same⟩ := mem_of_mem_entriesAt inEntries
      exact Or.inr ⟨other, (mem_of_mem_namedItems named).2, same⟩
    · exact Or.inl isNull

end

private theorem Absorbed.item {t : ListType N} {y : Value N} (absorbed : Absorbed lhs y)
    (member : entry ∈ sideItems sc t lhs) :
    ∃ item ∈ sideItems sc t (some y), (item.1 == entry.1) = true ∧ (entry.2 == item.2) = true := by
  obtain ⟨inItems, named⟩ := mem_of_mem_namedItems member
  cases lhs with
  | none => cases inItems
  | some x =>
      rw [derefList_getD] at inItems
      rcases absorbed x rfl with rfl | same
      · cases inItems
      · have kinds := kind_of_beq same
        cases x with
        | list xs =>
            cases y with
            | list ys =>
                obtain ⟨item, inRight, equal⟩ := exists_of_mem_left (beq_list.mp same) inItems
                obtain ⟨other, isNamed, sameName⟩ := named_of_beq equal named
                exact ⟨(other, item), mem_namedItems inRight isNamed, sameName, equal⟩
            | _ => cases kinds
        | _ => cases inItems

omit [Consistent N] in
private theorem ItemsMerge.ofLeft {left out : List (PathElement N × Value N)}
    (items : ItemsMerge sc tr left [] out)
    (same : ∀ item ∈ left, ∀ m, merged sc tr (some item.2) none = some m → (m == item.2) = true) :
    List.Forall₂ (fun m x => (m == x) = true) (out.map Prod.snd) (left.map Prod.snd) := by
  have pairs := items.leftOnly
  simp only [hasName, List.any_nil, Bool.not_false, List.filter_true] at pairs
  rw [List.forall₂_map_left_iff, List.forall₂_map_right_iff]
  exact forall₂_of_mem pairs fun entry _ item inLeft pair => same item inLeft entry.2 pair.2

omit [Consistent N] in
private theorem ItemsMerge.ofRight {left right out : List (PathElement N × Value N)}
    (items : ItemsMerge sc tr left right out)
    (shared : ∀ item ∈ left, hasName right item.1 = true)
    (same : ∀ item ∈ right, ∀ m, merged sc tr (Merge.indexedValue (entriesAt left item.1))
      (some item.2) = some m → (m == item.2) = true) :
    List.Forall₂ (fun m y => (m == y) = true) (out.map Prod.snd) (right.map Prod.snd) := by
  have noLeft : left.filter (fun item => !hasName right item.1) = [] := by
    simpa [List.filter_eq_nil_iff] using shared
  have onlyShared : out.filter (fun entry => !hasName right entry.1) = [] := by
    have pairs := items.leftOnly
    rw [noLeft] at pairs
    exact List.forall₂_nil_right_iff.mp pairs
  have all : out.filter (fun entry => hasName right entry.1) = out := by
    simpa [List.filter_eq_nil_iff, List.filter_eq_self] using onlyShared
  have pairs := items.fromRight
  rw [all] at pairs
  rw [List.forall₂_map_left_iff, List.forall₂_map_right_iff]
  exact forall₂_of_mem pairs fun entry _ item inRight pair => same item inRight entry.2 pair.2

omit [Numeric N] [Consistent N] in
theorem isList_of_items {v : Value N} (present : v.items ≠ []) :
    ∃ items, v = .list items := by
  cases v with
  | list items => exact ⟨items, rfl⟩
  | _ => exact absurd rfl present

/-- Merging under a list type. -/
theorem doList_merged {t : ListType N}
    (below : MergesBelow sc allowDuplicates (sideDepth lhs + sideDepth rhs))
    (soundLeft : SoundSide sc allowDuplicates tr lhs) (soundRight : SoundSide sc false tr rhs)
    (resolved : resolveSchema sc tr v = .ok (.list t)) (present : lhs ≠ none ∨ rhs ≠ none)
    (held : leafPair (.list t) lhs rhs = false) :
    ∃ m, HeldMerged sc allowDuplicates tr lhs rhs m (.list t) := by
  obtain ⟨granular, notEmpty⟩ : t.elementRelationship ≠ .atomic ∧
      ((derefList lhs).getD [] ≠ [] ∨ (derefList rhs).getD [] ≠ []) := by
    simpa [leafPair, imp_iff_not_or] using held
  obtain ⟨namedLeft, distinctLeft, soundItemsLeft⟩ := soundLeft.items_of_resolved resolved granular
  obtain ⟨namedRight, distinct, soundItemsRight⟩ := soundRight.items_of_resolved resolved granular
  have separate := distinct rfl
  have leftItem := fun entry (member : entry ∈ sideItems sc t lhs) =>
    leftItem_merged below soundLeft soundRight resolved granular member
  have rightItem := fun entry (member : entry ∈ sideItems sc t rhs) =>
    rightItem_merged below soundLeft soundRight resolved granular member
  obtain ⟨out, walk, someOut, items, -⟩ := Merge.visitListItems_merges notEmpty namedLeft namedRight
    separate (fun entry member => (leftItem entry member).imp fun m is => is.walk)
    (fun entry member => (rightItem entry member).imp fun m is => is.1.walk)
  have outItem : ∀ entry ∈ out, Sound sc allowDuplicates ⟨t.elementType, entry.2⟩ ∧
      ∃ other, listItemToPathElement sc t entry.2 = .ok other ∧ (other == entry.1) = true := by
    intro entry member
    cases shared : hasName (sideItems sc t rhs) entry.1 with
    | false =>
        obtain ⟨item, inFilter, sameName, isMerged⟩ := exists_of_mem_left items.leftOnly
          (List.mem_filter.mpr ⟨member, by simp [shared]⟩)
        have inLeft := (List.mem_filter.mp inFilter).1
        obtain ⟨m, is⟩ := leftItem item inLeft
        cases Option.some.inj (is.isMerged.symm.trans isMerged)
        rw [sameName]
        exact ⟨is.sound, named_of_beq (BEq.symm (is.ofLeft _ rfl rfl))
          (mem_of_mem_namedItems inLeft).2⟩
    | true =>
        obtain ⟨item, inRight, sameName, isMerged⟩ := exists_of_mem_left items.fromRight
          (List.mem_filter.mpr ⟨member, shared⟩)
        obtain ⟨m, is, other, named, sameOther⟩ := rightItem item inRight
        cases Option.some.inj (is.isMerged.symm.trans isMerged)
        exact ⟨is.sound, other, named, BEq.trans sameOther (BEq.symm sameName)⟩
  have entries : ∀ pe, entriesAt (namedItems sc t (out.map Prod.snd)) pe =
      mergeAll sc t.elementType (entriesAt (sideItems sc t lhs) pe)
        (entriesAt (sideItems sc t rhs) pe) := by
    intro pe
    rw [entriesAt_of_named (fun entry member => (outItem entry member).2),
      items.entriesAt_eq separate]
  have holds : kidsOf sc (.list t) (.list (out.map Prod.snd)) ≠ [] := by
    simpa [kidsOf, granular, Value.items] using someOut
  refine ⟨.list (out.map Prod.snd), ?_, ?_, holds, ?_, ?_, ?_, ?_⟩
  · have notLeaf : ¬ (decide (t.elementRelationship = .atomic) ||
        (((derefList lhs).getD []).isEmpty && ((derefList rhs).getD []).isEmpty)) = true := by
      simpa [leafPair] using held
    unfold Merge.under Merge.doList
    dsimp only
    rw [if_neg notLeaf]
    exact walk
  · refine ⟨?_, .ofSides soundLeft soundRight present⟩
    rw [valid_iff]
    refine ⟨.list t, resolveSchema_of_kidsOf resolved holds, Or.inr ⟨_, rfl, fun _ => ⟨?_, ?_⟩, ?_⟩⟩
    · intro item member
      obtain ⟨entry, inOut, rfl⟩ := List.mem_map.mp member
      obtain ⟨other, named, -⟩ := (outItem entry inOut).2
      exact ⟨other, named⟩
    · intro noDuplicates
      apply separate_of_entriesAt
      intro pe
      rw [entries]
      exact length_mergeAll _ (entriesAt_length_of_separate (distinctLeft noDuplicates) pe)
    · intro item member
      obtain ⟨entry, inOut, rfl⟩ := List.mem_map.mp member
      exact (outItem entry inOut).1.valid
  · intro pe proper
    rw [kidValuesOf_list granular _ proper, kidValuesOf_list granular _ proper,
      kidValuesOf_list granular _ proper, derefList_getD]
    exact entries pe
  · intro other isOther
    cases isOther
    exact ⟨out, rfl, items, fun entry member => (outItem entry member).2⟩
  · intro x isLeft isRight
    subst isLeft isRight
    have isList : x.items ≠ [] := by
      rw [← derefList_getD]
      exact notEmpty.resolve_right fun present => present rfl
    obtain ⟨xs, rfl⟩ := isList_of_items isList
    have all : (sideItems sc t (some (.list xs))).map Prod.snd = xs := namedItems_map_snd namedLeft
    rw [beq_list, ← all]
    apply items.ofLeft
    intro item inLeft m isMerged
    obtain ⟨other, is⟩ := leftItem item inLeft
    cases Option.some.inj (is.isMerged.symm.trans isMerged)
    exact is.ofLeft _ rfl rfl
  · intro y isRight absorbed
    subst isRight
    have isList : ∃ ys, y = .list ys := by
      rcases notEmpty with left | right
      · cases lhs with
        | none => exact absurd rfl left
        | some x =>
            rw [derefList_getD] at left
            obtain ⟨xs, rfl⟩ := isList_of_items left
            have same := (absorbed _ rfl).resolve_left (by simp)
            have kinds := kind_of_beq same
            cases y <;> first | exact ⟨_, rfl⟩ | cases kinds
      · rw [derefList_getD] at right
        exact isList_of_items right
    obtain ⟨ys, rfl⟩ := isList
    have all : (sideItems sc t (some (.list ys))).map Prod.snd = ys := namedItems_map_snd namedRight
    rw [beq_list, ← all]
    apply items.ofRight
    · intro entry inLeft
      obtain ⟨item, inRight, sameName, -⟩ := absorbed.item inLeft
      exact List.any_eq_true.mpr ⟨item, inRight, sameName⟩
    · intro item inRight m isMerged
      obtain ⟨other, is, -⟩ := rightItem item inRight
      cases Option.some.inj (is.isMerged.symm.trans isMerged)
      refine is.ofRight _ rfl fun w isItem => ?_
      rcases indexedValue_eq_some isItem with inEntries | ⟨isNull, -⟩
      · obtain ⟨name, inLeft, sameLeft⟩ := mem_of_mem_entriesAt inEntries
        obtain ⟨found, inFound, sameFound, equal⟩ := absorbed.item inLeft
        have only := entriesAt_of_mem separate inRight
        have inOnly : found.2 ∈ entriesAt (sideItems sc t (some (.list ys))) item.1 := by
          rw [← entriesAt_congr _ (BEq.trans sameFound sameLeft)]
          exact mem_entriesAt inFound
        rw [only, List.mem_singleton] at inOnly
        exact Or.inr (inOnly ▸ equal)
      · exact Or.inl isNull

/-! ## Any alternative -/

omit [Consistent N] in
theorem under_of_leafPair (leaf : leafPair alternative lhs rhs = true) :
    Merge.under sc alternative lhs rhs = some (Merge.doLeaf lhs rhs) := by
  cases alternative with
  | scalar t =>
      have passes : ¬ (decide ((validateScalar t lhs .lhs).length > 0) &&
          decide ((validateScalar t rhs .rhs).length > 0)) = true := by
        simp only [leafPair, Bool.or_eq_true, List.isEmpty_iff] at leaf
        rcases leaf with left | right
        · simp [left]
        · simp [right]
      simp only [Merge.under, Merge.doScalar, if_neg passes]
  | list t => exact if_pos leaf
  | map t => exact if_pos leaf

omit [Consistent N] in
/-- Nothing is held on either side of a leaf. -/
theorem kidValuesOf_of_leafPair (leaf : leafPair alternative lhs rhs = true) {pe : PathElement N}
    (proper : pe.isProper = true) :
    kidValuesOf sc alternative lhs pe = [] ∧ kidValuesOf sc alternative rhs pe = [] := by
  by_cases isLeaf : alternative.isLeaf = true
  · exact ⟨kidValuesOf_of_isLeaf isLeaf lhs pe, kidValuesOf_of_isLeaf isLeaf rhs pe⟩
  · cases alternative with
    | scalar t => exact absurd rfl isLeaf
    | list t =>
        have granular : t.elementRelationship ≠ .atomic := by
          simpa [Alternative.isLeaf] using isLeaf
        have empty : (derefList lhs).getD [] = [] ∧ (derefList rhs).getD [] = [] := by
          simpa [leafPair, granular] using leaf
        rw [kidValuesOf_list granular _ proper, kidValuesOf_list granular _ proper, empty.1, empty.2]
        exact ⟨rfl, rfl⟩
    | map t =>
        have granular : t.elementRelationship ≠ .atomic := by
          simpa [Alternative.isLeaf] using isLeaf
        have empty : (derefMap lhs).getD [] = [] ∧ (derefMap rhs).getD [] = [] := by
          simpa [leafPair, granular] using leaf
        cases pe with
        | fieldName name =>
            rw [kidValuesOf_map granular, kidValuesOf_map granular, empty.1, empty.2]
            exact ⟨rfl, rfl⟩
        | _ => simp [kidValuesOf_map_of_ne]

theorem under_merged (below : MergesBelow sc allowDuplicates (sideDepth lhs + sideDepth rhs))
    (soundLeft : SoundSide sc allowDuplicates tr lhs) (soundRight : SoundSide sc false tr rhs)
    (operand : lhs = some v ∨ rhs = some v) (resolved : resolveSchema sc tr v = .ok alternative)
    (held : leafPair alternative lhs rhs = false) :
    ∃ m, HeldMerged sc allowDuplicates tr lhs rhs m alternative := by
  have present : lhs ≠ none ∨ rhs ≠ none :=
    operand.imp (fun isLeft => by simp [isLeft]) fun isRight => by simp [isRight]
  obtain ⟨chosen, isChosen, ok⟩ := pairOk_of_sound soundLeft soundRight operand
  cases Except.ok.inj (resolved.symm.trans isChosen)
  cases alternative with
  | scalar t =>
      rcases ok with leaf | none
      · rw [leaf] at held
        cases held
      · exact none.elim
  | list t => exact doList_merged below soundLeft soundRight resolved present held
  | map t => exact doMap_merged below soundLeft soundRight resolved present held

private theorem merged_of_leaf (walk : mergeWalk sc tr lhs rhs = Merge.under sc alternative lhs rhs)
    (soundLeft : SoundSide sc allowDuplicates tr lhs) (soundRight : SoundSide sc false tr rhs)
    (isWinner : rhs.or lhs = some v) (resolved : resolveSchema sc tr v = .ok alternative)
    (leaf : leafPair alternative lhs rhs = true) : Merged sc allowDuplicates tr lhs rhs v := by
  refine ⟨?_, ?_, ?_, ?_, ?_⟩
  · rw [walk, under_of_leafPair leaf, Merge.doLeaf, isWinner]
  · cases rhs with
    | none => exact soundLeft v isWinner
    | some y =>
        cases isWinner
        exact (soundRight v rfl).weaken
  · rintro other ⟨w, isOther, resolvedOther⟩
    cases isWinner.symm.trans isOther
    cases Except.ok.inj (resolved.symm.trans resolvedOther)
    refine ⟨resolved, fun _ => isWinner, fun held => ?_, fun pe proper => ?_, fun t _ held => ?_⟩
    · rw [leaf] at held
      cases held
    · have empty : kidValuesOf sc alternative lhs pe = [] ∧ kidValuesOf sc alternative rhs pe = [] :=
        kidValuesOf_of_leafPair leaf proper
      obtain ⟨left, right⟩ := empty
      have none : kidValuesOf sc alternative (some v) pe = [] := by
        cases rhs with
        | none => exact (show lhs = some v from isWinner) ▸ left
        | some y =>
            cases isWinner
            exact right
      rw [kidValues_of_resolved resolved, none, left, right]
      rfl
    · rw [leaf] at held
      cases held
  · intro x isLeft isRight
    subst isLeft isRight
    cases isWinner
    exact BEq.refl _
  · intro y isRight _
    subst isRight
    cases isWinner
    exact BEq.refl _

omit [Consistent N] in
private theorem merged_of_held {m : Value N}
    (walk : mergeWalk sc tr lhs rhs = Merge.under sc alternative lhs rhs)
    (isWinner : rhs.or lhs = some v) (resolved : resolveSchema sc tr v = .ok alternative)
    (held : leafPair alternative lhs rhs = false)
    (isMerged : HeldMerged sc allowDuplicates tr lhs rhs m alternative) :
    Merged sc allowDuplicates tr lhs rhs m := by
  have own := resolveSchema_of_kidsOf resolved isMerged.holds
  refine ⟨walk.trans isMerged.walk, isMerged.sound, ?_, isMerged.ofLeft, isMerged.ofRight⟩
  rintro other ⟨w, isOther, resolvedOther⟩
  cases isWinner.symm.trans isOther
  cases Except.ok.inj (resolved.symm.trans resolvedOther)
  refine ⟨own, fun leaf => ?_, fun _ => ?_, fun pe proper => ?_, fun t isList _ =>
    isMerged.items t isList⟩
  · rw [leaf] at held
    cases held
  · simpa [kids, own] using isMerged.holds
  · rw [kidValues_of_resolved own, isMerged.kid pe proper]
    by_cases present : ∃ x, x ∈ kidValuesOf sc alternative lhs pe ∨
        x ∈ kidValuesOf sc alternative rhs pe
    · obtain ⟨x, inLeft | inRight⟩ := present
      · rw [(mem_kidValues_of_kidValuesOf resolved proper inLeft).2]
      · rw [(mem_kidValues_of_kidValuesOf resolved proper inRight).2]
    · have noLeft : kidValuesOf sc alternative lhs pe = [] :=
        List.eq_nil_iff_forall_not_mem.mpr fun x inLeft => present ⟨x, Or.inl inLeft⟩
      have noRight : kidValuesOf sc alternative rhs pe = [] :=
        List.eq_nil_iff_forall_not_mem.mpr fun x inRight => present ⟨x, Or.inr inRight⟩
      rw [noLeft, noRight]
      rfl

omit [Numeric N] [Consistent N] in
theorem winner_of_present (present : lhs ≠ none ∨ rhs ≠ none) :
    ∃ w, rhs.or lhs = some w ∧ (lhs = some w ∨ rhs = some w) := by
  cases rhs with
  | some y => exact ⟨y, rfl, Or.inr rfl⟩
  | none =>
      cases lhs with
      | some x => exact ⟨x, rfl, Or.inl rfl⟩
      | none => simp at present

/-- Merging sound values, the right one without duplicates, succeeds. -/
theorem merged_of_sound (soundLeft : SoundSide sc allowDuplicates tr lhs)
    (soundRight : SoundSide sc false tr rhs) (present : lhs ≠ none ∨ rhs ≠ none) :
    ∃ m, Merged sc allowDuplicates tr lhs rhs m := by
  induction bound : sideDepth lhs + sideDepth rhs using Nat.strong_induction_on
    generalizing tr lhs rhs with
  | _ total ih =>
      subst bound
      have below : MergesBelow sc allowDuplicates (sideDepth lhs + sideDepth rhs) :=
        fun tr x y less some left right => ih _ less left right some rfl
      obtain ⟨w, isWinner, operand⟩ := winner_of_present present
      obtain ⟨alternative, resolved, -⟩ := pairOk_of_sound soundLeft soundRight operand
      have governs : Governs sc tr lhs rhs alternative := ⟨w, isWinner, resolved⟩
      have walk := mergeWalk_eq_under governs (fun x left isLeft own => by
        cases leaf : leafPair left lhs rhs with
        | true => exact ⟨_, under_of_leafPair leaf⟩
        | false =>
            obtain ⟨m, isMerged⟩ := under_merged below soundLeft soundRight (Or.inl isLeft) own leaf
            exact ⟨_, isMerged.walk⟩)
        fun x isLeft => ((soundLeft x isLeft).alternative).imp fun _ fits => fits.1
      cases leaf : leafPair alternative lhs rhs with
      | true => exact ⟨w, merged_of_leaf walk soundLeft soundRight isWinner resolved leaf⟩
      | false =>
          obtain ⟨m, isMerged⟩ := under_merged below soundLeft soundRight operand resolved leaf
          exact ⟨m, merged_of_held walk isWinner resolved leaf isMerged⟩

end Under

end StructuredMergeDiff.Typed
