import StructuredMergeDiff.Typed.Removal

/-!
Contract: fields of a partial object that removals from its merge spare.

A set that has no path on the way to a leaf of the partial object, nor the keys of
the items on the way, leaves the leaf where it is.

Owns: that the leaves of a partial object are in the merge, and stay there under
removals that spare what the partial object records.
-/

namespace StructuredMergeDiff.Typed

open Library Std Compare StructuredMergeDiff.FieldSet Value

variable {N : Type} [Numeric N] [Consistent N] {sc : Schema N} {allowDuplicates : Bool}

/-! ## Single nodes -/

section Spines

variable {n mid last : Node N} {first rest path : Path N}

section

omit [Consistent N]

theorem Spine.nodesAt_eq (spine : Spine sc n path last) : nodesAt sc n path = [last] := by
  induction spine with
  | root n => rfl
  | step proper only _ ih => rw [nodesAt_cons_kid proper only, ih]

theorem Spine.append (spine : Spine sc n first mid) (onward : Spine sc mid rest last) :
    Spine sc n (first ++ rest) last := by
  induction spine with
  | root n => exact onward
  | step proper only _ ih => exact .step proper only (ih onward)

theorem Spine.split (spine : Spine sc n (first ++ rest) last) :
    ∃ mid, Spine sc n first mid ∧ Spine sc mid rest last := by
  induction first generalizing n with
  | nil => exact ⟨n, .root n, spine⟩
  | cons pe later ih =>
      cases spine with
      | step proper only onward =>
          obtain ⟨mid, before, after⟩ := ih onward
          exact ⟨mid, .step proper only before, after⟩

end

/-- Without duplicates every node is the only one at its path. -/
theorem spine_of_mem (sound : Sound sc false n) (member : last ∈ nodesAt sc n path) :
    Spine sc n path last := by
  induction path generalizing n with
  | nil =>
      rw [List.mem_singleton.mp member]
      exact .root n
  | cons pe rest ih =>
      obtain ⟨tr, v⟩ := n
      have side := soundSide_some.mpr sound
      have found : Present sc tr (some v) (pe :: rest) := ⟨v, rfl, List.ne_nil_of_mem member⟩
      have proper : pe.isProper = true := by
        by_contra improper
        exact side.not_present_improper (by simpa using improper) found
      obtain ⟨x, isKid, soundKid, -⟩ := side.kidSide proper
      cases x with
      | none =>
          rw [present_cons proper, isKid] at found
          simp at found
      | some x =>
          rw [nodesAt_cons_kid proper isKid] at member
          exact .step proper isKid (ih (soundKid x rfl) member)

theorem Spine.sound (spine : Spine sc n path last) (sound : Sound sc allowDuplicates n)
    (stable : StableKeys sc n.type) :
    Sound sc allowDuplicates last ∧ StableKeys sc last.type := by
  induction spine with
  | root n => exact ⟨sound, stable⟩
  | @step tr v x pe rest last proper only _ ih =>
      have held : kidValues sc tr (some v) pe ≠ [] := by simp [only]
      apply ih
      · exact (soundSide_some.mpr sound).kid proper (by simp [only])
      · exact fun other reached => stable other (reaches_of_kid held proper reached)

end Spines

/-! ## Recorded paths -/

/-- What is recorded of a value, with the declared fields above it. -/
def ensured (sc : Schema N) (n : Node N) : FieldSet N :=
  (FieldSet.ofPaths (toFieldSetWalk sc n.type n.value).paths).ensureNamedFieldsAreMembers sc n.type

theorem ensured_canonical (n : Node N) : (ensured sc n).Canonical :=
  (ensure_canonical (ofPaths_canonical _) sc n.type).1

theorem has_ensured {n : Node N} {path : Path N} (proper : path ≠ []) :
    (ensured sc n).has path = true ↔ Recorded sc n path ∨
      (FieldSet.declared sc n.type path = true ∧
        ∃ rest, rest ≠ [] ∧ Recorded sc n (path ++ rest)) := by
  have recorded : ∀ other, (FieldSet.ofPaths (toFieldSetWalk sc n.type n.value).paths).has other =
      true ↔ other ≠ [] ∧ Recorded sc n other := has_ofPaths_iff _
  rw [ensured, has_ensure (ofPaths_canonical _), FieldSet.HasBeneath]
  simp [recorded, proper]

theorem ensured_inside (n : Node N) : Inside sc n (ensured sc n) := by
  intro path has
  have proper : path ≠ [] := by
    intro isRoot
    rw [isRoot, has_root] at has
    cases has
  rcases (has_ensured proper).mp has with recorded | ⟨-, rest, -, recorded⟩
  · exact nodesAt_of_recorded recorded
  · exact nodesAt_ne_nil_of_append (nodesAt_of_recorded recorded)

omit [Consistent N] in
/-- The only child under a path element. -/
theorem kidsAt_of_only {tr : TypeRef N} {v x : Value N} {pe : PathElement N}
    (proper : pe.isProper = true) (only : kidValues sc tr (some v) pe = [x]) :
    ∃ k, kidsAt sc ⟨tr, v⟩ pe = [k] ∧ k.node = ⟨kidType sc tr pe, x⟩ := by
  match found : kidsAt sc ⟨tr, v⟩ pe with
  | [] => simp [kidValues, found] at only
  | [k] =>
      have member : k ∈ kidsAt sc ⟨tr, v⟩ pe := by simp [found]
      have value : k.value = x := by simpa [kidValues, found] using only
      exact ⟨k, rfl, by rw [Kid.node, kidType_of_mem member proper, value]⟩
  | _ :: _ :: _ => simp [kidValues, found] at only

/-- A single scalar, or value that is handled as a whole, is recorded. -/
theorem Spine.recorded {n last : Node N} {path : Path N} (spine : Spine sc n path last)
    (leaf : holdsItself sc last = true) : Recorded sc n path := by
  induction spine with
  | root n => exact (recorded_root n).mpr leaf
  | step proper only _ ih =>
      obtain ⟨k, found, isNode⟩ := kidsAt_of_only proper only
      rw [recorded_cons, found]
      exact Or.inl (isNode ▸ ih leaf)

/-- So are the items and undeclared entries above it; the fields above it are declared. -/
theorem Spine.recorded_or_declared {n mid last : Node N} {first rest : Path N}
    (spine : Spine sc n first mid) (onward : Spine sc mid rest last) (proper : first ≠ []) :
    Recorded sc n first ∨ FieldSet.declared sc n.type first = true := by
  induction spine with
  | root n => exact absurd rfl proper
  | @step tr v x pe later mid properPe only after ih =>
      obtain ⟨k, found, isNode⟩ := kidsAt_of_only properPe only
      have member : k ∈ kidsAt sc ⟨tr, v⟩ pe := by simp [found]
      obtain ⟨inKids, same⟩ := mem_kidsAt.mp member
      by_cases last : later = []
      · subst last
        cases named : k.named with
        | true =>
            left
            rw [recorded_cons, found]
            exact Or.inr ⟨rfl, by simp [Kid.alwaysRecorded, named]⟩
        | false =>
            right
            show FieldSet.isDeclared (FieldSet.atomAt sc tr) pe = true
            rw [← isDeclared_congr _ same, isDeclared_kid inKids, named]
            rfl
      · rcases ih onward last with recorded | declared
        · left
          rw [recorded_cons, found]
          exact Or.inl (isNode ▸ recorded)
        · right
          have notEmpty : kids sc k.node ≠ [] := by
            intro none
            have through := (after.append onward).nodesAt_eq
            rw [← isNode] at through
            obtain ⟨next, others, rfl⟩ := List.exists_cons_of_ne_nil last
            simp [nodesAt, kidsAt, none] at through
          have properKid : k.pe.isProper = true := by rwa [isProper_congr same]
          have type : kidType sc tr pe = FieldSet.childType (FieldSet.atomAt sc tr) pe := by
            rw [← childType_congr _ same, ← kidType_of_mem member properPe]
            exact (childType_kid inKids properKid).resolve_right notEmpty
          rw [declared_cons _ _ _ last, ← type]
          exact declared

/-- A path to a single scalar or value that is handled as a whole. -/
structure LeafPath (sc : Schema N) (n : Node N) (path : Path N) (last : Node N) : Prop where
  proper : path ≠ []
  spine : Spine sc n path last
  leaf : holdsItself sc last = true

/-- All that is above a leaf is recorded or declared. -/
theorem LeafPath.ensured_way {n last : Node N} {path first rest : Path N}
    (leafPath : LeafPath sc n path last) (isPath : path = first ++ rest) (proper : first ≠ []) :
    (ensured sc n).has first = true := by
  subst isPath
  have recorded := leafPath.spine.recorded leafPath.leaf
  rw [has_ensured proper]
  by_cases isLast : rest = []
  · rw [isLast, List.append_nil] at recorded
    exact Or.inl recorded
  · obtain ⟨mid, before, after⟩ := leafPath.spine.split
    exact (before.recorded_or_declared after proper).imp id fun declared =>
      ⟨declared, rest, isLast, recorded⟩

/-! ## Keys on the way to a leaf -/

omit [Consistent N] in
theorem Spine.not_whole {n last : Node N} {path : Path N} (spine : Spine sc n path last)
    (below : path ≠ []) : holdsItself sc n = false := by
  rw [Bool.eq_false_iff]
  intro leaf
  have through := spine.nodesAt_eq
  obtain ⟨next, others, rfl⟩ := List.exists_cons_of_ne_nil below
  simp [nodesAt, kidsAt, kids_of_holdsItself leaf] at through

/-- The keys of an item that is not handled as a whole are leaves. -/
theorem PlainKeys.leaf_key {t : ListType N} {item : Value N} {fields : FieldList N}
    (plain : PlainKeys sc t) (sound : Sound sc allowDuplicates ⟨t.elementType, item⟩)
    (named : ∃ pe, listItemToPathElement sc t item = .ok pe)
    (same : ((listKid sc t item).pe == .key fields) = true) {field : Field N}
    (member : field ∈ fields.fields) (notWhole : holdsItself sc ⟨t.elementType, item⟩ = false) :
    ∃ key, Spine sc ⟨t.elementType, item⟩ [.fieldName field.name] key ∧
      holdsItself sc key = true := by
  obtain ⟨own, isNamed⟩ := named
  have associative := associative_of_named isNamed
  have isOwn : (own == .key fields) = true := by
    have isName : (listKid sc t item).pe = own := by
      show itemPathElement sc t item = own
      rw [itemPathElement, isNamed]
    rwa [isName] at same
  have keyed : t.keys ≠ [] := by
    intro noKeys
    rw [((set_named_iff associative noKeys).mp isNamed).2] at isOwn
    cases isOwn
  obtain ⟨-, hasKeys, -⟩ := (keyed_named_iff associative keyed).mp isNamed
  obtain ⟨m, resolved⟩ := resolveSchema_of_keyed sound keyed isNamed
  have isKey : field.name ∈ t.keys := key_of_named isNamed isOwn member
  obtain ⟨w, found⟩ := hasKeys field.name isKey
  have explicit := plain.explicit isKey found
  have granular : m.elementRelationship ≠ .atomic := by
    intro atomic
    simp [holdsItself, resolved, Alternative.isLeaf, atomic] at notWhole
  have type := kidType_map resolved field.name
  refine ⟨⟨kidType sc t.elementType (.fieldName field.name), w⟩, .step rfl ?_ (.root _), ?_⟩
  · rw [kidValues_map resolved granular, explicit]
    rfl
  · have soundKey : Sound sc allowDuplicates ⟨m.fieldType field.name, w⟩ :=
      (sound.entries_known resolved (field.name, w) (get?_eq_some_iff.mp explicit)).2
    obtain ⟨alternative, resolvedKey, -⟩ := soundKey.alternative
    have noContainer := (plain field.name isKey).2 m (resolveSchema_map resolved)
    rw [type]
    cases alternative with
    | scalar s => simp [holdsItself, resolvedKey, Alternative.isLeaf]
    | list l => rw [resolveSchema_list resolvedKey] at noContainer; cases noContainer.1
    | map l => rw [resolveSchema_map resolvedKey] at noContainer; cases noContainer.2

omit [Consistent N] in
/-- The first step into a list goes to one of its items. -/
theorem Spine.item {n last : Node N} {pe : PathElement N} {rest : Path N}
    (spine : Spine sc n (pe :: rest) last) (notField : ∀ name, pe ≠ .fieldName name) :
    ∃ t item, resolveSchema sc n.type n.value = .ok (.list t) ∧ t.elementRelationship ≠ .atomic ∧
      item ∈ n.value.items ∧ ((listKid sc t item).pe == pe) = true ∧
      Spine sc ⟨t.elementType, item⟩ rest last ∧
      ∀ {below : Path N} {other : Node N}, Spine sc ⟨t.elementType, item⟩ below other →
        Spine sc n (pe :: below) other := by
  cases spine with
  | @step tr v x _ _ _ proper only onward =>
      obtain ⟨k, found, isNode⟩ := kidsAt_of_only proper only
      have inKidsAt : k ∈ kidsAt sc ⟨tr, v⟩ pe := by simp [found]
      obtain ⟨inKids, same⟩ := mem_kidsAt.mp inKidsAt
      rcases mem_kids inKids with ⟨t, item, resolved, granular, inItems, rfl⟩ |
        ⟨t, entry, _, _, _, rfl⟩
      · have isNode : (⟨t.elementType, item⟩ : Node N) = ⟨kidType sc tr pe, x⟩ := isNode
        refine ⟨t, item, resolved, granular, inItems, same, isNode ▸ onward, fun further => ?_⟩
        exact .step proper only (isNode ▸ further)
      · exact absurd (beq_fieldName.mp same) (notField entry.1)

/-- The keys of an item on the way to a leaf are leaves too, unless the item is the
leaf. -/
theorem LeafPath.key {n last : Node N} {first rest : Path N} {fields : FieldList N}
    (sound : Sound sc allowDuplicates n) (stable : StableKeys sc n.type)
    (leafPath : LeafPath sc n (first ++ .key fields :: rest) last) {field : Field N}
    (member : field ∈ fields.fields) :
    rest = [] ∨ ∃ key, LeafPath sc n (first ++ [.key fields, .fieldName field.name]) key := by
  obtain ⟨mid, before, after⟩ := leafPath.spine.split
  obtain ⟨soundMid, stableMid⟩ := before.sound sound stable
  obtain ⟨t, item, resolved, granular, inItems, same, onward, extend⟩ := after.item (by simp)
  by_cases isLast : rest = []
  · exact Or.inl isLast
  · right
    obtain ⟨named, -, soundItems⟩ := soundMid.items_named resolved granular
    have plain := stableMid mid.type (.refl mid.type) t (resolveSchema_list resolved)
    obtain ⟨key, onKey, isLeaf⟩ := plain.leaf_key (soundItems item inItems) (named item inItems)
      same member (onward.not_whole isLast)
    exact ⟨key, by simp, before.append (extend onKey), isLeaf⟩

omit [Consistent N] in
private theorem key_field_of_named {t : ListType N} {item : Value N} {own pe : PathElement N}
    (isNamed : listItemToPathElement sc t item = .ok own) (keyed : t.keys ≠ [])
    (same : ((listKid sc t item).pe == pe) = true) :
    ∃ fields : FieldList N, pe = .key fields ∧ ∃ field, field ∈ fields.fields := by
  have isName : (listKid sc t item).pe = keyName sc t item := by
    show itemPathElement sc t item = keyName sc t item
    rw [itemPathElement, isNamed]
    exact ((keyed_named_iff (associative_of_named isNamed) keyed).mp isNamed).2.2
  rw [isName] at same
  cases pe with
  | key fields =>
      refine ⟨fields, rfl, List.exists_mem_of_ne_nil _ fun empty => keyed ?_⟩
      change FieldList.equals _ _ = true at same
      simp only [FieldList.equals, empty, Bool.and_eq_true, beq_iff_eq] at same
      simpa using same.1
  | _ => cases same

/-- A list item is a leaf, or has a key that is one. -/
theorem Spine.item_leaf {n mid : Node N} {first : Path N} {pe : PathElement N}
    (sound : Sound sc allowDuplicates n) (stable : StableKeys sc n.type)
    (spine : Spine sc n (first ++ [pe]) mid) (notField : ∀ name, pe ≠ .fieldName name) :
    LeafPath sc n (first ++ [pe]) mid ∨ ∃ fields, pe = .key fields ∧ ∃ field ∈ fields.fields, ∃ key,
      LeafPath sc n (first ++ [.key fields, .fieldName field.name]) key := by
  by_cases whole : holdsItself sc mid = true
  · exact Or.inl ⟨by simp, spine, whole⟩
  · right
    obtain ⟨list, before, after⟩ := spine.split
    obtain ⟨soundList, stableList⟩ := before.sound sound stable
    obtain ⟨t, item, resolved, granular, inItems, same, onward, extend⟩ := after.item notField
    cases onward
    obtain ⟨named, -, soundItems⟩ := soundList.items_named resolved granular
    have plain := stableList list.type (.refl list.type) t (resolveSchema_list resolved)
    obtain ⟨own, isNamed⟩ := named item inItems
    have keyed : t.keys ≠ [] := by
      intro noKeys
      obtain ⟨s, isScalar⟩ := resolveSchema_of_set (soundItems item inItems) noKeys isNamed
      simp [holdsItself, isScalar, Alternative.isLeaf] at whole
    obtain ⟨fields, rfl, field, member⟩ := key_field_of_named isNamed keyed same
    obtain ⟨key, onKey, isLeaf⟩ := plain.leaf_key (soundItems item inItems) (named item inItems)
      same member (Bool.eq_false_iff.mpr whole)
    exact ⟨fields, rfl, field, member, key, by simp, before.append (extend onKey), isLeaf⟩

/-! ## Leaves under removal -/

/-- The value has all leaves of the partial object. -/
def Realises (sc : Schema N) (tr : TypeRef N) (c w : Value N) : Prop :=
  ∀ path last, LeafPath sc ⟨tr, c⟩ path last → Spine sc ⟨tr, w⟩ path last

/-- The set has nothing on the way to the leaves of the partial object. -/
def Avoids (sc : Schema N) (tr : TypeRef N) (c : Value N) (set : FieldSet N) : Prop :=
  ∀ path last, LeafPath sc ⟨tr, c⟩ path last → ∀ first rest, path = first ++ rest → first ≠ [] →
    set.has first = false

section Removal

variable {tr : TypeRef N} {c m : Value N} {set : FieldSet N} {partialDuplicates duplicates : Bool}

/-- A leaf stays if the set has neither a path on the way to it nor a key of an item that
the way leads through. -/
theorem LeafPath.left {path : Path N} {last : Node N} (leafPath : LeafPath sc ⟨tr, m⟩ path last)
    (sound : Sound sc duplicates ⟨tr, m⟩) (stable : StableKeys sc tr) (canonical : set.Canonical)
    (inside : Inside sc ⟨tr, m⟩ set)
    (way : ∀ first rest, path = first ++ rest → first ≠ [] → set.has first = false)
    (keys : ∀ first fields rest, path = first ++ .key fields :: rest → rest ≠ [] →
      ∀ field ∈ fields.fields, set.has (first ++ [.key fields, .fieldName field.name]) = false) :
    LeafPath sc ⟨tr, remove sc tr m set⟩ path last := by
  have beneath : ∀ rest, rest ≠ [] → set.has (path ++ rest) = false := by
    intro rest below
    rw [Bool.eq_false_iff]
    intro has
    have found := inside _ has
    rw [nodesAt_append, leafPath.spine.nodesAt_eq] at found
    obtain ⟨next, others, rfl⟩ := List.exists_cons_of_ne_nil below
    simp [nodesAt, kidsAt, kids_of_holdsItself leafPath.leaf] at found
  have spares : Spares set path := by
    refine ⟨way, fun first fields rest isPath field member => ?_⟩
    by_cases isLast : rest = []
    · subst isPath isLast
      have notBeneath := beneath [.fieldName field.name] (by simp)
      rwa [List.append_assoc] at notBeneath
    · exact keys first fields rest isPath isLast field member
  exact ⟨leafPath.proper,
    (leafPath.spine.left sound stable canonical inside spares beneath).2 leafPath.proper,
    leafPath.leaf⟩

/-- All that is above the leaves is recorded of a value that has them. -/
theorem Realises.ensured_way (realises : Realises sc tr c m) {path first rest : Path N}
    {last : Node N} (leafPath : LeafPath sc ⟨tr, c⟩ path last) (isPath : path = first ++ rest)
    (proper : first ≠ []) : (ensured sc ⟨tr, m⟩).has first = true :=
  LeafPath.ensured_way ⟨leafPath.proper, realises path last leafPath, leafPath.leaf⟩ isPath proper

/-- Removing items that avoid the partial object leaves its leaves. -/
theorem Realises.remove (realises : Realises sc tr c m)
    (soundPartial : Sound sc partialDuplicates ⟨tr, c⟩) (stable : StableKeys sc tr)
    (sound : Sound sc duplicates ⟨tr, m⟩) (canonical : set.Canonical)
    (inside : Inside sc ⟨tr, m⟩ set) (avoids : Avoids sc tr c set) :
    Realises sc tr c (remove sc tr m set) := by
  intro path last leafPath
  have own : LeafPath sc ⟨tr, m⟩ path last :=
    ⟨leafPath.proper, realises path last leafPath, leafPath.leaf⟩
  refine (own.left sound stable canonical inside (avoids path last leafPath)
    fun first fields rest isPath through field member => ?_).spine
  subst isPath
  obtain ⟨key, keyPath⟩ := (leafPath.key soundPartial stable member).resolve_left through
  exact avoids _ key keyPath _ [] (List.append_nil _).symm (by simp)

end Removal

/-! ## Leaves under merging -/

/-- A merge has the leaves of the right side. -/
theorem Merged.realises {duplicates : Bool} {tr : TypeRef N} {x : Option (Value N)} {c m : Value N}
    (isMerged : Merged sc duplicates tr x (some c) m) (soundLeft : SoundSide sc duplicates tr x)
    (sound : Sound sc false ⟨tr, c⟩) : Realises sc tr c m := by
  intro path last leafPath
  obtain ⟨-, spine, leaf⟩ := leafPath
  induction path generalizing tr x c m with
  | nil =>
      cases spine
      rw [isMerged.of_holdsItself sound leaf]
      exact .root _
  | cons pe rest ih =>
      cases spine with
      | @step _ _ y _ _ _ proper only onward =>
          obtain ⟨g, resolved, -⟩ := sound.alternative
          have level := isMerged.level g ⟨c, rfl, resolved⟩
          have right : kidValuesOf sc g (some c) pe = [y] := by
            rw [← only, kidValues_of_resolved resolved]
          have type : kidTypeOf g pe = kidType sc tr pe :=
            kidTypeOf_eq resolved proper (by simp [only])
          obtain ⟨soundX, soundY, -⟩ := soundSides_of_kids
            (y := some y) soundLeft (soundSide_some.mpr sound) resolved pe proper
            (Or.inr (by simp)) (fun w => indexedValue_eq_some) (fun w isRight => by
              cases isRight
              simp [right])
          rw [type] at soundX soundY
          obtain ⟨value, kidMerged⟩ := merged_of_sound soundX soundY (Or.inr (by simp))
          have kid := level.kid pe proper
          rw [right, mergeAll, kidMerged.isMerged] at kid
          exact .step proper kid
            (ih kidMerged soundX (soundSide_some.mp soundY) onward)

/-! ## Equal values -/

section Equal

variable {tr : TypeRef N} {v w : Value N}

omit [Consistent N] in
theorem items_of_beq (same : (v == w) = true) :
    List.Forall₂ (fun x y => (x == y) = true) v.items w.items := by
  have kinds := kind_of_beq same
  cases v <;> cases w <;> first | exact beq_list.mp same | exact .nil | cases kinds

/-- Of two equal items both have the name or neither. -/
theorem itemNamed_of_beq (t : ListType N) (pe : PathElement N) (same : (v == w) = true) :
    Value.SameOption (itemNamed sc t pe v) (itemNamed sc t pe w) := by
  unfold itemNamed
  cases named : listItemToPathElement sc t v with
  | error err =>
      cases other : listItemToPathElement sc t w with
      | error err => exact Option.Rel.none
      | ok name =>
          obtain ⟨_, isNamed, -⟩ := named_of_beq (BEq.symm same) other
          rw [named] at isNamed
          cases isNamed
  | ok name =>
      obtain ⟨other, isNamed, sameName⟩ := named_of_beq same named
      rw [isNamed]
      show Value.SameOption (if name == pe then some v else none) (if other == pe then some w else none)
      have agree : (other == pe) = (name == pe) := BEq.congr_left sameName
      rw [agree]
      split
      · exact Option.Rel.some same
      · exact Option.Rel.none

theorem kidValues_of_beq (same : (v == w) = true) {pe : PathElement N}
    (proper : pe.isProper = true) :
    List.Forall₂ (fun x y => (x == y) = true) (kidValues sc tr (some v) pe)
      (kidValues sc tr (some w) pe) := by
  have resolves := resolveSchema_congr sc tr (kind_of_beq same)
  cases resolved : resolveSchema sc tr v with
  | error message =>
      rw [kidValues_of_error resolved, kidValues_of_error (resolves ▸ resolved)]
      exact .nil
  | ok alternative =>
      have other : resolveSchema sc tr w = .ok alternative := resolves ▸ resolved
      by_cases leaf : alternative.isLeaf = true
      · rw [kidValues_of_resolved resolved, kidValues_of_resolved other,
          kidValuesOf_of_isLeaf leaf, kidValuesOf_of_isLeaf leaf]
        exact .nil
      · cases alternative with
        | scalar t => exact absurd rfl leaf
        | list t =>
            have granular : t.elementRelationship ≠ .atomic := by
              simpa [Alternative.isLeaf] using leaf
            rw [kidValues_items granular resolved proper, kidValues_items granular other proper,
              entriesAt_namedItems, entriesAt_namedItems]
            exact List.rel_filterMap (fun _ _ sameItem => itemNamed_of_beq t pe sameItem)
              (items_of_beq same)
        | map t =>
            have granular : t.elementRelationship ≠ .atomic := by
              simpa [Alternative.isLeaf] using leaf
            by_cases isField : ∃ name, pe = .fieldName name
            · obtain ⟨name, rfl⟩ := isField
              rw [kidValues_map resolved granular, kidValues_map other granular]
              generalize v.get? name = x, w.get? name = y, get?_of_beq same name = entries
              cases entries with
              | none => exact .nil
              | some sameEntry => exact .cons sameEntry .nil
            · rw [kidValues_of_resolved resolved, kidValues_of_resolved other,
                kidValuesOf_map_of_ne _ (not_exists.mp isField),
                kidValuesOf_map_of_ne _ (not_exists.mp isField)]
              exact .nil

/-- Equal values have equal values at the end of a path. -/
theorem Spine.of_beq {path : Path N} {last : Node N} (spine : Spine sc ⟨tr, v⟩ path last)
    (same : (v == w) = true) :
    ∃ value, Spine sc ⟨tr, w⟩ path ⟨last.type, value⟩ ∧ (last.value == value) = true := by
  induction path generalizing tr v w with
  | nil =>
      cases spine
      exact ⟨w, .root _, same⟩
  | cons pe rest ih =>
      cases spine with
      | @step _ _ x _ _ _ proper only onward =>
          have pairs : List.Forall₂ (fun x y => (x == y) = true) (kidValues sc tr (some v) pe)
              (kidValues sc tr (some w) pe) := kidValues_of_beq same proper
          rw [only] at pairs
          obtain ⟨y, others, sameKid, noMore, isKid⟩ := List.forall₂_cons_left_iff.mp pairs
          rw [List.forall₂_nil_left_iff.mp noMore] at isKid
          obtain ⟨value, found, sameValue⟩ := ih onward sameKid
          exact ⟨value, .step proper isKid found, sameValue⟩

end Equal

end StructuredMergeDiff.Typed
