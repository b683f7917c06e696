import StructuredMergeDiff.Typed.MergeSafety
import StructuredMergeDiff.Typed.Protected

/-!
Contract: what removal takes away, path by path.

A node of what is left comes from the node that the value has under the same names,
unless a set on the way names it, or a key of an item on the way: an item without its
keys has no name.

Owns: that paths which are still found after a removal are spared by it; and that what
is left of a value has a field set.
-/

namespace StructuredMergeDiff.Typed

open Library Std Compare Value

variable {N : Type} [Numeric N] [Consistent N] {sc : Schema N}

/-! ## Kinds -/

section Kinds

variable {tr : TypeRef N} {v : Value N} {set : FieldSet N}

omit [Consistent N] in
/-- Removal leaves nothing, or a value of the same kind. -/
theorem kind_remove : remove sc tr v set = .null ∨ kind (remove sc tr v set) = kind v := by
  rw [remove, removeItemsWithSchema_eq]
  unfold Remove.body
  split
  · exact Or.inl rfl
  · exact Or.inr rfl
  · cases v with
    | list items =>
        unfold Remove.doList
        dsimp only
        split_ifs <;> first | exact Or.inl rfl | exact Or.inr rfl
    | _ => exact Or.inl rfl
  · cases v with
    | map bindings =>
        unfold Remove.doMap
        dsimp only
        split_ifs <;> first | exact Or.inl rfl | exact Or.inr rfl
    | _ => exact Or.inl rfl

omit [Consistent N] in
/-- What is left is of the same alternative as the value, if it has children. -/
theorem resolveSchema_remove (held : kids sc ⟨tr, remove sc tr v set⟩ ≠ []) :
    resolveSchema sc tr (remove sc tr v set) = resolveSchema sc tr v := by
  have cases : remove sc tr v set = .null ∨ kind (remove sc tr v set) = kind v := kind_remove
  rcases cases with isNull | same
  · rw [isNull, kids_null] at held
    exact absurd rfl held
  · exact resolveSchema_congr sc tr same

end Kinds

/-! ## Children -/

/-- An item that has a name after a removal has kept its keys. -/
theorem keys_spared {allowDuplicates : Bool} {t : ListType N} {v : Value N} {set : FieldSet N}
    {pe other : PathElement N} (plain : PlainKeys sc t)
    (sound : Sound sc allowDuplicates ⟨t.elementType, v⟩)
    (named : listItemToPathElement sc t v = .ok pe)
    (renamed : listItemToPathElement sc t (remove sc t.elementType v set) = .ok other)
    {name : String} (isKey : name ∈ t.keys) : set.has [.fieldName name] = false := by
  have associative := associative_of_named named
  have keyed : t.keys ≠ [] := List.ne_nil_of_mem isKey
  obtain ⟨m, resolved⟩ := resolveSchema_of_keyed sound keyed named
  obtain ⟨-, hasKeys, -⟩ := (keyed_named_iff associative keyed).mp named
  obtain ⟨⟨bindings, isMap⟩, hasKeysAfter, -⟩ := (keyed_named_iff associative keyed).mp renamed
  have granular : m.elementRelationship ≠ .atomic := by
    intro atomic
    rw [remove_atomic resolved atomic] at isMap
    cases isMap
  obtain ⟨w, found⟩ := hasKeys name isKey
  obtain ⟨w', foundAfter⟩ := hasKeysAfter name isKey
  have after := plain.explicit isKey foundAfter
  rw [plain.get?_remove sound resolved granular isKey (plain.explicit isKey found)] at after
  rw [Bool.eq_false_iff]
  intro has
  rw [if_pos has] at after
  cases after

section Level

variable {tr : TypeRef N} {v y : Value N} {set : FieldSet N} {pe : PathElement N}
  {allowDuplicates : Bool}

/-- A child of what is left is what is left of a child. -/
structure LeftOf (sc : Schema N) (tr : TypeRef N) (v : Value N) (set : FieldSet N)
    (pe : PathElement N) (y : Value N) : Prop where
  spared : set.has [pe] = false
  origin : ∃ x ∈ kidValues sc tr (some v) pe, y = left sc (kidType sc tr pe) x (set.withPrefix pe)
  keys : ∀ fields, pe = .key fields → ∀ field ∈ fields.fields,
    (set.withPrefix pe).has [.fieldName field.name] = false

omit [Consistent N] in
private theorem leftOf_map {t : MapType N} (resolved : resolveSchema sc tr v = .ok (.map t))
    (granular : t.elementRelationship ≠ .atomic) {name : String}
    (found : (remove sc tr v set).get? name = some y) :
    LeftOf sc tr v set (.fieldName name) y := by
  rw [get?_remove resolved granular] at found
  obtain ⟨x, isX, isLeft⟩ := Option.bind_eq_some_iff.mp found
  have spared : set.has [.fieldName name] = false := by
    rw [Bool.eq_false_iff]
    intro has
    rw [leaving, if_pos has] at isLeft
    cases isLeft
  have type := kidType_map resolved name
  rw [leaving_of_spared spared] at isLeft
  refine ⟨spared, ⟨x, ?_, ?_⟩, fun fields isKey => by cases isKey⟩
  · rw [kidValues_map resolved granular, isX]
    simp
  · rw [type]
    exact (Option.some.inj isLeft).symm

omit [Consistent N] in
private theorem origin_of_item {t : ListType N} (resolved : resolveSchema sc tr v = .ok (.list t))
    (granular : t.elementRelationship ≠ .atomic) (inItems : y ∈ (remove sc tr v set).items) :
    ∃ item ∈ v.items,
      leaving sc set t.elementType (itemPathElement sc t item) item = some y := by
  rw [remove_list resolved granular] at inItems
  split at inItems
  · cases inItems
  · exact List.mem_filterMap.mp inItems

private theorem leftOf_list {t : ListType N} (sound : Sound sc allowDuplicates ⟨tr, v⟩)
    (plain : PlainKeys sc t) (canonical : set.Canonical)
    (resolved : resolveSchema sc tr v = .ok (.list t)) (granular : t.elementRelationship ≠ .atomic)
    (proper : pe.isProper = true) (inItems : y ∈ (remove sc tr v set).items)
    (isName : (itemPathElement sc t y == pe) = true) : LeftOf sc tr v set pe y := by
  obtain ⟨named, -, soundItems⟩ := sound.items_named resolved granular
  obtain ⟨item, member, isLeft⟩ := origin_of_item resolved granular inItems
  obtain ⟨own, isNamed⟩ := named item member
  have isOwn : itemPathElement sc t item = own := by rw [itemPathElement, isNamed]
  rw [isOwn] at isLeft
  have spared : set.has [own] = false := by
    rw [Bool.eq_false_iff]
    intro has
    rw [leaving, if_pos has] at isLeft
    cases isLeft
  rw [leaving_of_spared spared] at isLeft
  have isY : y = left sc t.elementType item (set.withPrefix own) := (Option.some.inj isLeft).symm
  obtain ⟨other, isOther⟩ : ∃ other, listItemToPathElement sc t y = .ok other := by
    cases nameless : listItemToPathElement sc t y with
    | ok other => exact ⟨other, rfl⟩
    | error err =>
        rw [itemPathElement, nameless, unset_beq_of_proper proper] at isName
        cases isName
  have keepsKeys : other = own ∧ ∀ name ∈ t.keys,
      (set.withPrefix own).has [.fieldName name] = false := by
    rw [isY, left] at isOther
    split at isOther
    · next empty =>
        exact ⟨Except.ok.inj (isOther.symm.trans isNamed),
          fun name _ => FieldSet.has_of_isEmpty empty _⟩
    · exact ⟨name_of_remove plain (soundItems item member) isNamed _ isOther,
        fun name => keys_spared plain (soundItems item member) isNamed isOther⟩
  have sameName : (own == pe) = true := by
    rw [itemPathElement, isOther, keepsKeys.1] at isName
    exact isName
  have inKids : item ∈ kidValues sc tr (some v) pe := by
    rw [kidValues_items granular resolved proper, entriesAt_namedItems]
    exact List.mem_filterMap.mpr ⟨item, member, by simp [itemNamed, isNamed, sameName]⟩
  have type : t.elementType = kidType sc tr pe :=
    kidTypeOf_eq resolved proper (List.ne_nil_of_mem inKids)
  refine ⟨?_, ⟨item, inKids, ?_⟩, fun fields isKey field inFields => ?_⟩
  · rw [← has_single_congr canonical sameName]
    exact spared
  · rw [isY, FieldSet.withPrefix_congr canonical sameName, type]
  · rw [← FieldSet.withPrefix_congr canonical sameName]
    apply keepsKeys.2
    rw [isKey] at sameName
    exact key_of_named isNamed sameName inFields

theorem leftOf_of_mem (sound : Sound sc allowDuplicates ⟨tr, v⟩) (stable : StableKeys sc tr)
    (canonical : set.Canonical) (proper : pe.isProper = true)
    (member : y ∈ kidValues sc tr (some (remove sc tr v set)) pe) : LeftOf sc tr v set pe y := by
  obtain ⟨k, inKidsAt, rfl⟩ := List.mem_map.mp member
  obtain ⟨inKids, same⟩ := mem_kidsAt.mp inKidsAt
  have own := resolveSchema_remove (List.ne_nil_of_mem inKids)
  rcases mem_kids inKids with ⟨t, item, resolved, granular, inItems, rfl⟩ |
    ⟨t, entry, resolved, granular, inEntries, rfl⟩
  · have resolvedValue : resolveSchema sc tr v = .ok (.list t) := own ▸ resolved
    exact leftOf_list sound (stable tr (.refl tr) t (resolveSchema_list resolvedValue)) canonical
      resolvedValue granular proper inItems same
  · have resolvedValue : resolveSchema sc tr v = .ok (.map t) := own ▸ resolved
    have isName : pe = .fieldName entry.1 := beq_fieldName.mp same
    rw [isName]
    exact leftOf_map resolvedValue granular (get?_eq_some_iff.mpr inEntries)

omit [Consistent N] in
private theorem Spares.cons {rest : Path N} (spared : set.has [pe] = false)
    (keys : ∀ fields, pe = .key fields → ∀ field ∈ fields.fields,
      (set.withPrefix pe).has [.fieldName field.name] = false)
    (below : Spares (set.withPrefix pe) rest) : Spares set (pe :: rest) where
  way first later isPath proper := by
    cases first with
    | nil => exact absurd rfl proper
    | cons head tail =>
        obtain ⟨rfl, isRest⟩ := List.cons.inj isPath
        cases tail with
        | nil => exact spared
        | cons next others =>
            rw [FieldSet.has_cons _ _ (by simp)]
            exact below.way _ later isRest (by simp)
  keys first fields later isPath field member := by
    cases first with
    | nil =>
        obtain ⟨rfl, -⟩ := List.cons.inj isPath
        rw [List.nil_append, FieldSet.has_cons _ _ (by simp)]
        exact keys fields rfl field member
    | cons head tail =>
        obtain ⟨rfl, isRest⟩ := List.cons.inj isPath
        rw [List.cons_append, FieldSet.has_cons _ _ (by simp)]
        exact below.keys tail fields later isRest field member

/-- A path that is found after a removal is spared by it. -/
theorem spares_of_found {path : Path N} {last : Node N} (spine : Spine sc ⟨tr, v⟩ path last)
    (sound : Sound sc allowDuplicates ⟨tr, v⟩) (stable : StableKeys sc tr)
    (canonical : set.Canonical) (found : nodesAt sc ⟨tr, remove sc tr v set⟩ path ≠ []) :
    Spares set path := by
  induction path generalizing tr v set with
  | nil => exact ⟨by simp, by simp⟩
  | cons pe rest ih =>
      cases spine with
      | @step _ _ x _ _ _ proper only onward =>
          obtain ⟨node, inNodes⟩ := List.exists_mem_of_ne_nil _ found
          obtain ⟨k, inKidsAt, within⟩ := List.mem_flatMap.mp inNodes
          have isLeft := leftOf_of_mem sound stable canonical proper
            (List.mem_map.mpr ⟨k, inKidsAt, rfl⟩)
          obtain ⟨origin, inKids, isValue⟩ := isLeft.origin
          rw [only, List.mem_singleton] at inKids
          subst inKids
          have type : k.type = kidType sc tr pe := kidType_of_mem inKidsAt proper
          have below : Spares (set.withPrefix pe) rest := by
            cases empty : (set.withPrefix pe).isEmpty with
            | true =>
                exact ⟨fun first _ _ _ => FieldSet.has_of_isEmpty empty first,
                  fun _ _ _ _ _ _ => FieldSet.has_of_isEmpty empty _⟩
            | false =>
                have held : kidValues sc tr (some v) pe ≠ [] := by simp [only]
                have soundKid := (soundSide_some.mpr sound).kid proper (by simp [only] :
                  origin ∈ kidValues sc tr (some v) pe)
                have stableKid : StableKeys sc (kidType sc tr pe) := fun other reached =>
                  stable other (reaches_of_kid held proper reached)
                apply ih onward soundKid stableKid
                  (FieldSet.withPrefix_canonical canonical pe)
                rw [Kid.node, type, isValue, left, if_neg (by simp [empty])] at within
                exact List.ne_nil_of_mem within
          exact .cons isLeft.spared isLeft.keys below

omit [Consistent N] in
private theorem leaving_cases {x : Value N} (isLeft : leaving sc set tr pe x = some y) :
    x = y ∨ remove sc tr x (set.withPrefix pe) = y := by
  unfold leaving at isLeft
  split_ifs at isLeft
  · exact Or.inl (Option.some.inj isLeft)
  · exact Or.inr (Option.some.inj isLeft)

omit [Numeric N] [Consistent N] in
private theorem resolves_congr (here : resolves sc ⟨tr, v⟩ = true) (w : Value N) :
    resolves sc ⟨tr, w⟩ = true := by
  unfold resolves at here ⊢
  dsimp only at here ⊢
  cases failed : resolveSchema sc tr w with
  | ok alternative => rfl
  | error message =>
      rw [resolveSchema_error_congr failed v] at here
      cases here

omit [Consistent N] in
/-- What is left of a value whose nodes have alternatives has them too. -/
theorem resolves_remove (every : everyNode sc (resolves sc) ⟨tr, v⟩ = true) (set : FieldSet N) :
    everyNode sc (resolves sc) ⟨tr, remove sc tr v set⟩ = true := by
  induction bound : v.depth using Nat.strong_induction_on generalizing tr v set with
  | _ depth ih =>
      subst bound
      obtain ⟨here, below⟩ := (everyNode_iff sc _ _).mp every
      rw [everyNode_iff]
      refine ⟨resolves_congr here _, fun k member => ?_⟩
      have own := resolveSchema_remove (List.ne_nil_of_mem member)
      rcases mem_kids member with ⟨t, item, resolved, granular, inItems, rfl⟩ |
        ⟨t, entry, resolved, granular, inEntries, rfl⟩
      · have resolvedValue : resolveSchema sc tr v = .ok (.list t) := own ▸ resolved
        rw [kids_list resolvedValue granular] at below
        obtain ⟨origin, inOrigins, isLeft⟩ := origin_of_item resolvedValue granular inItems
        have everyItem : everyNode sc (resolves sc) ⟨t.elementType, origin⟩ = true :=
          below _ (List.mem_map_of_mem inOrigins)
        show everyNode sc (resolves sc) ⟨t.elementType, item⟩ = true
        rcases leaving_cases isLeft with same | removed
        · exact same ▸ everyItem
        · exact removed ▸ ih _ (depth_lt_of_mem_items inOrigins) everyItem _
            rfl
      · have resolvedValue : resolveSchema sc tr v = .ok (.map t) := own ▸ resolved
        rw [kids_map resolvedValue granular] at below
        have found := get?_eq_some_iff.mpr inEntries
        rw [get?_remove resolvedValue granular] at found
        obtain ⟨origin, isOrigin, isLeft⟩ := Option.bind_eq_some_iff.mp found
        have inOrigins := get?_eq_some_iff.mp isOrigin
        have everyEntry : everyNode sc (resolves sc) ⟨t.fieldType entry.1, origin⟩ = true :=
          below _ (List.mem_map_of_mem inOrigins)
        show everyNode sc (resolves sc) ⟨t.fieldType entry.1, entry.2⟩ = true
        rcases leaving_cases isLeft with same | removed
        · exact same ▸ everyEntry
        · exact removed ▸ ih _ (depth_lt_of_mem_entries inOrigins)
            everyEntry _ rfl

end Level

end StructuredMergeDiff.Typed
