import StructuredMergeDiff.Typed.Extraction
import StructuredMergeDiff.Typed.MergeBounds

/-!
Contract: what is left of a value from which the items of a set are removed.

A list item is found under its keys. If a key of it is removed, it loses its name,
and takes another one if the key has a default. Types whose keys are scalars
without defaults keep the names of the items that keep their keys.

Owns: removal level by level, and that paths which the set spares lead to the same
values after it.
-/

namespace StructuredMergeDiff.Typed

open Library Std Compare Value

variable {N : Type} [Numeric N] [Consistent N] {sc : Schema N} {set : FieldSet N} {tr : TypeRef N}
  {pe : PathElement N}

/-! ## The walk -/

/-- The removing walk. -/
abbrev remove (sc : Schema N) (tr : TypeRef N) (v : Value N) (set : FieldSet N) : Value N :=
  removeItemsWithSchema sc tr v set false

/-- The set that is removed matters by its paths only. -/
theorem remove_congr {v : Value N} {first second : FieldSet N} (canonicalFirst : first.Canonical)
    (canonicalSecond : second.Canonical) (same : ∀ path, first.has path = second.has path) :
    remove sc tr v first = remove sc tr v second := by
  induction bound : v.depth using Nat.strong_induction_on generalizing tr v first second with
  | _ depth ih =>
      subst bound
      have below : ∀ pe path, (first.withPrefix pe).has path = (second.withPrefix pe).has path := by
        intro pe path
        by_cases isRoot : path = []
        · rw [isRoot, FieldSet.has_root, FieldSet.has_root]
        · rw [← FieldSet.has_cons _ _ isRoot, ← FieldSet.has_cons _ _ isRoot, same]
      have empty : ∀ pe, (first.withPrefix pe).isEmpty = (second.withPrefix pe).isEmpty := by
        intro pe
        rw [Bool.eq_iff_iff,
          FieldSet.isEmpty_iff_has (FieldSet.withPrefix_canonical canonicalFirst pe),
          FieldSet.isEmpty_iff_has (FieldSet.withPrefix_canonical canonicalSecond pe)]
        simp only [below]
      have inside : ∀ {type x} pe, x.depth < v.depth →
          removeItemsWithSchema sc type x (first.withPrefix pe) false =
            removeItemsWithSchema sc type x (second.withPrefix pe) false :=
        fun pe smaller => ih _ smaller
          (FieldSet.withPrefix_canonical canonicalFirst pe)
          (FieldSet.withPrefix_canonical canonicalSecond pe) (below pe) rfl
      rw [remove, remove, removeItemsWithSchema_eq, removeItemsWithSchema_eq]
      unfold Remove.body
      cases resolveSchema sc tr v with
      | error message => rfl
      | ok alternative =>
          cases alternative with
          | scalar t => rfl
          | list t =>
              cases v with
              | list items =>
                  have each : items.flatMap (Remove.listItem sc false
                        (fun call => removeItemsWithSchema sc call.type call.value call.toRemove false)
                        t first) =
                      items.flatMap (Remove.listItem sc false
                        (fun call => removeItemsWithSchema sc call.type call.value call.toRemove false)
                        t second) := by
                    apply List.flatMap_congr
                    intro item member
                    have smaller := depth_lt_of_mem_items (v := .list items) member
                    cases named : second.has [itemPathElement sc t item] <;>
                      simp [Remove.listItem, same, empty, named, inside _ smaller]
                  simp only [Remove.doList, each]
              | _ => rfl
          | map t =>
              cases v with
              | map bindings =>
                  have each : (Value.map bindings).entries.filterMap (Remove.mapEntry false
                        (fun call => removeItemsWithSchema sc call.type call.value call.toRemove false)
                        t first) =
                      (Value.map bindings).entries.filterMap (Remove.mapEntry false
                        (fun call => removeItemsWithSchema sc call.type call.value call.toRemove false)
                        t second) := by
                    apply List.filterMap_congr
                    intro entry member
                    have smaller := depth_lt_of_mem_entries (v := .map bindings) member
                    simp [Remove.mapEntry, same, empty, inside _ smaller]
                  simp only [Remove.doMap, each]
              | _ => rfl

/-- What is left of a child, if anything. -/
def leaving (sc : Schema N) (set : FieldSet N) (tr : TypeRef N) (pe : PathElement N)
    (v : Value N) : Option (Value N) :=
  if set.has [pe] then none
  else if (set.withPrefix pe).isEmpty then some v
  else some (remove sc tr v (set.withPrefix pe))

section

omit [Consistent N]

theorem get?_remove {t : MapType N} {v : Value N} (resolved : resolveSchema sc tr v = .ok (.map t))
    (granular : t.elementRelationship ≠ .atomic) (set : FieldSet N) (name : String) :
    (remove sc tr v set).get? name =
      (v.get? name).bind (leaving sc set (t.fieldType name) (.fieldName name)) := by
  rw [remove, get?_removeItems resolved granular]
  congr 1
  funext value
  unfold Remove.mapEntry leaving
  dsimp only
  cases set.has [.fieldName name] with
  | true => rfl
  | false => cases (set.withPrefix (.fieldName name)).isEmpty <;> rfl

theorem remove_list {t : ListType N} {v : Value N}
    (resolved : resolveSchema sc tr v = .ok (.list t)) (granular : t.elementRelationship ≠ .atomic)
    (set : FieldSet N) :
    remove sc tr v set =
      if (v.items.filterMap fun item =>
          leaving sc set t.elementType (itemPathElement sc t item) item).isEmpty then .null
      else .list (v.items.filterMap fun item =>
        leaving sc set t.elementType (itemPathElement sc t item) item) := by
  have item : ∀ item, Remove.listItem sc false (fun call =>
        removeItemsWithSchema sc call.type call.value call.toRemove false) t set item =
      (leaving sc set t.elementType (itemPathElement sc t item) item).toList := by
    intro item
    unfold Remove.listItem leaving
    dsimp only
    cases set.has [itemPathElement sc t item] with
    | true => rfl
    | false => cases (set.withPrefix (itemPathElement sc t item)).isEmpty <;> rfl
  rw [remove, removeItems_list resolved granular, funext item, ← List.filterMap_eq_flatMap_toList]

theorem remove_scalar {t : ScalarType} {v : Value N}
    (resolved : resolveSchema sc tr v = .ok (.scalar t)) (set : FieldSet N) :
    remove sc tr v set = v := by
  rw [remove, removeItemsWithSchema_eq]
  simp only [Remove.body, resolved]

end

/-! ## Names of what is left of list items -/

omit [Numeric N] [Consistent N] in
/-- The keys of the items are scalars without defaults. -/
def PlainKeys (sc : Schema N) (t : ListType N) : Prop :=
  ∀ name ∈ t.keys, (∀ v, getAssociativeKeyDefault sc t name = .ok v → v = .null) ∧
    ∀ m, (FieldSet.atomAt sc t.elementType).map = some m →
      (FieldSet.atomAt sc (m.fieldType name)).list = none ∧
        (FieldSet.atomAt sc (m.fieldType name)).map = none

omit [Numeric N] [Consistent N] in
/-- So are those of all list types that values of the type reach. -/
def StableKeys (sc : Schema N) (tr : TypeRef N) : Prop :=
  ∀ other, Reaches sc tr other → ∀ t, (FieldSet.atomAt sc other).list = some t → PlainKeys sc t

section Names

variable {t : ListType N} {v : Value N} {allowDuplicates : Bool}

omit [Numeric N] [Consistent N] in
/-- Keys without defaults are found in the item. -/
theorem PlainKeys.explicit (plain : PlainKeys sc t) {name : String} (isKey : name ∈ t.keys)
    {x : Option (Value N)} {w : Value N} (found : keyValueOf sc t name x = .ok w) : x = some w := by
  cases x with
  | some y =>
      cases found
      rfl
  | none =>
      simp only [keyValueOf] at found
      cases isDefault : getAssociativeKeyDefault sc t name with
      | error err => rw [isDefault] at found; cases found
      | ok default =>
          rw [isDefault, (plain name isKey).1 default isDefault] at found
          cases found

/-- A key is left as it is, or removed. -/
theorem PlainKeys.get?_remove (plain : PlainKeys sc t)
    (sound : Sound sc allowDuplicates ⟨t.elementType, v⟩) {m : MapType N}
    (resolved : resolveSchema sc t.elementType v = .ok (.map m))
    (granular : m.elementRelationship ≠ .atomic) {name : String} (isKey : name ∈ t.keys)
    {w : Value N} (found : v.get? name = some w) (set : FieldSet N) :
    (remove sc t.elementType v set).get? name =
      if set.has [.fieldName name] then none else some w := by
  rw [Typed.get?_remove resolved granular, found, Option.bind_some, leaving]
  split
  · rfl
  · split
    · rfl
    · have soundKey : Sound sc allowDuplicates ⟨m.fieldType name, w⟩ :=
        (sound.entries_known resolved (name, w) (get?_eq_some_iff.mp found)).2
      obtain ⟨alternative, resolvedKey, -⟩ := soundKey.alternative
      have noContainer := (plain name isKey).2 m (resolveSchema_map resolved)
      cases alternative with
      | scalar s => rw [remove_scalar resolvedKey]
      | list l => rw [resolveSchema_list resolvedKey] at noContainer; cases noContainer.1
      | map l => rw [resolveSchema_map resolvedKey] at noContainer; cases noContainer.2

section

variable (sound : Sound sc allowDuplicates ⟨t.elementType, v⟩)

include sound

theorem resolveSchema_of_set (noKeys : t.keys = [])
    (named : listItemToPathElement sc t v = .ok pe) :
    ∃ s, resolveSchema sc t.elementType v = .ok (.scalar s) := by
  have scalar := ((set_named_iff (associative_of_named named) noKeys).mp named).1
  obtain ⟨alternative, resolved, fits⟩ := sound.alternative
  cases alternative with
  | scalar s => exact ⟨s, resolved⟩
  | list l =>
      rcases fits with rfl | ⟨items, rfl, -⟩ <;> simp [Value.isScalar] at scalar
  | map m =>
      rcases fits with rfl | ⟨bindings, rfl, -⟩ <;> simp [Value.isScalar] at scalar

theorem remove_of_set (noKeys : t.keys = []) (named : listItemToPathElement sc t v = .ok pe)
    (set : FieldSet N) :
    remove sc t.elementType v set = v := by
  obtain ⟨s, resolved⟩ := resolveSchema_of_set sound noKeys named
  exact remove_scalar resolved set

theorem resolveSchema_of_keyed (keyed : t.keys ≠ [])
    (named : listItemToPathElement sc t v = .ok pe) :
    ∃ m, resolveSchema sc t.elementType v = .ok (.map m) := by
  obtain ⟨⟨bindings, rfl⟩, -⟩ := (keyed_named_iff (associative_of_named named) keyed).mp named
  exact sound.map_resolved

end

omit [Consistent N] in
theorem remove_atomic {m : MapType N} (resolved : resolveSchema sc tr v = .ok (.map m))
    (atomic : m.elementRelationship = .atomic) (set : FieldSet N) : remove sc tr v set = .null := by
  rw [remove, removeItemsWithSchema_eq]
  simp only [Remove.body, resolved, Remove.doMap, atomic]
  cases v <;> simp

omit [Numeric N] [Consistent N] in
theorem keyName_congr {w : Value N}
    (same : ∀ name ∈ t.keys, keyValue sc t w name = keyValue sc t v name) :
    keyName sc t w = keyName sc t v := by
  unfold keyName
  congr 2
  apply List.map_congr_left
  intro name member
  rw [same name ((List.mem_insertionSort _).mp member)]

section

variable (plain : PlainKeys sc t) (sound : Sound sc allowDuplicates ⟨t.elementType, v⟩)
  (named : listItemToPathElement sc t v = .ok pe)

include plain sound named

/-- What is left of an item has its name, or none. -/
theorem name_of_remove (set : FieldSet N) {other : PathElement N}
    (renamed : listItemToPathElement sc t (remove sc t.elementType v set) = .ok other) :
    other = pe := by
  have associative := associative_of_named named
  by_cases noKeys : t.keys = []
  · rw [remove_of_set sound noKeys named] at renamed
    exact Except.ok.inj (renamed.symm.trans named)
  · obtain ⟨m, resolved⟩ := resolveSchema_of_keyed sound noKeys named
    obtain ⟨-, hasKeys, isName⟩ := (keyed_named_iff associative noKeys).mp named
    obtain ⟨⟨bindings, isMap⟩, hasKeysAfter, isOther⟩ :=
      (keyed_named_iff associative noKeys).mp renamed
    by_cases atomic : m.elementRelationship = .atomic
    · rw [remove_atomic resolved atomic] at isMap
      cases isMap
    · rw [isName, isOther]
      apply keyName_congr
      intro name isKey
      obtain ⟨w, found⟩ := hasKeys name isKey
      obtain ⟨w', foundAfter⟩ := hasKeysAfter name isKey
      have before := plain.explicit isKey found
      have after := plain.explicit isKey foundAfter
      have same : w' = w := by
        rw [plain.get?_remove sound resolved atomic isKey before] at after
        split at after
        · cases after
        · exact (Option.some.inj after).symm
      rw [keyValue, keyValue, found, foundAfter, same]

/-- What is left of an item has its name, if its keys are spared. -/
theorem named_remove (inside : holdsItself sc ⟨t.elementType, v⟩ = false ∨ t.keys = [])
    (spared : ∀ name ∈ t.keys, set.has [.fieldName name] = false) :
    listItemToPathElement sc t (remove sc t.elementType v set) = .ok pe := by
  have associative := associative_of_named named
  by_cases noKeys : t.keys = []
  · rwa [remove_of_set sound noKeys named]
  · obtain ⟨m, resolved⟩ := resolveSchema_of_keyed sound noKeys named
    obtain ⟨-, hasKeys, isName⟩ := (keyed_named_iff associative noKeys).mp named
    have granular : m.elementRelationship ≠ .atomic := by
      have notLeaf := inside.resolve_right noKeys
      simpa [holdsItself, resolved, Alternative.isLeaf] using notLeaf
    have kept : ∀ name ∈ t.keys, (remove sc t.elementType v set).get? name = v.get? name := by
      intro name isKey
      obtain ⟨w, found⟩ := hasKeys name isKey
      have before := plain.explicit isKey found
      rw [plain.get?_remove sound resolved granular isKey before, spared name isKey, before]
      rfl
    rw [keyed_named_iff associative noKeys]
    refine ⟨?_, fun name isKey => ?_, ?_⟩
    · obtain ⟨name, isKey⟩ := List.exists_mem_of_ne_nil _ noKeys
      obtain ⟨w, found⟩ := hasKeys name isKey
      have after := kept name isKey
      rw [plain.explicit isKey found] at after
      cases left : remove sc t.elementType v set with
      | map bindings => exact ⟨bindings, rfl⟩
      | _ => rw [left] at after; cases after
    · rw [kept name isKey]
      exact hasKeys name isKey
    · rw [isName]
      apply keyName_congr
      intro name isKey
      rw [keyValue, keyValue, kept name isKey]

end

end Names

/-! ## Paths that a set spares -/

section

omit [Consistent N]

/-- The path leads through single children to the node. -/
inductive Spine (sc : Schema N) : Node N → Path N → Node N → Prop
  | root (n : Node N) : Spine sc n [] n
  | step {tr : TypeRef N} {v x : Value N} {pe : PathElement N} {rest : Path N} {last : Node N}
      (proper : pe.isProper = true) (only : kidValues sc tr (some v) pe = [x])
      (onward : Spine sc ⟨kidType sc tr pe, x⟩ rest last) : Spine sc ⟨tr, v⟩ (pe :: rest) last

/-- The set has no path on the way, and no key of an item on the way. -/
structure Spares (set : FieldSet N) (path : Path N) : Prop where
  way : ∀ first rest, path = first ++ rest → first ≠ [] → set.has first = false
  keys : ∀ first fields rest, path = first ++ .key fields :: rest → ∀ field ∈ fields.fields,
    set.has (first ++ [.key fields, .fieldName field.name]) = false

theorem Spares.head {rest : Path N} (spares : Spares set (pe :: rest)) : set.has [pe] = false :=
  spares.way [pe] rest rfl (by simp)

theorem Spares.headKeys {fields : FieldList N} {rest : Path N}
    (spares : Spares set (.key fields :: rest)) {field : Field N} (member : field ∈ fields.fields) :
    (set.withPrefix (.key fields)).has [.fieldName field.name] = false := by
  rw [← FieldSet.has_cons _ _ (by simp)]
  exact spares.keys [] fields rest rfl field member

theorem Spares.tail {rest : Path N} (spares : Spares set (pe :: rest))
    : Spares (set.withPrefix pe) rest where
  way first later isPath proper := by
    rw [← FieldSet.has_cons _ _ proper]
    exact spares.way (pe :: first) later (by rw [isPath]; rfl) (by simp)
  keys first fields later isPath field member := by
    rw [← FieldSet.has_cons _ _ (by simp)]
    exact spares.keys (pe :: first) fields later (by rw [isPath]; rfl) field member

/-- The set has only paths of the node. -/
def Inside (sc : Schema N) (n : Node N) (set : FieldSet N) : Prop :=
  ∀ path, set.has path = true → nodesAt sc n path ≠ []

theorem Inside.kid {v x : Value N} (inside : Inside sc ⟨tr, v⟩ set) (proper : pe.isProper = true)
    (only : kidValues sc tr (some v) pe = [x]) :
    Inside sc ⟨kidType sc tr pe, x⟩ (set.withPrefix pe) := by
  intro path has
  have notRoot : path ≠ [] := by
    intro isRoot
    rw [isRoot, FieldSet.has_root] at has
    cases has
  rw [← FieldSet.has_cons _ _ notRoot] at has
  rw [← nodesAt_cons_kid proper only]
  exact inside _ has

end

/-- What is left of a value whose own path the set does not have. -/
def left (sc : Schema N) (tr : TypeRef N) (v : Value N) (set : FieldSet N) : Value N :=
  if set.isEmpty then v else remove sc tr v set

omit [Consistent N] in
theorem leaving_of_spared (spared : set.has [pe] = false) (tr : TypeRef N) (v : Value N) :
    leaving sc set tr pe v = some (left sc tr v (set.withPrefix pe)) := by
  rw [leaving, if_neg (by simp [spared]), left]
  split <;> rfl

/-- A set that is not empty holds a path of the value, so the value has children. -/
theorem holdsItself_of_inside {n : Node N} (canonical : set.Canonical) (inside : Inside sc n set)
    (notEmpty : set.isEmpty = false) : holdsItself sc n = false := by
  rw [Bool.eq_false_iff, ne_eq, FieldSet.isEmpty_iff_has canonical] at notEmpty
  obtain ⟨path, has⟩ := not_forall.mp notEmpty
  have found := inside path (by simpa using has)
  rw [Bool.eq_false_iff]
  intro leaf
  cases path with
  | nil =>
      rw [FieldSet.has_root] at has
      exact has rfl
  | cons pe rest => exact found (by simp [nodesAt, kidsAt, kids_of_holdsItself leaf])

omit [Consistent N] in
theorem key_of_beq {first second : List (Field N)}
    (same : ((⟨first⟩ : FieldList N) == ⟨second⟩) = true) {field : Field N}
    (member : field ∈ first) : ∃ other ∈ second, other.name = field.name := by
  change FieldList.equals _ _ = true at same
  simp only [FieldList.equals, Bool.and_eq_true, beq_iff_eq, List.all_eq_true] at same
  obtain ⟨index, bound, isField⟩ := List.getElem_of_mem member
  have otherBound : index < second.length := same.1 ▸ bound
  have inZip : (first[index], second[index]) ∈ first.zip second := by
    rw [← List.getElem_zip (h := by simp [bound, otherBound])]
    exact List.getElem_mem _
  have equal := same.2 _ inZip
  simp only [FieldList.equalsField, Bool.and_eq_true, beq_iff_eq] at equal
  exact ⟨second[index], List.getElem_mem _, by rw [← equal.1, isField]⟩

/-- The fields of a key are keys of the list. -/
theorem key_of_named {t : ListType N} {item : Value N} {own : PathElement N}
    {fields : FieldList N} (isNamed : listItemToPathElement sc t item = .ok own)
    (same : (own == .key fields) = true) {field : Field N} (member : field ∈ fields.fields) :
    field.name ∈ t.keys := by
  have associative := associative_of_named isNamed
  have keyed : t.keys ≠ [] := by
    intro noKeys
    rw [((set_named_iff associative noKeys).mp isNamed).2] at same
    cases same
  rw [((keyed_named_iff associative keyed).mp isNamed).2.2] at same
  obtain ⟨other, inKeys, sameName⟩ := key_of_beq (BEq.symm same) member
  obtain ⟨name, inSorted, rfl⟩ := List.mem_map.mp inKeys
  rw [← sameName]
  exact (List.mem_insertionSort _).mp inSorted

/-- The item that has the name, if this one does. -/
def itemNamed (sc : Schema N) (t : ListType N) (pe : PathElement N) (item : Value N) :
    Option (Value N) :=
  match listItemToPathElement sc t item with
  | .ok other => if other == pe then some item else none
  | .error _ => none

omit [Consistent N] in
theorem entriesAt_namedItems (t : ListType N) (items : List (Value N)) (pe : PathElement N) :
    entriesAt (namedItems sc t items) pe = items.filterMap (itemNamed sc t pe) := by
  induction items with
  | nil => rfl
  | cons item rest ih =>
      cases named : listItemToPathElement sc t item with
      | error err =>
          rw [namedItems_cons_error named, List.filterMap_cons, ih, itemNamed, named]
      | ok other =>
          rw [namedItems_cons_ok named, List.filterMap_cons, itemNamed, named, entriesAt,
            List.filter_cons]
          cases isName : other == pe with
          | true => simpa [isName, entriesAt] using ih
          | false => simpa [isName, entriesAt] using ih

/-- A key of the item that a spared path leads through is spared. -/
theorem Spares.spared_key {t : ListType N} {item : Value N} {rest : Path N}
    (spares : Spares set (pe :: rest)) (canonical : set.Canonical)
    (isName : (keyName sc t item == pe) = true) {name : String} (isKey : name ∈ t.keys) :
    (set.withPrefix (keyName sc t item)).has [.fieldName name] = false := by
  rw [FieldSet.withPrefix_congr canonical isName]
  cases pe with
  | key fields =>
      have member : { name := name, value := keyValue sc t item name } ∈
          (t.keys.insertionSort (· ≤ ·)).map fun name =>
            ({ name := name, value := keyValue sc t item name } : Field N) :=
        List.mem_map.mpr ⟨name, (List.mem_insertionSort _).mpr isKey, rfl⟩
      obtain ⟨other, inFields, sameName⟩ := key_of_beq isName member
      have spared := spares.headKeys inFields
      rwa [sameName] at spared
  | _ => cases isName

section Level

variable {v x : Value N} {rest : Path N} {allowDuplicates : Bool}

omit [Consistent N] in
theorem kidValues_remove_map {t : MapType N} (resolved : resolveSchema sc tr v = .ok (.map t))
    (granular : t.elementRelationship ≠ .atomic) (only : kidValues sc tr (some v) pe = [x])
    (spared : set.has [pe] = false) :
    kidValues sc tr (some (remove sc tr v set)) pe =
      [left sc (kidType sc tr pe) x (set.withPrefix pe)] := by
  cases pe with
  | fieldName name =>
      rw [kidValues_map resolved granular] at only
      have found : v.get? name = some x := by simpa using congrArg List.head? only
      have kept : (remove sc tr v set).get? name =
          some (left sc (t.fieldType name) x (set.withPrefix (.fieldName name))) := by
        rw [get?_remove resolved granular, found, Option.bind_some, leaving_of_spared spared]
      have sameKind : kind (remove sc tr v set) = kind v := by
        have isMap : ∀ w : Value N, ∀ y, w.get? name = some y → kind w = .map := by
          intro w y isFound
          cases w <;> first | rfl | cases isFound
        rw [isMap _ _ kept, isMap _ _ found]
      have type := kidType_map resolved name
      rw [kidValues_map ((resolveSchema_congr sc tr sameKind).trans resolved) granular, kept, type]
      rfl
  | _ =>
      rw [kidValues_of_resolved resolved, kidValuesOf_map_of_ne _ (by simp)] at only
      cases only

/-- The item that has the name of a spared path is the only one that has it in what
is left. -/
theorem kidValues_remove_list {t : ListType N} (sound : Sound sc allowDuplicates ⟨tr, v⟩)
    (plain : PlainKeys sc t) (canonical : set.Canonical) (inside : Inside sc ⟨tr, v⟩ set)
    (resolved : resolveSchema sc tr v = .ok (.list t)) (granular : t.elementRelationship ≠ .atomic)
    (proper : pe.isProper = true) (only : kidValues sc tr (some v) pe = [x])
    (spares : Spares set (pe :: rest)) :
    kidValues sc tr (some (remove sc tr v set)) pe =
      [left sc (kidType sc tr pe) x (set.withPrefix pe)] := by
  have type : t.elementType = kidType sc tr pe := kidTypeOf_eq resolved proper (by simp [only])
  obtain ⟨named, -, soundItems⟩ := sound.items_named resolved granular
  rw [kidValues_items granular resolved proper, entriesAt_namedItems] at only
  have each : ∀ item ∈ v.items,
      (leaving sc set t.elementType (itemPathElement sc t item) item).bind (itemNamed sc t pe) =
        (itemNamed sc t pe item).map fun item =>
          left sc t.elementType item (set.withPrefix pe) := by
    intro item member
    obtain ⟨own, isNamed⟩ := named item member
    have soundItem := soundItems item member
    have isOwn : itemPathElement sc t item = own := by rw [itemPathElement, isNamed]
    rw [isOwn]
    cases isName : own == pe with
    | true =>
        have isItem : itemNamed sc t pe item = some item := by simp [itemNamed, isNamed, isName]
        have isX : item = x := by
          have inside : item ∈ v.items.filterMap (itemNamed sc t pe) :=
            List.mem_filterMap.mpr ⟨item, member, isItem⟩
          rw [only] at inside
          exact List.mem_singleton.mp inside
        have spared : set.has [own] = false := by
          rw [has_single_congr canonical isName]
          exact spares.head
        have keepsName : listItemToPathElement sc t
            (left sc t.elementType item (set.withPrefix own)) = .ok own := by
          unfold left
          split
          · exact isNamed
          · next notEmpty =>
              have insideItem : Inside sc ⟨t.elementType, item⟩ (set.withPrefix own) := by
                rw [FieldSet.withPrefix_congr canonical isName, type, isX]
                apply inside.kid proper
                rw [kidValues_items granular resolved proper, entriesAt_namedItems, only]
              apply named_remove plain soundItem isNamed
              · exact Or.inl (holdsItself_of_inside (FieldSet.withPrefix_canonical canonical own)
                  insideItem (by simpa using notEmpty))
              · intro name isKey
                have keyed : t.keys ≠ [] := List.ne_nil_of_mem isKey
                have isKeyName :=
                  ((keyed_named_iff (associative_of_named isNamed) keyed).mp isNamed).2.2
                rw [isKeyName] at isName ⊢
                exact spares.spared_key canonical isName isKey
        rw [leaving_of_spared spared, Option.bind_some, isItem, Option.map_some,
          ← FieldSet.withPrefix_congr canonical isName]
        simp [itemNamed, keepsName, isName]
    | false =>
        have noItem : itemNamed sc t pe item = none := by simp [itemNamed, isNamed, isName]
        rw [noItem, Option.map_none, leaving]
        split
        · rfl
        · split
          · exact noItem
          · rw [Option.bind_some, itemNamed]
            split
            · next other renamed =>
                rw [name_of_remove plain soundItem isNamed _ renamed, isName]
                rfl
            · rfl
  have kept : (v.items.filterMap fun item =>
        leaving sc set t.elementType (itemPathElement sc t item) item).filterMap
          (itemNamed sc t pe) = [left sc t.elementType x (set.withPrefix pe)] := by
    rw [List.filterMap_filterMap, List.filterMap_congr each, ← List.map_filterMap, only]
    rfl
  have notEmpty : ¬ (v.items.filterMap fun item =>
      leaving sc set t.elementType (itemPathElement sc t item) item).isEmpty = true := by
    intro empty
    rw [List.isEmpty_iff.mp empty] at kept
    cases kept
  have isList : ∃ items, v = .list items := by
    cases v with
    | list items => exact ⟨items, rfl⟩
    | _ => exact absurd rfl notEmpty
  have sameKind : kind (remove sc tr v set) = kind v := by
    obtain ⟨items, rfl⟩ := isList
    rw [remove_list resolved granular, if_neg notEmpty]
    rfl
  rw [kidValues_items granular ((resolveSchema_congr sc tr sameKind).trans resolved) proper,
    entriesAt_namedItems, remove_list resolved granular, if_neg notEmpty, ← type]
  exact kept

/-- What is left under a path element on a spared path. -/
theorem kidValues_remove (sound : Sound sc allowDuplicates ⟨tr, v⟩) (stable : StableKeys sc tr)
    (canonical : set.Canonical) (inside : Inside sc ⟨tr, v⟩ set) (proper : pe.isProper = true)
    (only : kidValues sc tr (some v) pe = [x]) (spares : Spares set (pe :: rest)) :
    kidValues sc tr (some (remove sc tr v set)) pe =
      [left sc (kidType sc tr pe) x (set.withPrefix pe)] := by
  have held : kidsAt sc ⟨tr, v⟩ pe ≠ [] := kidsAt_ne_nil_iff.mpr (by simp [only])
  obtain ⟨k, member⟩ := List.exists_mem_of_ne_nil _ held
  rcases mem_kids (mem_kidsAt.mp member).1 with ⟨t, item, resolved, granular, _, _⟩ |
    ⟨t, entry, resolved, granular, _, _⟩
  · exact kidValues_remove_list sound (stable tr (.refl tr) t (resolveSchema_list resolved))
      canonical inside resolved granular proper only spares
  · exact kidValues_remove_map resolved granular only spares.head

/-- A spared path with nothing of the set beneath it leads to the same node in what
is left. -/
theorem Spine.left {path : Path N} {last : Node N} (spine : Spine sc ⟨tr, v⟩ path last)
    (sound : Sound sc allowDuplicates ⟨tr, v⟩) (stable : StableKeys sc tr)
    (canonical : set.Canonical) (inside : Inside sc ⟨tr, v⟩ set) (spares : Spares set path)
    (nothing : ∀ rest, rest ≠ [] → set.has (path ++ rest) = false) :
    Spine sc ⟨tr, left sc tr v set⟩ path last ∧
      (path ≠ [] → Spine sc ⟨tr, remove sc tr v set⟩ path last) := by
  induction path generalizing tr v set with
  | nil =>
      have empty : set.isEmpty = true := by
        rw [FieldSet.isEmpty_iff_has canonical]
        intro path
        cases path with
        | nil => exact FieldSet.has_root set
        | cons pe rest => exact nothing (pe :: rest) (by simp)
      rw [Typed.left, if_pos empty]
      exact ⟨spine, fun proper => absurd rfl proper⟩
  | cons pe rest ih =>
      cases spine with
      | @step _ _ x _ _ _ proper only onward =>
          have side := soundSide_some.mpr sound
          have soundKid := side.kid proper (by simp [only] : x ∈ kidValues sc tr (some v) pe)
          have stableKid : StableKeys sc (kidType sc tr pe) := fun other reached =>
            stable other (reaches_of_kid (by simp [only] : kidValues sc tr (some v) pe ≠ []) proper
              reached)
          have kid := (ih onward soundKid stableKid
            (FieldSet.withPrefix_canonical canonical pe) (inside.kid proper only) spares.tail
            fun later notLast => by
              rw [← FieldSet.has_cons _ _ (by simp [notLast])]
              exact nothing later notLast).1
          have removed : Spine sc ⟨tr, Typed.remove sc tr v set⟩ (pe :: rest) last :=
            .step proper (kidValues_remove sound stable canonical inside proper only spares) kid
          refine ⟨?_, fun _ => removed⟩
          unfold Typed.left
          split
          · exact .step proper only onward
          · exact removed

end Level

end StructuredMergeDiff.Typed
