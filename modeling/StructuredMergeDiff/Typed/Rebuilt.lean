import StructuredMergeDiff.Typed.Removal

/-!
Contract: a value rebuilt from some of its items and entries.

Removal and extraction both go down a value with a set. Of the items and entries of
a list or map they keep some, in their order, and put a rebuilt value in the place
of each. They differ in what they keep and in the set they go on with.

Owns: the relation between a value and what is rebuilt from it; that removal takes
exactly the named items and entries away; and when extraction makes one element of
every list item it keeps.
-/

namespace StructuredMergeDiff.Typed

open Library Value

variable {N : Type} [Numeric N] {sc : Schema N}

/-! ## Rebuilt values -/

section Relation

variable {σ : Type} {keep : σ → PathElement N → Bool} {next : σ → PathElement N → σ}
  {bare : σ → Node N → Value N → Prop}

/-- The value is rebuilt from that of the node: each item and entry that is kept has one
element or entry in it, rebuilt from it, at its place. `bare` says what stands for a
value of which nothing is kept. -/
inductive Rebuilt (sc : Schema N) (keep : σ → PathElement N → Bool)
    (next : σ → PathElement N → σ) (bare : σ → Node N → Value N → Prop) :
    σ → Node N → Value N → Prop
  | whole {state : σ} {n : Node N} {out : Value N} (childless : kids sc n = [])
      (isBare : bare state n out) : Rebuilt sc keep next bare state n out
  | list {state : σ} {n : Node N} {out : Value N} {t : ListType N}
      (resolved : resolveSchema sc n.type n.value = .ok (.list t))
      (granular : t.elementRelationship ≠ .atomic) (image : Value N → Value N)
      (placed : out.items =
        (n.value.items.filter fun item => keep state (itemPathElement sc t item)).map image)
      (emptied : out.items = [] → bare state n out)
      (each : ∀ item ∈ n.value.items, keep state (itemPathElement sc t item) = true →
        Rebuilt sc keep next bare (next state (itemPathElement sc t item)) ⟨t.elementType, item⟩
          (image item)) : Rebuilt sc keep next bare state n out
  | map {state : σ} {n : Node N} {out : Value N} {t : MapType N}
      (resolved : resolveSchema sc n.type n.value = .ok (.map t))
      (granular : t.elementRelationship ≠ .atomic) (image : String × Value N → Value N)
      (placed : out.entries =
        (n.value.entries.filter fun entry => keep state (.fieldName entry.1)).map fun entry =>
          (entry.1, image entry))
      (emptied : out.entries = [] → bare state n out)
      (each : ∀ entry ∈ n.value.entries, keep state (.fieldName entry.1) = true →
        Rebuilt sc keep next bare (next state (.fieldName entry.1))
          ⟨t.fieldType entry.1, entry.2⟩ (image entry)) : Rebuilt sc keep next bare state n out

end Relation

/-! ## Sets beneath a path -/

/-- What the set holds beneath a path. -/
def FieldSet.beneath (set : FieldSet N) (path : Path N) : FieldSet N :=
  path.foldl FieldSet.withPrefix set

namespace FieldSet

theorem beneath_snoc (set : FieldSet N) (path : Path N) (pe : PathElement N) :
    beneath set (path ++ [pe]) = (beneath set path).withPrefix pe := by
  simp [beneath]

theorem has_snoc (set : FieldSet N) (path : Path N) (pe : PathElement N) :
    set.has (path ++ [pe]) = (beneath set path).has [pe] := by
  induction path generalizing set with
  | nil => rfl
  | cons first rest ih =>
      rw [List.cons_append, FieldSet.has_cons set first (by simp), ih]
      rfl

theorem withPrefix_of_isEmpty {set : FieldSet N} (empty : set.isEmpty = true)
    (pe : PathElement N) : (set.withPrefix pe).isEmpty = true := by
  unfold FieldSet.withPrefix
  cases found : FieldSet.childrenGet set.children pe with
  | none => rfl
  | some child =>
      obtain ⟨node, fetched, rfl⟩ := Option.map_eq_some_iff.mp found
      exact (FieldSet.isEmpty_iff.mp empty).2 node (mem_of_getBy fetched)

end FieldSet

/-! ## Both walks -/

section Walks

variable {n : Node N} {set : FieldSet N} {shouldExtract : Bool}

theorem removeItems_of_no_items {t : ListType N}
    (resolved : resolveSchema sc n.type n.value = .ok (.list t))
    (granular : t.elementRelationship ≠ .atomic)
    (emptied : (removeItemsWithSchema sc n.type n.value set shouldExtract).items = []) :
    removeItemsWithSchema sc n.type n.value set shouldExtract = .null := by
  rw [removeItems_list resolved granular] at emptied ⊢
  split at emptied
  · next empty => exact if_pos empty
  · next held => exact absurd (List.isEmpty_iff.mpr emptied) held

section

variable {t : MapType N} (resolved : resolveSchema sc n.type n.value = .ok (.map t))
  (granular : t.elementRelationship ≠ .atomic)

include resolved granular

/-- The entries of the result, if it is known what the walk makes of each entry. -/
theorem entries_removeItems {keep : String × Value N → Bool} {image : String × Value N → Value N}
    (entry : ∀ entry ∈ n.value.entries, Remove.mapEntry shouldExtract (fun call =>
        removeItemsWithSchema sc call.type call.value call.toRemove shouldExtract) t set entry =
      if keep entry then some (entry.1, image entry) else none) :
    (removeItemsWithSchema sc n.type n.value set shouldExtract).entries =
      (n.value.entries.filter keep).map fun entry => (entry.1, image entry) := by
  rw [removeItemsWithSchema_eq]
  simp only [Remove.body, resolved, Remove.doMap_granular granular]
  rw [filterMap_eq_map_filter entry]
  split
  · next empty => rw [List.isEmpty_iff.mp empty]; rfl
  · apply normalize_eq_self
    exact List.Pairwise.map _ (fun _ _ ordered => ordered) (n.value.entries_sorted.filter _)

theorem removeItems_of_no_entries
    (emptied : (removeItemsWithSchema sc n.type n.value set shouldExtract).entries = []) :
    removeItemsWithSchema sc n.type n.value set shouldExtract = .null := by
  rw [removeItemsWithSchema_eq] at emptied ⊢
  simp only [Remove.body, resolved, Remove.doMap_granular granular] at emptied ⊢
  split at emptied
  · next empty => exact if_pos empty
  · next held => exact absurd (eq_nil_of_normalize emptied) (by simpa using held)

end

end Walks

/-! ## Removal -/

/-- A node and the names on the way to it. -/
inductive Within (sc : Schema N) (n : Node N) : Path N → Node N → Prop
  | root : Within sc n [] n
  | kid {path : Path N} {m : Node N} {k : Kid N} (within : Within sc n path m)
      (member : k ∈ kids sc m) : Within sc n (path ++ [k.pe]) k.node

/-- A list or map that is handled as a whole. -/
def atomicContainer (sc : Schema N) (n : Node N) : Bool :=
  holdsItself sc n && (n.value.isList || n.value.isMap)

/-- What stands for a value of which removal leaves no item or entry: null for a list or map
beneath which the set has members, and the value itself otherwise. -/
def BareAfterRemoval (sc : Schema N) (set : FieldSet N) (path : Path N) (n : Node N)
    (out : Value N) : Prop :=
  out = if holdsItself sc n || (FieldSet.beneath set path).isEmpty then n.value else .null

/-- The items and entries whose paths are not in the set are left, in their order. -/
def Removed (sc : Schema N) (set : FieldSet N) : Path N → Node N → Value N → Prop :=
  Rebuilt sc (fun path pe => !set.has (path ++ [pe])) (fun path pe => path ++ [pe])
    (BareAfterRemoval sc set)

section Removal

variable {set : FieldSet N} {path : Path N} {n : Node N}

private theorem Removed.leaf (leaf : holdsItself sc n = true) : Removed sc set path n n.value :=
  .whole (kids_of_holdsItself leaf) (by simp [BareAfterRemoval, leaf])

/-- Where the set has nothing, nothing is removed. -/
theorem removed_unchanged {allowDuplicates : Bool} (valid : Valid sc allowDuplicates n)
    (empty : (FieldSet.beneath set path).isEmpty = true) : Removed sc set path n n.value := by
  induction bound : n.value.depth using Nat.strong_induction_on generalizing n path with
  | _ depth ih =>
      subst bound
      have spared : ∀ pe, (!set.has (path ++ [pe])) = true := fun pe => by
        rw [FieldSet.has_snoc, FieldSet.has_of_isEmpty empty]
        rfl
      have below : ∀ k ∈ kids sc n, Removed sc set (path ++ [k.pe]) k.node k.value := by
        intro k member
        apply ih _ (depth_lt_of_mem_kids member) (valid.kid member) _ rfl
        rw [FieldSet.beneath_snoc]
        exact FieldSet.withPrefix_of_isEmpty empty _
      have bare : BareAfterRemoval sc set path n n.value := by simp [BareAfterRemoval, empty]
      obtain ⟨alternative, resolved, -⟩ := valid.shaped
      by_cases leaf : holdsItself sc n = true
      · exact Removed.leaf leaf
      have granular : alternative.isLeaf = false := by simpa [holdsItself, resolved] using leaf
      cases alternative with
      | scalar t => cases granular
      | list t =>
          have notAtomic : t.elementRelationship ≠ .atomic := by
            simpa [Alternative.isLeaf] using granular
          refine .list resolved notAtomic id ?_ (fun _ => bare) fun item member _ => ?_
          · simp only [spared, List.filter_true, List.map_id]
          · apply below (listKid sc t item)
            rw [kids_list resolved notAtomic]
            exact List.mem_map_of_mem member
      | map t =>
          have notAtomic : t.elementRelationship ≠ .atomic := by
            simpa [Alternative.isLeaf] using granular
          refine .map resolved notAtomic Prod.snd ?_ (fun _ => bare) fun entry member _ => ?_
          · simp only [spared, List.filter_true, Prod.mk.eta, List.map_id']
          · apply below (mapKid t entry)
            rw [kids_map resolved notAtomic]
            exact List.mem_map_of_mem member

/-- What is left of an item or entry that is not named. -/
private def leftOf (sc : Schema N) (set : FieldSet N) (tr : TypeRef N) (pe : PathElement N)
    (v : Value N) : Value N :=
  if (set.withPrefix pe).isEmpty then v else remove sc tr v (set.withPrefix pe)

private theorem leaving_eq (set : FieldSet N) (tr : TypeRef N) (pe : PathElement N) (v : Value N) :
    leaving sc set tr pe v = if !set.has [pe] then some (leftOf sc set tr pe v) else none := by
  unfold leaving leftOf
  cases set.has [pe] with
  | true => rfl
  | false => cases (set.withPrefix pe).isEmpty <;> rfl

private theorem items_remove {t : ListType N}
    (resolved : resolveSchema sc n.type n.value = .ok (.list t))
    (granular : t.elementRelationship ≠ .atomic) (set : FieldSet N) :
    (remove sc n.type n.value set).items =
      (n.value.items.filter fun item => !set.has [itemPathElement sc t item]).map fun item =>
        leftOf sc set t.elementType (itemPathElement sc t item) item := by
  rw [remove_list resolved granular,
    filterMap_eq_map_filter fun item _ => leaving_eq set t.elementType (itemPathElement sc t item) item]
  split
  · next empty => rw [List.isEmpty_iff.mp empty]; rfl
  · rfl

private theorem entries_remove {t : MapType N}
    (resolved : resolveSchema sc n.type n.value = .ok (.map t))
    (granular : t.elementRelationship ≠ .atomic) (set : FieldSet N) :
    (remove sc n.type n.value set).entries =
      (n.value.entries.filter fun entry => !set.has [.fieldName entry.1]).map fun entry =>
        (entry.1, leftOf sc set (t.fieldType entry.1) (.fieldName entry.1) entry.2) := by
  apply entries_removeItems resolved granular
  intro entry _
  unfold Remove.mapEntry leftOf
  dsimp only
  cases set.has [.fieldName entry.1] with
  | true => rfl
  | false => cases (set.withPrefix (.fieldName entry.1)).isEmpty <;> rfl

/-- Removal by a set without members leaves a value that has children. -/
theorem remove_of_isEmpty [Consistent N] {allowDuplicates : Bool}
    (valid : Valid sc allowDuplicates n)
    (empty : set.isEmpty = true) (held : kids sc n ≠ []) :
    (remove sc n.type n.value set == n.value) = true ∧
      Valid sc allowDuplicates ⟨n.type, remove sc n.type n.value set⟩ := by
  have spared : ∀ pe, (!set.has [pe]) = true := fun pe => by
    rw [FieldSet.has_of_isEmpty empty]
    rfl
  have whole : ∀ tr pe v, leftOf sc set tr pe v = v := fun _ pe _ =>
    if_pos (FieldSet.withPrefix_of_isEmpty empty pe)
  obtain ⟨alternative, resolved, fits⟩ := (valid_iff sc allowDuplicates n).mp valid
  have granular : alternative.isLeaf ≠ true := fun leaf =>
    held (kids_of_holdsItself (by simpa [holdsItself, resolved] using leaf))
  cases alternative with
  | scalar t => exact absurd rfl granular
  | list t =>
      have notAtomic : t.elementRelationship ≠ .atomic := by simpa [Alternative.isLeaf] using granular
      have items := items_remove resolved notAtomic set
      simp only [spared, whole, List.filter_true, List.map_id'] at items
      rw [kids_list resolved notAtomic, ne_eq, List.map_eq_nil_iff] at held
      obtain ⟨xs, isValue⟩ := isList_of_items held
      obtain ⟨ys, isLeft⟩ := isList_of_items (items ▸ held)
      have unchanged : remove sc n.type n.value set = n.value := by
        rw [isLeft, isValue] at items ⊢
        exact congrArg Value.list items
      rw [unchanged]
      exact ⟨beq_refl _, valid⟩
  | map t =>
      have notAtomic : t.elementRelationship ≠ .atomic := by simpa [Alternative.isLeaf] using granular
      have entries := entries_remove resolved notAtomic set
      simp only [spared, whole, List.filter_true, List.map_id'] at entries
      rw [kids_map resolved notAtomic, ne_eq, List.map_eq_nil_iff] at held
      obtain ⟨xs, isValue⟩ := isMap_of_entries held
      obtain ⟨ys, isLeft⟩ := isMap_of_entries (entries ▸ held)
      rw [isLeft, isValue] at entries ⊢
      rw [isValue] at resolved fits
      constructor
      · apply beq_map_iff.mpr
        intro name
        rw [Value.get?, entries]
        exact beq_map_iff.mp (beq_refl (.map xs)) name
      · rw [valid_iff]
        refine ⟨.map t, (resolveSchema_congr sc n.type rfl).trans resolved, Or.inr ⟨ys, rfl, ?_⟩⟩
        obtain ⟨-, -, each⟩ := fits.resolve_left (by simp)
        rwa [entries]

private theorem remove_of_leaf {allowDuplicates : Bool} (valid : Valid sc allowDuplicates n)
    (leaf : holdsItself sc n = true) (notAtomic : atomicContainer sc n = false) (set : FieldSet N) :
    remove sc n.type n.value set = n.value := by
  obtain ⟨alternative, resolved, shaped⟩ := valid.shaped
  have noContainer : n.value.isList = false ∧ n.value.isMap = false := by
    simpa [atomicContainer, leaf] using notAtomic
  cases alternative with
  | scalar t => exact remove_scalar resolved set
  | list t =>
      have isNull : n.value = .null := shaped.1.resolve_right (by simp [noContainer.1])
      rw [isNull, remove, removeItems_null]
  | map t =>
      have isNull : n.value = .null := shaped.1.resolve_right (by simp [noContainer.2])
      rw [isNull, remove, removeItems_null]

/-- What the removing walk leaves of a node that it visits. -/
theorem removed_of_visited {root : Node N} (within : Within sc root path n)
    (valid : Valid sc true n)
    (spared : ∀ {path m}, Within sc root path m → atomicContainer sc m = true →
      (FieldSet.beneath set path).isEmpty = true)
    (held : (FieldSet.beneath set path).isEmpty = true → kids sc n ≠ []) :
    Removed sc set path n (remove sc n.type n.value (FieldSet.beneath set path)) := by
  induction bound : n.value.depth using Nat.strong_induction_on generalizing n path with
  | _ depth ih =>
      subst bound
      have below : ∀ k ∈ kids sc n, Removed sc set (path ++ [k.pe]) k.node
          (leftOf sc (FieldSet.beneath set path) k.type k.pe k.value) := by
        intro k member
        unfold leftOf
        rw [← FieldSet.beneath_snoc]
        split
        · next empty => exact removed_unchanged (valid.kid member) empty
        · next visited =>
            exact ih _ (depth_lt_of_mem_kids member) (within.kid member)
              (valid.kid member) (fun empty => absurd empty visited) rfl
      obtain ⟨alternative, resolved, -⟩ := valid.shaped
      by_cases leaf : holdsItself sc n = true
      · have notAtomic : atomicContainer sc n = false := by
          rw [Bool.eq_false_iff]
          intro atomic
          exact held (spared within atomic) (kids_of_holdsItself leaf)
        rw [remove_of_leaf valid leaf notAtomic]
        exact Removed.leaf leaf
      have granular : alternative.isLeaf = false := by simpa [holdsItself, resolved] using leaf
      -- a node that loses all its children has some, so the set has members beneath it
      have bare : (∀ k ∈ kids sc n, (FieldSet.beneath set path).has [k.pe] = true) →
          BareAfterRemoval sc set path n .null := by
        intro dropped
        have members : (FieldSet.beneath set path).isEmpty = false := by
          rw [Bool.eq_false_iff]
          intro empty
          obtain ⟨k, member⟩ := List.exists_mem_of_ne_nil _ (held empty)
          have isNamed := dropped k member
          rw [FieldSet.has_of_isEmpty empty] at isNamed
          cases isNamed
        simp [BareAfterRemoval, Bool.eq_false_iff.mpr leaf, members]
      cases alternative with
      | scalar t => cases granular
      | list t =>
          have notAtomic : t.elementRelationship ≠ .atomic := by
            simpa [Alternative.isLeaf] using granular
          rw [kids_list resolved notAtomic] at below bare
          have placed := items_remove resolved notAtomic (FieldSet.beneath set path)
          have each : ∀ item ∈ n.value.items, (!set.has (path ++ [itemPathElement sc t item])) = true →
              Removed sc set (path ++ [itemPathElement sc t item]) ⟨t.elementType, item⟩
                (leftOf sc (FieldSet.beneath set path) t.elementType (itemPathElement sc t item)
                  item) :=
            fun item member _ => below (listKid sc t item) (List.mem_map_of_mem member)
          have emptied : (remove sc n.type n.value (FieldSet.beneath set path)).items = [] →
              BareAfterRemoval sc set path n
                (remove sc n.type n.value (FieldSet.beneath set path)) := by
            intro emptied
            rw [remove, removeItems_of_no_items resolved notAtomic emptied]
            rw [placed, List.map_eq_nil_iff, List.filter_eq_nil_iff] at emptied
            apply bare
            intro k member
            obtain ⟨item, inItems, rfl⟩ := List.mem_map.mp member
            exact Bool.not_not_eq.mp (emptied item inItems)
          simp only [← FieldSet.has_snoc] at placed
          exact .list resolved notAtomic _ placed emptied each
      | map t =>
          have notAtomic : t.elementRelationship ≠ .atomic := by
            simpa [Alternative.isLeaf] using granular
          rw [kids_map resolved notAtomic] at below bare
          have placed := entries_remove resolved notAtomic (FieldSet.beneath set path)
          have each : ∀ entry ∈ n.value.entries, (!set.has (path ++ [.fieldName entry.1])) = true →
              Removed sc set (path ++ [.fieldName entry.1]) ⟨t.fieldType entry.1, entry.2⟩
                (leftOf sc (FieldSet.beneath set path) (t.fieldType entry.1) (.fieldName entry.1)
                  entry.2) :=
            fun entry member _ => below (mapKid t entry) (List.mem_map_of_mem member)
          have emptied : (remove sc n.type n.value (FieldSet.beneath set path)).entries = [] →
              BareAfterRemoval sc set path n
                (remove sc n.type n.value (FieldSet.beneath set path)) := by
            intro emptied
            rw [remove, removeItems_of_no_entries resolved notAtomic emptied]
            rw [placed, List.map_eq_nil_iff, List.filter_eq_nil_iff] at emptied
            apply bare
            intro k member
            obtain ⟨entry, inEntries, rfl⟩ := List.mem_map.mp member
            exact Bool.not_not_eq.mp (emptied entry inEntries)
          simp only [← FieldSet.has_snoc] at placed
          exact .map resolved notAtomic _ placed emptied each

/-- `RemoveItems` takes away exactly the items and entries that are named or inside named
ones. -/
theorem removeItems_is_exact {tv : TypedValue N} {v : Value N} {t : MapType N}
    (isValue : tv.value = some v) (valid : tv.isValid true = true)
    (resolved : resolveSchema tv.schema.val tv.typeRef v = .ok (.map t))
    (granular : t.elementRelationship ≠ .atomic) (notEmpty : v.entries ≠ []) (set : FieldSet N)
    (spared : ∀ path m, Within tv.schema.val ⟨tv.typeRef, v⟩ path m →
      atomicContainer tv.schema.val m = true → (FieldSet.beneath set path).isEmpty = true) :
    ∃ out, tv.removeItems set = .ok { tv with value := some out } ∧
      Removed tv.schema.val set [] ⟨tv.typeRef, v⟩ out := by
  have validRoot : Valid tv.schema.val true ⟨tv.typeRef, v⟩ := by
    simp only [TypedValue.isValid, isValue, List.isEmpty_iff] at valid
    exact valid
  have held : kids tv.schema.val ⟨tv.typeRef, v⟩ ≠ [] := by
    rw [kids_map resolved granular]
    simpa using notEmpty
  have isResult : tv.removeItems set =
      .ok { tv with value := some (remove tv.schema.val tv.typeRef v set) } := by
    simp only [TypedValue.removeItems, TypedValue.removing, isValue]
  have left := removed_of_visited .root validRoot (fun within => spared _ _ within) fun _ => held
  exact ⟨_, isResult, left⟩

omit [Numeric N] in
private theorem Within.every {test : Node N → Bool} {m : Node N} (within : Within sc n path m)
    (every : everyNode sc test n = true) : everyNode sc test m = true := by
  induction within with
  | root => exact every
  | kid within member ih =>
      exact ((everyNode_iff sc test _).mp ih).2 _ member

/-- A list with a number twice. -/
private def twoThrees : TypedValue Int :=
  numberSetObject [.number 3, .number 4, .number 3]

/-- Both threes are taken out of the list. -/
theorem removeItems_takes_both_threes :
    ∃ out, twoThrees.removeItems (FieldSet.nil.insert [.fieldName "list", numberElement 3]) =
        .ok { twoThrees with value := some out } ∧
      Removed twoThrees.schema.val (FieldSet.nil.insert [.fieldName "list", numberElement 3]) []
        ⟨twoThrees.typeRef, .map [("list", .list [.number 3, .number 4, .number 3])]⟩ out := by
  have none : everyNode twoThrees.schema.val (fun m => !atomicContainer twoThrees.schema.val m)
      ⟨twoThrees.typeRef, .map [("list", .list [.number 3, .number 4, .number 3])]⟩ = true := by
    decide +kernel
  apply removeItems_is_exact rfl (by decide +kernel) rfl (by decide) (by decide)
  intro path m within atomic
  have notAtomic := ((everyNode_iff _ _ m).mp (within.every none)).1
  rw [atomic] at notAtomic
  cases notAtomic

end Removal

/-! ## Extraction -/

/-- One element is extracted from each list item that the set selects, and one entry from
each map entry. -/
def Extracted (sc : Schema N) : FieldSet N → Node N → Value N → Prop :=
  Rebuilt sc selects onward fun _ n out => out = n.value ∨ out = .null

/-- The nodes from which something is extracted, with the sets that the walk has there. -/
inductive Carries (sc : Schema N) : Node N → FieldSet N → Node N → FieldSet N → Prop
  | here (n : Node N) (set : FieldSet N) : Carries sc n set n set
  | kid {n m : Node N} {set rest : FieldSet N} {k : Kid N} (member : k ∈ kids sc n)
      (selected : selects set k.pe = true)
      (onward : Carries sc k.node (onward set k.pe) m rest) : Carries sc n set m rest

/-- The set has the item under the path element, and also something inside it. -/
def namedTwice (set : FieldSet N) (pe : PathElement N) : Bool :=
  set.has [pe] && !(set.withPrefix pe).isEmpty

/-- No list item that the walk meets is named twice. -/
def NamedOnce (sc : Schema N) (n : Node N) (set : FieldSet N) : Prop :=
  ∀ m rest, Carries sc n set m rest → ∀ t, resolveSchema sc m.type m.value = .ok (.list t) →
    ∀ k ∈ kids sc m, namedTwice rest k.pe = false

section Extraction

variable {n : Node N} {set : FieldSet N}

theorem namedOnce_iff : NamedOnce sc n set ↔
    (∀ t, resolveSchema sc n.type n.value = .ok (.list t) →
      ∀ k ∈ kids sc n, namedTwice set k.pe = false) ∧
    ∀ k ∈ kids sc n, selects set k.pe = true → NamedOnce sc k.node (onward set k.pe) := by
  constructor
  · intro once
    exact ⟨once n set (.here n set), fun k member selected m rest carries =>
      once m rest (.kid member selected carries)⟩
  · rintro ⟨here, below⟩ m rest (_ | ⟨member, selected, carries⟩)
    · exact here
    · exact below _ member selected m rest carries

private theorem listItem_extract (t : ListType N) (set : FieldSet N) (item : Value N) :
    let pe := itemPathElement sc t item
    Remove.listItem sc true (fun call =>
        removeItemsWithSchema sc call.type call.value call.toRemove true) t set item =
      if namedTwice set pe then
        [extract sc t.elementType item set, extract sc t.elementType item (set.withPrefix pe)]
      else if selects set pe then [extract sc t.elementType item (onward set pe)] else [] := by
  unfold Remove.listItem namedTwice selects onward
  dsimp only
  cases set.has [itemPathElement sc t item] <;>
    cases (set.withPrefix (itemPathElement sc t item)).isEmpty <;> rfl

section

variable {t : ListType N} (resolved : resolveSchema sc n.type n.value = .ok (.list t))
  (granular : t.elementRelationship ≠ .atomic)

include resolved granular

private theorem items_extract (set : FieldSet N) :
    (extract sc n.type n.value set).items = n.value.items.flatMap (Remove.listItem sc true
      (fun call => removeItemsWithSchema sc call.type call.value call.toRemove true) t set) := by
  rw [extract, removeItems_list resolved granular]
  split
  · next empty => rw [List.isEmpty_iff.mp empty]; rfl
  · rfl

private theorem items_extract_of_once
    (once : ∀ item ∈ n.value.items, namedTwice set (itemPathElement sc t item) = false) :
    (extract sc n.type n.value set).items =
      (n.value.items.filter fun item => selects set (itemPathElement sc t item)).map fun item =>
        extract sc t.elementType item (onward set (itemPathElement sc t item)) := by
  rw [items_extract resolved granular]
  apply flatMap_eq_map_filter
  intro item member
  rw [listItem_extract]
  simp only [once item member, Bool.false_eq_true, if_false]

private theorem once_of_items_extract {image : Value N → Value N}
    (placed : (extract sc n.type n.value set).items =
      (n.value.items.filter fun item => selects set (itemPathElement sc t item)).map image) :
    ∀ item ∈ n.value.items, namedTwice set (itemPathElement sc t item) = false := by
  rw [items_extract resolved granular] at placed
  intro item member
  have few := length_le_one_of_flatMap (fun item _ selected => ?_)
    (Nat.le_of_eq ((congrArg List.length placed).trans (List.length_map _))) item member
  · rw [Bool.eq_false_iff]
    intro twice
    rw [listItem_extract, if_pos twice] at few
    simp at few
  · rw [listItem_extract, if_pos selected]
    split <;> simp

end

private theorem entries_extract {t : MapType N}
    (resolved : resolveSchema sc n.type n.value = .ok (.map t))
    (granular : t.elementRelationship ≠ .atomic) (set : FieldSet N) :
    (extract sc n.type n.value set).entries =
      (n.value.entries.filter fun entry => selects set (.fieldName entry.1)).map fun entry =>
        (entry.1, extract sc (t.fieldType entry.1) entry.2 (onward set (.fieldName entry.1))) := by
  apply entries_removeItems resolved granular
  intro entry _
  unfold Remove.mapEntry selects onward
  dsimp only
  cases set.has [.fieldName entry.1] with
  | true => rfl
  | false => cases (set.withPrefix (.fieldName entry.1)).isEmpty <;> rfl

private theorem extract_of_childless (childless : kids sc n = []) (set : FieldSet N) :
    extract sc n.type n.value set = n.value ∨ extract sc n.type n.value set = .null := by
  cases resolved : resolveSchema sc n.type n.value with
  | error message =>
      rw [extract, removeItemsWithSchema_eq]
      simp only [Remove.body, resolved, or_true]
  | ok alternative =>
      cases alternative with
      | scalar t =>
          rw [extract, removeItemsWithSchema_eq]
          simp only [Remove.body, resolved, true_or]
      | list t =>
          by_cases atomic : t.elementRelationship = .atomic
          · rw [extract, removeItemsWithSchema_eq]
            simp only [Remove.body, resolved, Remove.doList, if_pos atomic]
            split
            · next items isList => split <;> simp [isList]
            · exact Or.inr rfl
          · rw [kids_list resolved atomic, List.map_eq_nil_iff] at childless
            apply Or.inr
            apply removeItems_of_no_items resolved atomic
            rw [items_extract resolved atomic, childless]
            rfl
      | map t =>
          by_cases atomic : t.elementRelationship = .atomic
          · rw [extract, removeItemsWithSchema_eq]
            simp only [Remove.body, resolved, Remove.doMap, if_pos atomic]
            split
            · split <;> simp
            · exact Or.inr rfl
          · rw [kids_map resolved atomic, List.map_eq_nil_iff] at childless
            apply Or.inr
            apply removeItems_of_no_entries resolved atomic
            rw [entries_extract resolved atomic, childless]
            rfl

theorem extracted_of_namedOnce (once : NamedOnce sc n set) :
    Extracted sc set n (extract sc n.type n.value set) := by
  induction bound : n.value.depth using Nat.strong_induction_on generalizing n set with
  | _ depth ih =>
      subst bound
      obtain ⟨here, below⟩ := namedOnce_iff.mp once
      by_cases childless : kids sc n = []
      · exact .whole childless (extract_of_childless childless set)
      have deeper : ∀ k ∈ kids sc n, selects set k.pe = true →
          Extracted sc (onward set k.pe) k.node (extract sc k.type k.value (onward set k.pe)) :=
        fun k member selected =>
          ih _ (depth_lt_of_mem_kids member) (below k member selected) rfl
      obtain ⟨k, member⟩ := List.exists_mem_of_ne_nil _ childless
      rcases mem_kids member with ⟨t, -, resolved, granular, -, -⟩ | ⟨t, -, resolved, granular, -, -⟩
      · rw [kids_list resolved granular] at here deeper
        have placed := items_extract_of_once resolved granular fun item member =>
          here t resolved (listKid sc t item) (List.mem_map_of_mem member)
        have each : ∀ item ∈ n.value.items, selects set (itemPathElement sc t item) = true →
            Extracted sc (onward set (itemPathElement sc t item)) ⟨t.elementType, item⟩
              (extract sc t.elementType item (onward set (itemPathElement sc t item))) :=
          fun item member => deeper (listKid sc t item) (List.mem_map_of_mem member)
        exact .list resolved granular _ placed
          (fun emptied => Or.inr (removeItems_of_no_items resolved granular emptied)) each
      · rw [kids_map resolved granular] at deeper
        have each : ∀ entry ∈ n.value.entries, selects set (.fieldName entry.1) = true →
            Extracted sc (onward set (.fieldName entry.1)) ⟨t.fieldType entry.1, entry.2⟩
              (extract sc (t.fieldType entry.1) entry.2 (onward set (.fieldName entry.1))) :=
          fun entry member => deeper (mapKid t entry) (List.mem_map_of_mem member)
        exact .map resolved granular _ (entries_extract resolved granular set)
          (fun emptied => Or.inr (removeItems_of_no_entries resolved granular emptied)) each

theorem namedOnce_of_extracted (extracted : Extracted sc set n (extract sc n.type n.value set)) :
    NamedOnce sc n set := by
  induction bound : n.value.depth using Nat.strong_induction_on generalizing n set with
  | _ depth ih =>
      subst bound
      rw [namedOnce_iff]
      cases extracted with
      | whole childless isBare => simp [childless]
      | @list _ _ _ t resolved granular image placed emptied each =>
          have once := once_of_items_extract resolved granular placed
          have images := placed.symm.trans (items_extract_of_once resolved granular once)
          rw [List.map_inj_left] at images
          rw [kids_list resolved granular]
          constructor
          · intro other _ k member
            obtain ⟨item, inItems, rfl⟩ := List.mem_map.mp member
            exact once item inItems
          · intro k member selected
            obtain ⟨item, inItems, rfl⟩ := List.mem_map.mp member
            have isImage := images item (List.mem_filter.mpr ⟨inItems, selected⟩)
            have extracted := each item inItems selected
            rw [isImage] at extracted
            exact ih _ (depth_lt_of_mem_items inItems) extracted rfl
      | @map _ _ _ t resolved granular image placed emptied each =>
          have images := placed.symm.trans (entries_extract resolved granular set)
          rw [List.map_inj_left] at images
          rw [kids_map resolved granular]
          constructor
          · intro other isList
            cases Except.ok.inj (isList.symm.trans resolved)
          · intro k member selected
            obtain ⟨entry, inEntries, rfl⟩ := List.mem_map.mp member
            have isImage : image entry = _ := congrArg Prod.snd
              (images entry (List.mem_filter.mpr ⟨inEntries, selected⟩))
            have extracted := each entry inEntries selected
            rw [isImage] at extracted
            exact ih _ (depth_lt_of_mem_entries inEntries) extracted rfl

/-- `ExtractItems` makes one element of every list item it keeps exactly if no list item it
meets is named twice. -/
theorem extractItems_one_per_item_iff (sc : Pointer (Schema N)) (tr : TypeRef N) (v : Value N)
    (set : FieldSet N) :
    ∃ out, TypedValue.extractItems { value := some v, typeRef := tr, schema := sc } set =
        .ok { value := some out, typeRef := tr, schema := sc } ∧
      (Extracted sc.val set ⟨tr, v⟩ out ↔ NamedOnce sc.val ⟨tr, v⟩ set) := by
  have isResult : TypedValue.extractItems { value := some v, typeRef := tr, schema := sc } set =
      .ok { value := some (extract sc.val tr v set), typeRef := tr, schema := sc } := by
    unfold TypedValue.extractItems TypedValue.removing
    rfl
  exact ⟨_, isResult, namedOnce_of_extracted, extracted_of_namedOnce⟩

/-- An item with its keys, extracted with its own field set: what comes out of its list has
two elements, null and the item. -/
theorem extractItems_doubles_item :
    (twoKeyObject [(.int 1, .int 2)]).isValid false = true ∧
      (match (twoKeyObject [(.int 1, .int 2)]).toFieldSet with
        | .ok set =>
            match (twoKeyObject [(.int 1, .int 2)]).extractItems set with
            | .ok out => (out.value.map fun v => v.get? "items") ==
                some (some (.list [.null, .map [("i", .number (.int 1)), ("j", .number (.int 2))]]))
            | .error _ => false
        | .error _ => false) = true := by
  decide +kernel

end Extraction

end StructuredMergeDiff.Typed
