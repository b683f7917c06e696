import StructuredMergeDiff.Merge.Realised
import StructuredMergeDiff.Typed.MergeErrors

/-!
Contract: what pruning removes, for one version.

Of what the applier had and does not apply again, pruning removes what nobody owns.
The second pass removes the unowned paths, and the third what the second has removed
and the applier had. An item whose key nobody owns loses its name in the second pass,
and then counts as removed with all that is inside it.

Owns: for each leaf of the merged object, when it is in the pruned one; and when this
is decided by the paths on the way to it alone.
-/

namespace StructuredMergeDiff.Merge

open Library Typed FieldSet FiniteMap

variable {N E : Type} [Numeric N]

/-! ## Owned paths -/

/-- The sets of all managers, united. -/
def unionOfSets (managers : ManagedFields N) : FieldSet N :=
  managers.foldl (fun union entry => union.union entry.2.set) .nil

section Paths

variable (sc : Schema N) (tr : TypeRef N) (last owned : FieldSet N)

/-- The applier had the path, and nobody owns it. -/
def Dropped (path : Path N) : Prop :=
  (last.ensureNamedFieldsAreMembers sc tr).has path = true ∧
    (owned.ensureNamedFieldsAreMembers sc tr).has path = false

/-- All list items, entries that are not declared as fields, scalars and values that are
handled as a whole are in one of the sets. -/
def Covered (n : Node N) (last owned : FieldSet N) : Prop :=
  ∀ path mid k, mid ∈ nodesAt sc n path → k ∈ kids sc mid →
    (k.named = true ∨ holdsItself sc k.node = true) →
    last.has (path ++ [k.pe]) = true ∨ owned.has (path ++ [k.pe]) = true

/-- A path on the way is dropped. -/
def DroppedOnWay (path : Path N) : Prop :=
  ∃ first rest, path = first ++ rest ∧ first ≠ [] ∧ Dropped sc tr last owned first

/-- A key of an item that the path leads through is dropped. -/
def DroppedKey (path : Path N) : Prop :=
  ∃ first fields rest, path = first ++ .key fields :: rest ∧ rest ≠ [] ∧
    ∃ field ∈ fields.fields,
      Dropped sc tr last owned (first ++ [.key fields, .fieldName field.name])

/-- A leaf is absent from the pruned value exactly if a path on the way to it is dropped,
and otherwise it is there as it was. -/
def PrunesExactly (merged pruned : Value N) : Prop :=
  ∀ path leaf, path ≠ [] → leaf ∈ nodesAt sc ⟨tr, merged⟩ path → isLeaf sc leaf = true →
    (nodesAt sc ⟨tr, pruned⟩ path = [] ↔ DroppedOnWay sc tr last owned path) ∧
      (¬ DroppedOnWay sc tr last owned path → nodesAt sc ⟨tr, pruned⟩ path = [leaf])

/-- The items on the way to a leaf that is not dropped keep their keys. -/
def KeepsKeys (merged : Value N) : Prop :=
  ∀ path leaf, path ≠ [] → leaf ∈ nodesAt sc ⟨tr, merged⟩ path → isLeaf sc leaf = true →
    ¬ DroppedOnWay sc tr last owned path → ¬ DroppedKey sc tr last owned path

end Paths

variable [Consistent N] {sc : Schema N} {tr : TypeRef N}

/-! ## Covered paths -/

section Covered

variable {n mid leaf : Node N} {last owned : FieldSet N} {first rest path : Path N}

omit [Consistent N] in
theorem Covered.kid {v x : Value N} {pe : PathElement N} (covered : Covered sc ⟨tr, v⟩ last owned)
    (proper : pe.isProper = true) (only : kidValues sc tr (some v) pe = [x]) :
    Covered sc ⟨kidType sc tr pe, x⟩ (last.withPrefix pe) (owned.withPrefix pe) := by
  intro path mid k inNodes inKids recorded
  rw [← has_cons _ _ (by simp), ← has_cons _ _ (by simp)]
  apply covered (pe :: path) mid k _ inKids recorded
  rw [nodesAt_cons_kid proper only]
  exact inNodes

/-- A value is covered if its children are, and what is inside them. -/
theorem Covered.of_kids (canonicalLast : last.Canonical) (canonicalOwned : owned.Canonical)
    (here : ∀ k ∈ kids sc n, (k.named = true ∨ holdsItself sc k.node = true) →
      last.has [k.pe] = true ∨ owned.has [k.pe] = true)
    (below : ∀ k ∈ kids sc n, Covered sc k.node (last.withPrefix k.pe) (owned.withPrefix k.pe)) :
    Covered sc n last owned := by
  intro path mid k inNodes inKids reported
  cases path with
  | nil =>
      cases List.mem_singleton.mp inNodes
      exact here k inKids reported
  | cons pe rest =>
      obtain ⟨next, inKidsAt, within⟩ := List.mem_flatMap.mp inNodes
      obtain ⟨isKid, same⟩ := mem_kidsAt.mp inKidsAt
      have inOne := below next isKid rest mid k within inKids reported
      rw [withPrefix_congr canonicalLast same,
        withPrefix_congr canonicalOwned same] at inOne
      rwa [List.cons_append, has_cons _ _ (by simp), has_cons _ _ (by simp)]

omit [Consistent N] in
theorem covered_of_no_kids (none : kids sc n = []) : Covered sc n last owned := by
  intro path mid k inNodes inKids
  cases path with
  | nil =>
      cases List.mem_singleton.mp inNodes
      rw [none] at inKids
      cases inKids
  | cons pe rest => simp [nodesAt, kidsAt, none] at inNodes

/-- A value with children that have children, and nothing inside those. -/
theorem covered_of_two_levels (canonicalLast : last.Canonical) (canonicalOwned : owned.Canonical)
    (here : ∀ k ∈ kids sc n, (k.named = true ∨ holdsItself sc k.node = true) →
      last.has [k.pe] = true ∨ owned.has [k.pe] = true)
    (below : ∀ k ∈ kids sc n, ∀ item ∈ kids sc k.node, (kids sc item.node).isEmpty = true ∧
      ((item.named = true ∨ holdsItself sc item.node = true) →
        (last.withPrefix k.pe).has [item.pe] = true ∨
          (owned.withPrefix k.pe).has [item.pe] = true)) : Covered sc n last owned := by
  apply Covered.of_kids canonicalLast canonicalOwned here
  intro k isKid
  apply Covered.of_kids (withPrefix_canonical canonicalLast _)
    (withPrefix_canonical canonicalOwned _)
  · exact fun item isItem => (below k isKid item isItem).2
  · intro item isItem
    apply covered_of_no_kids
    exact List.isEmpty_iff.mp (below k isKid item isItem).1

/-- What is recorded on the way to a leaf is covered. -/
theorem Covered.recorded (covered : Covered sc n last owned) (canonicalLast : last.Canonical)
    (canonicalOwned : owned.Canonical) (spine : Spine sc n first mid) (proper : first ≠ [])
    (recorded : Recorded sc n first) (held : holdsItself sc mid = true ∨ kids sc mid ≠ []) :
    last.has first = true ∨ owned.has first = true := by
  induction spine generalizing last owned with
  | root n => exact absurd rfl proper
  | @step tr v x pe later mid properPe only onward ih =>
      obtain ⟨k, found, isNode⟩ := kidsAt_of_only properPe only
      have member : k ∈ kidsAt sc ⟨tr, v⟩ pe := by simp [found]
      obtain ⟨inKids, same⟩ := mem_kidsAt.mp member
      rw [recorded_cons, found] at recorded
      by_cases isLast : later = []
      · subst isLast
        cases onward
        have reported : k.named = true ∨ holdsItself sc k.node = true := by
          rcases recorded with whole | ⟨-, always⟩
          · exact Or.inr ((recorded_root _).mp whole)
          · rcases held with leaf | notEmpty
            · exact Or.inr (isNode ▸ leaf)
            · rcases (Bool.or_eq_true _ _).mp always with named | hollow
              · exact Or.inl named
              · rw [← isNode] at notEmpty
                exact absurd (kids_of_isNullOrEmptyMap hollow) notEmpty
        have inOne := covered [] _ k (List.mem_singleton_self _) inKids reported
        rwa [List.nil_append, has_single_congr canonicalLast same,
          has_single_congr canonicalOwned same] at inOne
      · have recordedKid : Recorded sc k.node later := by
          rcases recorded with below | ⟨isRoot, -⟩
          · exact below
          · exact absurd isRoot isLast
        rw [has_cons _ _ isLast, has_cons _ _ isLast]
        rw [isNode] at recordedKid
        exact ih (covered.kid properPe only)
          (withPrefix_canonical canonicalLast pe)
          (withPrefix_canonical canonicalOwned pe) isLast recordedKid held

/-- All that is above a leaf is in one of the sets, with the declared fields. -/
theorem Covered.way (covered : Covered sc n last owned) (canonicalLast : last.Canonical)
    (canonicalOwned : owned.Canonical) (leafPath : LeafPath sc n path leaf)
    (isPath : path = first ++ rest) (proper : first ≠ []) :
    (last.ensureNamedFieldsAreMembers sc n.type).has first = true ∨
      (owned.ensureNamedFieldsAreMembers sc n.type).has first = true := by
  subst isPath
  rw [has_ensure canonicalLast, has_ensure canonicalOwned]
  have whole := covered.recorded canonicalLast canonicalOwned leafPath.spine leafPath.proper
    (leafPath.spine.recorded leafPath.leaf) (Or.inl leafPath.leaf)
  by_cases isLast : rest = []
  · rw [isLast, List.append_nil] at whole
    exact whole.imp Or.inl Or.inl
  · obtain ⟨mid, before, after⟩ := leafPath.spine.split
    rcases before.recorded_or_declared after proper with recorded | declared
    · have notEmpty : kids sc mid ≠ [] := by
        intro none
        have through := after.nodesAt_eq
        obtain ⟨next, others, rfl⟩ := List.exists_cons_of_ne_nil isLast
        simp [nodesAt, kidsAt, none] at through
      exact (covered.recorded canonicalLast canonicalOwned before proper recorded
        (Or.inr notEmpty)).imp Or.inl Or.inl
    · exact whole.imp (fun has => Or.inr ⟨declared, rest, isLast, has⟩)
        fun has => Or.inr ⟨declared, rest, isLast, has⟩

end Covered

/-! ## The passes at a leaf -/

section Passes

variable {m : Value N} {last owned : FieldSet N} {path first rest : Path N} {leaf : Node N}

/-- What the second pass removes. -/
private def unowned (sc : Schema N) (tr : TypeRef N) (m : Value N) (last owned : FieldSet N) :
    FieldSet N :=
  (ensured sc ⟨tr, m⟩).difference
    ((ensured sc ⟨tr, remove sc tr m (last.ensureNamedFieldsAreMembers sc tr)⟩).union
      (owned.ensureNamedFieldsAreMembers sc tr))

/-- What the third pass removes. -/
private def dangling (sc : Schema N) (tr : TypeRef N) (m : Value N) (last owned : FieldSet N) :
    FieldSet N :=
  ((ensured sc ⟨tr, m⟩).difference
    (ensured sc ⟨tr, remove sc tr m (unowned sc tr m last owned)⟩)).intersection
      (last.ensureNamedFieldsAreMembers sc tr)

/-- The set has no path on the way, and no key of an item that the path leads through. -/
private structure Untouched (set : FieldSet N) (path : Path N) : Prop where
  way : ∀ first rest, path = first ++ rest → first ≠ [] → set.has first = false
  keys : ∀ first fields rest, path = first ++ .key fields :: rest → rest ≠ [] →
    ∀ field ∈ fields.fields, set.has (first ++ [.key fields, .fieldName field.name]) = false

omit [Consistent N] in
private theorem untouched_of_spares {set : FieldSet N} {fields : FieldList N}
    (spares : Spares set (first ++ [.key fields])) {field : Field N}
    (member : field ∈ fields.fields) :
    Untouched set (first ++ [.key fields, .fieldName field.name]) := by
  have isKey : first ++ [.key fields, .fieldName field.name] =
      (first ++ [.key fields]) ++ [.fieldName field.name] := by simp
  constructor
  · intro before after same proper
    have start : before <+: (first ++ [.key fields]) ++ [.fieldName field.name] :=
      ⟨after, by rw [← same, isKey]⟩
    rcases List.prefix_concat_iff.mp start with whole | ⟨between, isItem⟩
    · -- Only the key itself is not on the way of the item.
      rw [whole, ← isKey]
      exact spares.keys first fields [] rfl field member
    · exact spares.way before between isItem.symm proper
  · intro before others after same later other inOthers
    have start : before ++ [.key others] <+: (first ++ [.key fields]) ++ [.fieldName field.name] :=
      ⟨after, by rw [← isKey, same, List.append_assoc]; rfl⟩
    rcases List.prefix_concat_iff.mp start with whole | ⟨between, isItem⟩
    · have lastOfBoth := congrArg List.getLast? whole
      simp at lastOfBoth
    · exact spares.keys before others between (by rw [← isItem]; simp) other inOthers

omit [Consistent N] in
private theorem Untouched.key {set : FieldSet N} {fields : FieldList N}
    (untouched : Untouched set (first ++ .key fields :: rest)) (below : rest ≠ []) {field : Field N}
    (member : field ∈ fields.fields) :
    Untouched set (first ++ [.key fields, .fieldName field.name]) := by
  have isPath : first ++ .key fields :: rest = (first ++ [.key fields]) ++ rest := by simp
  refine untouched_of_spares ⟨fun before after same proper => ?_,
    fun before others after same => ?_⟩ member
  · exact untouched.way before (after ++ rest) (by rw [isPath, same, List.append_assoc]) proper
  · exact untouched.keys before others (after ++ rest) (by rw [isPath, same]; simp) (by simp [below])

variable (sound : Sound sc false ⟨tr, m⟩) (stable : StableKeys sc tr)
  (canonicalLast : last.Canonical) (canonicalOwned : owned.Canonical)

include canonicalOwned

private theorem unowned_canonical : (unowned sc tr m last owned).Canonical :=
  difference_canonical (ensured_canonical _)
    (union_canonical (ensured_canonical _)
      (ensure_canonical canonicalOwned sc tr).1)

private theorem has_unowned : (unowned sc tr m last owned).has path = true ↔
    (ensured sc ⟨tr, m⟩).has path = true ∧
      (ensured sc ⟨tr, remove sc tr m (last.ensureNamedFieldsAreMembers sc tr)⟩).has path =
        false ∧
      (owned.ensureNamedFieldsAreMembers sc tr).has path = false := by
  have canonicalEnsured := (ensure_canonical canonicalOwned sc tr).1
  rw [unowned, has_difference (ensured_canonical _)
    (union_canonical (ensured_canonical _) canonicalEnsured),
    has_union (ensured_canonical _) canonicalEnsured]
  simp

private theorem unowned_inside : Inside sc ⟨tr, m⟩ (unowned sc tr m last owned) :=
  fun path has => ensured_inside _ path ((has_unowned canonicalOwned).mp has).1

include sound stable canonicalLast

section

variable (covered : Covered sc ⟨tr, m⟩ last owned) (leafPath : LeafPath sc ⟨tr, m⟩ path leaf)

include covered leafPath

private theorem has_unowned_way (isPath : path = first ++ rest) (proper : first ≠ []) :
    (unowned sc tr m last owned).has first = true ↔ Dropped sc tr last owned first := by
  rw [has_unowned canonicalOwned, Dropped]
  constructor
  · rintro ⟨-, -, notOwned⟩
    have inOne := covered.way canonicalLast canonicalOwned leafPath isPath proper
    exact ⟨inOne.resolve_right (by simp [notOwned]), notOwned⟩
  · rintro ⟨had, notOwned⟩
    refine ⟨leafPath.ensured_way isPath proper, ?_, notOwned⟩
    rw [Bool.eq_false_iff]
    intro stays
    rw [isPath] at leafPath
    obtain ⟨mid, before, -⟩ := leafPath.spine.split
    have spares := spares_of_found before sound stable
      (ensure_canonical canonicalLast sc tr).1 (ensured_inside _ first stays)
    rw [spares.way first [] (by simp) proper] at had
    cases had

private theorem not_found_of_dropped (isPath : path = first ++ rest) (proper : first ≠ [])
    (dropped : Dropped sc tr last owned first) :
    nodesAt sc ⟨tr, remove sc tr m (unowned sc tr m last owned)⟩ first = [] := by
  by_contra found
  have isUnowned := (has_unowned_way sound stable canonicalLast canonicalOwned covered leafPath
    isPath proper).mpr dropped
  rw [isPath] at leafPath
  obtain ⟨mid, before, -⟩ := leafPath.spine.split
  have spares := spares_of_found before sound stable (unowned_canonical canonicalOwned) found
  rw [spares.way first [] (by simp) proper] at isUnowned
  cases isUnowned

private theorem untouched_of_kept (way : ¬ DroppedOnWay sc tr last owned path)
    (keys : ¬ DroppedKey sc tr last owned path) :
    Untouched (unowned sc tr m last owned) path := by
  constructor
  · intro first rest isPath proper
    rw [Bool.eq_false_iff]
    intro isUnowned
    exact way ⟨first, rest, isPath, proper, (has_unowned_way sound stable canonicalLast
      canonicalOwned covered leafPath isPath proper).mp isUnowned⟩
  · intro first fields rest isPath below field member
    subst isPath
    obtain ⟨key, keyPath⟩ := (LeafPath.key sound stable leafPath member).resolve_left below
    rw [Bool.eq_false_iff]
    intro isUnowned
    exact keys ⟨first, fields, rest, rfl, below, field, member, (has_unowned_way sound stable
      canonicalLast canonicalOwned covered keyPath (List.append_nil _).symm keyPath.proper).mp
        isUnowned⟩

end

omit canonicalLast in
private theorem LeafPath.stays (leafPath : LeafPath sc ⟨tr, m⟩ path leaf)
    (untouched : Untouched (unowned sc tr m last owned) path) :
    LeafPath sc ⟨tr, remove sc tr m (unowned sc tr m last owned)⟩ path leaf :=
  leafPath.left sound stable (unowned_canonical canonicalOwned) (unowned_inside canonicalOwned)
    untouched.way untouched.keys

omit canonicalOwned sound stable

private theorem dangling_canonical : (dangling sc tr m last owned).Canonical :=
  intersection_canonical
    (difference_canonical (ensured_canonical _) (ensured_canonical _))
    (ensure_canonical canonicalLast sc tr).1

private theorem has_dangling : (dangling sc tr m last owned).has path = true ↔
    (ensured sc ⟨tr, m⟩).has path = true ∧
      (ensured sc ⟨tr, remove sc tr m (unowned sc tr m last owned)⟩).has path = false ∧
      (last.ensureNamedFieldsAreMembers sc tr).has path = true := by
  rw [dangling, has_intersection
    (difference_canonical (ensured_canonical _) (ensured_canonical _))
    (ensure_canonical canonicalLast sc tr).1,
    has_difference (ensured_canonical _) (ensured_canonical _)]
  simp [and_assoc]

include sound stable canonicalOwned

private theorem has_dangling_of_dropped (covered : Covered sc ⟨tr, m⟩ last owned)
    (leafPath : LeafPath sc ⟨tr, m⟩ path leaf) (isPath : path = first ++ rest)
    (proper : first ≠ []) (dropped : Dropped sc tr last owned first) :
    (dangling sc tr m last owned).has first = true := by
  refine (has_dangling canonicalLast).mpr ⟨leafPath.ensured_way isPath proper, ?_, dropped.1⟩
  rw [Bool.eq_false_iff]
  intro stays
  exact ensured_inside _ first stays (not_found_of_dropped sound stable canonicalLast
    canonicalOwned covered leafPath isPath proper dropped)

private theorem pruned_of_dropped (covered : Covered sc ⟨tr, m⟩ last owned)
    (leafPath : LeafPath sc ⟨tr, m⟩ path leaf)
    (dropped : DroppedOnWay sc tr last owned path ∨ DroppedKey sc tr last owned path) :
    nodesAt sc ⟨tr, remove sc tr m (dangling sc tr m last owned)⟩ path = [] := by
  by_contra found
  have spares := spares_of_found leafPath.spine sound stable (dangling_canonical canonicalLast)
    found
  rcases dropped with ⟨first, rest, isPath, proper, onWay⟩ |
    ⟨first, fields, rest, rfl, below, field, member, ofKey⟩
  · have isDangling := has_dangling_of_dropped sound stable canonicalLast canonicalOwned covered
      leafPath isPath proper onWay
    rw [spares.way first rest isPath proper] at isDangling
    cases isDangling
  · obtain ⟨key, keyPath⟩ := (LeafPath.key sound stable leafPath member).resolve_left below
    have isDangling := has_dangling_of_dropped sound stable canonicalLast canonicalOwned covered
      keyPath (List.append_nil _).symm keyPath.proper ofKey
    rw [spares.keys first fields rest rfl field member] at isDangling
    cases isDangling

private theorem pruned_of_untouched (leafPath : LeafPath sc ⟨tr, m⟩ path leaf)
    (untouched : Untouched (unowned sc tr m last owned) path) :
    Spine sc ⟨tr, remove sc tr m (dangling sc tr m last owned)⟩ path leaf := by
  have notDangling : ∀ {other first rest node}, LeafPath sc ⟨tr, m⟩ other node →
      Untouched (unowned sc tr m last owned) other → other = first ++ rest → first ≠ [] →
      (dangling sc tr m last owned).has first = false := by
    intro other first rest node otherPath otherUntouched isOther proper
    have stays := LeafPath.stays sound stable canonicalOwned otherPath otherUntouched
    rw [Bool.eq_false_iff]
    intro isDangling
    have gone := ((has_dangling canonicalLast).mp isDangling).2.1
    rw [stays.ensured_way isOther proper] at gone
    cases gone
  have stays : LeafPath sc ⟨tr, remove sc tr m (dangling sc tr m last owned)⟩ path leaf := by
    apply leafPath.left sound stable (dangling_canonical canonicalLast)
    · exact fun other has => ensured_inside _ other ((has_dangling canonicalLast).mp has).1
    · exact fun first rest => notDangling leafPath untouched
    · intro first fields rest isPath below field member
      subst isPath
      obtain ⟨key, keyPath⟩ := (LeafPath.key sound stable leafPath member).resolve_left below
      exact notDangling keyPath (untouched.key below member) (List.append_nil _).symm keyPath.proper
  exact stays.spine

/-- An item stays if all paths on the way to it are owned, and the keys of the items. -/
theorem item_of_owned {pe : PathElement N} {node : Node N}
    (spine : Spine sc ⟨tr, m⟩ (first ++ [pe]) node) (notField : ∀ name, pe ≠ .fieldName name)
    (way : ∀ before after, first ++ [pe] = before ++ after → before ≠ [] →
      (owned.ensureNamedFieldsAreMembers sc tr).has before = true)
    (keys : ∀ before fields after, first ++ [pe] = before ++ .key fields :: after →
      ∀ field ∈ fields.fields, (owned.ensureNamedFieldsAreMembers sc tr).has
        (before ++ [.key fields, .fieldName field.name]) = true) :
    ∃ node, Spine sc ⟨tr, pruneValue sc tr m last [owned]⟩ (first ++ [pe]) node := by
  have notUnowned : ∀ {other}, (owned.ensureNamedFieldsAreMembers sc tr).has other = true →
      (unowned sc tr m last owned).has other = false := by
    intro other isOwned
    rw [Bool.eq_false_iff]
    intro isUnowned
    rw [((has_unowned canonicalOwned).mp isUnowned).2.2] at isOwned
    cases isOwned
  have spares : Spares (unowned sc tr m last owned) (first ++ [pe]) :=
    ⟨fun before after isPath proper => notUnowned (way before after isPath proper),
      fun before fields after isPath field member =>
        notUnowned (keys before fields after isPath field member)⟩
  rcases spine.item_leaf sound stable notField with
    leafPath | ⟨fields, rfl, field, isField, key, keyPath⟩
  · exact ⟨_, pruned_of_untouched sound stable canonicalLast canonicalOwned leafPath
      ⟨spares.way, fun before fields after isPath _ => spares.keys before fields after isPath⟩⟩
  · have stays := pruned_of_untouched sound stable canonicalLast canonicalOwned keyPath
      (untouched_of_spares spares isField)
    rw [List.append_cons] at stays
    obtain ⟨node, onward, -⟩ := stays.split
    exact ⟨node, onward⟩

/-- A leaf goes exactly if a path on the way to it is dropped, or a key of an item that it
is in. -/
theorem pruned_cases (covered : Covered sc ⟨tr, m⟩ last owned)
    (leafPath : LeafPath sc ⟨tr, m⟩ path leaf) :
    (DroppedOnWay sc tr last owned path ∨ DroppedKey sc tr last owned path) ∧
        nodesAt sc ⟨tr, pruneValue sc tr m last [owned]⟩ path = [] ∨
      ¬ (DroppedOnWay sc tr last owned path ∨ DroppedKey sc tr last owned path) ∧
        Spine sc ⟨tr, pruneValue sc tr m last [owned]⟩ path leaf := by
  by_cases dropped : DroppedOnWay sc tr last owned path ∨ DroppedKey sc tr last owned path
  · exact Or.inl ⟨dropped, pruned_of_dropped sound stable canonicalLast canonicalOwned covered
      leafPath dropped⟩
  · obtain ⟨way, keys⟩ := not_or.mp dropped
    exact Or.inr ⟨dropped, pruned_of_untouched sound stable canonicalLast canonicalOwned leafPath
      (untouched_of_kept sound stable canonicalLast canonicalOwned covered leafPath way keys)⟩

/-- Pruning with one set of owned paths is exact if, and only if, no key is dropped whose
item has to stay. -/
theorem prunesExactly_iff (covered : Covered sc ⟨tr, m⟩ last owned) :
    PrunesExactly sc tr last owned m (pruneValue sc tr m last [owned]) ↔
      KeepsKeys sc tr last owned m := by
  have cases := fun {path leaf} (proper : path ≠ []) (member : leaf ∈ nodesAt sc ⟨tr, m⟩ path)
      (isLeaf : isLeaf sc leaf = true) =>
    pruned_cases sound stable canonicalLast canonicalOwned covered
      ⟨proper, spine_of_mem sound member, holdsItself_of_isLeaf isLeaf⟩
  constructor
  · intro exactly path leaf proper member isLeaf way ofKey
    rcases cases proper member isLeaf with ⟨-, gone⟩ | ⟨notDropped, -⟩
    · rw [(exactly path leaf proper member isLeaf).2 way] at gone
      cases gone
    · exact notDropped (Or.inr ofKey)
  · intro keepsKeys path leaf proper member isLeaf
    rcases cases proper member isLeaf with ⟨dropped, gone⟩ | ⟨notDropped, stays⟩
    · have onWay : DroppedOnWay sc tr last owned path := by
        by_contra way
        exact keepsKeys path leaf proper member isLeaf way (dropped.resolve_left way)
      exact ⟨iff_of_true gone onWay, fun way => absurd onWay way⟩
    · refine ⟨iff_of_false ?_ fun onWay => notDropped (Or.inl onWay), fun _ => stays.nodesAt_eq⟩
      rw [stays.nodesAt_eq]
      simp

end Passes

/-! ## One version -/

section Version

variable {managers : ManagedFields N} {version : APIVersion}
  (canonical : ∀ entry ∈ managers, entry.2.set.Canonical)

include canonical

theorem unionOfSets_spec : (unionOfSets managers).Canonical ∧ ∀ path,
    (unionOfSets managers).has path = true ↔ ∃ entry ∈ managers, entry.2.set.has path = true := by
  unfold unionOfSets
  induction managers using List.reverseRecOn with
  | nil => exact ⟨nil_canonical, by simp⟩
  | append_singleton before entry ih =>
      obtain ⟨canonicalBefore, hasBefore⟩ := ih fun other member =>
        canonical other (List.mem_append_left _ member)
      have canonicalEntry := canonical entry (by simp)
      rw [List.foldl_append, List.foldl_cons, List.foldl_nil]
      refine ⟨union_canonical canonicalBefore canonicalEntry, fun path => ?_⟩
      rw [has_union canonicalBefore canonicalEntry, Bool.or_eq_true, hasBefore]
      simp [or_and_right, exists_or]

/-- Managers of one version are given to one pass, with what they own together. -/
theorem managedSets_of_oneVersion (orders : Orders) (notNone : managers ≠ [])
    (oneVersion : ∀ entry ∈ managers, entry.2.apiVersion = version) :
    ∃ set, managedSets orders managers version = [set] ∧ set.Canonical ∧
      ∀ path, set.has path = true ↔ ∃ entry ∈ managers, entry.2.set.has path = true := by
  have collects := collects_managedAtVersion orders canonical
  have noOther : (Updater.managedAtVersion orders managers).erase version = [] := by
    rw [List.eq_nil_iff_forall_not_mem]
    rintro ⟨other, set⟩ member
    have found := get?_of_mem
      (erase_distinct (managedAtVersion_distinct orders managers) version) member
    rw [get?_erase] at found
    split at found
    · cases found
    · next differs =>
        have collected := collects other
        rw [found] at collected
        obtain ⟨entry, inManagers, isOther⟩ := collected.2.1
        exact differs ((oneVersion entry inManagers).symm.trans isOther)
  have collected := collects version
  cases found : (Updater.managedAtVersion orders managers).get? version with
  | none =>
      rw [found] at collected
      obtain ⟨entry, member⟩ := List.exists_mem_of_ne_nil _ notNone
      exact absurd (oneVersion entry member) (collected entry member)
  | some set =>
      rw [found] at collected
      refine ⟨set, ?_, collected.1, fun path => ?_⟩
      · have arranged := (orders.versions.perm ([] : List (APIVersion × FieldSet N))).length_eq
        rw [managedSets, noOther, found, List.length_eq_zero_iff.mp arranged]
        rfl
      · rw [collected.2.2 path]
        exact exists_congr fun entry => and_congr_right fun member => by
          simp [oneVersion entry member]

end Version

/-- Only the paths of the sets matter for what is dropped. -/
theorem dropped_congr {last owned other : FieldSet N} (canonicalOwned : owned.Canonical)
    (canonicalOther : other.Canonical)
    (same : ∀ path, owned.has path = true ↔ other.has path = true) :
    Dropped sc tr last owned = Dropped sc tr last other := by
  funext path
  have ensures : (owned.ensureNamedFieldsAreMembers sc tr).has path =
      (other.ensureNamedFieldsAreMembers sc tr).has path := by
    rw [Bool.eq_iff_iff, has_ensure canonicalOwned, has_ensure canonicalOther]
    simp only [HasBeneath, same]
  rw [Dropped, Dropped, ensures]

/-- The conditions of a pruning in one version that may remove all of the merged object. -/
structure Prunable (u : Updater N E) (merged : TypedValue N) (managers : ManagedFields N)
    (manager : String) (last : VersionedSet N) : Prop where
  identity : u.converter = .identity
  sound : SoundObject false merged
  notEmpty : last.set.isEmpty = false
  canonicalLast : last.set.Canonical
  canonical : ∀ entry ∈ managers, entry.2.set.Canonical
  oneVersion : ∀ entry ∈ managers, entry.2.apiVersion = last.apiVersion
  applied : ∃ entry, managers.get? manager = some entry
  covered : ∀ m, merged.value = some m →
    Covered merged.schema.val ⟨merged.typeRef, m⟩ last.set (unionOfSets managers)

omit [Consistent N] in
/-- The paths of numbers do not lead through items with keys. -/
theorem numberPath_beq_key (number : N) (first rest : Path N) (fields : FieldList N) :
    (numberPath number == first ++ .key fields :: rest) = false := by
  cases first with
  | nil => rfl
  | cons pe later =>
      cases later with
      | nil =>
          have differs : (numberElement number == .key fields) = false := rfl
          simp [numberPath, differs]
      | cons next others => simp [numberPath]

theorem not_droppedKey_number {number : N} {owned : FieldSet N} {path : Path N} :
    ¬ DroppedKey sc tr (ofPaths [numberPath number]) owned path := by
  rintro ⟨first, fields, rest, -, -, field, -, dropped, -⟩
  rcases (has_ensure (ofPaths_canonical _) _ _ _).mp dropped with
    has | ⟨-, below, -, has⟩ <;>
  · obtain ⟨other, isNumber, -, same⟩ := (has_ofPaths _ _).mp has
    cases List.mem_singleton.mp isNumber
    simp [numberPath_beq_key] at same

/-- The path of the item of a nested list with the key. -/
def outerItemPath (key : N) : Path N :=
  [.fieldName "outer", .key ⟨[⟨"k", .number key⟩]⟩]

end StructuredMergeDiff.Merge
