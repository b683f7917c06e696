import StructuredMergeDiff.Typed.MergeSafety

/-!
Contract: a merge is bounded by its two inputs.

Owns: that the merged object has everything the right side has, that it differs
from the left side only where the right side has something, and when nothing of
the left side is lost.
-/

namespace StructuredMergeDiff.Typed

open Library Std Compare

variable {N : Type} [Numeric N] [Consistent N] {sc : Schema N}

/-! ## Children of a merge -/

section Kids

variable {tr : TypeRef N} {l r : Option (Value N)} {m : Value N} {pe : PathElement N}

/-- Of what the left side holds under a path element, a merge keeps nothing if the
two sides have different alternatives. -/
inductive KidMerged (sc : Schema N) (tr : TypeRef N) (l r : Option (Value N)) (m : Value N)
    (pe : PathElement N) : Prop
  | lost (left : Option (Value N)) (isLeft : kidValues sc tr l pe = left.toList)
      (noRight : kidValues sc tr r pe = []) (noMerged : kidValues sc tr (some m) pe = [])
      (apart : left ≠ none → ∃ v w first second, resolveSchema sc tr v = .ok first ∧
        resolveSchema sc tr w = .ok second ∧ first ≠ second)
  | kept (left right : Option (Value N)) (value : Value N)
      (isLeft : kidValues sc tr l pe = left.toList) (isRight : kidValues sc tr r pe = right.toList)
      (isMerged : kidValues sc tr (some m) pe = [value])
      (soundLeft : SoundSide sc false (kidType sc tr pe) left)
      (soundRight : SoundSide sc false (kidType sc tr pe) right)
      (kid : Merged sc false (kidType sc tr pe) left right value)

/-- What is under a path element of a merge of values without duplicates. -/
theorem Merged.kid_cases (isMerged : Merged sc false tr l r m) (soundLeft : SoundSide sc false tr l)
    (soundRight : SoundSide sc false tr r) (proper : pe.isProper = true) :
    KidMerged sc tr l r m pe := by
  obtain ⟨w, isWinner⟩ : ∃ w, r.or l = some w := by
    cases r with
    | some y => exact ⟨y, rfl⟩
    | none =>
        cases l with
        | some x => exact ⟨x, rfl⟩
        | none =>
            have none := isMerged.isMerged
            rw [merged_none] at none
            cases none
  obtain ⟨g, resolved⟩ : ∃ g, resolveSchema sc tr w = .ok g := by
    cases r with
    | some y => exact (soundRight w isWinner).alternative.imp fun _ fits => fits.1
    | none => exact (soundLeft w isWinner).alternative.imp fun _ fits => fits.1
  have level := isMerged.level g ⟨w, isWinner, resolved⟩
  obtain ⟨x, isLeft, soundX, -⟩ := soundLeft.kidSide proper
  obtain ⟨y, isRight, soundY, -⟩ := soundRight.kidSide proper
  have ofRight : kidValuesOf sc g r pe = y.toList := by
    rw [← isRight]
    cases r with
    | none => rfl
    | some v =>
        cases isWinner
        exact (kidValues_of_resolved resolved pe).symm
  have kid := level.kid pe proper
  rw [ofRight] at kid
  by_cases ofLeft : kidValuesOf sc g l pe = x.toList
  · rw [ofLeft, mergeAll_toList] at kid
    by_cases present : x ≠ none ∨ y ≠ none
    · obtain ⟨value, kidMerged⟩ := merged_of_sound soundX soundY present
      rw [kidMerged.isMerged] at kid
      exact .kept x y value isLeft isRight kid soundX soundY kidMerged
    · obtain ⟨noLeft, noRight⟩ := not_or.mp present
      rw [not_not.mp noLeft, not_not.mp noRight, merged_none] at kid
      exact .lost x isLeft (by rw [isRight, not_not.mp noRight]; rfl) kid fun held => (noLeft held).elim
  · -- the left side has children, but under another alternative
    obtain ⟨v, rfl, none, other⟩ : ∃ v, l = some v ∧ kidValuesOf sc g (some v) pe = [] ∧
        ¬ resolveSchema sc tr v = .ok g := by
      cases l with
      | none =>
          rw [← isLeft] at ofLeft
          exact absurd rfl ofLeft
      | some v =>
          have other : ¬ resolveSchema sc tr v = .ok g := fun own =>
            ofLeft (by rw [← isLeft, kidValues_of_resolved own])
          exact ⟨v, rfl, (kidValuesOf_cases resolved pe).resolve_right other, other⟩
    obtain ⟨own, resolvedLeft, -⟩ := (soundLeft v rfl).alternative
    have apart : own ≠ g := fun same => other (same ▸ resolvedLeft)
    have noRight : kidValues sc tr r pe = [] := by
      by_contra held
      cases r with
      | none => exact held rfl
      | some u =>
          cases isWinner
          have inLeft : kidValues sc tr (some v) pe ≠ [] := by
            rw [isLeft]
            rw [none] at ofLeft
            exact fun empty => ofLeft empty.symm
          exact apart (alternatives_agree resolvedLeft resolved inLeft held)
    rw [none, ← isRight, noRight] at kid
    exact .lost x isLeft noRight kid fun _ => ⟨v, w, own, g, resolvedLeft, resolved, apart⟩

end Kids

/-- A right side that is handled as a whole is what is merged. -/
theorem Merged.of_holdsItself {duplicates : Bool} {tr : TypeRef N} {x : Option (Value N)}
    {y m : Value N} (isMerged : Merged sc duplicates tr x (some y) m)
    (soundY : Sound sc false ⟨tr, y⟩) (leaf : holdsItself sc ⟨tr, y⟩ = true) : m = y := by
  obtain ⟨g, resolved, fits⟩ := soundY.alternative
  have level := isMerged.level g ⟨y, rfl, resolved⟩
  simp only [holdsItself, resolved] at leaf
  refine (Option.some.inj (level.leaf ?_)).symm
  cases g with
  | scalar t =>
      have scalar : validateScalar t (some y) .rhs = [] := validateScalar_side.mp fits
      simp [leafPair, scalar]
  | list t => simpa [leafPair, Alternative.isLeaf] using Or.inl leaf
  | map t => simpa [leafPair, Alternative.isLeaf] using Or.inl leaf

/-! ## Paths -/

section Paths

variable {tr : TypeRef N} {l r : Option (Value N)} {m : Value N}

omit [Consistent N] in
theorem present_cons_toList {side k : Option (Value N)} {pe : PathElement N}
    (proper : pe.isProper = true) (isKid : kidValues sc tr side pe = k.toList) (rest : Path N) :
    Present sc tr side (pe :: rest) ↔ Present sc (kidType sc tr pe) k rest := by
  rw [present_cons proper, isKid]
  cases k <;> simp [Present]

/-- A merge has all paths of the right side. -/
theorem Merged.present_right (isMerged : Merged sc false tr l r m)
    (soundLeft : SoundSide sc false tr l) (soundRight : SoundSide sc false tr r) {path : Path N}
    (present : Present sc tr r path) : Present sc tr (some m) path := by
  induction path generalizing tr l r m with
  | nil => exact present_root.mpr (by simp)
  | cons pe rest ih =>
      by_cases proper : pe.isProper = true
      · cases isMerged.kid_cases soundLeft soundRight proper with
        | lost left isLeft noRight noMerged apart =>
            rw [present_cons_toList proper (k := none) noRight] at present
            exact absurd present not_present_none
        | kept left right value isLeft isRight isValue soundX soundY kid =>
            rw [present_cons_toList proper isRight] at present
            rw [present_cons_toList proper (k := some value) isValue]
            exact ih kid soundX soundY present
      · exact absurd present (soundRight.not_present_improper (by simpa using proper))

omit [Consistent N] in
theorem reaches_of_kid {v : Value N} {pe : PathElement N}
    (held : kidValues sc tr (some v) pe ≠ []) (proper : pe.isProper = true) {other : TypeRef N}
    (reached : Reaches sc (kidType sc tr pe) other) : Reaches sc tr other := by
  obtain ⟨value, member⟩ := List.exists_mem_of_ne_nil _ held
  obtain ⟨k, inKidsAt, -⟩ := List.mem_map.mp member
  rw [← kidType_of_mem inKidsAt proper] at reached
  rcases mem_kids (mem_kidsAt.mp inKidsAt).1 with ⟨t, item, resolved, _, _, rfl⟩ |
    ⟨t, entry, resolved, _, _, rfl⟩
  · exact .item (resolveSchema_list resolved) reached
  · exact .entry entry.1 (resolveSchema_map resolved) reached

omit [Numeric N] in
/-- Every type that values of the type hold has at most one of scalar, list and map. -/
def SingleAlternatives (sc : Schema N) (tr : TypeRef N) : Prop :=
  ∀ other, Reaches sc tr other →
    [(FieldSet.atomAt sc other).scalar.isSome, (FieldSet.atomAt sc other).list.isSome,
      (FieldSet.atomAt sc other).map.isSome].count true ≤ 1

omit [Numeric N] [Consistent N] in
theorem SingleAlternatives.agree (single : SingleAlternatives sc tr) {v w : Value N}
    {first second : Alternative N} (resolvedFirst : resolveSchema sc tr v = .ok first)
    (resolvedSecond : resolveSchema sc tr w = .ok second) : first = second := by
  have one := single tr (.refl tr)
  obtain ⟨atom, found, handledFirst⟩ := handleAtom_of_resolved resolvedFirst
  obtain ⟨other, alsoFound, handledSecond⟩ := handleAtom_of_resolved resolvedSecond
  cases found.symm.trans alsoFound
  simp only [FieldSet.atomAt, found, Option.getD_some] at one
  have narrow : ∀ u : Value N, deduceAtom atom u = atom := by
    intro u
    obtain ⟨scalar, list, map⟩ := atom
    unfold deduceAtom
    cases scalar <;> cases list <;> cases map <;> simp at one <;>
      split_ifs <;> rfl
  rw [narrow] at handledFirst handledSecond
  exact Except.ok.inj (handledFirst.symm.trans handledSecond)

/-- With one alternative for each type, a merge has all paths of the left side too. -/
theorem Merged.present_left (isMerged : Merged sc false tr l r m)
    (soundLeft : SoundSide sc false tr l) (soundRight : SoundSide sc false tr r)
    (single : SingleAlternatives sc tr) {path : Path N}
    (present : Present sc tr l path) : Present sc tr (some m) path := by
  induction path generalizing tr l r m with
  | nil => exact present_root.mpr (by simp)
  | cons pe rest ih =>
      by_cases proper : pe.isProper = true
      · cases isMerged.kid_cases soundLeft soundRight proper with
        | lost left isLeft noRight noMerged apart =>
            by_cases held : left = none
            · rw [present_cons_toList proper isLeft, held] at present
              exact absurd present not_present_none
            · obtain ⟨v, w, first, second, resolvedFirst, resolvedSecond, differ⟩ := apart held
              exact absurd (single.agree resolvedFirst resolvedSecond) differ
        | kept left right value isLeft isRight isValue soundX soundY kid =>
            rw [present_cons_toList proper isLeft] at present
            rw [present_cons_toList proper (k := some value) isValue]
            have held : kidValues sc tr (some m) pe ≠ [] := by simp [isValue]
            exact ih kid soundX soundY
              (fun other reached => single other (reaches_of_kid held proper reached)) present
      · exact absurd present (soundLeft.not_present_improper (by simpa using proper))

/-- A sound value handled as a leaf has no children. -/
theorem kids_of_leafPair {allowDuplicates : Bool} {v : Value N} {other : Option (Value N)}
    {alternative : Alternative N} (sound : Sound sc allowDuplicates ⟨tr, v⟩)
    (resolved : resolveSchema sc tr v = .ok alternative)
    (leaf : leafPair alternative (some v) other = true) : kids sc ⟨tr, v⟩ = [] := by
  by_contra held
  obtain ⟨k, member⟩ := List.exists_mem_of_ne_nil _ held
  have none : kidValuesOf sc alternative (some v) k.pe = [] :=
    (kidValuesOf_of_leafPair leaf (sound.kid member).2).1
  rw [← kidValues_of_resolved resolved] at none
  have inside : k.value ∈ kidValues sc tr (some v) k.pe :=
    List.mem_map.mpr ⟨k, mem_kidsAt.mpr ⟨member, BEq.refl _⟩, rfl⟩
  rw [none] at inside
  cases inside

/-- Only removals are recorded where the right side has nothing. -/
theorem not_records_of_absent {x : Value N} (sound : Sound sc false ⟨tr, x⟩) {change : Change}
    (notRemoved : change ≠ .removed) {path : Path N} :
    ¬ (compareWalk sc tr (some x) none).Records change path := by
  intro recorded
  have difference := compareWalk_difference (soundSide_some.mpr sound) soundSide_none path
  cases change with
  | added => exact not_present_none (difference.added.mp recorded).1
  | removed => exact notRemoved rfl
  | modified => exact not_present_none (difference.modified recorded).2

/-- No leaf of the right side differs from the merge. -/
theorem Merged.not_modified {y : Value N} (isMerged : Merged sc false tr l (some y) m)
    (soundLeft : SoundSide sc false tr l) (soundRight : SoundSide sc false tr (some y))
    (path : Path N) : ¬ (compareWalk sc tr (some m) (some y)).Records .modified path := by
  induction path generalizing tr l y m with
  | nil =>
      rw [(compareWalk_meets sc tr (some m) (some y)).root]
      rintro ⟨-, differs, alternative, resolved, leaf⟩
      obtain ⟨g, resolvedRight, -⟩ := (soundRight y rfl).alternative
      have level := isMerged.level g ⟨y, rfl, resolvedRight⟩
      have same : alternative = g := by
        rcases resolved with ofMerged | ofRight
        · exact Except.ok.inj (ofMerged.symm.trans level.resolved)
        · exact Except.ok.inj (ofRight.symm.trans resolvedRight)
      subst same
      cases before : leafPair alternative l (some y) with
      | true =>
          cases Option.some.inj (level.leaf before)
          rw [BEq.refl] at differs
          cases differs
      | false => exact level.holds before (kids_of_leafPair isMerged.sound level.resolved leaf)
  | cons pe rest ih =>
      have meets := compareWalk_meets sc tr (some m) (some y)
      by_cases proper : pe.isProper = true
      · rw [meets.kid _ rest proper, kidWalk]
        cases isMerged.kid_cases soundLeft soundRight proper with
        | lost left isLeft noRight noMerged apart =>
            rw [noRight, noMerged]
            exact CompareWalk.records_nothing
        | kept left right value isLeft isRight isValue soundX soundY kid =>
            have walk := compareAll_toList sc (kidType sc tr pe) (l := some value) (r := right)
              (Or.inl (by simp))
            rw [Option.toList_some] at walk
            rw [isValue, isRight, walk]
            cases right with
            | none => exact not_records_of_absent kid.sound (by simp)
            | some b => exact ih kid soundX soundY
      · exact meets.improper _ rest (by simpa using proper)

/-- A merge adds to the left side, or changes there, only what the right side has. -/
theorem Merged.changed_in_right (isMerged : Merged sc false tr l r m)
    (soundLeft : SoundSide sc false tr l) (soundRight : SoundSide sc false tr r) {change : Change}
    (notRemoved : change ≠ .removed) {path : Path N}
    (recorded : (compareWalk sc tr l (some m)).Records change path) : Present sc tr r path := by
  induction path generalizing tr l r m with
  | nil =>
      rw [(compareWalk_meets sc tr l (some m)).root] at recorded
      rw [present_root]
      intro noRight
      subst noRight
      cases l with
      | none =>
          have none := isMerged.isMerged
          rw [merged_none] at none
          cases none
      | some x =>
          obtain ⟨-, differs, -⟩ := recorded
          rw [isMerged.ofLeft x rfl rfl] at differs
          cases differs
  | cons pe rest ih =>
      have meets := compareWalk_meets sc tr l (some m)
      by_cases proper : pe.isProper = true
      · rw [meets.kid _ rest proper, kidWalk] at recorded
        cases isMerged.kid_cases soundLeft soundRight proper with
        | lost left isLeft noRight noMerged apart =>
            rw [isLeft, noMerged] at recorded
            cases left with
            | none => exact absurd recorded CompareWalk.records_nothing
            | some x =>
                have walk := compareAll_toList sc (kidType sc tr pe) (l := some x) (r := none)
                  (Or.inl (by simp))
                rw [Option.toList_none] at walk
                rw [walk] at recorded
                have sound := soundLeft.kid proper (v := x) (by simp [isLeft])
                exact absurd recorded (not_records_of_absent sound notRemoved)
        | kept left right value isLeft isRight isValue soundX soundY kid =>
            have walk := compareAll_toList sc (kidType sc tr pe) (l := left) (r := some value)
              (Or.inr (by simp))
            rw [Option.toList_some] at walk
            rw [isValue, isLeft, walk] at recorded
            rw [present_cons_toList proper isRight]
            exact ih kid soundX soundY recorded
      · exact absurd recorded (meets.improper _ rest (by simpa using proper))

end Paths

/-! ## Objects -/

/-- What the merged object has in common with its two inputs. -/
structure MergeBounds (lhs rhs m : TypedValue N) : Prop where
  keepsRight : ∃ c, m.compare rhs = .ok c ∧ c.added.isEmpty = true ∧ c.modified.isEmpty = true
  changesWithinRight : ∃ c, lhs.compare m = .ok c ∧
    (∀ path, c.added.has path = true ∨ c.modified.has path = true → rhs.HasPath path) ∧
    (SingleAlternatives lhs.schema.val lhs.typeRef → c.removed.isEmpty = true)

/-- A merge of objects without duplicates is bounded by them. -/
theorem merge_is_bounded_by_inputs {lhs rhs : TypedValue N} (same : SameType lhs rhs)
    (soundLeft : SoundObject false lhs) (soundRight : SoundObject false rhs) :
    ∃ m, lhs.merge rhs = .ok m ∧ MergeBounds lhs rhs m := by
  obtain ⟨m, merged, isMerged⟩ := merge_of_sound same soundLeft soundRight
  have left := soundLeft.side
  have right := soundRight.side
  rw [same.schema, same.typeRef] at right
  have soundMerged : SoundObject false { lhs with value := some m } :=
    ⟨List.isEmpty_iff.mpr isMerged.sound.valid, soundLeft.supported⟩
  have merge := soundSide_some.mpr isMerged.sound
  have sameRight : SameType { lhs with value := some m } rhs := ⟨same.schema, same.typeRef⟩
  have sameLeft : SameType lhs { lhs with value := some m } := ⟨rfl, rfl⟩
  refine ⟨_, merged, ?_, ?_⟩
  · obtain ⟨c, compared, records⟩ := compare_of_sound sameRight soundMerged soundRight
    refine ⟨c, compared, ?_, ?_⟩
    · show (c.changed .added).isEmpty = true
      rw [FieldSet.isEmpty_iff_has (records .added).1]
      intro path
      rw [Bool.eq_false_iff]
      intro recorded
      obtain ⟨inRight, notMerged⟩ := (compareWalk_difference merge right path).added.mp
        (((records .added).2 path).mp recorded).2
      exact notMerged (isMerged.present_right left right inRight)
    · show (c.changed .modified).isEmpty = true
      rw [FieldSet.isEmpty_iff_has (records .modified).1]
      intro path
      rw [Bool.eq_false_iff]
      intro recorded
      have walk := (((records .modified).2 path).mp recorded).2
      obtain ⟨y, isRight, -⟩ := soundRight.value
      rw [isRight] at isMerged right walk
      exact isMerged.not_modified left right path walk
  · obtain ⟨c, compared, records⟩ := compare_of_sound sameLeft soundLeft soundMerged
    have inRight : ∀ change path, change ≠ .removed → (c.changed change).has path = true →
        rhs.HasPath path := by
      intro change path notRemoved recorded
      obtain ⟨proper, walk⟩ := ((records change).2 path).mp recorded
      rw [TypedValue.HasPath, same.schema, same.typeRef]
      exact ⟨proper, isMerged.changed_in_right left right notRemoved walk⟩
    refine ⟨c, compared, fun path recorded => ?_, fun single => ?_⟩
    · rcases recorded with added | modified
      · exact inRight .added path (by simp) added
      · exact inRight .modified path (by simp) modified
    · show (c.changed .removed).isEmpty = true
      rw [FieldSet.isEmpty_iff_has (records .removed).1]
      intro path
      rw [Bool.eq_false_iff]
      intro recorded
      obtain ⟨inLeft, notMerged⟩ := (compareWalk_difference left merge path).removed.mp
        (((records .removed).2 path).mp recorded).2
      exact notMerged (isMerged.present_left left right single inLeft)

/-- The sets {1, 2} and {2, 3} of numbers. -/
theorem merge_of_number_sets_is_bounded :
    ∃ m, (numberSetObject [.number 1, .number 2] : TypedValue Int).merge
        (numberSetObject [.number 2, .number 3]) = .ok m ∧
      MergeBounds (numberSetObject [.number 1, .number 2])
        (numberSetObject [.number 2, .number 3]) m :=
  merge_is_bounded_by_inputs ⟨rfl, rfl⟩
    ⟨by decide +kernel, numberSetObject_supported _⟩
    ⟨by decide +kernel, numberSetObject_supported _⟩

/-! ## A list that is neither atomic nor associative -/

/-- An object with one keyed item, whose field `values` is a separable list. -/
def separableListObject : TypedValue Int :=
  { value := some (.map [("items", .list [.map [("name", .string "a"),
      ("values", .list [.number 1])]])])
    typeRef := .inline (.ofMap (.struct [("items", .inline (.ofList
      { elementType := .inline (.ofMap (.struct [("name", .inline (.ofScalar .string)),
          ("values", .inline (.ofList
            { elementType := .inline (.ofScalar .numeric)
              elementRelationship := .separable
              keys := [] }))]))
        elementRelationship := .associative
        keys := ["name"] }))]))
    schema := ⟨0, ⟨[]⟩⟩ }

/-- Merging the object with itself drops the list without an error, and the result
cannot be compared with the object any more. -/
theorem merge_of_separable_list_is_not_bounded :
    separableListObject.isValid false = true ∧
      ∃ m, separableListObject.merge separableListObject = .ok m ∧
        ¬ MergeBounds separableListObject separableListObject m := by
  refine ⟨by decide +kernel, { separableListObject with
    value := some (.map [("items", .list [.map [("name", .string "a")]])]) }, rfl, ?_⟩
  rintro ⟨⟨c, compared, -⟩, -⟩
  have fails : (TypedValue.compare { separableListObject with
      value := some (.map [("items", .list [.map [("name", .string "a")]])]) }
      separableListObject).toOption.isSome = false := by
    decide +kernel
  rw [compared] at fails
  cases fails

end StructuredMergeDiff.Typed
