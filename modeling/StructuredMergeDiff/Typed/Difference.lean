import StructuredMergeDiff.FieldPath.Extensional
import StructuredMergeDiff.Typed.Collision
import StructuredMergeDiff.Typed.Validity

/-!
Contract: a comparison is the difference of the two objects' sets of paths.

Owns: that comparing valid objects succeeds, what it records for objects
without duplicates, and that exchanging the two objects exchanges what was
added and what was removed.
-/

namespace StructuredMergeDiff.Typed

open Library Std Compare

variable {N : Type} [Numeric N] [Consistent N] {sc : Schema N} {tr : TypeRef N}
  {allowDuplicates : Bool} {pe : PathElement N}

/-! ## Valid objects are compared without errors -/

section

omit [Numeric N] [Consistent N]

theorem validateScalar_side {t : ScalarType} {v : Option (Value N)} {first second : Side} :
    validateScalar t v first = [] ↔ validateScalar t v second = [] := by
  unfold validateScalar
  split
  · rfl
  · rfl
  · split
    · simp [errorf]
    · split <;> simp [errorf]

theorem derefList_getD (v : Value N) : (derefList (some v)).getD [] = v.items := by
  cases v <;> rfl

theorem derefMap_getD (v : Value N) : (derefMap (some v)).getD [] = v.entries := by
  cases v <;> rfl

end

/-- One side of a comparison: absent, or a sound value. -/
def SoundSide (sc : Schema N) (allowDuplicates : Bool) (tr : TypeRef N) (side : Option (Value N)) :
    Prop :=
  ∀ v, side = some v → Sound sc allowDuplicates ⟨tr, v⟩

omit [Consistent N] in
theorem soundSide_some {v : Value N} :
    SoundSide sc allowDuplicates tr (some v) ↔ Sound sc allowDuplicates ⟨tr, v⟩ := by
  simp [SoundSide]

omit [Consistent N] in
theorem soundSide_none :
    SoundSide sc allowDuplicates tr none := by
  simp [SoundSide]

section

variable {side : Option (Value N)} (sound : SoundSide sc allowDuplicates tr side)

include sound

theorem SoundSide.kid (proper : pe.isProper = true) {v : Value N}
    (member : v ∈ kidValues sc tr side pe) :
    Sound sc allowDuplicates ⟨kidType sc tr pe, v⟩ := by
  cases side with
  | none => cases member
  | some parent =>
      obtain ⟨k, inKids, rfl⟩ := List.mem_map.mp member
      rw [← kidType_of_mem inKids proper]
      exact ((sound parent rfl).kid (mem_kidsAt.mp inKids).1).1

theorem SoundSide.sole (proper : pe.isProper = true) :
    SoundSide sc allowDuplicates (kidType sc tr pe) (Typed.sole (kidValues sc tr side pe)) :=
  fun _ isSole => soundSide_some.mp fun _ isSome =>
    sound.kid proper (Option.some.inj isSome ▸ mem_of_sole isSole)

private theorem SoundSide.items_named {t : ListType N} {v : Value N}
    (resolved : resolveSchema sc tr v = .ok (.list t))
    (granular : t.elementRelationship ≠ .atomic) :
    ∀ item ∈ (derefList side).getD [], ∃ pe, listItemToPathElement sc t item = .ok pe := by
  cases side with
  | none => simp [derefList]
  | some w =>
      rw [derefList_getD]
      intro item member
      have present : kidsOf sc (.list t) w ≠ [] := by
        intro none
        simp only [kidsOf, if_neg granular, List.map_eq_nil_iff] at none
        rw [none] at member
        cases member
      exact ((sound w rfl).items_named (resolveSchema_of_kidsOf resolved present) granular).1
        item member

end

theorem pairOk_of_sound {left right : Bool} {lhs rhs : Option (Value N)}
    (soundLeft : SoundSide sc left tr lhs) (soundRight : SoundSide sc right tr rhs) {v : Value N}
    (operand : lhs = some v ∨ rhs = some v) :
    ∃ alternative, resolveSchema sc tr v = .ok alternative ∧ PairOk sc alternative lhs rhs := by
  have fits : ∃ allowDuplicates alternative, resolveSchema sc tr v = .ok alternative ∧
      Fits sc allowDuplicates v alternative := by
    rcases operand with isLeft | isRight
    · exact ⟨left, (soundLeft v isLeft).alternative⟩
    · exact ⟨right, (soundRight v isRight).alternative⟩
  obtain ⟨allowDuplicates, alternative, resolved, fits⟩ := fits
  refine ⟨alternative, resolved, ?_⟩
  cases alternative with
  | scalar t =>
      have valid : ∀ side, validateScalar t (some v) side = [] :=
        fun side => validateScalar_side.mp fits
      rcases operand with isLeft | isRight
      · exact Or.inl (by simp [leafPair, isLeft, valid])
      · exact Or.inl (by simp [leafPair, isRight, valid])
  | list t =>
      by_cases atomic : t.elementRelationship = .atomic
      · exact Or.inl (by simp [leafPair, atomic])
      · exact Or.inr ⟨soundLeft.items_named resolved atomic, soundRight.items_named resolved atomic⟩
  | map t => exact Or.inr trivial

omit [Numeric N] [Consistent N] in
/-- Depth of a value that may be absent. -/
def sideDepth (side : Option (Value N)) : Nat :=
  side.elim 0 fun v => v.depth + 1

omit [Consistent N] in
theorem sideDepth_lt_of_kid {side : Option (Value N)} {v : Value N}
    (member : v ∈ kidValues sc tr side pe) : v.depth + 1 < sideDepth side := by
  cases side with
  | none => cases member
  | some parent =>
      obtain ⟨k, inKids, rfl⟩ := List.mem_map.mp member
      have := depth_lt_of_mem_kids (mem_kidsAt.mp inKids).1
      simpa [sideDepth] using this

omit [Consistent N] in
/-- Children on either side, at least one of them present, are less deep together. -/
theorem sideDepth_kids {lhs rhs l r : Option (Value N)} (present : l ≠ none ∨ r ≠ none)
    (inLeft : ∀ v, l = some v → v ∈ kidValues sc tr lhs pe)
    (inRight : ∀ v, r = some v → v ∈ kidValues sc tr rhs pe) :
    sideDepth l + sideDepth r < sideDepth lhs + sideDepth rhs := by
  have below : ∀ (x side : Option (Value N)), (∀ v, x = some v → v ∈ kidValues sc tr side pe) →
      sideDepth x ≤ sideDepth side ∧ (x ≠ none → sideDepth x < sideDepth side) := by
    intro x side member
    cases x with
    | none => exact ⟨Nat.zero_le _, fun absurd => absurd.elim rfl⟩
    | some v =>
        have less := sideDepth_lt_of_kid (member v rfl)
        exact ⟨Nat.le_of_lt less, fun _ => less⟩
  obtain ⟨leLeft, ltLeft⟩ := below l lhs inLeft
  obtain ⟨leRight, ltRight⟩ := below r rhs inRight
  rcases present with isLeft | isRight
  · have := ltLeft isLeft
    omega
  · have := ltRight isRight
    omega

omit [Consistent N] in
theorem sideDepth_sole {lhs rhs : Option (Value N)}
    (present : sole (kidValues sc tr lhs pe) ≠ none ∨ sole (kidValues sc tr rhs pe) ≠ none) :
    sideDepth (sole (kidValues sc tr lhs pe)) + sideDepth (sole (kidValues sc tr rhs pe)) <
      sideDepth lhs + sideDepth rhs :=
  sideDepth_kids present (fun _ => mem_of_sole) fun _ => mem_of_sole

/-- Comparing sound values reports no error. -/
theorem compareWalk_succeeds {left right : Bool} {lhs rhs : Option (Value N)}
    (soundLeft : SoundSide sc left tr lhs) (soundRight : SoundSide sc right tr rhs)
    (present : lhs ≠ none ∨ rhs ≠ none) : (compareWalk sc tr lhs rhs).errs = [] := by
  induction bound : sideDepth lhs + sideDepth rhs using Nat.strong_induction_on
    generalizing tr lhs rhs with
  | _ total ih =>
      subst bound
      rw [(compareWalk_meets sc tr lhs rhs).errs]
      refine ⟨present, fun v operand => pairOk_of_sound soundLeft soundRight operand,
        fun pe proper => errs_compareAll_iff.mpr fun some => ?_⟩
      exact ih _ (sideDepth_sole some) (soundLeft.sole proper) (soundRight.sole proper) some rfl

/-! ## Paths of an object -/

/-- A value that may be absent has something at the path. -/
def Present (sc : Schema N) (tr : TypeRef N) (side : Option (Value N)) (path : Path N) : Prop :=
  ∃ v, side = some v ∧ nodesAt sc ⟨tr, v⟩ path ≠ []

section

omit [Consistent N]

@[simp] theorem not_present_none {path : Path N} :
    ¬ Present sc tr none path := by
  simp [Present]

theorem present_root {side : Option (Value N)} :
    Present sc tr side [] ↔ side ≠ none := by
  cases side <;> simp [Present, nodesAt]

/-- What is at a path beneath a path element is beneath one of the values there. -/
theorem present_cons {side : Option (Value N)} (proper : pe.isProper = true) {rest : Path N} :
    Present sc tr side (pe :: rest) ↔
      ∃ v ∈ kidValues sc tr side pe, nodesAt sc ⟨kidType sc tr pe, v⟩ rest ≠ [] := by
  cases side with
  | none => simp
  | some parent =>
      have unfold : Present sc tr (some parent) (pe :: rest) ↔
          ∃ k ∈ kidsAt sc ⟨tr, parent⟩ pe, nodesAt sc k.node rest ≠ [] := by
        simp [Present, nodesAt]
      rw [unfold]
      constructor
      · rintro ⟨k, member, found⟩
        refine ⟨k.value, List.mem_map.mpr ⟨k, member, rfl⟩, ?_⟩
        rw [← kidType_of_mem member proper]
        exact found
      · rintro ⟨v, member, found⟩
        obtain ⟨k, inKids, rfl⟩ := List.mem_map.mp member
        rw [← kidType_of_mem inKids proper] at found
        exact ⟨k, inKids, found⟩

theorem present_single {side : Option (Value N)} :
    Present sc tr side [pe] ↔ kidValues sc tr side pe ≠ [] := by
  cases side with
  | none => simp
  | some v => simp [Present, nodesAt, kidValues, List.eq_nil_iff_forall_not_mem]

theorem nodesAt_cons_kid {y : Value N} (proper : pe.isProper = true) {yk : Value N}
    (isKid : kidValues sc tr (some y) pe = [yk]) (rest : Path N) :
    nodesAt sc ⟨tr, y⟩ (pe :: rest) = nodesAt sc ⟨kidType sc tr pe, yk⟩ rest := by
  match found : kidsAt sc ⟨tr, y⟩ pe with
  | [] => simp [kidValues, found] at isKid
  | [k] =>
      have value : k.value = yk := by simpa [kidValues, found] using isKid
      have type := kidType_of_mem (found ▸ List.mem_singleton.mpr rfl : k ∈ kidsAt sc ⟨tr, y⟩ pe)
        proper
      simp only [nodesAt, found, List.flatMap_cons, List.flatMap_nil, List.append_nil, Kid.node,
        value, type]
  | _ :: _ :: _ => simp [kidValues, found] at isKid

end

theorem SoundSide.not_present_improper {side : Option (Value N)}
    (sound : SoundSide sc allowDuplicates tr side) (improper : pe.isProper = false) {rest : Path N}
    : ¬ Present sc tr side (pe :: rest) := by
  rintro ⟨v, isSide, found⟩
  simp [nodesAt, (sound v isSide).kidsAt_improper improper] at found

/-- Without duplicates, what is under a path element is a side again. -/
theorem SoundSide.kidSide {side : Option (Value N)} (sound : SoundSide sc false tr side)
    (proper : pe.isProper = true) :
    ∃ x : Option (Value N), kidValues sc tr side pe = x.toList ∧
      SoundSide sc false (kidType sc tr pe) x ∧
      ∀ rest, Present sc tr side (pe :: rest) ↔ Present sc (kidType sc tr pe) x rest := by
  have short : ∃ x : Option (Value N), kidValues sc tr side pe = x.toList := by
    cases side with
    | none => exact ⟨none, rfl⟩
    | some v => exact (sound v rfl).kidValues_toList pe
  obtain ⟨x, values⟩ := short
  refine ⟨x, values, fun v isValue => sound.kid proper (by simp [values, isValue]), fun rest => ?_⟩
  rw [present_cons proper, values]
  cases x <;> simp [Present]

theorem SoundSide.resolves {v : Value N} (sound : SoundSide sc allowDuplicates tr (some v))
    : (sc.resolve tr).isSome = true := by
  obtain ⟨alternative, resolved, -⟩ := (sound v rfl).alternative
  unfold resolveSchema at resolved
  cases found : sc.resolve tr with
  | none => rw [found] at resolved; cases resolved
  | some atom => rfl

/-- A walk that records the difference of two sets of paths. -/
structure CompareWalk.IsDifference (walk : CompareWalk N) (left right : Path N → Prop)
    (path : Path N) : Prop where
  added : walk.Records .added path ↔ right path ∧ ¬ left path
  removed : walk.Records .removed path ↔ left path ∧ ¬ right path
  modified : walk.Records .modified path → left path ∧ right path

/-- The comparison of sound values without duplicates is the difference of their
sets of paths. -/
theorem compareWalk_difference {lhs rhs : Option (Value N)} (soundLeft : SoundSide sc false tr lhs)
    (soundRight : SoundSide sc false tr rhs) (path : Path N) :
    (compareWalk sc tr lhs rhs).IsDifference (Present sc tr lhs) (Present sc tr rhs) path := by
  induction path generalizing tr lhs rhs with
  | nil =>
      have meets := compareWalk_meets sc tr lhs rhs
      constructor <;> rw [meets.root, present_root, present_root]
      all_goals
        match lhs, rhs with
        | none, none => simp [RootChange]
        | none, some r => simp [RootChange, soundRight.resolves]
        | some l, none => simp [RootChange, soundLeft.resolves]
        | some l, some r => simp [RootChange]
  | cons pe rest ih =>
      have meets := compareWalk_meets sc tr lhs rhs
      by_cases proper : pe.isProper = true
      · obtain ⟨x, leftValues, soundX, leftPresent⟩ := soundLeft.kidSide proper
        obtain ⟨y, rightValues, soundY, rightPresent⟩ := soundRight.kidSide proper
        have kid : (kidWalk sc tr lhs rhs pe).IsDifference (Present sc (kidType sc tr pe) x)
            (Present sc (kidType sc tr pe) y) rest := by
          rw [kidWalk, leftValues, rightValues]
          by_cases present : x ≠ none ∨ y ≠ none
          · rw [compareAll_toList sc _ present]
            exact ih soundX soundY
          · obtain ⟨noLeft, noRight⟩ := not_or.mp present
            rw [not_not.mp noLeft, not_not.mp noRight]
            constructor <;> simp
        constructor <;> rw [meets.kid _ rest proper, leftPresent, rightPresent]
        · exact kid.added
        · exact kid.removed
        · exact kid.modified
      · have improper : pe.isProper = false := by simpa using proper
        constructor <;> simp [meets.improper _ rest improper,
          soundLeft.not_present_improper improper, soundRight.not_present_improper improper]

/-! ## Objects -/

omit [Numeric N] [Consistent N] in
/-- Two objects of one type of one schema. -/
structure SameType (lhs rhs : TypedValue N) : Prop where
  schema : rhs.schema = lhs.schema
  typeRef : rhs.typeRef = lhs.typeRef

/-- An accepted object of a type with supported lists. -/
structure SoundObject (allowDuplicates : Bool) (tv : TypedValue N) : Prop where
  valid : tv.isValid allowDuplicates = true
  supported : ListsSupported tv.schema.val tv.typeRef

/-- The paths of an object to map entries, struct fields and list items. -/
def TypedValue.HasPath (tv : TypedValue N) (path : Path N) : Prop :=
  path ≠ [] ∧ Present tv.schema.val tv.typeRef tv.value path

section

omit [Consistent N]

theorem SoundObject.value {tv : TypedValue N} (sound : SoundObject allowDuplicates tv) :
    ∃ v, tv.value = some v ∧ Sound tv.schema.val allowDuplicates ⟨tv.typeRef, v⟩ := by
  have valid := sound.valid
  unfold TypedValue.isValid at valid
  split at valid
  · next v isValue => exact ⟨v, isValue, List.isEmpty_iff.mp valid, sound.supported⟩
  · cases valid

theorem SoundObject.side {tv : TypedValue N} (sound : SoundObject allowDuplicates tv) :
    SoundSide tv.schema.val allowDuplicates tv.typeRef tv.value := by
  obtain ⟨v, isValue, soundValue⟩ := sound.value
  rw [isValue, soundSide_some]
  exact soundValue

theorem checkOperands_of_sameType {lhs rhs : TypedValue N} (same : SameType lhs rhs) :
    TypedValue.checkOperands lhs rhs = [] := by
  simp [TypedValue.checkOperands, same.schema, same.typeRef, TypeRef.equals_self]

/-- The comparison of two objects of one type: the walk, if it has no errors. -/
theorem compare_eq {lhs rhs : TypedValue N} (same : SameType lhs rhs) :
    lhs.compare rhs =
      let walk := compareWalk lhs.schema.val lhs.typeRef lhs.value rhs.value
      if walk.errs = [] then
        .ok { removed := FieldSet.ofPaths walk.removed
              modified := FieldSet.ofPaths walk.modified
              added := FieldSet.ofPaths walk.added }
      else .error (.errors walk.errs) := by
  unfold TypedValue.compare
  rw [checkOperands_of_sameType same]
  simp only [List.length_nil, ne_eq, not_true_eq_false, if_false]
  split
  · next failed => rw [if_neg (by simpa using failed)]
  · next clean => rw [if_pos (by simpa using clean)]

end

/-- The set of a list of paths has those of them that are not empty. -/
theorem has_ofPaths_iff (paths : List (Path N)) (path : Path N) :
    (FieldSet.ofPaths paths).has path = true ↔
      path ≠ [] ∧ ∃ recorded ∈ paths, (recorded == path) = true := by
  rw [FieldSet.has_ofPaths]
  constructor
  · rintro ⟨recorded, member, proper, equal⟩
    refine ⟨?_, recorded, member, equal⟩
    rintro rfl
    cases recorded with
    | nil => exact proper rfl
    | cons _ _ => simp at equal
  · rintro ⟨proper, recorded, member, equal⟩
    refine ⟨recorded, member, ?_, equal⟩
    rintro rfl
    cases path with
    | nil => exact proper rfl
    | cons _ _ => simp at equal

omit [Numeric N] [Consistent N] in
def Comparison.changed (c : Comparison N) : Change → FieldSet N
  | .added => c.added
  | .removed => c.removed
  | .modified => c.modified

/-- Comparing accepted objects succeeds, and the sets hold what the walk records. -/
theorem compare_of_sound {left right : Bool} {lhs rhs : TypedValue N} (same : SameType lhs rhs)
    (soundLeft : SoundObject left lhs) (soundRight : SoundObject right rhs) :
    ∃ c, lhs.compare rhs = .ok c ∧ ∀ change, (c.changed change).Canonical ∧
      ∀ path, (c.changed change).has path = true ↔ path ≠ [] ∧
        (compareWalk lhs.schema.val lhs.typeRef lhs.value rhs.value).Records change path := by
  have right := soundRight.side
  obtain ⟨l, isLeft, -⟩ := soundLeft.value
  rw [same.schema, same.typeRef] at right
  have clean := compareWalk_succeeds soundLeft.side right (Or.inl (by simp [isLeft]))
  rw [compare_eq same]
  refine ⟨_, if_pos clean, fun change => ?_⟩
  generalize compareWalk lhs.schema.val lhs.typeRef lhs.value rhs.value = walk
  have sets : Comparison.changed { removed := FieldSet.ofPaths walk.removed
                                   modified := FieldSet.ofPaths walk.modified
                                   added := FieldSet.ofPaths walk.added } change =
      FieldSet.ofPaths (walk.paths change) := by
    cases change <;> rfl
  rw [sets]
  exact ⟨FieldSet.ofPaths_canonical _, has_ofPaths_iff (walk.paths change)⟩

/-- The three sets of a comparison against the paths of the two objects. -/
structure Comparison.IsDifference (c : Comparison N) (lhs rhs : TypedValue N) : Prop where
  added : ∀ path, c.added.has path = true ↔ rhs.HasPath path ∧ ¬ lhs.HasPath path
  removed : ∀ path, c.removed.has path = true ↔ lhs.HasPath path ∧ ¬ rhs.HasPath path
  modified : ∀ path, c.modified.has path = true → lhs.HasPath path ∧ rhs.HasPath path
  disjoint : ∀ path, ¬ (c.added.has path = true ∧ c.removed.has path = true) ∧
    ¬ (c.added.has path = true ∧ c.modified.has path = true) ∧
    ¬ (c.removed.has path = true ∧ c.modified.has path = true)

/-- What comparing two objects without duplicates results in. -/
theorem isDifference_of_compare {lhs rhs : TypedValue N} {c : Comparison N} (same : SameType lhs rhs)
    (soundLeft : SoundObject false lhs) (soundRight : SoundObject false rhs)
    (isCompared : lhs.compare rhs = .ok c) : c.IsDifference lhs rhs := by
  obtain ⟨_, compared, records⟩ := compare_of_sound same soundLeft soundRight
  cases isCompared.symm.trans compared
  have right := soundRight.side
  rw [same.schema, same.typeRef] at right
  have difference := compareWalk_difference soundLeft.side right
  have hasPath : ∀ path, rhs.HasPath path ↔
      path ≠ [] ∧ Present lhs.schema.val lhs.typeRef rhs.value path := by
    intro path
    rw [TypedValue.HasPath, same.schema, same.typeRef]
  have added : ∀ path, c.added.has path = true ↔ rhs.HasPath path ∧ ¬ lhs.HasPath path := by
    intro path
    show (c.changed .added).has path = true ↔ _
    rw [(records .added).2 path, (difference path).added, hasPath, TypedValue.HasPath]
    tauto
  have removed : ∀ path, c.removed.has path = true ↔ lhs.HasPath path ∧ ¬ rhs.HasPath path := by
    intro path
    show (c.changed .removed).has path = true ↔ _
    rw [(records .removed).2 path, (difference path).removed, hasPath, TypedValue.HasPath]
    tauto
  have modified : ∀ path, c.modified.has path = true → lhs.HasPath path ∧ rhs.HasPath path := by
    intro path recorded
    obtain ⟨proper, recorded⟩ := ((records .modified).2 path).mp recorded
    obtain ⟨inLeft, inRight⟩ := (difference path).modified recorded
    exact ⟨⟨proper, inLeft⟩, (hasPath path).mpr ⟨proper, inRight⟩⟩
  refine ⟨added, removed, modified, fun path => ?_⟩
  rw [added, removed]
  have := modified path
  tauto

/-- Comparing two objects without duplicates succeeds with the difference of their
sets of paths. -/
theorem compare_succeeds_with_difference {lhs rhs : TypedValue N} (same : SameType lhs rhs)
    (soundLeft : SoundObject false lhs) (soundRight : SoundObject false rhs) :
    ∃ c, lhs.compare rhs = .ok c ∧ c.IsDifference lhs rhs := by
  obtain ⟨c, compared, -⟩ := compare_of_sound same soundLeft soundRight
  exact ⟨c, compared, isDifference_of_compare same soundLeft soundRight compared⟩

omit [Numeric N] [Consistent N] in
theorem numberSetObject_supported (items : List (Value N)) :
    ListsSupported (numberSetObject items).schema.val (numberSetObject items).typeRef :=
  listsSupported_struct (by
    simp only [List.mem_singleton, forall_eq]
    exact listsSupported_list (Or.inr rfl) (listsSupported_scalar .numeric))

/-- From the set {1, 2} to the set {2, 3}: the path of 3 is added. -/
theorem compare_number_sets :
    ∃ c : Comparison Int, (numberSetObject [.number 1, .number 2]).compare
        (numberSetObject [.number 2, .number 3]) = .ok c ∧
      c.IsDifference (numberSetObject [.number 1, .number 2])
        (numberSetObject [.number 2, .number 3]) :=
  compare_succeeds_with_difference ⟨rfl, rfl⟩
    ⟨by decide +kernel, numberSetObject_supported _⟩
    ⟨by decide +kernel, numberSetObject_supported _⟩

/-! ## Exchanging the sides -/

section

omit [Numeric N] [Consistent N]

def Change.swap : Change → Change
  | .added => .removed
  | .removed => .added
  | .modified => .modified

theorem leafPair_swap (alternative : Alternative N) (lhs rhs : Option (Value N)) :
    leafPair alternative lhs rhs = leafPair alternative rhs lhs := by
  have side : ∀ (t : ScalarType) (v : Option (Value N)),
      (validateScalar t v .lhs).isEmpty = (validateScalar t v .rhs).isEmpty := by
    intro t v
    rw [Bool.eq_iff_iff, List.isEmpty_iff, List.isEmpty_iff]
    exact validateScalar_side
  cases alternative with
  | scalar t => rw [leafPair, leafPair, side t lhs, ← side t rhs, Bool.or_comm]
  | list t => rw [leafPair, leafPair, Bool.and_comm]
  | map t => rw [leafPair, leafPair, Bool.and_comm]

theorem pairOk_swap {alternative : Alternative N} {lhs rhs : Option (Value N)}
    (ok : PairOk sc alternative lhs rhs) : PairOk sc alternative rhs lhs := by
  rcases ok with leaf | named
  · exact Or.inl ((leafPair_swap alternative rhs lhs).trans leaf)
  · refine Or.inr ?_
    cases alternative with
    | scalar t => exact named
    | list t => exact ⟨named.2, named.1⟩
    | map t => exact trivial

end

theorem RootChange.swap {change : Change} {lhs rhs : Option (Value N)}
    (root : RootChange sc tr change lhs rhs) : RootChange sc tr change.swap rhs lhs := by
  match lhs, rhs with
  | none, none => exact root
  | none, some _ => exact ⟨by rw [root.1]; rfl, root.2⟩
  | some _, none => exact ⟨by rw [root.1]; rfl, root.2⟩
  | some l, some r =>
      obtain ⟨isChange, differs, alternative, resolved, leaf⟩ := root
      refine ⟨by rw [isChange]; rfl, ?_, alternative, resolved.symm, ?_⟩
      · rw [BEq.comm]
        exact differs
      · rw [leafPair_swap]
        exact leaf

theorem listEqual_swap (ls rs : List (Value N)) : listEqual ls rs = listEqual rs ls := by
  induction ls generalizing rs with
  | nil => cases rs <;> rfl
  | cons l rest ih =>
      cases rs with
      | nil => rfl
      | cons r others =>
          simp only [listEqual, Value.listEquals] at ih ⊢
          rw [BEq.comm, ih others]

private theorem severalChange_swap {ls rs : List (Value N)} {change : Change}
    (several : severalChange ls rs = some change) : severalChange rs ls = some change.swap := by
  unfold severalChange at several ⊢
  rw [listEqual_swap rs ls]
  split_ifs at several ⊢ <;> cases several <;> rfl

/-- What one comparison records, the reversed one records as the opposite change. -/
theorem records_swap {change : Change} {lhs rhs : Option (Value N)} {path : Path N}
    (recorded : (compareWalk sc tr lhs rhs).Records change path) :
    (compareWalk sc tr rhs lhs).Records change.swap path := by
  induction path generalizing tr lhs rhs with
  | nil =>
      rw [(compareWalk_meets sc tr _ _).root] at recorded ⊢
      exact recorded.swap
  | cons pe rest ih =>
      by_cases proper : pe.isProper = true
      · rw [(compareWalk_meets sc tr _ _).kid _ rest proper] at recorded ⊢
        rcases records_compareAll.mp recorded with ⟨present, inItem⟩ | ⟨isRoot, several⟩
        · exact records_compareAll.mpr (Or.inl ⟨present.symm, ih inItem⟩)
        · exact records_compareAll.mpr (Or.inr ⟨isRoot, severalChange_swap several⟩)
      · exact absurd recorded
          ((compareWalk_meets sc tr lhs rhs).improper _ rest (by simpa using proper))

/-- A comparison fails exactly if the reversed one fails. -/
theorem errs_swap {lhs rhs : Option (Value N)} (clean : (compareWalk sc tr lhs rhs).errs = [])
    : (compareWalk sc tr rhs lhs).errs = [] := by
  induction bound : sideDepth lhs + sideDepth rhs using Nat.strong_induction_on
    generalizing tr lhs rhs with
  | _ total ih =>
      subst bound
      obtain ⟨present, ok, kids⟩ := (compareWalk_meets sc tr lhs rhs).errs.mp clean
      rw [(compareWalk_meets sc tr rhs lhs).errs]
      refine ⟨present.symm, fun v operand => ?_, fun pe proper => ?_⟩
      · obtain ⟨alternative, resolved, pairOk⟩ := ok v operand.symm
        exact ⟨alternative, resolved, pairOk_swap pairOk⟩
      · refine errs_compareAll_iff.mpr fun some => ?_
        exact ih _ (sideDepth_sole some.symm) (errs_compareAll_iff.mp (kids pe proper) some.symm) rfl

/-- The reversed comparison. -/
def Comparison.IsReverse (c d : Comparison N) : Prop :=
  d.added.equals c.removed = true ∧ d.removed.equals c.added = true ∧
    d.modified.equals c.modified = true

/-- The two comparisons of two objects succeed with reversed results, or both fail. -/
def Reversible (lhs rhs : TypedValue N) : Prop :=
  match lhs.compare rhs, rhs.compare lhs with
  | .ok c, .ok d => c.IsReverse d
  | .error _, .error _ => True
  | _, _ => False

/-- Comparing in the other direction succeeds or fails alike, and exchanges what was
added and what was removed. -/
theorem compare_is_reversible {lhs rhs : TypedValue N} (same : SameType lhs rhs) :
    Reversible lhs rhs := by
  unfold Reversible
  have sameBack : SameType rhs lhs := ⟨same.schema.symm, same.typeRef.symm⟩
  rw [compare_eq same, compare_eq sameBack, same.schema, same.typeRef]
  dsimp only
  by_cases clean :
      (compareWalk lhs.schema.val lhs.typeRef lhs.value rhs.value).errs = []
  · rw [if_pos clean, if_pos (errs_swap clean)]
    have sets : ∀ change, (FieldSet.ofPaths ((compareWalk lhs.schema.val lhs.typeRef rhs.value
        lhs.value).paths change)).equals (FieldSet.ofPaths ((compareWalk lhs.schema.val lhs.typeRef
        lhs.value rhs.value).paths change.swap)) = true := by
      intro change
      rw [FieldSet.equals_iff_has (FieldSet.ofPaths_canonical _) (FieldSet.ofPaths_canonical _)]
      intro path
      have back : change.swap.swap = change := by cases change <;> rfl
      rw [Bool.eq_iff_iff, has_ofPaths_iff, has_ofPaths_iff]
      refine and_congr_right fun _ => ⟨records_swap, fun recorded => ?_⟩
      rw [← back]
      exact records_swap recorded
    exact ⟨sets .added, sets .removed, sets .modified⟩
  · rw [if_neg clean, if_neg fun reversed => clean (errs_swap reversed)]
    trivial

/-- From {1, 2} to {2, 3} and back. -/
theorem compare_number_sets_reversed :
    Reversible (numberSetObject [.number (1 : Int), .number 2])
      (numberSetObject [.number 2, .number 3]) :=
  compare_is_reversible ⟨rfl, rfl⟩

end StructuredMergeDiff.Typed
