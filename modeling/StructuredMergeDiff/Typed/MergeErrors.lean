import Mathlib.Logic.Relation
import StructuredMergeDiff.Typed.MergeSafety

/-!
Contract: which errors a merge reports.

A list item is merged by a walk of its own. The loop that calls it assigns the
errors of that walk to a variable of the same name as the list's, so that they end
with the iteration. Errors in map entries are passed on.

Owns: the walks that a walk performs; that merging values which are valid apart from
duplicates reports an error exactly if the right side has duplicates in a list that
is reached through map entries alone; and when all errors are reported.
-/

namespace StructuredMergeDiff.Typed

open Library Std Compare Typed.Merge

variable {N : Type} [Numeric N] {sc : Schema N}

/-! ## Duplicates in a value -/

/-- A list of the value has two items of one name. The list is reached through map
entries, and through the items of lists without duplicates if `throughItems`. -/
inductive DuplicatesIn (sc : Schema N) (throughItems : Bool) : Node N → Prop
  | here {n : Node N} {t : ListType N} (resolved : resolveSchema sc n.type n.value = .ok (.list t))
      (granular : t.elementRelationship ≠ .atomic)
      (duplicates : ¬ Separate (namedItems sc t n.value.items)) : DuplicatesIn sc throughItems n
  | entry {n : Node N} {t : MapType N} {entry : String × Value N}
      (resolved : resolveSchema sc n.type n.value = .ok (.map t))
      (granular : t.elementRelationship ≠ .atomic) (member : entry ∈ n.value.entries)
      (within : DuplicatesIn sc throughItems ⟨t.fieldType entry.1, entry.2⟩) :
      DuplicatesIn sc throughItems n
  | item {n : Node N} {t : ListType N} {item : Value N} (through : throughItems = true)
      (resolved : resolveSchema sc n.type n.value = .ok (.list t))
      (granular : t.elementRelationship ≠ .atomic)
      (separate : Separate (namedItems sc t n.value.items)) (member : item ∈ n.value.items)
      (within : DuplicatesIn sc throughItems ⟨t.elementType, item⟩) : DuplicatesIn sc throughItems n

theorem DuplicatesIn.weaken {n : Node N} (duplicates : DuplicatesIn sc false n) :
    DuplicatesIn sc true n := by
  induction duplicates with
  | here resolved granular duplicates => exact .here resolved granular duplicates
  | entry resolved granular member within ih =>
      exact .entry resolved granular member ih
  | item through => cases through

/-- The right side has such a list. -/
def RightDuplicates (sc : Schema N) (throughItems : Bool) (call : Merge.Call N) : Prop :=
  ∃ y, call.rhs = some y ∧ DuplicatesIn sc throughItems ⟨call.type, y⟩

/-! ## Walks that a walk performs -/

/-- The walks of items and entries that a walk performs. -/
inductive Performs (sc : Schema N) : Merge.Call N → Merge.Call N → Prop
  | item {call : Merge.Call N} {v : Value N} {t : ListType N}
      {emissions : List (Merge.Emission N)} {emission : Merge.Emission N}
      (operand : call.lhs = some v ∨ call.rhs = some v)
      (resolved : resolveSchema sc call.type v = .ok (.list t))
      (granular : t.elementRelationship ≠ .atomic)
      (cleanRight : (Merge.indexListPathElements sc t false 0 .start
        ((derefList call.rhs).getD [])).errs = [])
      (cleanLeft : (Merge.indexListPathElements sc t true 0 .start
        ((derefList call.lhs).getD [])).errs = [])
      (scheduled : Merge.schedule
        (Merge.indexListPathElements sc t true 0 .start ((derefList call.lhs).getD []))
        (Merge.indexListPathElements sc t false 0 .start ((derefList call.rhs).getD [])) =
          some emissions)
      (member : emission ∈ emissions) :
      Performs sc call ⟨t.elementType, emission.lChild, emission.rChild⟩
  | entry {call : Merge.Call N} {v : Value N} {t : MapType N}
      {entry : String × Option (Value N) × Option (Value N)}
      (operand : call.lhs = some v ∨ call.rhs = some v)
      (resolved : resolveSchema sc call.type v = .ok (.map t))
      (granular : t.elementRelationship ≠ .atomic)
      (member : entry ∈ Value.mapZip ((derefMap call.lhs).getD []) ((derefMap call.rhs).getD [])) :
      Performs sc call ⟨t.fieldType entry.1, entry.2.1, entry.2.2⟩

/-- A call with sides that are valid apart from duplicates. -/
structure SoundCall (sc : Schema N) (call : Merge.Call N) : Prop where
  left : SoundSide sc true call.type call.lhs
  right : SoundSide sc true call.type call.rhs
  present : call.lhs ≠ none ∨ call.rhs ≠ none

/-- The depth of both sides. -/
def callDepth (call : Merge.Call N) : Nat :=
  sideDepth call.lhs + sideDepth call.rhs

variable [Consistent N]

section Performed

variable {call inner : Merge.Call N}

private theorem separate_of_clean {t : ListType N} {items : List (Value N)}
    (clean : (Merge.indexListPathElements sc t false 0 .start items).errs = []) :
    Separate (namedItems sc t items) := by
  have separate := index_separate sc t items 0 Merge.Indexed.start_faithful List.Pairwise.nil
  rw [(index_of_no_errs clean).2.2] at separate
  exact separate

private theorem scheduled_cases {t : ListType N} {lhs rhs : List (Value N)}
    {emissions : List (Merge.Emission N)} {emission : Merge.Emission N}
    (cleanRight : (Merge.indexListPathElements sc t false 0 .start rhs).errs = [])
    (cleanLeft : (Merge.indexListPathElements sc t true 0 .start lhs).errs = [])
    (scheduled : Merge.schedule (Merge.indexListPathElements sc t true 0 .start lhs)
      (Merge.indexListPathElements sc t false 0 .start rhs) = some emissions)
    (member : emission ∈ emissions) :
    (∃ entry ∈ namedItems sc t lhs, emission.lChild = some entry.2 ∧ emission.rChild = none) ∨
      ∃ entry ∈ namedItems sc t rhs,
        emission.lChild = Merge.indexedValue (entriesAt (namedItems sc t lhs) entry.1) ∧
        emission.rChild = some entry.2 := by
  have pesRight := (index_of_no_errs cleanRight).2.2
  have pesLeft := (index_of_no_errs cleanLeft).2.2
  have emitted := emitted_items
    (indexListPathElements_faithful sc t true lhs 0 Merge.Indexed.start_faithful)
    (indexListPathElements_faithful sc t false rhs 0 Merge.Indexed.start_faithful)
    (by rw [pesRight]; exact separate_of_clean cleanRight) scheduled
  rw [pesLeft, pesRight] at emitted
  exact emission_cases emitted.1 emitted.2 member

section

omit [Numeric N] [Consistent N]

private theorem list_of_sideItems {t : ListType N} {v : Value N} {side : Option (Value N)}
    (resolved : resolveSchema sc call.type v = .ok (.list t))
    (granular : t.elementRelationship ≠ .atomic) {entry : PathElement N × Value N}
    (member : entry ∈ sideItems sc t side) :
    ∃ y, side = some y ∧ resolveSchema sc call.type y = .ok (.list t) ∧
      (derefList side).getD [] = y.items ∧ entry.2 ∈ y.items := by
  have inItems := (mem_of_mem_namedItems member).1
  cases side with
  | none => cases inItems
  | some y =>
      rw [derefList_getD] at inItems
      have held : kidsOf sc (.list t) y ≠ [] := by
        simpa [kidsOf, granular] using List.ne_nil_of_mem inItems
      exact ⟨y, rfl, resolveSchema_of_kidsOf resolved held, derefList_getD y, inItems⟩

private theorem zipped_entry {lhs rhs : Option (Value N)}
    {entry : String × Option (Value N) × Option (Value N)}
    (member : entry ∈ Value.mapZip ((derefMap lhs).getD []) ((derefMap rhs).getD [])) :
    ∃ name, (lhs.bind (·.get? name) ≠ none ∨ rhs.bind (·.get? name) ≠ none) ∧
      entry = (name, lhs.bind (·.get? name), rhs.bind (·.get? name)) := by
  obtain ⟨name, inKeys, rfl⟩ := List.mem_map.mp member
  have held := mem_zipKeys_iff.mp inKeys
  rw [valueAt_derefMap, valueAt_derefMap] at held
  refine ⟨name, held, ?_⟩
  rw [← valueAt_derefMap, ← valueAt_derefMap]

private theorem map_of_entry {t : MapType N} {tr : TypeRef N} {v z : Value N}
    {side : Option (Value N)} {name : String}
    (resolved : resolveSchema sc tr v = .ok (.map t)) (granular : t.elementRelationship ≠ .atomic)
    (found : side.bind (·.get? name) = some z) :
    ∃ y, side = some y ∧ resolveSchema sc tr y = .ok (.map t) ∧ (name, z) ∈ y.entries := by
  obtain ⟨y, isY, inside⟩ := Option.bind_eq_some_iff.mp found
  have present : y.get? name ≠ none := by simp [inside]
  have held : kidsOf sc (.map t) y ≠ [] := kidsOf_map_ne_nil granular present
  exact ⟨y, isY, resolveSchema_of_kidsOf resolved held, Value.get?_eq_some_iff.mp inside⟩

end

/-- A walk of a sound call performs walks of sound calls that are less deep. Duplicates in
their right sides are duplicates in its own. -/
theorem Performs.sound (performs : Performs sc call inner) (sound : SoundCall sc call) :
    SoundCall sc inner ∧ callDepth inner < callDepth call ∧
      (RightDuplicates sc true inner → RightDuplicates sc true call) := by
  cases performs with
  | @item v t emissions emission operand resolved granular cleanRight cleanLeft scheduled member =>
      rcases scheduled_cases cleanRight cleanLeft scheduled member with
        ⟨entry, inLeft, lChild, rChild⟩ | ⟨entry, inRight, lChild, rChild⟩
      · rw [lChild, rChild]
        obtain ⟨left, right, less⟩ := leftItem_sides sound.left sound.right resolved granular inLeft
        refine ⟨⟨left, right, Or.inl (by simp)⟩, less, ?_⟩
        rintro ⟨y, isRight, -⟩
        cases isRight
      · rw [lChild, rChild]
        obtain ⟨left, right, less⟩ :=
          rightItem_sides sound.left sound.right resolved granular inRight
        refine ⟨⟨left, right, Or.inr (by simp)⟩, less, ?_⟩
        rintro ⟨_, isRight, duplicates⟩
        cases isRight
        obtain ⟨y, isY, own, items, inItems⟩ := list_of_sideItems resolved granular inRight
        have separate := separate_of_clean cleanRight
        rw [items] at separate
        exact ⟨y, isY, .item rfl own granular separate inItems duplicates⟩
  | @entry v t entry operand resolved granular member =>
      obtain ⟨name, held, rfl⟩ := zipped_entry member
      obtain ⟨left, right, less⟩ := entry_sides sound.left sound.right resolved granular held
      refine ⟨⟨left, right, held⟩, less, ?_⟩
      rintro ⟨z, isRight, duplicates⟩
      obtain ⟨y, isY, own, inEntries⟩ := map_of_entry resolved granular isRight
      exact ⟨y, isY, .entry own granular inEntries duplicates⟩

end Performed

/-! ## Reported errors -/

section Reported

/-- The walk ends, and reports errors exactly for duplicates that it reaches through map
entries. -/
def Reports (sc : Schema N) (call : Merge.Call N) : Prop :=
  ∃ walk, mergeWalk sc call.type call.lhs call.rhs = some walk ∧
    (walk.errs ≠ [] ↔ RightDuplicates sc false call)

/-- The same, under one alternative. -/
private def ReportsUnder (sc : Schema N) (call : Merge.Call N) (alternative : Alternative N) :
    Prop :=
  ∃ walk, Merge.under sc alternative call.lhs call.rhs = some walk ∧
    (walk.errs ≠ [] ↔ ∃ y, call.rhs = some y ∧ resolveSchema sc call.type y = .ok alternative ∧
      DuplicatesIn sc false ⟨call.type, y⟩)

omit [Consistent N] in
private theorem reportsUnder_leaf {call : Merge.Call N} {alternative : Alternative N}
    (leaf : leafPair alternative call.lhs call.rhs = true) : ReportsUnder sc call alternative := by
  refine ⟨_, under_of_leafPair leaf, iff_of_false (fun errs => errs rfl) ?_⟩
  rintro ⟨y, isRight, resolved, duplicates⟩
  rw [isRight] at leaf
  cases duplicates with
  | @here _ t own granular duplicates =>
      cases Except.ok.inj (resolved.symm.trans own)
      have empty : y.items = [] := by
        simp only [leafPair, derefList_getD, granular, decide_false, Bool.false_or,
          Bool.and_eq_true, List.isEmpty_iff] at leaf
        exact leaf.2
      apply duplicates
      rw [empty]
      exact List.Pairwise.nil
  | @entry _ t entry own granular member within =>
      cases Except.ok.inj (resolved.symm.trans own)
      have empty : y.entries = [] := by
        simp only [leafPair, derefMap_getD, granular, decide_false, Bool.false_or,
          Bool.and_eq_true, List.isEmpty_iff] at leaf
        exact leaf.2
      rw [empty] at member
      cases member
  | item through => cases through

private theorem reportsUnder_list {call : Merge.Call N} {v : Value N} {t : ListType N}
    (sound : SoundCall sc call) (below : ∀ inner, Performs sc call inner → Reports sc inner)
    (operand : call.lhs = some v ∨ call.rhs = some v)
    (resolved : resolveSchema sc call.type v = .ok (.list t))
    (held : leafPair (.list t) call.lhs call.rhs = false) : ReportsUnder sc call (.list t) := by
  obtain ⟨granular, -⟩ : t.elementRelationship ≠ .atomic ∧
      ((derefList call.lhs).getD [] ≠ [] ∨ (derefList call.rhs).getD [] ≠ []) := by
    simpa [leafPair, imp_iff_not_or] using held
  have notLeaf : ¬ (decide (t.elementRelationship = .atomic) ||
      (((derefList call.lhs).getD []).isEmpty && ((derefList call.rhs).getD []).isEmpty)) = true := by
    simpa [leafPair] using held
  obtain ⟨namedLeft, -, -⟩ := sound.left.items_of_resolved resolved granular
  obtain ⟨namedRight, -, -⟩ := sound.right.items_of_resolved resolved granular
  obtain ⟨cleanLeft, -⟩ := index_named true namedLeft (by simp)
  unfold ReportsUnder Merge.under Merge.doList
  dsimp only
  rw [if_neg notLeaf]
  by_cases separate : Separate (sideItems sc t call.rhs)
  · obtain ⟨cleanRight, -⟩ := index_named false namedRight fun _ => separate
    obtain ⟨emissions, scheduled⟩ := Option.isSome_iff_exists.mp (schedule_isSome
      (Merge.indexListPathElements sc t true 0 .start ((derefList call.lhs).getD []))
      (indexListPathElements_faithful sc t false ((derefList call.rhs).getD []) 0
        Merge.Indexed.start_faithful))
    have visited : (emissions.mapM fun emission =>
        Merge.visitKid sc ⟨t.elementType, emission.lChild, emission.rChild⟩) =
        some (emissions.map fun emission => ((mergeWalk sc t.elementType emission.lChild
          emission.rChild).getD { out := none, errs := [] })) := by
      apply mapM_some
      intro emission member
      obtain ⟨walk, isWalk, -⟩ := below _
        (.item operand resolved granular cleanRight cleanLeft scheduled member)
      simp only [Merge.visitKid, isWalk, Option.getD_some]
    simp only [Merge.visitListItems, cleanLeft, cleanRight, scheduled, List.append_nil,
      List.length_nil, ne_eq, not_true_eq_false, if_false, Option.bind_eq_bind, Option.bind_some,
      visited, Option.pure_def, Option.some.injEq, exists_eq_left', false_iff]
    rintro ⟨y, isRight, own, duplicates⟩
    rw [sideItems, isRight, derefList_getD] at separate
    cases duplicates with
    | @here _ other resolvedHere _ duplicates =>
        cases Except.ok.inj (own.symm.trans resolvedHere)
        exact duplicates separate
    | @entry _ other _ resolvedHere => cases Except.ok.inj (own.symm.trans resolvedHere)
    | item through => cases through
  · have reported : (Merge.indexListPathElements sc t false 0 .start
        ((derefList call.rhs).getD [])).errs ≠ [] := fun clean => separate (separate_of_clean clean)
    simp only [Merge.visitListItems, cleanLeft, List.append_nil, ne_eq, List.length_eq_zero_iff,
      reported, not_false_eq_true, if_true, Option.some.injEq, exists_eq_left', true_iff]
    have someItem : sideItems sc t call.rhs ≠ [] := by
      intro none
      apply separate
      rw [none]
      exact List.Pairwise.nil
    obtain ⟨entry, member⟩ := List.exists_mem_of_ne_nil _ someItem
    obtain ⟨y, isRight, own, items, -⟩ := list_of_sideItems resolved granular member
    rw [sideItems, items] at separate
    exact ⟨y, isRight, own, .here own granular separate⟩

omit [Consistent N] in
private theorem reportsUnder_map {call : Merge.Call N} {v : Value N} {t : MapType N}
    (below : ∀ inner, Performs sc call inner → Reports sc inner)
    (operand : call.lhs = some v ∨ call.rhs = some v)
    (resolved : resolveSchema sc call.type v = .ok (.map t))
    (held : leafPair (.map t) call.lhs call.rhs = false) : ReportsUnder sc call (.map t) := by
  obtain ⟨granular, -⟩ : t.elementRelationship ≠ .atomic ∧
      ((derefMap call.lhs).getD [] ≠ [] ∨ (derefMap call.rhs).getD [] ≠ []) := by
    simpa [leafPair, imp_iff_not_or] using held
  have notLeaf : ¬ (decide (t.elementRelationship = .atomic) ||
      (((derefMap call.lhs).getD []).isEmpty && ((derefMap call.rhs).getD []).isEmpty)) = true := by
    simpa [leafPair] using held
  let walkOf : String × Option (Value N) × Option (Value N) → MergeWalk N := fun entry =>
    (mergeWalk sc (t.fieldType entry.1) entry.2.1 entry.2.2).getD { out := none, errs := [] }
  have isWalk : ∀ entry ∈ Value.mapZip ((derefMap call.lhs).getD []) ((derefMap call.rhs).getD []),
      mergeWalk sc (t.fieldType entry.1) entry.2.1 entry.2.2 = some (walkOf entry) ∧
        ((walkOf entry).errs ≠ [] ↔
          RightDuplicates sc false ⟨t.fieldType entry.1, entry.2.1, entry.2.2⟩) := by
    intro entry member
    obtain ⟨walk, isWalk, reports⟩ := below _ (.entry operand resolved granular member)
    have isWalkOf : walkOf entry = walk := by simp only [walkOf, isWalk, Option.getD_some]
    rw [isWalkOf]
    exact ⟨isWalk, reports⟩
  have visited : (Value.mapZip ((derefMap call.lhs).getD []) ((derefMap call.rhs).getD [])).mapM
      (Merge.visitMapItem (Merge.visitKid sc) t) =
      some ((Value.mapZip ((derefMap call.lhs).getD []) ((derefMap call.rhs).getD [])).map
        fun entry => ((walkOf entry).out.map fun v => (entry.1, v),
          (walkOf entry).errs.withPrefix (.fieldName entry.1))) := by
    apply mapM_some
    intro entry member
    simp only [Merge.visitMapItem, Merge.visitKid, (isWalk entry member).1, Option.map_some]
  unfold ReportsUnder Merge.under Merge.doMap
  dsimp only
  rw [if_neg notLeaf]
  simp only [Merge.visitMapItems, visited, Option.bind_eq_bind, Option.bind_some, Option.pure_def,
    Option.some.injEq, exists_eq_left']
  have someErrs : ∀ entries : List (String × Option (Value N) × Option (Value N)),
      (entries.map fun entry => ((walkOf entry).out.map fun v => (entry.1, v),
        (walkOf entry).errs.withPrefix (.fieldName entry.1))).flatMap Prod.snd ≠ [] ↔
      ∃ entry ∈ entries, (walkOf entry).errs ≠ [] := by
    intro entries
    simp only [ne_eq, List.flatMap_eq_nil_iff, List.forall_mem_map, not_forall, exists_prop,
      ValidationErrors.withPrefix, List.map_eq_nil_iff]
  rw [someErrs]
  constructor
  · rintro ⟨entry, member, errs⟩
    obtain ⟨z, isRight, duplicates⟩ := (isWalk entry member).2.mp errs
    obtain ⟨name, -, rfl⟩ := zipped_entry member
    obtain ⟨y, isY, own, inEntries⟩ := map_of_entry resolved granular isRight
    exact ⟨y, isY, own, .entry own granular inEntries duplicates⟩
  · rintro ⟨y, isRight, own, duplicates⟩
    cases duplicates with
    | here resolvedHere => cases Except.ok.inj (own.symm.trans resolvedHere)
    | @entry _ other entry resolvedHere _ member within =>
        cases Except.ok.inj (own.symm.trans resolvedHere)
        have found : call.rhs.bind (·.get? entry.1) = some entry.2 := by
          rw [isRight]
          exact Value.get?_eq_some_iff.mpr member
        have zipped : (entry.1, call.lhs.bind (·.get? entry.1), some entry.2) ∈
            Value.mapZip ((derefMap call.lhs).getD []) ((derefMap call.rhs).getD []) := by
          refine List.mem_map.mpr ⟨entry.1, mem_zipKeys_iff.mpr (Or.inr ?_), ?_⟩
          · rw [valueAt_derefMap, found]
            simp
          · rw [← found, ← valueAt_derefMap, ← valueAt_derefMap]
        exact ⟨_, zipped, (isWalk _ zipped).2.mpr ⟨entry.2, rfl, within⟩⟩
    | item through => cases through

/-- Walks of sound calls end, and report what they reach through map entries. -/
theorem reports_of_sound {call : Merge.Call N} (sound : SoundCall sc call) : Reports sc call := by
  induction bound : callDepth call using Nat.strong_induction_on generalizing call with
  | _ depth ih =>
      subst bound
      have below : ∀ inner, Performs sc call inner → Reports sc inner := by
        intro inner performs
        obtain ⟨soundInner, less, -⟩ := performs.sound sound
        exact ih _ less soundInner rfl
      have under : ∀ {v alternative}, (call.lhs = some v ∨ call.rhs = some v) →
          resolveSchema sc call.type v = .ok alternative → ReportsUnder sc call alternative := by
        intro v alternative operand resolved
        cases held : leafPair alternative call.lhs call.rhs with
        | true => exact reportsUnder_leaf held
        | false =>
            obtain ⟨chosen, isChosen, ok⟩ := pairOk_of_sound sound.left sound.right operand
            cases Except.ok.inj (resolved.symm.trans isChosen)
            cases alternative with
            | scalar t =>
                rcases ok with leaf | none
                · rw [leaf] at held
                  cases held
                · exact none.elim
            | list t => exact reportsUnder_list sound below operand resolved held
            | map t => exact reportsUnder_map below operand resolved held
      have resolves : ∀ {v}, (call.lhs = some v ∨ call.rhs = some v) →
          ∃ alternative, resolveSchema sc call.type v = .ok alternative := fun operand =>
        (pairOk_of_sound sound.left sound.right operand).imp fun _ ok => ok.1
      obtain ⟨w, isWinner, operand⟩ := winner_of_present sound.present
      obtain ⟨alternative, resolved⟩ := resolves operand
      obtain ⟨walk, isWalk, reports⟩ := under operand resolved
      -- the right side, if there is one, decides the alternative
      have governed : (∃ y, call.rhs = some y ∧ resolveSchema sc call.type y = .ok alternative ∧
          DuplicatesIn sc false ⟨call.type, y⟩) ↔ RightDuplicates sc false call := by
        constructor
        · rintro ⟨y, isRight, -, duplicates⟩
          exact ⟨y, isRight, duplicates⟩
        · rintro ⟨y, isRight, duplicates⟩
          rw [isRight] at isWinner
          rw [← Option.some.inj isWinner] at resolved
          exact ⟨y, isRight, resolved, duplicates⟩
      rw [governed] at reports
      rcases mergeWalk_cases ⟨w, isWinner, resolved⟩ fun x isLeft => resolves (Or.inl isLeft) with
        alone | ⟨x, left, isLeft, resolvedLeft, both⟩
      · exact ⟨walk, alone.trans isWalk, reports⟩
      · obtain ⟨first, isFirst, reportsFirst⟩ := under (Or.inl isLeft) resolvedLeft
        refine ⟨{ walk with errs := first.errs ++ walk.errs }, ?_, ?_⟩
        · rw [both, isFirst, isWalk]
          rfl
        · rw [← reports]
          simp only [ne_eq, List.append_eq_nil_iff, not_and_or]
          refine or_iff_right_of_imp fun errs => reports.mpr ?_
          obtain ⟨y, isRight, -, duplicates⟩ := reportsFirst.mp errs
          exact ⟨y, isRight, duplicates⟩

end Reported

/-! ## Objects -/

/-- The object has a list with two items of one name. -/
def TypedValue.HasDuplicates (tv : TypedValue N) (throughItems : Bool) : Prop :=
  ∃ v, tv.value = some v ∧ DuplicatesIn tv.schema.val throughItems ⟨tv.typeRef, v⟩

/-- `Merge` returns errors. -/
def TypedValue.MergeFails (lhs rhs : TypedValue N) : Prop :=
  ∃ errs, lhs.merge rhs = .error (.errors errs)

/-- `Merge` returns errors if the right side has duplicates anywhere, and if any walk that
it performs reports one. -/
structure TypedValue.ReportsErrors (lhs rhs : TypedValue N) : Prop where
  duplicates : rhs.HasDuplicates true → lhs.MergeFails rhs
  performed : ∀ inner walk,
    Relation.TransGen (Performs lhs.schema.val) ⟨lhs.typeRef, lhs.value, rhs.value⟩ inner →
    mergeWalk lhs.schema.val inner.type inner.lhs inner.rhs = some walk → walk.errs ≠ [] →
    lhs.MergeFails rhs

section Objects

variable {lhs rhs : TypedValue N}

private theorem duplicates_of_performed {call inner : Merge.Call N} (sound : SoundCall sc call)
    (performed : Relation.TransGen (Performs sc) call inner) :
    SoundCall sc inner ∧ (RightDuplicates sc true inner → RightDuplicates sc true call) := by
  induction performed with
  | single performs =>
      obtain ⟨soundInner, -, lifts⟩ := performs.sound sound
      exact ⟨soundInner, lifts⟩
  | tail _ performs ih =>
      obtain ⟨soundInner, -, lifts⟩ := performs.sound ih.1
      exact ⟨soundInner, fun duplicates => ih.2 (lifts duplicates)⟩

omit [Consistent N] in
private theorem soundCall_of_objects (same : SameType lhs rhs) (soundLeft : SoundObject true lhs)
    (soundRight : SoundObject true rhs) :
    SoundCall lhs.schema.val ⟨lhs.typeRef, lhs.value, rhs.value⟩ := by
  have right := soundRight.side
  obtain ⟨l, isLeft, -⟩ := soundLeft.value
  rw [same.schema, same.typeRef] at right
  exact ⟨soundLeft.side, right, Or.inl (by simp [isLeft])⟩

/-- The merge of objects that are valid apart from duplicates fails exactly if the right one
has duplicates that are reached through map entries. -/
theorem mergeFails_iff (same : SameType lhs rhs) (soundLeft : SoundObject true lhs)
    (soundRight : SoundObject true rhs) : lhs.MergeFails rhs ↔ rhs.HasDuplicates false := by
  obtain ⟨walk, isWalk, reports⟩ := reports_of_sound (soundCall_of_objects same soundLeft soundRight)
  have isDuplicates : RightDuplicates lhs.schema.val false ⟨lhs.typeRef, lhs.value, rhs.value⟩ ↔
      rhs.HasDuplicates false := by
    unfold RightDuplicates TypedValue.HasDuplicates
    rw [same.schema, same.typeRef]
  rw [← isDuplicates, ← reports]
  simp only [TypedValue.MergeFails, TypedValue.merge, checkOperands_of_sameType same,
    List.length_nil, ne_eq, not_true_eq_false, if_false, isWalk, List.length_eq_zero_iff]
  by_cases errs : walk.errs = [] <;> simp [errs]

end Objects

/-- An object with a list of items that have a key and a set of numbers. -/
def nestedListObject (items : List (Value N)) : TypedValue N :=
  { value := some (.map [("outer", .list items)])
    typeRef := .inline (.ofMap (.struct [("outer", .inline (.ofList
      { elementType := .inline (.ofMap (.struct [("k", .inline (.ofScalar .numeric)),
          ("inner", .inline (.ofList Collision.numberSet))]))
        elementRelationship := .associative
        keys := ["k"] }))]))
    schema := ⟨0, ⟨[]⟩⟩ }

end StructuredMergeDiff.Typed
