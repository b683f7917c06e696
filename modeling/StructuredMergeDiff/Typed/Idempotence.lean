import StructuredMergeDiff.Typed.MergeOrder
import StructuredMergeDiff.Typed.MergeSafety

/-!
Contract: merging the same object twice.

The merge has all items of the right side, in its order. So a second merge finds the
two sides aligned: it keeps the order and merges every item with itself once more.

Owns: that merging is idempotent.
-/

namespace StructuredMergeDiff.Typed

open Library Std Compare Value

variable {N : Type} [Numeric N] [Consistent N] {sc : Schema N} {tr : TypeRef N}

/-- Merging the right side once more changes nothing. -/
def Settles (sc : Schema N) (tr : TypeRef N) (x : Option (Value N)) (y : Value N) : Prop :=
  ∀ m again, merged sc tr x (some y) = some m → merged sc tr (some m) (some y) = some again →
    (again == m) = true

/-- All pairs of sides that are less deep settle. -/
def SettlesBelow (sc : Schema N) (bound : Nat) : Prop :=
  ∀ (tr : TypeRef N) (x : Option (Value N)) (y : Value N), sideDepth x + sideDepth (some y) < bound →
    SoundSide sc true tr x → Sound sc false ⟨tr, y⟩ → Settles sc tr x y

section Levels

variable {x : Option (Value N)} {y m again : Value N}

/-- A child of the right side, with what the left side has for it, is merged and settles. -/
theorem SettlesBelow.kid (below : SettlesBelow sc (sideDepth x + sideDepth (some y)))
    (soundLeft : SoundSide sc true tr x) (sound : Sound sc false ⟨tr, y⟩)
    {alternative : Alternative N} (resolved : resolveSchema sc tr y = .ok alternative)
    {pe : PathElement N} (proper : pe.isProper = true) {l : Option (Value N)} {b : Value N}
    (inLeft : ∀ w, l = some w → w ∈ kidValuesOf sc alternative x pe ∨
      w = .null ∧ kidValuesOf sc alternative x pe ≠ [])
    (inRight : b ∈ kidValuesOf sc alternative (some y) pe) :
    ∃ a, merged sc (kidTypeOf alternative pe) l (some b) = some a ∧
      ∃ other, merged sc (kidTypeOf alternative pe) (some a) (some b) = some other ∧
        (other == a) = true := by
  have isRight : ∀ w, some b = some w → w ∈ kidValuesOf sc alternative (some y) pe := by
    intro w same
    cases same
    exact inRight
  obtain ⟨soundL, soundB, less⟩ := soundSides_of_kids soundLeft (soundSide_some.mpr sound) resolved pe
    proper (Or.inr (by simp)) inLeft isRight
  obtain ⟨a, isMerged⟩ := merged_of_sound soundL soundB (Or.inr (by simp))
  obtain ⟨other, isOther⟩ := merged_of_sound (soundSide_some.mpr isMerged.sound) soundB
    (Or.inr (by simp))
  exact ⟨a, isMerged.isMerged, other, isOther.isMerged,
    below _ l b less soundL (soundSide_some.mp soundB) a other isMerged.isMerged isOther.isMerged⟩

theorem merged_alone {a : Value N} (sound : Sound sc true ⟨tr, a⟩) :
    ∃ b, merged sc tr (some a) none = some b ∧ (b == a) = true := by
  have noRight : SoundSide sc false tr none := by simp [SoundSide]
  obtain ⟨b, isMerged⟩ := merged_of_sound (soundSide_some.mpr sound) noRight (Or.inl (by simp))
  exact ⟨b, isMerged.isMerged, isMerged.ofLeft a rfl rfl⟩

/-! ## Maps -/

omit [Consistent N] in
/-- A value with the entries of a map that is not empty is a map. -/
theorem beq_of_entries (entries : ∀ name, Value.SameOption (again.get? name) (m.get? name))
    (present : m.entries ≠ []) : (again == m) = true := by
  obtain ⟨bindings, rfl⟩ := isMap_of_entries present
  obtain ⟨entry, member⟩ := List.exists_mem_of_ne_nil _ present
  have found := (entries entry.1).isSome_eq
  rw [get?_eq_some_iff.mpr member] at found
  obtain ⟨value, isValue⟩ := Option.isSome_iff_exists.mp found
  obtain ⟨others, rfl⟩ := isMap_of_entries (List.ne_nil_of_mem (get?_eq_some_iff.mp isValue))
  exact beq_map_iff.mpr entries

/-- Maps settle entry by entry. -/
theorem Merged.map_settles {t : MapType N} (isMerged : Merged sc true tr x (some y) m)
    (isAgain : Merged sc true tr (some m) (some y) again)
    (below : SettlesBelow sc (sideDepth x + sideDepth (some y)))
    (soundLeft : SoundSide sc true tr x) (sound : Sound sc false ⟨tr, y⟩)
    (resolved : resolveSchema sc tr y = .ok (.map t)) (granular : t.elementRelationship ≠ .atomic)
    (name : String) : Value.SameOption (again.get? name) (m.get? name) := by
  have first := isMerged.get?_side resolved granular name
  have second := isAgain.get?_eq resolved granular name
  have level := isMerged.level _ ⟨y, rfl, resolved⟩
  rw [second]
  cases right : y.get? name with
  | none =>
      cases held : m.get? name with
      | none =>
          rw [merged_none]
          exact Option.Rel.none
      | some a =>
          have soundA := (isMerged.sound.entries_known level.resolved _
            (get?_eq_some_iff.mp held)).2
          obtain ⟨b, isLeft, same⟩ := merged_alone soundA
          rw [isLeft]
          exact Option.Rel.some same
  | some b =>
      have inRight : b ∈ kidValuesOf sc (.map t) (some y) (.fieldName name) := by
        rw [kidValuesOf_map granular, derefMap_getD]
        show b ∈ (y.get? name).toList
        rw [right]
        exact List.mem_singleton.mpr rfl
      have inLeft : ∀ w, x.bind (·.get? name) = some w →
          w ∈ kidValuesOf sc (.map t) x (.fieldName name) ∨
            w = .null ∧ kidValuesOf sc (.map t) x (.fieldName name) ≠ [] := by
        intro w found
        left
        obtain ⟨v, isLeft, inValue⟩ := Option.bind_eq_some_iff.mp found
        rw [isLeft, kidValuesOf_map granular, derefMap_getD]
        show w ∈ (v.get? name).toList
        rw [inValue]
        exact List.mem_singleton.mpr rfl
      obtain ⟨a, isFirst, other, isOther, same⟩ := below.kid soundLeft sound resolved
        (show (PathElement.fieldName name : PathElement N).isProper = true from rfl) inLeft inRight
      have type : kidTypeOf (.map t) (.fieldName name : PathElement N) = t.fieldType name := rfl
      rw [type] at isFirst isOther
      rw [first, right, isFirst, isOther]
      exact Option.Rel.some same

/-! ## Lists -/

section Lists

variable {t : ListType N} {left right out out' : List (PathElement N × Value N)}

omit [Consistent N] in
/-- Items that are listed with their names, up to equality of names. -/
theorem namedItems_of_named (named : ∀ entry ∈ out, ∃ other,
    listItemToPathElement sc t entry.2 = .ok other ∧ (other == entry.1) = true) :
    List.Forall₂ (fun item entry => (item.1 == entry.1) = true ∧ item.2 = entry.2)
      (namedItems sc t (out.map Prod.snd)) out := by
  induction out with
  | nil => exact .nil
  | cons entry rest ih =>
      obtain ⟨other, isNamed, same⟩ := named entry List.mem_cons_self
      rw [List.map_cons, namedItems_cons_ok isNamed]
      exact .cons ⟨same, rfl⟩ (ih fun later member =>
        named later (List.mem_cons_of_mem _ member))

section

variable (items : ItemsMerge sc tr left right out)
  (named : ∀ entry ∈ out, ∃ other, listItemToPathElement sc t entry.2 = .ok other ∧ (other == entry.1) = true)

include items named

/-- What a merged list has of the right side, under the names of its own items. -/
theorem ItemsMerge.listed :
    List.Forall₂ (fun item entry => (item.1 == entry.1) = true ∧
        merged sc tr (Merge.indexedValue (entriesAt left entry.1)) (some entry.2) = some item.2)
      ((namedItems sc t (out.map Prod.snd)).filter fun item => hasName right item.1) right := by
  have own : List.Forall₂ (fun item entry => (item.1 == entry.1) = true ∧ item.2 = entry.2)
      ((namedItems sc t (out.map Prod.snd)).filter fun item => hasName right item.1)
      (out.filter fun entry => hasName right entry.1) :=
    List.rel_filter (fun item entry pair => by
      show hasName right item.1 = true ↔ hasName right entry.1 = true
      rw [hasName_congr right pair.1]) (namedItems_of_named named)
  have joined := forall₂_of_common own items.fromRight.flip
  exact joined.imp fun item entry ⟨_, _, ⟨same, isValue⟩, sameRight, isMerged⟩ =>
    ⟨BEq.trans same sameRight, by rw [isMerged, isValue]⟩

/-- A merged list is aligned with the right side, and all of its names are there. -/
theorem ItemsMerge.sameOrder :
    (∀ entry ∈ right, hasName (namedItems sc t (out.map Prod.snd)) entry.1 = true) ∧
      SameOrder (namedItems sc t (out.map Prod.snd)) right := by
  have listed := items.listed named
  have all : ∀ entry ∈ right, hasName (namedItems sc t (out.map Prod.snd)) entry.1 = true := by
    intro entry member
    obtain ⟨item, inListed, same, -⟩ := exists_of_mem_right listed member
    exact List.any_eq_true.mpr ⟨item, (List.mem_filter.mp inListed).1, same⟩
  refine ⟨all, ?_⟩
  have whole : (right.map Prod.fst).filter
      (fun pe => hasName (namedItems sc t (out.map Prod.snd)) pe) = right.map Prod.fst := by
    rw [List.filter_eq_self]
    intro pe member
    obtain ⟨entry, inRight, rfl⟩ := List.mem_map.mp member
    exact all entry inRight
  rw [SameOrder, whole, List.filter_map, List.forall₂_map_left_iff, List.forall₂_map_right_iff]
  exact listed.imp fun item entry pair => pair.1

/-- A second merge of the right side gives the items of the first one, in their order. -/
theorem ItemsMerge.settle (separate : Separate right)
    (again : ItemsMerge sc tr (namedItems sc t (out.map Prod.snd)) right out')
    (ordered : (out'.filter fun entry =>
        hasName (namedItems sc t (out.map Prod.snd)) entry.1).map Prod.fst =
      (namedItems sc t (out.map Prod.snd)).map Prod.fst)
    (alone : ∀ item ∈ namedItems sc t (out.map Prod.snd), ∀ m,
      merged sc tr (some item.2) none = some m → (m == item.2) = true)
    (settles : ∀ entry ∈ right, ∀ a b,
      merged sc tr (Merge.indexedValue (entriesAt left entry.1)) (some entry.2) = some a →
      merged sc tr (some a) (some entry.2) = some b → (b == a) = true) :
    List.Forall₂ (fun first second => (first.2 == second.2) = true) out'
      (namedItems sc t (out.map Prod.snd)) := by
  have listed := items.listed named
  have all := (items.sameOrder named).1
  have allListed : ∀ entry ∈ out', hasName (namedItems sc t (out.map Prod.snd)) entry.1 = true := by
    intro entry member
    cases isRight : hasName right entry.1 with
    | true =>
        obtain ⟨item, inRight, same, -⟩ := exists_of_mem_left again.fromRight
          (List.mem_filter.mpr ⟨member, isRight⟩)
        rw [hasName_congr _ same]
        exact all item inRight
    | false =>
        obtain ⟨item, inListed, same, -⟩ := exists_of_mem_left again.leftOnly
          (List.mem_filter.mpr ⟨member, by simp [isRight]⟩)
        rw [same]
        exact Merge.hasName_of_mem (List.mem_filter.mp inListed).1
  rw [List.filter_eq_self.mpr allListed] at ordered
  refine forall₂_of_filter (hasName right) ordered ?_ ?_
  · -- both are the merge of the right side's item, the second time with the first merge
    refine (forall₂_of_common again.fromRight listed).imp ?_
    intro first second ⟨entry, inRight, ⟨_, isSecond⟩, _, isFirst⟩
    have only : entriesAt (namedItems sc t (out.map Prod.snd)) entry.1 = [second.2] := by
      rw [entriesAt_of_named named, items.entriesAt_eq separate, entriesAt_of_mem separate inRight,
        mergeAll, isFirst]
      rfl
    rw [only] at isSecond
    exact settles entry inRight second.2 first.2 isFirst isSecond
  · refine forall₂_of_mem again.leftOnly fun first _ second inListed pair => ?_
    exact alone second (List.mem_filter.mp inListed).1 first.2 pair.2

end

end Lists

/-- The items of a value, as one side of a merged list. -/
theorem Sound.validItems {duplicates : Bool} {t : ListType N} {v : Value N}
    (sound : Sound sc duplicates ⟨tr, v⟩) (resolved : resolveSchema sc tr v = .ok (.list t))
    (granular : t.elementRelationship ≠ .atomic) : ValidItems sc t duplicates v.items := by
  obtain ⟨named, separate, soundItems⟩ := sound.items_named resolved granular
  exact ⟨named, separate, soundItems⟩

/-- The items of the merge of two lists, with their order. -/
theorem Merged.ordered_items {t : ListType N} {x : Value N}
    (isMerged : Merged sc true tr (some x) (some y) m) (soundLeft : Sound sc true ⟨tr, x⟩)
    (sound : Sound sc false ⟨tr, y⟩) (resolvedLeft : resolveSchema sc tr x = .ok (.list t))
    (resolved : resolveSchema sc tr y = .ok (.list t))
    (held : leafPair (.list t) (some x) (some y) = false) :
    ∃ out, m = .list (out.map Prod.snd) ∧
      ItemsMerge sc t.elementType (namedItems sc t x.items) (namedItems sc t y.items) out ∧
      (SameOrder (namedItems sc t x.items) (namedItems sc t y.items) →
        (out.filter fun entry => hasName (namedItems sc t x.items) entry.1).map Prod.fst =
          (namedItems sc t x.items).map Prod.fst) := by
  obtain ⟨granular, notEmpty⟩ : t.elementRelationship ≠ .atomic ∧ (x.items ≠ [] ∨ y.items ≠ []) := by
    simpa [leafPair, imp_iff_not_or, derefList_getD] using held
  obtain ⟨out, walk, -, items, ordered⟩ := (soundLeft.validItems resolvedLeft granular).merge
    (sound.validItems resolved granular) notEmpty
  have under : Merge.under sc (.list t) (some x) (some y) =
      some { out := some (.list (out.map Prod.snd)), errs := [] } := by
    have notLeaf : ¬ (decide (t.elementRelationship = .atomic) ||
        (x.items.isEmpty && y.items.isEmpty)) = true := by
      simpa [leafPair, derefList_getD] using held
    unfold Merge.under Merge.doList
    dsimp only
    rw [derefList_getD, derefList_getD, if_neg notLeaf]
    exact walk
  have governs : Governs sc tr (some x) (some y) (.list t) := ⟨y, rfl, resolved⟩
  have whole := mergeWalk_eq_under governs
    (fun other left isLeft own => by
      cases isLeft
      cases Except.ok.inj (resolvedLeft.symm.trans own)
      exact ⟨_, under⟩)
    fun other isLeft => ⟨.list t, by cases isLeft; exact resolvedLeft⟩
  rw [isMerged.walk, under] at whole
  cases whole
  exact ⟨out, rfl, items, ordered⟩

/-- Lists settle item by item. -/
theorem Merged.list_settles {t : ListType N} (isMerged : Merged sc true tr x (some y) m)
    (isAgain : Merged sc true tr (some m) (some y) again)
    (below : SettlesBelow sc (sideDepth x + sideDepth (some y)))
    (soundLeft : SoundSide sc true tr x) (sound : Sound sc false ⟨tr, y⟩)
    (resolved : resolveSchema sc tr y = .ok (.list t))
    (held : leafPair (.list t) x (some y) = false) : (again == m) = true := by
  have level := isMerged.level _ ⟨y, rfl, resolved⟩
  obtain ⟨out, rfl, items, named⟩ := level.items t rfl held
  have granular : t.elementRelationship ≠ .atomic := by
    have both := held
    simp only [leafPair, Bool.or_eq_false_iff, decide_eq_false_iff_not] at both
    exact both.1
  have isRight : sideItems sc t (some y) = namedItems sc t y.items := by
    rw [sideItems, derefList_getD]
  rw [isRight] at items
  have separate := (sound.items_named resolved granular).2.1 rfl
  have present : out ≠ [] := by
    intro none
    have isKids : kids sc ⟨tr, .list (out.map Prod.snd)⟩ =
        kidsOf sc (.list t) (.list (out.map Prod.snd)) := by
      simp only [kids, level.resolved]
    apply level.holds held
    rw [isKids, none]
    simp [kidsOf, granular, Value.items]
  have heldAgain : leafPair (.list t) (some (.list (out.map Prod.snd))) (some y) = false := by
    simp [leafPair, granular, derefList, present]
  obtain ⟨out', rfl, itemsAgain, ordered⟩ := isAgain.ordered_items isMerged.sound sound level.resolved
    resolved heldAgain
  have alone : ∀ item ∈ namedItems sc t (out.map Prod.snd), ∀ m,
      merged sc t.elementType (some item.2) none = some m → (m == item.2) = true := by
    intro item member m isAlone
    obtain ⟨b, isOther, same⟩ := merged_alone ((isMerged.sound.items_named level.resolved
      granular).2.2 item.2 (mem_of_mem_namedItems member).1)
    cases Option.some.inj (isOther.symm.trans isAlone)
    exact same
  have settles : ∀ entry ∈ namedItems sc t y.items, ∀ a b,
      merged sc t.elementType (Merge.indexedValue (entriesAt (sideItems sc t x) entry.1))
        (some entry.2) = some a →
      merged sc t.elementType (some a) (some entry.2) = some b → (b == a) = true := by
    intro entry member a b isFirst isSecond
    have proper := proper_of_named (mem_of_mem_namedItems member).2
    have left : kidValuesOf sc (.list t) x entry.1 = entriesAt (sideItems sc t x) entry.1 :=
      kidValuesOf_list granular x proper
    have right : kidValuesOf sc (.list t) (some y) entry.1 = [entry.2] := by
      rw [kidValuesOf_list granular (some y) proper, derefList_getD,
        entriesAt_of_mem separate member]
    obtain ⟨c, isC, other, isOther, same⟩ := below.kid soundLeft sound resolved proper
      (fun w found => left ▸ indexedValue_eq_some found) (right ▸ List.mem_singleton.mpr rfl)
    cases Option.some.inj (isC.symm.trans isFirst)
    cases Option.some.inj (isOther.symm.trans isSecond)
    exact same
  have paired := items.settle named separate itemsAgain
    (ordered (items.sameOrder named).2) alone settles
  have all : (namedItems sc t (out.map Prod.snd)).map Prod.snd = out.map Prod.snd :=
    namedItems_map_snd (isMerged.sound.items_named level.resolved granular).1
  rw [beq_list, ← all, List.forall₂_map_left_iff, List.forall₂_map_right_iff]
  exact paired

end Levels

/-! ## Values -/

theorem settles_of_sound {x : Option (Value N)} {y : Value N} (soundLeft : SoundSide sc true tr x)
    (sound : Sound sc false ⟨tr, y⟩) : Settles sc tr x y := by
  induction bound : sideDepth x + sideDepth (some y) using Nat.strong_induction_on
    generalizing tr x y with
  | _ total ih =>
      subst bound
      have below : SettlesBelow sc (sideDepth x + sideDepth (some y)) :=
        fun tr x y less left right => ih _ less left right rfl
      intro m again merges mergesAgain
      obtain ⟨m', isMerged⟩ := merged_of_sound soundLeft (soundSide_some.mpr sound)
        (Or.inr (by simp))
      cases Option.some.inj (isMerged.isMerged.symm.trans merges)
      obtain ⟨again', isAgain⟩ := merged_of_sound (soundSide_some.mpr isMerged.sound)
        (soundSide_some.mpr sound) (Or.inr (by simp))
      cases Option.some.inj (isAgain.isMerged.symm.trans mergesAgain)
      obtain ⟨alternative, resolved, -⟩ := sound.alternative
      have level := isMerged.level _ ⟨y, rfl, resolved⟩
      cases leaf : leafPair alternative x (some y) with
      | true =>
          -- the right side itself
          cases level.leaf leaf
          exact isAgain.ofRight y rfl fun v isLeft => Or.inr (by cases isLeft; exact BEq.refl y)
      | false =>
          have isKids : kids sc ⟨tr, m⟩ = kidsOf sc alternative m := by
            simp only [kids, level.resolved]
          have holds := level.holds leaf
          rw [isKids] at holds
          cases alternative with
          | scalar t => exact absurd rfl holds
          | list t => exact isMerged.list_settles isAgain below soundLeft sound resolved leaf
          | map t =>
              have granular : t.elementRelationship ≠ .atomic := by
                intro atomic
                exact holds (if_pos atomic)
              have entries := isMerged.map_settles isAgain below soundLeft sound resolved granular
              exact beq_of_entries entries (fun none => holds (by simp [kidsOf, none]))

/-! ## Objects -/

/-- Two objects hold equal values. -/
def TypedValue.SameValue (first second : TypedValue N) : Prop :=
  ∃ v w, first.value = some v ∧ second.value = some w ∧ (v == w) = true

end StructuredMergeDiff.Typed
