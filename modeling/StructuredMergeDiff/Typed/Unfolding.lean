import StructuredMergeDiff.Typed.Interleaving
import StructuredMergeDiff.Typed.Remove
import StructuredMergeDiff.Typed.ToFieldSet

/-!
Contract: each walker is a fixed point of its own recursion.

The walkers are given by their bodies and run along the depth of what they
walk. Here the depth is discharged once, and every later proof unfolds a
walker by its equation.

Owns: `toFieldSetWalk_eq`, `removeItemsWithSchema_eq`, `validate_eq`,
`compareWalk_eq` and `mergeWalk_eq`.
-/

namespace StructuredMergeDiff.Typed

open Library Value Typed.Merge Compare

variable {N : Type} [Numeric N]

/-! ## ToFieldSet -/

private theorem toFieldSet_descends (sc : Schema N) :
    Descends (fun pair : TypeRef N × Value N => pair.2.depth) (ToFieldSet.body sc) := by
  intro first second call agree
  obtain ⟨tr, v⟩ := call
  simp only [ToFieldSet.body]
  split
  · rfl
  · rfl
  · next t _ =>
      simp only [ToFieldSet.doList]
      split
      · rfl
      · split
        · next items _ =>
            simp only [ToFieldSet.visitListItems]
            congr 2
            apply List.map_congr_left
            intro item member
            rw [agree (t.elementType, item) (depth_lt_of_mem_items (v := .list items) member)]
        · rfl
  · next t _ =>
      simp only [ToFieldSet.doMap]
      split
      · rfl
      · split
        · next bindings _ =>
            simp only [ToFieldSet.visitMapItems]
            congr 1
            apply List.map_congr_left
            intro entry member
            rw [agree (t.fieldType entry.1, entry.2) (depth_lt_of_mem_entries member)]
        · rfl

theorem toFieldSetWalk_eq (sc : Schema N) (tr : TypeRef N) (v : Value N) :
    toFieldSetWalk sc tr v =
      ToFieldSet.body sc (fun pair => toFieldSetWalk sc pair.1 pair.2) (tr, v) :=
  measured_eq (toFieldSet_descends sc) _ _

/-! ## RemoveItems -/

private theorem remove_descends (sc : Schema N) (shouldExtract : Bool) :
    Descends (fun call : Remove.Call N => call.value.depth) (Remove.body sc shouldExtract) := by
  intro first second call agree
  obtain ⟨tr, v, toRemove⟩ := call
  simp only [Remove.body]
  split
  · rfl
  · rfl
  · next t _ =>
      simp only [Remove.doList]
      split
      · next items _ =>
          have same : items.flatMap (Remove.listItem sc shouldExtract first t toRemove) =
              items.flatMap (Remove.listItem sc shouldExtract second t toRemove) := by
            apply List.flatMap_congr
            intro item member
            have smaller : item.depth < (Value.list items).depth :=
              depth_lt_of_mem_items (v := .list items) member
            simp only [Remove.listItem]
            rw [agree ⟨t.elementType, item, toRemove⟩ smaller,
              agree ⟨t.elementType, item, toRemove.withPrefix (itemPathElement sc t item)⟩ smaller]
          rw [same]
      · rfl
  · next t _ =>
      simp only [Remove.doMap]
      split
      · next bindings _ =>
          have same : (Value.map bindings).entries.filterMap
                (Remove.mapEntry shouldExtract first t toRemove) =
              (Value.map bindings).entries.filterMap
                (Remove.mapEntry shouldExtract second t toRemove) := by
            apply List.filterMap_congr
            intro entry member
            have smaller := depth_lt_of_mem_entries member
            simp only [Remove.mapEntry]
            rw [agree ⟨t.fieldType entry.1, entry.2, toRemove⟩ smaller,
              agree ⟨t.fieldType entry.1, entry.2, toRemove.withPrefix (.fieldName entry.1)⟩
                smaller]
          rw [same]
      · rfl

theorem removeItemsWithSchema_eq (sc : Schema N) (tr : TypeRef N) (v : Value N)
    (toRemove : FieldSet N) (shouldExtract : Bool) :
    removeItemsWithSchema sc tr v toRemove shouldExtract =
      Remove.body sc shouldExtract
        (fun call => removeItemsWithSchema sc call.type call.value call.toRemove shouldExtract)
        ⟨tr, v, toRemove⟩ :=
  measured_eq (remove_descends sc shouldExtract) _ _

/-! ## Validate -/

private theorem validateItems_congr (sc : Schema N) (allowDuplicates : Bool)
    {first second : TypeRef N × Value N → ValidationErrors N} (t : ListType N)
    (items : List (Value N))
    (agree : ∀ item ∈ items, first (t.elementType, item) = second (t.elementType, item))
    (index : Nat) (observed : List (PathElement N)) :
    Validate.visitListItems sc allowDuplicates first t index observed items =
      Validate.visitListItems sc allowDuplicates second t index observed items := by
  induction items generalizing index observed with
  | nil => rfl
  | cons item rest ih =>
      have later := ih fun item member => agree item (List.mem_cons_of_mem _ member)
      unfold Validate.visitListItems
      simp only [agree item List.mem_cons_self, later]

omit [Numeric N] in
private theorem validateEntries_congr {first second : TypeRef N × Value N → ValidationErrors N}
    (t : MapType N) (entries : List (String × Value N))
    (agree : ∀ entry ∈ entries,
      first (t.fieldType entry.1, entry.2) = second (t.fieldType entry.1, entry.2)) :
    Validate.visitMapItems first t entries = Validate.visitMapItems second t entries := by
  induction entries with
  | nil => rfl
  | cons entry rest ih =>
      have later := ih fun entry member =>
        agree entry (List.mem_cons_of_mem _ member)
      unfold Validate.visitMapItems
      rw [agree entry List.mem_cons_self, later]

private theorem validate_descends (sc : Schema N) (allowDuplicates : Bool) :
    Descends (fun pair : TypeRef N × Value N => pair.2.depth)
      (Validate.body sc allowDuplicates) := by
  intro first second call agree
  obtain ⟨tr, v⟩ := call
  simp only [Validate.body]
  split
  · rfl
  · rfl
  · next t _ =>
      unfold Validate.doList
      split
      · rfl
      · next items _ =>
          exact validateItems_congr sc allowDuplicates t items
            (fun item member =>
              agree (t.elementType, item) (depth_lt_of_mem_items (v := .list items) member))
            0 []
      · rfl
  · next t _ =>
      unfold Validate.doMap
      split
      · rfl
      · exact validateEntries_congr t _ fun entry member =>
          agree (t.fieldType entry.1, entry.2) (depth_lt_of_mem_entries member)
      · rfl

theorem validate_eq (sc : Schema N) (allowDuplicates : Bool) (tr : TypeRef N) (v : Value N) :
    validate sc allowDuplicates tr v =
      Validate.body sc allowDuplicates (fun pair => validate sc allowDuplicates pair.1 pair.2)
        (tr, v) :=
  measured_eq (validate_descends sc allowDuplicates) _ _

/-! ## Compare and Merge -/

section Pairs

section

omit [Numeric N]

/-- Depth of a value that may be absent. -/
private def depthOf (v : Option (Value N)) : Nat :=
  v.elim 0 Value.depth

private theorem depthOf_item {parent child : Option (Value N)}
    (origin : ∀ v ∈ child, v = .null ∨ v ∈ (Compare.derefList parent).getD []) :
    depthOf child ≤ depthOf parent ∧
      ((Compare.derefList parent).getD [] ≠ [] → depthOf child < depthOf parent) := by
  cases child with
  | none =>
      refine ⟨Nat.zero_le _, fun nonEmpty => ?_⟩
      unfold Compare.derefList at nonEmpty
      split at nonEmpty
      · simp [depthOf, Value.depth]
      · simp at nonEmpty
  | some v =>
      rcases origin v rfl with rfl | member
      · refine ⟨Nat.zero_le _, fun nonEmpty => ?_⟩
        unfold Compare.derefList at nonEmpty
        split at nonEmpty
        · simp [depthOf, Value.depth]
        · simp at nonEmpty
      · unfold Compare.derefList at member
        split at member
        · next items =>
            have smaller := depth_lt_of_mem_items (v := .list items) member
            exact ⟨Nat.le_of_lt smaller, fun _ => smaller⟩
        · simp at member

private theorem depthOf_entry {parent child : Option (Value N)}
    (origin : ∀ v ∈ child, ∃ key, (key, v) ∈ (Compare.derefMap parent).getD []) :
    depthOf child ≤ depthOf parent ∧
      ((Compare.derefMap parent).getD [] ≠ [] → depthOf child < depthOf parent) := by
  cases child with
  | none =>
      refine ⟨Nat.zero_le _, fun nonEmpty => ?_⟩
      unfold Compare.derefMap at nonEmpty
      split at nonEmpty
      · simp [depthOf, Value.depth]
      · simp at nonEmpty
  | some v =>
      obtain ⟨key, member⟩ := origin v rfl
      unfold Compare.derefMap at member
      split at member
      · next bindings =>
          have smaller := depth_lt_of_mem_entries (v := .map bindings) member
          exact ⟨Nat.le_of_lt smaller, fun _ => smaller⟩
      · simp at member

/-- The entries of two maps together come from the two. -/
theorem mem_of_mem_mapZip {left right : List (String × Value N)}
    {entry : String × Option (Value N) × Option (Value N)}
    (member : entry ∈ Value.mapZip left right) :
    (∀ v ∈ entry.2.1, (entry.1, v) ∈ left) ∧ (∀ v ∈ entry.2.2, (entry.1, v) ∈ right) := by
  obtain ⟨key, _, rfl⟩ := List.mem_map.mp member
  have found : ∀ (side : List (String × Value N)) (v : Value N),
      v ∈ (lookupBy Prod.fst key side).map Prod.snd → (key, v) ∈ side := by
    intro side v isValue
    obtain ⟨binding, lookup, rfl⟩ := Option.map_eq_some_iff.mp isValue
    have sameKey : binding.1 = key := by simpa using key_of_lookupBy lookup
    rw [← sameKey]
    exact mem_of_lookupBy lookup
  exact ⟨found left, found right⟩

private theorem depth_lt_of_parts {call : Compare.Call N} {tr : TypeRef N}
    {lChild rChild : Option (Value N)} {leftEmpty rightEmpty : Prop}
    (left : depthOf lChild ≤ depthOf call.lhs ∧ (¬ leftEmpty → depthOf lChild < depthOf call.lhs))
    (right : depthOf rChild ≤ depthOf call.rhs ∧
      (¬ rightEmpty → depthOf rChild < depthOf call.rhs))
    (some : ¬ (leftEmpty ∧ rightEmpty)) :
    Compare.Call.depth ⟨tr, lChild, rChild⟩ < call.depth := by
  have sum : Compare.Call.depth ⟨tr, lChild, rChild⟩ = depthOf lChild + depthOf rChild := rfl
  have whole : call.depth = depthOf call.lhs + depthOf call.rhs := rfl
  by_cases empty : leftEmpty
  · have := right.2 fun emptyRight => some ⟨empty, emptyRight⟩
    omega
  · have := left.2 empty
    omega

end

end Pairs

section Compare

variable {first second : Compare.Call N → CompareWalk N}

private theorem visitPathElement_congr (t : ListType N) (pe : PathElement N)
    (lList rList : List (Value N))
    (agree : ∀ lhs rhs : Option (Value N), (∀ v ∈ lhs, v ∈ lList) → (∀ v ∈ rhs, v ∈ rList) →
      first ⟨t.elementType, lhs, rhs⟩ = second ⟨t.elementType, lhs, rhs⟩) :
    Compare.visitPathElement first t pe lList rList =
      Compare.visitPathElement second t pe lList rList := by
  match lList, rList, agree with
  | [], [], _ => rfl
  | [], [r], agree =>
      simp only [Compare.visitPathElement, agree none (some r) (by simp) (by simp)]
  | [l], [], agree =>
      simp only [Compare.visitPathElement, agree (some l) none (by simp) (by simp)]
  | [l], [r], agree =>
      simp only [Compare.visitPathElement, agree (some l) (some r) (by simp) (by simp)]
  | _ :: _ :: _, _ :: _ :: _, _ => rfl
  | _ :: _ :: _, [], _ => rfl
  | _ :: _ :: _, [r], agree =>
      simp only [Compare.visitPathElement, agree none (some r) (by simp) (by simp)]
  | [], _ :: _ :: _, _ => rfl
  | [l], _ :: _ :: _, agree =>
      simp only [Compare.visitPathElement, agree (some l) none (by simp) (by simp)]

private theorem visitPathElements_congr (t : ListType N)
    (lValues rValues : PathElementMap N (List (Value N))) (pes : List (PathElement N))
    (agree : ∀ pe, ∀ lhs rhs : Option (Value N),
      (∀ v ∈ lhs, v ∈ (lValues.get pe).getD []) → (∀ v ∈ rhs, v ∈ (rValues.get pe).getD []) →
      first ⟨t.elementType, lhs, rhs⟩ = second ⟨t.elementType, lhs, rhs⟩) :
    Compare.visitPathElements first t lValues rValues pes =
      Compare.visitPathElements second t lValues rValues pes := by
  induction pes with
  | nil => rfl
  | cons pe rest ih =>
      unfold Compare.visitPathElements
      rw [visitPathElement_congr t pe _ _ (agree pe), ih]

/-- What is gathered under a path element comes from the list. -/
theorem mem_of_mem_gather [Consistent N] {sc : Schema N} {t : ListType N}
    {items : List (Value N)} {pe : PathElement N} {v : Value N}
    (member : v ∈ ((Compare.gather sc t 0 { values := [], pes := [], errs := [] }
      items).values.get pe).getD []) : v ∈ items := by
  have faithful := gather_faithful sc t items 0 (gather_start_faithful (N := N))
  rw [faithful.get, gatheredValue_getD, List.nil_append] at member
  obtain ⟨name, named, _⟩ := mem_of_mem_entriesAt member
  exact (mem_of_mem_namedItems named).1

private theorem not_both_empty {α : Type} {atomic : Bool} {left right : List α}
    (granular : ¬ (atomic || left.isEmpty && right.isEmpty) = true) :
    ¬ (left = [] ∧ right = []) := by
  rintro ⟨rfl, rfl⟩
  simp at granular

private theorem compareHandle_congr [Consistent N] (sc : Schema N) (call : Compare.Call N)
    (atom : Atom N) (agree : ∀ child, Compare.Call.depth child < call.depth →
      first child = second child) :
    Compare.handle sc first call atom = Compare.handle sc second call atom := by
  unfold Compare.handle
  split
  · rfl
  · rfl
  · next t _ =>
      unfold Compare.doList
      dsimp only
      split
      · rfl
      · next granular =>
          have some := not_both_empty granular
          congr 1
          unfold Compare.visitListItems
          dsimp only
          congr 1
          apply visitPathElements_congr
          intro pe lhs rhs fromLeft fromRight
          apply agree
          exact depth_lt_of_parts
            (depthOf_item fun v member => Or.inr (mem_of_mem_gather (fromLeft v member)))
            (depthOf_item fun v member => Or.inr (mem_of_mem_gather (fromRight v member))) some
  · next t _ =>
      unfold Compare.doMap
      dsimp only
      split
      · rfl
      · next granular =>
          have some := not_both_empty granular
          congr 1
          unfold Compare.visitMapItems
          congr 1
          apply List.map_congr_left
          intro entry member
          obtain ⟨fromLeft, fromRight⟩ := mem_of_mem_mapZip member
          rw [agree ⟨t.fieldType entry.1, entry.2.1, entry.2.2⟩ (depth_lt_of_parts
            (depthOf_entry fun v isLeft => ⟨entry.1, fromLeft v isLeft⟩)
            (depthOf_entry fun v isRight => ⟨entry.1, fromRight v isRight⟩) some)]

private theorem compare_descends [Consistent N] (sc : Schema N) :
    Descends Compare.Call.depth (Compare.body sc) := by
  intro first second call agree
  have same := fun atom => compareHandle_congr sc call atom agree
  unfold Compare.body
  simp only [same]

theorem compareWalk_eq [Consistent N] (sc : Schema N) (tr : TypeRef N)
    (lhs rhs : Option (Value N)) :
    compareWalk sc tr lhs rhs =
      Compare.body sc (fun call => compareWalk sc call.type call.lhs call.rhs) ⟨tr, lhs, rhs⟩ :=
  measured_eq (compare_descends sc) _ _

end Compare

section Merge

variable {first second : Merge.Call N → Option (MergeWalk N)}

omit [Numeric N] in
private theorem mapM_congr {α β : Type} {f g : α → Option β} {list : List α}
    (agree : ∀ a ∈ list, f a = g a) : list.mapM f = list.mapM g := by
  induction list with
  | nil => rfl
  | cons head tail ih =>
      rw [List.mapM_cons, List.mapM_cons, agree head List.mem_cons_self,
        ih fun a member => agree a (List.mem_cons_of_mem _ member)]

private theorem origin_of_index [Consistent N] {sc : Schema N} {t : ListType N}
    {allowDuplicates : Bool} {items : List (Value N)}
    (clean : (Merge.indexListPathElements sc t allowDuplicates 0 .start items).errs = [])
    (pe : PathElement N) : ∀ v ∈
      (Merge.indexListPathElements sc t allowDuplicates 0 .start items).observed.get pe,
      v = .null ∨ v ∈ items := by
  intro v isValue
  have faithful := indexListPathElements_faithful sc t allowDuplicates items 0
    (Merge.Indexed.start_faithful (N := N))
  obtain ⟨_, _, pes⟩ := index_of_no_errs clean
  rw [faithful.get, pes] at isValue
  cases entries : entriesAt (Merge.Indexed.start.pes ++ namedItems sc t items) pe with
  | nil => simp [entries, Merge.indexedValue] at isValue
  | cons item rest =>
      cases rest with
      | cons _ _ =>
          simp only [entries, Merge.indexedValue, Option.mem_def, Option.some.injEq] at isValue
          exact Or.inl isValue.symm
      | nil =>
          simp only [entries, Merge.indexedValue, Option.mem_def, Option.some.injEq] at isValue
          obtain ⟨name, named, _⟩ := mem_of_mem_entriesAt (by rw [entries]; simp [isValue] :
            v ∈ entriesAt (Merge.Indexed.start.pes ++ namedItems sc t items) pe)
          exact Or.inr (mem_of_mem_namedItems (by simpa [Merge.Indexed.start] using named)).1

private theorem origin_of_emission [Consistent N] {sc : Schema N} {t : ListType N}
    {lhs rhs : List (Value N)} {emissions : List (Merge.Emission N)}
    (cleanRight : (Merge.indexListPathElements sc t false 0 .start rhs).errs = [])
    (cleanLeft : (Merge.indexListPathElements sc t true 0 .start lhs).errs = [])
    (scheduled : Merge.schedule (Merge.indexListPathElements sc t true 0 .start lhs)
      (Merge.indexListPathElements sc t false 0 .start rhs) = some emissions)
    {emission : Merge.Emission N} (member : emission ∈ emissions) :
    (∀ v ∈ emission.lChild, v = .null ∨ v ∈ lhs) ∧
      (∀ v ∈ emission.rChild, v = .null ∨ v ∈ rhs) := by
  rcases (run_of_loop scheduled).origin member with ⟨left, right⟩ | ⟨item, inside, left, right⟩
  · rw [left, right]
    exact ⟨origin_of_index cleanLeft _, origin_of_index cleanRight _⟩
  · rw [left, right]
    refine ⟨fun v isItem => Or.inr ?_, by simp⟩
    have pes := (index_of_no_errs cleanLeft).2.2
    have named : (emission.pe, item) ∈ namedItems sc t lhs := by
      have inIndex : (emission.pe, item) ∈
          (Merge.indexListPathElements sc t true 0 .start lhs).pes := inside
      rw [pes] at inIndex
      simpa [Merge.Indexed.start] using inIndex
    have same : item = v := by simpa using isItem
    rw [← same]
    exact (mem_of_mem_namedItems named).1

private theorem mergeHandle_congr [Consistent N] (sc : Schema N) (call : Merge.Call N)
    (atom : Atom N) (agree : ∀ child, Compare.Call.depth child < call.depth →
      first child = second child) :
    Merge.handle sc first call atom = Merge.handle sc second call atom := by
  unfold Merge.handle
  split
  · rfl
  · rfl
  · next t _ =>
      unfold Merge.doList
      dsimp only
      split
      · rfl
      · next granular =>
          have some := not_both_empty granular
          unfold Merge.visitListItems
          dsimp only
          split
          · rfl
          · next clean =>
              have noErrs := List.append_eq_nil_iff.mp (List.eq_nil_of_length_eq_zero
                (not_not.mp clean))
              cases scheduled : Merge.schedule
                  (Merge.indexListPathElements sc t true 0 .start
                    ((Compare.derefList call.lhs).getD []))
                  (Merge.indexListPathElements sc t false 0 .start
                    ((Compare.derefList call.rhs).getD [])) with
              | none => rfl
              | some emissions =>
                  have same : (emissions.mapM fun emission =>
                        first ⟨t.elementType, emission.lChild, emission.rChild⟩) =
                      emissions.mapM fun emission =>
                        second ⟨t.elementType, emission.lChild, emission.rChild⟩ := by
                    apply mapM_congr
                    intro emission member
                    obtain ⟨fromLeft, fromRight⟩ :=
                      origin_of_emission noErrs.1 noErrs.2 scheduled member
                    exact agree _ (depth_lt_of_parts (depthOf_item fromLeft)
                      (depthOf_item fromRight) some)
                  simp only [Option.bind_eq_bind, Option.bind_some, same]
  · next t _ =>
      unfold Merge.doMap
      dsimp only
      split
      · rfl
      · next granular =>
          have some := not_both_empty granular
          unfold Merge.visitMapItems
          rw [mapM_congr]
          intro entry member
          obtain ⟨fromLeft, fromRight⟩ := mem_of_mem_mapZip member
          unfold Merge.visitMapItem
          rw [agree ⟨t.fieldType entry.1, entry.2.1, entry.2.2⟩ (depth_lt_of_parts
            (depthOf_entry fun v isLeft => ⟨entry.1, fromLeft v isLeft⟩)
            (depthOf_entry fun v isRight => ⟨entry.1, fromRight v isRight⟩) some)]

private theorem merge_descends [Consistent N] (sc : Schema N) :
    Descends Compare.Call.depth (Merge.body sc) := by
  intro first second call agree
  have same := fun atom => mergeHandle_congr sc call atom agree
  unfold Merge.body
  simp only [same]

theorem mergeWalk_eq [Consistent N] (sc : Schema N) (tr : TypeRef N)
    (lhs rhs : Option (Value N)) :
    mergeWalk sc tr lhs rhs =
      Merge.body sc (fun call => mergeWalk sc call.type call.lhs call.rhs) ⟨tr, lhs, rhs⟩ :=
  measured_eq (merge_descends sc) _ _

omit [Numeric N] in
private theorem mapM_isSome {α β : Type} {f : α → Option β} (list : List α)
    (each : ∀ a ∈ list, (f a).isSome = true) : (list.mapM f).isSome = true := by
  induction list with
  | nil => rfl
  | cons head tail ih =>
      obtain ⟨b, isHead⟩ := Option.isSome_iff_exists.mp (each head List.mem_cons_self)
      obtain ⟨bs, isTail⟩ := Option.isSome_iff_exists.mp
        (ih fun a member => each a (List.mem_cons_of_mem _ member))
      simp [List.mapM_cons, isHead, isTail]

private theorem mergeHandle_isSome [Consistent N] (sc : Schema N)
    {visit : Merge.Call N → Option (MergeWalk N)} (ends : ∀ call, (visit call).isSome = true)
    (call : Merge.Call N) (atom : Atom N) : (Merge.handle sc visit call atom).isSome = true := by
  unfold Merge.handle
  split
  · rfl
  · rfl
  · next t _ =>
      unfold Merge.doList
      dsimp only
      split
      · rfl
      · unfold Merge.visitListItems
        dsimp only
        split
        · rfl
        · obtain ⟨emissions, scheduled⟩ := Option.isSome_iff_exists.mp (schedule_isSome
            (Merge.indexListPathElements sc t true 0 .start ((Compare.derefList call.lhs).getD []))
            (indexListPathElements_faithful sc t false ((Compare.derefList call.rhs).getD []) 0
              Merge.Indexed.start_faithful))
          obtain ⟨merged, visited⟩ := Option.isSome_iff_exists.mp (mapM_isSome emissions
            (f := fun emission => visit ⟨t.elementType, emission.lChild, emission.rChild⟩)
            fun emission _ => ends _)
          simp [scheduled, visited]
  · next t _ =>
      unfold Merge.doMap
      dsimp only
      split
      · rfl
      · unfold Merge.visitMapItems
        obtain ⟨visited, isVisited⟩ := Option.isSome_iff_exists.mp (mapM_isSome
          (Value.mapZip ((Compare.derefMap call.lhs).getD []) ((Compare.derefMap call.rhs).getD []))
          (f := Merge.visitMapItem visit t)
          fun entry _ => by simp [Merge.visitMapItem, ends])
        simp [isVisited]

/-- Over a consistent number domain every merge returns. -/
theorem mergeWalk_isSome [Consistent N] (sc : Schema N) (tr : TypeRef N)
    (lhs rhs : Option (Value N)) : (mergeWalk sc tr lhs rhs).isSome = true := by
  apply measured_invariant (P := fun _ walk => walk.isSome = true) (merge_descends sc)
  · exact fun _ => ⟨some { out := none, errs := [] }, rfl⟩
  · intro visit call ends
    have handled := mergeHandle_isSome sc ends call
    unfold Merge.body
    split
    · rfl
    · split
      · rfl
      · next atom _ =>
        dsimp only
        split
        · exact handled _
        · exact handled _
        · split
          · exact handled _
          · obtain ⟨left, isLeft⟩ := Option.isSome_iff_exists.mp (handled
              (Compare.deduceAtomOf atom call.lhs))
            obtain ⟨right, isRight⟩ := Option.isSome_iff_exists.mp (handled
              (Compare.deduceAtomOf atom call.rhs))
            simp [isLeft, isRight]

end Merge

end StructuredMergeDiff.Typed
