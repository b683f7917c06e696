import StructuredMergeDiff.Typed.MergeSpec

/-!
Contract: validated objects do not make the walkers fail.

Owns: that the field set, the comparison and the merge of validated objects are
computed without errors, and that the merged object is valid again.
-/

namespace StructuredMergeDiff.Typed

open Library Std Compare

variable {N : Type} [Numeric N] [Consistent N] {sc : Schema N}

/-! ## Field sets -/

omit [Numeric N] [Consistent N] in
private theorem errs_concat_fieldSet {walks : List (FieldSetWalk N)}
    (each : ∀ walk ∈ walks, walk.errs = []) : (FieldSetWalk.concat walks).errs = [] := by
  induction walks with
  | nil => rfl
  | cons walk rest ih =>
      show walk.errs ++ (FieldSetWalk.concat rest).errs = []
      rw [each walk List.mem_cons_self,
        ih fun other member => each other (List.mem_cons_of_mem _ member)]
      rfl

omit [Numeric N] [Consistent N] in
/-- Does the type of the node have an alternative for it? -/
def resolves (sc : Schema N) (n : Node N) : Bool :=
  match resolveSchema sc n.type n.value with
  | .ok _ => true
  | .error _ => false

theorem Sound.resolves {allowDuplicates : Bool} {n : Node N} (sound : Sound sc allowDuplicates n) :
    everyNode sc (Typed.resolves sc) n = true := by
  induction bound : n.value.depth using Nat.strong_induction_on generalizing n with
  | _ depth ih =>
      subst bound
      obtain ⟨alternative, resolved, -⟩ := sound.alternative
      rw [everyNode_iff]
      refine ⟨by simp only [Typed.resolves, resolved], fun k member => ?_⟩
      exact ih _ (depth_lt_of_mem_kids member) (sound.kid member).1 rfl

omit [Consistent N] in
/-- The field set of a value is computed without errors if all its nodes have alternatives. -/
theorem toFieldSetWalk_clean {tr : TypeRef N} {v : Value N}
    (every : everyNode sc (resolves sc) ⟨tr, v⟩ = true) : (toFieldSetWalk sc tr v).errs = [] := by
  induction bound : v.depth using Nat.strong_induction_on generalizing tr v with
  | _ depth ih =>
      subst bound
      obtain ⟨here, below⟩ := (everyNode_iff sc _ _).mp every
      rw [toFieldSetWalk_eq]
      simp only [ToFieldSet.body]
      cases resolved : resolveSchema sc tr v with
      | error message =>
          simp only [resolves, resolved] at here
          cases here
      | ok alternative =>
          cases alternative with
          | scalar t => rfl
          | list t =>
              show (ToFieldSet.doList sc _ t v).errs = []
              unfold ToFieldSet.doList
              split
              · rfl
              · next granular =>
                  rw [kids_list resolved granular] at below
                  split
                  · next items =>
                      apply errs_concat_fieldSet
                      intro walk member
                      obtain ⟨item, inItems, rfl⟩ := List.mem_map.mp member
                      dsimp only
                      split
                      · rfl
                      · have clean : (toFieldSetWalk sc t.elementType item).errs = [] :=
                          ih _ (Value.depth_lt_of_mem_items inItems)
                            (below _ (List.mem_map_of_mem inItems)) rfl
                        simp [FieldSetWalk.beneath, FieldSetWalk.append, FieldSetWalk.self, clean]
                  · rfl
          | map t =>
              show (ToFieldSet.doMap _ t v).errs = []
              unfold ToFieldSet.doMap
              split
              · rfl
              · next granular =>
                  rw [kids_map resolved granular] at below
                  split
                  · apply errs_concat_fieldSet
                    intro walk member
                    obtain ⟨entry, inEntries, rfl⟩ := List.mem_map.mp member
                    have clean : (toFieldSetWalk sc (t.fieldType entry.1) entry.2).errs = [] :=
                      ih _ (Value.depth_lt_of_mem_entries inEntries)
                        (below _ (List.mem_map_of_mem inEntries)) rfl
                    dsimp only [FieldSetWalk.beneath]
                    split
                    · simp [FieldSetWalk.append, FieldSetWalk.self, clean]
                    · split
                      · simp [FieldSetWalk.append, FieldSetWalk.self, clean]
                      · exact clean
                  · rfl

/-! ## Objects -/

theorem merge_of_sound {allowDuplicates : Bool} {lhs rhs : TypedValue N} (same : SameType lhs rhs)
    (soundLeft : SoundObject allowDuplicates lhs) (soundRight : SoundObject false rhs) :
    ∃ m, lhs.merge rhs = .ok { lhs with value := some m } ∧
      Merged lhs.schema.val allowDuplicates lhs.typeRef lhs.value rhs.value m := by
  have right := soundRight.side
  obtain ⟨l, isLeft, -⟩ := soundLeft.value
  rw [same.schema, same.typeRef] at right
  obtain ⟨m, isMerged⟩ := merged_of_sound soundLeft.side right (Or.inl (by simp [isLeft]))
  refine ⟨m, ?_, isMerged⟩
  simp [TypedValue.merge, checkOperands_of_sameType same, isMerged.walk]

/-- Validated objects, the right one without duplicates, make no walker fail, and
merging them keeps them valid. -/
theorem walkers_succeed_on_valid_objects {lhs rhs : TypedValue N} (same : SameType lhs rhs)
    (soundLeft : SoundObject true lhs) (soundRight : SoundObject false rhs) :
    (∃ set, lhs.toFieldSet = .ok set) ∧ (∃ c, lhs.compare rhs = .ok c) ∧
      ∃ m, lhs.merge rhs = .ok m ∧ m.isValid true = true ∧
        (lhs.isValid false = true → m.isValid false = true) := by
  have valid : ∀ {allowDuplicates : Bool} {m : Value N},
      Sound lhs.schema.val allowDuplicates ⟨lhs.typeRef, m⟩ →
      TypedValue.isValid { lhs with value := some m } allowDuplicates = true :=
    fun sound => List.isEmpty_iff.mpr sound.valid
  refine ⟨?_, ?_, ?_⟩
  · obtain ⟨v, isValue, sound⟩ := soundLeft.value
    refine ⟨FieldSet.ofPaths (toFieldSetWalk lhs.schema.val lhs.typeRef v).paths, ?_⟩
    simp [TypedValue.toFieldSet, isValue, toFieldSetWalk_clean sound.resolves]
  · obtain ⟨c, compared, -⟩ := compare_of_sound same soundLeft soundRight
    exact ⟨c, compared⟩
  · obtain ⟨m, merged, isMerged⟩ := merge_of_sound same soundLeft soundRight
    refine ⟨_, merged, valid isMerged.sound, fun noDuplicates => ?_⟩
    obtain ⟨other, alsoMerged, isOther⟩ :=
      merge_of_sound same ⟨noDuplicates, soundLeft.supported⟩ soundRight
    cases merged.symm.trans alsoMerged
    exact valid isOther.sound

/-- The list [1, 1, 2] and the set {2, 3}. -/
theorem walkers_succeed_on_number_lists :
    (∃ set, (numberSetObject [.number 1, .number 1, .number 2] : TypedValue Int).toFieldSet =
        .ok set) ∧
      (∃ c, (numberSetObject [.number 1, .number 1, .number 2] : TypedValue Int).compare
        (numberSetObject [.number 2, .number 3]) = .ok c) ∧
      ∃ m, (numberSetObject [.number 1, .number 1, .number 2] : TypedValue Int).merge
          (numberSetObject [.number 2, .number 3]) = .ok m ∧ m.isValid true = true ∧
        ((numberSetObject [.number 1, .number 1, .number 2] : TypedValue Int).isValid false = true →
          m.isValid false = true) :=
  walkers_succeed_on_valid_objects ⟨rfl, rfl⟩
    ⟨by decide +kernel, numberSetObject_supported _⟩
    ⟨by decide +kernel, numberSetObject_supported _⟩

end StructuredMergeDiff.Typed
