import StructuredMergeDiff.Typed.Collision
import StructuredMergeDiff.Typed.MergeSpec

/-!
Contract: the items of a merged list and their order.

Owns: that merging two lists of valid items keeps every item once, in the orders of
both lists as far as they agree.
-/

namespace StructuredMergeDiff.Typed

open Library Std Compare

variable {N : Type} [Numeric N] {sc : Schema N}

/-- Valid items of an associative list: they have path elements and, unless
duplicates are allowed, different ones. -/
structure ValidItems (sc : Schema N) (t : ListType N) (allowDuplicates : Bool)
    (items : List (Value N)) : Prop where
  named : ∀ item ∈ items, ∃ pe, listItemToPathElement sc t item = .ok pe
  separate : allowDuplicates = false → Separate (namedItems sc t items)
  sound : ∀ item ∈ items, Sound sc allowDuplicates ⟨t.elementType, item⟩

/-- The list of the items, which is not set if there are none. -/
def listOf (items : List (PathElement N × Value N)) : Option (Value N) :=
  if items.isEmpty then none else some (.list (items.map Prod.snd))

variable [Consistent N] {t : ListType N} {lhs rhs : List (Value N)}

theorem ValidItems.leftMerges (valid : ValidItems sc t true lhs)
    {entry : PathElement N × Value N} (member : entry ∈ namedItems sc t lhs) :
    Merges sc t.elementType (some entry.2) none := by
  have sound := valid.sound entry.2 (mem_of_mem_namedItems member).1
  have noRight : SoundSide sc false t.elementType none := by simp [SoundSide]
  obtain ⟨m, isMerged⟩ := merged_of_sound (soundSide_some.mpr sound) noRight (Or.inl (by simp))
  exact ⟨m, isMerged.walk⟩

/-- What the left side has under a name is one of its items, or null. -/
theorem ValidItems.soundSide (valid : ValidItems sc t true lhs) (pe : PathElement N) :
    SoundSide sc true t.elementType
      (Merge.indexedValue (entriesAt (namedItems sc t lhs) pe)) := by
  have soundAt : ∀ x ∈ entriesAt (namedItems sc t lhs) pe, Sound sc true ⟨t.elementType, x⟩ := by
    intro x member
    obtain ⟨entry, inItems, rfl⟩ := List.mem_map.mp member
    exact valid.sound _ (mem_of_mem_namedItems (List.mem_filter.mp inItems).1).1
  intro x found
  rcases indexedValue_eq_some found with member | ⟨rfl, present⟩
  · exact soundAt x member
  · obtain ⟨other, member⟩ := List.exists_mem_of_ne_nil _ present
    exact (soundAt other member).null

theorem ValidItems.rightMerges (validLeft : ValidItems sc t true lhs)
    (validRight : ValidItems sc t false rhs) {entry : PathElement N × Value N}
    (member : entry ∈ namedItems sc t rhs) :
    Merges sc t.elementType (Merge.indexedValue (entriesAt (namedItems sc t lhs) entry.1))
      (some entry.2) := by
  have sound := validRight.sound entry.2 (mem_of_mem_namedItems member).1
  obtain ⟨m, isMerged⟩ := merged_of_sound (validLeft.soundSide entry.1) (soundSide_some.mpr sound)
    (Or.inr (by simp))
  exact ⟨m, isMerged.walk⟩

/-- Valid items merge to a list. -/
theorem ValidItems.merge (validLeft : ValidItems sc t true lhs)
    (validRight : ValidItems sc t false rhs) (notEmpty : lhs ≠ [] ∨ rhs ≠ []) :
    ∃ out, Merge.visitListItems sc (Merge.visitKid sc) t lhs rhs =
        some { out := some (.list (out.map Prod.snd)), errs := [] } ∧ out ≠ [] ∧
      ItemsMerge sc t.elementType (namedItems sc t lhs) (namedItems sc t rhs) out ∧
      (SameOrder (namedItems sc t lhs) (namedItems sc t rhs) →
        (out.filter fun entry => hasName (namedItems sc t lhs) entry.1).map Prod.fst =
          (namedItems sc t lhs).map Prod.fst) :=
  Merge.visitListItems_merges notEmpty validLeft.named validRight.named (validRight.separate rfl)
    (fun _ member => validLeft.leftMerges member)
    fun _ member => validLeft.rightMerges validRight member

end StructuredMergeDiff.Typed
