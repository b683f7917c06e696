import StructuredMergeDiff.Typed.Collision
import StructuredMergeDiff.Typed.Unfolding

/-!
Contract: a merge that does not end.

The interleaving loop finds the float in the index of the right side under both
integers that round to it, but has merged it under one only.

Owns: the states of the loop, and the objects on which it does not end.
-/

namespace StructuredMergeDiff

open Library Typed

variable {N : Type} [Numeric N]

/-! ## The lists and states of the loop -/

namespace Typed.Merge

/-- The index of the left list, in which duplicates are allowed. -/
def leftIndex (sc : Schema N) (t : ListType N) (lhs : List (Value N)) : Indexed N :=
  indexListPathElements sc t true 0 .start lhs

/-- The index of the right list. -/
def rightIndex (sc : Schema N) (t : ListType N) (rhs : List (Value N)) : Indexed N :=
  indexListPathElements sc t false 0 .start rhs

/-- The schema admits the items of a list of the type. -/
def Admitted (sc : Schema N) (t : ListType N) (allowDuplicates : Bool) (items : List (Value N)) :
    Prop :=
  Validate.visitListItems sc allowDuplicates (fun pair => validate sc allowDuplicates pair.1 pair.2)
    t 0 [] items = []

/-- The state of the loop after a number of iterations. -/
def stateAfter (left right : Indexed N) : Nat → LoopState N
  | 0 => LoopState.start left right
  | count + 1 => (iteration left.observed right.observed (stateAfter left right count)).1

end Typed.Merge

/-! ## A collision keeps the loop from ending -/

namespace Collision

variable (collision : Collision N)

private theorem get_singleton_lt {β : Type} {x y : N} (below : compareNumbers x y = .lt) (v : β) :
    PathElementMap.get [(numberElement x, v)] (numberElement y) = none := by
  simp [PathElementMap.get, getBy, locate, search, searchLoop, compare_numberElement, below]

private theorem get_singleton_eq {β : Type} {x y : N} (equal : compareNumbers x y = .eq) (v : β) :
    PathElementMap.get [(numberElement x, v)] (numberElement y) = some v := by
  have same : (numberElement x == numberElement y) = true := by
    rw [beq_numberElement, ← compareNumbers_eq_iff]
    exact equal
  simp [PathElementMap.get, getBy, locate, search, searchLoop, compare_numberElement, equal, same]

theorem leftIndex_eq (sc : Schema N) :
    Merge.leftIndex sc numberSet collision.integers =
      { pes := [(numberElement collision.low, .number collision.low),
          (numberElement collision.high, .number collision.high)]
        observed := [(numberElement collision.low, .number collision.low),
          (numberElement collision.high, .number collision.high)]
        errs := [] } := by
  have absent := get_singleton_lt collision.below (Value.number collision.low)
  have appended : PathElementMap.insert
      [(numberElement collision.low, Value.number collision.low)] (numberElement collision.high)
      (.number collision.high) =
      [(numberElement collision.low, .number collision.low),
        (numberElement collision.high, .number collision.high)] := by
    simp [PathElementMap.insert, insertBy, locate, search, searchLoop, compare_numberElement,
      collision.below]
  have first : PathElementMap.insert [] (numberElement collision.low)
      (Value.number collision.low) =
      [(numberElement collision.low, .number collision.low)] := by
    simp [PathElementMap.insert, insertBy, locate, search, searchLoop]
  have empty : PathElementMap.get ([] : PathElementMap N (Value N))
      (numberElement collision.low) = none := by
    simp [PathElementMap.get, getBy, locate, search, searchLoop]
  simp [Merge.leftIndex, integers, Merge.indexListPathElements, listItemToPathElement_number,
    Merge.Indexed.start, empty, first, absent, appended]

theorem rightIndex_eq (sc : Schema N) :
    Merge.rightIndex sc numberSet collision.floats =
      { pes := [(numberElement collision.float, .number collision.float)]
        observed := [(numberElement collision.float, .number collision.float)]
        errs := [] } := by
  have first : PathElementMap.insert [] (numberElement collision.float)
      (Value.number collision.float) =
      [(numberElement collision.float, .number collision.float)] := by
    simp [PathElementMap.insert, insertBy, locate, search, searchLoop]
  have empty : PathElementMap.get ([] : PathElementMap N (Value N))
      (numberElement collision.float) = none := by
    simp [PathElementMap.get, getBy, locate, search, searchLoop]
  simp [Merge.rightIndex, floats, Merge.indexListPathElements, listItemToPathElement_number,
    Merge.Indexed.start, empty, first]

/-- After the first iteration the right side is used up, and the higher integer
counts as shared but not as merged. -/
def stuckState : Merge.LoopState N :=
  { lhs := [(numberElement collision.high, .number collision.high)]
    rhs := []
    nextShared := none
    sharedOrder := []
    mergedRHS := [(numberElement collision.low, ())] }

section

variable (sc : Schema N)

include sc

theorem first_iteration :
    (Merge.iteration (Merge.leftIndex sc numberSet collision.integers).observed
      (Merge.rightIndex sc numberSet collision.floats).observed
      (Merge.LoopState.start (Merge.leftIndex sc numberSet collision.integers)
        (Merge.rightIndex sc numberSet collision.floats))).1 = collision.stuckState := by
  have found : PathElementMap.get
      [(numberElement collision.low, Value.number collision.low),
        (numberElement collision.high, .number collision.high)]
      (numberElement collision.float) = some (.number collision.low) := by
    simp [PathElementMap.get, getBy, locate, search, searchLoop, compare_numberElement,
      collision.lowRounds, collision.highRounds, collision.low_beq_float]
  have merged : PathElementMap.insert ([] : PathElementMap N Unit)
      (numberElement collision.low) () = [(numberElement collision.low, ())] := by
    simp [PathElementMap.insert, insertBy, locate, search, searchLoop]
  rw [leftIndex_eq, rightIndex_eq]
  simp [Merge.iteration, Merge.LoopState.start, collision.low_beq_float, found, merged, stuckState]

theorem later_iteration :
    Merge.iteration (Merge.leftIndex sc numberSet collision.integers).observed
      (Merge.rightIndex sc numberSet collision.floats).observed collision.stuckState =
      (collision.stuckState, []) := by
  have observed := get_singleton_eq
    (by rw [compareNumbers_swap, collision.highRounds]; rfl :
      compareNumbers collision.float collision.high = .eq) (Value.number collision.float)
  have unmerged := get_singleton_lt collision.below ()
  rw [leftIndex_eq, rightIndex_eq]
  simp [Merge.iteration, Merge.takeLeft, Merge.takeRight, stuckState, observed, unmerged]

theorem never_leaves_stuckState (fuel : Nat) :
    Merge.loop (Merge.leftIndex sc numberSet collision.integers).observed
      (Merge.rightIndex sc numberSet collision.floats).observed fuel collision.stuckState =
      none := by
  induction fuel with
  | zero => rfl
  | succ fuel ih =>
      unfold Merge.loop
      rw [if_neg (by simp [stuckState])]
      dsimp only
      rw [later_iteration, ih]
      rfl

/-- The schema admits any numbers in the set, with duplicates or one at a time. -/
theorem admitted_number (allowDuplicates : Bool) (n : N) :
    validate sc allowDuplicates numberSet.elementType (.number n) = [] := by
  rw [validate_eq]
  simp [Validate.body, resolveSchema, Schema.resolve, Schema.resolveNoOverrides, numberSet,
    deduceAtom, Value.isScalar, handleAtom, validateScalar, admits, TypeRef.inline, Atom.ofScalar]

theorem admitted_integers :
    Merge.Admitted sc numberSet true collision.integers := by
  simp [Merge.Admitted, integers, Validate.visitListItems, listItemToPathElement_number,
    admitted_number, ValidationErrors.withPrefix]

theorem admitted_floats :
    Merge.Admitted sc numberSet false collision.floats := by
  simp [Merge.Admitted, floats, Validate.visitListItems, listItemToPathElement_number,
    admitted_number, ValidationErrors.withPrefix, FieldSet.membersHas, getBy]

theorem admitted_integers_once :
    Merge.Admitted sc numberSet false collision.integers := by
  simp [Merge.Admitted, integers, Validate.visitListItems, listItemToPathElement_number,
    admitted_number, ValidationErrors.withPrefix, FieldSet.membersHas, getBy, locate, search,
    searchLoop, insertBy, compare_numberElement, collision.below]

/-! ## Objects that cannot be merged -/

/-- No fuel is enough for the loop. -/
theorem loop_never_ends (fuel : Nat) :
    Merge.loop (Merge.leftIndex sc numberSet collision.integers).observed
      (Merge.rightIndex sc numberSet collision.floats).observed fuel
      (Merge.LoopState.start (Merge.leftIndex sc numberSet collision.integers)
        (Merge.rightIndex sc numberSet collision.floats)) = none := by
  cases fuel with
  | zero =>
      rw [leftIndex_eq, rightIndex_eq]
      rfl
  | succ fuel =>
      unfold Merge.loop
      rw [if_neg (by rw [leftIndex_eq, rightIndex_eq]; simp [Merge.LoopState.start])]
      dsimp only
      rw [first_iteration, never_leaves_stuckState]
      rfl

theorem visitListItems_diverges (visit : Typed.Compare.Call N → Option (MergeWalk N)) :
    Merge.visitListItems sc visit numberSet collision.integers collision.floats = none := by
  have clean : ¬ ((Merge.rightIndex sc numberSet collision.floats).errs ++
      (Merge.leftIndex sc numberSet collision.integers).errs).length ≠ 0 := by
    rw [leftIndex_eq, rightIndex_eq]
    simp
  have stuck : Merge.schedule (Merge.leftIndex sc numberSet collision.integers)
      (Merge.rightIndex sc numberSet collision.floats) = none := collision.loop_never_ends sc _
  unfold Merge.visitListItems
  show (if ((Merge.rightIndex sc numberSet collision.floats).errs ++
      (Merge.leftIndex sc numberSet collision.integers).errs).length ≠ 0 then _ else
      (Merge.schedule (Merge.leftIndex sc numberSet collision.integers)
        (Merge.rightIndex sc numberSet collision.floats)).bind _) = none
  rw [if_neg clean, stuck]
  rfl

end

/-- An object with the integers does not merge with one that has the float. -/
theorem merge_diverges :
    (numberSetObject collision.integers).merge (numberSetObject collision.floats) =
      .error .diverges := by
  have lists : ∀ visit, Merge.body ⟨[]⟩ visit ⟨.inline (.ofList numberSet),
      some (.list collision.integers), some (.list collision.floats)⟩ = none :=
    fun visit => collision.visitListItems_diverges ⟨[]⟩ visit
  have root : ∀ visit : Typed.Compare.Call N → Option (MergeWalk N),
      visit ⟨.inline (.ofList numberSet), some (.list collision.integers),
        some (.list collision.floats)⟩ = none →
      Merge.body ⟨[]⟩ visit ⟨(numberSetObject collision.integers).typeRef,
        (numberSetObject collision.integers).value, (numberSetObject collision.floats).value⟩ =
        none := by
    intro visit diverges
    have field : Merge.visitMapItem visit (.struct [("list", .inline (.ofList numberSet))])
        ("list", some (.list collision.integers), some (.list collision.floats)) = none :=
      congrArg (Option.map _) diverges
    show Merge.visitMapItems visit (.struct [("list", .inline (.ofList numberSet))])
      [("list", .list collision.integers)] [("list", .list collision.floats)] = none
    have keys : Value.mapZip [("list", .list collision.integers)] [("list", .list collision.floats)] =
        [("list", some (.list collision.integers), some (.list collision.floats))] := rfl
    simp [Merge.visitMapItems, keys, field]
  have walk : mergeWalk (numberSetObject collision.integers).schema.val
      (numberSetObject collision.integers).typeRef (numberSetObject collision.integers).value
      (numberSetObject collision.floats).value = none := root _ (lists _)
  simp only [TypedValue.merge, walk]
  rfl

end Collision

/-- Objects with sets of numbers that the schema admits are valid. -/
theorem numberSetObject_valid {allowDuplicates : Bool} {items : List (Value N)}
    (admitted : Typed.Merge.Admitted ⟨[]⟩ Collision.numberSet allowDuplicates items) :
    (numberSetObject items).isValid allowDuplicates = true := by
  have list : validate ⟨[]⟩ allowDuplicates (.inline (.ofList Collision.numberSet)) (.list items) =
      [] := by
    rw [validate_eq]
    exact admitted
  have root : validate ⟨[]⟩ allowDuplicates (numberSetObject items).typeRef
      (.map [("list", .list items)]) = [] := by
    rw [validate_eq]
    show ValidationErrors.withPrefix
      (validate ⟨[]⟩ allowDuplicates (.inline (.ofList Collision.numberSet)) (.list items)) _ ++
        [] = []
    rw [list]
    rfl
  exact List.isEmpty_iff.mpr root

end StructuredMergeDiff
