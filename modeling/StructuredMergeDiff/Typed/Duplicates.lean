import StructuredMergeDiff.Typed.Difference

/-!
Contract: what a comparison reports of objects that hold duplicates.

Items under one name are compared as a whole where a side has several of them.
What is beneath them is then not reported as removed.

Owns: that what is reported as added or modified is in the right side, and which
paths of the left side are reported as removed.
-/

namespace StructuredMergeDiff.Typed

open Library Std Compare

variable {N : Type} [Numeric N] [Consistent N] {sc : Schema N}

omit [Consistent N] in
/-- The path leads beneath several items of one name. -/
def BeneathDuplicates (sc : Schema N) (tr : TypeRef N) (side : Option (Value N)) (path : Path N) :
    Prop :=
  ∃ first rest, path = first ++ rest ∧ rest ≠ [] ∧
    ∃ v, side = some v ∧ 2 ≤ (nodesAt sc ⟨tr, v⟩ first).length

section Cons

variable {tr : TypeRef N} {side : Option (Value N)} {pe : PathElement N} {rest : Path N}

section

omit [Consistent N]

theorem not_beneathDuplicates_nil : ¬ BeneathDuplicates sc tr side [] := by
  rintro ⟨first, rest, isNil, proper, -⟩
  exact proper (List.append_eq_nil_iff.mp isNil.symm).2

/-- Beneath a single item are the duplicates that it holds. -/
theorem beneathDuplicates_single (proper : pe.isProper = true) {x : Value N}
    (isKid : kidValues sc tr side pe = [x]) :
    BeneathDuplicates sc tr side (pe :: rest) ↔
      BeneathDuplicates sc (kidType sc tr pe) (some x) rest := by
  cases side with
  | none => cases isKid
  | some v =>
      constructor
      · rintro ⟨first, later, isPath, notLast, w, isSide, several⟩
        cases isSide
        cases first with
        | nil => simp [nodesAt] at several
        | cons head tail =>
            obtain ⟨rfl, rfl⟩ := List.cons.inj isPath
            rw [nodesAt_cons_kid proper isKid] at several
            exact ⟨tail, later, rfl, notLast, x, rfl, several⟩
      · rintro ⟨first, later, rfl, notLast, w, isSide, several⟩
        cases isSide
        refine ⟨pe :: first, later, rfl, notLast, v, rfl, ?_⟩
        rwa [nodesAt_cons_kid proper isKid]

theorem beneathDuplicates_several (notLast : rest ≠ [])
    (several : 2 ≤ (kidValues sc tr side pe).length) :
    BeneathDuplicates sc tr side (pe :: rest) := by
  cases side with
  | none => simp at several
  | some v =>
      refine ⟨[pe], rest, rfl, notLast, v, rfl, ?_⟩
      simpa [nodesAt, kidValues, ← List.map_eq_flatMap] using several

theorem not_beneathDuplicates_single : ¬ BeneathDuplicates sc tr side [pe] := by
  rintro ⟨first, later, isPath, notLast, w, -, several⟩
  cases first with
  | nil => simp [nodesAt] at several
  | cons head tail =>
      have parts := (List.cons.inj isPath).2
      exact notLast (List.append_eq_nil_iff.mp parts.symm).2

end

end Cons

omit [Consistent N] in
theorem present_of_sole {tr : TypeRef N} {side : Option (Value N)} {pe : PathElement N}
    {rest : Path N} (proper : pe.isProper = true)
    (beneath : Present sc (kidType sc tr pe) (sole (kidValues sc tr side pe)) rest) :
    Present sc tr side (pe :: rest) := by
  obtain ⟨v, isSole, found⟩ := beneath
  exact (present_cons proper).mpr ⟨v, mem_of_sole isSole, found⟩

/-! ## Added and modified paths -/

/-- What is reported as added or modified is in the right side. -/
theorem present_of_records {left right : Bool} {tr : TypeRef N} {lhs rhs : Option (Value N)}
    (soundLeft : SoundSide sc left tr lhs) (soundRight : SoundSide sc right tr rhs)
    {change : Change} (notRemoved : change ≠ .removed) {path : Path N}
    (records : (compareWalk sc tr lhs rhs).Records change path) : Present sc tr rhs path := by
  induction path generalizing tr lhs rhs with
  | nil =>
      rw [(compareWalk_meets sc tr lhs rhs).root] at records
      match lhs, rhs, records with
      | none, some r, _ => simp [present_root]
      | some l, none, isRemoved => exact absurd isRemoved.1 notRemoved
      | some l, some r, _ => simp [present_root]
  | cons pe rest ih =>
      have meets := compareWalk_meets sc tr lhs rhs
      by_cases proper : pe.isProper = true
      · rw [meets.kid _ rest proper] at records
        rcases records_compareAll.mp records with ⟨-, inItem⟩ | ⟨rfl, several⟩
        · exact present_of_sole proper (ih (soundLeft.sole proper) (soundRight.sole proper) inItem)
        · rw [present_single]
          intro none
          simp only [severalChange, none] at several
          split_ifs at several <;> simp_all
      · exact absurd records (meets.improper _ rest (by simpa using proper))

/-! ## Removed paths -/

/-- Of the paths that the right side does not have, those of the left side that are
not beneath duplicates are reported as removed. -/
theorem records_removed_iff {left right : Bool} {tr : TypeRef N} {lhs rhs : Option (Value N)}
    (soundLeft : SoundSide sc left tr lhs) (soundRight : SoundSide sc right tr rhs)
    {path : Path N} (absent : ¬ Present sc tr rhs path) :
    (compareWalk sc tr lhs rhs).Records .removed path ↔
      Present sc tr lhs path ∧ ¬ BeneathDuplicates sc tr lhs path := by
  induction path generalizing tr lhs rhs with
  | nil =>
      rw [(compareWalk_meets sc tr lhs rhs).root]
      cases lhs with
      | none => cases rhs <;> simp [RootChange]
      | some l =>
          cases rhs with
          | none => simp [RootChange, soundLeft.resolves, present_root, not_beneathDuplicates_nil]
          | some r => simp [present_root] at absent
  | cons pe rest ih =>
      have meets := compareWalk_meets sc tr lhs rhs
      by_cases proper : pe.isProper = true
      · rw [meets.kid _ rest proper]
        refine records_compareAll.trans ?_
        rw [ih (soundLeft.sole proper) (soundRight.sole proper)
          fun beneath => absent (present_of_sole proper beneath)]
        rcases isLeft : kidValues sc tr lhs pe with _ | ⟨l, _ | ⟨y, more⟩⟩
        · have absentLeft : ¬ Present sc tr lhs (pe :: rest) := by simp [present_cons proper, isLeft]
          simp [sole, severalChange, absentLeft]
        · have present : Present sc tr lhs (pe :: rest) ↔
              Present sc (kidType sc tr pe) (some l) rest := by
            rw [present_cons proper, isLeft]
            simp [Present]
          rw [present, beneathDuplicates_single proper isLeft]
          simp [sole, severalChange]
        · have several : 2 ≤ (kidValues sc tr lhs pe).length := by simp [isLeft]
          simp only [sole, not_present_none, false_and, and_false, false_or]
          constructor
          · rintro ⟨rfl, -⟩
            exact ⟨present_single.mpr (by simp [isLeft]), not_beneathDuplicates_single⟩
          · intro both
            have isLast : rest = [] := by
              by_contra notLast
              exact both.2 (beneathDuplicates_several notLast several)
            rw [isLast, present_single, not_not] at absent
            exact ⟨isLast, by simp [severalChange, absent]⟩
      · have improper : pe.isProper = false := by simpa using proper
        simp [meets.improper _ rest improper, soundLeft.not_present_improper improper]

end StructuredMergeDiff.Typed
