import StructuredMergeDiff.FieldPath.Element
import StructuredMergeDiff.Library.SortedSlice

/-!
Contract: maps from path elements, as slices sorted by path element.

Owns: `PathElementMap` with `get` and `insert`, and their laws over a
consistent number domain.
-/

namespace StructuredMergeDiff

open Library Std

/-- `PathElementMap` and `PathElementValueMap`. -/
abbrev PathElementMap (N β : Type) := List (PathElement N × β)

namespace PathElementMap

variable {N β : Type} [Numeric N]

/-- `Get`. -/
def get (m : PathElementMap N β) (pe : PathElement N) : Option β :=
  (getBy Prod.fst pe m).map Prod.snd

/-- `Insert`: an entry under an equal path element keeps it and changes its value. -/
def insert [Inhabited β] (m : PathElementMap N β) (pe : PathElement N) (v : β) :
    PathElementMap N β :=
  insertBy Prod.fst (.unset, default) (fun entry => (entry.1, v)) (pe, v) m

section Lawful

variable [Consistent N] [Inhabited β]

section

variable {m : PathElementMap N β} (sorted : SortedBy Prod.fst m)

include sorted

theorem insert_sorted (pe : PathElement N) (v : β) : SortedBy Prod.fst (m.insert pe v) :=
  insertBy_sorted sorted _ _ _ (fun other _ => BEq.refl other.1)

omit [Inhabited β] in
theorem get_eq_lookupBy (pe : PathElement N)
    : m.get pe = (lookupBy Prod.fst pe m).map Prod.snd := by
  rw [get, getBy_eq_lookupBy sorted]

omit [Inhabited β] in
theorem get_congr {first second : PathElement N} (same : (first == second) = true) :
    m.get first = m.get second := by
  rw [get_eq_lookupBy sorted, get_eq_lookupBy sorted, lookupBy_congr _ _ same]

/-- The last insertion under a path element is what is found there. -/
theorem get_insert (pe : PathElement N) (v : β) (wanted : PathElement N) :
    (m.insert pe v).get wanted = if pe == wanted then some v else m.get wanted := by
  have lookup := lookupBy_insertBy sorted (.unset, default)
    (fun entry : PathElement N × β => (entry.1, v)) (pe, v) (fun other _ => BEq.refl other.1) wanted
  rw [get_eq_lookupBy (insert_sorted sorted pe v), get_eq_lookupBy sorted, insert, lookup]
  by_cases same : (pe == wanted) = true
  · rw [if_pos same, if_pos same]
    cases lookupBy Prod.fst wanted m <;> rfl
  · rw [if_neg same, if_neg same]

end

end Lawful

end PathElementMap

end StructuredMergeDiff
