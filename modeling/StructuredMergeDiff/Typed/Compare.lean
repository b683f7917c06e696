import StructuredMergeDiff.FieldPath.PathElementMap
import StructuredMergeDiff.Schema.Equals
import StructuredMergeDiff.Typed.Validate

/-!
Contract: the comparing walker.

It walks two values of one type side by side, either of which may be absent,
and records the paths that were added, removed or modified.

Owns: `compareWalk`, the recorded paths relative to the compared values in the
order in which they are inserted, and the errors.
-/

namespace StructuredMergeDiff.Typed

open Library

variable {N : Type} [Numeric N]

/-- What a comparison records, and its errors. -/
structure CompareWalk (N : Type) where
  added : List (Path N)
  removed : List (Path N)
  modified : List (Path N)
  errs : ValidationErrors N

namespace CompareWalk

section

omit [Numeric N]

def nothing : CompareWalk N :=
  { added := [], removed := [], modified := [], errs := [] }

def ofErrors (errs : ValidationErrors N) : CompareWalk N :=
  { nothing with errs := errs }

def append (first second : CompareWalk N) : CompareWalk N :=
  { added := first.added ++ second.added
    removed := first.removed ++ second.removed
    modified := first.modified ++ second.modified
    errs := first.errs ++ second.errs }

def concat (walks : List (CompareWalk N)) : CompareWalk N :=
  walks.foldr append nothing

/-- The comparison of a child, seen from its parent. -/
def beneath (pe : PathElement N) (walk : CompareWalk N) : CompareWalk N :=
  { added := walk.added.map (pe :: ·)
    removed := walk.removed.map (pe :: ·)
    modified := walk.modified.map (pe :: ·)
    errs := walk.errs.withPrefix pe }

end

end CompareWalk

namespace Compare

/-- What the walk is called with: a type and the two values, nil being `none`. -/
structure Call (N : Type) where
  type : TypeRef N
  lhs : Option (Value N)
  rhs : Option (Value N)

/-- The outcome of one case of the walker, and whether it was a leaf. -/
structure Handled (N : Type) where
  walk : CompareWalk N
  inLeaf : Bool

/-- `doLeaf`. -/
def doLeaf (lhs rhs : Option (Value N)) : Handled N :=
  let walk : CompareWalk N :=
    match lhs, rhs with
    | none, _ => { CompareWalk.nothing with added := [[]] }
    | some _, none => { CompareWalk.nothing with removed := [[]] }
    | some l, some r =>
        if r == l then .nothing else { CompareWalk.nothing with modified := [[]] }
  { walk := walk, inLeaf := true }

def doScalar (t : ScalarType) (lhs rhs : Option (Value N)) : Handled N :=
  let lerrs := validateScalar t lhs .lhs
  let rerrs := validateScalar t rhs .rhs
  if lerrs.length > 0 && rerrs.length > 0 then
    { walk := .ofErrors (lerrs ++ rerrs), inLeaf := false }
  else doLeaf lhs rhs

/-! ## Lists -/

/-- The items of one side by path element, in a list for duplicates, with the
path elements in the order of their first occurrence. -/
structure Gathered (N : Type) where
  values : PathElementMap N (List (Value N))
  pes : List (PathElement N)
  errs : ValidationErrors N

/-- Gather the items of one side. -/
def gather (sc : Schema N) (t : ListType N) : Nat → Gathered N → List (Value N) → Gathered N
  | _, acc, [] => acc
  | index, acc, item :: rest =>
      match listItemToPathElement sc t item with
      | .error err =>
          gather sc t (index + 1) { acc with errs := acc.errs ++ errorf (.element index err) } rest
      | .ok pe =>
          match acc.values.get pe with
          | some found =>
              gather sc t (index + 1)
                { acc with values := acc.values.insert pe (found ++ [item]) } rest
          | none =>
              gather sc t (index + 1)
                { acc with values := acc.values.insert pe [item], pes := acc.pes ++ [pe] } rest

/-- `listEqual`, the comparison of two lists of duplicates. -/
def listEqual (lList rList : List (Value N)) : Bool :=
  Value.listEquals (· == ·) lList rList

/-- The comparison of all items under one path element; `none` ends the loop. -/
def visitPathElement (visit : Call N → CompareWalk N) (t : ListType N) (pe : PathElement N)
    (lList rList : List (Value N)) : Option (CompareWalk N) :=
  let item (lhs rhs : Option (Value N)) := (visit ⟨t.elementType, lhs, rhs⟩).beneath pe
  match lList, rList with
  | [], [] => none
  | [], [r] => some (item none (some r))
  | [l], [] => some (item (some l) none)
  | [l], [r] => some (item (some l) (some r))
  | _ :: _ :: _, _ :: _ :: _ =>
      -- duplicates before and after are compared as if they were atomic
      if listEqual lList rList then some .nothing
      else some { CompareWalk.nothing with modified := [[pe]] }
  | _ :: _ :: _, [] => some { CompareWalk.nothing with removed := [[pe]] }
  | _ :: _ :: _, [r] =>
      some ((item none (some r)).append { CompareWalk.nothing with removed := [[pe]] })
  | [], _ :: _ :: _ => some { CompareWalk.nothing with added := [[pe]] }
  | [l], _ :: _ :: _ =>
      some ((item (some l) none).append { CompareWalk.nothing with added := [[pe]] })

/-- The loop over the path elements of either side. -/
def visitPathElements (visit : Call N → CompareWalk N) (t : ListType N)
    (lValues rValues : PathElementMap N (List (Value N))) : List (PathElement N) → CompareWalk N
  | [] => .nothing
  | pe :: rest =>
      match visitPathElement visit t pe ((lValues.get pe).getD []) ((rValues.get pe).getD []) with
      | none => .nothing
      | some walk => walk.append (visitPathElements visit t lValues rValues rest)

/-- `visitListItems`. -/
def visitListItems (sc : Schema N) (visit : Call N → CompareWalk N) (t : ListType N)
    (lhs rhs : List (Value N)) : CompareWalk N :=
  let left := gather sc t 0 { values := [], pes := [], errs := [] } lhs
  let right := gather sc t 0 { values := [], pes := [], errs := [] } rhs
  let allPEs := left.pes ++ right.pes.filter fun pe => (left.values.get pe).isNone
  (CompareWalk.ofErrors (left.errs ++ right.errs)).append
    (visitPathElements visit t left.values right.values allPEs)

omit [Numeric N] in
/-- `derefList`: the items of a list; nil for a nil value, for null and for other values. -/
def derefList : Option (Value N) → Option (List (Value N))
  | some (.list items) => some items
  | _ => none

def doList (sc : Schema N) (visit : Call N → CompareWalk N) (t : ListType N)
    (lhs rhs : Option (Value N)) : Handled N :=
  let l := derefList lhs
  let r := derefList rhs
  let emptyPromoteToLeaf := (l.getD []).isEmpty && (r.getD []).isEmpty
  if t.elementRelationship = .atomic || emptyPromoteToLeaf then doLeaf lhs rhs
  else { walk := visitListItems sc visit t (l.getD []) (r.getD []), inLeaf := false }

/-! ## Maps -/

omit [Numeric N] in
/-- `derefMap`: the entries of a map; nil for a nil value, for null and for other values. -/
def derefMap : Option (Value N) → Option (List (String × Value N))
  | some (.map bindings) => some (Value.normalize bindings)
  | _ => none

omit [Numeric N] in
/-- `visitMapItems`. -/
def visitMapItems (visit : Call N → CompareWalk N) (t : MapType N)
    (lhs rhs : List (String × Value N)) : CompareWalk N :=
  .concat ((Value.mapZip lhs rhs).map fun entry =>
    (visit ⟨t.fieldType entry.1, entry.2.1, entry.2.2⟩).beneath (.fieldName entry.1))

def doMap (visit : Call N → CompareWalk N) (t : MapType N) (lhs rhs : Option (Value N)) :
    Handled N :=
  let l := derefMap lhs
  let r := derefMap rhs
  let emptyPromoteToLeaf := (l.getD []).isEmpty && (r.getD []).isEmpty
  if t.elementRelationship = .atomic || emptyPromoteToLeaf then doLeaf lhs rhs
  else { walk := visitMapItems visit t (l.getD []) (r.getD []), inLeaf := false }

/-! ## The walk -/

/-- `handleAtom` with the walker as handler. -/
def handle (sc : Schema N) (visit : Call N → CompareWalk N) (call : Call N) (atom : Atom N) :
    Handled N :=
  match handleAtom atom call.type with
  | .error message => { walk := .ofErrors (errorf message), inLeaf := false }
  | .ok (.scalar t) => doScalar t call.lhs call.rhs
  | .ok (.list t) => doList sc visit t call.lhs call.rhs
  | .ok (.map t) => doMap visit t call.lhs call.rhs

omit [Numeric N] in
/-- `deduceAtom` of a value that may be nil. -/
def deduceAtomOf (atom : Atom N) : Option (Value N) → Atom N
  | none => atom
  | some v => deduceAtom atom v

def body (sc : Schema N) (visit : Call N → CompareWalk N) (call : Call N) : CompareWalk N :=
  match call.lhs, call.rhs with
  | none, none => .ofErrors (errorf .noOperand)
  | _, _ =>
      match sc.resolve call.type with
      | none => .ofErrors (errorf (.noTypeFound call.type.namedType))
      | some atom =>
          let alhs := deduceAtomOf atom call.lhs
          let arhs := deduceAtomOf atom call.rhs
          match call.lhs, call.rhs with
          | _, none =>
              let handled := handle sc visit call alhs
              if handled.inLeaf then handled.walk
              else handled.walk.append { CompareWalk.nothing with removed := [[]] }
          | none, some _ =>
              let handled := handle sc visit call arhs
              if handled.inLeaf then handled.walk
              else handled.walk.append { CompareWalk.nothing with added := [[]] }
          | some _, some _ =>
              if alhs.equals arhs then (handle sc visit call arhs).walk
              else (handle sc visit call alhs).walk.append (handle sc visit call arhs).walk

omit [Numeric N] in
/-- Depth of the two values together. -/
def Call.depth (call : Call N) : Nat :=
  (call.lhs.elim 0 Value.depth) + (call.rhs.elim 0 Value.depth)

end Compare

/-- `compare`. -/
def compareWalk (sc : Schema N) (tr : TypeRef N) (lhs rhs : Option (Value N)) : CompareWalk N :=
  measured Compare.Call.depth (Compare.body sc) (fun _ => .nothing) ⟨tr, lhs, rhs⟩

end StructuredMergeDiff.Typed
