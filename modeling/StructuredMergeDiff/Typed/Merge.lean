import StructuredMergeDiff.Typed.Compare

/-!
Contract: the merging walker.

It walks two values of one type side by side and builds the value that keeps
the right-hand side where both have a leaf. Associative lists are interleaved
by a loop over both index lists.

Owns: `mergeWalk`, which returns the merged value (absent if nothing was set)
and the errors, or `none` if the interleaving loop never ends.

Errors of the merge of a list item go to a variable that shadows the list's
own; the source drops them, and so does `visitListItems`.
-/

namespace StructuredMergeDiff.Typed

open Library

variable {N : Type} [Numeric N]

/-- What a merge sets: the output, if any, and the errors. -/
structure MergeWalk (N : Type) where
  out : Option (Value N)
  errs : ValidationErrors N

namespace Merge

/-- The walk is called with a type and the two values, as the comparing one. -/
abbrev Call (N : Type) := Compare.Call N

omit [Numeric N] in
/-- `doLeaf` with `ruleKeepRHS`. -/
def doLeaf (lhs rhs : Option (Value N)) : MergeWalk N :=
  { out := rhs.or lhs, errs := [] }

omit [Numeric N] in
def doScalar (t : ScalarType) (lhs rhs : Option (Value N)) : MergeWalk N :=
  let lerrs := validateScalar t lhs .lhs
  let rerrs := validateScalar t rhs .rhs
  if lerrs.length > 0 && rerrs.length > 0 then { out := none, errs := lerrs ++ rerrs }
  else doLeaf lhs rhs

/-! ## Indexing a list -/

/-- `indexListPathElements`: the path elements in order, each with its item, the
items by path element, and the errors. -/
structure Indexed (N : Type) where
  pes : List (PathElement N × Value N)
  observed : PathElementMap N (Value N)
  errs : ValidationErrors N

def indexListPathElements (sc : Schema N) (t : ListType N) (allowDuplicates : Bool) :
    Nat → Indexed N → List (Value N) → Indexed N
  | _, acc, [] => acc
  | index, acc, item :: rest =>
      match listItemToPathElement sc t item with
      | .error err =>
          indexListPathElements sc t allowDuplicates (index + 1)
            { acc with errs := acc.errs ++ errorf (.element index err) } rest
      | .ok pe =>
          match acc.observed.get pe with
          | some _ =>
              if allowDuplicates then
                -- duplicated items are not merged with the new value
                indexListPathElements sc t allowDuplicates (index + 1)
                  { acc with
                    pes := acc.pes ++ [(pe, item)]
                    observed := acc.observed.insert pe .null } rest
              else
                indexListPathElements sc t allowDuplicates (index + 1)
                  { acc with errs := acc.errs ++ errorf (.duplicateEntries pe) } rest
          | none =>
              indexListPathElements sc t allowDuplicates (index + 1)
                { acc with
                  pes := acc.pes ++ [(pe, item)]
                  observed := acc.observed.insert pe item } rest

omit [Numeric N] in
/-- The index of no item. -/
def Indexed.start : Indexed N :=
  { pes := [], observed := [], errs := [] }

/-! ## The interleaving loop -/

/-- One item to merge: its path element and what either side has for it. -/
structure Emission (N : Type) where
  pe : PathElement N
  lChild : Option (Value N)
  rChild : Option (Value N)

/-- The state of the loop. `lhs` and `rhs` are what is left from `lI` and `rI` on. -/
structure LoopState (N : Type) where
  lhs : List (PathElement N × Value N)
  rhs : List (PathElement N)
  nextShared : Option (PathElement N)
  sharedOrder : List (PathElement N)
  mergedRHS : PathElementMap N Unit

/-- The part of the loop body that takes the next item of the right side. -/
def takeRight (observedLHS observedRHS : PathElementMap N (Value N)) (state : LoopState N) :
    LoopState N × List (Emission N) :=
  match state.rhs with
  | [] => (state, [])
  | pe :: rest =>
      let taken := { state with rhs := rest, mergedRHS := state.mergedRHS.insert pe () }
      let emitted := [⟨pe, observedLHS.get pe, observedRHS.get pe⟩]
      match state.nextShared with
      | some shared =>
          if shared == pe then
            ({ taken with
                nextShared := state.sharedOrder.head?, sharedOrder := state.sharedOrder.tail },
              emitted)
          else (taken, emitted)
      | none => (taken, emitted)

/-- The part of the loop body after the two heads have been compared. -/
def takeLeft (observedLHS observedRHS : PathElementMap N (Value N)) (state : LoopState N) :
    LoopState N × List (Emission N) :=
  match state.lhs with
  | [] => takeRight observedLHS observedRHS state
  | (pe, item) :: rest =>
      if (observedRHS.get pe).isNone then
        ({ state with lhs := rest }, [⟨pe, some item, none⟩])
      else if (state.mergedRHS.get pe).isSome then
        -- already merged; the body goes on to the right side all the same
        takeRight observedLHS observedRHS { state with lhs := rest }
      else takeRight observedLHS observedRHS state

/-- One iteration of the loop. -/
def iteration (observedLHS observedRHS : PathElementMap N (Value N)) (state : LoopState N) :
    LoopState N × List (Emission N) :=
  match state.lhs, state.rhs with
  | (pe, _) :: lhs, rpe :: rhs =>
      if pe == rpe then
        ({ lhs := lhs
           rhs := rhs
           nextShared := state.sharedOrder.head?
           sharedOrder := state.sharedOrder.tail
           mergedRHS := state.mergedRHS.insert pe () },
          [⟨pe, observedLHS.get pe, observedRHS.get pe⟩])
      else if (observedRHS.get pe).isSome && state.nextShared.any (fun shared => !(shared == pe)) then
        -- shared item, but not the one we want in this round
        ({ state with lhs := lhs }, [])
      else takeLeft observedLHS observedRHS state
  | _, _ => takeLeft observedLHS observedRHS state

/-- The loop, stopped after `fuel` iterations: `none` if it has not ended by then. -/
def loop (observedLHS observedRHS : PathElementMap N (Value N)) :
    Nat → LoopState N → Option (List (Emission N))
  | fuel, state =>
      if state.lhs.isEmpty && state.rhs.isEmpty then some []
      else
        match fuel with
        | 0 => none
        | fuel + 1 =>
            let (next, emitted) := iteration observedLHS observedRHS state
            (loop observedLHS observedRHS fuel next).map (emitted ++ ·)

/-- The state in which the loop starts. -/
def LoopState.start (left right : Indexed N) : LoopState N :=
  let sharedOrder := (right.pes.map Prod.fst).filter fun pe => (left.observed.get pe).isSome
  { lhs := left.pes
    rhs := right.pes.map Prod.fst
    nextShared := sharedOrder.head?
    sharedOrder := sharedOrder.tail
    mergedRHS := [] }

/-- The items to merge, in the order in which the loop reaches them. An iteration
that advances neither side leaves the state as it was, so the number of items is
enough fuel for every run that ends. -/
def schedule (left right : Indexed N) : Option (List (Emission N)) :=
  loop left.observed right.observed (left.pes.length + right.pes.length)
    (LoopState.start left right)

/-- `visitListItems`. -/
def visitListItems (sc : Schema N) (visit : Call N → Option (MergeWalk N)) (t : ListType N)
    (lhs rhs : List (Value N)) : Option (MergeWalk N) :=
  let right := indexListPathElements sc t false 0 .start rhs
  let left := indexListPathElements sc t true 0 .start lhs
  let errs := right.errs ++ left.errs
  if errs.length ≠ 0 then some { out := none, errs := errs }
  else do
    let emissions ← schedule left right
    let merged ← emissions.mapM fun emission =>
      visit ⟨t.elementType, emission.lChild, emission.rChild⟩
    let out := merged.filterMap MergeWalk.out
    pure { out := if out.isEmpty then none else some (.list out), errs := [] }

def doList (sc : Schema N) (visit : Call N → Option (MergeWalk N)) (t : ListType N)
    (lhs rhs : Option (Value N)) : Option (MergeWalk N) :=
  let l := Compare.derefList lhs
  let r := Compare.derefList rhs
  let emptyPromoteToLeaf := (l.getD []).isEmpty && (r.getD []).isEmpty
  if t.elementRelationship = .atomic || emptyPromoteToLeaf then some (doLeaf lhs rhs)
  else visitListItems sc visit t (l.getD []) (r.getD [])

/-! ## Maps -/

section

omit [Numeric N]

/-- `visitMapItem`: the key with its merged value, if any, and the errors. -/
def visitMapItem (visit : Call N → Option (MergeWalk N)) (t : MapType N)
    (entry : String × Option (Value N) × Option (Value N)) :
    Option (Option (String × Value N) × ValidationErrors N) :=
  (visit ⟨t.fieldType entry.1, entry.2.1, entry.2.2⟩).map fun walk =>
    (walk.out.map fun v => (entry.1, v), walk.errs.withPrefix (.fieldName entry.1))

/-- `visitMapItems`. -/
def visitMapItems (visit : Call N → Option (MergeWalk N)) (t : MapType N)
    (lhs rhs : List (String × Value N)) : Option (MergeWalk N) := do
  let visited ← (Value.mapZip lhs rhs).mapM (visitMapItem visit t)
  let out := visited.filterMap Prod.fst
  pure
    { out := if out.isEmpty then none else some (.map out)
      errs := visited.flatMap Prod.snd }

def doMap (visit : Call N → Option (MergeWalk N)) (t : MapType N) (lhs rhs : Option (Value N)) :
    Option (MergeWalk N) :=
  let l := Compare.derefMap lhs
  let r := Compare.derefMap rhs
  let emptyPromoteToLeaf := (l.getD []).isEmpty && (r.getD []).isEmpty
  if t.elementRelationship = .atomic || emptyPromoteToLeaf then some (doLeaf lhs rhs)
  else visitMapItems visit t (l.getD []) (r.getD [])

end

/-! ## The walk -/

/-- `handleAtom` with the walker as handler. -/
def handle (sc : Schema N) (visit : Call N → Option (MergeWalk N)) (call : Call N)
    (atom : Atom N) : Option (MergeWalk N) :=
  match handleAtom atom call.type with
  | .error message => some { out := none, errs := errorf message }
  | .ok (.scalar t) => some (doScalar t call.lhs call.rhs)
  | .ok (.list t) => doList sc visit t call.lhs call.rhs
  | .ok (.map t) => doMap visit t call.lhs call.rhs

def body (sc : Schema N) (visit : Call N → Option (MergeWalk N)) (call : Call N) :
    Option (MergeWalk N) :=
  match call.lhs, call.rhs with
  | none, none => some { out := none, errs := errorf .noOperand }
  | _, _ =>
      match sc.resolve call.type with
      | none => some { out := none, errs := errorf (.noTypeFound call.type.namedType) }
      | some atom =>
          let alhs := Compare.deduceAtomOf atom call.lhs
          let arhs := Compare.deduceAtomOf atom call.rhs
          match call.lhs, call.rhs with
          | _, none => handle sc visit call alhs
          | none, some _ => handle sc visit call arhs
          | some _, some _ =>
              if alhs.equals arhs then handle sc visit call arhs
              else do
                -- the left alternative is walked for its errors only
                let left ← handle sc visit call alhs
                let right ← handle sc visit call arhs
                pure { right with errs := left.errs ++ right.errs }

end Merge

/-- `merge`. -/
def mergeWalk (sc : Schema N) (tr : TypeRef N) (lhs rhs : Option (Value N)) :
    Option (MergeWalk N) :=
  measured Compare.Call.depth (Merge.body sc) (fun _ => none) ⟨tr, lhs, rhs⟩

end StructuredMergeDiff.Typed
