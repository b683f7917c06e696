import StructuredMergeDiff.FieldPath.Set
import StructuredMergeDiff.Typed.Helpers

/-!
Contract: reconciliation of a field set with the schema.

Where the schema now says that a list or map is atomic, a set that reaches
into it is cut back to the list or map itself. The walk follows the set and
the declared types and collects what to remove and what to add.

Owns: `reconcileWalk` and `reconcileFieldSetWithSchema`.
-/

namespace StructuredMergeDiff.Typed

open Library

variable {N : Type} [Numeric N]

namespace Reconcile

/-- The accumulated diff: nil sets are `none`. -/
structure Pending (N : Type) where
  toRemove : Option (FieldSet N)
  toAdd : Option (FieldSet N)

/-- What the walk is called with: the node being visited, and what its parent
had accumulated so far. -/
structure Call (N : Type) where
  fieldSet : Option (FieldSet N)
  type : TypeRef N
  path : Path N
  isAtomic : Bool
  pending : Pending N

structure Result (N : Type) where
  errs : ValidationErrors N
  pending : Pending N

/-- One side of `finishDescent`. -/
def mergePending (own child : Option (FieldSet N)) : Option (FieldSet N) :=
  match own, child with
  | own, none => own
  | none, some s => some s
  | some s, some t => some (s.union t)

/-- `handleElement`: descend to one child and merge what it accumulated. -/
def handleElement (visit : Call N → Result N) (call : Call N) (element : FieldSet N)
    (typeOf : PathElement N → Option (TypeRef N)) (state : Result N) (pe : PathElement N)
    (isMember : Bool) : Result N :=
  match typeOf pe with
  | none => state
  | some type =>
      let child := FieldSet.childrenGet element.children pe
      let result := visit
        { fieldSet := child
          type := type
          path := call.path ++ [pe]
          isAtomic := isMember && child.isNone
          pending := state.pending }
      { errs := state.errs ++ result.errs
        pending :=
          { toRemove := mergePending state.pending.toRemove result.pending.toRemove
            toAdd := mergePending state.pending.toAdd result.pending.toAdd } }

/-- The two iterations of `visitListItems` and `visitMapItems`: the children that
are not members, then the members. -/
def visitItems (visit : Call N → Result N) (call : Call N) (element : FieldSet N)
    (typeOf : PathElement N → Option (TypeRef N)) : Result N :=
  let start : Result N := { errs := [], pending := call.pending }
  let onlyChildren := (element.children.map Prod.fst).filter fun pe =>
    !FieldSet.membersHas element.members pe
  let afterChildren := onlyChildren.foldl
    (fun state pe => handleElement visit call element typeOf state pe false) start
  element.members.foldl
    (fun state pe => handleElement visit call element typeOf state pe true) afterChildren

/-- Cut the set back to the visited node. -/
def collapse (call : Call N) : Result N :=
  { errs := []
    pending :=
      { toRemove := some (FieldSet.ofPaths [call.path])
        toAdd := some (FieldSet.ofPaths [call.path]) } }

def doList (visit : Call N → Result N) (t : ListType N) (call : Call N) : Result N :=
  if !call.isAtomic && t.elementRelationship = .atomic then collapse call
  else
    match call.fieldSet with
    | some element => visitItems visit call element (fun _ => some t.elementType)
    | none => { errs := [], pending := call.pending }

section

omit [Numeric N]

def isUntypedDeducedRef (tr : TypeRef N) : Bool :=
  match tr.namedType with
  | some name => name == "__untyped_deduced_"
  | none => tr.inlined.scalar == some .untyped

def isUntypedDeducedMap (t : MapType N) : Bool :=
  isUntypedDeducedRef t.elementType && t.fields.isEmpty

/-- `typeRefAtPath`: fields not in the schema have no type. -/
def typeRefAtPath (t : MapType N) (pe : PathElement N) : Option (TypeRef N) :=
  let tr :=
    match pe with
    | .fieldName name => t.fieldType name
    | _ => t.elementType
  if tr.isZero then none else some tr

end

def doMap (visit : Call N → Result N) (t : MapType N) (call : Call N) : Result N :=
  let unchanged : Result N := { errs := [], pending := call.pending }
  if isUntypedDeducedMap t then unchanged
  else if !call.isAtomic && t.elementRelationship = .atomic then
    match call.fieldSet with
    | some element => if element.size > 0 then collapse call else unchanged
    | none => unchanged
  else
    match call.fieldSet with
    | some element => visitItems visit call element (typeRefAtPath t)
    | none => unchanged

def body (sc : Schema N) (visit : Call N → Result N) (call : Call N) : Result N :=
  match sc.resolve call.type with
  | none => { errs := errorf .couldNotResolve, pending := call.pending }
  | some atom =>
      match handleAtom atom call.type with
      | .error message => { errs := errorf message, pending := call.pending }
      | .ok (.scalar _) => { errs := [], pending := call.pending }
      | .ok (.list t) => doList visit t call
      | .ok (.map t) => doMap visit t call

omit [Numeric N] in
def Call.depth (call : Call N) : Nat :=
  call.fieldSet.elim 0 fun s => s.depth + 1

end Reconcile

/-- `reconcile`. -/
def reconcileWalk (sc : Schema N) (call : Reconcile.Call N) : Reconcile.Result N :=
  measured Reconcile.Call.depth (Reconcile.body sc)
    (fun call => { errs := [], pending := call.pending }) call

/-- `ReconcileFieldSetWithSchema`: the changed set, or `none` if there is nothing
to change. -/
def reconcileFieldSetWithSchema (sc : Schema N) (tr : TypeRef N) (fieldset : FieldSet N) :
    Except (ValidationErrors N) (Option (FieldSet N)) :=
  let result := reconcileWalk sc
    { fieldSet := some fieldset
      type := tr
      path := []
      isAtomic := false
      pending := { toRemove := none, toAdd := none } }
  if result.errs.length > 0 then .error result.errs
  else if result.pending.toAdd.isSome || result.pending.toRemove.isSome then
    let out := (result.pending.toRemove.map fieldset.recursiveDifference).getD fieldset
    .ok (some ((result.pending.toAdd.map out.union).getD out))
  else .ok none

end StructuredMergeDiff.Typed
