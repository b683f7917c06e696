import StructuredMergeDiff.FieldPath.Element
import StructuredMergeDiff.Library.MeasuredRecursion
import StructuredMergeDiff.Library.MergeJoin
import StructuredMergeDiff.Schema.Elements

/-!
Contract: sets of paths as tries, as the source computes with them.

A node holds the path elements at which a path of the set ends and, for each
path element that leads further, the set of the remaining paths. Both are
slices sorted by path element.

Owns: `FieldSet` and its operations.
Does not own: what they mean for the paths in the set
(`FieldPath.SetSemantics`).
-/

namespace StructuredMergeDiff

open Library

/-- `Set`: its `Members` and its `Children`. -/
structure FieldSet (N : Type) where
  members : List (PathElement N)
  children : List (PathElement N × FieldSet N)

namespace FieldSet

variable {N : Type}

/-- The set without paths. -/
def nil : FieldSet N :=
  { members := [], children := [] }

instance : Inhabited (FieldSet N) := ⟨nil⟩

/-! ## Structure -/

mutual

def depth : FieldSet N → Nat
  | ⟨_, children⟩ => depthChildren children

def depthChildren : List (PathElement N × FieldSet N) → Nat
  | [] => 0
  | (_, child) :: rest => max (child.depth + 1) (depthChildren rest)

end

theorem depth_lt_of_mem {s : FieldSet N} {node : PathElement N × FieldSet N}
    (member : node ∈ s.children) : node.2.depth < s.depth := by
  obtain ⟨members, children⟩ := s
  simp only [depth]
  change node ∈ children at member
  induction children with
  | nil => cases member
  | cons head tail ih =>
      simp only [depthChildren]
      rcases List.mem_cons.mp member with rfl | inTail
      · exact lt_of_lt_of_le (Nat.lt_succ_self _) (Nat.le_max_left _ _)
      · exact lt_of_lt_of_le (ih inTail) (Nat.le_max_right _ _)

mutual

/-- `Empty`: no member here or in any child. -/
def isEmpty : FieldSet N → Bool
  | ⟨members, children⟩ => members.isEmpty && isEmptyChildren children

def isEmptyChildren : List (PathElement N × FieldSet N) → Bool
  | [] => true
  | (_, child) :: rest => child.isEmpty && isEmptyChildren rest

end

mutual

/-- `Iterate`: the paths in the order in which the callback sees them. -/
def iterate : FieldSet N → List (Path N)
  | ⟨members, children⟩ => members.map (fun pe => [pe]) ++ iterateChildren children

def iterateChildren : List (PathElement N × FieldSet N) → List (Path N)
  | [] => []
  | (pe, child) :: rest => child.iterate.map (pe :: ·) ++ iterateChildren rest

end

mutual

/-- `Size`. -/
def size : FieldSet N → Nat
  | ⟨members, children⟩ => members.length + sizeChildren children

def sizeChildren : List (PathElement N × FieldSet N) → Nat
  | [] => 0
  | (_, child) :: rest => child.size + sizeChildren rest

end

mutual

theorem isEmpty_of_size : ∀ s : FieldSet N, s.size = 0 → s.isEmpty = true
  | ⟨members, children⟩, zero => by
      simp only [size, Nat.add_eq_zero_iff, List.length_eq_zero_iff] at zero
      simp [isEmpty, zero.1, isEmptyChildren_of_size children zero.2]

theorem isEmptyChildren_of_size : ∀ children : List (PathElement N × FieldSet N),
    sizeChildren children = 0 → isEmptyChildren children = true
  | [], _ => rfl
  | (pe, child) :: rest, zero => by
      simp only [sizeChildren, Nat.add_eq_zero_iff] at zero
      simp [isEmptyChildren, isEmpty_of_size child zero.1, isEmptyChildren_of_size rest zero.2]

end

theorem size_pos {s : FieldSet N} (notEmpty : s.isEmpty = false) : 0 < s.size := by
  apply Nat.pos_of_ne_zero
  intro none
  rw [isEmpty_of_size s none] at notEmpty
  cases notEmpty

/-! ## Lookup and insertion -/

section Access

variable [Numeric N]

/-- `PathElementSet.Has`. -/
def membersHas (members : List (PathElement N)) (pe : PathElement N) : Bool :=
  (getBy id pe members).isSome

/-- `SetNodeMap.Get`. -/
def childrenGet (children : List (PathElement N × FieldSet N)) (pe : PathElement N) :
    Option (FieldSet N) :=
  (getBy Prod.fst pe children).map Prod.snd

/-- `Has`. -/
def has : FieldSet N → Path N → Bool
  | _, [] => false
  | s, [pe] => membersHas s.members pe
  | s, pe :: next :: rest =>
      match childrenGet s.children pe with
      | some child => child.has (next :: rest)
      | none => false

/-- `WithPrefix`: the paths beneath `pe`. -/
def withPrefix (s : FieldSet N) (pe : PathElement N) : FieldSet N :=
  (childrenGet s.children pe).getD nil

/-- `SetNodeMap.Descend`, together with what the caller then does to the set it
returns. -/
def descend (pe : PathElement N) (update : FieldSet N → FieldSet N)
    (children : List (PathElement N × FieldSet N)) : List (PathElement N × FieldSet N) :=
  insertBy Prod.fst (.unset, nil) (fun node => (node.1, update node.2)) (pe, update nil) children

/-- `Insert`. -/
def insert : FieldSet N → Path N → FieldSet N
  | s, [] => s
  | s, [pe] => { s with members := insertBy id .unset id pe s.members }
  | s, pe :: next :: rest =>
      { s with children := descend pe (fun child => child.insert (next :: rest)) s.children }

/-- `NewSet`. -/
def ofPaths (paths : List (Path N)) : FieldSet N :=
  paths.foldl insert nil

end Access

/-! ## Set operations -/

section Operations

variable [Numeric N]

/-- `PathElementSet.Union`; of two equal members the right one is kept. -/
def membersUnion : Join (PathElement N) (PathElement N) (PathElement N) (PathElement N) where
  leftKey := id
  rightKey := id
  outKey := id
  onlyLeft := some
  onlyRight := some
  both := fun _ right => some right

/-- `PathElementSet.Intersection`. -/
def membersIntersection :
    Join (PathElement N) (PathElement N) (PathElement N) (PathElement N) where
  leftKey := id
  rightKey := id
  outKey := id
  onlyLeft := fun _ => none
  onlyRight := fun _ => none
  both := fun left _ => some left

/-- `PathElementSet.Difference`. -/
def membersDifference :
    Join (PathElement N) (PathElement N) (PathElement N) (PathElement N) where
  leftKey := id
  rightKey := id
  outKey := id
  onlyLeft := some
  onlyRight := fun _ => none
  both := fun _ _ => none

/-- A node of the result, unless it is empty. -/
def nonEmptyNode (pe : PathElement N) (s : FieldSet N) : Option (PathElement N × FieldSet N) :=
  if s.isEmpty then none else some (pe, s)

/-- The walks over two `SetNodeMap`s; `both` handles the sets under one path element. -/
def childrenJoin
    (onlyLeft onlyRight : PathElement N × FieldSet N → Option (PathElement N × FieldSet N))
    (both : PathElement N → FieldSet N → FieldSet N → Option (PathElement N × FieldSet N)) :
    Join (PathElement N × FieldSet N) (PathElement N × FieldSet N) (PathElement N × FieldSet N)
      (PathElement N) where
  leftKey := Prod.fst
  rightKey := Prod.fst
  outKey := Prod.fst
  onlyLeft := onlyLeft
  onlyRight := onlyRight
  both := fun left right => both left.1 left.2 right.2

def unionBody (recurse : FieldSet N × FieldSet N → FieldSet N) :
    FieldSet N × FieldSet N → FieldSet N
  | (s, t) =>
      { members := membersUnion.run s.members t.members
        children := (childrenJoin some some
          (fun pe left right => some (pe, recurse (left, right)))).run s.children t.children }

/-- `Union`. -/
def union (s t : FieldSet N) : FieldSet N :=
  measured (fun pair => pair.1.depth) unionBody (fun _ => nil) (s, t)

def intersectionBody (recurse : FieldSet N × FieldSet N → FieldSet N) :
    FieldSet N × FieldSet N → FieldSet N
  | (s, t) =>
      { members := membersIntersection.run s.members t.members
        children := (childrenJoin (fun _ => none) (fun _ => none)
          (fun pe left right => nonEmptyNode pe (recurse (left, right)))).run
            s.children t.children }

/-- `Intersection`. -/
def intersection (s t : FieldSet N) : FieldSet N :=
  measured (fun pair => pair.1.depth) intersectionBody (fun _ => nil) (s, t)

def differenceBody (recurse : FieldSet N × FieldSet N → FieldSet N) :
    FieldSet N × FieldSet N → FieldSet N
  | (s, t) =>
      { members := membersDifference.run s.members t.members
        children := (childrenJoin some (fun _ => none)
          (fun pe left right => nonEmptyNode pe (recurse (left, right)))).run
            s.children t.children }

/-- `Difference`. -/
def difference (s t : FieldSet N) : FieldSet N :=
  measured (fun pair => pair.1.depth) differenceBody (fun _ => nil) (s, t)

/-- A child whose own path element is a member of the other set goes entirely. -/
def recursiveDifferenceBody (recurse : FieldSet N × FieldSet N → FieldSet N) :
    FieldSet N × FieldSet N → FieldSet N
  | (s, t) =>
      { members := membersDifference.run s.members t.members
        children := (childrenJoin
          (fun node => if membersHas t.members node.1 then none else some node)
          (fun _ => none)
          (fun pe left right =>
            if membersHas t.members pe then none
            else nonEmptyNode pe (recurse (left, right)))).run s.children t.children }

/-- `RecursiveDifference`. -/
def recursiveDifference (s t : FieldSet N) : FieldSet N :=
  measured (fun pair => pair.1.depth) recursiveDifferenceBody (fun _ => nil) (s, t)

/-! ## Leaves -/

/-- The members that are not also children: the two sorted slices are walked
together. -/
def leafMembers : List (PathElement N) → List (PathElement N × FieldSet N) → List (PathElement N)
  | [], _ => []
  | member :: rest, children =>
      match children.dropWhile fun node => (compare member node.1).isGT with
      | [] => member :: leafMembers rest []
      | node :: others =>
          if compare member node.1 = .eq then leafMembers rest others
          else member :: leafMembers rest (node :: others)

mutual

/-- `Leaves`. -/
def leaves : FieldSet N → FieldSet N
  | ⟨members, children⟩ => ⟨leafMembers members children, leavesChildren children⟩

def leavesChildren : List (PathElement N × FieldSet N) → List (PathElement N × FieldSet N)
  | [] => []
  | (pe, child) :: rest => (pe, child.leaves) :: leavesChildren rest

end

/-! ## Declared fields -/

/-- The type beneath a path element, as the set operations follow it. -/
def childType (atom : Atom N) : PathElement N → TypeRef N
  | .fieldName name =>
      match atom.map with
      | some t =>
          match t.findField name with
          | some field => field.type
          | none => t.elementType
      | none => .zero
  | .key _ =>
      match atom.list with
      | some t => t.elementType
      | none => .zero
  | _ => .zero

/-- Is the path element the name of a struct field declared by the atom? -/
def isDeclared (atom : Atom N) : PathElement N → Bool
  | .fieldName name =>
      match atom.map with
      | some t => (t.findField name).isSome
      | none => false
  | _ => false

def ensureBody (sc : Schema N) (recurse : TypeRef N × FieldSet N → FieldSet N) :
    TypeRef N × FieldSet N → FieldSet N
  | (tr, s) =>
      let atom := (sc.resolve tr).getD .zero
      { members := s.children.foldl
          (fun members node =>
            if isDeclared atom node.1 then insertBy id .unset id node.1 members else members)
          s.members
        children := s.children.map fun node =>
          (node.1, recurse (childType atom node.1, node.2)) }

/-- `EnsureNamedFieldsAreMembers`. -/
def ensureNamedFieldsAreMembers (s : FieldSet N) (sc : Schema N) (tr : TypeRef N) : FieldSet N :=
  measured (fun pair => pair.2.depth) (ensureBody sc) (fun _ => nil) (tr, s)

/-! ## Equality -/

/-- `PathElementSet.Equals`. -/
def membersEqual (left right : List (PathElement N)) : Bool :=
  left.length == right.length && (left.zip right).all fun pair => pair.1 == pair.2

def equalsBody (recurse : FieldSet N × FieldSet N → Bool) : FieldSet N × FieldSet N → Bool
  | (s, t) =>
      membersEqual s.members t.members &&
        (s.children.length == t.children.length &&
          (s.children.zip t.children).all fun pair =>
            pair.1.1 == pair.2.1 && recurse (pair.1.2, pair.2.2))

/-- `Equals`. -/
def equals (s t : FieldSet N) : Bool :=
  measured (fun pair => pair.1.depth) equalsBody (fun _ => true) (s, t)

end Operations

end FieldSet

end StructuredMergeDiff
