import StructuredMergeDiff.FieldPath.Set
import StructuredMergeDiff.Typed.Helpers

/-!
Contract: the walker behind `ToFieldSet`.

It records the fields and items a value mentions: every scalar, every atomic
list or map, every list item, every map entry that is not a declared struct
field, and every null or empty map. Of items that share a path element only
that path element is recorded.

Owns: `toFieldSetWalk`, the paths relative to the visited value in the order
in which they are inserted, and the errors.
-/

namespace StructuredMergeDiff.Typed

open Library

variable {N : Type} [Numeric N]

/-- What a walk records, relative to the visited value, and its errors. -/
structure FieldSetWalk (N : Type) where
  paths : List (Path N)
  errs : ValidationErrors N

namespace FieldSetWalk

section

omit [Numeric N]

/-- Nothing recorded. -/
def nothing : FieldSetWalk N :=
  { paths := [], errs := [] }

/-- `set.Insert(path)` for the visited value itself. -/
def self : FieldSetWalk N :=
  { paths := [[]], errs := [] }

/-- The walk of a child, seen from its parent. -/
def beneath (pe : PathElement N) (walk : FieldSetWalk N) : FieldSetWalk N :=
  { walk with paths := walk.paths.map (pe :: ·) }

def append (first second : FieldSetWalk N) : FieldSetWalk N :=
  { paths := first.paths ++ second.paths, errs := first.errs ++ second.errs }

def concat (walks : List (FieldSetWalk N)) : FieldSetWalk N :=
  walks.foldr append nothing

end

end FieldSetWalk

namespace ToFieldSet

/-! ## Lists -/

/-- State of the loop that looks for items with the same path element. -/
structure DuplicateScan (N : Type) where
  seen : List (PathElement N)
  duplicates : List (PathElement N)
  paths : List (Path N)

def DuplicateScan.step (scan : DuplicateScan N) (pe : PathElement N) : DuplicateScan N :=
  if FieldSet.membersHas scan.seen pe then
    if FieldSet.membersHas scan.duplicates pe then scan
    else
      { scan with
        duplicates := insertBy id .unset id pe scan.duplicates
        paths := scan.paths ++ [[pe]] }
  else { scan with seen := insertBy id .unset id pe scan.seen }

def DuplicateScan.run (pes : List (PathElement N)) : DuplicateScan N :=
  pes.foldl DuplicateScan.step { seen := [], duplicates := [], paths := [] }

/-- `visitListItems`. -/
def visitListItems (sc : Schema N) (visit : TypeRef N × Value N → FieldSetWalk N)
    (t : ListType N) (items : List (Value N)) : FieldSetWalk N :=
  let scan := DuplicateScan.run (items.map (itemPathElement sc t))
  let walks := items.map fun item =>
    let pe := itemPathElement sc t item
    if FieldSet.membersHas scan.duplicates pe then .nothing
    else ((visit (t.elementType, item)).append .self).beneath pe
  FieldSetWalk.append { paths := scan.paths, errs := [] } (.concat walks)

def doList (sc : Schema N) (visit : TypeRef N × Value N → FieldSetWalk N) (t : ListType N)
    (v : Value N) : FieldSetWalk N :=
  if t.elementRelationship = .atomic then .self
  else
    match v with
    | .list items => visitListItems sc visit t items
    | _ => .nothing

/-! ## Maps -/

section

omit [Numeric N]

/-- Is the value null or a map without entries? -/
def isNullOrEmptyMap (v : Value N) : Bool :=
  v.isNull || (v.isMap && v.entries.isEmpty)

/-- `visitMapItems`. -/
def visitMapItems (visit : TypeRef N × Value N → FieldSetWalk N) (t : MapType N)
    (entries : List (String × Value N)) : FieldSetWalk N :=
  .concat (entries.map fun entry =>
    let walk := visit (t.fieldType entry.1, entry.2)
    let recorded :=
      if isNullOrEmptyMap entry.2 then walk.append .self
      else if (t.findField entry.1).isNone then walk.append .self
      else walk
    recorded.beneath (.fieldName entry.1))

def doMap (visit : TypeRef N × Value N → FieldSetWalk N) (t : MapType N) (v : Value N) :
    FieldSetWalk N :=
  if t.elementRelationship = .atomic then .self
  else
    match v with
    | .map _ => visitMapItems visit t v.entries
    | _ => .nothing

end

/-! ## The walk -/

def body (sc : Schema N) (visit : TypeRef N × Value N → FieldSetWalk N) :
    TypeRef N × Value N → FieldSetWalk N
  | (tr, v) =>
      match resolveSchema sc tr v with
      | .error message => { paths := [], errs := errorf message }
      | .ok (.scalar _) => .self
      | .ok (.list t) => doList sc visit t v
      | .ok (.map t) => doMap visit t v

end ToFieldSet

/-- `toFieldSet`: all paths and errors of the walk. -/
def toFieldSetWalk (sc : Schema N) (tr : TypeRef N) (v : Value N) : FieldSetWalk N :=
  measured (fun pair => pair.2.depth) (ToFieldSet.body sc) (fun _ => .nothing) (tr, v)

end StructuredMergeDiff.Typed
