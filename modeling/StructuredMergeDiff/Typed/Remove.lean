import StructuredMergeDiff.FieldPath.Set
import StructuredMergeDiff.Typed.Helpers

/-!
Contract: the walker behind `RemoveItems` and `ExtractItems`.

It rebuilds a value without the items and entries named by a set, or with only
these. A list or map of which nothing is left becomes null.

Owns: `removeItemsWithSchema`.
-/

namespace StructuredMergeDiff.Typed

open Library

variable {N : Type} [Numeric N]

namespace Remove

/-- What the walk is called with: the type, the value and the set. -/
structure Call (N : Type) where
  type : TypeRef N
  value : Value N
  toRemove : FieldSet N

/-- The elements one list item contributes to the result. -/
def listItem (sc : Schema N) (shouldExtract : Bool) (visit : Call N → Value N) (t : ListType N)
    (toRemove : FieldSet N) (item : Value N) : List (Value N) :=
  let pe := itemPathElement sc t item
  let named := toRemove.has [pe]
  let subset := toRemove.withPrefix pe
  -- a named item is dropped, or extracted and then looked at once more
  if named && !shouldExtract then []
  else
    let extracted := if named then [visit ⟨t.elementType, item, toRemove⟩] else []
    if !subset.isEmpty then extracted ++ [visit ⟨t.elementType, item, subset⟩]
    else if shouldExtract then extracted
    else extracted ++ [item]

def doList (sc : Schema N) (shouldExtract : Bool) (visit : Call N → Value N) (t : ListType N)
    (v : Value N) (toRemove : FieldSet N) : Value N :=
  match v with
  | .list items =>
      if items.isEmpty then .null
      else if t.elementRelationship = .atomic then (if shouldExtract then v else .null)
      else
        let newItems := items.flatMap (listItem sc shouldExtract visit t toRemove)
        if newItems.isEmpty then .null else .list newItems
  | _ => .null

/-- What is left of one map entry. -/
def mapEntry (shouldExtract : Bool) (visit : Call N → Value N) (t : MapType N)
    (toRemove : FieldSet N) (entry : String × Value N) : Option (String × Value N) :=
  let pe := PathElement.fieldName entry.1
  let subset := toRemove.withPrefix pe
  if toRemove.has [pe] then
    if shouldExtract then some (entry.1, visit ⟨t.fieldType entry.1, entry.2, toRemove⟩) else none
  else if !subset.isEmpty then
    some (entry.1, visit ⟨t.fieldType entry.1, entry.2, subset⟩)
  else if shouldExtract then none
  else some entry

def doMap (shouldExtract : Bool) (visit : Call N → Value N) (t : MapType N) (v : Value N)
    (toRemove : FieldSet N) : Value N :=
  match v with
  | .map _ =>
      if v.entries.isEmpty then .null
      else if t.elementRelationship = .atomic then (if shouldExtract then v else .null)
      else
        let newMap := v.entries.filterMap (mapEntry shouldExtract visit t toRemove)
        if newMap.isEmpty then .null else .map newMap
  | _ => .null

def body (sc : Schema N) (shouldExtract : Bool) (visit : Call N → Value N) (call : Call N) :
    Value N :=
  match resolveSchema sc call.type call.value with
  | .error _ => .null
  | .ok (.scalar _) => call.value
  | .ok (.list t) => doList sc shouldExtract visit t call.value call.toRemove
  | .ok (.map t) => doMap shouldExtract visit t call.value call.toRemove

end Remove

/-- `removeItemsWithSchema`. -/
def removeItemsWithSchema (sc : Schema N) (tr : TypeRef N) (v : Value N) (toRemove : FieldSet N)
    (shouldExtract : Bool) : Value N :=
  measured (fun call : Remove.Call N => call.value.depth) (Remove.body sc shouldExtract)
    (fun _ => .null) ⟨tr, v, toRemove⟩

end StructuredMergeDiff.Typed
