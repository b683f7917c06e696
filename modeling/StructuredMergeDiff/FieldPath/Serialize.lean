import StructuredMergeDiff.FieldPath.Set

/-!
Contract: field sets as JSON objects.

Every path element becomes the name of a field, with a letter in front that tells its
kind. A member with nothing beneath it has an empty object there, a member with
something beneath it an object that has the field `"."` too.

Owns: the names of path elements, and writing and reading of field sets.
Does not own: the texts of values and of JSON objects, which are those of the
libraries that write and read them.
-/

namespace StructuredMergeDiff

open Library

/-! ## Path elements -/

/-- What the libraries for JSON and for decimals do with the values in path elements.
Written values have numbers of one domain, and those that are read of another. -/
structure JSONLibrary (N M : Type) where
  /-- `WriteJSONStream`. -/
  writeVal : Value N → String
  /-- `ReadJSONIter`. -/
  read : String → Except String (Value M)
  /-- The fields of a key, one after the other, between braces. -/
  writeObject : List (Field N) → String
  /-- `ReadObjectCB`, with the fields in the order of the text. -/
  readObject : String → Except String (List (Field M))
  /-- `WriteInt`. -/
  writeInt : Int → String
  /-- `strconv.Atoi`. -/
  atoi : String → Except String Int

/-- The error of `SerializePathElement`. -/
inductive SerializeError where
  /-- `"invalid PathElement"` -/
  | invalidPathElement
deriving DecidableEq, Repr

/-- The errors of `DeserializePathElement`. -/
inductive DeserializeError where
  /-- `"key must be 2 characters long:"` -/
  | tooShort
  /-- `"missing colon: %v"` -/
  | missingColon (s : String)
  /-- The contents cannot be read. -/
  | unreadable (message : String)
  /-- `ErrUnknownPathElementType` -/
  | unknownPathElementType
deriving DecidableEq, Repr

section PathElements

variable {N M : Type} (lib : JSONLibrary N M)

/-- `SerializePathElement`. -/
def serializePathElement : PathElement N → Except SerializeError String
  | .fieldName name => .ok ("f:" ++ name)
  | .key fields => .ok ("k:" ++ lib.writeObject fields.fields)
  | .value v => .ok ("v:" ++ lib.writeVal v)
  | .index i => .ok ("i:" ++ lib.writeInt i)
  | .unset => .error .invalidPathElement

/-- The contents of a serialized path element, of the kind that its first letter tells. -/
def deserializeContents (kind : Char) (contents : String) :
    Except DeserializeError (PathElement M) :=
  match kind with
  | 'f' => .ok (.fieldName contents)
  | 'v' => ((lib.read contents).map .value).mapError .unreadable
  | 'k' =>
      ((lib.readObject contents).map fun fields =>
        .key (FieldList.sort ⟨fields⟩)).mapError .unreadable
  | 'i' => ((lib.atoi contents).map .index).mapError .unreadable
  | _ => .error .unknownPathElementType

/-- `DeserializePathElement`. -/
def deserializePathElement (s : String) : Except DeserializeError (PathElement M) :=
  if s.utf8ByteSize < 2 then .error .tooShort
  else match s.toList with
    | kind :: ':' :: rest =>
        -- the source looks at bytes, and the colon has to be the second one
        if kind.utf8Size ≠ 1 then .error (.missingColon s)
        else deserializeContents lib kind (String.ofList rest)
    | _ => .error (.missingColon s)

end PathElements

/-! ## Writing -/

/-- A JSON document in which only objects are nested. -/
inductive Document where
  | object (fields : List (String × Document))
  | null
deriving Repr

namespace FieldSet

variable {N M : Type}

/-- What is written under one path element: is it a member, and the set beneath it. -/
structure Written (N : Type) where
  pe : PathElement N
  isMember : Bool
  beneath : Option (FieldSet N)

section Writing

variable [Numeric N] (lib : JSONLibrary N M)

/-- The walk of `emitContentsV1` over members and children. A member that is a child too
is written with the path element of the child. -/
def interleave : Join (PathElement N) (PathElement N × FieldSet N) (Written N) (PathElement N) where
  leftKey := id
  rightKey := Prod.fst
  outKey := Written.pe
  onlyLeft := fun mpe => some ⟨mpe, true, none⟩
  onlyRight := fun node => some ⟨node.1, false, some node.2⟩
  both := fun _ node => some ⟨node.1, true, some node.2⟩

omit [Numeric N] in
/-- One field of the object. -/
def emitWritten (emit : Bool × FieldSet N → Except SerializeError (List (String × Document)))
    (written : Written N) : Except SerializeError (String × Document) := do
  let name ← serializePathElement lib written.pe
  match written.beneath with
  | none => return (name, .object [])
  | some set => return (name, .object (← emit (written.isMember, set)))

def emitBody (emit : Bool × FieldSet N → Except SerializeError (List (String × Document))) :
    Bool × FieldSet N → Except SerializeError (List (String × Document))
  | (includeSelf, s) => do
      let fields ← (interleave.run s.members s.children).mapM (emitWritten lib emit)
      if includeSelf && !(s.members.isEmpty && s.children.isEmpty) then
        return (".", .object []) :: fields
      else return fields

/-- `emitContentsV1`. -/
def emitContentsV1 (includeSelf : Bool) (s : FieldSet N) :
    Except SerializeError (List (String × Document)) :=
  measured (fun pair => pair.2.depth) (emitBody lib) (fun _ => .ok []) (includeSelf, s)

/-- `ToJSON`. -/
def toJSON (s : FieldSet N) : Except SerializeError Document :=
  (emitContentsV1 lib false s).map .object

end Writing

/-! ## Reading -/

/-- What `readIterV1` returns, and the error that the iterator reports. -/
structure Reading (M : Type) where
  children : Option (FieldSet M)
  isMember : Bool
  error : Option DeserializeError

namespace Reading

/-- Nothing has been read. -/
def start : Reading M :=
  { children := none, isMember := false, error := none }

variable [Numeric M]

/-- Does the path element come after the last one of the slice? -/
def appendOK (last : Option (PathElement M)) (pe : PathElement M) : Bool :=
  match last with
  | none => true
  | some last => compare last pe == .lt

def addMember (reading : Reading M) (pe : PathElement M) : Reading M :=
  let children := reading.children.getD nil
  let members :=
    if appendOK children.members.getLast? pe then children.members ++ [pe]
    else insertBy id .unset id pe children.members
  { reading with children := some { children with members := members } }

def addChild (reading : Reading M) (pe : PathElement M) (grandchildren : FieldSet M) : Reading M :=
  let children := reading.children.getD nil
  let nodes :=
    if appendOK (children.children.getLast?.map Prod.fst) pe then
      children.children ++ [(pe, grandchildren)]
    else descend pe (fun _ => grandchildren) children.children
  { reading with children := some { children with children := nodes } }

omit [Numeric M] in
/-- `ReportError`: the first error stays. -/
def reportError (reading : Reading M) (err : Option DeserializeError) : Reading M :=
  { reading with error := reading.error <|> err }

/-- What is read under a path element. -/
def add (reading : Reading M) (pe : PathElement M) (sub : Reading M) : Reading M :=
  let reading := reading.reportError sub.error
  let reading := if sub.isMember then reading.addMember pe else reading
  match sub.children with
  | some grandchildren => reading.addChild pe grandchildren
  | none => reading

/-- The callback of `readIterV1`. -/
def field (reading : Reading M) (lib : JSONLibrary N M) (name : String) (sub : Reading M) :
    Reading M :=
  if name = "." then { reading with isMember := true }
  else match deserializePathElement lib name with
    | .ok pe => reading.add pe sub
    | .error .unknownPathElementType => reading
    | .error err => reading.reportError (some err)

omit [Numeric M] in
/-- A set without children is a member. -/
def finish (reading : Reading M) : Reading M :=
  if reading.children.isNone then { reading with isMember := true } else reading

end Reading

section Reading

variable [Numeric M] (lib : JSONLibrary N M)

mutual

/-- `readIterV1`. -/
def readIterV1 : Document → Reading M
  | .object fields => (readFields fields .start).finish
  | .null => Reading.start.finish

def readFields : List (String × Document) → Reading M → Reading M
  | [], reading => reading
  | (name, sub) :: rest, reading => readFields rest (reading.field lib name (readIterV1 sub))

end

/-- `FromJSON`. -/
def fromJSON (document : Document) : FieldSet M × Option DeserializeError :=
  let found := readIterV1 lib document
  (found.children.getD nil, found.error)

end Reading

end FieldSet

end StructuredMergeDiff
