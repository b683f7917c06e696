import Mathlib.Data.List.Sort
import Mathlib.Data.String.Basic
import StructuredMergeDiff.Library.SharedAppend
import StructuredMergeDiff.Value.Reflect.GoType

/-!
Contract: the field cache of a struct type.

The cache lists the JSON fields of a struct type, those of its inlined structs
among them, each with the field indices that lead to it. The indices are
collected in one slice that grows by `append` while the walk descends, so how
they are stored depends on the growth policy, which is a parameter.

Owns: `lookupJsonTags`, `buildStructCacheEntry`, `getFrom`, and when the cached
paths are the right ones.
Does not own: what is read through the cache (`Value.Reflect.MapView`).
-/

namespace StructuredMergeDiff.Reflect

open Library FiniteMap

/-! ## Tags -/

/-- A `json` tag is a name and options after the first comma. -/
def parseTag (tag : String) : String × String :=
  match tag.toList.span (· ≠ ',') with
  | (name, []) => (String.ofList name, "")
  | (name, _ :: options) => (String.ofList name, String.ofList options)

/-- One of the comma-separated options is the one asked for. -/
def tagContains (options optionName : String) : Bool :=
  options != "" && (options.toList.splitOn ',').contains optionName.toList

structure JsonTags where
  name : String
  omitted : Bool
  isInline : Bool
  isOmitempty : Bool
deriving DecidableEq, Repr

def lookupJsonTags (fieldName tag : String) : JsonTags :=
  if tag = "-" then ⟨"", true, false, false⟩
  else
    let (name, options) := parseTag tag
    ⟨if name = "" then fieldName else name, false, tagContains options "inline",
      tagContains options "omitempty"⟩

example : lookupJsonTags "Meta" ",inline" = ⟨"Meta", false, true, false⟩ := by decide

example : lookupJsonTags "Labels" "labels,omitempty" = ⟨"labels", false, false, true⟩ := by decide

/-! ## The cache -/

structure FieldInfo where
  jsonName : String
  isOmitEmpty : Bool
  fieldType : GoType
deriving DecidableEq, Repr

/-- An entry of the cache; while the cache is built the path is a slice. -/
structure FieldCacheEntry (Path : Type) extends FieldInfo where
  fieldPath : Path
deriving DecidableEq, Repr

/-- The loop over the fields of a struct, from the field with this index on. An
inlined field that is neither a struct nor a pointer to one is dropped. -/
def buildStructCacheEntry (grow : Nat → Nat) :
    GoFields → Nat → FiniteMap String (FieldCacheEntry Slice) → Slice → Heap Nat →
      Heap Nat × FiniteMap String (FieldCacheEntry Slice)
  | .nil, _, infos, _, heap => (heap, infos)
  | .cons name tag type rest, index, infos, fieldPath, heap =>
      let tags := lookupJsonTags name tag
      if tags.omitted then buildStructCacheEntry grow rest (index + 1) infos fieldPath heap
      else if tags.isInline then
        match type with
        | .struct _ fields | .pointer (.struct _ fields) =>
            let extended := fieldPath.append grow index heap
            let inner := buildStructCacheEntry grow fields 0 infos extended.2 extended.1
            buildStructCacheEntry grow rest (index + 1) inner.2 fieldPath inner.1
        | _ => buildStructCacheEntry grow rest (index + 1) infos fieldPath heap
      else
        let extended := fieldPath.append grow index heap
        let info : FieldCacheEntry Slice := ⟨⟨tags.name, tags.isOmitempty, type⟩, extended.2⟩
        buildStructCacheEntry grow rest (index + 1) (infos.set tags.name info) fieldPath
          extended.1

/-- The finished cache of a struct type. The walk begins with a nil slice, which
is a slice of an array without room. -/
def structFields (grow : Nat → Nat) (fields : GoFields) :
    FiniteMap String (FieldCacheEntry (List Nat)) :=
  let built := buildStructCacheEntry grow fields 0 [] ⟨0, 0⟩ [[]]
  built.2.map fun entry =>
    (entry.1, ⟨entry.2.toFieldInfo, entry.2.fieldPath.read built.1⟩)

/-- The entries in the order of their JSON names. -/
def orderedStructFields (grow : Nat → Nat) (fields : GoFields) :
    List (FieldCacheEntry (List Nat)) :=
  ((structFields grow fields).map Prod.snd).insertionSort
    fun first second => first.jsonName ≤ second.jsonName

/-- The lookup along a path of field indices. -/
def getFrom (fieldPath : List Nat) (structVal : ReflectValue) : Except Panic ReflectValue :=
  fieldPath.foldlM (fun val index => fieldByIndex index (dereference val)) structVal

def FieldInfo.canOmit (info : FieldInfo) (fieldVal : ReflectValue) : Bool :=
  info.isOmitEmpty && (safeIsNil fieldVal || isZero fieldVal)

/-! ## The JSON fields of a struct type -/

/-- The JSON fields below a struct: its own are leaves, its inlined structs levels. -/
def jsonForest : GoFields → Nat → Forest Nat FieldInfo
  | .nil, _ => .nil
  | .cons name tag type rest, index =>
      let tags := lookupJsonTags name tag
      if tags.omitted then jsonForest rest (index + 1)
      else if tags.isInline then
        match type with
        | .struct _ fields | .pointer (.struct _ fields) =>
            .node index (jsonForest fields 0) (jsonForest rest (index + 1))
        | _ => jsonForest rest (index + 1)
      else .leaf index ⟨tags.name, tags.isOmitempty, type⟩ (jsonForest rest (index + 1))

/-- The JSON fields of a struct type with the field indices that lead to them. -/
def jsonFields (fields : GoFields) : List (FieldInfo × List Nat) :=
  (jsonForest fields 0).paths []

def DistinctNames (fields : GoFields) : Prop :=
  ((jsonFields fields).map fun field => field.1.jsonName).Nodup

instance (fields : GoFields) : Decidable (DistinctNames fields) :=
  inferInstanceAs (Decidable (List.Nodup _))

/-! ### The part a field plays -/

inductive FieldRole where
  | dropped
  | inlined (fields : GoFields)
  | field (info : FieldInfo)

/-- What the walk does with a field. -/
def fieldRole (name tag : String) (type : GoType) : FieldRole :=
  let tags := lookupJsonTags name tag
  if tags.omitted then .dropped
  else if tags.isInline then
    match type with
    | .struct _ fields | .pointer (.struct _ fields) => .inlined fields
    | _ => .dropped
  else .field ⟨tags.name, tags.isOmitempty, type⟩

theorem jsonForest_cons (name tag : String) (type : GoType) (rest : GoFields) (index : Nat) :
    jsonForest (.cons name tag type rest) index =
      match fieldRole name tag type with
      | .dropped => jsonForest rest (index + 1)
      | .inlined fields => .node index (jsonForest fields 0) (jsonForest rest (index + 1))
      | .field info => .leaf index info (jsonForest rest (index + 1)) := by
  conv_lhs => rw [jsonForest.eq_def]
  simp only [fieldRole]
  by_cases omitted : (lookupJsonTags name tag).omitted = true
  · simp only [omitted, if_true]
  · by_cases inlined : (lookupJsonTags name tag).isInline = true
    · simp only [omitted, inlined, if_true]
      cases type with
      | pointer elem => cases elem <;> rfl
      | _ => rfl
    · simp only [omitted, inlined]
      rfl

/-- Induction over the JSON fields: over the fields of a struct, and over those
of each struct inlined in it. -/
theorem fields_induction {motive : GoFields → Prop} (nil : motive .nil)
    (dropped : ∀ name tag type rest, fieldRole name tag type = .dropped → motive rest →
      motive (.cons name tag type rest))
    (inlined : ∀ name tag type rest fields, fieldRole name tag type = .inlined fields →
      motive fields → motive rest → motive (.cons name tag type rest))
    (field : ∀ name tag type rest info, fieldRole name tag type = .field info → motive rest →
      motive (.cons name tag type rest)) (fields : GoFields) : motive fields := by
  refine jsonForest.induct (fun fields _ => motive fields) (fun _ => nil) ?_ ?_ ?_ ?_ ?_ fields 0
  · intro name tag type rest _ tags omitted later
    exact dropped _ _ _ _ (by simp [fieldRole, tags, omitted]) later
  · intro name tag rest _ tags kept isInline _ fields inner later
    exact inlined _ _ _ _ fields (by simp [fieldRole, tags, kept, isInline]) inner later
  · intro name tag rest _ tags kept isInline _ fields inner later
    exact inlined _ _ _ _ fields (by simp [fieldRole, tags, kept, isInline]) inner later
  · intro name tag type rest _ tags kept isInline noStruct noPointer later
    refine dropped _ _ _ _ ?_ later
    simp only [fieldRole, tags, kept, isInline]
    cases type with
    | struct name fields => exact (noStruct name fields rfl).elim
    | pointer elem =>
        cases elem with
        | struct name fields => exact (noPointer name fields rfl).elim
        | _ => rfl
    | _ => rfl
  · intro name tag type rest _ tags kept isField later
    exact field _ _ _ _ _ (by simp [fieldRole, tags, kept, isField]; rfl) later

variable {fields : GoFields} {entry : FieldCacheEntry (List Nat)} {grow : Nat → Nat}
  {values : List GoValue} {info : FieldInfo} {path : List Nat} {name : String}

theorem le_of_mem_steps {index step : Nat} (member : step ∈ (jsonForest fields index).steps)
    : index ≤ step := by
  induction fields using fields_induction generalizing index with
  | nil => cases member
  | dropped name tag type rest role later =>
      rw [jsonForest_cons, role] at member
      exact Nat.le_of_succ_le (later member)
  | inlined name tag type rest fields role _ later | field name tag type rest info role later =>
      rw [jsonForest_cons, role] at member
      rcases List.mem_cons.mp member with rfl | inRest
      · exact Nat.le_refl _
      · exact Nat.le_of_succ_le (later inRest)

/-- The branches of a level are fields with different indices. -/
theorem jsonForest_distinct (fields : GoFields) (index : Nat) :
    (jsonForest fields index).Distinct := by
  have apart (rest : GoFields) (index : Nat) : index ∉ (jsonForest rest (index + 1)).steps :=
    fun member => Nat.not_succ_le_self _ (le_of_mem_steps member)
  induction fields using fields_induction generalizing index with
  | nil => trivial
  | dropped name tag type rest role later =>
      rw [jsonForest_cons, role]
      exact later _
  | inlined name tag type rest fields role inner later =>
      rw [jsonForest_cons, role]
      exact ⟨apart _ _, inner _, later _⟩
  | field name tag type rest info role later =>
      rw [jsonForest_cons, role]
      exact ⟨apart _ _, later _⟩

/-! ## The cache lists the JSON fields -/

/-- The assignment that enters a field into the cache. -/
def addInfo (infos : FiniteMap String (FieldCacheEntry Slice)) (found : FieldInfo × Slice) :
    FiniteMap String (FieldCacheEntry Slice) :=
  infos.set found.1.jsonName ⟨found.1, found.2⟩

theorem buildStructCacheEntry_cons (grow : Nat → Nat) (name tag : String) (type : GoType)
    (rest : GoFields) (index : Nat) (infos : FiniteMap String (FieldCacheEntry Slice))
    (fieldPath : Slice) (heap : Heap Nat) :
    buildStructCacheEntry grow (.cons name tag type rest) index infos fieldPath heap =
      let extended := fieldPath.append grow index heap
      match fieldRole name tag type with
      | .dropped => buildStructCacheEntry grow rest (index + 1) infos fieldPath heap
      | .inlined fields =>
          let inner := buildStructCacheEntry grow fields 0 infos extended.2 extended.1
          buildStructCacheEntry grow rest (index + 1) inner.2 fieldPath inner.1
      | .field info =>
          buildStructCacheEntry grow rest (index + 1) (addInfo infos (info, extended.2)) fieldPath
            extended.1 := by
  conv_lhs => rw [buildStructCacheEntry.eq_def]
  simp only [fieldRole]
  by_cases omitted : (lookupJsonTags name tag).omitted = true
  · simp only [omitted, if_true]
  · by_cases inlined : (lookupJsonTags name tag).isInline = true
    · simp only [omitted, inlined, if_true]
      cases type with
      | pointer elem => cases elem <;> rfl
      | _ => rfl
    · simp only [omitted, inlined]
      rfl

/-- Building the cache is the walk of the JSON fields with one slice. -/
theorem buildStructCacheEntry_eq (grow : Nat → Nat) (fields : GoFields) (index : Nat)
    (infos : FiniteMap String (FieldCacheEntry Slice)) (fieldPath : Slice) (heap : Heap Nat) :
    buildStructCacheEntry grow fields index infos fieldPath heap =
      (((jsonForest fields index).collect grow fieldPath heap).1,
        ((jsonForest fields index).collect grow fieldPath heap).2.foldl addInfo infos) := by
  induction fields using fields_induction generalizing index infos fieldPath heap with
  | nil => rfl
  | dropped name tag type rest role later =>
      rw [buildStructCacheEntry_cons, jsonForest_cons, role]
      exact later ..
  | inlined name tag type rest fields role inner later =>
      rw [buildStructCacheEntry_cons, jsonForest_cons, role]
      simp only [inner, later, Forest.collect, List.foldl_append]
  | field name tag type rest info role later =>
      rw [buildStructCacheEntry_cons, jsonForest_cons, role]
      simp only [later, Forest.collect, List.foldl_cons]

/-- Fields by their JSON name: of several with one name, the last. -/
def byName (found : List (FieldInfo × List Nat)) : FiniteMap String (FieldCacheEntry (List Nat)) :=
  found.foldl (fun infos field => infos.set field.1.jsonName ⟨field.1, field.2⟩) []

/-- The cache holds the JSON fields, each with the path its slice reads in the end. -/
theorem structFields_eq (grow : Nat → Nat) (fields : GoFields) :
    structFields grow fields = byName ((jsonForest fields 0).reads grow ⟨0, 0⟩ [[]]) := by
  let walked := (jsonForest fields 0).collect grow ⟨0, 0⟩ [[]]
  let finished (entry : FieldCacheEntry Slice) : FieldCacheEntry (List Nat) :=
    ⟨entry.toFieldInfo, entry.fieldPath.read walked.1⟩
  have built : structFields grow fields =
      (walked.2.foldl addInfo []).map fun entry => (entry.1, finished entry.2) := by
    rw [structFields, buildStructCacheEntry_eq]
  have read := map_foldl_set (fun found : FieldInfo × Slice => found.1.jsonName)
    (fun found => (⟨found.1, found.2⟩ : FieldCacheEntry Slice)) finished walked.2 []
  rw [built, byName, Forest.reads, List.foldl_map]
  exact read

theorem structFields_distinct (grow : Nat → Nat) (fields : GoFields) :
    Distinct (structFields grow fields) := by
  rw [structFields_eq]
  exact foldl_distinct (fun infos found distinct => set_distinct distinct _ _) _
    List.nodup_nil

/-- Each field is entered under its JSON name. -/
theorem mem_of_mem_byName {found : List (FieldInfo × List Nat)}
    (member : (name, entry) ∈ byName found) :
    entry.jsonName = name ∧ (entry.toFieldInfo, entry.fieldPath) ∈ found := by
  have listed : ∀ info ∈ byName found,
      info.2.jsonName = info.1 ∧ (info.2.toFieldInfo, info.2.fieldPath) ∈ found := by
    refine List.foldlRecOn (motive := fun infos : FiniteMap String (FieldCacheEntry (List Nat)) =>
      ∀ info ∈ infos, info.2.jsonName = info.1 ∧
        (info.2.toFieldInfo, info.2.fieldPath) ∈ found) found _
      (fun _ member => absurd member List.not_mem_nil) ?_
    intro infos before field inFound info inInfos
    rcases List.mem_cons.mp inInfos with rfl | inRest
    · exact ⟨rfl, inFound⟩
    · exact before info (List.mem_of_mem_filter inRest)
  exact listed _ member

/-- Fields with different names are all kept. -/
theorem mem_byName_of_distinct {found : List (FieldInfo × List Nat)}
    (distinct : (found.map fun field => field.1.jsonName).Nodup) {field : FieldInfo × List Nat}
    (member : field ∈ found) : (field.1.jsonName, ⟨field.1, field.2⟩) ∈ byName found := by
  have perm : (byName found).Perm (found.map (fun field =>
      (field.1.jsonName, (⟨field.1, field.2⟩ : FieldCacheEntry (List Nat)))) ++ []) :=
    foldl_set_perm distinct fun _ _ => List.not_mem_nil
  rw [perm.mem_iff, List.append_nil]
  exact List.mem_map_of_mem member

theorem name_of_mem_structFields (member : (name, entry) ∈ structFields grow fields) :
    entry.jsonName = name := by
  rw [structFields_eq] at member
  exact (mem_of_mem_byName member).1

theorem path_ne_nil (larger : ∀ capacity, capacity < grow capacity)
    (member : (name, entry) ∈ structFields grow fields) : entry.fieldPath ≠ [] := by
  rw [structFields_eq] at member
  obtain ⟨found, inWalk, same⟩ := List.mem_map.mp (mem_of_mem_byName member).2
  obtain ⟨longer, within⟩ := Forest.collect_valid larger (jsonForest fields 0)
    ⟨Nat.zero_lt_one, Nat.le_refl _⟩ inWalk
  have isPath : found.2.read _ = entry.fieldPath := congrArg Prod.snd same
  have length : entry.fieldPath.length = found.2.length :=
    isPath ▸ List.length_take_of_le within.within
  intro empty
  rw [empty] at length
  exact absurd longer (Nat.not_lt_of_le (Nat.le_of_eq length.symm))

theorem mem_orderedStructFields :
    entry ∈ orderedStructFields grow fields ↔
      (structFields grow fields).get? entry.jsonName = some entry := by
  rw [orderedStructFields, List.mem_insertionSort, List.mem_map]
  constructor
  · intro ⟨⟨name, _⟩, member, same⟩
    cases same
    rw [name_of_mem_structFields member]
    exact get?_of_mem (structFields_distinct grow fields) member
  · intro found
    exact ⟨_, mem_of_get? found, rfl⟩

theorem orderedStructFields_increasing (grow : Nat → Nat) (fields : GoFields) :
    ((orderedStructFields grow fields).map fun entry => entry.jsonName).Pairwise (· < ·) := by
  let before (first second : FieldCacheEntry (List Nat)) : Prop :=
    first.jsonName ≤ second.jsonName
  have total : Std.Total before := ⟨fun _ _ => le_total _ _⟩
  have trans : IsTrans _ before := ⟨fun _ _ _ => le_trans⟩
  have ordered : (orderedStructFields grow fields).Pairwise before :=
    List.pairwise_insertionSort _ _
  have names : ((structFields grow fields).map Prod.snd).map (fun entry => entry.jsonName) =
      (structFields grow fields).map Prod.fst := by
    rw [List.map_map]
    exact List.map_congr_left fun entry member => name_of_mem_structFields member
  have distinct : ((orderedStructFields grow fields).map fun entry => entry.jsonName).Nodup := by
    rw [orderedStructFields, ((List.perm_insertionSort _ _).map _).nodup_iff, names]
    exact structFields_distinct grow fields
  exact ((List.pairwise_map.mpr ordered).and distinct).imp
    fun both => lt_of_le_of_ne both.1 both.2

/-! ## The value of a field -/

/-- The value at the end of a path of field indices, through structs and
pointers to structs. -/
def GoValue.select : List Nat → GoValue → Option GoValue
  | [], value => some value
  | index :: path, .struct values | index :: path, .pointer (.struct values) =>
      values[index]?.bind (select path)
  | _ :: _, _ => none

theorem getFrom_cons (index : Nat) (path : List Nat) (structVal : ReflectValue) :
    getFrom (index :: path) structVal =
      (fieldByIndex index (dereference structVal)).bind (getFrom path) :=
  rfl

theorem value_of_type (typed : hasTypeFields values fields = true) {index : Nat} {type : GoType}
    (isType : fields.types[index]? = some type) :
    ∃ value, values[index]? = some value ∧ value.hasType type = true := by
  induction values generalizing fields index with
  | nil =>
      cases fields with
      | nil => cases isType
      | cons => cases typed
  | cons value values later =>
      cases fields with
      | nil => cases typed
      | cons name tag first rest =>
          rw [hasTypeFields, Bool.and_eq_true] at typed
          cases index with
          | zero =>
              cases isType
              exact ⟨value, rfl, typed.1⟩
          | succ index => exact later typed.2 isType

theorem fieldType_of_role {name tag : String} {type : GoType}
    (role : fieldRole name tag type = .field info) : info.fieldType = type := by
  unfold fieldRole at role
  simp only at role
  split at role
  · cases role
  · split at role
    · split at role <;> cases role
    · cases role
      rfl

theorem type_of_inlined {name tag : String} {type : GoType}
    (role : fieldRole name tag type = .inlined fields) :
    ∃ struct, type = .struct struct fields ∨ type = .pointer (.struct struct fields) := by
  unfold fieldRole at role
  simp only at role
  split at role
  · cases role
  · split at role
    · split at role
      · cases role
        exact ⟨_, .inl rfl⟩
      · cases role
        exact ⟨_, .inr rfl⟩
      · cases role
    · cases role

theorem select_append (before after : List Nat) (value : GoValue) :
    value.select (before ++ after) = (value.select before).bind (GoValue.select after) := by
  induction before generalizing value with
  | nil => rfl
  | cons index path ih =>
      cases value with
      | struct values =>
          simp only [List.cons_append, GoValue.select, Option.bind_assoc, ih]
      | pointer elem =>
          cases elem with
          | struct values =>
              simp only [List.cons_append, GoValue.select, Option.bind_assoc, ih]
          | _ => rfl
      | _ => rfl

/-- A nil pointer lies on the way. -/
def BehindNil (path : List Nat) (value : GoValue) : Prop :=
  ∃ before after, path = before ++ after ∧ after ≠ [] ∧ value.select before = some .nil

theorem BehindNil.select_eq_none {value : GoValue} (behind : BehindNil path value)
    : value.select path = none := by
  obtain ⟨before, after, rfl, more, atNil⟩ := behind
  rw [select_append, atNil]
  cases after with
  | nil => exact absurd rfl more
  | cons => rfl

/-- The lookup of a field either ends at the value of the field or meets a nil
pointer, where it panics. -/
def Looked (info : FieldInfo) (path : List Nat) (structVal : ReflectValue) : Prop :=
  (∃ own, structVal.value.select path = some own ∧ own.hasType info.fieldType = true ∧
      getFrom path structVal = .ok ⟨info.fieldType, own⟩) ∨
    BehindNil path structVal.value ∧ getFrom path structVal = .error .fieldOfNonStruct

theorem looked_cons {index : Nat} {type : GoType} {value : GoValue}
    (isType : fields.types[index]? = some type) (isValue : values[index]? = some value)
    (looked : Looked info path ⟨type, value⟩) :
    Looked info (index :: path) ⟨.struct name fields, .struct values⟩ := by
  have step : getFrom (index :: path) ⟨.struct name fields, .struct values⟩ =
      getFrom path ⟨type, value⟩ := by
    simp [getFrom_cons, dereference, fieldByIndex, isType, isValue, Except.bind]
  have chosen (further : List Nat) :
      GoValue.select (index :: further) (.struct values) = value.select further := by
    simp [GoValue.select, isValue]
  rcases looked with ⟨own, selected, typed, looked⟩ | ⟨⟨before, after, same, more, atNil⟩, panics⟩
  · exact .inl ⟨own, (chosen path).trans selected, typed, step.trans looked⟩
  · exact .inr ⟨⟨index :: before, after, congrArg (List.cons index) same, more,
      (chosen before).trans atNil⟩, step.trans panics⟩

theorem looked_pointer {value : GoValue} (some : path ≠ [])
    (typed : value.hasType (.pointer (.struct name fields)) = true)
    (looked : ∀ values, value = .pointer (.struct values) →
      Looked info path ⟨.struct name fields, .struct values⟩) :
    Looked info path ⟨.pointer (.struct name fields), value⟩ := by
  cases path with
  | nil => exact absurd rfl some
  | cons index path =>
      cases value with
      | nil => exact .inr ⟨⟨[], index :: path, rfl, some, rfl⟩, rfl⟩
      | pointer elem =>
          cases elem with
          | struct values =>
              rcases looked values rfl with found | ⟨⟨before, after, same, more, atNil⟩, panics⟩
              · exact .inl found
              · cases before with
                | nil => cases atNil
                | cons => exact .inr ⟨⟨_, after, same, more, atNil⟩, panics⟩
          | _ => simp [GoValue.hasType] at typed
      | _ => simp [GoValue.hasType] at typed

theorem ne_nil_of_mem_paths {index : Nat}
    (member : (info, path) ∈ (jsonForest fields index).paths []) :
    path ≠ [] := by
  obtain ⟨step, further, same, _⟩ := Forest.steps_of_mem_paths member
  rw [same]
  exact List.cons_ne_nil _ _

private theorem looked_of_mem_paths {index : Nat}
    (member : (info, path) ∈ (jsonForest fields index).paths []) (name : String) {all : GoFields}
    (listed : ∀ k, all.types[index + k]? = fields.types[k]?)
    (typed : hasTypeFields values all = true) :
    Looked info path ⟨.struct name all, .struct values⟩ := by
  induction fields using fields_induction generalizing index path name all values with
  | nil => cases member
  | dropped _ _ _ rest role later =>
      rw [jsonForest_cons, role] at member
      exact later member name (fun k => by rw [Nat.add_right_comm]; exact listed (k + 1)) typed
  | inlined _ _ type rest fields role inner later =>
      rw [jsonForest_cons, role] at member
      rcases Forest.mem_paths_node.mp member with ⟨further, rfl, below⟩ | inRest
      · have isType : all.types[index]? = some type := listed 0
        obtain ⟨value, isValue, valueTyped⟩ := value_of_type typed isType
        refine looked_cons isType isValue ?_
        obtain ⟨struct, rfl | rfl⟩ := type_of_inlined role
        · cases value with
          | struct values => exact inner below struct (fun k => by rw [Nat.zero_add]) valueTyped
          | _ => simp [GoValue.hasType] at valueTyped
        · refine looked_pointer (ne_nil_of_mem_paths below) valueTyped fun values same => ?_
          subst same
          exact inner below struct (fun k => by rw [Nat.zero_add]) valueTyped
      · exact later inRest name (fun k => by rw [Nat.add_right_comm]; exact listed (k + 1)) typed
  | field _ _ type rest own role later =>
      rw [jsonForest_cons, role] at member
      rcases Forest.mem_paths_leaf.mp member with same | inRest
      · cases same
        have isType : all.types[index]? = some type := listed 0
        obtain ⟨value, isValue, valueTyped⟩ := value_of_type typed isType
        rw [← fieldType_of_role role] at valueTyped isType
        exact looked_cons isType isValue (.inl ⟨value, rfl, valueTyped, rfl⟩)
      · exact later inRest name (fun k => by rw [Nat.add_right_comm]; exact listed (k + 1)) typed

theorem looked_of_mem_jsonFields (member : (info, path) ∈ jsonFields fields) (name : String)
    (typed : hasTypeFields values fields = true) :
    Looked info path ⟨.struct name fields, .struct values⟩ :=
  looked_of_mem_paths member name (fun k => by rw [Nat.zero_add]) typed

/-! ## When the paths are right -/

/-- The growth that doubles a full array. -/
def doubling (capacity : Nat) : Nat :=
  max 1 (2 * capacity)

/-- The cached paths survive the walk: no branch overwrites the index of
another one that is still in use. -/
def pathsKept (grow : Nat → Nat) (fields : GoFields) : Bool :=
  (jsonForest fields 0).unshared grow 0 0

/-- Every cached path leads to the field it is cached for, and looking the field
up along it gives the value of the field. -/
def LookupRight (grow : Nat → Nat) (fields : GoFields) : Prop :=
  (∀ name entry, (structFields grow fields).get? name = some entry →
      (entry.toFieldInfo, entry.fieldPath) ∈ jsonFields fields) ∧
    ∀ info path, (info, path) ∈ jsonFields fields →
      ∃ entry, (structFields grow fields).get? info.jsonName = some entry ∧
        entry.toFieldInfo = info ∧
        ∀ name values own, hasTypeFields values fields = true →
          GoValue.select path (.struct values) = some own →
          getFrom entry.fieldPath ⟨.struct name fields, .struct values⟩ =
            .ok ⟨info.fieldType, own⟩

theorem reads_eq_iff_kept (larger : ∀ capacity, capacity < grow capacity) (fields : GoFields) :
    (jsonForest fields 0).reads grow ⟨0, 0⟩ [[]] = jsonFields fields ↔
      pathsKept grow fields = true :=
  Forest.collect_reads_iff larger _ (jsonForest_distinct fields 0)
    ⟨Nat.zero_lt_one, Nat.le_refl _⟩

/-- Two levels of inlined structs are always looked up right. -/
theorem pathsKept_of_shallow (first : grow 0 = 1) (second : grow 1 = 2)
    (shallow : (jsonForest fields 0).levels ≤ 2) :
    pathsKept grow fields = true := by
  have grows : ∀ length < 2, grow length = length + 1 := by
    intro length below
    match length with
    | 0 => exact first
    | 1 => exact second
  exact Forest.unshared_of_levels grows (by simpa using shallow)

private theorem eq_of_keys {α κ : Type} {key : α → κ} :
    ∀ {first second : List α}, first.map key = second.map key → (second.map key).Nodup →
      (∀ a ∈ first, a ∈ second) → first = second
  | [], [], _, _, _ => rfl
  | a :: first, b :: second, sameKeys, distinct, listed => by
      rw [List.map_cons, List.map_cons, List.cons.injEq] at sameKeys
      obtain ⟨fresh, distinctRest⟩ := List.nodup_cons.mp distinct
      have head : a = b := by
        rcases List.mem_cons.mp (listed a List.mem_cons_self) with same | later
        · exact same
        · exact absurd (sameKeys.1 ▸ List.mem_map_of_mem later) fresh
      refine congrArg₂ List.cons head (eq_of_keys sameKeys.2 distinctRest fun x member => ?_)
      rcases List.mem_cons.mp (listed x (List.mem_cons_of_mem _ member)) with rfl | later
      · exact absurd (sameKeys.2 ▸ List.mem_map_of_mem member) fresh
      · exact later

/-- The names handed out by the walk are those of the JSON fields. -/
theorem reads_names (grow : Nat → Nat) (fields : GoFields) :
    ((jsonForest fields 0).reads grow ⟨0, 0⟩ [[]]).map (fun found => found.1.jsonName) =
      (jsonFields fields).map fun field => field.1.jsonName := by
  have labels : ((jsonForest fields 0).collect grow ⟨0, 0⟩ [[]]).2.map Prod.fst =
      (jsonFields fields).map Prod.fst := Forest.collect_labels _ _
  have named := congrArg (List.map FieldInfo.jsonName) labels
  rw [List.map_map, List.map_map] at named
  rw [Forest.reads, List.map_map]
  exact named

/-- The entries of the cache are the fields handed out by the walk. -/
theorem cached_iff (grow : Nat → Nat) (distinct : DistinctNames fields) :
    (structFields grow fields).get? name = some entry ↔
      entry.jsonName = name ∧
        (entry.toFieldInfo, entry.fieldPath) ∈ (jsonForest fields 0).reads grow ⟨0, 0⟩ [[]] := by
  rw [get?_eq_some_iff (structFields_distinct grow fields), structFields_eq]
  constructor
  · exact mem_of_mem_byName
  · intro ⟨same, member⟩
    subst same
    refine mem_byName_of_distinct ?_ member
    rw [reads_names]
    exact distinct

/-- With kept paths a cache entry is a JSON field under its name, with its own path. -/
theorem listed_of_cached (larger : ∀ capacity, capacity < grow capacity)
    (kept : pathsKept grow fields = true) {key : String}
    (cached : (structFields grow fields).get? key = some entry) :
    entry.jsonName = key ∧ (entry.toFieldInfo, entry.fieldPath) ∈ jsonFields fields := by
  have member := mem_of_get? cached
  rw [structFields_eq, (reads_eq_iff_kept larger fields).mpr kept] at member
  exact mem_of_mem_byName member

/-- Kept paths: the cache lists every JSON field with its own path. -/
theorem cached_of_kept (larger : ∀ capacity, capacity < grow capacity)
    (distinct : DistinctNames fields) (kept : pathsKept grow fields = true) :
    (structFields grow fields).get? name = some entry ↔
      entry.jsonName = name ∧ (entry.toFieldInfo, entry.fieldPath) ∈ jsonFields fields := by
  rw [cached_iff grow distinct, (reads_eq_iff_kept larger fields).mpr kept]

/-- For a struct type with distinct JSON names, every cached path is the path to
its field, whatever the growth of full slices, exactly if the walk never writes
again into a slot that a cached path reads. -/
theorem cached_paths_right_iff_kept {grow : Nat → Nat}
    (larger : ∀ capacity, capacity < grow capacity) {fields : GoFields}
    (distinct : DistinctNames fields) :
    LookupRight grow fields ↔ pathsKept grow fields = true := by
  constructor
  · intro ⟨listed, _⟩
    refine (reads_eq_iff_kept larger fields).mp (eq_of_keys (reads_names grow fields) distinct ?_)
    intro found member
    exact listed found.1.jsonName ⟨found.1, found.2⟩ ((cached_iff grow distinct).mpr ⟨rfl, member⟩)
  · intro kept
    refine ⟨fun name entry cached => ((cached_of_kept larger distinct kept).mp cached).2, ?_⟩
    intro info path member
    refine ⟨⟨info, path⟩, (cached_of_kept larger distinct kept).mpr ⟨rfl, member⟩, rfl, ?_⟩
    intro name values own typed selected
    rcases looked_of_mem_jsonFields member name typed with ⟨value, isValue, _, looked⟩ | ⟨behind, _⟩
    · cases selected.symm.trans isValue
      exact looked
    · cases selected.symm.trans behind.select_eq_none

/-- Two levels of inlined structs under two fields. -/
def inlinedTwice : GoFields :=
  .cons "Meta" ",inline" (.struct "Meta"
    (.cons "Names" ",inline" (.pointer (.struct "Names"
      (.cons "First" "first" .string (.cons "Last" "last,omitempty" .string .nil)))) .nil))
    (.cons "Count" "count" (.int .bits64) .nil)

theorem inlined_twice_paths_right : LookupRight doubling inlinedTwice :=
  (cached_paths_right_iff_kept (fun capacity => by unfold doubling; omega) (by decide)).mpr
    (by decide)

/-- Three levels of inlined structs, with two fields in the innermost one. -/
def inlinedThrice : GoFields :=
  .cons "A" ",inline" (.struct "A"
    (.cons "B" ",inline" (.struct "B"
      (.cons "C" ",inline" (.struct "C"
        (.cons "X" "x" .string (.cons "Y" "y" .string .nil))) .nil)) .nil)) .nil

/-- The slice of three indices has room for a fourth: the second field writes
its index over that of the first, which is then looked up in its place. -/
theorem sibling_path_overwritten :
    DistinctNames inlinedThrice ∧
      jsonFields inlinedThrice =
        [(⟨"x", false, .string⟩, [0, 0, 0, 0]), (⟨"y", false, .string⟩, [0, 0, 0, 1])] ∧
      (structFields doubling inlinedThrice).get? "x" =
        some ⟨⟨"x", false, .string⟩, [0, 0, 0, 1]⟩ ∧
      ¬ LookupRight doubling inlinedThrice := by
  have cached : (structFields doubling inlinedThrice).get? "x" =
      some ⟨⟨"x", false, .string⟩, [0, 0, 0, 1]⟩ := by decide
  refine ⟨by decide, by decide, cached, fun right => ?_⟩
  have listed := right.1 "x" _ cached
  revert listed
  decide

end StructuredMergeDiff.Reflect
