import StructuredMergeDiff.Schema.Equals
import StructuredMergeDiff.Value.Conversion

/-!
Contract: which schemas are compared by what they say.

What a schema says is the schema without the addresses of its overrides. `Equals`
decides whether two schemas say the same exactly if the left one has no override, and
no atom with more than one alternative.

Owns: `contents`, `Plain`, and the equivalence for schemas and each kind of type.
Does not own: the `equals` functions (`Schema.Equals`).
-/

namespace StructuredMergeDiff

open Library

variable {N : Type} [Numeric N]

/-! ## What a schema says -/

namespace Value

mutual

/-- The value with the bindings of its maps in lexical order, and its numbers as the
source stores them. -/
def contents : Value N → Value Number
  | .null => .null
  | .bool b => .bool b
  | .number n => .number (Numeric.number n)
  | .string s => .string s
  | .list items => .list (contentsItems items)
  | .map bindings => .map (normalize (contentsBindings bindings))

def contentsItems : List (Value N) → List (Value Number)
  | [] => []
  | item :: rest => item.contents :: contentsItems rest

def contentsBindings : List (String × Value N) → List (String × Value Number)
  | [] => []
  | (key, v) :: rest => (key, v.contents) :: contentsBindings rest

end

end Value

/-- A pointer without its address. -/
def Pointer.contents {α : Type} (p : Pointer α) : Pointer α :=
  { p with addr := 0 }

mutual

def TypeRef.contents : TypeRef N → TypeRef Number
  | ⟨name, atom, relationship⟩ => ⟨name, atom.contents, relationship.map Pointer.contents⟩
termination_by structural tr => tr

def Atom.contents : Atom N → Atom Number
  | ⟨scalar, list, map⟩ => ⟨scalar, ListType.contents? list, MapType.contents? map⟩
termination_by structural atom => atom

def ListType.contents : ListType N → ListType Number
  | ⟨element, relationship, keys⟩ => ⟨element.contents, relationship, keys⟩
termination_by structural t => t

def ListType.contents? : Option (ListType N) → Option (ListType Number)
  | none => none
  | some t => some t.contents
termination_by structural t => t

def MapType.contents : MapType N → MapType Number
  | ⟨fields, unions, element, relationship⟩ =>
      ⟨StructField.contentsAll fields, unions, element.contents, relationship⟩
termination_by structural t => t

def MapType.contents? : Option (MapType N) → Option (MapType Number)
  | none => none
  | some t => some t.contents
termination_by structural t => t

def StructField.contents : StructField N → StructField Number
  | ⟨name, type, default⟩ => ⟨name, type.contents, default.contents⟩
termination_by structural field => field

def StructField.contentsAll : List (StructField N) → List (StructField Number)
  | [] => []
  | field :: rest => field.contents :: StructField.contentsAll rest
termination_by structural fields => fields

end

def TypeDef.contents (definition : TypeDef N) : TypeDef Number :=
  ⟨definition.name, definition.atom.contents⟩

def Schema.contents (sc : Schema N) : Schema Number :=
  ⟨sc.types.map TypeDef.contents⟩

/-! ## Plain schemas -/

mutual

/-- No override, and no second alternative. -/
def TypeRef.Plain : TypeRef N → Prop
  | ⟨_, atom, relationship⟩ => relationship = none ∧ atom.Plain
termination_by structural tr => tr

def Atom.Plain : Atom N → Prop
  | ⟨_, none, none⟩ => True
  | ⟨none, some list, none⟩ => list.Plain
  | ⟨none, none, some map⟩ => map.Plain
  | _ => False
termination_by structural atom => atom

def ListType.Plain : ListType N → Prop
  | ⟨element, _, _⟩ => element.Plain
termination_by structural t => t

def MapType.Plain : MapType N → Prop
  | ⟨fields, _, element, _⟩ => StructField.PlainAll fields ∧ element.Plain
termination_by structural t => t

def StructField.Plain : StructField N → Prop
  | ⟨_, type, _⟩ => type.Plain
termination_by structural field => field

def StructField.PlainAll : List (StructField N) → Prop
  | [] => True
  | field :: rest => field.Plain ∧ StructField.PlainAll rest
termination_by structural fields => fields

end

def Schema.Plain (sc : Schema N) : Prop :=
  ∀ definition ∈ sc.types, definition.atom.Plain

/-! ## Defaults -/

namespace Value

def contentsBinding (binding : String × Value N) : String × Value Number :=
  (binding.1, binding.2.contents)

theorem contentsItems_eq (items : List (Value N)) : contentsItems items = items.map contents := by
  induction items with
  | nil => rfl
  | cons item rest ih => rw [contentsItems, ih, List.map_cons]

theorem contentsBindings_eq (bindings : List (String × Value N)) :
    contentsBindings bindings = bindings.map contentsBinding := by
  induction bindings with
  | nil => rfl
  | cons binding rest ih =>
      rw [contentsBindings, ih, List.map_cons]
      rfl

theorem normalize_contentsBinding (bindings : List (String × Value N)) :
    normalize (bindings.map contentsBinding) = (normalize bindings).map contentsBinding := by
  induction bindings with
  | nil => rfl
  | cons binding rest ih =>
      show insertBy Prod.fst (contentsBinding ("", (.null : Value N)))
        (fun _ => contentsBinding binding) (contentsBinding binding)
        (normalize (rest.map contentsBinding)) = _
      rw [ih]
      exact insertBy_map (fun _ _ => rfl) (fun _ _ => rfl) (fun _ => rfl)

omit [Numeric N] in
private theorem map_eq_map_iff_forall₂ {α β : Type} {f : α → β} :
    ∀ {xs ys : List α}, xs.map f = ys.map f ↔ List.Forall₂ (fun x y => f x = f y) xs ys
  | [], [] => by simp
  | [], _ :: _ => by simp
  | _ :: _, [] => by simp
  | _ :: _, _ :: _ => by simp [map_eq_map_iff_forall₂]

/-- `reflect.DeepEqual` looks at nothing but the contents. -/
theorem deepEqual_iff_contents (v w : Value N) :
    v.deepEqual w = true ↔ v.contents = w.contents := by
  rw [deepEqual_eq]
  cases v <;> cases w <;> simp only [deepEqualBody, contents]
  case list.list xs ys =>
    rw [listEquals_iff, contentsItems_eq, contentsItems_eq, Value.list.injEq,
      map_eq_map_iff_forall₂]
    exact forall₂_congr_of_mem xs ys fun x member y => deepEqual_iff_contents x y
  case map.map xs ys =>
    rw [mapEquals_iff (normalize_sorted xs) (normalize_sorted ys), contentsBindings_eq,
      contentsBindings_eq, normalize_contentsBinding, normalize_contentsBinding, Value.map.injEq,
      map_eq_map_iff_forall₂]
    refine forall₂_congr_of_mem _ _ fun x member y => ?_
    rw [deepEqual_iff_contents x.2 y.2]
    simp [contentsBinding]
  all_goals simp
termination_by v.depth
decreasing_by
  · exact depth_lt_of_mem_items (v := .list _) member
  · exact depth_lt_of_mem_entries (v := .map _) member

end Value

/-! ## Plain types are compared by their contents -/

mutual

theorem TypeRef.equals_iff_contents :
    ∀ left right : TypeRef N, left.Plain → (left.equals right = true ↔ left.contents = right.contents)
  | ⟨leftName, leftAtom, _⟩, ⟨rightName, rightAtom, rightRelationship⟩, ⟨rfl, plain⟩ => by
      have atoms := Atom.equals_iff_contents leftAtom rightAtom plain
      cases rightRelationship <;>
        simp [TypeRef.equals, TypeRef.contents, pointerEquals, atoms]

theorem Atom.equals_iff_contents :
    ∀ left right : Atom N, left.Plain → (left.equals right = true ↔ left.contents = right.contents)
  | ⟨some leftScalar, none, none⟩, ⟨rightScalar, rightList, rightMap⟩, _ => by
      cases rightScalar <;> cases rightList <;> cases rightMap <;>
        simp [Atom.equals, Atom.contents, ListType.contents?, MapType.contents?]
      exact eq_comm
  | ⟨none, none, none⟩, ⟨rightScalar, rightList, rightMap⟩, _ => by
      cases rightScalar <;> cases rightList <;> cases rightMap <;>
        simp [Atom.equals, Atom.contents, ListType.contents?, MapType.contents?]
  | ⟨none, some leftList, none⟩, ⟨rightScalar, none, rightMap⟩, plain => by
      simp [Atom.equals, Atom.contents, ListType.contents?]
  | ⟨none, some leftList, none⟩, ⟨rightScalar, some rightList, rightMap⟩, plain => by
      have lists := ListType.equals_iff_contents leftList rightList plain
      cases rightScalar <;> cases rightMap <;>
        simp [Atom.equals, Atom.contents, ListType.contents?, MapType.contents?, lists]
  | ⟨none, none, some leftMap⟩, ⟨rightScalar, rightList, none⟩, plain => by
      simp [Atom.equals, Atom.contents, MapType.contents?]
  | ⟨none, none, some leftMap⟩, ⟨rightScalar, rightList, some rightMap⟩, plain => by
      have maps := MapType.equals_iff_contents leftMap rightMap plain
      cases rightScalar <;> cases rightList <;>
        simp [Atom.equals, Atom.contents, ListType.contents?, MapType.contents?, maps]

theorem ListType.equals_iff_contents :
    ∀ left right : ListType N, left.Plain → (left.equals right = true ↔ left.contents = right.contents)
  | ⟨leftElement, _, _⟩, ⟨rightElement, _, _⟩, plain => by
      have elements := TypeRef.equals_iff_contents leftElement rightElement plain
      simp [ListType.equals, ListType.contents, elements, and_assoc]

theorem MapType.equals_iff_contents :
    ∀ left right : MapType N, left.Plain → (left.equals right = true ↔ left.contents = right.contents)
  | ⟨leftFields, _, leftElement, _⟩, ⟨rightFields, _, rightElement, _⟩, plain => by
      have fields := StructField.equalsAll_iff_contents leftFields rightFields plain.1
      have elements := TypeRef.equals_iff_contents leftElement rightElement plain.2
      simp only [MapType.equals, MapType.contents, elements, fields, Bool.and_eq_true, beq_iff_eq,
        MapType.mk.injEq]
      tauto

theorem StructField.equals_iff_contents :
    ∀ left right : StructField N, left.Plain →
      (left.equals right = true ↔ left.contents = right.contents)
  | ⟨_, leftType, leftDefault⟩, ⟨_, rightType, rightDefault⟩, plain => by
      have types := TypeRef.equals_iff_contents leftType rightType plain
      simp only [StructField.equals, StructField.contents, types, Bool.and_eq_true, beq_iff_eq,
        Value.deepEqual_iff_contents, StructField.mk.injEq]
      tauto

theorem StructField.equalsAll_iff_contents :
    ∀ lefts rights : List (StructField N), StructField.PlainAll lefts →
      (StructField.equalsAll lefts rights = true ↔
        StructField.contentsAll lefts = StructField.contentsAll rights)
  | [], [], _ => by simp [StructField.equalsAll]
  | [], _ :: _, _ => by simp [StructField.equalsAll, StructField.contentsAll]
  | _ :: _, [], _ => by simp [StructField.equalsAll, StructField.contentsAll]
  | left :: lefts, right :: rights, plain => by
      have heads := StructField.equals_iff_contents left right plain.1
      have tails := StructField.equalsAll_iff_contents lefts rights plain.2
      simp [StructField.equalsAll, StructField.contentsAll, heads, tails]

end

/-! ## What else is mistaken -/

/-- Some other type is mistaken for this one, or this one for another. -/
def Mistaken {α β : Type} (equals : α → α → Bool) (contents : α → β) (left : α) : Prop :=
  ∃ right, ¬ (equals left right = true ↔ contents left = contents right)

theorem ListType.exists_other (t : ListType N) :
    ∃ other : ListType N, t.contents ≠ other.contents :=
  ⟨{ t with keys := "" :: t.keys }, by cases t; simp [ListType.contents]⟩

theorem MapType.exists_other (t : MapType N) : ∃ other : MapType N, t.contents ≠ other.contents :=
  ⟨{ t with unions := ⟨none, false, []⟩ :: t.unions }, by cases t; simp [MapType.contents]⟩

mutual

theorem TypeRef.mistaken_of_not_plain :
    ∀ tr : TypeRef N, ¬ tr.Plain → Mistaken TypeRef.equals TypeRef.contents tr
  | ⟨name, atom, some relationship⟩, _ => by
      -- a copy of the override has an address of its own
      refine ⟨⟨name, atom, some { relationship with addr := relationship.addr + 1 }⟩, ?_⟩
      simp [TypeRef.equals, TypeRef.contents, pointerEquals, Pointer.contents]
  | ⟨name, atom, none⟩, notPlain => by
      obtain ⟨other, mistaken⟩ := Atom.mistaken_of_not_plain atom fun plain => notPlain ⟨rfl, plain⟩
      exact ⟨⟨name, other, none⟩, by simpa [TypeRef.equals, TypeRef.contents, pointerEquals]⟩

theorem Atom.mistaken_of_not_plain :
    ∀ atom : Atom N, ¬ atom.Plain → Mistaken Atom.equals Atom.contents atom
  | ⟨_, none, none⟩, notPlain => absurd trivial notPlain
  | ⟨none, some list, none⟩, notPlain => by
      obtain ⟨other, mistaken⟩ := ListType.mistaken_of_not_plain list notPlain
      exact ⟨⟨none, some other, none⟩, by
        simpa [Atom.equals, Atom.contents, ListType.contents?, MapType.contents?]⟩
  | ⟨none, none, some map⟩, notPlain => by
      obtain ⟨other, mistaken⟩ := MapType.mistaken_of_not_plain map notPlain
      exact ⟨⟨none, none, some other⟩, by
        simpa [Atom.equals, Atom.contents, ListType.contents?, MapType.contents?]⟩
  | ⟨some scalar, some list, map⟩, _ => by
      -- next to a scalar neither the list nor the map is looked at
      obtain ⟨other, differs⟩ := list.exists_other
      exact ⟨⟨some scalar, some other, map⟩, by
        simpa [Atom.equals, Atom.contents, ListType.contents?]⟩
  | ⟨some scalar, none, some map⟩, _ => by
      obtain ⟨other, differs⟩ := map.exists_other
      exact ⟨⟨some scalar, none, some other⟩, by
        simpa [Atom.equals, Atom.contents, MapType.contents?]⟩
  | ⟨none, some list, some map⟩, _ => by
      obtain ⟨other, differs⟩ := map.exists_other
      exact ⟨⟨none, some list, some other⟩, by
        simpa [Atom.equals, Atom.contents, MapType.contents?, ListType.equals_self]⟩

theorem ListType.mistaken_of_not_plain :
    ∀ t : ListType N, ¬ t.Plain → Mistaken ListType.equals ListType.contents t
  | ⟨element, relationship, keys⟩, notPlain => by
      obtain ⟨other, mistaken⟩ := TypeRef.mistaken_of_not_plain element notPlain
      exact ⟨⟨other, relationship, keys⟩, by simpa [ListType.equals, ListType.contents]⟩

theorem MapType.mistaken_of_not_plain :
    ∀ t : MapType N, ¬ t.Plain → Mistaken MapType.equals MapType.contents t
  | ⟨fields, unions, element, relationship⟩, notPlain => by
      by_cases plain : element.Plain
      · obtain ⟨others, mistaken⟩ := StructField.mistaken_of_not_plainAll fields
          fun plainFields => notPlain ⟨plainFields, plain⟩
        exact ⟨⟨others, unions, element, relationship⟩, by
          simpa [MapType.equals, MapType.contents, TypeRef.equals_self]⟩
      · obtain ⟨other, mistaken⟩ := TypeRef.mistaken_of_not_plain element plain
        exact ⟨⟨fields, unions, other, relationship⟩, by
          simpa [MapType.equals, MapType.contents, StructField.equalsAll_self]⟩

theorem StructField.mistaken_of_not_plain :
    ∀ field : StructField N, ¬ field.Plain → Mistaken StructField.equals StructField.contents field
  | ⟨name, type, default⟩, notPlain => by
      obtain ⟨other, mistaken⟩ := TypeRef.mistaken_of_not_plain type notPlain
      exact ⟨⟨name, other, default⟩, by
        simpa [StructField.equals, StructField.contents, Value.deepEqual_self]⟩

theorem StructField.mistaken_of_not_plainAll :
    ∀ fields : List (StructField N), ¬ StructField.PlainAll fields →
      Mistaken StructField.equalsAll StructField.contentsAll fields
  | [], notPlain => absurd trivial notPlain
  | field :: rest, notPlain => by
      by_cases plain : field.Plain
      · obtain ⟨others, mistaken⟩ := StructField.mistaken_of_not_plainAll rest
          fun plainRest => notPlain ⟨plain, plainRest⟩
        exact ⟨field :: others, by
          simpa [StructField.equalsAll, StructField.contentsAll, StructField.equals_self]⟩
      · obtain ⟨other, mistaken⟩ := StructField.mistaken_of_not_plain field plain
        exact ⟨other :: rest, by
          simpa [StructField.equalsAll, StructField.contentsAll, StructField.equalsAll_self]⟩

end

/-! ## Schemas -/

theorem TypeDef.equals_self (definition : TypeDef N) : definition.equals definition = true := by
  simp [TypeDef.equals, Atom.equals_self]

theorem TypeDef.equalsAll_self (definitions : List (TypeDef N)) :
    TypeDef.equalsAll definitions definitions = true := by
  induction definitions with
  | nil => rfl
  | cons definition rest ih =>
      simp [TypeDef.equalsAll, TypeDef.equals_self, ih]

theorem TypeDef.equalsAll_iff_contents :
    ∀ lefts rights : List (TypeDef N), (∀ definition ∈ lefts, definition.atom.Plain) →
      (TypeDef.equalsAll lefts rights = true ↔
        lefts.map TypeDef.contents = rights.map TypeDef.contents)
  | [], [], _ => by simp [TypeDef.equalsAll]
  | [], _ :: _, _ => by simp [TypeDef.equalsAll]
  | _ :: _, [], _ => by simp [TypeDef.equalsAll]
  | left :: lefts, right :: rights, plain => by
      have atoms := Atom.equals_iff_contents left.atom right.atom (plain left (by simp))
      have tails := TypeDef.equalsAll_iff_contents lefts rights fun definition member =>
        plain definition (by simp [member])
      simp [TypeDef.equalsAll, TypeDef.equals, TypeDef.contents, atoms, tails]

theorem TypeDef.mistaken_of_not_plain :
    ∀ definitions : List (TypeDef N), (¬ ∀ definition ∈ definitions, definition.atom.Plain) →
      Mistaken TypeDef.equalsAll (List.map TypeDef.contents) definitions
  | [], notPlain => absurd (by simp) notPlain
  | definition :: rest, notPlain => by
      by_cases plain : definition.atom.Plain
      · obtain ⟨others, mistaken⟩ := TypeDef.mistaken_of_not_plain rest fun plainRest =>
          notPlain (by simpa [plain] using plainRest)
        exact ⟨definition :: others, by
          simpa [TypeDef.equalsAll, TypeDef.equals_self] using mistaken⟩
      · obtain ⟨other, mistaken⟩ := Atom.mistaken_of_not_plain definition.atom plain
        exact ⟨⟨definition.name, other⟩ :: rest, by
          simpa [TypeDef.equalsAll, TypeDef.equals, TypeDef.contents, TypeDef.equalsAll_self]⟩

/-- A type is compared by its contents with every other one. -/
def ComparedByContents {α β : Type} (equals : α → α → Bool) (contents : α → β) (left : α) : Prop :=
  ∀ right, equals left right = true ↔ contents left = contents right

private theorem compared_iff {α β : Type} {equals : α → α → Bool} {contents : α → β} {left : α}
    {Plain : Prop} (sound : Plain → ComparedByContents equals contents left)
    (mistaken : ¬ Plain → Mistaken equals contents left) :
    ComparedByContents equals contents left ↔ Plain := by
  refine ⟨fun compared => ?_, sound⟩
  by_contra notPlain
  obtain ⟨right, wrong⟩ := mistaken notPlain
  exact wrong (compared right)

/-- The type of a number, or of a list of type `list`. -/
def numberOr (list : ListType Int) : Atom Int :=
  { scalar := some .numeric, list := some list, map := none }

/-- A reference to the type `name` that makes it atomic, with the override at `addr`. -/
def atomicReference (name : String) (addr : Nat) : TypeRef Int :=
  { namedType := some name
    inlined := .zero
    elementRelationship := some { addr := addr, val := .atomic } }

end StructuredMergeDiff
