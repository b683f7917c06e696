import StructuredMergeDiff.Typed.MergeBounds
import StructuredMergeDiff.Typed.Recorded

/-!
Contract: the applier's and the updater's view of the fields of an object.

An applier owns what `ToFieldSet` records. An updater that creates the object owns
what a comparison with nothing shows as added.

Owns: that both are the paths of the object, once the declared struct fields that
hold something are added to the first.
-/

namespace StructuredMergeDiff.Typed

open Library Std Compare FieldSet

variable {N : Type} [Numeric N] {sc : Schema N}

/-! ## Empty lists -/

section

omit [Numeric N]

/-- An associative list without items. -/
def emptyList (sc : Schema N) (n : Node N) : Bool :=
  match resolveSchema sc n.type n.value, n.value with
  | .ok (.list t), .list [] => t.elementRelationship = .associative
  | _, _ => false

/-- No associative list in the value is empty. -/
def listsFilled (sc : Schema N) (n : Node N) : Bool :=
  everyNode sc (fun n => !emptyList sc n) n

theorem listsFilled_iff (sc : Schema N) (n : Node N) :
    listsFilled sc n = true ↔
      emptyList sc n = false ∧ ∀ k ∈ kids sc n, listsFilled sc k.node = true := by
  unfold listsFilled
  rw [everyNode_iff, Bool.not_eq_true']

end

/-! ## Paths of a value -/

section Views

variable [Consistent N]

/-- A value that is not recorded as a whole has children. -/
theorem kids_of_not_recorded {allowDuplicates : Bool} {n : Node N}
    (sound : Sound sc allowDuplicates n) (filled : listsFilled sc n = true)
    (notLeaf : holdsItself sc n = false)
    (notEmpty : ToFieldSet.isNullOrEmptyMap n.value = false) : kids sc n ≠ [] := by
  obtain ⟨tr, v⟩ := n
  obtain ⟨alternative, resolved, fits⟩ := sound.alternative
  have notNull : v ≠ .null := by
    intro isNull
    simp [isNull, ToFieldSet.isNullOrEmptyMap, Value.isNull] at notEmpty
  simp only at resolved
  simp only [holdsItself, resolved] at notLeaf
  simp only [kids, resolved]
  cases alternative with
  | scalar t => cases notLeaf
  | list t =>
      have granular : t.elementRelationship ≠ .atomic := by simpa [Alternative.isLeaf] using notLeaf
      have associative : t.elementRelationship = .associative :=
        (sound.supported tr (.refl tr) t (resolveSchema_list resolved)).resolve_left granular
      obtain ⟨items, rfl, -⟩ := fits.resolve_left notNull
      have held : items ≠ [] := by
        intro none
        have nonEmptyList := ((listsFilled_iff sc _).mp filled).1
        subst none
        simp [emptyList, resolved, associative] at nonEmptyList
      simpa [kidsOf, granular, Value.items] using held
  | map t =>
      have granular : t.elementRelationship ≠ .atomic := by simpa [Alternative.isLeaf] using notLeaf
      obtain ⟨bindings, rfl, -⟩ := fits.resolve_left notNull
      have held : (Value.map bindings).entries ≠ [] := by
        intro none
        simp [ToFieldSet.isNullOrEmptyMap, Value.isMap, none] at notEmpty
      simpa [kidsOf, granular] using held

/-- Without duplicates, what is recorded beneath a path element is recorded for
the child there. -/
theorem recorded_kid {n : Node N} (sound : Sound sc false n) {pe : PathElement N} {rest : Path N} :
    Recorded sc n (pe :: rest) ↔ ∃ k ∈ kidsAt sc n pe,
      Recorded sc k.node rest ∨ (rest = [] ∧ k.alwaysRecorded = true) := by
  obtain ⟨x, only⟩ := sound.kidValues_toList pe
  have short : (kidsAt sc n pe).length ≤ 1 := by
    have length := congrArg List.length only
    simp only [kidValues, Option.elim_some, List.length_map] at length
    rw [length]
    cases x <;> simp
  rw [recorded_cons]
  generalize kidsAt sc n pe = ks at short ⊢
  rcases ks with _ | ⟨k, _ | ⟨_, _⟩⟩
  · simp [RecordedKids]
  · simp [RecordedKids]
  · simp at short

theorem nodesAt_of_recorded {n : Node N} {path : Path N} (recorded : Recorded sc n path) :
    nodesAt sc n path ≠ [] := by
  induction path generalizing n with
  | nil => simp [nodesAt]
  | cons pe rest ih =>
      rw [recorded_cons] at recorded
      rcases found : kidsAt sc n pe with _ | ⟨k, _ | ⟨_, _⟩⟩
      · rw [found] at recorded
        exact recorded.elim
      · rw [found] at recorded
        have present : nodesAt sc k.node rest ≠ [] := by
          rcases recorded with beneath | ⟨rfl, -⟩
          · exact ih beneath
          · simp [nodesAt]
        simpa [nodesAt, found] using present
      · rw [found] at recorded
        rw [show rest = [] from recorded]
        simp [nodesAt, found]

/-- Something is recorded beneath a value with children. -/
theorem exists_recorded {n : Node N} (sound : Sound sc false n) (filled : listsFilled sc n = true)
    (held : kids sc n ≠ []) : ∃ pe rest, Recorded sc n (pe :: rest) := by
  induction bound : n.value.depth using Nat.strong_induction_on generalizing n with
  | _ depth ih =>
      subst bound
      obtain ⟨k, member⟩ := List.exists_mem_of_ne_nil _ held
      have atName : k ∈ kidsAt sc n k.pe := mem_kidsAt.mpr ⟨member, BEq.refl _⟩
      have soundKid := (sound.kid member).1
      have filledKid := ((listsFilled_iff sc n).mp filled).2 k member
      by_cases whole : holdsItself sc k.node = true ∨ k.alwaysRecorded = true
      · refine ⟨k.pe, [], (recorded_kid sound).mpr ⟨k, atName, ?_⟩⟩
        exact whole.imp (recorded_root k.node).mpr fun always => ⟨rfl, always⟩
      · obtain ⟨notLeaf, notAlways⟩ := not_or.mp whole
        have notEmpty : ToFieldSet.isNullOrEmptyMap k.node.value = false := by
          simp only [Kid.alwaysRecorded, Bool.or_eq_true, not_or, Bool.not_eq_true] at notAlways
          exact notAlways.2
        obtain ⟨pe, rest, beneath⟩ := ih _ (depth_lt_of_mem_kids member) soundKid
          filledKid (kids_of_not_recorded soundKid filledKid (by simpa using notLeaf) notEmpty) rfl
        exact ⟨k.pe, pe :: rest, (recorded_kid sound).mpr ⟨k, atName, Or.inl beneath⟩⟩

/-- The paths of a value are those recorded and the declared struct fields above them. -/
theorem nodesAt_iff_recorded {n : Node N} (sound : Sound sc false n)
    (filled : listsFilled sc n = true) {path : Path N} (proper : path ≠ []) :
    nodesAt sc n path ≠ [] ↔ Recorded sc n path ∨
      (declared sc n.type path = true ∧
        ∃ rest, rest ≠ [] ∧ Recorded sc n (path ++ rest)) := by
  constructor
  · intro present
    induction path generalizing n with
    | nil => exact absurd rfl proper
    | cons pe rest ih =>
        obtain ⟨k, member, presentKid⟩ : ∃ k ∈ kidsAt sc n pe, nodesAt sc k.node rest ≠ [] := by
          simpa [nodesAt] using present
        obtain ⟨inKids, same⟩ := mem_kidsAt.mp member
        obtain ⟨soundKid, properKid⟩ := sound.kid inKids
        have filledKid := ((listsFilled_iff sc n).mp filled).2 k inKids
        have below : ∀ later, Recorded sc k.node later → Recorded sc n (pe :: later) :=
          fun later recorded => (recorded_kid sound).mpr ⟨k, member, Or.inl recorded⟩
        by_cases last : rest = []
        · subst last
          by_cases whole : holdsItself sc k.node = true ∨ k.alwaysRecorded = true
          · refine Or.inl ((recorded_kid sound).mpr ⟨k, member, ?_⟩)
            exact whole.imp (recorded_root k.node).mpr fun always => ⟨rfl, always⟩
          · obtain ⟨notLeaf, notAlways⟩ := not_or.mp whole
            simp only [Kid.alwaysRecorded, Bool.or_eq_true, not_or, Bool.not_eq_true] at notAlways
            have held := kids_of_not_recorded soundKid filledKid (by simpa using notLeaf) notAlways.2
            obtain ⟨next, later, recorded⟩ := exists_recorded soundKid filledKid held
            refine Or.inr ⟨?_, next :: later, by simp, below _ recorded⟩
            show isDeclared (atomAt sc n.type) pe = true
            rw [← isDeclared_congr _ same, isDeclared_kid inKids, notAlways.1]
            rfl
        · rcases ih soundKid filledKid last presentKid with
            recorded | ⟨declared, later, someLater, recorded⟩
          · exact Or.inl (below rest recorded)
          · refine Or.inr ⟨?_, later, someLater, below _ recorded⟩
            have type : k.type = childType (atomAt sc n.type) pe := by
              rw [← childType_congr _ same]
              refine (childType_kid inKids properKid).resolve_right fun none => presentKid ?_
              obtain ⟨next, others, rfl⟩ := List.exists_cons_of_ne_nil last
              simp [nodesAt, kidsAt, none]
            rw [declared_cons _ _ _ last, ← type]
            exact declared
  · rintro (recorded | ⟨-, rest, -, recorded⟩)
    · exact nodesAt_of_recorded recorded
    · exact nodesAt_ne_nil_of_append (nodesAt_of_recorded recorded)

/-! ## Objects -/

omit [Numeric N] [Consistent N] in
/-- The null object of the same type. -/
def TypedValue.nullObject (tv : TypedValue N) : TypedValue N :=
  { tv with value := some .null }

omit [Numeric N] [Consistent N] in
/-- No associative list in the object is empty. -/
def TypedValue.listsFilled (tv : TypedValue N) : Bool :=
  match tv.value with
  | some v => Typed.listsFilled tv.schema.val ⟨tv.typeRef, v⟩
  | none => true

omit [Consistent N] in
/-- Applying the object and creating it by an update give the same fields, up to
declared struct fields that hold owned children. -/
def TypedValue.viewsAgree (tv : TypedValue N) : Bool :=
  match tv.toFieldSet, tv.nullObject.compare tv with
  | .ok set, .ok c =>
      (set.ensureNamedFieldsAreMembers tv.schema.val tv.typeRef).equals c.added
  | _, _ => false

/-- The views of the applier and of the updater agree on objects without
duplicates and without empty associative lists. -/
theorem applier_and_updater_views_agree {tv : TypedValue N} (sound : SoundObject false tv)
    (filled : tv.listsFilled = true) : tv.viewsAgree = true := by
  obtain ⟨v, isValue, soundValue⟩ := sound.value
  have soundNull : SoundObject false tv.nullObject :=
    ⟨List.isEmpty_iff.mpr soundValue.null.valid, sound.supported⟩
  have sameType : SameType tv.nullObject tv := ⟨rfl, rfl⟩
  have filledValue : Typed.listsFilled tv.schema.val ⟨tv.typeRef, v⟩ = true := by
    simpa [TypedValue.listsFilled, isValue] using filled
  obtain ⟨c, compared, records⟩ := compare_of_sound sameType soundNull sound
  have recordedSet : tv.toFieldSet =
      .ok (FieldSet.ofPaths (toFieldSetWalk tv.schema.val tv.typeRef v).paths) := by
    simp [TypedValue.toFieldSet, isValue, toFieldSetWalk_clean soundValue.resolves]
  have canonical := FieldSet.ofPaths_canonical (toFieldSetWalk tv.schema.val tv.typeRef v).paths
  have added : ∀ path, c.added.has path = true ↔
      path ≠ [] ∧ nodesAt tv.schema.val ⟨tv.typeRef, v⟩ path ≠ [] := by
    intro path
    have difference := compareWalk_difference soundNull.side sound.side path
    show (c.changed .added).has path = true ↔ _
    rw [(records .added).2 path]
    refine and_congr_right fun proper => difference.added.trans ?_
    have nothing : ¬ Present tv.nullObject.schema.val tv.nullObject.typeRef tv.nullObject.value
        path := by
      obtain ⟨pe, rest, rfl⟩ := List.exists_cons_of_ne_nil proper
      rintro ⟨w, isNull, present⟩
      cases isNull
      exact present (by simp [nodesAt, kidsAt, kids_null])
    rw [and_iff_left nothing, Present, isValue]
    simp only [Option.some.injEq, exists_eq_left']
    rfl
  have recorded : ∀ path, (FieldSet.ofPaths (toFieldSetWalk tv.schema.val tv.typeRef v).paths).has
      path = true ↔ path ≠ [] ∧ Recorded tv.schema.val ⟨tv.typeRef, v⟩ path :=
    has_ofPaths_iff _
  simp only [TypedValue.viewsAgree, recordedSet, compared]
  have canonicalAdded : c.added.Canonical := (records .added).1
  rw [FieldSet.equals_iff_has (FieldSet.ensure_canonical canonical _ _).1 canonicalAdded]
  intro path
  rw [Bool.eq_iff_iff, FieldSet.has_ensure canonical, added, FieldSet.HasBeneath]
  simp only [recorded]
  by_cases proper : path = []
  · simp [proper, FieldSet.declared]
  · rw [nodesAt_iff_recorded soundValue filledValue proper]
    simp [proper]

/-- An object with the set {1, 2}. -/
theorem views_of_number_set_agree :
    (numberSetObject [.number 1, .number 2] : TypedValue Int).viewsAgree = true :=
  applier_and_updater_views_agree ⟨by decide +kernel, numberSetObject_supported _⟩
    (by decide +kernel)

/-! ## Objects on which they differ -/

/-- Items with two number keys. -/
def twoKeyObject (keys : List (Number × Number)) : TypedValue Number :=
  { value := some (.map [("items", .list (keys.map fun pair =>
      .map [("i", .number pair.1), ("j", .number pair.2)]))])
    typeRef := .inline (.ofMap (.struct [("items", .inline (.ofList
      { elementType := .inline (.ofMap (.struct [("i", .inline (.ofScalar .numeric)),
          ("j", .inline (.ofScalar .numeric))]))
        elementRelationship := .associative
        keys := ["i", "j"] }))]))
    schema := ⟨0, ⟨[]⟩⟩ }

/-- Keys whose order is cyclic: their first components round to one float. -/
def cyclicKeys : List (Number × Number) :=
  [(roundedIntegers.high, .int 2), (roundedIntegers.high, .int 0), (roundedIntegers.float, .int 1),
    (roundedIntegers.low, .int 2)]

/-- A separable list cannot be compared, and keys without an order are sorted
differently by the two walks. -/
theorem views_differ_on_separable_list_and_cyclic_keys :
    (separableListObject.isValid false = true ∧ separableListObject.listsFilled = true ∧
        separableListObject.viewsAgree = false) ∧
      (twoKeyObject cyclicKeys).isValid false = true ∧
        (twoKeyObject cyclicKeys).listsFilled = true ∧
        (twoKeyObject cyclicKeys).viewsAgree = false := by
  decide +kernel

end Views

end StructuredMergeDiff.Typed
