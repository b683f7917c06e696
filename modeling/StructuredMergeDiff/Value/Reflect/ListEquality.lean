import Mathlib.Logic.Equiv.List
import StructuredMergeDiff.Value.Reflect.Faithful

/-!
Contract: equality of Go slices, by `reflect.DeepEqual`, item by item, and of their
unstructured forms.

`EqualsUsing` of two Go slices is `reflect.DeepEqual`. The loop over the items reads
them through the interface, as does the comparison of the unstructured forms. On
slices of a faithful type all three agree.

Owns: what `EqualsUsing` computes on values of faithful types, and when the three
comparisons of slices agree.
-/

set_option autoImplicit false

namespace StructuredMergeDiff.Reflect

open Library FiniteMap Value

variable {grow : Nat → Nat} {encode : List Nat → String} {elem : GoType} {u : Value Number}

/-! ## Maps -/

section Maps

variable {equal : Item Number → Item Number → Except Panic Bool}
  {R : Item Number → Item Number → Prop} {lhs rhs : MapValue Number}

/-- The comparison of two items completes and decides the relation. -/
def Decides (equal : Item Number → Item Number → Except Panic Bool)
    (R : Item Number → Item Number → Prop) (left right : List (String × Item Number)) : Prop :=
  ∀ key l r, get? left key = some l → get? right key = some r →
    ∃ same, equal l r = .ok same ∧ (same = true ↔ R l r)

/-- The answer for a key. -/
private def answer (equal : Item Number → Item Number → Except Panic Bool)
    (left right : List (String × Item Number)) (key : String) : Bool :=
  match get? left key, get? right key with
  | some l, some r => (equal l r).toOption.getD false
  | _, _ => false

private theorem answer_iff {left right : List (String × Item Number)}
    (decides : Decides equal R left right) {key : String} :
    answer equal left right key = true ↔
      ∃ l r, get? left key = some l ∧ get? right key = some r ∧ R l r := by
  unfold answer
  cases isLeft : get? left key with
  | none => simp
  | some l =>
      cases isRight : get? right key with
      | none => simp
      | some r =>
          obtain ⟨same, compared, tells⟩ := decides key l r isLeft isRight
          simp [compared, Except.toOption, tells]

private theorem all_answers_iff {left right : List (String × Item Number)}
    (decides : Decides equal R left right) {keys : List String}
    (enumerates : Enumerates left right keys) :
    keys.all (answer equal left right) = true ↔ Agree R left right := by
  rw [List.all_eq_true]
  constructor
  · intro yes key
    by_cases listed : key ∈ keys
    · obtain ⟨l, r, isLeft, isRight, related⟩ := (answer_iff decides).mp (yes key listed)
      rw [isLeft, isRight]
      exact .some related
    · rw [enumerates.mem, not_or, Option.not_isSome_iff_eq_none,
        Option.not_isSome_iff_eq_none] at listed
      rw [listed.1, listed.2]
      exact .none
  · intro agree key listed
    have here := agree key
    rw [enumerates.mem] at listed
    rw [answer_iff decides]
    cases isLeft : get? left key <;> cases isRight : get? right key <;>
      rw [isLeft, isRight] at here
    case some.some l r => exact ⟨l, r, rfl, rfl, Option.rel_some_some.mp here⟩
    case none.none => simp [isLeft, isRight] at listed
    all_goals cases here

/-- Through the zip, two maps are equal if they have the same keys with equal values. -/
theorem mapEqualsUsing_agree (completeLeft : lhs.Complete grow) (completeRight : rhs.Complete grow)
    (decides : Decides equal R (lhs.entries grow) (rhs.entries grow)) :
    ∃ same, mapEqualsUsing grow equal lhs rhs = .ok same ∧
      (same = true ↔ Agree R (lhs.entries grow) (rhs.entries grow)) := by
  have showsLeft := shows_entries completeLeft
  have showsRight := shows_entries completeRight
  have byLength := agree_iff_found (R := R) showsLeft.distinct showsRight.distinct
  have lengthLeft : lhs.length grow = .ok (lhs.entries grow).length := showsLeft.length
  have lengthRight : rhs.length grow = .ok (rhs.entries grow).length := showsRight.length
  unfold mapEqualsUsing
  rw [lengthLeft, lengthRight]
  by_cases sameLength : (lhs.entries grow).length = (rhs.entries grow).length
  · have presentLeft : ∀ m ∈ some lhs, m.Complete grow :=
      fun m isLhs => Option.some.inj isLhs ▸ completeLeft
    have presentRight : ∀ m ∈ some rhs, m.Complete grow :=
      fun m isRhs => Option.some.inj isRhs ▸ completeRight
    obtain ⟨keys, enumerates, _, runs⟩ := mapZip_zipsAs presentLeft presentRight .unordered
    have calls : ∀ key ∈ keys, ∀ state,
        zipCall (equalsCallback equal) (lhs.entries grow) (rhs.entries grow) key state =
          (state, answer equal (lhs.entries grow) (rhs.entries grow) key) := by
      intro key _ state
      unfold zipCall equalsCallback answer
      cases isLeft : get? (lhs.entries grow) key with
      | none => rfl
      | some l =>
          cases isRight : get? (rhs.entries grow) key with
          | none => rfl
          | some r =>
              obtain ⟨same, compared, _⟩ := decides key l r isLeft isRight
              simp [compared, Except.toOption]
    refine ⟨_, ?_, all_answers_iff decides enumerates⟩
    have ran : mapZip grow (some lhs) (some rhs) .unordered (equalsCallback equal) none =
        .ok (none, keys.all (answer equal (lhs.entries grow) (rhs.entries grow))) := by
      rw [← callWhile_all calls]
      exact runs _ _
    rw [ran]
    exact if_neg (not_not_intro sameLength)
  · refine ⟨false, if_pos sameLength, iff_of_false Bool.false_ne_true fun agree => ?_⟩
    exact sameLength (byLength.mp agree).1

/-- The step of the loop over the right map. -/
private def lookUp (grow : Nat → Nat) (equal : Item Number → Item Number → Except Panic Bool)
    (lhs : MapValue Number) (key : String) (value : Item Number) (_ : Unit) :
    Except Panic (Unit × Bool) := do
  match ← lhs.get grow key with
  | none => return ((), false)
  | some lhsVal => return ((), ← equal lhsVal value)

/-- By lookup, two maps are equal if they have the same keys with equal values. -/
theorem lookupEqualsUsing_agree (completeLeft : lhs.Complete grow)
    (completeRight : rhs.Complete grow)
    (decides : Decides equal R (lhs.entries grow) (rhs.entries grow)) :
    ∃ same, lookupEqualsUsing grow equal lhs rhs = .ok same ∧
      (same = true ↔ Agree R (lhs.entries grow) (rhs.entries grow)) := by
  have showsLeft := shows_entries completeLeft
  have showsRight := shows_entries completeRight
  have byLength := agree_iff_found (R := R) showsLeft.distinct showsRight.distinct
  have lengthLeft : lhs.length grow = .ok (lhs.entries grow).length := showsLeft.length
  have lengthRight : rhs.length grow = .ok (rhs.entries grow).length := showsRight.length
  unfold lookupEqualsUsing
  rw [lengthLeft, lengthRight]
  by_cases sameLength : (lhs.entries grow).length = (rhs.entries grow).length
  · by_cases isEmpty : (lhs.entries grow).length = 0
    · refine ⟨true, (if_neg (not_not_intro sameLength)).trans (if_pos isEmpty), fun _ => ?_,
        fun _ => rfl⟩
      have rightEmpty := List.length_eq_zero_iff.mp (sameLength.symm.trans isEmpty)
      rw [byLength, rightEmpty]
      exact ⟨by rw [← rightEmpty]; exact sameLength, by simp⟩
    · have asked : ∀ entry ∈ rhs.entries grow, ∀ state : Unit,
          lookUp grow equal lhs entry.1 entry.2 state =
            .ok (state, answer equal (lhs.entries grow) (rhs.entries grow) entry.1) := by
        intro entry member _
        have isRight := get?_of_mem showsRight.distinct member
        have found : lhs.get grow entry.1 = .ok (get? (lhs.entries grow) entry.1) :=
          showsLeft.get entry.1
        rw [lookUp, found, answer, isRight]
        cases isLeft : get? (lhs.entries grow) entry.1 with
        | none => rfl
        | some l =>
            obtain ⟨same, compared, _⟩ := decides entry.1 l entry.2 isLeft isRight
            simp [compared, Except.toOption, bind, Except.bind, pure, Except.pure]
      have ran : rhs.iterate grow (lookUp grow equal lhs) () =
          .ok ((), (rhs.entries grow).all fun entry =>
            answer equal (lhs.entries grow) (rhs.entries grow) entry.1) := by
        rw [← callWhile_all (fun _ _ _ => rfl), ← visitWhile_eq_call asked]
        exact showsRight.iterate (lookUp grow equal lhs) ()
      refine ⟨(rhs.entries grow).all fun entry =>
        answer equal (lhs.entries grow) (rhs.entries grow) entry.1, ?_, ?_⟩
      · refine (if_neg (not_not_intro sameLength)).trans ((if_neg isEmpty).trans ?_)
        exact congrArg (fun run => run.bind fun result => .ok result.2) ran
      · rw [byLength, and_iff_right sameLength, List.all_eq_true]
        refine forall₂_congr fun entry member => ?_
        rw [answer_iff decides, get?_of_mem showsRight.distinct member]
        simp
  · refine ⟨false, if_pos sameLength, iff_of_false Bool.false_ne_true fun agree => ?_⟩
    exact sameLength (byLength.mp agree).1

end Maps

/-! ## The fields of a faithful struct -/

private theorem listed_cons {name tag : String} {type : GoType} {rest : GoFields}
    {info : FieldInfo} {path : List Nat}
    (listed : (info, path) ∈ jsonFields (.cons name tag type rest)) :
    (∃ within, (info, within) ∈ headFields (fieldRole name tag type)) ∨
      ∃ within, (info, within) ∈ jsonFields rest := by
  rw [jsonFields_cons, List.mem_append] at listed
  rcases listed with inHead | inRest
  · obtain ⟨⟨_, within⟩, member, same⟩ := List.mem_map.mp inHead
    cases same
    exact .inl ⟨within, member⟩
  · obtain ⟨⟨_, within⟩, member, same⟩ := List.mem_map.mp inRest
    cases same
    exact .inr ⟨within, member⟩

theorem faithful_of_listed {fields : GoFields} (isFaithful : faithfulFields fields = true)
    (isRegular : regularFields grow fields = true) {info : FieldInfo} {path : List Nat}
    (listed : (info, path) ∈ jsonFields fields) :
    faithful info.isOmitEmpty info.fieldType = true ∧ regular grow info.fieldType = true := by
  induction fields using fields_induction generalizing path with
  | nil => cases listed
  | dropped name tag type rest role later =>
      rw [faithfulFields_cons, Bool.and_eq_true] at isFaithful
      rw [regularFields_cons, Bool.and_eq_true] at isRegular
      rcases listed_cons listed with ⟨_, member⟩ | ⟨_, member⟩
      · rw [role] at member
        cases member
      · exact later isFaithful.2 isRegular.2 member
  | inlined name tag type rest fields role inner later =>
      rw [faithfulFields_cons, Bool.and_eq_true, role] at isFaithful
      rw [regularFields_cons, Bool.and_eq_true, role] at isRegular
      rcases listed_cons listed with ⟨_, member⟩ | ⟨_, member⟩
      · rw [role] at member
        obtain ⟨s, rfl | rfl⟩ := type_of_inlined role
        · exact inner isFaithful.1 isRegular.1 member
        · cases isFaithful.1
      · exact later isFaithful.2 isRegular.2 member
  | field name tag type rest own role later =>
      rw [faithfulFields_cons, Bool.and_eq_true, role] at isFaithful
      rw [regularFields_cons, Bool.and_eq_true, role] at isRegular
      rcases listed_cons listed with ⟨_, member⟩ | ⟨_, member⟩
      · rw [role] at member
        cases List.mem_singleton.mp member
        rw [fieldType_of_role role]
        exact ⟨isFaithful.1, isRegular.1⟩
      · exact later isFaithful.2 isRegular.2 member

/-! ## Values -/

/-- What is seen of a value is of the kind of its form. -/
inductive ViewOf : View → Value Number → Prop
  | number (n : Number) : ViewOf (.number n) (.number n)
  | string (s : String) : ViewOf (.string s) (.string s)
  | bool (b : Bool) : ViewOf (.bool b) (.bool b)
  | list (items : ListValue) (forms : List (Value Number)) : ViewOf (.list items) (.list forms)
  | map (m : MapValue Number) (bindings : List (String × Value Number)) :
      ViewOf (.map m) (.map bindings)
  | null : ViewOf .null .null

section Values

variable (larger : ∀ capacity, capacity < grow capacity)

include larger

/-- A value that has a form can be viewed. -/
theorem viewOf_of_unstructured {r : ReflectValue} (typed : r.value.hasType r.type = true)
    (converts : unstructured grow encode r = .ok u) :
    ∃ w, view encode (.reflected r) = .ok w ∧ ViewOf w u := by
  rw [unstructured_eq larger] at converts
  unfold unstructuredBody at converts
  split at converts
  case h_1 name fields value =>
    obtain ⟨result, _, isMap⟩ := bind_eq_ok.mp converts
    cases isMap
    cases value with
    | struct values => exact ⟨_, rfl, .map _ _⟩
    | _ => cases typed
  case h_2 elem entries =>
    obtain ⟨bindings, _, isMap⟩ := bind_eq_ok.mp converts
    cases isMap
    have distinct : (entries.map Prod.fst).Nodup :=
      of_decide_eq_true (Bool.and_eq_true_iff.mp typed).1
    exact ⟨_, dif_pos distinct, .map _ _⟩
  case h_4 elem items noBytes =>
    obtain ⟨forms, _, isList⟩ := bind_eq_ok.mp converts
    cases isList
    refine ⟨.list (.listReflect elem items), ?_, .list _ _⟩
    cases elem with
    | uint width =>
        cases width with
        | bits8 => exact absurd rfl noBytes
        | _ => rfl
    | _ => rfl
  case h_6 width n supported =>
    cases converts
    cases width with
    | bits64 => exact absurd rfl supported
    | _ => exact ⟨_, rfl, .number _⟩
  case h_12 _ type _ _ =>
    cases converts
    refine ⟨.null, ?_, .null⟩
    cases type with
    | pointer _ | interface | map _ => rfl
    | slice elem =>
        cases elem with
        | uint width => cases width <;> rfl
        | _ => rfl
    | _ => cases typed
  case h_5 | h_13 => cases converts
  case h_3 => cases converts; exact ⟨_, rfl, .string _⟩
  case h_7 | h_8 | h_9 => cases converts; exact ⟨_, rfl, .number _⟩
  case h_10 => cases converts; exact ⟨_, rfl, .string _⟩
  case h_11 => cases converts; exact ⟨_, rfl, .bool _⟩

/-- Values are equal if their views are; lists and maps by their own comparisons. -/
theorem equalsUsing_of_views {lhs rhs : Item Number} {w w' : View} {u v : Value Number}
    (lhsView : view encode lhs = .ok w) (rhsView : view encode rhs = .ok w')
    (lhsKind : ViewOf w u) (rhsKind : ViewOf w' v)
    (lists : ∀ items items', w = .list items → w' = .list items' →
      items.equalsUsing (equalsUsing grow encode) items' = .ok (u == v))
    (maps : ∀ m m', w = .map m → w' = .map m' →
      m.equalsUsing grow (equalsUsing grow encode) m' = .ok (u == v)) :
    equalsUsing grow encode lhs rhs = .ok (u == v) := by
  rw [equalsUsing_eq larger, equalsUsingBody, lhsView, rhsView]
  cases lhsKind <;> cases rhsKind
  case list.list items forms items' forms' => exact lists items items' rfl rfl
  case map.map m bindings m' bindings' => exact maps m m' rfl rfl
  all_goals
    rw [beq_eq_equalsBody]
    rfl

omit larger in
/-- The form of the value that a child is wrapped as. -/
theorem Converts.form {type : GoType} {x : GoValue} (converts : Converts grow encode type x u) :
    mustReuse ⟨type, x⟩ = .ok (dereference ⟨type, x⟩) ∧
      unstructured grow encode (dereference ⟨type, x⟩) = .ok u := by
  obtain ⟨wrapped, wraps, isForm⟩ := bind_eq_ok.mp converts.2
  have same := mustReuse_eq wraps
  subst same
  exact ⟨wraps, isForm⟩

end Values

/-! ### Items and their forms -/

variable (grow encode) in
/-- The form of an item that a map shows. -/
def itemForm : Item Number → Except Panic (Value Number)
  | .unstructured v => .ok v
  | .reflected r => unstructured grow encode r

theorem Converts.itemForm {type : GoType} {x : GoValue} (converts : Converts grow encode type x u) :
    itemForm grow encode (.reflected (dereference ⟨type, x⟩)) = .ok u :=
  converts.form.2

variable (grow encode) in
def SameForm (l r : Item Number) : Prop :=
  ∃ u v, itemForm grow encode l = .ok u ∧ itemForm grow encode r = .ok v ∧ (u == v) = true

theorem sameForm_iff {l r : Item Number} {u v : Value Number}
    (isLeft : itemForm grow encode l = .ok u) (isRight : itemForm grow encode r = .ok v) :
    SameForm grow encode l r ↔ (u == v) = true := by
  constructor
  · intro ⟨_, _, left, right, same⟩
    cases isLeft.symm.trans left
    cases isRight.symm.trans right
    exact same
  · intro same
    exact ⟨u, v, isLeft, isRight, same⟩

variable (grow encode) in
/-- A map that can be read, and the forms of what it shows. -/
structure Mirrors (m : MapValue Number) (forms : List (String × Value Number)) : Prop where
  complete : m.Complete grow
  agree : FiniteMap.Agree (fun item form => itemForm grow encode item = .ok form)
    (m.entries grow) forms

/-- A comparison that decides whether two maps have the same forms compares them. -/
theorem Mirrors.compares {lhs rhs : MapValue Number} {us vs : List (String × Value Number)}
    (left : Mirrors grow encode lhs us) (right : Mirrors grow encode rhs vs)
    {comparison : Except Panic Bool}
    (decided : ∃ same, comparison = .ok same ∧
      (same = true ↔ Agree (SameForm grow encode) (lhs.entries grow)
        (rhs.entries grow))) :
    comparison = .ok (Value.map us == .map vs) := by
  obtain ⟨same, compared, tells⟩ := decided
  have equalForms : same = (Value.map us == .map vs) := by
    rw [Bool.eq_iff_iff, tells, beq_map_iff_agree]
    exact agree_iff_of_images left.agree right.agree sameForm_iff
  rw [← equalForms]
  exact compared

variable (grow encode) in
/-- `EqualsUsing` compares the forms of values of faithful types, up to a depth. -/
def ComparesForms (bound : Nat) : Prop :=
  ∀ {x y : GoValue} {omitEmpty : Bool} {type : GoType} {u v : Value Number}, x.depth < bound →
    faithful omitEmpty type = true → regular grow type = true → Converts grow encode type x u →
    Converts grow encode type y v →
      equalsUsing grow encode (.reflected (dereference ⟨type, x⟩))
        (.reflected (dereference ⟨type, y⟩)) = .ok (u == v)

/-! ### Go maps -/

variable (grow encode) in
/-- The bindings that the entries of a Go map are converted to. -/
def EntriesConvert (elem : GoType) (entries : List (String × GoValue))
    (forms : List (String × Value Number)) : Prop :=
  List.Forall₂ (fun entry binding => entry.1 = binding.1 ∧
    Converts grow encode elem entry.2 binding.2) entries forms

theorem EntriesConvert.mirrors {entries : List (String × GoValue)}
    {distinct : (entries.map Prod.fst).Nodup} {forms : List (String × Value Number)}
    (convert : EntriesConvert grow encode elem entries forms) :
    Mirrors grow encode (.mapReflect elem entries distinct) forms where
  complete := by
    intro entry member
    obtain ⟨_, _, _, converts⟩ := exists_of_mem_left convert member
    exact ⟨_, converts.form.1⟩
  agree := by
    refine agree_of_forall₂ (List.forall₂_map_left_iff.mpr ?_)
    exact convert.imp fun entry binding both => ⟨both.1, both.2.form.2⟩

private theorem equalsUsing_mapReflect {xs ys : List (String × GoValue)}
    {xsDistinct : (xs.map Prod.fst).Nodup} {ysDistinct : (ys.map Prod.fst).Nodup}
    (isFaithful : faithful false elem = true) (isRegular : regular grow elem = true)
    (below : ComparesForms grow encode (GoValue.map xs).depth)
    {us vs : List (String × Value Number)} (xsConvert : EntriesConvert grow encode elem xs us)
    (ysConvert : EntriesConvert grow encode elem ys vs) :
    (MapValue.mapReflect elem xs xsDistinct).equalsUsing grow (equalsUsing grow encode)
        (.mapReflect elem ys ysDistinct) = .ok (Value.map us == .map vs) := by
  have left : Mirrors grow encode (.mapReflect elem xs xsDistinct) us := xsConvert.mirrors
  have right : Mirrors grow encode (.mapReflect elem ys ysDistinct) vs := ysConvert.mirrors
  refine left.compares right (lookupEqualsUsing_agree left.complete right.complete ?_)
  intro key l r isLeft isRight
  rw [MapValue.entries, get?_shownEntries] at isLeft isRight
  obtain ⟨x, inXs, rfl⟩ := Option.map_eq_some_iff.mp isLeft
  obtain ⟨y, inYs, rfl⟩ := Option.map_eq_some_iff.mp isRight
  obtain ⟨xBinding, _, _, xConverts⟩ := exists_of_mem_left xsConvert (mem_of_get? inXs)
  obtain ⟨yBinding, _, _, yConverts⟩ := exists_of_mem_left ysConvert (mem_of_get? inYs)
  have smaller : x.depth < (GoValue.map xs).depth :=
    Nat.lt_succ_of_le (depth_le_depthEntries (mem_of_get? inXs))
  exact ⟨_, below smaller isFaithful isRegular xConverts yConverts,
    (sameForm_iff xConverts.itemForm yConverts.itemForm).symm⟩

/-! ### Structs -/

section Struct

variable {name : String} {fields : GoFields} (larger : ∀ capacity, capacity < grow capacity)
  (kept : pathsKept grow fields = true)

include larger kept

section

variable {values : List GoValue} (typed : hasTypeFields values fields = true)
  (readable : Readable grow encode (jsonFields fields) (.struct values))

include typed readable

private theorem field_of_readable {entry : FieldCacheEntry (List Nat)}
    (member : entry ∈ orderedStructFields grow fields) :
    ∃ own, getFrom entry.fieldPath ⟨.struct name fields, .struct values⟩ =
        .ok ⟨entry.fieldType, own⟩ ∧
      (entry.canOmit ⟨entry.fieldType, own⟩ = true ∧
          (fieldShown grow encode (entry.toFieldInfo, entry.fieldPath) (.struct values)).join =
            none ∨
        entry.canOmit ⟨entry.fieldType, own⟩ = false ∧
          ∃ form, Converts grow encode entry.fieldType own form ∧
            (fieldShown grow encode (entry.toFieldInfo, entry.fieldPath) (.struct values)).join =
              some form) := by
  have listed := (listed_of_cached larger kept (mem_orderedStructFields.mp member)).2
  obtain ⟨shown?, isShown⟩ := Option.isSome_iff_exists.mp (readable _ listed)
  obtain ⟨own, ownTyped, found, ownShown⟩ :=
    looked_of_shown (looked_of_mem_jsonFields listed name typed) isShown
  refine ⟨own, found, ?_⟩
  rw [isShown]
  cases shown? with
  | none => exact .inl ⟨shown_eq_some_none.mp ownShown, rfl⟩
  | some form =>
      obtain ⟨notOmitted, converts⟩ := shown_eq_some_some.mp ownShown
      exact .inr ⟨notOmitted, form, ⟨ownTyped, converts⟩, rfl⟩

private theorem mirrors_structReflect :
    Mirrors grow encode (.structReflect name fields values) (bindings grow encode fields values)
    where
  complete := by
    intro entry member
    obtain ⟨own, found, ⟨omitted, _⟩ | ⟨_, _, converts, _⟩⟩ :=
      field_of_readable larger kept typed readable member
    · exact ⟨_, found, .inl omitted⟩
    · exact ⟨_, found, .inr ⟨_, converts.form.1⟩⟩
  agree := by
    refine (agree_filterMap
      ((orderedStructFields_increasing grow fields).imp LT.lt.ne)).mpr fun entry member => ?_
    obtain ⟨own, found, ⟨omitted, isNone⟩ | ⟨notOmitted, form, converts, isForm⟩⟩ :=
      field_of_readable larger kept typed readable member
    · rw [shownField_eq found, omitted, isNone]
      exact .none
    · rw [shownField_eq found, notOmitted, isForm]
      exact .some converts.form.2

end

private theorem equalsUsing_structReflect (isFaithful : faithfulFields fields = true)
    (isRegular : regularFields grow fields = true) {xs ys : List GoValue}
    (below : ComparesForms grow encode (GoValue.struct xs).depth)
    (xsTyped : hasTypeFields xs fields = true) (ysTyped : hasTypeFields ys fields = true)
    (xsReadable : Readable grow encode (jsonFields fields) (.struct xs))
    (ysReadable : Readable grow encode (jsonFields fields) (.struct ys)) :
    (MapValue.structReflect name fields xs).equalsUsing grow (equalsUsing grow encode)
        (.structReflect name fields ys) =
      .ok (Value.map (bindings grow encode fields xs) == .map (bindings grow encode fields ys)) := by
  have left : Mirrors grow encode (.structReflect name fields xs) _ :=
    mirrors_structReflect larger kept xsTyped xsReadable
  have right : Mirrors grow encode (.structReflect name fields ys) _ :=
    mirrors_structReflect larger kept ysTyped ysReadable
  refine left.compares right (mapEqualsUsing_agree left.complete right.complete ?_)
  intro key l r isLeft isRight
  obtain ⟨entry, member, isEntry⟩ := List.mem_filterMap.mp (mem_of_get? isLeft)
  obtain ⟨_, isShown, same⟩ := Option.map_eq_some_iff.mp isEntry
  cases same
  rw [MapValue.entries, get?_filterMap_of_mem
    ((orderedStructFields_increasing grow fields).imp LT.lt.ne) member] at isRight
  obtain ⟨x, xFound, ⟨omitted, _⟩ | ⟨xKept, u, xConverts, _⟩⟩ :=
    field_of_readable larger kept xsTyped xsReadable member
  · rw [shownField_eq xFound, omitted] at isShown
    cases isShown
  obtain ⟨y, yFound, ⟨omitted, _⟩ | ⟨yKept, v, yConverts, _⟩⟩ :=
    field_of_readable larger kept ysTyped ysReadable member
  · rw [shownField_eq yFound, omitted] at isRight
    cases isRight
  rw [shownField_eq xFound, xKept] at isShown
  rw [shownField_eq yFound, yKept] at isRight
  cases isShown
  cases isRight
  have cached := mem_orderedStructFields.mp member
  have listed := (listed_of_cached larger kept cached).2
  obtain ⟨fieldFaithful, fieldRegular⟩ := faithful_of_listed isFaithful isRegular listed
  have smaller : x.depth < (GoValue.struct xs).depth :=
    depth_getFrom_lt (path_ne_nil larger (mem_of_get? cached)) xFound
  exact ⟨_, below smaller fieldFaithful fieldRegular xConverts yConverts,
    (sameForm_iff xConverts.itemForm yConverts.itemForm).symm⟩

end Struct

/-! ### Values of a faithful type -/

private theorem slice_of_view {r : ReflectValue} {items : ListValue}
    (isList : view encode (.reflected r) = .ok (.list items)) :
    ∃ elem xs, r = ⟨.slice elem, .slice xs⟩ ∧ elem ≠ .uint .bits8 ∧
      items = .listReflect elem xs := by
  unfold view at isList
  split at isList
  case h_8 => split at isList <;> cases isList
  case h_10 _ elem xs noBytes isSlice =>
    cases isSlice
    cases isList
    exact ⟨elem, xs, rfl, noBytes, rfl⟩
  all_goals cases isList
  all_goals contradiction

private theorem map_of_view {r : ReflectValue} {m : MapValue Number}
    (isMap : view encode (.reflected r) = .ok (.map m)) :
    (∃ elem entries, ∃ distinct : (entries.map Prod.fst).Nodup,
        r = ⟨.map elem, .map entries⟩ ∧ m = .mapReflect elem entries distinct) ∨
      ∃ name fields values, r = ⟨.struct name fields, .struct values⟩ ∧
        m = .structReflect name fields values := by
  unfold view at isMap
  split at isMap
  case h_7 _ name fields values isStruct =>
    cases isStruct
    cases isMap
    exact .inr ⟨name, fields, values, rfl, rfl⟩
  case h_8 _ elem entries isGoMap =>
    cases isGoMap
    split at isMap
    · cases isMap
      exact .inl ⟨elem, entries, _, rfl, rfl⟩
    · cases isMap
  all_goals cases isMap
  all_goals contradiction

theorem EntriesConvert.of_converts (larger : ∀ capacity, capacity < grow capacity)
    {entries : List (String × GoValue)}
    (converts : Converts grow encode (.map elem) (.map entries) u) :
    ∃ forms, u = .map forms ∧ EntriesConvert grow encode elem entries forms := by
  obtain ⟨typed, isForm⟩ := converts
  obtain ⟨forms, isMap, convert⟩ := (convert_map_iff larger).mp isForm
  have entriesTyped := hasTypeEntries_iff.mp (Bool.and_eq_true_iff.mp typed).2
  exact ⟨forms, isMap, forall₂_of_mem convert fun entry member _ _ both =>
    ⟨both.1, entriesTyped entry member, both.2⟩⟩

private theorem deepEqual_of_type (type : GoType) {x y : GoValue} :
    deepEqual ⟨type, x⟩ ⟨type, y⟩ = deepValueEqual x y := by
  rw [deepEqual, beq_self_eq_true, Bool.true_and]

section Faithful

variable (larger : ∀ capacity, capacity < grow capacity) (injective : Function.Injective encode)

include larger

private theorem equalsUsing_null {lhs rhs : ReflectValue} {u v : Value Number}
    (lhsTyped : lhs.value.hasType lhs.type = true) (rhsTyped : rhs.value.hasType rhs.type = true)
    (lhsForm : unstructured grow encode lhs = .ok u) (rhsForm : unstructured grow encode rhs = .ok v)
    (isNull : u = .null ∨ v = .null) :
    equalsUsing grow encode (.reflected lhs) (.reflected rhs) = .ok (u == v) := by
  obtain ⟨w, lhsView, lhsKind⟩ := viewOf_of_unstructured larger lhsTyped lhsForm
  obtain ⟨w', rhsView, rhsKind⟩ := viewOf_of_unstructured larger rhsTyped rhsForm
  refine equalsUsing_of_views larger lhsView rhsView lhsKind rhsKind ?_ ?_
  · intro items items' isList isList'
    subst isList isList'
    cases lhsKind
    cases rhsKind
    simp at isNull
  · intro m m' isMap isMap'
    subst isMap isMap'
    cases lhsKind
    cases rhsKind
    simp at isNull

include injective

private theorem equalsUsing_direct {type : GoType} {x y : GoValue} {u v : Value Number}
    (direct : type.pointable true = true) (isFaithful : faithful false type = true)
    (isRegular : regular grow type = true) (below : ComparesForms grow encode x.depth)
    (xConverts : Converts grow encode type x u) (yConverts : Converts grow encode type y v) :
    equalsUsing grow encode (.reflected ⟨type, x⟩) (.reflected ⟨type, y⟩) = .ok (u == v) := by
  have xForm := xConverts.form.2
  have yForm := yConverts.form.2
  rw [dereference_of_pointable direct] at xForm yForm
  obtain ⟨w, xView, xKind⟩ := viewOf_of_unstructured larger xConverts.1 xForm
  obtain ⟨w', yView, yKind⟩ := viewOf_of_unstructured larger yConverts.1 yForm
  refine equalsUsing_of_views larger xView yView xKind yKind ?_ ?_
  · intro items items' isList isList'
    subst isList isList'
    obtain ⟨elem, xs, isSlice, _, rfl⟩ := slice_of_view xView
    obtain ⟨_, ys, isSlice', _, rfl⟩ := slice_of_view yView
    cases isSlice
    cases isSlice'
    have agrees := (agrees_iff_faithful larger injective false (.slice elem) isRegular).mpr isFaithful
    have same : deepEqual ⟨.slice elem, .slice xs⟩ ⟨.slice elem, .slice ys⟩ = (u == v) := by
      rw [Bool.eq_iff_iff, deepEqual_of_type, agrees.tells xConverts yConverts]
    exact congrArg Except.ok same
  · intro m m' isMap isMap'
    subst isMap isMap'
    rcases map_of_view xView with
      ⟨elem, xs, distinct, isGoMap, rfl⟩ | ⟨name, fields, xs, isStruct, rfl⟩
    · cases isGoMap
      rcases map_of_view yView with ⟨_, ys, distinct', isGoMap', rfl⟩ | ⟨_, _, _, isStruct, _⟩
      · cases isGoMap'
        obtain ⟨us, rfl, xsConvert⟩ := EntriesConvert.of_converts larger xConverts
        obtain ⟨vs, rfl, ysConvert⟩ := EntriesConvert.of_converts larger yConverts
        have elemFaithful : faithful false elem = true := isFaithful
        have elemRegular : regular grow elem = true := isRegular
        exact equalsUsing_mapReflect elemFaithful elemRegular below xsConvert ysConvert
      · cases isStruct
    · cases isStruct
      rcases map_of_view yView with ⟨_, _, _, isGoMap, _⟩ | ⟨_, _, ys, isStruct', rfl⟩
      · cases isGoMap
      · cases isStruct'
        rw [regular, Bool.and_eq_true, Bool.and_eq_true, decide_eq_true_eq] at isRegular
        obtain ⟨⟨distinct, kept⟩, fieldsRegular⟩ := isRegular
        have xsTyped : hasTypeFields xs fields = true := xConverts.1
        have ysTyped : hasTypeFields ys fields = true := yConverts.1
        have xsReadable := (readable_iff_converts larger distinct kept xsTyped).mpr ⟨u, xForm⟩
        have ysReadable := (readable_iff_converts larger distinct kept ysTyped).mpr ⟨v, yForm⟩
        cases (unstructured_struct larger kept xsTyped xsReadable).symm.trans xForm
        cases (unstructured_struct larger kept ysTyped ysReadable).symm.trans yForm
        exact equalsUsing_structReflect larger kept isFaithful fieldsRegular below xsTyped ysTyped
          xsReadable ysReadable

section

omit larger injective

private theorem faithful_false {omitEmpty : Bool} {type : GoType}
    (direct : type.pointable true = true) (isFaithful : faithful omitEmpty type = true) :
    faithful false type = true := by
  cases type with
  | pointer _ | interface => cases direct
  | slice _ | map _ => cases omitEmpty with
      | false => exact isFaithful
      | true => cases isFaithful
  | uint width => cases width <;> exact isFaithful
  | _ => exact isFaithful

private theorem Converts.of_pointer (direct : elem.pointable true = true) {value : GoValue}
    (converts : Converts grow encode (.pointer elem) (.pointer value) u) :
    Converts grow encode elem value u := by
  have isShown : shown grow encode false elem value = some (some u) :=
    (shown_pointer direct false value).symm.trans (shown_eq_some_some.mpr ⟨rfl, converts.2⟩)
  exact ⟨converts.1, (shown_eq_some_some.mp isShown).2⟩

private theorem nil_or_pointer {value : GoValue} (typed : value.hasType (.pointer elem) = true) :
    value = .nil ∨ ∃ target, value = .pointer target := by
  cases value with
  | nil => exact .inl rfl
  | pointer target => exact .inr ⟨target, rfl⟩
  | _ => cases typed

private theorem eq_null_of_nil (converts : Converts grow encode (.pointer elem) .nil u)
    : u = .null :=
  Except.ok.inj (converts.2.symm.trans (shown_eq_some_some.mp (shown_nil_pointer false elem)).2)

end

/-- On values of a faithful type, `EqualsUsing` compares the unstructured forms. -/
theorem comparesForms (bound : Nat) : ComparesForms grow encode bound := by
  induction bound with
  | zero => exact fun smaller => absurd smaller (Nat.not_lt_zero _)
  | succ bound ih =>
      intro x y omitEmpty type u v smaller isFaithful isRegular xConverts yConverts
      have below {value : GoValue} (within : value.depth ≤ x.depth) :
          ComparesForms grow encode value.depth :=
        fun deeper => ih (by omega)
      by_cases direct : type.pointable true = true
      · rw [dereference_of_pointable direct, dereference_of_pointable direct]
        exact equalsUsing_direct larger injective direct (faithful_false direct isFaithful) isRegular
          (below (Nat.le_refl _)) xConverts yConverts
      cases type with
      | interface => cases isFaithful
      | pointer elem =>
          rw [faithful, Bool.and_eq_true] at isFaithful
          have elemDirect := pointable_true isFaithful.1
          rcases nil_or_pointer xConverts.1 with rfl | ⟨a, rfl⟩
          · exact equalsUsing_null larger (hasType_dereference xConverts.1)
              (hasType_dereference yConverts.1) xConverts.form.2 yConverts.form.2
              (.inl (eq_null_of_nil xConverts))
          rcases nil_or_pointer yConverts.1 with rfl | ⟨b, rfl⟩
          · exact equalsUsing_null larger (hasType_dereference xConverts.1)
              (hasType_dereference yConverts.1) xConverts.form.2 yConverts.form.2
              (.inr (eq_null_of_nil yConverts))
          · exact equalsUsing_direct larger injective elemDirect isFaithful.2 isRegular
              (below (Nat.le_succ _)) (xConverts.of_pointer elemDirect)
              (yConverts.of_pointer elemDirect)
      | _ => exact absurd rfl direct

/-! ## Slices -/

section

variable {xs ys : List GoValue} {us vs : List (Value Number)}
  (isFaithful : faithful false elem = true) (isRegular : regular grow elem = true)
  (xsConvert : List.Forall₂ (Converts grow encode elem) xs us)
  (ysConvert : List.Forall₂ (Converts grow encode elem) ys vs)

include isFaithful isRegular xsConvert ysConvert

private theorem loop_items (sameLength : xs.length = ys.length) :
    visitWhile (fun (pair : Except Panic (Item Number) × Except Panic (Item Number)) _ => do
        let lv ← pair.1
        let rv ← pair.2
        return ((), ← equalsUsing grow encode lv rv))
      ((ListValue.listReflect elem xs).range.zip (ListValue.listReflect elem ys).range) () =
        .ok ((), Value.list us == .list vs) := by
  induction xsConvert generalizing ys vs with
  | nil =>
      cases ysConvert with
      | nil =>
          rw [beq_refl]
          rfl
      | cons _ _ => cases sameLength
  | @cons x u xs us xConverts xsConvert ih =>
      cases ysConvert with
      | nil => cases sameLength
      | @cons y v ys vs yConverts ysConvert =>
          have later := ih ysConvert (Nat.succ.inj sameLength)
          have here := comparesForms larger injective _ (Nat.lt_succ_self _) isFaithful isRegular
            xConverts yConverts
          have split : (Value.list (u :: us) == .list (v :: vs)) =
              ((u == v) && (Value.list us == .list vs)) := by
            rw [Bool.eq_iff_iff, Bool.and_eq_true, beq_list, beq_list,
              List.forall₂_cons]
          rw [split]
          simp only [ListValue.range, List.map_cons, List.zip_cons_cons, visitWhile,
            xConverts.form.1, yConverts.form.1, Except.map, bind, Except.bind, here, pure,
            Except.pure]
          cases u == v with
          | false => rfl
          | true => exact later

private theorem listEqualsUsing_of_faithful :
    listEqualsUsing (equalsUsing grow encode) (.listReflect elem xs) (.listReflect elem ys) =
      .ok (Value.list us == .list vs) := by
  unfold listEqualsUsing
  by_cases sameLength : xs.length = ys.length
  · refine (if_neg (not_not_intro sameLength)).trans ?_
    rw [loop_items larger injective isFaithful isRegular xsConvert ysConvert sameLength]
    rfl
  · have differ : (Value.list us == .list vs) = false := by
      rw [Bool.eq_false_iff, ne_eq, beq_list]
      intro same
      exact sameLength (xsConvert.length_eq.trans (same.length_eq.trans ysConvert.length_eq.symm))
    rw [differ]
    exact if_pos sameLength

end

variable (grow encode) in
omit larger injective in
/-- `EqualsUsing` of any two slices of the types, and the loop over their items, tell
whether the unstructured forms are equal. -/
def ListEqualityAgrees (lhsElem rhsElem : GoType) : Prop :=
  ∀ xs ys, hasTypeItems xs lhsElem = true → hasTypeItems ys rhsElem = true →
    ∃ u v, unstructured grow encode ⟨.slice lhsElem, .slice xs⟩ = .ok u ∧
      unstructured grow encode ⟨.slice rhsElem, .slice ys⟩ = .ok v ∧
      (ListValue.listReflect lhsElem xs).equalsUsing (equalsUsing grow encode)
        (.listReflect rhsElem ys) = .ok (u == v) ∧
      listEqualsUsing (equalsUsing grow encode) (.listReflect lhsElem xs)
        (.listReflect rhsElem ys) = .ok (u == v)

end Faithful

/-- A struct with an optional pointer, and one with an optional list. -/
def optionalCount : GoType :=
  .struct "Item" (.cons "Name" "name" .string
    (.cons "Count" "count,omitempty" (.pointer (.int .bits64)) .nil))

def optionalList : GoType :=
  .struct "Item" (.cons "Items" "items,omitempty" (.slice .string) .nil)

/-- Some encoding that tells all bytes apart. -/
def unary (bytes : List Nat) : String :=
  String.ofList (List.replicate (Encodable.encode bytes) 'a')

end StructuredMergeDiff.Reflect
