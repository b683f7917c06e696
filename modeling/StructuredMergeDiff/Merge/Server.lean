import StructuredMergeDiff.Merge.Ignored
import StructuredMergeDiff.Merge.Realised

/-!
Contract: a server that keeps the live object and its managers, from nothing on.

After updates alone, the paths of the live object are exactly the owned ones. An applier
whose item is emptied can own a path that is not there.

Owns: `Server`, and what is owned after a run of updates.
Does not own: what is owned after an application.
-/

namespace StructuredMergeDiff.Merge

open Library Typed Updater

variable {N E : Type} [Numeric N]

/-- The live object and its managers. -/
structure Server (N : Type) where
  live : TypedValue N
  managers : ManagedFields N

/-- The state after a call; one that fails leaves it as it was. -/
def Updater.handle (u : Updater N E) (state : Server N) (call : Call N) : Server N :=
  match u.perform state.managers { call with liveObject := state.live } with
  | .ok (object, managers) => ⟨object.getD state.live, managers⟩
  | .error _ => state

/-- The path is that of something in the live object exactly if somebody owns it. -/
def Server.Accounts (state : Server N) : Prop :=
  (∀ manager entry, state.managers.get? manager = some entry →
    ∃ path, entry.set.has path = true) ∧
  ∀ path, state.live.HasPath path ↔ ∃ manager, Owns state.managers manager path

/-- An update of the live object, by an accepted object of its type. No set of a manager has
to be reconciled. -/
structure Updates (u : Updater N E) (version : APIVersion) (state : Server N) (call : Call N) :
    Prop where
  operation : call.operation = .update
  isVersion : call.version = version
  same : SameType state.live call.object
  sound : SoundObject false call.object
  fits : ∀ manager entry, state.managers.get? manager = some entry →
    u.Reconciled state.live entry = true

/-- What holds after every update. -/
structure Server.Tracked (version : APIVersion) (state : Server N) : Prop where
  sound : SoundObject false state.live
  wellFormed : WellFormed state.managers
  oneVersion : ∀ manager entry, state.managers.get? manager = some entry →
    entry.apiVersion = version
  accounts : state.Accounts

variable [Consistent N] {u : Updater N E} {version : APIVersion}

omit [Consistent N] in
private theorem ignores_nothing (notIgnored : u.ignoredFields = []) :
    u.IgnoresWellFormed ∧ ∀ version path, ¬ u.Ignored version path := by
  simp [IgnoresWellFormed, Ignored, CoveredBy, notIgnored]

private theorem entries_performUpdate (identity : u.converter = .identity)
    (notIgnored : u.ignoredFields = []) {orders : Orders} {live new object : TypedValue N}
    {managers result : ManagedFields N} {manager : String} {c : Comparison N}
    (wellFormed : WellFormed managers)
    (oneVersion : ∀ name entry, managers.get? name = some entry → entry.apiVersion = version)
    (fits : ∀ name entry, managers.get? name = some entry → u.Reconciled live entry = true)
    (compared : live.compare new = .ok c)
    (ok : u.performUpdate orders live new version managers manager = .ok (object, result)) :
    object = new ∧ ∀ name, ∃ applied, EntryIs result name version applied
      fun path => if name = manager then Owns managers name path ∧ c.removed.has path = false ∨
          c.modified.has path = true ∨ c.added.has path = true
        else Owns managers name path ∧ ¬ c.Changes path := by
  obtain ⟨reconciled, remaining, found, isReconciled, updated, rfl, rfl⟩ :=
    performUpdate_eq_ok.mp ok
  obtain ⟨others, unchanged, distinct, same⟩ := reconcile_unchanged u orders live
    wellFormed.distinct fits
  cases isReconciled.symm.trans unchanged
  obtain ⟨raw, _, isRaw, excluded, _⟩ := update_eq_ok.mp updated
  cases isRaw.symm.trans compared
  have wellFormedReconciled : WellFormed reconciled :=
    ⟨distinct, fun other entry held => wellFormed.canonical other entry (same other ▸ held)⟩
  obtain ⟨ignores, nothing⟩ := ignores_nothing notIgnored
  have convertible : ∀ object, u.Convertible reconciled object := by
    intro object name entry held
    exact ⟨object, by rw [identity]; rfl⟩
  refine ⟨rfl, fun name => ?_⟩
  by_cases isOwn : name = manager
  · subst isOwn
    have own := entryIs_own wellFormedReconciled ignores isRaw excluded updated
    simp only [nothing, ownedSet_has_iff, Owns, same, not_false_eq_true, and_true] at own
    exact ⟨false, by simpa [Owns] using own⟩
  · simp only [isOwn, if_false]
    unfold EntryIs
    rw [get?_recordUpdate_of_ne isOwn]
    cases held : managers.get? name with
    | none =>
        obtain ⟨_, _, entries⟩ := update_spec distinct updated
        rw [entries, same, held]
        exact ⟨false, Or.inl ⟨rfl, by simp [Owns, held]⟩⟩
    | some entry =>
        obtain ⟨otherRaw, isOther, isEntry⟩ := entryIs_afterUpdate wellFormedReconciled
          ignores (convertible live) (convertible object) isRaw excluded updated
          ((same name).trans held) isOwn
        cases ComparesTo_unique isOther (Or.inl ⟨oneVersion name entry held, isRaw⟩)
        rw [oneVersion name entry held] at isEntry
        simp only [nothing, not_false_eq_true, and_true] at isEntry
        exact ⟨entry.applied, by simpa [EntryIs, Owns, held] using isEntry⟩

private theorem Server.Tracked.update {state : Server N} {call : Call N}
    (identity : u.converter = .identity) (notIgnored : u.ignoredFields = [])
    (tracked : state.Tracked version) (updates : Updates u version state call) :
    (u.handle state call).Tracked version := by
  have ⟨isUpdate, isVersion, same, soundNew, fits⟩ := updates
  obtain ⟨c, compared, -⟩ := compare_of_sound same tracked.sound soundNew
  have difference := isDifference_of_compare same tracked.sound soundNew compared
  obtain ⟨ignores, nothing⟩ := ignores_nothing notIgnored
  have clean : u.Clean (u.serve state.managers { call with liveObject := state.live }) :=
    clean_serve ⟨tracked.wellFormed, fun _ entry path _ _ => nothing _ path⟩ ignores _
  unfold serve at clean
  unfold handle
  cases performed : u.perform state.managers { call with liveObject := state.live } with
  | error failure => exact tracked
  | ok out =>
      rw [performed] at clean
      rw [perform, isUpdate] at performed
      obtain ⟨⟨object, result⟩, ok, finished⟩ := bind_eq_ok.mp performed
      cases finished
      rw [isVersion] at ok
      obtain ⟨rfl, entries⟩ := entries_performUpdate identity notIgnored tracked.wellFormed
        tracked.oneVersion fits compared ok
      have entryOf : ∀ {name entry}, result.get? name = some entry →
          entry.apiVersion = version ∧ ∃ path, entry.set.has path = true := by
        intro name entry held
        obtain ⟨applied, ⟨absent, -⟩ | ⟨s, isEntry, -, ⟨path, owned⟩, has⟩⟩ := entries name
        · rw [held] at absent
          cases absent
        · cases held.symm.trans isEntry
          exact ⟨rfl, path, (has path).mpr owned⟩
      refine ⟨soundNew, clean.wellFormed, fun name entry held => (entryOf held).1,
        fun name entry held => (entryOf held).2, fun path => ?_⟩
      have owns := fun name => (entries name).choose_spec.owns_iff path
      constructor
      · intro inNew
        by_cases changed : c.modified.has path = true ∨ c.added.has path = true
        · exact ⟨call.manager, (owns _).mpr (by simp [changed])⟩
        · have inOld : state.live.HasPath path := by
            by_contra notOld
            exact changed (Or.inr ((difference.added path).mpr ⟨inNew, notOld⟩))
          have stays : c.removed.has path = false := by
            rw [Bool.eq_false_iff]
            exact fun gone => ((difference.removed path).mp gone).2 inNew
          obtain ⟨name, owned⟩ := (tracked.accounts.2 path).mp inOld
          refine ⟨name, (owns name).mpr ?_⟩
          obtain ⟨notModified, notAdded⟩ := not_or.mp changed
          simp [owned, stays, Comparison.Changes, notModified, notAdded]
      · rintro ⟨name, owned⟩
        by_contra notNew
        have gone : ∀ {other}, Owns state.managers other path → c.removed.has path = true :=
          fun was => (difference.removed path).mpr
            ⟨(tracked.accounts.2 path).mpr ⟨_, was⟩, notNew⟩
        have notModified : c.modified.has path ≠ true :=
          fun modified => notNew (difference.modified path modified).2
        have notAdded : c.added.has path ≠ true :=
          fun added => notNew ((difference.added path).mp added).1
        have kept := (owns name).mp owned
        split at kept
        · rcases kept with ⟨was, stays⟩ | changed
          · simp [gone was] at stays
          · simp [notModified, notAdded] at changed
        · exact kept.2 (Or.inr (Or.inr (gone kept.1)))

end StructuredMergeDiff.Merge
