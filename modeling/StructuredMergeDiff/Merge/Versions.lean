import StructuredMergeDiff.Merge.Ownership
import StructuredMergeDiff.Typed.Duplicates

/-!
Contract: the version in which `Update` records the updating manager.

The set of the manager before the call is taken over as it is, and labelled with
the version of the call. Paths that a manager recorded in another version name
fields of that version.

Owns: when all paths that the manager holds after an update are paths of the new
object.
-/

namespace StructuredMergeDiff

open Library Typed

variable {N E : Type} [Numeric N]

/-- The path leads beneath several items of one name. -/
def Typed.TypedValue.UnderDuplicates (tv : TypedValue N) (path : Path N) : Prop :=
  BeneathDuplicates tv.schema.val tv.typeRef tv.value path

namespace Merge

/-! ## The condition -/

/-- What the manager held names fields of the new object, or fields of the live one
whose removal is noticed. -/
def Accounted (u : Updater N E) (liveObject newObject : TypedValue N) (version : APIVersion)
    (managers : ManagedFields N) (manager : String) : Prop :=
  ∀ managerSet kept path, managers.get? manager = some managerSet →
    u.reconciledEntry liveObject managerSet = some kept → kept.set.has path = true →
    ¬ u.Ignored version path →
      newObject.HasPath path ∨ liveObject.HasPath path ∧ ¬ liveObject.UnderDuplicates path

/-- Every path of the manager's entry is a path of the object, in the version that
labels the entry. -/
def Resolves (managers : ManagedFields N) (manager : String) (version : APIVersion)
    (object : TypedValue N) : Prop :=
  ∀ managerSet, managers.get? manager = some managerSet →
    managerSet.apiVersion = version ∧ ∀ path, managerSet.set.has path = true → object.HasPath path

theorem resolves_iff {managers : ManagedFields N} {manager : String} {version : APIVersion}
    {applied : Bool} {owned : Path N → Prop} {object : TypedValue N}
    (entry : EntryIs managers manager version applied owned) :
    Resolves managers manager version object ↔ ∀ path, owned path → object.HasPath path := by
  rcases entry with ⟨absent, nothing⟩ | ⟨s, held, _, _, has⟩
  · exact iff_of_true (by simp [Resolves, absent]) fun path isOwned => absurd isOwned (nothing path)
  · simp [Resolves, held, has]

/-! ## The recorded paths -/

/-- The field that has another name in every version. -/
def versionedField (version : APIVersion) : String :=
  "name_" ++ version

/-- Objects of a version, with this field and one that all versions share. -/
def versionedObject (version : APIVersion) (bindings : List (String × Value Int)) :
    TypedValue Int :=
  { value := some (.map bindings)
    typeRef := .inline (.ofMap (.struct [(versionedField version, .inline (.ofScalar .numeric)),
      ("shared", .inline (.ofScalar .numeric))]))
    schema := ⟨0, ⟨[]⟩⟩ }

/-- The converter that renames the field. -/
def renamingConverter : Converter Int Unit where
  convert := fun object version =>
    (object.map fun tv => versionedObject version ((tv.value.map Value.entries).getD [] |>.map
      fun entry => (if entry.1 = "shared" then entry.1 else versionedField version, entry.2)), none)
  isMissingVersionError := fun _ => false

end Merge

end StructuredMergeDiff
