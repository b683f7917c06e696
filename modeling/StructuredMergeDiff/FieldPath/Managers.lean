import StructuredMergeDiff.FieldPath.Set
import StructuredMergeDiff.Library.FiniteMap

/-!
Contract: who owns which fields, at which version.

Owns: `VersionedSet` and `ManagedFields`.
-/

namespace StructuredMergeDiff

open Library

abbrev APIVersion := String

/-- `versionedSet`: the fields a manager owns, in terms of one version. -/
structure VersionedSet (N : Type) where
  set : FieldSet N
  apiVersion : APIVersion
  applied : Bool

/-- `ManagedFields`: from manager to what it owns. -/
abbrev ManagedFields (N : Type) := FiniteMap String (VersionedSet N)

end StructuredMergeDiff
