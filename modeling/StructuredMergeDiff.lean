import StructuredMergeDiff.FieldPath.Declared
import StructuredMergeDiff.Merge.Update
import StructuredMergeDiff.Typed.Interleaving
import StructuredMergeDiff.Typed.Unfolding
import StructuredMergeDiff.Merge.Termination
import StructuredMergeDiff.Merge.UpdateSpec
import StructuredMergeDiff.Merge.Ownership
import StructuredMergeDiff.Typed.ReconcileSpec
import StructuredMergeDiff.Merge.Conflicts
import StructuredMergeDiff.Library.Runs
import StructuredMergeDiff.Merge.Ignored
import StructuredMergeDiff.Typed.Node
import StructuredMergeDiff.FieldPath.Extensional
import StructuredMergeDiff.Typed.CompareSpec
import StructuredMergeDiff.Typed.Difference
import StructuredMergeDiff.Typed.Equivalence
import StructuredMergeDiff.Typed.Names
import StructuredMergeDiff.Library.Pairing
import StructuredMergeDiff.Typed.MergeLevel
import StructuredMergeDiff.Typed.MergeSpec
import StructuredMergeDiff.Typed.MergeSafety
import StructuredMergeDiff.Typed.MergeBounds
import StructuredMergeDiff.Typed.Recorded
import StructuredMergeDiff.Typed.OwnershipViews
import StructuredMergeDiff.Typed.Extraction
import StructuredMergeDiff.Typed.Reversible
import StructuredMergeDiff.Typed.Duplicates
import StructuredMergeDiff.Merge.Versions
import StructuredMergeDiff.Typed.Removal
import StructuredMergeDiff.Typed.Protected
import StructuredMergeDiff.Merge.Prune
import StructuredMergeDiff.Merge.Realised
import StructuredMergeDiff.FieldPath.OrderLaws
import StructuredMergeDiff.Typed.Idempotence
import StructuredMergeDiff.Typed.Rebuilt
import StructuredMergeDiff.Typed.MergeErrors
import StructuredMergeDiff.Typed.Absence
import StructuredMergeDiff.Merge.PruneExact
import StructuredMergeDiff.FieldPath.Serialize
import StructuredMergeDiff.Library.Insertion
import StructuredMergeDiff.FieldPath.SerializeSpec
import StructuredMergeDiff.FieldPath.Decoded
import StructuredMergeDiff.Value.Conversion
import StructuredMergeDiff.FieldPath.Rounding
import StructuredMergeDiff.Merge.Deletion
import StructuredMergeDiff.Merge.MapOrder
import StructuredMergeDiff.Schema.EqualsSpec
import StructuredMergeDiff.FieldPath.Reading
import StructuredMergeDiff.Typed.ReconcileExact
import StructuredMergeDiff.Library.SharedAppend
import StructuredMergeDiff.Value.Reflect.Cache
import StructuredMergeDiff.Library.EarlyExit
import StructuredMergeDiff.Value.Reflect.MapView
import StructuredMergeDiff.Value.Reflect.Zip
import StructuredMergeDiff.Value.Reflect.Unstructured
import StructuredMergeDiff.Value.Reflect.Reads
import StructuredMergeDiff.Value.Reflect.Place
import StructuredMergeDiff.Value.Reflect.Update
import StructuredMergeDiff.Value.Reflect.Equality
import StructuredMergeDiff.Value.Reflect.Faithful
import StructuredMergeDiff.FieldPath.Containers
import StructuredMergeDiff.FieldPath.NamedFields
import StructuredMergeDiff.Value.Reflect.ListEquality
import StructuredMergeDiff.Value.MixedKeys
import StructuredMergeDiff.Merge.Server
import StructuredMergeDiff.Merge.Again
import StructuredMergeDiff.Schema.ResolvedTypes
import StructuredMergeDiff.Value.Allocator
