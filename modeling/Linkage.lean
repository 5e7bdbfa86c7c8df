import Linkage.Text.Utf8
import Linkage.Decimal.Shortest
import Linkage.Descriptor
import Linkage.ClassFile.Encoding
import Linkage.MemberRegistry
import Linkage.StringPool
import Linkage.Class.Table
import Linkage.Object
import Linkage.LinkError
import Linkage.Machine.Store
import Linkage.CoreClasses
import Linkage.Lookup
import Linkage.MemberName.Enumeration
import Linkage.Main
import Linkage.Proofs.Actions
import Linkage.Proofs.Changes
import Linkage.Proofs.Search
import Linkage.Proofs.Linking
import Linkage.Proofs.Composition
import Linkage.Proofs.Runs
import Linkage.Proofs.Layout
import Linkage.Proofs.Flags
import Linkage.Proofs.RepackedFlags
import Linkage.Proofs.MemberNames
import Linkage.Proofs.Hierarchy
import Linkage.Proofs.Startup
import Linkage.Proofs.ClassTables
import Linkage.Proofs.Declared
import Linkage.Proofs.Relocation
import Linkage.Proofs.Agreement
import Linkage.Proofs.HeapRuns
import Linkage.Proofs.PointerRuns
import Linkage.Proofs.RoundTrip
import Linkage.Proofs.Dispatch
import Linkage.Proofs.Mentions
import Linkage.Proofs.LoadingEnds
import Linkage.Proofs.LoadingCycles
import Linkage.Proofs.FieldOffsets
import Linkage.Proofs.Speculation
import Linkage.Proofs.Descriptors
import Linkage.Proofs.Interning
import Linkage.Proofs.LoadedNames
import Linkage.Proofs.Signatures
import Linkage.Proofs.Framing
import Linkage.Proofs.Memos
import Linkage.Proofs.ConstantCycles
import Linkage.Proofs.ArgumentCopies
import Linkage.Proofs.Answers
import Linkage.Proofs.Remembering
import Linkage.Proofs.ResolvedOnce
import Linkage.Proofs.Accessibility
import Linkage.Proofs.DeniedFields
import Linkage.Proofs.ConstantOrigins
import Linkage.Proofs.MethodHandles
import Linkage.Proofs.Returning
import Linkage.Proofs.ResolutionEnds
import Linkage.Proofs.StuckConstants
import Linkage.Proofs.PoolIndices
import Linkage.Proofs.FileBytes
import Linkage.Proofs.FailedResolutions
import Linkage.Proofs.FileExtents
import Linkage.Proofs.DescriptorGrammar
import Linkage.Proofs.SpecificMethods
import Linkage.Proofs.ClassOrigins
import Linkage.Proofs.DispatchIndices
import Linkage.Proofs.Enumerations
import Linkage.Proofs.ReadBack
import Linkage.Proofs.FieldSearches
import Linkage.Proofs.BootstrapTables
import Linkage.Proofs.Reloading
import Linkage.Proofs.Expansion
import Linkage.Proofs.Identities
import Linkage.Proofs.AnnotationTrees
import Linkage.Proofs.StableInterning
import Linkage.Proofs.ObjectGraphs
import Linkage.Proofs.UntangledObjects
import Linkage.Proofs.SealedActions
import Linkage.Proofs.SealedConstants
import Linkage.Proofs.CarefulRuns
