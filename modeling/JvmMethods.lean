import JvmMethods.Logged
import JvmMethods.Tracked
import JvmMethods.Name
import JvmMethods.Error
import JvmMethods.Interval
import JvmMethods.Bytes
import JvmMethods.FieldType.Basic
import JvmMethods.FieldType.Signature
import JvmMethods.TypeParameter
import JvmMethods.Signature.Basic
import JvmMethods.Signature.Fault
import JvmMethods.Signature.Scope
import JvmMethods.Signature.Parser
import JvmMethods.Attribute.ExceptionHandler
import JvmMethods.Attribute.Code
import JvmMethods.Attribute.Basic
import JvmMethods.Attribute.Policy
import JvmMethods.Attribute.ConstantPool
import JvmMethods.Attribute.Decoder
import JvmMethods.Attribute.LineTable
import JvmMethods.Method.AccessFlags
import JvmMethods.Method.Reference
import JvmMethods.Method.Definition
import JvmMethods.ClassGraph.Basic
import JvmMethods.ClassGraph.Lookup
import JvmMethods.ClassGraph.StandardLibrary
import JvmMethods.Traversal.FrameValue
import JvmMethods.Traversal.Visitor
import JvmMethods.Proofs.Attribute.Reading
import JvmMethods.Proofs.Attribute.Layout
import JvmMethods.Proofs.Attribute.Format
import JvmMethods.Proofs.Attribute.RoundTrip
import JvmMethods.Proofs.Interval.Canonical
import JvmMethods.Proofs.Interval.Complement
import JvmMethods.Proofs.Interval.Gaps
import JvmMethods.Proofs.Code.Regions
import JvmMethods.Proofs.Signature.Variables
import JvmMethods.Proofs.Signature.WellFormed
import JvmMethods.Proofs.Signature.Soundness
import JvmMethods.Proofs.Signature.Rendering
import JvmMethods.Proofs.Signature.Settling
import JvmMethods.Proofs.Signature.Erasure
import JvmMethods.Proofs.Name.Delimiters
import JvmMethods.Proofs.Name.Segments
import JvmMethods.Proofs.Signature.Resolution
import JvmMethods.Proofs.Signature.Completeness
import JvmMethods.Proofs.Signature.Recovery
import JvmMethods.Proofs.ClassGraph.Growth
import JvmMethods.Proofs.ClassGraph.Invariant
import JvmMethods.Proofs.ClassGraph.Search
import JvmMethods.Proofs.ClassGraph.Inheritance
import JvmMethods.Proofs.ClassGraph.Permanence
import JvmMethods.Proofs.Attribute.Window
import JvmMethods.Proofs.Code.Crossings
import JvmMethods.Proofs.Method.Assembly
import JvmMethods.Proofs.Traversal.Callbacks
import JvmMethods.Proofs.Signature.ErasedForm
import JvmMethods.Proofs.ClassGraph.Preservation
import JvmMethods.Proofs.ClassGraph.LibraryGrowth
import JvmMethods.Proofs.ClassGraph.History
import JvmMethods.Proofs.ClassGraph.Consistency
import JvmMethods.Proofs.ClassGraph.CallSite
import JvmMethods.Proofs.ClassGraph.Stability
import JvmMethods.Proofs.Attribute.Restriction
import JvmMethods.Proofs.Attribute.Strictness
import JvmMethods.Proofs.Attribute.Resynchronisation
import JvmMethods.Proofs.Attribute.Validation
import JvmMethods.Proofs.Attribute.Lines
import JvmMethods.Proofs.Signature.Classes
import JvmMethods.Proofs.Signature.Decodability
import JvmMethods.Proofs.Signature.Names
import JvmMethods.Proofs.Method.DispatchKey
import JvmMethods.Proofs.ClassGraph.LibraryIdempotence
import JvmMethods.Proofs.Signature.ClassConstant
import JvmMethods.Proofs.Method.Contributions
