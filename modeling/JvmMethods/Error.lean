import JvmMethods.FieldType.Basic
import JvmMethods.Signature.Fault

/-!
# Errors

An error is kept as its cause.  Every cause belongs to one of nine kinds, and its message is the
wording of the kind around the details of the cause.

Main results:

- Definitions {lit}`Error.kind` and {lit}`Error.message`: the kind and the message of a cause.
- Theorem {lit}`Error.kind_eq_outOfBounds_iff`: only a failed copy is out of bounds.
-/

namespace JvmMethods

/-- What sort of failure an error is. -/
inductive ErrorKind where
  /-- An argument does not meet a precondition. -/
  | invalidArgument
  /-- A copy would read past the end of its source. -/
  | outOfBounds
  /-- A reference has nothing to be resolved against. -/
  | notResolvable
  /-- The class is unknown. -/
  | missingClass
  /-- The class is known, but has no such member. -/
  | missingMember
  /-- The inputs contradict one another. -/
  | invariantViolation
  /-- A descriptor or a signature cannot be read. -/
  | malformedSignature
  /-- An attribute disagrees with its declared length. -/
  | malformedAttribute
  /-- The bytes end before a number does. -/
  | failedRead
deriving DecidableEq, Repr

namespace ErrorKind

/-- The words that a message of this kind opens with. -/
def opening : ErrorKind → String
  | .invalidArgument => "invalid argument: "
  | .notResolvable => "cannot resolve "
  | .missingClass => "missing class "
  | .missingMember => "missing member "
  | .invariantViolation => "invariant violated: "
  | .malformedSignature => "malformed signature: "
  | .malformedAttribute => "malformed attribute: "
  | .outOfBounds => ""
  | .failedRead => ""

/-- The wording of a kind around some details. -/
def describe (kind : ErrorKind) (details : String) : String :=
  kind.opening ++ details

/-- Does an error of this kind stem from another error?  Only a failed read does. -/
def hasSource (kind : ErrorKind) : Bool :=
  kind = .failedRead

end ErrorKind

/-- The largest offset into a buffer. -/
def maxOffset : Nat :=
  18446744073709551615

/-- Why an operation failed. -/
inductive Error where
  | invalidName (fault : NameFault)
  | emptyUniverse (size : Int)
  | offsetTooLarge (offset : Nat)
  | codeTooLong (length : Nat)
  | handlerOutsideCode (start stop handler length : Nat)
  | missingExceptionType (index : Nat)
  | notUtf8 (index : Nat)
  | notClass (index : Nat)
  | duplicateCode (method : UnqualifiedName)
  | codeNotAllowed (isNative : Bool) (method : String)
  | foreignMethod (method : String) (owner : BinaryName)
  | outOfBounds (offset length available : Nat)
  | noDeclaringType (method : String)
  | primitiveDeclaringType (method : String) (type : BaseType)
  | missingClass (name : BinaryName)
  | missingMember (owner : BinaryName) (name : UnqualifiedName) (erasedSignature : String)
  | beyondUniverse (start stop size : Int)
  | beyondEmptyCode (start stop : Int)
  | malformedSignature (source : String) (fault : SignatureFault)
  | genericDescriptor (source : String)
  | invalidClassConstant (fault : NameFault)
  | codeOverLimit (length limit : Nat)
  | lengthMismatch (name : String) (start size span : Nat)
  | truncated
deriving DecidableEq

namespace Error

/-- How an attribute at {lit}`start` that declares {lit}`size` bytes disagrees with contents that
take up {lit}`span`. -/
def mismatch (name : String) (start size span : Nat) : String :=
  name ++ s!" attribute at {start} declares {size} bytes but its contents span {span}"

/-- The kind that a cause belongs to. -/
def kind : Error → ErrorKind
  | .invalidName _ | .emptyUniverse _ | .offsetTooLarge _ | .codeTooLong _
  | .handlerOutsideCode _ _ _ _ | .missingExceptionType _ | .notUtf8 _ | .notClass _
  | .duplicateCode _ | .codeNotAllowed _ _ | .foreignMethod _ _ => .invalidArgument
  | .outOfBounds _ _ _ => .outOfBounds
  | .noDeclaringType _ | .primitiveDeclaringType _ _ => .notResolvable
  | .missingClass _ => .missingClass
  | .missingMember _ _ _ => .missingMember
  | .beyondUniverse _ _ _ | .beyondEmptyCode _ _ => .invariantViolation
  | .malformedSignature _ _ | .genericDescriptor _ | .invalidClassConstant _ =>
      .malformedSignature
  | .codeOverLimit _ _ | .lengthMismatch _ _ _ _ => .malformedAttribute
  | .truncated => .failedRead

/-- The message of a cause without the words of its kind. -/
def details : Error → String
  | .invalidName fault => fault.message
  | .emptyUniverse size => s!"universe size must be positive, got {size}"
  | .offsetTooLarge offset => s!"code offset {offset} is too large"
  | .codeTooLong length => s!"code length {length} is too large"
  | .handlerOutsideCode start stop handler length =>
      s!"exception handler {start}..{stop} -> {handler} does not fit in {length} bytes of code"
  | .missingExceptionType index => s!"exception type {index} is missing"
  | .notUtf8 index => s!"constant {index} is not a Utf8"
  | .notClass index => s!"constant {index} is not a Class"
  | .duplicateCode method => "method " ++ method.text ++ " has more than one Code attribute"
  | .codeNotAllowed isNative method =>
      (if isNative then "native" else "abstract") ++ " method " ++ method ++
        " cannot have bytecode"
  | .foreignMethod method owner => method ++ " cannot be added to class " ++ owner.text
  | .outOfBounds offset length available =>
      let stop := min (offset + length) maxOffset
      s!"range {offset}..{stop} is out of bounds for {available} bytes"
  | .noDeclaringType method => method ++ " has no declaring type"
  | .primitiveDeclaringType method type =>
      method ++ " is declared on primitive type Primitive(" ++ type.label ++ ")"
  | .missingClass name => name.text
  | .missingMember owner name erasedSignature =>
      owner.text ++ "." ++ name.text ++ erasedSignature
  | .beyondUniverse start stop size => s!"range {start}..{stop} exceeds universe size {size}"
  | .beyondEmptyCode start stop => s!"range {start}..{stop} exceeds empty code"
  | .malformedSignature source fault => fault.message ++ " in '" ++ source ++ "'"
  | .genericDescriptor source =>
      "Descriptor '" ++ source ++ "' contains generic signature elements"
  | .invalidClassConstant fault => fault.message
  | .codeOverLimit length limit => s!"code length {length} exceeds the maximum of {limit}"
  | .lengthMismatch name start size span => mismatch name start size span
  | .truncated => "failed to fill whole buffer"

/-- The message of a cause. -/
def message (e : Error) : String :=
  e.kind.describe e.details

/-- Only a region that ends past its buffer counts as out of bounds. -/
theorem kind_eq_outOfBounds_iff (e : Error) :
    e.kind = .outOfBounds ↔
      ∃ offset length available, e = .outOfBounds offset length available := by
  cases e <;> simp [kind]

end Error
end JvmMethods
