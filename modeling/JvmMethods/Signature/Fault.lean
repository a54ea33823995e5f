import JvmMethods.Name

/-!
# Faults in signatures

The causes for which a text is not a descriptor or a generic signature, without the text itself.
-/

namespace JvmMethods

/-- Why a text is not a signature. -/
inductive SignatureFault where
  /-- Another character stands where one is required. -/
  | unexpected (required found : Char)
  /-- The text ends where a character is required. -/
  | ended (required : Char)
  /-- Something follows the end of the signature. -/
  | leftover (found : Char)
  /-- A name is required, and there is none. -/
  | missingIdentifier
  /-- A name is there, and is not a valid one. -/
  | invalidName (fault : NameFault)
  | emptyTypeParameters
  | missingThrownType
  | missingType
  | invalidTypeLetter (found : Char)
  | unterminatedArguments
  | emptyArguments
deriving DecidableEq, Repr

/-- The message for a fault. -/
def SignatureFault.message : SignatureFault → String
  | .unexpected required found =>
      "Expected '" ++ required.toString ++ "' but found '" ++ found.toString ++ "'"
  | .ended required => "Expected '" ++ required.toString ++ "' but input ended"
  | .leftover found => "Unexpected leftover input '" ++ found.toString ++ "'"
  | .missingIdentifier => "Expected an identifier"
  | .invalidName fault => fault.message
  | .emptyTypeParameters => "Empty type parameter list"
  | .missingThrownType => "Expected class or type variable after '^'"
  | .missingType => "Missing field type"
  | .invalidTypeLetter found => "Invalid type character '" ++ found.toString ++ "'"
  | .unterminatedArguments => "Unterminated type arguments"
  | .emptyArguments => "Empty type argument list"

end JvmMethods
