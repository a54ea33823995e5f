/-!
# Decoding policy

How demanding the decoder of attributes is.  The default accepts what a virtual machine would load,
and leaves exception tables to whoever computes with them.
-/

namespace JvmMethods

/-- What the decoder of attributes insists on. -/
structure DecodingPolicy where
  /-- Refuse attributes whose contents stop short of their declared length. -/
  strictLengths : Bool := false
  /-- Refuse exception handlers that do not fit the code. -/
  validateHandlers : Bool := false
  /-- The length of the longest acceptable code. -/
  maxCodeLength : Nat := 65535
deriving DecidableEq, Repr

/-- The policy that refuses everything suspicious. -/
def DecodingPolicy.strict : DecodingPolicy :=
  ⟨true, true, 65535⟩

end JvmMethods
