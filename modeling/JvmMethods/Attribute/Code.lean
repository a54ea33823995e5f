import JvmMethods.Attribute.ExceptionHandler
import JvmMethods.Bytes

/-!
# Code

The body of a method is a sequence of bytes with the exception handlers that protect parts of it.
Handlers belong to the bytes, so a method without code cannot have any.  The handlers split the code
into regions, protected and unprotected in turn.

Main results:

- Theorem {lit}`Code.handlers_shell`: a shell has no handlers.
- Theorem {lit}`Code.mem_handlersCovering`: the handlers that cover an offset are those that protect
  it.
-/

namespace JvmMethods

/-- Bytes of code with their exception table. -/
structure CodeBody where
  bytes : Bytes
  handlers : List ExceptionHandler
deriving DecidableEq

/-- The part of a method's code that is its own: declared size and limits, and the body.

Abstract and native methods have a shell without a body. -/
structure Code where
  size : Nat
  maxStack : Nat
  maxLocals : Nat
  body : Option CodeBody
deriving DecidableEq

/-- A piece of code that some handler protects throughout, or that none does. -/
structure CodeRegion where
  range : Interval
  isProtected : Bool
deriving DecidableEq

namespace Code

/-- Code without a body. -/
def shell (size maxStack maxLocals : Nat) : Code :=
  ⟨size, maxStack, maxLocals, none⟩

/-- Code whose bytes are copied out of a buffer. -/
def ofBuffer (size maxStack maxLocals : Nat) (buffer : Bytes) (offset length : Nat)
    (handlers : List ExceptionHandler) : Except Error Code :=
  (Bytes.region buffer offset length).map fun bytes =>
    ⟨size, maxStack, maxLocals, some ⟨bytes, handlers⟩⟩

/-- Is there a body? -/
def hasCode (c : Code) : Bool :=
  c.body.isSome

/-- The bytes of the body, if there is one. -/
def bytes? (c : Code) : Option Bytes :=
  c.body.map CodeBody.bytes

/-- The length of the body, which is zero if there is none. -/
def length (c : Code) : Nat :=
  match c.body with
  | none => 0
  | some body => body.bytes.length

/-- The exception table, which is empty if there is no body. -/
def handlers (c : Code) : List ExceptionHandler :=
  match c.body with
  | none => []
  | some body => body.handlers

/-- Check that every handler fits the code. -/
def validate (c : Code) : Except Error Unit :=
  c.handlers.forM fun h => h.checkWithin c.length

/-- The handlers that protect an offset, in the order in which they are tried. -/
def handlersCovering (c : Code) (offset : Nat) : List ExceptionHandler :=
  c.handlers.filter fun h => h.protects offset

/-! ## Regions -/

/-- The intervals that the handlers protect, without those that hold no offset at all. -/
def protectedIntervals (c : Code) : Except Error (List Interval) := do
  let intervals ← c.handlers.mapM ExceptionHandler.protectedInterval
  return intervals.filter fun r => r.start ≠ r.stop

/-- The protected part of the code, in the fewest intervals. -/
def protectedRanges (c : Code) : Except Error (List Interval) :=
  c.protectedIntervals.map Interval.normalize

/-- What the protected intervals leave of code of the given length. -/
def unprotectedPart (ranges : List Interval) (length : Nat) : Logged Error (List Interval) :=
  if length = 0 then
    match ranges.getLast? with
    | none => return []
    | some last => do
        Logged.note .error ("Range " ++ last.describe ++ " protects code that does not exist")
        throw (.beyondEmptyCode last.start last.stop)
  else if ExceptionHandler.maxCodeOffset < length then throw (.codeTooLong length)
  else Interval.complement ranges length

/-- The unprotected part of the code, in the fewest intervals. -/
def unprotectedRanges (c : Code) : Logged Error (List Interval) := do
  let ranges ← Logged.ofExcept c.protectedRanges
  unprotectedPart ranges c.length

/-- All of the code, split into protected and unprotected regions in order. -/
def regions (c : Code) : Logged Error (List CodeRegion) := do
  let ranges ← Logged.ofExcept c.protectedRanges
  let gaps ← c.unprotectedRanges
  let all := (ranges.map fun r => CodeRegion.mk r true) ++
    gaps.map fun r => CodeRegion.mk r false
  return all.mergeSort fun a b => decide (a.range.start ≤ b.range.start)

@[simp]
theorem handlers_shell (size maxStack maxLocals : Nat) :
    (shell size maxStack maxLocals).handlers = [] :=
  rfl

@[simp]
theorem length_shell (size maxStack maxLocals : Nat) :
    (shell size maxStack maxLocals).length = 0 :=
  rfl

/-- The handlers that cover an offset are those that protect it. -/
theorem mem_handlersCovering {c : Code} {offset : Nat} {h : ExceptionHandler} :
    h ∈ c.handlersCovering offset ↔ h ∈ c.handlers ∧ h.protects offset = true := by
  simp [handlersCovering]

end Code
end JvmMethods
