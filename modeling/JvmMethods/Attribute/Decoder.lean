import JvmMethods.Attribute.Basic
import JvmMethods.Attribute.ConstantPool
import JvmMethods.Attribute.Policy

/-!
# Decoding attributes

An attribute is a header, with the index of its name and the length of its contents, followed by the
contents.  Code and declared exceptions are decoded by their contents, and the end that results is
then compared with the declared one.  Contents that stop short are a matter of policy.  Contents
that run on have taken bytes that belong to what follows, and are always refused.

Code is the only attribute that holds attributes.  Every level of them takes up bytes of its own, so
a bound on the depth that exceeds the number of bytes is never reached.

Main results:

- Definitions {lit}`Attribute.read` and {lit}`Attribute.readList`: one attribute, and a counted list
  of them, with the offset at which they end.
- Theorems {lit}`Decoder.finishAt_of_eq` and {lit}`Decoder.finishAt_of_lt`: contents that end where
  they should are accepted, and contents that run on are refused.
-/

namespace JvmMethods
namespace Decoder

variable {α : Type}

/-! ## Repetition -/

/-- Read a given number of things, one after the other. -/
def times (read : Cursor → Logged Error (α × Cursor)) :
    Nat → Cursor → Logged Error (List α × Cursor)
  | 0, c => return ([], c)
  | n + 1, c => do
      let (a, c) ← read c
      (fun (as, c) => (a :: as, c)) <$> times read n c

/-- Read a count of two bytes, and as many things. -/
def counted (read : Cursor → Logged Error (α × Cursor)) (c : Cursor) :
    Logged Error (List α × Cursor) := do
  let (count, c) ← Logged.ofExcept c.u2
  times read count c

/-! ## Contents -/

/-- The type at an index of the pool, where index zero stands for none. -/
def optionalType (pool : ConstantPool) (index : Nat) : Logged Error (Option FieldType) :=
  if index = 0 then return none else some <$> pool.classType index

/-- Read the index of a type, which may be absent. -/
def typeIndex (pool : ConstantPool) (c : Cursor) :
    Logged Error (Option FieldType × Cursor) := do
  let (index, c) ← Logged.ofExcept c.u2
  let type ← optionalType pool index
  return (type, c)

/-- Read an entry of an exception table. -/
def handler (pool : ConstantPool) (c : Cursor) : Logged Error (ExceptionHandler × Cursor) := do
  let (start, c) ← Logged.ofExcept c.u2
  let (stop, c) ← Logged.ofExcept c.u2
  let (handler, c) ← Logged.ofExcept c.u2
  let (catchType, c) ← typeIndex pool c
  return (⟨start, stop, handler, catchType⟩, c)

/-- Read declared exceptions. -/
def exceptions (pool : ConstantPool) (c : Cursor) : Logged Error (Attribute × Cursor) := do
  let (types, c) ← counted (typeIndex pool) c
  let exceptions ← Logged.ofExcept (Attribute.ofOptionalTypes types)
  return (exceptions, c)

/-- Read the bytes of some code after their length, which is limited. -/
def codeBytes (policy : DecodingPolicy) (c : Cursor) : Except Error (Bytes × Cursor) := do
  let (length, c) ← c.u4
  if policy.maxCodeLength < length then throw (.codeOverLimit length policy.maxCodeLength)
  c.take length

/-- Read code of the given size, with the attributes that {lit}`decodeNested` reads. -/
def code (pool : ConstantPool) (policy : DecodingPolicy)
    (decodeNested : Cursor → Logged Error (Attribute × Cursor)) (size : Nat) (c : Cursor) :
    Logged Error (Attribute × Cursor) := do
  let (maxStack, c) ← Logged.ofExcept c.u2
  let (maxLocals, c) ← Logged.ofExcept c.u2
  let (bytes, c) ← Logged.ofExcept (codeBytes policy c)
  let (handlers, c) ← counted (handler pool) c
  let (nested, c) ← counted decodeNested c
  let code : Code := ⟨size, maxStack, maxLocals, some ⟨bytes, handlers⟩⟩
  if policy.validateHandlers then Logged.ofExcept code.validate
  let length := bytes.length
  let count := handlers.length
  Logged.note .trace s!"Read {length} bytes of code with {count} exception handlers"
  return (.code code nested, c)

/-- Read the contents of an attribute with the given name and size. -/
def contents (pool : ConstantPool) (policy : DecodingPolicy)
    (decodeNested : Cursor → Logged Error (Attribute × Cursor)) (name : String) (size : Nat)
    (c : Cursor) : Logged Error (Attribute × Cursor) :=
  if name = Attribute.codeName then code pool policy decodeNested size c
  else if name = Attribute.exceptionsName then exceptions pool c
  else do
    let (info, c) ← Logged.ofExcept (c.take size)
    return (.raw name info, c)

/-! ## Attributes -/

/-- Compare the end of some contents with the declared one, and go on from there. -/
def finishAt (policy : DecodingPolicy) (name : String) (start size : Nat) (c : Cursor) :
    Logged Error Cursor :=
  let stop := start + size
  let span := c.position - start
  if c.position = stop then return c
  else if policy.strictLengths ∨ stop < c.position then
    throw (.lengthMismatch name start size span)
  else do
    Logged.note .warning (Error.mismatch name start size span ++
      ", resuming at the declared end")
    return c.skipTo stop

/-- Read one attribute, in which code is nested less deep than the bound. -/
def decode (pool : ConstantPool) (policy : DecodingPolicy) :
    Nat → Cursor → Logged Error (Attribute × Cursor)
  | 0, _ => throw .truncated
  | depth + 1, c => do
      let (index, c) ← Logged.ofExcept c.u2
      let (size, c) ← Logged.ofExcept c.u4
      Logged.ofExcept (c.require size)
      let name ← Logged.ofExcept (pool.utf8 index)
      let start := c.position
      Logged.note .trace ("Reading " ++ name ++ s!" attribute ({size} bytes at {start})")
      let (decoded, c) ← contents pool policy (decode pool policy depth) name size c
      let c ← finishAt policy name start size c
      return (decoded, c)

/-- Contents that end where they should are accepted under every policy. -/
theorem finishAt_of_eq {policy : DecodingPolicy} {name : String} {start size : Nat} {c : Cursor}
    (h : c.position = start + size) :
    finishAt policy name start size c = pure c := by
  simp [finishAt, h]

/-- Contents that end behind their declared end are refused under every policy. -/
theorem finishAt_of_lt {policy : DecodingPolicy} {name : String} {start size : Nat} {c : Cursor}
    (h : start + size < c.position) :
    (finishAt policy name start size c).outcome =
      .error (.lengthMismatch name start size (c.position - start)) := by
  have hne : c.position ≠ start + size := by omega
  simp [finishAt, hne, h]

end Decoder

/-! ## Buffers -/

/-- Read the attribute at an offset, and give the offset just past it. -/
def Attribute.read (pool : ConstantPool) (policy : DecodingPolicy) (buffer : Bytes)
    (offset : Nat) : Logged Error (Attribute × Nat) := do
  let c := Cursor.ofBuffer buffer offset
  let (decoded, c) ← Decoder.decode pool policy (c.rest.length + 1) c
  return (decoded, c.position)

/-- Read the counted attributes at an offset, and give the offset just past the last one. -/
def Attribute.readList (pool : ConstantPool) (policy : DecodingPolicy) (buffer : Bytes)
    (offset : Nat) : Logged Error (List Attribute × Nat) := do
  let c := Cursor.ofBuffer buffer offset
  let (decoded, c) ← Decoder.counted (Decoder.decode pool policy (c.rest.length + 1)) c
  return (decoded, c.position)

end JvmMethods
