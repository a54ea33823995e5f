import JvmMethods.Bytes
import JvmMethods.Logged

/-!
# Line tables

A line table maps offsets into the code to lines of the source: a count, and as many pairs of an
offset and a line.  Pairs that point past the end of the code are dropped with a notice.  The
offsets are not checked otherwise, so the byte at an offset need not open an instruction.

Main results:

- Definition {lit}`LineTable.decode`: the lines of a table, unless it is shorter than it says.
- Theorem {lit}`LineTable.line?_eq_none_iff`: a pair is dropped exactly when it points past the
  code.
-/

namespace JvmMethods

/-- A place in the code, with the byte that stands there. -/
structure Instruction where
  offset : Nat
  opcode : UInt8
deriving DecidableEq, Repr

/-- The line of the source that starts at an instruction. -/
structure SourceLine where
  instruction : Instruction
  line : Nat
deriving DecidableEq, Repr

namespace LineTable

/-- The name of attributes that hold line tables. -/
def attributeName : String :=
  "LineNumberTable"

/-- The pairs of numbers that some bytes hold.  Bytes that do not make up a pair are left over. -/
def pairs : Bytes → List (Nat × Nat)
  | a :: b :: c :: d :: rest => (Bytes.value2 a b, Bytes.value2 c d) :: pairs rest
  | _ => []

/-- The line that a pair of an offset and a line denotes, provided that the code reaches there. -/
def line? (code : Bytes) : Nat × Nat → Option SourceLine
  | (offset, line) => code[offset]?.map fun opcode => ⟨⟨offset, opcode⟩, line⟩

/-- What to report of a pair: nothing, unless it points past the end of the code. -/
def notice? (code : Bytes) : Nat × Nat → Option Notice
  | (offset, line) =>
      if offset < code.length then none
      else some ⟨.warning,
        s!"Line number {line} points past the end of the code (offset {offset})"⟩

/-- The lines of a table for some code, in table order. -/
def decode (info code : Bytes) : Logged Error (List SourceLine) :=
  match Cursor.u2 ⟨0, info⟩ with
  | .error e => throw e
  | .ok (count, c) =>
      let read := (pairs c.rest).take count
      ⟨if read.length = count then .ok (read.filterMap (line? code)) else .error .truncated,
        read.filterMap (notice? code)⟩

/-- Exactly the pairs that start past the code are dropped. -/
theorem line?_eq_none_iff {code : Bytes} {offset line : Nat} :
    line? code (offset, line) = none ↔ code.length ≤ offset := by
  simp [line?]

/-- A pair is made of four bytes, and bytes that are left over are not used. -/
theorem length_pairs : ∀ bytes : Bytes, (pairs bytes).length = bytes.length / 4
  | [] => by simp [pairs]
  | [_] => by simp [pairs]
  | [_, _] => by simp [pairs]
  | [_, _, _] => by simp [pairs]
  | _ :: _ :: _ :: _ :: rest => by
      simp only [pairs, List.length_cons, length_pairs rest]
      omega

end LineTable
end JvmMethods
