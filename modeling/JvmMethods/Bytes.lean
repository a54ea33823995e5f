import JvmMethods.Error

/-!
# Bytes

Class files are sequences of bytes.  Numbers in them are unsigned and big-endian, two or four bytes
wide.  Regions of bytes are copied out of larger buffers, and a region that does not fit is refused.

Main results:

- Theorem {lit}`Bytes.region_eq_ok_iff`: a copied region is the stated part of a buffer that holds
  it.
- Theorem {lit}`Cursor.require_eq_ok_iff`: bytes are there exactly when the buffer reaches that far.
- Theorems {lit}`Bytes.value2_encode2` and {lit}`Bytes.value4_encode4`: a number that fits its width
  is read back from its bytes.
- Theorems {lit}`Bytes.encode2_value2` and {lit}`Bytes.encode4_value4`: the number that bytes stand
  for is written as these bytes.
-/

namespace JvmMethods

/-- A sequence of bytes. -/
abbrev Bytes := List UInt8

namespace Bytes

/-! ## Regions -/

/-- The end of the {lit}`length` bytes at {lit}`offset`, provided that {lit}`available` bytes hold
them. -/
def checkBounds (offset length available : Nat) : Except Error Nat :=
  if offset + length ≤ available then .ok (offset + length)
  else .error (.outOfBounds offset length available)

/-- Are there at least so many bytes?  No more than that many are looked at. -/
def atLeast : Nat → Bytes → Bool
  | 0, _ => true
  | _ + 1, [] => false
  | n + 1, _ :: rest => atLeast n rest

/-- Whether enough bytes are there is a matter of their number. -/
@[simp]
theorem atLeast_iff {n : Nat} {bytes : Bytes} : atLeast n bytes = true ↔ n ≤ bytes.length := by
  induction n generalizing bytes with
  | zero => simp [atLeast]
  | succ n ih => cases bytes <;> simp [atLeast, ih]

/-- A copy of the {lit}`length` bytes at {lit}`offset`. -/
def region (buffer : Bytes) (offset length : Nat) : Except Error Bytes :=
  (checkBounds offset length buffer.length).map fun _ => (buffer.drop offset).take length

/-- A region is what lies at its offset, and can be copied exactly if it ends within the buffer. -/
theorem region_eq_ok_iff {buffer bytes : Bytes} {offset length : Nat} :
    region buffer offset length = .ok bytes ↔
      offset + length ≤ buffer.length ∧ bytes = (buffer.drop offset).take length := by
  unfold region checkBounds
  split
  · rename_i h
    simp [Except.map, h, eq_comm]
  · rename_i h
    simp [Except.map, h]

/-! ## Hexadecimal text -/

/-- The two hexadecimal digits of a byte. -/
def hexDigits (b : UInt8) : List Char :=
  [Nat.digitChar (b.toNat / 16), Nat.digitChar (b.toNat % 16)]

/-- The hexadecimal digits of some bytes, one after the other. -/
def hex (bytes : Bytes) : String :=
  String.ofList (bytes.flatMap hexDigits)

/-- A summary of some bytes, which shows no more than the first sixteen. -/
def describe (bytes : Bytes) : String :=
  let shown := (bytes.take 16).flatMap fun b => ' ' :: hexDigits b
  let more := if 16 < bytes.length then " .." else ""
  "ByteRegion(" ++ toString bytes.length ++ " bytes:" ++ String.ofList shown ++ more ++ ")"

/-! ## Big-endian numbers -/

/-- The number that two bytes stand for. -/
def value2 (a b : UInt8) : Nat :=
  a.toNat * 256 + b.toNat

/-- The number that four bytes stand for. -/
def value4 (a b c d : UInt8) : Nat :=
  value2 a b * 65536 + value2 c d

/-- The two bytes that stand for a number below 65536. -/
def encode2 (n : Nat) : Bytes :=
  [UInt8.ofNat (n / 256), UInt8.ofNat n]

/-- The four bytes that stand for a number below 4294967296. -/
def encode4 (n : Nat) : Bytes :=
  encode2 (n / 65536) ++ encode2 n

/-- Two bytes are written for a number of two bytes. -/
@[simp]
theorem length_encode2 (n : Nat) : (encode2 n).length = 2 :=
  rfl

/-- Four bytes are written for a number of four bytes. -/
@[simp]
theorem length_encode4 (n : Nat) : (encode4 n).length = 4 :=
  rfl

/-- Two bytes are read as a number that fits into two bytes. -/
theorem value2_lt (a b : UInt8) : value2 a b < 65536 := by
  have ha := a.toNat_lt
  have hb := b.toNat_lt
  unfold value2
  omega

/-- Two bytes keep a number modulo 65536. -/
theorem encode2_mod (n : Nat) : encode2 (n % 65536) = encode2 n := by
  have hhigh : UInt8.ofNat (n % 65536 / 256) = UInt8.ofNat (n / 256) := by
    apply UInt8.toNat_inj.1
    simp only [UInt8.toNat_ofNat']
    omega
  have hlow : UInt8.ofNat (n % 65536) = UInt8.ofNat n := by
    apply UInt8.toNat_inj.1
    simp only [UInt8.toNat_ofNat']
    omega
  rw [encode2, hhigh, hlow, encode2]

/-- Four bytes are read as a number that fits into four bytes. -/
theorem value4_lt (a b c d : UInt8) : value4 a b c d < 4294967296 := by
  have hab := value2_lt a b
  have hcd := value2_lt c d
  unfold value4
  omega

/-- The two bytes of a number are read as that number. -/
theorem value2_encode2 {n : Nat} (h : n < 65536) :
    value2 (UInt8.ofNat (n / 256)) (UInt8.ofNat n) = n := by
  simp only [value2, UInt8.toNat_ofNat']
  omega

/-- The number that two bytes are read as is written as these bytes. -/
theorem encode2_value2 (a b : UInt8) : encode2 (value2 a b) = [a, b] := by
  have ha := a.toNat_lt
  have hb := b.toNat_lt
  have hhigh : (a.toNat * 256 + b.toNat) / 256 = a.toNat := by omega
  have hlow : UInt8.ofNat (a.toNat * 256 + b.toNat) = b := by
    apply UInt8.toNat_inj.1
    simp only [UInt8.toNat_ofNat']
    omega
  simp [encode2, value2, hhigh, hlow]

/-- The number that four bytes are read as is written as these bytes. -/
theorem encode4_value4 (a b c d : UInt8) : encode4 (value4 a b c d) = [a, b, c, d] := by
  have hcd := value2_lt c d
  have hhigh : value4 a b c d / 65536 = value2 a b := by
    unfold value4
    omega
  have hlow : encode2 (value4 a b c d) = encode2 (value2 c d) := by
    have hmod : value4 a b c d % 65536 = value2 c d := by
      unfold value4
      omega
    rw [← encode2_mod (value4 a b c d), hmod]
  rw [encode4, hhigh, hlow, encode2_value2, encode2_value2]
  rfl

/-- The four bytes of a number are read as that number. -/
theorem value4_encode4 {n : Nat} (h : n < 4294967296) :
    value4 (UInt8.ofNat (n / 65536 / 256)) (UInt8.ofNat (n / 65536)) (UInt8.ofNat (n / 256))
      (UInt8.ofNat n) = n := by
  simp only [value4, value2, UInt8.toNat_ofNat']
  omega

end Bytes

/-! ## Reading onwards -/

/-- A place in a buffer: how many bytes precede it, and the bytes from there on. -/
structure Cursor where
  position : Nat
  rest : Bytes
deriving DecidableEq, Repr

namespace Cursor

/-- The place {lit}`offset` bytes into a buffer.  Beyond its end there is nothing to read. -/
def ofBuffer (buffer : Bytes) (offset : Nat) : Cursor :=
  ⟨offset, buffer.drop offset⟩

/-- Skip up to a later position. -/
def skipTo (c : Cursor) (position : Nat) : Cursor :=
  ⟨position, c.rest.drop (position - c.position)⟩

/-- Read a number of two bytes. -/
def u2 : Cursor → Except Error (Nat × Cursor)
  | ⟨position, a :: b :: rest⟩ => .ok (Bytes.value2 a b, ⟨position + 2, rest⟩)
  | _ => .error .truncated

/-- Read a number of four bytes. -/
def u4 : Cursor → Except Error (Nat × Cursor)
  | ⟨position, a :: b :: c :: d :: rest⟩ =>
      .ok (Bytes.value4 a b c d, ⟨position + 4, rest⟩)
  | _ => .error .truncated

/-- Are there {lit}`length` more bytes?  If not, the request is out of the bounds of the buffer. -/
def require (c : Cursor) (length : Nat) : Except Error Unit :=
  if Bytes.atLeast length c.rest then .ok ()
  else .error (.outOfBounds c.position length (c.position + c.rest.length))

/-- Read a region of bytes. -/
def take (c : Cursor) (length : Nat) : Except Error (Bytes × Cursor) :=
  (c.require length).map fun _ =>
    (c.rest.take length, ⟨c.position + length, c.rest.drop length⟩)

/-- Bytes can be required exactly if that many are left. -/
theorem require_eq_ok_iff {c : Cursor} {length : Nat} :
    c.require length = .ok () ↔ length ≤ c.rest.length := by
  unfold require
  split <;> simp_all

/-- A number of two bytes is read back in front of anything. -/
theorem u2_encode2 {n position : Nat} {rest : Bytes} (h : n < 65536) :
    u2 ⟨position, Bytes.encode2 n ++ rest⟩ = .ok (n, ⟨position + 2, rest⟩) := by
  simp [u2, Bytes.encode2, Bytes.value2_encode2 h]

/-- A number of four bytes is read back in front of anything. -/
theorem u4_encode4 {n position : Nat} {rest : Bytes} (h : n < 4294967296) :
    u4 ⟨position, Bytes.encode4 n ++ rest⟩ = .ok (n, ⟨position + 4, rest⟩) := by
  simp [u4, Bytes.encode4, Bytes.encode2, Bytes.value4_encode4 h]

/-- As many bytes as there are in front of a rest are those bytes. -/
theorem take_append {bytes rest : Bytes} {position : Nat} :
    take ⟨position, bytes ++ rest⟩ bytes.length =
      .ok (bytes, ⟨position + bytes.length, rest⟩) := by
  simp [take, require, Except.map]

end Cursor
end JvmMethods
