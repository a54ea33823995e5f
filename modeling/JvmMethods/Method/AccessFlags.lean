/-!
# Access flags

The access flags of a method are a word of sixteen bits, of which twelve have a meaning.

Main results:

- Theorem {lit}`AccessFlags.truncate_bits`: truncation keeps words without unknown bits.
- Theorem {lit}`AccessFlags.ofBits?_eq_some_iff`: exactly the words without unknown bits are
  accepted.
- Theorem {lit}`AccessFlags.has_iff_testBit`: every flag has a bit of its own.
- Theorem {lit}`AccessFlags.has_ofList_iff`: exactly the given flags are set.
- Theorem {lit}`AccessFlags.expectsBody_iff_testBit`: which two bits decide whether code is
  expected.
-/

namespace JvmMethods

/-- A property of a method that its access flags can state. -/
inductive AccessFlag where
  | isPublic
  | isPrivate
  | isProtected
  | isStatic
  | isFinal
  | isSynchronized
  | isBridge
  | isVarargs
  | isNative
  | isAbstract
  | isStrict
  | isSynthetic
deriving DecidableEq, Repr

/-- The bit that stands for a flag. -/
def AccessFlag.mask : AccessFlag → UInt16
  | .isPublic => 0x0001
  | .isPrivate => 0x0002
  | .isProtected => 0x0004
  | .isStatic => 0x0008
  | .isFinal => 0x0010
  | .isSynchronized => 0x0020
  | .isBridge => 0x0040
  | .isVarargs => 0x0080
  | .isNative => 0x0100
  | .isAbstract => 0x0400
  | .isStrict => 0x0800
  | .isSynthetic => 0x1000

/-- The place of a flag among the bits of a word, counted from the lowest one. -/
def AccessFlag.position : AccessFlag → Nat
  | .isPublic => 0
  | .isPrivate => 1
  | .isProtected => 2
  | .isStatic => 3
  | .isFinal => 4
  | .isSynchronized => 5
  | .isBridge => 6
  | .isVarargs => 7
  | .isNative => 8
  | .isAbstract => 10
  | .isStrict => 11
  | .isSynthetic => 12

/-- The bits that have a meaning. -/
def AccessFlags.knownBits : UInt16 :=
  0x1DFF

/-- A word of flags without unknown bits. -/
structure AccessFlags where
  bits : UInt16
  known : bits &&& AccessFlags.knownBits = bits
deriving DecidableEq

namespace AccessFlags

/-- The flags of a word, whose unknown bits are dropped. -/
def truncate (bits : UInt16) : AccessFlags :=
  ⟨bits &&& knownBits, by rw [UInt16.and_assoc, UInt16.and_self]⟩

/-- The flags of a word, provided that it has no unknown bits. -/
def ofBits? (bits : UInt16) : Option AccessFlags :=
  if h : bits &&& knownBits = bits then some ⟨bits, h⟩ else none

/-- The given flags and no others. -/
def ofList (flags : List AccessFlag) : AccessFlags :=
  truncate (flags.foldl (fun bits flag => bits ||| flag.mask) 0)

/-- Is a flag set? -/
def has (flags : AccessFlags) (flag : AccessFlag) : Bool :=
  decide (flags.bits &&& flag.mask ≠ 0)

/-- Abstract and native methods have no code, and all others are expected to have some. -/
def expectsBody (flags : AccessFlags) : Bool :=
  !flags.has .isAbstract && !flags.has .isNative

/-! ## Words without unknown bits -/

/-- Flags are determined by their bits. -/
@[ext]
theorem ext {f g : AccessFlags} (h : f.bits = g.bits) : f = g := by
  cases f
  cases g
  simp_all

/-- Nothing is dropped from a word without unknown bits. -/
@[simp]
theorem truncate_bits (flags : AccessFlags) : truncate flags.bits = flags :=
  AccessFlags.ext flags.known

/-- Exactly the words without unknown bits are accepted. -/
theorem ofBits?_eq_some_iff {bits : UInt16} {flags : AccessFlags} :
    ofBits? bits = some flags ↔ flags.bits = bits := by
  constructor
  · intro h
    unfold ofBits? at h
    split at h
    · cases h
      rfl
    · cases h
  · rintro rfl
    simp [ofBits?, flags.known]

/-! ## Flags as bits -/

/-- A flag stands for a single bit. -/
theorem testBit_mask (flag : AccessFlag) (i : Nat) :
    flag.mask.toNat.testBit i = decide (flag.position = i) := by
  have hmask : flag.mask.toNat = 2 ^ flag.position := by
    cases flag <;> rfl
  rw [hmask, Nat.testBit_two_pow]

/-- No two flags stand for the same bit. -/
theorem position_injective {f g : AccessFlag} (h : f.position = g.position) : f = g := by
  cases f <;> cases g <;> first | rfl | cases h

/-- A flag is set exactly if its bit is. -/
theorem has_iff_testBit {flags : AccessFlags} {flag : AccessFlag} :
    flags.has flag = true ↔ flags.bits.toNat.testBit flag.position = true := by
  have hbit : ∀ i, (flags.bits &&& flag.mask).toNat.testBit i =
      (flags.bits.toNat.testBit i && decide (flag.position = i)) := by
    intro i
    rw [UInt16.toNat_and, Nat.testBit_and, testBit_mask]
  rw [has, decide_eq_true_iff, ne_eq, ← UInt16.toNat_inj]
  constructor
  · intro h
    obtain ⟨i, hi⟩ := Nat.exists_testBit_of_ne_zero h
    rw [hbit, Bool.and_eq_true, decide_eq_true_iff] at hi
    rw [hi.2]
    exact hi.1
  · intro h hzero
    have hposition := hbit flag.position
    simp [hzero, h] at hposition

/-- The bits of some flags are those that they stand for, and no others. -/
theorem testBit_foldl_mask (flags : List AccessFlag) (bits : UInt16) (i : Nat) :
    (flags.foldl (fun bits flag => bits ||| flag.mask) bits).toNat.testBit i = true ↔
      bits.toNat.testBit i = true ∨ ∃ flag ∈ flags, flag.position = i := by
  induction flags generalizing bits with
  | nil => simp
  | cons flag flags ih => simp [ih, testBit_mask, or_assoc]

/-- Exactly the given flags are set. -/
theorem has_ofList_iff {flags : List AccessFlag} {flag : AccessFlag} :
    (ofList flags).has flag = true ↔ flag ∈ flags := by
  have hknown : knownBits.toNat.testBit flag.position = true := by
    cases flag <;> rfl
  rw [has_iff_testBit, ofList, truncate, UInt16.toNat_and, Nat.testBit_and, hknown, Bool.and_true,
    testBit_foldl_mask]
  constructor
  · rintro (hzero | ⟨f, hf, hposition⟩)
    · simp at hzero
    · rwa [← position_injective hposition]
  · intro h
    exact .inr ⟨flag, h, rfl⟩

/-- Code is expected of methods that are neither abstract nor native. -/
theorem expectsBody_iff {flags : AccessFlags} :
    flags.expectsBody = true ↔ flags.has .isAbstract = false ∧ flags.has .isNative = false := by
  simp [expectsBody]

/-- Code is expected unless the bit of abstract methods, 0x0400, or that of native ones, 0x0100, is
set. -/
theorem expectsBody_iff_testBit {flags : AccessFlags} :
    flags.expectsBody = true ↔
      flags.bits.toNat.testBit 10 = false ∧ flags.bits.toNat.testBit 8 = false := by
  have habstract := @has_iff_testBit flags .isAbstract
  have hnative := @has_iff_testBit flags .isNative
  simp only [AccessFlag.position] at habstract hnative
  simp only [expectsBody_iff, ← Bool.not_eq_true, habstract, hnative]

end AccessFlags
end JvmMethods
