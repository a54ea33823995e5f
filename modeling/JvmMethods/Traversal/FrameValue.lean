import JvmMethods.FieldType.Basic

/-!
# Frame values

The types that a stack map gives to local variables and stack slots.

Main results:

- Theorem {lit}`FrameValue.width_pos`: every value takes up a slot.
-/

namespace JvmMethods

/-- The type of a local variable or a stack slot. -/
inductive FrameValue where
  | top
  | integer
  | float
  | long
  | double
  | null
  /-- The receiver of a constructor before the superclass is initialized. -/
  | uninitializedThis
  | object (type : FieldType)
  /-- A new object before its constructor has run, with the offset at which it was made. -/
  | uninitialized (offset : Nat)
deriving DecidableEq

/-- The number of slots that a value takes up. -/
def FrameValue.width : FrameValue → Nat
  | .long => 2
  | .double => 2
  | _ => 1

/-- Every value takes up at least one slot. -/
theorem FrameValue.width_pos (v : FrameValue) : 0 < v.width := by
  cases v <;> simp [width]

end JvmMethods
