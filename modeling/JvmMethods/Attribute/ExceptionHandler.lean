import JvmMethods.Interval

/-!
# Exception handlers

An entry of an exception table protects an interval of code: an exception thrown there, if it is of
the type that the entry catches, continues at the entry's handler.  An entry without a type catches
everything.

Main results:

- Theorem {lit}`ExceptionHandler.protects_iff_contains`: an entry protects an offset exactly when
  its interval holds it.
- Theorem {lit}`ExceptionHandler.checkWithin_eq_ok_iff`: what it means that an entry fits the code.
-/

namespace JvmMethods

/-- An entry of an exception table.  The protected interval starts at {lit}`start` and ends before
{lit}`stop`. -/
structure ExceptionHandler where
  start : Nat
  stop : Nat
  handler : Nat
  catchType : Option FieldType
deriving DecidableEq

namespace ExceptionHandler

/-- Does the entry catch everything? -/
def isFinally (h : ExceptionHandler) : Bool :=
  h.catchType.isNone

/-- Does the entry protect an offset? -/
def protects (h : ExceptionHandler) (offset : Nat) : Bool :=
  decide (h.start ≤ offset ∧ offset < h.stop)

/-- The largest offset that intervals of code can mention. -/
def maxCodeOffset : Nat :=
  2147483647

/-- An offset as the bound of an interval. -/
def codeOffset (offset : Nat) : Except Error Int :=
  if offset ≤ maxCodeOffset then .ok offset else .error (.offsetTooLarge offset)

/-- The interval that the entry protects. -/
def protectedInterval (h : ExceptionHandler) : Except Error Interval := do
  let start ← codeOffset h.start
  let stop ← codeOffset h.stop
  return ⟨start, stop⟩

/-- Check that the entry fits code of the given length, its handler included. -/
def checkWithin (h : ExceptionHandler) (length : Nat) : Except Error Unit :=
  if h.start ≤ h.stop ∧ h.stop ≤ length ∧ h.handler < length then .ok ()
  else .error (.handlerOutsideCode h.start h.stop h.handler length)

/-- A handler fits if it is not reversed and protects and handles within the code. -/
theorem checkWithin_eq_ok_iff {h : ExceptionHandler} {length : Nat} :
    h.checkWithin length = .ok () ↔
      h.start ≤ h.stop ∧ h.stop ≤ length ∧ h.handler < length := by
  unfold checkWithin
  split <;> simp_all

/-- The protected interval runs from start to stop, provided that both are offsets of code. -/
theorem protectedInterval_eq_ok_iff {h : ExceptionHandler} {r : Interval} :
    h.protectedInterval = .ok r ↔
      h.start ≤ maxCodeOffset ∧ h.stop ≤ maxCodeOffset ∧ r = ⟨h.start, h.stop⟩ := by
  by_cases hstart : h.start ≤ maxCodeOffset <;> by_cases hstop : h.stop ≤ maxCodeOffset <;>
    simp [protectedInterval, codeOffset, hstart, hstop, bind, Except.bind, pure, Except.pure,
      eq_comm]

/-- A handler protects the offsets that its protected interval holds. -/
theorem protects_iff_contains {h : ExceptionHandler} {r : Interval} {offset : Nat}
    (hr : h.protectedInterval = .ok r) :
    h.protects offset = r.contains offset := by
  obtain ⟨-, -, rfl⟩ := protectedInterval_eq_ok_iff.1 hr
  rw [Bool.eq_iff_iff, Interval.contains_iff]
  simp only [protects, decide_eq_true_eq]
  omega

end ExceptionHandler
end JvmMethods
