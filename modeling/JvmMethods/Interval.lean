import JvmMethods.Error
import JvmMethods.Logged

/-!
# Intervals of code offsets

Handlers protect half-open intervals of code.  Intervals that overlap or touch are merged into the
fewest that cover the same offsets, and what they leave of a universe of offsets is their
complement.

Main results:

- Theorem {lit}`Interval.contains_iff`: an interval holds the offsets from its start up to, and
  without, its stop.
- Theorem {lit}`Interval.length_eq`: an interval of code has as many offsets as lie between its
  ends.
- Theorem {lit}`Interval.complement_nil`: nothing leaves the whole universe.
- Theorem {lit}`Interval.complement_nonpos`: an empty universe has no complements.
-/

namespace JvmMethods

/-- A half-open interval of offsets.  One that starts at or after its stop holds none. -/
structure Interval where
  start : Int
  stop : Int
deriving DecidableEq, Repr

namespace Interval

/-- The number of offsets in an interval.  The difference is one of integers of 32 bits, which wraps
around where it is out of their range. -/
def length (r : Interval) : Nat :=
  ((r.stop - r.start).bmod 4294967296).toNat

/-- Does an interval hold no offset? -/
def isEmpty (r : Interval) : Bool :=
  decide (r.stop ≤ r.start)

/-- Does an interval hold an offset? -/
def contains (r : Interval) (offset : Int) : Bool :=
  decide (r.start ≤ offset ∧ offset < r.stop)

@[simp]
theorem contains_iff {r : Interval} {offset : Int} :
    r.contains offset = true ↔ r.start ≤ offset ∧ offset < r.stop := by
  simp [contains]

theorem isEmpty_iff {r : Interval} : r.isEmpty = true ↔ ∀ offset, r.contains offset = false := by
  constructor
  · intro h offset
    simp only [isEmpty, decide_eq_true_eq] at h
    rw [← Bool.not_eq_true, contains_iff]
    omega
  · intro h
    have hstart := h r.start
    rw [← Bool.not_eq_true, contains_iff] at hstart
    simp only [isEmpty, decide_eq_true_eq]
    omega

/-- Nothing wraps around between offsets that are not negative integers of 32 bits. -/
theorem length_eq {r : Interval} (hstart : 0 ≤ r.start ∧ r.start < 2147483648)
    (hstop : 0 ≤ r.stop ∧ r.stop < 2147483648) : r.length = (r.stop - r.start).toNat := by
  have hrange : (r.stop - r.start).bmod 4294967296 = r.stop - r.start := by
    apply Int.bmod_eq_of_le <;> omega
  rw [length, hrange]

/-! ## Merging -/

/-- Merge intervals in ascending order into {lit}`current`, starting anew after every gap. -/
def sweep (current : Interval) : List Interval → List Interval
  | [] => [current]
  | next :: rest =>
      if next.start ≤ current.stop then
        sweep ⟨current.start, max current.stop next.stop⟩ rest
      else current :: sweep next rest

/-- Merge intervals in ascending order. -/
def coalesce : List Interval → List Interval
  | [] => []
  | r :: rest => sweep r rest

/-- Intervals ordered by their starts.  Those that start together keep their order. -/
def sort (rs : List Interval) : List Interval :=
  rs.mergeSort fun a b => decide (a.start ≤ b.start)

/-- The fewest intervals that cover the same offsets, in ascending order. -/
def normalize (rs : List Interval) : List Interval :=
  coalesce (sort rs)

/-- The intervals that are there. -/
def present (rs : List (Option Interval)) : List Interval :=
  rs.filterMap id

@[simp]
theorem mem_present_iff {rs : List (Option Interval)} {r : Interval} :
    r ∈ present rs ↔ some r ∈ rs := by
  simp [present]

/-! ## Complements -/

/-- What ascending intervals leave of the offsets from {lit}`position` up to {lit}`size`. -/
def gapsFrom (size position : Int) : List Interval → List Interval
  | [] => if position = size then [] else [⟨position, size⟩]
  | r :: rest =>
      if position = r.start then gapsFrom size r.stop rest
      else ⟨position, r.start⟩ :: gapsFrom size r.stop rest

/-- How notices spell an interval. -/
def describe (r : Interval) : String :=
  "Range \x7b start: " ++ toString r.start ++ ", end: " ++ toString r.stop ++ " \x7d"

/-- What intervals leave of the offsets from zero up to {lit}`size`.

Intervals that reach past the universe are refused, and not cut. -/
def complement (rs : List Interval) (size : Int) : Logged Error (List Interval) :=
  let ordered := normalize rs
  if size ≤ 0 then throw (.emptyUniverse size)
  else
    match ordered.getLast? with
    | none => return gapsFrom size 0 ordered
    | some last =>
        if size < last.stop then do
          Logged.note .error ("Range " ++ last.describe ++
            s!" extends past the end of a universe of size {size}")
          throw (.beyondUniverse last.start last.stop size)
        else return gapsFrom size 0 ordered

@[simp]
theorem normalize_nil : normalize [] = [] := by
  simp [normalize, sort, coalesce]

theorem complement_nil {size : Int} (h : 0 < size) :
    (complement [] size).outcome = .ok [⟨0, size⟩] := by
  have hpos : ¬ size ≤ 0 := by omega
  have hne : (0 : Int) ≠ size := by omega
  simp [complement, hpos, gapsFrom, hne]

theorem complement_nonpos {rs : List Interval} {size : Int} (h : size ≤ 0) :
    (complement rs size).outcome = .error (.emptyUniverse size) := by
  simp [complement, h]

end Interval
end JvmMethods
