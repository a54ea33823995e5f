import JvmMethods.Attribute.Decoder
import Mathlib.Data.List.Forall2

/-!
# Readers and the bytes they take up

A reader takes a cursor over some bytes.  The bytes between the two places are what was read, and
the place after them is the only one that the rest of the buffer can be read from.  Every reader of
the decoder is described in the same way: the forms that the thing read can be written in, and what
each of them stands for.

Main results:

- Theorem {lit}`Cursor.spans_append_iff`: what stands between two places can be cut anywhere.
- Theorems {lit}`Cursor.u2_eq_ok_iff`, {lit}`Cursor.u4_eq_ok_iff` and {lit}`Cursor.take_eq_ok_iff`:
  the readers of single fields read exactly the bytes that the fields are written as.
- Theorem {lit}`Decoder.Reads.bind_eq_ok_iff`: what follows a reader goes on from the place just
  past the thing read.
- Theorem {lit}`Decoder.Reads.counted`: a counted repetition reads exactly a count and as many
  written things.
-/

namespace JvmMethods

/-! ## Places and the bytes between them -/

namespace Cursor

/-- Between two places of a buffer stand exactly the given bytes. -/
structure Spans (c : Cursor) (bytes : Bytes) (c' : Cursor) : Prop where
  rest_eq : c.rest = bytes ++ c'.rest
  position_eq : c'.position = c.position + bytes.length

/-- No bytes lie between a place and itself only. -/
theorem spans_nil_iff {c c' : Cursor} : c.Spans [] c' ↔ c' = c := by
  constructor
  · rintro ⟨hrest, hposition⟩
    cases c
    cases c'
    simp_all
  · rintro rfl
    exact ⟨rfl, rfl⟩

/-- What stands between two places can be cut anywhere. -/
theorem spans_append_iff {c c' : Cursor} {first second : Bytes} :
    c.Spans (first ++ second) c' ↔ ∃ m, c.Spans first m ∧ m.Spans second c' := by
  constructor
  · rintro ⟨hrest, hposition⟩
    refine ⟨⟨c.position + first.length, second ++ c'.rest⟩, ⟨?_, rfl⟩, ⟨rfl, ?_⟩⟩
    · rw [hrest, List.append_assoc]
    · rw [hposition, List.length_append, Nat.add_assoc]
  · rintro ⟨m, hfirst, hsecond⟩
    refine ⟨?_, ?_⟩
    · rw [hfirst.rest_eq, hsecond.rest_eq, List.append_assoc]
    · rw [hsecond.position_eq, hfirst.position_eq, List.length_append, Nat.add_assoc]

/-- The bytes between two places are among those that are left at the first one. -/
theorem Spans.length_le {c c' : Cursor} {bytes : Bytes} (h : c.Spans bytes c') :
    bytes.length ≤ c.rest.length := by
  rw [h.rest_eq, List.length_append]
  exact Nat.le_add_right _ _

/-- Up to a later place within the buffer stand the bytes that are skipped. -/
theorem spans_skipTo {c : Cursor} {position : Nat} (hle : c.position ≤ position)
    (hfits : position - c.position ≤ c.rest.length) :
    c.Spans (c.rest.take (position - c.position)) (c.skipTo position) := by
  refine ⟨?_, ?_⟩
  · exact (List.take_append_drop _ _).symm
  · rw [List.length_take, Nat.min_eq_left hfits]
    simp only [skipTo]
    omega

/-! ## Single fields -/

/-- A number of two bytes is read exactly from the bytes it is written as. -/
theorem u2_eq_ok_iff {c c' : Cursor} {n : Nat} :
    c.u2 = .ok (n, c') ↔ n < 65536 ∧ c.Spans (Bytes.encode2 n) c' := by
  constructor
  · intro h
    rcases c with ⟨position, _ | ⟨a, _ | ⟨b, rest⟩⟩⟩
    · cases h
    · cases h
    · cases h
      refine ⟨Bytes.value2_lt a b, ?_, rfl⟩
      rw [Bytes.encode2_value2]
      rfl
  · rintro ⟨hn, hrest, hposition⟩
    cases c
    cases c'
    simp only at hrest hposition
    subst hrest hposition
    exact u2_encode2 hn

/-- A number of four bytes is read exactly from the bytes it is written as. -/
theorem u4_eq_ok_iff {c c' : Cursor} {n : Nat} :
    c.u4 = .ok (n, c') ↔ n < 4294967296 ∧ c.Spans (Bytes.encode4 n) c' := by
  constructor
  · intro h
    rcases c with ⟨position, _ | ⟨b₁, _ | ⟨b₂, _ | ⟨b₃, _ | ⟨b₄, rest⟩⟩⟩⟩⟩
    · cases h
    · cases h
    · cases h
    · cases h
    · cases h
      refine ⟨Bytes.value4_lt b₁ b₂ b₃ b₄, ?_, rfl⟩
      rw [Bytes.encode4_value4]
      rfl
  · rintro ⟨hn, hrest, hposition⟩
    cases c
    cases c'
    simp only at hrest hposition
    subst hrest hposition
    exact u4_encode4 hn

/-- A region is read exactly from bytes of its length. -/
theorem take_eq_ok_iff {c c' : Cursor} {length : Nat} {bytes : Bytes} :
    c.take length = .ok (bytes, c') ↔ bytes.length = length ∧ c.Spans bytes c' := by
  constructor
  · intro h
    obtain ⟨_, hrequire, hpair⟩ := map_eq_ok_iff.1 h
    have hle := require_eq_ok_iff.1 hrequire
    cases hpair
    have hlength : (c.rest.take length).length = length := by
      rw [List.length_take, Nat.min_eq_left hle]
    refine ⟨hlength, ?_, ?_⟩
    · exact (List.take_append_drop _ _).symm
    · rw [hlength]
  · rintro ⟨rfl, hrest, hposition⟩
    cases c
    cases c'
    simp only at hrest hposition
    subst hrest hposition
    exact take_append

end Cursor

/-! ## Exact readers -/

namespace Decoder

variable {ι α β : Type} {read : Cursor → Logged Error (α × Cursor)}
  {written : ι → Bytes} {denotes : ι → α → Prop}

/-- A reader succeeds exactly on the written forms of what it reads, and goes on just past them. -/
def Reads (read : Cursor → Logged Error (α × Cursor)) (written : ι → Bytes)
    (denotes : ι → α → Prop) : Prop :=
  ∀ c a c', (read c).outcome = .ok (a, c') ↔ ∃ i, denotes i a ∧ c.Spans (written i) c'

/-- A reader that takes no notice of anything, and whose values have only one written form. -/
theorem reads_ofExcept {read : Cursor → Except Error (α × Cursor)} {written : α → Bytes}
    {valid : α → Prop}
    (h : ∀ {c c' : Cursor} {a : α}, read c = .ok (a, c') ↔ valid a ∧ c.Spans (written a) c') :
    Reads (fun c => Logged.ofExcept (read c)) written (fun i a => i = a ∧ valid a) := by
  intro c a c'
  constructor
  · intro hread
    rcases h.1 hread with ⟨hvalid, hspans⟩
    exact ⟨a, ⟨rfl, hvalid⟩, hspans⟩
  · intro hexists
    rcases hexists with ⟨i, ⟨rfl, hvalid⟩, hspans⟩
    exact h.2 ⟨hvalid, hspans⟩

/-- Numbers of two bytes are read as they are written. -/
theorem reads_u2 :
    Reads (fun c => Logged.ofExcept c.u2) Bytes.encode2 (fun i n => i = n ∧ n < 65536) :=
  reads_ofExcept Cursor.u2_eq_ok_iff

/-- Numbers of four bytes are read as they are written. -/
theorem reads_u4 :
    Reads (fun c => Logged.ofExcept c.u4) Bytes.encode4 (fun i n => i = n ∧ n < 4294967296) :=
  reads_ofExcept Cursor.u4_eq_ok_iff

/-- What follows a reader goes on from the place just past the thing read. -/
theorem Reads.bind_eq_ok_iff (h : Reads read written denotes) {f : α × Cursor → Logged Error β}
    {c : Cursor} {b : β} :
    (read c >>= f).outcome = .ok b ↔
      ∃ a i m, denotes i a ∧ c.Spans (written i) m ∧ (f (a, m)).outcome = .ok b := by
  rw [Logged.outcome_bind_eq_ok_iff]
  constructor
  · intro hread
    rcases hread with ⟨⟨a, m⟩, hread, hf⟩
    rcases (h c a m).1 hread with ⟨i, hi, hspans⟩
    exact ⟨a, i, m, hi, hspans, hf⟩
  · intro hexists
    rcases hexists with ⟨a, i, m, hi, hspans, hf⟩
    exact ⟨(a, m), (h c a m).2 ⟨i, hi, hspans⟩, hf⟩

/-! ## Repetition -/

/-- A repetition reads exactly as many written things, one after the other. -/
theorem Reads.times (h : Reads read written denotes) (n : Nat) :
    Reads (times read n) (fun is : List ι => is.flatMap written)
      (fun is as => is.length = n ∧ List.Forall₂ denotes is as) := by
  induction n with
  | zero =>
      intro c as c'
      constructor
      · intro hread
        cases hread
        exact ⟨[], ⟨rfl, List.Forall₂.nil⟩, Cursor.spans_nil_iff.2 rfl⟩
      · rintro ⟨is, ⟨hlength, has⟩, hspans⟩
        cases List.length_eq_zero_iff.1 hlength
        cases has
        cases Cursor.spans_nil_iff.1 hspans
        rfl
  | succ n ih =>
      intro c as c'
      constructor
      · intro hread
        rcases h.bind_eq_ok_iff.1 hread with ⟨a, i, m, hi, hispans, hrest⟩
        rcases Logged.outcome_map_eq_ok_iff.1 hrest with ⟨⟨as', m'⟩, htail, hpair⟩
        cases hpair
        rcases (ih m as' c').1 htail with ⟨is, ⟨hlength, his⟩, hisspans⟩
        refine ⟨i :: is, ⟨?_, List.Forall₂.cons hi his⟩, ?_⟩
        · rw [List.length_cons, hlength]
        · exact Cursor.spans_append_iff.2 ⟨m, hispans, hisspans⟩
      · rintro ⟨is, ⟨hlength, has⟩, hspans⟩
        cases has with
        | nil => cases hlength
        | @cons i a is as hi his =>
            rcases Cursor.spans_append_iff.1 hspans with ⟨m, hispans, hisspans⟩
            have htail := (ih m as c').2 ⟨is, ⟨Nat.succ.inj hlength, his⟩, hisspans⟩
            apply h.bind_eq_ok_iff.2
            refine ⟨a, i, m, hi, hispans, ?_⟩
            exact Logged.outcome_map_eq_ok_iff.2 ⟨(as, c'), htail, rfl⟩

/-- Some things as they are written after their number. -/
def countedBytes (written : ι → Bytes) (is : List ι) : Bytes :=
  Bytes.encode2 is.length ++ is.flatMap written

/-- A counted repetition reads exactly a count and as many written things. -/
theorem Reads.counted (h : Reads read written denotes) :
    Reads (counted read) (countedBytes written)
      (fun is as => is.length < 65536 ∧ List.Forall₂ denotes is as) := by
  intro c as c'
  constructor
  · intro hread
    rcases reads_u2.bind_eq_ok_iff.1 hread with ⟨n, _, m, ⟨rfl, hn⟩, hcountSpans, htimes⟩
    rcases (h.times _ m as c').1 htimes with ⟨is, ⟨rfl, his⟩, hspans⟩
    exact ⟨is, ⟨hn, his⟩, Cursor.spans_append_iff.2 ⟨m, hcountSpans, hspans⟩⟩
  · intro hexists
    rcases hexists with ⟨is, ⟨hn, his⟩, hspans⟩
    rcases Cursor.spans_append_iff.1 hspans with ⟨m, hcountSpans, hisspans⟩
    apply reads_u2.bind_eq_ok_iff.2
    refine ⟨is.length, is.length, m, ⟨rfl, hn⟩, hcountSpans, ?_⟩
    exact (h.times is.length m as c').2 ⟨is, ⟨rfl, his⟩, hisspans⟩

end Decoder
end JvmMethods
