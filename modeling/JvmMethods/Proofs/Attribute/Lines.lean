import JvmMethods.Attribute.LineTable
import JvmMethods.Proofs.Attribute.Reading

/-!
# Lines of a table

A line table is written as a count and as many pairs of an offset and a line.  Bytes that hold all
of the announced pairs are such a table with some bytes after it, so they decode, and what follows
the table does not matter.  Shorter bytes do not decode at all.  Of the pairs those whose offset
lies in the code are kept, in order, and each of them shows the byte that stands there.

Main results:

- Theorem {lit}`LineTable.decode_written`: a table is read back, whatever follows it.
- Theorem {lit}`LineTable.exists_written`: bytes that hold all announced pairs open with a table.
- Theorem {lit}`LineTable.decode_of_not_isComplete`: shorter bytes do not decode.
- Theorem {lit}`LineTable.map_entry_filterMap_line?`: which pairs are kept.
- Theorem {lit}`LineTable.decode_complete`: when a table decodes, and what it says.
-/

namespace JvmMethods

/-- The pair of an offset and a line that a line of the source stands for. -/
def SourceLine.entry (l : SourceLine) : Nat × Nat :=
  (l.instruction.offset, l.line)

namespace LineTable

variable {entries : List (Nat × Nat)} {info code : Bytes}

/-! ## Tables as they are written -/

/-- An offset and a line as they are written. -/
def entryBytes (e : Nat × Nat) : Bytes :=
  Bytes.encode2 e.1 ++ Bytes.encode2 e.2

/-- The numbers of a pair fit the two bytes that each of them is written in. -/
def EntryFits (e : Nat × Nat) : Prop :=
  e.1 < 65536 ∧ e.2 < 65536

/-- The number of the pairs and all numbers in them fit their two bytes. -/
structure Fits (entries : List (Nat × Nat)) : Prop where
  count : entries.length < 65536
  each : ∀ e ∈ entries, EntryFits e

/-- A table as it is written: the number of the pairs, and one pair after the other. -/
def written (entries : List (Nat × Nat)) : Bytes :=
  Decoder.countedBytes entryBytes entries

/-- Some bytes open with a count, and hold as many pairs behind it. -/
def IsComplete (info : Bytes) : Prop :=
  ∃ a b rest, info = a :: b :: rest ∧ 2 + 4 * Bytes.value2 a b ≤ info.length

/-! ## Pairs -/

/-- The pair that is written first is read first. -/
theorem pairs_entryBytes {e : Nat × Nat} (h : EntryFits e) (rest : Bytes) :
    pairs (entryBytes e ++ rest) = e :: pairs rest := by
  simp only [entryBytes, Bytes.encode2, List.cons_append, List.nil_append, pairs,
    Bytes.value2_encode2 h.1, Bytes.value2_encode2 h.2]

/-- Written pairs are read back one after the other. -/
theorem pairs_append (h : ∀ e ∈ entries, EntryFits e) (rest : Bytes) :
    pairs (entries.flatMap entryBytes ++ rest) = entries ++ pairs rest := by
  induction entries with
  | nil => rfl
  | cons e entries ih =>
      rcases List.forall_mem_cons.1 h with ⟨he, hentries⟩
      rw [List.flatMap_cons, List.append_assoc, pairs_entryBytes he, ih hentries]
      rfl

/-- Enough bytes hold as many pairs as they are asked for. -/
theorem exists_entries {n : Nat} {bytes : Bytes} (h : 4 * n ≤ bytes.length) :
    ∃ (entries : List (Nat × Nat)) (extra : Bytes), entries.length = n ∧
      (∀ e ∈ entries, EntryFits e) ∧ bytes = entries.flatMap entryBytes ++ extra := by
  induction n generalizing bytes with
  | zero => exact ⟨[], bytes, rfl, fun e he => absurd he List.not_mem_nil, rfl⟩
  | succ n ih =>
      match bytes with
      | [] | [_] | [_, _] | [_, _, _] =>
          simp only [List.length_cons, List.length_nil] at h
          omega
      | a :: b :: c :: d :: rest =>
          have hrest : 4 * n ≤ rest.length := by
            simp only [List.length_cons] at h
            omega
          obtain ⟨entries, extra, hlength, hentries, rfl⟩ := ih hrest
          refine ⟨(Bytes.value2 a b, Bytes.value2 c d) :: entries, extra, ?_, ?_, ?_⟩
          · rw [List.length_cons, hlength]
          · exact List.forall_mem_cons.2 ⟨⟨Bytes.value2_lt a b, Bytes.value2_lt c d⟩, hentries⟩
          · rw [List.flatMap_cons, entryBytes, Bytes.encode2_value2, Bytes.encode2_value2]
            rfl

/-! ## Decoding -/

/-- A table is read back, whatever follows it. -/
theorem decode_written (h : Fits entries) (extra code : Bytes) :
    decode (written entries ++ extra) code =
      ⟨.ok (entries.filterMap (line? code)), entries.filterMap (notice? code)⟩ := by
  rw [written, Decoder.countedBytes, List.append_assoc, decode, Cursor.u2_encode2 h.count]
  simp only [pairs_append h.each, List.take_left, if_true]

/-- Bytes that hold all announced pairs are a table with some bytes after it. -/
theorem exists_written (h : IsComplete info) :
    ∃ entries extra, Fits entries ∧ info = written entries ++ extra := by
  obtain ⟨a, b, rest, rfl, hlength⟩ := h
  have hrest : 4 * Bytes.value2 a b ≤ rest.length := by
    simp only [List.length_cons] at hlength
    omega
  obtain ⟨entries, extra, hcount, hentries, rfl⟩ := exists_entries hrest
  have hfits : entries.length < 65536 := hcount ▸ Bytes.value2_lt a b
  refine ⟨entries, extra, ⟨hfits, hentries⟩, ?_⟩
  rw [written, Decoder.countedBytes, hcount, Bytes.encode2_value2]
  rfl

/-- Bytes that end before the last announced pair do not decode. -/
theorem decode_of_not_isComplete (h : ¬ IsComplete info) (code : Bytes) :
    (decode info code).outcome = .error .truncated := by
  match info with
  | [] | [_] => rfl
  | a :: b :: rest =>
      have hshort : rest.length < 4 * Bytes.value2 a b := by
        have hnot : ¬ 2 + 4 * Bytes.value2 a b ≤ (a :: b :: rest).length :=
          fun hle => h ⟨a, b, rest, rfl, hle⟩
        simp only [List.length_cons] at hnot
        omega
      have hcount : ((pairs rest).take (Bytes.value2 a b)).length ≠ Bytes.value2 a b := by
        rw [List.length_take, length_pairs]
        omega
      exact if_neg hcount

/-- Exactly the pairs whose offset lies in the code are kept, in order. -/
theorem map_entry_filterMap_line? (entries : List (Nat × Nat)) (code : Bytes) :
    (entries.filterMap (line? code)).map SourceLine.entry =
      entries.filter fun e => e.1 < code.length := by
  induction entries with
  | nil => rfl
  | cons e entries ih =>
      by_cases hinside : e.1 < code.length
      · simp [line?, hinside, SourceLine.entry, ← ih]
      · simp [line?, hinside, ← ih]

/-- The line of a pair shows the byte at its offset. -/
theorem opcode_of_line? {e : Nat × Nat} {l : SourceLine} (h : line? code e = some l) :
    code[l.instruction.offset]? = some l.instruction.opcode := by
  obtain ⟨opcode, hopcode, rfl⟩ := Option.map_eq_some_iff.1 h
  exact hopcode

/-- Bytes decode exactly if they hold all of the pairs that they announce, whatever follows, and
otherwise the read fails.  The lines are the pairs of the table that lie in the code, in order, each
with the byte at its offset. -/
theorem decode_complete (info code : Bytes) :
    ((∃ lines, (decode info code).outcome = .ok lines) ↔ IsComplete info) ∧
      (∀ e, (decode info code).outcome = .error e → e.kind = .failedRead) ∧
      ∀ lines, (decode info code).outcome = .ok lines →
        (∀ more, (decode (info ++ more) code).outcome = .ok lines) ∧
        ∃ entries, Fits entries ∧ written entries <+: info ∧
          lines.map SourceLine.entry = entries.filter (fun e => e.1 < code.length) ∧
          ∀ l ∈ lines, code[l.instruction.offset]? = some l.instruction.opcode := by
  apply eq_ok_iff_and_forall
  · intro hcomplete
    obtain ⟨entries, extra, hfits, rfl⟩ := exists_written hcomplete
    refine ⟨entries.filterMap (line? code), ?_, fun more => ?_, entries, hfits,
      List.prefix_append _ _, map_entry_filterMap_line? entries code, fun l hl => ?_⟩
    · rw [decode_written hfits]
    · rw [List.append_assoc, decode_written hfits]
    · obtain ⟨e, -, hline⟩ := List.mem_filterMap.1 hl
      exact opcode_of_line? hline
  · intro hincomplete
    exact ⟨.truncated, decode_of_not_isComplete hincomplete code, rfl⟩

/-- The second pair points past the code, and one byte follows the table. -/
theorem decode_complete_dropping :
    let info : Bytes := written [(0, 10), (9, 12), (2, 11)] ++ [255]
    let code : Bytes := [0x2A, 0xB7, 0, 1, 0xB1]
    let lines : List SourceLine := [⟨⟨0, 0x2A⟩, 10⟩, ⟨⟨2, 0⟩, 11⟩]
    (decode info code).outcome = .ok lines ∧
      ∃ entries, Fits entries ∧ written entries <+: info ∧
        lines.map SourceLine.entry = entries.filter (fun e => e.1 < code.length) := by
  intro info code lines
  have hfits : Fits [(0, 10), (9, 12), (2, 11)] := ⟨by decide, by simp [EntryFits]⟩
  have hok : (decode info code).outcome = .ok lines := by
    rw [decode_written hfits]
    rfl
  obtain ⟨-, entries, hentries, hopens, hkept, -⟩ := (decode_complete info code).2.2 lines hok
  exact ⟨hok, entries, hentries, hopens, hkept⟩

end LineTable
end JvmMethods
