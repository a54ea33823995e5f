import JvmMethods.Proofs.Attribute.Acceptance

/-!
# Reading the contents of attributes

Each reader of the decoder succeeds exactly on what is written in its format, and goes on just past
it.  The end of some contents is accepted if it is the declared one, or if it stops short of that
and the policy lets spare bytes follow.

Main results:

- Theorems {lit}`Decoder.reads_handler` and {lit}`Decoder.reads_exceptions`: entries of exception
  tables and declared exceptions are read exactly from their written forms.
- Theorem {lit}`Decoder.code_eq_ok_iff`: code is read from its own part and a counted list of nested
  attributes.
- Theorems {lit}`Decoder.finishAt_eq_ok_iff` and {lit}`Decoder.spans_finishAt_iff`: contents are
  accepted with whatever spare bytes fill them up to the declared size.
-/

namespace JvmMethods

/-! ## Present types -/

namespace Attribute

/-- Types that may be missing make declared exceptions exactly when none is missing. -/
theorem presentTypes_eq_ok_iff {index : Nat} {types? : List (Option FieldType)}
    {types : List FieldType} :
    presentTypes index types? = .ok types ↔ types? = types.map some := by
  constructor
  · intro h
    induction types? generalizing index types with
    | nil =>
        cases h
        rfl
    | cons t? types? ih =>
        cases t? with
        | none => cases h
        | some t =>
            rcases map_eq_ok_iff.1 h with ⟨rest, hrest, hcons⟩
            subst hcons
            rw [ih hrest, List.map_cons]
  · intro h
    rw [h, presentTypes_map_some]

/-- A list of types makes an attribute exactly if none of them is missing. -/
theorem ofOptionalTypes_eq_ok_iff {types? : List (Option FieldType)} {a : Attribute} :
    ofOptionalTypes types? = .ok a ↔ ∃ types, types? = types.map some ∧ a = .exceptions types := by
  constructor
  · intro h
    rcases map_eq_ok_iff.1 h with ⟨types, htypes, ha⟩
    exact ⟨types, presentTypes_eq_ok_iff.1 htypes, ha.symm⟩
  · intro h
    rcases h with ⟨types, htypes, ha⟩
    exact map_eq_ok_iff.2 ⟨types, presentTypes_eq_ok_iff.2 htypes, ha.symm⟩

end Attribute

namespace Decoder

variable {pool : ConstantPool} {policy : DecodingPolicy}

/-! ## Contents -/

/-- A type is read from an index exactly if the index names it, or is zero and names none. -/
theorem optionalType_eq_ok_iff {index : Nat} {type? : Option FieldType} :
    (optionalType pool index).outcome = .ok type? ↔ pool.NamesType index type? := by
  by_cases hindex : index = 0
  · cases type? <;> simp [optionalType, ConstantPool.NamesType, hindex]
  · have hmap : (optionalType pool index).outcome = some <$> (pool.classType index).outcome := by
      simp [optionalType, hindex]
    rw [hmap]
    cases hclass : (pool.classType index).outcome <;>
      cases type? <;>
        simp [ConstantPool.NamesType, hindex, hclass, Functor.map, Except.map]

/-- The index of a type is read from two bytes. -/
theorem reads_typeIndex :
    Reads (typeIndex pool) Bytes.encode2 (fun i t? => i < 65536 ∧ pool.NamesType i t?) := by
  intro c type? c'
  constructor
  · intro h
    rcases reads_u2.bind_eq_ok_iff.1 h with ⟨index, _, m, ⟨rfl, hlt⟩, hspans, hrest⟩
    rcases Logged.outcome_bind_eq_ok_iff.1 hrest with ⟨t?, htype, hpair⟩
    cases hpair
    exact ⟨_, ⟨hlt, optionalType_eq_ok_iff.1 htype⟩, hspans⟩
  · intro h
    rcases h with ⟨index, ⟨hlt, htype⟩, hspans⟩
    apply reads_u2.bind_eq_ok_iff.2
    refine ⟨index, index, c', ⟨rfl, hlt⟩, hspans, ?_⟩
    apply Logged.outcome_bind_eq_ok_iff.2
    exact ⟨type?, optionalType_eq_ok_iff.2 htype, rfl⟩

/-- An entry of an exception table is read from its four numbers. -/
theorem reads_handler :
    Reads (handler pool) HandlerLayout.bytes (fun l h => l.Fits ∧ l.Denotes pool h) := by
  intro c h c'
  constructor
  · intro hread
    rcases reads_u2.bind_eq_ok_iff.1 hread with ⟨start, _, m₁, ⟨rfl, hstart⟩, hstartSpans, hread⟩
    rcases reads_u2.bind_eq_ok_iff.1 hread with ⟨stop, _, m₂, ⟨rfl, hstop⟩, hstopSpans, hread⟩
    rcases reads_u2.bind_eq_ok_iff.1 hread with ⟨target, _, m₃, ⟨rfl, htarget⟩, htargetSpans, hread⟩
    rcases reads_typeIndex.bind_eq_ok_iff.1 hread with
      ⟨catchType, i, m₄, ⟨hi, hnames⟩, hiSpans, hpair⟩
    cases hpair
    refine ⟨⟨_, _, _, i⟩, ⟨⟨hstart, hstop, htarget, hi⟩, catchType, hnames, rfl⟩, ?_⟩
    simp only [HandlerLayout.bytes, Cursor.spans_append_iff]
    exact ⟨m₃, ⟨m₂, ⟨m₁, hstartSpans, hstopSpans⟩, htargetSpans⟩, hiSpans⟩
  · intro hexists
    rcases hexists with ⟨l, ⟨⟨hstart, hstop, htarget, hi⟩, catchType, hnames, rfl⟩, hspans⟩
    simp only [HandlerLayout.bytes, Cursor.spans_append_iff] at hspans
    rcases hspans with ⟨m₃, ⟨m₂, ⟨m₁, hstartSpans, hstopSpans⟩, htargetSpans⟩, hiSpans⟩
    apply reads_u2.bind_eq_ok_iff.2
    refine ⟨l.start, _, m₁, ⟨rfl, hstart⟩, hstartSpans, ?_⟩
    apply reads_u2.bind_eq_ok_iff.2
    refine ⟨l.stop, _, m₂, ⟨rfl, hstop⟩, hstopSpans, ?_⟩
    apply reads_u2.bind_eq_ok_iff.2
    refine ⟨l.handler, _, m₃, ⟨rfl, htarget⟩, htargetSpans, ?_⟩
    apply reads_typeIndex.bind_eq_ok_iff.2
    exact ⟨catchType, l.typeIndex, c', ⟨hi, hnames⟩, hiSpans, rfl⟩

/-- Declared exceptions are read from a count and as many indices that name types. -/
theorem reads_exceptions :
    Reads (exceptions pool) (countedBytes Bytes.encode2) (fun is a =>
      is.length < 65536 ∧ (∀ i ∈ is, i < 65536) ∧
        ∃ types, List.Forall₂ (fun i t => pool.NamesType i (some t)) is types ∧
          a = .exceptions types) := by
  intro c a c'
  constructor
  · intro h
    rcases reads_typeIndex.counted.bind_eq_ok_iff.1 h with
      ⟨types?, is, m, ⟨hlength, hnames⟩, hspans, hrest⟩
    rcases Logged.outcome_bind_eq_ok_iff.1 hrest with ⟨a', hpresent, hpair⟩
    cases hpair
    rcases Attribute.ofOptionalTypes_eq_ok_iff.1 hpresent with ⟨types, rfl, ha⟩
    have hall : List.Forall₂ (fun i t => i < 65536 ∧ pool.NamesType i (some t)) is types :=
      List.forall₂_map_right_iff.1 hnames
    rcases (List.forall₂_and_left _ _).1 hall with ⟨hfit, hnames⟩
    exact ⟨is, ⟨hlength, hfit, types, hnames, ha⟩, hspans⟩
  · intro h
    rcases h with ⟨is, ⟨hlength, hfit, types, hnames, rfl⟩, hspans⟩
    have hall : List.Forall₂ (fun i t? => i < 65536 ∧ pool.NamesType i t?) is (types.map some) :=
      List.forall₂_map_right_iff.2 ((List.forall₂_and_left _ _).2 ⟨hfit, hnames⟩)
    apply reads_typeIndex.counted.bind_eq_ok_iff.2
    refine ⟨types.map some, is, c', ⟨hlength, hall⟩, hspans, ?_⟩
    apply Logged.outcome_bind_eq_ok_iff.2
    exact ⟨.exceptions types, Attribute.ofOptionalTypes_eq_ok_iff.2 ⟨types, rfl, rfl⟩, rfl⟩

/-- The bytes of some code are read after their length, which the policy limits. -/
theorem codeBytes_eq_ok_iff {c c' : Cursor} {bytes : Bytes} :
    codeBytes policy c = .ok (bytes, c') ↔
      (bytes.length < 4294967296 ∧ bytes.length ≤ policy.maxCodeLength) ∧
        c.Spans (Bytes.encode4 bytes.length ++ bytes) c' := by
  constructor
  · intro h
    rcases bind_eq_ok_iff.1 h with ⟨⟨length, m⟩, hlength, hrest⟩
    rcases Cursor.u4_eq_ok_iff.1 hlength with ⟨hlt, hlengthSpans⟩
    by_cases hover : policy.maxCodeLength < length
    · simp only [hover, if_true] at hrest
      cases hrest
    · simp only [hover, if_false] at hrest
      rcases Cursor.take_eq_ok_iff.1 hrest with ⟨rfl, hspans⟩
      refine ⟨⟨hlt, Nat.le_of_not_lt hover⟩, ?_⟩
      exact Cursor.spans_append_iff.2 ⟨m, hlengthSpans, hspans⟩
  · intro h
    rcases h with ⟨⟨hlt, hle⟩, hspans⟩
    rcases Cursor.spans_append_iff.1 hspans with ⟨m, hlengthSpans, hbytesSpans⟩
    apply bind_eq_ok_iff.2
    refine ⟨(bytes.length, m), Cursor.u4_eq_ok_iff.2 ⟨hlt, hlengthSpans⟩, ?_⟩
    simp only [Nat.not_lt.2 hle, if_false]
    exact Cursor.take_eq_ok_iff.2 ⟨rfl, hbytesSpans⟩

/-- The bytes of some code are read after their length, which the policy limits. -/
theorem reads_codeBytes :
    Reads (fun c => Logged.ofExcept (codeBytes policy c))
      (fun bytes => Bytes.encode4 bytes.length ++ bytes)
      (fun i bytes => i = bytes ∧ bytes.length < 4294967296 ∧
        bytes.length ≤ policy.maxCodeLength) :=
  reads_ofExcept codeBytes_eq_ok_iff

/-- Code is read from its own part and a counted list of nested attributes. -/
theorem code_eq_ok_iff {decodeNested : Cursor → Logged Error (Attribute × Cursor)}
    {D : AttributeLayout → Attribute → Prop}
    (hnested : Reads decodeNested AttributeLayout.bytes D) {size : Nat} {c c' : Cursor}
    {a : Attribute} :
    (code pool policy decodeNested size c).outcome = .ok (a, c') ↔
      ∃ (l : CodeLayout) (nested : List AttributeLayout) (own : Code) (attributes : List Attribute),
        a = .code own attributes ∧ l.Fits ∧ l.bytes.length ≤ policy.maxCodeLength ∧
          l.Denotes pool size own ∧
          (policy.validateHandlers = true → own.validate = .ok ()) ∧
          nested.length < 65536 ∧ List.Forall₂ D nested attributes ∧
          c.Spans (l.contents ++ countedBytes AttributeLayout.bytes nested) c' := by
  constructor
  · intro h
    rcases reads_u2.bind_eq_ok_iff.1 h with ⟨maxStack, _, m₁, ⟨rfl, hstack⟩, hstackSpans, h⟩
    rcases reads_u2.bind_eq_ok_iff.1 h with ⟨maxLocals, _, m₂, ⟨rfl, hlocals⟩, hlocalsSpans, h⟩
    rcases reads_codeBytes.bind_eq_ok_iff.1 h with
      ⟨bytes, _, m₃, ⟨rfl, hbytes, hlimit⟩, hbytesSpans, h⟩
    rcases reads_handler.counted.bind_eq_ok_iff.1 h with
      ⟨handlers, ls, m₄, ⟨hcount, hls⟩, hlsSpans, h⟩
    rcases hnested.counted.bind_eq_ok_iff.1 h with
      ⟨attributes, nested, m₅, ⟨hlength, hattributes⟩, hnestedSpans, h⟩
    rcases Logged.outcome_ite_bind_eq_ok_iff.1 h with ⟨hvalid, h⟩
    cases h
    rcases (List.forall₂_and_left _ _).1 hls with ⟨hfits, hdenote⟩
    refine ⟨⟨_, _, _, ls⟩, nested, _, attributes, rfl, ⟨hstack, hlocals, hbytes, hcount, hfits⟩,
      hlimit, ⟨handlers, hdenote, rfl⟩, hvalid, hlength, hattributes, ?_⟩
    have hlimitsSpans := Cursor.spans_append_iff.2 ⟨m₁, hstackSpans, hlocalsSpans⟩
    have hbodySpans := Cursor.spans_append_iff.2 ⟨m₂, hlimitsSpans, hbytesSpans⟩
    have hownSpans := Cursor.spans_append_iff.2 ⟨m₃, hbodySpans, hlsSpans⟩
    exact Cursor.spans_append_iff.2 ⟨m₄, hownSpans, hnestedSpans⟩
  · intro h
    rcases h with ⟨l, nested, own, attributes, rfl, hfits, hlimit, hown, hvalid, hlength,
      hattributes, hspans⟩
    rcases hfits with ⟨hstack, hlocals, hbytes, hcount, hfits⟩
    rcases hown with ⟨handlers, hdenote, rfl⟩
    have hls := (List.forall₂_and_left _ _).2 ⟨hfits, hdenote⟩
    rcases Cursor.spans_append_iff.1 hspans with ⟨m₄, hspans, hnestedSpans⟩
    rcases Cursor.spans_append_iff.1 hspans with ⟨m₃, hspans, hlsSpans⟩
    rcases Cursor.spans_append_iff.1 hspans with ⟨m₂, hspans, hbytesSpans⟩
    rcases Cursor.spans_append_iff.1 hspans with ⟨m₁, hstackSpans, hlocalsSpans⟩
    apply reads_u2.bind_eq_ok_iff.2
    refine ⟨l.maxStack, _, m₁, ⟨rfl, hstack⟩, hstackSpans, ?_⟩
    apply reads_u2.bind_eq_ok_iff.2
    refine ⟨l.maxLocals, _, m₂, ⟨rfl, hlocals⟩, hlocalsSpans, ?_⟩
    apply reads_codeBytes.bind_eq_ok_iff.2
    refine ⟨l.bytes, _, m₃, ⟨rfl, hbytes, hlimit⟩, hbytesSpans, ?_⟩
    apply reads_handler.counted.bind_eq_ok_iff.2
    refine ⟨handlers, l.handlers, m₄, ⟨hcount, hls⟩, hlsSpans, ?_⟩
    apply hnested.counted.bind_eq_ok_iff.2
    refine ⟨attributes, nested, c', ⟨hlength, hattributes⟩, hnestedSpans, ?_⟩
    exact Logged.outcome_ite_bind_eq_ok_iff.2 ⟨hvalid, rfl⟩

/-! ## Ends -/

/-- An end is accepted exactly when the contents do not run on, and do not stop short under a
strict policy. -/
theorem finishAt_eq_ok_iff {name : String} {start size : Nat} {c c' : Cursor} :
    (finishAt policy name start size c).outcome = .ok c' ↔
      c.position ≤ start + size ∧ (policy.strictLengths = true → c.position = start + size) ∧
        c' = c.skipTo (start + size) := by
  rcases Nat.lt_trichotomy c.position (start + size) with hlt | heq | hgt
  · have hne : c.position ≠ start + size := Nat.ne_of_lt hlt
    have hnot : ¬ start + size < c.position := Nat.not_lt.2 (Nat.le_of_lt hlt)
    by_cases hstrict : policy.strictLengths = true
    · simp [finishAt, hne, hstrict]
    · have hgo : (finishAt policy name start size c).outcome = .ok (c.skipTo (start + size)) := by
        simp only [finishAt, hne, hstrict, hnot, or_self, if_false, Bool.false_eq_true]
        rfl
      rw [hgo]
      simp [Nat.le_of_lt hlt, hstrict, eq_comm]
  · have hskip : c.skipTo (start + size) = c := by
      rw [← heq, Cursor.skipTo, Nat.sub_self, List.drop_zero]
    rw [finishAt_of_eq heq, hskip]
    constructor
    · intro h
      cases h
      exact ⟨Nat.le_of_eq heq, fun _ => heq, rfl⟩
    · intro h
      rw [h.2.2]
      rfl
  · have hnot : ¬ c.position ≤ start + size := Nat.not_le.2 hgt
    rw [finishAt_of_lt hgt]
    simp [hnot]

/-- Contents are accepted with whatever spare bytes fill them up to the declared size. -/
theorem spans_finishAt_iff {name : String} {size : Nat} {contents : Bytes} {c c' : Cursor}
    (hsize : size ≤ c.rest.length) :
    (∃ m, c.Spans contents m ∧ (finishAt policy name c.position size m).outcome = .ok c') ↔
      ∃ spare, c.Spans (contents ++ spare) c' ∧ (contents ++ spare).length = size ∧
        (policy.strictLengths = true → spare = []) := by
  constructor
  · intro h
    rcases h with ⟨m, hspans, hfinish⟩
    rcases finishAt_eq_ok_iff.1 hfinish with ⟨hle, hstrict, rfl⟩
    have hposition := hspans.position_eq
    have hrest := congrArg List.length hspans.rest_eq
    rw [List.length_append] at hrest
    have hspare := Cursor.spans_skipTo hle (by omega)
    have hall := Cursor.spans_append_iff.2 ⟨m, hspans, hspare⟩
    refine ⟨_, hall, ?_, ?_⟩
    · have hend := hall.position_eq
      simp only [Cursor.skipTo] at hend
      omega
    · intro hyes
      rw [hstrict hyes, Nat.sub_self, List.take_zero]
  · intro h
    rcases h with ⟨spare, hspans, hlength, hstrict⟩
    rcases Cursor.spans_append_iff.1 hspans with ⟨m, hcontents, hspare⟩
    have hm := hcontents.position_eq
    have hc' := hspare.position_eq
    rw [List.length_append] at hlength
    refine ⟨m, hcontents, finishAt_eq_ok_iff.2 ⟨by omega, ?_, ?_⟩⟩
    · intro hyes
      rw [hstrict hyes, List.length_nil] at hlength
      omega
    · have hdrop : c.position + size - m.position = spare.length := by omega
      have hend : c.position + size = c'.position := by omega
      cases c'
      simp only [Cursor.skipTo, hdrop, hspare.rest_eq, List.drop_left]
      simp only at hend
      rw [hend]

end Decoder
end JvmMethods
