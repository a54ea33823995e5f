import JvmMethods.Proofs.Attribute.Contents

/-!
# The format of attributes

The decoder accepts the bytes of a layout exactly when the layout fits its fields, denotes an
attribute and meets the policy, and it then gives the attribute that the layout denotes.  Nested
attributes are bounded by nothing but the buffer while they are read.  That they stay inside their
parent follows from the comparison of ends at every level.

Main results:

- Theorem {lit}`Decoder.reads_decode`: the decoder reads exactly the accepted layouts.
- Theorems {lit}`Attribute.read_eq_ok_iff` and {lit}`Attribute.readList_eq_ok_iff`: what a buffer
  must hold at an offset for one attribute, or a list of attributes, to be read there.
-/

namespace JvmMethods
namespace Decoder

variable {pool : ConstantPool} {policy : DecodingPolicy}

/-! ## Payloads -/

section Payload

variable {depth nameIndex size : Nat} {c c' : Cursor} {a : Attribute}

/-- The payload of code is read as a layout of code. -/
theorem payload_code_iff
    (ih : Reads (decode pool policy depth) AttributeLayout.bytes
      fun l a => l.height ≤ depth ∧ l.Accepted pool policy a)
    (hname : pool.utf8 nameIndex = .ok Attribute.codeName) (hindex : nameIndex < 65536)
    (hlt : size < 4294967296) (hsize : size ≤ c.rest.length) :
    (∃ m, (code pool policy (decode pool policy depth) size c).outcome = .ok (a, m) ∧
        (finishAt policy Attribute.codeName c.position size m).outcome = .ok c') ↔
      ∃ body nested spare, AttributeLayout.listHeight nested ≤ depth ∧
        (AttributeLayout.code nameIndex body nested spare).Accepted pool policy a ∧
        (AttributeLayout.code nameIndex body nested spare).payload.length = size ∧
        c.Spans (AttributeLayout.code nameIndex body nested spare).payload c' := by
  have hpayload : ∀ body nested spare,
      (AttributeLayout.code nameIndex body nested spare).payload =
        body.contents ++ countedBytes AttributeLayout.bytes nested ++ spare := by
    intro body nested spare
    rw [AttributeLayout.payload, AttributeLayout.contents_code, AttributeLayout.spare]
  constructor
  · intro h
    rcases h with ⟨m, hcode, hfinish⟩
    rcases (code_eq_ok_iff ih).1 hcode with ⟨body, nested, own, attributes, rfl, hfits, hlimit,
      hbody, hvalid, hcount, hnested, hspans⟩
    rcases (spans_finishAt_iff hsize).1 ⟨m, hspans, hfinish⟩ with
      ⟨spare, hspans, hlength, hstrict⟩
    rcases (List.forall₂_and_left _ _).1 hnested with ⟨hheights, haccepted⟩
    rw [← hpayload] at hspans hlength
    refine ⟨body, nested, spare, AttributeLayout.listHeight_le_iff.2 hheights, ?_, hlength,
      hspans⟩
    apply AttributeLayout.accepted_code_iff.2
    rw [← hlength] at hbody hlt
    exact ⟨own, attributes, rfl, hname, ⟨hindex, hlt, hfits, hcount⟩, ⟨hlimit, hstrict⟩, hbody,
      hvalid, haccepted⟩
  · intro h
    rcases h with ⟨body, nested, spare, hheights, haccepted, hlength, hspans⟩
    rcases AttributeLayout.accepted_code_iff.1 haccepted with
      ⟨own, attributes, rfl, -, ⟨-, -, hfits, hcount⟩, ⟨hlimit, hstrict⟩, hbody, hvalid, hnested⟩
    have hall := (List.forall₂_and_left _ _).2
      ⟨AttributeLayout.listHeight_le_iff.1 hheights, hnested⟩
    rw [hlength] at hbody
    rw [hpayload] at hspans hlength
    rcases (spans_finishAt_iff hsize).2 ⟨spare, hspans, hlength, hstrict⟩ with
      ⟨m, hcontents, hfinish⟩
    refine ⟨m, ?_, hfinish⟩
    exact (code_eq_ok_iff ih).2 ⟨body, nested, own, attributes, rfl, hfits, hlimit, hbody, hvalid,
      hcount, hall, hcontents⟩

/-- The payload of declared exceptions is read as a layout of declared exceptions. -/
theorem payload_exceptions_iff (hname : pool.utf8 nameIndex = .ok Attribute.exceptionsName)
    (hindex : nameIndex < 65536) (hlt : size < 4294967296) (hsize : size ≤ c.rest.length) :
    (∃ m, (exceptions pool c).outcome = .ok (a, m) ∧
        (finishAt policy Attribute.exceptionsName c.position size m).outcome = .ok c') ↔
      ∃ typeIndices spare,
        (AttributeLayout.exceptions nameIndex typeIndices spare).Accepted pool policy a ∧
        (AttributeLayout.exceptions nameIndex typeIndices spare).payload.length = size ∧
        c.Spans (AttributeLayout.exceptions nameIndex typeIndices spare).payload c' := by
  have hpayload : ∀ typeIndices spare,
      (AttributeLayout.exceptions nameIndex typeIndices spare).payload =
        countedBytes Bytes.encode2 typeIndices ++ spare := by
    intro typeIndices spare
    rw [AttributeLayout.payload, AttributeLayout.contents, AttributeLayout.spare]
  constructor
  · intro h
    rcases h with ⟨m, hexceptions, hfinish⟩
    rcases (reads_exceptions c a m).1 hexceptions with
      ⟨typeIndices, ⟨hcount, hfit, types, hnames, rfl⟩, hspans⟩
    rcases (spans_finishAt_iff hsize).1 ⟨m, hspans, hfinish⟩ with
      ⟨spare, hspans, hlength, hstrict⟩
    rw [← hpayload] at hspans hlength
    refine ⟨typeIndices, spare, ?_, hlength, hspans⟩
    apply AttributeLayout.accepted_exceptions_iff.2
    rw [← hlength] at hlt
    exact ⟨types, rfl, hname, ⟨hindex, hlt, hcount, hfit⟩, ⟨Nat.zero_le _, hstrict⟩, hnames⟩
  · intro h
    rcases h with ⟨typeIndices, spare, haccepted, hlength, hspans⟩
    rcases AttributeLayout.accepted_exceptions_iff.1 haccepted with
      ⟨types, rfl, -, ⟨-, -, hcount, hfit⟩, ⟨-, hstrict⟩, hnames⟩
    rw [hpayload] at hspans hlength
    rcases (spans_finishAt_iff hsize).2 ⟨spare, hspans, hlength, hstrict⟩ with
      ⟨m, hcontents, hfinish⟩
    refine ⟨m, ?_, hfinish⟩
    exact (reads_exceptions c _ m).2 ⟨typeIndices, ⟨hcount, hfit, types, hnames, rfl⟩, hcontents⟩

/-- The payload of any other attribute is kept as it is. -/
theorem payload_raw_iff {name : String} (hname : pool.utf8 nameIndex = .ok name)
    (hcode : name ≠ Attribute.codeName) (hexceptions : name ≠ Attribute.exceptionsName)
    (hindex : nameIndex < 65536) (hlt : size < 4294967296) (hsize : size ≤ c.rest.length) :
    (∃ m info, c.take size = .ok (info, m) ∧ a = .raw name info ∧
        (finishAt policy name c.position size m).outcome = .ok c') ↔
      ∃ info, (AttributeLayout.raw nameIndex info).Accepted pool policy a ∧
        (AttributeLayout.raw nameIndex info).payload.length = size ∧
        c.Spans (AttributeLayout.raw nameIndex info).payload c' := by
  have hpayload : ∀ info, (AttributeLayout.raw nameIndex info).payload = info := by
    intro info
    rw [AttributeLayout.payload, AttributeLayout.contents, AttributeLayout.spare, List.append_nil]
  constructor
  · intro h
    rcases h with ⟨m, info, htake, rfl, hfinish⟩
    rcases Cursor.take_eq_ok_iff.1 htake with ⟨hinfo, hspans⟩
    rcases (spans_finishAt_iff hsize).1 ⟨m, hspans, hfinish⟩ with ⟨spare, hspans, hlength, -⟩
    have hspare : spare = [] := by
      rw [List.length_append] at hlength
      exact List.length_eq_zero_iff.1 (by omega)
    rw [hspare, List.append_nil, ← hpayload info] at hspans hlength
    refine ⟨info, AttributeLayout.accepted_raw_iff.2 ?_, hlength, hspans⟩
    rw [← hlength] at hlt
    exact ⟨name, rfl, hname, hcode, hexceptions, hindex, hlt, trivial⟩
  · intro h
    rcases h with ⟨info, haccepted, hlength, hspans⟩
    rcases AttributeLayout.accepted_raw_iff.1 haccepted with ⟨name', rfl, hname', -⟩
    cases hname.symm.trans hname'
    rw [hpayload, ← List.append_nil info] at hspans hlength
    rcases (spans_finishAt_iff hsize).2 ⟨[], hspans, hlength, fun _ => rfl⟩ with
      ⟨m, hinfo, hfinish⟩
    rw [List.append_nil] at hlength
    exact ⟨m, info, Cursor.take_eq_ok_iff.2 ⟨hlength, hinfo⟩, rfl, hfinish⟩

/-- After a header that fits, the decoder reads the payload of an accepted layout with that
header. -/
theorem payload_eq_ok_iff {name : String}
    (ih : Reads (decode pool policy depth) AttributeLayout.bytes
      fun l a => l.height ≤ depth ∧ l.Accepted pool policy a)
    (hname : pool.utf8 nameIndex = .ok name) (hindex : nameIndex < 65536)
    (hlt : size < 4294967296) (hsize : size ≤ c.rest.length) :
    (∃ m, (contents pool policy (decode pool policy depth) name size c).outcome = .ok (a, m) ∧
        (finishAt policy name c.position size m).outcome = .ok c') ↔
      ∃ l : AttributeLayout, l.height ≤ depth + 1 ∧ l.Accepted pool policy a ∧
        l.nameIndex = nameIndex ∧ l.payload.length = size ∧ c.Spans l.payload c' := by
  -- The name decides what kind of layout the payload can be read as.
  constructor
  · intro h
    rcases h with ⟨m, hcontents, hfinish⟩
    by_cases hcode : name = Attribute.codeName
    · subst hcode
      rcases (payload_code_iff ih hname hindex hlt hsize).1 ⟨m, hcontents, hfinish⟩ with
        ⟨body, nested, spare, hheights, haccepted, hlength, hspans⟩
      exact ⟨.code nameIndex body nested spare, Nat.succ_le_succ hheights, haccepted, rfl, hlength,
        hspans⟩
    · by_cases hexceptions : name = Attribute.exceptionsName
      · subst hexceptions
        rcases (payload_exceptions_iff hname hindex hlt hsize).1 ⟨m, hcontents, hfinish⟩ with
          ⟨typeIndices, spare, haccepted, hlength, hspans⟩
        exact ⟨.exceptions nameIndex typeIndices spare, Nat.succ_le_succ (Nat.zero_le _), haccepted,
          rfl, hlength, hspans⟩
      · simp only [contents, hcode, hexceptions, if_false] at hcontents
        rcases Logged.outcome_bind_eq_ok_iff.1 hcontents with ⟨⟨info, m'⟩, htake, hpair⟩
        cases hpair
        rcases (payload_raw_iff hname hcode hexceptions hindex hlt hsize).1
          ⟨m', info, htake, rfl, hfinish⟩ with ⟨info, haccepted, hlength, hspans⟩
        exact ⟨.raw nameIndex info, Nat.succ_le_succ (Nat.zero_le _), haccepted, rfl, hlength,
          hspans⟩
  · intro h
    rcases h with ⟨l, hheight, haccepted, rfl, hlength, hspans⟩
    have hsame := hname.symm.trans haccepted.denotes.utf8_eq_ok
    cases l with
    | code index body nested spare =>
        rcases AttributeLayout.accepted_code_iff.1 haccepted with ⟨own, attributes, rfl, hown, -⟩
        cases hsame
        exact (payload_code_iff ih hown hindex hlt hsize).2
          ⟨body, nested, spare, Nat.le_of_succ_le_succ hheight, haccepted, hlength, hspans⟩
    | exceptions index typeIndices spare =>
        rcases AttributeLayout.accepted_exceptions_iff.1 haccepted with ⟨types, rfl, hown, -⟩
        cases hsame
        exact (payload_exceptions_iff hown hindex hlt hsize).2
          ⟨typeIndices, spare, haccepted, hlength, hspans⟩
    | raw index info =>
        rcases AttributeLayout.accepted_raw_iff.1 haccepted with
          ⟨name', rfl, hown, hcode, hexceptions, -⟩
        cases hsame
        rcases (payload_raw_iff hown hcode hexceptions hindex hlt hsize).2
          ⟨info, haccepted, hlength, hspans⟩ with ⟨m, info', htake, ha, hfinish⟩
        refine ⟨m, ?_, hfinish⟩
        rw [ha]
        simp only [contents, Attribute.name, hcode, hexceptions, if_false]
        exact Logged.outcome_bind_eq_ok_iff.2 ⟨(info', m), htake, rfl⟩

end Payload

/-! ## Attributes -/

/-- The decoder reads exactly the accepted layouts that are not nested too deep for it. -/
theorem reads_decode (depth : Nat) :
    Reads (decode pool policy depth) AttributeLayout.bytes
      fun l a => l.height ≤ depth ∧ l.Accepted pool policy a := by
  induction depth with
  | zero =>
      intro c a c'
      constructor
      · intro h
        cases h
      · intro h
        rcases h with ⟨l, ⟨hheight, -⟩, -⟩
        exact absurd l.height_pos (Nat.not_lt.2 hheight)
  | succ depth ih =>
      intro c a c'
      constructor
      · intro h
        rcases reads_u2.bind_eq_ok_iff.1 h with ⟨index, _, m₁, ⟨rfl, hindex⟩, hindexSpans, h⟩
        rcases reads_u4.bind_eq_ok_iff.1 h with ⟨size, _, m₂, ⟨rfl, hsize⟩, hsizeSpans, h⟩
        rcases Logged.outcome_bind_eq_ok_iff.1 h with ⟨_, hrequire, h⟩
        rcases Logged.outcome_bind_eq_ok_iff.1 h with ⟨name, hname, h⟩
        rcases Logged.outcome_bind_eq_ok_iff.1 h with ⟨_, -, h⟩
        rcases Logged.outcome_bind_eq_ok_iff.1 h with ⟨⟨a', m₃⟩, hcontents, h⟩
        rcases Logged.outcome_bind_eq_ok_iff.1 h with ⟨m₄, hfinish, hpair⟩
        cases hpair
        have hfits := Cursor.require_eq_ok_iff.1 hrequire
        rcases (payload_eq_ok_iff ih hname hindex hsize hfits).1 ⟨m₃, hcontents, hfinish⟩ with
          ⟨l, hheight, haccepted, rfl, rfl, hspans⟩
        have hheader := Cursor.spans_append_iff.2 ⟨m₁, hindexSpans, hsizeSpans⟩
        exact ⟨l, ⟨hheight, haccepted⟩, Cursor.spans_append_iff.2 ⟨m₂, hheader, hspans⟩⟩
      · intro h
        rcases h with ⟨l, ⟨hheight, haccepted⟩, hspans⟩
        rcases Cursor.spans_append_iff.1 hspans with ⟨m₂, hheader, hspans⟩
        rcases Cursor.spans_append_iff.1 hheader with ⟨m₁, hindexSpans, hsizeSpans⟩
        rcases haccepted.fits l l.mem_nodes_self with ⟨hindex, hsize, -⟩
        have hname := haccepted.denotes.utf8_eq_ok
        have hfits := hspans.length_le
        rcases (payload_eq_ok_iff ih hname hindex hsize hfits).2
          ⟨l, hheight, haccepted, rfl, rfl, hspans⟩ with ⟨m₃, hcontents, hfinish⟩
        apply reads_u2.bind_eq_ok_iff.2
        refine ⟨l.nameIndex, _, m₁, ⟨rfl, hindex⟩, hindexSpans, ?_⟩
        apply reads_u4.bind_eq_ok_iff.2
        refine ⟨l.payload.length, _, m₂, ⟨rfl, hsize⟩, hsizeSpans, ?_⟩
        apply Logged.outcome_bind_eq_ok_iff.2
        refine ⟨(), Cursor.require_eq_ok_iff.2 hfits, ?_⟩
        apply Logged.outcome_bind_eq_ok_iff.2
        refine ⟨a.name, hname, ?_⟩
        apply Logged.outcome_bind_eq_ok_iff.2
        refine ⟨(), rfl, ?_⟩
        apply Logged.outcome_bind_eq_ok_iff.2
        refine ⟨(a, m₃), hcontents, ?_⟩
        apply Logged.outcome_bind_eq_ok_iff.2
        exact ⟨c', hfinish, rfl⟩

end Decoder

/-! ## Buffers -/

namespace Attribute

variable {pool : ConstantPool} {policy : DecodingPolicy} {buffer : Bytes} {offset next : Nat}

/-- From an offset on, a buffer holds some bytes up to a later place. -/
theorem spans_ofBuffer_iff {bytes : Bytes} :
    (∃ c, (Cursor.ofBuffer buffer offset).Spans bytes c ∧ c.position = next) ↔
      bytes <+: buffer.drop offset ∧ next = offset + bytes.length := by
  constructor
  · intro h
    rcases h with ⟨c, ⟨hrest, hposition⟩, rfl⟩
    exact ⟨⟨c.rest, hrest.symm⟩, hposition⟩
  · intro h
    rcases h with ⟨⟨rest, hrest⟩, rfl⟩
    exact ⟨⟨offset + bytes.length, rest⟩, ⟨hrest.symm, rfl⟩, rfl⟩

/-- An attribute is read from a buffer exactly if the bytes of an accepted layout stand there. -/
theorem read_eq_ok_iff {a : Attribute} :
    (read pool policy buffer offset).outcome = .ok (a, next) ↔
      ∃ l : AttributeLayout, l.Accepted pool policy a ∧ l.bytes <+: buffer.drop offset ∧
        next = offset + l.bytes.length := by
  constructor
  · intro h
    rcases (Decoder.reads_decode _).bind_eq_ok_iff.1 h with
      ⟨a', l, c, ⟨-, haccepted⟩, hspans, hpair⟩
    cases hpair
    exact ⟨l, haccepted, spans_ofBuffer_iff.1 ⟨c, hspans, rfl⟩⟩
  · intro h
    rcases h with ⟨l, haccepted, hstands⟩
    rcases spans_ofBuffer_iff.2 hstands with ⟨c, hspans, rfl⟩
    -- The bytes of the layout stand in the buffer, so the bound on the depth exceeds its height.
    have hheight : l.height ≤ (Cursor.ofBuffer buffer offset).rest.length + 1 := by
      have hlevels := l.height_le_length
      have hbytes := hspans.length_le
      omega
    apply (Decoder.reads_decode _).bind_eq_ok_iff.2
    exact ⟨a, l, c, ⟨hheight, haccepted⟩, hspans, rfl⟩

/-- A list of attributes is read from a buffer exactly if a count and the bytes of as many accepted
layouts stand there. -/
theorem readList_eq_ok_iff {as : List Attribute} :
    (readList pool policy buffer offset).outcome = .ok (as, next) ↔
      ∃ ls : List AttributeLayout, ls.length < 65536 ∧
        List.Forall₂ (AttributeLayout.Accepted pool policy) ls as ∧
        Decoder.countedBytes AttributeLayout.bytes ls <+: buffer.drop offset ∧
        next = offset + (Decoder.countedBytes AttributeLayout.bytes ls).length := by
  constructor
  · intro h
    rcases (Decoder.reads_decode _).counted.bind_eq_ok_iff.1 h with
      ⟨as', ls, c, ⟨hcount, hall⟩, hspans, hpair⟩
    cases hpair
    rcases (List.forall₂_and_left _ _).1 hall with ⟨-, haccepted⟩
    exact ⟨ls, hcount, haccepted, spans_ofBuffer_iff.1 ⟨c, hspans, rfl⟩⟩
  · intro h
    rcases h with ⟨ls, hcount, haccepted, hstands⟩
    rcases spans_ofBuffer_iff.2 hstands with ⟨c, hspans, rfl⟩
    have hheights : AttributeLayout.listHeight ls ≤
        (Cursor.ofBuffer buffer offset).rest.length + 1 := by
      have hlevels := AttributeLayout.listHeight_le_length ls
      have hbytes := hspans.length_le
      rw [Decoder.countedBytes, List.length_append, ← AttributeLayout.listBytes_eq_flatMap]
        at hbytes
      omega
    have hall := (List.forall₂_and_left _ _).2
      ⟨AttributeLayout.listHeight_le_iff.1 hheights, haccepted⟩
    apply (Decoder.reads_decode _).counted.bind_eq_ok_iff.2
    exact ⟨as, ls, c, ⟨hcount, hall⟩, hspans, rfl⟩

end Attribute
end JvmMethods
