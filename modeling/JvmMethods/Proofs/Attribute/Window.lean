import JvmMethods.Proofs.Attribute.RoundTrip

/-!
# Windows of buffers

An attribute that is read from a buffer takes up a window of it, from the offset it is read at up to
the offset just past it.  What stands outside of the window has no influence, although nested
attributes are bounded by nothing but the buffer while they are read.  A buffer that ends inside of
the window is found out: the attributes before the cut are read as before, and the header of the one
that is cut asks for more bytes than there are.

Main results:

- Theorem {lit}`Decoder.decode_runsShort`: an attribute that is cut fails for want of bytes,
  before its contents are looked at.
- Theorem {lit}`Decoder.times_decode_runsShort`: so do some attributes of which the last ones
  are missing or cut.
- Theorem {lit}`Attribute.window_of_read`: reading an attribute, or a list of attributes, depends on
  exactly the bytes of its window.
-/

namespace JvmMethods

/-! ## Shortage of bytes -/

/-- A failure that reports that a buffer ends too early. -/
def Error.IsShortage (e : Error) : Prop :=
  e.kind = .failedRead ∨ e.kind = .outOfBounds

/-- The computation fails because a buffer ends too early. -/
def Logged.RunsShort {α : Type} (x : Logged Error α) : Prop :=
  ∃ e, x.outcome = .error e ∧ e.IsShortage

/-- What follows a shortage does not change it. -/
theorem Logged.RunsShort.bind {α β : Type} {x : Logged Error α} (h : x.RunsShort)
    (f : α → Logged Error β) : (x >>= f).RunsShort := by
  rcases h with ⟨e, herror, hshort⟩
  exact ⟨e, outcome_bind_of_error herror, hshort⟩

/-- A failure after a first part that succeeds. -/
theorem Logged.RunsShort.of_bind {α β : Type} {x : Logged Error α} {f : α → Logged Error β} {a : α}
    (hx : x.outcome = .ok a) (h : (f a).RunsShort) : (x >>= f).RunsShort := by
  rcases h with ⟨e, herror, hshort⟩
  refine ⟨e, ?_, hshort⟩
  rw [outcome_bind_of_ok hx, herror]

/-- Changing a value does not change a shortage. -/
theorem Logged.RunsShort.map {α β : Type} {x : Logged Error α} (h : x.RunsShort) (f : α → β) :
    (f <$> x).RunsShort := by
  rcases h with ⟨e, herror, hshort⟩
  refine ⟨e, ?_, hshort⟩
  rw [outcome_map, herror]
  rfl

namespace Cursor

/-- A number of two bytes cannot be read from fewer. -/
theorem u2_runsShort {c : Cursor} (h : c.rest.length < 2) :
    (Logged.ofExcept c.u2).RunsShort := by
  rcases c with ⟨position, _ | ⟨a, _ | ⟨b, rest⟩⟩⟩
  · exact ⟨.truncated, rfl, .inl rfl⟩
  · exact ⟨.truncated, rfl, .inl rfl⟩
  · simp only [List.length_cons] at h
    omega

/-- A number of four bytes cannot be read from fewer. -/
theorem u4_runsShort {c : Cursor} (h : c.rest.length < 4) :
    (Logged.ofExcept c.u4).RunsShort := by
  rcases c with ⟨position, _ | ⟨b₁, _ | ⟨b₂, _ | ⟨b₃, _ | ⟨b₄, rest⟩⟩⟩⟩⟩
  · exact ⟨.truncated, rfl, .inl rfl⟩
  · exact ⟨.truncated, rfl, .inl rfl⟩
  · exact ⟨.truncated, rfl, .inl rfl⟩
  · exact ⟨.truncated, rfl, .inl rfl⟩
  · simp only [List.length_cons] at h
    omega

/-- More bytes than are left cannot be required. -/
theorem require_runsShort {c : Cursor} {length : Nat} (h : c.rest.length < length) :
    (Logged.ofExcept (c.require length)).RunsShort := by
  refine ⟨.outOfBounds c.position length (c.position + c.rest.length), ?_, .inr rfl⟩
  rw [Logged.outcome_ofExcept, require, if_neg]
  rw [Bytes.atLeast_iff]
  exact Nat.not_le.2 h

/-- At a place stand the first of some bytes, and the bytes that follow are missing. -/
structure Cuts (c : Cursor) (bytes : Bytes) : Prop where
  rest_prefix : c.rest <+: bytes
  length_lt : c.rest.length < bytes.length

/-- Bytes that are cut are cut in their first part, or else after it. -/
theorem Cuts.append_cases {c : Cursor} {first second : Bytes} (h : c.Cuts (first ++ second)) :
    c.Cuts first ∨ ∃ m, c.Spans first m ∧ m.Cuts second := by
  rcases h with ⟨hleading, hlt⟩
  by_cases hfirst : first.length ≤ c.rest.length
  · right
    rcases List.prefix_of_prefix_length_le (List.prefix_append first second) hleading hfirst with
      ⟨rest, hrest⟩
    refine ⟨⟨c.position + first.length, rest⟩, ⟨hrest.symm, rfl⟩, ?_, ?_⟩
    · rw [← hrest] at hleading
      exact (List.prefix_append_right_inj first).1 hleading
    · rw [← hrest, List.length_append, List.length_append] at hlt
      exact Nat.lt_of_add_lt_add_left hlt
  · left
    have hlength := Nat.not_le.1 hfirst
    exact ⟨List.prefix_of_prefix_length_le hleading (List.prefix_append first second)
      (Nat.le_of_lt hlength), hlength⟩

/-- A buffer that is cut somewhere before the end of some bytes. -/
theorem cuts_ofBuffer_take {buffer bytes : Bytes} {offset k : Nat}
    (hstands : bytes <+: buffer.drop offset) (hbytes : bytes ≠ [])
    (hk : k < offset + bytes.length) : (ofBuffer (buffer.take k) offset).Cuts bytes := by
  have hpos := List.length_pos_iff.2 hbytes
  have hlength : ((buffer.take k).drop offset).length < bytes.length := by
    rw [List.length_drop, List.length_take]
    omega
  have hdrop : (buffer.take k).drop offset <+: buffer.drop offset := by
    rw [List.drop_take]
    exact List.take_prefix _ _
  exact ⟨List.prefix_of_prefix_length_le hdrop hstands (Nat.le_of_lt hlength), hlength⟩

end Cursor

/-! ## Attributes that are cut -/

namespace Decoder

variable {pool : ConstantPool} {policy : DecodingPolicy}

/-- An attribute that is cut fails for want of bytes.  Its header is cut, or else the header asks
for a payload that is not there. -/
theorem decode_runsShort {l : AttributeLayout} (hfits : l.Fits) {depth : Nat}
    (hdepth : 0 < depth) {c : Cursor} (hcut : c.Cuts l.bytes) :
    (decode pool policy depth c).RunsShort := by
  rcases Nat.exists_eq_succ_of_ne_zero (Nat.ne_of_gt hdepth) with ⟨depth, rfl⟩
  rcases hfits with ⟨hindex, hsize, -⟩
  rw [AttributeLayout.bytes, List.append_assoc] at hcut
  rcases hcut.append_cases with hcut | ⟨m₁, hindexSpans, hcut⟩
  · exact (Cursor.u2_runsShort hcut.length_lt).bind _
  · apply Logged.RunsShort.of_bind (Cursor.u2_eq_ok_iff.2 ⟨hindex, hindexSpans⟩)
    rcases hcut.append_cases with hcut | ⟨m₂, hsizeSpans, hcut⟩
    · exact (Cursor.u4_runsShort hcut.length_lt).bind _
    · apply Logged.RunsShort.of_bind (Cursor.u4_eq_ok_iff.2 ⟨hsize, hsizeSpans⟩)
      exact (Cursor.require_runsShort hcut.length_lt).bind _

/-- Some attributes of which the last ones are missing or cut fail for want of bytes.  Those before
the cut are read. -/
theorem times_decode_runsShort {ls : List AttributeLayout} {as : List Attribute}
    (h : List.Forall₂ (AttributeLayout.Accepted pool policy) ls as) {depth : Nat} {c : Cursor}
    (hdepth : c.rest.length < depth) (hcut : c.Cuts (ls.flatMap AttributeLayout.bytes)) :
    (times (decode pool policy depth) ls.length c).RunsShort := by
  induction h generalizing c with
  | nil => exact absurd hcut.length_lt (Nat.not_lt_zero _)
  | @cons l a ls as hl _ ih =>
      have hpos : 0 < depth := by omega
      rw [List.flatMap_cons] at hcut
      rcases hcut.append_cases with hcut | ⟨m, hspans, hcut⟩
      · exact (decode_runsShort (hl.fits l l.mem_nodes_self) hpos hcut).bind _
      · have hlevels := l.height_le_length
        have hbytes := hspans.length_le
        have hread := (reads_decode depth c a m).2 ⟨l, ⟨by omega, hl⟩, hspans⟩
        have hrest := congrArg List.length hspans.rest_eq
        rw [List.length_append] at hrest
        exact Logged.RunsShort.of_bind hread ((ih (by omega) hcut).map _)

/-- A counted list of attributes that is cut fails for want of bytes. -/
theorem counted_decode_runsShort {ls : List AttributeLayout} {as : List Attribute}
    (h : List.Forall₂ (AttributeLayout.Accepted pool policy) ls as) (hcount : ls.length < 65536)
    {depth : Nat} {c : Cursor} (hdepth : c.rest.length < depth)
    (hcut : c.Cuts (countedBytes AttributeLayout.bytes ls)) :
    (counted (decode pool policy depth) c).RunsShort := by
  rcases hcut.append_cases with hcut | ⟨m, hspans, hcut⟩
  · exact (Cursor.u2_runsShort hcut.length_lt).bind _
  · have hrest := congrArg List.length hspans.rest_eq
    rw [List.length_append] at hrest
    apply Logged.RunsShort.of_bind (Cursor.u2_eq_ok_iff.2 ⟨hcount, hspans⟩)
    exact times_decode_runsShort h (by omega) hcut

end Decoder

/-! ## Windows -/

/-- What was read at an offset of a buffer depends on exactly the bytes up to {lit}`next`. -/
structure DependsOnWindow {α : Type} (read : Bytes → Nat → Logged Error (α × Nat))
    (buffer : Bytes) (offset : Nat) (a : α) (next : Nat) : Prop where
  /-- The same is read wherever these bytes stand, whatever precedes and follows them. -/
  elsewhere : ∀ other offset', (buffer.drop offset).take (next - offset) <+: other.drop offset' →
    (read other offset').outcome = .ok (a, offset' + (next - offset))
  /-- Nothing is read from a buffer that ends before all of them. -/
  cut : ∀ k < next, (read (buffer.take k) offset).RunsShort

namespace Attribute

variable {pool : ConstantPool} {policy : DecodingPolicy} {buffer : Bytes} {offset next : Nat}

/-- The window is what stands there of some bytes that reach up to its end. -/
theorem window_eq {bytes : Bytes} (hstands : bytes <+: buffer.drop offset) :
    (buffer.drop offset).take (offset + bytes.length - offset) = bytes := by
  rw [Nat.add_sub_cancel_left]
  exact (List.prefix_iff_eq_take.1 hstands).symm

/-- Reading an attribute depends on exactly the bytes that it takes up, and so does reading a list
of attributes.  The same bytes are read as the same wherever they stand, and a buffer that ends
inside of them is reported to end too early. -/
theorem window_of_read (pool : ConstantPool) (policy : DecodingPolicy) (buffer : Bytes)
    (offset next : Nat) :
    (∀ a, (read pool policy buffer offset).outcome = .ok (a, next) →
        DependsOnWindow (read pool policy) buffer offset a next) ∧
      ∀ as, (readList pool policy buffer offset).outcome = .ok (as, next) →
        DependsOnWindow (readList pool policy) buffer offset as next := by
  constructor
  · intro a h
    rcases read_eq_ok_iff.1 h with ⟨l, haccepted, hstands, rfl⟩
    refine ⟨?_, ?_⟩
    · intro other offset' hother
      rw [window_eq hstands] at hother
      rw [Nat.add_sub_cancel_left]
      exact read_eq_ok_iff.2 ⟨l, haccepted, hother, rfl⟩
    · intro k hk
      have hne : l.bytes ≠ [] := List.length_pos_iff.1 (by rw [l.length_bytes]; omega)
      have hcut := Cursor.cuts_ofBuffer_take hstands hne hk
      have hfits := haccepted.fits l l.mem_nodes_self
      exact (Decoder.decode_runsShort hfits (Nat.succ_pos _) hcut).bind _
  · intro as h
    rcases readList_eq_ok_iff.1 h with ⟨ls, hcount, haccepted, hstands, rfl⟩
    refine ⟨?_, ?_⟩
    · intro other offset' hother
      rw [window_eq hstands] at hother
      rw [Nat.add_sub_cancel_left]
      exact readList_eq_ok_iff.2 ⟨ls, hcount, haccepted, hother, rfl⟩
    · intro k hk
      have hne : Decoder.countedBytes AttributeLayout.bytes ls ≠ [] :=
        List.append_ne_nil_of_left_ne_nil (List.cons_ne_nil _ _) _
      have hcut := Cursor.cuts_ofBuffer_take hstands hne hk
      exact (Decoder.counted_decode_runsShort haccepted hcount (Nat.lt_succ_self _) hcut).bind _

/-- Code with spare bytes, in which declared exceptions with a spare byte are nested. -/
def exampleSpareLayout : AttributeLayout :=
  .code 1 ⟨1, 2, [177], []⟩ [.exceptions 2 [5] [9]] [8, 8]

/-- What the code with spare bytes stands for. -/
def exampleSpare : Attribute :=
  .code ⟨26, 1, 2, some ⟨[177], []⟩⟩ [.exceptions [.ofName ⟨"a/E"⟩]]

/-- Code with spare bytes is read from exactly its own bytes, wherever they stand. -/
theorem window_of_read_spare :
    (read examplePool {} ([202] ++ exampleSpareLayout.bytes ++ [0, 7]) 1).outcome =
        .ok (exampleSpare, 33) ∧
      (read examplePool {} (exampleSpareLayout.bytes ++ [1]) 0).outcome = .ok (exampleSpare, 32) ∧
      (∀ k < 33, (read examplePool {}
        (([202] ++ exampleSpareLayout.bytes ++ [0, 7]).take k) 1).RunsShort) ∧
      (readList examplePool {} ([0, 1] ++ exampleSpareLayout.bytes) 0).outcome =
        .ok ([exampleSpare], 34) ∧
      ∀ k < 34, (readList examplePool {}
        (([0, 1] ++ exampleSpareLayout.bytes).take k) 0).RunsShort := by
  have hread : (read examplePool {} ([202] ++ exampleSpareLayout.bytes ++ [0, 7]) 1).outcome =
      .ok (exampleSpare, 33) := rfl
  have hlist : (readList examplePool {} ([0, 1] ++ exampleSpareLayout.bytes) 0).outcome =
      .ok ([exampleSpare], 34) := rfl
  have hwindow := (window_of_read examplePool {} _ 1 33).1 _ hread
  have hlistWindow := (window_of_read examplePool {} _ 0 34).2 _ hlist
  exact ⟨hread, hwindow.elsewhere _ 0 (by decide), hwindow.cut, hlist, hlistWindow.cut⟩

end Attribute
end JvmMethods
