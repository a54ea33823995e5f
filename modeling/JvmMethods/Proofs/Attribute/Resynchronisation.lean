import JvmMethods.Proofs.Attribute.RoundTrip
import JvmMethods.Proofs.Attribute.Strictness

/-!
# Spare bytes

Spare bytes may follow the contents of code and of declared exceptions, at every level of nesting.
Whatever they look like, they are skipped under a lenient policy: the declared lengths lead back to
where the next attribute starts, so that everything around them is read as if they were not there.
Only the sizes of code are the declared lengths, which count them.

A strict policy refuses spare bytes.  What it reads takes up as many bytes as the attributes that
are read need, and spare bytes take up more.

Main results:

- Definitions {lit}`AttributeLayout.withoutSpare` and {lit}`AttributeLayout.resize`: a layout
  without its spare bytes, and an attribute with the declared lengths of a layout.
- Theorem {lit}`AttributeLayout.denotes_resize`: what spare bytes change in what a layout denotes.
- Theorem {lit}`AttributeLayout.length_payload_eq`: the bytes that a layout takes up are those that
  the attribute needs, and the spare ones.
- Theorem {lit}`Attribute.readList_padded`: spare bytes are skipped under a lenient policy, and
  refused under a strict one.
-/

namespace JvmMethods

/-- Whether the handlers of some code fit depends on the body alone. -/
theorem Code.validate_congr {c d : Code} (h : c.body = d.body) : c.validate = d.validate := by
  simp only [validate, handlers, length, h]

/-! ## Needed bytes -/

namespace Attribute

mutual

/-- The number of bytes that the contents of an attribute need. -/
def neededLength : Attribute → Nat
  | .code c nested => 12 + c.length + 8 * c.handlers.length + listNeededLength nested
  | .exceptions types => 2 + 2 * types.length
  | .raw _ info => info.length

/-- The number of bytes that some attributes need, headers included. -/
def listNeededLength : List Attribute → Nat
  | [] => 0
  | a :: as => 6 + a.neededLength + listNeededLength as

end

end Attribute

/-- Things of one length take up as many bytes as there are of them, after a count of two bytes. -/
theorem Decoder.length_countedBytes {ι : Type} {written : ι → Bytes} {n : Nat}
    (h : ∀ i, (written i).length = n) (is : List ι) :
    (countedBytes written is).length = 2 + n * is.length := by
  rw [countedBytes, List.length_append, Bytes.length_encode2, List.length_flatMap]
  simp [h, Nat.mul_comm]

/-- An entry of an exception table takes up eight bytes. -/
theorem HandlerLayout.length_bytes (l : HandlerLayout) : l.bytes.length = 8 := by
  simp [bytes]

/-- The limits and the two counts of code take up ten bytes, beside the code and its exception
table. -/
theorem CodeLayout.length_contents (l : CodeLayout) :
    l.contents.length = 10 + l.bytes.length + 8 * l.handlers.length := by
  simp only [contents, List.length_append, Bytes.length_encode2, Bytes.length_encode4,
    Decoder.length_countedBytes HandlerLayout.length_bytes]
  omega

/-- The contents of code take up what the code needs. -/
theorem CodeLayout.Denotes.length_contents {pool : ConstantPool} {size : Nat} {l : CodeLayout}
    {code : Code} (h : l.Denotes pool size code) :
    l.contents.length = 10 + code.length + 8 * code.handlers.length := by
  rcases h with ⟨handlers, hhandlers, rfl⟩
  rw [CodeLayout.length_contents, hhandlers.length_eq]
  rfl

/-! ## Layouts without spare bytes -/

namespace AttributeLayout

variable {pool : ConstantPool}

mutual

/-- The layout without the spare bytes at all levels. -/
def withoutSpare : AttributeLayout → AttributeLayout
  | .code nameIndex body nested _ => .code nameIndex body (listWithoutSpare nested) []
  | .exceptions nameIndex typeIndices _ => .exceptions nameIndex typeIndices []
  | .raw nameIndex info => .raw nameIndex info

/-- The layouts without the spare bytes at all levels. -/
def listWithoutSpare : List AttributeLayout → List AttributeLayout
  | [] => []
  | l :: ls => l.withoutSpare :: listWithoutSpare ls

end

/-- As many layouts are left without spare bytes. -/
@[simp]
theorem length_listWithoutSpare (ls : List AttributeLayout) :
    (listWithoutSpare ls).length = ls.length := by
  induction ls with
  | nil => rfl
  | cons l ls ih => rw [listWithoutSpare, List.length_cons, ih, List.length_cons]

/-- Spare bytes do not matter to the index of the name. -/
@[simp]
theorem nameIndex_withoutSpare (l : AttributeLayout) :
    l.withoutSpare.nameIndex = l.nameIndex := by
  cases l <;> rfl

/-- Spare bytes do not matter to the length of the code. -/
@[simp]
theorem codeLength_withoutSpare (l : AttributeLayout) :
    l.withoutSpare.codeLength = l.codeLength := by
  cases l <;> rfl

/-- No spare bytes are left. -/
@[simp]
theorem spare_withoutSpare (l : AttributeLayout) : l.withoutSpare.spare = [] := by
  cases l <;> rfl

mutual

/-- What is nested in a layout loses its spare bytes, too. -/
theorem nodes_withoutSpare : ∀ l : AttributeLayout,
    l.withoutSpare.nodes = l.nodes.map withoutSpare
  | .code _ _ nested _ => by
      rw [withoutSpare, nodes, nodes, List.map_cons, listNodes_withoutSpare nested, withoutSpare]
  | .exceptions _ _ _ => rfl
  | .raw _ _ => rfl

/-- The nested layouts lose their spare bytes as well. -/
theorem listNodes_withoutSpare : ∀ ls : List AttributeLayout,
    listNodes (listWithoutSpare ls) = (listNodes ls).map withoutSpare
  | [] => rfl
  | l :: ls => by
      rw [listWithoutSpare, listNodes, listNodes, List.map_append, nodes_withoutSpare l,
        listNodes_withoutSpare ls]

end

mutual

/-- A layout is not longer without its spare bytes. -/
theorem length_payload_withoutSpare_le : ∀ l : AttributeLayout,
    l.withoutSpare.payload.length ≤ l.payload.length
  | .code nameIndex body nested spare => by
      have hnested := length_listBytes_withoutSpare_le nested
      simp only [withoutSpare, payload, contents, AttributeLayout.spare, List.length_append,
        length_listWithoutSpare, List.length_nil, Bytes.length_encode2] at hnested ⊢
      omega
  | .exceptions _ _ _ => by
      simp only [withoutSpare, payload, contents, spare, List.length_append, List.length_nil]
      omega
  | .raw _ _ => Nat.le_refl _

/-- Without spare bytes, layouts do not get longer. -/
theorem length_listBytes_withoutSpare_le : ∀ ls : List AttributeLayout,
    (listBytes (listWithoutSpare ls)).length ≤ (listBytes ls).length
  | [] => Nat.le_refl _
  | l :: ls => by
      have hl := length_payload_withoutSpare_le l
      have hls := length_listBytes_withoutSpare_le ls
      rw [listBytes_eq_flatMap, listBytes_eq_flatMap] at hls ⊢
      rw [listWithoutSpare, List.flatMap_cons, List.flatMap_cons, List.length_append,
        List.length_append, length_bytes, length_bytes]
      omega

end

/-- What fits its fields with spare bytes fits them without. -/
theorem Fits.withoutSpare {l : AttributeLayout} (h : l.Fits) : l.withoutSpare.Fits := by
  rcases h with ⟨hindex, hsize, hcontents⟩
  refine ⟨?_, ?_, ?_⟩
  · rw [nameIndex_withoutSpare]
    exact hindex
  · exact Nat.lt_of_le_of_lt l.length_payload_withoutSpare_le hsize
  · cases l with
    | code nameIndex body nested spare =>
        refine ⟨hcontents.1, ?_⟩
        rw [length_listWithoutSpare]
        exact hcontents.2
    | exceptions => exact hcontents
    | raw => exact hcontents

/-! ## Declared lengths -/

mutual

/-- The attribute in which the size of all code is the declared length of its layout. -/
def resize : AttributeLayout → Attribute → Attribute
  | .code nameIndex body nested spare, .code c attributes =>
      .code { c with size := (AttributeLayout.code nameIndex body nested spare).payload.length }
        (listResize nested attributes)
  | _, a => a

/-- The attributes in which the sizes of all code are the declared lengths of their layouts. -/
def listResize : List AttributeLayout → List Attribute → List Attribute
  | l :: ls, a :: as => l.resize a :: listResize ls as
  | _, as => as

end

mutual

/-- A layout with spare bytes denotes what it denotes without them, apart from the sizes of code. -/
theorem denotes_resize : ∀ (l : AttributeLayout) {a : Attribute}, l.withoutSpare.Denotes pool a →
    l.Denotes pool (l.resize a)
  | .code nameIndex body nested spare, _, h => by
      cases h with
      | code hname hbody hnested =>
          rcases hbody with ⟨handlers, hhandlers, rfl⟩
          exact .code hname ⟨handlers, hhandlers, rfl⟩ (forall₂_denotes_resize nested hnested)
  | .exceptions _ _ _, _, h => by
      cases h with
      | exceptions hname htypes => exact .exceptions hname htypes
  | .raw _ _, _, h => by
      cases h with
      | raw hname hcode hexceptions => exact .raw hname hcode hexceptions

/-- Layouts stand for what they stand for without spare bytes, in the sizes that they declare. -/
theorem forall₂_denotes_resize : ∀ (ls : List AttributeLayout) {as : List Attribute},
    List.Forall₂ (Denotes pool) (listWithoutSpare ls) as →
    List.Forall₂ (Denotes pool) ls (listResize ls as)
  | [], _, h => by
      cases h
      exact .nil
  | l :: ls, _, h => by
      cases h with
      | cons hl hls => exact .cons (denotes_resize l hl) (forall₂_denotes_resize ls hls)

end

mutual

/-- Sizes aside, the code stays the same at all levels. -/
theorem map_body_codes_resize : ∀ (l : AttributeLayout) (a : Attribute),
    (l.resize a).codes.map Code.body = a.codes.map Code.body
  | .code _ _ nested _, .code c attributes => by
      rw [resize, Attribute.codes, Attribute.codes, List.map_cons, List.map_cons,
        map_body_listCodes_resize nested attributes]
  | .code _ _ _ _, .exceptions _ => rfl
  | .code _ _ _ _, .raw _ _ => rfl
  | .exceptions _ _ _, a => by cases a <;> rfl
  | .raw _ _, a => by cases a <;> rfl

/-- The bodies of all code stay as they are where sizes change. -/
theorem map_body_listCodes_resize : ∀ (ls : List AttributeLayout) (as : List Attribute),
    (Attribute.listCodes (listResize ls as)).map Code.body = (Attribute.listCodes as).map Code.body
  | l :: ls, a :: as => by
      rw [listResize, Attribute.listCodes, Attribute.listCodes, List.map_append, List.map_append,
        map_body_codes_resize l a, map_body_listCodes_resize ls as]
  | [], [] => rfl
  | [], _ :: _ => rfl
  | _ :: _, [] => rfl

end

/-! ## Spare bytes at all levels -/

/-- The number of spare bytes at all levels of a layout. -/
def spareLength (l : AttributeLayout) : Nat :=
  (l.nodes.flatMap spare).length

/-- The number of spare bytes at all levels of some layouts. -/
def listSpareLength (ls : List AttributeLayout) : Nat :=
  ((listNodes ls).flatMap spare).length

/-- The spare bytes of the first layout are counted first. -/
theorem listSpareLength_cons (l : AttributeLayout) (ls : List AttributeLayout) :
    listSpareLength (l :: ls) = l.spareLength + listSpareLength ls := by
  rw [listSpareLength, listNodes, List.flatMap_append, List.length_append]
  rfl

/-- There are no spare bytes exactly if there are none at any level. -/
theorem listSpareLength_eq_zero_iff {ls : List AttributeLayout} :
    listSpareLength ls = 0 ↔ ∀ n ∈ listNodes ls, n.spare = [] := by
  rw [listSpareLength, List.length_eq_zero_iff, List.flatMap_eq_nil_iff]

mutual

/-- A payload takes up the bytes that the attribute needs, and the spare ones. -/
theorem length_payload_eq : ∀ (l : AttributeLayout) {a : Attribute}, l.Denotes pool a →
    l.payload.length = a.neededLength + l.spareLength
  | .code nameIndex body nested spare, _, h => by
      cases h with
      | code hname hbody hnested =>
          have hown := hbody.length_contents
          have hlist := length_listBytes_eq nested hnested
          have hspare : (AttributeLayout.code nameIndex body nested spare).spareLength =
              spare.length + listSpareLength nested := List.length_append
          rw [hspare, payload, contents, AttributeLayout.spare, List.length_append,
            List.length_append, List.length_append, Bytes.length_encode2, hown, hlist,
            Attribute.neededLength]
          omega
  | .exceptions nameIndex typeIndices spare, _, h => by
      cases h with
      | exceptions hname htypes =>
          have hspare : (AttributeLayout.exceptions nameIndex typeIndices spare).spareLength =
              spare.length := congrArg List.length (List.append_nil spare)
          rw [hspare, payload, contents, AttributeLayout.spare, List.length_append,
            Decoder.length_countedBytes Bytes.length_encode2, htypes.length_eq,
            Attribute.neededLength]
  | .raw nameIndex info, _, h => by
      cases h with
      | raw => rw [payload, contents, AttributeLayout.spare, List.append_nil]; rfl

/-- Layouts are as long as what they stand for needs, and their spare bytes. -/
theorem length_listBytes_eq : ∀ (ls : List AttributeLayout) {as : List Attribute},
    List.Forall₂ (Denotes pool) ls as →
    (listBytes ls).length = Attribute.listNeededLength as + listSpareLength ls
  | [], _, h => by
      cases h
      rfl
  | l :: ls, _, h => by
      cases h with
      | cons hl hls =>
          have hpayload := length_payload_eq l hl
          have hlist := length_listBytes_eq ls hls
          rw [listBytes_eq_flatMap] at hlist ⊢
          rw [List.flatMap_cons, List.length_append, length_bytes, hpayload, hlist,
            Attribute.listNeededLength, listSpareLength_cons]
          omega

end

end AttributeLayout

/-! ## Reading across spare bytes -/

namespace Attribute

variable {pool : ConstantPool} {policy : DecodingPolicy}

/-- Sizes do not matter to whether the code at all levels is valid. -/
theorem valid_listResize {layouts : List AttributeLayout} {attributes : List Attribute}
    (h : ∀ c ∈ listCodes attributes, c.validate = .ok ()) :
    ∀ c ∈ listCodes (AttributeLayout.listResize layouts attributes), c.validate = .ok () := by
  intro c hc
  have hbody := List.mem_map_of_mem (f := Code.body) hc
  rw [AttributeLayout.map_body_listCodes_resize] at hbody
  rcases List.mem_map.1 hbody with ⟨d, hd, hsame⟩
  rw [← Code.validate_congr hsame]
  exact h d hd

section Acceptance

variable {layouts : List AttributeLayout} {attributes : List Attribute}
  (hdenote : List.Forall₂ (AttributeLayout.Denotes pool)
    (AttributeLayout.listWithoutSpare layouts) attributes)
  (hfit : ∀ n ∈ AttributeLayout.listNodes layouts, n.Fits)
  (hlimit : ∀ n ∈ AttributeLayout.listNodes layouts, n.codeLength ≤ policy.maxCodeLength)
  (hvalid : policy.validateHandlers = true → ∀ c ∈ listCodes attributes, c.validate = .ok ())
include hdenote hfit hlimit hvalid

/-- Layouts without spare bytes are accepted under every policy. -/
theorem accepted_withoutSpare :
    List.Forall₂ (AttributeLayout.Accepted pool policy)
      (AttributeLayout.listWithoutSpare layouts) attributes := by
  refine AttributeLayout.forall₂_accepted_iff.2 ⟨hdenote, ?_, ?_, hvalid⟩
  · rw [AttributeLayout.listNodes_withoutSpare, List.forall_mem_map]
    exact fun n hn => (hfit n hn).withoutSpare
  · rw [AttributeLayout.listNodes_withoutSpare, List.forall_mem_map]
    intro n hn
    refine ⟨?_, fun _ => n.spare_withoutSpare⟩
    rw [AttributeLayout.codeLength_withoutSpare]
    exact hlimit n hn

/-- With spare bytes they are accepted under a lenient policy. -/
theorem accepted_listResize :
    List.Forall₂ (AttributeLayout.Accepted pool policy.lenient) layouts
      (AttributeLayout.listResize layouts attributes) := by
  refine AttributeLayout.forall₂_accepted_iff.2
    ⟨AttributeLayout.forall₂_denotes_resize layouts hdenote, hfit, ?_, ?_⟩
  · exact fun n hn => ⟨hlimit n hn, fun hstrict => nomatch hstrict⟩
  · exact fun hvalidate => valid_listResize (hvalid hvalidate)

end Acceptance

/-- Accepted layouts are read wherever their bytes stand. -/
theorem readList_of_accepted {layouts : List AttributeLayout} {attributes : List Attribute}
    (before after : Bytes) (hcount : layouts.length < 65536)
    (haccepted : List.Forall₂ (AttributeLayout.Accepted pool policy) layouts attributes) :
    (readList pool policy
        (before ++ Decoder.countedBytes AttributeLayout.bytes layouts ++ after)
        before.length).outcome =
      .ok (attributes,
        before.length + (Decoder.countedBytes AttributeLayout.bytes layouts).length) := by
  refine readList_eq_ok_iff.2 ⟨layouts, hcount, haccepted, ?_, rfl⟩
  rw [List.append_assoc, List.drop_left]
  exact List.prefix_append _ _

/-- What a strict policy reads has no spare bytes: whatever is read from it up to the same place has
none. -/
theorem spare_eq_nil_of_readList {buffer : Bytes} {offset : Nat} {layouts : List AttributeLayout}
    {attributes : List Attribute} (hstrict : policy.strictLengths = true)
    (hdenote : List.Forall₂ (AttributeLayout.Denotes pool) layouts attributes)
    (h : (readList pool policy buffer offset).outcome =
      .ok (attributes,
        offset + (Decoder.countedBytes AttributeLayout.bytes layouts).length)) :
    ∀ n ∈ AttributeLayout.listNodes layouts, n.spare = [] := by
  rcases readList_eq_ok_iff.1 h with ⟨ls, -, haccepted, -, hend⟩
  rcases AttributeLayout.forall₂_accepted_iff.1 haccepted with ⟨hdenote', -, hpermit, -⟩
  have hnone : AttributeLayout.listSpareLength ls = 0 :=
    AttributeLayout.listSpareLength_eq_zero_iff.2 fun n hn => (hpermit n hn).2 hstrict
  have hlength := AttributeLayout.length_listBytes_eq layouts hdenote
  have hlength' := AttributeLayout.length_listBytes_eq ls hdenote'
  simp only [Decoder.countedBytes, List.length_append, Bytes.length_encode2,
    ← AttributeLayout.listBytes_eq_flatMap] at hend
  exact AttributeLayout.listSpareLength_eq_zero_iff.1 (by omega)

/-- Attributes are read from the bytes they are written as.  Spare bytes after the contents of code
and of declared exceptions, at any level, are skipped under a lenient policy: the same attributes
are read, except that the sizes of code are the declared lengths, and reading ends just past the
list.  Under a strict policy they are refused, however many there are. -/
theorem readList_padded {layouts : List AttributeLayout} {attributes : List Attribute}
    (before after : Bytes)
    (hdenote : List.Forall₂ (AttributeLayout.Denotes pool)
      (AttributeLayout.listWithoutSpare layouts) attributes)
    (hcount : layouts.length < 65536)
    (hfit : ∀ n ∈ AttributeLayout.listNodes layouts, n.Fits)
    (hlimit : ∀ n ∈ AttributeLayout.listNodes layouts, n.codeLength ≤ policy.maxCodeLength)
    (hvalid : policy.validateHandlers = true →
      ∀ c ∈ listCodes attributes, c.validate = .ok ()) :
    let bare := Decoder.countedBytes AttributeLayout.bytes
      (AttributeLayout.listWithoutSpare layouts)
    let padded := Decoder.countedBytes AttributeLayout.bytes layouts
    (readList pool policy (before ++ bare ++ after) before.length).outcome =
        .ok (attributes, before.length + bare.length) ∧
      (policy.strictLengths = false →
        (readList pool policy (before ++ padded ++ after) before.length).outcome =
          .ok (AttributeLayout.listResize layouts attributes, before.length + padded.length)) ∧
      (policy.strictLengths = true →
        (∃ n ∈ AttributeLayout.listNodes layouts, n.spare ≠ []) →
          ∃ e, (readList pool policy (before ++ padded ++ after) before.length).outcome =
            .error e ∧ e.kind = .malformedAttribute) := by
  intro bare padded
  have hbare := accepted_withoutSpare hdenote hfit hlimit hvalid
  have hpadded := accepted_listResize hdenote hfit hlimit hvalid
  have hlenient := readList_of_accepted before after hcount hpadded
  refine ⟨?_, ?_, ?_⟩
  · refine readList_of_accepted before after ?_ hbare
    rw [AttributeLayout.length_listWithoutSpare]
    exact hcount
  · intro hstrict
    rw [DecodingPolicy.lenient_of_not_strict hstrict] at hlenient
    exact hlenient
  · rintro hstrict ⟨n, hn, hspare⟩
    rcases readList_narrows _ _ _ hlenient with hsame | hmalformed
    · have hresized := AttributeLayout.forall₂_denotes_resize layouts hdenote
      exact absurd (spare_eq_nil_of_readList hstrict hresized hsame n hn) hspare
    · exact hmalformed

/-- Code with declared exceptions in it and after it.  The spare bytes of the code, and those of the
exceptions in it, look like further attributes. -/
def paddedLayouts : List AttributeLayout :=
  [.code 1 ⟨1, 2, [177], []⟩ [.exceptions 2 [5] [0, 3, 0, 0, 0, 0]] [0, 2, 0, 0, 0, 2, 0, 0],
    .exceptions 2 [5] []]

/-- The attributes of these layouts, if the size of the code is the given one. -/
def paddedAttributes (size : Nat) : List Attribute :=
  [.code ⟨size, 1, 2, some ⟨[177], []⟩⟩ [.exceptions [.ofName ⟨"a/E"⟩]],
    .exceptions [.ofName ⟨"a/E"⟩]]

/-- The layouts stand for these attributes, apart from their spare bytes. -/
theorem paddedLayouts_denote :
    List.Forall₂ (AttributeLayout.Denotes examplePool)
      (AttributeLayout.listWithoutSpare paddedLayouts) (paddedAttributes 23) := by
  have hclass : examplePool.NamesType 5 (some (.ofName ⟨"a/E"⟩)) := ⟨by decide, by cbv⟩
  have hexceptions : AttributeLayout.Denotes examplePool (.exceptions 2 [5] [])
      (.exceptions [.ofName ⟨"a/E"⟩]) := .exceptions rfl (.cons hclass .nil)
  exact .cons (.code rfl ⟨[], .nil, rfl⟩ (.cons hexceptions .nil)) (.cons hexceptions .nil)

/-- The lenient policy reads past spare bytes at two levels, which the strict one refuses. -/
theorem readList_padded_nested :
    List.Forall₂ (AttributeLayout.Denotes examplePool)
        (AttributeLayout.listWithoutSpare paddedLayouts) (paddedAttributes 23) ∧
      (readList examplePool {}
          ([202] ++ Decoder.countedBytes AttributeLayout.bytes paddedLayouts ++ [0, 7])
          1).outcome = .ok (paddedAttributes 37, 56) ∧
      ∃ e, (readList examplePool .strict
          ([202] ++ Decoder.countedBytes AttributeLayout.bytes paddedLayouts ++ [0, 7])
          1).outcome = .error e ∧ e.kind = .malformedAttribute := by
  have hlenient := @readList_padded examplePool {} _ _ [202] [0, 7] paddedLayouts_denote
    (by decide) (by decide) (by decide) (by decide)
  have hstrict := @readList_padded examplePool .strict _ _ [202] [0, 7] paddedLayouts_denote
    (by decide) (by decide) (by decide) (by decide)
  exact ⟨paddedLayouts_denote, hlenient.2.1 rfl, hstrict.2.2 rfl (by decide)⟩

end Attribute
end JvmMethods
