import JvmMethods.Proofs.Attribute.Format

/-!
# Reading what is written

Reading and writing attributes are inverse to each other.  What is written without spare bytes is
read back, wherever it stands in a buffer, and whatever is read has been written in the format.

Main results:

- Theorem {lit}`Attribute.readList_written`: a list of attributes is read back from its bytes,
  whatever precedes and follows them.
- Theorem {lit}`Attribute.written_of_read`: an attribute that is read from a buffer stands there as
  one of its layouts.
-/

namespace JvmMethods
namespace Attribute

variable {pool : ConstantPool} {policy : DecodingPolicy}

/-! ## From layouts to attributes -/

/-- A list of attributes is read back from the bytes it is written as, whatever precedes and follows
them.  Every number must fit its field, and the policy must allow for the code. -/
theorem readList_written {layouts : List AttributeLayout} {attributes : List Attribute}
    (before after : Bytes)
    (hdenote : List.Forall₂ (AttributeLayout.Denotes pool) layouts attributes)
    (hcount : layouts.length < 65536)
    (hfit : ∀ n ∈ AttributeLayout.listNodes layouts, n.Fits)
    (hspare : ∀ n ∈ AttributeLayout.listNodes layouts, n.spare = [])
    (hlimit : ∀ n ∈ AttributeLayout.listNodes layouts, n.codeLength ≤ policy.maxCodeLength)
    (hvalid : policy.validateHandlers = true →
      ∀ c ∈ listCodes attributes, c.validate = .ok ()) :
    (readList pool policy
        (before ++ Decoder.countedBytes AttributeLayout.bytes layouts ++ after)
        before.length).outcome =
      .ok (attributes,
        before.length + (Decoder.countedBytes AttributeLayout.bytes layouts).length) := by
  have hpermit : ∀ n ∈ AttributeLayout.listNodes layouts, n.Permitted policy := by
    intro n hn
    exact ⟨hlimit n hn, fun _ => hspare n hn⟩
  have haccepted := AttributeLayout.forall₂_accepted_iff.2 ⟨hdenote, hfit, hpermit, hvalid⟩
  apply readList_eq_ok_iff.2
  refine ⟨layouts, hcount, haccepted, ?_, rfl⟩
  rw [List.append_assoc, List.drop_left]
  exact List.prefix_append _ _

/-- The names and the class that the example below refers to. -/
def examplePool : ConstantPool :=
  .ofConstants [.utf8 "Code", .utf8 "Exceptions", .utf8 "LineNumberTable", .utf8 "a/E", .classRef 4]

/-- Declared exceptions, and code with two handlers whose nested code has an attribute itself. -/
def exampleLayouts : List AttributeLayout :=
  [.exceptions 2 [5] [],
    .code 1 ⟨1, 2, [42, 177], [⟨0, 1, 1, 5⟩, ⟨0, 2, 0, 0⟩]⟩
      [.code 1 ⟨0, 0, [177], []⟩ [.raw 3 [0, 0]] []] []]

/-- What the example stands for. -/
def exampleAttributes : List Attribute :=
  [.exceptions [.ofName ⟨"a/E"⟩],
    .code ⟨57, 1, 2, some ⟨[42, 177], [⟨0, 1, 1, some (.ofName ⟨"a/E"⟩)⟩, ⟨0, 2, 0, none⟩]⟩⟩
      [.code ⟨21, 0, 0, some ⟨[177], []⟩⟩ [.raw "LineNumberTable" [0, 0]]]]

/-- The layouts stand for these attributes. -/
theorem exampleLayouts_denote :
    List.Forall₂ (AttributeLayout.Denotes examplePool) exampleLayouts exampleAttributes := by
  have hclass : examplePool.NamesType 5 (some (.ofName ⟨"a/E"⟩)) := ⟨by decide, by cbv⟩
  have hcode : examplePool.utf8 1 = .ok codeName := rfl
  refine .cons (.exceptions rfl (.cons hclass .nil)) (.cons (.code hcode ⟨_, ?_, rfl⟩ ?_) .nil)
  · exact .cons ⟨_, hclass, rfl⟩ (.cons ⟨none, rfl, rfl⟩ .nil)
  · exact .cons (.code hcode ⟨[], .nil, rfl⟩ (.cons (.raw rfl (by decide) (by decide)) .nil)) .nil

/-- Attributes with nested ones are read back from the middle of a buffer. -/
theorem readList_written_nested :
    List.Forall₂ (AttributeLayout.Denotes examplePool) exampleLayouts exampleAttributes ∧
      (readList examplePool .strict
          ([202] ++ Decoder.countedBytes AttributeLayout.bytes exampleLayouts ++ [0, 7])
          1).outcome =
        .ok (exampleAttributes, 76) :=
  ⟨exampleLayouts_denote,
    readList_written [202] [0, 7] exampleLayouts_denote (by decide) (by decide) (by decide)
      (by decide) (by decide)⟩

/-! ## From attributes to layouts -/

/-- An attribute that is read from a buffer stands there as one of its layouts, of which nothing is
missing.  Code is not longer than the policy allows, and spare bytes follow contents only where the
policy is not strict. -/
theorem written_of_read {buffer : Bytes} {offset next : Nat} {a : Attribute}
    (h : (read pool policy buffer offset).outcome = .ok (a, next)) :
    next ≤ buffer.length ∧ ∃ l : AttributeLayout,
      (buffer.drop offset).take (next - offset) = l.bytes ∧
        next = offset + 6 + l.payload.length ∧ l.Denotes pool a ∧
        (∀ n ∈ l.nodes, n.Fits) ∧ (∀ n ∈ l.nodes, n.codeLength ≤ policy.maxCodeLength) ∧
        (policy.strictLengths = true → ∀ n ∈ l.nodes, n.spare = []) := by
  rcases read_eq_ok_iff.1 h with ⟨l, haccepted, hprefix, rfl⟩
  have hle := hprefix.length_le
  have hlength := l.length_bytes
  rw [List.length_drop] at hle
  refine ⟨by omega, l, ?_, by omega, haccepted.denotes, haccepted.fits, ?_, ?_⟩
  · rw [Nat.add_sub_cancel_left]
    exact (List.prefix_iff_eq_take.1 hprefix).symm
  · intro n hn
    exact (haccepted.permitted n hn).1
  · intro hstrict n hn
    exact (haccepted.permitted n hn).2 hstrict

/-- The second of the attributes is read where its layout stands. -/
theorem written_of_read_nested :
    (read examplePool .strict (AttributeLayout.listBytes exampleLayouts) 10).outcome =
        .ok (exampleAttributes[1], 73) ∧
      73 ≤ (AttributeLayout.listBytes exampleLayouts).length ∧ ∃ l : AttributeLayout,
        ((AttributeLayout.listBytes exampleLayouts).drop 10).take 63 = l.bytes ∧
          73 = 16 + l.payload.length ∧ l.Denotes examplePool exampleAttributes[1] ∧
          (∀ n ∈ l.nodes, n.Fits) ∧
          (∀ n ∈ l.nodes, n.codeLength ≤ DecodingPolicy.strict.maxCodeLength) ∧
          (DecodingPolicy.strict.strictLengths = true → ∀ n ∈ l.nodes, n.spare = []) := by
  have h : (read examplePool .strict (AttributeLayout.listBytes exampleLayouts) 10).outcome =
      .ok (exampleAttributes[1], 73) := rfl
  exact ⟨h, written_of_read h⟩

end Attribute
end JvmMethods
