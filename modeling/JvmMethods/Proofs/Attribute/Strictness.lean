import JvmMethods.Proofs.Attribute.Restriction

/-!
# Strict and lenient reading

A policy that insists on declared lengths makes the decoder refuse attributes, and changes nothing
else: whatever is read under the lenient policy is read as the same under the strict one, or refused
as malformed.

Main results:

- Definition {lit}`Logged.Narrows`: one computation gives what another one gives, or is refused.
- Theorem {lit}`DecodingPolicy.kind_eq_of_refuses_lenient`: insisting on declared lengths makes
  attributes malformed.
- Theorem {lit}`Attribute.readList_narrows`: reading a list of attributes from a buffer under the
  strict policy narrows reading it under the lenient one.
-/

namespace JvmMethods

/-! ## Lenient policies -/

namespace DecodingPolicy

/-- The policy that lets spare bytes follow contents, and is as demanding in all other respects. -/
def lenient (policy : DecodingPolicy) : DecodingPolicy :=
  { policy with strictLengths := false }

/-- A policy that is not strict is lenient already. -/
theorem lenient_of_not_strict {policy : DecodingPolicy}
    (h : policy.strictLengths = false) : policy.lenient = policy := by
  cases policy
  cases h
  rfl

/-- Every policy is at least as demanding as its lenient variant. -/
theorem demands_lenient (policy : DecodingPolicy) : policy.Demands policy.lenient :=
  ⟨fun h => (nomatch h), fun h => h, Nat.le_refl _⟩

/-- Insisting on declared lengths makes attributes malformed, and nothing else. -/
theorem kind_eq_of_refuses_lenient {policy : DecodingPolicy} {e : Error}
    (h : policy.Refuses policy.lenient e) : e.kind = .malformedAttribute := by
  cases e with
  | lengthMismatch => rfl
  | codeOverLimit => rfl
  | handlerOutsideCode =>
      rcases h with ⟨hyes, hno⟩
      cases hyes.symm.trans hno
  | _ => cases h

end DecodingPolicy

/-! ## Narrowing -/

namespace Logged

variable {α : Type}

/-- The computation fails because an attribute is malformed. -/
def IsMalformed (x : Logged Error α) : Prop :=
  ∃ e, x.outcome = .error e ∧ e.kind = .malformedAttribute

/-- Whatever the second computation gives, the first one gives, too, unless it fails because an
attribute is malformed. -/
def Narrows (x y : Logged Error α) : Prop :=
  ∀ a, y.outcome = .ok a → x.outcome = .ok a ∨ x.IsMalformed

/-- A computation that refuses nothing but malformed attributes narrows. -/
theorem Restricts.narrows {refused : Error → Prop} {x y : Logged Error α}
    (h : x.Restricts refused y) (hkind : ∀ e, refused e → e.kind = .malformedAttribute) :
    x.Narrows y := by
  intro a hy
  rcases h.given a hy with hx | ⟨e, hx, he⟩
  · exact .inl hx
  · exact .inr ⟨e, hx, hkind e he⟩

end Logged

namespace Attribute

variable {pool : ConstantPool} {policy : DecodingPolicy}

/-- Under the strict policy a list of attributes is read as the same as under the lenient one, or it
is refused as malformed. -/
theorem readList_narrows (buffer : Bytes) (offset : Nat) :
    (readList pool policy buffer offset).Narrows (readList pool policy.lenient buffer offset) :=
  (readList_restricts policy.demands_lenient pool buffer offset).narrows
    fun _ => DecodingPolicy.kind_eq_of_refuses_lenient

end Attribute
end JvmMethods
