import JvmMethods.Proofs.Attribute.Restriction
import JvmMethods.Proofs.Code.Crossings

/-!
# Checking handlers while or after reading

A policy can check the handlers of code while it is read, node by node, or leave that to later.
Both come to the same: what is read with the check is what is read without it and passes the check
at every level, and whatever does not pass is refused as an invalid argument.

Handlers that pass the check go from left to right and stay inside the code, so the code that they
belong to has regions, and the regions split it.

Main results:

- Definitions {lit}`DecodingPolicy.checking` and {lit}`DecodingPolicy.trusting`: a policy with and
  without the check.
- Theorem {lit}`AttributeLayout.forall₂_accepted_checking_iff`: what the check adds to what is asked
  of a layout.
- Theorem {lit}`Code.exists_regions_of_validate`: checked code has regions, and they split it.
- Theorem {lit}`Attribute.readList_checking`: checking while reading is checking everything that was
  read, and what was checked has regions.
-/

namespace JvmMethods

/-! ## Policies with and without the check -/

namespace DecodingPolicy

/-- The policy that checks handlers, and is as demanding in all other respects. -/
def checking (policy : DecodingPolicy) : DecodingPolicy :=
  { policy with validateHandlers := true }

/-- The policy that does not check handlers, and is as demanding in all other respects. -/
def trusting (policy : DecodingPolicy) : DecodingPolicy :=
  { policy with validateHandlers := false }

variable {policy : DecodingPolicy}

/-- A policy that checks handlers is at least as demanding as one that does not. -/
theorem checking_demands_trusting : policy.checking.Demands policy.trusting :=
  ⟨fun h => h, fun _ => rfl, Nat.le_refl _⟩

/-- The check makes arguments invalid, and nothing else. -/
theorem kind_eq_of_checking_refuses {e : Error}
    (h : policy.checking.Refuses policy.trusting e) : e.kind = .invalidArgument := by
  cases e with
  | handlerOutsideCode => rfl
  | lengthMismatch =>
      rcases h with ⟨hyes, hno⟩
      cases hyes.symm.trans hno
  | codeOverLimit => exact absurd h (Nat.lt_irrefl _)
  | _ => cases h

end DecodingPolicy

/-! ## Checked code -/

namespace Code

variable {c : Code}

/-- Code passes the check exactly if every handler goes from left to right, and it and the place it
continues at are inside the code. -/
theorem validate_eq_ok_iff :
    c.validate = .ok () ↔
      ∀ h ∈ c.handlers, h.start ≤ h.stop ∧ h.stop ≤ c.length ∧ h.handler < c.length := by
  simp only [validate, forM_eq_ok_iff, ExceptionHandler.checkWithin_eq_ok_iff]

/-- Checked code has regions, and they split it. -/
theorem exists_regions_of_validate (h : c.validate = .ok ())
    (hlength : c.length ≤ ExceptionHandler.maxCodeOffset) :
    ∃ rs, c.regions.outcome = .ok rs ∧ CodeRegion.Splits c.length rs := by
  have hproper : c.HandlersProper := by
    intro e he
    rcases validate_eq_ok_iff.1 h e he with ⟨hordered, hinside, -⟩
    have hstop := Nat.le_trans hinside hlength
    exact ⟨hordered, Nat.le_trans hordered hstop, hstop⟩
  have hinside : ∀ r ∈ c.handlerIntervals, r.stop ≤ c.length :=
    (handlerIntervals_stop_le_iff hproper).2 fun e he _ => (validate_eq_ok_iff.1 h e he).2.1
  have hregions := regions_eq_ok hproper hlength hinside
  have hforward := (isPartition_regions hproper hinside).nonempty
  exact ⟨_, hregions, splits_of_forward (regions_perm_tiles hregions).1 hforward⟩

end Code

/-! ## Accepted layouts -/

namespace AttributeLayout

variable {pool : ConstantPool} {policy : DecodingPolicy}

/-- With the check, layouts are accepted as the same as without it, provided that the code at all
levels passes. -/
theorem forall₂_accepted_checking_iff {ls : List AttributeLayout} {as : List Attribute} :
    List.Forall₂ (Accepted pool policy.checking) ls as ↔
      List.Forall₂ (Accepted pool policy.trusting) ls as ∧
        ∀ c ∈ Attribute.listCodes as, c.validate = .ok () := by
  rw [forall₂_accepted_iff, forall₂_accepted_iff]
  constructor
  · rintro ⟨hdenote, hfit, hpermit, hvalid⟩
    exact ⟨⟨hdenote, hfit, hpermit, fun hno => nomatch hno⟩, hvalid rfl⟩
  · rintro ⟨⟨hdenote, hfit, hpermit, -⟩, hvalid⟩
    exact ⟨hdenote, hfit, hpermit, fun _ => hvalid⟩

mutual

/-- The code at every level of an attribute is as long as a layout at that level says. -/
theorem exists_codeLength_eq : ∀ (l : AttributeLayout) {a : Attribute}, l.Denotes pool a →
    ∀ c ∈ a.codes, ∃ n ∈ l.nodes, n.codeLength = c.length
  | .code nameIndex body nested spare, _, h => by
      cases h with
      | code _ hbody hnested =>
          rcases hbody with ⟨handlers, -, rfl⟩
          intro c hc
          rcases List.mem_cons.1 hc with rfl | hc
          · exact ⟨_, mem_nodes_self _, rfl⟩
          · rcases exists_listCodeLength_eq nested hnested c hc with ⟨n, hn, hlength⟩
            exact ⟨n, List.mem_cons_of_mem _ hn, hlength⟩
  | .exceptions _ _ _, _, h => by
      cases h
      exact fun c hc => nomatch hc
  | .raw _ _, _, h => by
      cases h
      exact fun c hc => nomatch hc

/-- The length of any code is that of the code in some nested layout. -/
theorem exists_listCodeLength_eq : ∀ (ls : List AttributeLayout) {as : List Attribute},
    List.Forall₂ (Denotes pool) ls as →
    ∀ c ∈ Attribute.listCodes as, ∃ n ∈ listNodes ls, n.codeLength = c.length
  | [], _, h => by
      cases h
      exact fun c hc => nomatch hc
  | l :: ls, _, h => by
      cases h with
      | cons hl hls =>
          intro c hc
          rcases List.mem_append.1 hc with hc | hc
          · rcases exists_codeLength_eq l hl c hc with ⟨n, hn, hlength⟩
            exact ⟨n, List.mem_append_left _ hn, hlength⟩
          · rcases exists_listCodeLength_eq ls hls c hc with ⟨n, hn, hlength⟩
            exact ⟨n, List.mem_append_right _ hn, hlength⟩

end

/-- The limit of the policy applies to the code at all levels. -/
theorem length_le_of_accepted {ls : List AttributeLayout} {as : List Attribute}
    (h : List.Forall₂ (Accepted pool policy) ls as) :
    ∀ c ∈ Attribute.listCodes as, c.length ≤ policy.maxCodeLength := by
  rcases forall₂_accepted_iff.1 h with ⟨hdenote, -, hpermit, -⟩
  intro c hc
  rcases exists_listCodeLength_eq ls hdenote c hc with ⟨n, hn, hlength⟩
  rw [← hlength]
  exact (hpermit n hn).1

end AttributeLayout

/-! ## Reading -/

namespace Attribute

/-- Reading a list of attributes with the check gives what reading it without the check gives,
provided that the code at all levels passes, and otherwise fails with an invalid argument.  If the
policy limits code to what intervals can mention, then all code that is read with the check has
regions, and every offset lies in exactly one of them. -/
theorem readList_checking (pool : ConstantPool) (policy : DecodingPolicy) (buffer : Bytes)
    (offset : Nat) :
    (∀ as next, (readList pool policy.checking buffer offset).outcome = .ok (as, next) ↔
        (readList pool policy.trusting buffer offset).outcome = .ok (as, next) ∧
          ∀ c ∈ listCodes as, c.validate = .ok ()) ∧
      (∀ as next, (readList pool policy.trusting buffer offset).outcome = .ok (as, next) →
        (∃ c ∈ listCodes as, c.validate ≠ .ok ()) →
          ∃ e, (readList pool policy.checking buffer offset).outcome = .error e ∧
            e.kind = .invalidArgument) ∧
      (policy.maxCodeLength ≤ ExceptionHandler.maxCodeOffset → ∀ as next,
        (readList pool policy.checking buffer offset).outcome = .ok (as, next) →
          ∀ c ∈ listCodes as, ∃ rs, c.regions.outcome = .ok rs ∧
            CodeRegion.Splits c.length rs) := by
  have hiff : ∀ as next, (readList pool policy.checking buffer offset).outcome = .ok (as, next) ↔
      (readList pool policy.trusting buffer offset).outcome = .ok (as, next) ∧
        ∀ c ∈ listCodes as, c.validate = .ok () := by
    intro as next
    simp only [readList_eq_ok_iff, AttributeLayout.forall₂_accepted_checking_iff]
    constructor
    · rintro ⟨ls, hcount, ⟨haccepted, hvalid⟩, hstands⟩
      exact ⟨⟨ls, hcount, haccepted, hstands⟩, hvalid⟩
    · rintro ⟨⟨ls, hcount, haccepted, hstands⟩, hvalid⟩
      exact ⟨ls, hcount, ⟨haccepted, hvalid⟩, hstands⟩
  refine ⟨hiff, ?_, ?_⟩
  · rintro as next htrusting ⟨c, hc, hinvalid⟩
    have hrestricts :=
      readList_restricts policy.checking_demands_trusting pool buffer offset
    rcases hrestricts.given _ htrusting with hchecking | ⟨e, herror, hrefuses⟩
    · exact absurd (((hiff as next).1 hchecking).2 c hc) hinvalid
    · exact ⟨e, herror, DecodingPolicy.kind_eq_of_checking_refuses hrefuses⟩
  · intro hlimit as next hchecking c hc
    rcases readList_eq_ok_iff.1 hchecking with ⟨ls, -, haccepted, -⟩
    have hlength := AttributeLayout.length_le_of_accepted haccepted c hc
    have hvalid := ((hiff as next).1 hchecking).2 c hc
    exact Code.exists_regions_of_validate hvalid (Nat.le_trans hlength hlimit)

/-- Code whose own handler fits, with nested code whose handler continues past its end. -/
def overrunLayouts : List AttributeLayout :=
  [.code 1 ⟨1, 2, [42, 177], [⟨0, 1, 1, 0⟩]⟩ [.code 1 ⟨0, 0, [177], [⟨0, 1, 1, 0⟩]⟩ [] []] []]

/-- What these layouts stand for. -/
def overrunAttributes : List Attribute :=
  [.code ⟨49, 1, 2, some ⟨[42, 177], [⟨0, 1, 1, none⟩]⟩⟩
    [.code ⟨21, 0, 0, some ⟨[177], [⟨0, 1, 1, none⟩]⟩⟩ []]]

/-- A handler that continues past the end of nested code is found, and only by a policy that checks.
-/
theorem readList_checking_nested :
    (∃ e, (readList examplePool (DecodingPolicy.checking {})
        (Decoder.countedBytes AttributeLayout.bytes overrunLayouts) 0).outcome = .error e ∧
          e.kind = .invalidArgument) ∧
      (readList examplePool (DecodingPolicy.trusting {})
          (Decoder.countedBytes AttributeLayout.bytes overrunLayouts) 0).outcome =
        .ok (overrunAttributes, 57) ∧
      (readList examplePool (DecodingPolicy.checking {})
          (Decoder.countedBytes AttributeLayout.bytes exampleLayouts) 0).outcome =
        .ok (exampleAttributes, 75) ∧
      ∀ c ∈ listCodes exampleAttributes, ∃ rs, c.regions.outcome = .ok rs ∧
        CodeRegion.Splits c.length rs := by
  have htrusting : (readList examplePool (DecodingPolicy.trusting {})
      (Decoder.countedBytes AttributeLayout.bytes overrunLayouts) 0).outcome =
        .ok (overrunAttributes, 57) := rfl
  have hinvalid : ∃ c ∈ listCodes overrunAttributes, c.validate ≠ .ok () := by decide
  have hchecking : (readList examplePool (DecodingPolicy.checking {})
      (Decoder.countedBytes AttributeLayout.bytes exampleLayouts) 0).outcome =
        .ok (exampleAttributes, 75) := rfl
  exact ⟨(readList_checking examplePool {} _ 0).2.1 _ _ htrusting hinvalid, htrusting, hchecking,
    (readList_checking examplePool {} _ 0).2.2 (by decide) _ _ hchecking⟩

end Attribute
end JvmMethods
