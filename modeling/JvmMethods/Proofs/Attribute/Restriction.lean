import JvmMethods.Proofs.Attribute.RoundTrip

/-!
# Policies only restrict

A policy can be more demanding than another one in three respects: it insists on declared lengths,
it checks exception handlers, and it lowers the limit for the length of code.  Nothing that is read
depends on any of that.  The two readings go side by side, step by step, and the more demanding one
either gives the same or stops for one of these three reasons.

Main results:

- Definitions {lit}`DecodingPolicy.Demands` and {lit}`DecodingPolicy.Refuses`: when one policy is at
  least as demanding as another one, and what it may refuse that the other one accepts.
- Definition {lit}`Logged.Restricts`: one computation gives what another one gives, or refuses it.
- Theorem {lit}`Logged.Restricts.bind`: computations that restrict step by step restrict as a whole.
- Theorem {lit}`Decoder.decode_restricts`: decoding under the more demanding policy restricts
  decoding under the other one.
- Theorem {lit}`Attribute.reads_of_demands`: what is read under the more demanding policy is read as
  the same under the other one.
-/

namespace JvmMethods

/-! ## Policies -/

namespace DecodingPolicy

/-- One policy is at least as demanding as another one, in every respect. -/
structure Demands (strong weak : DecodingPolicy) : Prop where
  strictLengths : weak.strictLengths = true → strong.strictLengths = true
  validateHandlers : weak.validateHandlers = true → strong.validateHandlers = true
  maxCodeLength : strong.maxCodeLength ≤ weak.maxCodeLength

/-- The errors with which one policy refuses what another one accepts. -/
def Refuses (strong weak : DecodingPolicy) : Error → Prop
  | .lengthMismatch _ _ _ _ => strong.strictLengths = true ∧ weak.strictLengths = false
  | .handlerOutsideCode _ _ _ _ => strong.validateHandlers = true ∧ weak.validateHandlers = false
  | .codeOverLimit _ _ => strong.maxCodeLength < weak.maxCodeLength
  | _ => False

end DecodingPolicy

/-! ## Restriction -/

namespace Logged

variable {α β : Type} {refused : Error → Prop}

/-- The computation gives nothing but what another one gives, and all of that unless it is refused
for one of the given reasons. -/
structure Restricts (refused : Error → Prop) (x y : Logged Error α) : Prop where
  gives : ∀ a, x.outcome = .ok a → y.outcome = .ok a
  given : ∀ a, y.outcome = .ok a → x.outcome = .ok a ∨ ∃ e, x.outcome = .error e ∧ refused e

/-- A computation gives what it gives itself. -/
theorem Restricts.refl (x : Logged Error α) : x.Restricts refused x :=
  ⟨fun _ h => h, fun _ h => .inl h⟩

/-- Computations that restrict step by step restrict as a whole. -/
theorem Restricts.bind {x y : Logged Error α} (hxy : x.Restricts refused y)
    {f g : α → Logged Error β} (hfg : ∀ a, (f a).Restricts refused (g a)) :
    (x >>= f).Restricts refused (y >>= g) := by
  constructor
  · intro b h
    rcases outcome_bind_eq_ok_iff.1 h with ⟨a, hx, hf⟩
    exact outcome_bind_eq_ok_iff.2 ⟨a, hxy.gives a hx, (hfg a).gives b hf⟩
  · intro b h
    rcases outcome_bind_eq_ok_iff.1 h with ⟨a, hy, hg⟩
    rcases hxy.given a hy with hx | ⟨e, hx, he⟩
    · rw [outcome_bind_of_ok hx]
      exact (hfg a).given b hg
    · exact .inr ⟨e, outcome_bind_of_error hx, he⟩

/-- Changing what both computations give changes nothing about refusals. -/
theorem Restricts.map {x y : Logged Error α} (hxy : x.Restricts refused y) (f : α → β) :
    (f <$> x).Restricts refused (f <$> y) := by
  rw [← bind_pure_comp, ← bind_pure_comp]
  exact hxy.bind fun _ => Restricts.refl _

/-- A check that the other computation makes only if this one makes it. -/
theorem Restricts.check {p q : Bool} (hpq : q = true → p = true) {check : Except Error Unit}
    (hrefused : ∀ e, check = .error e → p = true → q = false → refused e)
    (f : Unit → Logged Error β) :
    (if p = true then ofExcept check >>= f else f ()).Restricts refused
      (if q = true then ofExcept check >>= f else f ()) := by
  constructor
  · intro b h
    rcases outcome_ite_bind_eq_ok_iff.1 h with ⟨hcheck, hf⟩
    exact outcome_ite_bind_eq_ok_iff.2 ⟨fun hq => hcheck (hpq hq), hf⟩
  · intro b h
    rcases outcome_ite_bind_eq_ok_iff.1 h with ⟨hcheck, hf⟩
    cases hq : q with
    | true => exact .inl (outcome_ite_bind_eq_ok_iff.2 ⟨fun _ => hcheck hq, hf⟩)
    | false =>
        cases hresult : check with
        | ok u => exact .inl (outcome_ite_bind_eq_ok_iff.2 ⟨fun _ => rfl, hf⟩)
        | error e =>
            cases hp : p with
            | true =>
                rw [if_pos rfl]
                exact .inr ⟨e, outcome_bind_of_error rfl, hrefused e hresult hp hq⟩
            | false => exact .inl hf

end Logged

/-- Code with a handler that does not fit is refused because of such a handler. -/
theorem Code.validate_eq_error {c : Code} {e : Error} (h : c.validate = .error e) :
    ∃ h ∈ c.handlers, e = .handlerOutsideCode h.start h.stop h.handler c.length := by
  rw [validate] at h
  generalize c.handlers = handlers at h
  induction handlers with
  | nil => cases h
  | cons first rest ih =>
      change (first.checkWithin c.length >>= fun _ =>
        rest.forM fun h => h.checkWithin c.length) = _ at h
      cases hfirst : first.checkWithin c.length with
      | ok u =>
          rw [hfirst] at h
          rcases ih h with ⟨handler, hmem, he⟩
          exact ⟨handler, List.mem_cons_of_mem first hmem, he⟩
      | error e' =>
          rw [hfirst] at h
          cases h
          refine ⟨first, List.mem_cons_self, ?_⟩
          rw [ExceptionHandler.checkWithin] at hfirst
          split at hfirst
          · cases hfirst
          · cases hfirst
            rfl

/-! ## Decoding -/

namespace Decoder

section Repetition

variable {α : Type} {refused : Error → Prop} {read read' : Cursor → Logged Error (α × Cursor)}

/-- Reading several things restricts reading them one by one without refusals. -/
theorem times_restricts (h : ∀ c, (read c).Restricts refused (read' c)) (n : Nat) (c : Cursor) :
    (times read n c).Restricts refused (times read' n c) := by
  induction n generalizing c with
  | zero => exact .refl _
  | succ n ih => exact (h c).bind fun r => (ih r.2).map _

/-- Reading things after their number restricts reading them without refusals. -/
theorem counted_restricts (h : ∀ c, (read c).Restricts refused (read' c)) (c : Cursor) :
    (counted read c).Restricts refused (counted read' c) :=
  (Logged.Restricts.refl _).bind fun r => times_restricts h r.1 r.2

end Repetition

variable {pool : ConstantPool} {strong weak : DecodingPolicy}

/-- The length of code is compared with the limit of the policy, and is read in the same way. -/
theorem codeBytes_restricts (h : strong.Demands weak) (c : Cursor) :
    (Logged.ofExcept (codeBytes strong c)).Restricts (strong.Refuses weak)
      (Logged.ofExcept (codeBytes weak c)) := by
  constructor
  · intro r hread
    rcases codeBytes_eq_ok_iff.1 hread with ⟨⟨hlt, hlimit⟩, hspans⟩
    exact codeBytes_eq_ok_iff.2 ⟨⟨hlt, Nat.le_trans hlimit h.maxCodeLength⟩, hspans⟩
  · intro r hread
    rcases codeBytes_eq_ok_iff.1 hread with ⟨⟨hlt, hlimit⟩, hspans⟩
    by_cases hstrong : r.1.length ≤ strong.maxCodeLength
    · exact .inl (codeBytes_eq_ok_iff.2 ⟨⟨hlt, hstrong⟩, hspans⟩)
    · have hover := Nat.not_le.1 hstrong
      rcases Cursor.spans_append_iff.1 hspans with ⟨m, hlength, -⟩
      refine .inr ⟨.codeOverLimit r.1.length strong.maxCodeLength, ?_,
        Nat.lt_of_lt_of_le hover hlimit⟩
      have hu4 := Cursor.u4_eq_ok_iff.2 ⟨hlt, hlength⟩
      simp only [Logged.outcome_ofExcept, codeBytes, hu4, bind, Except.bind, hover, if_true]
      rfl

variable {nested nested' : Cursor → Logged Error (Attribute × Cursor)}

/-- The more demanding policy restricts the reading of code, if it does so for nested attributes. -/
theorem code_restricts (h : strong.Demands weak)
    (hnested : ∀ c, (nested c).Restricts (strong.Refuses weak) (nested' c)) (size : Nat)
    (c : Cursor) :
    (code pool strong nested size c).Restricts (strong.Refuses weak)
      (code pool weak nested' size c) := by
  refine (Logged.Restricts.refl _).bind fun ⟨maxStack, c⟩ => ?_
  refine (Logged.Restricts.refl _).bind fun ⟨maxLocals, c⟩ => ?_
  refine (codeBytes_restricts h c).bind fun ⟨bytes, c⟩ => ?_
  refine (Logged.Restricts.refl _).bind fun ⟨handlers, c⟩ => ?_
  refine (counted_restricts hnested c).bind fun ⟨attributes, c⟩ => ?_
  refine Logged.Restricts.check h.validateHandlers ?_ _
  intro e herror hstrong hweak
  rcases Code.validate_eq_error herror with ⟨handler, -, rfl⟩
  exact ⟨hstrong, hweak⟩

/-- The more demanding policy restricts the reading of contents, if it does so for nested
attributes. -/
theorem contents_restricts (h : strong.Demands weak)
    (hnested : ∀ c, (nested c).Restricts (strong.Refuses weak) (nested' c)) (name : String)
    (size : Nat) (c : Cursor) :
    (contents pool strong nested name size c).Restricts (strong.Refuses weak)
      (contents pool weak nested' name size c) := by
  unfold contents
  split
  · exact code_restricts h hnested size c
  · exact .refl _

/-- Contents that stop short are accepted under the less demanding policy alone, or under both, and
reading goes on from the same place. -/
theorem finishAt_restricts (h : strong.Demands weak) (name : String) (start size : Nat)
    (c : Cursor) :
    (finishAt strong name start size c).Restricts (strong.Refuses weak)
      (finishAt weak name start size c) := by
  constructor
  · intro c' hfinish
    rcases finishAt_eq_ok_iff.1 hfinish with ⟨hle, hstrict, hskip⟩
    exact finishAt_eq_ok_iff.2 ⟨hle, fun hweak => hstrict (h.strictLengths hweak), hskip⟩
  · intro c' hfinish
    rcases finishAt_eq_ok_iff.1 hfinish with ⟨hle, hstrict, hskip⟩
    by_cases hshort : strong.strictLengths = true ∧ c.position ≠ start + size
    · have hweak : weak.strictLengths = false :=
        Bool.eq_false_iff.2 fun hyes => hshort.2 (hstrict hyes)
      refine .inr ⟨.lengthMismatch name start size (c.position - start), ?_, hshort.1, hweak⟩
      simp [finishAt, hshort.1, hshort.2]
    · refine .inl (finishAt_eq_ok_iff.2 ⟨hle, ?_, hskip⟩)
      intro hyes
      by_contra hne
      exact hshort ⟨hyes, hne⟩

/-- Decoding under the more demanding policy restricts decoding under the other one, whatever the
bound on the depth and the bytes are. -/
theorem decode_restricts (h : strong.Demands weak) (depth : Nat) (c : Cursor) :
    (decode pool strong depth c).Restricts (strong.Refuses weak) (decode pool weak depth c) := by
  induction depth generalizing c with
  | zero => exact .refl _
  | succ depth ih =>
      refine (Logged.Restricts.refl _).bind fun ⟨index, c⟩ => ?_
      refine (Logged.Restricts.refl _).bind fun ⟨size, c⟩ => ?_
      refine (Logged.Restricts.refl _).bind fun _ => ?_
      refine (Logged.Restricts.refl _).bind fun name => ?_
      refine (Logged.Restricts.refl _).bind fun _ => ?_
      refine (contents_restricts h ih name size c).bind fun ⟨decoded, m⟩ => ?_
      exact (finishAt_restricts h name c.position size m).bind fun _ => .refl _

end Decoder

/-! ## Buffers -/

namespace Attribute

variable {strong weak : DecodingPolicy}

/-- The more demanding policy restricts the reading of an attribute. -/
theorem read_restricts (h : strong.Demands weak) (pool : ConstantPool) (buffer : Bytes)
    (offset : Nat) :
    (read pool strong buffer offset).Restricts (strong.Refuses weak)
      (read pool weak buffer offset) :=
  (Decoder.decode_restricts h _ _).bind fun _ => .refl _

/-- The more demanding policy restricts the reading of a list of attributes. -/
theorem readList_restricts (h : strong.Demands weak) (pool : ConstantPool) (buffer : Bytes)
    (offset : Nat) :
    (readList pool strong buffer offset).Restricts (strong.Refuses weak)
      (readList pool weak buffer offset) :=
  (Decoder.counted_restricts (Decoder.decode_restricts h _) _).bind fun _ => .refl _

/-- An attribute or a list of attributes that is read under one policy is read under every policy
that is not more demanding, as the same and up to the same place. -/
theorem reads_of_demands (h : strong.Demands weak) (pool : ConstantPool) (buffer : Bytes)
    (offset : Nat) :
    (∀ a next, (read pool strong buffer offset).outcome = .ok (a, next) →
        (read pool weak buffer offset).outcome = .ok (a, next)) ∧
      ∀ as next, (readList pool strong buffer offset).outcome = .ok (as, next) →
        (readList pool weak buffer offset).outcome = .ok (as, next) := by
  constructor
  · intro a next hread
    exact (read_restricts h pool buffer offset).gives (a, next) hread
  · intro as next hread
    exact (readList_restricts h pool buffer offset).gives (as, next) hread

/-- Code with handlers and nested code is read under the strict policy, and so it is under one that
only checks handlers and allows for longer code. -/
theorem reads_of_demands_nested :
    DecodingPolicy.strict.Demands ⟨false, true, 70000⟩ ∧
      (readList examplePool .strict
          ([202] ++ Decoder.countedBytes AttributeLayout.bytes exampleLayouts) 1).outcome =
        .ok (exampleAttributes, 76) ∧
      (readList examplePool ⟨false, true, 70000⟩
          ([202] ++ Decoder.countedBytes AttributeLayout.bytes exampleLayouts) 1).outcome =
        .ok (exampleAttributes, 76) := by
  have h : DecodingPolicy.strict.Demands ⟨false, true, 70000⟩ :=
    ⟨fun _ => rfl, fun _ => rfl, by decide⟩
  have hread : (readList examplePool .strict
      ([202] ++ Decoder.countedBytes AttributeLayout.bytes exampleLayouts) 1).outcome =
      .ok (exampleAttributes, 76) := rfl
  exact ⟨h, hread, (reads_of_demands h examplePool _ 1).2 _ _ hread⟩

end Attribute
end JvmMethods
