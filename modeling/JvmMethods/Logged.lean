/-!
# Logged computations

Reading a class file can succeed and still have something to report: a variable that no scope
declares, an attribute that is longer than its contents.  A {lit}`Logged` computation pairs its
outcome with the notices it left on the way, oldest first.  A failure keeps the notices that
precede it.

Main results:

- Theorems {lit}`outcome_pure`, {lit}`outcome_bind` and {lit}`outcome_mapError`: the outcome of a
  composite depends on the outcomes of its parts alone, so that facts about results never mention
  notices.
- Theorem {lit}`outcome_bind_eq_ok_iff`: a composite succeeds exactly when its parts do, one after
  the other.
- Instance {lit}`LawfulMonad (Logged ε)`: sequencing is associative, notices included.
-/

namespace JvmMethods

/-- How much a notice matters to whoever reads it. -/
inductive Severity where
  | error
  | warning
  | debug
  | trace
deriving DecidableEq, Repr

/-- The word a severity is printed as. -/
def Severity.label : Severity → String
  | .error => "ERROR"
  | .warning => "WARN"
  | .debug => "DEBUG"
  | .trace => "TRACE"

/-- A line for the log. -/
structure Notice where
  severity : Severity
  text : String
deriving DecidableEq, Repr

/-- The line as it is printed, severity first. -/
def Notice.render (n : Notice) : String :=
  n.severity.label ++ " " ++ n.text

/-- A computation succeeds exactly when its first part does, and the rest does with the value. -/
theorem bind_eq_ok_iff {ε α β : Type} {x : Except ε α} {f : α → Except ε β} {b : β} :
    x >>= f = .ok b ↔ ∃ a, x = .ok a ∧ f a = .ok b := by
  cases x with
  | error e => simp [bind, Except.bind]
  | ok a => simp [bind, Except.bind]

/-- A changed value comes from a value. -/
theorem map_eq_ok_iff {ε α β : Type} {f : α → β} {x : Except ε α} {b : β} :
    x.map f = .ok b ↔ ∃ a, x = .ok a ∧ f a = b := by
  cases x with
  | error e => simp [Except.map]
  | ok a => simp [Except.map]

/-- Restating a failure does not change whether there is one. -/
theorem mapError_eq_ok_iff {ε ε' α : Type} {f : ε → ε'} {x : Except ε α} {a : α} :
    x.mapError f = .ok a ↔ x = .ok a := by
  cases x with
  | error e =>
      constructor
      · intro h
        cases h
      · intro h
        cases h
  | ok b =>
      constructor
      · intro h
        cases h
        rfl
      · intro h
        cases h
        rfl

/-- A computation that has a good value under a condition, and a bad error otherwise, has a value
exactly under the condition, and no other errors or values. -/
theorem eq_ok_iff_and_forall {ε α : Type} {x : Except ε α} {p : Prop} {bad : ε → Prop}
    {good : α → Prop} (hok : p → ∃ a, x = .ok a ∧ good a)
    (herror : ¬ p → ∃ e, x = .error e ∧ bad e) :
    ((∃ a, x = .ok a) ↔ p) ∧ (∀ e, x = .error e → bad e) ∧ ∀ a, x = .ok a → good a := by
  by_cases hp : p
  · obtain ⟨a, rfl, hgood⟩ := hok hp
    refine ⟨iff_of_true ⟨a, rfl⟩ hp, fun e he => (nomatch he), ?_⟩
    rintro b ⟨⟩
    exact hgood
  · obtain ⟨e, rfl, hbad⟩ := herror hp
    refine ⟨iff_of_false (fun ⟨a, ha⟩ => nomatch ha) hp, ?_, fun a ha => (nomatch ha)⟩
    rintro e' ⟨⟩
    exact hbad

/-- A loop succeeds exactly when every round of it does. -/
theorem forM_eq_ok_iff {ε α : Type} {f : α → Except ε Unit} {as : List α} :
    as.forM f = .ok () ↔ ∀ a ∈ as, f a = .ok () := by
  induction as with
  | nil => exact iff_of_true rfl fun _ ha => absurd ha List.not_mem_nil
  | cons a as ih =>
      change (f a >>= fun _ => as.forM f) = .ok () ↔ _
      rw [bind_eq_ok_iff, List.forall_mem_cons, ih]
      constructor
      · rintro ⟨_, hfirst, hrest⟩
        exact ⟨hfirst, hrest⟩
      · rintro ⟨hfirst, hrest⟩
        exact ⟨(), hfirst, hrest⟩

/-- A value or a failure, with the notices left while it was computed. -/
structure Logged (ε α : Type) where
  outcome : Except ε α
  notices : List Notice

namespace Logged

variable {ε ε' α β : Type}

/-! ## Sequencing -/

/-- A value that took no notice of anything. -/
@[inline]
protected def pure (a : α) : Logged ε α :=
  ⟨.ok a, []⟩

/-- Continue with the value, if there is one. -/
@[inline]
protected def bind (x : Logged ε α) (f : α → Logged ε β) : Logged ε β :=
  match x.outcome with
  | .ok a =>
      let y := f a
      ⟨y.outcome, x.notices ++ y.notices⟩
  | .error e => ⟨.error e, x.notices⟩

/-- Change the value, if there is one. -/
@[inline]
protected def map (f : α → β) (x : Logged ε α) : Logged ε β :=
  ⟨x.outcome.map f, x.notices⟩

instance : Monad (Logged ε) where
  pure := Logged.pure
  bind := Logged.bind
  map := Logged.map

/-- Stop with a failure. -/
def fail (e : ε) : Logged ε α :=
  ⟨.error e, []⟩

instance : MonadExceptOf ε (Logged ε) where
  throw := fail
  tryCatch x handle :=
    match x.outcome with
    | .ok _ => x
    | .error e =>
        let y := handle e
        ⟨y.outcome, x.notices ++ y.notices⟩

/-- An outcome without notices. -/
def ofExcept (r : Except ε α) : Logged ε α :=
  ⟨r, []⟩

/-- Leave one notice. -/
def note (severity : Severity) (text : String) : Logged ε Unit :=
  ⟨.ok (), [⟨severity, text⟩]⟩

/-- Restate the failure, if there is one. -/
def mapError (f : ε → ε') (x : Logged ε α) : Logged ε' α :=
  ⟨x.outcome.mapError f, x.notices⟩

/-- Computations are the same if they agree in outcome and notices. -/
@[ext]
theorem ext {x y : Logged ε α} (ho : x.outcome = y.outcome) (hn : x.notices = y.notices) :
    x = y := by
  cases x
  cases y
  simp_all

/-! ## Outcomes -/

@[simp]
theorem outcome_pure (a : α) : (pure a : Logged ε α).outcome = .ok a :=
  rfl

/-- The outcome of a composite depends on the outcomes of its parts alone. -/
@[simp]
theorem outcome_bind (x : Logged ε α) (f : α → Logged ε β) :
    (x >>= f).outcome = x.outcome >>= fun a => (f a).outcome := by
  change (Logged.bind x f).outcome = _
  unfold Logged.bind
  cases x.outcome <;> rfl

@[simp]
theorem outcome_map (f : α → β) (x : Logged ε α) :
    (f <$> x).outcome = f <$> x.outcome :=
  rfl

@[simp]
theorem outcome_fail (e : ε) : (fail e : Logged ε α).outcome = .error e :=
  rfl

@[simp]
theorem outcome_throw (e : ε) : (throw e : Logged ε α).outcome = .error e :=
  rfl

@[simp]
theorem outcome_ofExcept (r : Except ε α) : (ofExcept r).outcome = r :=
  rfl

@[simp]
theorem outcome_note (severity : Severity) (text : String) :
    (note severity text : Logged ε Unit).outcome = .ok () :=
  rfl

@[simp]
theorem outcome_mapError (f : ε → ε') (x : Logged ε α) :
    (x.mapError f).outcome = x.outcome.mapError f :=
  rfl

/-- A composite whose first part succeeds has the outcome of the second one. -/
theorem outcome_bind_of_ok {x : Logged ε α} {f : α → Logged ε β} {a : α}
    (h : x.outcome = .ok a) : (x >>= f).outcome = (f a).outcome := by
  rw [outcome_bind, h]
  rfl

/-- A composite whose first part fails is that failure. -/
theorem outcome_bind_of_error {x : Logged ε α} {f : α → Logged ε β} {e : ε}
    (h : x.outcome = .error e) : (x >>= f).outcome = .error e := by
  rw [outcome_bind, h]
  rfl

/-- A composite succeeds exactly when its parts do, one after the other. -/
theorem outcome_bind_eq_ok_iff {x : Logged ε α} {f : α → Logged ε β} {b : β} :
    (x >>= f).outcome = .ok b ↔ ∃ a, x.outcome = .ok a ∧ (f a).outcome = .ok b := by
  rw [outcome_bind, bind_eq_ok_iff]

/-- A changed value comes from a value. -/
theorem outcome_map_eq_ok_iff {f : α → β} {x : Logged ε α} {b : β} :
    (f <$> x).outcome = .ok b ↔ ∃ a, x.outcome = .ok a ∧ f a = b := by
  exact map_eq_ok_iff

/-- A check that is made only under a condition. -/
theorem outcome_ite_bind_eq_ok_iff {p : Prop} [Decidable p] {check : Except ε Unit}
    {f : Unit → Logged ε β} {b : β} :
    (if p then ofExcept check >>= f else f ()).outcome = .ok b ↔
      (p → check = .ok ()) ∧ (f ()).outcome = .ok b := by
  by_cases hp : p
  · rw [if_pos hp, outcome_bind_eq_ok_iff]
    constructor
    · intro h
      obtain ⟨_, hcheck, hf⟩ := h
      exact ⟨fun _ => hcheck, hf⟩
    · intro h
      exact ⟨(), h.1 hp, h.2⟩
  · rw [if_neg hp]
    constructor
    · intro h
      exact ⟨fun hyes => absurd hyes hp, h⟩
    · intro h
      exact h.2

/-! ## Laws of sequencing -/

instance : LawfulMonad (Logged ε) := LawfulMonad.mk' (Logged ε)
  (by
    intro α x
    change Logged.map id x = x
    unfold Logged.map
    cases x with
    | mk outcome notices => cases outcome <;> rfl)
  (by
    intro α β a f
    change Logged.bind (Logged.pure a) f = f a
    simp [Logged.bind, Logged.pure])
  (by
    intro α β γ x f g
    change Logged.bind (Logged.bind x f) g = Logged.bind x fun a => Logged.bind (f a) g
    unfold Logged.bind
    cases x.outcome with
    | error e => rfl
    | ok a => cases hf : (f a).outcome <;> simp [hf])
  (fun _ _ => rfl) (fun _ _ => rfl) (fun _ _ => rfl)
  (by
    intro α β f x
    change Logged.bind x (fun a => Logged.pure (f a)) = Logged.map f x
    unfold Logged.bind Logged.map
    cases x.outcome <;> simp [Logged.pure, Except.map])

end Logged
end JvmMethods
