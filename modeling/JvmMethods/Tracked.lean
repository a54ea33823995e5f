import JvmMethods.Logged

/-!
# Computations that leave a state

A computation on a state can fail half-way.  What it did to the state before is not undone, so a
{lit}`Tracked` computation leaves a state in every case: after a value, and after a failure as well.
That a failure leaves the state as it was is a fact to be proved of a computation, and not a
property of sequencing.

Main results:

- Definitions {lit}`Tracked` and {lit}`Tracked.Result`: computations on a state, and what they come
  to.
- Theorem {lit}`Tracked.outcome_bind_eq_ok_iff`: a composite succeeds exactly when its parts do, one
  after the other, the second one on the state that the first one leaves.
- Theorem {lit}`Tracked.state_bind_of_error`: a composite whose first part fails leaves the state
  that this part leaves.
- Instance {lit}`LawfulMonad (Tracked σ ε)`: sequencing is associative, notices and states included.
-/

namespace JvmMethods

/-- What a computation on a state comes to: a value or a failure, with notices, and the state that
is left in either case. -/
structure Tracked.Result (σ ε α : Type) where
  report : Logged ε α
  state : σ

/-- A logged computation on a state. -/
def Tracked (σ ε α : Type) : Type :=
  σ → Tracked.Result σ ε α

namespace Tracked

variable {σ ε α β : Type}

/-- The value with the state that is left, or the failure. -/
def Result.outcome (r : Result σ ε α) : Except ε (α × σ) :=
  r.report.outcome.map fun a => (a, r.state)

/-! ## Sequencing -/

/-- A value that leaves the state as it is. -/
@[inline]
protected def pure (a : α) : Tracked σ ε α := fun s =>
  ⟨pure a, s⟩

/-- Continue with the value, if there is one, on the state that is left. -/
@[inline]
protected def bind (x : Tracked σ ε α) (f : α → Tracked σ ε β) : Tracked σ ε β := fun s =>
  let first := x s
  match first.report.outcome with
  | .ok a =>
      let second := f a first.state
      ⟨⟨second.report.outcome, first.report.notices ++ second.report.notices⟩, second.state⟩
  | .error e => ⟨⟨.error e, first.report.notices⟩, first.state⟩

instance : Monad (Tracked σ ε) where
  pure := Tracked.pure
  bind := Tracked.bind

instance : MonadStateOf σ (Tracked σ ε) where
  get := fun s => ⟨pure s, s⟩
  set s := fun _ => ⟨pure (), s⟩
  modifyGet f := fun s => ⟨pure (f s).1, (f s).2⟩

instance : MonadExceptOf ε (Tracked σ ε) where
  throw e := fun s => ⟨throw e, s⟩
  tryCatch x handle := fun s =>
    let first := x s
    match first.report.outcome with
    | .ok _ => first
    | .error e =>
        let second := handle e first.state
        ⟨⟨second.report.outcome, first.report.notices ++ second.report.notices⟩, second.state⟩

/-- What does not look at the state leaves it as it is. -/
instance : MonadLift (Logged ε) (Tracked σ ε) where
  monadLift x := fun s => ⟨x, s⟩

/-- Leave one notice, and the state as it is. -/
def note (severity : Severity) (text : String) : Tracked σ ε Unit := fun s =>
  ⟨Logged.note severity text, s⟩

/-- A caller that keeps track of states on its own learns of the state after a value only. -/
instance : CoeOut (Tracked σ ε α) (StateT σ (Logged ε) α) where
  coe x := fun s => ⟨(x s).outcome, (x s).report.notices⟩

/-! ## What is left -/

/-- A computation succeeds with the state that it leaves. -/
theorem Result.outcome_eq_ok_iff {r : Result σ ε α} {a : α} {s : σ} :
    r.outcome = .ok (a, s) ↔ r.report.outcome = .ok a ∧ r.state = s := by
  rw [outcome, map_eq_ok_iff]
  simp [and_left_comm]

/-- A computation fails exactly when its report is a failure. -/
theorem Result.outcome_eq_error_iff {r : Result σ ε α} {e : ε} :
    r.outcome = .error e ↔ r.report.outcome = .error e := by
  unfold outcome
  cases r.report.outcome with
  | error e' => simp [Except.map]
  | ok a => simp [Except.map]

/-- The state of a success is the one that is left. -/
theorem Result.state_of_ok {r : Result σ ε α} {a : α} {s : σ} (h : r.outcome = .ok (a, s)) :
    r.state = s :=
  (outcome_eq_ok_iff.1 h).2

variable {x : Tracked σ ε α} {f : α → Tracked σ ε β} {s : σ}

/-- A composite whose first part succeeds goes on with the second one. -/
theorem outcome_bind_of_ok {a : α} {s₁ : σ} (h : (x s).outcome = .ok (a, s₁)) :
    ((x >>= f) s).outcome = (f a s₁).outcome := by
  obtain ⟨hvalue, rfl⟩ := Result.outcome_eq_ok_iff.1 h
  change (Tracked.bind x f s).outcome = _
  simp only [Tracked.bind, hvalue]
  rfl

/-- A composite whose first part fails is that failure. -/
theorem outcome_bind_of_error {e : ε} (h : (x s).outcome = .error e) :
    ((x >>= f) s).outcome = .error e := by
  change (Tracked.bind x f s).outcome = _
  simp only [Tracked.bind, Result.outcome_eq_error_iff.1 h]
  rfl

/-- A composite whose first part fails leaves the state that this part leaves. -/
theorem state_bind_of_error {e : ε} (h : (x s).outcome = .error e) :
    ((x >>= f) s).state = (x s).state := by
  change (Tracked.bind x f s).state = _
  simp only [Tracked.bind, Result.outcome_eq_error_iff.1 h]

/-- A composite succeeds exactly when its parts do, one after the other, the second one on the state
that the first one leaves. -/
theorem outcome_bind_eq_ok_iff {b : β} {s' : σ} :
    ((x >>= f) s).outcome = .ok (b, s') ↔
      ∃ a s₁, (x s).outcome = .ok (a, s₁) ∧ (f a s₁).outcome = .ok (b, s') := by
  cases hx : (x s).outcome with
  | error e => simp [outcome_bind_of_error hx]
  | ok result =>
      rcases result with ⟨a, s₁⟩
      rw [outcome_bind_of_ok hx]
      constructor
      · intro h
        exact ⟨a, s₁, rfl, h⟩
      · rintro ⟨_, _, heq, h⟩
        cases heq
        exact h

/-! ## Steps -/

/-- Reading the state hands it to the rest. -/
@[simp]
theorem get_bind (f : σ → Tracked σ ε α) (s : σ) : (get >>= f) s = f s s :=
  rfl

/-- Replacing the state hands the new one to the rest. -/
@[simp]
theorem set_bind (s' : σ) (f : PUnit → Tracked σ ε α) (s : σ) : (set s' >>= f) s = f ⟨⟩ s' :=
  rfl

/-- A notice does not change what follows it. -/
@[simp]
theorem outcome_note_bind (severity : Severity) (text : String) (f : Unit → Tracked σ ε α) (s : σ) :
    ((note severity text >>= f) s).outcome = (f () s).outcome :=
  rfl

@[simp]
theorem outcome_pure (a : α) (s : σ) : ((pure a : Tracked σ ε α) s).outcome = .ok (a, s) :=
  rfl

@[simp]
theorem outcome_throw (e : ε) (s : σ) : ((throw e : Tracked σ ε α) s).outcome = .error e :=
  rfl

/-- What does not look at the state leaves it as it is. -/
theorem outcome_liftM_eq_ok_iff {x : Logged ε α} {a : α} {s' : σ} :
    ((liftM x : Tracked σ ε α) s).outcome = .ok (a, s') ↔ x.outcome = .ok a ∧ s = s' :=
  Result.outcome_eq_ok_iff

/-! ## Laws of sequencing -/

instance : LawfulMonad (Tracked σ ε) := LawfulMonad.mk' (Tracked σ ε)
  (by
    intro α x
    funext s
    change Tracked.bind x (fun a => Tracked.pure a) s = x s
    unfold Tracked.bind
    cases x s with
    | mk report state =>
        cases report with
        | mk outcome notices => cases outcome <;> simp [Tracked.pure, pure, Logged.pure])
  (fun _ _ => rfl)
  (by
    intro α β γ x f g
    funext s
    change Tracked.bind (Tracked.bind x f) g s = Tracked.bind x (fun a => Tracked.bind (f a) g) s
    unfold Tracked.bind
    cases hx : (x s).report.outcome with
    | error e => simp [hx]
    | ok a =>
        cases hf : (f a (x s).state).report.outcome with
        | error e => simp [hx, hf]
        | ok b => simp [hx, hf])

end Tracked
end JvmMethods
