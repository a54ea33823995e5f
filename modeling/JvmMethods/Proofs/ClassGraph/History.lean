import JvmMethods.Proofs.ClassGraph.LibraryGrowth

/-!
# Histories of class graphs

A history is a list of operations, carried out one after the other, each on the graph that the
earlier ones left.  Only adding a method can fail, and it does so before the graph is changed, so an
operation that fails leaves the graph as it is.  What every operation keeps, a history keeps.

Main results:

- Definitions {lit}`ClassGraph.Operation`, {lit}`ClassGraph.after` and {lit}`ClassGraph.replay`:
  operations, and what one or several of them leave.
- Theorem {lit}`ClassGraph.exists_perform_iff`: which operations succeed.
- Theorem {lit}`ClassGraph.after_of_error`: an operation that fails leaves the graph as it is.
- Theorem {lit}`ClassGraph.run_replay`: a history of permitted operations is a run.
- Theorem {lit}`ClassGraph.replay_invariant`: what every permitted operation keeps, a history keeps.
-/

namespace JvmMethods

/-- No two methods of the class have the same name and descriptor. -/
def ClassEntry.DispatchesApart (c : ClassEntry) : Prop :=
  c.methods.Pairwise fun m n => ¬ (m.name = n.name ∧ m.erasedSignature = n.erasedSignature)

namespace ClassGraph

/-! ## Operations -/

/-- An operation on a class graph. -/
inductive Operation where
  | addClass (entry : ClassEntry)
  | addInterfaces (name : BinaryName) (interfaces : List BinaryName)
  | addMethod (owner : BinaryName) (method : MethodDefinition)
  | addStandardLibrary

/-- Carry out the operation, whatever it returns. -/
def Operation.perform : Operation → Update Unit
  | .addClass entry => do
      let _ ← ClassGraph.addClass entry
  | .addInterfaces name interfaces => ClassGraph.addInterfaces name interfaces
  | .addMethod owner method => do
      let _ ← ClassGraph.addMethod owner method
  | .addStandardLibrary => ClassGraph.addStandardLibrary

/-- The graph that an operation leaves, be it a success or a failure. -/
def after (g : ClassGraph) (op : Operation) : ClassGraph :=
  (op.perform g).state

/-- Classes are linked to classes of the graph only.  A class is usually added without methods; if
it comes with some, they are its own, and no two of them are dispatched alike. -/
def Permits (g : ClassGraph) : Operation → Prop
  | .addClass entry => g.Admits entry ∧ entry.DispatchesApart
  | .addInterfaces _ interfaces => ∀ i ∈ interfaces, g.Knows i
  | .addMethod _ _ => True
  | .addStandardLibrary => True

/-- The graph that some operations leave, carried out one after the other. -/
def replay (g : ClassGraph) (ops : List Operation) : ClassGraph :=
  ops.foldl after g

/-- Every operation is permitted in the graph that the earlier ones leave. -/
def PermitsAll : ClassGraph → List Operation → Prop
  | _, [] => True
  | g, op :: ops => g.Permits op ∧ PermitsAll (g.after op) ops

/-- The graphs that permitted operations build out of the graph without classes. -/
def Built (g : ClassGraph) : Prop :=
  ∃ ops, empty.PermitsAll ops ∧ empty.replay ops = g

variable {g g' : ClassGraph}

@[simp]
theorem replay_nil (g : ClassGraph) : g.replay [] = g :=
  rfl

@[simp]
theorem replay_cons (g : ClassGraph) (op : Operation) (ops : List Operation) :
    g.replay (op :: ops) = (g.after op).replay ops :=
  rfl

/-! ## What an operation leaves -/

/-- A computation succeeds exactly if it does so with some value, whatever becomes of that value. -/
theorem outcome_discard_eq_ok_iff {α : Type} {x : Update α} :
    ((do let _ ← x) g).outcome = .ok ((), g') ↔ ∃ a, (x g).outcome = .ok (a, g') := by
  rw [Tracked.outcome_bind_eq_ok_iff]
  constructor
  · rintro ⟨a, g₁, hx, hlast⟩
    cases hlast
    exact ⟨a, hx⟩
  · rintro ⟨a, hx⟩
    exact ⟨a, g', hx, rfl⟩

/-- Every operation succeeds, except that a method is only added to the class that it belongs to,
and only if the graph holds that class. -/
theorem exists_perform_iff {op : Operation} :
    (∃ g', (op.perform g).outcome = .ok ((), g')) ↔
      ∀ owner m, op = .addMethod owner m → m.toReference.owner = some owner ∧ g.Knows owner := by
  cases op with
  | addClass entry =>
      obtain ⟨stored, g', hadd⟩ := exists_addClass entry g
      have hdone : ((Operation.addClass entry).perform g).outcome = .ok ((), g') :=
        outcome_discard_eq_ok_iff.2 ⟨stored, hadd⟩
      exact iff_of_true ⟨g', hdone⟩ fun _ _ h => nomatch h
  | addInterfaces name interfaces =>
      exact iff_of_true ⟨_, addInterfaces_eq_ok_iff.2 rfl⟩ fun _ _ h => nomatch h
  | addMethod owner m =>
      have hdone : (∃ g', ((Operation.addMethod owner m).perform g).outcome = .ok ((), g')) ↔
          ∃ d g', (addMethod owner m g).outcome = .ok (d, g') :=
        (exists_congr fun _ => outcome_discard_eq_ok_iff).trans exists_comm
      rw [hdone, exists_addMethod_iff]
      constructor
      · rintro h _ _ ⟨⟩
        exact h
      · exact fun h => h owner m rfl
  | addStandardLibrary =>
      exact iff_of_true (exists_addStandardLibrary g) fun _ _ h => nomatch h

/-- An operation that succeeds leaves the graph that it returns with. -/
theorem after_of_ok {op : Operation} (h : (op.perform g).outcome = .ok ((), g')) :
    g.after op = g' :=
  Tracked.Result.state_of_ok h

/-- A method that cannot be added leaves the graph as it is. -/
theorem after_addMethod_of_error {owner : BinaryName} {m : MethodDefinition} {e : Error}
    (h : (addMethod owner m g).outcome = .error e) : g.after (.addMethod owner m) = g := by
  have hstate : ((Operation.addMethod owner m).perform g).state = (addMethod owner m g).state :=
    Tracked.state_bind_of_error h
  rw [after, hstate, state_addMethod_of_error h]

/-- An operation that fails leaves the graph as it is. -/
theorem after_of_error {op : Operation} {e : Error} (h : (op.perform g).outcome = .error e) :
    g.after op = g := by
  -- Only adding a method can fail.
  have hfails : ∃ owner m, op = .addMethod owner m := by
    by_contra hother
    have hsucceeds : ∃ g', (op.perform g).outcome = .ok ((), g') :=
      exists_perform_iff.2 fun owner m hop => absurd ⟨owner, m, hop⟩ hother
    simp [h] at hsucceeds
  obtain ⟨owner, m, rfl⟩ := hfails
  cases hadd : (addMethod owner m g).outcome with
  | error e' => exact after_addMethod_of_error hadd
  | ok result =>
      have hdone := outcome_discard_eq_ok_iff.2 ⟨result.1, hadd⟩
      cases h.symm.trans hdone

/-- An operation returns with the graph that it leaves, or it fails and leaves the old one. -/
theorem perform_after_or (op : Operation) (g : ClassGraph) :
    (op.perform g).outcome = .ok ((), g.after op) ∨ g.after op = g := by
  cases hop : (op.perform g).outcome with
  | error e => exact .inr (after_of_error hop)
  | ok result => exact .inl (by rw [after_of_ok hop])

/-- A class whose name is taken leaves the graph as it is. -/
theorem after_addClass_of_knows {entry : ClassEntry} (h : g.Knows entry.name) :
    g.after (.addClass entry) = g := by
  obtain ⟨stored, hstored⟩ := knows_iff_lookup.1 h
  exact after_of_ok (outcome_discard_eq_ok_iff.2 ⟨stored, addClass_existing hstored⟩)

/-! ## Histories are runs -/

/-- A permitted operation is a step of a run, or it fails. -/
theorem run_after {op : Operation} (h : g.Permits op) : Run g (g.after op) := by
  rcases perform_after_or op g with hdone | hsame
  · refine .single ?_
    cases op with
    | addClass entry =>
        obtain ⟨stored, hadd⟩ := outcome_discard_eq_ok_iff.1 hdone
        exact .change (.addClass h.1 hadd)
    | addInterfaces name interfaces => exact .change (.addInterfaces h hdone)
    | addMethod owner method =>
        obtain ⟨d, hadd⟩ := outcome_discard_eq_ok_iff.1 hdone
        exact .change (.addMethod hadd)
    | addStandardLibrary => exact .addStandardLibrary hdone
  · rw [hsame]
    exact .refl

/-- A history of permitted operations is a run. -/
theorem run_replay {ops : List Operation} (h : g.PermitsAll ops) : Run g (g.replay ops) := by
  induction ops generalizing g with
  | nil => exact .refl
  | cons op ops ih => exact (run_after h.1).trans (ih h.2)

/-- What a history builds, a run leads to. -/
theorem Built.reachable (hg : g.Built) : g.Reachable := by
  obtain ⟨ops, hops, rfl⟩ := hg
  exact run_replay hops

/-- The operations of a history are permitted if the first ones are, and the others are on what
these leave. -/
theorem permitsAll_append {ops more : List Operation} :
    g.PermitsAll (ops ++ more) ↔ g.PermitsAll ops ∧ (g.replay ops).PermitsAll more := by
  induction ops generalizing g with
  | nil => exact (and_iff_right trivial).symm
  | cons op ops ih => exact (and_congr_right fun _ => ih).trans and_assoc.symm

/-- What was built is built on. -/
theorem Built.replay (hg : g.Built) {ops : List Operation} (hops : g.PermitsAll ops) :
    (g.replay ops).Built := by
  obtain ⟨before, hbefore, rfl⟩ := hg
  exact ⟨before ++ ops, permitsAll_append.2 ⟨hbefore, hops⟩, List.foldl_append⟩

/-- A class that has nothing but a superclass can be added after it. -/
theorem permits_addClass {entry : ClassEntry} (hsuperclass : ∀ s ∈ entry.superclass, g.Knows s)
    (hinterfaces : entry.interfaces = []) (hmethods : entry.methods = []) :
    g.Permits (.addClass entry) := by
  refine ⟨⟨hsuperclass, ?_, ?_⟩, ?_⟩
  · rw [hinterfaces]
    exact fun _ hi => nomatch hi
  · rw [ClassEntry.OwnsMethods, hmethods]
    exact fun _ hm => nomatch hm
  · rw [ClassEntry.DispatchesApart, hmethods]
    exact List.Pairwise.nil

/-- What every permitted operation keeps, a history of them keeps. -/
theorem replay_invariant {p : ClassGraph → Prop}
    (hstep : ∀ g op, g.Permits op → p g → p (g.after op)) {ops : List Operation}
    (hops : g.PermitsAll ops) (hp : p g) : p (g.replay ops) := by
  induction ops generalizing g with
  | nil => exact hp
  | cons op ops ih => exact ih hops.2 (hstep g op hops.1 hp)

end ClassGraph
end JvmMethods
