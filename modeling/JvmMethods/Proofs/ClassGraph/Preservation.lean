import JvmMethods.Proofs.ClassGraph.Invariant

/-!
# What computations on class graphs keep

A property of class graphs is kept by a computation if every success turns a graph with the property
into one.  What the parts of a computation keep, the whole keeps, and a loop whose rounds succeed in
graphs with some property, and keep it, succeeds.

Main results:

- Theorems {lit}`ClassGraph.exists_addClass` and {lit}`ClassGraph.exists_addMethod_iff`: when
  classes and methods can be added.
- Definition {lit}`ClassGraph.Keeps`: what a computation on graphs keeps whenever it succeeds.
- Theorems {lit}`ClassGraph.Keeps.forM`, {lit}`ClassGraph.exists_forM` and
  {lit}`ClassGraph.forall_of_forM`: what a loop keeps, when it succeeds, and what it brings about.
-/

namespace JvmMethods
namespace ClassGraph

variable {g g' : ClassGraph}

/-! ## When operations succeed -/

/-- A method can be added to the class that declares it, if the graph holds that class. -/
theorem exists_addMethod_iff {owner : BinaryName} {m : MethodDefinition} :
    (∃ d g', (addMethod owner m g).outcome = .ok (d, g')) ↔
      m.toReference.owner = some owner ∧ g.Knows owner := by
  simp only [addMethod_eq_ok_iff]
  constructor
  · rintro ⟨d, g', howner, c, hc, -⟩
    exact ⟨howner, knows_iff_lookup.2 ⟨c, hc⟩⟩
  · rintro ⟨howner, hknown⟩
    obtain ⟨c, hc⟩ := knows_iff_lookup.1 hknown
    cases hdeclared : c.declared? m.name m.erasedSignature with
    | some existing => exact ⟨existing, g, howner, c, hc, .inl ⟨hdeclared, rfl⟩⟩
    | none => exact ⟨m, _, howner, c, hc, .inr ⟨hdeclared, rfl, rfl⟩⟩

/-- A class can be added to every graph. -/
theorem exists_addClass (entry : ClassEntry) (g : ClassGraph) :
    ∃ stored g', (addClass entry g).outcome = .ok (stored, g') := by
  simp only [addClass_eq_ok_iff]
  cases hlookup : g.lookup entry.name with
  | some existing => exact ⟨existing, g, .inl ⟨rfl, rfl⟩⟩
  | none => exact ⟨entry, _, .inr ⟨rfl, rfl, rfl⟩⟩

/-! ## What an operation keeps -/

/-- If the computation succeeds in a graph with the property, it leaves one. -/
def Keeps (p : ClassGraph → Prop) {α : Type} (x : Update α) : Prop :=
  ∀ g a g', p g → (x g).outcome = .ok (a, g') → p g'

variable {p : ClassGraph → Prop} {α β : Type}

/-- A composite keeps what its parts keep. -/
theorem Keeps.bind {x : Update α} {f : α → Update β} (hx : Keeps p x)
    (hf : ∀ a, Keeps p (f a)) : Keeps p (x >>= f) := by
  intro g b g' hp h
  obtain ⟨a, g₁, hfirst, hrest⟩ := Tracked.outcome_bind_eq_ok_iff.1 h
  exact hf a g₁ b g' (hx g a g₁ hp hfirst) hrest

/-- A value keeps everything. -/
theorem Keeps.pure (a : α) : Keeps p (pure a : Update α) := by
  intro g b g' hp h
  cases h
  exact hp

/-- Reading the graph keeps everything. -/
theorem Keeps.get : Keeps p (get : Update ClassGraph) := by
  intro g b g' hp h
  cases h
  exact hp

/-- A failure keeps everything, since it is no success. -/
theorem Keeps.throw (e : Error) : Keeps p (throw e : Update α) := by
  intro g a g' _ h
  cases h

/-- A computation that does not look at the graph keeps everything. -/
theorem Keeps.lift (x : Logged Error α) :
    Keeps p (liftM x : Update α) := by
  intro g a g' hp h
  obtain ⟨-, rfl⟩ := Tracked.outcome_liftM_eq_ok_iff.1 h
  exact hp

/-- A loop keeps what every round of it keeps. -/
theorem Keeps.forM {f : α → Update Unit} {as : List α}
    (hf : ∀ a ∈ as, Keeps p (f a)) : Keeps p (as.forM f) := by
  induction as with
  | nil => exact Keeps.pure ()
  | cons a as ih =>
      exact (hf a List.mem_cons_self).bind fun _ =>
        ih fun b hb => hf b (List.mem_cons_of_mem a hb)

/-- A loop succeeds if every round of it does in graphs with some property, and keeps the
property. -/
theorem exists_forM {f : α → Update Unit} {as : List α}
    (hround : ∀ a ∈ as, ∀ g, p g → ∃ g', (f a g).outcome = .ok ((), g'))
    (hkeeps : ∀ a ∈ as, Keeps p (f a)) (hg : p g) :
    ∃ g', (as.forM f g).outcome = .ok ((), g') := by
  induction as generalizing g with
  | nil => exact ⟨g, rfl⟩
  | cons a as ih =>
      obtain ⟨g₁, hfirst⟩ := hround a List.mem_cons_self g hg
      obtain ⟨g', hrest⟩ := ih (fun b hb => hround b (List.mem_cons_of_mem a hb))
        (fun b hb => hkeeps b (List.mem_cons_of_mem a hb))
        (hkeeps a List.mem_cons_self _ _ _ hg hfirst)
      exact ⟨g', Tracked.outcome_bind_eq_ok_iff.2 ⟨(), g₁, hfirst, hrest⟩⟩

/-- What a round brings about for its element, and every round keeps, holds for all elements after
the loop. -/
theorem forall_of_forM {f : α → Update Unit}
    {q : α → ClassGraph → Prop} (hround : ∀ a g g', (f a g).outcome = .ok ((), g') → q a g')
    (hkeeps : ∀ a b, Keeps (q a) (f b)) {as : List α}
    (h : (as.forM f g).outcome = .ok ((), g')) : ∀ a ∈ as, q a g' := by
  induction as generalizing g with
  | nil => exact fun _ ha => absurd ha List.not_mem_nil
  | cons b as ih =>
      obtain ⟨_, g₁, hfirst, hrest⟩ := Tracked.outcome_bind_eq_ok_iff.1 h
      intro a ha
      rcases List.mem_cons.1 ha with rfl | ha
      · exact Keeps.forM (fun c _ => hkeeps a c) g₁ () g' (hround a g g₁ hfirst) hrest
      · exact ih hrest a ha

/-! ## Classes are there for good -/

/-- Adding a class does not remove any class. -/
theorem keeps_knows_addClass (entry : ClassEntry) (name : BinaryName) :
    Keeps (fun g => g.Knows name) (addClass entry) := by
  intro g stored g' hknown h
  rcases addClass_eq_ok_iff.1 h with ⟨-, rfl⟩ | ⟨-, -, rfl⟩
  · exact hknown
  · obtain ⟨c, hc, hname⟩ := hknown
    exact ⟨c, List.mem_append_left _ hc, hname⟩

/-- Changing a class does not remove any class. -/
theorem Knows.modify {name other : BinaryName} {f : ClassEntry → ClassEntry}
    (hf : ∀ c, (f c).name = c.name) (h : g.Knows other) : (g.modify name f).Knows other := by
  obtain ⟨c, hc, rfl⟩ := h
  refine ⟨_, List.mem_map_of_mem hc, ?_⟩
  split
  · exact hf c
  · rfl

/-- Adding links does not remove any class. -/
theorem keeps_knows_addInterfaces (owner : BinaryName) (interfaces : List BinaryName)
    (name : BinaryName) : Keeps (fun g => g.Knows name) (addInterfaces owner interfaces) := by
  intro g u g' hknown h
  rw [addInterfaces_eq_ok_iff.1 h]
  exact hknown.modify fun _ => rfl

/-- Adding a method does not remove any class. -/
theorem keeps_knows_addMethod (owner : BinaryName) (m : MethodDefinition) (name : BinaryName) :
    Keeps (fun g => g.Knows name) (addMethod owner m) := by
  intro g d g' hknown h
  obtain ⟨-, c, -, ⟨-, rfl⟩ | ⟨-, -, rfl⟩⟩ := addMethod_eq_ok_iff.1 h
  · exact hknown
  · exact hknown.modify fun _ => rfl

end ClassGraph
end JvmMethods
