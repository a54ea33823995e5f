import JvmMethods.Proofs.ClassGraph.Inheritance
import JvmMethods.Proofs.ClassGraph.History

/-!
# Consistent class graphs

Whatever history builds a class graph, it stays consistent: the names of its classes differ, the
superclasses of a class end at a root without coming back to any class, the methods of a class are
its own, and no two of them are dispatched alike.  A class that is added a second time, with another
superclass, changes nothing, so that it cannot close a circle of superclasses.

Main results:

- Theorem {lit}`ClassEntry.DispatchesApart.declared?`: a class dispatches each of its methods to
  that method itself.
- Theorem {lit}`ClassGraph.keeps_apart_addStandardLibrary`: adding the library keeps methods apart.
- Theorem {lit}`ClassGraph.WellFormed.nodup_chain`: chains of superclasses do not come back.
- Theorem {lit}`ClassGraph.Built.consistent`: every graph that a history builds is consistent, and
  stays as it is where nothing can be added.
-/

namespace JvmMethods

/-! ## Methods of one class -/

namespace ClassEntry

/-- A class without methods dispatches nothing alike. -/
theorem dispatchesApart_of_methods {c : ClassEntry} (h : c.methods = []) : c.DispatchesApart := by
  rw [DispatchesApart, h]
  exact List.Pairwise.nil

/-- A method joins a class that does not dispatch its name and descriptor yet. -/
theorem DispatchesApart.append {c : ClassEntry} (h : c.DispatchesApart) {m : MethodDefinition}
    (hnew : c.declared? m.name m.erasedSignature = none) :
    DispatchesApart { c with methods := c.methods ++ [m] } := by
  refine List.pairwise_append.2 ⟨h, List.pairwise_singleton _ _, ?_⟩
  intro n hn m' hm' hsame
  rw [List.mem_singleton.1 hm'] at hsame
  exact declared?_eq_none_iff.1 hnew ⟨n, hn, hsame⟩

/-- A class dispatches each of its methods to that method itself. -/
theorem DispatchesApart.declared? {c : ClassEntry} (h : c.DispatchesApart) {m : MethodDefinition}
    (hm : m ∈ c.methods) : c.declared? m.name m.erasedSignature = some m := by
  obtain ⟨before, after, hsplit⟩ := List.append_of_mem hm
  refine declared?_eq_some_iff.2 ⟨⟨rfl, rfl⟩, before, after, hsplit, ?_⟩
  intro n hn
  rw [DispatchesApart, hsplit, List.pairwise_append] at h
  exact h.2.2 n hn m List.mem_cons_self

end ClassEntry

namespace ClassGraph

variable {g : ClassGraph}

/-! ## Methods of all classes -/

/-- A class that is found after a class was added was there before, or is the added one. -/
theorem lookup_of_append {entry c : ClassEntry} {name : BinaryName}
    (h : (⟨g.classes ++ [entry]⟩ : ClassGraph).lookup name = some c) :
    g.lookup name = some c ∨ c = entry := by
  rw [lookup, List.find?_append, Option.or_eq_some_iff] at h
  rcases h with hold | ⟨-, hnew⟩
  · exact .inl hold
  · exact .inr (List.mem_singleton.1 (List.mem_of_find?_eq_some hnew))

/-- A class that is found after one class was changed stems from the class of its name. -/
theorem lookup_of_modify {name other : BinaryName} {f : ClassEntry → ClassEntry}
    {c' : ClassEntry} (h : (g.modify name f).lookup other = some c')
    (hf : ∀ c, (f c).name = c.name) :
    ∃ c, g.lookup other = some c ∧ (c' = c ∨ other = name ∧ c' = f c) := by
  by_cases hne : other = name
  · subst hne
    rw [lookup_modify_same hf, Option.map_eq_some_iff] at h
    obtain ⟨c, hc, rfl⟩ := h
    exact ⟨c, hc, .inr ⟨rfl, rfl⟩⟩
  · rw [lookup_modify_of_ne hf hne] at h
    exact ⟨c', h, .inl rfl⟩

/-- Every class that is found by its name dispatches its methods apart. -/
def FindsApart (g : ClassGraph) : Prop :=
  ∀ name c, g.lookup name = some c → c.DispatchesApart

/-- Adding a class keeps methods apart if its own ones are. -/
theorem keeps_apart_addClass {entry : ClassEntry} (hentry : entry.DispatchesApart) :
    Keeps FindsApart (addClass entry) := by
  intro g stored g' hg h
  rcases addClass_eq_ok_iff.1 h with ⟨-, rfl⟩ | ⟨-, -, rfl⟩
  · exact hg
  · intro name c hc
    rcases lookup_of_append hc with hold | rfl
    · exact hg name c hold
    · exact hentry

/-- Links do not matter to methods. -/
theorem keeps_apart_addInterfaces (name : BinaryName) (interfaces : List BinaryName) :
    Keeps FindsApart (addInterfaces name interfaces) := by
  intro g u g' hg h
  rw [addInterfaces_eq_ok_iff.1 h]
  intro other c' hc'
  rcases lookup_of_modify hc' fun _ => rfl with ⟨c, hc, rfl | ⟨-, rfl⟩⟩
  · exact hg other c' hc
  · exact hg other c hc

/-- Adding a method keeps methods apart: one that is dispatched alike is not added. -/
theorem keeps_apart_addMethod (owner : BinaryName) (m : MethodDefinition) :
    Keeps FindsApart (addMethod owner m) := by
  intro g d g' hg h
  obtain ⟨-, c, hc, ⟨-, rfl⟩ | ⟨hnew, rfl, rfl⟩⟩ := addMethod_eq_ok_iff.1 h
  · exact hg
  · intro other c' hc'
    rcases lookup_of_modify hc' fun _ => rfl with ⟨old, hold, rfl | ⟨rfl, rfl⟩⟩
    · exact hg other c' hold
    · rw [hc, Option.some_inj] at hold
      subst hold
      exact (hg other c hc).append hnew

/-- Adding the library keeps methods apart, also those of classes that were there before. -/
theorem keeps_apart_addStandardLibrary : Keeps FindsApart addStandardLibrary := by
  refine keeps_addStandardLibrary (fun c hc => ?_) keeps_apart_addMethod
  have hmethods : ∀ c ∈ StandardLibrary.classes, c.methods.isEmpty = true := by decide
  have hapart : ({ c with interfaces := [] } : ClassEntry).DispatchesApart :=
    ClassEntry.dispatchesApart_of_methods (List.isEmpty_iff.1 (hmethods c hc))
  exact (keeps_apart_addClass hapart).bind fun _ => keeps_apart_addInterfaces _ _

/-- Every permitted operation keeps methods apart. -/
theorem keeps_apart_perform {op : Operation} (h : g.Permits op) : Keeps FindsApart op.perform := by
  cases op with
  | addClass entry => exact (keeps_apart_addClass h.2).bind fun _ => Keeps.pure ()
  | addInterfaces name interfaces => exact keeps_apart_addInterfaces name interfaces
  | addMethod owner m => exact (keeps_apart_addMethod owner m).bind fun _ => Keeps.pure ()
  | addStandardLibrary => exact keeps_apart_addStandardLibrary

/-- Methods are apart after a permitted operation if they were before it. -/
theorem findsApart_after {op : Operation} (h : g.Permits op) (hg : g.FindsApart) :
    (g.after op).FindsApart := by
  rcases perform_after_or op g with hdone | hsame
  · exact keeps_apart_perform h _ _ _ hg hdone
  · rw [hsame]
    exact hg

/-- In every graph that a history builds, classes that are found dispatch their methods apart. -/
theorem Built.findsApart (hg : g.Built) : g.FindsApart := by
  obtain ⟨ops, hops, rfl⟩ := hg
  refine replay_invariant (fun _ _ => findsApart_after) hops ?_
  intro name c hc
  cases hc

/-- In every graph that a history builds, all classes dispatch their methods apart. -/
theorem Built.dispatchesApart (hg : g.Built) {c : ClassEntry} (hc : c ∈ g.classes) :
    c.DispatchesApart :=
  hg.findsApart c.name c (hg.reachable.wellFormed.lookup_eq_some_iff.2 ⟨hc, rfl⟩)

/-! ## Chains of superclasses -/

/-- From every class of a chain on, the chain is that of this class. -/
theorem SuperclassChain.exists_suffix {c a : ClassEntry} {chain : List ClassEntry}
    (h : g.SuperclassChain c chain) (ha : a ∈ chain) :
    ∃ tail, tail <:+ chain ∧ g.SuperclassChain a tail := by
  induction h with
  | root hroot =>
      obtain rfl := List.mem_singleton.1 ha
      exact ⟨[a], List.suffix_rfl, .root hroot⟩
  | link hname hs hrest ih =>
      rcases List.mem_cons.1 ha with rfl | ha
      · exact ⟨_, List.suffix_rfl, .link hname hs hrest⟩
      · obtain ⟨tail, htail, hchain⟩ := ih ha
        exact ⟨tail, htail.trans (List.suffix_cons _ _), hchain⟩

/-- A chain does not come back to any class. -/
theorem WellFormed.nodup_chain (hg : g.WellFormed) {c : ClassEntry} {chain : List ClassEntry}
    (hc : c ∈ g.classes) (h : g.SuperclassChain c chain) :
    (chain.map ClassEntry.name).Nodup := by
  induction h with
  | root => exact List.nodup_singleton _
  | @link c s name rest hname hs hrest ih =>
      have hs' : s ∈ g.classes := List.mem_of_find?_eq_some hs
      refine List.nodup_cons.2 ⟨fun hmem => ?_, ih hs'⟩
      obtain ⟨a, ha, hsame⟩ := List.mem_map.1 hmem
      have haclass := hrest.mem_classes hs' a ha
      obtain rfl : a = c := List.inj_on_of_nodup_map hg.nodup haclass hc hsame
      -- The chain from the second time on would be as long as the whole one.
      obtain ⟨tail, htail, hchain⟩ := hrest.exists_suffix ha
      have hwhole := hchain.unique (.link hname hs hrest)
      have hlength := htail.length_le
      rw [hwhole, List.length_cons] at hlength
      omega

/-! ## All of it -/

/-- What holds of every graph that a history builds. -/
structure Consistent (g : ClassGraph) : Prop where
  /-- No two classes share a name. -/
  nodup : (g.classes.map ClassEntry.name).Nodup
  /-- The superclasses of a class end at a root, differ, and are classes of the graph. -/
  chains : ∀ c ∈ g.classes, ∃ chain, g.SuperclassChain c chain ∧
    (chain.map ClassEntry.name).Nodup ∧ ∀ a ∈ chain, a ∈ g.classes
  /-- The methods of a class are declared on types that erase to the class. -/
  owned : ∀ c ∈ g.classes, c.OwnsMethods
  /-- No two methods of a class have the same name and descriptor. -/
  apart : ∀ c ∈ g.classes, c.DispatchesApart

/-- Every graph that a history builds is consistent.  Adding a method fails only if the method does
not belong to the class, or the graph does not hold the class, and leaves the graph as it is.  So
does adding a class whose name is taken. -/
theorem Built.consistent (hg : g.Built) :
    g.Consistent ∧
      (∀ owner m e, (addMethod owner m g).outcome = .error e →
        ¬ (m.toReference.owner = some owner ∧ g.Knows owner) ∧ g.after (.addMethod owner m) = g) ∧
      ∀ entry, g.Knows entry.name → g.after (.addClass entry) = g := by
  have hwell := hg.reachable.wellFormed
  refine ⟨⟨hwell.nodup, ?_, hwell.methods, fun c => hg.dispatchesApart⟩, ?_,
    fun _ => after_addClass_of_knows⟩
  · intro c hc
    have hchain := hwell.superclassChain hc (Nat.le_refl _)
    exact ⟨_, hchain, hwell.nodup_chain hc hchain, hchain.mem_classes hc⟩
  · intro owner m e herror
    refine ⟨fun hbelongs => ?_, after_addMethod_of_error herror⟩
    obtain ⟨d, g', hadd⟩ := exists_addMethod_iff.2 hbelongs
    cases herror.symm.trans hadd

/-- The root class, before the library gives it any methods. -/
def bareRoot : ClassEntry :=
  ⟨.object, none, [], false, [], []⟩

/-- A list interface, which is added before the one of the library. -/
def ownList : ClassEntry :=
  ⟨⟨"java/util/List"⟩, some .object, [], true, [], []⟩

/-- The list interface once more, as its own superclass. -/
def circularList : ClassEntry :=
  { ownList with superclass := some ownList.name }

/-- Two types of the library, before the library is added. -/
def ownGraph : ClassGraph :=
  ⟨[bareRoot, ownList]⟩

/-- A history builds the graph, in spite of the class that is its own superclass. -/
theorem built_ownGraph : ownGraph.Built := by
  have hroot : ∀ s ∈ ownList.superclass, (⟨[bareRoot]⟩ : ClassGraph).Knows s := by
    intro s hs
    cases hs
    exact ⟨bareRoot, List.mem_cons_self, rfl⟩
  have hself : ∀ s ∈ circularList.superclass, ownGraph.Knows s := by
    intro s hs
    cases hs
    exact ⟨ownList, List.mem_cons_of_mem _ List.mem_cons_self, rfl⟩
  exact ⟨[.addClass bareRoot, .addClass ownList, .addClass circularList],
    ⟨permits_addClass (fun _ hs => nomatch hs) rfl rfl, permits_addClass hroot rfl rfl,
      permits_addClass hself rfl rfl, trivial⟩, rfl⟩

/-- The graph with the library is consistent, and the circular class cannot get into it. -/
theorem Built.consistent_ownGraph :
    (ownGraph.after .addStandardLibrary).Built ∧ (ownGraph.after .addStandardLibrary).Consistent ∧
      (ownGraph.after .addStandardLibrary).after (.addClass circularList) =
        ownGraph.after .addStandardLibrary := by
  have hops : ownGraph.PermitsAll [.addStandardLibrary] := ⟨trivial, trivial⟩
  have hbuilt := built_ownGraph.replay hops
  have hrun := run_replay hops
  rw [replay_cons, replay_nil] at hbuilt hrun
  obtain ⟨hconsistent, -, hclass⟩ := hbuilt.consistent
  have hlist : ownGraph.Knows circularList.name :=
    ⟨ownList, List.mem_cons_of_mem _ List.mem_cons_self, rfl⟩
  have hknown := hrun.changes.invariant (fun _ _ hchange => hchange.knows) hlist
  exact ⟨hbuilt, hconsistent, hclass circularList hknown⟩

end ClassGraph
end JvmMethods
