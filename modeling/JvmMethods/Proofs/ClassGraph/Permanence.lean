import JvmMethods.Proofs.ClassGraph.Inheritance

/-!
# Definitions are permanent

A class keeps its methods for good, in the order in which they were added.  The first method of a
class with some name and descriptor therefore remains the first one: no second method of that name
and descriptor is added, and references to the first one resolve to it in every later state of the
graph, whether its name is special or not.  Adding the standard library is a run of elementary
changes, so that this is true of the definitions that it adds, too.

Main results:

- Definition {lit}`ClassGraph.Holds`: a method is the one that its own class dispatches.
- Theorem {lit}`ClassGraph.Change.holds`: no change takes a method away or puts another one in front
  of it.
- Theorem {lit}`ClassGraph.Holds.resolve`: a method that is held resolves to itself.
- Theorem {lit}`ClassGraph.Reachable.resolve_returned`: a definition that was once returned resolves
  to itself from then on.
-/

namespace JvmMethods
namespace ClassGraph

/-- The class that declares the method is in the graph, and dispatches its name and descriptor to
it. -/
def Holds (g : ClassGraph) (d : MethodDefinition) : Prop :=
  ∃ owner c, d.toReference.owner = some owner ∧ g.lookup owner = some c ∧
    c.declared? d.name d.erasedSignature = some d

variable {g g' : ClassGraph} {owner : BinaryName} {m d : MethodDefinition}

/-- More methods at the end do not hide the first one. -/
theorem declared?_of_prefix {c c' : ClassEntry} {name : UnqualifiedName} {erasedSignature : String}
    (hkept : c.methods <+: c'.methods) (h : c.declared? name erasedSignature = some d) :
    c'.declared? name erasedSignature = some d := by
  obtain ⟨more, hmore⟩ := hkept
  unfold ClassEntry.declared? at h ⊢
  rw [← hmore, List.find?_append, h]
  rfl

/-! ## One change -/

/-- What adding a method returns is held afterwards, and has the name and descriptor asked for. -/
theorem holds_of_addMethod (hg : g.WellFormed)
    (h : (addMethod owner m g).outcome = .ok (d, g')) :
    g'.Holds d ∧ d.toReference.owner = some owner := by
  obtain ⟨howner, c, hc, ⟨hdeclared, rfl⟩ | ⟨hnew, rfl, rfl⟩⟩ := addMethod_eq_ok_iff.1 h
  · obtain ⟨hname, hsignature⟩ := (ClassEntry.declared?_eq_some_iff.1 hdeclared).1
    have hmem : d ∈ c.methods := List.mem_of_find?_eq_some hdeclared
    have hown : d.toReference.owner = some owner := by
      rw [hg.methods c (List.mem_of_find?_eq_some hc) d hmem, lookup_name hc]
    refine ⟨⟨owner, c, hown, hc, ?_⟩, hown⟩
    rw [hname, hsignature]
    exact hdeclared
  · refine ⟨⟨owner, { c with methods := c.methods ++ [d] }, howner,
      lookup_modify_of_some (fun _ => rfl) hc, ?_⟩, howner⟩
    unfold ClassEntry.declared? at hnew ⊢
    rw [List.find?_append, hnew]
    simp [ClassEntry.dispatches]

/-- No change takes a method away or puts another one in front of it. -/
theorem Change.holds (h : Change g g') (hd : g.Holds d) : g'.Holds d := by
  obtain ⟨owner, c, howner, hc, hdeclared⟩ := hd
  obtain ⟨c', hc', hextends⟩ := h.extends owner c hc
  exact ⟨owner, c', howner, hc', declared?_of_prefix hextends.methods hdeclared⟩

/-! ## A state that holds a method -/

/-- Ordinary and special names alike are looked up on the class itself first. -/
theorem methodFor_of_declared {c : ClassEntry} {r : MethodReference}
    (h : c.declared? r.name r.erasedSignature = some d) : g.methodFor c r = some d := by
  unfold methodFor
  split
  · exact h
  · exact findMethod_of_declared h

/-- A definition that the graph holds is what references to it resolve to. -/
theorem Holds.resolve (hd : g.Holds d) : (g.resolve d.toReference).outcome = .ok d := by
  obtain ⟨owner, c, howner, hc, hdeclared⟩ := hd
  have hgives := gives_resolveOn (r := d.toReference) howner hc
  rw [methodFor_of_declared hdeclared] at hgives
  exact hgives

/-- A second method of the same name and descriptor is not added. -/
theorem Holds.addMethod (hd : g.Holds d) (howner : d.toReference.owner = some owner)
    {n : MethodDefinition} (hn : n.toReference.owner = some owner) (hname : n.name = d.name)
    (hsignature : n.erasedSignature = d.erasedSignature) :
    (ClassGraph.addMethod owner n g).outcome = .ok (d, g) := by
  obtain ⟨owner', c, howner', hc, hdeclared⟩ := hd
  obtain rfl : owner' = owner := Option.some_inj.1 (howner'.symm.trans howner)
  refine addMethod_eq_ok_iff.2 ⟨hn, c, hc, .inl ⟨?_, rfl⟩⟩
  rw [hname, hsignature]
  exact hdeclared

/-! ## Every later state -/

/-- From when adding a method returned a definition, references to it resolve to it, and adding
methods of the same name and descriptor returns it again. -/
theorem Reachable.resolve_returned {g₀ g₁ g₂ : ClassGraph} (hg : g₀.Reachable)
    (hadd : (ClassGraph.addMethod owner m g₀).outcome = .ok (d, g₁)) (hrun : Run g₁ g₂) :
    (g₂.resolve d.toReference).outcome = .ok d ∧
      ∀ n : MethodDefinition, n.toReference.owner = some owner → n.name = d.name →
        n.erasedSignature = d.erasedSignature →
          (ClassGraph.addMethod owner n g₂).outcome = .ok (d, g₂) := by
  obtain ⟨hheld, howner⟩ := holds_of_addMethod hg.wellFormed hadd
  have hlater : g₂.Holds d := hrun.changes.invariant (fun _ _ hchange => hchange.holds) hheld
  exact ⟨hlater.resolve, fun n hn hname hsignature => hlater.addMethod howner hn hname hsignature⟩

/-- The method {lit}`count` once more, with an implementation. -/
def implementedCount : MethodDefinition :=
  { countMethod with accessFlags := .ofList [.isPublic] }

/-- A method that was there already is returned in place of an added one, now and later. -/
theorem Reachable.resolve_returned_circular :
    circularGraph.Reachable ∧
      (ClassGraph.addMethod ⟨"demo/Bag"⟩ implementedCount circularGraph).outcome =
        .ok (countMethod, circularGraph) ∧
      ∃ g, Run circularGraph g ∧ (g.resolve countMethod.toReference).outcome = .ok countMethod ∧
        (ClassGraph.addMethod ⟨"demo/Bag"⟩ implementedCount g).outcome = .ok (countMethod, g) := by
  have hadd : (ClassGraph.addMethod ⟨"demo/Bag"⟩ implementedCount circularGraph).outcome =
      .ok (countMethod, circularGraph) := rfl
  have hlink : (ClassGraph.addInterfaces boxClass.name [⟨"demo/Bag"⟩] circularGraph).outcome =
      .ok ((), _) := rfl
  have hrun : Run circularGraph _ :=
    .single (.change (.addInterfaces (by simp [Knows, circularGraph]) hlink))
  obtain ⟨hresolve, hagain⟩ := reachable_circularGraph.resolve_returned hadd hrun
  exact ⟨reachable_circularGraph, hadd, _, hrun, hresolve, hagain implementedCount rfl rfl rfl⟩

end ClassGraph
end JvmMethods
