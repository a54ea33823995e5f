import JvmMethods.Proofs.ClassGraph.Consistency
import JvmMethods.Proofs.ClassGraph.Permanence
import JvmMethods.Proofs.Signature.ErasedForm

/-!
# Call sites of stored methods

A call site names a method with its descriptor, which says nothing of generics.  Every method that a
class stores is found from the call site that has its name and its erased form, on every type that
erases to the class: the class with whatever arguments, a type variable, or, if the class is the
root, an array.  The erased form is read back as a descriptor with the same erased form, and the
class dispatches it to that method, since it stores no other one with that name and descriptor.

Main results:

- Theorem {lit}`ClassGraph.resolve_eq_ok_iff`: what a reference resolves to.
- Theorem {lit}`ClassGraph.Built.resolve_stored`: a stored method is found from its erased form.
-/

namespace JvmMethods
namespace ClassGraph

variable {g : ClassGraph}

/-! ## What a reference resolves to -/

/-- The computation gives a method exactly if that is the method there is. -/
theorem Gives.eq_ok_iff {x : Logged Error MethodDefinition} {found : Option MethodDefinition}
    (h : Gives x found) {d : MethodDefinition} : x.outcome = .ok d ↔ found = some d := by
  cases found with
  | some m =>
      rw [Gives] at h
      rw [h, Except.ok.injEq, Option.some_inj]
  | none =>
      obtain ⟨e, he, -⟩ := h
      simp [he]

/-- The lookup of a reference starts at its declaring type. -/
theorem resolve_of_declaringType {r : MethodReference} {type : FieldType}
    (h : r.declaringType = some type) : g.resolve r = g.resolveOn type r := by
  rw [resolve, h]

/-- A reference resolves to the method that its owner has for it. -/
theorem resolve_eq_ok_iff {r : MethodReference} {d : MethodDefinition} :
    (g.resolve r).outcome = .ok d ↔
      ∃ owner c, r.owner = some owner ∧ g.lookup owner = some c ∧ g.methodFor c r = some d := by
  constructor
  · intro h
    cases htype : r.declaringType with
    | none =>
        rw [resolve, htype] at h
        cases h
    | some type =>
        rw [resolve_of_declaringType htype] at h
        obtain ⟨owner, hclass, -⟩ := Logged.outcome_bind_eq_ok_iff.1 h
        have howner := lookupClass_eq_ok_iff.1 hclass
        cases hc : g.lookup owner with
        | none =>
            rw [outcome_resolveOn_of_unknown howner hc] at h
            cases h
        | some c =>
            exact ⟨owner, c, Option.bind_eq_some_iff.2 ⟨type, htype, howner⟩, hc,
              (gives_resolveOn howner hc).eq_ok_iff.1 h⟩
  · rintro ⟨owner, c, howner, hc, hm⟩
    obtain ⟨type, htype, howner⟩ := Option.bind_eq_some_iff.1 howner
    rw [resolve_of_declaringType htype]
    exact (gives_resolveOn howner hc).eq_ok_iff.2 hm

/-! ## Stored methods -/

/-- Every stored method is found from a call site with its name and its erased form, on every type
that erases to its class, if the class names in the erased form pass their check. -/
theorem Built.resolve_stored (hg : g.Built) {c : ClassEntry} (hc : c ∈ g.classes)
    {m : MethodDefinition} (hm : m ∈ c.methods)
    (hnames : ∀ n ∈ m.toReference.toSignature.erasedNames, BinaryName.check n.text = .ok ())
    {type : FieldType} (htype : type.erasedClassName = some c.name) :
    ∃ site,
      (MethodReference.ofDescriptor (some type) m.name.text m.erasedSignature).outcome = .ok site ∧
        (g.resolve site).outcome = .ok m := by
  obtain ⟨site, hsite, hdeclaring, hname, hsignature⟩ :=
    MethodReference.exists_ofDescriptor hnames (some type)
  refine ⟨site, hsite, resolve_eq_ok_iff.2 ⟨c.name, c, ?_, ?_, ?_⟩⟩
  · rw [MethodReference.owner, hdeclaring]
    exact htype
  · exact hg.reachable.wellFormed.lookup_eq_some_iff.2 ⟨hc, rfl⟩
  · refine methodFor_of_declared ?_
    rw [hname, hsignature]
    exact (hg.dispatchesApart hc).declared? hm

/-- A method with a variable, an inner class and an array among its types. -/
def wrapMethod : MethodDefinition :=
  .ofSignature (.ofName .object) ⟨"wrap", rfl⟩ (.ofList [.isPublic])
    ⟨[⟨⟨"W", rfl⟩, some (.ofName ⟨"a/N"⟩), []⟩],
      [.typeVariable ⟨"W", rfl⟩ ⟨"a/N"⟩,
        .array (.object (.inner (.named ⟨"a/B"⟩ [.wildcard]) ⟨"a/B$C"⟩ []))],
      some (.object (.named ⟨"a/L"⟩ [.bounded .upper (.typeVariable ⟨"W", rfl⟩ ⟨"a/N"⟩)])), []⟩

/-- A root class with that method. -/
def wrapRoot : ClassEntry :=
  { bareRoot with methods := [wrapMethod] }

/-- A call site on an array of numbers finds the method of the root class. -/
theorem Built.resolve_stored_wrap :
    (⟨[wrapRoot]⟩ : ClassGraph).Built ∧
      wrapMethod.erasedSignature = "(La/N;[La/B$C;)La/L;" ∧
      ∃ site, (MethodReference.ofDescriptor (some (.array (.base .int))) "wrap"
          wrapMethod.erasedSignature).outcome = .ok site ∧
        ((⟨[wrapRoot]⟩ : ClassGraph).resolve site).outcome = .ok wrapMethod := by
  have hbuilt : (⟨[wrapRoot]⟩ : ClassGraph).Built :=
    ⟨[.addClass bareRoot, .addMethod .object wrapMethod],
      ⟨permits_addClass (fun _ hs => nomatch hs) rfl rfl, trivial, trivial⟩, rfl⟩
  have hnames : ∀ n ∈ wrapMethod.toReference.toSignature.erasedNames,
      BinaryName.check n.text = .ok () := by decide
  have harray : (FieldType.array (.base .int)).erasedClassName = some wrapRoot.name := rfl
  exact ⟨hbuilt, rfl,
    hbuilt.resolve_stored List.mem_cons_self List.mem_cons_self hnames harray⟩

end ClassGraph
end JvmMethods
