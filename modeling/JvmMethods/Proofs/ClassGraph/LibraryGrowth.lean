import JvmMethods.Proofs.ClassGraph.Preservation
import JvmMethods.Proofs.Method.Assembly
import JvmMethods.Proofs.Signature.ErasedForm

/-!
# Adding the standard library

The library is added to graphs that may hold some of its types already, with other supertypes,
methods or type parameters.  The types that were there are kept, and every method finds the class
that it belongs to.  A generic signature is read in the scope of that class, whatever it declares,
since variables that are not in scope have an erasure, too.  So adding the library never fails.

Main results:

- Theorem {lit}`StandardLibrary.LibraryMethod.Spelled.exists_define`: a method of the library is
  defined for every class.
- Theorem {lit}`ClassGraph.exists_addStandardLibrary`: the library can be added to every graph.
-/

namespace JvmMethods
namespace StandardLibrary

/-! ## Library methods -/

/-- The descriptor of a library method is the erased form of a signature whose class names pass
their check, and its generic signature is that of a well-formed one. -/
structure LibraryMethod.Spelled (m : LibraryMethod) : Prop where
  descriptor : ∃ s : MethodSignature,
    (∀ n ∈ s.erasedNames, BinaryName.check n.text = .ok ()) ∧ s.erasedSignature = m.descriptor
  signature : ∀ generic ∈ m.signature, ∃ s : MethodSignature, s.WellFormed ∧ s.signature = generic

/-- A method without a generic signature needs a descriptor only. -/
theorem LibraryMethod.spelled_of_descriptor {m : LibraryMethod} (s : MethodSignature)
    (hnames : ∀ n ∈ s.erasedNames, BinaryName.check n.text = .ok ())
    (hdescriptor : s.erasedSignature = m.descriptor) (hnone : m.signature = none) : m.Spelled := by
  refine ⟨⟨s, hnames, hdescriptor⟩, ?_⟩
  rw [hnone]
  exact fun _ hgeneric => nomatch hgeneric

/-- A method with a generic signature needs a descriptor and a well-formed signature. -/
theorem LibraryMethod.spelled_of_signature {m : LibraryMethod} (erased s : MethodSignature)
    (hnames : ∀ n ∈ erased.erasedNames, BinaryName.check n.text = .ok ())
    (hdescriptor : erased.erasedSignature = m.descriptor) (hs : s.WellFormed)
    (hsignature : m.signature = some s.signature) : m.Spelled := by
  refine ⟨⟨erased, hnames, hdescriptor⟩, ?_⟩
  rw [hsignature]
  intro generic hgeneric
  exact ⟨s, hs, Option.mem_some_iff.1 hgeneric⟩

/-- A library method is defined for every class, whatever type parameters that class has. -/
theorem LibraryMethod.Spelled.exists_define {m : LibraryMethod} (h : m.Spelled)
    (owner : ClassEntry) :
    ∃ d, (m.define owner).outcome = .ok d ∧ d.toReference.owner = some owner.name := by
  obtain ⟨erased, hnames, hdescriptor⟩ := h.descriptor
  have hread := MethodSignature.outcome_parseDescriptor_erasedSignature hnames
  rw [hdescriptor] at hread
  cases hgeneric : m.signature with
  | none =>
      refine ⟨.ofSignature owner.asType m.name (.ofList m.flags) erased.erasure, ?_, rfl⟩
      simp only [define, hgeneric]
      rw [Logged.outcome_bind_of_ok hread]
      rfl
  | some generic =>
      obtain ⟨s, hs, rfl⟩ := h.signature generic hgeneric
      have hparse := MethodSignature.outcome_parse_signature hs owner.typeParameters
      have hchosen : (MethodDefinition.chooseSignature owner.typeParameters m.name m.descriptor
          erased.erasure (some s.signature)).outcome = .ok (_ : MethodSignature) :=
        MethodDefinition.outcome_chooseSignature_some hparse
      simp only [define, hgeneric]
      refine ⟨_, MethodDefinition.ofInfo_eq_ok_iff.2 ⟨m.name, erased.erasure, _, _,
        UnqualifiedName.ofString_text m.name, hread, hchosen, rfl, ?_, rfl⟩, rfl⟩
      exact fun _ hbody => nomatch hbody

/-- The thrown type that the library declares. -/
def cloneSignature : MethodSignature :=
  ⟨[], [], some (.ofName .object), [.ofName (lang "CloneNotSupportedException")]⟩

/-- The element that the library gets out of a list, whatever its erasure. -/
def getSignature : MethodSignature :=
  ⟨[], [.base .int], some (.typeVariable element.name .object), []⟩

/-- The signature with a thrown type is well formed. -/
theorem wellFormed_cloneSignature : cloneSignature.WellFormed where
  typeParameters _ hp := nomatch hp
  parameters _ ht := nomatch ht
  returnType t ht := by
    cases ht
    exact ⟨by decide, trivial⟩
  thrownTypes t ht := by
    rw [List.mem_singleton.1 ht]
    exact ⟨⟨by decide, trivial⟩, .inl ⟨_, rfl⟩⟩

/-- The signature with the variable of its class is well formed. -/
theorem wellFormed_getSignature : getSignature.WellFormed where
  typeParameters _ hp := nomatch hp
  parameters t ht := by
    rw [List.mem_singleton.1 ht]
    trivial
  returnType t ht := by
    cases ht
    trivial
  thrownTypes _ ht := nomatch ht

/-- The descriptors and signatures of all methods of the library are in order. -/
theorem spelled_methods : ∀ m ∈ methods, m.Spelled := by
  have hnullary : ∀ {m : LibraryMethod}, m.descriptor = "()V" → m.signature = none → m.Spelled :=
    fun hdescriptor => LibraryMethod.spelled_of_descriptor ⟨[], [], none, []⟩ (by decide)
      hdescriptor.symm
  have hnumber : ∀ {m : LibraryMethod}, m.descriptor = "()I" → m.signature = none → m.Spelled :=
    fun hdescriptor => LibraryMethod.spelled_of_descriptor ⟨[], [], some (.base .int), []⟩
      (by decide) hdescriptor.symm
  have htext : ∀ {m : LibraryMethod}, m.descriptor = "()Ljava/lang/String;" → m.signature = none →
      m.Spelled :=
    fun hdescriptor => LibraryMethod.spelled_of_descriptor
      ⟨[], [], some (.ofName (lang "String")), []⟩ (by decide) hdescriptor.symm
  simp only [methods, List.forall_mem_cons]
  refine ⟨hnullary rfl rfl, ?_, hnumber rfl rfl, htext rfl rfl, ?_, hnullary rfl rfl,
    htext rfl rfl, hnullary rfl rfl, ?_, htext rfl rfl, hnumber rfl rfl, ?_, ?_⟩
  · exact LibraryMethod.spelled_of_descriptor
      ⟨[], [.ofName .object], some (.base .boolean), []⟩ (by decide) rfl rfl
  · exact LibraryMethod.spelled_of_signature ⟨[], [], some (.ofName .object), []⟩ cloneSignature
      (by decide) rfl wellFormed_cloneSignature rfl
  · exact LibraryMethod.spelled_of_descriptor ⟨[], [.ofName (lang "String")], none, []⟩
      (by decide) rfl rfl
  · exact LibraryMethod.spelled_of_signature ⟨[], [.base .int], some (.ofName .object), []⟩
      getSignature (by decide) rfl wellFormed_getSignature rfl
  · exact List.forall_mem_nil _

/-- Every method of the library belongs to a type of the library. -/
theorem exists_class_of_method : ∀ m ∈ methods, ∃ c ∈ classes, c.name = m.owner := by
  decide

end StandardLibrary

namespace ClassGraph

/-! ## What adding the library keeps -/

variable {g : ClassGraph} {p : ClassGraph → Prop}

/-- Adding a method of the library keeps what adding any method to its class keeps. -/
theorem keeps_addLibraryMethod {m : StandardLibrary.LibraryMethod}
    (hadd : ∀ d, Keeps p (ClassGraph.addMethod m.owner d)) :
    Keeps p (StandardLibrary.addLibraryMethod m) := by
  refine Keeps.get.bind fun g => ?_
  cases g.lookup m.owner with
  | none => exact Keeps.throw _
  | some owner =>
      exact (Keeps.lift (m.define owner)).bind fun d => (hadd d).bind fun _ => Keeps.pure ()

/-- Adding the library keeps what adding its types and adding any method keeps. -/
theorem keeps_addStandardLibrary
    (htypes : ∀ c ∈ StandardLibrary.classes, Keeps p (StandardLibrary.addType c))
    (hmethods : ∀ owner m, Keeps p (addMethod owner m)) : Keeps p addStandardLibrary :=
  (Keeps.forM htypes).bind fun _ =>
    Keeps.forM fun m _ => keeps_addLibraryMethod fun d => hmethods m.owner d

/-- Adding a type does not remove any class. -/
theorem keeps_knows_addType (entry : ClassEntry) (name : BinaryName) :
    Keeps (fun g => g.Knows name) (StandardLibrary.addType entry) :=
  (keeps_knows_addClass _ name).bind fun _ => keeps_knows_addInterfaces _ _ name

/-- A type can be added to every graph. -/
theorem exists_addType (entry : ClassEntry) (g : ClassGraph) :
    ∃ g', (StandardLibrary.addType entry g).outcome = .ok ((), g') := by
  obtain ⟨stored, g₁, hadd⟩ := exists_addClass { entry with interfaces := [] } g
  exact ⟨_, Tracked.outcome_bind_eq_ok_iff.2 ⟨stored, g₁, hadd, addInterfaces_eq_ok_iff.2 rfl⟩⟩

/-- The graph holds a type that was added. -/
theorem knows_of_addType {entry : ClassEntry} {g' : ClassGraph}
    (h : (StandardLibrary.addType entry g).outcome = .ok ((), g')) : g'.Knows entry.name := by
  obtain ⟨stored, g₁, hadd, hlink⟩ := Tracked.outcome_bind_eq_ok_iff.1 h
  have hstored := lookup_of_addClass hadd
  exact keeps_knows_addInterfaces _ _ _ _ _ _ (knows_iff_lookup.2 ⟨stored, hstored⟩) hlink

/-- Types can be added one after the other, and are there afterwards. -/
theorem exists_addTypes (types : List ClassEntry) (g : ClassGraph) :
    ∃ g', (types.forM StandardLibrary.addType g).outcome = .ok ((), g') ∧
      ∀ c ∈ types, g'.Knows c.name := by
  have hround : ∀ entry ∈ types, ∀ g, True →
      ∃ g', (StandardLibrary.addType entry g).outcome = .ok ((), g') :=
    fun entry _ g _ => exists_addType entry g
  obtain ⟨g', h⟩ := exists_forM (g := g) hround (fun _ _ _ _ _ _ _ => trivial) trivial
  exact ⟨g', h, forall_of_forM (q := fun entry g => g.Knows entry.name)
    (fun _ _ _ => knows_of_addType) (fun c other => keeps_knows_addType other c.name) h⟩

/-! ## Adding all of it -/

/-- A method of the library can be added once its class is there. -/
theorem exists_addLibraryMethod {m : StandardLibrary.LibraryMethod} (hm : m.Spelled)
    (hg : g.Knows m.owner) :
    ∃ g', (StandardLibrary.addLibraryMethod m g).outcome = .ok ((), g') := by
  obtain ⟨c, hc⟩ := knows_iff_lookup.1 hg
  obtain ⟨d, hdefine, howner⟩ := hm.exists_define c
  rw [lookup_name hc] at howner
  obtain ⟨stored, g', hadd⟩ := exists_addMethod_iff.2 ⟨howner, hg⟩
  exact ⟨g', addLibraryMethod_eq_ok_iff.2 ⟨c, d, stored, hc, hdefine, hadd⟩⟩

/-- Methods of the library can be added one after the other once their classes are there. -/
theorem exists_addLibraryMethods {ms : List StandardLibrary.LibraryMethod}
    (hms : ∀ m ∈ ms, m.Spelled) (hg : ∀ m ∈ ms, g.Knows m.owner) :
    ∃ g', (ms.forM StandardLibrary.addLibraryMethod g).outcome = .ok ((), g') := by
  refine exists_forM (p := fun g => ∀ m ∈ ms, g.Knows m.owner) ?_ ?_ hg
  · exact fun m hm _ hknown => exists_addLibraryMethod (hms m hm) (hknown m hm)
  · intro m _ g₁ _ g₂ hknown h n hn
    exact keeps_addLibraryMethod (fun d => keeps_knows_addMethod _ d n.owner) _ _ _ (hknown n hn) h

/-- The standard library can be added to every graph. -/
theorem exists_addStandardLibrary (g : ClassGraph) :
    ∃ g', (addStandardLibrary g).outcome = .ok ((), g') := by
  obtain ⟨g₁, hclasses, hknown⟩ := exists_addTypes StandardLibrary.classes g
  have howners : ∀ m ∈ StandardLibrary.methods, g₁.Knows m.owner := by
    intro m hm
    obtain ⟨c, hc, hname⟩ := StandardLibrary.exists_class_of_method m hm
    exact hname ▸ hknown c hc
  obtain ⟨g', hmethods⟩ := exists_addLibraryMethods StandardLibrary.spelled_methods howners
  exact ⟨g', Tracked.outcome_bind_eq_ok_iff.2 ⟨(), g₁, hclasses, hmethods⟩⟩

end ClassGraph
end JvmMethods
