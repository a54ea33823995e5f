import JvmMethods.Method.Definition
import JvmMethods.Proofs.Signature.Descriptor

/-!
# Assembling methods

A method is assembled from a descriptor, an optional generic signature and attributes.  A generic
signature that lists as many parameters as the descriptor replaces it, types and all, so the method
is dispatched on the erasure of the generic signature and not on the descriptor.  The two differ
when a variable erases to another class than the descriptor names, for instance to the root class
because no scope declares it.

Main results:

- Theorem {lit}`MethodDefinition.ofInfo_eq_ok_iff`: which methods are assembled, and what they
  consist of.
- Theorem {lit}`MethodDefinition.erasedSignature_eq_descriptor_iff`: when an assembled method is
  dispatched on the descriptor it was assembled from.
- Theorem {lit}`MethodDefinition.not_erasedSignature_eq_descriptor`: a method that is dispatched on
  another descriptor.
-/

namespace JvmMethods

/-- The generic signature if it lists as many parameters as the descriptor, and else the descriptor
with the thrown types of the generic signature. -/
def MethodSignature.orErased (parsed erased : MethodSignature) : MethodSignature :=
  if parsed.parameters.length = erased.parameters.length then parsed
  else { erased with thrownTypes := parsed.thrownTypes }

/-- The generic signature of a method is read as {lit}`parsed`, and lists as many parameters as the
descriptor does. -/
def MethodInfo.Replaces (info : MethodInfo) (scope : List TypeParameter)
    (parsed : MethodSignature) : Prop :=
  ∃ generic erased, info.signature = some generic ∧
    (MethodSignature.parse generic scope).outcome = .ok parsed ∧
    (MethodSignature.parseDescriptor info.descriptor).outcome = .ok erased ∧
    parsed.parameters.length = erased.parameters.length

/-- A generic signature is read in one way. -/
theorem MethodInfo.Replaces.unique {info : MethodInfo} {scope : List TypeParameter}
    {parsed parsed' : MethodSignature} (h : info.Replaces scope parsed)
    (h' : info.Replaces scope parsed') : parsed = parsed' := by
  rcases h with ⟨generic, _, hgeneric, hparsed, -⟩
  rcases h' with ⟨generic', _, hgeneric', hparsed', -⟩
  cases hgeneric.symm.trans hgeneric'
  cases hparsed.symm.trans hparsed'
  rfl

namespace MethodDefinition

/-! ## Parts of a method -/

variable {declaringType : FieldType} {scope : List TypeParameter} {info : MethodInfo}
  {m : MethodDefinition}

/-- A generic signature that is read is used as far as it agrees with the descriptor. -/
theorem outcome_chooseSignature_some {name : UnqualifiedName} {descriptor generic : String}
    {erased parsed : MethodSignature}
    (h : (MethodSignature.parse generic scope).outcome = .ok parsed) :
    (chooseSignature scope name descriptor erased (some generic)).outcome =
      .ok (parsed.orErased erased) := by
  rw [chooseSignature, Logged.outcome_bind_of_ok h, MethodSignature.orErased]
  split <;> rfl

/-- Without a generic signature the descriptor is used, and otherwise the signature has to be read.
-/
theorem chooseSignature_eq_ok_iff {name : UnqualifiedName} {descriptor : String}
    {erased signature : MethodSignature} {generic? : Option String} :
    (chooseSignature scope name descriptor erased generic?).outcome = .ok signature ↔
      (generic? = none ∧ signature = erased) ∨
        ∃ generic parsed, generic? = some generic ∧
          (MethodSignature.parse generic scope).outcome = .ok parsed ∧
          signature = parsed.orErased erased := by
  cases generic? with
  | none =>
      constructor
      · intro h
        cases h
        exact Or.inl ⟨rfl, rfl⟩
      · rintro (⟨-, rfl⟩ | ⟨_, _, hgeneric, -⟩)
        · rfl
        · cases hgeneric
  | some generic =>
      constructor
      · intro h
        rcases Logged.outcome_bind_eq_ok_iff.1 h with ⟨parsed, hparsed, -⟩
        cases (outcome_chooseSignature_some hparsed).symm.trans h
        exact Or.inr ⟨generic, parsed, rfl, hparsed, rfl⟩
      · rintro (⟨hnone, -⟩ | ⟨_, parsed, hgeneric, hparsed, rfl⟩)
        · cases hnone
        · cases hgeneric
          exact outcome_chooseSignature_some hparsed

/-- The last step of the assembly: a body with code needs a method that is neither abstract nor
native, and a method without a body is accepted whether it needs one or not. -/
theorem attachBody_eq_ok_iff {n : MethodDefinition} {body? : Option CodeAttribute}
    {warning : String} (hn : n.body = none) :
    (match body? with
      | some body => Logged.ofExcept (n.withBody body)
      | none => do
          if n.accessFlags.expectsBody then
            Logged.note .warning warning
          pure n : Logged Error MethodDefinition).outcome = .ok m ↔
      (∀ body ∈ body?, body.hasCode = true → n.accessFlags.expectsBody = true) ∧
        m = { n with body := body? } := by
  cases body? with
  | some body =>
      rw [Logged.outcome_ofExcept, withBody_eq_ok_iff]
      simp
  | none =>
      have houtcome : (do
          if n.accessFlags.expectsBody then
            Logged.note .warning warning
          pure n : Logged Error MethodDefinition).outcome = .ok n := by
        split <;> rfl
      have hshell : { n with body := none } = n := by rw [← hn]
      simp only [houtcome, hshell, Except.ok.injEq]
      constructor
      · rintro rfl
        exact ⟨fun _ hbody => (nomatch hbody), rfl⟩
      · rintro ⟨-, rfl⟩
        rfl

/-- A method is assembled from a valid name, a descriptor, the signature chosen for it, and what the
attributes contribute.  A body with code needs a method that is neither abstract nor native. -/
theorem ofInfo_eq_ok_iff :
    (ofInfo declaringType scope info).outcome = .ok m ↔
      ∃ name erased signature c, UnqualifiedName.ofString info.name = .ok name ∧
        (MethodSignature.parseDescriptor info.descriptor).outcome = .ok erased ∧
        (chooseSignature scope name info.descriptor erased info.signature).outcome =
          .ok signature ∧
        contribution name signature.thrownTypes info.attributes = .ok c ∧
        (∀ body ∈ c.body, body.hasCode = true → info.accessFlags.expectsBody = true) ∧
        m = { ofSignature declaringType name info.accessFlags signature with
          thrownTypes := c.thrownTypes
          attributes := c.attributes
          body := c.body } := by
  constructor
  · intro h
    rcases Logged.outcome_bind_eq_ok_iff.1 h with ⟨name, hname, h⟩
    rcases Logged.outcome_bind_eq_ok_iff.1 h with ⟨erased, herased, h⟩
    rcases Logged.outcome_bind_eq_ok_iff.1 h with ⟨signature, hsignature, h⟩
    rcases Logged.outcome_bind_eq_ok_iff.1 h with ⟨c, hc, h⟩
    rcases (attachBody_eq_ok_iff rfl).1 h with ⟨hbody, hm⟩
    exact ⟨name, erased, signature, c, mapError_eq_ok_iff.1 hname, herased, hsignature, hc, hbody,
      hm⟩
  · rintro ⟨name, erased, signature, c, hname, herased, hsignature, hc, hbody, hm⟩
    refine Logged.outcome_bind_eq_ok_iff.2 ⟨name, mapError_eq_ok_iff.2 hname, ?_⟩
    refine Logged.outcome_bind_eq_ok_iff.2 ⟨erased, herased, ?_⟩
    refine Logged.outcome_bind_eq_ok_iff.2 ⟨signature, hsignature, ?_⟩
    refine Logged.outcome_bind_eq_ok_iff.2 ⟨c, hc, ?_⟩
    exact (attachBody_eq_ok_iff rfl).2 ⟨hbody, hm⟩

/-! ## Dispatch -/

/-- The descriptor of the signature that is used depends on the numbers of parameters. -/
theorem erasedSignature_orErased (parsed erased : MethodSignature) :
    (parsed.orErased erased).erasedSignature =
      if parsed.parameters.length = erased.parameters.length then parsed.erasedSignature
      else erased.erasedSignature := by
  unfold MethodSignature.orErased
  split <;> rfl

/-- An assembled method has the descriptor of the signature that was chosen for it: of the generic
one if that replaces the descriptor, and else of what the descriptor is read as. -/
theorem erasedSignature_of_ofInfo (h : (ofInfo declaringType scope info).outcome = .ok m) :
    (∃ parsed, info.Replaces scope parsed ∧ m.erasedSignature = parsed.erasedSignature) ∨
      (∀ parsed, ¬ info.Replaces scope parsed) ∧
        ∃ erased, (MethodSignature.parseDescriptor info.descriptor).outcome = .ok erased ∧
          m.erasedSignature = erased.erasedSignature := by
  rcases ofInfo_eq_ok_iff.1 h with
    ⟨name, erased, signature, c, -, herased, hsignature, -, -, rfl⟩
  -- Attributes change thrown types and body, neither of which shows in the descriptor.
  have hm : ∀ signature : MethodSignature, MethodDefinition.erasedSignature
      { ofSignature declaringType name info.accessFlags signature with
        thrownTypes := c.thrownTypes
        attributes := c.attributes
        body := c.body } = signature.erasedSignature :=
    erasedSignature_ofSignature declaringType name info.accessFlags
  rw [hm]
  rcases chooseSignature_eq_ok_iff.1 hsignature with
    ⟨hnone, rfl⟩ | ⟨generic, parsed, hgeneric, hparsed, rfl⟩
  · refine Or.inr ⟨?_, signature, herased, rfl⟩
    rintro parsed ⟨generic, _, hgeneric, -⟩
    cases hnone.symm.trans hgeneric
  · rw [erasedSignature_orErased]
    by_cases hlength : parsed.parameters.length = erased.parameters.length
    · rw [if_pos hlength]
      exact Or.inl ⟨parsed, ⟨generic, erased, hgeneric, hparsed, herased, hlength⟩, rfl⟩
    · rw [if_neg hlength]
      refine Or.inr ⟨?_, erased, herased, rfl⟩
      rintro parsed' ⟨generic', erased', hgeneric', hparsed', herased', hlength'⟩
      cases hgeneric.symm.trans hgeneric'
      cases hparsed.symm.trans hparsed'
      cases herased.symm.trans herased'
      exact hlength hlength'

/-- An assembled method is dispatched on the descriptor it was assembled from exactly if the generic
signature erases to that descriptor, where it replaces the descriptor, and else if the descriptor
has no dots. -/
theorem erasedSignature_eq_descriptor_iff
    (h : (ofInfo declaringType scope info).outcome = .ok m) :
    m.erasedSignature = info.descriptor ↔
      (∀ parsed, info.Replaces scope parsed → parsed.erasedSignature = info.descriptor) ∧
        ((∀ parsed, ¬ info.Replaces scope parsed) → '.' ∉ info.descriptor.toList) := by
  rcases erasedSignature_of_ofInfo h with
    ⟨parsed, hreplaces, hm⟩ | ⟨hnot, erased, herased, hm⟩
  · rw [hm]
    constructor
    · intro heq
      refine ⟨?_, fun hnot => absurd hreplaces (hnot parsed)⟩
      intro parsed' hreplaces'
      rw [hreplaces'.unique hreplaces, heq]
    · intro hboth
      exact hboth.1 parsed hreplaces
  · rw [hm, MethodSignature.erasedSignature_of_parseDescriptor_iff herased]
    constructor
    · intro hdot
      exact ⟨fun parsed hreplaces => absurd hreplaces (hnot parsed), fun _ => hdot⟩
    · intro hboth
      exact hboth.2 hnot

/-- A setter of an inner class, whose parameter is a variable of the class around it. -/
def setterInfo : MethodInfo :=
  ⟨"set", ⟨1, rfl⟩, "(La/N;)V", some "(TN;)V", []⟩

/-- The setter as it is assembled if the variable erases to the given class. -/
def setter (erased : BinaryName) : MethodDefinition :=
  ⟨.ofName ⟨"a/B$C"⟩, ⟨"set", rfl⟩, ⟨1, rfl⟩, [⟨0, .typeVariable ⟨"N", rfl⟩ erased⟩], none,
    [], [], none, []⟩

/-- Where the scope declares the variable as the outer class does, the setter keeps its
descriptor. -/
theorem erasedSignature_eq_descriptor_iff_scoped :
    let scope : List TypeParameter := [⟨⟨"N", rfl⟩, some (.ofName ⟨"a/N"⟩), []⟩]
    (ofInfo (.ofName ⟨"a/B$C"⟩) scope setterInfo).outcome =
        .ok (setter ⟨"a/N"⟩) ∧
      (setter ⟨"a/N"⟩).erasedSignature = setterInfo.descriptor ∧
      ∀ parsed, setterInfo.Replaces scope parsed →
        parsed.erasedSignature = setterInfo.descriptor := by
  intro scope
  have hsetter : (ofInfo (.ofName ⟨"a/B$C"⟩) scope setterInfo).outcome =
      .ok (setter ⟨"a/N"⟩) := by cbv
  have hdescriptor : (setter ⟨"a/N"⟩).erasedSignature = setterInfo.descriptor := by
    cbv
  exact ⟨hsetter, hdescriptor, ((erasedSignature_eq_descriptor_iff hsetter).1 hdescriptor).1⟩

/-- Without the variables of the outer class in scope, the setter is dispatched on another
descriptor than the one it was assembled from. -/
theorem not_erasedSignature_eq_descriptor :
    ¬ ∀ declaringType scope info m, (ofInfo declaringType scope info).outcome = .ok m →
      m.erasedSignature = info.descriptor := by
  intro h
  have hsetter : (ofInfo (.ofName ⟨"a/B$C"⟩) [] setterInfo).outcome =
      .ok (setter .object) := by cbv
  have hdescriptor : (setter .object).erasedSignature ≠ setterInfo.descriptor := by decide
  exact hdescriptor (h _ _ _ _ hsetter)

end MethodDefinition
end JvmMethods
