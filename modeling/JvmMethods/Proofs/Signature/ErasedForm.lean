import JvmMethods.Method.Reference
import JvmMethods.Proofs.Signature.Descriptor
import JvmMethods.Proofs.Signature.Recovery

/-!
# Erased forms are descriptors

However generic a method is, its erased form mentions plain class names only.  If these pass their
check, then the erased form is read back as the erasure of the signature, whose own erased form it
is.  A class name that does not pass the check, such as that of a class nested in another one under
a name that is not valid, cannot be read back.

Main results:

- Theorem {lit}`FieldType.wellFormed_erasure_iff`: which erasures can be spelled.
- Theorem {lit}`MethodSignature.outcome_parse_signature`: a well-formed signature is read back with
  the erasures of the scope.
- Theorem {lit}`MethodReference.exists_ofDescriptor`: a call site can be made from the erased form
  of a method.
-/

namespace JvmMethods

/-! ## Types without generics -/

theorem ClassType.variables_of_not_isGeneric : ∀ {c : ClassType}, c.isGeneric = false →
    c.variables = []
  | .named _ [], _ => rfl
  | .inner outer _ [], h => by
      have houter : outer.isGeneric = false := by simpa [isGeneric] using h
      rw [ClassType.variables, ClassType.variables_of_not_isGeneric houter]
      rfl
  | .named _ (_ :: _), h => by cases h
  | .inner _ _ (_ :: _), h => by cases h

theorem FieldType.variables_of_not_isGeneric : ∀ {t : FieldType}, t.isGeneric = false →
    t.variables = []
  | .base _, _ => rfl
  | .object _, h => ClassType.variables_of_not_isGeneric h
  | .array element, h => variables_of_not_isGeneric (t := element) h
  | .typeVariable _ _, h => by cases h

/-- A signature without generics mentions no type variables. -/
theorem MethodSignature.variables_of_not_isGeneric {s : MethodSignature}
    (h : s.isGeneric = false) : s.variables = [] := by
  obtain ⟨htypeParameters, hthrown, hparameters, hreturn⟩ := isGeneric_eq_false_iff.1 h
  simp only [MethodSignature.variables, htypeParameters, hthrown, List.flatMap_nil,
    List.append_eq_nil_iff, List.flatMap_eq_nil_iff, Option.mem_toList, and_true, true_and]
  exact ⟨fun t ht => FieldType.variables_of_not_isGeneric (hparameters t ht),
    fun t ht => FieldType.variables_of_not_isGeneric (hreturn t ht)⟩

/-! ## Erasures -/

/-- Erasures mention no generics. -/
@[simp]
theorem FieldType.isGeneric_erasure (t : FieldType) : t.erasure.isGeneric = false := by
  fun_induction erasure t <;> simp_all [isGeneric, ofName, ClassType.isGeneric]

/-- Erasing a type keeps the name in its erased form. -/
@[simp]
theorem FieldType.erasedNames_erasure (t : FieldType) : t.erasure.erasedNames = t.erasedNames := by
  fun_induction erasure t <;> simp_all [erasedNames, ofName, ClassType.name]

/-- An erasure can be spelled exactly if the class name in it passes its check. -/
theorem FieldType.wellFormed_erasure_iff {t : FieldType} :
    t.erasure.WellFormed ↔ ∀ n ∈ t.erasedNames, BinaryName.check n.text = .ok () := by
  fun_induction erasure t with
  | case1 b => simp [WellFormed, erasedNames]
  | case2 c => simp [WellFormed, erasedNames, ofName, ClassType.WellFormed,
      TypeArgument.ListWellFormed]
  | case3 element ih => exact ih
  | case4 name erased => simp [WellFormed, erasedNames, ofName, ClassType.WellFormed,
      TypeArgument.ListWellFormed]

namespace MethodSignature

@[simp]
theorem erasedNames_erasure (s : MethodSignature) : s.erasure.erasedNames = s.erasedNames := by
  cases hr : s.returnType <;> simp [erasedNames, erasure, List.flatMap_map, hr]

theorem isGeneric_erasure (s : MethodSignature) : s.erasure.isGeneric = false := by
  refine isGeneric_eq_false_iff.2 ⟨rfl, rfl, ?_, ?_⟩
  · intro t ht
    obtain ⟨u, -, rfl⟩ := List.mem_map.1 ht
    exact u.isGeneric_erasure
  · intro t ht
    obtain ⟨u, -, rfl⟩ := Option.mem_map.1 ht
    exact u.isGeneric_erasure

/-- The erasure of a signature can be spelled if the names in it pass their check. -/
theorem wellFormed_erasure {s : MethodSignature}
    (h : ∀ n ∈ s.erasedNames, BinaryName.check n.text = .ok ()) : s.erasure.WellFormed where
  typeParameters _ hp := nomatch hp
  parameters t ht := by
    obtain ⟨u, hu, rfl⟩ := List.mem_map.1 ht
    exact FieldType.wellFormed_erasure_iff.2 fun n hn =>
      h n (List.mem_append_left _ (List.mem_flatMap.2 ⟨u, hu, hn⟩))
  returnType t ht := by
    obtain ⟨u, hu, rfl⟩ := Option.mem_map.1 ht
    exact FieldType.wellFormed_erasure_iff.2 fun n hn =>
      h n (List.mem_append_right _ (List.mem_flatMap.2 ⟨u, Option.mem_toList.2 hu, hn⟩))
  thrownTypes _ ht := nomatch ht

/-! ## Reading back -/

/-- A well-formed signature is read back with the erasures of the scope. -/
theorem outcome_parse_signature {s : MethodSignature} (h : s.WellFormed)
    (scope : List TypeParameter) :
    (MethodSignature.parse s.signature scope).outcome =
      .ok (s.resolvedIn (TypeScope.ofParameters scope)) := by
  rw [MethodSignature.parse, Signature.whole_eq_ok_iff, MethodSignature.signature,
    String.toList_ofList]
  exact Signature.methodSignature_eq_ok _ h (Nat.le_add_right _ 2)

/-- A well-formed signature without generics is read back as a descriptor. -/
theorem outcome_parseDescriptor_signature {s : MethodSignature} (h : s.WellFormed)
    (hplain : s.isGeneric = false) : (parseDescriptor s.signature).outcome = .ok s := by
  have hparse := outcome_parse_signature h []
  rw [resolvedIn_eq_self (variables_of_not_isGeneric hplain)] at hparse
  exact parseDescriptor_eq_ok_iff.2 ⟨hparse, hplain⟩

/-- The erased form of a signature is read back as the erasure of the signature. -/
theorem outcome_parseDescriptor_erasedSignature {s : MethodSignature}
    (h : ∀ n ∈ s.erasedNames, BinaryName.check n.text = .ok ()) :
    (parseDescriptor s.erasedSignature).outcome = .ok s.erasure := by
  have hread := outcome_parseDescriptor_signature (wellFormed_erasure h) s.isGeneric_erasure
  rw [signature, signatureChars_erasure] at hread
  exact hread

end MethodSignature

/-! ## Call sites -/

namespace MethodReference

/-- The signature of a method, apart from the types it throws. -/
def toSignature (r : MethodReference) : MethodSignature :=
  ⟨r.typeParameters, r.parameters.map Parameter.type, r.returnType, []⟩

/-- A reference has the erased form of the signature of its method. -/
@[simp]
theorem erasedSignature_toSignature (r : MethodReference) :
    r.toSignature.erasedSignature = r.erasedSignature :=
  rfl

/-- A call site can be made from the erased form of a method, on whatever type.  It has the erased
form that it was made from. -/
theorem exists_ofDescriptor {r : MethodReference}
    (h : ∀ n ∈ r.toSignature.erasedNames, BinaryName.check n.text = .ok ())
    (type : Option FieldType) :
    ∃ site, (ofDescriptor type r.name.text r.erasedSignature).outcome = .ok site ∧
      site.declaringType = type ∧ site.name = r.name ∧
        site.erasedSignature = r.erasedSignature := by
  have hdescriptor := MethodSignature.outcome_parseDescriptor_erasedSignature h
  have hname : (Logged.ofExcept ((UnqualifiedName.ofString r.name.text).mapError
      Error.invalidName)).outcome = .ok r.name := by
    rw [UnqualifiedName.ofString_text]
    rfl
  refine ⟨ofSignature type r.name r.toSignature.erasure, ?_, rfl, rfl, ?_⟩
  · rw [ofDescriptor, Logged.outcome_bind_of_ok hname, ← erasedSignature_toSignature,
      Logged.outcome_bind_of_ok hdescriptor]
    rfl
  · rw [erasedSignature_ofSignature, MethodSignature.erasedSignature,
      MethodSignature.erasedChars_erasure]
    rfl

end MethodReference
end JvmMethods
