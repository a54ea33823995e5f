import JvmMethods.Proofs.Signature.Rendering

/-!
# Descriptors

A descriptor is a signature without generics.  A type without generics has one written form, unless
it selects an inner class: signatures write a dot in front of the simple name of an inner class,
and erased forms have no dots.  So a text that is read as a descriptor is the descriptor of what it
is read as exactly if it has no dots.

Main results:

- Definitions {lit}`FieldType.erasedNames` and {lit}`MethodSignature.erasedNames`: the class names
  in erased forms.
- Theorem {lit}`MethodSignature.erasedChars_eq_signatureChars_iff`: when the two written forms of a
  signature without generics are the same.
- Theorem {lit}`MethodSignature.parseDescriptor_eq_ok_iff`: which signatures are descriptors.
- Theorem {lit}`MethodSignature.erasedSignature_of_parseDescriptor_iff`: which texts are the
  descriptors of what they are read as.
-/

namespace JvmMethods

/-! ## Names in erased forms -/

/-- The class names in the erased form of a type, of which there is at most one. -/
def FieldType.erasedNames : FieldType → List BinaryName
  | .base _ => []
  | .object c => [c.name]
  | .array element => element.erasedNames
  | .typeVariable _ erased => [erased]

/-- The class names in the erased form of a signature. -/
def MethodSignature.erasedNames (s : MethodSignature) : List BinaryName :=
  s.parameters.flatMap FieldType.erasedNames ++ s.returnType.toList.flatMap FieldType.erasedNames

/-- The name in the erased form of a type without variables is that of a class. -/
theorem FieldType.unbroken_of_mem_erasedNames : ∀ {t : FieldType}, t.WellFormed →
    t.isGeneric = false → ∀ n ∈ t.erasedNames, n.Unbroken
  | .object c, h, _, n, hn => by
      rw [List.mem_singleton.1 hn]
      exact ClassType.WellFormed.unbroken_name h
  | .array element, h, hplain, n, hn =>
      unbroken_of_mem_erasedNames (t := element) h hplain n hn
  | .typeVariable _ _, _, hplain, _, _ => nomatch hplain

/-- The dots of an erased form are those of its class name. -/
theorem FieldType.dot_not_mem_erasedChars : ∀ {t : FieldType},
    (∀ n ∈ t.erasedNames, n.Unbroken) → '.' ∉ t.erasedChars
  | .base b, _ => by cases b <;> decide
  | .object c, h => by
      have hdot := (h c.name List.mem_cons_self).not_mem (c := '.') rfl
      simp [erasedChars, BinaryName.descriptorChars, hdot]
  | .array element, h => by
      have hdot : '.' ∉ element.erasedChars := dot_not_mem_erasedChars h
      simp [erasedChars, hdot]
  | .typeVariable _ erased, h => by
      have hdot := (h erased List.mem_cons_self).not_mem (c := '.') rfl
      simp [erasedChars, BinaryName.descriptorChars, hdot]

/-- The names in the erased form of a signature are those in its parameters and in its result. -/
theorem MethodSignature.forall_erasedNames_iff {P : BinaryName → Prop} {s : MethodSignature} :
    (∀ n ∈ s.erasedNames, P n) ↔
      (∀ t ∈ s.parameters, ∀ n ∈ t.erasedNames, P n) ∧
        ∀ t ∈ s.returnType, ∀ n ∈ t.erasedNames, P n := by
  simp only [erasedNames, List.forall_mem_append, List.forall_mem_flatMap, Option.mem_toList,
    Option.mem_def]

/-- The dots of an erased form are those of its class names. -/
theorem MethodSignature.dot_not_mem_erasedChars {s : MethodSignature}
    (h : ∀ n ∈ s.erasedNames, n.Unbroken) : '.' ∉ s.erasedChars := by
  obtain ⟨hparameters, hreturn⟩ := forall_erasedNames_iff.1 h
  have hlist : '.' ∉ FieldType.listErasedChars s.parameters := by
    intro hmem
    rcases List.mem_flatMap.1 hmem with ⟨t, ht, hdot⟩
    exact FieldType.dot_not_mem_erasedChars (hparameters t ht) hdot
  have hlast : '.' ∉ FieldType.returnErasedChars s.returnType := by
    cases hr : s.returnType with
    | none => decide
    | some t => exact FieldType.dot_not_mem_erasedChars (hreturn t hr)
  simp [erasedChars, hlist, hlast]

/-! ## Dots in written forms -/

namespace FieldType

/-- A type with neither generics nor dots is written as its erasure is. -/
theorem erasedChars_of_dot_not_mem : ∀ {t : FieldType}, t.isGeneric = false →
    '.' ∉ t.signatureChars → t.erasedChars = t.signatureChars
  | .base _, _, _ => rfl
  | .object (.named name []), _, _ => by
      simp [erasedChars, signatureChars, BinaryName.descriptorChars, ClassType.name,
        ClassType.bodyChars, TypeArgument.bracketedChars]
  | .object (.inner _ _ _), _, hdot => by
      simp [signatureChars, ClassType.bodyChars] at hdot
  | .array element, hplain, hdot => by
      have hdot' : '.' ∉ element.signatureChars := fun hmem => hdot (List.mem_cons_of_mem _ hmem)
      have helement : element.erasedChars = element.signatureChars :=
        erasedChars_of_dot_not_mem hplain hdot'
      rw [erasedChars, signatureChars, helement]

theorem listErasedChars_of_dot_not_mem {ts : List FieldType}
    (hplain : ∀ t ∈ ts, t.isGeneric = false) (hdot : '.' ∉ listSignatureChars ts) :
    listErasedChars ts = listSignatureChars ts := by
  refine List.flatMap_congr fun t ht => erasedChars_of_dot_not_mem (hplain t ht) ?_
  exact fun hmem => hdot (List.mem_flatMap.2 ⟨t, ht, hmem⟩)

theorem returnErasedChars_of_dot_not_mem {type : Option FieldType}
    (hplain : ∀ t ∈ type, t.isGeneric = false) (hdot : '.' ∉ returnSignatureChars type) :
    returnErasedChars type = returnSignatureChars type := by
  cases type with
  | none => rfl
  | some t => exact erasedChars_of_dot_not_mem (hplain t rfl) hdot

end FieldType

/-! ## Method descriptors -/

namespace MethodSignature

/-- A signature mentions no generics exactly if it declares none, throws nothing, and neither its
parameters nor its result mention any. -/
theorem isGeneric_eq_false_iff {s : MethodSignature} :
    s.isGeneric = false ↔ s.typeParameters = [] ∧ s.thrownTypes = [] ∧
      (∀ t ∈ s.parameters, t.isGeneric = false) ∧ ∀ t ∈ s.returnType, t.isGeneric = false := by
  cases hr : s.returnType <;> simp [isGeneric, hr, and_assoc]

/-- Of a signature without generics only the types in front of and behind the closing parenthesis
are written. -/
theorem signatureChars_of_not_isGeneric {s : MethodSignature} (hplain : s.isGeneric = false) :
    s.signatureChars = '(' :: (FieldType.listSignatureChars s.parameters ++
      ')' :: FieldType.returnSignatureChars s.returnType) := by
  rcases isGeneric_eq_false_iff.1 hplain with ⟨hparameters, hthrown, -, -⟩
  simp [signatureChars, hparameters, hthrown, typeParametersChars]

/-- A method signature without generics is written as its descriptor exactly if it selects no inner
class. -/
theorem erasedChars_eq_signatureChars_iff {scope : TypeScope} {declared : List TypeParameter}
    {s : MethodSignature} (h : s.ReadableIn scope declared) (hplain : s.isGeneric = false) :
    s.erasedChars = s.signatureChars ↔ '.' ∉ s.signatureChars := by
  rcases isGeneric_eq_false_iff.1 hplain with ⟨-, -, hparameters, hreturn⟩
  constructor
  · intro heq
    rw [← heq]
    refine dot_not_mem_erasedChars (forall_erasedNames_iff.2 ⟨?_, ?_⟩)
    · exact fun t ht =>
        FieldType.unbroken_of_mem_erasedNames (h.parameters t ht).1 (hparameters t ht)
    · exact fun t ht => FieldType.unbroken_of_mem_erasedNames (h.returnType t ht).1 (hreturn t ht)
  · intro hdot
    rw [signatureChars_of_not_isGeneric hplain] at hdot ⊢
    simp only [List.mem_cons, List.mem_append, not_or] at hdot
    rw [erasedChars, FieldType.listErasedChars_of_dot_not_mem hparameters hdot.2.1,
      FieldType.returnErasedChars_of_dot_not_mem hreturn hdot.2.2.2]

/-- A descriptor is a text that is read as a signature without generics where nothing is in scope.
-/
theorem parseDescriptor_eq_ok_iff {source : String} {s : MethodSignature} :
    (parseDescriptor source).outcome = .ok s ↔
      (MethodSignature.parse source []).outcome = .ok s ∧ s.isGeneric = false := by
  rw [parseDescriptor, Logged.outcome_bind_eq_ok_iff]
  constructor
  · rintro ⟨t, hparse, h⟩
    by_cases hgeneric : t.isGeneric = true
    · rw [if_pos hgeneric] at h
      cases h
    · rw [if_neg hgeneric] at h
      cases h
      exact ⟨hparse, Bool.eq_false_iff.2 hgeneric⟩
  · rintro ⟨hparse, hplain⟩
    refine ⟨s, hparse, ?_⟩
    rw [hplain]
    rfl

/-- A text that is read as a descriptor is the descriptor of what it is read as exactly if it has no
dots. -/
theorem erasedSignature_of_parseDescriptor_iff {source : String} {s : MethodSignature}
    (h : (parseDescriptor source).outcome = .ok s) :
    s.erasedSignature = source ↔ '.' ∉ source.toList := by
  rcases parseDescriptor_eq_ok_iff.1 h with ⟨hparse, hplain⟩
  rcases Signature.sound_whole (Signature.sound_methodSignature _) hparse with
    ⟨rfl, declared, hreadable⟩
  rw [String.toList_ofList, erasedSignature, String.ofList_inj,
    erasedChars_eq_signatureChars_iff hreadable hplain]

end MethodSignature
end JvmMethods
