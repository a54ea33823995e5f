import JvmMethods.Proofs.Signature.ErasedForm

/-!
# Classes in signatures

A type mentions classes in its arguments, in the arguments of the classes it is selected from, and
inside of arrays.  Whether a type is generic is decided on the way from an inner class to its
outermost one, and says that none of the classes it mentions has arguments.  So a descriptor
mentions no generics anywhere.  It may still select an inner class, and then its erased form is
another text.

Main results:

- Definitions {lit}`FieldType.classes` and {lit}`MethodSignature.classes`: the classes in a type and
  in a method signature.
- Theorem {lit}`FieldType.isGeneric_eq_false_iff`: which types mention no generics.
- Theorem {lit}`MethodSignature.parseDescriptor_eq_ok_iff_plain`: which signatures are descriptors.
- Theorem {lit}`MethodSignature.plain_of_parseDescriptor`: what a descriptor mentions, and when its
  erased form is the text that it was read from.
-/

namespace JvmMethods

/-! ## Classes in types -/

mutual

/-- The classes that a type mentions. -/
def FieldType.classes : FieldType → List ClassType
  | .base _ => []
  | .object c => c.classes
  | .array element => element.classes
  | .typeVariable _ _ => []

/-- The class itself, and the classes that it mentions. -/
def ClassType.classes : ClassType → List ClassType
  | .named name arguments =>
      .named name arguments :: TypeArgument.listClasses arguments
  | .inner outer name arguments =>
      .inner outer name arguments :: (outer.classes ++ TypeArgument.listClasses arguments)

/-- The classes that some arguments mention. -/
def TypeArgument.listClasses : List TypeArgument → List ClassType
  | [] => []
  | a :: as => a.classes ++ TypeArgument.listClasses as

/-- The classes that an argument mentions. -/
def TypeArgument.classes : TypeArgument → List ClassType
  | .wildcard => []
  | .bounded _ t => t.classes

end

@[simp]
theorem ClassType.mem_classes_self (c : ClassType) : c ∈ c.classes := by
  cases c with
  | named name arguments => exact List.mem_cons_self
  | inner outer name arguments => exact List.mem_cons_self

mutual

/-- A well-formed type mentions well-formed classes only. -/
theorem FieldType.WellFormed.of_mem_classes {c : ClassType} :
    ∀ {t : FieldType}, t.WellFormed → c ∈ t.classes → c.WellFormed
  | .object _, h, hc => ClassType.WellFormed.of_mem_classes h hc
  | .array element, h, hc => FieldType.WellFormed.of_mem_classes (t := element) h hc

theorem ClassType.WellFormed.of_mem_classes {c : ClassType} :
    ∀ {d : ClassType}, d.WellFormed → c ∈ d.classes → c.WellFormed
  | .named _ _, h, hc => by
      rcases List.mem_cons.1 hc with rfl | hc
      · exact h
      · exact TypeArgument.ListWellFormed.of_mem_classes h.2 hc
  | .inner _ _ _, h, hc => by
      rcases List.mem_cons.1 hc with rfl | hc
      · exact h
      · rcases List.mem_append.1 hc with hc | hc
        · exact ClassType.WellFormed.of_mem_classes h.1 hc
        · exact TypeArgument.ListWellFormed.of_mem_classes h.2.2 hc

theorem TypeArgument.ListWellFormed.of_mem_classes {c : ClassType} :
    ∀ {as : List TypeArgument}, TypeArgument.ListWellFormed as →
      c ∈ TypeArgument.listClasses as → c.WellFormed
  | _ :: _, h, hc => by
      rcases List.mem_append.1 hc with hc | hc
      · exact TypeArgument.WellFormed.of_mem_classes h.1 hc
      · exact TypeArgument.ListWellFormed.of_mem_classes h.2 hc

theorem TypeArgument.WellFormed.of_mem_classes {c : ClassType} :
    ∀ {a : TypeArgument}, a.WellFormed → c ∈ a.classes → c.WellFormed
  | .bounded _ t, h, hc => FieldType.WellFormed.of_mem_classes (t := t) h hc

end

/-! ## Types without generics -/

/-- Whether a class is generic is seen on the classes that it is selected from.  No other class is
mentioned where none of these has arguments. -/
theorem ClassType.isGeneric_eq_false_iff : ∀ {c : ClassType},
    c.isGeneric = false ↔ ∀ d ∈ c.classes, d.arguments = []
  | .named _ [] => by
      simp [isGeneric, classes, TypeArgument.listClasses, arguments]
  | .inner outer _ [] => by
      have houter := isGeneric_eq_false_iff (c := outer)
      simp [isGeneric, classes, TypeArgument.listClasses, arguments, houter]
  | .named _ (_ :: _) => by simp [isGeneric, classes, arguments]
  | .inner _ _ (_ :: _) => by simp [isGeneric, classes, arguments]

namespace FieldType

/-- A type mentions no generics exactly if it mentions no type variable and none of its classes has
arguments. -/
theorem isGeneric_eq_false_iff {t : FieldType} :
    t.isGeneric = false ↔ t.variables = [] ∧ ∀ c ∈ t.classes, c.arguments = [] := by
  fun_induction isGeneric t with
  | case1 b => simp [FieldType.variables, classes]
  | case2 c =>
      rw [classes, ← ClassType.isGeneric_eq_false_iff]
      exact ⟨fun h => ⟨ClassType.variables_of_not_isGeneric h, h⟩, And.right⟩
  | case3 element ih => exact ih
  | case4 name erased => simp [FieldType.variables]

/-- A type without generics is written without a dot exactly if none of its classes is selected from
another one. -/
theorem dot_not_mem_signatureChars_iff : ∀ {t : FieldType}, t.WellFormed → t.isGeneric = false →
    ('.' ∉ t.signatureChars ↔ ∀ c ∈ t.classes, c.outer? = none)
  | .base b, _, _ => by cases b <;> simp [signatureChars, BaseType.letter, classes]
  | .object (.named name []), h, _ => by
      have hname : '.' ∉ name.text.toList := (ClassType.WellFormed.unbroken_name h).not_mem rfl
      simp [signatureChars, ClassType.bodyChars, TypeArgument.bracketedChars, hname, classes,
        ClassType.classes, TypeArgument.listClasses, ClassType.outer?]
  | .object (.inner _ _ _), _, _ => by
      simp [signatureChars, ClassType.bodyChars, classes, ClassType.classes, ClassType.outer?]
  | .array element, h, hplain => by
      have helement := dot_not_mem_signatureChars_iff (t := element) h hplain
      simp [signatureChars, classes, helement]
  | .typeVariable _ _, _, hplain => nomatch hplain

end FieldType

/-! ## Classes in method signatures -/

namespace MethodSignature

/-- The types that a method signature consists of. -/
def types (s : MethodSignature) : List FieldType :=
  s.typeParameters.flatMap TypeParameter.bounds ++ s.parameters ++ s.returnType.toList ++
    s.thrownTypes

/-- The classes that a method signature mentions. -/
def classes (s : MethodSignature) : List ClassType :=
  s.types.flatMap FieldType.classes

theorem variables_eq (s : MethodSignature) : s.variables = s.types.flatMap FieldType.variables := by
  simp only [MethodSignature.variables, types, List.flatMap_append, List.flatMap_assoc]

/-- The types of a signature are those of its four parts. -/
theorem forall_mem_types {P : FieldType → Prop} {s : MethodSignature} :
    (∀ t ∈ s.types, P t) ↔
      (∀ p ∈ s.typeParameters, ∀ t ∈ p.bounds, P t) ∧ (∀ t ∈ s.parameters, P t) ∧
        (∀ t ∈ s.returnType, P t) ∧ ∀ t ∈ s.thrownTypes, P t := by
  simp only [types, List.forall_mem_append, List.forall_mem_flatMap, Option.mem_toList, and_assoc,
    Option.mem_def]

/-- A bound that is a class is one of the classes that a signature mentions. -/
theorem mem_classes_of_mem_bounds {s : MethodSignature} {p : TypeParameter}
    (hp : p ∈ s.typeParameters) {c : ClassType} (hc : .object c ∈ p.bounds) : c ∈ s.classes := by
  have ht : FieldType.object c ∈ s.types := by
    simp only [types, List.mem_append, List.mem_flatMap]
    exact .inl (.inl (.inl ⟨p, hp, hc⟩))
  exact List.mem_flatMap.2 ⟨_, ht, c.mem_classes_self⟩

/-- A well-formed signature consists of well-formed types. -/
theorem WellFormed.types {s : MethodSignature} (h : s.WellFormed) :
    ∀ t ∈ s.types, t.WellFormed :=
  forall_mem_types.2 ⟨fun p hp => (h.typeParameters p hp).bounds, h.parameters, h.returnType,
    fun t ht => (h.thrownTypes t ht).1⟩

/-- The types of a readable signature are readable in the scope that the signature opens. -/
theorem ReadableIn.types {scope : TypeScope} {declared : List TypeParameter}
    {s : MethodSignature} (h : s.ReadableIn scope declared) :
    ∀ t ∈ s.types, t.ReadableIn (scope ++ TypeParameter.settledScope declared) :=
  forall_mem_types.2 ⟨fun p hp => (h.typeParameters p hp).2, h.parameters, h.returnType,
    h.thrownTypes⟩

/-- A signature with well-formed types mentions well-formed classes only. -/
theorem wellFormed_of_mem_classes {s : MethodSignature} (h : ∀ t ∈ s.types, t.WellFormed) :
    ∀ c ∈ s.classes, c.WellFormed := by
  intro c hc
  obtain ⟨t, ht, hc⟩ := List.mem_flatMap.1 hc
  exact (h t ht).of_mem_classes hc

/-! ## Descriptors -/

/-- The signature mentions no type parameters, thrown types, type variables or type arguments,
neither at its top nor inside of its types. -/
structure Plain (s : MethodSignature) : Prop where
  noTypeParameters : s.typeParameters = []
  noThrownTypes : s.thrownTypes = []
  noVariables : s.variables = []
  noArguments : ∀ c ∈ s.classes, c.arguments = []

/-- A signature mentions no generics exactly if it declares none, throws nothing, and none of its
types mentions any. -/
theorem isGeneric_eq_false_iff_types {s : MethodSignature} :
    s.isGeneric = false ↔ s.typeParameters = [] ∧ s.thrownTypes = [] ∧
      ∀ t ∈ s.types, t.isGeneric = false := by
  rw [isGeneric_eq_false_iff, forall_mem_types]
  refine and_congr_right fun htypeParameters => and_congr_right fun hthrown => ?_
  simp [htypeParameters, hthrown]

/-- A signature mentions no generics exactly if it declares none, throws nothing, mentions no type
variable, and none of its classes has arguments. -/
theorem isGeneric_eq_false_iff_plain {s : MethodSignature} : s.isGeneric = false ↔ s.Plain := by
  constructor
  · intro h
    obtain ⟨htypeParameters, hthrown, htypes⟩ := isGeneric_eq_false_iff_types.1 h
    refine ⟨htypeParameters, hthrown, variables_of_not_isGeneric h, ?_⟩
    intro c hc
    obtain ⟨t, ht, hc⟩ := List.mem_flatMap.1 hc
    exact (FieldType.isGeneric_eq_false_iff.1 (htypes t ht)).2 c hc
  · intro h
    refine isGeneric_eq_false_iff_types.2 ⟨h.noTypeParameters, h.noThrownTypes, ?_⟩
    intro t ht
    have hvariables := h.noVariables
    rw [variables_eq, List.flatMap_eq_nil_iff] at hvariables
    exact FieldType.isGeneric_eq_false_iff.2 ⟨hvariables t ht, fun c hc =>
      h.noArguments c (List.mem_flatMap.2 ⟨t, ht, hc⟩)⟩

/-- A signature without generics is written without a dot exactly if none of its classes is selected
from another one. -/
theorem dot_not_mem_signatureChars_iff {s : MethodSignature} (h : s.WellFormed)
    (hplain : s.isGeneric = false) :
    '.' ∉ s.signatureChars ↔ ∀ c ∈ s.classes, c.outer? = none := by
  obtain ⟨htypeParameters, hthrown, htypes⟩ := isGeneric_eq_false_iff_types.1 hplain
  have hiff : ∀ t ∈ s.types, '.' ∉ t.signatureChars ↔ ∀ c ∈ t.classes, c.outer? = none :=
    fun t ht => FieldType.dot_not_mem_signatureChars_iff (h.types t ht) (htypes t ht)
  have hdot : '.' ∉ s.signatureChars ↔ ∀ t ∈ s.types, '.' ∉ t.signatureChars := by
    rw [signatureChars_of_not_isGeneric hplain, types, htypeParameters, hthrown]
    cases s.returnType with
    | none => simp [FieldType.listSignatureChars, FieldType.returnSignatureChars]
    | some t =>
        simp [FieldType.listSignatureChars, FieldType.returnSignatureChars, or_imp, forall_and]
  rw [hdot]
  constructor
  · intro hall c hc
    obtain ⟨t, ht, hc⟩ := List.mem_flatMap.1 hc
    exact (hiff t ht).1 (hall t ht) c hc
  · intro hall t ht
    exact (hiff t ht).2 fun c hc => hall c (List.mem_flatMap.2 ⟨t, ht, hc⟩)

/-- A text is a descriptor exactly if a plain signature of well-formed types is written as it. -/
theorem parseDescriptor_eq_ok_iff_plain {source : String} {s : MethodSignature} :
    (parseDescriptor source).outcome = .ok s ↔
      s.WellFormed ∧ s.Plain ∧ s.signature = source := by
  constructor
  · intro h
    obtain ⟨hparse, hgeneric⟩ := parseDescriptor_eq_ok_iff.1 h
    obtain ⟨hsource, declared, hreadable⟩ :=
      Signature.sound_whole (Signature.sound_methodSignature _) hparse
    have hplain := isGeneric_eq_false_iff_plain.1 hgeneric
    refine ⟨⟨?_, ?_, ?_, ?_⟩, hplain, hsource⟩
    · simp [hplain.noTypeParameters]
    · exact fun t ht => (hreadable.parameters t ht).1
    · exact fun t ht => (hreadable.returnType t ht).1
    · simp [hplain.noThrownTypes]
  · rintro ⟨hwellFormed, hplain, rfl⟩
    exact outcome_parseDescriptor_signature hwellFormed (isGeneric_eq_false_iff_plain.2 hplain)

/-- A descriptor mentions no generics, and is the written form of what it is read as.  It is also
the erased form exactly if it selects no inner class. -/
theorem plain_of_parseDescriptor {source : String} {s : MethodSignature}
    (h : (parseDescriptor source).outcome = .ok s) :
    s.signature = source ∧ s.Plain ∧
      (s.erasedSignature = source ↔ ∀ c ∈ s.classes, c.outer? = none) := by
  obtain ⟨hwellFormed, hplain, rfl⟩ := parseDescriptor_eq_ok_iff_plain.1 h
  have hgeneric := isGeneric_eq_false_iff_plain.2 hplain
  refine ⟨rfl, hplain, ?_⟩
  rw [erasedSignature_of_parseDescriptor_iff h, signature, String.toList_ofList,
    dot_not_mem_signatureChars_iff hwellFormed hgeneric]

/-- A method with an array of classes as its parameter. -/
def arraySignature : MethodSignature :=
  ⟨[], [.array (.ofName ⟨"a/N"⟩), .base .int], some (.ofName ⟨"a/B$C"⟩), []⟩

/-- The descriptor has an array among its parameters, and is plain. -/
theorem plain_of_parseDescriptor_array :
    (parseDescriptor "([La/N;I)La/B$C;").outcome = .ok arraySignature ∧
      arraySignature.signature = "([La/N;I)La/B$C;" ∧ arraySignature.Plain ∧
      arraySignature.erasedSignature = "([La/N;I)La/B$C;" := by
  have hread : (parseDescriptor "([La/N;I)La/B$C;").outcome = .ok arraySignature := by cbv
  obtain ⟨hsource, hplain, hiff⟩ := plain_of_parseDescriptor hread
  exact ⟨hread, hsource, hplain, hiff.2 (by decide)⟩

/-- A method with an inner class, selected from another one by name, as its parameter. -/
def innerSignature : MethodSignature :=
  ⟨[], [.object (.inner (.named ⟨"a/B"⟩ []) ⟨"a/B$C"⟩ [])], none, []⟩

/-- A descriptor that selects an inner class is accepted, and its erased form is another text. -/
theorem not_erasedSignature_eq_source :
    ¬ ∀ source s, (parseDescriptor source).outcome = .ok s →
      s.signature = source ∧ s.erasedSignature = source := by
  intro h
  have hread : (parseDescriptor "(La/B.C;)V").outcome = .ok innerSignature := by cbv
  have herased : innerSignature.erasedSignature ≠ "(La/B.C;)V" := by decide
  exact herased (h _ _ hread).2

end MethodSignature
end JvmMethods
