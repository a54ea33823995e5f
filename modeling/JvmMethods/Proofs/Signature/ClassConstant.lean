import JvmMethods.Proofs.Signature.Classes

/-!
# Class constants

A class constant is named by a text.  It is the binary name of a class, or the descriptor of an
array type.  Names are checked, but the text of an array is read as a type of a signature, where
nothing is in scope.  So it may mention type variables, type arguments and inner classes, and what
is read of such a text is not recovered from its erased form.  Descriptors are the texts for which
none of this happens.

Main results:

- Theorem {lit}`FieldType.parse_eq_ok_iff`: which types a text is read as.
- Definition {lit}`FieldType.Plain`: types without variables, arguments and selected inner classes.
- Definition {lit}`FieldType.IsDescriptor`: the texts of field descriptors.
- Theorem {lit}`FieldType.isDescriptor_signatureChars_iff`: a type is plain exactly if it is written
  as a descriptor.
- Theorem {lit}`FieldType.parseClassConstant_eq_ok_iff`: which types class constants name.
- Theorem {lit}`FieldType.plain_of_parseClassConstant`: when the type that a constant names is
  plain, and its text is recovered from the type.
-/

namespace JvmMethods

/-- A class that is written as a name with no end inside is that name alone. -/
theorem ClassType.exists_eq_named {c : ClassType} {name : BinaryName} (hname : name.Unbroken)
    (h : c.bodyChars = name.text.toList) : ∃ n, c = .named n [] := by
  have hopen : '<' ∉ c.bodyChars := h ▸ hname.not_mem rfl
  have hdot : '.' ∉ c.bodyChars := h ▸ hname.not_mem rfl
  cases c with
  | named n arguments =>
      cases arguments with
      | nil => exact ⟨n, rfl⟩
      | cons a as => simp [bodyChars, TypeArgument.bracketedChars] at hopen
  | inner outer n arguments => simp [bodyChars] at hdot

namespace FieldType

/-! ## Texts of types -/

theorem signatureChars_ofName (name : BinaryName) :
    (ofName name).signatureChars = name.descriptorChars :=
  signatureChars_erasure (ofName name)

/-- A well-formed type is read back with the erasures of the scope. -/
theorem outcome_parse_signature {t : FieldType} (h : t.WellFormed) (scope : List TypeParameter) :
    (FieldType.parse t.signature scope).outcome =
      .ok (t.mapErasures (TypeScope.ofParameters scope).resolveUse) := by
  rw [FieldType.parse, Signature.whole_eq_ok_iff, FieldType.signature, String.toList_ofList]
  have hread := Signature.recovers_fieldType (TypeScope.ofParameters scope) t h
    (t.signatureChars.length + 2) [] (Nat.le_add_right _ 2)
  rw [List.append_nil] at hread
  exact hread

/-- A text is read as a type exactly if the type can be read in the scope and is written as the
text. -/
theorem parse_eq_ok_iff {source : String} {scope : List TypeParameter} {t : FieldType} :
    (FieldType.parse source scope).outcome = .ok t ↔
      t.ReadableIn (TypeScope.ofParameters scope) ∧ t.signature = source := by
  constructor
  · intro h
    exact (Signature.sound_whole (Signature.sound_fieldType _) h).symm
  · rintro ⟨⟨hwellFormed, hresolved⟩, rfl⟩
    have hself : t.mapErasures (TypeScope.ofParameters scope).resolveUse = t :=
      FieldType.mapErasures_eq_self _ t fun use huse => (hresolved use huse).symm
    rw [outcome_parse_signature hwellFormed scope, hself]

/-! ## Plain types -/

/-- The type mentions no type variables and no type arguments, and selects no inner classes,
neither at its top nor inside of it. -/
structure Plain (t : FieldType) : Prop where
  noVariables : t.variables = []
  noArguments : ∀ c ∈ t.classes, c.arguments = []
  noSelection : ∀ c ∈ t.classes, c.outer? = none

theorem plain_base (b : BaseType) : (base b).Plain :=
  ⟨rfl, fun _ hc => (nomatch hc), fun _ hc => (nomatch hc)⟩

/-- An array is plain exactly if its element type is. -/
theorem plain_array_iff {element : FieldType} : (array element).Plain ↔ element.Plain :=
  ⟨fun h => ⟨h.noVariables, h.noArguments, h.noSelection⟩,
    fun h => ⟨h.noVariables, h.noArguments, h.noSelection⟩⟩

/-- A class is plain exactly if it is a name alone. -/
theorem plain_object_iff {c : ClassType} : (object c).Plain ↔ ∃ name, c = .named name [] := by
  constructor
  · intro h
    have harguments : c.arguments = [] := h.noArguments c c.mem_classes_self
    have houter : c.outer? = none := h.noSelection c c.mem_classes_self
    cases c with
    | named name arguments => exact ⟨name, congrArg (ClassType.named name) harguments⟩
    | inner outer name arguments => cases houter
  · rintro ⟨name, rfl⟩
    have hclasses : ∀ d ∈ (ofName name).classes, d = .named name [] :=
      fun d hd => List.mem_singleton.1 hd
    refine ⟨rfl, fun d hd => ?_, fun d hd => ?_⟩
    · rw [hclasses d hd]
      rfl
    · rw [hclasses d hd]
      rfl

theorem not_plain_typeVariable (name : UnqualifiedName) (erased : BinaryName) :
    ¬ (typeVariable name erased).Plain :=
  fun h => List.cons_ne_nil _ _ h.noVariables

/-! ## Descriptors -/

/-- The texts of field descriptors: a base type, the name of a class, or either of them behind its
dimensions. -/
inductive IsDescriptor : List Char → Prop where
  | base (b : BaseType) : IsDescriptor [b.letter]
  | object {name : BinaryName} (h : BinaryName.check name.text = .ok ()) :
      IsDescriptor name.descriptorChars
  | array {cs : List Char} (h : IsDescriptor cs) : IsDescriptor ('[' :: cs)

/-- The first character of a descriptor says of which kind it is. -/
theorem IsDescriptor.cases_cons {c : Char} {cs : List Char} (h : IsDescriptor (c :: cs)) :
    (∃ b : BaseType, c = b.letter ∧ cs = []) ∨
      (c = 'L' ∧ ∃ name : BinaryName, name.Unbroken ∧ cs = name.text.toList ++ [';']) ∨
        (c = '[' ∧ IsDescriptor cs) := by
  generalize hchars : c :: cs = chars at h
  cases h with
  | base b =>
      cases hchars
      exact .inl ⟨b, rfl, rfl⟩
  | object hname =>
      cases hchars
      exact .inr (.inl ⟨rfl, _, BinaryName.unbroken_of_check hname, rfl⟩)
  | array h =>
      cases hchars
      exact .inr (.inr ⟨rfl, h⟩)

/-- A type is written as a descriptor exactly if it is plain. -/
theorem isDescriptor_signatureChars_iff : ∀ {t : FieldType}, t.WellFormed →
    (IsDescriptor t.signatureChars ↔ t.Plain)
  | .base b, _ => iff_of_true (.base b) (plain_base b)
  | .object c, h => by
      rw [plain_object_iff]
      constructor
      · intro hdescriptor
        obtain ⟨b, hletter, -⟩ | ⟨-, name, hname, hbody⟩ | ⟨hopen, -⟩ := hdescriptor.cases_cons
        · cases b <;> cases hletter
        · exact ClassType.exists_eq_named hname (List.append_cancel_right hbody)
        · cases hopen
      · rintro ⟨name, rfl⟩
        rw [← ofName, signatureChars_ofName]
        exact .object h.1
  | .array element, h => by
      rw [plain_array_iff, ← isDescriptor_signatureChars_iff (t := element) h]
      constructor
      · intro hdescriptor
        obtain ⟨b, hletter, -⟩ | ⟨hopen, -⟩ | ⟨-, helement⟩ := hdescriptor.cases_cons
        · cases b <;> cases hletter
        · cases hopen
        · exact helement
      · exact .array
  | .typeVariable name erased, _ => by
      refine iff_of_false (fun hdescriptor => ?_) (not_plain_typeVariable name erased)
      obtain ⟨b, hletter, -⟩ | ⟨hopen, -⟩ | ⟨hopen, -⟩ := hdescriptor.cases_cons
      · cases b <;> cases hletter
      · cases hopen
      · cases hopen

/-- A type is its own erased form exactly if it is plain. -/
theorem erasedChars_eq_signatureChars_iff_plain : ∀ {t : FieldType}, t.WellFormed →
    (t.erasedChars = t.signatureChars ↔ t.Plain)
  | .base b, _ => iff_of_true rfl (plain_base b)
  | .object c, h => by
      rw [plain_object_iff]
      constructor
      · intro hsame
        have hbody : c.name.text.toList ++ [';'] = c.bodyChars ++ [';'] :=
          List.tail_eq_of_cons_eq hsame
        exact ClassType.exists_eq_named (ClassType.WellFormed.unbroken_name h)
          (List.append_cancel_right hbody).symm
      · rintro ⟨name, rfl⟩
        exact (signatureChars_ofName name).symm
  | .array element, h => by
      rw [plain_array_iff, ← erasedChars_eq_signatureChars_iff_plain (t := element) h]
      exact List.cons_inj_right '['
  | .typeVariable name erased, _ => by
      refine iff_of_false (fun hsame => ?_) (not_plain_typeVariable name erased)
      have hfirst : 'L' = 'T' := List.head_eq_of_cons_eq hsame
      exact absurd hfirst (by decide)

/-! ## Texts of class constants -/

/-- A type is an array exactly if its text opens as one. -/
theorem exists_eq_array_iff {t : FieldType} :
    (∃ element, t = .array element) ↔ ∃ cs, t.signatureChars = '[' :: cs := by
  cases t with
  | base b => cases b <;> simp [signatureChars, BaseType.letter]
  | object c => simp [signatureChars]
  | array element => simp [signatureChars]
  | typeVariable name erased => simp [signatureChars]

/-- A class constant names an array type where nothing is in scope, or a class by its binary
name. -/
theorem parseClassConstant_eq_ok_iff {source : String} {t : FieldType} :
    (parseClassConstant source).outcome = .ok t ↔
      ((∃ element, t = .array element) ∧ t.ReadableIn (TypeScope.ofParameters []) ∧
          t.signature = source) ∨
        BinaryName.check source = .ok () ∧ t = .ofName ⟨source⟩ := by
  -- Whether the text opens a bracket decides how it is read, and what it can be read as.
  have harray : t.signature = source →
      ((∃ element, t = .array element) ↔ ∃ cs, source.toList = '[' :: cs) := by
    rintro rfl
    rw [exists_eq_array_iff, signature, String.toList_ofList]
  unfold parseClassConstant
  split
  case h_1 cs hopen =>
    rw [parse_eq_ok_iff]
    constructor
    · rintro ⟨hreadable, hsource⟩
      exact .inl ⟨(harray hsource).2 ⟨cs, hopen⟩, hreadable, hsource⟩
    · rintro (⟨-, hreadable, hsource⟩ | ⟨hcheck, -⟩)
      · exact ⟨hreadable, hsource⟩
      · have hmem : '[' ∈ source.toList := by rw [hopen]; exact List.mem_cons_self
        exact absurd hmem (BinaryName.not_mem_of_check hcheck rfl (by decide))
  case h_2 hclosed =>
    rw [Logged.outcome_ofExcept, mapError_eq_ok_iff, map_eq_ok_iff]
    simp only [BinaryName.ofString_eq_ok_iff]
    constructor
    · rintro ⟨name, ⟨hcheck, rfl⟩, rfl⟩
      exact .inr ⟨hcheck, rfl⟩
    · rintro (⟨hisArray, -, hsource⟩ | ⟨hcheck, rfl⟩)
      · obtain ⟨cs, hopen⟩ := (harray hsource).1 hisArray
        exact absurd hopen (hclosed cs)
      · exact ⟨⟨source⟩, ⟨hcheck, rfl⟩, rfl⟩

/-- A class that a constant names is plain, and its name is the text.  Of an array type the text is
the written form.  The type is plain, and the text is recovered from its erased form, exactly if the
text is a descriptor. -/
theorem plain_of_parseClassConstant {source : String} {t : FieldType}
    (h : (parseClassConstant source).outcome = .ok t) :
    ((∀ element, t ≠ .array element) → t.Plain ∧ t.erasedClassName = some ⟨source⟩) ∧
      ∀ element, t = .array element → t.signature = source ∧
        (t.Plain ↔ IsDescriptor source.toList) ∧
          (t.erasedSignature = source ↔ IsDescriptor source.toList) := by
  obtain ⟨⟨element, rfl⟩, hreadable, rfl⟩ | ⟨hcheck, rfl⟩ := parseClassConstant_eq_ok_iff.1 h
  · refine ⟨fun hnot => absurd rfl (hnot element), fun _ _ => ⟨rfl, ?_, ?_⟩⟩
    · rw [signature, String.toList_ofList, isDescriptor_signatureChars_iff hreadable.1]
    · rw [signature, String.toList_ofList, erasedSignature, String.ofList_inj,
        isDescriptor_signatureChars_iff hreadable.1,
        erasedChars_eq_signatureChars_iff_plain hreadable.1]
  · refine ⟨fun _ => ⟨plain_object_iff.2 ⟨⟨source⟩, rfl⟩, rfl⟩, ?_⟩
    rintro element ⟨⟩

/-- An array of arrays of a class. -/
def nestedArray : FieldType :=
  .array (.array (.ofName ⟨"a/N"⟩))

/-- The constant is an array of arrays of a class, and plain. -/
theorem plain_of_parseClassConstant_array :
    (parseClassConstant "[[La/N;").outcome = .ok nestedArray ∧ nestedArray.Plain ∧
      nestedArray.erasedSignature = "[[La/N;" := by
  have hread : (parseClassConstant "[[La/N;").outcome = .ok nestedArray := by cbv
  have hdescriptor : IsDescriptor "[[La/N;".toList := by
    have hname : BinaryName.check "a/N" = .ok () := by decide
    exact .array (.array (.object hname))
  obtain ⟨-, harray⟩ := plain_of_parseClassConstant hread
  obtain ⟨-, hplain, herased⟩ := harray _ rfl
  exact ⟨hread, hplain.2 hdescriptor, herased.2 hdescriptor⟩

/-- The type that {lit}`[TK;` is read as. -/
def variableArray : FieldType :=
  .array (.typeVariable ⟨"K", rfl⟩ .object)

/-- An array of a type variable that no scope declares is accepted. -/
theorem not_plain_of_parseClassConstant :
    ¬ ∀ source t, (parseClassConstant source).outcome = .ok t →
      t.Plain ∧ ((∀ element, t = .array element → t.erasedSignature = source) ∧
        ((∀ element, t ≠ .array element) → t.erasedClassName = some ⟨source⟩)) := by
  intro h
  have hread : (parseClassConstant "[TK;").outcome = .ok variableArray := by cbv
  obtain ⟨hplain, -⟩ := h _ _ hread
  exact not_plain_typeVariable _ _ (plain_array_iff.1 hplain)

end FieldType
end JvmMethods
