import JvmMethods.Proofs.Signature.Completeness

/-!
# Method signatures are recovered from their texts

A method signature is well formed if its names can be spelled, its type parameters have bounds, and
nothing but classes and variables is thrown.  Each part of such a signature tells where it ends, so
the signature is recovered from its written form in every scope.  Only the erasures of its variables
are those of the scope.

Main results:

- Definition {lit}`MethodSignature.WellFormed`: the method signatures that can be spelled.
- Definition {lit}`MethodSignature.resolvedIn`: the signature with the erasures that it is read with
  in a scope.
- Theorem {lit}`Signature.methodSignature_eq_ok`: a well-formed method signature is recovered
  from its text.
- Theorem {lit}`MethodSignature.exists_parse_signature`: writing and then reading gives the same
  method signature or type, up to erasures.
-/

namespace JvmMethods

/-! ## Well-formed method signatures -/

/-- The type parameters that a signature can spell. -/
structure TypeParameter.WellFormed (p : TypeParameter) : Prop where
  name : ':' ∉ p.name.text.toList
  bounded : p.bounds ≠ []
  /-- A class bound is a class, a variable or an array. -/
  classBound : ∀ t ∈ p.classBound, ∀ b, t ≠ .base b
  bounds : ∀ t ∈ p.bounds, t.WellFormed

/-- The types that can be thrown are classes and variables. -/
def FieldType.IsThrowable (t : FieldType) : Prop :=
  (∃ c, t = .object c) ∨ ∃ name erased, t = .typeVariable name erased

/-- The method signatures that can be spelled. -/
structure MethodSignature.WellFormed (s : MethodSignature) : Prop where
  typeParameters : ∀ p ∈ s.typeParameters, p.WellFormed
  parameters : ∀ t ∈ s.parameters, t.WellFormed
  returnType : ∀ t ∈ s.returnType, t.WellFormed
  thrownTypes : ∀ t ∈ s.thrownTypes, t.WellFormed ∧ t.IsThrowable

/-- The type parameters as they are read in a scope, before their erasures are settled. -/
def MethodSignature.declaredIn (scope : TypeScope) (s : MethodSignature) : List TypeParameter :=
  s.typeParameters.map (·.mapErasures scope.resolveUse)

/-- The scope that a method signature opens inside of another one. -/
def MethodSignature.scopeIn (scope : TypeScope) (s : MethodSignature) : TypeScope :=
  scope ++ TypeParameter.settledScope (s.declaredIn scope)

/-- The method signature with the erasures that it is read with in a scope. -/
def MethodSignature.resolvedIn (scope : TypeScope) (s : MethodSignature) : MethodSignature :=
  ⟨TypeParameter.settle (s.declaredIn scope),
    s.parameters.map (·.mapErasures (s.scopeIn scope).resolveUse),
    s.returnType.map (·.mapErasures (s.scopeIn scope).resolveUse),
    s.thrownTypes.map (·.mapErasures (s.scopeIn scope).resolveUse)⟩

/-! ## Erasures of a method signature -/

theorem TypeParameter.mapErasures_withErasures (f : UnqualifiedName → BinaryName → BinaryName)
    (scope : TypeScope) (p : TypeParameter) :
    (p.withErasures scope).mapErasures f =
      p.mapErasures fun n b => f n ((scope.erasure? n).getD b) := by
  simp only [TypeParameter.withErasures, TypeParameter.mapErasures, Option.map_map, List.map_map,
    Function.comp_def, FieldType.withErasures_eq_mapErasures, FieldType.mapErasures_mapErasures]

theorem TypeParameter.mapErasures_mapErasures (f g : UnqualifiedName → BinaryName → BinaryName)
    (p : TypeParameter) :
    (p.mapErasures g).mapErasures f = p.mapErasures fun n b => f n (g n b) := by
  simp only [TypeParameter.mapErasures, Option.map_map, List.map_map, Function.comp_def,
    FieldType.mapErasures_mapErasures]

/-- Replacing erasures by those of a scope maps them, and keeps those that the scope lacks. -/
theorem TypeParameter.withErasures_eq_mapErasures (scope : TypeScope) (p : TypeParameter) :
    p.withErasures scope = p.mapErasures fun n b => (scope.erasure? n).getD b := by
  simp only [TypeParameter.withErasures, TypeParameter.mapErasures,
    FieldType.withErasures_eq_mapErasures]

/-- A type without variables is not changed. -/
theorem FieldType.mapErasures_of_variables {t : FieldType} (h : t.variables = [])
    (f : UnqualifiedName → BinaryName → BinaryName) : t.mapErasures f = t := by
  refine FieldType.mapErasures_eq_self f t ?_
  rw [h]
  exact fun _ huse => nomatch huse

theorem FieldType.map_mapErasures_of_variables {ts : List FieldType}
    (h : ∀ t ∈ ts, t.variables = []) (f : UnqualifiedName → BinaryName → BinaryName) :
    ts.map (·.mapErasures f) = ts :=
  (List.map_congr_left fun t ht => mapErasures_of_variables (h t ht) f).trans (List.map_id ts)

theorem FieldType.optionMap_mapErasures_of_variables {type : Option FieldType}
    (h : ∀ t ∈ type, t.variables = []) (f : UnqualifiedName → BinaryName → BinaryName) :
    type.map (·.mapErasures f) = type := by
  cases type with
  | none => rfl
  | some t => rw [Option.map_some, mapErasures_of_variables (h t rfl) f]

/-- A declaration whose bounds mention no variables is not changed. -/
theorem TypeParameter.mapErasures_of_variables {p : TypeParameter}
    (h : ∀ t ∈ p.bounds, t.variables = []) (f : UnqualifiedName → BinaryName → BinaryName) :
    p.mapErasures f = p := by
  have hclass : ∀ t ∈ p.classBound, t.variables = [] :=
    fun t ht => h t (List.mem_append_left _ (Option.mem_toList.2 ht))
  have hinterfaces : ∀ t ∈ p.interfaceBounds, t.variables = [] :=
    fun t ht => h t (List.mem_append_right _ ht)
  rw [TypeParameter.mapErasures, FieldType.optionMap_mapErasures_of_variables hclass,
    FieldType.map_mapErasures_of_variables hinterfaces]

namespace MethodSignature

/-- Reading a signature in a scope does not change its form. -/
theorem sameForm_resolvedIn (scope : TypeScope) (s : MethodSignature) :
    (s.resolvedIn scope).SameForm s := by
  simp only [SameForm, forgetErasures, mapErasures, resolvedIn, declaredIn, TypeParameter.settle,
    List.map_map, Option.map_map, Function.comp_def, TypeParameter.mapErasures_withErasures,
    TypeParameter.mapErasures_mapErasures, FieldType.mapErasures_mapErasures]

/-- A signature that mentions no type variable is the same in every scope. -/
theorem resolvedIn_eq_self {s : MethodSignature} (h : s.variables = []) (scope : TypeScope) :
    s.resolvedIn scope = s := by
  simp only [MethodSignature.variables, List.append_eq_nil_iff, List.flatMap_eq_nil_iff,
    Option.mem_toList] at h
  obtain ⟨⟨⟨hbounds, hparameters⟩, hreturn⟩, hthrown⟩ := h
  have hdeclared : TypeParameter.settle (s.declaredIn scope) = s.typeParameters := by
    rw [TypeParameter.settle]
    generalize TypeParameter.settledScope (s.declaredIn scope) = inner
    rw [declaredIn, List.map_map]
    refine (List.map_congr_left ?_).trans (List.map_id _)
    intro p hp
    rw [Function.comp_apply, TypeParameter.withErasures_eq_mapErasures,
      TypeParameter.mapErasures_mapErasures]
    exact TypeParameter.mapErasures_of_variables (hbounds p hp) _
  rw [resolvedIn, hdeclared, FieldType.map_mapErasures_of_variables hparameters,
    FieldType.map_mapErasures_of_variables hthrown,
    FieldType.optionMap_mapErasures_of_variables hreturn]

end MethodSignature

namespace Signature

variable (scope : TypeScope)

/-! ## Types in front of other parts -/

/-- A type in front of more types. -/
theorem cons_fieldType {t : FieldType} (ht : t.WellFormed) (depth : Nat)
    {more : List Char → Logged SignatureFault (List FieldType × List Char)}
    {types : List FieldType} {cs rest : List Char} (hdepth : t.signatureChars.length ≤ depth)
    (hmore : (more cs).outcome = .ok (types, rest)) :
    (do
      let (type, cs) ← fieldType scope depth (t.signatureChars ++ cs)
      let (types, cs) ← more cs
      return (type :: types, cs)).outcome =
        .ok (t.mapErasures scope.resolveUse :: types, rest) := by
  rw [Logged.outcome_bind_of_ok (recovers_fieldType scope t ht depth cs hdepth),
    Logged.outcome_bind_of_ok hmore]
  rfl

/-- A type that may be absent, but is there. -/
theorem some_fieldType {t : FieldType} (ht : t.WellFormed) (depth : Nat) (rest : List Char)
    (hdepth : t.signatureChars.length ≤ depth) :
    (do
      let (type, cs) ← fieldType scope depth (t.signatureChars ++ rest)
      return (some type, cs)).outcome = .ok (some (t.mapErasures scope.resolveUse), rest) := by
  rw [Logged.outcome_bind_of_ok (recovers_fieldType scope t ht depth rest hdepth)]
  rfl

/-! ## Type parameters -/

/-- The class bound of a well-formed type parameter is recovered from its text. -/
theorem classBound_append {bound : Option FieldType} (h : ∀ t ∈ bound, t.WellFormed)
    (hbase : ∀ t ∈ bound, ∀ b, t ≠ .base b) (depth : Nat) (rest : List Char)
    (hdepth : (bound.toList.flatMap FieldType.signatureChars).length ≤ depth)
    (hrest : bound = none → rest.head? = some ':') :
    (classBound scope depth (bound.toList.flatMap FieldType.signatureChars ++ rest)).outcome =
      .ok (bound.map (·.mapErasures scope.resolveUse), rest) := by
  cases bound with
  | none =>
      cases rest with
      | nil => cases hrest rfl
      | cons c rest =>
          cases hrest rfl
          rfl
  | some t =>
      rw [Option.toList_some, List.flatMap_singleton] at hdepth ⊢
      have hsome := some_fieldType scope (h t rfl) depth rest hdepth
      cases t with
      | base b => exact absurd rfl (hbase _ rfl b)
      | object c => exact hsome
      | array element => exact hsome
      | typeVariable name erased => exact hsome

theorem interfaceBounds_of_ne {depth : Nat} {cs : List Char} (h : cs.head? ≠ some ':') :
    interfaceBounds scope depth cs = return ([], cs) := by
  cases depth with
  | zero => rfl
  | succ depth =>
      unfold interfaceBounds
      split
      · exact absurd rfl h
      · rfl

/-- Interface bounds are recovered from their texts, up to where no colon follows. -/
theorem interfaceBounds_append {bounds : List FieldType} (h : ∀ t ∈ bounds, t.WellFormed)
    (depth : Nat) {rest : List Char}
    (hdepth : (bounds.flatMap fun t => ':' :: t.signatureChars).length ≤ depth)
    (hrest : rest.head? ≠ some ':') :
    (interfaceBounds scope depth
      ((bounds.flatMap fun t => ':' :: t.signatureChars) ++ rest)).outcome =
        .ok (bounds.map (·.mapErasures scope.resolveUse), rest) := by
  induction bounds generalizing depth with
  | nil =>
      rw [List.flatMap_nil, List.nil_append, interfaceBounds_of_ne scope hrest]
      rfl
  | cons t ts ih =>
      rw [List.flatMap_cons, List.length_append, List.length_cons] at hdepth
      obtain ⟨depth, rfl⟩ := Nat.exists_eq_succ_of_ne_zero (n := depth) (by omega)
      have hrest' := ih (fun u hu => h u (List.mem_cons_of_mem t hu)) depth (by omega)
      rw [List.flatMap_cons, List.cons_append, List.cons_append, List.append_assoc,
        interfaceBounds]
      exact cons_fieldType scope (h t List.mem_cons_self) depth (by omega) hrest'

/-- The text after a type parameter does not go on with a bound. -/
theorem head?_typeParameters_ne {ps : List TypeParameter} (h : ∀ p ∈ ps, p.WellFormed)
    (rest : List Char) :
    (ps.flatMap TypeParameter.signatureChars ++ '>' :: rest).head? ≠ some ':' := by
  cases ps with
  | nil => simp
  | cons p ps =>
      obtain ⟨c, cs, htext, -⟩ := p.name.toList_eq_cons
      have hcolon := (h p List.mem_cons_self).name
      rw [htext] at hcolon
      simp only [List.flatMap_cons, TypeParameter.signatureChars, htext, List.cons_append,
        List.head?_cons, ne_eq, Option.some_inj]
      rintro rfl
      exact hcolon List.mem_cons_self

/-- Where the list does not end, another type parameter is read. -/
theorem parameterList_of_ne {depth : Nat} {cs : List Char} (h : cs.head? ≠ some '>') :
    parameterList scope (depth + 1) cs = do
      let (name, cs) ← Logged.ofExcept (unqualifiedName ':' cs)
      let (bound, cs) ← classBound scope depth cs
      let (bounds, cs) ← interfaceBounds scope depth cs
      let (parameters, cs) ← parameterList scope depth cs
      return (⟨name, bound, bounds⟩ :: parameters, cs) := by
  rw [parameterList]
  rintro rest rfl
  exact h rfl

/-- Well-formed type parameters are recovered from their texts up to the bracket that closes
them. -/
theorem recovers_parameterList (ps : List TypeParameter) (h : ∀ p ∈ ps, p.WellFormed) :
    Recovers (parameterList scope) (ps.flatMap TypeParameter.signatureChars ++ ['>'])
      (ps.map (·.mapErasures scope.resolveUse)) := by
  induction ps with
  | nil =>
      intro depth rest hdepth
      obtain ⟨depth, rfl⟩ := Nat.exists_eq_succ_of_ne_zero (Nat.ne_zero_of_lt hdepth)
      rfl
  | cons p ps ih =>
      intro depth rest hdepth
      have hp := h p List.mem_cons_self
      have hps : ∀ q ∈ ps, q.WellFormed := fun q hq => h q (List.mem_cons_of_mem p hq)
      simp only [List.flatMap_cons, TypeParameter.signatureChars, List.length_append,
        List.length_cons, List.length_nil] at hdepth
      obtain ⟨depth, rfl⟩ := Nat.exists_eq_succ_of_ne_zero (n := depth) (by omega)
      have hlist := ih hps depth rest (by
        simp only [List.length_append, List.length_cons, List.length_nil]
        omega)
      have hinterfaces := interfaceBounds_append scope
        (fun t ht => hp.bounds t (List.mem_append_right _ ht)) depth (by omega)
        (head?_typeParameters_ne hps rest)
      have hclass := classBound_append scope
        (fun t ht => hp.bounds t (List.mem_append_left _ (Option.mem_toList.2 ht))) hp.classBound
        depth ((p.interfaceBounds.flatMap fun t => ':' :: t.signatureChars) ++
          (ps.flatMap TypeParameter.signatureChars ++ '>' :: rest)) (by omega) (by
        -- Without a class bound there is an interface bound, and a colon opens it.
        intro hnone
        have hbounds := hp.bounded
        rw [TypeParameter.bounds, hnone, Option.toList_none, List.nil_append] at hbounds
        obtain ⟨t, ts, hts⟩ := List.exists_cons_of_ne_nil hbounds
        rw [hts]
        rfl)
      have hname := unqualifiedName_append hp.name
        (p.classBound.toList.flatMap FieldType.signatureChars ++
          ((p.interfaceBounds.flatMap fun t => ':' :: t.signatureChars) ++
            (ps.flatMap TypeParameter.signatureChars ++ '>' :: rest)))
      have htext : (p :: ps).flatMap TypeParameter.signatureChars ++ ['>'] ++ rest =
          p.name.text.toList ++ ':' :: (p.classBound.toList.flatMap FieldType.signatureChars ++
            ((p.interfaceBounds.flatMap fun t => ':' :: t.signatureChars) ++
              (ps.flatMap TypeParameter.signatureChars ++ '>' :: rest))) := by
        simp only [List.flatMap_cons, TypeParameter.signatureChars, List.append_assoc,
          List.cons_append, List.nil_append]
      have hopen : ((p :: ps).flatMap TypeParameter.signatureChars ++ ['>'] ++ rest).head? ≠
          some '>' := by
        obtain ⟨c, cs, hchars, hclose⟩ := p.name.toList_eq_cons
        rw [htext, hchars, List.cons_append, List.head?_cons, ne_eq, Option.some_inj]
        exact hclose
      rw [List.append_assoc, List.singleton_append] at hlist
      rw [parameterList_of_ne scope hopen, htext, hname,
        Logged.outcome_bind_of_ok (Logged.outcome_ofExcept _),
        Logged.outcome_bind_of_ok hclass, Logged.outcome_bind_of_ok hinterfaces,
        Logged.outcome_bind_of_ok hlist]
      rfl

/-! ## The parts of a method signature -/

/-- The parameters of a well-formed signature are recovered from their text. -/
theorem recovers_parameterTypes (ts : List FieldType) (h : ∀ t ∈ ts, t.WellFormed) :
    Recovers (parameterTypes scope) (FieldType.listSignatureChars ts ++ [')'])
      (ts.map (·.mapErasures scope.resolveUse)) := by
  induction ts with
  | nil =>
      intro depth rest hdepth
      obtain ⟨depth, rfl⟩ := Nat.exists_eq_succ_of_ne_zero (Nat.ne_zero_of_lt hdepth)
      rfl
  | cons t ts ih =>
      intro depth rest hdepth
      have hpos := length_signatureChars_pos t
      have htext : FieldType.listSignatureChars (t :: ts) ++ [')'] =
          t.signatureChars ++ (FieldType.listSignatureChars ts ++ [')']) := by
        simp only [FieldType.listSignatureChars, List.flatMap_cons, List.append_assoc]
      rw [htext, List.length_append] at hdepth
      rw [htext, List.append_assoc]
      obtain ⟨depth, rfl⟩ := Nat.exists_eq_succ_of_ne_zero (n := depth) (by omega)
      have htypes := ih (fun u hu => h u (List.mem_cons_of_mem t hu)) depth rest (by omega)
      have hcons := cons_fieldType scope (h t List.mem_cons_self) depth (by
        rw [List.length_append, List.length_singleton] at hdepth
        omega) htypes
      obtain ⟨c, text, hopen, hstarts⟩ := exists_signatureChars_eq t
      rw [hopen, List.cons_append] at hcons ⊢
      rw [parameterTypes]
      · exact hcons
      · exact fun _ heq => ne_of_startsType hstarts rfl (List.cons.inj heq).1

/-- The result of a well-formed signature is recovered from its text. -/
theorem recovers_returnType (type : Option FieldType) (h : ∀ t ∈ type, t.WellFormed) :
    Recovers (returnType scope) (FieldType.returnSignatureChars type)
      (type.map (·.mapErasures scope.resolveUse)) := by
  intro depth rest hdepth
  cases type with
  | none => rfl
  | some t =>
      have hsome := some_fieldType scope (h t rfl) depth rest hdepth
      obtain ⟨c, text, hopen, hstarts⟩ := exists_signatureChars_eq t
      rw [FieldType.returnSignatureChars]
      rw [hopen, List.cons_append] at hsome ⊢
      rw [returnType]
      · exact hsome
      · exact fun _ heq => ne_of_startsType hstarts rfl (List.cons.inj heq).1

/-- A type that can be thrown opens as a class or as a type variable. -/
theorem head?_of_isThrowable {t : FieldType} (h : t.IsThrowable) (cs : List Char) :
    (t.signatureChars ++ cs).head? = some 'L' ∨ (t.signatureChars ++ cs).head? = some 'T' := by
  rcases h with ⟨c, rfl⟩ | ⟨name, erased, rfl⟩
  · exact .inl rfl
  · exact .inr rfl

/-- Thrown types are recovered from their texts where nothing follows them. -/
theorem thrownTypes_eq_ok (ts : List FieldType) (h : ∀ t ∈ ts, t.WellFormed ∧ t.IsThrowable)
    (depth : Nat) (hdepth : (ts.flatMap fun t => '^' :: t.signatureChars).length ≤ depth) :
    (thrownTypes scope depth (ts.flatMap fun t => '^' :: t.signatureChars)).outcome =
      .ok (ts.map (·.mapErasures scope.resolveUse), []) := by
  induction ts generalizing depth with
  | nil => cases depth <;> rfl
  | cons t ts ih =>
      rw [List.flatMap_cons, List.length_append, List.length_cons] at hdepth
      obtain ⟨depth, rfl⟩ := Nat.exists_eq_succ_of_ne_zero (n := depth) (by omega)
      have htypes := ih (fun u hu => h u (List.mem_cons_of_mem t hu)) depth (by omega)
      obtain ⟨ht, hthrowable⟩ := h t List.mem_cons_self
      rw [List.flatMap_cons, List.cons_append, thrownTypes,
        if_pos (head?_of_isThrowable hthrowable _)]
      exact cons_fieldType scope ht depth (by omega) htypes

/-- No type parameters are declared where no bracket opens. -/
theorem typeParameters_of_ne {depth : Nat} {cs : List Char} (h : cs.head? ≠ some '<') :
    typeParameters scope depth cs = return (([], scope), cs) := by
  unfold typeParameters
  split
  · exact absurd rfl h
  · rfl

/-- Well-formed type parameters are recovered from their text in brackets, and open their scope. -/
theorem typeParameters_append {ps : List TypeParameter} (h : ∀ p ∈ ps, p.WellFormed)
    (depth : Nat) (rest : List Char)
    (hdepth : (MethodSignature.typeParametersChars ps).length ≤ depth)
    (hrest : rest.head? ≠ some '<') :
    (typeParameters scope depth (MethodSignature.typeParametersChars ps ++ rest)).outcome =
      .ok ((TypeParameter.settle (ps.map (·.mapErasures scope.resolveUse)),
        scope ++ TypeParameter.settledScope (ps.map (·.mapErasures scope.resolveUse))), rest) := by
  cases ps with
  | nil =>
      rw [MethodSignature.typeParametersChars, List.nil_append, typeParameters_of_ne scope hrest]
      exact congrArg (fun inner => Except.ok (([], inner), rest)) (List.append_nil scope).symm
  | cons p ps =>
      rw [MethodSignature.typeParametersChars_eq (List.cons_ne_nil p ps)] at hdepth ⊢
      have hlist := recovers_parameterList scope (p :: ps) h depth rest
        (Nat.le_of_succ_le hdepth)
      rw [List.cons_append, typeParameters, Logged.outcome_bind_of_ok hlist]
      rfl

/-- A well-formed method signature is recovered from its text, with the erasures of the scope. -/
theorem methodSignature_eq_ok {s : MethodSignature} (h : s.WellFormed) {depth : Nat}
    (hdepth : s.signatureChars.length ≤ depth) :
    (methodSignature scope depth s.signatureChars).outcome = .ok (s.resolvedIn scope, []) := by
  simp only [MethodSignature.signatureChars, List.length_append, List.length_cons] at hdepth
  have hparameters := typeParameters_append scope h.typeParameters depth
    ('(' :: (FieldType.listSignatureChars s.parameters ++
      ')' :: (FieldType.returnSignatureChars s.returnType ++
        s.thrownTypes.flatMap fun t => '^' :: t.signatureChars))) (by omega) (by simp)
  have htypes := recovers_parameterTypes (s.scopeIn scope) s.parameters h.parameters depth
    (FieldType.returnSignatureChars s.returnType ++
      s.thrownTypes.flatMap fun t => '^' :: t.signatureChars) (by
    rw [List.length_append, List.length_singleton]
    omega)
  have hreturn := recovers_returnType (s.scopeIn scope) s.returnType h.returnType depth
    (s.thrownTypes.flatMap fun t => '^' :: t.signatureChars) (by omega)
  have hthrown := thrownTypes_eq_ok (s.scopeIn scope) s.thrownTypes h.thrownTypes depth
    (by omega)
  rw [List.append_assoc, List.singleton_append] at htypes
  rw [MethodSignature.signatureChars, methodSignature, Logged.outcome_bind_of_ok hparameters]
  simp only [expect_cons]
  rw [Logged.outcome_bind_of_ok (Logged.outcome_ofExcept _)]
  change (parameterTypes (s.scopeIn scope) depth _ >>= _).outcome = _
  rw [Logged.outcome_bind_of_ok htypes]
  change (returnType (s.scopeIn scope) depth _ >>= _).outcome = _
  rw [Logged.outcome_bind_of_ok hreturn]
  change (thrownTypes (s.scopeIn scope) depth _ >>= _).outcome = _
  rw [Logged.outcome_bind_of_ok hthrown]
  rfl

end Signature

namespace MethodSignature

/-- Writing a well-formed method signature or type and reading it back, in whatever scope, gives the
same one up to erasures, and exactly the same one if it mentions no type variable. -/
theorem exists_parse_signature (scope : List TypeParameter) :
    (∀ s : MethodSignature, s.WellFormed →
      ∃ s', (MethodSignature.parse s.signature scope).outcome = .ok s' ∧ s'.SameForm s ∧
        (s.variables = [] → s' = s)) ∧
    ∀ t : FieldType, t.WellFormed →
      ∃ t', (FieldType.parse t.signature scope).outcome = .ok t' ∧ t'.SameForm t ∧
        (t.variables = [] → t' = t) := by
  constructor
  · intro s h
    refine ⟨s.resolvedIn (TypeScope.ofParameters scope), ?_, s.sameForm_resolvedIn _,
      fun hnone => resolvedIn_eq_self hnone _⟩
    rw [MethodSignature.parse, Signature.whole_eq_ok_iff, MethodSignature.signature,
      String.toList_ofList]
    exact Signature.methodSignature_eq_ok _ h (Nat.le_add_right _ 2)
  · intro t h
    refine ⟨t.mapErasures (TypeScope.ofParameters scope).resolveUse, ?_, t.sameForm_mapErasures _,
      fun hnone => FieldType.mapErasures_of_variables hnone _⟩
    rw [FieldType.parse, Signature.whole_eq_ok_iff, FieldType.signature, String.toList_ofList]
    have hread := Signature.recovers_fieldType (TypeScope.ofParameters scope) t h
      (t.signatureChars.length + 2) [] (Nat.le_add_right _ 2)
    rw [List.append_nil] at hread
    exact hread

theorem isInnerName_example : Signature.IsInnerName "C" :=
  ⟨by decide, by simp [Signature.endsClassName]⟩

theorem exampleType_wellFormed : exampleType.WellFormed := by
  have houter : BinaryName.check "a/B" = .ok () := by decide
  exact ⟨⟨houter, trivial, trivial⟩, ⟨"C", isInnerName_example, rfl⟩, trivial, trivial⟩

theorem exampleSignature_wellFormed : exampleSignature.WellFormed := by
  have hbound : BinaryName.check "a/L" = .ok () := by decide
  constructor
  · intro p hp
    rw [List.mem_singleton.1 hp]
    have hclass : ∀ t ∈ (none : Option FieldType), ∀ b, t ≠ .base b := fun _ ht => nomatch ht
    refine ⟨by decide, List.cons_ne_nil _ _, hclass, ?_⟩
    intro t ht
    rw [List.mem_singleton.1 ht]
    exact ⟨hbound, trivial, trivial⟩
  · intro t ht
    simp only [exampleSignature, List.mem_cons, List.not_mem_nil, or_false] at ht
    rcases ht with rfl | rfl | rfl
    · exact trivial
    · exact trivial
    · exact exampleType_wellFormed
  · intro t ht
    cases ht
  · intro t ht
    rw [List.mem_singleton.1 ht]
    exact ⟨trivial, .inr ⟨_, _, rfl⟩⟩

/-- An array of a class that is selected from a generic one, without variables. -/
def plainType : FieldType :=
  .array (.object (.inner (.named ⟨"a/B"⟩ [.wildcard]) ⟨"a/B$C"⟩ []))

/-- The signature declares a variable that bounds itself, and the type selects an inner class from a
generic one. -/
theorem exists_parse_signature_nested :
    exampleSignature.WellFormed ∧
      (∃ s', (MethodSignature.parse exampleSignature.signature []).outcome = .ok s' ∧
        s'.SameForm exampleSignature) ∧
      plainType.WellFormed ∧
      (FieldType.parse plainType.signature exampleScope).outcome = .ok plainType := by
  have houter : BinaryName.check "a/B" = .ok () := by decide
  have hplain : plainType.WellFormed :=
    ⟨⟨houter, trivial, trivial⟩, ⟨"C", isInnerName_example, rfl⟩, trivial⟩
  obtain ⟨s', hparse, hsame, -⟩ :=
    (exists_parse_signature []).1 exampleSignature exampleSignature_wellFormed
  obtain ⟨t', htype, -, hexact⟩ := (exists_parse_signature exampleScope).2 plainType hplain
  rw [hexact rfl] at htype
  exact ⟨exampleSignature_wellFormed, ⟨s', hparse, hsame⟩, hplain, htype⟩

end MethodSignature
end JvmMethods
