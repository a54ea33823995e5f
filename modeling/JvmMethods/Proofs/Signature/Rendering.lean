import Mathlib
import JvmMethods.Proofs.Signature.Soundness

/-!
# What is read can be written back

A method signature is read part by part: type parameters, whose erasures are settled afterwards,
parameter types, a return type and thrown types.  Each part is written as the text it was read from,
so the whole signature is.

Main results:

- Theorem {lit}`MethodSignature.ReadableIn.typeParameters`: settled type parameters are readable in
  the scope that they open themselves.
- Theorem {lit}`Signature.sound_methodSignature`: what is known of every method signature that is
  read.
- Theorem {lit}`Signature.whole_eq_ok_iff`: a text is read as a whole exactly if nothing of it is
  left.
- Theorem {lit}`MethodSignature.signature_of_parse`: method signatures and types are written as the
  texts they were read from.
-/

namespace JvmMethods

/-! ## Readable signatures -/

/-- The type parameters that can be read in a scope. -/
def TypeParameter.ReadableIn (scope : TypeScope) (p : TypeParameter) : Prop :=
  ':' ∉ p.name.text.toList ∧ ∀ bound ∈ p.bounds, bound.ReadableIn scope

/-- A method signature can be read in a scope, with the given declarations before their erasures are
settled.  Its own type parameters hide those of the scope. -/
structure MethodSignature.ReadableIn (scope : TypeScope) (declared : List TypeParameter)
    (s : MethodSignature) : Prop where
  settled : s.typeParameters = TypeParameter.settle declared
  bounds : ∀ p ∈ declared, p.ReadableIn scope
  parameters : ∀ t ∈ s.parameters, t.ReadableIn (scope ++ TypeParameter.settledScope declared)
  returnType : ∀ t ∈ s.returnType, t.ReadableIn (scope ++ TypeParameter.settledScope declared)
  thrownTypes : ∀ t ∈ s.thrownTypes, t.ReadableIn (scope ++ TypeParameter.settledScope declared)

/-! ## Settling -/

theorem TypeParameter.bounds_withErasures (scope : TypeScope) (p : TypeParameter) :
    (p.withErasures scope).bounds = p.bounds.map (·.withErasures scope) := by
  cases hbound : p.classBound with
  | none => simp [TypeParameter.withErasures, TypeParameter.bounds, hbound]
  | some bound => simp [TypeParameter.withErasures, TypeParameter.bounds, hbound]

/-- Replacing the erasures in a declaration by those of an inner scope makes it readable in both
scopes together. -/
theorem TypeParameter.ReadableIn.withErasures {outer : TypeScope} {p : TypeParameter}
    (h : p.ReadableIn outer) (inner : TypeScope) :
    (p.withErasures inner).ReadableIn (outer ++ inner) := by
  refine ⟨h.1, ?_⟩
  intro bound hbound
  rw [TypeParameter.bounds_withErasures, List.mem_map] at hbound
  rcases hbound with ⟨before, hbefore, rfl⟩
  exact (h.2 before hbefore).withErasures inner

/-- Settled type parameters are readable in the scope that they open themselves. -/
theorem MethodSignature.ReadableIn.typeParameters {scope : TypeScope}
    {declared : List TypeParameter} {s : MethodSignature} (h : s.ReadableIn scope declared) :
    ∀ p ∈ s.typeParameters, p.ReadableIn (scope ++ TypeParameter.settledScope declared) := by
  intro p hp
  rw [h.settled] at hp
  rcases List.mem_map.1 hp with ⟨before, hbefore, rfl⟩
  exact (h.bounds before hbefore).withErasures _

/-- Written forms do not show erasures. -/
theorem TypeParameter.signatureChars_withErasures (scope : TypeScope) (p : TypeParameter) :
    (p.withErasures scope).signatureChars = p.signatureChars := by
  cases hbound : p.classBound with
  | none =>
      simp only [TypeParameter.withErasures, TypeParameter.signatureChars, hbound, List.flatMap_map,
        FieldType.signatureChars_withErasures, Option.map_none]
  | some bound =>
      simp only [TypeParameter.withErasures, TypeParameter.signatureChars, hbound, List.flatMap_map,
        FieldType.signatureChars_withErasures, Option.map_some, Option.toList_some,
        List.flatMap_singleton]

theorem MethodSignature.typeParametersChars_eq {ps : List TypeParameter} (h : ps ≠ []) :
    typeParametersChars ps = '<' :: (ps.flatMap TypeParameter.signatureChars ++ ['>']) := by
  cases ps with
  | nil => exact absurd rfl h
  | cons p ps => rfl

/-- Settling type parameters does not show in their written form. -/
theorem MethodSignature.typeParametersChars_settle (ps : List TypeParameter) :
    typeParametersChars (TypeParameter.settle ps) = typeParametersChars ps := by
  cases ps with
  | nil => rfl
  | cons p ps =>
      rw [typeParametersChars_eq (List.cons_ne_nil p ps), typeParametersChars_eq]
      · simp only [TypeParameter.settle, List.flatMap_map,
          TypeParameter.signatureChars_withErasures]
      · rw [TypeParameter.settle]
        exact List.cons_ne_nil _ _

namespace Signature

variable (scope : TypeScope)

/-! ## Types in front of other parts -/

/-- A type that may be absent, but is there. -/
theorem some_fieldType_eq_ok {depth : Nat} {cs rest : List Char} {type? : Option FieldType}
    (h : (do
      let (type, cs) ← fieldType scope depth cs
      return (some type, cs)).outcome = .ok (type?, rest)) :
    ∃ type, type? = some type ∧ cs = type.signatureChars ++ rest ∧ type.ReadableIn scope := by
  rcases (sound_fieldType scope depth).bind h with ⟨type, cs₁, rfl, htype, h⟩
  cases h
  exact ⟨type, rfl, rfl, htype⟩

/-- A type in front of more types. -/
theorem cons_fieldType_eq_ok {depth : Nat} {more : List Char → Logged SignatureFault
      (List FieldType × List Char)} {write : List FieldType → List Char}
    (hmore : Sound more write fun ts => ∀ t ∈ ts, t.ReadableIn scope) {cs rest : List Char}
    {types : List FieldType}
    (h : (do
      let (type, cs) ← fieldType scope depth cs
      let (types, cs) ← more cs
      return (type :: types, cs)).outcome = .ok (types, rest)) :
    ∃ t ts, types = t :: ts ∧ cs = t.signatureChars ++ (write ts ++ rest) ∧
      ∀ t ∈ types, t.ReadableIn scope := by
  rcases (sound_fieldType scope depth).bind h with ⟨t, cs₁, rfl, ht, h⟩
  rcases hmore.bind h with ⟨ts, cs₂, rfl, hts, h⟩
  cases h
  exact ⟨t, ts, rfl, rfl, List.forall_mem_cons.2 ⟨ht, hts⟩⟩

/-! ## Type parameters -/

theorem sound_classBound (depth : Nat) :
    Sound (classBound scope depth) (fun bound => bound.toList.flatMap FieldType.signatureChars)
      (fun bound => ∀ t ∈ bound, t.ReadableIn scope) := by
  have hsome : Sound (fun cs => do
      let (bound, cs) ← fieldType scope depth cs
      return (some bound, cs)) (fun bound => bound.toList.flatMap FieldType.signatureChars)
      (fun bound => ∀ t ∈ bound, t.ReadableIn scope) := by
    intro cs bound rest h
    rcases some_fieldType_eq_ok scope h with ⟨type, rfl, rfl, htype⟩
    refine ⟨?_, ?_⟩
    · simp only [Option.toList_some, List.flatMap_singleton]
    · intro t ht
      cases ht
      exact htype
  intro cs bound rest h
  unfold classBound at h
  split at h
  case h_1 => exact hsome _ _ _ h
  case h_2 => exact hsome _ _ _ h
  case h_3 => exact hsome _ _ _ h
  case h_4 =>
    cases h
    exact ⟨rfl, fun _ ht => nomatch ht⟩

theorem sound_interfaceBounds (depth : Nat) :
    Sound (interfaceBounds scope depth)
      (fun bounds => bounds.flatMap fun bound => ':' :: bound.signatureChars)
      (fun bounds => ∀ t ∈ bounds, t.ReadableIn scope) := by
  induction depth with
  | zero =>
      intro cs bounds rest h
      cases h
      exact ⟨rfl, fun _ ht => nomatch ht⟩
  | succ depth ih =>
      intro cs bounds rest h
      unfold interfaceBounds at h
      split at h
      case h_1 depth' cs heq =>
        cases heq
        rcases cons_fieldType_eq_ok scope ih h with ⟨t, ts, rfl, rfl, hbounds⟩
        refine ⟨?_, hbounds⟩
        simp only [List.flatMap_cons, List.cons_append, List.append_assoc]
      case h_2 =>
        cases h
        exact ⟨rfl, fun _ ht => nomatch ht⟩

/-- The type parameters that are read are written as the text they were read from. -/
theorem sound_parameterList (depth : Nat) :
    Sound (parameterList scope depth)
      (fun ps => ps.flatMap TypeParameter.signatureChars ++ ['>'])
      (fun ps => ∀ p ∈ ps, p.ReadableIn scope) := by
  induction depth with
  | zero =>
      intro cs ps rest h
      cases h
  | succ depth ih =>
      intro cs ps rest h
      unfold parameterList at h
      split at h
      case h_1 => cases h
      case h_2 =>
        cases h
        exact ⟨rfl, fun _ hp => nomatch hp⟩
      case h_3 depth' heq _ =>
        cases heq
        rcases (sound_unqualifiedName ':').bind h with ⟨name, cs₁, rfl, hcolon, h⟩
        rcases (sound_classBound scope depth).bind h with ⟨bound, cs₂, rfl, hclass, h⟩
        rcases (sound_interfaceBounds scope depth).bind h with ⟨bounds, cs₃, rfl, hinterfaces, h⟩
        rcases ih.bind h with ⟨parameters, cs₄, rfl, hlist, h⟩
        cases h
        refine ⟨?_, List.forall_mem_cons.2 ⟨⟨hcolon, ?_⟩, hlist⟩⟩
        · simp only [List.flatMap_cons, TypeParameter.signatureChars, List.cons_append,
            List.append_assoc, List.nil_append]
        · intro t ht
          rcases List.mem_append.1 ht with ht | ht
          · exact hclass t (Option.mem_toList.1 ht)
          · exact hinterfaces t ht

/-- Type parameters are written as they were declared, and open a scope inside the one they are read
in. -/
theorem sound_typeParameters (depth : Nat) :
    Sound (typeParameters scope depth)
      (fun result => MethodSignature.typeParametersChars result.1)
      (fun result => ∃ declared, (∀ p ∈ declared, p.ReadableIn scope) ∧
        result =
          (TypeParameter.settle declared, scope ++ TypeParameter.settledScope declared)) := by
  intro cs result rest h
  unfold typeParameters at h
  split at h
  case h_1 =>
    rcases (sound_parameterList scope depth).bind h with ⟨declared, cs₁, rfl, hdeclared, h⟩
    cases declared with
    | nil => cases h
    | cons p ps =>
        cases h
        refine ⟨?_, p :: ps, hdeclared, rfl⟩
        simp only [MethodSignature.typeParametersChars_settle]
        rw [MethodSignature.typeParametersChars_eq (List.cons_ne_nil p ps), List.cons_append]
  case h_2 =>
    cases h
    refine ⟨rfl, [], ?_, congrArg (Prod.mk []) (List.append_nil scope).symm⟩
    intro p hp
    cases hp

/-! ## The parts of a method signature -/

/-- The parameters that are read are written as the text they were read from. -/
theorem sound_parameterTypes (depth : Nat) :
    Sound (parameterTypes scope depth) (fun ts => FieldType.listSignatureChars ts ++ [')'])
      (fun ts => ∀ t ∈ ts, t.ReadableIn scope) := by
  induction depth with
  | zero =>
      intro cs ts rest h
      cases h
  | succ depth ih =>
      intro cs ts rest h
      unfold parameterTypes at h
      split at h
      case h_1 => cases h
      case h_2 =>
        cases h
        exact ⟨rfl, fun _ ht => nomatch ht⟩
      case h_3 depth' heq _ =>
        cases heq
        rcases cons_fieldType_eq_ok scope ih h with ⟨t, ts, rfl, rfl, htypes⟩
        refine ⟨?_, htypes⟩
        simp only [FieldType.listSignatureChars, List.flatMap_cons, List.append_assoc]

/-- The result that is read is written as the text it was read from. -/
theorem sound_returnType (depth : Nat) :
    Sound (returnType scope depth) FieldType.returnSignatureChars
      (fun type => ∀ t ∈ type, t.ReadableIn scope) := by
  intro cs type rest h
  unfold returnType at h
  split at h
  case h_1 =>
    cases h
    exact ⟨rfl, fun _ ht => nomatch ht⟩
  case h_2 =>
    rcases some_fieldType_eq_ok scope h with ⟨type, rfl, rfl, htype⟩
    refine ⟨rfl, ?_⟩
    intro t ht
    cases ht
    exact htype

/-- The thrown types that are read are written as the text they were read from. -/
theorem sound_thrownTypes (depth : Nat) :
    Sound (thrownTypes scope depth) (fun ts => ts.flatMap fun t => '^' :: t.signatureChars)
      (fun ts => ∀ t ∈ ts, t.ReadableIn scope) := by
  induction depth with
  | zero =>
      intro cs ts rest h
      cases h
      exact ⟨rfl, fun _ ht => nomatch ht⟩
  | succ depth ih =>
      intro cs ts rest h
      unfold thrownTypes at h
      split at h
      case h_1 depth' cs heq =>
        cases heq
        split at h
        · rcases cons_fieldType_eq_ok scope ih h with ⟨t, ts, rfl, rfl, hthrown⟩
          refine ⟨?_, hthrown⟩
          simp only [List.flatMap_cons, List.cons_append, List.append_assoc]
        · cases h
      case h_2 =>
        cases h
        exact ⟨rfl, fun _ ht => nomatch ht⟩

/-- A method signature that is read is written as the text that it was read from. -/
theorem sound_methodSignature (depth : Nat) :
    Sound (methodSignature scope depth) MethodSignature.signatureChars
      (fun s => ∃ declared, s.ReadableIn scope declared) := by
  intro cs s rest h
  rcases (sound_typeParameters scope depth).bind h with ⟨_, cs₁, rfl, ⟨declared, hdeclared, rfl⟩, h⟩
  rcases Logged.outcome_bind_eq_ok_iff.1 h with ⟨cs₂, hopen, h⟩
  cases expect_eq_ok_iff.1 hopen
  rcases (sound_parameterTypes _ depth).bind h with ⟨types, cs₃, rfl, htypes, h⟩
  rcases (sound_returnType _ depth).bind h with ⟨type, cs₄, rfl, htype, h⟩
  rcases (sound_thrownTypes _ depth).bind h with ⟨thrown, cs₅, rfl, hthrown, h⟩
  cases h
  refine ⟨?_, declared, rfl, hdeclared, htypes, htype, hthrown⟩
  simp only [MethodSignature.signatureChars, List.cons_append, List.append_assoc,
    List.nil_append]

/-! ## Whole texts -/

variable {α : Type} {read : Nat → List Char → Logged SignatureFault (α × List Char)}
  {source : String} {a : α}

/-- A text is read as a whole exactly if nothing of it is left. -/
theorem whole_eq_ok_iff :
    (whole read source).outcome = .ok a ↔
      (read (source.toList.length + 2) source.toList).outcome = .ok (a, []) := by
  rw [whole, Logged.outcome_mapError, mapError_eq_ok_iff, Logged.outcome_bind_eq_ok_iff]
  constructor
  · intro h
    rcases h with ⟨⟨b, rest⟩, hread, h⟩
    rcases Logged.outcome_bind_eq_ok_iff.1 h with ⟨_, hfinish, h⟩
    cases h
    cases rest with
    | nil => exact hread
    | cons c rest => cases hfinish
  · intro h
    exact ⟨(a, []), h, rfl⟩

/-- A sound reader reads a whole text as something that is written as that text. -/
theorem sound_whole {write : α → List Char} {property : α → Prop}
    (hread : ∀ depth, Sound (read depth) write property)
    (h : (whole read source).outcome = .ok a) : String.ofList (write a) = source ∧ property a := by
  rcases hread _ _ _ _ (whole_eq_ok_iff.1 h) with ⟨htext, hproperty⟩
  rw [List.append_nil] at htext
  rw [← htext, String.ofList_toList]
  exact ⟨rfl, hproperty⟩

end Signature

namespace MethodSignature

/-- Method signatures and types are written as the texts they were read from, whatever is in
scope. -/
theorem signature_of_parse (source : String) (scope : List TypeParameter) :
    (∀ s, (MethodSignature.parse source scope).outcome = .ok s → s.signature = source) ∧
      ∀ t, (FieldType.parse source scope).outcome = .ok t → t.signature = source := by
  constructor
  · intro s h
    exact (Signature.sound_whole (Signature.sound_methodSignature _) h).1
  · intro t h
    exact (Signature.sound_whole (Signature.sound_fieldType _) h).1

/-- A scope with one variable. -/
def exampleScope : List TypeParameter :=
  [⟨⟨"X", rfl⟩, some (.ofName ⟨"a/N"⟩), []⟩]

/-- An inner class that is selected from a generic one and applied to a variable of the scope. -/
def exampleType : FieldType :=
  .object (.inner (.named ⟨"a/B"⟩ [.wildcard]) ⟨"a/B$C"⟩
    [.bounded .upper (.typeVariable ⟨"X", rfl⟩ ⟨"a/N"⟩)])

/-- A method whose type parameter mentions itself in its bound. -/
def exampleSignature : MethodSignature :=
  let t := FieldType.typeVariable ⟨"T", rfl⟩ ⟨"a/L"⟩
  ⟨[⟨⟨"T", rfl⟩, none, [.object (.named ⟨"a/L"⟩ [.bounded .lower t])]⟩],
    [t, .array (.base .int), exampleType], none, [t]⟩

/-- The signature and the type have type arguments, an inner class and variables of the scope. -/
theorem signature_of_parse_nested :
    (MethodSignature.parse "<T::La/L<-TT;>;>(TT;[ILa/B<*>.C<+TX;>;)V^TT;" exampleScope).outcome =
        .ok exampleSignature ∧
      exampleSignature.signature = "<T::La/L<-TT;>;>(TT;[ILa/B<*>.C<+TX;>;)V^TT;" ∧
      (FieldType.parse "La/B<*>.C<+TX;>;" exampleScope).outcome = .ok exampleType ∧
      exampleType.signature = "La/B<*>.C<+TX;>;" := by
  have hsignature : (MethodSignature.parse "<T::La/L<-TT;>;>(TT;[ILa/B<*>.C<+TX;>;)V^TT;"
      exampleScope).outcome = .ok exampleSignature := by cbv
  have htype : (FieldType.parse "La/B<*>.C<+TX;>;" exampleScope).outcome = .ok exampleType := by cbv
  exact ⟨hsignature, (signature_of_parse _ exampleScope).1 _ hsignature, htype,
    (signature_of_parse _ exampleScope).2 _ htype⟩

end MethodSignature
end JvmMethods
