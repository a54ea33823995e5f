import JvmMethods.Proofs.Signature.WellFormed

/-!
# What signatures are read as

A reader is sound if whatever it reads is written as exactly the text that it took.  The readers of
types, classes and type arguments are sound together, by induction on the bound on their depth, and
the types they read are well formed and resolved in the scope.

Main results:

- Definition {lit}`Signature.Sound`: what it means for a reader to be sound.
- Theorem {lit}`Signature.Sound.bind`: what follows a sound reader goes on from the text after the
  part that was read.
- Theorem {lit}`Signature.typesSound`: the readers of types are sound for every bound on their
  depth.
- Theorem {lit}`Signature.sound_fieldType`: what is known of every type that is read.
-/

namespace JvmMethods

/-! ## Readable types -/

/-- The types that can be read in a scope. -/
def FieldType.ReadableIn (scope : TypeScope) (t : FieldType) : Prop :=
  t.WellFormed ∧ t.ResolvedIn scope

/-- The classes that can be read in a scope. -/
def ClassType.ReadableIn (scope : TypeScope) (c : ClassType) : Prop :=
  c.WellFormed ∧ c.ResolvedIn scope

/-- The type arguments that can be read in a scope. -/
def TypeArgument.ListReadableIn (scope : TypeScope) (as : List TypeArgument) : Prop :=
  TypeArgument.ListWellFormed as ∧ TypeArgument.ListResolvedIn scope as

/-- A variable with the erasure that the scope gives it can be read. -/
theorem FieldType.readableIn_typeVariable (scope : TypeScope) (name : UnqualifiedName) :
    (FieldType.typeVariable name (scope.resolve name)).ReadableIn scope := by
  refine ⟨trivial, ?_⟩
  intro use huse
  rw [List.mem_singleton.1 huse]

/-- Replacing the erasures of a readable type by those of an inner scope makes it readable in both
scopes together. -/
theorem FieldType.ReadableIn.withErasures {outer : TypeScope} {t : FieldType}
    (h : t.ReadableIn outer) (inner : TypeScope) :
    (t.withErasures inner).ReadableIn (outer ++ inner) :=
  ⟨(FieldType.wellFormed_withErasures inner t).2 h.1, FieldType.ResolvedIn.withErasures h.2 inner⟩

theorem ClassType.readableIn_named {scope : TypeScope} {name : BinaryName}
    {arguments : List TypeArgument} (hname : BinaryName.check name.text = .ok ())
    (harguments : TypeArgument.ListReadableIn scope arguments) :
    (ClassType.named name arguments).ReadableIn scope :=
  ⟨⟨hname, harguments.1⟩, harguments.2⟩

theorem ClassType.readableIn_inner {scope : TypeScope} {outer : ClassType} {simple : String}
    {arguments : List TypeArgument} (houter : outer.ReadableIn scope)
    (hsimple : Signature.IsInnerName simple)
    (harguments : TypeArgument.ListReadableIn scope arguments) :
    (ClassType.inner outer (outer.name.nested simple) arguments).ReadableIn scope := by
  refine ⟨⟨houter.1, ⟨simple, hsimple, rfl⟩, harguments.1⟩, ?_⟩
  intro use huse
  rcases List.mem_append.1 huse with huse | huse
  · exact houter.2 use huse
  · exact harguments.2 use huse

theorem TypeArgument.listReadableIn_nil (scope : TypeScope) :
    TypeArgument.ListReadableIn scope [] :=
  ⟨trivial, fun _ huse => nomatch huse⟩

theorem TypeArgument.listReadableIn_wildcard {scope : TypeScope} {as : List TypeArgument}
    (has : TypeArgument.ListReadableIn scope as) :
    TypeArgument.ListReadableIn scope (.wildcard :: as) :=
  ⟨⟨trivial, has.1⟩, has.2⟩

theorem TypeArgument.listReadableIn_bounded {scope : TypeScope} {t : FieldType}
    {as : List TypeArgument} (variance : Variance) (ht : t.ReadableIn scope)
    (has : TypeArgument.ListReadableIn scope as) :
    TypeArgument.ListReadableIn scope (.bounded variance t :: as) := by
  refine ⟨⟨ht.1, has.1⟩, ?_⟩
  intro use huse
  rcases List.mem_append.1 huse with huse | huse
  · exact ht.2 use huse
  · exact has.2 use huse

namespace Signature

/-! ## Sound readers -/

/-- Whatever a reader reads has the property, and is written as the text that was taken. -/
def Sound {α : Type} (read : List Char → Logged SignatureFault (α × List Char))
    (write : α → List Char) (property : α → Prop) : Prop :=
  ∀ cs a rest, (read cs).outcome = .ok (a, rest) → cs = write a ++ rest ∧ property a

/-- What follows a sound reader goes on from the text after the part that was read. -/
theorem Sound.bind {α β : Type} {read : List Char → Logged SignatureFault (α × List Char)}
    {write : α → List Char} {property : α → Prop} (hread : Sound read write property)
    {f : α × List Char → Logged SignatureFault β} {cs : List Char} {b : β}
    (h : (read cs >>= f).outcome = .ok b) :
    ∃ a rest, cs = write a ++ rest ∧ property a ∧ (f (a, rest)).outcome = .ok b := by
  rcases Logged.outcome_bind_eq_ok_iff.1 h with ⟨⟨a, rest⟩, ha, hf⟩
  rcases hread cs a rest ha with ⟨htext, hproperty⟩
  exact ⟨a, rest, htext, hproperty, hf⟩

/-! ## Tokens -/

/-- The class names that are read are valid. -/
theorem sound_className :
    Sound (fun cs => Logged.ofExcept (className cs)) (fun name => name.text.toList)
      (fun name => BinaryName.check name.text = .ok ()) := by
  intro cs name rest h
  rcases bind_eq_ok_iff.1 h with ⟨⟨ident, cs'⟩, hident, h⟩
  rcases bind_eq_ok_iff.1 h with ⟨name', hname, h⟩
  cases h
  rcases BinaryName.ofString_eq_ok_iff.1 (mapError_eq_ok_iff.1 hname) with ⟨hcheck, rfl⟩
  exact ⟨(identifier_eq_ok_iff.1 hident).1, hcheck⟩

/-- The simple names that are read contain no delimiter. -/
theorem sound_innerName :
    Sound (fun cs => Logged.ofExcept (identifier endsClassName cs)) String.toList IsInnerName := by
  intro cs simple rest h
  rcases identifier_eq_ok_iff.1 h with ⟨htext, hne, hstops, -⟩
  exact ⟨htext, hne, hstops⟩

/-- The names of variables that are read do not contain the sign behind them. -/
theorem sound_unqualifiedName (stop : Char) :
    Sound (fun cs => Logged.ofExcept (unqualifiedName stop cs))
      (fun name => name.text.toList ++ [stop]) (fun name => stop ∉ name.text.toList) := by
  intro cs name rest h
  rcases bind_eq_ok_iff.1 h with ⟨⟨ident, cs'⟩, hident, h⟩
  rcases bind_eq_ok_iff.1 h with ⟨name', hname, h⟩
  rcases bind_eq_ok_iff.1 h with ⟨cs'', hstop, h⟩
  cases h
  rcases identifier_eq_ok_iff.1 hident with ⟨htext, -, hstops, -⟩
  have hsame := UnqualifiedName.text_of_ofString (mapError_eq_ok_iff.1 hname)
  refine ⟨?_, ?_⟩
  · simp only [htext, hsame, expect_eq_ok_iff.1 hstop, List.append_assoc, List.cons_append,
      List.nil_append]
  · intro hmem
    rw [hsame] at hmem
    exact of_decide_eq_false (hstops stop hmem) rfl

/-- A variable is read with the erasure that the scope gives it, whether or not it is in scope. -/
theorem outcome_resolveVariable (scope : TypeScope) (name : UnqualifiedName) :
    (resolveVariable scope name).outcome = .ok (.typeVariable name (scope.resolve name)) := by
  rw [resolveVariable, TypeScope.resolve]
  cases scope.erasure? name with
  | none => rfl
  | some erased => rfl

/-! ## Types -/

/-- The readers of types are sound for some bound on their depth. -/
structure TypesSound (scope : TypeScope) (depth : Nat) : Prop where
  fieldType : Sound (fieldType scope depth) FieldType.signatureChars (FieldType.ReadableIn scope)
  /-- The classes selected from some class continue its text. -/
  innerClasses : ∀ {outer type : ClassType} {cs rest : List Char}, outer.ReadableIn scope →
    (innerClasses scope depth outer cs).outcome = .ok (type, rest) →
      outer.bodyChars ++ cs = type.bodyChars ++ rest ∧ type.ReadableIn scope
  typeArguments : Sound (typeArguments scope depth) TypeArgument.bracketedChars
    (TypeArgument.ListReadableIn scope)
  argumentList : Sound (argumentList scope depth) (fun as => TypeArgument.listChars as ++ ['>'])
    (TypeArgument.ListReadableIn scope)

namespace TypesSound

variable {scope : TypeScope} {depth : Nat}

theorem zero (scope : TypeScope) : TypesSound scope 0 where
  fieldType _ _ _ h := nomatch h
  innerClasses houter h := by
    cases h
    exact ⟨rfl, houter⟩
  typeArguments _ _ _ h := by
    cases h
    exact ⟨rfl, TypeArgument.listReadableIn_nil scope⟩
  argumentList _ _ _ h := nomatch h

theorem fieldType_succ (ih : TypesSound scope depth) :
    Sound (Signature.fieldType scope (depth + 1)) FieldType.signatureChars
      (FieldType.ReadableIn scope) := by
  intro cs t rest h
  unfold Signature.fieldType at h
  split at h
  case h_1 => cases h
  case h_2 => cases h
  case h_3 depth' cs heq =>
    cases heq
    rcases sound_className.bind h with ⟨name, cs₁, rfl, hname, h⟩
    rcases ih.typeArguments.bind h with ⟨arguments, cs₂, rfl, harguments, h⟩
    rcases Logged.outcome_bind_eq_ok_iff.1 h with ⟨⟨type, cs₃⟩, htype, h⟩
    rcases Logged.outcome_bind_eq_ok_iff.1 h with ⟨cs₄, hend, h⟩
    cases h
    have houter := ClassType.readableIn_named hname harguments
    rcases ih.innerClasses houter htype with ⟨htext, hclass⟩
    cases expect_eq_ok_iff.1 hend
    refine ⟨?_, hclass⟩
    simp only [ClassType.bodyChars, List.append_assoc] at htext
    simp only [FieldType.signatureChars, htext, List.cons_append, List.append_assoc,
      List.nil_append]
  case h_4 depth' cs heq =>
    cases heq
    rcases (sound_unqualifiedName ';').bind h with ⟨name, cs₁, rfl, -, h⟩
    rcases Logged.outcome_bind_eq_ok_iff.1 h with ⟨type, htype, h⟩
    cases h
    rw [outcome_resolveVariable] at htype
    cases htype
    exact ⟨rfl, FieldType.readableIn_typeVariable scope name⟩
  case h_5 depth' cs heq =>
    cases heq
    rcases ih.fieldType.bind h with ⟨element, cs₁, rfl, helement, h⟩
    cases h
    exact ⟨rfl, helement⟩
  case h_6 c cs _ _ _ heq =>
    cases hbase : BaseType.ofLetter? c with
    | none =>
        rw [hbase] at h
        cases h
    | some b =>
        rw [hbase] at h
        cases h
        rw [FieldType.signatureChars, BaseType.letter_of_ofLetter? hbase]
        exact ⟨rfl, trivial, fun _ huse => nomatch huse⟩

theorem innerClasses_succ (ih : TypesSound scope depth) {outer type : ClassType}
    {cs rest : List Char} (houter : outer.ReadableIn scope)
    (h : (Signature.innerClasses scope (depth + 1) outer cs).outcome = .ok (type, rest)) :
    outer.bodyChars ++ cs = type.bodyChars ++ rest ∧ type.ReadableIn scope := by
  unfold Signature.innerClasses at h
  split at h
  case h_1 depth' cs heq =>
    cases heq
    rcases sound_innerName.bind h with ⟨simple, cs₁, rfl, hsimple, h⟩
    rcases ih.typeArguments.bind h with ⟨arguments, cs₂, rfl, harguments, h⟩
    -- The class selected so far is the outer class of those that are left.
    have hinner := ClassType.readableIn_inner houter hsimple harguments
    rcases ih.innerClasses hinner h with ⟨htext, htype⟩
    refine ⟨?_, htype⟩
    rw [← htext]
    simp only [ClassType.bodyChars, BinaryName.simpleIn_nested, List.append_assoc,
      List.cons_append]
  case h_2 =>
    cases h
    exact ⟨rfl, houter⟩

theorem typeArguments_succ (ih : TypesSound scope depth) :
    Sound (Signature.typeArguments scope (depth + 1)) TypeArgument.bracketedChars
      (TypeArgument.ListReadableIn scope) := by
  intro cs arguments rest h
  unfold Signature.typeArguments at h
  split at h
  case h_1 depth' cs heq =>
    cases heq
    rcases ih.argumentList.bind h with ⟨arguments', cs₁, rfl, harguments, h⟩
    cases arguments' with
    | nil => cases h
    | cons a as =>
        cases h
        refine ⟨?_, harguments⟩
        rw [TypeArgument.bracketedChars_eq (List.cons_ne_nil a as), List.cons_append]
  case h_2 =>
    cases h
    exact ⟨rfl, TypeArgument.listReadableIn_nil scope⟩

/-- A type and the arguments after it, whatever sign stands in front of the type. -/
theorem bounded (ih : TypesSound scope depth) (variance : Variance) {cs rest : List Char}
    {arguments : List TypeArgument}
    (h : (do
      let (type, cs) ← Signature.fieldType scope depth cs
      let (arguments, cs) ← Signature.argumentList scope depth cs
      return (TypeArgument.bounded variance type :: arguments, cs)).outcome =
        .ok (arguments, rest)) :
    variance.indicator ++ cs = (TypeArgument.listChars arguments ++ ['>']) ++ rest ∧
      TypeArgument.ListReadableIn scope arguments := by
  rcases ih.fieldType.bind h with ⟨type, cs₁, rfl, htype, h⟩
  rcases ih.argumentList.bind h with ⟨arguments', cs₂, rfl, harguments, h⟩
  cases h
  refine ⟨?_, TypeArgument.listReadableIn_bounded variance htype harguments⟩
  simp only [TypeArgument.listChars, TypeArgument.signatureChars, List.append_assoc]

theorem argumentList_succ (ih : TypesSound scope depth) :
    Sound (Signature.argumentList scope (depth + 1))
      (fun as => TypeArgument.listChars as ++ ['>']) (TypeArgument.ListReadableIn scope) := by
  intro cs arguments rest h
  unfold Signature.argumentList at h
  split at h
  case h_1 => cases h
  case h_2 => cases h
  case h_3 =>
    cases h
    exact ⟨rfl, TypeArgument.listReadableIn_nil scope⟩
  case h_4 depth' cs heq =>
    cases heq
    rcases ih.argumentList.bind h with ⟨arguments', cs₁, rfl, harguments, h⟩
    cases h
    exact ⟨rfl, TypeArgument.listReadableIn_wildcard harguments⟩
  case h_5 depth' cs heq =>
    cases heq
    exact ih.bounded .upper h
  case h_6 depth' cs heq =>
    cases heq
    exact ih.bounded .lower h
  case h_7 depth' heq _ _ _ _ _ =>
    cases heq
    exact ih.bounded .exact h

end TypesSound

/-- The readers of types are sound for every bound on their depth. -/
theorem typesSound (scope : TypeScope) (depth : Nat) : TypesSound scope depth := by
  induction depth with
  | zero => exact TypesSound.zero scope
  | succ depth ih =>
      exact ⟨ih.fieldType_succ, ih.innerClasses_succ, ih.typeArguments_succ, ih.argumentList_succ⟩

/-- A type that is read is well formed and resolved in the scope, and written as the text that it
was read from. -/
theorem sound_fieldType (scope : TypeScope) (depth : Nat) :
    Sound (fieldType scope depth) FieldType.signatureChars (FieldType.ReadableIn scope) :=
  (typesSound scope depth).fieldType

end Signature
end JvmMethods
