import JvmMethods.Proofs.Name.Delimiters
import JvmMethods.Proofs.Signature.Resolution

/-!
# What is written can be read

Every written form tells where it ends, so the readers of types take exactly the text of a type,
whatever stands after it.  A bound on their depth is large enough if it is no less than the length
of that text.  The type that they read differs from the one that was written in nothing but the
erasures of its variables, which come from the scope.

Main results:

- Definition {lit}`Signature.Recovers`: a reader takes exactly some text, whatever follows it.
- Theorems {lit}`Signature.classBody_append` and {lit}`Signature.argumentList_append`: classes and
  type arguments are recovered from their texts.
- Theorem {lit}`Signature.recovers_fieldType`: every well-formed type is recovered from its text.
-/

namespace JvmMethods

/-- The erasure that a scope gives to a use of a variable, whichever it carries. -/
def TypeScope.resolveUse (scope : TypeScope) (n : UnqualifiedName) (_ : BinaryName) : BinaryName :=
  scope.resolve n

/-- The number of inner classes that are selected one after the other. -/
def ClassType.levels : ClassType → Nat
  | .named _ _ => 0
  | .inner outer _ _ => outer.levels + 1

namespace Signature

/-- The reader takes exactly this text and gives this value, whatever follows the text. -/
def Recovers {α : Type} (read : Nat → List Char → Logged SignatureFault (α × List Char))
    (text : List Char) (a : α) : Prop :=
  ∀ depth rest, text.length ≤ depth → (read depth (text ++ rest)).outcome = .ok (a, rest)

/-! ## Tokens -/

theorem expect_cons (c : Char) (rest : List Char) : expect c (c :: rest) = .ok rest :=
  expect_eq_ok_iff.2 rfl

/-- A class name is taken up to the character that ends it. -/
theorem className_append {name : BinaryName} (h : BinaryName.check name.text = .ok ())
    {rest : List Char} (hrest : ∀ c ∈ rest.head?, endsClassName c = true) :
    className (name.text.toList ++ rest) = .ok (name, rest) := by
  have hident : identifier endsClassName (name.text.toList ++ rest) = .ok (name.text, rest) :=
    identifier_eq_ok_iff.2
      ⟨rfl, BinaryName.toList_ne_nil_of_check h, BinaryName.unbroken_of_check h, hrest⟩
  have hname : BinaryName.ofString name.text = .ok name :=
    BinaryName.ofString_eq_ok_iff.2 ⟨h, rfl⟩
  rw [className, hident]
  simp only [bind, Except.bind, hname, Except.mapError]
  rfl

/-- An unqualified name is taken up to the character after it, and that character is taken. -/
theorem unqualifiedName_append {stop : Char} {name : UnqualifiedName}
    (hstop : stop ∉ name.text.toList) (rest : List Char) :
    unqualifiedName stop (name.text.toList ++ stop :: rest) = .ok (name, rest) := by
  have hstops : ∀ c ∈ name.text.toList, decide (c = stop) = false := by
    intro c hc
    refine decide_eq_false ?_
    rintro rfl
    exact hstop hc
  have hident : identifier (· = stop) (name.text.toList ++ stop :: rest) =
      .ok (name.text, stop :: rest) :=
    identifier_eq_ok_iff.2 ⟨rfl, name.toList_ne_nil, hstops, by simp⟩
  rw [unqualifiedName, hident]
  simp only [bind, Except.bind, UnqualifiedName.ofString_text, Except.mapError, expect_cons]
  rfl

/-- The simple name of an inner class is read up to the next delimiter. -/
theorem identifier_innerName {simple : String} (h : IsInnerName simple) {rest : List Char}
    (hrest : ∀ c ∈ rest.head?, endsClassName c = true) :
    identifier endsClassName (simple.toList ++ rest) = .ok (simple, rest) :=
  identifier_eq_ok_iff.2 ⟨rfl, h.1, h.2, hrest⟩

/-! ## How types open -/

/-- Can the written form of a type open with this character? -/
def startsType (c : Char) : Bool :=
  c = 'L' || c = 'T' || c = '[' || (BaseType.ofLetter? c).isSome

/-- Every type opens with a character that types start with. -/
theorem exists_signatureChars_eq (t : FieldType) :
    ∃ c cs, t.signatureChars = c :: cs ∧ startsType c = true := by
  cases t with
  | base b => exact ⟨b.letter, [], rfl, by simp [startsType]⟩
  | object c => exact ⟨'L', _, rfl, rfl⟩
  | array element => exact ⟨'[', _, rfl, rfl⟩
  | typeVariable name erased => exact ⟨'T', _, rfl, rfl⟩

theorem length_signatureChars_pos (t : FieldType) : 0 < t.signatureChars.length := by
  obtain ⟨c, cs, htext, -⟩ := exists_signatureChars_eq t
  rw [htext]
  exact Nat.succ_pos _

/-- A character that types start with is none that they do not start with. -/
theorem ne_of_startsType {c d : Char} (hc : startsType c = true) (hd : startsType d = false) :
    c ≠ d := by
  rintro rfl
  rw [hc] at hd
  cases hd

/-! ## Types -/

section Types

variable (scope : TypeScope)

/-- Read a class: its name, its arguments, and the inner classes that are selected from it. -/
def classBody (depth : Nat) (cs : List Char) : Logged SignatureFault (ClassType × List Char) := do
  let (name, cs) ← Logged.ofExcept (className cs)
  let (arguments, cs) ← typeArguments scope depth cs
  innerClasses scope depth (.named name arguments) cs

theorem fieldType_object (depth : Nat) (cs : List Char) :
    fieldType scope (depth + 1) ('L' :: cs) = do
      let (type, cs) ← classBody scope depth cs
      let cs ← Logged.ofExcept (expect ';' cs)
      return (.object type, cs) := by
  simp only [fieldType, classBody, bind_assoc]

theorem fieldType_base (depth : Nat) (b : BaseType) (cs : List Char) :
    fieldType scope (depth + 1) (b.letter :: cs) = return (.base b, cs) := by
  cases b <;> rfl

/-- No inner class is selected where no dot follows. -/
theorem innerClasses_of_ne {depth : Nat} {outer : ClassType} {cs : List Char}
    (h : cs.head? ≠ some '.') : innerClasses scope depth outer cs = return (outer, cs) := by
  cases depth with
  | zero => rfl
  | succ depth =>
      unfold innerClasses
      split
      · exact absurd rfl h
      · rfl

/-- There are no arguments where no bracket follows. -/
theorem typeArguments_of_ne {depth : Nat} {cs : List Char} (h : cs.head? ≠ some '<') :
    typeArguments scope depth cs = return ([], cs) := by
  cases depth with
  | zero => rfl
  | succ depth =>
      unfold typeArguments
      split
      · exact absurd rfl h
      · rfl

/-- An argument without a sign is a type. -/
theorem argumentList_of_startsType {depth : Nat} {c : Char} {cs : List Char}
    (h : startsType c = true) :
    argumentList scope (depth + 1) (c :: cs) = do
      let (type, cs) ← fieldType scope depth (c :: cs)
      let (arguments, cs) ← argumentList scope depth cs
      return (.bounded .exact type :: arguments, cs) := by
  have hclose : c ≠ '>' := ne_of_startsType h rfl
  have hany : c ≠ '*' := ne_of_startsType h rfl
  have hupper : c ≠ '+' := ne_of_startsType h rfl
  have hlower : c ≠ '-' := ne_of_startsType h rfl
  rw [argumentList]
  · exact fun heq => absurd heq (List.cons_ne_nil c cs)
  · exact fun _ heq => hclose (List.cons.inj heq).1
  · exact fun _ heq => hany (List.cons.inj heq).1
  · exact fun _ heq => hupper (List.cons.inj heq).1
  · exact fun _ heq => hlower (List.cons.inj heq).1

/-- An argument after its sign, if it has one. -/
theorem argumentList_bounded {depth : Nat} (variance : Variance) (t : FieldType)
    (cs : List Char) :
    argumentList scope (depth + 1) (variance.indicator ++ (t.signatureChars ++ cs)) = do
      let (type, cs) ← fieldType scope depth (t.signatureChars ++ cs)
      let (arguments, cs) ← argumentList scope depth cs
      return (.bounded variance type :: arguments, cs) := by
  cases variance with
  | upper => rfl
  | lower => rfl
  | exact =>
      obtain ⟨c, text, htext, hstarts⟩ := exists_signatureChars_eq t
      rw [htext]
      exact argumentList_of_startsType scope hstarts

/-- A class name ends where its arguments open, or else where the class does. -/
theorem endsClassName_bracketed (arguments : List TypeArgument) {rest : List Char}
    (h : ∀ c ∈ rest.head?, endsClassName c = true) :
    ∀ c ∈ (TypeArgument.bracketedChars arguments ++ rest).head?, endsClassName c = true := by
  cases arguments with
  | nil => exact h
  | cons a as =>
      intro c hc
      cases hc
      rfl

/-- Arguments are recovered from their text in brackets if they are recovered from the text inside
of the brackets. -/
theorem typeArguments_append {arguments : List TypeArgument}
    (hlist : ∀ (depth : Nat) (rest : List Char),
      (TypeArgument.listChars arguments).length < depth →
      (argumentList scope depth (TypeArgument.listChars arguments ++ '>' :: rest)).outcome =
        .ok (TypeArgument.listMapErasures scope.resolveUse arguments, rest))
    (depth : Nat) {rest : List Char}
    (hdepth : (TypeArgument.bracketedChars arguments).length ≤ depth)
    (hopen : rest.head? ≠ some '<') :
    (typeArguments scope depth (TypeArgument.bracketedChars arguments ++ rest)).outcome =
      .ok (TypeArgument.listMapErasures scope.resolveUse arguments, rest) := by
  cases arguments with
  | nil =>
      rw [TypeArgument.bracketedChars, List.nil_append, typeArguments_of_ne scope hopen]
      rfl
  | cons a as =>
      rw [TypeArgument.bracketedChars_eq (List.cons_ne_nil a as)] at hdepth ⊢
      obtain ⟨depth, rfl⟩ := Nat.exists_eq_succ_of_ne_zero (Nat.ne_zero_of_lt hdepth)
      have hinside := hlist depth rest (by
        simp only [List.length_cons, List.length_append, List.length_nil] at hdepth
        omega)
      rw [List.cons_append, List.append_assoc, List.singleton_append, typeArguments,
        Logged.outcome_bind_of_ok hinside]
      rfl

/-- A class is selected from fewer classes than its text has characters. -/
theorem levels_lt_length {c : ClassType} (h : c.WellFormed) : c.levels < c.bodyChars.length := by
  cases c with
  | named name arguments =>
      have hname := List.length_pos_iff.2 (BinaryName.toList_ne_nil_of_check h.1)
      simp only [ClassType.levels, ClassType.bodyChars, List.length_append]
      omega
  | inner outer name arguments =>
      have houter := levels_lt_length h.1
      simp only [ClassType.levels, ClassType.bodyChars, List.length_append, List.length_cons]
      omega

mutual

/-- Every well-formed type is recovered from its text, with the erasures of the scope. -/
theorem recovers_fieldType : ∀ t : FieldType, t.WellFormed →
    Recovers (fieldType scope) t.signatureChars (t.mapErasures scope.resolveUse)
  | .base b, _ => by
      intro depth rest hdepth
      obtain ⟨depth, rfl⟩ := Nat.exists_eq_succ_of_ne_zero (Nat.ne_zero_of_lt hdepth)
      exact congrArg Logged.outcome (fieldType_base scope depth b rest)
  | .array element, h => by
      intro depth rest hdepth
      obtain ⟨depth, rfl⟩ := Nat.exists_eq_succ_of_ne_zero (Nat.ne_zero_of_lt hdepth)
      have helement := recovers_fieldType element h depth rest (Nat.le_of_succ_le_succ hdepth)
      rw [FieldType.signatureChars, List.cons_append, fieldType,
        Logged.outcome_bind_of_ok helement]
      rfl
  | .typeVariable name erased, _ => by
      intro depth rest hdepth
      obtain ⟨depth, rfl⟩ := Nat.exists_eq_succ_of_ne_zero (Nat.ne_zero_of_lt hdepth)
      have hname := unqualifiedName_append (name.not_mem_toList (c := ';') rfl (by decide)
        (by decide)) rest
      rw [FieldType.signatureChars, List.cons_append, List.append_assoc, List.singleton_append,
        fieldType, hname, Logged.outcome_bind_of_ok (Logged.outcome_ofExcept _),
        Logged.outcome_bind_of_ok (outcome_resolveVariable scope name)]
      rfl
  | .object c, h => by
      intro depth rest hdepth
      obtain ⟨depth, rfl⟩ := Nat.exists_eq_succ_of_ne_zero (Nat.ne_zero_of_lt hdepth)
      have hbody := classBody_append c h depth (';' :: rest) (by
        simp only [FieldType.signatureChars, List.length_cons, List.length_append] at hdepth
        omega) (by simp [endsClassName]) (by simp)
      rw [innerClasses_of_ne scope (by simp)] at hbody
      rw [FieldType.signatureChars, List.cons_append, List.append_assoc, List.singleton_append,
        fieldType_object, Logged.outcome_bind_of_ok hbody]
      rfl

/-- The inner classes after a class are read once the class itself is recovered from its text. -/
theorem classBody_append : ∀ c : ClassType, c.WellFormed → ∀ (depth : Nat) (rest : List Char),
    c.bodyChars.length ≤ depth → (∀ ch ∈ rest.head?, endsClassName ch = true) →
    rest.head? ≠ some '<' →
    (classBody scope depth (c.bodyChars ++ rest)).outcome =
      (innerClasses scope (depth - c.levels) (c.mapErasures scope.resolveUse) rest).outcome
  | .named name arguments, h => by
      intro depth rest hdepth hends hopen
      have hname := className_append h.1 (endsClassName_bracketed arguments hends)
      have hlength : (TypeArgument.bracketedChars arguments).length ≤ depth := by
        simp only [ClassType.bodyChars, List.length_append] at hdepth
        omega
      have harguments := typeArguments_append scope (argumentList_append arguments h.2) depth
        hlength hopen
      rw [ClassType.bodyChars, List.append_assoc, classBody, hname,
        Logged.outcome_bind_of_ok (Logged.outcome_ofExcept _),
        Logged.outcome_bind_of_ok harguments]
      rfl
  | .inner outer name arguments, h => by
      intro depth rest hdepth hends hopen
      obtain ⟨houter, ⟨simple, hsimple, rfl⟩, hlist⟩ := h
      have hlevels := levels_lt_length houter
      have hpos := List.length_pos_iff.2 hsimple.1
      simp only [ClassType.bodyChars, BinaryName.simpleIn_nested, List.length_append,
        List.length_cons] at hdepth
      -- The outer class leaves enough depth for the name and the arguments of this one.
      obtain ⟨left, hleft⟩ : ∃ left, depth - outer.levels = left + 1 :=
        ⟨depth - outer.levels - 1, by omega⟩
      have hread := classBody_append outer houter depth
        ('.' :: (simple.toList ++ (TypeArgument.bracketedChars arguments ++ rest))) (by omega)
        (by simp [endsClassName]) (by simp)
      have hident := identifier_innerName hsimple (endsClassName_bracketed arguments hends)
      have harguments := typeArguments_append scope (argumentList_append arguments hlist)
        left (by omega) hopen
      have hrest : depth - (outer.levels + 1) = left := by omega
      rw [hleft, innerClasses, hident, Logged.outcome_bind_of_ok (Logged.outcome_ofExcept _),
        Logged.outcome_bind_of_ok harguments] at hread
      simp only [ClassType.bodyChars, BinaryName.simpleIn_nested, List.append_assoc,
        List.cons_append, ClassType.levels, hrest, ClassType.mapErasures]
      rw [hread, ClassType.name_mapErasures]

/-- Well-formed arguments are recovered from their texts up to the bracket that closes them. -/
theorem argumentList_append : ∀ as : List TypeArgument, TypeArgument.ListWellFormed as →
    ∀ (depth : Nat) (rest : List Char), (TypeArgument.listChars as).length < depth →
    (argumentList scope depth (TypeArgument.listChars as ++ '>' :: rest)).outcome =
      .ok (TypeArgument.listMapErasures scope.resolveUse as, rest)
  | [], _ => by
      intro depth rest hdepth
      obtain ⟨depth, rfl⟩ := Nat.exists_eq_succ_of_ne_zero (Nat.ne_zero_of_lt hdepth)
      rfl
  | .wildcard :: as, h => by
      intro depth rest hdepth
      simp only [TypeArgument.listChars, TypeArgument.signatureChars, List.length_append,
        List.length_singleton] at hdepth
      obtain ⟨depth, rfl⟩ := Nat.exists_eq_succ_of_ne_zero (Nat.ne_zero_of_lt hdepth)
      have hlist := argumentList_append as h.2 depth rest (by omega)
      rw [TypeArgument.listChars, TypeArgument.signatureChars, List.singleton_append,
        List.cons_append, argumentList, Logged.outcome_bind_of_ok hlist]
      rfl
  | .bounded variance t :: as, h => by
      intro depth rest hdepth
      have hpos := length_signatureChars_pos t
      simp only [TypeArgument.listChars, TypeArgument.signatureChars, List.length_append] at hdepth
      obtain ⟨depth, rfl⟩ := Nat.exists_eq_succ_of_ne_zero (Nat.ne_zero_of_lt hdepth)
      have htype := recovers_fieldType t h.1 depth (TypeArgument.listChars as ++ '>' :: rest)
        (by omega)
      have hlist := argumentList_append as h.2 depth rest (by omega)
      rw [TypeArgument.listChars, TypeArgument.signatureChars, List.append_assoc,
        List.append_assoc, argumentList_bounded, Logged.outcome_bind_of_ok htype,
        Logged.outcome_bind_of_ok hlist]
      rfl

end

end Types

end Signature
end JvmMethods
