import JvmMethods.Error
import JvmMethods.Logged
import JvmMethods.Signature.Basic
import JvmMethods.Signature.Scope

/-!
# Reading signatures

A signature is read from left to right with one character of lookahead.  Every reader takes the text
that is left, and gives what it read together with the text after it.  The readers of types, classes
and type arguments call one another on ever shorter texts, so a bound on their depth that exceeds
the length of the text is never reached.

Type variables are resolved while a signature is read.  One that no scope declares erases to the
root class, and leaves a notice.

Main results:

- Theorems {lit}`Signature.expect_eq_ok_iff` and {lit}`Signature.identifier_eq_ok_iff`: the readers
  of single tokens split their text.
- Definitions {lit}`MethodSignature.parse`, {lit}`MethodSignature.parseDescriptor`,
  {lit}`FieldType.parse` and {lit}`FieldType.parseClassConstant`: the four kinds of text that class
  files hold.
-/

namespace JvmMethods
namespace Signature

/-! ## Tokens -/

/-- Take one required character. -/
def expect (required : Char) : List Char → Except SignatureFault (List Char)
  | [] => .error (.ended required)
  | c :: cs => if c = required then .ok cs else .error (.unexpected required c)

/-- Nothing may be left. -/
def finish : List Char → Except SignatureFault Unit
  | [] => .ok ()
  | c :: _ => .error (.leftover c)

/-- Take the characters before the first one that stops, of which there must be some. -/
def identifier (stops : Char → Bool) (cs : List Char) :
    Except SignatureFault (String × List Char) :=
  match cs.takeWhile (fun c => !stops c) with
  | [] => .error .missingIdentifier
  | ident => .ok (String.ofList ident, cs.dropWhile fun c => !stops c)

/-- Take an unqualified name that reaches up to a required character, and that character. -/
def unqualifiedName (stop : Char) (cs : List Char) :
    Except SignatureFault (UnqualifiedName × List Char) := do
  let (ident, cs) ← identifier (· = stop) cs
  let name ← (UnqualifiedName.ofString ident).mapError .invalidName
  let cs ← expect stop cs
  return (name, cs)

/-- Does a name inside a class type end here? -/
def endsClassName (c : Char) : Bool :=
  c = '<' || c = '.' || c = ';'

/-- Take the name that a class type opens with. -/
def className (cs : List Char) : Except SignatureFault (BinaryName × List Char) := do
  let (ident, cs) ← identifier endsClassName cs
  let name ← (BinaryName.ofString ident).mapError .invalidName
  return (name, cs)

/-- A required character stands in front of the rest. -/
theorem expect_eq_ok_iff {required : Char} {cs rest : List Char} :
    expect required cs = .ok rest ↔ cs = required :: rest := by
  cases cs with
  | nil => simp [expect]
  | cons c cs =>
      by_cases h : c = required
      · simp [expect, h]
      · simp [expect, h]

/-- An identifier ends where the text ends or at the first character that stops it, and is not
empty. -/
theorem identifier_eq_ok_iff {stops : Char → Bool} {cs rest : List Char} {ident : String} :
    identifier stops cs = .ok (ident, rest) ↔
      cs = ident.toList ++ rest ∧ ident.toList ≠ [] ∧ (∀ c ∈ ident.toList, stops c = false) ∧
        ∀ c ∈ rest.head?, stops c = true := by
  have hall : ∀ c ∈ cs.takeWhile (fun c => !stops c), stops c = false := by
    intro c hc
    simpa using List.all_eq_true.1 List.all_takeWhile c hc
  have hhead : ∀ c ∈ (cs.dropWhile fun c => !stops c).head?, stops c = true := by
    intro c hc
    have hdrop := List.head?_dropWhile_not (fun c => !stops c) cs
    rw [Option.mem_def] at hc
    simpa [hc] using hdrop
  constructor
  · intro h
    unfold identifier at h
    split at h
    · cases h
    · rename_i hne
      cases h
      refine ⟨by simp [List.takeWhile_append_dropWhile], ?_, ?_, hhead⟩
      · simpa using hne
      · simpa using hall
  · rintro ⟨rfl, hne, hstop, hrest⟩
    have hpre : ∀ c ∈ ident.toList, (!stops c) = true := by simpa using hstop
    have htake : rest.takeWhile (fun c => !stops c) = [] := by
      cases rest with
      | nil => rfl
      | cons d rest => simp [hrest d rfl]
    have hdrop : rest.dropWhile (fun c => !stops c) = rest := by
      cases rest with
      | nil => rfl
      | cons d rest => simp [hrest d rfl]
    unfold identifier
    rw [List.takeWhile_append_of_pos hpre, List.dropWhile_append_of_pos hpre, htake, hdrop,
      List.append_nil]
    split
    · contradiction
    · simp

/-! ## Types -/

/-- Resolve a use of a type variable. -/
def resolveVariable (scope : TypeScope) (name : UnqualifiedName) :
    Logged SignatureFault FieldType :=
  match scope.erasure? name with
  | some erased => return .typeVariable name erased
  | none => do
      Logged.note .debug
        ("Type variable " ++ name.text ++ " is not in scope, erasing to Object")
      return .typeVariable name .object

mutual

/-- Read one type. -/
def fieldType (scope : TypeScope) : Nat → List Char → Logged SignatureFault (FieldType × List Char)
  | 0, _ => throw .missingType
  | _ + 1, [] => throw .missingType
  | depth + 1, 'L' :: cs => do
      let (name, cs) ← Logged.ofExcept (className cs)
      let (arguments, cs) ← typeArguments scope depth cs
      let (type, cs) ← innerClasses scope depth (.named name arguments) cs
      let cs ← Logged.ofExcept (expect ';' cs)
      return (.object type, cs)
  | _ + 1, 'T' :: cs => do
      let (name, cs) ← Logged.ofExcept (unqualifiedName ';' cs)
      let type ← resolveVariable scope name
      return (type, cs)
  | depth + 1, '[' :: cs => do
      let (element, cs) ← fieldType scope depth cs
      return (.array element, cs)
  | _ + 1, c :: cs =>
      match BaseType.ofLetter? c with
      | some b => return (.base b, cs)
      | none => throw (.invalidTypeLetter c)

/-- Read the inner classes selected from {lit}`outer`, one after the other. -/
def innerClasses (scope : TypeScope) :
    Nat → ClassType → List Char → Logged SignatureFault (ClassType × List Char)
  | depth + 1, outer, '.' :: cs => do
      let (simple, cs) ← Logged.ofExcept (identifier endsClassName cs)
      let (arguments, cs) ← typeArguments scope depth cs
      innerClasses scope depth (.inner outer (outer.name.nested simple) arguments) cs
  | _, outer, cs => return (outer, cs)

/-- Read type arguments in their brackets, if there are any. -/
def typeArguments (scope : TypeScope) :
    Nat → List Char → Logged SignatureFault (List TypeArgument × List Char)
  | depth + 1, '<' :: cs => do
      let (arguments, cs) ← argumentList scope depth cs
      if arguments.isEmpty then throw .emptyArguments
      return (arguments, cs)
  | _, cs => return ([], cs)

/-- Read type arguments up to the bracket that closes them. -/
def argumentList (scope : TypeScope) :
    Nat → List Char → Logged SignatureFault (List TypeArgument × List Char)
  | 0, _ => throw .unterminatedArguments
  | _ + 1, [] => throw .unterminatedArguments
  | _ + 1, '>' :: cs => return ([], cs)
  | depth + 1, '*' :: cs => do
      let (arguments, cs) ← argumentList scope depth cs
      return (.wildcard :: arguments, cs)
  | depth + 1, '+' :: cs => do
      let (type, cs) ← fieldType scope depth cs
      let (arguments, cs) ← argumentList scope depth cs
      return (.bounded .upper type :: arguments, cs)
  | depth + 1, '-' :: cs => do
      let (type, cs) ← fieldType scope depth cs
      let (arguments, cs) ← argumentList scope depth cs
      return (.bounded .lower type :: arguments, cs)
  | depth + 1, cs => do
      let (type, cs) ← fieldType scope depth cs
      let (arguments, cs) ← argumentList scope depth cs
      return (.bounded .exact type :: arguments, cs)

end

/-! ## Type parameters -/

/-- Read the class bound of a type parameter, if there is one. -/
def classBound (scope : TypeScope) (depth : Nat) :
    List Char → Logged SignatureFault (Option FieldType × List Char)
  | cs@('L' :: _) | cs@('T' :: _) | cs@('[' :: _) => do
      let (bound, cs) ← fieldType scope depth cs
      return (some bound, cs)
  | cs => return (none, cs)

/-- Read interface bounds, each of which a colon opens. -/
def interfaceBounds (scope : TypeScope) :
    Nat → List Char → Logged SignatureFault (List FieldType × List Char)
  | depth + 1, ':' :: cs => do
      let (bound, cs) ← fieldType scope depth cs
      let (bounds, cs) ← interfaceBounds scope depth cs
      return (bound :: bounds, cs)
  | _, cs => return ([], cs)

/-- Read type parameters up to the bracket that closes them. -/
def parameterList (scope : TypeScope) :
    Nat → List Char → Logged SignatureFault (List TypeParameter × List Char)
  | 0, _ => throw .missingIdentifier
  | _ + 1, '>' :: cs => return ([], cs)
  | depth + 1, cs => do
      let (name, cs) ← Logged.ofExcept (unqualifiedName ':' cs)
      let (bound, cs) ← classBound scope depth cs
      let (bounds, cs) ← interfaceBounds scope depth cs
      let (parameters, cs) ← parameterList scope depth cs
      return (⟨name, bound, bounds⟩ :: parameters, cs)

/-- Read type parameters in their brackets, if there are any, and settle their erasures. -/
def typeParameters (scope : TypeScope) (depth : Nat) :
    List Char → Logged SignatureFault ((List TypeParameter × TypeScope) × List Char)
  | '<' :: cs => do
      let (parameters, cs) ← parameterList scope depth cs
      if parameters.isEmpty then throw .emptyTypeParameters
      return ((TypeParameter.settle parameters,
        scope ++ TypeParameter.settledScope parameters), cs)
  | cs => return (([], scope), cs)

/-! ## Method signatures -/

/-- Read types up to the parenthesis that closes them. -/
def parameterTypes (scope : TypeScope) :
    Nat → List Char → Logged SignatureFault (List FieldType × List Char)
  | 0, _ => throw .missingType
  | _ + 1, ')' :: cs => return ([], cs)
  | depth + 1, cs => do
      let (type, cs) ← fieldType scope depth cs
      let (types, cs) ← parameterTypes scope depth cs
      return (type :: types, cs)

/-- Read a return type. -/
def returnType (scope : TypeScope) (depth : Nat) :
    List Char → Logged SignatureFault (Option FieldType × List Char)
  | 'V' :: cs => return (none, cs)
  | cs => do
      let (type, cs) ← fieldType scope depth cs
      return (some type, cs)

/-- Read thrown types, each of which a caret opens.  Only classes and variables can be thrown. -/
def thrownTypes (scope : TypeScope) :
    Nat → List Char → Logged SignatureFault (List FieldType × List Char)
  | depth + 1, '^' :: cs =>
      if cs.head? = some 'L' ∨ cs.head? = some 'T' then do
        let (type, cs) ← fieldType scope depth cs
        let (types, cs) ← thrownTypes scope depth cs
        return (type :: types, cs)
      else throw .missingThrownType
  | _, cs => return ([], cs)

/-- Read a whole method signature. -/
def methodSignature (scope : TypeScope) (depth : Nat) (cs : List Char) :
    Logged SignatureFault (MethodSignature × List Char) := do
  let ((parameters, scope), cs) ← typeParameters scope depth cs
  let cs ← Logged.ofExcept (expect '(' cs)
  let (types, cs) ← parameterTypes scope depth cs
  let (type, cs) ← returnType scope depth cs
  let (thrown, cs) ← thrownTypes scope depth cs
  return (⟨parameters, types, type, thrown⟩, cs)

/-- Read all of a text.  The depth bound exceeds the length of the text. -/
def whole {α : Type} (read : Nat → List Char → Logged SignatureFault (α × List Char))
    (source : String) : Logged Error α :=
  Logged.mapError (.malformedSignature source) do
    let (a, rest) ← read (source.toList.length + 2) source.toList
    Logged.ofExcept (finish rest)
    return a

end Signature

/-! ## Texts of class files -/

/-- Read a method signature in the scope of the type parameters of enclosing classes. -/
def MethodSignature.parse (source : String) (scope : List TypeParameter) :
    Logged Error MethodSignature :=
  Signature.whole (Signature.methodSignature (TypeScope.ofParameters scope)) source

/-- Read a method descriptor, which may not mention any generics. -/
def MethodSignature.parseDescriptor (source : String) : Logged Error MethodSignature := do
  let signature ← MethodSignature.parse source []
  if signature.isGeneric then throw (.genericDescriptor source)
  return signature

/-- Read one type in the scope of some type parameters. -/
def FieldType.parse (source : String) (scope : List TypeParameter) : Logged Error FieldType :=
  Signature.whole (Signature.fieldType (TypeScope.ofParameters scope)) source

/-- Read the text that a class constant holds: a type if it is an array, and else a binary name. -/
def FieldType.parseClassConstant (source : String) : Logged Error FieldType :=
  match source.toList with
  | '[' :: _ => FieldType.parse source []
  | _ => Logged.ofExcept <|
      (BinaryName.ofString source).map FieldType.ofName |>.mapError .invalidClassConstant

end JvmMethods
