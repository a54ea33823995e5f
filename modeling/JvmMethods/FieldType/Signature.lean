import JvmMethods.FieldType.Basic

/-!
# Written forms of field types

Every type has two written forms: its generic signature, with type arguments and type variables, and
its erased signature, which is what descriptors hold and what methods are dispatched on.  The two
agree on types that mention no generics.

Main results:

- Theorem {lit}`FieldType.erasedChars_erasure`: erasing first does not change the erased form.
- Theorem {lit}`FieldType.signatureChars_erasure`: the generic signature of an erased type is the
  erased signature of the type.
- Theorem {lit}`BinaryName.simpleIn_nested`: the simple name of a nested class is the name it was
  nested under.
-/

namespace JvmMethods

/-! ## Parts of a signature -/

/-- The sign that a type argument opens with, if it has one. -/
def Variance.indicator : Variance → List Char
  | .exact => []
  | .upper => ['+']
  | .lower => ['-']

/-- The name of an inner class seen from the class it is selected from.

A name that does not extend the outer one is given in full. -/
def BinaryName.simpleIn (outer name : BinaryName) : List Char :=
  let opening := outer.text.toList ++ ['$']
  if opening.isPrefixOf name.text.toList then name.text.toList.drop opening.length
  else name.text.toList

/-- The simple name of a nested class is what was nested. -/
@[simp]
theorem BinaryName.simpleIn_nested (outer : BinaryName) (inner : String) :
    outer.simpleIn (outer.nested inner) = inner.toList := by
  simp [BinaryName.simpleIn, BinaryName.nested]

mutual

/-- The generic signature of a type. -/
def FieldType.signatureChars : FieldType → List Char
  | .base b => [b.letter]
  | .object c => 'L' :: (c.bodyChars ++ [';'])
  | .array element => '[' :: element.signatureChars
  | .typeVariable name _ => 'T' :: (name.text.toList ++ [';'])

/-- The generic signature of a class without its opening and closing characters. -/
def ClassType.bodyChars : ClassType → List Char
  | .named name arguments =>
      name.text.toList ++ TypeArgument.bracketedChars arguments
  | .inner outer name arguments =>
      outer.bodyChars ++ '.' :: (outer.name.simpleIn name ++
        TypeArgument.bracketedChars arguments)

/-- A list of arguments in its brackets, which an empty list does without. -/
def TypeArgument.bracketedChars : List TypeArgument → List Char
  | [] => []
  | a :: as => '<' :: (a.signatureChars ++ (TypeArgument.listChars as ++ ['>']))

/-- The signatures of some arguments, one after the other. -/
def TypeArgument.listChars : List TypeArgument → List Char
  | [] => []
  | a :: as => a.signatureChars ++ TypeArgument.listChars as

/-- The generic signature of an argument. -/
def TypeArgument.signatureChars : TypeArgument → List Char
  | .wildcard => ['*']
  | .bounded variance t => variance.indicator ++ t.signatureChars

end

/-- Type arguments, if there are any, stand between angle brackets. -/
theorem TypeArgument.bracketedChars_eq {arguments : List TypeArgument} (h : arguments ≠ []) :
    TypeArgument.bracketedChars arguments =
      '<' :: (TypeArgument.listChars arguments ++ ['>']) := by
  cases arguments with
  | nil => exact absurd rfl h
  | cons a as => simp [TypeArgument.bracketedChars, TypeArgument.listChars]

/-! ## The two forms as texts -/

/-- The erased signature of the class with the given name. -/
def BinaryName.descriptorChars (name : BinaryName) : List Char :=
  'L' :: (name.text.toList ++ [';'])

namespace FieldType

/-- The erased signature of a type, in which a type variable is replaced by its erasure. -/
def erasedChars : FieldType → List Char
  | .base b => [b.letter]
  | .object c => c.name.descriptorChars
  | .array element => '[' :: element.erasedChars
  | .typeVariable _ erased => erased.descriptorChars

/-- The generic signature of a type. -/
def signature (t : FieldType) : String :=
  String.ofList t.signatureChars

/-- The erased signature of a type. -/
def erasedSignature (t : FieldType) : String :=
  String.ofList t.erasedChars

/-- The erased form of a type is that of its erasure. -/
@[simp]
theorem erasedChars_erasure (t : FieldType) : t.erasure.erasedChars = t.erasedChars := by
  fun_induction erasure t <;> simp_all [erasedChars, ofName, ClassType.name]

/-- The erased form of a type is the signature of its erasure. -/
@[simp]
theorem signatureChars_erasure (t : FieldType) : t.erasure.signatureChars = t.erasedChars := by
  fun_induction erasure t <;>
    simp_all [erasedChars, signatureChars, ofName, ClassType.name, ClassType.bodyChars,
      TypeArgument.bracketedChars, BinaryName.descriptorChars]

end FieldType

/-! ## Lists of types -/

/-- The signatures of some types, one after the other. -/
def FieldType.listSignatureChars (ts : List FieldType) : List Char :=
  ts.flatMap FieldType.signatureChars

/-- The erased signatures of some types, one after the other. -/
def FieldType.listErasedChars (ts : List FieldType) : List Char :=
  ts.flatMap FieldType.erasedChars

/-- A return type, where the absence of one is written as {lit}`V`. -/
def FieldType.returnSignatureChars : Option FieldType → List Char
  | none => ['V']
  | some t => t.signatureChars

/-- An erased return type, where the absence of one is written as {lit}`V`. -/
def FieldType.returnErasedChars : Option FieldType → List Char
  | none => ['V']
  | some t => t.erasedChars

end JvmMethods
