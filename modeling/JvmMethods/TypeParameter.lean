import JvmMethods.FieldType.Signature

/-!
# Type parameters

Classes and methods declare type parameters with bounds: at most one class bound, then any number of
interface bounds.  A parameter erases to the class that its leftmost bound erases to.

Main results:

- Theorem {lit}`TypeParameter.unbounded_erasure`: a parameter without restrictions erases to the
  root class.
- Theorem {lit}`TypeParameter.asType_erasedClassName`: a use of a parameter erases as the parameter
  does.
-/

namespace JvmMethods

/-- The declaration of a type parameter. -/
structure TypeParameter where
  name : UnqualifiedName
  classBound : Option FieldType
  interfaceBounds : List FieldType
deriving DecidableEq

namespace TypeParameter

/-- A parameter bounded by the root class only. -/
def unbounded (name : UnqualifiedName) : TypeParameter :=
  ⟨name, some (.ofName .object), []⟩

/-- All bounds, the class bound first. -/
def bounds (p : TypeParameter) : List FieldType :=
  p.classBound.toList ++ p.interfaceBounds

/-- The class that the leftmost bound erases to, or the root class if there is none. -/
def erasure (p : TypeParameter) : BinaryName :=
  (p.bounds.head?.bind FieldType.erasedClassName).getD .object

/-- A use of the parameter as a type. -/
def asType (p : TypeParameter) : FieldType :=
  .typeVariable p.name p.erasure

/-- The declaration as generic signatures write it. -/
def signatureChars (p : TypeParameter) : List Char :=
  p.name.text.toList ++ ':' :: (p.classBound.toList.flatMap FieldType.signatureChars ++
    p.interfaceBounds.flatMap fun bound => ':' :: bound.signatureChars)

/-- The declaration as generic signatures write it. -/
def signature (p : TypeParameter) : String :=
  String.ofList p.signatureChars

/-- Type parameters vanish under erasure. -/
def erasedSignature (_ : TypeParameter) : String :=
  ""

/-- Without bounds a type parameter erases to the root class. -/
@[simp]
theorem unbounded_erasure (name : UnqualifiedName) : (unbounded name).erasure = .object :=
  rfl

/-- The variable of a type parameter erases to the erasure of the parameter. -/
@[simp]
theorem asType_erasedClassName (p : TypeParameter) :
    p.asType.erasedClassName = some p.erasure :=
  rfl

end TypeParameter
end JvmMethods
