import JvmMethods.TypeParameter

/-!
# Method signatures

A method signature lists type parameters, parameter types, a return type and thrown types.  A method
descriptor is the signature of a method that has only parameter types and a return type, all of them
without generics.

Main results:

- Theorem {lit}`MethodSignature.erasedChars_erasure` and
  {lit}`MethodSignature.signatureChars_erasure`: the erasure of a signature is written as the
  signature's descriptor.
-/

namespace JvmMethods

/-- The types of a method.  A method without a return type returns nothing. -/
structure MethodSignature where
  typeParameters : List TypeParameter
  parameters : List FieldType
  returnType : Option FieldType
  thrownTypes : List FieldType
deriving DecidableEq

namespace MethodSignature

/-- The type parameters in their brackets, which an empty list does without. -/
def typeParametersChars : List TypeParameter → List Char
  | [] => []
  | ps => '<' :: (ps.flatMap TypeParameter.signatureChars ++ ['>'])

/-- The generic signature of a method. -/
def signatureChars (s : MethodSignature) : List Char :=
  typeParametersChars s.typeParameters ++
    '(' :: (FieldType.listSignatureChars s.parameters ++
      ')' :: (FieldType.returnSignatureChars s.returnType ++
        s.thrownTypes.flatMap fun t => '^' :: t.signatureChars))

/-- The method descriptor: parameter types and return type, all of them erased. -/
def erasedChars (s : MethodSignature) : List Char :=
  '(' :: (FieldType.listErasedChars s.parameters ++
    ')' :: FieldType.returnErasedChars s.returnType)

/-- The generic signature of a method. -/
def signature (s : MethodSignature) : String :=
  String.ofList s.signatureChars

/-- The method descriptor. -/
def erasedSignature (s : MethodSignature) : String :=
  String.ofList s.erasedChars

/-- Does the signature say anything that a method descriptor cannot say? -/
def isGeneric (s : MethodSignature) : Bool :=
  !s.typeParameters.isEmpty || !s.thrownTypes.isEmpty ||
    s.parameters.any FieldType.isGeneric || s.returnType.any FieldType.isGeneric

/-- The signature with all generic information removed. -/
def erasure (s : MethodSignature) : MethodSignature :=
  ⟨[], s.parameters.map FieldType.erasure, s.returnType.map FieldType.erasure, []⟩

/-- The erased form of a signature is that of its erasure. -/
@[simp]
theorem erasedChars_erasure (s : MethodSignature) : s.erasure.erasedChars = s.erasedChars := by
  cases hr : s.returnType <;>
    simp [erasure, erasedChars, FieldType.listErasedChars, FieldType.returnErasedChars,
      List.flatMap_map, hr]

/-- The erased form of a signature is the signature of its erasure. -/
@[simp]
theorem signatureChars_erasure (s : MethodSignature) :
    s.erasure.signatureChars = s.erasedChars := by
  cases hr : s.returnType <;>
    simp [erasure, signatureChars, erasedChars, typeParametersChars, FieldType.listErasedChars,
      FieldType.listSignatureChars, FieldType.returnErasedChars, FieldType.returnSignatureChars,
      List.flatMap_map, hr]

end MethodSignature
end JvmMethods
