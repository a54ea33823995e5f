import JvmMethods.Signature.Parser

/-!
# Method references

Whatever identifies a method has a name, parameters, a return type and, unless it floats freely, the
type that declares it.  Methods are dispatched on their names and their erased signatures, so
methods that differ in generics alone are one to the virtual machine.

Main results:

- Theorem {lit}`Parameter.type_ofTypes`: parameters keep their types in order.
- Theorem {lit}`MethodReference.erasedSignature_ofSignature`: a reference has the descriptor of the
  signature it was made from.
-/

namespace JvmMethods

/-- A parameter of a method, with its index in the parameter list. -/
structure Parameter where
  position : Nat
  type : FieldType
deriving DecidableEq

/-- Parameters of the given types, numbered from zero. -/
def Parameter.ofTypes (types : List FieldType) : List Parameter :=
  types.zipIdx.map fun (type, position) => ⟨position, type⟩

/-- Parameters keep their types in order. -/
@[simp]
theorem Parameter.type_ofTypes (types : List FieldType) :
    (Parameter.ofTypes types).map Parameter.type = types := by
  simp [Parameter.ofTypes, List.map_map, Function.comp_def]

/-- What identifies a method.  A reference without a declaring type cannot be resolved. -/
structure MethodReference where
  declaringType : Option FieldType
  name : UnqualifiedName
  parameters : List Parameter
  returnType : Option FieldType
  typeParameters : List TypeParameter
deriving DecidableEq

namespace MethodReference

/-- A reference to a method with the given signature.  References say nothing of thrown types. -/
def ofSignature (declaringType : Option FieldType) (name : UnqualifiedName)
    (signature : MethodSignature) : MethodReference :=
  ⟨declaringType, name, Parameter.ofTypes signature.parameters, signature.returnType,
    signature.typeParameters⟩

/-- A reference to a method with the given descriptor. -/
def ofDescriptor (declaringType : Option FieldType) (name descriptor : String) :
    Logged Error MethodReference := do
  let name ← Logged.ofExcept ((UnqualifiedName.ofString name).mapError .invalidName)
  let signature ← MethodSignature.parseDescriptor descriptor
  return ofSignature declaringType name signature

/-- Does the method have parameters? -/
def hasParameters (r : MethodReference) : Bool :=
  !r.parameters.isEmpty

/-- Does the method have type parameters of its own? -/
def isGeneric (r : MethodReference) : Bool :=
  !r.typeParameters.isEmpty

/-- Is the method an instance initializer? -/
def isConstructor (r : MethodReference) : Bool :=
  r.name = .constructor

/-- Is the method a class initializer? -/
def isTypeInitializer (r : MethodReference) : Bool :=
  r.name = .typeInitializer

/-- The parameter types and the return type as generic signatures write them. -/
def signatureChars (r : MethodReference) : List Char :=
  '(' :: (FieldType.listSignatureChars (r.parameters.map Parameter.type) ++
    ')' :: FieldType.returnSignatureChars r.returnType)

/-- The parameter types and the return type, all of them erased. -/
def erasedChars (r : MethodReference) : List Char :=
  '(' :: (FieldType.listErasedChars (r.parameters.map Parameter.type) ++
    ')' :: FieldType.returnErasedChars r.returnType)

/-- The parameter types and the return type as generic signatures write them. -/
def signature (r : MethodReference) : String :=
  String.ofList r.signatureChars

/-- The method descriptor, which the method is dispatched on. -/
def erasedSignature (r : MethodReference) : String :=
  String.ofList r.erasedChars

/-- The class that declares the method. -/
def owner (r : MethodReference) : Option BinaryName :=
  r.declaringType.bind FieldType.erasedClassName

/-- The method as messages name it: its owner if it has one, its name and its descriptor. -/
def fullName (r : MethodReference) : String :=
  (match r.owner with
    | some owner => owner.text ++ "."
    | none => "") ++ r.name.text ++ r.erasedSignature

/-- A reference has the descriptor of the signature that it was made from. -/
theorem erasedSignature_ofSignature (declaringType : Option FieldType) (name : UnqualifiedName)
    (signature : MethodSignature) :
    (ofSignature declaringType name signature).erasedSignature = signature.erasedSignature := by
  simp [ofSignature, erasedSignature, erasedChars, MethodSignature.erasedSignature,
    MethodSignature.erasedChars]

end MethodReference
end JvmMethods
