import JvmMethods.Attribute.Basic
import JvmMethods.Method.AccessFlags
import JvmMethods.Method.Reference

/-!
# Method definitions

A method definition is assembled from what a class file says about a method.  The descriptor decides
how many parameters there are.  The generic signature is used unless it lists another number of
them, which happens for the synthetic parameters of some constructors.  Thrown types are taken from
the generic signature, or else from the first attribute that declares any.

The code attribute becomes the body of the method.  Abstract and native methods accept a shell only.

Main results:

- Theorem {lit}`MethodDefinition.withBody_eq_ok_iff`: which bodies a method accepts.
- Theorem {lit}`MethodDefinition.erasedSignature_ofSignature`: a definition has the descriptor of
  the signature it was made from.
-/

namespace JvmMethods

/-- A method that a class or interface declares. -/
structure MethodDefinition where
  declaringType : FieldType
  name : UnqualifiedName
  accessFlags : AccessFlags
  parameters : List Parameter
  returnType : Option FieldType
  typeParameters : List TypeParameter
  thrownTypes : List FieldType
  body : Option CodeAttribute
  /-- The attributes other than the code. -/
  attributes : List Attribute

/-- What a class file says about a method. -/
structure MethodInfo where
  name : String
  accessFlags : AccessFlags
  descriptor : String
  signature : Option String
  attributes : List Attribute

namespace MethodDefinition

/-- The reference that a definition resolves. -/
def toReference (m : MethodDefinition) : MethodReference :=
  ⟨some m.declaringType, m.name, m.parameters, m.returnType, m.typeParameters⟩

/-- The method descriptor. -/
def erasedSignature (m : MethodDefinition) : String :=
  m.toReference.erasedSignature

/-- The method as messages name it. -/
def fullName (m : MethodDefinition) : String :=
  m.toReference.fullName

/-- Is there code to work on? -/
def hasCode (m : MethodDefinition) : Bool :=
  m.body.any fun body => body.hasCode

/-- A definition without attributes. -/
def ofSignature (declaringType : FieldType) (name : UnqualifiedName) (flags : AccessFlags)
    (signature : MethodSignature) : MethodDefinition :=
  ⟨declaringType, name, flags, Parameter.ofTypes signature.parameters, signature.returnType,
    signature.typeParameters, signature.thrownTypes, none, []⟩

/-- Attach a body.  Abstract and native methods accept a shell only. -/
def withBody (m : MethodDefinition) (body : CodeAttribute) : Except Error MethodDefinition :=
  if body.hasCode ∧ ¬ m.accessFlags.expectsBody then
    .error (.codeNotAllowed (m.accessFlags.has .isNative) m.fullName)
  else .ok { m with body := some body }

/-- A method accepts any shell, and code unless it is abstract or native. -/
theorem withBody_eq_ok_iff {m n : MethodDefinition} {body : CodeAttribute} :
    m.withBody body = .ok n ↔
      (body.hasCode = true → m.accessFlags.expectsBody = true) ∧
        n = { m with body := some body } := by
  unfold withBody
  split
  · rename_i h
    simp [h]
  · rename_i h
    constructor
    · intro hok
      cases hok
      exact ⟨by simpa using h, rfl⟩
    · rintro ⟨-, rfl⟩
      rfl

/-- A definition has the descriptor of the signature that it was made from. -/
@[simp]
theorem erasedSignature_ofSignature (declaringType : FieldType) (name : UnqualifiedName)
    (flags : AccessFlags) (signature : MethodSignature) :
    (ofSignature declaringType name flags signature).erasedSignature =
      signature.erasedSignature :=
  MethodReference.erasedSignature_ofSignature (some declaringType) name signature

/-! ## Attributes of a method -/

/-- What the attributes seen so far contribute to a method. -/
structure Contribution where
  body : Option CodeAttribute
  thrownTypes : List FieldType
  attributes : List Attribute

/-- Take one more attribute into account.  A method has no more than one body. -/
def Contribution.add (name : UnqualifiedName) (c : Contribution) :
    Attribute → Except Error Contribution
  | .code code nested =>
      match c.body with
      | none => .ok { c with body := some ⟨code, nested⟩ }
      | some _ => .error (.duplicateCode name)
  | .exceptions types =>
      .ok { c with
        thrownTypes := if c.thrownTypes.isEmpty then types else c.thrownTypes
        attributes := c.attributes ++ [.exceptions types] }
  | .raw rawName info => .ok { c with attributes := c.attributes ++ [.raw rawName info] }

/-- What some attributes contribute to a method with the given thrown types. -/
def contribution (name : UnqualifiedName) (thrownTypes : List FieldType)
    (attributes : List Attribute) : Except Error Contribution :=
  attributes.foldlM (Contribution.add name) ⟨none, thrownTypes, []⟩

/-! ## Class files -/

/-- The signature to use for a method: the generic one, unless it disagrees with the descriptor. -/
def chooseSignature (scope : List TypeParameter) (name : UnqualifiedName) (descriptor : String)
    (erased : MethodSignature) : Option String → Logged Error MethodSignature
  | none => return erased
  | some generic => do
      let parsed ← MethodSignature.parse generic scope
      if parsed.parameters.length = erased.parameters.length then return parsed
      Logged.note .debug ("Signature '" ++ generic ++ "' of " ++ name.text ++
        " does not match descriptor '" ++ descriptor ++ "', using descriptor")
      return { erased with thrownTypes := parsed.thrownTypes }

/-- Assemble a method that {lit}`declaringType` declares, in the scope of its type parameters. -/
def ofInfo (declaringType : FieldType) (scope : List TypeParameter) (info : MethodInfo) :
    Logged Error MethodDefinition := do
  let name ← Logged.ofExcept ((UnqualifiedName.ofString info.name).mapError .invalidName)
  let erased ← MethodSignature.parseDescriptor info.descriptor
  let signature ← chooseSignature scope name info.descriptor erased info.signature
  let c ← Logged.ofExcept (contribution name signature.thrownTypes info.attributes)
  let m := { ofSignature declaringType name info.accessFlags signature with
    thrownTypes := c.thrownTypes
    attributes := c.attributes }
  match c.body with
  | some body => Logged.ofExcept (m.withBody body)
  | none =>
      if m.accessFlags.expectsBody then
        Logged.note .warning ("Method " ++ m.fullName ++ " has no Code attribute")
      return m

end MethodDefinition
end JvmMethods
