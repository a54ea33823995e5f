import JvmMethods.Signature.Parser

/-!
# Constant pools

Attributes name things by their indices into the constant pool of their class file.  Decoding needs
only two kinds of constants from a pool: texts, and classes, which refer to the texts they are named
by.

Main results:

- Theorem {lit}`ConstantPool.ofConstants_utf8_eq_ok_iff`: a pool holds a text exactly where its list
  of constants does, counted from one.
-/

namespace JvmMethods

/-- What the decoder of attributes asks a constant pool for. -/
structure ConstantPool where
  /-- The text at an index. -/
  utf8 : Nat → Except Error String
  /-- The type that the class at an index names. -/
  classType : Nat → Logged Error FieldType

/-- A constant that attributes can refer to. -/
inductive Constant where
  | utf8 (text : String)
  | classRef (nameIndex : Nat)
deriving DecidableEq, Repr

namespace ConstantPool

/-- The constant at an index, of which the first is one. -/
def constant? (constants : List Constant) : Nat → Option Constant
  | 0 => none
  | i + 1 => constants[i]?

/-- The text at an index of a list of constants. -/
def utf8At (constants : List Constant) (index : Nat) : Except Error String :=
  match constant? constants index with
  | some (.utf8 text) => .ok text
  | _ => .error (.notUtf8 index)

/-- The type that the class at an index of a list of constants names. -/
def classAt (constants : List Constant) (index : Nat) : Logged Error FieldType :=
  match constant? constants index with
  | some (.classRef nameIndex) => do
      let text ← Logged.ofExcept (utf8At constants nameIndex)
      FieldType.parseClassConstant text
  | _ => throw (.notClass index)

/-- The pool with the given constants. -/
def ofConstants (constants : List Constant) : ConstantPool :=
  ⟨utf8At constants, classAt constants⟩

/-- A text is found exactly under the index of that text. -/
theorem ofConstants_utf8_eq_ok_iff {constants : List Constant} {index : Nat} {text : String} :
    (ofConstants constants).utf8 index = .ok text ↔
      constant? constants index = some (.utf8 text) := by
  simp only [ofConstants, utf8At]
  split <;> simp_all

end ConstantPool
end JvmMethods
