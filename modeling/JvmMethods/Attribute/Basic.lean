import JvmMethods.Attribute.Code
import JvmMethods.FieldType.Signature

/-!
# Attributes

What a class file says about a method stands in attributes.  Code and declared exceptions are
decoded, and every other attribute is kept as the bytes it consists of.  Code has attributes of its
own.

Main results:

- Theorem {lit}`Attribute.presentTypes_map_some`: nothing is missing from a list of present types.
- Theorem {lit}`Attribute.size_exceptions`: declared exceptions take up two bytes each, after a
  count.
-/

namespace JvmMethods

/-- An attribute of a method or of its code. -/
inductive Attribute where
  /-- Code, with attributes that describe it. -/
  | code (code : Code) (nested : List Attribute)
  /-- The checked exceptions that a method declares. -/
  | exceptions (types : List FieldType)
  /-- Any other attribute, undecoded. -/
  | raw (name : String) (info : Bytes)

/-- The code attribute of a method: its code with the attributes that describe it. -/
structure CodeAttribute extends Code where
  attributes : List Attribute

namespace Attribute

/-- The name of attributes that hold code. -/
def codeName : String :=
  "Code"

/-- The name of attributes that declare exceptions. -/
def exceptionsName : String :=
  "Exceptions"

/-- The name of an attribute. -/
def name : Attribute → String
  | .code _ _ => codeName
  | .exceptions _ => exceptionsName
  | .raw name _ => name

/-- The number of bytes of an attribute after its header, in which names and lengths stand.  Four
bytes are what a length has, so it is taken modulo their range. -/
def size : Attribute → Nat
  | .code c _ => c.size
  | .exceptions types => 2 * (1 + types.length) % 4294967296
  | .raw _ info => info.length % 4294967296

/-- The types of a list, of which none may be missing.  The first one has the given index. -/
def presentTypes (index : Nat) : List (Option FieldType) → Except Error (List FieldType)
  | [] => .ok []
  | none :: _ => .error (.missingExceptionType index)
  | some t :: rest => (presentTypes (index + 1) rest).map (t :: ·)

/-- Declared exceptions whose types may be missing, which is refused. -/
def ofOptionalTypes (types : List (Option FieldType)) : Except Error Attribute :=
  (presentTypes 0 types).map .exceptions

/-- Some exception types as messages list them. -/
def describeTypes (types : List FieldType) : String :=
  String.intercalate ", " <| types.map fun
    | .object c => c.name.text
    | t => t.erasedSignature

/-- Nothing is missing from a list of present types. -/
@[simp]
theorem presentTypes_map_some (index : Nat) (types : List FieldType) :
    presentTypes index (types.map some) = .ok types := by
  induction types generalizing index with
  | nil => rfl
  | cons t types ih => simp [presentTypes, ih, Except.map]

/-- Declared exceptions take up two bytes each, after their count, which has two bytes as well. -/
theorem size_exceptions {types : List FieldType} (h : types.length ≤ 65535) :
    (Attribute.exceptions types).size = 2 + 2 * types.length := by
  simp only [size]
  omega

end Attribute
end JvmMethods
