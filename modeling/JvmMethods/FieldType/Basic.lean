import JvmMethods.Name

/-!
# Field types

A field type is what a field, a parameter, a return value or a thrown exception can have: a base
type, a class or interface, an array, or a use of a type variable.  A class may be applied to type
arguments, and may be selected out of an enclosing class that is itself applied to arguments.

A use of a type variable carries the class it erases to.  Were it to carry its bounds instead, a
bound that mentions its own variable would make the type infinite.

Main results:

- Instance {lit}`DecidableEq FieldType`: types are compared by structure.
- Theorem {lit}`FieldType.erasure_erasure`: erasing a second time changes nothing.
- Theorem {lit}`FieldType.erasedClassName_erasure`: member lookup starts from the same class before
  and after erasure.
-/

namespace JvmMethods

/-! ## Base types -/

/-- The primitive value types. -/
inductive BaseType where
  | byte
  | char
  | double
  | float
  | int
  | long
  | short
  | boolean
deriving DecidableEq, Repr

namespace BaseType

/-- The letter that stands for a base type in descriptors. -/
def letter : BaseType → Char
  | .byte => 'B'
  | .char => 'C'
  | .double => 'D'
  | .float => 'F'
  | .int => 'I'
  | .long => 'J'
  | .short => 'S'
  | .boolean => 'Z'

/-- The base type a letter stands for. -/
def ofLetter? : Char → Option BaseType
  | 'B' => some .byte
  | 'C' => some .char
  | 'D' => some .double
  | 'F' => some .float
  | 'I' => some .int
  | 'J' => some .long
  | 'S' => some .short
  | 'Z' => some .boolean
  | _ => none

/-- The name of a base type, as messages spell it. -/
def label : BaseType → String
  | .byte => "Byte"
  | .char => "Char"
  | .double => "Double"
  | .float => "Float"
  | .int => "Int"
  | .long => "Long"
  | .short => "Short"
  | .boolean => "Boolean"

/-- The letter of a base type is read as that type. -/
@[simp]
theorem ofLetter?_letter (b : BaseType) : ofLetter? b.letter = some b := by
  cases b <;> rfl

/-- A base type is written as the letter that it was read from. -/
theorem letter_of_ofLetter? {c : Char} {b : BaseType} (h : ofLetter? c = some b) :
    b.letter = c := by
  unfold ofLetter? at h
  split at h <;> cases h <;> rfl

end BaseType

/-! ## Types and type arguments -/

/-- How a type argument restricts the type it mentions. -/
inductive Variance where
  /-- The argument is the type itself. -/
  | exact
  /-- The argument is some subtype of the type. -/
  | upper
  /-- The argument is some supertype of the type. -/
  | lower
deriving DecidableEq, Repr

mutual

/-- The type of a field, a parameter, a return value or a thrown exception. -/
inductive FieldType where
  | base (type : BaseType)
  | object (type : ClassType)
  | array (element : FieldType)
  | typeVariable (name : UnqualifiedName) (erasure : BinaryName)

/-- A class or interface with its type arguments.

An inner class keeps its full binary name beside the class it is selected from. -/
inductive ClassType where
  | named (name : BinaryName) (arguments : List TypeArgument)
  | inner (outer : ClassType) (name : BinaryName) (arguments : List TypeArgument)

/-- An argument to a generic class. -/
inductive TypeArgument where
  | wildcard
  | bounded (variance : Variance) (type : FieldType)

end

namespace ClassType

/-- The full binary name of a class, whatever it is selected from. -/
def name : ClassType → BinaryName
  | .named name _ => name
  | .inner _ name _ => name

/-- The type arguments a class is directly applied to. -/
def arguments : ClassType → List TypeArgument
  | .named _ arguments => arguments
  | .inner _ _ arguments => arguments

/-- The class an inner class is selected from. -/
def outer? : ClassType → Option ClassType
  | .named _ _ => none
  | .inner outer _ _ => some outer

/-- Does the class, or any class it is selected from, have type arguments? -/
def isGeneric : ClassType → Bool
  | .named _ arguments => !arguments.isEmpty
  | .inner outer _ arguments => !arguments.isEmpty || outer.isGeneric

end ClassType

namespace FieldType

/-- A class without type arguments. -/
def ofName (name : BinaryName) : FieldType :=
  .object (.named name [])

/-- The same type with all generic information removed. -/
def erasure : FieldType → FieldType
  | .base b => .base b
  | .object c => .ofName c.name
  | .array element => .array element.erasure
  | .typeVariable _ erased => .ofName erased

/-- Does the type mention type arguments or type variables anywhere? -/
def isGeneric : FieldType → Bool
  | .base _ => false
  | .object c => c.isGeneric
  | .array element => element.isGeneric
  | .typeVariable _ _ => true

/-- The class that a member lookup starts from.

Arrays only have the members they inherit from the root class, and base types have none. -/
def erasedClassName : FieldType → Option BinaryName
  | .base _ => none
  | .object c => some c.name
  | .array _ => some .object
  | .typeVariable _ erased => some erased

/-- Nothing is left to erase of an erased type. -/
@[simp]
theorem erasure_erasure (t : FieldType) : t.erasure.erasure = t.erasure := by
  fun_induction erasure t <;> simp_all [erasure, ofName, ClassType.name]

/-- A type and its erasure have the same members. -/
@[simp]
theorem erasedClassName_erasure (t : FieldType) :
    t.erasure.erasedClassName = t.erasedClassName := by
  cases t <;> rfl

end FieldType

/-! ## Equality by structure -/

mutual

/-- Are the two types the same? -/
def FieldType.same : FieldType → FieldType → Bool
  | .base a, .base b => a = b
  | .object a, .object b => a.same b
  | .array a, .array b => a.same b
  | .typeVariable m d, .typeVariable n e => m = n && d = e
  | _, _ => false

/-- Are the two classes the same? -/
def ClassType.same : ClassType → ClassType → Bool
  | .named m as, .named n bs => m = n && TypeArgument.sameList as bs
  | .inner a m as, .inner b n bs => a.same b && m = n && TypeArgument.sameList as bs
  | _, _ => false

/-- Are the two arguments the same? -/
def TypeArgument.same : TypeArgument → TypeArgument → Bool
  | .wildcard, .wildcard => true
  | .bounded v a, .bounded w b => v = w && a.same b
  | _, _ => false

/-- Are the two lists of arguments the same? -/
def TypeArgument.sameList : List TypeArgument → List TypeArgument → Bool
  | [], [] => true
  | a :: as, b :: bs => a.same b && TypeArgument.sameList as bs
  | _, _ => false

end

mutual

/-- The comparison of types decides their equality. -/
theorem FieldType.same_iff : ∀ {a b : FieldType}, a.same b = true ↔ a = b
  | .base _, b => by cases b <;> simp [FieldType.same]
  | .object c, b => by
      cases b <;> simp [FieldType.same]
      exact ClassType.same_iff
  | .array e, b => by
      cases b <;> simp [FieldType.same]
      exact FieldType.same_iff
  | .typeVariable _ _, b => by cases b <;> simp [FieldType.same]

/-- The comparison of class types decides their equality. -/
theorem ClassType.same_iff : ∀ {a b : ClassType}, a.same b = true ↔ a = b
  | .named _ as, b => by
      cases b <;> simp [ClassType.same]
      intro _
      exact TypeArgument.sameList_iff
  | .inner o _ as, b => by
      cases b with
      | named => simp [ClassType.same]
      | inner o' n' bs =>
          simp only [ClassType.same, Bool.and_eq_true, decide_eq_true_eq, ClassType.inner.injEq,
            @ClassType.same_iff o, @TypeArgument.sameList_iff as, and_assoc]

/-- The comparison of type arguments decides their equality. -/
theorem TypeArgument.same_iff : ∀ {a b : TypeArgument}, a.same b = true ↔ a = b
  | .wildcard, b => by cases b <;> simp [TypeArgument.same]
  | .bounded _ t, b => by
      cases b <;> simp [TypeArgument.same]
      intro _
      exact FieldType.same_iff

/-- The comparison of lists of type arguments decides their equality. -/
theorem TypeArgument.sameList_iff :
    ∀ {as bs : List TypeArgument}, TypeArgument.sameList as bs = true ↔ as = bs
  | [], bs => by cases bs <;> simp [TypeArgument.sameList]
  | a :: as, bs => by
      cases bs with
      | nil => simp [TypeArgument.sameList]
      | cons b bs =>
          simp only [TypeArgument.sameList, Bool.and_eq_true, List.cons.injEq,
            @TypeArgument.same_iff a, @TypeArgument.sameList_iff as]

end

instance : DecidableEq FieldType :=
  fun _ _ => decidable_of_iff _ FieldType.same_iff

instance : DecidableEq ClassType :=
  fun _ _ => decidable_of_iff _ ClassType.same_iff

instance : DecidableEq TypeArgument :=
  fun _ _ => decidable_of_iff _ TypeArgument.same_iff

end JvmMethods
