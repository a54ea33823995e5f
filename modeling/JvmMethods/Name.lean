/-!
# Names in class files

Class files name things in two forms.  An unqualified name belongs to a method or a type variable
and may not contain any of the characters that delimit descriptors and signatures.  A binary name
belongs to a class: unqualified names joined by {lit}`/`, such as {lit}`java/lang/Object`.  The two
names reserved for initialization are the only unqualified names with angle brackets.

Main results:

- Theorem {lit}`UnqualifiedName.ofString_text`: a name passes its own check, so reading back its
  text gives the same name.
- Theorem {lit}`UnqualifiedName.ofString_eq_ok_iff`: a text is accepted exactly when it is the text
  of a name.
- Theorem {lit}`BinaryName.ofString_eq_ok_iff`: an accepted binary name is the text it was read
  from.
-/

namespace JvmMethods

/-- Why a text is not a name.  The offending text is kept for the message. -/
inductive NameFault where
  | illegalUnqualified (text : String)
  | emptyUnqualified
  | emptyBinary
  | illegalBinary (text : String)
deriving DecidableEq, Repr

/-- The message for a refused name. -/
def NameFault.message : NameFault → String
  | .illegalUnqualified text => "Unqualified name '" ++ text ++ "' contains an illegal character"
  | .emptyUnqualified => "Unqualified name '' is empty"
  | .emptyBinary => "Binary name '' is empty"
  | .illegalBinary text => "Binary name '" ++ text ++ "' contains an illegal character"

/-! ## Unqualified names -/

namespace UnqualifiedName

/-- The characters that delimit descriptors and signatures. -/
def isDelimiter (c : Char) : Bool :=
  c = '.' || c = ';' || c = '[' || c = '/' || c = '<' || c = '>'

/-- The texts reserved for instance and class initialization. -/
def isReserved (text : String) : Bool :=
  text = "<init>" || text = "<clinit>"

/-- Accept the reserved names, and every nonempty text without delimiters. -/
def check (text : String) : Except NameFault Unit :=
  if isReserved text then .ok ()
  else if text.toList.any isDelimiter then .error (.illegalUnqualified text)
  else if text = "" then .error .emptyUnqualified
  else .ok ()

end UnqualifiedName

/-- The name of a method or a type variable. -/
structure UnqualifiedName where
  text : String
  valid : UnqualifiedName.check text = .ok ()
deriving DecidableEq

namespace UnqualifiedName

/-- Names are the same if they are spelled alike. -/
@[ext]
theorem ext {m n : UnqualifiedName} (h : m.text = n.text) : m = n := by
  cases m
  cases n
  simp_all

/-- Check a text and make it a name. -/
def ofString (text : String) : Except NameFault UnqualifiedName :=
  match h : check text with
  | .ok () => .ok ⟨text, h⟩
  | .error fault => .error fault

/-- The text of a name passes the check again, and gives the same name. -/
@[simp]
theorem ofString_text (n : UnqualifiedName) : ofString n.text = .ok n := by
  unfold ofString
  split
  · rfl
  · rename_i h
    simp [n.valid] at h

/-- A name is spelled as the text that it was made from. -/
theorem text_of_ofString {text : String} {n : UnqualifiedName} (h : ofString text = .ok n) :
    n.text = text := by
  unfold ofString at h
  split at h
  · cases h
    rfl
  · cases h

/-- A text is accepted as a name exactly if it is the text of one. -/
theorem ofString_eq_ok_iff {text : String} {n : UnqualifiedName} :
    ofString text = .ok n ↔ n.text = text :=
  ⟨text_of_ofString, fun h => h ▸ ofString_text n⟩

/-- The name of instance initializers. -/
def constructor : UnqualifiedName :=
  ⟨"<init>", rfl⟩

/-- The name of class initializers. -/
def typeInitializer : UnqualifiedName :=
  ⟨"<clinit>", rfl⟩

/-- The names reserved for initialization are special: such methods are never inherited. -/
def isSpecial (n : UnqualifiedName) : Bool :=
  n = constructor || n = typeInitializer

end UnqualifiedName

/-! ## Binary names -/

/-- The name of a class or interface.

Class files can join inner names to a class name without any check, so a binary name need not have
passed {lit}`BinaryName.check`. -/
structure BinaryName where
  text : String
deriving DecidableEq, Repr

namespace BinaryName

/-- Names are the same if they are spelled alike. -/
@[ext]
theorem ext {m n : BinaryName} (h : m.text = n.text) : m = n := by
  cases m
  cases n
  simp_all

/-- The pieces of a text between its slashes, of which there is at least one. -/
def segments : List Char → List (List Char)
  | [] => [[]]
  | c :: cs =>
      if c = '/' then [] :: segments cs
      else
        match segments cs with
        | [] => [[c]]
        | s :: rest => (c :: s) :: rest

/-- Accept nonempty texts without angle brackets whose segments are all unqualified names. -/
def check (text : String) : Except NameFault Unit :=
  if text = "" then .error .emptyBinary
  else if text.toList.any (fun c => c = '<' || c = '>') then .error (.illegalBinary text)
  else (segments text.toList).forM fun s => UnqualifiedName.check (String.ofList s)

/-- Check a text and make it a name. -/
def ofString (text : String) : Except NameFault BinaryName := do
  check text
  return ⟨text⟩

/-- A text is accepted as a name exactly if it passes the check, and spells that name. -/
theorem ofString_eq_ok_iff {text : String} {n : BinaryName} :
    ofString text = .ok n ↔ check text = .ok () ∧ n.text = text := by
  unfold ofString
  cases h : check text with
  | error fault => simp [bind, Except.bind]
  | ok u =>
      constructor
      · intro hok
        cases hok
        exact ⟨rfl, rfl⟩
      · rintro ⟨-, rfl⟩
        rfl

/-- The class called {lit}`inner` inside this one. -/
def nested (outer : BinaryName) (inner : String) : BinaryName :=
  ⟨outer.text ++ "$" ++ inner⟩

/-- The root of the class hierarchy, which stands in wherever nothing more precise is known. -/
def object : BinaryName :=
  ⟨"java/lang/Object"⟩

instance : LE BinaryName :=
  ⟨fun m n => m.text ≤ n.text⟩

instance : DecidableLE BinaryName :=
  fun m n => inferInstanceAs (Decidable (m.text ≤ n.text))

/-- Names in ascending order of their texts. -/
def sort (names : List BinaryName) : List BinaryName :=
  names.mergeSort fun m n => decide (m ≤ n)

end BinaryName
end JvmMethods
