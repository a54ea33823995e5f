import JvmMethods.Method.Definition
import JvmMethods.Tracked

/-!
# Class graphs

A class graph holds classes and interfaces by name, with the links between them and the methods that
they declare.  Classes are added after their supertypes.  Nothing is ever removed or replaced: a
class that is there already stays as it is, and so does a method that is dispatched on the same name
and descriptor.

Main results:

- Theorems {lit}`ClassGraph.lookup_modify_same` and {lit}`ClassGraph.lookup_modify_of_ne`: a change
  to one class leaves the others alone.
- Theorem {lit}`ClassGraph.addClass_existing`: adding a class that is there already changes nothing.
-/

namespace JvmMethods

/-- A class or interface with the methods that it declares.  Only the root class lacks a
superclass. -/
structure ClassEntry where
  name : BinaryName
  superclass : Option BinaryName
  interfaces : List BinaryName
  isInterface : Bool
  typeParameters : List TypeParameter
  methods : List MethodDefinition

namespace ClassEntry

/-- The type of the instances of a class, without its type arguments. -/
def asType (c : ClassEntry) : FieldType :=
  .ofName c.name

/-- Is this the method that is dispatched on the given name and descriptor? -/
def dispatches (name : UnqualifiedName) (erasedSignature : String) (m : MethodDefinition) : Bool :=
  decide (m.name = name ∧ m.erasedSignature = erasedSignature)

/-- The method of the class that is dispatched on the given name and descriptor. -/
def declared? (c : ClassEntry) (name : UnqualifiedName) (erasedSignature : String) :
    Option MethodDefinition :=
  c.methods.find? (dispatches name erasedSignature)

/-- A summary of a class. -/
def describe (c : ClassEntry) : String :=
  let superclass :=
    match c.superclass with
    | some name => "Some(" ++ name.text ++ ")"
    | none => "None"
  "ClassData \x7b name: " ++ c.name.text ++ ", superclass: " ++ superclass ++
    ", is_interface: " ++ toString c.isInterface ++ " \x7d"

end ClassEntry

/-- Classes and interfaces, in the order in which they were added. -/
structure ClassGraph where
  classes : List ClassEntry

namespace ClassGraph

/-- The graph without classes. -/
def empty : ClassGraph :=
  ⟨[]⟩

/-- The class with the given name. -/
def lookup (g : ClassGraph) (name : BinaryName) : Option ClassEntry :=
  g.classes.find? fun c => c.name = name

/-- Change the class with the given name. -/
def modify (g : ClassGraph) (name : BinaryName) (f : ClassEntry → ClassEntry) : ClassGraph :=
  ⟨g.classes.map fun c => if c.name = name then f c else c⟩

/-! ## Growth -/

/-- A computation that may change a class graph.  It can fail, and does not undo what it did
before. -/
abbrev Update (α : Type) : Type :=
  Tracked ClassGraph Error α

/-- Add a class, and give the class that the graph then holds under its name. -/
def addClass (entry : ClassEntry) : Update ClassEntry := do
  let g ← get
  match g.lookup entry.name with
  | some existing =>
      Tracked.note .warning ("Class " ++ entry.name.text ++ " was already in the class graph")
      return existing
  | none =>
      set (⟨g.classes ++ [entry]⟩ : ClassGraph)
      return entry

/-- Link the class with the given name to some more interfaces. -/
def addInterfaces (name : BinaryName) (interfaces : List BinaryName) : Update Unit := do
  let g ← get
  set (g.modify name fun c => { c with interfaces := c.interfaces ++ interfaces })

/-- Add a method to the class that declares it, and give the method that the class then holds.

Everything that can fail comes before the graph is changed. -/
def addMethod (owner : BinaryName) (method : MethodDefinition) : Update MethodDefinition := do
  let g ← get
  if method.toReference.owner ≠ some owner then throw (.foreignMethod method.fullName owner)
  else
    match g.lookup owner with
    | none => throw (.missingClass owner)
    | some c =>
        match c.declared? method.name method.erasedSignature with
        | some existing =>
            Tracked.note .trace ("Method " ++ existing.fullName ++ " already in the class graph")
            return existing
        | none =>
            set (g.modify owner fun c => { c with methods := c.methods ++ [method] })
            return method

/-! ## Lookup after a change -/

@[simp]
theorem lookup_empty (name : BinaryName) : empty.lookup name = none :=
  rfl

/-- A class is found under its own name. -/
theorem lookup_name {g : ClassGraph} {name : BinaryName} {c : ClassEntry}
    (h : g.lookup name = some c) : c.name = name := by
  simpa using List.find?_some h

/-- The class that is changed is found as it was changed. -/
theorem lookup_modify_same {g : ClassGraph} {name : BinaryName} {f : ClassEntry → ClassEntry}
    (hf : ∀ c, (f c).name = c.name) :
    (g.modify name f).lookup name = (g.lookup name).map f := by
  unfold lookup modify
  induction g.classes with
  | nil => rfl
  | cons c rest ih =>
      by_cases hc : c.name = name
      · simp [hc, hf]
      · simpa [hc] using ih

/-- Other classes are found as they were. -/
theorem lookup_modify_of_ne {g : ClassGraph} {name other : BinaryName}
    {f : ClassEntry → ClassEntry} (hf : ∀ c, (f c).name = c.name) (hne : other ≠ name) :
    (g.modify name f).lookup other = g.lookup other := by
  unfold lookup modify
  induction g.classes with
  | nil => rfl
  | cons c rest ih =>
      by_cases hc : c.name = name
      · have hother : ¬ name = other := fun h => hne h.symm
        simpa [hc, hf, hother] using ih
      · by_cases ho : c.name = other
        · simp [ho, hne]
        · simpa [hc, ho] using ih

/-- Adding a class that is there already changes nothing, and gives the class that is there. -/
theorem addClass_existing {g : ClassGraph} {entry existing : ClassEntry}
    (h : g.lookup entry.name = some existing) :
    (addClass entry g).outcome = .ok (existing, g) := by
  simp only [addClass, Tracked.get_bind, h]
  rfl

end ClassGraph
end JvmMethods
