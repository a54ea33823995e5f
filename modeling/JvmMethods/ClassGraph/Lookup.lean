import JvmMethods.ClassGraph.Basic

/-!
# Method lookup

A method is looked up by name and descriptor, starting from a class.  The class itself comes first,
then its superclasses from the nearest one on, and only then the interfaces: those that the classes
implement, then the interfaces that these extend, and so on, every one of them once.  A concrete
method therefore always wins over an interface method.  Initializers are never inherited.

Interfaces may extend one another in circles.  Every round of the search passes interfaces that were
not passed before, so as many rounds as there are classes are enough.

Main results:

- Definitions {lit}`ClassGraph.findMethod` and {lit}`ClassGraph.resolve`: inherited methods, and the
  definitions that references resolve to.
- Theorem {lit}`ClassGraph.findMethod_of_declared`: a class finds its own methods first.
- Theorem {lit}`ClassGraph.lookupClass_eq_ok_iff`: where the lookup of a reference starts.
-/

namespace JvmMethods
namespace ClassGraph

/-! ## The order of lookup -/

/-- The class and its superclasses, the nearest ones first, up to a given number of steps away. -/
def ancestors (g : ClassGraph) : Nat → ClassEntry → List ClassEntry
  | 0, c => [c]
  | steps + 1, c =>
      match c.superclass.bind g.lookup with
      | none => [c]
      | some s => c :: ancestors g steps s

/-- The class and its superclasses, the nearest ones first. -/
def chain (g : ClassGraph) (c : ClassEntry) : List ClassEntry :=
  g.ancestors g.classes.length c

/-- The names among {lit}`names` that were not seen before, each of them once. -/
def unseen (seen names : List BinaryName) : List BinaryName :=
  (names.filter fun name => !seen.contains name).eraseDups

/-- The interfaces named in {lit}`level`, then those they extend, and so on for a number of rounds,
without those seen before. -/
def rounds (g : ClassGraph) : Nat → List BinaryName → List BinaryName → List ClassEntry
  | 0, _, _ => []
  | n + 1, seen, level =>
      let entries := level.filterMap g.lookup
      let next := unseen seen (entries.flatMap ClassEntry.interfaces)
      entries ++ rounds g n (seen ++ next) next

/-- The interfaces that some classes implement, directly or not, the nearest ones first. -/
def superinterfaces (g : ClassGraph) (classes : List ClassEntry) : List ClassEntry :=
  let first := unseen [] (classes.flatMap ClassEntry.interfaces)
  g.rounds g.classes.length first first

/-- The classes and interfaces that a class has methods from, in the order of lookup. -/
def lookupOrder (g : ClassGraph) (c : ClassEntry) : List ClassEntry :=
  g.chain c ++ g.superinterfaces (g.chain c)

/-- The method that a class declares or inherits under a name and a descriptor. -/
def findMethod (g : ClassGraph) (c : ClassEntry) (name : UnqualifiedName)
    (erasedSignature : String) : Option MethodDefinition :=
  (g.lookupOrder c).findSome? fun d => d.declared? name erasedSignature

/-- The chain of a class starts with the class itself. -/
theorem ancestors_eq_cons (g : ClassGraph) (steps : Nat) (c : ClassEntry) :
    ∃ rest, g.ancestors steps c = c :: rest := by
  cases steps with
  | zero => exact ⟨[], rfl⟩
  | succ steps =>
      unfold ancestors
      split
      · exact ⟨[], rfl⟩
      · exact ⟨_, rfl⟩

/-- A class finds its own methods first. -/
theorem findMethod_of_declared {g : ClassGraph} {c : ClassEntry} {name : UnqualifiedName}
    {erasedSignature : String} {m : MethodDefinition}
    (h : c.declared? name erasedSignature = some m) :
    g.findMethod c name erasedSignature = some m := by
  obtain ⟨rest, hrest⟩ := ancestors_eq_cons g g.classes.length c
  simp [findMethod, lookupOrder, chain, hrest, h]

/-! ## Resolution -/

/-- The class that the lookup of a reference on a type starts from.  Base types have no members. -/
def lookupClass (r : MethodReference) : FieldType → Except Error BinaryName
  | .base b => .error (.primitiveDeclaringType r.fullName b)
  | .object c => .ok c.name
  | .array _ => .ok .object
  | .typeVariable _ erased => .ok erased

/-- The method that a class has for a reference.  Initializers are never inherited. -/
def methodFor (g : ClassGraph) (c : ClassEntry) (r : MethodReference) : Option MethodDefinition :=
  if r.name.isSpecial then c.declared? r.name r.erasedSignature
  else g.findMethod c r.name r.erasedSignature

/-- The definition that a reference resolves to when the lookup starts from a type. -/
def resolveOn (g : ClassGraph) (type : FieldType) (r : MethodReference) :
    Logged Error MethodDefinition := do
  let name ← Logged.ofExcept (lookupClass r type)
  match g.lookup name with
  | none =>
      Logged.note .debug ("Cannot resolve " ++ r.fullName ++ ": class is unknown")
      throw (.missingClass name)
  | some c =>
      match g.methodFor c r with
      | some m =>
          Logged.note .trace ("Resolved " ++ r.fullName ++ " to " ++ m.fullName)
          return m
      | none =>
          Logged.note .debug ("Cannot resolve " ++ r.fullName ++ ": no such method")
          throw (.missingMember name r.name r.erasedSignature)

/-- The definition that a reference resolves to. -/
def resolve (g : ClassGraph) (r : MethodReference) : Logged Error MethodDefinition :=
  match r.declaringType with
  | some type => g.resolveOn type r
  | none => throw (.noDeclaringType r.fullName)

/-- The lookup starts at the class that the type erases to. -/
theorem lookupClass_eq_ok_iff {r : MethodReference} {type : FieldType} {name : BinaryName} :
    lookupClass r type = .ok name ↔ type.erasedClassName = some name := by
  cases type <;> simp [lookupClass, FieldType.erasedClassName]

end ClassGraph
end JvmMethods
