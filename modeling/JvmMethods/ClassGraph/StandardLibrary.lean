import JvmMethods.ClassGraph.Basic

/-!
# Standard library types

Almost every class file refers to a handful of standard library types.  They are listed here with
those of their methods that matter, supertypes first, and can be added to a graph at any time.
Where the graph has a class of the same name already, that class is kept and the methods are added
to it.

Main results:

- Definitions {lit}`StandardLibrary.classes` and {lit}`StandardLibrary.methods`: the types and their
  methods, in the order in which they are added.
- Definitions {lit}`ClassGraph.addStandardLibrary` and {lit}`ClassGraph.insertStandardLibrary`: add
  all of them, and give the classes that the graph then holds.
-/

namespace JvmMethods
namespace StandardLibrary

/-! ## Names -/

/-- The class with the given name in {lit}`java.lang`. -/
def lang (simple : String) : BinaryName :=
  ⟨"java/lang/" ++ simple⟩

/-- The class with the given name in {lit}`java.io`. -/
def io (simple : String) : BinaryName :=
  ⟨"java/io/" ++ simple⟩

/-- The class with the given name in {lit}`java.util`. -/
def util (simple : String) : BinaryName :=
  ⟨"java/util/" ++ simple⟩

/-! ## Classes -/

/-- An ordinary class. -/
def plainClass (name superclass : BinaryName) (interfaces : List BinaryName) : ClassEntry :=
  ⟨name, some superclass, interfaces, false, [], []⟩

/-- An interface with the given type parameters. -/
def plainInterface (name : BinaryName) (typeParameters : List TypeParameter)
    (interfaces : List BinaryName) : ClassEntry :=
  ⟨name, some .object, interfaces, true, typeParameters, []⟩

/-- The type parameter of collections. -/
def element : TypeParameter :=
  .unbounded ⟨"E", rfl⟩

/-- The types, supertypes first. -/
def classes : List ClassEntry :=
  [⟨.object, none, [], false, [], []⟩,
   plainInterface (lang "Cloneable") [] [],
   plainInterface (io "Serializable") [] [],
   plainClass (lang "String") .object [io "Serializable"],
   plainClass (lang "Number") .object [io "Serializable"],
   plainClass (lang "Integer") (lang "Number") [],
   plainClass (lang "Throwable") .object [io "Serializable"],
   plainClass (lang "Error") (lang "Throwable") [],
   plainClass (lang "Exception") (lang "Throwable") [],
   plainClass (lang "RuntimeException") (lang "Exception") [],
   plainClass (io "IOException") (lang "Exception") [],
   plainInterface (util "Collection") [element] [],
   plainInterface (util "List") [element] [util "Collection"]]

/-! ## Methods -/

/-- What is known about a method of the library. -/
structure LibraryMethod where
  owner : BinaryName
  name : UnqualifiedName
  flags : List AccessFlag
  descriptor : String
  signature : Option String

/-- The methods, in the order in which they are added. -/
def methods : List LibraryMethod :=
  [⟨.object, .constructor, [.isPublic], "()V", none⟩,
   ⟨.object, ⟨"equals", rfl⟩, [.isPublic], "(Ljava/lang/Object;)Z", none⟩,
   ⟨.object, ⟨"hashCode", rfl⟩, [.isPublic, .isNative], "()I", none⟩,
   ⟨.object, ⟨"toString", rfl⟩, [.isPublic], "()Ljava/lang/String;", none⟩,
   ⟨.object, ⟨"clone", rfl⟩, [.isProtected, .isNative], "()Ljava/lang/Object;",
     some "()Ljava/lang/Object;^Ljava/lang/CloneNotSupportedException;"⟩,
   ⟨lang "String", .constructor, [.isPublic], "()V", none⟩,
   ⟨lang "String", ⟨"toString", rfl⟩, [.isPublic], "()Ljava/lang/String;", none⟩,
   ⟨lang "Throwable", .constructor, [.isPublic], "()V", none⟩,
   ⟨lang "Throwable", .constructor, [.isPublic], "(Ljava/lang/String;)V", none⟩,
   ⟨lang "Throwable", ⟨"getMessage", rfl⟩, [.isPublic], "()Ljava/lang/String;", none⟩,
   ⟨util "Collection", ⟨"size", rfl⟩, [.isPublic, .isAbstract], "()I", none⟩,
   ⟨util "List", ⟨"get", rfl⟩, [.isPublic, .isAbstract], "(I)Ljava/lang/Object;",
     some "(I)TE;"⟩]

/-- The definition of a method on the class that declares it.  A generic signature is read in the
scope of the class's type parameters. -/
def LibraryMethod.define (m : LibraryMethod) (owner : ClassEntry) :
    Logged Error MethodDefinition :=
  match m.signature with
  | none => do
      let signature ← MethodSignature.parseDescriptor m.descriptor
      return .ofSignature owner.asType m.name (.ofList m.flags) signature
  | some generic =>
      MethodDefinition.ofInfo owner.asType owner.typeParameters
        ⟨m.name.text, .ofList m.flags, m.descriptor, some generic, []⟩

/-! ## Adding the library -/

/-- Add a class, and link the class of that name to the interfaces of the given one. -/
def addType (entry : ClassEntry) : ClassGraph.Update Unit := do
  let _ ← ClassGraph.addClass { entry with interfaces := [] }
  ClassGraph.addInterfaces entry.name entry.interfaces

/-- Add a method to the class of its owner's name. -/
def addLibraryMethod (m : LibraryMethod) : ClassGraph.Update Unit := do
  let g ← get
  match g.lookup m.owner with
  | none => throw (.missingClass m.owner)
  | some owner =>
      let definition ← m.define owner
      let _ ← ClassGraph.addMethod m.owner definition

end StandardLibrary

namespace ClassGraph

/-- Add the standard library types and their methods. -/
def addStandardLibrary : Update Unit := do
  StandardLibrary.classes.forM StandardLibrary.addType
  StandardLibrary.methods.forM StandardLibrary.addLibraryMethod

/-- The classes that the graph holds under the names of the standard library types, in the order of
these. -/
def standardLibrary (g : ClassGraph) : List ClassEntry :=
  StandardLibrary.classes.filterMap fun c => g.lookup c.name

/-- Add the standard library, and give its classes as the graph then holds them. -/
def insertStandardLibrary : Update (List ClassEntry) := do
  addStandardLibrary
  return (← get).standardLibrary

end ClassGraph
end JvmMethods
