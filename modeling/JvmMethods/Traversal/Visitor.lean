import JvmMethods.Attribute.LineTable
import JvmMethods.Method.Definition

/-!
# Traversal of methods

A visitor receives what is known about one method, callback by callback, and keeps a state of its
own.  First come the attributes and annotations.  If the method has code, and the visitor can visit
it, the body follows: its limits, its instructions if the visitor wants them, and the attributes of
the code, of which line tables arrive line by line.  The end comes last, and always comes: a line
table that cannot be decoded stops the body and not the traversal.

Every callback but the one for code does nothing unless the visitor says otherwise.

Main results:

- Definition {lit}`MethodDefinition.accept`: the traversal of one method.
- Theorems {lit}`MethodDefinition.code?_eq_none_iff` and {lit}`MethodDefinition.code?_eq_some_iff`:
  a method without code has nothing to visit, and otherwise its body is visited.
-/

namespace JvmMethods

/-- The callbacks for the instructions of one body. -/
structure CodeVisitor (σ : Type) where
  visitCode : Bytes → σ → σ
  visitHandler : ExceptionHandler → σ → σ := fun _ s => s
  visitEnd : σ → σ := fun s => s

/-- The callbacks for one method. -/
structure MethodVisitor (σ : Type) where
  /-- Is the body worth decoding? -/
  canVisitBody : Bool := false
  /-- The body starts.  The answer is whoever visits its instructions, if anyone does. -/
  visitBody : Nat → Nat → σ → σ × Option (CodeVisitor σ) := fun _ _ s => (s, none)
  visitLine : SourceLine → σ → σ := fun _ s => s
  visitAttribute : Attribute → σ → σ := fun _ s => s
  /-- Annotations arrive undecoded, with the question of whether they are visible at run time. -/
  visitAnnotations : Bytes → Bool → σ → σ := fun _ _ s => s
  visitEnd : σ → σ := fun s => s

variable {σ : Type}

/-- The name of attributes with annotations that are visible at run time. -/
def visibleAnnotationsName : String :=
  "RuntimeVisibleAnnotations"

/-- The name of attributes with annotations that are not visible at run time. -/
def invisibleAnnotationsName : String :=
  "RuntimeInvisibleAnnotations"

namespace CodeVisitor

/-- Visit the instructions of a body. -/
def visit (v : CodeVisitor σ) (body : CodeBody) (s : σ) : σ :=
  v.visitEnd (body.handlers.foldl (fun s h => v.visitHandler h s) (v.visitCode body.bytes s))

end CodeVisitor

namespace MethodVisitor

/-- Visit an attribute of the method. -/
def visitMember (v : MethodVisitor σ) (s : σ) : Attribute → σ
  | .raw name info =>
      if name = visibleAnnotationsName then v.visitAnnotations info true s
      else if name = invisibleAnnotationsName then v.visitAnnotations info false s
      else v.visitAttribute (.raw name info) s
  | a => v.visitAttribute a s

/-- The line table that an attribute holds, if it is one. -/
def lineTable? : Attribute → Option Bytes
  | .raw name info => if name = LineTable.attributeName then some info else none
  | _ => none

/-- Visit the attributes of some code, up to a line table that cannot be decoded. -/
def visitNested (v : MethodVisitor σ) (code : Bytes) (s : σ) :
    List Attribute → σ × Logged Error Unit
  | [] => (s, pure ())
  | a :: rest =>
      match lineTable? a with
      | none => visitNested v code (v.visitAttribute a s) rest
      | some info =>
          let table := LineTable.decode info code
          match table.outcome with
          | .error e => (s, ⟨.error e, table.notices⟩)
          | .ok lines =>
              let (s, report) :=
                visitNested v code (lines.foldl (fun s l => v.visitLine l s) s) rest
              (s, ⟨report.outcome, table.notices ++ report.notices⟩)

/-- Visit a body: its limits, its instructions if they are wanted, and its attributes. -/
def visitCode (v : MethodVisitor σ) (code : CodeAttribute) (body : CodeBody) (s : σ) :
    σ × Logged Error Unit :=
  let (s, instructions) := v.visitBody code.maxStack code.maxLocals s
  let s :=
    match instructions with
    | none => s
    | some c => c.visit body s
  v.visitNested body.bytes s code.attributes

end MethodVisitor

namespace MethodDefinition

/-- The code attribute with its body, if there is one. -/
def code? (m : MethodDefinition) : Option (CodeAttribute × CodeBody) := do
  let code ← m.body
  let body ← code.body
  return (code, body)

/-- A method without code has nothing to visit. -/
theorem code?_eq_none_iff {m : MethodDefinition} : m.code? = none ↔ m.hasCode = false := by
  unfold code? hasCode Code.hasCode
  cases hm : m.body with
  | none => simp
  | some code => cases hb : code.body <;> simp [hb]

/-- What is visited is the body of the code that the method has. -/
theorem code?_eq_some_iff {m : MethodDefinition} {code : CodeAttribute} {body : CodeBody} :
    m.code? = some (code, body) ↔ m.body = some code ∧ code.body = some body := by
  simp only [code?, bind, Option.bind_eq_some_iff, pure, Option.some.injEq, Prod.mk.injEq]
  constructor
  · rintro ⟨_, hcode, _, hbody, rfl, rfl⟩
    exact ⟨hcode, hbody⟩
  · rintro ⟨hcode, hbody⟩
    exact ⟨code, hcode, body, hbody, rfl, rfl⟩

/-- Take a visitor through the body, if there is one and the visitor can visit it. -/
def acceptBody (m : MethodDefinition) (v : MethodVisitor σ) (s : σ) : σ × Logged Error Unit :=
  match m.code? with
  | none => (s, pure ())
  | some (code, body) =>
      if v.canVisitBody then v.visitCode code body s
      else (s, Logged.note .debug ("Skipping body of " ++ m.fullName))

/-- Take a visitor through the method.  The answer is the visitor's last state, and a failure if the
body was not visited to its end. -/
def accept (m : MethodDefinition) (v : MethodVisitor σ) (s : σ) : σ × Logged Error Unit :=
  let s := m.attributes.foldl v.visitMember s
  let (s, report) := m.acceptBody v s
  (v.visitEnd s, do
    Logged.note .trace ("Visiting " ++ m.fullName)
    report)

end MethodDefinition
end JvmMethods
