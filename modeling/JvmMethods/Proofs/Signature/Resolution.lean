import JvmMethods.Proofs.Signature.Erasure

/-!
# Types up to the erasures of their variables

The written form of a type shows the names of type variables and not their erasures, which are found
again when the text is read.  Two types have the same form if they are equal once all erasures are
forgotten.

Main results:

- Definition {lit}`FieldType.mapErasures`: the type with the erasure of every use of a variable
  changed, of which {lit}`FieldType.withErasures` is a case.
- Theorem {lit}`FieldType.mapErasures_eq_self`: a change that keeps the erasure of every use keeps
  the type.
- Definition {lit}`MethodSignature.SameForm`: method signatures that differ in erasures only.
-/

namespace JvmMethods

/-! ## Changing erasures -/

mutual

/-- The type with the erasure of every use of a variable changed. -/
def FieldType.mapErasures (f : UnqualifiedName → BinaryName → BinaryName) : FieldType → FieldType
  | .base b => .base b
  | .object c => .object (c.mapErasures f)
  | .array element => .array (element.mapErasures f)
  | .typeVariable name erased => .typeVariable name (f name erased)

/-- The class with the erasure of every use of a variable changed. -/
def ClassType.mapErasures (f : UnqualifiedName → BinaryName → BinaryName) : ClassType → ClassType
  | .named name arguments => .named name (TypeArgument.listMapErasures f arguments)
  | .inner outer name arguments =>
      .inner (outer.mapErasures f) name (TypeArgument.listMapErasures f arguments)

/-- The arguments with the erasure of every use of a variable changed. -/
def TypeArgument.listMapErasures (f : UnqualifiedName → BinaryName → BinaryName) :
    List TypeArgument → List TypeArgument
  | [] => []
  | a :: as => a.mapErasures f :: TypeArgument.listMapErasures f as

/-- The argument with the erasure of every use of a variable changed. -/
def TypeArgument.mapErasures (f : UnqualifiedName → BinaryName → BinaryName) :
    TypeArgument → TypeArgument
  | .wildcard => .wildcard
  | .bounded variance t => .bounded variance (t.mapErasures f)

end

/-- The declaration with the erasure of every use of a variable in its bounds changed. -/
def TypeParameter.mapErasures (f : UnqualifiedName → BinaryName → BinaryName)
    (p : TypeParameter) : TypeParameter :=
  ⟨p.name, p.classBound.map (·.mapErasures f), p.interfaceBounds.map (·.mapErasures f)⟩

/-- The method signature with the erasure of every use of a variable changed. -/
def MethodSignature.mapErasures (f : UnqualifiedName → BinaryName → BinaryName)
    (s : MethodSignature) : MethodSignature :=
  ⟨s.typeParameters.map (·.mapErasures f), s.parameters.map (·.mapErasures f),
    s.returnType.map (·.mapErasures f), s.thrownTypes.map (·.mapErasures f)⟩

@[simp]
theorem ClassType.name_mapErasures (f : UnqualifiedName → BinaryName → BinaryName)
    (c : ClassType) : (c.mapErasures f).name = c.name := by
  cases c <;> rfl

section MapErasures

variable (f g : UnqualifiedName → BinaryName → BinaryName)

mutual

/-- Two changes, one after the other, are one. -/
theorem FieldType.mapErasures_mapErasures :
    ∀ t : FieldType, (t.mapErasures g).mapErasures f = t.mapErasures fun n b => f n (g n b)
  | .base _ => rfl
  | .object c => by
      simp only [FieldType.mapErasures, ClassType.mapErasures_mapErasures c]
  | .array element => by
      simp only [FieldType.mapErasures, FieldType.mapErasures_mapErasures element]
  | .typeVariable _ _ => rfl

theorem ClassType.mapErasures_mapErasures :
    ∀ c : ClassType, (c.mapErasures g).mapErasures f = c.mapErasures fun n b => f n (g n b)
  | .named _ arguments => by
      simp only [ClassType.mapErasures, TypeArgument.listMapErasures_mapErasures arguments]
  | .inner outer _ arguments => by
      simp only [ClassType.mapErasures, ClassType.mapErasures_mapErasures outer,
        TypeArgument.listMapErasures_mapErasures arguments]

theorem TypeArgument.listMapErasures_mapErasures :
    ∀ as : List TypeArgument,
      TypeArgument.listMapErasures f (TypeArgument.listMapErasures g as) =
        TypeArgument.listMapErasures (fun n b => f n (g n b)) as
  | [] => rfl
  | a :: as => by
      simp only [TypeArgument.listMapErasures, TypeArgument.mapErasures_mapErasures a,
        TypeArgument.listMapErasures_mapErasures as]

theorem TypeArgument.mapErasures_mapErasures :
    ∀ a : TypeArgument, (a.mapErasures g).mapErasures f = a.mapErasures fun n b => f n (g n b)
  | .wildcard => rfl
  | .bounded _ t => by
      simp only [TypeArgument.mapErasures, FieldType.mapErasures_mapErasures t]

end

mutual

/-- A change that keeps the erasure of every use keeps the type. -/
theorem FieldType.mapErasures_eq_self :
    ∀ t : FieldType, (∀ use ∈ t.variables, f use.1 use.2 = use.2) → t.mapErasures f = t
  | .base _, _ => rfl
  | .object c, h => by
      rw [FieldType.mapErasures, ClassType.mapErasures_eq_self c h]
  | .array element, h => by
      rw [FieldType.mapErasures, FieldType.mapErasures_eq_self element h]
  | .typeVariable name erased, h => by
      have huse := h (name, erased) (List.mem_singleton.2 rfl)
      rw [FieldType.mapErasures, huse]

theorem ClassType.mapErasures_eq_self :
    ∀ c : ClassType, (∀ use ∈ c.variables, f use.1 use.2 = use.2) → c.mapErasures f = c
  | .named _ arguments, h => by
      rw [ClassType.mapErasures, TypeArgument.listMapErasures_eq_self arguments h]
  | .inner outer _ arguments, h => by
      obtain ⟨houter, harguments⟩ := List.forall_mem_append.1 h
      rw [ClassType.mapErasures, ClassType.mapErasures_eq_self outer houter,
        TypeArgument.listMapErasures_eq_self arguments harguments]

theorem TypeArgument.listMapErasures_eq_self :
    ∀ as : List TypeArgument,
      (∀ use ∈ TypeArgument.listVariables as, f use.1 use.2 = use.2) →
        TypeArgument.listMapErasures f as = as
  | [], _ => rfl
  | a :: as, h => by
      obtain ⟨hfirst, hrest⟩ := List.forall_mem_append.1 h
      rw [TypeArgument.listMapErasures, TypeArgument.mapErasures_eq_self a hfirst,
        TypeArgument.listMapErasures_eq_self as hrest]

theorem TypeArgument.mapErasures_eq_self :
    ∀ a : TypeArgument, (∀ use ∈ a.variables, f use.1 use.2 = use.2) → a.mapErasures f = a
  | .wildcard, _ => rfl
  | .bounded _ t, h => by
      rw [TypeArgument.mapErasures, FieldType.mapErasures_eq_self t h]

end

end MapErasures

mutual

/-- Replacing the erasures by those of a scope changes the erasures of the uses. -/
theorem FieldType.withErasures_eq_mapErasures (scope : TypeScope) :
    ∀ t : FieldType,
      t.withErasures scope = t.mapErasures fun n b => (scope.erasure? n).getD b
  | .base _ => rfl
  | .object c => by
      simp only [FieldType.withErasures, FieldType.mapErasures,
        ClassType.withErasures_eq_mapErasures scope c]
  | .array element => by
      simp only [FieldType.withErasures, FieldType.mapErasures,
        FieldType.withErasures_eq_mapErasures scope element]
  | .typeVariable _ _ => rfl

theorem ClassType.withErasures_eq_mapErasures (scope : TypeScope) :
    ∀ c : ClassType,
      c.withErasures scope = c.mapErasures fun n b => (scope.erasure? n).getD b
  | .named _ arguments => by
      simp only [ClassType.withErasures, ClassType.mapErasures,
        TypeArgument.listWithErasures_eq_mapErasures scope arguments]
  | .inner outer _ arguments => by
      simp only [ClassType.withErasures, ClassType.mapErasures,
        ClassType.withErasures_eq_mapErasures scope outer,
        TypeArgument.listWithErasures_eq_mapErasures scope arguments]

theorem TypeArgument.listWithErasures_eq_mapErasures (scope : TypeScope) :
    ∀ as : List TypeArgument,
      TypeArgument.listWithErasures scope as =
        TypeArgument.listMapErasures (fun n b => (scope.erasure? n).getD b) as
  | [] => rfl
  | a :: as => by
      simp only [TypeArgument.listWithErasures, TypeArgument.listMapErasures,
        TypeArgument.withErasures_eq_mapErasures scope a,
        TypeArgument.listWithErasures_eq_mapErasures scope as]

theorem TypeArgument.withErasures_eq_mapErasures (scope : TypeScope) :
    ∀ a : TypeArgument,
      a.withErasures scope = a.mapErasures fun n b => (scope.erasure? n).getD b
  | .wildcard => rfl
  | .bounded _ t => by
      simp only [TypeArgument.withErasures, TypeArgument.mapErasures,
        FieldType.withErasures_eq_mapErasures scope t]

end

/-! ## Forgetting erasures -/

/-- The type with all erasures replaced by the root class. -/
def FieldType.forgetErasures (t : FieldType) : FieldType :=
  t.mapErasures fun _ _ => .object

/-- The method signature with all erasures replaced by the root class. -/
def MethodSignature.forgetErasures (s : MethodSignature) : MethodSignature :=
  s.mapErasures fun _ _ => .object

/-- The types differ in nothing but the erasures that their type variables carry. -/
def FieldType.SameForm (s t : FieldType) : Prop :=
  s.forgetErasures = t.forgetErasures

/-- The method signatures differ in nothing but the erasures that their type variables carry. -/
def MethodSignature.SameForm (s t : MethodSignature) : Prop :=
  s.forgetErasures = t.forgetErasures

/-- Changing erasures keeps the form of a type. -/
theorem FieldType.sameForm_mapErasures (f : UnqualifiedName → BinaryName → BinaryName)
    (t : FieldType) : (t.mapErasures f).SameForm t :=
  FieldType.mapErasures_mapErasures _ f t

end JvmMethods
