import JvmMethods.Signature.Scope

/-!
# Uses of type variables

A type mentions type variables in its arguments, in the arguments of the classes it is selected
from, and inside of arrays.  Each use carries an erasure, which is resolved if it is the one that
the scope gives to the variable, or the root class if the scope gives none.  Replacing the erasures
of the uses is invisible in the written form of a type.

Main results:

- Definitions {lit}`FieldType.variables` and {lit}`FieldType.ResolvedIn`: the uses of type variables
  in a type, and what it means that all of them are resolved.
- Theorem {lit}`FieldType.signatureChars_withErasures`: written forms do not show erasures.
- Theorem {lit}`FieldType.variables_withErasures`: what replacing the erasures does to the uses.
- Theorem {lit}`FieldType.ResolvedIn.withErasures`: replacing the erasures by those of an inner
  scope resolves a type in both scopes together.
-/

namespace JvmMethods

/-- The erasure of a variable: the root class, if the scope gives none. -/
def TypeScope.resolve (scope : TypeScope) (name : UnqualifiedName) : BinaryName :=
  (scope.erasure? name).getD .object

/-! ## Uses of variables -/

mutual

/-- The uses of type variables in a type, with the erasures they carry. -/
def FieldType.variables : FieldType → List (UnqualifiedName × BinaryName)
  | .base _ => []
  | .object c => c.variables
  | .array element => element.variables
  | .typeVariable name erased => [(name, erased)]

/-- The uses of type variables in a class. -/
def ClassType.variables : ClassType → List (UnqualifiedName × BinaryName)
  | .named _ arguments => TypeArgument.listVariables arguments
  | .inner outer _ arguments => outer.variables ++ TypeArgument.listVariables arguments

/-- The uses of type variables in some arguments. -/
def TypeArgument.listVariables : List TypeArgument → List (UnqualifiedName × BinaryName)
  | [] => []
  | a :: as => a.variables ++ TypeArgument.listVariables as

/-- The uses of type variables in an argument. -/
def TypeArgument.variables : TypeArgument → List (UnqualifiedName × BinaryName)
  | .wildcard => []
  | .bounded _ t => t.variables

end

/-- Every use of a type variable carries the erasure that the scope resolves it to. -/
def FieldType.ResolvedIn (scope : TypeScope) (t : FieldType) : Prop :=
  ∀ use ∈ t.variables, use.2 = scope.resolve use.1

/-- Every use of a type variable in a class is resolved. -/
def ClassType.ResolvedIn (scope : TypeScope) (c : ClassType) : Prop :=
  ∀ use ∈ c.variables, use.2 = scope.resolve use.1

/-- Every use of a type variable in some arguments is resolved. -/
def TypeArgument.ListResolvedIn (scope : TypeScope) (as : List TypeArgument) : Prop :=
  ∀ use ∈ TypeArgument.listVariables as, use.2 = scope.resolve use.1

/-! ## Replacing erasures -/

/-- Replacing erasures does not change the name of a class. -/
@[simp]
theorem ClassType.name_withErasures (scope : TypeScope) (c : ClassType) :
    (c.withErasures scope).name = c.name := by
  cases c <;> rfl

mutual

/-- Written forms do not show erasures. -/
theorem FieldType.signatureChars_withErasures (scope : TypeScope) :
    ∀ t : FieldType, (t.withErasures scope).signatureChars = t.signatureChars
  | .base _ => rfl
  | .object c => by
      simp only [FieldType.withErasures, FieldType.signatureChars,
        ClassType.bodyChars_withErasures scope c]
  | .array element => by
      simp only [FieldType.withErasures, FieldType.signatureChars,
        FieldType.signatureChars_withErasures scope element]
  | .typeVariable _ _ => rfl

theorem ClassType.bodyChars_withErasures (scope : TypeScope) :
    ∀ c : ClassType, (c.withErasures scope).bodyChars = c.bodyChars
  | .named _ arguments => by
      simp only [ClassType.withErasures, ClassType.bodyChars,
        TypeArgument.bracketedChars_withErasures scope arguments]
  | .inner outer _ arguments => by
      simp only [ClassType.withErasures, ClassType.bodyChars, ClassType.name_withErasures,
        ClassType.bodyChars_withErasures scope outer,
        TypeArgument.bracketedChars_withErasures scope arguments]

theorem TypeArgument.bracketedChars_withErasures (scope : TypeScope) :
    ∀ as : List TypeArgument,
      TypeArgument.bracketedChars (TypeArgument.listWithErasures scope as) =
        TypeArgument.bracketedChars as
  | [] => rfl
  | a :: as => by
      simp only [TypeArgument.listWithErasures, TypeArgument.bracketedChars,
        TypeArgument.signatureChars_withErasures scope a,
        TypeArgument.listChars_withErasures scope as]

theorem TypeArgument.listChars_withErasures (scope : TypeScope) :
    ∀ as : List TypeArgument,
      TypeArgument.listChars (TypeArgument.listWithErasures scope as) = TypeArgument.listChars as
  | [] => rfl
  | a :: as => by
      simp only [TypeArgument.listWithErasures, TypeArgument.listChars,
        TypeArgument.signatureChars_withErasures scope a,
        TypeArgument.listChars_withErasures scope as]

theorem TypeArgument.signatureChars_withErasures (scope : TypeScope) :
    ∀ a : TypeArgument, (a.withErasures scope).signatureChars = a.signatureChars
  | .wildcard => rfl
  | .bounded _ t => by
      simp only [TypeArgument.withErasures, TypeArgument.signatureChars,
        FieldType.signatureChars_withErasures scope t]

end

/-- A use of a variable with the erasure that the scope gives to it, if it gives one. -/
def TypeScope.update (scope : TypeScope) (use : UnqualifiedName × BinaryName) :
    UnqualifiedName × BinaryName :=
  (use.1, (scope.erasure? use.1).getD use.2)

mutual

/-- Replacing the erasures in a type replaces those of its uses of variables. -/
theorem FieldType.variables_withErasures (scope : TypeScope) :
    ∀ t : FieldType, (t.withErasures scope).variables = t.variables.map scope.update
  | .base _ => rfl
  | .object c => by
      simp only [FieldType.withErasures, FieldType.variables,
        ClassType.variables_withErasures scope c]
  | .array element => by
      simp only [FieldType.withErasures, FieldType.variables,
        FieldType.variables_withErasures scope element]
  | .typeVariable _ _ => rfl

theorem ClassType.variables_withErasures (scope : TypeScope) :
    ∀ c : ClassType, (c.withErasures scope).variables = c.variables.map scope.update
  | .named _ arguments => by
      simp only [ClassType.withErasures, ClassType.variables,
        TypeArgument.listVariables_withErasures scope arguments]
  | .inner outer _ arguments => by
      simp only [ClassType.withErasures, ClassType.variables, List.map_append,
        ClassType.variables_withErasures scope outer,
        TypeArgument.listVariables_withErasures scope arguments]

theorem TypeArgument.listVariables_withErasures (scope : TypeScope) :
    ∀ as : List TypeArgument,
      TypeArgument.listVariables (TypeArgument.listWithErasures scope as) =
        (TypeArgument.listVariables as).map scope.update
  | [] => rfl
  | a :: as => by
      simp only [TypeArgument.listWithErasures, TypeArgument.listVariables, List.map_append,
        TypeArgument.variables_withErasures scope a,
        TypeArgument.listVariables_withErasures scope as]

theorem TypeArgument.variables_withErasures (scope : TypeScope) :
    ∀ a : TypeArgument, (a.withErasures scope).variables = a.variables.map scope.update
  | .wildcard => rfl
  | .bounded _ t => by
      simp only [TypeArgument.withErasures, TypeArgument.variables,
        FieldType.variables_withErasures scope t]

end

/-- A variable that an inner scope does not declare is resolved in the outer one. -/
theorem TypeScope.resolve_append (outer inner : TypeScope) (name : UnqualifiedName) :
    (outer ++ inner).resolve name = (inner.erasure? name).getD (outer.resolve name) := by
  rw [TypeScope.resolve, TypeScope.erasure?_append, TypeScope.resolve]
  cases inner.erasure? name with
  | none => rfl
  | some erased => rfl

/-- Replacing the erasures of a resolved type by those of an inner scope resolves it in both scopes
together. -/
theorem FieldType.ResolvedIn.withErasures {outer : TypeScope} {t : FieldType}
    (h : t.ResolvedIn outer) (inner : TypeScope) :
    (t.withErasures inner).ResolvedIn (outer ++ inner) := by
  intro use huse
  rw [FieldType.variables_withErasures, List.mem_map] at huse
  rcases huse with ⟨before, hbefore, rfl⟩
  have hbefore := h before hbefore
  rw [TypeScope.resolve_append]
  simp only [TypeScope.update]
  rw [hbefore]

end JvmMethods
