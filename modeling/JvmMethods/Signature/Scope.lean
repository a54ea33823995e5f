import JvmMethods.TypeParameter

/-!
# Scopes of type variables

A use of a type variable erases to whatever the variable that is in scope erases to.  A list of type
parameters opens a scope of its own, whose parameters may be bounded by one another, also by one
that is declared later.  Erasures inside a list are therefore settled when the whole list is known:
a parameter bounded by another one of the list takes over that one's erasure, and does so as many
times as the list is long.  That is enough for every chain of bounds that ends.

Main results:

- Theorem {lit}`TypeScope.erasure?_append`: an inner scope hides an outer one.
- Theorem {lit}`TypeParameter.length_settledErasures`: settling gives one erasure per parameter.
-/

namespace JvmMethods

/-- The type variables in scope with their erasures, innermost last. -/
abbrev TypeScope := List (UnqualifiedName × BinaryName)

namespace TypeScope

/-- The scope that some declarations open. -/
def ofParameters (ps : List TypeParameter) : TypeScope :=
  ps.map fun p => (p.name, p.erasure)

/-- The erasure of the innermost variable with the given name. -/
def erasure? : TypeScope → UnqualifiedName → Option BinaryName
  | [], _ => none
  | (m, erased) :: rest, n =>
      match erasure? rest n with
      | some inner => some inner
      | none => if m = n then some erased else none

/-- Variables of an inner scope shadow those of an outer one. -/
theorem erasure?_append (outer inner : TypeScope) (n : UnqualifiedName) :
    (outer ++ inner).erasure? n = (inner.erasure? n).or (outer.erasure? n) := by
  induction outer with
  | nil => cases h : erasure? inner n <;> simp [erasure?, h]
  | cons entry outer ih =>
      cases hi : erasure? inner n <;> cases ho : erasure? outer n <;>
        simp_all [erasure?]

end TypeScope

/-! ## Replacing erasures -/

mutual

/-- The type with the erasures that the scope gives to its variables. -/
def FieldType.withErasures (scope : TypeScope) : FieldType → FieldType
  | .base b => .base b
  | .object c => .object (c.withErasures scope)
  | .array element => .array (element.withErasures scope)
  | .typeVariable name erased => .typeVariable name ((scope.erasure? name).getD erased)

/-- The class with the erasures that the scope gives to its variables. -/
def ClassType.withErasures (scope : TypeScope) : ClassType → ClassType
  | .named name arguments => .named name (TypeArgument.listWithErasures scope arguments)
  | .inner outer name arguments =>
      .inner (outer.withErasures scope) name (TypeArgument.listWithErasures scope arguments)

/-- The arguments with the erasures that the scope gives to their variables. -/
def TypeArgument.listWithErasures (scope : TypeScope) : List TypeArgument → List TypeArgument
  | [] => []
  | a :: as => a.withErasures scope :: TypeArgument.listWithErasures scope as

/-- The argument with the erasures that the scope gives to its variables. -/
def TypeArgument.withErasures (scope : TypeScope) : TypeArgument → TypeArgument
  | .wildcard => .wildcard
  | .bounded variance t => .bounded variance (t.withErasures scope)

end

namespace TypeParameter

/-- The declaration with the erasures that the scope gives to the variables of its bounds. -/
def withErasures (scope : TypeScope) (p : TypeParameter) : TypeParameter :=
  ⟨p.name, p.classBound.map (·.withErasures scope),
    p.interfaceBounds.map (·.withErasures scope)⟩

/-! ## Settling the erasures of a list -/

/-- The position of the last declaration of a name. -/
def lastPosition? : List TypeParameter → UnqualifiedName → Option Nat
  | [], _ => none
  | p :: ps, n =>
      match lastPosition? ps n with
      | some i => some (i + 1)
      | none => if p.name = n then some 0 else none

/-- The position of the parameter of the list that the leftmost bound of {lit}`p` mentions. -/
def link (ps : List TypeParameter) (p : TypeParameter) : Option Nat :=
  match p.bounds.head? with
  | some (.typeVariable n _) => lastPosition? ps n
  | _ => none

/-- Take over the erasure that a link leads to. -/
def follow (erasures : List BinaryName) : Option Nat × Nat → List BinaryName
  | (link, i) =>
      match link.bind (erasures[·]?) with
      | some erased => erasures.set i erased
      | none => erasures

/-- Let every parameter in turn take over the erasure that its link leads to. -/
def propagate (links : List (Option Nat)) (erasures : List BinaryName) : List BinaryName :=
  links.zipIdx.foldl follow erasures

/-- The erasures of a list of parameters, once every chain of bounds has been followed. -/
def settledErasures (ps : List TypeParameter) : List BinaryName :=
  Nat.repeat (propagate (ps.map (link ps))) ps.length (ps.map erasure)

/-- The scope that a list of parameters opens when its bounds are its own. -/
def settledScope (ps : List TypeParameter) : TypeScope :=
  (ps.map TypeParameter.name).zip (settledErasures ps)

/-- The list with every use of its own variables settled. -/
def settle (ps : List TypeParameter) : List TypeParameter :=
  ps.map (withErasures (settledScope ps))

/-- Following a link changes one erasure at most, and their number never. -/
@[simp]
theorem length_follow (erasures : List BinaryName) (step : Option Nat × Nat) :
    (follow erasures step).length = erasures.length := by
  unfold follow
  split
  split <;> simp

/-- Following all links keeps the number of erasures. -/
@[simp]
theorem length_propagate (links : List (Option Nat)) (erasures : List BinaryName) :
    (propagate links erasures).length = erasures.length := by
  unfold propagate
  generalize links.zipIdx = steps
  induction steps generalizing erasures with
  | nil => rfl
  | cons step steps ih => rw [List.foldl_cons, ih, length_follow]

/-- Settling gives one erasure per parameter. -/
@[simp]
theorem length_settledErasures (ps : List TypeParameter) :
    (settledErasures ps).length = ps.length := by
  have h : ∀ n, (Nat.repeat (propagate (ps.map (link ps))) n (ps.map erasure)).length =
      ps.length := by
    intro n
    induction n with
    | zero => simp [Nat.repeat]
    | succ n ih => rw [Nat.repeat, length_propagate, ih]
  exact h ps.length

end TypeParameter
end JvmMethods
