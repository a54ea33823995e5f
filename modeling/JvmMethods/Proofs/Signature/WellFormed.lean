import JvmMethods.Proofs.Name.Delimiters
import JvmMethods.Proofs.Signature.Variables
import JvmMethods.Signature.Parser

/-!
# Well-formed types

A type can be built out of names that no signature could spell.  It is well formed if its class
names pass their check, and the names of its inner classes extend the names of the classes they are
selected from.  Erasures do not matter to that.

Main results:

- Definition {lit}`FieldType.WellFormed`: the types that a signature can spell.
- Theorem {lit}`ClassType.WellFormed.unbroken_name`: the name of a well-formed class ends where a
  signature that spells it says so.
- Theorem {lit}`FieldType.wellFormed_withErasures`: replacing erasures keeps types well formed.
-/

namespace JvmMethods

/-- Can a text be the name of an inner class in a signature? -/
def Signature.IsInnerName (simple : String) : Prop :=
  simple.toList ≠ [] ∧ ∀ c ∈ simple.toList, Signature.endsClassName c = false

/-- The name has none of the characters that end a class name in a signature. -/
def BinaryName.Unbroken (name : BinaryName) : Prop :=
  ∀ c ∈ name.text.toList, Signature.endsClassName c = false

theorem BinaryName.Unbroken.not_mem {name : BinaryName} (h : name.Unbroken) {c : Char}
    (hc : Signature.endsClassName c = true) : c ∉ name.text.toList :=
  fun hmem => Bool.false_ne_true ((h c hmem).symm.trans hc)

/-- Valid names contain nothing that ends a class name. -/
theorem BinaryName.unbroken_of_check {name : BinaryName} (h : check name.text = .ok ()) :
    name.Unbroken := by
  intro c hc
  cases hstop : Signature.endsClassName c with
  | false => rfl
  | true =>
      have hdelimiter : UnqualifiedName.isDelimiter c = true ∧ c ≠ '/' := by
        simp only [Signature.endsClassName, Bool.or_eq_true, decide_eq_true_eq] at hstop
        rcases hstop with (rfl | rfl) | rfl <;> decide
      exact absurd hc (not_mem_of_check h hdelimiter.1 hdelimiter.2)

/-- The name of an inner class contains nothing that ends a class name. -/
theorem BinaryName.Unbroken.nested {outer : BinaryName} (h : outer.Unbroken) {simple : String}
    (hsimple : Signature.IsInnerName simple) : (outer.nested simple).Unbroken := by
  intro c hc
  simp only [BinaryName.nested, String.toList_append, List.mem_append] at hc
  rcases hc with (hc | hc) | hc
  · exact h c hc
  · rw [List.mem_singleton.1 hc]
    rfl
  · exact hsimple.2 c hc

mutual

/-- The types that a signature can spell. -/
def FieldType.WellFormed : FieldType → Prop
  | .base _ => True
  | .object c => c.WellFormed
  | .array element => element.WellFormed
  | .typeVariable _ _ => True

/-- The classes that a signature can spell. -/
def ClassType.WellFormed : ClassType → Prop
  | .named name arguments =>
      BinaryName.check name.text = .ok () ∧ TypeArgument.ListWellFormed arguments
  | .inner outer name arguments =>
      outer.WellFormed ∧
        (∃ simple, Signature.IsInnerName simple ∧ name = outer.name.nested simple) ∧
        TypeArgument.ListWellFormed arguments

/-- The lists of arguments that a signature can spell. -/
def TypeArgument.ListWellFormed : List TypeArgument → Prop
  | [] => True
  | a :: as => a.WellFormed ∧ TypeArgument.ListWellFormed as

/-- The arguments that a signature can spell. -/
def TypeArgument.WellFormed : TypeArgument → Prop
  | .wildcard => True
  | .bounded _ t => t.WellFormed

end

/-- The name of a well-formed class ends where a signature that spells it says so, whatever the
class is selected from. -/
theorem ClassType.WellFormed.unbroken_name : ∀ {c : ClassType}, c.WellFormed → c.name.Unbroken
  | .named _ _, h => BinaryName.unbroken_of_check h.1
  | .inner _ _ _, h => by
      obtain ⟨houter, ⟨simple, hsimple, rfl⟩, -⟩ := h
      exact BinaryName.Unbroken.nested (unbroken_name houter) hsimple

mutual

/-- Replacing erasures keeps types well formed. -/
theorem FieldType.wellFormed_withErasures (scope : TypeScope) :
    ∀ t : FieldType, (t.withErasures scope).WellFormed ↔ t.WellFormed
  | .base _ => Iff.rfl
  | .object c => by
      simp only [FieldType.withErasures, FieldType.WellFormed,
        ClassType.wellFormed_withErasures scope c]
  | .array element => by
      simp only [FieldType.withErasures, FieldType.WellFormed,
        FieldType.wellFormed_withErasures scope element]
  | .typeVariable _ _ => Iff.rfl

theorem ClassType.wellFormed_withErasures (scope : TypeScope) :
    ∀ c : ClassType, (c.withErasures scope).WellFormed ↔ c.WellFormed
  | .named _ arguments => by
      simp only [ClassType.withErasures, ClassType.WellFormed,
        TypeArgument.listWellFormed_withErasures scope arguments]
  | .inner outer _ arguments => by
      simp only [ClassType.withErasures, ClassType.WellFormed, ClassType.name_withErasures,
        ClassType.wellFormed_withErasures scope outer,
        TypeArgument.listWellFormed_withErasures scope arguments]

theorem TypeArgument.listWellFormed_withErasures (scope : TypeScope) :
    ∀ as : List TypeArgument,
      TypeArgument.ListWellFormed (TypeArgument.listWithErasures scope as) ↔
        TypeArgument.ListWellFormed as
  | [] => Iff.rfl
  | a :: as => by
      simp only [TypeArgument.listWithErasures, TypeArgument.ListWellFormed,
        TypeArgument.wellFormed_withErasures scope a,
        TypeArgument.listWellFormed_withErasures scope as]

theorem TypeArgument.wellFormed_withErasures (scope : TypeScope) :
    ∀ a : TypeArgument, (a.withErasures scope).WellFormed ↔ a.WellFormed
  | .wildcard => Iff.rfl
  | .bounded _ t => by
      simp only [TypeArgument.withErasures, TypeArgument.WellFormed,
        FieldType.wellFormed_withErasures scope t]

end

end JvmMethods
