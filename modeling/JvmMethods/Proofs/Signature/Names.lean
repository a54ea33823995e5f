import JvmMethods.Proofs.Signature.Classes
import JvmMethods.Proofs.Signature.Decodability

/-!
# Class names in signatures that were read

The class names in a signature come from its text, from the scope it is read in, or are the root
class.  Erasures of variables are copied around while a list of type parameters is settled, and no
other names come up on the way.  So what holds of the root class, of the scope and of the classes
that are mentioned holds of every erasure too.

The first name of a class is checked when it is read.  The names of the inner classes that are
selected from it are not: these only end where the next part of the class begins.  This makes them
the one way in which a signature comes by a class name that cannot be read back.

Main results:

- Theorem {lit}`TypeParameter.settledErasures_subset`: settling brings up no new names.
- Theorem {lit}`MethodSignature.ReadableIn.forall_variables`: where the erasures of variables come
  from.
- Theorem {lit}`MethodSignature.parseDescriptor_erasedSignature_iff`: which erased forms are
  descriptors, and of what.
- Theorem {lit}`MethodSignature.erasedSignature_of_parse`: in a signature that was read every name
  is valid, and the erased form is a descriptor, exactly if the names of inner classes are valid.
-/

namespace JvmMethods

/-! ## Names in scopes -/

namespace TypeScope

variable {P : BinaryName → Prop}

theorem mem_of_erasure?_eq_some {scope : TypeScope} {n : UnqualifiedName} {b : BinaryName}
    (h : scope.erasure? n = some b) : (n, b) ∈ scope := by
  induction scope with
  | nil => cases h
  | cons entry scope ih =>
      rw [erasure?] at h
      cases hinner : erasure? scope n with
      | some inner =>
          rw [hinner] at h
          cases h
          exact List.mem_cons_of_mem _ (ih hinner)
      | none =>
          rw [hinner] at h
          obtain ⟨hname, hb⟩ := Option.ite_none_right_eq_some.1 h
          cases hb
          rw [← hname]
          exact List.mem_cons_self

/-- A variable erases to a name that the scope holds, or to the root class. -/
theorem forall_resolve (hobject : P .object) {scope : TypeScope}
    (hscope : ∀ entry ∈ scope, P entry.2) (n : UnqualifiedName) : P (scope.resolve n) := by
  rw [resolve]
  cases h : scope.erasure? n with
  | none => exact hobject
  | some b => exact hscope (n, b) (mem_of_erasure?_eq_some h)

end TypeScope

namespace TypeParameter

/-! ## Names in type parameters -/

theorem follow_subset (erasures : List BinaryName) (step : Option Nat × Nat) :
    follow erasures step ⊆ erasures := by
  intro b hb
  rw [follow] at hb
  split at hb
  · rename_i erased herased
    obtain ⟨j, -, hj⟩ := Option.bind_eq_some_iff.1 herased
    rcases List.mem_or_eq_of_mem_set hb with hb | rfl
    · exact hb
    · exact List.mem_of_getElem? hj
  · exact hb

/-- A round brings up no new names. -/
theorem propagate_subset (links : List (Option Nat)) (erasures : List BinaryName) :
    propagate links erasures ⊆ erasures := by
  rw [propagate]
  generalize links.zipIdx = steps
  induction steps generalizing erasures with
  | nil => exact List.Subset.refl _
  | cons step steps ih => exact List.Subset.trans (ih _) (follow_subset erasures step)

/-- Settling a list of type parameters brings up no new names. -/
theorem settledErasures_subset (ps : List TypeParameter) : settledErasures ps ⊆ ps.map erasure := by
  have h : ∀ n, Nat.repeat (propagate (ps.map (link ps))) n (ps.map erasure) ⊆ ps.map erasure := by
    intro n
    induction n with
    | zero => exact List.Subset.refl _
    | succ n ih => exact List.Subset.trans (propagate_subset _ _) ih
  exact h ps.length

/-- A type parameter erases to the class that its leftmost bound is, to the erasure of the variable
that it is, or to the root class. -/
theorem forall_erasure {P : BinaryName → Prop} (hobject : P .object) {p : TypeParameter}
    (hclass : ∀ c, .object c ∈ p.bounds → P c.name)
    (hvariable : ∀ n erased, .typeVariable n erased ∈ p.bounds → P erased) : P p.erasure := by
  rw [erasure]
  cases hbound : p.bounds.head? with
  | none => exact hobject
  | some t =>
      have ht := List.mem_of_mem_head? hbound
      cases t with
      | base b => exact hobject
      | object c => exact hclass c ht
      | array element => exact hobject
      | typeVariable n erased => exact hvariable n erased ht

end TypeParameter

/-! ## Names in signatures -/

/-- The name in the erased form of a type is that of a class or the erasure of a variable. -/
theorem FieldType.forall_erasedNames {P : BinaryName → Prop} : ∀ {t : FieldType},
    (∀ c ∈ t.classes, P c.name) → (∀ use ∈ t.variables, P use.2) → ∀ n ∈ t.erasedNames, P n
  | .object c, hclasses, _, n, hn => by
      rw [List.mem_singleton.1 hn]
      exact hclasses c c.mem_classes_self
  | .array element, hclasses, hvariables, n, hn =>
      forall_erasedNames (t := element) hclasses hvariables n hn
  | .typeVariable name erased, _, hvariables, n, hn => by
      rw [List.mem_singleton.1 hn]
      exact hvariables (name, erased) List.mem_cons_self

/-- The name of a class that is not selected from another one is checked when it is read. -/
theorem ClassType.WellFormed.check_name : ∀ {c : ClassType}, c.WellFormed → c.outer? = none →
    BinaryName.check c.name.text = .ok ()
  | .named _ _, h, _ => h.1

namespace MethodSignature

variable {P : BinaryName → Prop} {scope : TypeScope} {declared : List TypeParameter}
  {s d : MethodSignature}

/-- The names in the erased form of a signature are those of classes or erasures of variables. -/
theorem forall_erasedNames (hclasses : ∀ c ∈ s.classes, P c.name)
    (hvariables : ∀ use ∈ s.variables, P use.2) : ∀ n ∈ s.erasedNames, P n := by
  have htypes : ∀ t ∈ s.types, ∀ n ∈ t.erasedNames, P n := by
    rw [classes, List.forall_mem_flatMap] at hclasses
    rw [variables_eq, List.forall_mem_flatMap] at hvariables
    exact fun t ht => FieldType.forall_erasedNames (hclasses t ht) (hvariables t ht)
  obtain ⟨-, hparameters, hreturn, -⟩ := forall_mem_types.1 htypes
  exact forall_erasedNames_iff.2 ⟨hparameters, hreturn⟩

/-- What holds of the root class, of the erasures in the scope, and of the classes that a signature
mentions, holds of the erasures that its type parameters are declared with. -/
theorem ReadableIn.forall_declared (h : s.ReadableIn scope declared) (hobject : P .object)
    (hscope : ∀ entry ∈ scope, P entry.2) (hclasses : ∀ c ∈ s.classes, P c.name) :
    ∀ p ∈ declared, P p.erasure := by
  intro p hp
  refine TypeParameter.forall_erasure hobject ?_ ?_
  · intro c hc
    -- The signature mentions the class after it was settled, which keeps its name.
    have hmem : p.withErasures (TypeParameter.settledScope declared) ∈ s.typeParameters := by
      rw [h.settled]
      exact List.mem_map_of_mem hp
    have hbound : FieldType.object (c.withErasures (TypeParameter.settledScope declared)) ∈
        (p.withErasures (TypeParameter.settledScope declared)).bounds := by
      rw [TypeParameter.bounds_withErasures]
      exact List.mem_map_of_mem hc
    rw [← ClassType.name_withErasures (TypeParameter.settledScope declared)]
    exact hclasses _ (mem_classes_of_mem_bounds hmem hbound)
  · intro n erased hvariable
    have hresolved : erased = scope.resolve n :=
      ((h.bounds p hp).2 _ hvariable).2 (n, erased) List.mem_cons_self
    rw [hresolved]
    exact TypeScope.forall_resolve hobject hscope n

/-- What holds of the root class, of the erasures in the scope, and of the classes that a signature
mentions, holds of the erasures of all variables in the signature. -/
theorem ReadableIn.forall_variables (h : s.ReadableIn scope declared) (hobject : P .object)
    (hscope : ∀ entry ∈ scope, P entry.2) (hclasses : ∀ c ∈ s.classes, P c.name) :
    ∀ use ∈ s.variables, P use.2 := by
  intro use huse
  rw [h.resolved use huse]
  refine TypeScope.forall_resolve hobject ?_ use.1
  intro entry hentry
  rcases List.mem_append.1 hentry with hentry | hentry
  · exact hscope entry hentry
  · have hsettled := TypeParameter.settledErasures_subset declared (List.of_mem_zip hentry).2
    obtain ⟨p, hp, herasure⟩ := List.mem_map.1 hsettled
    rw [← herasure]
    exact h.forall_declared hobject hscope hclasses p hp

/-! ## Descriptors of signatures -/

/-- A descriptor without dots selects no inner class, so all names in it were checked. -/
theorem check_of_parseDescriptor {source : String} (h : (parseDescriptor source).outcome = .ok d)
    (hdot : '.' ∉ source.toList) : ∀ n ∈ d.erasedNames, BinaryName.check n.text = .ok () := by
  obtain ⟨hwellFormed, hplain, rfl⟩ := parseDescriptor_eq_ok_iff_plain.1 h
  rw [signature, String.toList_ofList, dot_not_mem_signatureChars_iff hwellFormed
    (isGeneric_eq_false_iff_plain.2 hplain)] at hdot
  refine forall_erasedNames (fun c hc => ?_) (by simp [hplain.noVariables])
  exact (wellFormed_of_mem_classes hwellFormed.types c hc).check_name (hdot c hc)

/-- The erased form of a signature is a descriptor exactly if the class names in it are valid, and
then it is the descriptor of the erasure. -/
theorem parseDescriptor_erasedSignature_iff (h : ∀ n ∈ s.erasedNames, n.Unbroken) :
    (parseDescriptor s.erasedSignature).outcome = .ok d ↔
      (∀ n ∈ s.erasedNames, BinaryName.check n.text = .ok ()) ∧ d = s.erasure := by
  constructor
  · intro hd
    have hdot : '.' ∉ s.erasedSignature.toList := by
      rw [erasedSignature, String.toList_ofList]
      exact dot_not_mem_erasedChars h
    have hchecked := check_of_parseDescriptor hd hdot
    have herased : s.erasedSignature = d.erasedSignature :=
      ((erasedSignature_of_parseDescriptor_iff hd).2 hdot).symm
    have herasure : s.erasure = d.erasure :=
      (erasedSignature_eq_iff (fun n hn => (h n hn).not_mem rfl)
        fun n hn => (BinaryName.unbroken_of_check (hchecked n hn)).not_mem rfl).1 herased
    rw [← erasedNames_erasure, ← herasure, erasedNames_erasure] at hchecked
    refine ⟨hchecked, ?_⟩
    cases hd.symm.trans (outcome_parseDescriptor_erasedSignature hchecked)
    rfl
  · rintro ⟨hchecked, rfl⟩
    exact outcome_parseDescriptor_erasedSignature hchecked

/-- In a signature that was read in a scope with valid erasures, every class name and every erasure
of a variable is valid, and the erased form is a descriptor whose own erased form it is, exactly if
the names of inner classes are valid.  In any case it is a descriptor exactly if the class names in
it are valid, and then it is the descriptor of the erasure. -/
theorem erasedSignature_of_parse {source : String} {scope : List TypeParameter}
    (hscope : ∀ p ∈ scope, BinaryName.check p.erasure.text = .ok ())
    (h : (MethodSignature.parse source scope).outcome = .ok s) :
    ((∀ c ∈ s.classes, c.outer? ≠ none → BinaryName.check c.name.text = .ok ()) ↔
      (∀ c ∈ s.classes, BinaryName.check c.name.text = .ok ()) ∧
        (∀ use ∈ s.variables, BinaryName.check use.2.text = .ok ()) ∧
        ∃ d, (parseDescriptor s.erasedSignature).outcome = .ok d ∧
          d.erasedSignature = s.erasedSignature) ∧
    ∀ d, (parseDescriptor s.erasedSignature).outcome = .ok d ↔
      (∀ n ∈ s.erasedNames, BinaryName.check n.text = .ok ()) ∧ d = s.erasure := by
  obtain ⟨-, declared, hreadable⟩ := Signature.sound_whole (Signature.sound_methodSignature _) h
  have hwellFormed : ∀ c ∈ s.classes, c.WellFormed :=
    wellFormed_of_mem_classes fun t ht => (hreadable.types t ht).1
  have hroot : BinaryName.check BinaryName.object.text = .ok () := by decide
  have hentries : ∀ entry ∈ TypeScope.ofParameters scope, BinaryName.check entry.2.text = .ok () :=
    List.forall_mem_map.2 hscope
  have hunbroken : ∀ n ∈ s.erasedNames, n.Unbroken := by
    have hclasses : ∀ c ∈ s.classes, c.name.Unbroken := fun c hc => (hwellFormed c hc).unbroken_name
    exact forall_erasedNames hclasses <| hreadable.forall_variables
      (BinaryName.unbroken_of_check hroot)
      (fun entry hentry => BinaryName.unbroken_of_check (hentries entry hentry)) hclasses
  have hdescriptor := fun d => parseDescriptor_erasedSignature_iff (d := d) hunbroken
  refine ⟨⟨?_, fun hvalid c hc _ => hvalid.1 c hc⟩, hdescriptor⟩
  intro hinner
  have hclasses : ∀ c ∈ s.classes, BinaryName.check c.name.text = .ok () := by
    intro c hc
    cases houter : c.outer? with
    | none => exact (hwellFormed c hc).check_name houter
    | some outer => exact hinner c hc (by rw [houter]; exact Option.some_ne_none outer)
  have hvariables := hreadable.forall_variables (P := fun n => BinaryName.check n.text = .ok ())
    hroot hentries hclasses
  refine ⟨hclasses, hvariables, s.erasure, ?_, ?_⟩
  · exact (hdescriptor s.erasure).2 ⟨forall_erasedNames hclasses hvariables, rfl⟩
  · rw [erasedSignature, erasedChars_erasure, erasedSignature]

/-- A generic method with an inner class, whose names are all valid. -/
theorem erasedSignature_of_parse_nested :
    (∀ p ∈ exampleScope, BinaryName.check p.erasure.text = .ok ()) ∧
      (MethodSignature.parse "<T::La/L<-TT;>;>(TT;[ILa/B<*>.C<+TX;>;)V^TT;" exampleScope).outcome =
        .ok exampleSignature ∧
      (∀ use ∈ exampleSignature.variables, BinaryName.check use.2.text = .ok ()) ∧
      ∃ d, (parseDescriptor "(La/L;[ILa/B$C;)V").outcome = .ok d ∧
        d.erasedSignature = "(La/L;[ILa/B$C;)V" := by
  have hscope : ∀ p ∈ exampleScope, BinaryName.check p.erasure.text = .ok () := by decide
  have hread : (MethodSignature.parse "<T::La/L<-TT;>;>(TT;[ILa/B<*>.C<+TX;>;)V^TT;"
      exampleScope).outcome = .ok exampleSignature := by cbv
  have hinner : ∀ c ∈ exampleSignature.classes, c.outer? ≠ none →
      BinaryName.check c.name.text = .ok () := by decide
  have herased : exampleSignature.erasedSignature = "(La/L;[ILa/B$C;)V" := by decide
  obtain ⟨-, hvariables, hdescriptor⟩ := (erasedSignature_of_parse hscope hread).1.1 hinner
  rw [herased] at hdescriptor
  exact ⟨hscope, hread, hvariables, hdescriptor⟩

/-- A method with an inner class, whose name is not valid, as its parameter. -/
def brokenSignature : MethodSignature :=
  ⟨[], [.object (.inner (.named ⟨"a/B"⟩ []) ⟨"a/B$C>"⟩ [])], none, []⟩

/-- The name of an inner class is not checked, and need not be valid. -/
theorem not_names_valid_of_parse :
    ¬ ∀ source scope s, (∀ p ∈ scope, BinaryName.check p.erasure.text = .ok ()) →
      (MethodSignature.parse source scope).outcome = .ok s →
        (∀ c ∈ s.classes, BinaryName.check c.name.text = .ok ()) ∧
          (∀ use ∈ s.variables, BinaryName.check use.2.text = .ok ()) ∧
          ∃ d, (parseDescriptor s.erasedSignature).outcome = .ok d ∧
            d.erasedSignature = s.erasedSignature := by
  intro h
  have hread : (MethodSignature.parse "(La/B.C>;)V" []).outcome = .ok brokenSignature := by cbv
  have hclasses := (h _ _ _ (by decide) hread).1
  have hbroken : ¬ ∀ c ∈ brokenSignature.classes, BinaryName.check c.name.text = .ok () := by decide
  exact hbroken hclasses

end MethodSignature
end JvmMethods
