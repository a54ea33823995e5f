import JvmMethods.ClassGraph.Basic
import JvmMethods.Proofs.Signature.Names

/-!
# Dispatch keys

A class tells its methods apart by their names and their erased forms.  An erased form is a faithful
key: it determines how many parameters a method has, what each of them erases to, and whether it
returns anything and what that erases to.  All that this asks of the class names in it is that they
have no semicolon.  Names that passed their check have none, and neither has any name that is put
together while a signature is read, even if it does not pass the check.

Main results:

- Definition {lit}`MethodReference.ErasesLike`: the erasures that two methods have in common if they
  are dispatched alike.
- Theorem {lit}`MethodReference.erasesLike_iff`: methods erase alike exactly if the erasures of
  their signatures are the same.
- Theorem {lit}`MethodReference.erasedSignature_faithful`: equal erased forms mean equal erasures.
-/

namespace JvmMethods
namespace MethodReference

/-- No class name in the erased form of the method has a semicolon. -/
def SemicolonFree (r : MethodReference) : Prop :=
  ∀ n ∈ r.toSignature.erasedNames, ';' ∉ n.text.toList

/-- The methods have as many parameters, whose types erase to the same types one by one, and their
return types erase to the same type, unless neither of them returns anything. -/
structure ErasesLike (r s : MethodReference) : Prop where
  parameters : List.Forall₂ (fun p q => p.type.erasure = q.type.erasure) r.parameters s.parameters
  returnType : r.returnType.map FieldType.erasure = s.returnType.map FieldType.erasure

variable {r s : MethodReference}

/-- References erase alike exactly if their signatures have the same erasure. -/
theorem erasesLike_iff : r.ErasesLike s ↔ r.toSignature.erasure = s.toSignature.erasure := by
  have hparameters :
      List.Forall₂ (fun p q => p.type.erasure = q.type.erasure) r.parameters s.parameters ↔
        r.toSignature.parameters.map FieldType.erasure =
          s.toSignature.parameters.map FieldType.erasure := by
    rw [← List.forall₂_eq_eq_eq]
    simp only [toSignature, List.forall₂_map_left_iff, List.forall₂_map_right_iff]
  constructor
  · intro h
    rw [MethodSignature.erasure, MethodSignature.erasure, hparameters.1 h.parameters]
    exact congrArg (MethodSignature.mk [] _ · []) h.returnType
  · intro h
    obtain ⟨-, hmap, hreturn, -⟩ := MethodSignature.mk.inj h
    exact ⟨hparameters.2 hmap, hreturn⟩

/-- Without semicolons in names, references have the same descriptor exactly if they erase alike. -/
theorem erasedSignature_eq_iff_erasesLike (hr : r.SemicolonFree) (hs : s.SemicolonFree) :
    r.erasedSignature = s.erasedSignature ↔ r.ErasesLike s := by
  rw [erasesLike_iff, ← erasedSignature_toSignature, ← erasedSignature_toSignature]
  exact MethodSignature.erasedSignature_eq_iff hr hs

/-! ## Where semicolons can come from -/

/-- The erased form of a method mentions the names that its signature mentions. -/
theorem semicolonFree_ofSignature {type : Option FieldType} {name : UnqualifiedName}
    {signature : MethodSignature} :
    (ofSignature type name signature).SemicolonFree ↔
      ∀ n ∈ signature.erasedNames, ';' ∉ n.text.toList := by
  rw [SemicolonFree, MethodSignature.erasedNames, MethodSignature.erasedNames, toSignature,
    ofSignature, Parameter.type_ofTypes]

end MethodReference

/-- A name that passes the check has no semicolon. -/
theorem BinaryName.semicolon_not_mem_of_check {name : BinaryName}
    (h : check name.text = .ok ()) : ';' ∉ name.text.toList :=
  (unbroken_of_check h).not_mem rfl

/-- A class of a type that was read ends in front of its semicolon. -/
theorem FieldType.semicolon_not_mem_of_parse {source : String} {scope : List TypeParameter}
    {t : FieldType} (h : (FieldType.parse source scope).outcome = .ok t) :
    ∀ c ∈ t.classes, ';' ∉ c.name.text.toList := by
  obtain ⟨-, hwellFormed, -⟩ := Signature.sound_whole (Signature.sound_fieldType _) h
  exact fun c hc => (hwellFormed.of_mem_classes hc).unbroken_name.not_mem rfl

namespace MethodSignature

variable {source : String} {scope : List TypeParameter} {s : MethodSignature}

/-- So does a class of a method signature that was read. -/
theorem semicolon_not_mem_of_parse
    (h : (MethodSignature.parse source scope).outcome = .ok s) :
    ∀ c ∈ s.classes, ';' ∉ c.name.text.toList := by
  obtain ⟨-, declared, hreadable⟩ := Signature.sound_whole (Signature.sound_methodSignature _) h
  have hwellFormed := wellFormed_of_mem_classes fun t ht => (hreadable.types t ht).1
  exact fun c hc => (hwellFormed c hc).unbroken_name.not_mem rfl

/-- Reading a signature brings no semicolon into the erased form that the scope does not have. -/
theorem semicolon_not_mem_erasedNames_of_parse
    (hscope : ∀ p ∈ scope, ';' ∉ p.erasure.text.toList)
    (h : (MethodSignature.parse source scope).outcome = .ok s) :
    ∀ n ∈ s.erasedNames, ';' ∉ n.text.toList := by
  obtain ⟨-, declared, hreadable⟩ := Signature.sound_whole (Signature.sound_methodSignature _) h
  have hclasses := semicolon_not_mem_of_parse h
  have hobject : ';' ∉ BinaryName.object.text.toList := by decide
  have hentries : ∀ entry ∈ TypeScope.ofParameters scope, ';' ∉ entry.2.text.toList :=
    List.forall_mem_map.2 hscope
  exact forall_erasedNames (P := fun n => ';' ∉ n.text.toList) hclasses
    (hreadable.forall_variables (P := fun n => ';' ∉ n.text.toList) hobject hentries hclasses)

end MethodSignature

namespace MethodReference

/-! ## Dispatch -/

/-- A class dispatches a reference to a definition exactly if the two have the same name and erase
alike. -/
theorem dispatches_iff_erasesLike {m : MethodDefinition} {r : MethodReference}
    (hm : m.toReference.SemicolonFree) (hr : r.SemicolonFree) :
    ClassEntry.dispatches r.name r.erasedSignature m = true ↔
      m.name = r.name ∧ m.toReference.ErasesLike r := by
  rw [ClassEntry.dispatches, decide_eq_true_eq, MethodDefinition.erasedSignature,
    erasedSignature_eq_iff_erasesLike hm hr]

/-- Two methods, be they references or the definitions that these resolve to, have the same erased
form exactly if they erase alike, provided that no class name in the two forms has a semicolon.  So
a class dispatches alike what has the same name and erases alike.  Valid names have no semicolon,
and neither do the classes of types and signatures that were read.  A semicolon in the erased form
of a signature that was read is that of an erasure in the scope. -/
theorem erasedSignature_faithful :
    (∀ r s : MethodReference, r.SemicolonFree → s.SemicolonFree →
        (r.erasedSignature = s.erasedSignature ↔ r.ErasesLike s)) ∧
      (∀ (m : MethodDefinition) (r : MethodReference), m.toReference.SemicolonFree →
        r.SemicolonFree → (ClassEntry.dispatches r.name r.erasedSignature m = true ↔
          m.name = r.name ∧ m.toReference.ErasesLike r)) ∧
      (∀ name : BinaryName, BinaryName.check name.text = .ok () → ';' ∉ name.text.toList) ∧
      ∀ source scope,
        (∀ t, (FieldType.parse source scope).outcome = .ok t →
          ∀ c ∈ t.classes, ';' ∉ c.name.text.toList) ∧
        ∀ s, (MethodSignature.parse source scope).outcome = .ok s →
          (∀ c ∈ s.classes, ';' ∉ c.name.text.toList) ∧
            ((∀ p ∈ scope, ';' ∉ p.erasure.text.toList) →
              ∀ type name, (ofSignature type name s).SemicolonFree) := by
  refine ⟨fun r s => erasedSignature_eq_iff_erasesLike,
    fun m r => dispatches_iff_erasesLike, fun name => BinaryName.semicolon_not_mem_of_check, ?_⟩
  intro source scope
  refine ⟨fun t => FieldType.semicolon_not_mem_of_parse, fun s hs => ?_⟩
  refine ⟨MethodSignature.semicolon_not_mem_of_parse hs, fun hscope type name => ?_⟩
  exact semicolonFree_ofSignature.2
    (MethodSignature.semicolon_not_mem_erasedNames_of_parse hscope hs)

/-- A generic method with an inner class among its types. -/
def genericDefinition : MethodDefinition :=
  .ofSignature (.ofName ⟨"a/M"⟩) ⟨"pack", rfl⟩ (.ofList [.isPublic])
    MethodSignature.exampleSignature

/-- A call of that method, which does not mention generics. -/
def plainCall : MethodReference :=
  ofSignature none ⟨"pack", rfl⟩
    ⟨[], [.ofName ⟨"a/L"⟩, .array (.base .int), .ofName ⟨"a/B$C"⟩], none, []⟩

/-- A call without arguments. -/
def emptyCall : MethodReference :=
  ofSignature none ⟨"pack", rfl⟩ ⟨[], [], none, []⟩

/-- The call is dispatched to the generic method, since the two erase alike.  The call without
arguments does not erase as they do, and has another erased form. -/
theorem erasedSignature_faithful_generic :
    genericDefinition.toReference.SemicolonFree ∧ plainCall.SemicolonFree ∧
      emptyCall.SemicolonFree ∧
      ClassEntry.dispatches plainCall.name plainCall.erasedSignature genericDefinition = true ∧
      genericDefinition.toReference.ErasesLike plainCall ∧
      plainCall.erasedSignature ≠ emptyCall.erasedSignature := by
  obtain ⟨hfaithful, hdispatches, hchecked, hread⟩ := erasedSignature_faithful
  have hsource : (MethodSignature.parse "<T::La/L<-TT;>;>(TT;[ILa/B<*>.C<+TX;>;)V^TT;"
      MethodSignature.exampleScope).outcome = .ok MethodSignature.exampleSignature := by cbv
  have hgeneric : genericDefinition.toReference.SemicolonFree :=
    ((hread _ _).2 _ hsource).2 (by decide) _ _
  have hnames : ∀ n ∈ plainCall.toSignature.erasedNames,
      BinaryName.check n.text = .ok () := by decide
  have hplain : plainCall.SemicolonFree := fun n hn => hchecked n (hnames n hn)
  have hempty : emptyCall.SemicolonFree := fun _ hn => absurd hn List.not_mem_nil
  have hcall : ClassEntry.dispatches plainCall.name plainCall.erasedSignature genericDefinition =
      true := by decide
  refine ⟨hgeneric, hplain, hempty, hcall, ((hdispatches _ _ hgeneric hplain).1 hcall).2, ?_⟩
  intro hsame
  cases ((hfaithful _ _ hplain hempty).1 hsame).parameters

end MethodReference
end JvmMethods
