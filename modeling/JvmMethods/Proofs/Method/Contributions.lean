import JvmMethods.Proofs.Method.Assembly

/-!
# What attributes contribute to a method

The attributes of a method are taken into account one after the other.  Code becomes the body of the
method, and everything else is kept in order.  Declared exceptions become the thrown types as long
as there are none, so that the first list with anything in it is taken: of the generic signature,
even if its parameters are not used, and else of the attributes.  The assembly fails if there is
more code than one method can have, or code of a method that is abstract or native.

Main results:

- Theorem {lit}`MethodDefinition.Contribution.foldlM_add`: what a list of attributes contributes,
  and when it contributes too much.
- Definition {lit}`MethodInfo.Accepted`: the name, the descriptor and the signature are accepted.
- Definition {lit}`MethodInfo.BodyFits`: there is at most one body, which is a shell if the method
  is abstract or native.
- Definition {lit}`MethodInfo.Gives`: what a method consists of that is assembled from its parts.
- Theorem {lit}`MethodDefinition.Made.expectsBody`: a method with code is neither abstract nor
  native, however it was made.
- Theorem {lit}`MethodDefinition.assembly_complete`: when the assembly succeeds, and that nothing of
  a method is lost.
-/

namespace JvmMethods

/-- The first list that is not empty, if there is one. -/
def firstNonempty {α : Type} (lists : List (List α)) : List α :=
  (lists.find? fun list => !list.isEmpty).getD []

/-- Of a single list nothing else can be taken. -/
theorem firstNonempty_singleton {α : Type} (list : List α) : firstNonempty [list] = list := by
  cases list <;> rfl

/-- The second list is taken if the first one is empty. -/
theorem firstNonempty_pair {α : Type} (first second : List α) :
    firstNonempty [first, second] = if first.isEmpty then second else first := by
  cases first with
  | nil => exact firstNonempty_singleton second
  | cons => rfl

/-- The first list of some that is not empty stands for all of them. -/
theorem firstNonempty_append {α : Type} (lists more : List (List α)) :
    firstNonempty (firstNonempty lists :: more) = firstNonempty (lists ++ more) := by
  induction lists with
  | nil => rfl
  | cons list lists ih =>
      cases list with
      | nil => exact ih
      | cons => rfl

/-- A list of at most one element has no others behind its first. -/
theorem toList_head? {α : Type} {list : List α} (h : list.length ≤ 1) :
    list.head?.toList = list := by
  match list, h with
  | [], _ => rfl
  | [_], _ => rfl

/-- Of the list in front only the first element matters to the first one of all. -/
theorem head?_append_head? {α : Type} (list more : List α) :
    (list.head?.toList ++ more).head? = (list ++ more).head? := by
  cases list <;> rfl

/-! ## Attributes by kind -/

namespace Attribute

/-- The body that an attribute gives to a method. -/
def body? : Attribute → Option CodeAttribute
  | .code c nested => some ⟨c, nested⟩
  | .exceptions _ => none
  | .raw _ _ => none

/-- The exceptions that an attribute declares. -/
def exceptions? : Attribute → Option (List FieldType)
  | .code _ _ => none
  | .exceptions types => some types
  | .raw _ _ => none

/-- The bodies among some attributes, in order. -/
def bodies (attributes : List Attribute) : List CodeAttribute :=
  attributes.filterMap body?

/-- The lists of declared exceptions among some attributes, in order. -/
def exceptionLists (attributes : List Attribute) : List (List FieldType) :=
  attributes.filterMap exceptions?

/-- The attributes that are not bodies, in order. -/
def withoutBodies (attributes : List Attribute) : List Attribute :=
  attributes.filter fun a => a.body?.isNone

/-- The body of the first attribute, if it has one, is the first body. -/
theorem bodies_cons (a : Attribute) (attributes : List Attribute) :
    bodies (a :: attributes) = a.body?.toList ++ bodies attributes := by
  cases a <;> rfl

end Attribute

namespace MethodDefinition

/-! ## Contributions -/

namespace Contribution

/-- The contribution together with everything that some more attributes hold. -/
def collect (c : Contribution) (attributes : List Attribute) : Contribution where
  body := (c.body.toList ++ Attribute.bodies attributes).head?
  thrownTypes := firstNonempty (c.thrownTypes :: Attribute.exceptionLists attributes)
  attributes := c.attributes ++ Attribute.withoutBodies attributes

theorem collect_nil (c : Contribution) : c.collect [] = c := by
  cases c with
  | mk body thrownTypes attributes =>
      cases body <;> simp [collect, Attribute.bodies, Attribute.exceptionLists,
        Attribute.withoutBodies, firstNonempty_singleton]

/-- Contributions are collected one after the other. -/
theorem collect_append (c : Contribution) (attributes more : List Attribute) :
    c.collect (attributes ++ more) = (c.collect attributes).collect more := by
  simp only [collect, Attribute.bodies, Attribute.exceptionLists, Attribute.withoutBodies,
    List.filterMap_append, List.filter_append, head?_append_head?, firstNonempty_append,
    List.append_assoc, List.cons_append]

/-- An attribute contributes its body, its exceptions or itself. -/
theorem collect_singleton (c : Contribution) (a : Attribute) :
    c.collect [a] =
      { body := (c.body.toList ++ a.body?.toList).head?
        thrownTypes := firstNonempty (c.thrownTypes :: a.exceptions?.toList)
        attributes := c.attributes ++ if a.body?.isNone then [a] else [] } := by
  cases a <;> rfl

/-- An attribute contributes everything that it holds, unless it gives a second body. -/
theorem add_eq (name : UnqualifiedName) (c : Contribution) (a : Attribute) :
    c.add name a =
      if (c.body.toList ++ a.body?.toList).length ≤ 1 then .ok (c.collect [a])
      else .error (.duplicateCode name) := by
  rw [collect_singleton]
  cases a with
  | code code nested =>
      cases hbody : c.body <;>
        simp [add, hbody, Attribute.body?, Attribute.exceptions?, firstNonempty_singleton]
  | exceptions types =>
      cases hbody : c.body <;>
        simp [add, hbody, Attribute.body?, Attribute.exceptions?, firstNonempty_pair]
  | raw rawName info =>
      cases hbody : c.body <;>
        simp [add, hbody, Attribute.body?, Attribute.exceptions?, firstNonempty_singleton]

/-- Attributes contribute everything that they hold, unless they give a second body. -/
theorem foldlM_add (name : UnqualifiedName) (c : Contribution) (attributes : List Attribute) :
    attributes.foldlM (add name) c =
      if (c.body.toList ++ Attribute.bodies attributes).length ≤ 1 then .ok (c.collect attributes)
      else .error (.duplicateCode name) := by
  induction attributes generalizing c with
  | nil =>
      have hone : (c.body.toList ++ Attribute.bodies []).length ≤ 1 := by
        cases c.body <;> simp [Attribute.bodies]
      rw [if_pos hone, collect_nil]
      rfl
  | cons a attributes ih =>
      -- The bodies that were collected and those that are left make up one list throughout.
      rw [List.foldlM_cons, add_eq, Attribute.bodies_cons, ← List.append_assoc]
      by_cases hone : (c.body.toList ++ a.body?.toList).length ≤ 1
      · have hbody : (c.collect [a]).body.toList = c.body.toList ++ a.body?.toList := by
          rw [collect_singleton, toList_head? hone]
        have hcollect : c.collect (a :: attributes) = (c.collect [a]).collect attributes :=
          collect_append c [a] attributes
        rw [if_pos hone, ← hbody, hcollect]
        exact ih (c.collect [a])
      · have hmore : ¬ (c.body.toList ++ a.body?.toList ++
            Attribute.bodies attributes).length ≤ 1 := by
          rw [List.length_append]
          omega
        rw [if_neg hone, if_neg hmore]
        rfl

end Contribution

/-- Attributes contribute all that is in them, unless they hold more than one body. -/
theorem contribution_eq (name : UnqualifiedName) (thrownTypes : List FieldType)
    (attributes : List Attribute) :
    contribution name thrownTypes attributes =
      if (Attribute.bodies attributes).length ≤ 1 then
        .ok (Contribution.collect ⟨none, thrownTypes, []⟩ attributes)
      else .error (.duplicateCode name) :=
  Contribution.foldlM_add name ⟨none, thrownTypes, []⟩ attributes

/-- The last step of the assembly fails only if a body with code is not allowed. -/
theorem kind_of_attachBody_eq_error {m : MethodDefinition} {body? : Option CodeAttribute}
    {warning : String} {e : Error}
    (he : (match body? with
      | some body => Logged.ofExcept (m.withBody body)
      | none => do
          if m.accessFlags.expectsBody then
            Logged.note .warning warning
          pure m : Logged Error MethodDefinition).outcome = .error e) :
    e.kind = .invalidArgument := by
  cases body? with
  | some body =>
      simp only [Logged.outcome_ofExcept, withBody] at he
      split at he
      · cases he
        rfl
      · cases he
  | none =>
      by_cases hexpects : m.accessFlags.expectsBody = true
      · simp only [hexpects, if_true] at he
        cases he
      · simp only [hexpects] at he
        cases he

end MethodDefinition

/-! ## Accepted methods -/

/-- The name of a method, its descriptor and its generic signature, if it has one, are accepted. -/
structure MethodInfo.Accepted (info : MethodInfo) (scope : List TypeParameter)
    (n : UnqualifiedName) (erased : MethodSignature) (generic? : Option MethodSignature) :
    Prop where
  name : UnqualifiedName.ofString info.name = .ok n
  descriptor : (MethodSignature.parseDescriptor info.descriptor).outcome = .ok erased
  signature : Option.Rel (fun text generic => (MethodSignature.parse text scope).outcome =
    .ok generic) info.signature generic?

/-- The attributes give one body at most, which is a shell if the method is abstract or native. -/
def MethodInfo.BodyFits (info : MethodInfo) : Prop :=
  (Attribute.bodies info.attributes).length ≤ 1 ∧
    ∀ body ∈ Attribute.bodies info.attributes, body.hasCode = true →
      info.accessFlags.has .isAbstract = false ∧ info.accessFlags.has .isNative = false

/-- The method has all the attributes, as its body or in their order, as many parameters as the
descriptor, and the first thrown types that are stated anywhere. -/
structure MethodInfo.Gives (info : MethodInfo) (erased : MethodSignature)
    (generic? : Option MethodSignature) (m : MethodDefinition) : Prop where
  body : m.body.toList = Attribute.bodies info.attributes
  attributes : m.attributes = Attribute.withoutBodies info.attributes
  positions : m.parameters.map Parameter.position = List.range erased.parameters.length
  thrownTypes : m.thrownTypes = firstNonempty
    (generic?.toList.map MethodSignature.thrownTypes ++ Attribute.exceptionLists info.attributes)

/-- The method of a signature, with everything that the attributes hold. -/
def MethodInfo.method (info : MethodInfo) (declaringType : FieldType) (n : UnqualifiedName)
    (signature : MethodSignature) : MethodDefinition :=
  { MethodDefinition.ofSignature declaringType n info.accessFlags signature with
    thrownTypes := firstNonempty
      (signature.thrownTypes :: Attribute.exceptionLists info.attributes)
    attributes := Attribute.withoutBodies info.attributes
    body := (Attribute.bodies info.attributes).head? }

/-- Parameters are numbered from zero on. -/
theorem Parameter.position_ofTypes (types : List FieldType) :
    (Parameter.ofTypes types).map Parameter.position = List.range types.length := by
  rw [Parameter.ofTypes, List.map_map, List.range_eq_range', ← List.zipIdx_map_snd]
  rfl

/-- The signature that is used: the generic one if there is one, as far as it agrees with the
descriptor. -/
def MethodSignature.chosen (erased : MethodSignature) (generic? : Option MethodSignature) :
    MethodSignature :=
  generic?.elim erased fun generic => generic.orErased erased

namespace MethodSignature

/-- The signature that is used has as many parameters as the descriptor. -/
theorem length_parameters_chosen (erased : MethodSignature) (generic? : Option MethodSignature) :
    (erased.chosen generic?).parameters.length = erased.parameters.length := by
  cases generic? with
  | none => rfl
  | some generic =>
      change (generic.orErased erased).parameters.length = _
      unfold orErased
      split
      · assumption
      · rfl

/-- The thrown types of a generic signature are used even if its parameters are not. -/
theorem firstNonempty_chosen {erased : MethodSignature} (h : erased.thrownTypes = [])
    (generic? : Option MethodSignature) (lists : List (List FieldType)) :
    firstNonempty ((erased.chosen generic?).thrownTypes :: lists) =
      firstNonempty (generic?.toList.map thrownTypes ++ lists) := by
  cases generic? with
  | none =>
      rw [chosen, Option.elim_none, h]
      rfl
  | some generic =>
      have hthrown : (generic.orErased erased).thrownTypes = generic.thrownTypes := by
        unfold orErased
        split <;> rfl
      rw [chosen, Option.elim_some, hthrown]
      rfl

end MethodSignature

namespace MethodInfo.Accepted

open MethodDefinition

variable {declaringType : FieldType} {scope : List TypeParameter} {info : MethodInfo}
  {n : UnqualifiedName} {erased : MethodSignature} {generic? : Option MethodSignature}
  {m : MethodDefinition}

/-- The signature that is used for an accepted method. -/
theorem outcome_chooseSignature (h : info.Accepted scope n erased generic?) :
    (chooseSignature scope n info.descriptor erased info.signature).outcome =
      .ok (erased.chosen generic?) := by
  have hsignature := h.signature
  generalize info.signature = text? at hsignature ⊢
  cases hsignature with
  | none => rfl
  | some hparse => exact outcome_chooseSignature_some hparse

/-- An accepted method is assembled exactly if its body fits. -/
theorem ofInfo_eq_ok_iff (h : info.Accepted scope n erased generic?) :
    (ofInfo declaringType scope info).outcome = .ok m ↔
      info.BodyFits ∧ m = info.method declaringType n (erased.chosen generic?) := by
  rw [MethodDefinition.ofInfo_eq_ok_iff]
  constructor
  · rintro ⟨n', erased', signature, c, hname, herased, hsignature, hc, hbody, rfl⟩
    obtain rfl : n' = n := Except.ok.inj (hname.symm.trans h.name)
    obtain rfl : erased' = erased := Except.ok.inj (herased.symm.trans h.descriptor)
    obtain rfl := Except.ok.inj (hsignature.symm.trans h.outcome_chooseSignature)
    rw [contribution_eq] at hc
    split at hc
    case isTrue hone =>
      cases hc
      refine ⟨⟨hone, fun body hmem hcode => ?_⟩, rfl⟩
      rw [← toList_head? hone, Option.mem_toList] at hmem
      exact AccessFlags.expectsBody_iff.1 (hbody body hmem hcode)
    case isFalse => cases hc
  · rintro ⟨⟨hone, hfits⟩, rfl⟩
    refine ⟨n, erased, erased.chosen generic?, _, h.name, h.descriptor, h.outcome_chooseSignature,
      by rw [contribution_eq, if_pos hone], fun body hbody hcode => ?_, rfl⟩
    exact AccessFlags.expectsBody_iff.2 (hfits body (List.mem_of_head? hbody) hcode)

/-- Nothing but its body can be wrong with an accepted method. -/
theorem kind_of_ofInfo_eq_error (h : info.Accepted scope n erased generic?) {e : Error}
    (he : (ofInfo declaringType scope info).outcome = .error e) : e.kind = .invalidArgument := by
  have hname : (Logged.ofExcept ((UnqualifiedName.ofString info.name).mapError
      Error.invalidName)).outcome = .ok n := mapError_eq_ok_iff.2 h.name
  rw [ofInfo, Logged.outcome_bind_of_ok hname, Logged.outcome_bind_of_ok h.descriptor,
    Logged.outcome_bind_of_ok h.outcome_chooseSignature, contribution_eq] at he
  split at he
  · exact kind_of_attachBody_eq_error he
  · cases he
    rfl

/-- The method of an accepted signature is what the parts of the method say. -/
theorem gives_method (h : info.Accepted scope n erased generic?)
    (hone : (Attribute.bodies info.attributes).length ≤ 1) :
    info.Gives erased generic? (info.method declaringType n (erased.chosen generic?)) where
  body := toList_head? hone
  attributes := rfl
  positions := by
    rw [← erased.length_parameters_chosen generic?]
    exact Parameter.position_ofTypes _
  thrownTypes := by
    obtain ⟨-, hplain⟩ := MethodSignature.parseDescriptor_eq_ok_iff.1 h.descriptor
    obtain ⟨-, hthrown, -⟩ := MethodSignature.isGeneric_eq_false_iff.1 hplain
    exact MethodSignature.firstNonempty_chosen hthrown generic? _

end MethodInfo.Accepted

namespace MethodDefinition

/-! ## Methods and their code -/

/-- The methods that can be made: of a signature, of what a class file says, or of another method by
attaching a body. -/
inductive Made : MethodDefinition → Prop where
  | ofSignature (declaringType : FieldType) (name : UnqualifiedName) (flags : AccessFlags)
      (signature : MethodSignature) : Made (.ofSignature declaringType name flags signature)
  | ofInfo {declaringType : FieldType} {scope : List TypeParameter} {info : MethodInfo}
      {m : MethodDefinition} (h : (ofInfo declaringType scope info).outcome = .ok m) : Made m
  | withBody {m n : MethodDefinition} {body : CodeAttribute} (hm : Made m)
      (h : m.withBody body = .ok n) : Made n

/-- A method with code is neither abstract nor native, however it was made. -/
theorem Made.expectsBody {m : MethodDefinition} (hm : m.Made) (hcode : m.hasCode = true) :
    m.accessFlags.expectsBody = true := by
  cases hm with
  | ofSignature => cases hcode
  | ofInfo h =>
      obtain ⟨_, _, _, c, -, -, -, -, hbody, rfl⟩ := ofInfo_eq_ok_iff.1 h
      obtain ⟨body, hmem, hhas⟩ := (Option.any_eq_true _ c.body).1 hcode
      exact hbody body hmem hhas
  | withBody _ h =>
      obtain ⟨hbody, rfl⟩ := withBody_eq_ok_iff.1 h
      exact hbody hcode

/-- If its name, descriptor and signature are accepted, then a method is assembled exactly if its
body fits, and fails as an invalid argument otherwise.  Nothing of it is lost: the method has all
attributes, the parameters of the descriptor and the first thrown types that are stated.  No method
that is made in any way has code while it is abstract or native. -/
theorem assembly_complete :
    (∀ declaringType scope info n erased generic?,
      MethodInfo.Accepted info scope n erased generic? →
        ((∃ m, (ofInfo declaringType scope info).outcome = .ok m) ↔ info.BodyFits) ∧
        (¬ info.BodyFits → ∃ e, (ofInfo declaringType scope info).outcome = .error e ∧
          e.kind = .invalidArgument) ∧
        ∀ m, (ofInfo declaringType scope info).outcome = .ok m → info.Gives erased generic? m) ∧
      ∀ m : MethodDefinition, m.Made → m.hasCode = true →
        m.accessFlags.has .isAbstract = false ∧ m.accessFlags.has .isNative = false := by
  refine ⟨?_, fun m hm hcode => AccessFlags.expectsBody_iff.1 (hm.expectsBody hcode)⟩
  intro declaringType scope info n erased generic? h
  have hiff : ∀ m, (ofInfo declaringType scope info).outcome = .ok m ↔
      info.BodyFits ∧ m = info.method declaringType n (erased.chosen generic?) :=
    fun _ => h.ofInfo_eq_ok_iff
  refine ⟨?_, fun hunfit => ?_, fun m hm => ?_⟩
  · constructor
    · rintro ⟨m, hm⟩
      exact ((hiff m).1 hm).1
    · exact fun hfits => ⟨_, (hiff _).2 ⟨hfits, rfl⟩⟩
  · cases houtcome : (ofInfo declaringType scope info).outcome with
    | ok m => exact absurd ((hiff m).1 houtcome).1 hunfit
    | error e => exact ⟨e, rfl, h.kind_of_ofInfo_eq_error houtcome⟩
  · obtain ⟨hfits, rfl⟩ := (hiff m).1 hm
    exact h.gives_method hfits.1

/-- Code of a single byte. -/
def returnCode : Code :=
  ⟨13, 0, 1, some ⟨[0xB1], []⟩⟩

/-- A method that declares exceptions twice, and has a generic signature without the parameter that
the descriptor has. -/
def throwingInfo : MethodInfo :=
  ⟨"run", .ofList [.isPublic], "(I)V", some "()V^La/E;",
    [.exceptions [.ofName ⟨"a/F"⟩], .code returnCode [], .raw "Deprecated" [],
      .exceptions [.ofName ⟨"a/G"⟩]]⟩

/-- The same method, if it is public and abstract. -/
def abstractThrowingInfo : MethodInfo :=
  { throwingInfo with accessFlags := ⟨0x0401, rfl⟩ }

/-- The public method is assembled, and the abstract one is refused because it has code. -/
theorem assembly_complete_throwing :
    throwingInfo.BodyFits ∧
      (∃ m, (ofInfo (.ofName ⟨"a/B"⟩) [] throwingInfo).outcome = .ok m ∧
        m.thrownTypes = [.ofName ⟨"a/E"⟩] ∧ m.parameters.map Parameter.position = [0] ∧
        m.body.toList = [⟨returnCode, []⟩] ∧ m.hasCode = true ∧
        m.accessFlags.has .isNative = false) ∧
      ∃ e, (ofInfo (.ofName ⟨"a/B"⟩) [] abstractThrowingInfo).outcome = .error e ∧
        e.kind = .invalidArgument := by
  have haccepted : throwingInfo.Accepted [] ⟨"run", rfl⟩ ⟨[], [.base .int], none, []⟩
      (some ⟨[], [], none, [.ofName ⟨"a/E"⟩]⟩) :=
    ⟨by cbv, by cbv, .some (by cbv)⟩
  have hfits : throwingInfo.BodyFits := ⟨by decide, fun _ _ _ => by decide⟩
  have hunfit : ¬ abstractThrowingInfo.BodyFits := by
    rintro ⟨-, hshell⟩
    have hflags := hshell ⟨returnCode, []⟩ List.mem_cons_self rfl
    exact absurd hflags (by decide)
  obtain ⟨hassembles, hcode⟩ := assembly_complete
  obtain ⟨hiff, -, hgives⟩ := hassembles (.ofName ⟨"a/B"⟩) _ _ _ _ _ haccepted
  obtain ⟨m, hm⟩ := hiff.2 hfits
  obtain ⟨hbody, -, hpositions, hthrown⟩ := hgives m hm
  have hhas : m.hasCode = true := by
    rw [hasCode, Option.toList_eq_singleton_iff.1 hbody]
    rfl
  -- Names and signatures are accepted alike, whatever the flags.
  obtain ⟨-, hrefused, -⟩ := hassembles (.ofName ⟨"a/B"⟩) _ abstractThrowingInfo _ _ _
    ⟨haccepted.name, haccepted.descriptor, haccepted.signature⟩
  exact ⟨hfits, ⟨m, hm, hthrown, hpositions, hbody, hhas, (hcode m (.ofInfo hm) hhas).2⟩,
    hrefused hunfit⟩

end MethodDefinition
end JvmMethods
