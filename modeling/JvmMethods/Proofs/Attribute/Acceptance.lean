import JvmMethods.Proofs.Attribute.Layout

/-!
# Accepted layouts

A layout is accepted under a policy if it denotes an attribute, every number in it fits its field,
and everything at every level meets the policy.

Main results:

- Definition {lit}`AttributeLayout.Accepted`: what the decoder asks of a layout.
- Theorem {lit}`AttributeLayout.forall₂_accepted_iff`: a list is accepted level by level.
- Theorems {lit}`AttributeLayout.accepted_code_iff`, {lit}`AttributeLayout.accepted_exceptions_iff`
  and {lit}`AttributeLayout.accepted_raw_iff`: what it means for each sort of layout.
-/

namespace JvmMethods

/-! ## Code at all levels -/

namespace Attribute

mutual

/-- The code of an attribute, and of all that are nested in it, at any depth. -/
def codes : Attribute → List Code
  | .code c nested => c :: listCodes nested
  | .exceptions _ => []
  | .raw _ _ => []

/-- The code of some attributes, and of all that are nested in them, at any depth. -/
def listCodes : List Attribute → List Code
  | [] => []
  | a :: as => a.codes ++ listCodes as

end

end Attribute

/-! ## Accepted layouts -/

/-- A layout is accepted as an attribute if it denotes it, and everything at every level fits its
field and meets the policy. -/
structure AttributeLayout.Accepted (pool : ConstantPool) (policy : DecodingPolicy)
    (l : AttributeLayout) (a : Attribute) : Prop where
  denotes : l.Denotes pool a
  fits : ∀ n ∈ l.nodes, n.Fits
  permitted : ∀ n ∈ l.nodes, n.Permitted policy
  valid : policy.validateHandlers = true → ∀ c ∈ a.codes, c.validate = .ok ()

namespace AttributeLayout

variable {pool : ConstantPool} {policy : DecodingPolicy}

/-- Lists are accepted exactly when they are so at every level of every layout. -/
theorem forall₂_accepted_iff {ls : List AttributeLayout} {as : List Attribute} :
    List.Forall₂ (Accepted pool policy) ls as ↔
      List.Forall₂ (Denotes pool) ls as ∧ (∀ n ∈ listNodes ls, n.Fits) ∧
        (∀ n ∈ listNodes ls, n.Permitted policy) ∧
        (policy.validateHandlers = true → ∀ c ∈ Attribute.listCodes as, c.validate = .ok ()) := by
  constructor
  · intro h
    induction h with
    | nil => simp [listNodes, Attribute.listCodes]
    | cons hl _ ih =>
        rcases ih with ⟨hdenote, hfit, hpermit, hvalid⟩
        refine ⟨List.Forall₂.cons hl.denotes hdenote, ?_, ?_, ?_⟩
        · exact List.forall_mem_append.2 ⟨hl.fits, hfit⟩
        · exact List.forall_mem_append.2 ⟨hl.permitted, hpermit⟩
        · intro hvalidate
          exact List.forall_mem_append.2 ⟨hl.valid hvalidate, hvalid hvalidate⟩
  · intro h
    rcases h with ⟨hdenote, hfit, hpermit, hvalid⟩
    induction hdenote with
    | nil => exact List.Forall₂.nil
    | cons hl _ ih =>
        rcases List.forall_mem_append.1 hfit with ⟨hlFit, hlsFit⟩
        rcases List.forall_mem_append.1 hpermit with ⟨hlPermit, hlsPermit⟩
        refine List.Forall₂.cons ⟨hl, hlFit, hlPermit, ?_⟩ (ih hlsFit hlsPermit ?_)
        · intro hvalidate
          exact (List.forall_mem_append.1 (hvalid hvalidate)).1
        · intro hvalidate
          exact (List.forall_mem_append.1 (hvalid hvalidate)).2

/-- What denotes an attribute has a name in the pool. -/
theorem Denotes.utf8_eq_ok {l : AttributeLayout} {a : Attribute} (h : l.Denotes pool a) :
    pool.utf8 l.nameIndex = .ok a.name := by
  cases h with
  | code hname _ _ => exact hname
  | exceptions hname _ => exact hname
  | raw hname _ _ => exact hname

/-- What it means for code to be accepted, apart from its nested attributes. -/
theorem accepted_code_iff {nameIndex : Nat} {body : CodeLayout} {nested : List AttributeLayout}
    {spare : Bytes} {a : Attribute} :
    (AttributeLayout.code nameIndex body nested spare).Accepted pool policy a ↔
      ∃ own attributes, a = .code own attributes ∧
        pool.utf8 nameIndex = .ok Attribute.codeName ∧
        (AttributeLayout.code nameIndex body nested spare).Fits ∧
        (AttributeLayout.code nameIndex body nested spare).Permitted policy ∧
        body.Denotes pool (AttributeLayout.code nameIndex body nested spare).payload.length own ∧
        (policy.validateHandlers = true → own.validate = .ok ()) ∧
        List.Forall₂ (Accepted pool policy) nested attributes := by
  constructor
  · intro h
    rcases h with ⟨hdenote, hfit, hpermit, hvalid⟩
    cases hdenote with
    | @code _ _ _ _ own attributes hname hbody hnested =>
        rcases List.forall_mem_cons.1 hfit with ⟨hfitOwn, hfitNested⟩
        rcases List.forall_mem_cons.1 hpermit with ⟨hpermitOwn, hpermitNested⟩
        refine ⟨own, attributes, rfl, hname, hfitOwn, hpermitOwn, hbody, ?_, ?_⟩
        · intro hvalidate
          exact (List.forall_mem_cons.1 (hvalid hvalidate)).1
        · refine forall₂_accepted_iff.2 ⟨hnested, hfitNested, hpermitNested, ?_⟩
          intro hvalidate
          exact (List.forall_mem_cons.1 (hvalid hvalidate)).2
  · intro h
    rcases h with ⟨own, attributes, rfl, hname, hfit, hpermit, hbody, hvalid, hnested⟩
    rcases forall₂_accepted_iff.1 hnested with ⟨hdenote, hfitNested, hpermitNested, hvalidNested⟩
    refine ⟨Denotes.code hname hbody hdenote, ?_, ?_, ?_⟩
    · exact List.forall_mem_cons.2 ⟨hfit, hfitNested⟩
    · exact List.forall_mem_cons.2 ⟨hpermit, hpermitNested⟩
    · intro hvalidate
      exact List.forall_mem_cons.2 ⟨hvalid hvalidate, hvalidNested hvalidate⟩

/-- Declared exceptions are accepted if every index names a type, under the policy as well as by the
format. -/
theorem accepted_exceptions_iff {nameIndex : Nat} {typeIndices : List Nat} {spare : Bytes}
    {a : Attribute} :
    (AttributeLayout.exceptions nameIndex typeIndices spare).Accepted pool policy a ↔
      ∃ types, a = .exceptions types ∧
        pool.utf8 nameIndex = .ok Attribute.exceptionsName ∧
        (AttributeLayout.exceptions nameIndex typeIndices spare).Fits ∧
        (AttributeLayout.exceptions nameIndex typeIndices spare).Permitted policy ∧
        List.Forall₂ (fun i t => pool.NamesType i (some t)) typeIndices types := by
  constructor
  · intro h
    rcases h with ⟨hdenote, hfit, hpermit, -⟩
    cases hdenote with
    | @exceptions _ _ _ types hname htypes =>
        exact ⟨types, rfl, hname, hfit _ (mem_nodes_self _), hpermit _ (mem_nodes_self _), htypes⟩
  · intro h
    rcases h with ⟨types, rfl, hname, hfit, hpermit, htypes⟩
    refine ⟨Denotes.exceptions hname htypes, ?_, ?_, ?_⟩
    · exact List.forall_mem_singleton.2 hfit
    · exact List.forall_mem_singleton.2 hpermit
    · intro _ c hc
      cases hc

/-- Any other attribute is accepted with its bytes, under any name but those of the two decoded
ones. -/
theorem accepted_raw_iff {nameIndex : Nat} {info : Bytes} {a : Attribute} :
    (AttributeLayout.raw nameIndex info).Accepted pool policy a ↔
      ∃ name, a = .raw name info ∧ pool.utf8 nameIndex = .ok name ∧
        name ≠ Attribute.codeName ∧ name ≠ Attribute.exceptionsName ∧
        (AttributeLayout.raw nameIndex info).Fits := by
  constructor
  · intro h
    rcases h with ⟨hdenote, hfit, -, -⟩
    cases hdenote with
    | @raw _ _ name hname hcode hexceptions =>
        exact ⟨name, rfl, hname, hcode, hexceptions, hfit _ (mem_nodes_self _)⟩
  · intro h
    rcases h with ⟨name, rfl, hname, hcode, hexceptions, hfit⟩
    refine ⟨Denotes.raw hname hcode hexceptions, ?_, ?_, ?_⟩
    · exact List.forall_mem_singleton.2 hfit
    · exact List.forall_mem_singleton.2 ⟨Nat.zero_le _, fun _ => rfl⟩
    · intro _ c hc
      cases hc

end AttributeLayout

end JvmMethods
