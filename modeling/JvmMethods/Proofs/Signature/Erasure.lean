import JvmMethods.Proofs.Signature.Rendering
import JvmMethods.Proofs.Signature.Settling

/-!
# Erasures of type variables

A type parameter erases to the class of its leftmost bound.  If that bound is itself a parameter of
the list, the two erase alike, also if the other one is declared later.  Variables that the list
does not declare belong to the enclosing declarations.  This module states that meaning on its own,
and shows that a signature that was read has it in every use of every variable.

Main results:

- Definition {lit}`TypeParameter.ErasesTo`: what the parameter at a position of a list erases to.
- Theorem {lit}`TypeParameter.ErasesTo.unique`: a parameter erases to one class only.
- Theorem {lit}`TypeParameter.erasesTo_settled`: what settling finds is what the parameter erases
  to.
- Theorem {lit}`MethodSignature.erasures_of_parse`: every type parameter and every use of a type
  variable in a signature that was read has the right erasure.
-/

namespace JvmMethods
namespace TypeParameter

/-! ## What a type parameter erases to -/

/-- The last declaration of a name stands at the given position of a list. -/
def LastNamed (ps : List TypeParameter) (n : UnqualifiedName) (j : Nat) : Prop :=
  (∃ p, ps[j]? = some p ∧ p.name = n) ∧ ∀ k p, j < k → ps[k]? = some p → p.name ≠ n

/-- The erasure that enclosing declarations give to a variable: that of the last parameter of its
name, or the root class if there is none. -/
def enclosingErasure (scope : List TypeParameter) (n : UnqualifiedName) : BinaryName :=
  ((scope.filter fun p => p.name = n).getLast?.map erasure).getD .object

/-- The leftmost bound of the parameter at a position. -/
def firstBound? (ps : List TypeParameter) (i : Nat) : Option FieldType :=
  ps[i]?.bind fun p => p.bounds.head?

/-- The leftmost bound of one parameter is a variable, whose last declaration is another
parameter. -/
def BoundedBy (ps : List TypeParameter) (i j : Nat) : Prop :=
  ∃ n erased, firstBound? ps i = some (.typeVariable n erased) ∧ LastNamed ps n j

/-- Following leftmost bounds from parameter to parameter never leads back. -/
def Acyclic (ps : List TypeParameter) : Prop :=
  ∀ i, ¬ Relation.TransGen (BoundedBy ps) i i

/-- What the parameter at a position of a list erases to, within enclosing declarations. -/
inductive ErasesTo (scope ps : List TypeParameter) : Nat → BinaryName → Prop where
  | parameter {i j : Nat} {n : UnqualifiedName} {erased b : BinaryName}
      (hbound : firstBound? ps i = some (.typeVariable n erased)) (hlast : LastNamed ps n j)
      (hj : ErasesTo scope ps j b) : ErasesTo scope ps i b
  | enclosing {i : Nat} {n : UnqualifiedName} {erased : BinaryName}
      (hbound : firstBound? ps i = some (.typeVariable n erased))
      (hnone : ∀ p ∈ ps, p.name ≠ n) : ErasesTo scope ps i (enclosingErasure scope n)
  | object {i : Nat} {c : ClassType} (hbound : firstBound? ps i = some (.object c)) :
      ErasesTo scope ps i c.name
  | array {i : Nat} {element : FieldType} (hbound : firstBound? ps i = some (.array element)) :
      ErasesTo scope ps i .object
  | base {i : Nat} {b : BaseType} (hbound : firstBound? ps i = some (.base b)) :
      ErasesTo scope ps i .object
  | unbounded {i : Nat} (hi : i < ps.length) (hbound : firstBound? ps i = none) :
      ErasesTo scope ps i .object

/-- A use of a variable erases as the last parameter of its name does, or else to what the enclosing
declarations give. -/
def UseErasesTo (scope ps : List TypeParameter) (n : UnqualifiedName) (b : BinaryName) : Prop :=
  (∀ j, LastNamed ps n j → ErasesTo scope ps j b) ∧
    ((∀ p ∈ ps, p.name ≠ n) → b = enclosingErasure scope n)

/-- No two positions are the last one of a name. -/
theorem LastNamed.unique {ps : List TypeParameter} {n : UnqualifiedName} {j k : Nat}
    (hj : LastNamed ps n j) (hk : LastNamed ps n k) : j = k := by
  obtain ⟨⟨p, hp, hpn⟩, hafter⟩ := hj
  obtain ⟨⟨q, hq, hqn⟩, hafter'⟩ := hk
  rcases Nat.lt_trichotomy j k with hlt | heq | hgt
  · exact absurd hqn (hafter k q hlt hq)
  · exact heq
  · exact absurd hpn (hafter' j p hgt hp)

theorem LastNamed.not_forall_ne {ps : List TypeParameter} {n : UnqualifiedName} {j : Nat}
    (h : LastNamed ps n j) : ¬ ∀ p ∈ ps, p.name ≠ n := by
  obtain ⟨⟨p, hp, hpn⟩, -⟩ := h
  exact fun hnone => hnone p (List.mem_of_getElem? hp) hpn

/-- A parameter erases to one class only. -/
theorem ErasesTo.unique {scope ps : List TypeParameter} {i : Nat} {a b : BinaryName}
    (ha : ErasesTo scope ps i a) (hb : ErasesTo scope ps i b) : a = b := by
  induction ha generalizing b with
  | parameter hbound hlast hj ih =>
      cases hb with
      | parameter hbound' hlast' hj' =>
          cases hbound.symm.trans hbound'
          exact ih (hlast.unique hlast' ▸ hj')
      | enclosing hbound' hnone =>
          cases hbound.symm.trans hbound'
          exact absurd hnone hlast.not_forall_ne
      | object hbound' | array hbound' | base hbound' | unbounded _ hbound' =>
          cases hbound.symm.trans hbound'
  | enclosing hbound hnone =>
      cases hb with
      | parameter hbound' hlast' hj' =>
          cases hbound.symm.trans hbound'
          exact absurd hnone hlast'.not_forall_ne
      | enclosing hbound' hnone' =>
          cases hbound.symm.trans hbound'
          rfl
      | object hbound' | array hbound' | base hbound' | unbounded _ hbound' =>
          cases hbound.symm.trans hbound'
  | object hbound | array hbound | base hbound | unbounded _ hbound =>
      cases hb with
      | parameter hbound' | enclosing hbound' | object hbound' | array hbound' | base hbound'
      | unbounded _ hbound' => cases hbound.symm.trans hbound' <;> rfl

/-! ## Names and positions -/

theorem lastNamed_cons_succ {p : TypeParameter} {ps : List TypeParameter} {n : UnqualifiedName}
    {j : Nat} : LastNamed (p :: ps) n (j + 1) ↔ LastNamed ps n j := by
  constructor
  · rintro ⟨hj, hafter⟩
    exact ⟨hj, fun k q hk hq => hafter (k + 1) q (Nat.succ_lt_succ hk) hq⟩
  · rintro ⟨hj, hafter⟩
    refine ⟨hj, ?_⟩
    intro k q hk hq
    cases k with
    | zero => exact absurd hk (Nat.not_lt_zero _)
    | succ k => exact hafter k q (Nat.lt_of_succ_lt_succ hk) hq

/-- The search for the last parameter of a name fails exactly if none has it. -/
theorem lastPosition?_eq_none_iff {ps : List TypeParameter} {n : UnqualifiedName} :
    lastPosition? ps n = none ↔ ∀ p ∈ ps, p.name ≠ n := by
  induction ps with
  | nil => simp [lastPosition?]
  | cons p ps ih =>
      rw [lastPosition?, List.forall_mem_cons, ← ih]
      cases lastPosition? ps n with
      | some i => simp
      | none => simp

/-- The first parameter is the last one of its name exactly if no other one has it. -/
theorem lastNamed_zero_iff {p : TypeParameter} {ps : List TypeParameter} {n : UnqualifiedName} :
    LastNamed (p :: ps) n 0 ↔ p.name = n ∧ ∀ q ∈ ps, q.name ≠ n := by
  constructor
  · rintro ⟨⟨q, hq, hqn⟩, hafter⟩
    cases hq
    refine ⟨hqn, ?_⟩
    intro r hr
    obtain ⟨k, hk⟩ := List.mem_iff_getElem?.1 hr
    exact hafter (k + 1) r (Nat.succ_pos k) hk
  · rintro ⟨hpn, hnone⟩
    refine ⟨⟨p, rfl, hpn⟩, ?_⟩
    intro k q hk hq
    cases k with
    | zero => exact absurd hk (Nat.lt_irrefl 0)
    | succ k => exact hnone q (List.mem_of_getElem? hq)

/-- The search for the last parameter of a name finds it. -/
theorem lastPosition?_eq_some_iff {ps : List TypeParameter} {n : UnqualifiedName} {j : Nat} :
    lastPosition? ps n = some j ↔ LastNamed ps n j := by
  induction ps generalizing j with
  | nil => simp [lastPosition?, LastNamed]
  | cons p ps ih =>
      rw [lastPosition?]
      cases hrest : lastPosition? ps n with
      | some i =>
          cases j with
          | zero =>
              have hnot : ¬ ∀ q ∈ ps, q.name ≠ n := (ih.1 hrest).not_forall_ne
              simp [lastNamed_zero_iff, hnot]
          | succ j => rw [lastNamed_cons_succ, ← ih, hrest, Option.some_inj, Option.some_inj,
              Nat.succ_inj]
      | none =>
          have hnone := lastPosition?_eq_none_iff.1 hrest
          cases j with
          | zero =>
              rw [lastNamed_zero_iff, and_iff_left hnone]
              simp
          | succ j =>
              rw [lastNamed_cons_succ, ← ih, hrest]
              simp

/-- A parameter is linked to the last one of the name that is its leftmost bound. -/
theorem link_eq_some_iff {ps : List TypeParameter} {p : TypeParameter} {j : Nat} :
    link ps p = some j ↔
      ∃ n erased, p.bounds.head? = some (.typeVariable n erased) ∧ LastNamed ps n j := by
  unfold link
  split
  · rename_i n erased hbound
    simp [hbound, lastPosition?_eq_some_iff]
  · rename_i hbound
    constructor
    · intro h
      cases h
    · rintro ⟨n, erased, hvariable, -⟩
      exact absurd hvariable (hbound n erased)

/-- The links between parameters are their leftmost bounds. -/
theorem linked_iff_boundedBy {ps : List TypeParameter} {i j : Nat} :
    Linked (ps.map (link ps)) i j ↔ BoundedBy ps i j := by
  rw [Linked, List.getElem?_map, BoundedBy, firstBound?]
  cases ps[i]? with
  | none => simp
  | some p => simp [link_eq_some_iff]

/-- Where every chain of leftmost bounds ends, none of them leads back. -/
theorem acyclic_of_leadsTo {ps : List TypeParameter}
    (h : ∀ i < ps.length, ∃ count last, LeadsTo (ps.map (link ps)) count i last) :
    Acyclic ps := by
  intro i hcircle
  have hlinked : Relation.TransGen (Linked (ps.map (link ps))) i i :=
    Relation.TransGen.mono (fun _ _ hbound => linked_iff_boundedBy.2 hbound) i i hcircle
  obtain ⟨j, hj, -⟩ := Relation.TransGen.head'_iff.1 hlinked
  have hi := (List.getElem?_eq_some_iff.1 hj).1
  rw [List.length_map] at hi
  obtain ⟨count, last, hlast⟩ := h i hi
  exact hlast.not_transGen hlinked

/-! ## Settled lists -/

/-- Settling replaces the erasures in every parameter by the settled ones. -/
theorem getElem?_settle (ps : List TypeParameter) (i : Nat) :
    (settle ps)[i]? = ps[i]?.map (withErasures (settledScope ps)) :=
  List.getElem?_map

/-- Replacing erasures changes no names. -/
theorem lastPosition?_map_withErasures (scope : TypeScope) (ps : List TypeParameter)
    (n : UnqualifiedName) :
    lastPosition? (ps.map (withErasures scope)) n = lastPosition? ps n := by
  induction ps with
  | nil => rfl
  | cons p ps ih =>
      rw [List.map_cons, lastPosition?, ih, lastPosition?]
      rfl

theorem lastPosition?_settle (ps : List TypeParameter) (n : UnqualifiedName) :
    lastPosition? (settle ps) n = lastPosition? ps n :=
  lastPosition?_map_withErasures (settledScope ps) ps n

theorem lastNamed_settle {ps : List TypeParameter} {n : UnqualifiedName} {j : Nat} :
    LastNamed (settle ps) n j ↔ LastNamed ps n j := by
  rw [← lastPosition?_eq_some_iff, ← lastPosition?_eq_some_iff, lastPosition?_settle]

theorem forall_ne_settle {ps : List TypeParameter} {n : UnqualifiedName} :
    (∀ p ∈ settle ps, p.name ≠ n) ↔ ∀ p ∈ ps, p.name ≠ n := by
  simp [settle, withErasures]

theorem firstBound?_settle (ps : List TypeParameter) (i : Nat) :
    firstBound? (settle ps) i = (firstBound? ps i).map (·.withErasures (settledScope ps)) := by
  rw [firstBound?, getElem?_settle, firstBound?]
  cases ps[i]? with
  | none => rfl
  | some p =>
      simp only [Option.map_some, Option.bind_some, bounds_withErasures, List.head?_map]

/-- Settling does not change which parameters are bounded by which. -/
theorem boundedBy_settle {ps : List TypeParameter} {i j : Nat} :
    BoundedBy (settle ps) i j ↔ BoundedBy ps i j := by
  simp only [BoundedBy, firstBound?_settle, lastNamed_settle]
  constructor
  · rintro ⟨n, erased, hbound, hlast⟩
    obtain ⟨t, ht, hwith⟩ := Option.map_eq_some_iff.1 hbound
    cases t with
    | typeVariable m before =>
        cases hwith
        exact ⟨n, before, ht, hlast⟩
    | base | object | array => cases hwith
  · rintro ⟨n, erased, hbound, hlast⟩
    exact ⟨n, _, by rw [hbound]; rfl, hlast⟩

/-- The scope that a settled list opens gives a variable the settled erasure of its last
declaration. -/
theorem erasure?_zip {ps : List TypeParameter} {erasures : List BinaryName}
    (hlength : erasures.length = ps.length) (n : UnqualifiedName) :
    TypeScope.erasure? ((ps.map TypeParameter.name).zip erasures) n =
      (lastPosition? ps n).bind fun j => erasures[j]? := by
  induction ps generalizing erasures with
  | nil => rfl
  | cons p ps ih =>
      cases erasures with
      | nil => cases hlength
      | cons b erasures =>
          have hrest := ih (Nat.succ_inj.1 hlength)
          rw [List.map_cons, List.zip_cons_cons, TypeScope.erasure?, hrest, lastPosition?]
          cases hlast : lastPosition? ps n with
          | none =>
              by_cases hname : p.name = n
              · simp [hname]
              · simp [hname]
          | some j =>
              have hj : j < erasures.length := by
                obtain ⟨⟨q, hq, -⟩, -⟩ := lastPosition?_eq_some_iff.1 hlast
                have := (List.getElem?_eq_some_iff.1 hq).1
                rw [Nat.succ_inj.1 hlength]
                exact this
              simp [List.getElem?_eq_getElem hj]

/-- Of several parameters of one name the last one is in scope. -/
theorem erasure?_ofParameters (scope : List TypeParameter) (n : UnqualifiedName) :
    (TypeScope.ofParameters scope).erasure? n =
      (scope.filter fun p => p.name = n).getLast?.map erasure := by
  induction scope with
  | nil => rfl
  | cons p scope ih =>
      rw [TypeScope.ofParameters, List.map_cons, TypeScope.erasure?, ← TypeScope.ofParameters, ih]
      by_cases hname : p.name = n
      · cases hlast : (scope.filter fun p => p.name = n).getLast? with
        | none =>
            have hempty := List.getLast?_eq_none_iff.1 hlast
            simp [hname, hempty]
        | some q => simp [hname, List.getLast?_cons, hlast]
      · cases hlast : (scope.filter fun p => p.name = n).getLast? with
        | none => simp [hname, hlast]
        | some q => simp [hname, hlast]

theorem resolve_ofParameters (scope : List TypeParameter) (n : UnqualifiedName) :
    (TypeScope.ofParameters scope).resolve n = enclosingErasure scope n := by
  rw [TypeScope.resolve, erasure?_ofParameters, enclosingErasure]

section Settled

variable {scope declared : List TypeParameter}

/-- A parameter whose chain ends at some parameter erases to what that one was read with. -/
theorem LeadsTo.erasesTo
    (hreadable : ∀ p ∈ declared, p.ReadableIn (TypeScope.ofParameters scope)) {count i last : Nat}
    (h : LeadsTo (declared.map (link declared)) count i last) {b : BinaryName}
    (hb : (declared.map erasure)[last]? = some b) :
    ErasesTo scope (settle declared) i b := by
  induction h with
  | step hi hj ih =>
      obtain ⟨n, erased, hbound, hlast⟩ := boundedBy_settle.2 (linked_iff_boundedBy.1 hi)
      exact .parameter hbound hlast (ih hb)
  | @stop count i hi =>
      rw [List.getElem?_map] at hi hb
      obtain ⟨p, hp, rfl⟩ := Option.map_eq_some_iff.1 hb
      rw [hp] at hi
      have hlink : link declared p = none := Option.some_inj.1 hi
      have hfirst : firstBound? (settle declared) i =
          p.bounds.head?.map (·.withErasures (settledScope declared)) := by
        rw [firstBound?_settle, firstBound?, hp, Option.bind_some]
      cases hbound : p.bounds.head? with
      | none =>
          have hlt : i < (settle declared).length := by
            rw [settle, List.length_map]
            exact (List.getElem?_eq_some_iff.1 hp).1
          rw [erasure, hbound]
          exact .unbounded hlt (by rw [hfirst, hbound]; rfl)
      | some t =>
          rw [hbound] at hfirst
          rw [erasure, hbound]
          cases t with
          | base b => exact .base hfirst
          | array element => exact .array hfirst
          | object c =>
              have hobject := @ErasesTo.object scope _ _ _ hfirst
              rw [ClassType.name_withErasures] at hobject
              exact hobject
          | typeVariable n erased =>
              have hnone : ∀ q ∈ declared, q.name ≠ n := by
                rw [link, hbound] at hlink
                exact lastPosition?_eq_none_iff.1 hlink
              -- A variable of the enclosing scope was resolved when its use was read.
              have hresolved := (hreadable p (List.mem_of_getElem? hp)).2 _
                (List.mem_of_mem_head? hbound)
              have herased : erased = enclosingErasure scope n := by
                rw [← resolve_ofParameters]
                exact hresolved.2 (n, erased) (List.mem_singleton.2 rfl)
              change ErasesTo scope (settle declared) i erased
              rw [herased]
              exact .enclosing hfirst (forall_ne_settle.2 hnone)

/-- What settling finds is what the parameter erases to. -/
theorem erasesTo_settled
    (hreadable : ∀ p ∈ declared, p.ReadableIn (TypeScope.ofParameters scope))
    (hacyclic : Acyclic (settle declared)) {i : Nat} (hi : i < declared.length) :
    ∃ b, (settledErasures declared)[i]? = some b ∧ ErasesTo scope (settle declared) i b := by
  have hlength : (declared.map (link declared)).length = declared.length := List.length_map _
  have hrange : ∀ i j, Linked (declared.map (link declared)) i j →
      j < (declared.map (link declared)).length := by
    intro i j h
    obtain ⟨n, erased, -, ⟨p, hp, -⟩, -⟩ := linked_iff_boundedBy.1 h
    rw [hlength]
    exact (List.getElem?_eq_some_iff.1 hp).1
  have hcircle : ∀ i, ¬ Relation.TransGen (Linked (declared.map (link declared))) i i := by
    intro i h
    have hbounded : ∀ i j, Linked (declared.map (link declared)) i j →
        BoundedBy (settle declared) i j :=
      fun _ _ hlink => boundedBy_settle.2 (linked_iff_boundedBy.1 hlink)
    exact hacyclic i (Relation.TransGen.mono hbounded i i h)
  obtain ⟨last, hlast⟩ := exists_leadsTo hrange hcircle (i := i) (hlength.symm ▸ hi)
  rw [hlength] at hlast
  have hlt : last < (declared.map erasure).length := by
    have := hlast.last_lt_length
    rw [List.length_map] at this ⊢
    exact this
  refine ⟨(declared.map erasure)[last], ?_, ?_⟩
  · rw [settledErasures_eq hlast]
    exact List.getElem?_eq_getElem hlt
  · exact hlast.erasesTo hreadable (List.getElem?_eq_getElem hlt)

/-- A variable that is resolved in the scope that a settled list opens has the right erasure. -/
theorem useErasesTo_resolve
    (hreadable : ∀ p ∈ declared, p.ReadableIn (TypeScope.ofParameters scope))
    (hacyclic : Acyclic (settle declared)) (n : UnqualifiedName) :
    UseErasesTo scope (settle declared) n
      ((TypeScope.ofParameters scope ++ settledScope declared).resolve n) := by
  rw [TypeScope.resolve_append, settledScope, erasure?_zip (length_settledErasures declared),
    resolve_ofParameters]
  constructor
  · intro j hlast
    have hposition := lastPosition?_eq_some_iff.2 (lastNamed_settle.1 hlast)
    obtain ⟨⟨p, hp, -⟩, -⟩ := lastNamed_settle.1 hlast
    obtain ⟨b, hb, herases⟩ :=
      erasesTo_settled hreadable hacyclic (List.getElem?_eq_some_iff.1 hp).1
    rw [hposition, Option.bind_some, hb]
    exact herases
  · intro hnone
    rw [lastPosition?_eq_none_iff.2 (forall_ne_settle.1 hnone)]
    rfl

end Settled
end TypeParameter

/-! ## Signatures that were read -/

/-- The uses of type variables in a method signature, with the erasures they carry. -/
def MethodSignature.variables (s : MethodSignature) : List (UnqualifiedName × BinaryName) :=
  s.typeParameters.flatMap (fun p => p.bounds.flatMap FieldType.variables) ++
    s.parameters.flatMap FieldType.variables ++ s.returnType.toList.flatMap FieldType.variables ++
    s.thrownTypes.flatMap FieldType.variables

namespace MethodSignature

/-- Every use of a type variable in a readable signature is resolved in the scope that the signature
opens. -/
theorem ReadableIn.resolved {scope : TypeScope} {declared : List TypeParameter}
    {s : MethodSignature} (h : s.ReadableIn scope declared) :
    ∀ use ∈ s.variables,
      use.2 = (scope ++ TypeParameter.settledScope declared).resolve use.1 := by
  intro use huse
  simp only [MethodSignature.variables, List.mem_append, List.mem_flatMap,
    Option.mem_toList] at huse
  rcases huse with ((⟨p, hp, t, ht, huse⟩ | ⟨t, ht, huse⟩) | ⟨t, ht, huse⟩) | ⟨t, ht, huse⟩
  · exact ((h.typeParameters p hp).2 t ht).2 use huse
  · exact (h.parameters t ht).2 use huse
  · exact (h.returnType t ht).2 use huse
  · exact (h.thrownTypes t ht).2 use huse

/-- The leftmost bound of a type parameter is a use, if it is a variable. -/
theorem mem_variables_of_firstBound? {s : MethodSignature} {i : Nat} {n : UnqualifiedName}
    {erased : BinaryName}
    (h : TypeParameter.firstBound? s.typeParameters i = some (.typeVariable n erased)) :
    (n, erased) ∈ s.variables := by
  obtain ⟨p, hp, hbound⟩ := Option.bind_eq_some_iff.1 h
  have huse : (n, erased) ∈
      s.typeParameters.flatMap fun p => p.bounds.flatMap FieldType.variables :=
    List.mem_flatMap.2 ⟨p, List.mem_of_getElem? hp, List.mem_flatMap.2
      ⟨_, List.mem_of_mem_head? hbound, List.mem_singleton.2 rfl⟩⟩
  simp only [MethodSignature.variables, List.mem_append, huse, true_or]

/-- A type parameter erases to the class that its leftmost bound carries, if the uses of variables
in the bounds have the right erasures. -/
theorem erasesTo_erasure {scope : List TypeParameter} {s : MethodSignature} {i : Nat}
    {p : TypeParameter} (hp : s.typeParameters[i]? = some p)
    (huses : ∀ use ∈ s.variables,
      TypeParameter.UseErasesTo scope s.typeParameters use.1 use.2) :
    TypeParameter.ErasesTo scope s.typeParameters i p.erasure := by
  have hfirst : TypeParameter.firstBound? s.typeParameters i = p.bounds.head? := by
    rw [TypeParameter.firstBound?, hp, Option.bind_some]
  cases hbound : p.bounds.head? with
  | none =>
      rw [TypeParameter.erasure, hbound]
      exact .unbounded (List.getElem?_eq_some_iff.1 hp).1 (hfirst.trans hbound)
  | some t =>
      rw [hbound] at hfirst
      rw [TypeParameter.erasure, hbound]
      cases t with
      | base b => exact .base hfirst
      | array element => exact .array hfirst
      | object c => exact .object hfirst
      | typeVariable n erased =>
          have huse := huses _ (mem_variables_of_firstBound? hfirst)
          change TypeParameter.ErasesTo scope s.typeParameters i erased
          cases hlast : TypeParameter.lastPosition? s.typeParameters n with
          | some j =>
              have hlast := TypeParameter.lastPosition?_eq_some_iff.1 hlast
              exact .parameter hfirst hlast (huse.1 j hlast)
          | none =>
              have hnone := TypeParameter.lastPosition?_eq_none_iff.1 hlast
              have herased : erased = TypeParameter.enclosingErasure scope n := huse.2 hnone
              rw [herased]
              exact .enclosing hfirst hnone

/-- In a signature that was read, every type parameter erases to what its leftmost bound says, and
every use of a type variable carries the erasure of the last type parameter of its name, or else
that of the enclosing declarations. -/
theorem erasures_of_parse {source : String} {scope : List TypeParameter} {s : MethodSignature}
    (h : (MethodSignature.parse source scope).outcome = .ok s)
    (hacyclic : TypeParameter.Acyclic s.typeParameters) :
    (∀ i p, s.typeParameters[i]? = some p →
      ∀ b, TypeParameter.ErasesTo scope s.typeParameters i b ↔ p.erasure = b) ∧
    ∀ use ∈ s.variables, TypeParameter.UseErasesTo scope s.typeParameters use.1 use.2 := by
  obtain ⟨-, declared, hreadable⟩ := Signature.sound_whole (Signature.sound_methodSignature _) h
  have huses : ∀ use ∈ s.variables,
      TypeParameter.UseErasesTo scope s.typeParameters use.1 use.2 := by
    intro use huse
    rw [hreadable.resolved use huse]
    rw [hreadable.settled] at hacyclic ⊢
    exact TypeParameter.useErasesTo_resolve hreadable.bounds hacyclic use.1
  refine ⟨?_, huses⟩
  intro i p hp b
  have herases := erasesTo_erasure hp huses
  constructor
  · exact fun hb => herases.unique hb
  · rintro rfl
    exact herases

/-- Two enclosing declarations, the second of which is hidden by the signature below. -/
def shadowedScope : List TypeParameter :=
  [⟨⟨"S", rfl⟩, some (.ofName ⟨"a/N"⟩), []⟩, ⟨⟨"R", rfl⟩, some (.ofName ⟨"b/O"⟩), []⟩]

/-- A method with a bound on an earlier type parameter, which has a bound on a later one. -/
def forwardSignature : MethodSignature :=
  let use (n : UnqualifiedName) : FieldType := .typeVariable n ⟨"c/M"⟩
  ⟨[⟨⟨"U", rfl⟩, none, [use ⟨"V", rfl⟩]⟩, ⟨⟨"R", rfl⟩, some (use ⟨"U", rfl⟩), []⟩,
      ⟨⟨"V", rfl⟩, some (.ofName ⟨"c/M"⟩), []⟩],
    [use ⟨"R", rfl⟩, .array (.typeVariable ⟨"S", rfl⟩ ⟨"a/N"⟩)], none, []⟩

/-- The bounds lead to parameters that are declared later, and one of them hides a variable of the
scope. -/
theorem erasures_of_parse_forward :
    (MethodSignature.parse "<U::TV;R:TU;V:Lc/M;>(TR;[TS;)V" shadowedScope).outcome =
        .ok forwardSignature ∧
      TypeParameter.Acyclic forwardSignature.typeParameters ∧
      TypeParameter.ErasesTo shadowedScope forwardSignature.typeParameters 1 ⟨"c/M"⟩ ∧
      TypeParameter.UseErasesTo shadowedScope forwardSignature.typeParameters ⟨"S", rfl⟩
        ⟨"a/N"⟩ := by
  have hparse : (MethodSignature.parse "<U::TV;R:TU;V:Lc/M;>(TR;[TS;)V" shadowedScope).outcome =
      .ok forwardSignature := by cbv
  have hlinks : forwardSignature.typeParameters.map
      (TypeParameter.link forwardSignature.typeParameters) = [some 2, some 0, none] := by cbv
  have hacyclic : TypeParameter.Acyclic forwardSignature.typeParameters := by
    refine TypeParameter.acyclic_of_leadsTo ?_
    rw [hlinks]
    intro i hi
    have hlength : i < 3 := hi
    have hcases : i = 0 ∨ i = 1 ∨ i = 2 := by omega
    rcases hcases with rfl | rfl | rfl
    · exact ⟨1, 2, .step rfl (.stop rfl)⟩
    · exact ⟨2, 2, .step rfl (.step rfl (.stop rfl))⟩
    · exact ⟨0, 2, .stop rfl⟩
  have herasures := erasures_of_parse hparse hacyclic
  have hp : forwardSignature.typeParameters[1]? =
      some ⟨⟨"R", rfl⟩, some (.typeVariable ⟨"U", rfl⟩ ⟨"c/M"⟩), []⟩ := rfl
  have huse : (⟨⟨"S", rfl⟩, ⟨"a/N"⟩⟩ : UnqualifiedName × BinaryName) ∈
      forwardSignature.variables := by
    decide
  exact ⟨hparse, hacyclic, (herasures.1 1 _ hp _).2 rfl, herasures.2 _ huse⟩

end MethodSignature
end JvmMethods
