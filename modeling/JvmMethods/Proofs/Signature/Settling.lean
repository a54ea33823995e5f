import Mathlib.Data.List.Induction
import Mathlib.Data.List.Perm.Subperm
import Mathlib.Logic.Relation
import JvmMethods.Signature.Scope

/-!
# Settling the erasures of type parameters

A type parameter that is bounded by another one of its list is linked to it.  Following the links
from a parameter gives a chain, which ends at a parameter without a link unless it runs in a
circle.  One round over the list, in place and in order, lengthens the chains whose erasures are
right by at least one link, and spoils none.  A chain without circles is shorter than the list, so
as many rounds as the list is long settle all of them.

Main results:

- Theorem {lit}`TypeParameter.exists_leadsTo`: where links never run in a circle, every chain ends
  within as many links as there are parameters.
- Theorem {lit}`TypeParameter.Settled.propagate`: a round settles the chains that are longer by one
  link.
- Theorem {lit}`TypeParameter.settledErasures_eq`: a parameter takes over the erasure of the
  parameter that its chain ends at.
-/

namespace JvmMethods
namespace TypeParameter

/-! ## Chains of links -/

/-- The parameter at one position is linked to the one at another position. -/
def Linked (links : List (Option Nat)) (i j : Nat) : Prop :=
  links[i]? = some (some j)

/-- The chain from one position ends at another position, within some number of links. -/
inductive LeadsTo (links : List (Option Nat)) : Nat → Nat → Nat → Prop where
  | stop {count i : Nat} (hi : links[i]? = some none) : LeadsTo links count i i
  | step {count i j last : Nat} (hi : Linked links i j) (hj : LeadsTo links count j last) :
      LeadsTo links (count + 1) i last

variable {links : List (Option Nat)}

theorem LeadsTo.lt_length {count i last : Nat} (h : LeadsTo links count i last) :
    i < links.length := by
  cases h with
  | stop hi => exact (List.getElem?_eq_some_iff.1 hi).1
  | step hi hj => exact (List.getElem?_eq_some_iff.1 hi).1

theorem LeadsTo.last_lt_length {count i last : Nat} (h : LeadsTo links count i last) :
    last < links.length := by
  induction h with
  | stop hi => exact (List.getElem?_eq_some_iff.1 hi).1
  | step hi hj ih => exact ih

/-- A chain that has passed some positions already ends within as many links as there are positions
left. -/
theorem exists_leadsTo_of_passed (hrange : ∀ i j, Linked links i j → j < links.length)
    (hacyclic : ∀ i, ¬ Relation.TransGen (Linked links) i i) {count i : Nat}
    (hi : i < links.length) {passed : List Nat} (hnodup : passed.Nodup)
    (hpassed : ∀ j ∈ passed, j < links.length ∧ Relation.TransGen (Linked links) j i)
    (hcount : passed.length + count = links.length) :
    ∃ last, LeadsTo links count i last := by
  -- Coming back to a position that was passed would close a circle.
  have hfresh : i ∉ passed := fun hmem => hacyclic i (hpassed i hmem).2
  have hnodup' : (i :: passed).Nodup := List.nodup_cons.2 ⟨hfresh, hnodup⟩
  induction count generalizing i passed with
  | zero =>
      have hsub : i :: passed ⊆ List.range links.length := by
        intro j hj
        rcases List.mem_cons.1 hj with rfl | hj
        · exact List.mem_range.2 hi
        · exact List.mem_range.2 (hpassed j hj).1
      have hlength := (hnodup'.subperm hsub).length_le
      rw [List.length_cons, List.length_range] at hlength
      omega
  | succ count ih =>
      cases hlink : links[i]? with
      | none => exact absurd (List.getElem?_eq_none_iff.1 hlink) (by omega)
      | some link =>
          cases link with
          | none => exact ⟨i, .stop hlink⟩
          | some j =>
              have hlinked : Linked links i j := hlink
              have hpassed' : ∀ k ∈ i :: passed,
                  k < links.length ∧ Relation.TransGen (Linked links) k j := by
                intro k hk
                rcases List.mem_cons.1 hk with rfl | hk
                · exact ⟨hi, .single hlinked⟩
                · exact ⟨(hpassed k hk).1, (hpassed k hk).2.tail hlinked⟩
              have hfresh' : j ∉ i :: passed := fun hmem => hacyclic j (hpassed' j hmem).2
              have hlength : (i :: passed).length + count = links.length := by
                rw [List.length_cons]
                omega
              obtain ⟨last, hlast⟩ := ih (hrange i j hlinked) hnodup' hpassed' hlength hfresh'
                (List.nodup_cons.2 ⟨hfresh', hnodup'⟩)
              exact ⟨last, .step hlinked hlast⟩

/-- Where links never run in a circle, every chain ends within as many links as there are
parameters. -/
theorem exists_leadsTo (hrange : ∀ i j, Linked links i j → j < links.length)
    (hacyclic : ∀ i, ¬ Relation.TransGen (Linked links) i i) {i : Nat} (hi : i < links.length) :
    ∃ last, LeadsTo links links.length i last :=
  exists_leadsTo_of_passed hrange hacyclic hi List.nodup_nil
    (fun _ hj => absurd hj List.not_mem_nil) (Nat.zero_add _)

/-- A chain that ends does not run in a circle. -/
theorem LeadsTo.not_transGen {count i last : Nat} (h : LeadsTo links count i last) :
    ¬ Relation.TransGen (Linked links) i i := by
  induction h with
  | stop hi =>
      intro hcircle
      obtain ⟨j, hj, -⟩ := Relation.TransGen.head'_iff.1 hcircle
      exact absurd (hi.symm.trans hj) (by simp)
  | step hi hj ih =>
      intro hcircle
      obtain ⟨k, hk, hback⟩ := Relation.TransGen.head'_iff.1 hcircle
      have hsame := hi.symm.trans hk
      cases hsame
      exact ih (Relation.TransGen.tail' hback hi)

/-! ## Rounds -/

variable {initial erasures : List BinaryName} {count : Nat}

/-- The parameters whose chains end within some number of links have the erasures that the ends of
their chains had at first. -/
def Settled (links : List (Option Nat)) (initial : List BinaryName) (count : Nat)
    (erasures : List BinaryName) : Prop :=
  ∀ i last, LeadsTo links count i last → erasures[i]? = initial[last]?

/-- At first the parameters without a link are settled. -/
theorem settled_initial (links : List (Option Nat)) (initial : List BinaryName) :
    Settled links initial 0 initial := by
  intro i last h
  cases h
  rfl

/-- The turn of one parameter does not change the erasures of the others. -/
theorem getElem?_follow_of_ne {link : Option Nat} {i k : Nat} (h : i ≠ k) :
    (follow erasures (link, i))[k]? = erasures[k]? := by
  rw [follow]
  split
  · exact List.getElem?_set_ne h
  · rfl

/-- A parameter that takes its turn is settled one link further. -/
theorem Settled.getElem?_follow (h : Settled links initial count erasures)
    (hinitial : initial.length = links.length) (hlength : erasures.length = links.length)
    {link : Option Nat} {i last : Nat} (hlink : links[i]? = some link)
    (hlast : LeadsTo links (count + 1) i last) :
    (follow erasures (link, i))[i]? = initial[last]? := by
  have hi := hlast.lt_length
  have hbelow : last < initial.length := hinitial.symm ▸ hlast.last_lt_length
  cases hlast with
  | stop hnone =>
      rw [hlink] at hnone
      cases hnone
      exact h i i (.stop hlink)
  | step hsome hj =>
      rename_i j
      rw [Linked, hlink] at hsome
      cases hsome
      have htarget := h j last hj
      have hknown : initial[last]? = some initial[last] := List.getElem?_eq_getElem _
      rw [hknown] at htarget ⊢
      simp only [TypeParameter.follow, Option.bind_some, htarget]
      exact List.getElem?_set_self (hlength.symm ▸ hi)

/-- A chain that ends within some number of links ends within one more. -/
theorem LeadsTo.succ {i last : Nat} (h : LeadsTo links count i last) :
    LeadsTo links (count + 1) i last := by
  induction h with
  | stop hi => exact .stop hi
  | step hi hj ih => exact .step hi ih

/-- Everything stays settled when a parameter takes its turn. -/
theorem Settled.follow (h : Settled links initial count erasures)
    (hinitial : initial.length = links.length) (hlength : erasures.length = links.length)
    {link : Option Nat} {i : Nat} (hlink : links[i]? = some link) :
    Settled links initial count (follow erasures (link, i)) := by
  intro k last hlast
  by_cases hk : i = k
  · subst hk
    exact h.getElem?_follow hinitial hlength hlink hlast.succ
  · rw [getElem?_follow_of_ne hk]
    exact h k last hlast

/-- While parameters take their turns, everything stays settled, and those that had their turns are
settled one link further. -/
theorem Settled.foldl_follow (h : Settled links initial count erasures)
    (hinitial : initial.length = links.length) (hlength : erasures.length = links.length)
    {steps : List (Option Nat × Nat)} (hsteps : ∀ s ∈ steps, links[s.2]? = some s.1) :
    Settled links initial count (steps.foldl TypeParameter.follow erasures) ∧
      (steps.foldl TypeParameter.follow erasures).length = links.length ∧
      ∀ s ∈ steps, ∀ last, LeadsTo links (count + 1) s.2 last →
        (steps.foldl TypeParameter.follow erasures)[s.2]? = initial[last]? := by
  induction steps using List.reverseRecOn with
  | nil => exact ⟨h, hlength, fun _ hs => absurd hs List.not_mem_nil⟩
  | append_singleton steps s ih =>
      obtain ⟨hsettled, hlen, hdone⟩ := ih fun s' hs' => hsteps s' (List.mem_append_left _ hs')
      have hlink : links[s.2]? = some s.1 := hsteps s (by simp)
      rw [List.foldl_append, List.foldl_cons, List.foldl_nil]
      refine ⟨hsettled.follow hinitial hlen hlink, by rw [length_follow, hlen], ?_⟩
      intro s' hs' last hlast
      by_cases hsame : s.2 = s'.2
      · rw [← hsame] at hlast ⊢
        exact hsettled.getElem?_follow hinitial hlen hlink hlast
      · rw [getElem?_follow_of_ne hsame]
        rcases List.mem_append.1 hs' with hs' | hs'
        · exact hdone s' hs' last hlast
        · exact absurd (congrArg Prod.snd (List.mem_singleton.1 hs')).symm hsame

/-- A round settles the chains that are longer by one link. -/
theorem Settled.propagate (h : Settled links initial count erasures)
    (hinitial : initial.length = links.length) (hlength : erasures.length = links.length) :
    Settled links initial (count + 1) (propagate links erasures) := by
  obtain ⟨-, -, hdone⟩ := h.foldl_follow hinitial hlength fun s hs =>
    List.mem_zipIdx_iff_getElem?.1 hs
  intro i last hlast
  have hi := hlast.lt_length
  refine hdone (links[i], i) (List.mem_zipIdx_iff_getElem?.2 ?_) last hlast
  exact List.getElem?_eq_getElem hi

/-- So many rounds settle the chains with so many links. -/
theorem settled_repeat (hinitial : initial.length = links.length) (count : Nat) :
    Settled links initial count (Nat.repeat (propagate links) count initial) ∧
      (Nat.repeat (propagate links) count initial).length = links.length := by
  induction count with
  | zero => exact ⟨settled_initial links initial, hinitial⟩
  | succ count ih =>
      refine ⟨ih.1.propagate hinitial ih.2, ?_⟩
      rw [Nat.repeat, length_propagate]
      exact ih.2

/-- A parameter takes over the erasure of the parameter that its chain ends at. -/
theorem settledErasures_eq {ps : List TypeParameter} {i last : Nat}
    (h : LeadsTo (ps.map (link ps)) ps.length i last) :
    (settledErasures ps)[i]? = (ps.map erasure)[last]? := by
  have hinitial : (ps.map erasure).length = (ps.map (link ps)).length := by
    rw [List.length_map, List.length_map]
  exact (settled_repeat hinitial ps.length).1 i last h

end TypeParameter
end JvmMethods
