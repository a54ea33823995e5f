import JvmMethods.Proofs.Interval.Merging

/-!
# Complements of intervals

A complement is refused if some interval reaches past the universe.  Only the last merged interval
is compared with the size, which is enough if all intervals are the right way round: then the last
one reaches furthest.

Main results:

- Theorem {lit}`Interval.Separated.stop_le_getLast`: the last of some separate intervals reaches
  furthest.
- Theorems {lit}`Interval.complement_eq_ok` and {lit}`Interval.complement_eq_error`: what a
  complement is, and when there is none.
-/

namespace JvmMethods
namespace Interval

/-- The last of some separate intervals reaches furthest. -/
theorem Separated.stop_le_getLast {rs : List Interval} (h : Separated rs)
    (hproper : ∀ r ∈ rs, r.start ≤ r.stop) {last : Interval} (hlast : rs.getLast? = some last) :
    ∀ r ∈ rs, r.stop ≤ last.stop := by
  have hpairwise := h.pairwise hproper
  rcases List.getLast?_eq_some_iff.1 hlast with ⟨init, rfl⟩
  intro r hr
  rcases List.mem_append.1 hr with hr | hr
  · have hbefore := (List.pairwise_append.1 hpairwise).2.2 r hr last (List.mem_singleton_self last)
    have hlastProper := hproper last (List.mem_append_right _ (List.mem_singleton_self last))
    omega
  · exact Int.le_of_eq (congrArg Interval.stop (List.mem_singleton.1 hr))

/-- Intervals inside the universe leave the gaps between the merged intervals. -/
theorem complement_eq_ok {rs : List Interval} {size : Int} (hsize : 0 < size)
    (h : ∀ r ∈ rs, r.stop ≤ size) :
    (complement rs size).outcome = .ok (gapsFrom size 0 (normalize rs)) := by
  have hinside := normalize_stop_le_iff.2 h
  rw [complement, if_neg (Int.not_le.2 hsize)]
  cases hlast : (normalize rs).getLast? with
  | none => rfl
  | some last =>
      have hle := hinside last (List.mem_of_getLast? hlast)
      simp only [Int.not_lt.2 hle, if_false]
      rfl

/-- If an interval reaches past the universe, the last merged one does, and is reported. -/
theorem complement_eq_error {rs : List Interval} {size : Int} (hsize : 0 < size)
    (hproper : ∀ r ∈ rs, r.start ≤ r.stop) (h : ¬ ∀ r ∈ rs, r.stop ≤ size) :
    ∃ last, (normalize rs).getLast? = some last ∧
      (complement rs size).outcome = .error (.beyondUniverse last.start last.stop size) := by
  have houtside : ¬ ∀ r ∈ normalize rs, r.stop ≤ size :=
    fun hall => h (normalize_stop_le_iff.1 hall)
  have hnormalProper : ∀ r ∈ normalize rs, r.start ≤ r.stop :=
    forall_normalize (by intro a b ha hb; simp only; omega) hproper
  rw [complement, if_neg (Int.not_le.2 hsize)]
  cases hlast : (normalize rs).getLast? with
  | none =>
      rw [List.getLast?_eq_none_iff.1 hlast] at houtside
      exact absurd (fun r hr => absurd hr List.not_mem_nil) houtside
  | some last =>
      have hfurthest := (separated_normalize rs).stop_le_getLast hnormalProper hlast
      have hlt : size < last.stop := by
        rw [← Int.not_le]
        intro hle
        exact houtside fun r hr => Int.le_trans (hfurthest r hr) hle
      refine ⟨last, rfl, ?_⟩
      simp only [hlt, if_true]
      rfl

end Interval
end JvmMethods
