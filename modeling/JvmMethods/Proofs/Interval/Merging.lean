import JvmMethods.Interval
import Mathlib.Data.List.Chain

/-!
# Merged intervals

Merging sorts intervals by their starts and sweeps over them once.  The sweep carries the interval
that is still growing.  What comes out covers the same offsets, and every interval ends before the
next one starts.  None of this asks that intervals are the right way round: an interval that starts
after its stop covers nothing, and merging it changes nothing.

Main results:

- Theorem {lit}`Interval.covers_normalize_iff`: merging keeps the covered offsets.
- Theorem {lit}`Interval.separated_normalize`: merged intervals leave gaps between them.
- Theorem {lit}`Interval.normalize_of_separated`: merging changes nothing about intervals that are
  merged already.
- Theorem {lit}`Interval.forall_normalize`: what merging two intervals keeps, merging all of them
  keeps.
- Theorem {lit}`Interval.normalize_stop_le_iff`: merged intervals reach no further than the
  intervals they were merged from.
-/

namespace JvmMethods
namespace Interval

/-! ## Covered offsets -/

/-- Some interval of the list holds the offset. -/
def Covers (rs : List Interval) (offset : Int) : Prop :=
  ∃ r ∈ rs, r.contains offset = true

/-- An offset is covered by the first interval or by the others. -/
theorem covers_cons_iff {r : Interval} {rs : List Interval} {offset : Int} :
    Covers (r :: rs) offset ↔ r.contains offset = true ∨ Covers rs offset := by
  simp [Covers]

/-- Every interval ends before the next one starts. -/
def Separated (rs : List Interval) : Prop :=
  rs.IsChain fun a b => a.stop < b.start

/-- The intervals are ordered by their starts. -/
def Ascending (rs : List Interval) : Prop :=
  rs.Pairwise fun a b => a.start ≤ b.start

/-- Separate intervals that are the right way round end before all that follow. -/
theorem Separated.pairwise {rs : List Interval} (h : Separated rs)
    (hproper : ∀ r ∈ rs, r.start ≤ r.stop) : rs.Pairwise fun a b => a.stop < b.start := by
  induction rs with
  | nil => exact List.Pairwise.nil
  | cons r rs ih =>
      rcases List.forall_mem_cons.1 hproper with ⟨_, hrest⟩
      have htail := ih h.tail hrest
      refine List.pairwise_cons.2 ⟨?_, htail⟩
      intro n hn
      cases rs with
      | nil => cases hn
      | cons next rs =>
          have hnext : r.stop < next.start := (List.isChain_cons_cons.1 h).1
          have hnextProper := hrest next List.mem_cons_self
          rcases List.mem_cons.1 hn with rfl | hn
          · exact hnext
          · have hlater := (List.pairwise_cons.1 htail).1 n hn
            omega

/-! ## The sweep -/

/-- The first interval that comes out starts where the sweep started. -/
theorem sweep_eq_cons (current : Interval) (rest : List Interval) :
    ∃ stop tail, sweep current rest = ⟨current.start, stop⟩ :: tail := by
  induction rest generalizing current with
  | nil => exact ⟨current.stop, [], rfl⟩
  | cons next rest ih =>
      rw [sweep]
      split
      · exact ih _
      · exact ⟨current.stop, sweep next rest, rfl⟩

/-- What merging two intervals keeps, the sweep keeps. -/
theorem forall_sweep {P : Interval → Prop}
    (hmerge : ∀ a b, P a → P b → P ⟨a.start, max a.stop b.stop⟩) {current : Interval}
    {rest : List Interval} (hcurrent : P current) (hrest : ∀ r ∈ rest, P r) :
    ∀ r ∈ sweep current rest, P r := by
  induction rest generalizing current with
  | nil =>
      rw [sweep, List.forall_mem_singleton]
      exact hcurrent
  | cons next rest ih =>
      rcases List.forall_mem_cons.1 hrest with ⟨hnext, hrest⟩
      rw [sweep]
      split
      · exact ih (hmerge current next hcurrent hnext) hrest
      · exact List.forall_mem_cons.2 ⟨hcurrent, ih hnext hrest⟩

/-- Merging leaves a gap between every two intervals. -/
theorem separated_sweep (current : Interval) (rest : List Interval) :
    Separated (sweep current rest) := by
  induction rest generalizing current with
  | nil => exact List.isChain_singleton _
  | cons next rest ih =>
      rw [sweep]
      split
      · exact ih _
      · rename_i hgap
        rcases sweep_eq_cons next rest with ⟨stop, tail, htail⟩
        have hnext := ih next
        rw [htail] at hnext ⊢
        exact List.isChain_cons_cons.2 ⟨Int.not_le.1 hgap, hnext⟩

/-- Merging keeps intervals in ascending order. -/
theorem ascending_sweep {current : Interval} {rest : List Interval}
    (hsorted : Ascending (current :: rest)) : Ascending (sweep current rest) := by
  induction rest generalizing current with
  | nil => exact hsorted
  | cons next rest ih =>
      rcases List.pairwise_cons.1 hsorted with ⟨hcurrent, hnextSorted⟩
      rcases List.forall_mem_cons.1 hcurrent with ⟨hnext, hrest⟩
      rw [sweep]
      split
      · exact ih (List.pairwise_cons.2 ⟨hrest, (List.pairwise_cons.1 hnextSorted).2⟩)
      · refine List.pairwise_cons.2 ⟨?_, ih hnextSorted⟩
        exact forall_sweep (P := fun r => current.start ≤ r.start) (fun _ _ ha _ => ha) hnext hrest

/-- Separate intervals pass through the sweep as they are. -/
theorem sweep_of_separated {current : Interval} {rest : List Interval}
    (h : Separated (current :: rest)) : sweep current rest = current :: rest := by
  induction rest generalizing current with
  | nil => rfl
  | cons next rest ih =>
      rcases List.isChain_cons_cons.1 h with ⟨hgap, htail⟩
      rw [sweep, if_neg (Int.not_le.2 hgap), ih htail]

/-- The sweep keeps the covered offsets. -/
theorem covers_sweep_iff {current : Interval} {rest : List Interval}
    (hsorted : Ascending (current :: rest)) {offset : Int} :
    Covers (sweep current rest) offset ↔ Covers (current :: rest) offset := by
  induction rest generalizing current with
  | nil => rfl
  | cons next rest ih =>
      rcases List.pairwise_cons.1 hsorted with ⟨hcurrent, hnextSorted⟩
      have hstarts := hcurrent next List.mem_cons_self
      rw [sweep]
      split
      · rename_i htouch
        have hmerged : Ascending (⟨current.start, max current.stop next.stop⟩ :: rest) := by
          refine List.pairwise_cons.2 ⟨?_, (List.pairwise_cons.1 hnextSorted).2⟩
          intro r hr
          exact hcurrent r (List.mem_cons_of_mem next hr)
        rw [ih hmerged, covers_cons_iff, covers_cons_iff, covers_cons_iff, ← or_assoc]
        -- The two touch, so nothing lies between them that the merged interval adds.
        apply or_congr_left
        rw [contains_iff, contains_iff, contains_iff]
        simp only
        omega
      · rw [covers_cons_iff, ih hnextSorted, ← covers_cons_iff]

/-- Merged intervals end within a bound exactly if the intervals do. -/
theorem sweep_stop_le_iff {current : Interval} {rest : List Interval} {bound : Int} :
    (∀ r ∈ sweep current rest, r.stop ≤ bound) ↔
      current.stop ≤ bound ∧ ∀ r ∈ rest, r.stop ≤ bound := by
  induction rest generalizing current with
  | nil => simp [sweep]
  | cons next rest ih =>
      rw [sweep, List.forall_mem_cons]
      split
      · rw [ih, Int.max_le, and_assoc]
      · rw [List.forall_mem_cons, ih]

/-! ## Merging -/

/-- Sorting changes nothing but the order. -/
theorem sort_perm (rs : List Interval) : (sort rs).Perm rs :=
  List.mergeSort_perm rs _

/-- Sorting by a key puts the keys in order. -/
theorem pairwise_mergeSort_key {α : Type} (key : α → Int) (xs : List α) :
    (xs.mergeSort fun a b => decide (key a ≤ key b)).Pairwise fun a b => key a ≤ key b := by
  let le : α → α → Bool := fun a b => decide (key a ≤ key b)
  have htrans : ∀ a b c, le a b = true → le b c = true → le a c = true := by
    intro a b c hab hbc
    simp only [le, decide_eq_true_eq] at hab hbc ⊢
    omega
  have htotal : ∀ a b, (le a b || le b a) = true := by
    intro a b
    simp only [le, Bool.or_eq_true, decide_eq_true_eq]
    omega
  have hsorted := List.pairwise_mergeSort htrans htotal xs
  simpa only [le, decide_eq_true_eq] using hsorted

/-- Sorted intervals start in ascending order. -/
theorem ascending_sort (rs : List Interval) : Ascending (sort rs) := by
  rw [Ascending, sort]
  exact pairwise_mergeSort_key Interval.start rs

/-- Sorted intervals have the properties that the intervals have. -/
theorem forall_sort_iff {P : Interval → Prop} {rs : List Interval} :
    (∀ r ∈ sort rs, P r) ↔ ∀ r ∈ rs, P r := by
  simp only [(sort_perm rs).mem_iff]

/-- Merging keeps the covered offsets. -/
theorem covers_normalize_iff {rs : List Interval} {offset : Int} :
    Covers (normalize rs) offset ↔ Covers rs offset := by
  have hsort : Covers (sort rs) offset ↔ Covers rs offset := by
    simp only [Covers, (sort_perm rs).mem_iff]
  rw [← hsort, normalize]
  have hsorted := ascending_sort rs
  cases hrs : sort rs with
  | nil => rfl
  | cons r rest =>
      rw [hrs] at hsorted
      exact covers_sweep_iff hsorted

/-- Merged intervals leave gaps between them. -/
theorem separated_normalize (rs : List Interval) : Separated (normalize rs) := by
  rw [normalize]
  cases sort rs with
  | nil => exact List.isChain_nil
  | cons r rest => exact separated_sweep r rest

/-- Merged intervals start in ascending order. -/
theorem ascending_normalize (rs : List Interval) : Ascending (normalize rs) := by
  have hsorted := ascending_sort rs
  rw [normalize]
  cases hrs : sort rs with
  | nil => exact List.Pairwise.nil
  | cons r rest =>
      rw [hrs] at hsorted
      exact ascending_sweep hsorted

/-- Merging changes nothing about separate intervals that are in order. -/
theorem normalize_of_separated {rs : List Interval} (hascending : Ascending rs)
    (hseparated : Separated rs) : normalize rs = rs := by
  have hsort : sort rs = rs := by
    have hpairwise : rs.Pairwise fun a b => a.start ≤ b.start := hascending
    apply List.mergeSort_of_pairwise
    simpa only [decide_eq_true_eq] using hpairwise
  rw [normalize, hsort]
  cases rs with
  | nil => rfl
  | cons r rest => exact sweep_of_separated hseparated

/-- Merging a second time changes nothing. -/
theorem normalize_normalize (rs : List Interval) : normalize (normalize rs) = normalize rs :=
  normalize_of_separated (ascending_normalize rs) (separated_normalize rs)

/-- What merging two intervals keeps, merging all of them keeps. -/
theorem forall_normalize {P : Interval → Prop}
    (hmerge : ∀ a b, P a → P b → P ⟨a.start, max a.stop b.stop⟩) {rs : List Interval}
    (h : ∀ r ∈ rs, P r) : ∀ r ∈ normalize rs, P r := by
  have hsort := forall_sort_iff.2 h
  rw [normalize]
  cases hrs : sort rs with
  | nil =>
      intro r hr
      cases hr
  | cons r rest =>
      rw [hrs] at hsort
      rcases List.forall_mem_cons.1 hsort with ⟨hr, hrest⟩
      exact forall_sweep hmerge hr hrest

/-- Merged intervals reach no further than the intervals they were merged from. -/
theorem normalize_stop_le_iff {rs : List Interval} {bound : Int} :
    (∀ r ∈ normalize rs, r.stop ≤ bound) ↔ ∀ r ∈ rs, r.stop ≤ bound := by
  rw [← @forall_sort_iff _ rs, normalize]
  cases sort rs with
  | nil => rfl
  | cons r rest => rw [coalesce, sweep_stop_le_iff, List.forall_mem_cons]

end Interval
end JvmMethods
