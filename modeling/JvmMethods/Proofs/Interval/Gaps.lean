import Mathlib
import JvmMethods.Proofs.Interval.Canonical
import JvmMethods.Proofs.Interval.Complement

/-!
# What intervals leave of a universe

A walk over ascending intervals leaves the gaps before, between and behind them.  Counted together
with the intervals, the gaps hold every offset of the universe once, and no other offset.  Two gaps
always have an interval between them.  So if the intervals hold offsets, the gaps are separate, and
what the gaps leave in turn covers the offsets of the intervals.  Separate intervals are determined
by the offsets that they cover, so it is the merged intervals again.

Main results:

- Theorem {lit}`Interval.multiplicity_gapsFrom`: intervals and gaps hold every offset once.
- Theorem {lit}`Interval.pairwise_gapsFrom`: there is an interval between two gaps.
- Theorem {lit}`Interval.isComplement_gapsFrom`: the gaps are a complement.
- Theorem {lit}`Interval.complement_gapsFrom`: the complement of the gaps is the merged intervals.
- Theorem {lit}`Interval.complement_exact`: when there is a complement, and what it holds.
-/

namespace JvmMethods
namespace Interval

variable {size position offset : Int} {rs gaps : List Interval}

/-! ## How often intervals hold an offset -/

/-- The number of intervals that hold an offset. -/
def multiplicity (rs : List Interval) (offset : Int) : Nat :=
  rs.countP fun r => r.contains offset

@[simp]
theorem multiplicity_nil : multiplicity [] offset = 0 :=
  rfl

/-- The first interval counts if it holds the offset. -/
theorem multiplicity_cons (r : Interval) (rs : List Interval) (offset : Int) :
    multiplicity (r :: rs) offset =
      (if r.start ≤ offset ∧ offset < r.stop then 1 else 0) + multiplicity rs offset := by
  rw [multiplicity, List.countP_cons, Nat.add_comm, multiplicity]
  simp only [contains_iff]

/-- The intervals of two lists are counted one list after the other. -/
theorem multiplicity_append (rs qs : List Interval) (offset : Int) :
    multiplicity (rs ++ qs) offset = multiplicity rs offset + multiplicity qs offset :=
  List.countP_append

/-- An offset is covered exactly if at least one interval holds it. -/
theorem multiplicity_pos_iff : 0 < multiplicity rs offset ↔ Covers rs offset :=
  List.countP_pos_iff

/-! ## Intervals inside a universe -/

/-- Some intervals are the right way round and follow one another from {lit}`position` up to
{lit}`size`. -/
inductive Within (size : Int) : Int → List Interval → Prop where
  | nil {position : Int} (h : position ≤ size) : Within size position []
  | cons {position : Int} {r : Interval} {rest : List Interval} (hstart : position ≤ r.start)
      (hproper : r.start ≤ r.stop) (hrest : Within size r.stop rest) :
      Within size position (r :: rest)

/-- There is room between the place that was reached and the end. -/
theorem Within.le (h : Within size position rs) : position ≤ size := by
  induction h with
  | nil h => exact h
  | cons hstart hproper hrest ih => omega

/-- No interval between the place that was reached and the end runs backwards. -/
theorem Within.proper (h : Within size position rs) : ∀ r ∈ rs, r.start ≤ r.stop := by
  induction h with
  | nil h => exact fun r hr => absurd hr List.not_mem_nil
  | cons hstart hproper hrest ih => exact List.forall_mem_cons.2 ⟨hproper, ih⟩

/-- Separate intervals between two offsets follow one another. -/
theorem Separated.within (h : Separated rs) (hproper : ∀ r ∈ rs, r.start ≤ r.stop)
    (hstart : ∀ r ∈ rs, position ≤ r.start) (hstop : ∀ r ∈ rs, r.stop ≤ size)
    (hle : position ≤ size) : Within size position rs := by
  induction rs generalizing position with
  | nil => exact .nil hle
  | cons r rest ih =>
      rcases List.pairwise_cons.1 (h.pairwise hproper) with ⟨hafter, -⟩
      rcases List.forall_mem_cons.1 hproper with ⟨hr, hproper⟩
      rcases List.forall_mem_cons.1 hstop with ⟨hrstop, hstop⟩
      have hrest := ih h.tail hproper (fun n hn => Int.le_of_lt (hafter n hn)) hstop hrstop
      exact .cons (hstart r List.mem_cons_self) hr hrest

/-! ## Gaps -/

/-- The gap between two offsets, if there is one. -/
def gap (start stop : Int) : List Interval :=
  if start = stop then [] else [⟨start, stop⟩]

theorem gapsFrom_nil (size position : Int) : gapsFrom size position [] = gap position size :=
  rfl

/-- The gap in front of an interval comes before those behind it. -/
theorem gapsFrom_cons (size position : Int) (r : Interval) (rest : List Interval) :
    gapsFrom size position (r :: rest) = gap position r.start ++ gapsFrom size r.stop rest := by
  rw [gapsFrom, gap]
  split
  · rfl
  · rfl

/-- The gap between two offsets is there unless they are the same. -/
theorem mem_gap_iff {start stop : Int} {g : Interval} :
    g ∈ gap start stop ↔ start ≠ stop ∧ g = ⟨start, stop⟩ := by
  rw [gap]
  split
  · simp_all
  · simp_all

/-- The gap between two offsets holds every offset between them once. -/
theorem multiplicity_gap {start stop : Int} :
    multiplicity (gap start stop) offset = if start ≤ offset ∧ offset < stop then 1 else 0 := by
  rw [gap]
  split
  · rw [multiplicity_nil, if_neg (by omega)]
  · rw [multiplicity_cons, multiplicity_nil, Nat.add_zero]

/-- Intervals and gaps hold every offset of the universe once, and no other offset. -/
theorem multiplicity_gapsFrom (h : Within size position rs) (offset : Int) :
    multiplicity (rs ++ gapsFrom size position rs) offset =
      if position ≤ offset ∧ offset < size then 1 else 0 := by
  rw [multiplicity_append]
  induction h with
  | nil hle => rw [gapsFrom_nil, multiplicity_gap, multiplicity_nil, Nat.zero_add]
  | @cons position r rest hstart hproper hrest ih =>
      have hle := hrest.le
      rw [gapsFrom_cons, multiplicity_append, multiplicity_cons, multiplicity_gap]
      -- The offset lies in the gap, in the interval, or in what is behind both.
      split_ifs at ih ⊢ <;> omega

/-- Gaps are not empty, and lie between the place that was reached and the end. -/
theorem bounds_of_mem_gapsFrom (h : Within size position rs) :
    ∀ g ∈ gapsFrom size position rs, position ≤ g.start ∧ g.start < g.stop ∧ g.stop ≤ size := by
  induction h with
  | nil hle =>
      intro g hg
      rw [gapsFrom_nil, mem_gap_iff] at hg
      obtain ⟨hne, rfl⟩ := hg
      simp only
      omega
  | @cons position r rest hstart hproper hrest ih =>
      have hle := hrest.le
      intro g hg
      rw [gapsFrom_cons, List.mem_append, mem_gap_iff] at hg
      rcases hg with ⟨hne, rfl⟩ | hg
      · simp only
        omega
      · have hbounds := ih g hg
        omega

/-- There is an interval between two gaps. -/
theorem pairwise_gapsFrom (h : Within size position rs) :
    (gapsFrom size position rs).Pairwise
      fun a b => ∃ r ∈ rs, a.stop ≤ r.start ∧ r.stop ≤ b.start := by
  have hgap : ∀ {R : Interval → Interval → Prop} (start stop : Int),
      (gap start stop).Pairwise R := by
    intro R start stop
    rw [gap]
    split
    · exact List.Pairwise.nil
    · exact List.pairwise_singleton _ _
  induction h with
  | nil hle => exact hgap _ _
  | @cons position r rest hstart hproper hrest ih =>
      rw [gapsFrom_cons, List.pairwise_append]
      refine ⟨hgap _ _, ih.imp ?_, ?_⟩
      · rintro a b ⟨n, hn, hbetween⟩
        exact ⟨n, List.mem_cons_of_mem r hn, hbetween⟩
      · intro a ha b hb
        obtain ⟨-, rfl⟩ := mem_gap_iff.1 ha
        exact ⟨r, List.mem_cons_self, Int.le_refl _, (bounds_of_mem_gapsFrom hrest b hb).1⟩

/-- The gaps that intervals with offsets leave are separate. -/
theorem separated_gapsFrom (h : Within size position rs) (hnonempty : ∀ r ∈ rs, r.start < r.stop) :
    Separated (gapsFrom size position rs) := by
  apply List.Pairwise.isChain
  refine (pairwise_gapsFrom h).imp ?_
  rintro a b ⟨r, hr, hbefore, hafter⟩
  have hlt := hnonempty r hr
  omega

/-! ## Complements -/

/-- Some gaps are what intervals leave of the offsets from zero up to {lit}`size`. -/
structure IsComplement (size : Int) (rs gaps : List Interval) : Prop where
  nonempty : ∀ g ∈ gaps, g.start < g.stop
  inside : ∀ g ∈ gaps, 0 ≤ g.start ∧ g.stop ≤ size
  ascending : gaps.Pairwise fun a b => a.stop ≤ b.start
  once : ∀ offset, 0 ≤ offset → offset < size → multiplicity (rs ++ gaps) offset = 1

/-- The gaps that ascending intervals leave are their complement. -/
theorem isComplement_gapsFrom (h : Within size 0 rs) :
    IsComplement size rs (gapsFrom size 0 rs) where
  nonempty g hg := (bounds_of_mem_gapsFrom h g hg).2.1
  inside g hg := ⟨(bounds_of_mem_gapsFrom h g hg).1, (bounds_of_mem_gapsFrom h g hg).2.2⟩
  ascending := by
    refine (pairwise_gapsFrom h).imp ?_
    rintro a b ⟨r, hr, hbefore, hafter⟩
    have hle := h.proper r hr
    omega
  once offset hstart hstop := by rw [multiplicity_gapsFrom h, if_pos ⟨hstart, hstop⟩]

/-- The complement of the gaps that separate intervals with offsets leave is these intervals. -/
theorem complement_gapsFrom (hsize : 0 < size) (hseparated : Separated rs)
    (hnonempty : ∀ r ∈ rs, r.start < r.stop) (hwithin : Within size 0 rs) :
    (complement (gapsFrom size 0 rs) size).outcome = .ok rs := by
  have hgaps := separated_gapsFrom hwithin hnonempty
  have hbounds := bounds_of_mem_gapsFrom hwithin
  have hgapsNonempty : ∀ g ∈ gapsFrom size 0 rs, g.start < g.stop :=
    fun g hg => (hbounds g hg).2.1
  have hgapsAscending : Ascending (gapsFrom size 0 rs) :=
    (hgaps.pairwise_start_lt hgapsNonempty).imp Int.le_of_lt
  have hgapsWithin : Within size 0 (gapsFrom size 0 rs) :=
    hgaps.within (fun g hg => Int.le_of_lt (hgapsNonempty g hg)) (fun g hg => (hbounds g hg).1)
      (fun g hg => (hbounds g hg).2.2) (Int.le_of_lt hsize)
  rw [complement_eq_ok hsize fun g hg => (hbounds g hg).2.2,
    normalize_of_separated hgapsAscending hgaps]
  have hagain := separated_gapsFrom hgapsWithin hgapsNonempty
  have hagainNonempty : ∀ r ∈ gapsFrom size 0 (gapsFrom size 0 rs), r.start < r.stop :=
    fun r hr => (bounds_of_mem_gapsFrom hgapsWithin r hr).2.1
  -- Both lists are separate, so it is enough that they cover the same offsets.
  refine congrArg Except.ok (hagain.eq_of_covers hagainNonempty hseparated hnonempty ?_)
  intro offset
  have hfirst := multiplicity_gapsFrom hwithin offset
  have hsecond := multiplicity_gapsFrom hgapsWithin offset
  rw [multiplicity_append] at hfirst hsecond
  rw [← multiplicity_pos_iff, ← multiplicity_pos_iff]
  omega

/-- Merged intervals that lie in a universe follow one another in it. -/
theorem within_normalize (hsize : 0 < size) (h : ∀ r ∈ rs, 0 ≤ r.start ∧ r.start ≤ r.stop)
    (hstop : ∀ r ∈ rs, r.stop ≤ size) : Within size 0 (normalize rs) := by
  have hnormal : ∀ r ∈ normalize rs, 0 ≤ r.start ∧ r.start ≤ r.stop := by
    apply forall_normalize _ h
    intro a b ha _
    simp only
    omega
  exact (separated_normalize rs).within (fun r hr => (hnormal r hr).2)
    (fun r hr => (hnormal r hr).1) (normalize_stop_le_iff.2 hstop) (Int.le_of_lt hsize)

/-- Intervals have a complement exactly if none of them reaches past the universe.  It is what the
merged intervals leave, and if no interval is empty, its own complement is the merged intervals. -/
theorem complement_exact {rs : List (Option Interval)} {size : Int} (hsize : 0 < size)
    (h : ∀ r, some r ∈ rs → 0 ≤ r.start ∧ r.start ≤ r.stop) :
    ((∃ gaps, (complement (present rs) size).outcome = .ok gaps) ↔
        ∀ r, some r ∈ rs → r.stop ≤ size) ∧
      (∀ e, (complement (present rs) size).outcome = .error e → e.kind = .invariantViolation) ∧
      ∀ gaps, (complement (present rs) size).outcome = .ok gaps →
        IsComplement size (normalize (present rs)) gaps ∧
          ((∀ r, some r ∈ rs → r.start < r.stop) →
            (complement gaps size).outcome = .ok (normalize (present rs))) := by
  simp only [← mem_present_iff] at h ⊢
  apply eq_ok_iff_and_forall
  · intro hinside
    have hwithin := within_normalize hsize h hinside
    refine ⟨_, complement_eq_ok hsize hinside, isComplement_gapsFrom hwithin, ?_⟩
    intro hnonempty
    exact complement_gapsFrom hsize (separated_normalize _) (normalize_nonempty hnonempty) hwithin
  · intro houtside
    obtain ⟨last, -, herror⟩ := complement_eq_error hsize (fun r hr => (h r hr).2) houtside
    exact ⟨_, herror, rfl⟩

/-- Intervals that overlap or stand apart, one of which is absent. -/
def apartAndOverlapping : List (Option Interval) :=
  [some ⟨4, 9⟩, some ⟨2, 5⟩, none, some ⟨14, 16⟩, some ⟨11, 12⟩]

/-- The complement of overlapping intervals has as its complement what they are merged into. -/
theorem complement_exact_overlapping :
    (∀ r, some r ∈ apartAndOverlapping → 0 ≤ r.start ∧ r.start ≤ r.stop) ∧
      (complement (present apartAndOverlapping) 20).outcome =
        .ok [⟨0, 2⟩, ⟨9, 11⟩, ⟨12, 14⟩, ⟨16, 20⟩] ∧
      IsComplement 20 (normalize (present apartAndOverlapping))
        [⟨0, 2⟩, ⟨9, 11⟩, ⟨12, 14⟩, ⟨16, 20⟩] ∧
      (complement [⟨0, 2⟩, ⟨9, 11⟩, ⟨12, 14⟩, ⟨16, 20⟩] 20).outcome =
        .ok (normalize (present apartAndOverlapping)) := by
  have h : ∀ r, some r ∈ apartAndOverlapping → 0 ≤ r.start ∧ r.start ≤ r.stop := by
    simp [apartAndOverlapping]
  have hnonempty : ∀ r, some r ∈ apartAndOverlapping → r.start < r.stop := by
    simp [apartAndOverlapping]
  have hok : (complement (present apartAndOverlapping) 20).outcome =
      .ok [⟨0, 2⟩, ⟨9, 11⟩, ⟨12, 14⟩, ⟨16, 20⟩] := by
    change (complement [⟨4, 9⟩, ⟨2, 5⟩, ⟨14, 16⟩, ⟨11, 12⟩] 20).outcome = _
    cbv
  obtain ⟨hcomplement, hagain⟩ := (complement_exact (by omega) h).2.2 _ hok
  exact ⟨h, hok, hcomplement, hagain hnonempty⟩

end Interval
end JvmMethods
