import JvmMethods.Proofs.Interval.Merging
import Mathlib.Data.List.Nodup
import Mathlib.Data.List.Pairwise
import Mathlib.Data.List.Perm.Subperm

/-!
# Merged intervals as a canonical form

The offsets that some intervals cover fall into maximal runs.  Separate intervals that hold offsets
are exactly the maximal runs of what they cover, so nothing else about them matters.  Merging is
therefore a canonical form: neither the order of the intervals nor how they overlap or touch shows
in the result.  It is also the shortest form, because whatever covers the same offsets has an
interval that starts where the run starts, for every run.

Main results:

- Theorem {lit}`Interval.Separated.mem_iff_isRun`: separate intervals are the maximal runs of the
  offsets that they cover.
- Theorem {lit}`Interval.Separated.eq_of_covers`: separate intervals are determined by the offsets
  that they cover.
- Theorem {lit}`Interval.Separated.length_le`: no intervals that cover the same offsets are fewer.
- Theorem {lit}`Interval.normalize_canonical`: merging is a canonical form.
-/

namespace JvmMethods
namespace Interval

variable {rs qs ps : List Interval} {r : Interval}

/-! ## Maximal runs -/

/-- A maximal run of offsets that meet a condition. -/
structure IsRun (P : Int → Prop) (r : Interval) : Prop where
  nonempty : r.start < r.stop
  inside : ∀ offset, r.contains offset = true → P offset
  before : ¬ P (r.start - 1)
  after : ¬ P r.stop

/-- Whatever covers a maximal run has an interval that starts with it. -/
theorem IsRun.exists_start (h : IsRun (Covers ps) r) : ∃ p ∈ ps, p.start = r.start := by
  have hfirst : r.contains r.start = true := contains_iff.2 ⟨Int.le_refl _, h.nonempty⟩
  obtain ⟨p, hp, hcontains⟩ := h.inside r.start hfirst
  have hbounds := contains_iff.1 hcontains
  have hstart : ¬ p.start < r.start := by
    intro hlt
    exact h.before ⟨p, hp, contains_iff.2 (by omega)⟩
  exact ⟨p, hp, by omega⟩

/-- One of two intervals ends before the other starts. -/
def Apart (a b : Interval) : Prop :=
  a.stop < b.start ∨ b.stop < a.start

instance : Std.Symm Apart :=
  ⟨fun _ _ h => h.symm⟩

/-- Intervals of a separated list neither overlap nor touch, in whatever order they are taken. -/
theorem Separated.apart (h : Separated rs) (hproper : ∀ r ∈ rs, r.start ≤ r.stop)
    {a b : Interval} (ha : a ∈ rs) (hb : b ∈ rs) (hne : a ≠ b) : Apart a b := by
  have hapart : rs.Pairwise Apart := (h.pairwise hproper).imp Or.inl
  exact hapart.forall ha hb hne

/-- An offset that lies in a separate interval or next to it lies in no other one. -/
theorem Separated.contains_of_covers (h : Separated rs) (hproper : ∀ r ∈ rs, r.start ≤ r.stop)
    (hr : r ∈ rs) {offset : Int} (hstart : r.start - 1 ≤ offset) (hstop : offset ≤ r.stop)
    (hcovers : Covers rs offset) : r.contains offset = true := by
  obtain ⟨n, hn, hcontains⟩ := hcovers
  by_cases hsame : r = n
  · exact hsame ▸ hcontains
  · have hbounds := contains_iff.1 hcontains
    rcases h.apart hproper hr hn hsame with hapart | hapart
    · omega
    · omega

/-- A separate interval that holds offsets is a maximal run. -/
theorem Separated.isRun (h : Separated rs) (hnonempty : ∀ r ∈ rs, r.start < r.stop)
    (hr : r ∈ rs) : IsRun (Covers rs) r := by
  have hproper : ∀ r ∈ rs, r.start ≤ r.stop := fun r hr => Int.le_of_lt (hnonempty r hr)
  have hlt := hnonempty r hr
  refine ⟨hlt, fun offset hoffset => ⟨r, hr, hoffset⟩, fun hcovers => ?_, fun hcovers => ?_⟩
  · have hcontains := h.contains_of_covers hproper hr (Int.le_refl _) (by omega) hcovers
    have hbounds := contains_iff.1 hcontains
    omega
  · have hcontains := h.contains_of_covers hproper hr (by omega) (Int.le_refl _) hcovers
    have hbounds := contains_iff.1 hcontains
    omega

/-- Separate intervals that hold offsets are the maximal runs of the offsets that they cover. -/
theorem Separated.mem_iff_isRun (h : Separated rs) (hnonempty : ∀ r ∈ rs, r.start < r.stop) :
    r ∈ rs ↔ IsRun (Covers rs) r := by
  constructor
  · exact h.isRun hnonempty
  · intro hrun
    obtain ⟨n, hn, hstart⟩ := hrun.exists_start
    have hnrun := h.isRun hnonempty hn
    have hlt := hrun.nonempty
    have hnlt := hnrun.nonempty
    have hle : ¬ n.stop < r.stop := by
      intro hless
      exact hnrun.after (hrun.inside n.stop (contains_iff.2 (by omega)))
    have hge : ¬ r.stop < n.stop := by
      intro hless
      exact hrun.after (hnrun.inside r.stop (contains_iff.2 (by omega)))
    have hsame : n = r := by
      cases n
      cases r
      simp only [Interval.mk.injEq] at hstart hle hge ⊢
      omega
    exact hsame ▸ hn

/-! ## Uniqueness and length -/

/-- Separate intervals that hold offsets start at different offsets. -/
theorem Separated.pairwise_start_lt (h : Separated rs)
    (hnonempty : ∀ r ∈ rs, r.start < r.stop) : rs.Pairwise fun a b => a.start < b.start := by
  have hpairwise := h.pairwise fun r hr => Int.le_of_lt (hnonempty r hr)
  apply hpairwise.imp_of_mem
  intro a b ha _ hab
  have hlt := hnonempty a ha
  omega

/-- Intervals of a separated list start at different offsets. -/
theorem Separated.nodup_starts (h : Separated rs) (hnonempty : ∀ r ∈ rs, r.start < r.stop) :
    (rs.map Interval.start).Nodup :=
  List.pairwise_map.2 ((h.pairwise_start_lt hnonempty).imp Int.ne_of_lt)

/-- Separate intervals that hold offsets are determined by the offsets that they cover. -/
theorem Separated.eq_of_covers (hr : Separated rs) (hrnonempty : ∀ r ∈ rs, r.start < r.stop)
    (hq : Separated qs) (hqnonempty : ∀ q ∈ qs, q.start < q.stop)
    (h : ∀ offset, Covers rs offset ↔ Covers qs offset) : rs = qs := by
  have hcovers : Covers rs = Covers qs := funext fun offset => propext (h offset)
  have hmem : ∀ r, r ∈ rs ↔ r ∈ qs := by
    intro r
    rw [hr.mem_iff_isRun hrnonempty, hq.mem_iff_isRun hqnonempty, hcovers]
  have hrs : rs.Nodup := List.Nodup.of_map _ (hr.nodup_starts hrnonempty)
  have hqs : qs.Nodup := List.Nodup.of_map _ (hq.nodup_starts hqnonempty)
  have hperm : rs.Perm qs := (List.perm_ext_iff_of_nodup hrs hqs).2 hmem
  refine hperm.eq_of_pairwise ?_ (hr.pairwise_start_lt hrnonempty)
    (hq.pairwise_start_lt hqnonempty)
  intro a b _ _ hab hba
  exact absurd hab (Int.not_lt.2 (Int.le_of_lt hba))

/-- No intervals that cover the same offsets as separate ones are fewer. -/
theorem Separated.length_le (hr : Separated rs) (hnonempty : ∀ r ∈ rs, r.start < r.stop)
    (h : ∀ offset, Covers ps offset ↔ Covers rs offset) : rs.length ≤ ps.length := by
  have hcovers : Covers ps = Covers rs := funext fun offset => propext (h offset)
  have hsubset : rs.map Interval.start ⊆ ps.map Interval.start := by
    intro start hstart
    obtain ⟨r, hmem, rfl⟩ := List.mem_map.1 hstart
    have hrun : IsRun (Covers ps) r := hcovers ▸ hr.isRun hnonempty hmem
    obtain ⟨p, hp, hsame⟩ := hrun.exists_start
    exact List.mem_map.2 ⟨p, hp, hsame⟩
  have hle := ((hr.nodup_starts hnonempty).subperm hsubset).length_le
  rwa [List.length_map, List.length_map] at hle

/-! ## Merging -/

/-- Merging intervals that hold offsets gives intervals that do. -/
theorem normalize_nonempty (h : ∀ r ∈ rs, r.start < r.stop) :
    ∀ r ∈ normalize rs, r.start < r.stop := by
  apply forall_normalize _ h
  intro a b ha _
  simp only
  omega

/-- Intervals that hold offsets are merged into the same ones exactly if they cover the same
offsets. -/
theorem normalize_eq_iff (hr : ∀ r ∈ rs, r.start < r.stop) (hq : ∀ q ∈ qs, q.start < q.stop) :
    normalize rs = normalize qs ↔ ∀ offset, Covers rs offset ↔ Covers qs offset := by
  constructor
  · intro h offset
    rw [← covers_normalize_iff, h, covers_normalize_iff]
  · intro h
    apply (separated_normalize rs).eq_of_covers (normalize_nonempty hr) (separated_normalize qs)
      (normalize_nonempty hq)
    intro offset
    rw [covers_normalize_iff, covers_normalize_iff, h]

/-- Merging keeps the covered offsets, leaves gaps, and changes nothing a second time.  Intervals
that hold offsets are merged into the same ones exactly if they cover the same offsets, and into the
fewest that do. -/
theorem normalize_canonical (rs qs : List (Option Interval)) :
    (∀ offset, Covers (normalize (present rs)) offset ↔
        ∃ r, some r ∈ rs ∧ r.contains offset = true) ∧
      Separated (normalize (present rs)) ∧
      normalize (normalize (present rs)) = normalize (present rs) ∧
      ((∀ r, some r ∈ rs → r.start < r.stop) →
        ((∀ q, some q ∈ qs → q.start < q.stop) →
          (normalize (present rs) = normalize (present qs) ↔
            ∀ offset, Covers (present rs) offset ↔ Covers (present qs) offset)) ∧
        ∀ ps, (∀ offset, Covers ps offset ↔ Covers (present rs) offset) →
          (normalize (present rs)).length ≤ ps.length) := by
  refine ⟨fun offset => ?_, separated_normalize _, normalize_normalize _, fun hr => ?_⟩
  · rw [covers_normalize_iff]
    simp only [Covers, mem_present_iff]
  · have hpresent : ∀ r ∈ present rs, r.start < r.stop :=
      fun r hmem => hr r (mem_present_iff.1 hmem)
    refine ⟨fun hq => ?_, fun ps hps => ?_⟩
    · exact normalize_eq_iff hpresent fun q hmem => hq q (mem_present_iff.1 hmem)
    · apply (separated_normalize _).length_le (normalize_nonempty hpresent)
      intro offset
      rw [hps, covers_normalize_iff]

/-- Intervals that overlap, touch or lie inside one another, one of which is absent. -/
def scattered : List (Option Interval) :=
  [some ⟨7, 9⟩, some ⟨1, 4⟩, none, some ⟨12, 13⟩, some ⟨8, 11⟩, some ⟨0, 2⟩, some ⟨2, 3⟩]

/-- The intervals that {lit}`scattered` is merged into, in some order. -/
def gathered : List (Option Interval) :=
  [some ⟨7, 11⟩, some ⟨12, 13⟩, some ⟨0, 4⟩]

/-- Intervals are merged into the same list as others that cover the same offsets. -/
theorem normalize_canonical_scattered :
    (∀ r, some r ∈ scattered → r.start < r.stop) ∧ (∀ r, some r ∈ gathered → r.start < r.stop) ∧
      normalize (present scattered) = normalize (present gathered) ∧
      (normalize (present scattered)).length ≤ 3 := by
  have hscattered : ∀ r, some r ∈ scattered → r.start < r.stop := by simp [scattered]
  have hgathered : ∀ r, some r ∈ gathered → r.start < r.stop := by simp [gathered]
  have hcovers : ∀ offset,
      Covers (present scattered) offset ↔ Covers (present gathered) offset := by
    intro offset
    simp only [Covers, mem_present_iff, contains_iff, scattered, gathered, List.mem_cons,
      Option.some.injEq, reduceCtorEq, List.not_mem_nil, or_false, false_or, exists_eq_or_imp,
      exists_eq_left]
    omega
  obtain ⟨-, -, -, hcanonical⟩ := normalize_canonical scattered gathered
  obtain ⟨hsame, hshortest⟩ := hcanonical hscattered
  exact ⟨hscattered, hgathered, (hsame hgathered).2 hcovers,
    hshortest (present gathered) fun offset => (hcovers offset).symm⟩

end Interval
end JvmMethods
