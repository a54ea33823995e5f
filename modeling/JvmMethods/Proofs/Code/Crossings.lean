import JvmMethods.Proofs.Code.Regions

/-!
# Regions of arbitrary handlers

A handler may start after its stop.  It then protects nothing, but its interval takes part in the
computation of regions all the same.  Laid out one after the other the regions are a walk from the
start of the code to its end, on which an interval that is the wrong way round leads back.  Whatever
the walk leads back over it has to pass twice more, so an offset lies in one region more than there
are intervals that lead back over it.

Main results:

- Theorem {lit}`Code.countP_contains_tiles`: how many regions hold an offset.
- Theorem {lit}`Code.regions_perm_tiles`: regions are the merged intervals and the gaps between
  them, whatever the handlers are.
- Theorem {lit}`Code.splits_of_regions`: regions split the code exactly if none of them leads back,
  which holds if no handler starts after its stop.
-/

namespace JvmMethods

/-! ## Walks -/

namespace Interval

/-- Does an interval that is the wrong way round lead back over an offset? -/
def leadsBackOver (r : Interval) (offset : Int) : Bool :=
  decide (r.stop ≤ offset ∧ offset < r.start)

/-- A step from the start of an interval to its stop passes an offset forwards if the interval holds
it, and backwards if the interval leads back over it. -/
theorem contains_add_le (r : Interval) (offset : Int) :
    (if r.contains offset = true then 1 else 0) + (if r.stop ≤ offset then 1 else 0) =
      (if r.leadsBackOver offset = true then 1 else 0) + (if r.start ≤ offset then 1 else 0) := by
  simp only [contains, leadsBackOver, decide_eq_true_eq]
  split <;> split <;> split <;> split <;> omega

/-- Merging intervals with different bounds in ascending order gives intervals with different
bounds.  An interval that is the wrong way round merges with none that follow. -/
theorem sweep_start_ne_stop {current : Interval} {rest : List Interval}
    (hsorted : Ascending (current :: rest)) (hne : ∀ r ∈ current :: rest, r.start ≠ r.stop) :
    ∀ r ∈ sweep current rest, r.start ≠ r.stop := by
  induction rest generalizing current with
  | nil => exact hne
  | cons next rest ih =>
      rcases List.pairwise_cons.1 hsorted with ⟨hcurrent, hnextSorted⟩
      rcases List.forall_mem_cons.1 hcurrent with ⟨hnext, hrest⟩
      rcases List.forall_mem_cons.1 hne with ⟨hcurrentNe, hnextNe⟩
      rw [sweep]
      split
      · refine ih (List.pairwise_cons.2 ⟨hrest, (List.pairwise_cons.1 hnextSorted).2⟩) ?_
        refine List.forall_mem_cons.2 ⟨?_, (List.forall_mem_cons.1 hnextNe).2⟩
        simp only
        omega
      · exact List.forall_mem_cons.2 ⟨hcurrentNe, ih hnextSorted hnextNe⟩

/-- Merging intervals that are not empty does not make empty ones. -/
theorem normalize_start_ne_stop {rs : List Interval} (h : ∀ r ∈ rs, r.start ≠ r.stop) :
    ∀ r ∈ normalize rs, r.start ≠ r.stop := by
  have hsorted := ascending_sort rs
  have hne := forall_sort_iff.2 h
  rw [normalize]
  cases hrs : sort rs with
  | nil =>
      intro r hr
      cases hr
  | cons r rest =>
      rw [hrs] at hsorted hne
      exact sweep_start_ne_stop hsorted hne

/-- If intervals have a complement, it is the gaps between the merged intervals. -/
theorem eq_gapsFrom_of_complement {rs gaps : List Interval} {size : Int}
    (h : (complement rs size).outcome = .ok gaps) : gaps = gapsFrom size 0 (normalize rs) := by
  rw [complement] at h
  split at h
  · cases h
  · split at h
    · cases h
      rfl
    · split at h
      · cases h
      · cases h
        rfl

end Interval

/-! ## Splits -/

/-- Every offset of code of the given length lies in exactly one region, and no region reaches out
of the code. -/
structure CodeRegion.Splits (length : Nat) (rs : List CodeRegion) : Prop where
  unique : ∀ offset : Nat, offset < length →
    ∃ r, rs.filter (fun n => n.range.contains offset) = [r]
  inside : ∀ r ∈ rs, 0 ≤ r.range.start ∧ r.range.stop ≤ length

namespace Code

variable {c : Code} {rs : List CodeRegion}

/-- An offset between the ends of the walk lies in one tile more than there are tiles that lead back
over it, and any other offset in as many. -/
theorem countP_contains_tiles (size position offset : Int) (rs : List Interval) :
    (tiles size position rs).countP (fun n => n.range.contains offset) +
        (if size ≤ offset then 1 else 0) =
      (tiles size position rs).countP (fun n => n.range.leadsBackOver offset) +
        (if position ≤ offset then 1 else 0) := by
  -- Every tile is a step of the walk, so what the steps pass adds up.
  induction rs generalizing position with
  | nil =>
      have hgap := Interval.contains_add_le ⟨position, size⟩ offset
      rw [tiles]
      split
      · rename_i hend
        rw [hend, List.countP_nil, List.countP_nil]
      · simp only [List.countP_singleton]
        omega
  | cons r rest ih =>
      have hr := Interval.contains_add_le r offset
      have hrest := ih r.stop
      rw [tiles]
      split
      · rename_i hstart
        simp only [List.countP_cons, hstart]
        omega
      · have hgap := Interval.contains_add_le ⟨position, r.start⟩ offset
        simp only [List.countP_cons]
        simp only at hgap
        omega

/-- Gaps are left only where something is left. -/
theorem tiles_start_ne_stop {size position : Int} {intervals : List Interval}
    (h : ∀ r ∈ intervals, r.start ≠ r.stop) :
    ∀ n ∈ tiles size position intervals, n.range.start ≠ n.range.stop := by
  induction intervals generalizing position with
  | nil =>
      rw [tiles]
      split
      · exact fun n hn => absurd hn List.not_mem_nil
      · rename_i hend
        exact List.forall_mem_singleton.2 hend
  | cons r rest ih =>
      rcases List.forall_mem_cons.1 h with ⟨hr, hrest⟩
      have htiles : ∀ n ∈ ⟨r, true⟩ :: tiles size r.stop rest, n.range.start ≠ n.range.stop :=
        List.forall_mem_cons.2 ⟨hr, ih hrest⟩
      rw [tiles]
      split
      · exact htiles
      · rename_i hstart
        exact List.forall_mem_cons.2 ⟨hstart, htiles⟩

/-- The walk over all tiles of some code, in whatever order they come. -/
theorem countP_contains_of_perm {length : Nat} {intervals : List Interval}
    (hperm : rs.Perm (tiles length 0 intervals)) (offset : Int) :
    rs.countP (fun n => n.range.contains offset) + (if (length : Int) ≤ offset then 1 else 0) =
      rs.countP (fun n => n.range.leadsBackOver offset) + (if 0 ≤ offset then 1 else 0) := by
  rw [hperm.countP_eq, hperm.countP_eq]
  exact countP_contains_tiles length 0 offset intervals

/-- Tiles that all lead forwards split the code. -/
theorem splits_of_forward {length : Nat} {intervals : List Interval}
    (hperm : rs.Perm (tiles length 0 intervals))
    (hforward : ∀ r ∈ rs, r.range.start < r.range.stop) : CodeRegion.Splits length rs := by
  have hback : ∀ offset, rs.countP (fun n => n.range.leadsBackOver offset) = 0 := by
    intro offset
    apply List.countP_eq_zero.2
    intro r hr
    have hlt := hforward r hr
    simp only [Interval.leadsBackOver, decide_eq_true_eq]
    omega
  have hheld : ∀ r ∈ rs, ∀ offset, r.range.contains offset = true →
      0 ≤ offset ∧ offset < length := by
    intro r hr offset hcontains
    have hpos : 0 < rs.countP fun n => n.range.contains offset :=
      List.countP_pos_iff.2 ⟨r, hr, hcontains⟩
    have hwalk := countP_contains_of_perm hperm offset
    rw [hback] at hwalk
    split at hwalk <;> split at hwalk <;> omega
  refine ⟨?_, ?_⟩
  · intro offset hoffset
    have hwalk := countP_contains_of_perm hperm offset
    rw [hback, if_neg (by omega), if_pos (by omega), List.countP_eq_length_filter] at hwalk
    exact List.length_eq_one_iff.1 hwalk
  · intro r hr
    have hlt := hforward r hr
    have hfirst := hheld r hr r.range.start (Interval.contains_iff.2 ⟨Int.le_refl _, hlt⟩)
    have hlast := hheld r hr (r.range.stop - 1) (Interval.contains_iff.2 ⟨by omega, by omega⟩)
    omega

/-- Tiles that split the code do not lead back.  An offset that one of them leads back over would
lie in two tiles, or in one that reaches out of the code. -/
theorem forward_of_splits {length : Nat} {intervals : List Interval}
    (hperm : rs.Perm (tiles length 0 intervals)) (h : CodeRegion.Splits length rs) :
    ∀ r ∈ rs, r.range.start ≤ r.range.stop := by
  intro r hr
  by_contra hreversed
  have hback : 0 < rs.countP fun n => n.range.leadsBackOver r.range.stop := by
    apply List.countP_pos_iff.2
    refine ⟨r, hr, ?_⟩
    simp only [Interval.leadsBackOver, decide_eq_true_eq]
    omega
  have hwalk := countP_contains_of_perm hperm r.range.stop
  by_cases hinside : 0 ≤ r.range.stop ∧ r.range.stop < length
  · rcases h.unique r.range.stop.toNat (by omega) with ⟨n, hn⟩
    rw [Int.toNat_of_nonneg hinside.1] at hn
    rw [List.countP_eq_length_filter, hn, List.length_singleton] at hwalk
    split at hwalk <;> split at hwalk <;> omega
  · have hheld : 0 < rs.countP fun n => n.range.contains r.range.stop := by
      split at hwalk <;> split at hwalk <;> omega
    rcases List.countP_pos_iff.1 hheld with ⟨n, hn, hcontains⟩
    have hbounds := h.inside n hn
    have hholds := Interval.contains_iff.1 hcontains
    omega

/-! ## Regions -/

/-- If there is an unprotected part, it is the gaps between the merged intervals. -/
theorem eq_gapsFrom_of_unprotectedPart {ranges gaps : List Interval} {length : Nat}
    (h : (unprotectedPart ranges length).outcome = .ok gaps) :
    length ≤ ExceptionHandler.maxCodeOffset ∧
      gaps = Interval.gapsFrom length 0 (Interval.normalize ranges) := by
  rw [unprotectedPart] at h
  by_cases hzero : length = 0
  · rw [if_pos hzero] at h
    refine ⟨by omega, ?_⟩
    cases hlast : ranges.getLast? with
    | none =>
        rw [hlast] at h
        cases h
        rw [List.getLast?_eq_none_iff.1 hlast, Interval.normalize_nil, hzero]
        rfl
    | some last =>
        rw [hlast] at h
        cases h
  · rw [if_neg hzero] at h
    split at h
    · cases h
    · rename_i hlength
      exact ⟨Nat.not_lt.1 hlength, Interval.eq_gapsFrom_of_complement h⟩

/-- Regions are the tiles of the merged intervals, whatever the handlers are. -/
theorem regions_perm_tiles (h : c.regions.outcome = .ok rs) :
    rs.Perm (tiles c.length 0 (Interval.normalize c.handlerIntervals)) ∧
      c.length ≤ ExceptionHandler.maxCodeOffset ∧
      ∀ e ∈ c.handlers, e.start ≤ ExceptionHandler.maxCodeOffset ∧
        e.stop ≤ ExceptionHandler.maxCodeOffset := by
  rcases Logged.outcome_bind_eq_ok_iff.1 h with ⟨ranges, hranges, h⟩
  rcases Logged.outcome_bind_eq_ok_iff.1 h with ⟨gaps, hgaps, h⟩
  cases h
  rcases protectedRanges_eq_ok_iff.1 hranges with ⟨hbounds, rfl⟩
  rcases Logged.outcome_bind_eq_ok_iff.1 hgaps with ⟨ranges', hranges', hpart⟩
  rcases protectedRanges_eq_ok_iff.1 hranges' with ⟨-, rfl⟩
  rcases eq_gapsFrom_of_unprotectedPart hpart with ⟨hlength, rfl⟩
  rw [Interval.normalize_normalize]
  exact ⟨(List.mergeSort_perm _ _).trans (tiles_perm _ _ _), hlength, hbounds⟩

/-- No region starts where it stops. -/
theorem start_ne_stop_of_regions (h : c.regions.outcome = .ok rs) :
    ∀ r ∈ rs, r.range.start ≠ r.range.stop := by
  have hintervals : ∀ r ∈ c.handlerIntervals, r.start ≠ r.stop := by
    intro r hr
    rcases mem_handlerIntervals_iff.1 hr with ⟨_, _, _, hne⟩
    exact hne
  intro r hr
  exact tiles_start_ne_stop (Interval.normalize_start_ne_stop hintervals) r
    ((regions_perm_tiles h).1.mem_iff.1 hr)

/-- Regions split the code exactly if none of them leads back, and they do if no handler starts
after its stop. -/
theorem splits_of_regions (h : c.regions.outcome = .ok rs) :
    (CodeRegion.Splits c.length rs ↔ ∀ r ∈ rs, r.range.start < r.range.stop) ∧
      ((∀ e ∈ c.handlers, e.start ≤ e.stop) → CodeRegion.Splits c.length rs) := by
  rcases regions_perm_tiles h with ⟨hperm, hlength, hbounds⟩
  refine ⟨⟨?_, splits_of_forward hperm⟩, ?_⟩
  · intro hsplits r hr
    exact lt_of_le_of_ne (forward_of_splits hperm hsplits r hr)
      (start_ne_stop_of_regions h r hr)
  · intro hordered
    have hproper : c.HandlersProper := fun e he => ⟨hordered e he, hbounds e he⟩
    by_cases hinside : ∀ r ∈ c.handlerIntervals, r.stop ≤ c.length
    · apply splits_of_forward hperm
      intro r hr
      exact (isPartition_regions hproper hinside).nonempty r (hperm.mem_iff.1 hr)
    · rcases regions_eq_error hproper hlength hinside with ⟨e, herror, -⟩
      rw [herror] at h
      cases h

/-- Nine bytes with a handler that leads back inside of the interval of another one. -/
def exampleAbsorbing : Code :=
  ⟨33, 1, 1, some ⟨List.replicate 9 0, [⟨1, 6, 8, none⟩, ⟨5, 2, 8, none⟩]⟩⟩

/-- A reversed interval that is absorbed by another one does no harm. -/
theorem splits_of_regions_absorbing :
    exampleAbsorbing.regions.outcome =
        .ok [⟨⟨0, 1⟩, false⟩, ⟨⟨1, 6⟩, true⟩, ⟨⟨6, 9⟩, false⟩] ∧
      CodeRegion.Splits 9 [⟨⟨0, 1⟩, false⟩, ⟨⟨1, 6⟩, true⟩, ⟨⟨6, 9⟩, false⟩] := by
  have hok : exampleAbsorbing.regions.outcome =
      .ok [⟨⟨0, 1⟩, false⟩, ⟨⟨1, 6⟩, true⟩, ⟨⟨6, 9⟩, false⟩] := by
    cbv
  exact ⟨hok, (splits_of_regions hok).1.2 (by decide)⟩

/-- Ten bytes with a handler that starts after its stop. -/
def exampleReversed : Code :=
  ⟨30, 1, 1, some ⟨List.replicate 10 0, [⟨8, 2, 0, none⟩]⟩⟩

/-- There are regions although the handler starts after its stop, and six offsets lie in two of
them. -/
theorem not_splits_regions_reversed :
    ∃ rs, exampleReversed.regions.outcome = .ok rs ∧
      ¬ CodeRegion.Splits exampleReversed.length rs := by
  have hok : exampleReversed.regions.outcome =
      .ok [⟨⟨0, 8⟩, false⟩, ⟨⟨2, 10⟩, false⟩, ⟨⟨8, 2⟩, true⟩] := by
    cbv
  refine ⟨_, hok, ?_⟩
  intro hsplits
  rcases hsplits.unique 5 (by decide) with ⟨r, hr⟩
  cases hr

end Code
end JvmMethods
