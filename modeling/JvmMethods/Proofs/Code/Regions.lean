import Mathlib
import JvmMethods.Proofs.Code.Partition

/-!
# Regions of code

The regions of some code are its merged protected intervals and the gaps between them, put together
by sorting.  They are the tiles of the protected intervals, unless an interval reaches past the
code.

Main results:

- Theorem {lit}`Code.protectedRanges_eq_ok_iff`: what the protected part is, whatever the handlers
  are.
- Theorems {lit}`Code.unprotectedRanges_eq_ok` and {lit}`Code.unprotectedRanges_eq_error`: what the
  unprotected part is, and when there is none.
- Theorem {lit}`Code.regions_eq_ok`: the regions are the tiles of the merged protected intervals.
- Theorem {lit}`Code.regions_partition`: there are regions exactly if no handler protects offsets
  past the code, and then they are a partition of it, in which the protected regions are what the
  handlers cover.
-/

namespace JvmMethods

/-! ## Protected intervals -/

/-- The interval that an entry protects, whatever its bounds are. -/
def ExceptionHandler.interval (h : ExceptionHandler) : Interval :=
  ⟨h.start, h.stop⟩

namespace Code

variable {c : Code}

/-- The intervals that handlers protect, without those that hold no offset at all. -/
def handlerIntervals (c : Code) : List Interval :=
  (c.handlers.map ExceptionHandler.interval).filter fun r => r.start ≠ r.stop

/-- The handlers of some code go from left to right, and their bounds can be bounds of
intervals. -/
def HandlersProper (c : Code) : Prop :=
  ∀ h ∈ c.handlers, h.start ≤ h.stop ∧ h.start ≤ ExceptionHandler.maxCodeOffset ∧
    h.stop ≤ ExceptionHandler.maxCodeOffset

/-- A handler of offsets has a protected interval. -/
theorem protectedInterval_eq_ok {h : ExceptionHandler}
    (hstart : h.start ≤ ExceptionHandler.maxCodeOffset)
    (hstop : h.stop ≤ ExceptionHandler.maxCodeOffset) :
    h.protectedInterval = .ok h.interval :=
  ExceptionHandler.protectedInterval_eq_ok_iff.2 ⟨hstart, hstop, rfl⟩

/-- Handlers of offsets have protected intervals, in order. -/
theorem mapM_protectedInterval {hs : List ExceptionHandler}
    (h : ∀ e ∈ hs, e.start ≤ ExceptionHandler.maxCodeOffset ∧
      e.stop ≤ ExceptionHandler.maxCodeOffset) :
    hs.mapM ExceptionHandler.protectedInterval = .ok (hs.map ExceptionHandler.interval) := by
  induction hs with
  | nil => rfl
  | cons e hs ih =>
      rcases List.forall_mem_cons.1 h with ⟨⟨hstart, hstop⟩, hrest⟩
      rw [List.mapM_cons]
      apply bind_eq_ok_iff.2
      refine ⟨e.interval, protectedInterval_eq_ok hstart hstop, ?_⟩
      apply bind_eq_ok_iff.2
      exact ⟨hs.map ExceptionHandler.interval, ih hrest, rfl⟩

/-- Handlers have protected intervals exactly if all of their bounds are offsets. -/
theorem mapM_protectedInterval_eq_ok_iff {hs : List ExceptionHandler} {intervals : List Interval} :
    hs.mapM ExceptionHandler.protectedInterval = .ok intervals ↔
      (∀ e ∈ hs, e.start ≤ ExceptionHandler.maxCodeOffset ∧
        e.stop ≤ ExceptionHandler.maxCodeOffset) ∧
        intervals = hs.map ExceptionHandler.interval := by
  constructor
  · intro h
    induction hs generalizing intervals with
    | nil =>
        cases h
        exact ⟨fun e he => absurd he List.not_mem_nil, rfl⟩
    | cons e hs ih =>
        rw [List.mapM_cons] at h
        rcases bind_eq_ok_iff.1 h with ⟨first, hfirst, h⟩
        rcases bind_eq_ok_iff.1 h with ⟨others, hothers, h⟩
        cases h
        rcases ExceptionHandler.protectedInterval_eq_ok_iff.1 hfirst with ⟨hstart, hstop, rfl⟩
        rcases ih hothers with ⟨hbounds, rfl⟩
        exact ⟨List.forall_mem_cons.2 ⟨⟨hstart, hstop⟩, hbounds⟩, rfl⟩
  · intro h
    rw [h.2]
    exact mapM_protectedInterval h.1

/-- There are protected ranges exactly if the bounds of all handlers can be bounds of intervals. -/
theorem protectedRanges_eq_ok_iff {ranges : List Interval} :
    c.protectedRanges = .ok ranges ↔
      (∀ e ∈ c.handlers, e.start ≤ ExceptionHandler.maxCodeOffset ∧
        e.stop ≤ ExceptionHandler.maxCodeOffset) ∧
        ranges = Interval.normalize c.handlerIntervals := by
  rw [protectedRanges, map_eq_ok_iff]
  constructor
  · intro h
    rcases h with ⟨intervals, hintervals, rfl⟩
    rcases bind_eq_ok_iff.1 hintervals with ⟨all, hall, h⟩
    cases h
    rcases mapM_protectedInterval_eq_ok_iff.1 hall with ⟨hbounds, rfl⟩
    exact ⟨hbounds, rfl⟩
  · intro h
    refine ⟨c.handlerIntervals, bind_eq_ok_iff.2 ⟨_, mapM_protectedInterval h.1, rfl⟩, h.2.symm⟩

/-- The protected part of code with proper handlers is that of their intervals. -/
theorem protectedRanges_eq_ok (h : c.HandlersProper) :
    c.protectedRanges = .ok (Interval.normalize c.handlerIntervals) :=
  protectedRanges_eq_ok_iff.2 ⟨fun e he => (h e he).2, rfl⟩

/-- The intervals of the handlers are those that are not empty. -/
theorem mem_handlerIntervals_iff {r : Interval} :
    r ∈ c.handlerIntervals ↔ ∃ h ∈ c.handlers, h.interval = r ∧ r.start ≠ r.stop := by
  rw [handlerIntervals, List.mem_filter, List.mem_map, decide_eq_true_eq]
  constructor
  · intro h
    rcases h with ⟨⟨e, he, hr⟩, hne⟩
    exact ⟨e, he, hr, hne⟩
  · intro h
    rcases h with ⟨e, he, hr, hne⟩
    exact ⟨⟨e, he, hr⟩, hne⟩

/-- Protected intervals hold offsets, none of which is negative. -/
theorem handlerIntervals_nonempty (h : c.HandlersProper) :
    ∀ r ∈ c.handlerIntervals, 0 ≤ r.start ∧ r.start < r.stop := by
  intro r hr
  rcases mem_handlerIntervals_iff.1 hr with ⟨e, he, rfl, hne⟩
  have hproper := (h e he).1
  simp only [ExceptionHandler.interval] at hne ⊢
  omega

/-- The intervals end within a bound exactly if the handlers that protect anything do. -/
theorem handlerIntervals_stop_le_iff (h : c.HandlersProper) {bound : Nat} :
    (∀ r ∈ c.handlerIntervals, r.stop ≤ bound) ↔
      ∀ e ∈ c.handlers, e.start < e.stop → e.stop ≤ bound := by
  constructor
  · intro hall e he hlt
    have hne : e.interval.start ≠ e.interval.stop := by
      simp only [ExceptionHandler.interval]
      omega
    have hle := hall e.interval (mem_handlerIntervals_iff.2 ⟨e, he, rfl, hne⟩)
    simp only [ExceptionHandler.interval] at hle
    omega
  · intro hall r hr
    rcases mem_handlerIntervals_iff.1 hr with ⟨e, he, rfl, hne⟩
    have hproper := (h e he).1
    simp only [ExceptionHandler.interval] at hne ⊢
    have hle := hall e he (by omega)
    omega

/-- What the protected intervals cover is what some handler covers. -/
theorem covers_handlerIntervals_iff {offset : Nat} :
    Interval.Covers c.handlerIntervals offset ↔ c.handlersCovering offset ≠ [] := by
  rw [ne_eq, List.eq_nil_iff_forall_not_mem, not_forall]
  constructor
  · intro h
    rcases h with ⟨r, hr, hcontains⟩
    rcases mem_handlerIntervals_iff.1 hr with ⟨e, he, rfl, -⟩
    have hbounds := Interval.contains_iff.1 hcontains
    simp only [ExceptionHandler.interval] at hbounds
    refine ⟨e, not_not_intro (mem_handlersCovering.2 ⟨he, ?_⟩)⟩
    simp only [ExceptionHandler.protects, decide_eq_true_eq]
    omega
  · intro h
    rcases h with ⟨e, he⟩
    rcases mem_handlersCovering.1 (not_not.1 he) with ⟨hmem, hprotects⟩
    simp only [ExceptionHandler.protects, decide_eq_true_eq] at hprotects
    refine ⟨e.interval, mem_handlerIntervals_iff.2 ⟨e, hmem, rfl, ?_⟩, ?_⟩
    · simp only [ExceptionHandler.interval]
      omega
    · rw [Interval.contains_iff]
      simp only [ExceptionHandler.interval]
      omega

/-! ## Regions -/

/-- Merged protected intervals hold offsets, none of which is negative. -/
theorem normalize_handlerIntervals_nonempty (h : c.HandlersProper) :
    ∀ r ∈ Interval.normalize c.handlerIntervals, 0 ≤ r.start ∧ r.start < r.stop := by
  apply Interval.forall_normalize _ (handlerIntervals_nonempty h)
  intro a b ha hb
  simp only
  omega

/-- If all of the protected part is inside the code, the unprotected part is the gaps in it. -/
theorem unprotectedRanges_eq_ok (h : c.HandlersProper)
    (hlength : c.length ≤ ExceptionHandler.maxCodeOffset)
    (hinside : ∀ r ∈ c.handlerIntervals, r.stop ≤ c.length) :
    c.unprotectedRanges.outcome =
      .ok (Interval.gapsFrom c.length 0 (Interval.normalize c.handlerIntervals)) := by
  have hstop := Interval.normalize_stop_le_iff.2 hinside
  have hproper := normalize_handlerIntervals_nonempty h
  rw [unprotectedRanges, protectedRanges_eq_ok h]
  apply Logged.outcome_bind_eq_ok_iff.2
  refine ⟨_, rfl, ?_⟩
  rw [unprotectedPart]
  by_cases hzero : c.length = 0
  · have hnil : Interval.normalize c.handlerIntervals = [] := by
      apply List.eq_nil_iff_forall_not_mem.2
      intro r hr
      have hbounds := hproper r hr
      have hle := hstop r hr
      omega
    rw [if_pos hzero, hnil, hzero]
    rfl
  · rw [if_neg hzero, if_neg (Nat.not_lt.2 hlength), Interval.complement_eq_ok (by omega) hstop,
      Interval.normalize_normalize]

/-- If some of the protected part is not inside the code, the code and its handlers contradict one
another. -/
theorem unprotectedRanges_eq_error (h : c.HandlersProper)
    (hlength : c.length ≤ ExceptionHandler.maxCodeOffset)
    (houtside : ¬ ∀ r ∈ c.handlerIntervals, r.stop ≤ c.length) :
    ∃ e, c.unprotectedRanges.outcome = .error e ∧ e.kind = .invariantViolation := by
  have hstop : ¬ ∀ r ∈ Interval.normalize c.handlerIntervals, r.stop ≤ c.length :=
    fun hall => houtside (Interval.normalize_stop_le_iff.1 hall)
  have hproper : ∀ r ∈ Interval.normalize c.handlerIntervals, r.start ≤ r.stop :=
    fun r hr => Int.le_of_lt (normalize_handlerIntervals_nonempty h r hr).2
  rw [unprotectedRanges, protectedRanges_eq_ok h, Logged.outcome_bind]
  change ∃ e, (unprotectedPart _ c.length).outcome = .error e ∧ _
  rw [unprotectedPart]
  by_cases hzero : c.length = 0
  · rw [if_pos hzero]
    cases hlast : (Interval.normalize c.handlerIntervals).getLast? with
    | none =>
        rw [List.getLast?_eq_none_iff.1 hlast] at hstop
        exact absurd (fun r hr => nomatch hr) hstop
    | some last => exact ⟨.beyondEmptyCode last.start last.stop, rfl, rfl⟩
  · rw [if_neg hzero, if_neg (Nat.not_lt.2 hlength)]
    rcases Interval.complement_eq_error (by omega) hproper hstop with ⟨last, -, herror⟩
    exact ⟨.beyondUniverse last.start last.stop c.length, herror, rfl⟩

/-- The merged intervals and the gaps between them are a partition of the code. -/
theorem isPartition_regions (h : c.HandlersProper)
    (hinside : ∀ r ∈ c.handlerIntervals, r.stop ≤ c.length) :
    CodeRegion.IsPartition 0 c.length
      (tiles c.length 0 (Interval.normalize c.handlerIntervals)) := by
  have hproper := normalize_handlerIntervals_nonempty h
  have hseparated := (Interval.separated_normalize c.handlerIntervals).pairwise
    fun r hr => Int.le_of_lt (hproper r hr).2
  exact isPartition_tiles (fun r hr => (hproper r hr).2) hseparated (fun r hr => (hproper r hr).1)
    (Interval.normalize_stop_le_iff.2 hinside) (by omega)

/-- Sorting the merged intervals and the gaps between them by their starts makes the regions
tiles. -/
theorem regions_eq_ok (h : c.HandlersProper) (hlength : c.length ≤ ExceptionHandler.maxCodeOffset)
    (hinside : ∀ r ∈ c.handlerIntervals, r.stop ≤ c.length) :
    c.regions.outcome = .ok (tiles c.length 0 (Interval.normalize c.handlerIntervals)) := by
  rw [regions, protectedRanges_eq_ok h]
  apply Logged.outcome_bind_eq_ok_iff.2
  refine ⟨_, rfl, ?_⟩
  apply Logged.outcome_bind_eq_ok_iff.2
  refine ⟨_, unprotectedRanges_eq_ok h hlength hinside, ?_⟩
  rw [Logged.outcome_pure, (isPartition_regions h hinside).mergeSort_eq (tiles_perm _ _ _)]

/-- Code is not split into regions if a handler protects something past its end. -/
theorem regions_eq_error (h : c.HandlersProper)
    (hlength : c.length ≤ ExceptionHandler.maxCodeOffset)
    (houtside : ¬ ∀ r ∈ c.handlerIntervals, r.stop ≤ c.length) :
    ∃ e, c.regions.outcome = .error e ∧ e.kind = .invariantViolation := by
  rcases unprotectedRanges_eq_error h hlength houtside with ⟨e, herror, hkind⟩
  refine ⟨e, ?_, hkind⟩
  rw [regions, protectedRanges_eq_ok h, Logged.outcome_bind]
  change (c.unprotectedRanges >>= _).outcome = _
  rw [Logged.outcome_bind, herror]
  rfl

/-- A region is protected exactly if handlers cover the offsets in it. -/
theorem isProtected_iff {offset : Nat} {r : CodeRegion}
    (hr : (tiles c.length 0 (Interval.normalize c.handlerIntervals)).filter
      (fun n => n.range.contains offset) = [r]) :
    r.isProtected = true ↔ c.handlersCovering offset ≠ [] := by
  have hmem := List.mem_filter.1 (hr ▸ List.mem_singleton_self r)
  rw [← covers_handlerIntervals_iff, ← Interval.covers_normalize_iff]
  constructor
  · intro hprotected
    rcases r with ⟨range, isProtected⟩
    cases hprotected
    exact ⟨range, mem_tiles_iff.1 hmem.1, hmem.2⟩
  · intro hcovers
    rcases hcovers with ⟨q, hq, hcontains⟩
    have hsame : ⟨q, true⟩ ∈ [r] := hr ▸ List.mem_filter.2 ⟨mem_tiles_iff.2 hq, hcontains⟩
    rw [← List.mem_singleton.1 hsame]

/-- Code whose handlers are proper has regions exactly if no handler protects an offset past the
code, and otherwise it and its handlers contradict one another.  The regions are a partition of the
code, and every offset lies in one that is protected exactly if handlers cover the offset. -/
theorem regions_partition (h : c.HandlersProper)
    (hlength : c.length ≤ ExceptionHandler.maxCodeOffset) :
    ((∃ rs, c.regions.outcome = .ok rs) ↔
        ∀ e ∈ c.handlers, e.start < e.stop → e.stop ≤ c.length) ∧
      (∀ e, c.regions.outcome = .error e → e.kind = .invariantViolation) ∧
      ∀ rs, c.regions.outcome = .ok rs →
        CodeRegion.IsPartition 0 c.length rs ∧
          ∀ offset < c.length, ∃ r, rs.filter (fun n => n.range.contains offset) = [r] ∧
            (r.isProtected = true ↔ c.handlersCovering offset ≠ []) := by
  rw [← handlerIntervals_stop_le_iff h]
  by_cases hinside : ∀ r ∈ c.handlerIntervals, r.stop ≤ c.length
  · have hok := regions_eq_ok h hlength hinside
    have hpartition := isPartition_regions h hinside
    refine ⟨⟨fun _ => hinside, fun _ => ⟨_, hok⟩⟩, ?_, ?_⟩
    · intro e herror
      rw [hok] at herror
      cases herror
    · intro rs hrs
      rw [hok] at hrs
      cases hrs
      refine ⟨hpartition, ?_⟩
      intro offset hoffset
      have hstop := Int.ofNat_lt.2 hoffset
      rcases hpartition.exists_filter_eq (Int.natCast_nonneg offset) hstop with ⟨r, hr⟩
      exact ⟨r, hr, isProtected_iff hr⟩
  · rcases regions_eq_error h hlength hinside with ⟨e, herror, hkind⟩
    refine ⟨⟨?_, fun hall => absurd hall hinside⟩, ?_, ?_⟩
    · intro hok
      rcases hok with ⟨rs, hrs⟩
      rw [herror] at hrs
      cases hrs
    · intro e' he'
      rw [herror] at he'
      cases he'
      exact hkind
    · intro rs hrs
      rw [herror] at hrs
      cases hrs

/-- Nine bytes whose handlers overlap, touch, or protect no offset. -/
def exampleCode : Code :=
  ⟨33, 1, 1, some ⟨List.replicate 9 0,
    [⟨5, 7, 8, none⟩, ⟨1, 3, 8, none⟩, ⟨2, 4, 7, none⟩, ⟨4, 5, 7, none⟩, ⟨12, 12, 0, none⟩]⟩⟩

/-- Handlers that overlap are merged into one protected region. -/
theorem regions_partition_overlapping :
    exampleCode.HandlersProper ∧ exampleCode.length ≤ ExceptionHandler.maxCodeOffset ∧
      exampleCode.regions.outcome =
        .ok [⟨⟨0, 1⟩, false⟩, ⟨⟨1, 7⟩, true⟩, ⟨⟨7, 9⟩, false⟩] ∧
      CodeRegion.IsPartition 0 9 [⟨⟨0, 1⟩, false⟩, ⟨⟨1, 7⟩, true⟩, ⟨⟨7, 9⟩, false⟩] := by
  have h : exampleCode.HandlersProper := by
    unfold HandlersProper
    decide
  have hlength : exampleCode.length ≤ ExceptionHandler.maxCodeOffset := by decide
  have hok : exampleCode.regions.outcome =
      .ok [⟨⟨0, 1⟩, false⟩, ⟨⟨1, 7⟩, true⟩, ⟨⟨7, 9⟩, false⟩] := by
    cbv
  exact ⟨h, hlength, hok, ((regions_partition h hlength).2.2 _ hok).1⟩

end Code
end JvmMethods
