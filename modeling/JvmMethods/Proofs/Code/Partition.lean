import JvmMethods.Attribute.Code
import JvmMethods.Proofs.Interval.Complement
import Mathlib.Data.List.Nodup

/-!
# Partitions of code

Separate intervals and the gaps between them split a stretch of code into regions that are protected
and unprotected in turn.  Laid out from left to right they are tiles: every tile starts where the
one before it stops.

Main results:

- Theorem {lit}`CodeRegion.IsPartition.exists_filter_eq`: every offset lies in exactly one region of
  a partition.
- Theorem {lit}`CodeRegion.IsPartition.mergeSort_eq`: sorting the regions of a partition by their
  starts puts them in order.
- Theorem {lit}`Code.tiles_perm`: the tiles are the intervals and the gaps that a complement leaves.
- Theorem {lit}`Code.isPartition_tiles`: the tiles make up a partition.
-/

namespace JvmMethods

/-! ## Partitions -/

namespace CodeRegion

/-- Some regions are nonempty, follow one another without gaps from {lit}`start` up to
{lit}`stop`, and are protected and unprotected in turn. -/
structure IsPartition (start stop : Int) (regions : List CodeRegion) : Prop where
  nonempty : ∀ r ∈ regions, r.range.start < r.range.stop
  ascending : regions.Pairwise fun a b => a.range.stop ≤ b.range.start
  consecutive : regions.IsChain fun a b => a.range.stop = b.range.start
  alternating : regions.IsChain fun a b => a.isProtected ≠ b.isProtected
  first : ∀ r ∈ regions.head?, r.range.start = start
  last : ∀ r ∈ regions.getLast?, r.range.stop = stop
  eq_nil_iff : regions = [] ↔ start = stop

namespace IsPartition

variable {start stop : Int} {r : CodeRegion} {rs : List CodeRegion}

/-- Nothing at all makes up the offsets between a place and itself. -/
theorem nil : IsPartition stop stop [] where
  nonempty := by simp
  ascending := List.Pairwise.nil
  consecutive := List.isChain_nil
  alternating := List.isChain_nil
  first := by simp
  last := by simp
  eq_nil_iff := by simp

/-- No region of a partition starts before the partition does. -/
theorem start_le (h : IsPartition start stop rs) : ∀ r ∈ rs, start ≤ r.range.start := by
  cases rs with
  | nil =>
      intro r hr
      cases hr
  | cons first rest =>
      have hfirst := h.first first rfl
      have hnonempty := h.nonempty first List.mem_cons_self
      intro r hr
      rcases List.mem_cons.1 hr with rfl | hr
      · omega
      · have hafter := (List.pairwise_cons.1 h.ascending).1 r hr
        omega

/-- The intervals of a partition do not run backwards. -/
theorem le (h : IsPartition start stop rs) : start ≤ stop := by
  cases hlast : rs.getLast? with
  | none => exact Int.le_of_eq (h.eq_nil_iff.1 (List.getLast?_eq_none_iff.1 hlast))
  | some last =>
      have hmem := List.mem_of_getLast? hlast
      have hstart := h.start_le last hmem
      have hnonempty := h.nonempty last hmem
      have hstop := h.last last hlast
      omega

/-- A region in front of a partition, unless the first one after it is of the same kind. -/
theorem cons (hnonempty : r.range.start < r.range.stop)
    (hkind : ∀ n ∈ rs.head?, r.isProtected ≠ n.isProtected)
    (h : IsPartition r.range.stop stop rs) : IsPartition r.range.start stop (r :: rs) := by
  have hle := h.le
  refine ⟨?_, ?_, ?_, ?_, ?_, ?_, ?_⟩
  · exact List.forall_mem_cons.2 ⟨hnonempty, h.nonempty⟩
  · exact List.pairwise_cons.2 ⟨h.start_le, h.ascending⟩
  · exact List.isChain_cons.2 ⟨fun n hn => (h.first n hn).symm, h.consecutive⟩
  · exact List.isChain_cons.2 ⟨hkind, h.alternating⟩
  · intro n hn
    cases hn
    rfl
  · intro n hn
    cases rs with
    | nil =>
        cases hn
        exact h.eq_nil_iff.1 rfl
    | cons next rest =>
        rw [List.getLast?_cons_cons] at hn
        exact h.last n hn
  · constructor
    · intro hnil
      cases hnil
    · intro hstop
      omega

/-- What is left of a partition without its first region. -/
theorem tail (h : IsPartition start stop (r :: rs)) : IsPartition r.range.stop stop rs := by
  refine ⟨?_, ?_, ?_, ?_, ?_, ?_, ?_⟩
  · exact (List.forall_mem_cons.1 h.nonempty).2
  · exact (List.pairwise_cons.1 h.ascending).2
  · exact (List.isChain_cons.1 h.consecutive).2
  · exact (List.isChain_cons.1 h.alternating).2
  · intro n hn
    exact ((List.isChain_cons.1 h.consecutive).1 n hn).symm
  · intro n hn
    cases rs with
    | nil => cases hn
    | cons next rest =>
        apply h.last n
        rw [List.getLast?_cons_cons]
        exact hn
  · constructor
    · rintro rfl
      exact h.last r rfl
    · intro hstop
      cases rs with
      | nil => rfl
      | cons next rest =>
          cases hlast : (next :: rest).getLast? with
          | none => exact List.getLast?_eq_none_iff.1 hlast
          | some last =>
              have hmem := List.mem_of_getLast? hlast
              have hafter := (List.pairwise_cons.1 h.ascending).1 last hmem
              have hnonempty := h.nonempty last (List.mem_cons_of_mem r hmem)
              have hend := h.last last (by rw [List.getLast?_cons_cons]; exact hlast)
              omega

/-- Every offset lies in exactly one region of a partition. -/
theorem exists_filter_eq (h : IsPartition start stop rs) {offset : Int} (hstart : start ≤ offset)
    (hstop : offset < stop) : ∃ r, rs.filter (fun n => n.range.contains offset) = [r] := by
  induction rs generalizing start with
  | nil =>
      have hempty := h.eq_nil_iff.1 rfl
      omega
  | cons r rest ih =>
      have hr := h.first r rfl
      by_cases hinside : offset < r.range.stop
      · have hcontains : r.range.contains offset = true :=
          Interval.contains_iff.2 ⟨by omega, hinside⟩
        have hrest : rest.filter (fun n => n.range.contains offset) = [] := by
          apply List.filter_eq_nil_iff.2
          intro n hn hcontains
          have hafter := h.tail.start_le n hn
          have hbounds := Interval.contains_iff.1 hcontains
          omega
        refine ⟨r, ?_⟩
        rw [List.filter_cons, if_pos hcontains, hrest]
      · have hcontains : ¬ r.range.contains offset = true := by
          intro hcontains
          exact hinside (Interval.contains_iff.1 hcontains).2
        rw [List.filter_cons, if_neg hcontains]
        exact ih h.tail (Int.not_lt.1 hinside)

/-- The regions of a partition start at different offsets. -/
theorem nodup_starts (h : IsPartition start stop rs) :
    (rs.map fun r => r.range.start).Nodup := by
  apply List.pairwise_map.2
  apply h.ascending.imp_of_mem
  intro a b ha _ hab
  have hnonempty := h.nonempty a ha
  omega

/-- Sorting the regions of a partition by their starts puts them in order. -/
theorem mergeSort_eq (h : IsPartition start stop rs) {xs : List CodeRegion} (hperm : xs.Perm rs) :
    xs.mergeSort (fun a b => decide (a.range.start ≤ b.range.start)) = rs := by
  have hsorted := Interval.pairwise_mergeSort_key (fun r : CodeRegion => r.range.start) xs
  have hordered : rs.Pairwise fun a b => a.range.start ≤ b.range.start := by
    apply h.ascending.imp_of_mem
    intro a b ha _ hab
    have hnonempty := h.nonempty a ha
    omega
  have hsame := List.mergeSort_perm xs fun a b => decide (a.range.start ≤ b.range.start)
  refine List.Perm.eq_of_pairwise ?_ hsorted hordered (hsame.trans hperm)
  intro a b ha hb hab hba
  have hstart := Int.le_antisymm hab hba
  have hmem := (hsame.trans hperm).mem_iff.1 ha
  exact List.inj_on_of_nodup_map h.nodup_starts hmem hb hstart

end IsPartition
end CodeRegion

/-! ## Tiles -/

namespace Code

/-- Ascending intervals and the gaps between them, from {lit}`position` up to {lit}`size`. -/
def tiles (size position : Int) : List Interval → List CodeRegion
  | [] => if position = size then [] else [⟨⟨position, size⟩, false⟩]
  | r :: rest =>
      if position = r.start then ⟨r, true⟩ :: tiles size r.stop rest
      else ⟨⟨position, r.start⟩, false⟩ :: ⟨r, true⟩ :: tiles size r.stop rest

/-- The tiles are the intervals and the gaps that a complement leaves between them. -/
theorem tiles_perm (size position : Int) (rs : List Interval) :
    ((rs.map fun r => CodeRegion.mk r true) ++
      (Interval.gapsFrom size position rs).map fun r => CodeRegion.mk r false).Perm
      (tiles size position rs) := by
  induction rs generalizing position with
  | nil =>
      rw [tiles, Interval.gapsFrom]
      split
      · exact List.Perm.refl _
      · exact List.Perm.refl _
  | cons r rest ih =>
      rw [tiles, Interval.gapsFrom]
      split
      · exact (ih r.stop).cons _
      · rw [List.map_cons, List.map_cons]
        refine List.perm_middle.trans (List.Perm.cons _ ?_)
        exact (ih r.stop).cons _

/-- The protected tiles are the intervals. -/
theorem mem_tiles_iff {size position : Int} {rs : List Interval} {r : Interval} :
    ⟨r, true⟩ ∈ tiles size position rs ↔ r ∈ rs := by
  rw [← (tiles_perm size position rs).mem_iff, List.mem_append, List.mem_map, List.mem_map]
  constructor
  · intro h
    rcases h with ⟨s, hs, heq⟩ | ⟨s, -, heq⟩
    · cases heq
      exact hs
    · cases heq
  · intro hr
    exact .inl ⟨r, hr, rfl⟩

/-- The first tile that follows an interval is a gap, because the next interval does not touch
it. -/
theorem isProtected_head?_tiles (size : Int) {position : Int} {rs : List Interval}
    (h : ∀ r ∈ rs, position < r.start) :
    ∀ n ∈ (tiles size position rs).head?, n.isProtected = false := by
  intro n hn
  cases rs with
  | nil =>
      rw [tiles] at hn
      split at hn
      · cases hn
      · cases hn
        rfl
  | cons r rest =>
      have hne : position ≠ r.start := by
        have hlt := h r List.mem_cons_self
        omega
      rw [tiles, if_neg hne] at hn
      cases hn
      rfl

/-- Separate intervals and the gaps between them make up a partition. -/
theorem isPartition_tiles {size position : Int} {rs : List Interval}
    (hnonempty : ∀ r ∈ rs, r.start < r.stop)
    (hseparated : rs.Pairwise fun a b => a.stop < b.start)
    (hstart : ∀ r ∈ rs, position ≤ r.start) (hstop : ∀ r ∈ rs, r.stop ≤ size)
    (hle : position ≤ size) :
    CodeRegion.IsPartition position size (tiles size position rs) := by
  induction rs generalizing position with
  | nil =>
      rw [tiles]
      split
      · rename_i hend
        rw [hend]
        exact CodeRegion.IsPartition.nil
      · rename_i hend
        refine CodeRegion.IsPartition.cons (r := ⟨⟨position, size⟩, false⟩) ?_ ?_
          CodeRegion.IsPartition.nil
        · simp only
          omega
        · intro n hn
          cases hn
  | cons r rest ih =>
      rcases List.forall_mem_cons.1 hnonempty with ⟨hr, hnonempty⟩
      rcases List.pairwise_cons.1 hseparated with ⟨hafter, hseparated⟩
      rcases List.forall_mem_cons.1 hstop with ⟨hrstop, hstop⟩
      have hrstart := hstart r List.mem_cons_self
      have hrest := ih hnonempty hseparated (fun n hn => Int.le_of_lt (hafter n hn)) hstop hrstop
      have hkind := isProtected_head?_tiles size hafter
      have hprotected :
          CodeRegion.IsPartition r.start size (⟨r, true⟩ :: tiles size r.stop rest) := by
        refine CodeRegion.IsPartition.cons (r := ⟨r, true⟩) hr ?_ hrest
        intro n hn
        rw [hkind n hn]
        exact Bool.noConfusion
      rw [tiles]
      split
      · rename_i hend
        rw [hend]
        exact hprotected
      · rename_i hend
        refine CodeRegion.IsPartition.cons (r := ⟨⟨position, r.start⟩, false⟩) ?_ ?_ hprotected
        · simp only
          omega
        · intro n hn
          cases hn
          exact Bool.false_ne_true

end Code
end JvmMethods
