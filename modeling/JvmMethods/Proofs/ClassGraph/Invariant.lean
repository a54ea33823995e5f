import Mathlib.Data.List.Nodup
import JvmMethods.Proofs.ClassGraph.Growth

/-!
# Well-formed class graphs

Whatever run leads to a class graph, its classes have different names, every class comes after its
superclass, links lead to classes of the graph, and the methods of a class are its own.  Chains of
superclasses are therefore finite, while links to interfaces may still form circles.

Main results:

- Definition {lit}`ClassGraph.WellFormed`: what holds of every graph that a run leads to.
- Theorem {lit}`ClassGraph.WellFormed.lookup_eq_some_iff`: the name of a class finds that class.
- Theorem {lit}`ClassGraph.Change.wellFormed`: every change keeps a graph well formed.
- Theorem {lit}`ClassGraph.Reachable.wellFormed`: every graph that a run leads to is well formed.
-/

namespace JvmMethods
namespace ClassGraph

/-- The names of the classes differ, superclasses come first, and links lead to classes of the
graph. -/
structure WellFormed (g : ClassGraph) : Prop where
  nodup : (g.classes.map ClassEntry.name).Nodup
  superclass : ∀ (i : Nat) (c : ClassEntry), g.classes[i]? = some c → ∀ s ∈ c.superclass,
    ∃ (j : Nat) (d : ClassEntry), j < i ∧ g.classes[j]? = some d ∧ d.name = s
  interfaces : ∀ c ∈ g.classes, ∀ i ∈ c.interfaces, g.Knows i
  methods : ∀ c ∈ g.classes, c.OwnsMethods

/-- The graph without classes is well formed. -/
theorem wellFormed_empty : empty.WellFormed where
  nodup := List.nodup_nil
  superclass _ _ h := absurd (List.mem_of_getElem? h) List.not_mem_nil
  interfaces _ h := absurd h List.not_mem_nil
  methods _ h := absurd h List.not_mem_nil

/-- The name of a class finds that class, and no other one. -/
theorem WellFormed.lookup_eq_some_iff {g : ClassGraph} (hg : g.WellFormed) {name : BinaryName}
    {c : ClassEntry} : g.lookup name = some c ↔ c ∈ g.classes ∧ c.name = name := by
  constructor
  · intro h
    exact ⟨List.mem_of_find?_eq_some h, lookup_name h⟩
  · rintro ⟨hc, rfl⟩
    obtain ⟨d, hd⟩ := knows_iff_lookup.1 ⟨c, hc, rfl⟩
    have hsame : d = c :=
      List.inj_on_of_nodup_map hg.nodup (List.mem_of_find?_eq_some hd) hc (lookup_name hd)
    rw [hd, hsame]

/-! ## Changes keep graphs well formed -/

/-- A class of a new name joins the graph after its supertypes. -/
theorem WellFormed.append {g : ClassGraph} (hg : g.WellFormed) {entry : ClassEntry}
    (hfresh : g.lookup entry.name = none) (hentry : g.Admits entry) :
    (⟨g.classes ++ [entry]⟩ : ClassGraph).WellFormed := by
  have hknows : ∀ {name : BinaryName}, g.Knows name →
      (⟨g.classes ++ [entry]⟩ : ClassGraph).Knows name := by
    rintro name ⟨c, hc, hname⟩
    exact ⟨c, List.mem_append_left _ hc, hname⟩
  constructor
  case nodup =>
    rw [List.map_append, List.map_singleton, List.nodup_append]
    refine ⟨hg.nodup, List.nodup_singleton _, ?_⟩
    intro name hname other hother hsame
    obtain ⟨c, hc, rfl⟩ := List.mem_map.1 hname
    rw [List.mem_singleton.1 hother] at hsame
    exact List.find?_eq_none.1 hfresh c hc (decide_eq_true hsame)
  case superclass =>
    intro i c hc s hs
    rcases Nat.lt_or_ge i g.classes.length with hold | hnew
    · rw [List.getElem?_append_left hold] at hc
      obtain ⟨j, d, hj, hd, hname⟩ := hg.superclass i c hc s hs
      exact ⟨j, d, hj, by rw [List.getElem?_append_left (Nat.lt_trans hj hold), hd], hname⟩
    · have hentry' : c = entry := by
        rw [List.getElem?_append_right hnew] at hc
        exact List.mem_singleton.1 (List.mem_of_getElem? hc)
      subst hentry'
      obtain ⟨d, hd, hname⟩ := hentry.superclass s hs
      obtain ⟨j, hj, hget⟩ := List.getElem_of_mem hd
      refine ⟨j, d, Nat.lt_of_lt_of_le hj hnew, ?_, hname⟩
      rw [List.getElem?_append_left hj, List.getElem?_eq_getElem hj, hget]
  case interfaces =>
    intro c hc i hi
    rcases List.mem_append.1 hc with hold | hnew
    · exact hknows (hg.interfaces c hold i hi)
    · rw [List.mem_singleton.1 hnew] at hi
      exact hknows (hentry.interfaces i hi)
  case methods =>
    intro c hc
    rcases List.mem_append.1 hc with hold | hnew
    · exact hg.methods c hold
    · rw [List.mem_singleton.1 hnew]
      exact hentry.methods

/-- The class of one name grows. -/
theorem WellFormed.modify {g : ClassGraph} (hg : g.WellFormed) {name : BinaryName}
    {f : ClassEntry → ClassEntry} (hname : ∀ c, (f c).name = c.name)
    (hgrows : ∀ c, c.name = name → g.Grows c (f c)) : (g.modify name f).WellFormed := by
  -- Whether it was changed or not, every class stems from one of the same name.
  have hnames : (g.modify name f).classes.map ClassEntry.name =
      g.classes.map ClassEntry.name := by
    rw [ClassGraph.modify, List.map_map]
    refine List.map_congr_left fun c _ => ?_
    by_cases hc : c.name = name <;> simp [hc, hname]
  have hgrown : ∀ c, g.Grows c (if c.name = name then f c else c) := by
    intro c
    by_cases hc : c.name = name
    · rw [if_pos hc]
      exact hgrows c hc
    · rw [if_neg hc]
      exact ⟨rfl, ClassEntry.Extends.refl c, fun _ => .inl, fun _ => .inl⟩
  have hknows : ∀ {other : BinaryName}, g.Knows other → (g.modify name f).Knows other := by
    rintro other ⟨c, hc, rfl⟩
    exact ⟨_, List.mem_map_of_mem hc, (hgrown c).name⟩
  constructor
  case nodup =>
    rw [hnames]
    exact hg.nodup
  case superclass =>
    intro i c hc s hs
    rw [ClassGraph.modify, List.getElem?_map, Option.map_eq_some_iff] at hc
    obtain ⟨old, hold, rfl⟩ := hc
    rw [(hgrown old).kept.superclass] at hs
    obtain ⟨j, d, hj, hd, hdname⟩ := hg.superclass i old hold s hs
    refine ⟨j, _, hj, ?_, (hgrown d).name.trans hdname⟩
    rw [ClassGraph.modify, List.getElem?_map, hd]
    rfl
  case interfaces =>
    intro c hc i hi
    obtain ⟨old, hold, rfl⟩ := List.mem_map.1 hc
    rcases (hgrown old).interfaces i hi with hlinked | hknown
    · exact hknows (hg.interfaces old hold i hlinked)
    · exact hknows hknown
  case methods =>
    intro c hc m hm
    obtain ⟨old, hold, rfl⟩ := List.mem_map.1 hc
    rw [(hgrown old).name]
    rcases (hgrown old).methods m hm with hheld | hown
    · exact hg.methods old hold m hheld
    · exact hown

/-- Every change keeps a graph well formed. -/
theorem Change.wellFormed {g g' : ClassGraph} (h : Change g g') (hg : g.WellFormed) :
    g'.WellFormed := by
  rcases h.cases with rfl | ⟨entry, hfresh, hentry, rfl⟩ | ⟨name, f, hname, hgrows, rfl⟩
  · exact hg
  · exact hg.append hfresh hentry
  · exact hg.modify hname hgrows

/-- Every graph that a run leads to is well formed. -/
theorem Reachable.wellFormed {g : ClassGraph} (h : g.Reachable) : g.WellFormed :=
  (Run.changes h).invariant (fun _ _ hchange => hchange.wellFormed) wellFormed_empty

end ClassGraph
end JvmMethods
