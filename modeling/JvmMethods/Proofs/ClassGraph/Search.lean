import Mathlib.Data.List.Nodup
import Mathlib.Data.List.Perm.Subperm
import JvmMethods.ClassGraph.Lookup
import JvmMethods.Proofs.ClassGraph.Invariant

/-!
# The order in which supertypes are searched

Lookup follows the superclasses of a class up to the root, and then the interface links from there,
one round for every link.  In a well-formed graph no chain of superclasses is longer than the list
of classes.  Links to interfaces may form circles, but the interfaces that are some number of links
away, and not fewer, are preceded by one interface for every smaller number, so that the rounds run
out of interfaces, too.

The names that a round has passed are those within some number of links, and the names that the next
round passes are those exactly one link further away.  This invariant carries all facts about the
rounds.

Main results:

- Definitions {lit}`ClassGraph.SuperclassChain` and {lit}`ClassGraph.InterfacePath`: supertypes of a
  class, and how many links lead there.
- Theorem {lit}`ClassGraph.WellFormed.superclassChain`: lookup follows the superclasses to the root.
- Theorem {lit}`ClassGraph.Passed.next`: every round passes the interfaces one link further away.
- Theorems {lit}`ClassGraph.WellFormed.mem_superinterfaces_iff` and
  {lit}`ClassGraph.pairwise_superinterfaces`: the interfaces that the links lead to are searched,
  the nearest ones first.
- Theorem {lit}`ClassGraph.WellFormed.lookupOrderWithin_eq`: the search ends of itself.
-/

namespace JvmMethods
namespace ClassGraph

variable {g : ClassGraph}

/-! ## Superclasses -/

/-- The classes from a class up to the root, each of them followed by its superclass. -/
inductive SuperclassChain (g : ClassGraph) : ClassEntry → List ClassEntry → Prop where
  | root {c : ClassEntry} (h : c.superclass = none) : SuperclassChain g c [c]
  | link {c s : ClassEntry} {name : BinaryName} {rest : List ClassEntry}
      (hname : c.superclass = some name) (hs : g.lookup name = some s)
      (hrest : SuperclassChain g s rest) : SuperclassChain g c (c :: rest)

/-- A class has one chain of superclasses only. -/
theorem SuperclassChain.unique {c : ClassEntry} {chain chain' : List ClassEntry}
    (h : g.SuperclassChain c chain) (h' : g.SuperclassChain c chain') : chain = chain' := by
  induction h generalizing chain' with
  | root hroot =>
      cases h' with
      | root => rfl
      | link hname => rw [hroot] at hname; cases hname
  | link hname hs _ ih =>
      cases h' with
      | root hroot => rw [hname] at hroot; cases hroot
      | link hname' hs' hrest' =>
          rw [hname, Option.some_inj] at hname'
          subst hname'
          rw [hs, Option.some_inj] at hs'
          subst hs'
          rw [ih hrest']

/-- The chain of a class of the graph stays inside the graph. -/
theorem SuperclassChain.mem_classes {c : ClassEntry} {chain : List ClassEntry}
    (h : g.SuperclassChain c chain) (hc : c ∈ g.classes) : ∀ a ∈ chain, a ∈ g.classes := by
  induction h with
  | root => exact fun a ha => List.mem_singleton.1 ha ▸ hc
  | link _ hs _ ih =>
      intro a ha
      rcases List.mem_cons.1 ha with rfl | ha
      · exact hc
      · exact ih (List.mem_of_find?_eq_some hs) a ha

/-- The chain is complete as soon as the steps are no fewer than the classes that come first. -/
theorem WellFormed.superclassChain_ancestors (hg : g.WellFormed) {steps i : Nat} {c : ClassEntry}
    (hc : g.classes[i]? = some c) (hi : i ≤ steps) :
    g.SuperclassChain c (g.ancestors steps c) := by
  induction steps generalizing i c with
  | zero =>
      cases hsuperclass : c.superclass with
      | none => exact .root hsuperclass
      | some s =>
          obtain ⟨j, d, hj, -⟩ := hg.superclass i c hc s hsuperclass
          omega
  | succ steps ih =>
      rw [ancestors]
      cases hsuperclass : c.superclass with
      | none => exact .root hsuperclass
      | some s =>
          obtain ⟨j, d, hj, hd, hname⟩ := hg.superclass i c hc s hsuperclass
          have hlookup : g.lookup s = some d :=
            hg.lookup_eq_some_iff.2 ⟨List.mem_of_getElem? hd, hname⟩
          rw [Option.bind_some, hlookup]
          exact .link hsuperclass hlookup (ih hd (by omega))

/-- Lookup follows the superclasses to the root. -/
theorem WellFormed.superclassChain (hg : g.WellFormed) {c : ClassEntry} (hc : c ∈ g.classes)
    {bound : Nat} (hbound : g.classes.length ≤ bound) :
    g.SuperclassChain c (g.ancestors bound c) := by
  obtain ⟨i, hi, hget⟩ := List.getElem_of_mem hc
  exact hg.superclassChain_ancestors (List.getElem?_eq_some_iff.2 ⟨hi, hget⟩) (by omega)

/-! ## Links to interfaces -/

/-- That many interface links lead from one class to another one. -/
inductive InterfacePath (g : ClassGraph) : Nat → ClassEntry → ClassEntry → Prop where
  | here (c : ClassEntry) : InterfacePath g 0 c c
  | link {n : Nat} {c d e : ClassEntry} {name : BinaryName} (hpath : InterfacePath g n c d)
      (hname : name ∈ d.interfaces) (he : g.lookup name = some e) : InterfacePath g (n + 1) c e

/-- The interfaces behind a class of the graph are in the graph. -/
theorem InterfacePath.mem_classes {n : Nat} {c d : ClassEntry} (h : g.InterfacePath n c d)
    (hc : c ∈ g.classes) : d ∈ g.classes := by
  cases h with
  | here => exact hc
  | link _ _ he => exact List.mem_of_find?_eq_some he

/-- The classes that are {lit}`n` links away from some of the roots have a link to the name. -/
def LinkedAfter (g : ClassGraph) (roots : List ClassEntry) (n : Nat) (name : BinaryName) : Prop :=
  ∃ a ∈ roots, ∃ d, g.InterfacePath n a d ∧ name ∈ d.interfaces

/-- The classes that are {lit}`n` links away from some of the roots have a link to the name, and no
nearer ones do. -/
structure NearestAfter (g : ClassGraph) (roots : List ClassEntry) (n : Nat) (name : BinaryName) :
    Prop where
  linked : g.LinkedAfter roots n name
  nearest : ∀ m < n, ¬ g.LinkedAfter roots m name

variable {roots : List ClassEntry}

/-- The nearest interfaces are those that the roots are linked to. -/
theorem linkedAfter_zero_iff {name : BinaryName} :
    g.LinkedAfter roots 0 name ↔ name ∈ roots.flatMap ClassEntry.interfaces := by
  rw [List.mem_flatMap]
  constructor
  · rintro ⟨a, ha, d, hpath, hname⟩
    cases hpath
    exact ⟨a, ha, hname⟩
  · rintro ⟨a, ha, hname⟩
    exact ⟨a, ha, a, .here a, hname⟩

/-- Interfaces that are one link further away are linked from those before. -/
theorem linkedAfter_succ_iff {n : Nat} {name : BinaryName} :
    g.LinkedAfter roots (n + 1) name ↔
      ∃ via, g.LinkedAfter roots n via ∧ ∃ d, g.lookup via = some d ∧ name ∈ d.interfaces := by
  constructor
  · rintro ⟨a, ha, e, hpath, hname⟩
    cases hpath with
    | link hpath hvia he => exact ⟨_, ⟨a, ha, _, hpath, hvia⟩, e, he, hname⟩
  · rintro ⟨via, ⟨a, ha, d, hpath, hvia⟩, e, he, hname⟩
    exact ⟨a, ha, e, .link hpath hvia he, hname⟩

/-- An interface is at the end of a path exactly if its name is linked to from the last but one
class. -/
theorem exists_interfacePath_iff {n : Nat} {e : ClassEntry} :
    (∃ a ∈ roots, g.InterfacePath (n + 1) a e) ↔
      g.LinkedAfter roots n e.name ∧ g.lookup e.name = some e := by
  constructor
  · rintro ⟨a, ha, hpath⟩
    cases hpath with
    | link hpath hname he =>
        rw [lookup_name he]
        exact ⟨⟨a, ha, _, hpath, hname⟩, he⟩
  · rintro ⟨⟨a, ha, d, hpath, hname⟩, he⟩
    exact ⟨a, ha, .link hpath hname he⟩

/-- An interface that is linked to at some distance has a smallest distance. -/
theorem LinkedAfter.exists_nearestAfter {n : Nat} {name : BinaryName}
    (h : g.LinkedAfter roots n name) : ∃ m ≤ n, g.NearestAfter roots m name := by
  induction n using Nat.strongRecOn with
  | ind n ih =>
      by_cases hnear : ∃ m < n, g.LinkedAfter roots m name
      · obtain ⟨m, hm, hlinked⟩ := hnear
        obtain ⟨k, hk, hnearest⟩ := ih m hm hlinked
        exact ⟨k, by omega, hnearest⟩
      · exact ⟨n, Nat.le_refl _, h, fun m hm hlinked => hnear ⟨m, hm, hlinked⟩⟩

/-- The smallest distance of an interface is unique. -/
theorem NearestAfter.unique {m n : Nat} {name : BinaryName} (hm : g.NearestAfter roots m name)
    (hn : g.NearestAfter roots n name) : m = n := by
  rcases Nat.lt_trichotomy m n with hlt | heq | hgt
  · exact absurd hm.linked (hn.nearest m hlt)
  · exact heq
  · exact absurd hn.linked (hm.nearest n hgt)

/-- The last but one interface on a shortest way is one link nearer. -/
theorem nearestAfter_succ_iff {n : Nat} {name : BinaryName} :
    g.NearestAfter roots (n + 1) name ↔
      (∃ via, g.NearestAfter roots n via ∧ ∃ d, g.lookup via = some d ∧ name ∈ d.interfaces) ∧
        ∀ m ≤ n, ¬ g.LinkedAfter roots m name := by
  constructor
  · rintro ⟨hlinked, hnearest⟩
    obtain ⟨via, hvia, d, hd, hname⟩ := linkedAfter_succ_iff.1 hlinked
    refine ⟨⟨via, ⟨hvia, fun m hm hearlier => ?_⟩, d, hd, hname⟩, fun m hm => hnearest m (by omega)⟩
    exact hnearest (m + 1) (by omega) (linkedAfter_succ_iff.2 ⟨via, hearlier, d, hd, hname⟩)
  · rintro ⟨⟨via, hvia, d, hd, hname⟩, hnearest⟩
    exact ⟨linkedAfter_succ_iff.2 ⟨via, hvia.linked, d, hd, hname⟩,
      fun m hm => hnearest m (by omega)⟩

/-- Links lead to classes of the graph. -/
theorem LinkedAfter.knows (hg : g.WellFormed) (hroots : ∀ a ∈ roots, a ∈ g.classes) {n : Nat}
    {name : BinaryName} (h : g.LinkedAfter roots n name) : g.Knows name := by
  obtain ⟨a, ha, d, hpath, hname⟩ := h
  exact hg.interfaces d (hpath.mem_classes (hroots a ha)) name hname

/-- A shortest way passes one interface for every number of links that is smaller. -/
theorem NearestAfter.exists_nodup {n : Nat} {name : BinaryName} (h : g.NearestAfter roots n name) :
    ∃ names : List BinaryName, names.length = n + 1 ∧ names.Nodup ∧
      ∀ passed ∈ names, ∃ m ≤ n, g.NearestAfter roots m passed := by
  induction n generalizing name with
  | zero =>
      refine ⟨[name], rfl, List.nodup_singleton name, ?_⟩
      intro passed hpassed
      exact ⟨0, Nat.le_refl _, List.mem_singleton.1 hpassed ▸ h⟩
  | succ n ih =>
      obtain ⟨⟨via, hvia, -⟩, -⟩ := nearestAfter_succ_iff.1 h
      obtain ⟨names, hlength, hnodup, hnames⟩ := ih hvia
      refine ⟨name :: names, by rw [List.length_cons, hlength], ?_, ?_⟩
      · refine List.nodup_cons.2 ⟨fun hmem => ?_, hnodup⟩
        obtain ⟨m, hm, hnearest⟩ := hnames name hmem
        have hsame := hnearest.unique h
        omega
      · intro passed hpassed
        rcases List.mem_cons.1 hpassed with rfl | hold
        · exact ⟨n + 1, Nat.le_refl _, h⟩
        · obtain ⟨m, hm, hnearest⟩ := hnames passed hold
          exact ⟨m, by omega, hnearest⟩

/-- No interface is as many links away as there are classes. -/
theorem NearestAfter.lt_length (hg : g.WellFormed) (hroots : ∀ a ∈ roots, a ∈ g.classes) {n : Nat}
    {name : BinaryName} (h : g.NearestAfter roots n name) : n < g.classes.length := by
  obtain ⟨names, hlength, hnodup, hnames⟩ := h.exists_nodup
  have hsubset : names ⊆ g.classes.map ClassEntry.name := by
    intro passed hpassed
    obtain ⟨m, -, hnearest⟩ := hnames passed hpassed
    obtain ⟨c, hc, rfl⟩ := hnearest.linked.knows hg hroots
    exact List.mem_map_of_mem hc
  have hle := (hnodup.subperm hsubset).length_le
  rw [List.length_map, hlength] at hle
  exact hle

/-! ## Rounds -/

/-- The names that are left are those that were not seen before. -/
theorem mem_unseen_iff {seen names : List BinaryName} {name : BinaryName} :
    name ∈ unseen seen names ↔ name ∈ names ∧ name ∉ seen := by
  simp [unseen]

/-- The names that the rounds have passed so far are those within some number of links, and the next
round is to pass those that are exactly that many links away. -/
structure Passed (g : ClassGraph) (roots : List ClassEntry) (n : Nat)
    (seen level : List BinaryName) : Prop where
  seen : ∀ name, name ∈ seen ↔ ∃ m ≤ n, g.LinkedAfter roots m name
  level : ∀ name, name ∈ level ↔ g.NearestAfter roots n name

/-- The first round passes the interfaces that the roots are linked to. -/
theorem passed_first (g : ClassGraph) (roots : List ClassEntry) :
    g.Passed roots 0 (unseen [] (roots.flatMap ClassEntry.interfaces))
      (unseen [] (roots.flatMap ClassEntry.interfaces)) := by
  have hfirst : ∀ name, name ∈ unseen [] (roots.flatMap ClassEntry.interfaces) ↔
      g.LinkedAfter roots 0 name := by
    intro name
    rw [mem_unseen_iff, linkedAfter_zero_iff]
    exact and_iff_left List.not_mem_nil
  constructor
  case seen =>
    intro name
    rw [hfirst]
    constructor
    · intro h
      exact ⟨0, Nat.le_refl _, h⟩
    · rintro ⟨m, hm, h⟩
      rwa [Nat.le_zero.1 hm] at h
  case level =>
    intro name
    rw [hfirst]
    constructor
    · intro h
      exact ⟨h, fun m hm => absurd hm (Nat.not_lt_zero m)⟩
    · exact NearestAfter.linked

/-- Every round passes the interfaces that are one link further away. -/
theorem Passed.next {n : Nat} {seen level : List BinaryName} (h : g.Passed roots n seen level) :
    g.Passed roots (n + 1)
      (seen ++ unseen seen ((level.filterMap g.lookup).flatMap ClassEntry.interfaces))
      (unseen seen ((level.filterMap g.lookup).flatMap ClassEntry.interfaces)) := by
  have hlevel : ∀ name,
      name ∈ unseen seen ((level.filterMap g.lookup).flatMap ClassEntry.interfaces) ↔
        g.NearestAfter roots (n + 1) name := by
    intro name
    rw [mem_unseen_iff, nearestAfter_succ_iff, List.mem_flatMap, h.seen]
    refine and_congr ?_ (by simp)
    constructor
    · rintro ⟨d, hd, hname⟩
      obtain ⟨via, hvia, hlookup⟩ := List.mem_filterMap.1 hd
      exact ⟨via, (h.level via).1 hvia, d, hlookup, hname⟩
    · rintro ⟨via, hvia, d, hlookup, hname⟩
      exact ⟨d, List.mem_filterMap.2 ⟨via, (h.level via).2 hvia, hlookup⟩, hname⟩
  constructor
  case seen =>
    intro name
    rw [List.mem_append, h.seen, hlevel]
    constructor
    · rintro (⟨m, hm, hlinked⟩ | hnearest)
      · exact ⟨m, by omega, hlinked⟩
      · exact ⟨n + 1, Nat.le_refl _, hnearest.linked⟩
    · rintro ⟨m, hm, hlinked⟩
      obtain ⟨k, hk, hnearest⟩ := hlinked.exists_nearestAfter
      rcases Nat.lt_or_ge n k with hlt | hge
      · have hk' : k = n + 1 := by omega
        exact .inr (hk' ▸ hnearest)
      · exact .inl ⟨k, hge, hnearest.linked⟩
  case level => exact hlevel

/-- The rounds pass the interfaces that are that many links away, and no others. -/
theorem Passed.mem_rounds_iff {n : Nat} {seen level : List BinaryName}
    (h : g.Passed roots n seen level) {count : Nat} {e : ClassEntry} :
    e ∈ g.rounds count seen level ↔
      g.lookup e.name = some e ∧
        ∃ m, n ≤ m ∧ m < n + count ∧ g.NearestAfter roots m e.name := by
  induction count generalizing n seen level with
  | zero =>
      rw [rounds]
      constructor
      · intro he
        cases he
      · rintro ⟨-, m, hle, hlt, -⟩
        omega
  | succ count ih =>
      have hfirst : e ∈ level.filterMap g.lookup ↔
          g.lookup e.name = some e ∧ g.NearestAfter roots n e.name := by
        rw [List.mem_filterMap]
        constructor
        · rintro ⟨name, hname, hlookup⟩
          rw [lookup_name hlookup]
          exact ⟨hlookup, (h.level name).1 hname⟩
        · rintro ⟨hlookup, hnearest⟩
          exact ⟨e.name, (h.level e.name).2 hnearest, hlookup⟩
      rw [rounds, List.mem_append, hfirst, ih h.next]
      constructor
      · rintro (⟨hlookup, hnearest⟩ | ⟨hlookup, m, hle, hlt, hnearest⟩)
        · exact ⟨hlookup, n, Nat.le_refl _, by omega, hnearest⟩
        · exact ⟨hlookup, m, by omega, by omega, hnearest⟩
      · rintro ⟨hlookup, m, hle, hlt, hnearest⟩
        rcases Nat.eq_or_lt_of_le hle with rfl | hfurther
        · exact .inl ⟨hlookup, hnearest⟩
        · exact .inr ⟨hlookup, m, hfurther, by omega, hnearest⟩

/-- The rounds pass nearer interfaces first. -/
theorem Passed.pairwise_rounds {n : Nat} {seen level : List BinaryName}
    (h : g.Passed roots n seen level) (count : Nat) :
    (g.rounds count seen level).Pairwise fun d e => ∀ m k,
      g.NearestAfter roots m d.name → g.NearestAfter roots k e.name → m ≤ k := by
  induction count generalizing n seen level with
  | zero => exact List.Pairwise.nil
  | succ count ih =>
      have hfirst : ∀ d ∈ level.filterMap g.lookup, g.NearestAfter roots n d.name := by
        intro d hd
        obtain ⟨name, hname, hlookup⟩ := List.mem_filterMap.1 hd
        rw [lookup_name hlookup]
        exact (h.level name).1 hname
      rw [rounds, List.pairwise_append]
      refine ⟨List.pairwise_of_forall_mem_list ?_, ih h.next, ?_⟩
      · intro d hd e he m k hm hk
        exact Nat.le_of_eq ((hm.unique (hfirst d hd)).trans ((hfirst e he).unique hk))
      · intro d hd e he m k hm hk
        obtain ⟨-, j, hj, -, hnearest⟩ := h.next.mem_rounds_iff.1 he
        rw [hm.unique (hfirst d hd), hk.unique hnearest]
        omega

/-- Nothing more is found once a round has found nothing. -/
theorem rounds_nil (g : ClassGraph) (count : Nat) (seen : List BinaryName) :
    g.rounds count seen [] = [] := by
  induction count generalizing seen with
  | zero => rfl
  | succ count ih =>
      rw [rounds]
      exact ih _

/-- Once there is nothing further away, more rounds find nothing more. -/
theorem Passed.rounds_add {n : Nat} {seen level : List BinaryName}
    (h : g.Passed roots n seen level) {count : Nat}
    (hend : ∀ name, ¬ g.NearestAfter roots (n + count) name) (extra : Nat) :
    g.rounds (count + extra) seen level = g.rounds count seen level := by
  induction count generalizing n seen level with
  | zero =>
      have hempty : level = [] :=
        List.eq_nil_iff_forall_not_mem.2 fun name hname => hend name ((h.level name).1 hname)
      rw [hempty, rounds_nil, rounds_nil]
  | succ count ih =>
      rw [Nat.succ_add, rounds, rounds]
      exact congrArg _ (ih h.next fun name => by rw [Nat.succ_add]; exact hend name)

/-! ## The order of lookup -/

/-- The interfaces that links lead to are searched, and no others. -/
theorem WellFormed.mem_superinterfaces_iff (hg : g.WellFormed)
    (hroots : ∀ a ∈ roots, a ∈ g.classes) {e : ClassEntry} :
    e ∈ g.superinterfaces roots ↔ ∃ a ∈ roots, ∃ n, g.InterfacePath (n + 1) a e := by
  rw [superinterfaces, (passed_first g roots).mem_rounds_iff]
  constructor
  · rintro ⟨hlookup, n, -, -, hnearest⟩
    obtain ⟨a, ha, hpath⟩ := exists_interfacePath_iff.2 ⟨hnearest.linked, hlookup⟩
    exact ⟨a, ha, n, hpath⟩
  · rintro ⟨a, ha, n, hpath⟩
    obtain ⟨hlinked, hlookup⟩ := exists_interfacePath_iff.1 ⟨a, ha, hpath⟩
    obtain ⟨m, -, hnearest⟩ := hlinked.exists_nearestAfter
    have hlt := hnearest.lt_length hg hroots
    exact ⟨hlookup, m, Nat.zero_le m, by omega, hnearest⟩

/-- Nearer interfaces are searched first. -/
theorem pairwise_superinterfaces (g : ClassGraph) (roots : List ClassEntry) :
    (g.superinterfaces roots).Pairwise fun d e => ∀ m k,
      g.NearestAfter roots m d.name → g.NearestAfter roots k e.name → m ≤ k :=
  (passed_first g roots).pairwise_rounds g.classes.length

/-- The classes and interfaces that a class has methods from, found in a limited number of steps. -/
def lookupOrderWithin (g : ClassGraph) (bound : Nat) (c : ClassEntry) : List ClassEntry :=
  let classes := g.ancestors bound c
  let first := unseen [] (classes.flatMap ClassEntry.interfaces)
  classes ++ g.rounds bound first first

/-- The search ends of itself: no limit matters that is not less than the number of classes. -/
theorem WellFormed.lookupOrderWithin_eq (hg : g.WellFormed) {c : ClassEntry} (hc : c ∈ g.classes)
    {bound : Nat} (hbound : g.classes.length ≤ bound) :
    g.lookupOrderWithin bound c = g.lookupOrder c := by
  have hchain := hg.superclassChain hc hbound
  have hsame : g.ancestors bound c = g.chain c :=
    hchain.unique (hg.superclassChain hc (Nat.le_refl _))
  have hend : ∀ name, ¬ g.NearestAfter (g.chain c) (0 + g.classes.length) name := by
    intro name hnearest
    have hlt := hnearest.lt_length hg (hsame ▸ hchain.mem_classes hc)
    omega
  obtain ⟨extra, rfl⟩ := Nat.exists_eq_add_of_le hbound
  rw [lookupOrderWithin, lookupOrder, hsame, superinterfaces]
  exact congrArg _ ((passed_first g (g.chain c)).rounds_add hend extra)

end ClassGraph
end JvmMethods
