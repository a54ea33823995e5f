import JvmMethods.Proofs.ClassGraph.Stability

/-!
# Adding the standard library again

Classes keep their names and type parameters, and only gain links and methods.  Once the library was
added, the graph holds all of it for good, be it in classes that were there before.  Adding it again
finds every type and every method, so that all it does is to repeat links that are there already.
The search for methods passes no interface twice and does not see such repetitions, neither in the
class that has them nor in the order of the classes after it.

Main results:

- Definition {lit}`ClassGraph.Lasting`: properties that no operation takes away.
- Definition {lit}`ClassGraph.HoldsLibrary`: every type of the library is linked to its interfaces,
  and every method is declared, or another one that is dispatched alike.
- Theorem {lit}`ClassGraph.holdsLibrary_of_addStandardLibrary`: adding the library leaves a graph
  that holds it.
- Theorem {lit}`ClassGraph.HoldsLibrary.relinks`: adding it to such a graph repeats links and does
  nothing else.
- Theorem {lit}`ClassGraph.Relinks.resolveOn_eq`: repeated links change nothing that references
  resolve to.
- Theorem {lit}`ClassGraph.exists_insertStandardLibrary`: adding the library succeeds, and gives the
  classes of a graph that holds it.
- Theorem {lit}`ClassGraph.Reachable.addStandardLibrary_again`: the library can be added at any
  time, and adding it again changes no answer.
-/

namespace JvmMethods

namespace ClassEntry

/-- The class has kept what it was declared with, and may have gained some links and methods. -/
structure Retains (c c' : ClassEntry) : Prop extends c.Extends c' where
  name : c'.name = c.name
  typeParameters : c'.typeParameters = c.typeParameters

theorem Retains.refl (c : ClassEntry) : c.Retains c :=
  ⟨Extends.refl c, rfl, rfl⟩

/-- The class has got some of its links once more, and nothing else. -/
def Relinks (c c' : ClassEntry) : Prop :=
  ∃ again, again ⊆ c.interfaces ∧ c' = { c with interfaces := c.interfaces ++ again }

theorem Relinks.refl (c : ClassEntry) : c.Relinks c := by
  refine ⟨[], List.nil_subset _, ?_⟩
  rw [List.append_nil]

/-- Links that are repeated twice are repeated. -/
theorem Relinks.trans {c c' c'' : ClassEntry} (h : c.Relinks c') (h' : c'.Relinks c'') :
    c.Relinks c'' := by
  obtain ⟨again, hagain, rfl⟩ := h
  obtain ⟨more, hmore, rfl⟩ := h'
  refine ⟨again ++ more, List.append_subset.2 ⟨hagain, ?_⟩, ?_⟩
  · exact List.Subset.trans hmore (List.append_subset.2 ⟨List.Subset.refl _, hagain⟩)
  · rw [List.append_assoc]

/-- The search does not see repeated links. -/
theorem Relinks.searchedAlike {c c' : ClassEntry} (h : c.Relinks c') (name : UnqualifiedName)
    (erasedSignature : String) : c.SearchedAlike name erasedSignature c' := by
  obtain ⟨again, hagain, rfl⟩ := h
  refine ⟨rfl, fun seen => ?_, rfl⟩
  have hseen : again ⊆ seen ++ c.interfaces :=
    List.Subset.trans hagain (List.subset_append_right seen c.interfaces)
  rw [ClassGraph.unseen_append, ClassGraph.unseen_eq_nil hseen, List.append_nil]

end ClassEntry

/-- The definition of a library method depends on the name and the type parameters of its class
only. -/
theorem StandardLibrary.LibraryMethod.define_congr {m : LibraryMethod} {c c' : ClassEntry}
    (h : c.Retains c') : m.define c' = m.define c := by
  rw [define, define, ClassEntry.asType, ClassEntry.asType, h.name, h.typeParameters]

namespace ClassGraph

variable {g g' : ClassGraph}

/-! ## What lasts -/

/-- Adding a class leaves the others as they were. -/
theorem retains_of_addClass {entry stored : ClassEntry}
    (h : (addClass entry g).outcome = .ok (stored, g')) : Matches ClassEntry.Retains g g' := by
  rcases addClass_eq_ok_iff.1 h with ⟨-, rfl⟩ | ⟨-, -, rfl⟩
  · exact Matches.refl ClassEntry.Retains.refl g'
  · exact matches_append ClassEntry.Retains.refl g entry

/-- Adding links leaves classes with what they were declared with. -/
theorem retains_of_addInterfaces {name : BinaryName} {interfaces : List BinaryName} {u : Unit}
    (h : (addInterfaces name interfaces g).outcome = .ok (u, g')) :
    Matches ClassEntry.Retains g g' := by
  rw [addInterfaces_eq_ok_iff.1 h]
  refine matches_modify ClassEntry.Retains.refl (fun _ => rfl) fun c _ => ⟨⟨rfl, ?_, ?_⟩, rfl, rfl⟩
  · exact List.prefix_append _ _
  · exact List.prefix_rfl

/-- Adding a method leaves classes with what they were declared with. -/
theorem retains_of_addMethod {owner : BinaryName} {m d : MethodDefinition}
    (h : (addMethod owner m g).outcome = .ok (d, g')) : Matches ClassEntry.Retains g g' := by
  obtain ⟨-, _, -, ⟨-, rfl⟩ | ⟨-, -, rfl⟩⟩ := addMethod_eq_ok_iff.1 h
  · exact Matches.refl ClassEntry.Retains.refl g'
  · refine matches_modify ClassEntry.Retains.refl (fun _ => rfl) fun c _ =>
      ⟨⟨rfl, ?_, ?_⟩, rfl, rfl⟩
    · exact List.prefix_rfl
    · exact List.prefix_append _ _

/-- Every change leaves classes with what they were declared with. -/
theorem Change.retains (h : Change g g') : Matches ClassEntry.Retains g g' := by
  cases h with
  | addClass _ h => exact retains_of_addClass h
  | addInterfaces _ h => exact retains_of_addInterfaces h
  | addMethod h => exact retains_of_addMethod h

/-- The property stays true while classes only gain links and methods. -/
def Lasting (p : ClassGraph → Prop) : Prop :=
  ∀ g g', Matches ClassEntry.Retains g g' → p g → p g'

/-- What lasts is still there after any number of changes. -/
theorem Lasting.changes {p : ClassGraph → Prop} (hp : Lasting p) (h : Changes g g') (hg : p g) :
    p g' :=
  h.invariant (fun _ _ hchange => hp _ _ hchange.retains) hg

/-- Adding a type keeps what lasts. -/
theorem Lasting.keeps_addType {p : ClassGraph → Prop} (hp : Lasting p) (entry : ClassEntry) :
    Keeps p (StandardLibrary.addType entry) := by
  have hclass : Keeps p (addClass { entry with interfaces := [] }) :=
    fun g _ g' hg h => hp g g' (retains_of_addClass h) hg
  exact hclass.bind fun _ g _ g' hg h => hp g g' (retains_of_addInterfaces h) hg

/-- Adding a method of the library keeps what lasts. -/
theorem Lasting.keeps_addLibraryMethod {p : ClassGraph → Prop} (hp : Lasting p)
    (m : StandardLibrary.LibraryMethod) : Keeps p (StandardLibrary.addLibraryMethod m) :=
  ClassGraph.keeps_addLibraryMethod fun _ g _ g' hg h => hp g g' (retains_of_addMethod h) hg

/-! ## Graphs that hold the library -/

/-- The graph holds a class with the name of the type, which is linked to its interfaces. -/
def HoldsType (entry : ClassEntry) (g : ClassGraph) : Prop :=
  ∃ c, g.lookup entry.name = some c ∧ entry.interfaces ⊆ c.interfaces

/-- The graph holds the class of the method, which declares a method of its name and descriptor. -/
def HoldsMethod (m : StandardLibrary.LibraryMethod) (g : ClassGraph) : Prop :=
  ∃ c d, g.lookup m.owner = some c ∧ (m.define c).outcome = .ok d ∧
    c.Declares d.name d.erasedSignature

/-- The graph holds the types and the methods of the library. -/
structure HoldsLibrary (g : ClassGraph) : Prop where
  types : ∀ entry ∈ StandardLibrary.classes, g.HoldsType entry
  methods : ∀ m ∈ StandardLibrary.methods, g.HoldsMethod m

/-- Types stay in a graph, with their links. -/
theorem lasting_holdsType (entry : ClassEntry) : Lasting (HoldsType entry) := by
  rintro g g' h ⟨c, hc, hlinks⟩
  obtain ⟨c', hc', hretains⟩ := h _ c hc
  exact ⟨c', hc', List.Subset.trans hlinks hretains.interfaces.subset⟩

/-- Methods stay in a graph, or others that are dispatched alike. -/
theorem lasting_holdsMethod (m : StandardLibrary.LibraryMethod) : Lasting (HoldsMethod m) := by
  rintro g g' h ⟨c, d, hc, hd, hdeclares⟩
  obtain ⟨c', hc', hretains⟩ := h _ c hc
  refine ⟨c', d, hc', ?_, hretains.toExtends.declares hdeclares⟩
  rw [StandardLibrary.LibraryMethod.define_congr hretains]
  exact hd

/-- A graph that holds the library holds it for good. -/
theorem lasting_holdsLibrary : Lasting HoldsLibrary := by
  intro g g' h hg
  constructor
  · exact fun entry hentry => lasting_holdsType entry g g' h (hg.types entry hentry)
  · exact fun m hm => lasting_holdsMethod m g g' h (hg.methods m hm)

/-- The graph holds a type that was added, with its links. -/
theorem holdsType_of_addType {entry : ClassEntry}
    (h : (StandardLibrary.addType entry g).outcome = .ok ((), g')) : g'.HoldsType entry := by
  obtain ⟨stored, g₁, hadd, hlink⟩ := Tracked.outcome_bind_eq_ok_iff.1 h
  have hstored := lookup_of_addClass hadd
  rw [addInterfaces_eq_ok_iff.1 hlink]
  exact ⟨{ stored with interfaces := stored.interfaces ++ entry.interfaces },
    lookup_modify_of_some (fun _ => rfl) hstored, List.subset_append_right _ _⟩

/-- The graph holds a method that was added, or another one that is dispatched alike. -/
theorem holdsMethod_of_addLibraryMethod {m : StandardLibrary.LibraryMethod}
    (h : (StandardLibrary.addLibraryMethod m g).outcome = .ok ((), g')) : g'.HoldsMethod m := by
  obtain ⟨c, d, stored, hc, hd, hadd⟩ := addLibraryMethod_eq_ok_iff.1 h
  obtain ⟨-, c₁, hc₁, ⟨hdeclared, rfl⟩ | ⟨-, rfl, rfl⟩⟩ := addMethod_eq_ok_iff.1 hadd
  · rw [hc, Option.some_inj] at hc₁
    subst hc₁
    exact ⟨c, d, hc, hd, ClassEntry.isSome_declared?_iff.1 (Option.isSome_of_eq_some hdeclared)⟩
  · exact ⟨{ c with methods := c.methods ++ [stored] }, stored,
      lookup_modify_of_some (fun _ => rfl) hc, hd, stored,
      List.mem_append_right _ (List.mem_singleton_self _), rfl, rfl⟩

/-- Adding the library leaves a graph that holds it. -/
theorem holdsLibrary_of_addStandardLibrary
    (h : (addStandardLibrary g).outcome = .ok ((), g')) : g'.HoldsLibrary := by
  obtain ⟨_, g₁, htypes, hmethods⟩ := Tracked.outcome_bind_eq_ok_iff.1 h
  constructor
  · intro entry hentry
    have hheld : g₁.HoldsType entry :=
      forall_of_forM (q := HoldsType) (fun _ _ _ => holdsType_of_addType)
        (fun e => (lasting_holdsType e).keeps_addType) htypes entry hentry
    exact Keeps.forM (fun m _ => (lasting_holdsType entry).keeps_addLibraryMethod m) g₁ () g' hheld
      hmethods
  · exact forall_of_forM (q := HoldsMethod) (fun _ _ _ => holdsMethod_of_addLibraryMethod)
      (fun m => (lasting_holdsMethod m).keeps_addLibraryMethod) hmethods

/-! ## Repeated links -/

/-- The graph has the same classes in the same order, some of which have got some of their links
once more. -/
def Relinks (g g' : ClassGraph) : Prop :=
  List.Forall₂ ClassEntry.Relinks g.classes g'.classes

theorem Relinks.refl (g : ClassGraph) : g.Relinks g :=
  List.forall₂_same.2 fun c _ => ClassEntry.Relinks.refl c

/-- Graphs whose links are repeated twice have them repeated. -/
theorem Relinks.trans {g'' : ClassGraph} (h : g.Relinks g') (h' : g'.Relinks g'') :
    g.Relinks g'' := by
  have htrans : ∀ {cs ds es : List ClassEntry}, List.Forall₂ ClassEntry.Relinks cs ds →
      List.Forall₂ ClassEntry.Relinks ds es → List.Forall₂ ClassEntry.Relinks cs es := by
    intro cs ds es h h'
    induction h generalizing es with
    | nil =>
        cases h'
        exact .nil
    | cons hfirst _ ih =>
        cases h' with
        | cons hfirst' hrest' => exact .cons (hfirst.trans hfirst') (ih hrest')
  exact htrans h h'

/-- Both graphs hold a class of a name, the one with some of its links repeated, or none does. -/
theorem Relinks.lookup (h : g.Relinks g') (name : BinaryName) :
    Option.Rel ClassEntry.Relinks (g.lookup name) (g'.lookup name) := by
  rcases g with ⟨classes⟩
  rcases g' with ⟨classes'⟩
  change List.Forall₂ ClassEntry.Relinks classes classes' at h
  unfold ClassGraph.lookup
  induction h with
  | nil => exact .none
  | @cons c c' _ _ hfirst _ ih =>
      have hname : c'.name = c.name := by
        obtain ⟨_, -, rfl⟩ := hfirst
        rfl
      rw [List.find?_cons, List.find?_cons, hname]
      by_cases hc : c.name = name
      · rw [decide_eq_true hc]
        exact .some hfirst
      · rw [decide_eq_false hc]
        exact ih

/-- Repeated links do not bring about any class. -/
theorem Relinks.lookup_eq_none (h : g.Relinks g') {name : BinaryName}
    (hnone : g.lookup name = none) : g'.lookup name = none := by
  have hrel := h.lookup name
  rw [hnone] at hrel
  generalize g'.lookup name = found at hrel ⊢
  cases hrel
  rfl

/-- A class that is found is still found, with some of its links repeated. -/
theorem Relinks.matches (h : g.Relinks g') : Matches ClassEntry.Relinks g g' := by
  intro name c hc
  have hrel := h.lookup name
  rw [hc] at hrel
  generalize g'.lookup name = found at hrel ⊢
  cases hrel with
  | some hcc' => exact ⟨_, rfl, hcc'⟩

/-- Repeated links change nothing that references resolve to, nor what is logged on the way. -/
theorem Relinks.resolveOn_eq (h : g.Relinks g') (hg : g.WellFormed) (hg' : g'.WellFormed)
    (type : FieldType) (r : MethodReference) : g'.resolveOn type r = g.resolveOn type r := by
  have halike : Matches (ClassEntry.SearchedAlike r.name r.erasedSignature) g g' :=
    h.matches.imp fun _ _ hcc' => hcc'.searchedAlike r.name r.erasedSignature
  rw [resolveOn, resolveOn]
  refine congrArg (Logged.ofExcept (lookupClass r type) >>= ·) (funext fun name => ?_)
  cases hc : g.lookup name with
  | none => rw [h.lookup_eq_none hc]
  | some c =>
      obtain ⟨c', hc', hcc'⟩ := halike name c hc
      have hsame := halike.methodFor_eq hg hg' (List.mem_of_find?_eq_some hc)
        (List.mem_of_find?_eq_some hc') hcc'
      simp only [hc', hsame]

/-! ## The second time -/

/-- A type that the graph holds is found, and linked to its interfaces once more. -/
theorem HoldsType.relinks {entry : ClassEntry} (hentry : g.HoldsType entry) (hg : g.WellFormed)
    (h : (StandardLibrary.addType entry g).outcome = .ok ((), g')) :
    Change g g' ∧ g.Relinks g' := by
  obtain ⟨c, hc, hlinks⟩ := hentry
  obtain ⟨stored, g₁, hadd, hlink⟩ := Tracked.outcome_bind_eq_ok_iff.1 h
  obtain ⟨-, rfl⟩ | ⟨hfresh, -⟩ := addClass_eq_ok_iff.1 hadd
  · have hmem : c ∈ g₁.classes := List.mem_of_find?_eq_some hc
    refine ⟨.addInterfaces (fun i hi => hg.interfaces c hmem i (hlinks hi)) hlink, ?_⟩
    rw [addInterfaces_eq_ok_iff.1 hlink]
    refine List.forall₂_map_right_iff.2 (List.forall₂_same.2 fun d hd => ?_)
    -- No other class has the name of the type, so that only the class that is found is changed.
    by_cases hname : d.name = entry.name
    · have hsame := hc.symm.trans (hg.lookup_eq_some_iff.2 ⟨hd, hname⟩)
      rw [Option.some_inj] at hsame
      rw [if_pos hname, ← hsame]
      exact ⟨entry.interfaces, hlinks, rfl⟩
    · rw [if_neg hname]
      exact ClassEntry.Relinks.refl d
  · cases hc.symm.trans hfresh

/-- Types that the graph holds are found one after the other, so that links are all that is
repeated. -/
theorem relinks_of_addTypes {types : List ClassEntry} (hg : g.WellFormed)
    (htypes : ∀ entry ∈ types, g.HoldsType entry)
    (h : (types.forM StandardLibrary.addType g).outcome = .ok ((), g')) :
    Changes g g' ∧ g.Relinks g' := by
  induction types generalizing g with
  | nil =>
      cases h
      exact ⟨.refl, Relinks.refl _⟩
  | cons entry types ih =>
      obtain ⟨_, g₁, hfirst, hrest⟩ := Tracked.outcome_bind_eq_ok_iff.1 h
      obtain ⟨hchange, hrelinks⟩ := (htypes entry List.mem_cons_self).relinks hg hfirst
      have hheld : ∀ e ∈ types, g₁.HoldsType e := fun e he =>
        lasting_holdsType e g g₁ hchange.retains (htypes e (List.mem_cons_of_mem entry he))
      obtain ⟨hchanges, hrelinks'⟩ := ih (hchange.wellFormed hg) hheld hrest
      exact ⟨.head hchange hchanges, hrelinks.trans hrelinks'⟩

/-- A method that the graph holds is not added. -/
theorem HoldsMethod.eq {m : StandardLibrary.LibraryMethod} (hm : g.HoldsMethod m)
    (h : (StandardLibrary.addLibraryMethod m g).outcome = .ok ((), g')) : g' = g := by
  obtain ⟨c, d, hc, hd, hdeclares⟩ := hm
  obtain ⟨c₁, d₁, stored, hc₁, hd₁, hadd⟩ := addLibraryMethod_eq_ok_iff.1 h
  obtain rfl : c = c₁ := Option.some_inj.1 (hc.symm.trans hc₁)
  obtain rfl : d = d₁ := Except.ok.inj (hd.symm.trans hd₁)
  obtain ⟨-, c₂, hc₂, ⟨-, hsame⟩ | ⟨hnew, -⟩⟩ := addMethod_eq_ok_iff.1 hadd
  · exact hsame
  · obtain rfl : c = c₂ := Option.some_inj.1 (hc.symm.trans hc₂)
    exact absurd hdeclares (ClassEntry.declared?_eq_none_iff.1 hnew)

/-- Methods that the graph holds are not added, in whatever number. -/
theorem eq_of_addLibraryMethods {ms : List StandardLibrary.LibraryMethod}
    (hms : ∀ m ∈ ms, g.HoldsMethod m)
    (h : (ms.forM StandardLibrary.addLibraryMethod g).outcome = .ok ((), g')) : g' = g := by
  induction ms generalizing g with
  | nil =>
      cases h
      rfl
  | cons m ms ih =>
      obtain ⟨_, g₁, hfirst, hrest⟩ := Tracked.outcome_bind_eq_ok_iff.1 h
      rw [(hms m List.mem_cons_self).eq hfirst] at hrest
      exact ih (fun n hn => hms n (List.mem_cons_of_mem m hn)) hrest

/-- Adding the library to a graph that holds it repeats links, and does nothing else. -/
theorem HoldsLibrary.relinks (hlibrary : g.HoldsLibrary) (hg : g.WellFormed)
    (h : (addStandardLibrary g).outcome = .ok ((), g')) : g.Relinks g' := by
  obtain ⟨_, g₁, htypes, hmethods⟩ := Tracked.outcome_bind_eq_ok_iff.1 h
  obtain ⟨hchanges, hrelinks⟩ := relinks_of_addTypes hg hlibrary.types htypes
  obtain rfl := eq_of_addLibraryMethods (lasting_holdsLibrary.changes hchanges hlibrary).methods
    hmethods
  exact hrelinks

/-! ## What adding the library gives -/

/-- The listed classes are those that the graph holds under the names of the library types, and none
is missing. -/
def ListsLibrary (g : ClassGraph) (library : List ClassEntry) : Prop :=
  library.map some = StandardLibrary.classes.map fun c => g.lookup c.name

/-- The classes that are found are listed without gaps if the graph holds the types. -/
theorem map_some_filterMap_lookup {types : List ClassEntry}
    (htypes : ∀ entry ∈ types, g.HoldsType entry) :
    (types.filterMap fun c => g.lookup c.name).map some = types.map fun c => g.lookup c.name := by
  induction types with
  | nil => rfl
  | cons entry types ih =>
      obtain ⟨c, hc, -⟩ := htypes entry List.mem_cons_self
      have hrest := ih fun e he => htypes e (List.mem_cons_of_mem entry he)
      simp [hc, hrest]

/-- Adding the library succeeds with the classes of the graph that is left. -/
theorem insertStandardLibrary_eq_ok_iff {library : List ClassEntry} :
    (insertStandardLibrary g).outcome = .ok (library, g') ↔
      (addStandardLibrary g).outcome = .ok ((), g') ∧ library = g'.standardLibrary := by
  rw [insertStandardLibrary, Tracked.outcome_bind_eq_ok_iff]
  constructor
  · rintro ⟨_, g₁, hadd, hlast⟩
    cases hlast
    exact ⟨hadd, rfl⟩
  · rintro ⟨hadd, rfl⟩
    exact ⟨(), g', hadd, rfl⟩

/-- Adding the library always succeeds.  The graph that is left holds the library, and the classes
that are given are its classes. -/
theorem exists_insertStandardLibrary (g : ClassGraph) :
    ∃ library g', (insertStandardLibrary g).outcome = .ok (library, g') ∧
      (addStandardLibrary g).outcome = .ok ((), g') ∧ g'.HoldsLibrary ∧
      g'.ListsLibrary library := by
  obtain ⟨g', hadd⟩ := exists_addStandardLibrary g
  have hheld := holdsLibrary_of_addStandardLibrary hadd
  exact ⟨g'.standardLibrary, g', insertStandardLibrary_eq_ok_iff.2 ⟨hadd, rfl⟩, hadd, hheld,
    map_some_filterMap_lookup hheld.types⟩

/-- The library can be added to every graph that a run leads to, which then holds all of it, and
gives the classes of that graph.  However the run goes on, adding the library once more succeeds,
adds no class and no method, finds the same class under every name and resolves every reference as
before. -/
theorem Reachable.addStandardLibrary_again (hg : g.Reachable) :
    ∃ library g₁, (insertStandardLibrary g).outcome = .ok (library, g₁) ∧ g₁.HoldsLibrary ∧
      g₁.ListsLibrary library ∧ ∀ g₂, Run g₁ g₂ →
        ∃ library' g₃, (insertStandardLibrary g₂).outcome = .ok (library', g₃) ∧
          g₃.ListsLibrary library' ∧ g₂.Relinks g₃ ∧
          (∀ name, Option.Rel ClassEntry.Relinks (g₂.lookup name) (g₃.lookup name)) ∧
          ∀ type r, g₃.resolveOn type r = g₂.resolveOn type r := by
  obtain ⟨library, g₁, hinsert, hfirst, hheld, hlists⟩ := exists_insertStandardLibrary g
  refine ⟨library, g₁, hinsert, hheld, hlists, fun g₂ hrun => ?_⟩
  obtain ⟨library', g₃, hinsert', hagain, -, hlists'⟩ := exists_insertStandardLibrary g₂
  have hlater : g₂.Reachable := (hg.tail (.addStandardLibrary hfirst)).trans hrun
  have hlast : g₃.Reachable := hlater.tail (.addStandardLibrary hagain)
  have hstill : g₂.HoldsLibrary := lasting_holdsLibrary.changes hrun.changes hheld
  have hrelinks := hstill.relinks hlater.wellFormed hagain
  exact ⟨library', g₃, hinsert', hlists', hrelinks, hrelinks.lookup,
    hrelinks.resolveOn_eq hlater.wellFormed hlast.wellFormed⟩

/-- A method of the list interface that the library does not have. -/
def listCount : MethodDefinition :=
  { countMethod with declaringType := ownList.asType }

/-- The list interface was there before the library, without its links and type parameters, and has
got a method of its own since. -/
theorem Reachable.addStandardLibrary_again_ownGraph :
    ownGraph.Reachable ∧ ∃ library g₁,
      (insertStandardLibrary ownGraph).outcome = .ok (library, g₁) ∧
      library.length = 13 ∧
      ∃ library' g₃,
        (insertStandardLibrary (g₁.after (.addMethod ownList.name listCount))).outcome =
          .ok (library', g₃) ∧
        (g₁.after (.addMethod ownList.name listCount)).Relinks g₃ ∧
        g₃.resolveOn ownList.asType listCount.toReference =
          (g₁.after (.addMethod ownList.name listCount)).resolveOn ownList.asType
            listCount.toReference := by
  have hreachable := built_ownGraph.reachable
  obtain ⟨library, g₁, hfirst, -, hlists, hagain⟩ := hreachable.addStandardLibrary_again
  have hlength : library.length = 13 := by
    rw [← List.length_map some, hlists, List.length_map]
    rfl
  have hlater : g₁.Permits (.addMethod ownList.name listCount) := trivial
  obtain ⟨library', g₃, hsecond, -, hrelinks, -, hresolve⟩ := hagain _ (run_after hlater)
  exact ⟨hreachable, library, g₁, hfirst, hlength, library', g₃, hsecond, hrelinks, hresolve _ _⟩

end ClassGraph
end JvmMethods
