import Mathlib.Logic.Relation
import JvmMethods.ClassGraph.Lookup
import JvmMethods.ClassGraph.StandardLibrary

/-!
# Growing class graphs

A class graph is grown by adding classes, links to interfaces and methods, one after the other.  A
class is added after its supertypes, and links lead to classes of the graph only.  Adding the
standard library is a run of such changes.  Operations that fail leave the graph as it is, so a run
consists of those that succeed.

Main results:

- Theorems {lit}`ClassGraph.addClass_eq_ok_iff`, {lit}`ClassGraph.addInterfaces_eq_ok_iff` and
  {lit}`ClassGraph.addMethod_eq_ok_iff`: everything that an operation can do.
- Theorem {lit}`ClassGraph.state_addMethod_of_error`: a method that cannot be added leaves the graph
  as it is.
- Theorem {lit}`ClassGraph.Change.extends`: a change keeps superclasses, links and methods.
- Definitions {lit}`ClassGraph.Step`, {lit}`ClassGraph.Run` and {lit}`ClassGraph.Reachable`: runs of
  operations, and the graphs that a run leads to.
- Theorem {lit}`ClassGraph.Run.changes`: every run is a run of elementary changes.
-/

namespace JvmMethods

/-- The methods of the class are its own. -/
def ClassEntry.OwnsMethods (c : ClassEntry) : Prop :=
  ∀ m ∈ c.methods, m.toReference.owner = some c.name

/-- The class has kept its superclass, its links and its methods, and may have gained some links and
methods after them. -/
structure ClassEntry.Extends (c c' : ClassEntry) : Prop where
  superclass : c'.superclass = c.superclass
  interfaces : c.interfaces <+: c'.interfaces
  methods : c.methods <+: c'.methods

theorem ClassEntry.Extends.refl (c : ClassEntry) : c.Extends c :=
  ⟨rfl, List.prefix_rfl, List.prefix_rfl⟩

theorem ClassEntry.Extends.trans {c c' c'' : ClassEntry} (h : c.Extends c') (h' : c'.Extends c'') :
    c.Extends c'' :=
  ⟨h'.superclass.trans h.superclass, h.interfaces.trans h'.interfaces, h.methods.trans h'.methods⟩

namespace ClassGraph

/-- The graph holds a class of the given name. -/
def Knows (g : ClassGraph) (name : BinaryName) : Prop :=
  ∃ c ∈ g.classes, c.name = name

/-- The graph holds a class of a name exactly if it finds one. -/
theorem knows_iff_lookup {g : ClassGraph} {name : BinaryName} :
    g.Knows name ↔ ∃ c, g.lookup name = some c := by
  constructor
  · rintro ⟨c, hc, hname⟩
    cases hlookup : g.lookup name with
    | some d => exact ⟨d, rfl⟩
    | none => exact absurd (decide_eq_true hname) (List.find?_eq_none.1 hlookup c hc)
  · rintro ⟨c, hc⟩
    exact ⟨c, List.mem_of_find?_eq_some hc, lookup_name hc⟩

/-! ## What an operation does -/

/-- A class of the same name is kept, and otherwise the class is added at the end. -/
theorem addClass_eq_ok_iff {entry stored : ClassEntry} {g g' : ClassGraph} :
    (addClass entry g).outcome = .ok (stored, g') ↔
      (g.lookup entry.name = some stored ∧ g' = g) ∨
        (g.lookup entry.name = none ∧ stored = entry ∧ g' = ⟨g.classes ++ [entry]⟩) := by
  cases hlookup : g.lookup entry.name with
  | some existing =>
      rw [addClass_existing hlookup]
      constructor
      · intro h
        cases h
        exact .inl ⟨rfl, rfl⟩
      · rintro (⟨h, rfl⟩ | ⟨h, -, -⟩)
        · cases h
          rfl
        · cases h
  | none =>
      simp only [addClass, Tracked.get_bind, hlookup]
      constructor
      · intro h
        cases h
        exact .inr ⟨trivial, rfl, rfl⟩
      · rintro (⟨h, -⟩ | ⟨-, rfl, rfl⟩)
        · cases h
        · rfl

/-- Links are added after those of the class, and to no other class. -/
theorem addInterfaces_eq_ok_iff {name : BinaryName} {interfaces : List BinaryName}
    {u : Unit} {g g' : ClassGraph} :
    (addInterfaces name interfaces g).outcome = .ok (u, g') ↔
      g' = g.modify name fun c => { c with interfaces := c.interfaces ++ interfaces } := by
  constructor
  · intro h
    cases h
    rfl
  · rintro rfl
    rfl

/-- A method goes to the class that declares it, unless the class has a method that is dispatched
alike. -/
theorem addMethod_eq_ok_iff {owner : BinaryName} {method d : MethodDefinition}
    {g g' : ClassGraph} :
    (addMethod owner method g).outcome = .ok (d, g') ↔
      method.toReference.owner = some owner ∧ ∃ c, g.lookup owner = some c ∧
        ((c.declared? method.name method.erasedSignature = some d ∧ g' = g) ∨
          (c.declared? method.name method.erasedSignature = none ∧ d = method ∧
            g' = g.modify owner fun c => { c with methods := c.methods ++ [method] })) := by
  by_cases howner : method.toReference.owner = some owner
  · simp only [addMethod, Tracked.get_bind, howner, ne_eq, not_true_eq_false, if_false, true_and]
    cases hlookup : g.lookup owner with
    | none => simp
    | some c =>
        cases hdeclared : c.declared? method.name method.erasedSignature with
        | some existing =>
            simp only [Tracked.outcome_note_bind, Option.some_inj, exists_eq_left', hdeclared]
            constructor
            · intro h
              cases h
              exact .inl ⟨rfl, rfl⟩
            · rintro (⟨rfl, rfl⟩ | ⟨h, -⟩)
              · rfl
              · cases h
        | none =>
            simp only [Option.some_inj, exists_eq_left', hdeclared]
            constructor
            · intro h
              cases h
              exact .inr ⟨trivial, rfl, rfl⟩
            · rintro (⟨h, -⟩ | ⟨-, rfl, rfl⟩)
              · cases h
              · rfl
  · simp [addMethod, howner]

/-- A method that cannot be added leaves the graph as it is: every failure comes before the graph is
changed. -/
theorem state_addMethod_of_error {owner : BinaryName} {method : MethodDefinition} {e : Error}
    {g : ClassGraph} (h : (addMethod owner method g).outcome = .error e) :
    (addMethod owner method g).state = g := by
  by_cases howner : method.toReference.owner = some owner
  · simp only [addMethod, Tracked.get_bind, howner, ne_eq, not_true_eq_false, if_false] at h ⊢
    cases hlookup : g.lookup owner with
    | none => rfl
    | some c =>
        simp only [hlookup] at h
        cases hdeclared : c.declared? method.name method.erasedSignature with
        | some existing =>
            simp only [hdeclared, Tracked.outcome_note_bind] at h
            cases h
        | none =>
            simp only [hdeclared, Tracked.set_bind] at h
            cases h
  · simp only [addMethod, Tracked.get_bind, ne_eq, howner, not_false_eq_true, if_true]
    rfl

/-! ## Elementary changes -/

/-- The class can be added to the graph: its supertypes are there already, and its methods are its
own. -/
structure Admits (g : ClassGraph) (entry : ClassEntry) : Prop where
  superclass : ∀ s ∈ entry.superclass, g.Knows s
  interfaces : ∀ i ∈ entry.interfaces, g.Knows i
  methods : entry.OwnsMethods

/-- An elementary change of a class graph. -/
inductive Change : ClassGraph → ClassGraph → Prop where
  | addClass {g g' : ClassGraph} {entry stored : ClassEntry} (hentry : g.Admits entry)
      (h : (addClass entry g).outcome = .ok (stored, g')) : Change g g'
  | addInterfaces {g g' : ClassGraph} {name : BinaryName} {interfaces : List BinaryName}
      (hinterfaces : ∀ i ∈ interfaces, g.Knows i)
      (h : (addInterfaces name interfaces g).outcome = .ok ((), g')) : Change g g'
  | addMethod {g g' : ClassGraph} {owner : BinaryName} {method d : MethodDefinition}
      (h : (addMethod owner method g).outcome = .ok (d, g')) : Change g g'

/-- The class grows into another one of the same name: it may gain links to classes of the graph and
methods of its own. -/
structure Grows (g : ClassGraph) (c c' : ClassEntry) : Prop where
  name : c'.name = c.name
  kept : c.Extends c'
  interfaces : ∀ i ∈ c'.interfaces, i ∈ c.interfaces ∨ g.Knows i
  methods : ∀ m ∈ c'.methods, m ∈ c.methods ∨ m.toReference.owner = some c.name

/-- Links to classes of the graph let a class grow. -/
theorem grows_addInterfaces {g : ClassGraph} {interfaces : List BinaryName}
    (h : ∀ i ∈ interfaces, g.Knows i) (c : ClassEntry) :
    g.Grows c { c with interfaces := c.interfaces ++ interfaces } where
  name := rfl
  kept := ⟨rfl, List.prefix_append _ _, List.prefix_rfl⟩
  interfaces i hi := (List.mem_append.1 hi).imp_right (h i)
  methods _ hm := .inl hm

/-- A method of its own lets a class grow. -/
theorem grows_addMethod (g : ClassGraph) {method : MethodDefinition} {c : ClassEntry}
    (h : method.toReference.owner = some c.name) :
    g.Grows c { c with methods := c.methods ++ [method] } where
  name := rfl
  kept := ⟨rfl, List.prefix_rfl, List.prefix_append _ _⟩
  interfaces _ hi := .inl hi
  methods m hm := by
    rcases List.mem_append.1 hm with hold | hnew
    · exact .inl hold
    · rw [List.mem_singleton] at hnew
      exact .inr (hnew ▸ h)

/-- A change leaves the graph alone, adds a class at the end or lets the class of one name grow. -/
theorem Change.cases {g g' : ClassGraph} (h : Change g g') :
    g' = g ∨
      (∃ entry, g.lookup entry.name = none ∧ g.Admits entry ∧ g' = ⟨g.classes ++ [entry]⟩) ∨
      ∃ name f, (∀ c, (f c).name = c.name) ∧ (∀ c, c.name = name → g.Grows c (f c)) ∧
        g' = g.modify name f := by
  cases h with
  | addClass hentry h =>
      rcases addClass_eq_ok_iff.1 h with ⟨-, rfl⟩ | ⟨hfresh, rfl, rfl⟩
      · exact .inl rfl
      · exact .inr (.inl ⟨_, hfresh, hentry, rfl⟩)
  | addInterfaces hinterfaces h =>
      refine .inr (.inr ⟨_, _, ?_, ?_, addInterfaces_eq_ok_iff.1 h⟩)
      · exact fun _ => rfl
      · exact fun c _ => grows_addInterfaces hinterfaces c
  | addMethod h =>
      obtain ⟨howner, c, -, ⟨-, rfl⟩ | ⟨-, rfl, rfl⟩⟩ := addMethod_eq_ok_iff.1 h
      · exact .inl rfl
      · refine .inr (.inr ⟨_, _, ?_, ?_, rfl⟩)
        · exact fun _ => rfl
        · exact fun c hc => g.grows_addMethod (hc ▸ howner)

/-! ## What a change keeps -/

/-- A class that is found is still found after another one was added. -/
theorem lookup_append_of_some {g : ClassGraph} {entry c : ClassEntry} {name : BinaryName}
    (h : g.lookup name = some c) :
    (⟨g.classes ++ [entry]⟩ : ClassGraph).lookup name = some c := by
  unfold lookup at h ⊢
  rw [List.find?_append, h]
  rfl

/-- A class that is found is found as it was changed. -/
theorem lookup_modify_of_some {g : ClassGraph} {name : BinaryName} {c : ClassEntry}
    {f : ClassEntry → ClassEntry} (hf : ∀ c, (f c).name = c.name) (h : g.lookup name = some c) :
    (g.modify name f).lookup name = some (f c) := by
  rw [lookup_modify_same hf, h]
  rfl

/-- The graph holds what adding a class returned under the name of that class. -/
theorem lookup_of_addClass {entry stored : ClassEntry} {g g' : ClassGraph}
    (h : (addClass entry g).outcome = .ok (stored, g')) : g'.lookup entry.name = some stored := by
  rcases addClass_eq_ok_iff.1 h with ⟨hstored, rfl⟩ | ⟨hfresh, rfl, rfl⟩
  · exact hstored
  · unfold lookup at hfresh ⊢
    rw [List.find?_append, hfresh, Option.none_or, List.find?_singleton, if_pos (by simp)]

/-- Every class of the one graph is related to the class that the other graph holds under its
name. -/
def Matches (R : ClassEntry → ClassEntry → Prop) (g g' : ClassGraph) : Prop :=
  ∀ name c, g.lookup name = some c → ∃ c', g'.lookup name = some c' ∧ R c c'

section Relation

variable {R : ClassEntry → ClassEntry → Prop} {g g' : ClassGraph}

theorem Matches.refl (hR : ∀ c, R c c) (g : ClassGraph) : Matches R g g :=
  fun _ c hc => ⟨c, hc, hR c⟩

/-- Relations between the classes of graphs are composed. -/
theorem Matches.trans {g'' : ClassGraph} (h : Matches R g g') (h' : Matches R g' g'')
    (hR : ∀ c c' c'', R c c' → R c' c'' → R c c'') : Matches R g g'' := by
  intro name c hc
  obtain ⟨c', hc', hR₁⟩ := h name c hc
  obtain ⟨c'', hc'', hR₂⟩ := h' name c' hc'
  exact ⟨c'', hc'', hR c c' c'' hR₁ hR₂⟩

/-- Classes that are related are related in every weaker way. -/
theorem Matches.imp {S : ClassEntry → ClassEntry → Prop} (h : Matches R g g')
    (hRS : ∀ c c', R c c' → S c c') : Matches S g g' := by
  intro name c hc
  obtain ⟨c', hc', hcc'⟩ := h name c hc
  exact ⟨c', hc', hRS c c' hcc'⟩

/-- A new class at the end leaves the others as they are. -/
theorem matches_append (hR : ∀ c, R c c) (g : ClassGraph) (entry : ClassEntry) :
    Matches R g ⟨g.classes ++ [entry]⟩ :=
  fun _ c hc => ⟨c, lookup_append_of_some hc, hR c⟩

/-- A change of one class leaves the others as they are. -/
theorem matches_modify (hR : ∀ c, R c c) {name : BinaryName} {f : ClassEntry → ClassEntry}
    (hname : ∀ c, (f c).name = c.name) (hf : ∀ c, c.name = name → R c (f c)) :
    Matches R g (g.modify name f) := by
  intro other c hc
  by_cases hne : other = name
  · subst hne
    exact ⟨f c, lookup_modify_of_some hname hc, hf c (lookup_name hc)⟩
  · exact ⟨c, (lookup_modify_of_ne hname hne).trans hc, hR c⟩

end Relation

/-- A change keeps every class, which may have gained links and methods. -/
theorem Change.extends {g g' : ClassGraph} (h : Change g g') :
    Matches ClassEntry.Extends g g' := by
  rcases h.cases with rfl | ⟨entry, -, -, rfl⟩ | ⟨changed, f, hname, hgrows, rfl⟩
  · exact Matches.refl ClassEntry.Extends.refl _
  · exact matches_append ClassEntry.Extends.refl g entry
  · exact matches_modify ClassEntry.Extends.refl hname fun c hc => (hgrows c hc).kept

/-- A change does not remove any class. -/
theorem Change.knows {g g' : ClassGraph} (h : Change g g') {name : BinaryName}
    (hname : g.Knows name) : g'.Knows name := by
  obtain ⟨c, hc⟩ := knows_iff_lookup.1 hname
  obtain ⟨c', hc', -⟩ := h.extends name c hc
  exact knows_iff_lookup.2 ⟨c', hc'⟩

/-! ## Runs -/

/-- An operation on a class graph. -/
inductive Step : ClassGraph → ClassGraph → Prop where
  | change {g g' : ClassGraph} (h : Change g g') : Step g g'
  | addStandardLibrary {g g' : ClassGraph}
      (h : (addStandardLibrary g).outcome = .ok ((), g')) : Step g g'

/-- A run of operations, in any order and number. -/
def Run : ClassGraph → ClassGraph → Prop :=
  Relation.ReflTransGen Step

/-- A run of elementary changes. -/
def Changes : ClassGraph → ClassGraph → Prop :=
  Relation.ReflTransGen Change

/-- The graphs that a run leads to from the graph without classes. -/
def Reachable (g : ClassGraph) : Prop :=
  Run empty g

/-- A run can start with no classes. -/
theorem reachable_empty : empty.Reachable :=
  .refl

/-- A run goes on with a change. -/
theorem Reachable.change {g g' : ClassGraph} (hg : g.Reachable) (h : Change g g') :
    g'.Reachable :=
  hg.tail (.change h)

/-- A run goes on with a class of a new name, after its supertypes. -/
theorem Reachable.addClass {g : ClassGraph} (hg : g.Reachable) (entry : ClassEntry)
    (hfresh : g.lookup entry.name = none) (hentry : g.Admits entry) :
    (⟨g.classes ++ [entry]⟩ : ClassGraph).Reachable :=
  hg.change (.addClass hentry (addClass_eq_ok_iff.2 (.inr ⟨hfresh, rfl, rfl⟩)))

/-- A run goes on with links to classes of the graph. -/
theorem Reachable.addInterfaces {g : ClassGraph} (hg : g.Reachable) (name : BinaryName)
    (interfaces : List BinaryName) (hinterfaces : ∀ i ∈ interfaces, g.Knows i) :
    (g.modify name fun c => { c with interfaces := c.interfaces ++ interfaces }).Reachable :=
  hg.change (.addInterfaces hinterfaces (addInterfaces_eq_ok_iff.2 rfl))

/-- A run goes on with a method that its class does not dispatch yet. -/
theorem Reachable.addMethod {g : ClassGraph} (hg : g.Reachable) {owner : BinaryName}
    {c : ClassEntry} (method : MethodDefinition) (howner : method.toReference.owner = some owner)
    (hc : g.lookup owner = some c)
    (hnew : c.declared? method.name method.erasedSignature = none) :
    (g.modify owner fun c => { c with methods := c.methods ++ [method] }).Reachable :=
  hg.change (.addMethod (addMethod_eq_ok_iff.2 ⟨howner, c, hc, .inr ⟨hnew, rfl, rfl⟩⟩))

/-- What every change keeps, a run of changes keeps. -/
theorem Changes.invariant {p : ClassGraph → Prop} (hstep : ∀ g g', Change g g' → p g → p g')
    {g g' : ClassGraph} (h : Changes g g') (hp : p g) : p g' := by
  induction h with
  | refl => exact hp
  | tail _ hlast ih => exact hstep _ _ hlast ih

/-! ## The standard library as a run of changes -/

/-- A loop is a run of changes if every round of it is.  An invariant of the rounds may help. -/
theorem changes_of_forM {α : Type} {f : α → Update Unit}
    (inv : List α → ClassGraph → Prop)
    (hf : ∀ a as g g', inv (a :: as) g → (f a g).outcome = .ok ((), g') →
      Changes g g' ∧ inv as g') {as : List α} {g g' : ClassGraph} (hinv : inv as g)
    (h : (as.forM f g).outcome = .ok ((), g')) : Changes g g' := by
  induction as generalizing g with
  | nil =>
      cases h
      exact .refl
  | cons a as ih =>
      change ((f a >>= fun _ => as.forM f) g).outcome = _ at h
      obtain ⟨_, g₁, hfirst, hrest⟩ := Tracked.outcome_bind_eq_ok_iff.1 h
      obtain ⟨hchanges, hnext⟩ := hf a as g g₁ hinv hfirst
      exact hchanges.trans (ih hnext hrest)

/-- The classes have no methods yet, and each of them comes after its supertypes, except for those
that {lit}`known` lists. -/
def SupertypesFirst : List BinaryName → List ClassEntry → Prop
  | _, [] => True
  | known, c :: rest =>
      (∀ s ∈ c.superclass, s ∈ known) ∧ (∀ i ∈ c.interfaces, i ∈ known) ∧ c.methods = [] ∧
        SupertypesFirst (c.name :: known) rest

/-- The types of the library come after their supertypes. -/
theorem supertypesFirst_standardLibrary : SupertypesFirst [] StandardLibrary.classes := by
  simp [StandardLibrary.classes, SupertypesFirst, StandardLibrary.plainClass,
    StandardLibrary.plainInterface]

/-- Adding a type is a run of changes once its supertypes are there, and the type is there
afterwards. -/
theorem changes_of_addType {entry : ClassEntry} {g g' : ClassGraph}
    (hsuperclass : ∀ s ∈ entry.superclass, g.Knows s)
    (hinterfaces : ∀ i ∈ entry.interfaces, g.Knows i) (hmethods : entry.methods = [])
    (h : (StandardLibrary.addType entry g).outcome = .ok ((), g')) :
    Changes g g' ∧ g'.Knows entry.name := by
  obtain ⟨stored, g₁, hadd, hlink⟩ := Tracked.outcome_bind_eq_ok_iff.1 h
  have hadmits : g.Admits { entry with interfaces := [] } := by
    refine ⟨hsuperclass, ?_, ?_⟩
    · intro i hi
      cases hi
    · intro m hm
      rw [hmethods] at hm
      cases hm
  have hfirst : Change g g₁ := .addClass hadmits hadd
  have hsecond : Change g₁ g' :=
    .addInterfaces (fun i hi => hfirst.knows (hinterfaces i hi)) hlink
  have hstored := lookup_of_addClass hadd
  have hknown : g₁.Knows entry.name := knows_iff_lookup.2 ⟨stored, hstored⟩
  exact ⟨.tail (.single hfirst) hsecond, hsecond.knows hknown⟩

/-- Adding types is a run of changes if they come after their supertypes. -/
theorem changes_of_addTypes {known : List BinaryName} {types : List ClassEntry}
    (htypes : SupertypesFirst known types) {g g' : ClassGraph} (hknown : ∀ n ∈ known, g.Knows n)
    (h : (types.forM StandardLibrary.addType g).outcome = .ok ((), g')) : Changes g g' := by
  refine changes_of_forM
    (fun rest g => ∃ known, SupertypesFirst known rest ∧ ∀ n ∈ known, g.Knows n) ?_
    ⟨known, htypes, hknown⟩ h
  rintro entry rest g g' ⟨known, ⟨hsuperclass, hinterfaces, hmethods, hrest⟩, hknown⟩ h
  obtain ⟨hchanges, hentry⟩ := changes_of_addType (fun s hs => hknown s (hsuperclass s hs))
    (fun i hi => hknown i (hinterfaces i hi)) hmethods h
  refine ⟨hchanges, entry.name :: known, hrest, ?_⟩
  intro n hn
  rcases List.mem_cons.1 hn with rfl | hold
  · exact hentry
  · exact hchanges.invariant (fun _ _ hchange => hchange.knows) (hknown n hold)

/-- A method of the library is defined for the class of its owner, and added to it. -/
theorem addLibraryMethod_eq_ok_iff {m : StandardLibrary.LibraryMethod} {u : Unit}
    {g g' : ClassGraph} :
    (StandardLibrary.addLibraryMethod m g).outcome = .ok (u, g') ↔
      ∃ c d stored, g.lookup m.owner = some c ∧ (m.define c).outcome = .ok d ∧
        (addMethod m.owner d g).outcome = .ok (stored, g') := by
  constructor
  · intro h
    obtain ⟨_, _, hget, hbody⟩ := Tracked.outcome_bind_eq_ok_iff.1 h
    cases hget
    cases hlookup : g.lookup m.owner with
    | none =>
        rw [hlookup] at hbody
        cases hbody
    | some c =>
        rw [hlookup] at hbody
        obtain ⟨d, g₁, hdefine, hrest⟩ := Tracked.outcome_bind_eq_ok_iff.1 hbody
        obtain ⟨hd, rfl⟩ := Tracked.outcome_liftM_eq_ok_iff.1 hdefine
        obtain ⟨stored, _, hadd, hlast⟩ := Tracked.outcome_bind_eq_ok_iff.1 hrest
        cases hlast
        exact ⟨c, d, stored, rfl, hd, hadd⟩
  · rintro ⟨c, d, stored, hlookup, hd, hadd⟩
    have hlift : ((liftM (m.define c) : Update MethodDefinition) g).outcome = .ok (d, g) :=
      Tracked.outcome_liftM_eq_ok_iff.2 ⟨hd, rfl⟩
    refine Tracked.outcome_bind_eq_ok_iff.2 ⟨g, g, rfl, ?_⟩
    rw [hlookup]
    refine Tracked.outcome_bind_eq_ok_iff.2 ⟨d, g, hlift, ?_⟩
    exact Tracked.outcome_bind_eq_ok_iff.2 ⟨stored, g', hadd, rfl⟩

/-- Adding a method of the library is a run of changes. -/
theorem changes_of_addLibraryMethod {m : StandardLibrary.LibraryMethod} {g g' : ClassGraph}
    (h : (StandardLibrary.addLibraryMethod m g).outcome = .ok ((), g')) : Changes g g' := by
  obtain ⟨_, _, _, -, -, hadd⟩ := addLibraryMethod_eq_ok_iff.1 h
  exact .single (.addMethod hadd)

/-- Adding the library is a run of changes. -/
theorem changes_of_addStandardLibrary {g g' : ClassGraph}
    (h : (addStandardLibrary g).outcome = .ok ((), g')) : Changes g g' := by
  obtain ⟨_, g₁, hclasses, hmethods⟩ := Tracked.outcome_bind_eq_ok_iff.1 h
  have hfirst : Changes g g₁ :=
    changes_of_addTypes supertypesFirst_standardLibrary (fun _ hn => absurd hn List.not_mem_nil)
      hclasses
  refine hfirst.trans (changes_of_forM (fun _ _ => True) ?_ trivial hmethods)
  intro m rest g g' _ hadd
  exact ⟨changes_of_addLibraryMethod hadd, trivial⟩

/-- Every run is a run of elementary changes. -/
theorem Run.changes {g g' : ClassGraph} (h : Run g g') : Changes g g' := by
  induction h with
  | refl => exact .refl
  | tail _ hlast ih =>
      cases hlast with
      | change hchange => exact ih.tail hchange
      | addStandardLibrary hlibrary => exact ih.trans (changes_of_addStandardLibrary hlibrary)

end ClassGraph
end JvmMethods
