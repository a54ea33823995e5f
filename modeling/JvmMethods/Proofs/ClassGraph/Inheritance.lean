import JvmMethods.Proofs.ClassGraph.Search

/-!
# Inherited methods

A class offers the methods that the classes of its chain declare, and those of the interfaces that
links lead to from there.  Of several methods with one name and descriptor it has the one of the
nearest class of the chain or, if no class of the chain declares any, one of an interface that is as
few links away as possible.  Lookup finds exactly these methods, and resolution looks them up,
except that initializers come from the named class only.

Main results:

- Definitions {lit}`ClassGraph.Offers` and {lit}`ClassGraph.Selects`: which methods a class has.
- Theorem {lit}`ClassGraph.WellFormed.nearest_of_findSome?`: the first hit among the interfaces is a
  nearest one.
- Theorem {lit}`ClassGraph.Reachable.looksUp_and_resolves`: lookup and resolution in every graph
  that a run leads to.
-/

namespace JvmMethods

/-- The special names are those of initializers. -/
theorem UnqualifiedName.isSpecial_iff {name : UnqualifiedName} :
    name.isSpecial = true ↔ name = .constructor ∨ name = .typeInitializer := by
  simp [isSpecial]

/-- Only base types have no members. -/
theorem FieldType.erasedClassName_eq_none_iff {type : FieldType} :
    type.erasedClassName = none ↔ ∃ b, type = .base b := by
  cases type <;> simp [erasedClassName]

/-- The class declares a method with the given name and descriptor. -/
def ClassEntry.Declares (c : ClassEntry) (name : UnqualifiedName) (erasedSignature : String) :
    Prop :=
  ∃ m ∈ c.methods, m.name = name ∧ m.erasedSignature = erasedSignature

/-- The method is the first one of the class with the given name and descriptor. -/
def ClassEntry.Provides (c : ClassEntry) (name : UnqualifiedName) (erasedSignature : String)
    (m : MethodDefinition) : Prop :=
  (m.name = name ∧ m.erasedSignature = erasedSignature) ∧
    ∃ before after, c.methods = before ++ m :: after ∧
      ∀ n ∈ before, ¬ (n.name = name ∧ n.erasedSignature = erasedSignature)

/-- A class dispatches a name and a descriptor to the first method that has them. -/
theorem ClassEntry.declared?_eq_some_iff {c : ClassEntry} {name : UnqualifiedName}
    {erasedSignature : String} {m : MethodDefinition} :
    c.declared? name erasedSignature = some m ↔ c.Provides name erasedSignature m := by
  rw [declared?, List.find?_eq_some_iff_append]
  simp only [dispatches, decide_eq_true_eq, Bool.not_eq_true', decide_eq_false_iff_not]
  rfl

/-- A class dispatches a name and a descriptor exactly if some method of it has them. -/
theorem ClassEntry.isSome_declared?_iff {c : ClassEntry} {name : UnqualifiedName}
    {erasedSignature : String} :
    (c.declared? name erasedSignature).isSome = true ↔ c.Declares name erasedSignature := by
  simp [declared?, dispatches, Declares]

/-- A class does not dispatch a name and a descriptor exactly if no method of it has them. -/
theorem ClassEntry.declared?_eq_none_iff {c : ClassEntry} {name : UnqualifiedName}
    {erasedSignature : String} :
    c.declared? name erasedSignature = none ↔ ¬ c.Declares name erasedSignature := by
  rw [← isSome_declared?_iff, Bool.not_eq_true, Option.isSome_eq_false_iff,
    Option.isNone_iff_eq_none]

namespace ClassGraph

/-! ## What lookup is to find -/

section Meaning

variable (g : ClassGraph) (chain : List ClassEntry) (name : UnqualifiedName)
  (erasedSignature : String)

/-- A class of the chain declares the method, or an interface does that one or more links lead to
from the chain. -/
def Offers : Prop :=
  ∃ a ∈ chain, a.Declares name erasedSignature ∨
    ∃ n i, g.InterfacePath (n + 1) a i ∧ i.Declares name erasedSignature

/-- The method is that of the nearest class of the chain that declares any, or else that of an
interface that is as few links away from the chain as possible. -/
inductive Selects (m : MethodDefinition) : Prop where
  | ofClass {before after : List ClassEntry} {d : ClassEntry}
      (hchain : chain = before ++ d :: after)
      (hbefore : ∀ a ∈ before, ¬ a.Declares name erasedSignature)
      (hm : d.Provides name erasedSignature m)
  | ofInterface {n : Nat} {a i : ClassEntry}
      (hchain : ∀ b ∈ chain, ¬ b.Declares name erasedSignature)
      (ha : a ∈ chain) (hpath : g.InterfacePath (n + 1) a i)
      (hm : i.Provides name erasedSignature m)
      (hnearest : ∀ k < n, ∀ b ∈ chain, ∀ j, g.InterfacePath (k + 1) b j →
        ¬ j.Declares name erasedSignature)

end Meaning

/-- Lookup from a class with the given chain ends of itself, and finds a method whenever the class
has any, namely the right one. -/
structure LooksUp (g : ClassGraph) (c : ClassEntry) (chain : List ClassEntry) : Prop where
  /-- No limit on the search matters that is not less than the number of classes. -/
  ends : ∀ bound, g.classes.length ≤ bound → g.lookupOrderWithin bound c = g.lookupOrder c
  isSome_iff : ∀ name erasedSignature,
    (g.findMethod c name erasedSignature).isSome = true ↔ g.Offers chain name erasedSignature
  selects : ∀ name erasedSignature m,
    g.findMethod c name erasedSignature = some m → g.Selects chain name erasedSignature m

/-- The computation fails with an error of the given kind. -/
def FailsWith {α : Type} (x : Logged Error α) (kind : ErrorKind) : Prop :=
  ∃ e, x.outcome = .error e ∧ e.kind = kind

/-- The computation gives the method, if there is one, and fails for want of a member otherwise. -/
def Gives (x : Logged Error MethodDefinition) : Option MethodDefinition → Prop
  | some m => x.outcome = .ok m
  | none => FailsWith x .missingMember

/-- A reference on a type is resolved to a method of the class that the type erases to, where
initializers are not inherited. -/
structure Resolves (g : ClassGraph) (type : FieldType) (r : MethodReference) : Prop where
  notResolvable_iff : FailsWith (g.resolveOn type r) .notResolvable ↔ ∃ b, type = .base b
  missingClass_iff : FailsWith (g.resolveOn type r) .missingClass ↔
    ∃ name, type.erasedClassName = some name ∧ ¬ g.Knows name
  initializer : ∀ name c, type.erasedClassName = some name → g.lookup name = some c →
    r.name = .constructor ∨ r.name = .typeInitializer →
      Gives (g.resolveOn type r) (c.declared? r.name r.erasedSignature)
  ordinary : ∀ name c, type.erasedClassName = some name → g.lookup name = some c →
    ¬ (r.name = .constructor ∨ r.name = .typeInitializer) →
      Gives (g.resolveOn type r) (g.findMethod c r.name r.erasedSignature)

/-! ## Lookup -/

variable {g : ClassGraph}

/-- The first hit among the interfaces is as few links away as possible. -/
theorem WellFormed.nearest_of_findSome? (hg : g.WellFormed) {roots : List ClassEntry}
    (hroots : ∀ a ∈ roots, a ∈ g.classes) {f : ClassEntry → Option MethodDefinition}
    {m : MethodDefinition} (h : (g.superinterfaces roots).findSome? f = some m) :
    ∃ n, ∃ a ∈ roots, ∃ i, g.InterfacePath (n + 1) a i ∧ f i = some m ∧
      ∀ k < n, ∀ b ∈ roots, ∀ j, g.InterfacePath (k + 1) b j → f j = none := by
  obtain ⟨before, i, after, horder, hi, hbefore⟩ := List.findSome?_eq_some_iff.1 h
  have hmem : i ∈ g.superinterfaces roots := by
    rw [horder]
    exact List.mem_append_right _ List.mem_cons_self
  obtain ⟨a, ha, n, hpath⟩ := (hg.mem_superinterfaces_iff hroots).1 hmem
  obtain ⟨hlinked, hlookup⟩ := exists_interfacePath_iff.1 ⟨a, ha, hpath⟩
  obtain ⟨n, -, hnearest⟩ := hlinked.exists_nearestAfter
  obtain ⟨a, ha, hpath⟩ := exists_interfacePath_iff.2 ⟨hnearest.linked, hlookup⟩
  refine ⟨n, a, ha, i, hpath, hi, ?_⟩
  intro k hk b hb j hj
  have hjlinked := (exists_interfacePath_iff.1 ⟨b, hb, hj⟩).1
  obtain ⟨l, hl, hjnearest⟩ := hjlinked.exists_nearestAfter
  -- A nearer interface comes before the hit, since those after it are not nearer.
  have hjmem := (hg.mem_superinterfaces_iff hroots).2 ⟨b, hb, k, hj⟩
  have hsorted := pairwise_superinterfaces g roots
  rw [horder] at hjmem hsorted
  rcases List.mem_append.1 hjmem with hfirst | hlast
  · exact hbefore j hfirst
  · rcases List.mem_cons.1 hlast with rfl | hafter
    · exact absurd hjlinked (hnearest.nearest k hk)
    · have hle := (List.pairwise_cons.1 (List.pairwise_append.1 hsorted).2.1).1 j hafter n l
        hnearest hjnearest
      omega

/-- Lookup from a class of a well-formed graph finds what the class has. -/
theorem WellFormed.looksUp (hg : g.WellFormed) {c : ClassEntry} (hc : c ∈ g.classes) :
    g.LooksUp c (g.chain c) := by
  have hroots : ∀ a ∈ g.chain c, a ∈ g.classes :=
    (hg.superclassChain hc (Nat.le_refl _)).mem_classes hc
  constructor
  case ends => exact fun bound hbound => hg.lookupOrderWithin_eq hc hbound
  case isSome_iff =>
    intro name erasedSignature
    simp only [findMethod, lookupOrder, List.findSome?_isSome_iff, List.mem_append,
      ClassEntry.isSome_declared?_iff, hg.mem_superinterfaces_iff hroots]
    constructor
    · rintro ⟨d, hd | ⟨a, ha, n, hpath⟩, hdeclares⟩
      · exact ⟨d, hd, .inl hdeclares⟩
      · exact ⟨a, ha, .inr ⟨n, d, hpath, hdeclares⟩⟩
    · rintro ⟨a, ha, hdeclares | ⟨n, i, hpath, hdeclares⟩⟩
      · exact ⟨a, .inl ha, hdeclares⟩
      · exact ⟨i, .inr ⟨a, ha, n, hpath⟩, hdeclares⟩
  case selects =>
    intro name erasedSignature m h
    rw [findMethod, lookupOrder, List.findSome?_append, Option.or_eq_some_iff] at h
    rcases h with hclass | ⟨hnone, hinterface⟩
    · obtain ⟨before, d, after, hchain, hd, hbefore⟩ := List.findSome?_eq_some_iff.1 hclass
      exact .ofClass hchain (fun a ha => ClassEntry.declared?_eq_none_iff.1 (hbefore a ha))
        (ClassEntry.declared?_eq_some_iff.1 hd)
    · obtain ⟨n, a, ha, i, hpath, hi, hnearest⟩ := hg.nearest_of_findSome? hroots hinterface
      rw [List.findSome?_eq_none_iff] at hnone
      exact .ofInterface (fun b hb => ClassEntry.declared?_eq_none_iff.1 (hnone b hb)) ha hpath
        (ClassEntry.declared?_eq_some_iff.1 hi)
        fun k hk b hb j hj => ClassEntry.declared?_eq_none_iff.1 (hnearest k hk b hb j hj)

/-! ## Resolution -/

/-- A reference on a class that the graph does not hold is not resolved. -/
theorem outcome_resolveOn_of_unknown {type : FieldType} {r : MethodReference} {name : BinaryName}
    (hname : type.erasedClassName = some name) (hunknown : g.lookup name = none) :
    (g.resolveOn type r).outcome = .error (.missingClass name) := by
  have hclass : (Logged.ofExcept (lookupClass r type)).outcome = .ok name :=
    lookupClass_eq_ok_iff.2 hname
  rw [resolveOn, Logged.outcome_bind_of_ok hclass]
  simp only [hunknown]
  rfl

/-- A reference on a class of the graph gives the method that the class has for it. -/
theorem gives_resolveOn {type : FieldType} {r : MethodReference} {name : BinaryName}
    {c : ClassEntry} (hname : type.erasedClassName = some name) (hc : g.lookup name = some c) :
    Gives (g.resolveOn type r) (g.methodFor c r) := by
  have hclass : (Logged.ofExcept (lookupClass r type)).outcome = .ok name :=
    lookupClass_eq_ok_iff.2 hname
  cases hm : g.methodFor c r with
  | some m =>
      rw [Gives, resolveOn, Logged.outcome_bind_of_ok hclass]
      simp only [hc, hm]
      rfl
  | none =>
      rw [Gives, FailsWith, resolveOn, Logged.outcome_bind_of_ok hclass]
      simp only [hc, hm]
      exact ⟨_, rfl, rfl⟩

/-- Where only a member can be missing, nothing else fails. -/
theorem Gives.not_failsWith {x : Logged Error MethodDefinition} {found : Option MethodDefinition}
    (h : Gives x found) {kind : ErrorKind} (hkind : kind ≠ .missingMember) :
    ¬ FailsWith x kind := by
  rintro ⟨e, he, rfl⟩
  cases found with
  | some m =>
      rw [Gives, he] at h
      cases h
  | none =>
      obtain ⟨e', he', hmember⟩ := h
      rw [he, Except.error.injEq] at he'
      exact hkind (he' ▸ hmember)

/-- References on base types, and no others, cannot be resolved at all. -/
theorem failsWith_notResolvable_iff {type : FieldType} {r : MethodReference} :
    FailsWith (g.resolveOn type r) .notResolvable ↔ ∃ b, type = .base b := by
  cases hname : type.erasedClassName with
  | none =>
      obtain ⟨b, rfl⟩ := FieldType.erasedClassName_eq_none_iff.1 hname
      exact iff_of_true ⟨_, rfl, rfl⟩ ⟨b, rfl⟩
  | some name =>
      refine iff_of_false ?_ fun hbase => ?_
      · cases hc : g.lookup name with
        | none =>
            rintro ⟨e, he, hkind⟩
            rw [outcome_resolveOn_of_unknown hname hc, Except.error.injEq] at he
            subst he
            cases hkind
        | some c => exact (gives_resolveOn hname hc).not_failsWith (by decide)
      · rw [FieldType.erasedClassName_eq_none_iff.2 hbase] at hname
        cases hname

/-- The class is missing exactly if the type erases to a class that the graph does not hold. -/
theorem failsWith_missingClass_iff {type : FieldType} {r : MethodReference} :
    FailsWith (g.resolveOn type r) .missingClass ↔
      ∃ name, type.erasedClassName = some name ∧ ¬ g.Knows name := by
  cases hname : type.erasedClassName with
  | none =>
      obtain ⟨b, rfl⟩ := FieldType.erasedClassName_eq_none_iff.1 hname
      refine iff_of_false ?_ ?_
      · rintro ⟨e, he, hkind⟩
        cases he
        cases hkind
      · rintro ⟨name, hsome, -⟩
        cases hsome
  | some name =>
      simp only [Option.some_inj, exists_eq_left', knows_iff_lookup]
      cases hc : g.lookup name with
      | none =>
          refine iff_of_true ⟨_, outcome_resolveOn_of_unknown hname hc, rfl⟩ ?_
          rintro ⟨c, hsome⟩
          cases hsome
      | some c =>
          exact iff_of_false ((gives_resolveOn hname hc).not_failsWith (by decide))
            fun hunknown => hunknown ⟨c, rfl⟩

/-- Resolution fails for the three reasons that there are, and looks methods up otherwise. -/
theorem resolves (g : ClassGraph) (type : FieldType) (r : MethodReference) :
    g.Resolves type r := by
  constructor
  case notResolvable_iff => exact failsWith_notResolvable_iff
  case missingClass_iff => exact failsWith_missingClass_iff
  case initializer =>
    intro name c hname hc hspecial
    have hgives := gives_resolveOn (r := r) hname hc
    rwa [methodFor, if_pos (UnqualifiedName.isSpecial_iff.2 hspecial)] at hgives
  case ordinary =>
    intro name c hname hc hordinary
    have hgives := gives_resolveOn (r := r) hname hc
    rwa [methodFor, if_neg (mt UnqualifiedName.isSpecial_iff.1 hordinary)] at hgives

/-- Lookup and resolution in every graph that a run leads to. -/
theorem Reachable.looksUp_and_resolves {g : ClassGraph} (hg : g.Reachable) :
    (∀ c ∈ g.classes, ∃ chain, g.SuperclassChain c chain ∧ g.LooksUp c chain) ∧
      ∀ type r, g.Resolves type r := by
  constructor
  · intro c hc
    have hchain := hg.wellFormed.superclassChain hc (Nat.le_refl _)
    exact ⟨g.chain c, hchain, hg.wellFormed.looksUp hc⟩
  · exact g.resolves

/-! ## Interfaces that extend one another -/

/-- The abstract method {lit}`count` of the interface {lit}`Bag`. -/
def countMethod : MethodDefinition :=
  .ofSignature (.ofName ⟨"demo/Bag"⟩) ⟨"count", rfl⟩ (.ofList [.isPublic, .isAbstract])
    ⟨[], [], some (.base .int), []⟩

/-- A class that implements {lit}`Sized`. -/
def boxClass : ClassEntry :=
  ⟨⟨"demo/Box"⟩, some .object, [⟨"demo/Sized"⟩], false, [], []⟩

/-- The interface {lit}`Sized` extends {lit}`Bag`, which extends {lit}`Sized` in turn. -/
def circularGraph : ClassGraph :=
  ⟨[⟨.object, none, [], false, [], []⟩,
    ⟨⟨"demo/Sized"⟩, some .object, [⟨"demo/Bag"⟩], true, [], []⟩,
    ⟨⟨"demo/Bag"⟩, some .object, [⟨"demo/Sized"⟩], true, [], [countMethod]⟩,
    boxClass]⟩

/-- A run leads to interfaces that extend one another in a circle. -/
theorem reachable_circularGraph : circularGraph.Reachable := by
  have hroot := reachable_empty.addClass ⟨.object, none, [], false, [], []⟩ rfl
    ⟨by simp, by simp, by simp [ClassEntry.OwnsMethods]⟩
  have hsized := hroot.addClass ⟨⟨"demo/Sized"⟩, some .object, [], true, [], []⟩ rfl
    ⟨by simp [Knows, empty], by simp, by simp [ClassEntry.OwnsMethods]⟩
  have hbag := hsized.addClass
    ⟨⟨"demo/Bag"⟩, some .object, [⟨"demo/Sized"⟩], true, [], []⟩ rfl
    ⟨by simp [Knows, empty], by simp [Knows, empty], by simp [ClassEntry.OwnsMethods]⟩
  have hbox := hbag.addClass boxClass rfl
    ⟨by simp [Knows, empty, boxClass], by simp [Knows, empty, boxClass],
      by simp [ClassEntry.OwnsMethods, boxClass]⟩
  have hcircle := hbox.addInterfaces ⟨"demo/Sized"⟩ [⟨"demo/Bag"⟩] (by simp [Knows, empty])
  exact hcircle.addMethod countMethod rfl rfl rfl

/-- A method is found behind a circle of interfaces. -/
theorem Reachable.looksUp_and_resolves_circular :
    circularGraph.Reachable ∧ boxClass ∈ circularGraph.classes ∧
      ∃ chain, circularGraph.SuperclassChain boxClass chain ∧
        circularGraph.Selects chain ⟨"count", rfl⟩ "()I" countMethod := by
  have hbox : boxClass ∈ circularGraph.classes := by simp [circularGraph]
  have hfound : circularGraph.findMethod boxClass ⟨"count", rfl⟩ "()I" = some countMethod := rfl
  obtain ⟨chain, hchain, hlooks⟩ := reachable_circularGraph.looksUp_and_resolves.1 boxClass hbox
  exact ⟨reachable_circularGraph, hbox, chain, hchain, hlooks.selects _ _ _ hfound⟩

end ClassGraph
end JvmMethods
