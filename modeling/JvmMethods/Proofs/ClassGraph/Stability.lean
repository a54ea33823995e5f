import JvmMethods.Proofs.ClassGraph.CallSite

/-!
# Resolution in growing graphs

A class graph that grows keeps its classes.  Their superclasses stay the same, and their links and
methods only become more, so that everything a class has methods from is still there later.  What a
reference resolves to once, it resolves to later, or to another method with its name and descriptor:
a new method of a nearer class or a new link may bring one in front.

If only classes are added, and methods that are dispatched on another name or descriptor, then the
two graphs look the same to the reference.  Lookup passes the same classes in the same order in both
of them, and finds the same method.  It still does if links are repeated, since it passes no
interface twice.

Main results:

- Definition {lit}`ClassEntry.AgreesOn`: the supertypes of a class are the same, and so is the
  method for a name and a descriptor.
- Definition {lit}`ClassEntry.SearchedAlike`: what the search for a method sees of a class is the
  same.
- Theorem {lit}`ClassGraph.Offers.mono`: what a class has, it has in every later graph.
- Theorem {lit}`ClassGraph.Matches.forall₂_rounds`: graphs whose classes are searched alike are
  searched in the same order.
- Theorem {lit}`ClassGraph.Reachable.resolve_stable`: a reference that resolves keeps resolving, and
  to the same method if no method with its name and descriptor and no link is added.
-/

namespace JvmMethods

/-- The first hits agree if the entries do, one by one. -/
theorem findSome?_eq_of_forall₂ {α β γ : Type} {f : α → Option γ} {f' : β → Option γ} {as : List α}
    {bs : List β} (h : List.Forall₂ (fun a b => f' b = f a) as bs) :
    bs.findSome? f' = as.findSome? f := by
  induction h with
  | nil => rfl
  | cons hab _ ih => rw [List.findSome?_cons, List.findSome?_cons, hab, ih]

namespace ClassEntry

/-- The classes have the same supertypes, and the same method for a name and a descriptor. -/
structure AgreesOn (name : UnqualifiedName) (erasedSignature : String) (c c' : ClassEntry) :
    Prop where
  superclass : c'.superclass = c.superclass
  interfaces : c'.interfaces = c.interfaces
  declared : c'.declared? name erasedSignature = c.declared? name erasedSignature

/-- A class that has grown still dispatches what it dispatched before. -/
theorem Extends.declares {c c' : ClassEntry} (h : c.Extends c') {name : UnqualifiedName}
    {erasedSignature : String} (hc : c.Declares name erasedSignature) :
    c'.Declares name erasedSignature := by
  obtain ⟨m, hm, hkey⟩ := hc
  exact ⟨m, h.methods.subset hm, hkey⟩

section

variable {name : UnqualifiedName} {erasedSignature : String}

theorem AgreesOn.refl (c : ClassEntry) : c.AgreesOn name erasedSignature c :=
  ⟨rfl, rfl, rfl⟩

/-- Agreement on a name and a descriptor is transitive. -/
theorem AgreesOn.trans {c c' c'' : ClassEntry} (h : c.AgreesOn name erasedSignature c')
    (h' : c'.AgreesOn name erasedSignature c'') : c.AgreesOn name erasedSignature c'' :=
  ⟨h'.superclass.trans h.superclass, h'.interfaces.trans h.interfaces,
    h'.declared.trans h.declared⟩

/-- A method with another name or descriptor does not show. -/
theorem agreesOn_append (c : ClassEntry) {m : MethodDefinition}
    (hm : ¬ (m.name = name ∧ m.erasedSignature = erasedSignature)) :
    c.AgreesOn name erasedSignature { c with methods := c.methods ++ [m] } := by
  refine ⟨rfl, rfl, ?_⟩
  simp [declared?, dispatches, List.find?_append, hm]

/-- The search for a method goes on from the one class as it does from the other.  Links that repeat
earlier ones make no difference to it, whatever was seen before. -/
structure SearchedAlike (name : UnqualifiedName) (erasedSignature : String) (c c' : ClassEntry) :
    Prop where
  superclass : c'.superclass = c.superclass
  interfaces : ∀ seen,
    ClassGraph.unseen seen c'.interfaces = ClassGraph.unseen seen c.interfaces
  declared : c'.declared? name erasedSignature = c.declared? name erasedSignature

/-- Classes that agree on a name and a descriptor are searched alike. -/
theorem AgreesOn.searchedAlike {c c' : ClassEntry} (h : c.AgreesOn name erasedSignature c') :
    c.SearchedAlike name erasedSignature c' :=
  ⟨h.superclass, fun seen => by rw [h.interfaces], h.declared⟩

end

end ClassEntry

namespace ClassGraph

variable {g g' : ClassGraph}

/-! ## Changes keep everything -/

/-- Related classes have chains of related superclasses, if related classes always have the same
superclass. -/
theorem SuperclassChain.matches {R : ClassEntry → ClassEntry → Prop} (h : Matches R g g')
    (hR : ∀ c c', R c c' → c'.superclass = c.superclass) {c c' : ClassEntry}
    {chain : List ClassEntry} (hchain : g.SuperclassChain c chain) (hc : R c c') :
    ∃ chain', g'.SuperclassChain c' chain' ∧ List.Forall₂ R chain chain' := by
  induction hchain generalizing c' with
  | root hroot => exact ⟨[c'], .root ((hR _ _ hc).trans hroot), .cons hc .nil⟩
  | link hname hs hrest ih =>
      obtain ⟨s', hs', hRs⟩ := h _ _ hs
      obtain ⟨rest', hrest', hforall⟩ := ih hRs
      exact ⟨c' :: rest', .link ((hR _ _ hc).trans hname) hs' hrest', .cons hc hforall⟩

/-- A run of changes keeps every class, which may have gained links and methods. -/
theorem Changes.extends (h : Changes g g') : Matches ClassEntry.Extends g g' :=
  h.invariant
    (fun _ _ hchange hmatches =>
      hmatches.trans hchange.extends fun _ _ _ => ClassEntry.Extends.trans)
    (Matches.refl ClassEntry.Extends.refl g)

/-- Links lead on to what their classes have become. -/
theorem InterfacePath.extends (h : Matches ClassEntry.Extends g g') {n : Nat}
    {c c' d : ClassEntry} (hpath : g.InterfacePath n c d) (hc : c.Extends c') :
    ∃ d', g'.InterfacePath n c' d' ∧ d.Extends d' := by
  induction hpath with
  | here => exact ⟨c', .here c', hc⟩
  | link _ hname he ih =>
      obtain ⟨d', hpath', hd⟩ := ih hc
      obtain ⟨e', he', hee'⟩ := h _ _ he
      exact ⟨e', .link hpath' (hd.interfaces.subset hname) he', hee'⟩

/-- What the classes of a chain have, they have in every later graph. -/
theorem Offers.mono (h : Matches ClassEntry.Extends g g') {chain chain' : List ClassEntry}
    (hchain : List.Forall₂ ClassEntry.Extends chain chain') {name : UnqualifiedName}
    {erasedSignature : String} (hoffers : g.Offers chain name erasedSignature) :
    g'.Offers chain' name erasedSignature := by
  obtain ⟨a, ha, hdeclares⟩ := hoffers
  obtain ⟨i, hi, hget⟩ := List.getElem_of_mem ha
  have hi' : i < chain'.length := hchain.length_eq ▸ hi
  have haa' : a.Extends chain'[i] := hget ▸ hchain.get hi hi'
  refine ⟨chain'[i], List.getElem_mem hi', ?_⟩
  rcases hdeclares with hown | ⟨n, e, hpath, hinherited⟩
  · exact .inl (haa'.declares hown)
  · obtain ⟨e', hpath', hee'⟩ := hpath.extends h haa'
    exact .inr ⟨n, e', hpath', hee'.declares hinherited⟩

/-! ## References keep resolving -/

/-- The method that a class has for a reference has its name and descriptor. -/
theorem key_of_methodFor {c : ClassEntry} {r : MethodReference} {d : MethodDefinition}
    (h : g.methodFor c r = some d) :
    d.name = r.name ∧ d.erasedSignature = r.erasedSignature := by
  rw [methodFor] at h
  split at h
  · exact (ClassEntry.declared?_eq_some_iff.1 h).1
  · obtain ⟨e, -, hdeclared⟩ := List.exists_of_findSome?_eq_some h
    exact (ClassEntry.declared?_eq_some_iff.1 hdeclared).1

/-- What a class finds, it still finds some method for when all classes have grown. -/
theorem WellFormed.isSome_findMethod (hg : g.WellFormed) (hg' : g'.WellFormed)
    (h : Matches ClassEntry.Extends g g') {c c' : ClassEntry} (hc : c ∈ g.classes)
    (hc' : c' ∈ g'.classes) (hcc' : c.Extends c') {name : UnqualifiedName}
    {erasedSignature : String} (hfound : (g.findMethod c name erasedSignature).isSome = true) :
    (g'.findMethod c' name erasedSignature).isSome = true := by
  have hchain := hg.superclassChain hc (Nat.le_refl _)
  obtain ⟨chain', hchain', hforall⟩ :=
    hchain.matches h (fun _ _ => ClassEntry.Extends.superclass) hcc'
  obtain rfl := hchain'.unique (hg'.superclassChain hc' (Nat.le_refl _))
  exact ((hg'.looksUp hc').isSome_iff _ _).2
    (Offers.mono h hforall (((hg.looksUp hc).isSome_iff _ _).1 hfound))

/-- A class that has a method for a reference has one in every later graph. -/
theorem WellFormed.isSome_methodFor (hg : g.WellFormed) (hg' : g'.WellFormed)
    (h : Matches ClassEntry.Extends g g') {c c' : ClassEntry} (hc : c ∈ g.classes)
    (hc' : c' ∈ g'.classes) (hcc' : c.Extends c') {r : MethodReference}
    (hfound : (g.methodFor c r).isSome = true) : (g'.methodFor c' r).isSome = true := by
  rw [methodFor] at hfound ⊢
  by_cases hspecial : r.name.isSpecial = true
  · rw [if_pos hspecial] at hfound ⊢
    rw [ClassEntry.isSome_declared?_iff] at hfound ⊢
    exact hcc'.declares hfound
  · rw [if_neg hspecial] at hfound ⊢
    exact hg.isSome_findMethod hg' h hc hc' hcc' hfound

/-- A reference that is resolved is still resolved to a method of its name and descriptor when all
classes have grown. -/
theorem WellFormed.exists_resolve (hg : g.WellFormed) (hg' : g'.WellFormed)
    (h : Matches ClassEntry.Extends g g') {r : MethodReference} {d : MethodDefinition}
    (hd : (g.resolve r).outcome = .ok d) :
    ∃ d', (g'.resolve r).outcome = .ok d' ∧ d'.name = r.name ∧
      d'.erasedSignature = r.erasedSignature := by
  obtain ⟨owner, c, howner, hc, hm⟩ := resolve_eq_ok_iff.1 hd
  obtain ⟨c', hc', hcc'⟩ := h owner c hc
  have hfound := hg.isSome_methodFor hg' h (List.mem_of_find?_eq_some hc)
    (List.mem_of_find?_eq_some hc') hcc' (Option.isSome_of_eq_some hm)
  obtain ⟨d', hd'⟩ := Option.isSome_iff_exists.1 hfound
  exact ⟨d', resolve_eq_ok_iff.2 ⟨owner, c', howner, hc', hd'⟩, key_of_methodFor hd'⟩

/-! ## The same search in two graphs -/

section Agreement

variable {name : UnqualifiedName} {erasedSignature : String}

/-- The classes of some names are related one by one. -/
theorem Matches.forall₂_filterMap {R : ClassEntry → ClassEntry → Prop} (h : Matches R g g')
    {names : List BinaryName} (hnames : ∀ n ∈ names, g.Knows n) :
    List.Forall₂ R (names.filterMap g.lookup) (names.filterMap g'.lookup) := by
  induction names with
  | nil => exact .nil
  | cons n names ih =>
      obtain ⟨c, hc⟩ := knows_iff_lookup.1 (hnames n List.mem_cons_self)
      obtain ⟨c', hc', hcc'⟩ := h n c hc
      rw [List.filterMap_cons_some hc, List.filterMap_cons_some hc']
      exact .cons hcc' (ih fun m hm => hnames m (List.mem_cons_of_mem n hm))

/-- Names that come later are new if they are neither among those that were seen nor among the
earlier ones. -/
theorem unseen_append (seen names more : List BinaryName) :
    unseen seen (names ++ more) = unseen seen names ++ unseen (seen ++ names) more := by
  have hfilter : (more.filter fun n => !seen.contains n).removeAll
        (names.filter fun n => !seen.contains n) =
      more.filter fun n => !(seen ++ names).contains n := by
    rw [List.removeAll, List.filter_filter]
    refine List.filter_congr fun n _ => ?_
    by_cases hseen : n ∈ seen <;> simp [hseen]
  rw [unseen, List.filter_append, List.eraseDups_append, hfilter, unseen, unseen]

/-- Names that were all seen before leave nothing to pass. -/
theorem unseen_eq_nil {seen names : List BinaryName} (h : names ⊆ seen) :
    unseen seen names = [] := by
  refine List.eq_nil_iff_forall_not_mem.2 fun n hn => ?_
  obtain ⟨hmem, hnew⟩ := mem_unseen_iff.1 hn
  exact hnew (h hmem)

/-- It does not matter in which order names were seen, nor how often. -/
theorem unseen_congr {seen seen' : List BinaryName} (h : ∀ n, n ∈ seen' ↔ n ∈ seen)
    (names : List BinaryName) : unseen seen' names = unseen seen names := by
  have hfilter : (names.filter fun n => !seen'.contains n) =
      names.filter fun n => !seen.contains n :=
    List.filter_congr fun n _ => by simp [h n]
  rw [unseen, hfilter, unseen]

/-- Classes that are searched alike are linked to the same interfaces. -/
theorem mem_interfaces_iff_of_searchedAlike {c c' : ClassEntry}
    (h : c.SearchedAlike name erasedSignature c') (n : BinaryName) :
    n ∈ c'.interfaces ↔ n ∈ c.interfaces := by
  have hmem : n ∈ unseen [] c'.interfaces ↔ n ∈ unseen [] c.interfaces := by rw [h.interfaces]
  simpa only [mem_unseen_iff, List.not_mem_nil, not_false_eq_true, and_true] using hmem

/-- Classes that are searched alike have the same interfaces to pass next, in the same order. -/
theorem unseen_flatMap_of_forall₂ {entries entries' : List ClassEntry}
    (h : List.Forall₂ (ClassEntry.SearchedAlike name erasedSignature) entries entries')
    (seen : List BinaryName) :
    unseen seen (entries'.flatMap ClassEntry.interfaces) =
      unseen seen (entries.flatMap ClassEntry.interfaces) := by
  induction h generalizing seen with
  | nil => rfl
  | @cons c c' entries entries' hcc' _ ih =>
      have hseen : ∀ n, n ∈ seen ++ c'.interfaces ↔ n ∈ seen ++ c.interfaces := fun n => by
        rw [List.mem_append, List.mem_append, mem_interfaces_iff_of_searchedAlike hcc']
      rw [List.flatMap_cons, List.flatMap_cons, unseen_append, unseen_append, hcc'.interfaces, ih,
        unseen_congr hseen]

/-- The rounds pass the same interfaces in the same order. -/
theorem Matches.forall₂_rounds (h : Matches (ClassEntry.SearchedAlike name erasedSignature) g g')
    (hg : g.WellFormed) {level : List BinaryName} (hlevel : ∀ n ∈ level, g.Knows n) (count : Nat)
    (seen : List BinaryName) :
    List.Forall₂ (ClassEntry.SearchedAlike name erasedSignature) (g.rounds count seen level)
      (g'.rounds count seen level) := by
  induction count generalizing seen level with
  | zero => exact .nil
  | succ count ih =>
      have hentries := h.forall₂_filterMap hlevel
      rw [rounds, rounds, unseen_flatMap_of_forall₂ hentries]
      refine List.rel_append hentries (ih ?_ _)
      intro n hn
      obtain ⟨e, he, hlink⟩ := List.mem_flatMap.1 (mem_unseen_iff.1 hn).1
      obtain ⟨_, _, hlookup⟩ := List.mem_filterMap.1 he
      exact hg.interfaces e (List.mem_of_find?_eq_some hlookup) n hlink

/-- Classes that are searched alike find the same method. -/
theorem Matches.findMethod_eq (h : Matches (ClassEntry.SearchedAlike name erasedSignature) g g')
    (hg : g.WellFormed) (hg' : g'.WellFormed) {c c' : ClassEntry} (hc : c ∈ g.classes)
    (hc' : c' ∈ g'.classes) (hcc' : c.SearchedAlike name erasedSignature c') :
    g'.findMethod c' name erasedSignature = g.findMethod c name erasedSignature := by
  -- Both searches end of themselves, so that they may be given the same number of steps.
  obtain ⟨bound, hbound, hbound'⟩ : ∃ bound, g.classes.length ≤ bound ∧
      g'.classes.length ≤ bound := ⟨_, Nat.le_max_left _ _, Nat.le_max_right _ _⟩
  have hchain := hg.superclassChain hc hbound
  obtain ⟨chain', hchain', hclasses⟩ :=
    hchain.matches h (fun _ _ => ClassEntry.SearchedAlike.superclass) hcc'
  obtain rfl := hchain'.unique (hg'.superclassChain hc' hbound')
  have hknown : ∀ n ∈ unseen [] ((g.ancestors bound c).flatMap ClassEntry.interfaces),
      g.Knows n := by
    intro n hn
    obtain ⟨a, ha, hlink⟩ := List.mem_flatMap.1 (mem_unseen_iff.1 hn).1
    exact hg.interfaces a (hchain.mem_classes hc a ha) n hlink
  have horder : List.Forall₂ (ClassEntry.SearchedAlike name erasedSignature)
      (g.lookupOrderWithin bound c) (g'.lookupOrderWithin bound c') := by
    rw [lookupOrderWithin, lookupOrderWithin, unseen_flatMap_of_forall₂ hclasses]
    exact List.rel_append hclasses (h.forall₂_rounds hg hknown bound _)
  rw [hg.lookupOrderWithin_eq hc hbound, hg'.lookupOrderWithin_eq hc' hbound'] at horder
  exact findSome?_eq_of_forall₂ (horder.imp fun _ _ => ClassEntry.SearchedAlike.declared)

/-- Classes that are searched alike for the name and the descriptor of a reference have the same
method for it. -/
theorem Matches.methodFor_eq {r : MethodReference}
    (h : Matches (ClassEntry.SearchedAlike r.name r.erasedSignature) g g') (hg : g.WellFormed)
    (hg' : g'.WellFormed) {c c' : ClassEntry} (hc : c ∈ g.classes) (hc' : c' ∈ g'.classes)
    (hcc' : c.SearchedAlike r.name r.erasedSignature c') :
    g'.methodFor c' r = g.methodFor c r := by
  rw [methodFor, methodFor, hcc'.declared, h.findMethod_eq hg hg' hc hc' hcc']

/-- Graphs that agree on the name and the descriptor of a reference resolve it to the same
method. -/
theorem Matches.resolve_eq {r : MethodReference}
    (h : Matches (ClassEntry.AgreesOn r.name r.erasedSignature) g g') (hg : g.WellFormed)
    (hg' : g'.WellFormed) {d : MethodDefinition} (hd : (g.resolve r).outcome = .ok d) :
    (g'.resolve r).outcome = .ok d := by
  obtain ⟨owner, c, howner, hc, hm⟩ := resolve_eq_ok_iff.1 hd
  obtain ⟨c', hc', hcc'⟩ := h owner c hc
  have halike := h.imp fun _ _ => ClassEntry.AgreesOn.searchedAlike
  refine resolve_eq_ok_iff.2 ⟨owner, c', howner, hc', ?_⟩
  rw [halike.methodFor_eq hg hg' (List.mem_of_find?_eq_some hc) (List.mem_of_find?_eq_some hc')
    hcc'.searchedAlike]
  exact hm

end Agreement

/-! ## Histories -/

/-- The operation adds a class, or a method with another name or descriptor than the reference. -/
def Operation.Avoids (r : MethodReference) : Operation → Prop
  | .addClass _ => True
  | .addMethod _ m => ¬ (m.name = r.name ∧ m.erasedSignature = r.erasedSignature)
  | .addInterfaces _ _ => False
  | .addStandardLibrary => False

/-- What the reference sees of a graph is not changed by an operation that avoids it. -/
theorem Operation.Avoids.agrees {r : MethodReference} {op : Operation} (h : op.Avoids r)
    (g : ClassGraph) :
    Matches (ClassEntry.AgreesOn r.name r.erasedSignature) g (g.after op) := by
  rcases perform_after_or op g with hdone | hsame
  · cases op with
    | addClass entry =>
        obtain ⟨stored, hadd⟩ := outcome_discard_eq_ok_iff.1 hdone
        rcases addClass_eq_ok_iff.1 hadd with ⟨-, hsame⟩ | ⟨-, -, hnew⟩
        · rw [hsame]
          exact Matches.refl ClassEntry.AgreesOn.refl g
        · rw [hnew]
          exact matches_append ClassEntry.AgreesOn.refl g entry
    | addMethod owner m =>
        obtain ⟨d, hadd⟩ := outcome_discard_eq_ok_iff.1 hdone
        obtain ⟨-, c, -, ⟨-, hsame⟩ | ⟨-, -, hnew⟩⟩ := addMethod_eq_ok_iff.1 hadd
        · rw [hsame]
          exact Matches.refl ClassEntry.AgreesOn.refl g
        · rw [hnew]
          exact matches_modify ClassEntry.AgreesOn.refl (fun _ => rfl) fun c _ =>
            c.agreesOn_append h
    | addInterfaces name interfaces => exact h.elim
    | addStandardLibrary => exact h.elim
  · rw [hsame]
    exact Matches.refl ClassEntry.AgreesOn.refl g

/-- Operations that avoid a reference leave classes that agree on it. -/
theorem agrees_replay {r : MethodReference} {ops : List Operation} (h : ∀ op ∈ ops, op.Avoids r)
    (g : ClassGraph) :
    Matches (ClassEntry.AgreesOn r.name r.erasedSignature) g (g.replay ops) := by
  induction ops generalizing g with
  | nil => exact Matches.refl ClassEntry.AgreesOn.refl g
  | cons op ops ih =>
      have hfirst := (h op List.mem_cons_self).agrees g
      have hrest := ih (fun o ho => h o (List.mem_cons_of_mem op ho)) (g.after op)
      exact hfirst.trans hrest fun _ _ _ => ClassEntry.AgreesOn.trans

/-- A reference that resolves keeps resolving while the graph grows, to a definition with its name
and descriptor.  It stays the same definition as long as nothing is added but classes, and
methods with another name or descriptor. -/
theorem Reachable.resolve_stable (hg : g.Reachable) {r : MethodReference} {d : MethodDefinition}
    (hd : (g.resolve r).outcome = .ok d) {ops : List Operation} (hops : g.PermitsAll ops) :
    (∃ d', ((g.replay ops).resolve r).outcome = .ok d' ∧ d'.name = r.name ∧
        d'.erasedSignature = r.erasedSignature) ∧
      ((∀ op ∈ ops, op.Avoids r) → ((g.replay ops).resolve r).outcome = .ok d) := by
  have hrun := run_replay hops
  have hlater : (g.replay ops).Reachable := hg.trans hrun
  constructor
  · exact hg.wellFormed.exists_resolve hlater.wellFormed hrun.changes.extends hd
  · intro havoids
    exact (agrees_replay havoids g).resolve_eq hg.wellFormed hlater.wellFormed hd

/-- The method {lit}`count` of the class {lit}`Box` itself. -/
def boxCount : MethodDefinition :=
  { countMethod with declaringType := boxClass.asType }

/-- A call of {lit}`count` on a {lit}`Box`. -/
def boxCall : MethodReference :=
  boxCount.toReference

/-- Another method of {lit}`Bag`. -/
def clearMethod : MethodDefinition :=
  { countMethod with name := ⟨"clear", rfl⟩ }

/-- The call on a {lit}`Box` goes to {lit}`Bag`, also after other methods were added there, and it
still resolves after the box has got a method of its own. -/
theorem Reachable.resolve_stable_circular :
    circularGraph.Reachable ∧ (circularGraph.resolve boxCall).outcome = .ok countMethod ∧
      ((circularGraph.replay [.addClass ownList, .addMethod ⟨"demo/Bag"⟩ clearMethod]).resolve
        boxCall).outcome = .ok countMethod ∧
      ∃ d, ((circularGraph.replay [.addMethod boxClass.name boxCount]).resolve boxCall).outcome =
        .ok d ∧ d.erasedSignature = boxCall.erasedSignature := by
  have hcall : (circularGraph.resolve boxCall).outcome = .ok countMethod := rfl
  have hroot : ∀ s ∈ ownList.superclass, circularGraph.Knows s := by
    intro s hs
    cases hs
    exact ⟨_, List.mem_cons_self, rfl⟩
  have hother : circularGraph.PermitsAll
      [.addClass ownList, .addMethod ⟨"demo/Bag"⟩ clearMethod] :=
    ⟨permits_addClass hroot rfl rfl, trivial, trivial⟩
  have hshadow : circularGraph.PermitsAll [.addMethod boxClass.name boxCount] :=
    ⟨trivial, trivial⟩
  have havoids : ∀ op ∈ ([.addClass ownList, .addMethod ⟨"demo/Bag"⟩ clearMethod] :
      List Operation), op.Avoids boxCall := by
    intro op hop
    simp only [List.mem_cons, List.not_mem_nil, or_false] at hop
    rcases hop with rfl | rfl
    · exact trivial
    · exact fun hsame => absurd hsame.1 (by decide)
  obtain ⟨d, hd, -, hsignature⟩ := (reachable_circularGraph.resolve_stable hcall hshadow).1
  exact ⟨reachable_circularGraph, hcall,
    (reachable_circularGraph.resolve_stable hcall hother).2 havoids, d, hd, hsignature⟩

end ClassGraph
end JvmMethods
