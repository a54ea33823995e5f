import JvmMethods.Proofs.Name.Delimiters

/-!
# Segments of binary names

A binary name is the join of its segments, and cutting it at its slashes gives the segments back.
Angle brackets are refused in the whole name, so the exemption that lets the two reserved names pass
as unqualified names never takes effect: what is left of the check of a segment is that it is
nonempty and free of delimiters.  Names put together from such segments are therefore exactly the
valid ones, and stay valid when a segment is nested in them.

Main results:

- Theorem {lit}`BinaryName.segments_eq_splitOn`: the segments are what lies between slashes.
- Theorem {lit}`BinaryName.check_eq_ok_iff_isSegment`: a name is valid exactly if its segments are
  nonempty and free of delimiters.
- Theorem {lit}`BinaryName.check_eq_ok_iff_intercalate`: valid names are the joins of segments.
- Theorem {lit}`BinaryName.check_append`: what can be a segment can be put behind a valid name.
- Theorem {lit}`BinaryName.check_compositional`: names are put together from segments.
-/

namespace JvmMethods
namespace BinaryName

/-! ## Cutting and joining -/

/-- The segments are what lies between slashes. -/
theorem segments_eq_splitOn (cs : List Char) : segments cs = cs.splitOn '/' := by
  induction cs with
  | nil => rfl
  | cons c cs ih =>
      rw [segments, List.splitOn_cons_eq_if_modifyHead, ih]
      by_cases hslash : c = '/'
      · simp [hslash]
      · cases hsplit : cs.splitOn '/' with
        | nil => exact absurd hsplit (List.splitOn_ne_nil _ _)
        | cons first rest => simp [hslash]

/-- There is always a segment, if only an empty one. -/
theorem segments_ne_nil (cs : List Char) : segments cs ≠ [] := by
  rw [segments_eq_splitOn]
  exact List.splitOn_ne_nil _ _

/-- Joining the segments of a text gives the text back. -/
theorem intercalate_segments (cs : List Char) : ['/'].intercalate (segments cs) = cs := by
  rw [segments_eq_splitOn, List.intercalate_splitOn]

/-- Cutting a join of texts without slashes gives the texts back. -/
theorem segments_intercalate {parts : List (List Char)} (hparts : parts ≠ [])
    (h : ∀ s ∈ parts, '/' ∉ s) : segments (['/'].intercalate parts) = parts := by
  rw [segments_eq_splitOn, List.splitOn_intercalate _ h hparts]

/-- A join contains the characters of its parts. -/
theorem mem_intercalate_of_mem {α : Type} (sep : List α) {s : List α} {parts : List (List α)}
    {c : α} (hs : s ∈ parts) (hc : c ∈ s) : c ∈ sep.intercalate parts := by
  induction parts with
  | nil => cases hs
  | cons first rest ih =>
      cases rest with
      | nil =>
          rw [List.mem_singleton.1 hs] at hc
          rwa [List.intercalate_singleton]
      | cons second rest =>
          rw [List.intercalate_cons_cons, List.mem_append, List.mem_append]
          rcases List.mem_cons.1 hs with rfl | hs
          · exact .inl (.inl hc)
          · exact .inr (ih hs)

/-! ## Segments -/

/-- A text that can be a segment is nonempty and free of delimiters. -/
structure IsSegment (text : String) : Prop where
  nonempty : text ≠ ""
  free : ∀ c ∈ ['.', ';', '[', '/', '<', '>'], c ∉ text.toList

/-- The characters that separate or enclose names are these six. -/
theorem isDelimiter_iff {c : Char} :
    UnqualifiedName.isDelimiter c = true ↔ c ∈ ['.', ';', '[', '/', '<', '>'] := by
  simp [UnqualifiedName.isDelimiter, or_assoc]

/-- A segment is a text that is not empty and has no delimiters. -/
theorem isSegment_iff {text : String} :
    IsSegment text ↔
      text ≠ "" ∧ ∀ c ∈ text.toList, UnqualifiedName.isDelimiter c = false := by
  constructor
  · rintro ⟨hne, hfree⟩
    refine ⟨hne, fun c hc => ?_⟩
    rw [← Bool.not_eq_true, isDelimiter_iff]
    exact fun hdelimiter => hfree c hdelimiter hc
  · rintro ⟨hne, hall⟩
    refine ⟨hne, fun c hdelimiter hc => ?_⟩
    rw [← isDelimiter_iff, hall c hc] at hdelimiter
    cases hdelimiter

/-- Segments are joined to segments. -/
theorem IsSegment.append {first second : String} (hfirst : IsSegment first)
    (hsecond : IsSegment second) : IsSegment (first ++ second) := by
  refine ⟨fun hempty => hfirst.nonempty (String.append_eq_empty_iff.1 hempty).1, fun c hc => ?_⟩
  rw [String.toList_append, List.mem_append, not_or]
  exact ⟨hfirst.free c hc, hsecond.free c hc⟩

/-- An unqualified name without angle brackets is not reserved, and can be a segment. -/
theorem unqualifiedCheck_eq_ok_iff {text : String}
    (h : ∀ c ∈ text.toList, c ≠ '<' ∧ c ≠ '>') :
    UnqualifiedName.check text = .ok () ↔ IsSegment text := by
  have hreserved : ¬ UnqualifiedName.isReserved text = true := by
    rw [UnqualifiedName.isReserved_iff]
    rintro (rfl | rfl)
    · exact (h '<' (by decide)).1 rfl
    · exact (h '<' (by decide)).1 rfl
  rw [UnqualifiedName.check_eq_ok_iff, isSegment_iff, or_iff_right hreserved, and_comm]

/-- A name is valid exactly if its segments are nonempty and free of delimiters. -/
theorem check_eq_ok_iff_isSegment {text : String} :
    check text = .ok () ↔ ∀ s ∈ segments text.toList, IsSegment (String.ofList s) := by
  rw [check_eq_ok_iff]
  constructor
  · rintro ⟨-, hbrackets, hsegments⟩ s hs
    have hchars : ∀ c ∈ (String.ofList s).toList, c ≠ '<' ∧ c ≠ '>' := by
      intro c hc
      rw [String.toList_ofList] at hc
      have hmem := mem_intercalate_of_mem ['/'] hs hc
      rw [intercalate_segments] at hmem
      exact hbrackets c hmem
    exact (unqualifiedCheck_eq_ok_iff hchars).1 (hsegments s hs)
  · intro h
    have hbrackets : ∀ c ∈ text.toList, c ≠ '<' ∧ c ≠ '>' := by
      intro c hc
      by_cases hslash : c = '/'
      · rw [hslash]
        decide
      · obtain ⟨s, hs, hcs⟩ := mem_segments_of_mem hc hslash
        have hfree := (h s hs).free
        rw [String.toList_ofList] at hfree
        exact ⟨fun heq => hfree '<' (by decide) (heq ▸ hcs),
          fun heq => hfree '>' (by decide) (heq ▸ hcs)⟩
    refine ⟨?_, hbrackets, fun s hs => ?_⟩
    · rintro rfl
      exact (h [] List.mem_cons_self).nonempty rfl
    · exact UnqualifiedName.check_eq_ok_iff.2 (.inr (isSegment_iff.1 (h s hs)).symm)

/-- Valid names are the joins of segments, of which there is at least one. -/
theorem check_eq_ok_iff_intercalate {text : String} :
    check text = .ok () ↔
      ∃ parts : List String, parts ≠ [] ∧ (∀ s ∈ parts, IsSegment s) ∧
        text = "/".intercalate parts := by
  rw [check_eq_ok_iff_isSegment]
  constructor
  · intro h
    refine ⟨(segments text.toList).map String.ofList, ?_, ?_, ?_⟩
    · simpa using segments_ne_nil text.toList
    · simpa using h
    · apply String.toList_inj.1
      have htexts : String.toList ∘ String.ofList = id := funext fun _ => String.toList_ofList
      rw [String.toList_intercalate, List.map_map, htexts, List.map_id]
      exact (intercalate_segments text.toList).symm
  · rintro ⟨parts, hparts, hsegments, rfl⟩
    have hcut : segments ("/".intercalate parts).toList = parts.map String.toList := by
      rw [String.toList_intercalate]
      apply segments_intercalate
      · simpa using hparts
      · simpa using fun s hs => (hsegments s hs).free '/' (by decide)
    rw [hcut]
    simpa using hsegments

/-- The last part of a join takes up what is put behind it. -/
theorem exists_intercalate_append {parts : List String} {suffix : String} (hparts : parts ≠ [])
    (h : ∀ s ∈ parts, IsSegment s) (hsuffix : IsSegment suffix) :
    ∃ longer : List String, longer ≠ [] ∧ (∀ s ∈ longer, IsSegment s) ∧
      "/".intercalate parts ++ suffix = "/".intercalate longer := by
  induction parts with
  | nil => exact absurd rfl hparts
  | cons first rest ih =>
      rcases List.forall_mem_cons.1 h with ⟨hfirst, hrest⟩
      by_cases hlast : rest = []
      · refine ⟨[first ++ suffix], List.cons_ne_nil _ _, ?_, ?_⟩
        · exact List.forall_mem_singleton.2 (hfirst.append hsuffix)
        · rw [hlast, String.intercalate_singleton, String.intercalate_singleton]
      · obtain ⟨longer, hlonger, hsegments, heq⟩ := ih hlast hrest
        refine ⟨first :: longer, List.cons_ne_nil _ _, ?_, ?_⟩
        · exact List.forall_mem_cons.2 ⟨hfirst, hsegments⟩
        · rw [String.intercalate_cons_of_ne_nil hlast, String.append_assoc, heq,
            String.intercalate_cons_of_ne_nil hlonger]

/-- What can be a segment can be put behind a valid name. -/
theorem check_append {text suffix : String} (h : check text = .ok ()) (hsuffix : IsSegment suffix) :
    check (text ++ suffix) = .ok () := by
  obtain ⟨parts, hparts, hsegments, rfl⟩ := check_eq_ok_iff_intercalate.1 h
  exact check_eq_ok_iff_intercalate.2 (exists_intercalate_append hparts hsegments hsuffix)

/-- No part of a valid name is reserved. -/
theorem not_isReserved_of_mem {parts : List String}
    (h : check ("/".intercalate parts) = .ok ()) {s : String} (hs : s ∈ parts) :
    UnqualifiedName.isReserved s = false := by
  obtain ⟨-, hbrackets, -⟩ := check_eq_ok_iff.1 h
  rw [← Bool.not_eq_true, UnqualifiedName.isReserved_iff]
  intro hreserved
  have hopen : '<' ∈ s.toList := by
    rcases hreserved with rfl | rfl
    · decide
    · decide
  have hmem : '<' ∈ ("/".intercalate parts).toList := by
    rw [String.toList_intercalate]
    exact mem_intercalate_of_mem _ (List.mem_map_of_mem hs) hopen
  exact (hbrackets '<' hmem).1 rfl

/-- The valid binary names are the joins of nonempty texts without delimiters, none of which is a
reserved name, and nesting such a text in a valid name keeps the name valid. -/
theorem check_compositional :
    (∀ text, (∃ name, ofString text = .ok name) ↔
      ∃ parts : List String, parts ≠ [] ∧ (∀ s ∈ parts, IsSegment s) ∧
        text = "/".intercalate parts) ∧
      (∀ parts : List String, (∃ name, ofString ("/".intercalate parts) = .ok name) →
        UnqualifiedName.constructor.text ∉ parts ∧
          UnqualifiedName.typeInitializer.text ∉ parts) ∧
      ∀ name : BinaryName, check name.text = .ok () → ∀ inner, IsSegment inner →
        check (name.nested inner).text = .ok () := by
  have hvalid : ∀ text, (∃ name, ofString text = .ok name) ↔ check text = .ok () := by
    intro text
    simp only [ofString_eq_ok_iff]
    exact ⟨fun ⟨_, hcheck, _⟩ => hcheck, fun hcheck => ⟨⟨text⟩, hcheck, rfl⟩⟩
  simp only [hvalid]
  refine ⟨fun text => check_eq_ok_iff_intercalate, fun parts h => ⟨fun hs => ?_, fun hs => ?_⟩, ?_⟩
  · exact Bool.noConfusion (not_isReserved_of_mem h hs)
  · exact Bool.noConfusion (not_isReserved_of_mem h hs)
  · intro name hname inner hinner
    have hdollar : IsSegment "$" := ⟨by decide, by simp⟩
    exact check_append (check_append hname hdollar) hinner

/-- A class that is nested in a checked one has a checked name. -/
theorem check_compositional_nested :
    (∃ name, ofString "java/Map" = .ok name) ∧ IsSegment "Entry" ∧
      check (nested ⟨"java/Map"⟩ "Entry").text = .ok () := by
  have hjava : IsSegment "java" := ⟨by decide, by simp⟩
  have hmap : IsSegment "Map" := ⟨by decide, by simp⟩
  have hentry : IsSegment "Entry" := ⟨by decide, by simp⟩
  have hparts : ∀ s ∈ ["java", "Map"], IsSegment s :=
    List.forall_mem_cons.2 ⟨hjava, List.forall_mem_singleton.2 hmap⟩
  obtain ⟨hjoin, -, hnested⟩ := check_compositional
  refine ⟨(hjoin _).2 ⟨["java", "Map"], List.cons_ne_nil _ _, hparts, by decide⟩, hentry, ?_⟩
  exact hnested ⟨"java/Map"⟩ rfl "Entry" hentry

end BinaryName
end JvmMethods
