import JvmMethods.Logged
import JvmMethods.Name

/-!
# Names and the characters that delimit them

Names are checked so that a reader can tell where they end.  An unqualified name has some first
character, and contains no delimiter other than the angle brackets of the two reserved names.  A
binary name that passes its check contains no angle brackets either, and slashes only between its
segments.

Main results:

- Theorem {lit}`UnqualifiedName.not_mem_toList`: what an unqualified name cannot contain.
- Theorem {lit}`BinaryName.mem_segments_of_mem`: a character other than a slash belongs to a
  segment.
- Theorem {lit}`BinaryName.not_mem_of_check`: what a checked binary name cannot contain.
-/

namespace JvmMethods

/-! ## Unqualified names -/

namespace UnqualifiedName

/-- An accepted text is one of the reserved names, or is nonempty and free of delimiters. -/
theorem check_eq_ok_iff {text : String} :
    check text = .ok () ↔
      isReserved text = true ∨ (∀ c ∈ text.toList, isDelimiter c = false) ∧ text ≠ "" := by
  unfold check
  by_cases hreserved : isReserved text = true
  · simp [hreserved]
  · by_cases hany : text.toList.any isDelimiter = true
    · obtain ⟨c, hc, hdelimiter⟩ := List.any_eq_true.1 hany
      have hnot : ¬ ∀ c ∈ text.toList, isDelimiter c = false :=
        fun hall => Bool.false_ne_true ((hall c hc).symm.trans hdelimiter)
      simp [hreserved, hany, hnot]
    · have hall : ∀ c ∈ text.toList, isDelimiter c = false := by simpa using hany
      by_cases hempty : text = ""
      · simp [hempty, isReserved]
      · simpa [hreserved, hany, hempty] using hall

/-- Two texts are reserved for initializers. -/
theorem isReserved_iff {text : String} :
    isReserved text = true ↔ text = "<init>" ∨ text = "<clinit>" := by
  simp [isReserved]

/-- The reserved names contain no delimiters other than their angle brackets. -/
theorem not_mem_of_isReserved {text : String} (h : isReserved text = true) {c : Char}
    (hc : isDelimiter c = true) (hopen : c ≠ '<') (hclose : c ≠ '>') : c ∉ text.toList := by
  have hnot : ∀ d ∈ text.toList, isDelimiter d = true → d = '<' ∨ d = '>' := by
    rcases isReserved_iff.1 h with rfl | rfl
    · simp [isDelimiter]
    · simp [isDelimiter]
  intro hmem
  rcases hnot c hmem hc with heq | heq
  · exact hopen heq
  · exact hclose heq

/-- No name is empty. -/
theorem toList_ne_nil (n : UnqualifiedName) : n.text.toList ≠ [] := by
  intro h
  have hempty : n.text = "" := by simpa using h
  rcases check_eq_ok_iff.1 n.valid with hreserved | ⟨-, hne⟩
  · rw [hempty] at hreserved
    exact absurd hreserved (by decide)
  · exact hne hempty

/-- An unqualified name contains no delimiter other than angle brackets. -/
theorem not_mem_toList (n : UnqualifiedName) {c : Char} (hc : isDelimiter c = true)
    (hopen : c ≠ '<') (hclose : c ≠ '>') : c ∉ n.text.toList := by
  rcases check_eq_ok_iff.1 n.valid with hreserved | ⟨hall, -⟩
  · exact not_mem_of_isReserved hreserved hc hopen hclose
  · intro hmem
    rw [hall c hmem] at hc
    cases hc

/-- The name opens with some character, which is not a closing bracket. -/
theorem toList_eq_cons (n : UnqualifiedName) :
    ∃ c cs, n.text.toList = c :: cs ∧ c ≠ '>' := by
  rcases check_eq_ok_iff.1 n.valid with hreserved | ⟨hall, -⟩
  · rcases isReserved_iff.1 hreserved with htext | htext
    · exact ⟨'<', "init>".toList, by rw [htext]; rfl, by decide⟩
    · exact ⟨'<', "clinit>".toList, by rw [htext]; rfl, by decide⟩
  · cases hlist : n.text.toList with
    | nil => exact absurd hlist n.toList_ne_nil
    | cons c cs =>
        refine ⟨c, cs, rfl, ?_⟩
        rintro rfl
        have hclose := hall '>' (by rw [hlist]; exact List.mem_cons_self)
        exact absurd hclose (by decide)

end UnqualifiedName

/-! ## Binary names -/

namespace BinaryName

/-- A character other than a slash belongs to a segment. -/
theorem mem_segments_of_mem {cs : List Char} {c : Char} (hc : c ∈ cs) (hslash : c ≠ '/') :
    ∃ s ∈ segments cs, c ∈ s := by
  induction cs with
  | nil => cases hc
  | cons d cs ih =>
      rw [segments]
      by_cases hd : d = '/'
      · rw [if_pos hd]
        rcases List.mem_cons.1 hc with rfl | hc
        · exact absurd hd hslash
        · obtain ⟨s, hs, hmem⟩ := ih hc
          exact ⟨s, List.mem_cons_of_mem _ hs, hmem⟩
      · rw [if_neg hd]
        cases hrest : segments cs with
        | nil =>
            rcases List.mem_cons.1 hc with rfl | hc
            · exact ⟨[c], List.mem_cons_self, List.mem_cons_self⟩
            · obtain ⟨s, hs, -⟩ := ih hc
              rw [hrest] at hs
              cases hs
        | cons first rest =>
            rcases List.mem_cons.1 hc with rfl | hc
            · exact ⟨c :: first, List.mem_cons_self, List.mem_cons_self⟩
            · obtain ⟨s, hs, hmem⟩ := ih hc
              rw [hrest] at hs
              rcases List.mem_cons.1 hs with rfl | hs
              · exact ⟨d :: s, List.mem_cons_self, List.mem_cons_of_mem _ hmem⟩
              · exact ⟨s, List.mem_cons_of_mem _ hs, hmem⟩

/-- An accepted text is nonempty, has no angle brackets, and all of its segments are accepted. -/
theorem check_eq_ok_iff {text : String} :
    check text = .ok () ↔
      text ≠ "" ∧ (∀ c ∈ text.toList, c ≠ '<' ∧ c ≠ '>') ∧
        ∀ s ∈ segments text.toList, UnqualifiedName.check (String.ofList s) = .ok () := by
  unfold check
  by_cases hempty : text = ""
  · simp [hempty]
  · by_cases hany : (text.toList.any fun c => c = '<' || c = '>') = true
    · have hnot : ¬ ∀ c ∈ text.toList, c ≠ '<' ∧ c ≠ '>' := by
        obtain ⟨c, hc, hbracket⟩ := List.any_eq_true.1 hany
        intro hall
        have hc' := hall c hc
        simp [hc'.1, hc'.2] at hbracket
      simp [hempty, hany, hnot]
    · have hall : ∀ c ∈ text.toList, c ≠ '<' ∧ c ≠ '>' := by simpa using hany
      rw [if_neg hempty, if_neg hany, forM_eq_ok_iff]
      exact ⟨fun h => ⟨hempty, hall, h⟩, fun h => h.2.2⟩

/-- No text that passes the check is empty. -/
theorem toList_ne_nil_of_check {name : BinaryName} (h : check name.text = .ok ()) :
    name.text.toList ≠ [] := by
  intro hnil
  exact (check_eq_ok_iff.1 h).1 (by simpa using hnil)

/-- A checked binary name contains no delimiter other than slashes. -/
theorem not_mem_of_check {name : BinaryName} (h : check name.text = .ok ()) {c : Char}
    (hc : UnqualifiedName.isDelimiter c = true) (hslash : c ≠ '/') : c ∉ name.text.toList := by
  obtain ⟨-, hbrackets, hsegments⟩ := check_eq_ok_iff.1 h
  intro hmem
  obtain ⟨hopen, hclose⟩ := hbrackets c hmem
  obtain ⟨s, hs, hcs⟩ := mem_segments_of_mem hmem hslash
  have hmem' : c ∈ (String.ofList s).toList := by simpa using hcs
  rcases UnqualifiedName.check_eq_ok_iff.1 (hsegments s hs) with hreserved | ⟨hall, -⟩
  · exact UnqualifiedName.not_mem_of_isReserved hreserved hc hopen hclose hmem'
  · rw [hall c hmem'] at hc
    cases hc

end BinaryName
end JvmMethods
