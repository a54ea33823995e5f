import JvmMethods.Proofs.Signature.ErasedForm

/-!
# Erased forms can be decoded

The erased form of a method writes its types one after the other, without anything between them.
Still, no two erasures have the same form: a base type ends with its letter, an array ends where its
elements do, and a class ends with the first semicolon, provided that class names have none.  Names
need not have passed their check for that.

Main results:

- Definition {lit}`FieldType.decodeErased`: a reader of erased types, which accepts every class
  name.
- Theorem {lit}`FieldType.decodeErased_append`: an erased form is decoded to the erasure of the
  type, and what follows it is left.
- Theorem {lit}`MethodSignature.erasedSignature_eq_iff`: two signatures have the same erased form
  exactly if they have the same erasure.
-/

namespace JvmMethods
namespace FieldType

/-! ## Types -/

/-- Take one erased type, whose class name, if it has one, reaches up to the next semicolon. -/
def decodeErased : List Char → Option (FieldType × List Char)
  | [] => none
  | 'L' :: cs =>
      some (.ofName ⟨String.ofList (cs.takeWhile (· ≠ ';'))⟩, (cs.dropWhile (· ≠ ';')).tail)
  | '[' :: cs => (decodeErased cs).map fun (element, rest) => (.array element, rest)
  | c :: cs => (BaseType.ofLetter? c).map fun b => (.base b, cs)

/-- A class name without semicolons is recovered from its descriptor, whatever follows. -/
theorem decodeErased_descriptorChars {name : BinaryName} (h : ';' ∉ name.text.toList)
    (rest : List Char) :
    decodeErased (name.descriptorChars ++ rest) = some (.ofName name, rest) := by
  have hkeep : ∀ c ∈ name.text.toList, decide (c ≠ ';') = true := by
    intro c hc
    refine decide_eq_true ?_
    rintro rfl
    exact h hc
  rw [BinaryName.descriptorChars, List.cons_append, List.append_assoc, List.singleton_append,
    decodeErased, List.takeWhile_append_of_pos hkeep, List.dropWhile_append_of_pos hkeep]
  simp

/-- An erased form is decoded to the erasure of the type, and what follows it is left. -/
theorem decodeErased_append : ∀ {t : FieldType}, (∀ n ∈ t.erasedNames, ';' ∉ n.text.toList) →
    ∀ rest, decodeErased (t.erasedChars ++ rest) = some (t.erasure, rest)
  | .base b, _, _ => by cases b <;> rfl
  | .object c, h, rest => decodeErased_descriptorChars (h c.name (List.mem_singleton.2 rfl)) rest
  | .array element, h, rest => by
      have helement := decodeErased_append (t := element) h rest
      rw [erasedChars, List.cons_append, decodeErased, helement]
      rfl
  | .typeVariable _ erased, h, rest =>
      decodeErased_descriptorChars (h erased (List.mem_singleton.2 rfl)) rest

variable {t u : FieldType} {ts us : List FieldType} {rest rest' : List Char}

/-- The erased form of a type tells where it ends, and what the erasure of the type is. -/
theorem erasure_eq_of_append_eq (ht : ∀ n ∈ t.erasedNames, ';' ∉ n.text.toList)
    (hu : ∀ n ∈ u.erasedNames, ';' ∉ n.text.toList)
    (h : t.erasedChars ++ rest = u.erasedChars ++ rest') :
    t.erasure = u.erasure ∧ rest = rest' := by
  have hdecode := decodeErased_append ht rest
  rw [h, decodeErased_append hu rest', Option.some_inj, Prod.mk.injEq] at hdecode
  exact ⟨hdecode.1.symm, hdecode.2.symm⟩

/-! ## Lists of types -/

/-- No erased form opens with a character that no type opens with. -/
theorem erasedChars_append_ne (t : FieldType) {c : Char} (hc : Signature.startsType c = false)
    (rest cs : List Char) : t.erasedChars ++ rest ≠ c :: cs := by
  obtain ⟨d, text, htext, hd⟩ := Signature.exists_signatureChars_eq t.erasure
  rw [signatureChars_erasure] at htext
  rw [htext, List.cons_append]
  exact fun h => Signature.ne_of_startsType hd hc (List.cons.inj h).1

/-- The erased forms of some types, up to a parenthesis, tell what the erasures of the types are. -/
theorem map_erasure_eq_of_append_eq (hts : ∀ t ∈ ts, ∀ n ∈ t.erasedNames, ';' ∉ n.text.toList)
    (hus : ∀ u ∈ us, ∀ n ∈ u.erasedNames, ';' ∉ n.text.toList)
    (h : listErasedChars ts ++ ')' :: rest = listErasedChars us ++ ')' :: rest') :
    ts.map erasure = us.map erasure ∧ rest = rest' := by
  induction ts generalizing us with
  | nil =>
      cases us with
      | nil => exact ⟨rfl, (List.cons.inj h).2⟩
      | cons u us =>
          rw [listErasedChars, List.flatMap_nil, listErasedChars, List.flatMap_cons,
            List.append_assoc] at h
          exact absurd h.symm (u.erasedChars_append_ne rfl _ _)
  | cons t ts ih =>
      rw [listErasedChars, List.flatMap_cons, List.append_assoc] at h
      cases us with
      | nil => exact absurd h (t.erasedChars_append_ne rfl _ _)
      | cons u us =>
          rw [listErasedChars, List.flatMap_cons, List.append_assoc] at h
          obtain ⟨ht, hts⟩ := List.forall_mem_cons.1 hts
          obtain ⟨hu, hus⟩ := List.forall_mem_cons.1 hus
          obtain ⟨hfirst, hrest⟩ := erasure_eq_of_append_eq ht hu h
          obtain ⟨hmap, htail⟩ := ih hts hus hrest
          exact ⟨by rw [List.map_cons, List.map_cons, hfirst, hmap], htail⟩

/-- The erased form of a return type tells what its erasure is. -/
theorem map_erasure_eq_of_returnErasedChars_eq {type type' : Option FieldType}
    (ht : ∀ t ∈ type, ∀ n ∈ t.erasedNames, ';' ∉ n.text.toList)
    (ht' : ∀ t ∈ type', ∀ n ∈ t.erasedNames, ';' ∉ n.text.toList)
    (h : returnErasedChars type = returnErasedChars type') :
    type.map erasure = type'.map erasure := by
  have hvoid : ∀ t : FieldType, t.erasedChars ≠ ['V'] := by
    intro t
    have hne := t.erasedChars_append_ne (c := 'V') rfl [] []
    rw [List.append_nil] at hne
    exact hne
  cases type with
  | none =>
      cases type' with
      | none => rfl
      | some u => exact absurd h.symm (hvoid u)
  | some t =>
      cases type' with
      | none => exact absurd h (hvoid t)
      | some u =>
          have happend : t.erasedChars ++ [] = u.erasedChars ++ [] := congrArg (· ++ []) h
          rw [Option.map_some, Option.map_some,
            (erasure_eq_of_append_eq (ht t rfl) (ht' u rfl) happend).1]

end FieldType

/-! ## Method signatures -/

namespace MethodSignature

/-- Two signatures have the same erased form exactly if they have the same erasure. -/
theorem erasedSignature_eq_iff {s d : MethodSignature}
    (hs : ∀ n ∈ s.erasedNames, ';' ∉ n.text.toList)
    (hd : ∀ n ∈ d.erasedNames, ';' ∉ n.text.toList) :
    s.erasedSignature = d.erasedSignature ↔ s.erasure = d.erasure := by
  constructor
  · intro h
    have hchars : s.erasedChars = d.erasedChars := String.ofList_inj.1 h
    rw [forall_erasedNames_iff] at hs hd
    obtain ⟨hparameters, hrest⟩ := FieldType.map_erasure_eq_of_append_eq hs.1 hd.1
      (List.cons.inj hchars).2
    have hreturn := FieldType.map_erasure_eq_of_returnErasedChars_eq hs.2 hd.2 hrest
    rw [erasure, erasure, hparameters, hreturn]
  · intro h
    rw [erasedSignature, ← erasedChars_erasure, h, erasedChars_erasure, erasedSignature]

end MethodSignature
end JvmMethods
