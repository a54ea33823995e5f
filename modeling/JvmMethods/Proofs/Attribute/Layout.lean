import JvmMethods.Proofs.Attribute.Reading

/-!
# Layouts of attributes

A layout is an attribute as it is written in a class file: indices into the constant pool stand for
names and types, and the contents of code and of declared exceptions may be followed by spare bytes
that belong to the attribute.  Every layout has its bytes.  What attribute it denotes depends on the
constant pool.

Main results:

- Definitions {lit}`AttributeLayout.bytes` and {lit}`AttributeLayout.Denotes`: how a layout is
  written, and what it stands for.
- Theorem {lit}`AttributeLayout.listBytes_eq_flatMap`: layouts are written one after the other.
- Theorem {lit}`AttributeLayout.height_le_length`: every level of nesting takes up bytes.
-/

namespace JvmMethods

/-! ## Indices -/

/-- An index names a type, where index zero stands for none. -/
def ConstantPool.NamesType (pool : ConstantPool) (index : Nat) : Option FieldType → Prop
  | none => index = 0
  | some type => index ≠ 0 ∧ (pool.classType index).outcome = .ok type

/-! ## Code -/

/-- An entry of an exception table with the index of its type. -/
structure HandlerLayout where
  start : Nat
  stop : Nat
  handler : Nat
  typeIndex : Nat
deriving DecidableEq, Repr

namespace HandlerLayout

/-- The four numbers of an entry. -/
def bytes (l : HandlerLayout) : Bytes :=
  Bytes.encode2 l.start ++ Bytes.encode2 l.stop ++ Bytes.encode2 l.handler ++
    Bytes.encode2 l.typeIndex

/-- Every number of an entry fits two bytes. -/
def Fits (l : HandlerLayout) : Prop :=
  l.start < 65536 ∧ l.stop < 65536 ∧ l.handler < 65536 ∧ l.typeIndex < 65536

instance (l : HandlerLayout) : Decidable l.Fits :=
  inferInstanceAs (Decidable (_ ∧ _ ∧ _ ∧ _))

/-- The entry that a layout stands for. -/
def Denotes (pool : ConstantPool) (l : HandlerLayout) (h : ExceptionHandler) : Prop :=
  ∃ catchType, pool.NamesType l.typeIndex catchType ∧ h = ⟨l.start, l.stop, l.handler, catchType⟩

end HandlerLayout

/-- The part of code that is its own, without nested attributes. -/
structure CodeLayout where
  maxStack : Nat
  maxLocals : Nat
  bytes : Bytes
  handlers : List HandlerLayout
deriving DecidableEq, Repr

namespace CodeLayout

/-- The limits, the code after its length, and the exception table after its length. -/
def contents (l : CodeLayout) : Bytes :=
  Bytes.encode2 l.maxStack ++ Bytes.encode2 l.maxLocals ++
    (Bytes.encode4 l.bytes.length ++ l.bytes) ++
    Decoder.countedBytes HandlerLayout.bytes l.handlers

/-- Every number and every count fits its field. -/
def Fits (l : CodeLayout) : Prop :=
  l.maxStack < 65536 ∧ l.maxLocals < 65536 ∧ l.bytes.length < 4294967296 ∧
    l.handlers.length < 65536 ∧ ∀ h ∈ l.handlers, h.Fits

instance (l : CodeLayout) : Decidable l.Fits :=
  inferInstanceAs (Decidable (_ ∧ _ ∧ _ ∧ _ ∧ _))

/-- The code of the given size that a layout stands for. -/
def Denotes (pool : ConstantPool) (size : Nat) (l : CodeLayout) (code : Code) : Prop :=
  ∃ handlers, List.Forall₂ (HandlerLayout.Denotes pool) l.handlers handlers ∧
    code = ⟨size, l.maxStack, l.maxLocals, some ⟨l.bytes, handlers⟩⟩

end CodeLayout

/-! ## Attributes -/

/-- An attribute as it is written. -/
inductive AttributeLayout where
  | code (nameIndex : Nat) (body : CodeLayout) (nested : List AttributeLayout) (spare : Bytes)
  | exceptions (nameIndex : Nat) (typeIndices : List Nat) (spare : Bytes)
  | raw (nameIndex : Nat) (info : Bytes)

namespace AttributeLayout

/-- The index of the name. -/
def nameIndex : AttributeLayout → Nat
  | .code nameIndex _ _ _ => nameIndex
  | .exceptions nameIndex _ _ => nameIndex
  | .raw nameIndex _ => nameIndex

/-- The bytes between the contents and the declared end. -/
def spare : AttributeLayout → Bytes
  | .code _ _ _ spare => spare
  | .exceptions _ _ spare => spare
  | .raw _ _ => []

/-- The length of the code itself, which is zero unless the attribute holds code. -/
def codeLength : AttributeLayout → Nat
  | .code _ body _ _ => body.bytes.length
  | _ => 0

mutual

/-- What is read of an attribute after its header. -/
def contents : AttributeLayout → Bytes
  | .code _ body nested _ => body.contents ++ (Bytes.encode2 nested.length ++ listBytes nested)
  | .exceptions _ typeIndices _ => Decoder.countedBytes Bytes.encode2 typeIndices
  | .raw _ info => info

/-- Some attributes as they are written one after the other. -/
def listBytes : List AttributeLayout → Bytes
  | [] => []
  | l :: ls =>
      Bytes.encode2 l.nameIndex ++ Bytes.encode4 (l.contents ++ l.spare).length ++
        (l.contents ++ l.spare) ++ listBytes ls

end

/-- Everything after the header: the contents and the spare bytes. -/
def payload (l : AttributeLayout) : Bytes :=
  l.contents ++ l.spare

/-- An attribute as it is written: the index of its name, the length of its payload, and the
payload. -/
def bytes (l : AttributeLayout) : Bytes :=
  Bytes.encode2 l.nameIndex ++ Bytes.encode4 l.payload.length ++ l.payload

/-- Layouts are written one after the other. -/
theorem listBytes_eq_flatMap (ls : List AttributeLayout) : listBytes ls = ls.flatMap bytes := by
  induction ls with
  | nil => rfl
  | cons l ls ih => rw [listBytes, ih, List.flatMap_cons, bytes, payload]

/-- The contents of code are those of the code itself, with the nested attributes after their
number. -/
theorem contents_code (nameIndex : Nat) (body : CodeLayout) (nested : List AttributeLayout)
    (spare : Bytes) :
    (AttributeLayout.code nameIndex body nested spare).contents =
      body.contents ++ Decoder.countedBytes bytes nested := by
  rw [contents, Decoder.countedBytes, listBytes_eq_flatMap]

/-- A header takes up six bytes. -/
@[simp]
theorem length_bytes (l : AttributeLayout) : l.bytes.length = 6 + l.payload.length := by
  rw [bytes, List.length_append, List.length_append, Bytes.length_encode2, Bytes.length_encode4]

/-! ## All levels of a layout -/

mutual

/-- The layout with all that are nested in it, at any depth. -/
def nodes : AttributeLayout → List AttributeLayout
  | .code nameIndex body nested spare => .code nameIndex body nested spare :: listNodes nested
  | .exceptions nameIndex typeIndices spare => [.exceptions nameIndex typeIndices spare]
  | .raw nameIndex info => [.raw nameIndex info]

/-- The layouts with all that are nested in them, at any depth. -/
def listNodes : List AttributeLayout → List AttributeLayout
  | [] => []
  | l :: ls => l.nodes ++ listNodes ls

end

/-- A layout is among those that are nested in it. -/
theorem mem_nodes_self (l : AttributeLayout) : l ∈ l.nodes := by
  cases l <;> simp [nodes]

mutual

/-- How deep attributes are nested. -/
def height : AttributeLayout → Nat
  | .code _ _ nested _ => listHeight nested + 1
  | .exceptions _ _ _ => 1
  | .raw _ _ => 1

/-- How deep attributes are nested in the deepest of some layouts. -/
def listHeight : List AttributeLayout → Nat
  | [] => 0
  | l :: ls => max l.height (listHeight ls)

end

/-- Even a layout without nested ones has some height. -/
theorem height_pos (l : AttributeLayout) : 0 < l.height := by
  cases l <;> simp [height]

/-- A bound on the nesting of some layouts is one for each of them. -/
theorem listHeight_le_iff {ls : List AttributeLayout} {depth : Nat} :
    listHeight ls ≤ depth ↔ ∀ l ∈ ls, l.height ≤ depth := by
  induction ls with
  | nil => simp [listHeight]
  | cons l ls ih => rw [listHeight, Nat.max_le, ih, List.forall_mem_cons]

mutual

/-- Every level of nesting takes up bytes. -/
theorem height_le_length : ∀ l : AttributeLayout, l.height ≤ l.bytes.length
  | .code nameIndex body nested spare => by
      have hnested := listHeight_le_length nested
      rw [length_bytes, payload, List.length_append, contents, List.length_append,
        List.length_append, height]
      omega
  | .exceptions _ _ _ => by
      rw [length_bytes, height]
      omega
  | .raw _ _ => by
      rw [length_bytes, height]
      omega

/-- Attributes are not nested deeper than they have bytes, which bounds the depth of decoding. -/
theorem listHeight_le_length : ∀ ls : List AttributeLayout, listHeight ls ≤ (listBytes ls).length
  | [] => by simp [listHeight]
  | l :: ls => by
      have hl := height_le_length l
      have hls := listHeight_le_length ls
      rw [listBytes_eq_flatMap, List.flatMap_cons, List.length_append, ← listBytes_eq_flatMap,
        listHeight]
      omega

end

/-! ## Meaning -/

/-- The attribute that a layout stands for.  The size of code is the length of its payload. -/
inductive Denotes (pool : ConstantPool) : AttributeLayout → Attribute → Prop
  | code {nameIndex : Nat} {body : CodeLayout} {nested : List AttributeLayout} {spare : Bytes}
      {code : Code} {attributes : List Attribute}
      (hname : pool.utf8 nameIndex = .ok Attribute.codeName)
      (hbody : body.Denotes pool
        (AttributeLayout.code nameIndex body nested spare).payload.length code)
      (hnested : List.Forall₂ (Denotes pool) nested attributes) :
      Denotes pool (.code nameIndex body nested spare) (.code code attributes)
  | exceptions {nameIndex : Nat} {typeIndices : List Nat} {spare : Bytes} {types : List FieldType}
      (hname : pool.utf8 nameIndex = .ok Attribute.exceptionsName)
      (htypes : List.Forall₂ (fun i t => pool.NamesType i (some t)) typeIndices types) :
      Denotes pool (.exceptions nameIndex typeIndices spare) (.exceptions types)
  | raw {nameIndex : Nat} {info : Bytes} {name : String}
      (hname : pool.utf8 nameIndex = .ok name)
      (hcode : name ≠ Attribute.codeName) (hexceptions : name ≠ Attribute.exceptionsName) :
      Denotes pool (.raw nameIndex info) (.raw name info)

/-- The numbers and counts in the contents fit their fields. -/
def ContentsFit : AttributeLayout → Prop
  | .code _ body nested _ => body.Fits ∧ nested.length < 65536
  | .exceptions _ typeIndices _ => typeIndices.length < 65536 ∧ ∀ i ∈ typeIndices, i < 65536
  | .raw _ _ => True

/-- The index of the name and the length of the payload fit their fields, and so do the
contents. -/
def Fits (l : AttributeLayout) : Prop :=
  l.nameIndex < 65536 ∧ l.payload.length < 4294967296 ∧ l.ContentsFit

instance : DecidablePred ContentsFit
  | .code _ _ _ _ => inferInstanceAs (Decidable (_ ∧ _))
  | .exceptions _ _ _ => inferInstanceAs (Decidable (_ ∧ _))
  | .raw _ _ => inferInstanceAs (Decidable True)

instance : DecidablePred Fits :=
  fun _ => inferInstanceAs (Decidable (_ ∧ _ ∧ _))

/-- A policy limits the length of code, and may forbid spare bytes. -/
def Permitted (policy : DecodingPolicy) (l : AttributeLayout) : Prop :=
  l.codeLength ≤ policy.maxCodeLength ∧ (policy.strictLengths = true → l.spare = [])

instance (policy : DecodingPolicy) : DecidablePred (Permitted policy) :=
  fun _ => inferInstanceAs (Decidable (_ ∧ _))

end AttributeLayout
end JvmMethods
