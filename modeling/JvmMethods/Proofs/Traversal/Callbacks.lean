import JvmMethods.Traversal.Visitor

/-!
# The callbacks of a traversal

A traversal is observed through a visitor that does what a given one does and writes down every
callback it receives.  What it wrote down at the end is a list that the method determines together
with two answers of the visitor: whether it can visit a body, and whether it visits instructions.
Each part of the traversal is a step that appends the callbacks of that part and leaves the given
visitor's state as it would be without the recording.

Main results:

- Definition {lit}`MethodDefinition.callbacks`: the callbacks of a method, in order.
- Theorem {lit}`MethodVisitor.visitNested_recording`: the attributes of code are visited up to a
  line table that cannot be decoded.
- Theorem {lit}`MethodVisitor.visitNested_eq_error_iff`: the failure is that of this line table.
- Theorem {lit}`MethodDefinition.accept_recording`: recording a traversal does not change it.
- Theorem {lit}`MethodDefinition.accept_callbacks`: a traversal makes exactly the callbacks of the
  method, ends once, and fails exactly if a line table stopped it.
-/

namespace JvmMethods

/-! ## Callbacks -/

/-- A callback that a visitor of a method, or the visitor of its instructions, receives. -/
inductive Callback where
  | attribute (a : Attribute)
  | annotations (info : Bytes) (isVisible : Bool)
  | body (maxStack maxLocals : Nat)
  | code (bytes : Bytes)
  | handler (h : ExceptionHandler)
  | codeEnd
  | line (l : SourceLine)
  | methodEnd

namespace Callback

/-- The callback for an attribute of a method. -/
def ofMember : Attribute → Callback
  | .raw name info =>
      if name = visibleAnnotationsName then .annotations info true
      else if name = invisibleAnnotationsName then .annotations info false
      else .attribute (.raw name info)
  | a => .attribute a

/-- The callbacks for the instructions of a body. -/
def ofInstructions (body : CodeBody) : List Callback :=
  .code body.bytes :: (body.handlers.map .handler ++ [.codeEnd])

/-- The callbacks for an attribute of some code: all lines of a line table, or else the attribute
itself. -/
def ofNested (code : Bytes) (a : Attribute) : List Callback :=
  match MethodVisitor.lineTable? a with
  | none => [.attribute a]
  | some info =>
      match (LineTable.decode info code).outcome with
      | .ok lines => lines.map .line
      | .error _ => []

end Callback

/-- Is an attribute of some code anything but a line table that cannot be decoded? -/
def Attribute.isReadable (code : Bytes) (a : Attribute) : Bool :=
  (MethodVisitor.lineTable? a).all fun info => (LineTable.decode info code).outcome.isOk

/-- The callbacks for the attributes of some code, up to a line table that cannot be decoded. -/
def Callback.ofAttributes (code : Bytes) (attributes : List Attribute) : List Callback :=
  (attributes.takeWhile (Attribute.isReadable code)).flatMap (Callback.ofNested code)

/-- The first line table that cannot be decoded fails for this reason. -/
def Attribute.StopsWith (code : Bytes) (attributes : List Attribute) (e : Error) : Prop :=
  ∃ before info after, attributes = before ++ .raw LineTable.attributeName info :: after ∧
    (∀ a ∈ before, a.isReadable code = true) ∧ (LineTable.decode info code).outcome = .error e

/-- The callbacks for a body, where instructions are visited if {lit}`answered` says so. -/
def Callback.ofCode (code : CodeAttribute) (body : CodeBody) (answered : Bool) : List Callback :=
  .body code.maxStack code.maxLocals ::
    ((if answered then Callback.ofInstructions body else []) ++
      Callback.ofAttributes body.bytes code.attributes)

namespace MethodDefinition

/-- The callbacks for the body of a method, which has one only if there is code, and which only a
visitor that can visit bodies receives. -/
def bodyCallbacks (m : MethodDefinition) (wanted answered : Bool) : List Callback :=
  match m.body with
  | none => []
  | some code =>
      match code.body with
      | none => []
      | some body => if wanted then Callback.ofCode code body answered else []

/-- The callbacks of a traversal: attributes, body and end. -/
def callbacks (m : MethodDefinition) (wanted answered : Bool) : List Callback :=
  m.attributes.map Callback.ofMember ++ (m.bodyCallbacks wanted answered ++ [.methodEnd])

end MethodDefinition

/-! ## Line tables that stop a visitor -/

/-- Line tables are the attributes of one name that are kept as bytes. -/
theorem MethodVisitor.lineTable?_eq_some_iff {a : Attribute} {info : Bytes} :
    MethodVisitor.lineTable? a = some info ↔ a = .raw LineTable.attributeName info := by
  cases a with
  | code _ _ => simp [MethodVisitor.lineTable?]
  | exceptions _ => simp [MethodVisitor.lineTable?]
  | raw name info' =>
      by_cases hname : name = LineTable.attributeName
      · simp [MethodVisitor.lineTable?, hname]
      · simp [MethodVisitor.lineTable?, hname]

namespace Attribute

/-- An attribute that is no line table can be read. -/
theorem isReadable_of_lineTable?_eq_none {code : Bytes} {a : Attribute}
    (h : MethodVisitor.lineTable? a = none) : a.isReadable code = true := by
  rw [isReadable, h]
  rfl

/-- A line table can be read exactly if it can be decoded. -/
theorem isReadable_table {code info : Bytes} :
    (raw LineTable.attributeName info).isReadable code =
      (LineTable.decode info code).outcome.isOk := by
  rw [isReadable, MethodVisitor.lineTable?_eq_some_iff.2 rfl]
  rfl

/-- Nothing stops a visitor of no attributes. -/
theorem not_stopsWith_nil {code : Bytes} {e : Error} : ¬ StopsWith code [] e := by
  rintro ⟨before, info, after, hsplit, -⟩
  simp at hsplit

/-- An attribute that can be read stops nothing. -/
theorem stopsWith_cons_of_isReadable {code : Bytes} {a : Attribute} {rest : List Attribute}
    {e : Error} (h : a.isReadable code = true) :
    StopsWith code (a :: rest) e ↔ StopsWith code rest e := by
  constructor
  · rintro ⟨before, info, after, hsplit, hbefore, hinfo⟩
    cases before with
    | nil =>
        cases hsplit
        rw [isReadable_table, hinfo] at h
        cases h
    | cons b before =>
        cases hsplit
        exact ⟨before, info, after, rfl, fun a ha => hbefore a (List.mem_cons_of_mem _ ha), hinfo⟩
  · rintro ⟨before, info, after, rfl, hbefore, hinfo⟩
    exact ⟨a :: before, info, after, rfl, List.forall_mem_cons.2 ⟨h, hbefore⟩, hinfo⟩

/-- A line table that cannot be decoded stops the visitor before anything that follows it. -/
theorem stopsWith_cons_of_error {code info : Bytes} {rest : List Attribute} {e e' : Error}
    (h : (LineTable.decode info code).outcome = .error e') :
    StopsWith code (.raw LineTable.attributeName info :: rest) e ↔ e' = e := by
  constructor
  · rintro ⟨before, info', after, hsplit, hbefore, hinfo⟩
    cases before with
    | nil =>
        cases hsplit
        cases h.symm.trans hinfo
        rfl
    | cons b before =>
        cases hsplit
        have hreadable := hbefore _ List.mem_cons_self
        rw [isReadable_table, h] at hreadable
        cases hreadable
  · rintro rfl
    exact ⟨[], info, rest, rfl, fun _ ha => (nomatch ha), h⟩

end Attribute

/-! ## Recording visitors -/

variable {σ : Type}

/-- A visitor of instructions that writes down its callbacks. -/
def CodeVisitor.recording (c : CodeVisitor σ) : CodeVisitor (σ × List Callback) where
  visitCode bytes := fun (s, log) => (c.visitCode bytes s, log ++ [.code bytes])
  visitHandler h := fun (s, log) => (c.visitHandler h s, log ++ [.handler h])
  visitEnd := fun (s, log) => (c.visitEnd s, log ++ [.codeEnd])

/-- A visitor that writes down its callbacks, and those of the visitor it answers a body with. -/
def MethodVisitor.recording (v : MethodVisitor σ) : MethodVisitor (σ × List Callback) where
  canVisitBody := v.canVisitBody
  visitBody maxStack maxLocals := fun (s, log) =>
    let (s, instructions) := v.visitBody maxStack maxLocals s
    ((s, log ++ [.body maxStack maxLocals]), instructions.map CodeVisitor.recording)
  visitLine l := fun (s, log) => (v.visitLine l s, log ++ [.line l])
  visitAttribute a := fun (s, log) => (v.visitAttribute a s, log ++ [.attribute a])
  visitAnnotations info isVisible := fun (s, log) =>
    (v.visitAnnotations info isVisible s, log ++ [.annotations info isVisible])
  visitEnd := fun (s, log) => (v.visitEnd s, log ++ [.methodEnd])

/-- Does the visitor answer the start of the body with a visitor of its instructions? -/
def MethodDefinition.isAnswered (m : MethodDefinition) (v : MethodVisitor σ) (s : σ) : Bool :=
  m.body.any fun code => (v.visitBody code.maxStack code.maxLocals s).2.isSome

/-! ## Steps -/

/-- A loop whose every round makes one callback makes one for each element, in order. -/
theorem foldl_recording {α : Type} {f : σ → α → σ}
    {g : σ × List Callback → α → σ × List Callback} {emit : α → Callback}
    (hround : ∀ s log a, g (s, log) a = (f s a, log ++ [emit a])) (as : List α) (s : σ)
    (log : List Callback) :
    as.foldl g (s, log) = (as.foldl f s, log ++ as.map emit) := by
  induction as generalizing s log with
  | nil => simp
  | cons a as ih => simp [hround, ih]

/-- Recording a visit of instructions does not change it. -/
theorem CodeVisitor.visit_recording (c : CodeVisitor σ) (body : CodeBody) (s : σ)
    (log : List Callback) :
    c.recording.visit body (s, log) =
      (c.visit body s, log ++ Callback.ofInstructions body) := by
  have hhandlers : ∀ s log,
      body.handlers.foldl (fun p h => c.recording.visitHandler h p) (s, log) =
        (body.handlers.foldl (fun s h => c.visitHandler h s) s,
          log ++ body.handlers.map .handler) :=
    foldl_recording (fun _ _ _ => rfl) body.handlers
  have hcode : c.recording.visitCode body.bytes (s, log) =
      (c.visitCode body.bytes s, log ++ [.code body.bytes]) := rfl
  rw [visit, hcode, hhandlers]
  simp [visit, recording, Callback.ofInstructions]

namespace MethodVisitor

variable (v : MethodVisitor σ)

/-- Recording the visit of an attribute does not change it. -/
theorem visitMember_recording (s : σ) (log : List Callback) (a : Attribute) :
    v.recording.visitMember (s, log) a =
      (v.visitMember s a, log ++ [Callback.ofMember a]) := by
  cases a with
  | code _ _ => rfl
  | exceptions _ => rfl
  | raw name info =>
      by_cases hvisible : name = visibleAnnotationsName
      · simp only [visitMember, Callback.ofMember, if_pos hvisible]
        rfl
      · by_cases hinvisible : name = invisibleAnnotationsName
        · simp only [visitMember, Callback.ofMember, if_neg hvisible, if_pos hinvisible]
          rfl
        · simp only [visitMember, Callback.ofMember, if_neg hvisible, if_neg hinvisible]
          rfl

/-- The attributes of code are visited up to a line table that cannot be decoded. -/
theorem visitNested_recording (code : Bytes) (attributes : List Attribute) (s : σ)
    (log : List Callback) :
    v.recording.visitNested code (s, log) attributes =
      (((v.visitNested code s attributes).1, log ++ Callback.ofAttributes code attributes),
        (v.visitNested code s attributes).2) := by
  induction attributes generalizing s log with
  | nil => simp [visitNested, Callback.ofAttributes]
  | cons a rest ih =>
      cases htable : lineTable? a with
      | none =>
          have hattribute : v.recording.visitAttribute a (s, log) =
              (v.visitAttribute a s, log ++ [.attribute a]) := rfl
          have hcallbacks : Callback.ofAttributes code (a :: rest) =
              .attribute a :: Callback.ofAttributes code rest := by
            simp [Callback.ofAttributes, Attribute.isReadable, Callback.ofNested, htable]
          simp only [visitNested, htable, hattribute, ih, hcallbacks, List.append_assoc,
            List.singleton_append]
      | some info =>
          cases hlines : (LineTable.decode info code).outcome with
          | error e =>
              have hcallbacks : Callback.ofAttributes code (a :: rest) = [] := by
                simp [Callback.ofAttributes, Attribute.isReadable, htable, hlines, Except.isOk,
                  Except.toBool]
              simp only [visitNested, htable, hlines, hcallbacks, List.append_nil]
          | ok lines =>
              have hvisit : ∀ s log, lines.foldl (fun p l => v.recording.visitLine l p) (s, log) =
                  (lines.foldl (fun s l => v.visitLine l s) s, log ++ lines.map .line) :=
                foldl_recording (fun _ _ _ => rfl) lines
              have hcallbacks : Callback.ofAttributes code (a :: rest) =
                  lines.map .line ++ Callback.ofAttributes code rest := by
                simp [Callback.ofAttributes, Attribute.isReadable, Callback.ofNested, htable,
                  hlines, Except.isOk, Except.toBool]
              simp only [visitNested, htable, hlines, hvisit, ih, hcallbacks, List.append_assoc]

/-- Recording the visit of a body does not change it. -/
theorem visitCode_recording (code : CodeAttribute) (body : CodeBody) (s : σ)
    (log : List Callback) :
    v.recording.visitCode code body (s, log) =
      (((v.visitCode code body s).1,
          log ++ Callback.ofCode code body
            (v.visitBody code.maxStack code.maxLocals s).2.isSome),
        (v.visitCode code body s).2) := by
  rcases hanswer : v.visitBody code.maxStack code.maxLocals s with ⟨s', instructions⟩
  have hbody : v.recording.visitBody code.maxStack code.maxLocals (s, log) =
      ((s', log ++ [.body code.maxStack code.maxLocals]),
        instructions.map CodeVisitor.recording) := by
    simp only [recording, hanswer]
  cases instructions with
  | none =>
      simp [visitCode, Callback.ofCode, hbody, hanswer, visitNested_recording]
  | some c =>
      simp [visitCode, Callback.ofCode, hbody, hanswer, visitNested_recording,
        CodeVisitor.visit_recording]

/-- The attributes of code are visited to the end unless a line table stops the visitor, and the
failure is then that of the first one. -/
theorem visitNested_eq_error_iff {code : Bytes} {attributes : List Attribute} {s : σ} {e : Error} :
    (v.visitNested code s attributes).2.outcome = .error e ↔
      Attribute.StopsWith code attributes e := by
  induction attributes generalizing s with
  | nil => simp [visitNested, Attribute.not_stopsWith_nil]
  | cons a rest ih =>
      cases htable : lineTable? a with
      | none =>
          rw [Attribute.stopsWith_cons_of_isReadable
            (Attribute.isReadable_of_lineTable?_eq_none htable)]
          simp only [visitNested, htable, ih]
      | some info =>
          cases lineTable?_eq_some_iff.1 htable
          cases hlines : (LineTable.decode info code).outcome with
          | error e' =>
              rw [Attribute.stopsWith_cons_of_error hlines]
              simp only [visitNested, htable, hlines, Except.error.injEq]
          | ok lines =>
              have hreadable : (Attribute.raw LineTable.attributeName info).isReadable code =
                  true := by
                rw [Attribute.isReadable_table, hlines]
                rfl
              rw [Attribute.stopsWith_cons_of_isReadable hreadable]
              simp only [visitNested, htable, hlines, ih]

end MethodVisitor

/-! ## Runs -/

namespace Callback

/-- No attribute of a method is called as its end. -/
theorem methodEnd_ne_ofMember (a : Attribute) : .methodEnd ≠ ofMember a := by
  unfold ofMember
  split
  · split
    · simp
    · split <;> simp
  · simp

/-- No attribute of some code is called as the end of the method. -/
theorem methodEnd_not_mem_ofNested (code : Bytes) (a : Attribute) :
    .methodEnd ∉ ofNested code a := by
  unfold ofNested
  split
  · simp
  · split <;> simp

/-- No part of a body is called as the end of the method. -/
theorem methodEnd_not_mem_ofCode (code : CodeAttribute) (body : CodeBody) (answered : Bool) :
    .methodEnd ∉ ofCode code body answered := by
  have hattributes : .methodEnd ∉ ofAttributes body.bytes code.attributes := by
    intro hmem
    rcases List.mem_flatMap.1 hmem with ⟨a, -, ha⟩
    exact methodEnd_not_mem_ofNested body.bytes a ha
  cases answered with
  | false => simp [ofCode, hattributes]
  | true => simp [ofCode, ofInstructions, hattributes]

end Callback

namespace MethodDefinition

variable (m : MethodDefinition) (v : MethodVisitor σ) (s : σ)

/-- Nothing is called for the body of a method without code. -/
theorem bodyCallbacks_of_not_hasCode {wanted answered : Bool} (h : m.hasCode = false) :
    m.bodyCallbacks wanted answered = [] := by
  unfold hasCode Code.hasCode at h
  unfold bodyCallbacks
  cases hcode : m.body with
  | none => rfl
  | some code =>
      cases hbody : code.body with
      | none => simp [hbody]
      | some body => simp [hcode, hbody] at h

/-- The body of a method with code is visited by a visitor that wants it. -/
theorem bodyCallbacks_of_body {wanted answered : Bool} {code : CodeAttribute} {body : CodeBody}
    (hcode : m.body = some code) (hbody : code.body = some body) :
    m.bodyCallbacks wanted answered =
      if wanted then Callback.ofCode code body answered else [] := by
  simp [bodyCallbacks, hcode, hbody]

/-- Recording the visit of the body does not change it. -/
theorem acceptBody_recording (log : List Callback) :
    m.acceptBody v.recording (s, log) =
      (((m.acceptBody v s).1, log ++ m.bodyCallbacks v.canVisitBody (m.isAnswered v s)),
        (m.acceptBody v s).2) := by
  have hwanted : v.recording.canVisitBody = v.canVisitBody := rfl
  cases hentry : m.code? with
  | none =>
      simp [acceptBody, hentry, m.bodyCallbacks_of_not_hasCode (code?_eq_none_iff.1 hentry)]
  | some entry =>
      rcases entry with ⟨code, body⟩
      obtain ⟨hcode, hbody⟩ := code?_eq_some_iff.1 hentry
      rw [m.bodyCallbacks_of_body hcode hbody]
      cases hvisit : v.canVisitBody with
      | false => simp [acceptBody, hentry, hwanted, hvisit]
      | true =>
          simp [acceptBody, isAnswered, hentry, hcode, hwanted, hvisit,
            MethodVisitor.visitCode_recording]

/-- The visit of the body fails exactly if there is a body, the visitor wants it, and one of its
line tables stops the visitor. -/
theorem acceptBody_eq_error_iff {e : Error} :
    (m.acceptBody v s).2.outcome = .error e ↔
      v.canVisitBody = true ∧ ∃ code body, m.body = some code ∧ code.body = some body ∧
        Attribute.StopsWith body.bytes code.attributes e := by
  have hvisited : ∀ (code : CodeAttribute) (body : CodeBody) (p : Prop),
      m.body = some code ∧ code.body = some body ∧ p ↔ m.code? = some (code, body) ∧ p := by
    intro code body p
    rw [code?_eq_some_iff, and_assoc]
  simp only [hvisited]
  cases hentry : m.code? with
  | none => simp [acceptBody, hentry]
  | some entry =>
      rcases entry with ⟨code, body⟩
      cases hvisit : v.canVisitBody with
      | false => simp [acceptBody, hentry, hvisit]
      | true =>
          simp only [acceptBody, hentry, hvisit, if_true, MethodVisitor.visitCode,
            MethodVisitor.visitNested_eq_error_iff, true_and]
          constructor
          · intro hstop
            exact ⟨code, body, rfl, hstop⟩
          · rintro ⟨_, _, heq, hstop⟩
            cases heq
            exact hstop

/-- A visitor that writes down its callbacks ends up in the same state, with the same report. -/
theorem accept_recording (log : List Callback) :
    m.accept v.recording (s, log) =
      (((m.accept v s).1,
          log ++ m.callbacks v.canVisitBody
            (m.isAnswered v (m.attributes.foldl v.visitMember s))),
        (m.accept v s).2) := by
  have hmembers : m.attributes.foldl v.recording.visitMember (s, log) =
      (m.attributes.foldl v.visitMember s, log ++ m.attributes.map Callback.ofMember) :=
    foldl_recording v.visitMember_recording m.attributes s log
  have hend : ∀ s log, v.recording.visitEnd (s, log) = (v.visitEnd s, log ++ [.methodEnd]) :=
    fun _ _ => rfl
  unfold accept
  rw [hmembers]
  simp only [acceptBody_recording, hend, callbacks, List.append_assoc]

/-- No callback for the attributes or the body of a method is its end. -/
theorem methodEnd_not_mem (wanted answered : Bool) :
    .methodEnd ∉ m.attributes.map Callback.ofMember ++ m.bodyCallbacks wanted answered := by
  rw [List.mem_append, not_or]
  constructor
  · intro hmem
    rcases List.mem_map.1 hmem with ⟨a, -, ha⟩
    exact Callback.methodEnd_ne_ofMember a ha.symm
  · unfold bodyCallbacks
    split
    · simp
    · split
      · simp
      · split
        · exact Callback.methodEnd_not_mem_ofCode _ _ answered
        · simp

/-- A traversal makes exactly the callbacks of the method, of which the end is the last and the only
one of its kind, and it fails exactly if a line table stopped it. -/
theorem accept_callbacks :
    let callbacks := m.callbacks v.canVisitBody
      (m.isAnswered v (m.attributes.foldl v.visitMember s))
    m.accept v.recording (s, []) = (((m.accept v s).1, callbacks), (m.accept v s).2) ∧
      (∃ before, callbacks = before ++ [.methodEnd] ∧ .methodEnd ∉ before) ∧
      ∀ e, (m.accept v s).2.outcome = .error e ↔
        v.canVisitBody = true ∧ ∃ code body, m.body = some code ∧ code.body = some body ∧
          Attribute.StopsWith body.bytes code.attributes e := by
  intro callbacks
  refine ⟨?_, ?_, ?_⟩
  · rw [accept_recording, List.nil_append]
  · refine ⟨_, (List.append_assoc _ _ _).symm, ?_⟩
    exact methodEnd_not_mem m _ _
  · intro e
    rw [← acceptBody_eq_error_iff]
    rfl

/-- The second line table ends before its first pair, so nothing of it or behind it arrives. -/
example :
    let table : Bytes → Attribute := .raw LineTable.attributeName
    let code : CodeAttribute := ⟨⟨40, 2, 1, some ⟨[0xB1], [⟨0, 1, 0, none⟩]⟩⟩,
      [table [0, 1, 0, 0, 0, 7], table [0, 1], .raw "Notes" []]⟩
    let m : MethodDefinition := ⟨.ofName ⟨"a/B"⟩, ⟨"run", rfl⟩, ⟨1, rfl⟩, [], none, [], [],
      some code, [.raw visibleAnnotationsName [5], .exceptions []]⟩
    m.callbacks true true =
      [.annotations [5] true, .attribute (.exceptions []), .body 2 1, .code [0xB1],
        .handler ⟨0, 1, 0, none⟩, .codeEnd, .line ⟨⟨0, 0xB1⟩, 7⟩, .methodEnd] :=
  rfl

end MethodDefinition
end JvmMethods
