import ScriptMachine.Proofs.Compiler.Grounding
import ScriptMachine.Proofs.Compiler.Precedence

/-!
# ScriptMachine.Proofs.Compiler.Loads — variables that the compiler loads of itself

Some variables are loaded though no token of the text stands for them: those in a string literal, the type
that a member is added to, a superclass, the receiver and the superclass of an access through `super`, the
function of a call that is run as a task. The compiler loads them as it loads a variable of the text that
may not be assigned.

Such a load is one instruction and consumes nothing, unless the next token is a step: that is taken for a
step of the variable, wherever it belongs. So what a string literal is compiled to depends on the literal
and on the names in scope alone, as long as no step follows.

That a step is taken for one of the variable is a defect: behind a literal such as `'${x}'` a step
belongs to nothing that could be assigned. `loads_unless_stepped` states exactly when it shows, as an
equivalence, and its instance compares two tokens behind one literal that do not show it. What happens
after a step is not followed any further: that it is consumed already makes the load another one.
-/

namespace ScriptMachine.Compiler

variable {s s' : State} {self : Recur} {name : String} {α β : Type}

/-- The next token is a step. -/
def State.FacesStep (s : State) : Prop :=
  s.current.kind = .inc ∨ s.current.kind = .dec

/-- The instructions that read a variable. -/
def loadOperations : List Operation :=
  [.getLocal, .getUpvalue, .getGlobal]

/-- **`s.Loads s'`** — from `s` to `s'` no token is consumed, and the code is longer by one instruction
that reads a variable. -/
def State.Loads (s s' : State) : Prop :=
  s.SameTokens s' ∧ ∃ op operand, op ∈ loadOperations ∧
    s'.function.chunk.code.toList =
      s.function.chunk.code.toList ++ (Instruction.make op operand 0).encode

/-- Each of the instructions that read a variable has one operand of two bytes. -/
theorem length_encode_load {op : Operation} {operand : Nat} (h : op ∈ loadOperations) :
    (Instruction.make op operand 0).encode.length = 3 := by
  unfold loadOperations at h
  simp only [List.mem_cons, List.not_mem_nil, or_false] at h
  rcases h with rfl | rfl | rfl <;> rfl

theorem State.FacesStep.same (h : s.SameTokens s') : s'.FacesStep ↔ s.FacesStep := by
  unfold FacesStep
  rw [h.current]

/-! ## One variable -/

/-- A variable is read by one of three operations. -/
theorem resolveVariable_get (name : String) (s : State) :
    (resolveVariable name s).1.get ∈ loadOperations := by
  rcases resolveVariable_isVariable name s with ⟨hget, -⟩ | ⟨hget, -⟩ | ⟨hget, -⟩ <;> rw [hget] <;>
    decide

/-- The load of a variable. -/
theorem loads_emit (name : String) (s : State) : s.Loads ((Leaf.name name).emit s).2 :=
  ⟨(Leaf.emit_silent _).tokens s, _, _, resolveVariable_get name s, Leaf.code_emit (.name name) s⟩

/-- A load takes three bytes. -/
theorem State.Loads.length (h : s.Loads s') :
    s'.function.chunk.code.toList.length = s.function.chunk.code.toList.length + 3 := by
  obtain ⟨-, op, operand, hop, hcode⟩ := h
  rw [hcode, List.length_append, length_encode_load hop]

/-- Steps a variable, and leaves the value it had before. -/
def stepVariable (a : Access) (operations : Operation × Operation) : Compile Unit := do
  advance
  emit a.get a.operand
  emit operations.1
  emit a.set a.operand
  emitUndo operations.2

theorem checkStep_eq (s : State) :
    checkStep s = (s.current.kind == .inc || s.current.kind == .dec, s) :=
  rfl

/-- A step that is next is seen. -/
theorem State.FacesStep.checkStep_run (h : s.FacesStep) : checkStep s = (true, s) := by
  rw [checkStep_eq]
  rcases h with h | h <;> rw [h] <;> rfl

/-- No step is seen where none is next. -/
theorem checkStep_run_of_not (h : ¬ s.FacesStep) : checkStep s = (false, s) := by
  obtain ⟨hinc, hdec⟩ := not_or.mp h
  rw [checkStep_eq, beq_false_of_ne hinc, beq_false_of_ne hdec]
  rfl

/-- Resolving a name does not consume a token. -/
theorem facesStep_resolveVariable (name : String) (s : State) :
    (resolveVariable name s).2.FacesStep ↔ s.FacesStep :=
  State.FacesStep.same ((resolveVariable_silent name).tokens s)

/-- A variable that may not be assigned is loaded, or stepped if a step is next. -/
theorem namedVariable_eq (self : Recur) (name : String) :
    namedVariable self name false = (do
      let a ← resolveVariable name
      if ← checkStep then
        let operations := stepOperations (← currentKind)
        stepVariable a operations
      else emit a.get a.operand : Compile Unit) := by
  funext s
  rfl

/-- Without a step behind it, the variable is loaded. -/
theorem namedVariable_of_not_facesStep (h : ¬ s.FacesStep) (self : Recur) (name : String) :
    namedVariable self name false s = (Leaf.name name).emit s := by
  have hnext : ¬ (resolveVariable name s).2.FacesStep := (facesStep_resolveVariable name s).not.mpr h
  rw [namedVariable_eq, bind_run, bind_run, checkStep_run_of_not hnext]
  rfl

/-- With one, it is stepped. -/
theorem namedVariable_of_facesStep (h : s.FacesStep) (self : Recur) (name : String) :
    ∃ operations, namedVariable self name false s =
      stepVariable (resolveVariable name s).1 operations (resolveVariable name s).2 := by
  have hnext : (resolveVariable name s).2.FacesStep := (facesStep_resolveVariable name s).mpr h
  refine ⟨stepOperations (resolveVariable name s).2.current.kind, ?_⟩
  rw [namedVariable_eq, bind_run, bind_run, hnext.checkStep_run]
  rfl

theorem code_advance (s : State) : (advance s).2.function = s.function :=
  (advanceIn_same s.rest { s with previous := s.current }).2.2.1

/-- Undoing a step on the value takes two instructions. -/
theorem code_emitUndo (undo : Operation) (s : State) :
    ∃ one, (emitUndo undo s).2.function.chunk.code.toList =
      s.function.chunk.code.toList ++ ((Instruction.make .constant one 0).encode ++
        (Instruction.make undo 0 0).encode) := by
  refine ⟨(makeConstant (.number 1) s).1, ?_⟩
  unfold emitUndo
  rw [bind_run, code_emitted, code_emitConstant, List.append_assoc]

/-- **`code_stepVariable`** — a step reads the variable, changes it and writes it. -/
theorem code_stepVariable (a : Access) (operations : Operation × Operation) (s : State) :
    ∃ one, (stepVariable a operations s).2.function.chunk.code.toList =
      s.function.chunk.code.toList ++ [.make a.get a.operand 0, .make operations.1 0 0,
        .make a.set a.operand 0, .make .constant one 0, .make operations.2 0 0].flatMap
          Instruction.encode := by
  unfold stepVariable
  rw [bind_run, bind_run, bind_run, bind_run]
  obtain ⟨one, hundo⟩ := code_emitUndo operations.2
    (emit a.set a.operand 0 (emit operations.1 0 0 (emit a.get a.operand 0 (advance s).2).2).2).2
  refine ⟨one, hundo.trans ?_⟩
  rw [code_emitted, code_emitted, code_emitted, code_advance]
  simp only [List.flatMap_cons, List.flatMap_nil, List.append_nil, List.append_assoc]

/-- **`namedVariable_loads_iff`** — a variable that may not be assigned is loaded if and only if no step
follows. -/
theorem namedVariable_loads_iff (self : Recur) (name : String) (s : State) :
    s.Loads (namedVariable self name false s).2 ↔ ¬ s.FacesStep := by
  constructor
  · intro hloads hstep
    obtain ⟨operations, hrun⟩ := namedVariable_of_facesStep hstep self name
    obtain ⟨one, hcode⟩ := code_stepVariable (resolveVariable name s).1 operations (resolveVariable name s).2
    have hkept : (resolveVariable name s).2.function.chunk.code = s.function.chunk.code :=
      ((resolveVariable_adding name s).functions 0).code
    have hlength := hloads.length
    rw [hrun, hcode, hkept] at hlength
    simp only [List.length_append, List.flatMap_cons, length_encode_load (resolveVariable_get name s)]
      at hlength
    -- what the variable is written back by is not nothing
    have hset : 0 < (Instruction.make (resolveVariable name s).1.set
        (resolveVariable name s).1.operand 0).encode.length := Nat.succ_pos _
    omega
  · intro hstep
    rw [namedVariable_of_not_facesStep hstep]
    exact loads_emit name s

/-! ## String literals -/

/-- Writes one part of a string literal, loading what it names. -/
def loadPart : StringPart → Compile Unit
  | .text content => do emitConstant (.obj (← intern content))
  | .variable name => (Leaf.name name).emit

/-- The parts of a string literal, and what joins them. -/
def joinParts (write : StringPart → Compile Unit) (parts : List StringPart) (text : List Char)
    (fault : Option String) : Compile Unit := do
  if parts.isEmpty && fault.isNone then
    emitConstant (.obj (← intern (String.ofList text.reverse)))
  else
    parts.reverse.forM write
    match fault with
    | some message => error message
    | none =>
      unless text.isEmpty do
        write (.text (String.ofList text.reverse))
      let count := (closeText parts text).length
      if 0xffff < count then error "Too many interpolations in string."
      else emit .concat count

/-- A string literal of this text whose parts are written by `write`. -/
def literalOf (write : StringPart → Compile Unit) (literal : List Char) : Compile Unit := do
  demand (isQuoted literal)
  let (parts, text, fault) := stringPartsFrom [] [] .plain (literal.drop 1).dropLast
  joinParts write parts text fault

theorem string_run (self : Recur) (s : State) :
    string self s = literalOf (emitPart self) s.previous.text.toList s :=
  rfl

/-! ### What follows a literal -/

/-- **`Unstepped c c'`** — as long as no step is next, `c` does what `c'` does, which consumes nothing. -/
structure Unstepped (c c' : Compile α) : Prop where
  silent : Silent c'
  run : ∀ s : State, ¬ s.FacesStep → c s = c' s

theorem Unstepped.refl {c : Compile α} (h : Silent c) : Unstepped c c :=
  ⟨h, fun _ _ => rfl⟩

/-- The first part consumes nothing, so that no step is next for the second one either. -/
theorem Unstepped.bind {c c' : Compile α} {f f' : α → Compile β} (hc : Unstepped c c')
    (hf : ∀ a, Unstepped (f a) (f' a)) : Unstepped (c >>= f) (c' >>= f') where
  silent := hc.silent.bind fun a => (hf a).silent
  run s hs := by
    have hnext : ¬ (c' s).2.FacesStep := (State.FacesStep.same (hc.silent.tokens s)).not.mpr hs
    rw [bind_run, bind_run, hc.run s hs]
    exact (hf _).run _ hnext

theorem Unstepped.forM {ι : Type} {f f' : ι → Compile PUnit} (h : ∀ i, Unstepped (f i) (f' i))
    (l : List ι) : Unstepped (l.forM f) (l.forM f') := by
  induction l with
  | nil => exact .refl (.pure _)
  | cons i l ih => exact .bind (h i) fun _ => ih

/-- A piece of a literal is its load, unless a step is next. -/
theorem unstepped_emitPart (self : Recur) (part : StringPart) :
    Unstepped (emitPart self part) (loadPart part) := by
  cases part with
  | text content => exact .refl (.bind (intern_silent content) fun _ => emitConstant_silent _)
  | «variable» name =>
    exact ⟨(Leaf.name name).emit_silent, fun s hs => namedVariable_of_not_facesStep hs self name⟩

/-- And so are all of them. By induction on the pieces. -/
theorem unstepped_joinParts (self : Recur) (parts : List StringPart) (text : List Char)
    (fault : Option String) :
    Unstepped (joinParts (emitPart self) parts text fault) (joinParts loadPart parts text fault) := by
  unfold joinParts
  split
  · exact .refl (.bind (intern_silent _) fun _ => emitConstant_silent _)
  · refine .bind (.forM (unstepped_emitPart self) _) fun _ => ?_
    cases fault with
    | some message => exact .refl (error_silent message)
    | none =>
      have hconcat : Silent (if 0xffff < (closeText parts text).length
          then error "Too many interpolations in string."
          else emit .concat (closeText parts text).length) := by
        split
        · exact error_silent _
        · exact emit_silent ..
      dsimp only
      split
      · exact .refl hconcat
      · exact .bind (unstepped_emitPart self _) fun _ => .refl hconcat

/-- The parts of a literal are written without a look at what follows it. -/
theorem unstepped_literalOf (self : Recur) (literal : List Char) :
    Unstepped (literalOf (emitPart self) literal) (literalOf loadPart literal) :=
  .bind (.refl (demand_silent _)) fun _ => unstepped_joinParts ..

/-! ### The code of a literal -/

/-- The instructions that a string literal is compiled to. -/
def literalOperations : List Operation :=
  [.constant, .concat] ++ loadOperations

theorem constant_mem : Operation.constant ∈ literalOperations := by decide

theorem concat_mem : Operation.concat ∈ literalOperations := by decide

/-- **`Appends c`** — `c` adds instructions to the code, and each is one that a literal may have. -/
def Appends (c : Compile α) : Prop :=
  ∀ s : State, ∃ is : List Instruction, (∀ i ∈ is, i.op ∈ literalOperations) ∧
    (c s).2.function.chunk.code.toList =
      s.function.chunk.code.toList ++ is.flatMap Instruction.encode

theorem Appends.of_same {c : Compile α}
    (h : ∀ s : State, (c s).2.function.chunk.code = s.function.chunk.code) : Appends c :=
  fun s => ⟨[], by simp, by rw [h, List.flatMap_nil, List.append_nil]⟩

/-- What two steps add is what the first adds and then the second. -/
theorem Appends.bind {c : Compile α} {f : α → Compile β} (hc : Appends c) (hf : ∀ a, Appends (f a)) :
    Appends (c >>= f) := by
  intro s
  obtain ⟨is, his, hcode⟩ := hc s
  obtain ⟨js, hjs, hcode'⟩ := hf (c s).1 (c s).2
  refine ⟨is ++ js, fun i hi => (List.mem_append.mp hi).elim (his i) (hjs i), ?_⟩
  rw [bind_run, hcode', hcode, List.flatMap_append, List.append_assoc]

theorem Appends.forM {ι : Type} {f : ι → Compile PUnit} (h : ∀ i, Appends (f i)) (l : List ι) :
    Appends (l.forM f) := by
  induction l with
  | nil => exact .of_same fun _ => rfl
  | cons i l ih => exact .bind (h i) fun _ => ih

/-- One instruction. -/
theorem Appends.one {c : Compile α} {i : State → Instruction} (hop : ∀ s, (i s).op ∈ literalOperations)
    (hcode : ∀ s : State, (c s).2.function.chunk.code.toList =
      s.function.chunk.code.toList ++ (i s).encode) : Appends c := by
  intro s
  refine ⟨[i s], ?_, ?_⟩
  · rintro j hj
    rw [List.mem_singleton.mp hj]
    exact hop s
  · rw [hcode, List.flatMap_singleton]

theorem appends_error (message : String) : Appends (error message) :=
  .of_same fun s => congrArg (·.chunk.code) (errorAt_same s _ message).2.2.1

theorem appends_text (content : String) : Appends (do emitConstant (.obj (← intern content))) :=
  .bind (.of_same fun _ => rfl) fun r =>
    .one (i := fun s => .make .constant (makeConstant (.obj r) s).1 0) (fun _ => constant_mem)
      (code_emitConstant _)

/-- A piece is a constant or the load of a variable. -/
theorem appends_loadPart (part : StringPart) : Appends (loadPart part) := by
  cases part with
  | text content => exact appends_text content
  | «variable» name =>
    exact .one (i := (Leaf.name name).instruction)
      (fun s => List.mem_append_right _ (resolveVariable_get name s)) (Leaf.code_emit _)

/-- The pieces and what joins them. By induction on the pieces. -/
theorem appends_joinParts (parts : List StringPart) (text : List Char) (fault : Option String) :
    Appends (joinParts loadPart parts text fault) := by
  unfold joinParts
  split
  · exact appends_text _
  · refine .bind (.forM appends_loadPart _) fun _ => ?_
    cases fault with
    | some message => exact appends_error message
    | none =>
      have hconcat : Appends (if 0xffff < (closeText parts text).length
          then error "Too many interpolations in string."
          else emit .concat (closeText parts text).length) := by
        split
        · exact appends_error _
        · exact .one (i := fun _ => .make .concat (closeText parts text).length 0) (fun _ => concat_mem)
            (code_emitted _ _ _)
      dsimp only
      split
      · exact hconcat
      · exact .bind (appends_loadPart _) fun _ => hconcat

theorem appends_literalOf (literal : List Char) : Appends (literalOf loadPart literal) :=
  .bind (.of_same fun _ => rfl) fun _ => appends_joinParts _ _ _

/-! ## Loads are loads unless a step follows -/

/-- **`loads_unless_stepped`** — what is loaded without a token that stands for it is loaded by one
instruction, and no token is consumed, if and only if no step follows. As long as none does, a string
literal consumes nothing either, is compiled to constants, loads and a concatenation, and to the same ones
whatever comes next and whatever reads it. -/
theorem loads_unless_stepped (self : Recur) (s : State) :
    (∀ name, s.Loads (namedVariable self name false s).2 ↔ ¬ s.FacesStep) ∧
      (¬ s.FacesStep →
        s.SameTokens (string self s).2 ∧
        (∃ is : List Instruction, (∀ i ∈ is, i.op ∈ literalOperations) ∧
          (string self s).2.function.chunk.code.toList =
            s.function.chunk.code.toList ++ is.flatMap Instruction.encode) ∧
        ∀ (self' : Recur) (s' : State), ¬ s'.FacesStep → s'.previous.text = s.previous.text →
          s'.unplaced = s.unplaced → (string self' s').2.unplaced = (string self s).2.unplaced) := by
  refine ⟨fun name => namedVariable_loads_iff self name s, fun hstep => ?_⟩
  have hliteral := unstepped_literalOf self s.previous.text.toList
  have hrun : string self s = literalOf loadPart s.previous.text.toList s :=
    (string_run self s).trans (hliteral.run s hstep)
  refine ⟨hrun ▸ hliteral.silent.tokens s, hrun ▸ appends_literalOf _ s, ?_⟩
  intro self' s' hstep' htext hsame
  have hrun' : string self' s' = literalOf loadPart s.previous.text.toList s' := by
    rw [string_run, htext]
    exact (unstepped_literalOf self' _).run s' hstep'
  rw [hrun, hrun']
  exact (hliteral.silent.congr hsame).2

/-- A state in which a literal that loads a variable has just been read, and this comes next. -/
def State.afterPiece (next : TokenKind) : State :=
  { State.start "" "main" with
    previous := ⟨.string, "'$\x7bx\x7d'", 0, 6, 1⟩
    current := ⟨next, "", 7, 7, 1⟩ }

theorem loads_unless_stepped_afterPiece :
    (State.afterPiece .endOfText).Loads
        (namedVariable (goal 0) "x" false (State.afterPiece .endOfText)).2 ∧
      (string (goal 0) (State.afterPiece .identifier)).2.unplaced =
        (string (goal 0) (State.afterPiece .endOfText)).2.unplaced := by
  have hend : ¬ (State.afterPiece .endOfText).FacesStep := by simp [State.afterPiece, State.FacesStep]
  have hname : ¬ (State.afterPiece .identifier).FacesStep := by simp [State.afterPiece, State.FacesStep]
  obtain ⟨hloads, hliteral⟩ := loads_unless_stepped (goal 0) (State.afterPiece .endOfText)
  exact ⟨(hloads "x").mpr hend, (hliteral hend).2.2 (goal 0) _ hname rfl rfl⟩

end ScriptMachine.Compiler
