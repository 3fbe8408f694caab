import Mathlib
import ScriptMachine.Compiler
import ScriptMachine.Proofs.Code.Encoding

/-!
# ScriptMachine.Proofs.Compiler.Places — what does not depend on where tokens stand

Tokens tell the compiler what to write and, besides, which lines to note. `s.unplaced` is a state
without the tokens that are left, the lines of the code and the places of the errors. A *silent* step
consumes no token, and what it does shows without them; so when two ways to the same code are
compared it does not matter where their tokens stand.

Being silent is kept by composition, so that a production is silent as soon as its steps are. The
lemmas about single steps go from those on chunks to those that resolve a name, which is the largest
thing that is done without a token. `Silent.congr` is what the comparison of two runs uses: from states
that are the same without places, a silent step leads to such states, and its results are equal.

The lines that are noted are not followed here, and neither are productions that consume tokens: where
their tokens stand does show in the lines, and whether it shows elsewhere is a matter of each of them.
-/

namespace ScriptMachine

/-- The chunk without its lines. -/
def Chunk.unlined (c : Chunk) : Chunk :=
  { c with lines := #[] }

/-- The error without its place. -/
def CompileError.unplaced (e : CompileError) : CompileError :=
  { e with line := 0, place := .unplaced }

namespace Compiler

/-- The function being compiled, without the lines of its code. -/
def FunctionState.unlined (fs : FunctionState) : FunctionState :=
  { fs with chunk := fs.chunk.unlined }

/-- The state without tokens, lines and places of errors. -/
def State.unplaced (s : State) : State :=
  { s with
    rest := [], current := default, previous := default, taken := 0, budget := 0
    function := s.function.unlined
    errors := s.errors.map CompileError.unplaced }

/-- The tokens of a state are those of another one. -/
structure State.SameTokens (s s' : State) : Prop where
  rest : s'.rest = s.rest
  current : s'.current = s.current
  previous : s'.previous = s.previous
  taken : s'.taken = s.taken
  budget : s'.budget = s.budget
  pendingDocs : s'.pendingDocs = s.pendingDocs

/-- **`Silent c`** — `c` consumes no token, and what it does shows without places. -/
structure Silent {α : Type} (c : Compile α) : Prop where
  tokens : ∀ s : State, s.SameTokens (c s).2
  fst : ∀ s : State, (c s).1 = (c s.unplaced).1
  snd : ∀ s : State, (c s).2.unplaced = (c s.unplaced).2.unplaced

variable {α β : Type} {s s' : State}

theorem bind_run (c : Compile α) (f : α → Compile β) (s : State) :
    (c >>= f) s = f (c s).1 (c s).2 :=
  rfl

theorem State.SameTokens.trans {s'' : State} (h : s.SameTokens s') (h' : s'.SameTokens s'') :
    s.SameTokens s'' :=
  ⟨h'.rest.trans h.rest, h'.current.trans h.current, h'.previous.trans h.previous,
    h'.taken.trans h.taken, h'.budget.trans h.budget, h'.pendingDocs.trans h.pendingDocs⟩

theorem State.sameTokens_refl (s : State) : s.SameTokens s :=
  ⟨rfl, rfl, rfl, rfl, rfl, rfl⟩

@[simp]
theorem State.unplaced_unplaced (s : State) : s.unplaced.unplaced = s.unplaced := by
  simp only [State.unplaced, FunctionState.unlined, Chunk.unlined, Array.map_map]
  congr 1

/-- Two states that are the same without places: a silent step does the same in both. -/
theorem Silent.congr {c : Compile α} (hc : Silent c) (h : s.unplaced = s'.unplaced) :
    (c s).1 = (c s').1 ∧ (c s).2.unplaced = (c s').2.unplaced :=
  ⟨(hc.fst s).trans (h ▸ (hc.fst s').symm), (hc.snd s).trans (h ▸ (hc.snd s').symm)⟩

@[grind ←]
theorem Silent.pure (a : α) : Silent (Pure.pure a : Compile α) :=
  ⟨State.sameTokens_refl, fun _ => rfl, fun s => s.unplaced_unplaced.symm⟩

/-- Silent parts make a silent whole. -/
@[grind ←]
theorem Silent.bind {c : Compile α} {f : α → Compile β} (hc : Silent c) (hf : ∀ a, Silent (f a)) :
    Silent (c >>= f) where
  tokens s := (hc.tokens s).trans ((hf _).tokens _)
  fst s := by
    have hsame : (c s).2.unplaced = (c s.unplaced).2.unplaced := hc.snd s
    have hnext := ((hf (c s).1).congr hsame).1
    rw [hc.fst s] at hnext
    show (f (c s).1 (c s).2).1 = _
    rw [hc.fst s]
    exact hnext
  snd s := by
    have hsame : (c s).2.unplaced = (c s.unplaced).2.unplaced := hc.snd s
    have hnext := ((hf (c s).1).congr hsame).2
    rw [hc.fst s] at hnext
    show (f (c s).1 (c s).2).2.unplaced = _
    rw [hc.fst s]
    exact hnext

/-- Reading the state, as far as it shows without places. -/
theorem Silent.get {f : State → Compile β} (heq : ∀ s : State, f s = f s.unplaced)
    (hf : ∀ s, Silent (f s)) : Silent (MonadState.get >>= f) where
  tokens s := (hf s).tokens s
  fst s := by
    show (f s s).1 = (f s.unplaced s.unplaced).1
    rw [← heq s]
    exact (hf s).fst s
  snd s := by
    show (f s s).2.unplaced = (f s.unplaced s.unplaced).2.unplaced
    rw [← heq s]
    exact (hf s).snd s

@[grind ←]
theorem Silent.forM {ι : Type} {g : ι → Compile PUnit} (h : ∀ x, Silent (g x)) (l : List ι) :
    Silent (l.forM g) := by
  induction l with
  | nil => exact .pure _
  | cons x l ih => exact .bind (h x) fun _ => ih

/-- A change that leaves the tokens, and does not depend on places. -/
theorem Silent.modify {g : State → State} (htokens : ∀ s : State, s.SameTokens (g s))
    (hg : ∀ s : State, (g s).unplaced = (g s.unplaced).unplaced) : Silent (modify g) :=
  ⟨htokens, fun _ => rfl, hg⟩

/-! ## Errors and code -/

theorem sameTokens_errorAt (s : State) (t : Token) (message : String) :
    s.SameTokens (s.errorAt t message) := by
  unfold State.errorAt
  split <;> exact ⟨rfl, rfl, rfl, rfl, rfl, rfl⟩

@[grind ←]
theorem error_silent (message : String) : Silent (error message) := by
  refine .modify (fun s => sameTokens_errorAt ..) fun s => ?_
  have hpanicking : s.unplaced.panicking = s.panicking := rfl
  unfold State.errorAt
  rw [hpanicking]
  split
  · simp
  · simp only [State.unplaced, FunctionState.unlined, Chunk.unlined, Array.map_push, Array.map_map]
    rfl

@[grind ←]
theorem demand_silent (p : Prop) [Decidable p] : Silent (demand p) := by
  refine .modify (fun s => ⟨rfl, rfl, rfl, rfl, rfl, rfl⟩) fun s => ?_
  simp only [State.unplaced, FunctionState.unlined, Chunk.unlined, Array.map_map]
  rfl

@[grind ←]
theorem modifyFunction_silent {f : FunctionState → FunctionState}
    (h : ∀ fs : FunctionState, (f fs).unlined = (f fs.unlined).unlined) : Silent (modifyFunction f) := by
  refine .modify (fun s => ⟨rfl, rfl, rfl, rfl, rfl, rfl⟩) fun s => ?_
  simp only [State.unplaced, Array.map_map]
  rw [h s.function]
  rfl

theorem Chunk.unlined_write (c : Chunk) (byte : UInt8) (line : Nat) :
    (c.write byte line).unlined = { c.unlined with code := c.unlined.code.push byte } :=
  rfl

/-- The bytes of an instruction do not depend on the line that it is on. -/
theorem Chunk.unlined_emit {c c' : Chunk} (h : c.unlined = c'.unlined) (i : Instruction)
    (line line' : Nat) : (c.emit i line).unlined = (c'.emit i line').unlined := by
  unfold Chunk.emit
  induction i.encode generalizing c c' with
  | nil => exact h
  | cons b bytes ih =>
    have hwrite : (c.write b line).unlined = (c'.write b line').unlined := by
      rw [Chunk.unlined_write, Chunk.unlined_write, h]
    exact ih hwrite

/-- An instruction is the same whatever line it is from. -/
@[grind ←]
theorem emitAs_silent (meant i : Instruction) : Silent (emitAs meant i) where
  tokens _ := ⟨rfl, rfl, rfl, rfl, rfl, rfl⟩
  fst _ := rfl
  snd s := by
    let noted (c : Chunk) : Chunk := (c.noteScope s.function.locals.size).noteMeant meant
    have hchunk : ((noted s.function.chunk).emit i s.previous.line).unlined =
        ((noted s.unplaced.function.chunk).emit i s.unplaced.previous.line).unlined := by
      have hnoted : (noted s.function.chunk).unlined = (noted s.unplaced.function.chunk).unlined := rfl
      exact Chunk.unlined_emit hnoted i _ _
    show State.unplaced { s with function := { s.function with chunk := _ } } =
      State.unplaced { s.unplaced with function := { s.unplaced.function with chunk := _ } }
    simp only [State.unplaced, FunctionState.unlined] at hchunk ⊢
    rw [hchunk]
    simp only [Array.map_map]
    rfl

@[grind ←]
theorem emitInstruction_silent (i : Instruction) : Silent (emitInstruction i) :=
  emitAs_silent i i

@[grind ←]
theorem emitCall_silent (op : Operation) (count second : Nat) : Silent (emitCall op count second) :=
  emitAs_silent ..

@[grind ←]
theorem emit_silent (op : Operation) (first second : Nat) : Silent (emit op first second) :=
  emitInstruction_silent _

@[grind ←]
theorem makeConstant_silent (v : Value) : Silent (makeConstant v) := by
  refine .get (fun _ => rfl) fun s => .get (fun _ => rfl) fun _ => ?_
  split
  · exact .bind (error_silent _) fun _ => .pure _
  · exact .bind (modifyFunction_silent fun _ => rfl) fun _ => .pure _

@[grind ←]
theorem emitConstant_silent (v : Value) : Silent (emitConstant v) :=
  .bind (makeConstant_silent v) fun _ => emit_silent ..

@[grind ←]
theorem addItem_silent (item : Item) : Silent (addItem item) where
  tokens _ := ⟨rfl, rfl, rfl, rfl, rfl, rfl⟩
  fst _ := rfl
  snd s := by
    show State.unplaced { s with image := _ } = State.unplaced { s.unplaced with image := _ }
    simp only [State.unplaced, FunctionState.unlined, Chunk.unlined, Array.map_map]
    rfl

@[grind ←]
theorem intern_silent (text : String) : Silent (intern text) :=
  addItem_silent _

@[grind ←]
theorem nameConstant_silent (name : String) : Silent (nameConstant name) := by
  refine .bind (intern_silent name) fun r => .get (fun _ => rfl) fun s => ?_
  split
  · exact .pure _
  · exact .bind (makeConstant_silent _) fun _ =>
      .bind (modifyFunction_silent fun _ => rfl) fun _ => .pure _

/-! ## Names -/

theorem modifyFunctionAt_silent {f : FunctionState → FunctionState}
    (h : ∀ fs : FunctionState, (f fs).unlined = (f fs.unlined).unlined) (depth : Nat) :
    Silent (modifyFunctionAt depth f) := by
  cases depth with
  | zero => exact modifyFunction_silent h
  | succ depth =>
    refine .modify (fun s => ⟨rfl, rfl, rfl, rfl, rfl, rfl⟩) fun s => ?_
    simp only [State.unplaced, FunctionState.unlined, Chunk.unlined, Array.map_map]
    rfl

theorem locals_functionAt_unplaced (s : State) (depth : Nat) :
    (s.unplaced.functionAt depth).locals = (s.functionAt depth).locals := by
  cases depth <;> rfl

theorem captures_functionAt_unplaced (s : State) (depth : Nat) :
    (s.unplaced.functionAt depth).captures = (s.functionAt depth).captures := by
  cases depth <;> rfl

@[grind ←]
theorem resolveLocal_silent (depth : Nat) (name : String) : Silent (resolveLocal depth name) := by
  refine .get (fun s => ?_) fun s => .bind (demand_silent _) fun _ => ?_
  · rw [locals_functionAt_unplaced]
    rfl
  · dsimp only
    split
    · exact .pure _
    · have huse : Silent (modifyFunctionAt depth fun fs => { fs with argsUsed := true }) :=
        modifyFunctionAt_silent (fun _ => rfl) depth
      refine .bind (demand_silent _) fun _ => ?_
      grind

@[grind ←]
theorem addCapture_silent (depth : Nat) (capture : Capture) : Silent (addCapture depth capture) := by
  refine .get (fun s => ?_) fun s => .bind (demand_silent _) fun _ => ?_
  · rw [captures_functionAt_unplaced]
    rfl
  · have hpush : Silent (modifyFunctionAt depth fun fs =>
        { fs with captures := fs.captures.push capture }) :=
      modifyFunctionAt_silent (fun _ => rfl) depth
    dsimp only
    grind

/-- By induction on the functions around. -/
@[grind ←]
theorem resolveCapture_silent (name : String) (depth levels : Nat) :
    Silent (resolveCapture name depth levels) := by
  induction levels generalizing depth with
  | zero => exact .pure _
  | succ levels ih =>
    refine .bind (resolveLocal_silent ..) fun found => ?_
    cases found with
    | some slot =>
      exact .bind (modifyFunctionAt_silent (fun _ => rfl) _) fun _ =>
        .bind (addCapture_silent ..) fun _ => .pure _
    | none =>
      refine .bind (ih _) fun found => ?_
      cases found with
      | some index => exact .bind (addCapture_silent ..) fun _ => .pure _
      | none => exact .pure _

@[grind ←]
theorem resolveVariable_silent (name : String) : Silent (resolveVariable name) := by
  refine .bind (resolveLocal_silent ..) fun found => ?_
  cases found with
  | some slot => exact .pure _
  | none =>
    refine .get (fun _ => rfl) fun s => .bind (resolveCapture_silent ..) fun found => ?_
    cases found with
    | some index => exact .pure _
    | none => exact .bind (nameConstant_silent _) fun _ => .pure _

end Compiler

end ScriptMachine
