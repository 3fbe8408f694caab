import ScriptMachine.Proofs.Compiler.Stance

/-!
# ScriptMachine.Proofs.Compiler.Balance — code, scopes and functions in any state

The steps that write code, resolve names and open or close scopes, loops and functions, each with the
stance it needs and the one it leaves. What is opened is on record in the stance, so a step that
closes finds something to close; a jump that is filled in later lies within the code that the stance
tells of.

A text can be wrong anywhere, so nothing here assumes that it is not. What is followed is only how many
scopes, loops, handlers and classes are open, which every production leaves as it finds them. The height
of the stack is not followed: after an error the code is thrown away, and without one the discipline of
code says more.
-/

namespace ScriptMachine.Compiler

variable {α β : Type} {o : Stance} {s s' : State} {n m : Nat} {fs : FunctionState} {p q : Footing}

/-! ## Code -/

theorem Chunk.size_emitted (c : Chunk) (i : Instruction) (line : Nat) :
    (c.emit i line).size = c.size + i.encode.length := by
  rw [Chunk.size, ← Array.length_toList, Chunk.toList_emit, List.length_append, Array.length_toList]
  rfl

/-- A function with more code, and nothing else that matters changed. -/
theorem FunctionState.On.chunk (h : fs.On p) {c : Chunk} (hc : fs.chunk.size ≤ c.size) :
    FunctionState.On { fs with chunk := c } p where
  kind := h.kind
  scopes := h.scopes
  tries := h.tries
  loops := h.loops
  prologue := h.prologue
  size := Nat.le_trans h.size hc
  starts l hl := Nat.le_trans (h.starts l hl) hc
  breaks l hl b hb := Nat.le_trans (h.breaks l hl b hb) hc
  captures := h.captures

theorem FunctionState.On.reached (h : fs.On p) {k : Nat} (hk : k ≤ fs.chunk.size) :
    fs.On { p with size := max p.size k } :=
  { h with size := Nat.max_le.mpr ⟨h.size, hk⟩ }

theorem Stance.At.function (h : o.At s) {fs : FunctionState} (hfs : fs.On p) :
    Stance.At { o with inner := p } { s with function := fs } :=
  { h with inner := hfs }

theorem Stance.At.reached (h : o.At s) {k : Nat} (hk : k ≤ s.function.chunk.size) : (o.reach k).At s :=
  { h with inner := h.inner.reached hk }

theorem Stance.At.of_reach {k : Nat} (h : (o.reach k).At s) : o.At s :=
  { h with inner := { h.inner with size := Nat.le_trans (Nat.le_max_left ..) h.inner.size } }

theorem Stance.At.reach_le {k : Nat} (h : (o.reach k).At s) : k ≤ s.function.chunk.size :=
  Nat.le_trans (Nat.le_max_right ..) h.inner.size

theorem Stance.reach_reach {j k : Nat} : (o.reach j).reach k = o.reach (max j k) := by
  simp only [Stance.reach, Nat.max_assoc]

theorem Stance.At.reach_of_le {j k : Nat} (h : (o.reach j).At s) (hk : k ≤ j) : (o.reach k).At s :=
  h.of_reach.reached (Nat.le_trans hk h.reach_le)

/-- A change to the function being compiled. -/
theorem modifyFunction_does {f : FunctionState → FunctionState} (h : ∀ fs, fs.On p → (f fs).On q)
    (ho : o.inner = p) : Does o.At (modifyFunction f) fun _ => Stance.At { o with inner := q } :=
  .modify fun _ hs => hs.function (h _ (ho ▸ hs.inner))

/-- A change to the function being compiled that leaves how it stands. -/
@[grind ←]
theorem modifyFunction_steady {f : FunctionState → FunctionState} (h : ∀ fs p, fs.On p → (f fs).On p) :
    Steady n (modifyFunction f) :=
  fun _ _ => modifyFunction_does (h · _) rfl

@[grind ←]
theorem modifyChunk_steady {f : Chunk → Chunk} (h : ∀ c : Chunk, c.size ≤ (f c).size) :
    Steady n (modifyChunk f) :=
  modifyFunction_steady fun _ _ hfs => hfs.chunk (h _)

/-- An instruction makes the code longer. -/
theorem emitAs_does {meant i : Instruction} :
    Does o.At (emitAs meant i) fun _ s =>
      ∃ size, o.inner.size + i.encode.length ≤ size ∧ (o.reach size).At s ∧
        s.function.chunk.size = size := by
  refine .get fun s₀ => .modify fun s hs => ?_
  let fs := { s.function with
    chunk := ((s.function.chunk.noteScope s.function.locals.size).noteMeant meant).emit i
      s₀.previous.line }
  have hsize : fs.chunk.size = s.function.chunk.size + i.encode.length := Chunk.size_emitted ..
  have hfs : fs.On o.inner := hs.1.inner.chunk (hsize ▸ Nat.le_add_right ..)
  have hle := hs.1.inner.size
  exact ⟨fs.chunk.size, by omega, (hs.1.function hfs).reached (Nat.le_refl _), rfl⟩

@[grind ←]
theorem emitAs_steady {meant i : Instruction} : Steady n (emitAs meant i) :=
  fun _ _ => emitAs_does.post fun _ _ ⟨_, _, hs, _⟩ => hs.of_reach

@[grind ←]
theorem emitInstruction_steady {i : Instruction} : Steady n (emitInstruction i) :=
  emitAs_steady

@[grind ←]
theorem emitCall_steady {op : Operation} {count second : Nat} : Steady n (emitCall op count second) :=
  emitAs_steady

@[grind ←]
theorem emit_steady {op : Operation} {first second : Nat} : Steady n (emit op first second) :=
  emitInstruction_steady

theorem codeSize_does : Does o.At codeSize fun r => (o.reach r).At :=
  fun _ hs => hs.reached (Nat.le_refl _)

@[grind ←]
theorem emitReturn_steady : Steady n emitReturn := by
  refine .bind .get fun s => ?_
  split <;> exact .bind emit_steady fun _ => emit_steady

@[grind ←]
theorem makeConstant_steady {v : Value} : Steady n (makeConstant v) := by
  refine .bind .get fun s => .bind .get fun _ => ?_
  split
  · exact .bind error_steady fun _ => .pure _
  · exact .bind (modifyChunk_steady fun _ => Nat.le_refl _) fun _ => .pure _

@[grind ←]
theorem emitConstant_steady {v : Value} : Steady n (emitConstant v) :=
  .bind makeConstant_steady fun _ => emit_steady

@[grind ←]
theorem addItem_steady {item : Item} : Steady n (addItem item) :=
  fun _ _ _ hs => { hs with }

@[grind ←]
theorem intern_steady {text : String} : Steady n (intern text) :=
  addItem_steady

@[grind ←]
theorem nameConstant_steady {name : String} : Steady n (nameConstant name) := by
  refine .bind intern_steady fun r => .bind .get fun s => ?_
  split
  · exact .pure _
  · exact .bind makeConstant_steady fun _ =>
      .bind (modifyFunction_steady fun _ _ h => { h with }) fun _ => .pure _

/-! ## Jumps -/

/-- A jump that is to be filled in lies within the code. -/
theorem emitJump_does {op : Operation} (hop : op.shape = .word) :
    Does o.At (emitJump op) fun r => (o.reach (r + 2)).At := by
  have hwidth : (Instruction.make op 0xffff 0).encode.length = 3 := by
    simp [Instruction.encode, Instruction.operandBytes, Instruction.make, hop, Instruction.wordBytes]
  refine .bind emitAs_does fun _ => ?_
  refine .bind (Q := fun size s => (o.reach size).At s ∧ 3 ≤ size) ?_ fun size => ?_
  · rintro s ⟨size, hle, hs, rfl⟩
    exact ⟨hs, Nat.le_trans (hwidth ▸ Nat.le_add_left ..) hle⟩
  · refine .bind (.demand fun s hs => Nat.le_of_succ_le hs.2) fun _ => .pure fun s hs => ?_
    rw [Nat.sub_add_cancel (Nat.le_of_succ_le hs.2)]
    exact hs.1

/-- **`patchJump_does`** — a jump that lies within the code is filled in. -/
theorem patchJump_does {place : Nat} (hplace : place + 2 ≤ o.inner.size) :
    Does o.At (patchJump place) fun _ => o.At := by
  refine .bind (Q := fun size s => o.At s ∧ size = s.function.chunk.size) (.reads fun _ => rfl)
    fun size => .bind (Does.demand ?_) fun _ => ?_
  · rintro s ⟨hs, rfl⟩
    exact Nat.le_trans hplace hs.inner.size
  · have hnote : Steady o.mark.left (modifyChunk (·.noteDistance place (size - place - 2))) :=
      modifyChunk_steady fun _ => Nat.le_refl _
    refine .bind (hnote.keep.pre fun s hs => hs.1) fun _ => .ite (fun _ => error_steady.keep) fun _ => ?_
    exact Steady.keep (modifyChunk_steady fun c => Nat.le_of_eq (Chunk.size_overwrite ..).symm)

theorem emitLoop_does {start : Nat} (hstart : start ≤ o.inner.size) :
    Does o.At (emitLoop start) fun _ => o.At := by
  refine .bind (Q := fun size s => o.At s ∧ size = s.function.chunk.size) (.reads fun _ => rfl)
    fun size => .bind (Does.demand ?_) fun _ => ?_
  · rintro s ⟨hs, rfl⟩
    exact Nat.le_succ_of_le (Nat.le_trans hstart hs.inner.size)
  · exact .when (M := o.At) (fun _ => error_steady.keep.pre fun s hs => hs.1) (fun _ s hs => hs.1)
      emit_steady.keep

/-! ## Scopes -/

theorem beginScope_does : Does o.At beginScope fun _ => o.deeper.At :=
  modifyFunction_does (p := o.inner) (fun _ h => { h with scopes := congrArg (· + 1) h.scopes }) rfl

@[grind ←]
theorem discardLocals_steady {depth : Nat} : Steady n (discardLocals depth) :=
  .bind .get fun _ => .forM (fun _ => emit_steady) _

/-- **`endScope_does`** — where a scope is open it can be closed. -/
theorem endScope_does : Does o.deeper.At endScope fun _ => o.At := by
  refine .get fun s₀ => .bind (Q := fun _ s => o.deeper.At s ∧ s = s₀) (.demand ?_) fun _ => ?_
  · rintro s ⟨hs, rfl⟩
    rw [hs.inner.scopes]
    exact Nat.succ_pos _
  · refine .bind (Q := fun _ => o.At) (.modify ?_) fun _ => ?_
    · rintro s ⟨hs, rfl⟩
      exact { hs with inner := { hs.inner with scopes := by rw [hs.inner.scopes]; rfl } }
    · refine Steady.keep (.bind .get fun s => .bind (.forM (fun _ => emit_steady) _) fun _ => ?_)
      exact modifyFunction_steady fun _ _ h => { h with }

/-- A local is added, or there are more than enough. -/
theorem addLocal_does {name : String} :
    Does o.At (addLocal name) fun _ s => o.At s ∧ 0 < s.function.locals.size := by
  refine .get fun s₀ => .ite (fun hfull => ?_) fun _ => .modify fun s hs => ⟨?_, by simp⟩
  · rintro s ⟨hs, rfl⟩
    obtain ⟨errors, heq⟩ := exists_errorAt s s.previous "Too many local variables in function."
    have hstep : (error "Too many local variables in function." s).2 = { s with errors, panicking := true } :=
      heq
    rw [hstep]
    exact ⟨(hs.alarm errors).of_alarmed, Nat.lt_of_lt_of_le (by decide) hfull⟩
  · exact hs.1.function { hs.1.inner with }

@[grind ←]
theorem addLocal_steady {name : String} : Steady n (addLocal name) :=
  fun _ _ => addLocal_does.post fun _ _ hs => hs.1

@[grind ←]
theorem markReady_steady : Steady n markReady :=
  modifyFunction_steady fun fs p h => by
    split
    · exact h
    · exact { h with }

@[grind ←]
theorem addReadyLocal_steady {name : String} : Steady n (addReadyLocal name) := by
  refine fun o _ => .bind addLocal_does fun _ => ?_
  refine .bind (Q := fun _ s => o.At s ∧ 0 < s.function.locals.size) (fun s hs => ?_) fun _ => ?_
  · refine ⟨markReady_steady.keep s hs.1, ?_⟩
    show 0 < (if s.function.scopeDepth = 0 then s.function else _ : FunctionState).locals.size
    split
    · exact hs.2
    · simpa using hs.2
  · refine .get fun s₀ => .bind (Does.demand ?_) fun _ => .pure fun s hs => hs.1.1
    rintro s ⟨hs, rfl⟩
    exact hs.2

@[grind ←]
theorem declareVariable_steady {name : String} : Steady n (declareVariable name) := by
  unfold declareVariable
  refine .bind .get fun s => ?_
  grind

@[grind ←]
theorem skipTypeAnnotation_steady : Steady n skipTypeAnnotation := by
  unfold skipTypeAnnotation
  grind

@[grind ←]
theorem defineVariable_steady {global : Nat} : Steady n (defineVariable global) := by
  unfold defineVariable
  grind

theorem parseVariable_alerts {message : String} : Alerts n (parseVariable message) := by
  refine fun o ho => .bind (expect_alerts (by decide) o ho) fun _ => ?_
  refine Steady.bind previousText_steady (fun name => ?_) o.alarmed ho
  grind

/-! ## Names -/

theorem Stance.At.length_enclosing (h : o.At s) : s.enclosing.length = o.outer.length :=
  h.outer.length_eq

theorem forall₂_modify {γ δ : Type} {r : γ → δ → Prop} {f : γ → γ} {l : List γ} {l' : List δ}
    (h : List.Forall₂ r l l') (hf : ∀ a b, r a b → r (f a) b) (d : Nat) :
    List.Forall₂ r (l.modify d f) l' := by
  induction h generalizing d with
  | nil => simp
  | cons hab h ih =>
    cases d with
    | zero => exact .cons (hf _ _ hab) h
    | succ d => exact .cons hab (ih d)

/-- A change to one of the functions that leaves how it stands. -/
theorem modifyFunctionAt_steady {f : FunctionState → FunctionState}
    (h : ∀ fs p, fs.On p → (f fs).On p) (d : Nat) : Steady n (modifyFunctionAt d f) := by
  cases d with
  | zero => exact modifyFunction_steady h
  | succ d => exact fun o _ => .modify fun s hs => { hs with outer := forall₂_modify hs.outer h d }

/-- The slot that a name is found at is the slot of a local. -/
theorem lt_of_latestLocal? {locals : Array Local} {name : String} {slot : Nat}
    (h : latestLocal? locals name = some slot) : slot < locals.size := by
  obtain ⟨i, hi, rfl⟩ := Option.map_eq_some_iff.mp h
  have hlt := (List.findIdx?_eq_some_iff_getElem.mp hi).1
  rw [List.length_reverse, Array.length_toList] at hlt
  omega

/-- A name is looked for among the locals of a function that there is. -/
theorem resolveLocal_does {d : Nat} {name : String} (hd : d ≤ o.outer.length) :
    Does o.At (resolveLocal d name) fun _ => o.At := by
  refine .get fun s₀ => .bind (Does.demand ?_) fun _ => Does.pre (P := o.At) ?_ fun s hs => hs.1
  · rintro s ⟨hs, rfl⟩
    exact hs.length_enclosing.symm ▸ hd
  · dsimp only
    split
    · exact .pure fun _ hs => hs
    · rename_i slot hslot
      refine .bind (.demand fun _ _ => lt_of_latestLocal? hslot) fun _ => ?_
      have huse : Steady o.mark.left
          (modifyFunctionAt d fun fs => { fs with argsUsed := true }) := by
        refine modifyFunctionAt_steady (fun _ _ h => ?_) d
        exact { h with }
      refine Steady.keep ?_
      grind

theorem addCapture_does {d : Nat} {capture : Capture} (hd : d ≤ o.outer.length) :
    Does o.At (addCapture d capture) fun _ => o.At := by
  refine .get fun s₀ => .bind (Does.demand ?_) fun _ => Does.pre (P := o.At) ?_ fun s hs => hs.1
  · rintro s ⟨hs, rfl⟩
    exact hs.length_enclosing.symm ▸ hd
  · have hpush : Steady o.mark.left
        (modifyFunctionAt d fun fs => { fs with captures := fs.captures.push capture }) := by
      refine modifyFunctionAt_steady (fun _ _ h => ?_) d
      exact { h with captures := h.captures.trans (by simp) }
    refine Steady.keep ?_
    grind

/-- There are as many functions around as there are levels. By induction on these. -/
theorem resolveCapture_does {name : String} (levels : Nat) :
    ∀ d, d + levels ≤ o.outer.length →
      Does o.At (resolveCapture name d levels) fun _ => o.At := by
  induction levels with
  | zero => exact fun d _ => .pure fun _ hs => hs
  | succ levels ih =>
    intro d hd
    refine .bind (resolveLocal_does (by omega)) fun found => ?_
    cases found with
    | some slot =>
      refine .bind (Steady.keep (modifyFunctionAt_steady (fun _ _ h => ?_) _)) fun _ => ?_
      · exact { h with }
      · exact .bind (addCapture_does (by omega)) fun _ => .pure fun _ hs => hs
    | none =>
      refine .bind (ih (d + 1) (by omega)) fun found => ?_
      cases found with
      | some index => exact .bind (addCapture_does (by omega)) fun _ => .pure fun _ hs => hs
      | none => exact .pure fun _ hs => hs

/-- A name is a local, a capture or the name of a global. -/
@[grind ←]
theorem resolveVariable_steady {name : String} : Steady n (resolveVariable name) := by
  refine fun o ho => .bind (resolveLocal_does (Nat.zero_le _)) fun found => ?_
  cases found with
  | some slot => exact .pure fun _ hs => hs
  | none =>
    refine .get fun s₀ => .bind (Q := fun _ => o.At) ?_ fun found => ?_
    · rintro s ⟨hs, rfl⟩
      refine resolveCapture_does _ 0 ?_ s hs
      rw [hs.length_enclosing]
      omega
    · cases found with
      | some index => exact .pure fun _ hs => hs
      | none => exact Steady.bind nameConstant_steady (fun _ => .pure _) o ho

/-! ## Functions -/

theorem pushFunction_does {kind : FunctionKind} {name : Option String} :
    Does o.At (pushFunction kind name) fun _ => (o.nested kind).At :=
  .modify fun _ hs =>
    { hs with
      inner := ⟨rfl, rfl, rfl, rfl, rfl, Nat.zero_le _, by simp [FunctionState.start],
        by simp [FunctionState.start], List.nil_prefix⟩
      outer := .cons hs.inner hs.outer }

/-- The load of the arguments takes three bytes, from where it is said to stand. -/
theorem emitArgsPrologue_does :
    Does o.At emitArgsPrologue fun _ s => ∃ k, (o.loading k).At s := by
  refine .bind addReadyLocal_steady.keep fun _ => ?_
  refine .bind (Q := fun _ s => ∃ k, Stance.At
    { o with inner := { o.inner with prologue := some k, size := max o.inner.size k } } s) ?_ fun _ => ?_
  · refine .modify fun s hs => ⟨s.function.chunk.size, ?_⟩
    have hfs := hs.inner.reached (Nat.le_refl s.function.chunk.size)
    exact hs.function (p := { o.inner with
      prologue := some s.function.chunk.size, size := max o.inner.size s.function.chunk.size })
      { hfs with prologue := rfl }
  · rintro s ⟨k, hs⟩
    refine Does.bind nameConstant_steady.keep (fun index s hs => ?_) s hs (R := fun _ s =>
      ∃ k, (o.loading k).At s)
    obtain ⟨size, hle, hs, hsize⟩ := emitAs_does (i := .make .getGlobal index 0) s hs
    have hwidth : (Instruction.make .getGlobal index 0).encode.length = 3 := rfl
    refine ⟨k, { hs with inner := { hs.inner with size := ?_ } }⟩
    refine Nat.le_trans ?_ hs.reach_le
    rw [hwidth] at hle
    dsimp only [Stance.loading] at hle ⊢
    omega

/-- **`endFunction_does`** — a function nested in another one is finished, and that one goes on. -/
theorem endFunction_does (hprologue : ∀ k ∈ p.prologue, k + 3 ≤ p.size) :
    Does (Stance.At { o with inner := p, outer := o.inner :: o.outer }) endFunction fun _ => o.At := by
  refine .bind emitReturn_steady.keep fun _ => .get fun s₀ => ?_
  refine .bind (Does.demand ?_) fun _ => .bind (Q := fun _ => o.At) (.modify ?_) fun _ => Steady.keep ?_
  · rintro s ⟨hs, rfl⟩
    refine ⟨fun hnil => ?_, fun k hk => ?_⟩
    · have := hs.outer
      rw [hnil] at this
      cases this
    · rw [hs.inner.prologue] at hk
      exact Nat.le_trans (hprologue k hk) hs.inner.size
  · rintro s ⟨hs, -⟩
    cases henclosing : s.enclosing with
    | nil =>
      have := hs.outer
      rw [henclosing] at this
      cases this
    | cons outer rest =>
      have houter := hs.outer
      rw [henclosing] at houter
      cases houter with
      | cons hinner houter => exact { hs with inner := hinner, outer := houter }
  · have hclosure : ∀ fs p, FunctionState.On fs p →
        FunctionState.On { fs with closures := fs.landmark :: fs.closures } p :=
      fun _ _ h => { h with }
    dsimp only
    split
    · refine .bind (.map _ intern_steady) fun _ => .bind .get fun _ => .bind addItem_steady fun _ => ?_
      exact .bind makeConstant_steady fun _ =>
        .bind (modifyFunction_steady hclosure) fun _ => emitInstruction_steady
    · refine .bind (.pure _) fun _ => .bind .get fun _ => .bind addItem_steady fun _ => ?_
      exact .bind makeConstant_steady fun _ =>
        .bind (modifyFunction_steady hclosure) fun _ => emitInstruction_steady

end ScriptMachine.Compiler
