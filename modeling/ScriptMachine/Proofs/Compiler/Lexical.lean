import ScriptMachine.Proofs.Compiler.Resolution
import ScriptMachine.Proofs.Compiler.Totality

/-!
# ScriptMachine.Proofs.Compiler.Lexical — captures from their first use to the closure

While a function is being compiled its captures only grow, whatever its text is: those that are there
keep their indices and what they lead to. At its end the function is closed over exactly these
captures, in their order, by an instruction of the function around it.

`captures_goal` uses what is known of every production without a look at any of them: a stance may ask
for the first captures of each function, and all goals keep to every stance. So with the captures of the
moment in the stance, they are still there in the end.

`endFunction_closes` reads the end of a function step by step, up to the instruction and the constant. The
machine's side, how that instruction makes a closure, is in the module about closures.
-/

namespace ScriptMachine.Compiler

variable {o : Stance} {s s' : State} {d k e slot depth : Nat}

/-- The stance with the captures that the functions have. -/
def Stance.capturing (o : Stance) (s : State) : Stance :=
  { o with
    inner := { o.inner with captures := s.function.captures.toList }
    outer := List.zipWith (fun p fs => { p with captures := fs.captures.toList }) o.outer s.enclosing
    mark := s.mark }

/-- That variables are captured does not move the compiler. -/
theorem Stance.At.capturing (h : o.At s) : (o.capturing s).At s := by
  have houter : ∀ {fss : List FunctionState} {ps : List Footing}, List.Forall₂ FunctionState.On fss ps →
      List.Forall₂ FunctionState.On fss
        (List.zipWith (fun p fs => { p with captures := fs.captures.toList }) ps fss) := by
    intro fss ps hon
    induction hon with
    | nil => exact .nil
    | cons hfs _ ih => exact .cons { hfs with captures := List.prefix_rfl } ih
  exact { h with
    inner := { h.inner with captures := List.prefix_rfl }
    outer := houter h.outer
    since := Mark.since_self s }

/-- The functions have at least the captures of the stance. -/
theorem Stance.At.captures (hs : o.At s) (h : (o.capturing s).At s') (d : Nat) :
    (s.functionAt d).captures.toList <+: (s'.functionAt d).captures.toList := by
  cases d with
  | zero => exact h.inner.captures
  | succ d =>
    show (s.enclosing.getD d default).captures.toList <+: (s'.enclosing.getD d default).captures.toList
    rcases Nat.lt_or_ge d s.enclosing.length with hlt | hge
    · have hzip : d < (o.capturing s).outer.length := by
        simpa [Stance.capturing, ← hs.length_enclosing] using hlt
      have hlt' : d < s'.enclosing.length := h.outer.length_eq.symm ▸ hzip
      have hon := (h.outer.get hlt' hzip).captures
      simp only [Stance.capturing, List.get_eq_getElem, List.getElem_zipWith] at hon
      rw [List.getD_eq_getElem _ _ hlt, List.getD_eq_getElem _ _ hlt']
      exact hon
    · rw [List.getD_eq_default _ _ hge]
      exact List.nil_prefix

/-- **Captures only grow**, whatever is compiled. -/
theorem captures_goal {goals : Goal} (h : o.At s) (hdepth : 2 * s.rest.length + 2 ≤ depth)
    (hgoal : goals = .declaration → s.current.kind ≠ .endOfText) (d : Nat) :
    (s.functionAt d).captures.toList <+: ((goal depth goals s).2.functionAt d).captures.toList := by
  have hdelivers := (goal_delivers depth s.rest.length).2 hdepth
  have hs : (o.capturing s).At s := h.capturing
  have hmark : (o.capturing s).mark.left ≤ s.rest.length := Nat.le_refl _
  refine h.captures ?_ d
  cases goals with
  | expression p => exact hdelivers.steady p _ hmark s hs
  | declaration => exact (hdelivers.declaration _ hmark s ⟨hs, hgoal rfl⟩).1
  | statement => exact hdelivers.statement _ hmark s hs

/-! ## The end of a function -/

/-- A return captures nothing. -/
theorem emitReturn_run (s : State) : (emitReturn s).2.function.captures = s.function.captures ∧
    (emitReturn s).2.enclosing = s.enclosing := by
  unfold emitReturn
  constructor
  · show ((if s.function.kind = .constructor then _ else _ : Compile Unit) s).2.function.captures = _
    split <;> rfl
  · show ((if s.function.kind = .constructor then _ else _ : Compile Unit) s).2.enclosing = _
    split <;> rfl

/-- Writes the instruction that closes a function over some captures. -/
def closeOver (p : Prototype) (statements closures : List Landmark) (captures : List Capture) :
    Compile Unit := do
  let constant ← makeConstant (.obj (← addItem (.function p statements closures)))
  modifyFunction fun fs => { fs with closures := fs.landmark :: fs.closures }
  emitInstruction ⟨.closure, constant, 0, captures⟩

/-- The constant is there, if there is room for it. -/
theorem makeConstant_run (v : Value) (h : s.function.chunk.isFull = false) :
    (makeConstant v s).2.function.chunk.constants[(makeConstant v s).1]? = some v ∧
      (makeConstant v s).2.image = s.image := by
  rw [makeConstant_eq h]
  exact ⟨Array.getElem?_push_size, rfl⟩

/-- The descriptors that are written behind the instruction are the captured variables of the
function. -/
theorem closeOver_run (p : Prototype) (statements closures : List Landmark) (captures : List Capture)
    (s : State) : ∃ constant,
    (closeOver p statements closures captures s).2.function.chunk.code.toList =
      s.function.chunk.code.toList ++ (⟨.closure, constant, 0, captures⟩ : Instruction).encode ∧
    (s.function.chunk.isFull = false → ∃ r : Ref,
      (closeOver p statements closures captures s).2.function.chunk.constants[constant]? = some (.obj r) ∧
      (closeOver p statements closures captures s).2.image[r.index]? =
        some (.function p statements closures)) := by
  unfold closeOver
  rw [bind_run, bind_run, bind_run]
  set s₁ := (addItem (.function p statements closures) s).2 with hs₁
  set r := (addItem (.function p statements closures) s).1 with hr
  have hcode : (makeConstant (.obj r) s₁).2.function.chunk.code = s.function.chunk.code :=
    ((makeConstant_adding (.obj r) s₁).functions 0).code
  refine ⟨(makeConstant (.obj r) s₁).1, ?_, fun hroom => ?_⟩
  · exact (Chunk.toList_emit ..).trans (by rw [← hcode]; rfl)
  · have hroom' : s₁.function.chunk.isFull = false := hroom
    obtain ⟨hconstant, himage⟩ := makeConstant_run (.obj r) hroom'
    refine ⟨r, (congrArg (·[_]?) (Chunk.constants_emit ..)).trans hconstant, ?_⟩
    show (makeConstant (.obj r) s₁).2.image[s.image.size]? = _
    rw [himage]
    exact Array.getElem?_push_size

/-- What is left of a function is on its way out: the one around it is compiled again. -/
def leave : Compile Unit :=
  modify fun s =>
    match s.enclosing with
    | outer :: enclosing => { s with function := outer, enclosing }
    | [] => { s with function := .start .script none }

/-- The function around goes on being compiled. -/
theorem function_leave {outer : FunctionState} {rest : List FunctionState}
    (h : s.enclosing = outer :: rest) : (leave s).2.function = outer := by
  show State.function (match s.enclosing with
    | outer :: enclosing => { s with function := outer, enclosing }
    | [] => { s with function := .start .script none }) = outer
  rw [h]

/-- **A function is closed over its captures**, by an instruction of the function around it. -/
theorem endFunction_closes {outer : FunctionState} {rest : List FunctionState}
    (h : s.enclosing = outer :: rest) : ∃ constant,
    (endFunction s).2.function.chunk.code.toList = outer.chunk.code.toList ++
      (⟨.closure, constant, 0, s.function.captures.toList⟩ : Instruction).encode ∧
    (outer.chunk.isFull = false → ∃ r p statements closures,
      (endFunction s).2.function.chunk.constants[constant]? = some (.obj r) ∧
      (endFunction s).2.image[r.index]? = some (.function p statements closures) ∧
      p.captureCount = s.function.captures.size) := by
  obtain ⟨hcaptures, henclosing⟩ := emitReturn_run s
  have hget : ∀ (f : State → Compile Unit) (s : State), (get >>= f) s = f s s := fun _ _ => rfl
  unfold endFunction
  rw [bind_run, hget]
  set s₁ := (emitReturn s).2
  let s₂ := (leave (demand (s₁.enclosing ≠ [] ∧
    ∀ offset ∈ s₁.function.argsPrologue, offset + 3 ≤ s₁.function.chunk.size) s₁).2).2
  have houter : s₂.function = outer := function_leave (henclosing.trans h)
  let p (name : Option Ref) : Prototype :=
    { arity := s₁.function.arity
      captureCount := s₁.function.captures.size
      isStatic := s₁.function.kind = .static
      name
      path := some s₂.path
      chunk := s₁.function.finalChunk
      docs := #[] }
  rw [bind_run, bind_run, ← hcaptures]
  -- the name is interned first if there is one, and that changes nothing about the function around
  cases hname : s₁.function.name with
  | none =>
    obtain ⟨constant, hcode, hroom⟩ := closeOver_run (p none) s₁.function.statements
      s₁.function.closures s₁.function.captures.toList s₂
    rw [houter] at hcode hroom
    exact ⟨constant, hcode, fun hfull => (hroom hfull).imp fun r hr => ⟨_, _, _, hr.1, hr.2, rfl⟩⟩
  | some n =>
    have houter' : (intern n s₂).2.function = outer := houter
    obtain ⟨constant, hcode, hroom⟩ := closeOver_run (p (intern n s₂).1) s₁.function.statements
      s₁.function.closures s₁.function.captures.toList (intern n s₂).2
    rw [houter'] at hcode hroom
    exact ⟨constant, hcode, fun hfull => (hroom hfull).imp fun r hr => ⟨_, _, _, hr.1, hr.2, rfl⟩⟩

end ScriptMachine.Compiler
