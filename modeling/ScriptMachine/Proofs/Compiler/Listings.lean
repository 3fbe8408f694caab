import Mathlib
import ScriptMachine.Proofs.Compiler.Accepted
import ScriptMachine.Proofs.Machine.Fetching

/-!
# ScriptMachine.Proofs.Compiler.Listings — a listing reads code as a machine does

A listing finds the instructions of a chunk by their shapes; a machine finds them by reading what each
operation asks for. In the code of every function that an accepted text is compiled to, the two come by
the same instructions at the same offsets, and both end where the code does. A branch is listed with the
offset to which the machine goes.

The heap may be any heap in which the function constants of the chunk are still what they were: a
listing can be made long after the compilation, in the middle of a run.

`compile_readAlike` puts together that code is well formed, which gives the instructions, and two
readers that are each shown to come by them: `listing_eq` for the text and `branchesTo` for the steps of
a machine. Where a machine goes from a branch is taken from the machine itself, not from the operand.

The wording of a line beyond its offset, its operation and its target is not compared with anything, there
being nothing to compare it with.
-/

namespace ScriptMachine

variable {c : Chunk} {h h' : Heap} {o t : Nat} {m : Machine} {i : Instruction}
  {code : List (Nat × Instruction)}

namespace Chunk

/-! ## Where lines start -/

/-- The offsets at which a listing starts an instruction, and the offset at which it ends. -/
def lineStarts (c : Chunk) (h : Heap) : Nat → Nat → List Nat × Nat
  | 0, offset => ([], offset)
  | fuel + 1, offset =>
    if offset < c.size then
      let (starts, stop) := c.lineStarts h fuel (c.listInstruction h offset).2
      (offset :: starts, stop)
    else ([], offset)

/-- A listing is the text of one line after another, from where it starts lines. -/
theorem listFrom_eq (c : Chunk) (h : Heap) (fuel o : Nat) (out : String) :
    c.listFrom h fuel o out = out ++
      String.join ((c.lineStarts h fuel o).1.map fun o => (c.listInstruction h o).1 ++ "\n") := by
  induction fuel generalizing o out with
  | zero => simp [listFrom, lineStarts]
  | succ fuel ih =>
    unfold listFrom lineStarts
    split
    · dsimp only
      rw [ih]
      simp [String.join_cons, String.append_assoc]
    · simp

/-- **`listing_eq`** — a listing is its heading and one text for every offset at which it starts an
instruction. -/
theorem listing_eq (c : Chunk) (h : Heap) (name : String) :
    c.listing h name = "== " ++ name ++ " ==\n" ++
      String.join ((c.lineStarts h c.size 0).1.map fun o => (c.listInstruction h o).1 ++ "\n") :=
  c.listFrom_eq h _ _ _

/-- The line of an instruction begins with its margin, and the next line is after its bytes. -/
theorem listInstruction_eq (hi : c.instruction? h o = some i) :
    c.listInstruction h o = (c.margin o ++ c.instructionText h o i, o + i.width) := by
  unfold listInstruction
  rw [hi]

/-- A listing starts lines where the code splits into instructions. By induction on the
instructions. -/
theorem Splits.lineStarts {l : List (Nat × Instruction)} {fuel : Nat} (hl : c.Splits h o l)
    (hfuel : l.length ≤ fuel) : c.lineStarts h fuel o = (l.map Prod.fst, c.size) := by
  induction l generalizing o fuel with
  | nil =>
    obtain rfl : o = c.size := hl
    cases fuel with
    | zero => rfl
    | succ fuel => rw [Chunk.lineStarts, if_neg (Nat.lt_irrefl _), List.map_nil]
  | cons q l ih =>
    obtain ⟨rfl, hi, hrest⟩ := hl
    have hend := hrest.le_size
    have hpos := q.2.width_pos
    cases fuel with
    | zero => simp at hfuel
    | succ fuel =>
      rw [Chunk.lineStarts, if_pos (by omega), listInstruction_eq hi,
        ih hrest (Nat.le_of_succ_le_succ hfuel), List.map_cons]

/-- An instruction ends inside the code. -/
theorem Splits.width_le {l : List (Nat × Instruction)} (hl : c.Splits h o l)
    {q : Nat × Instruction} (hq : q ∈ l) : q.1 + q.2.width ≤ c.size := by
  induction l generalizing o with
  | nil => cases hq
  | cons p l ih =>
    obtain ⟨rfl, -, hrest⟩ := hl
    rcases List.mem_cons.mp hq with rfl | hq
    · exact hrest.le_size
    · exact ih hrest hq

/-! ## In another heap -/

/-- Of the heap, decoding asks only how many variables a closure captures. -/
theorem instruction?_congr (hi : c.instruction? h o = some i)
    (hcount : i.op = .closure → c.captureCount h' i.first = c.captureCount h i.first) :
    c.instruction? h' o = some i := by
  unfold instruction? Instruction.decode? at hi ⊢
  cases hop : Operation.ofCode? (c.code.getD o 255) with
  | none =>
    rw [hop] at hi
    cases hi
  | some op =>
    rw [hop] at hi
    obtain rfl := Option.some.inj hi
    cases op <;> first | rfl | exact congrArg _ (congrArg _ (congrArg _ (hcount rfl)))

/-- How the code splits depends on the heap only by how much each closure captures. -/
theorem Splits.congr {l : List (Nat × Instruction)} (hl : c.Splits h o l)
    (hcount : ∀ q ∈ l, q.2.op = .closure →
      c.captureCount h' q.2.first = c.captureCount h q.2.first) : c.Splits h' o l := by
  induction l generalizing o with
  | nil => exact hl
  | cons q l ih =>
    obtain ⟨hq, hi, hrest⟩ := hl
    exact ⟨hq, instruction?_congr hi (hcount q List.mem_cons_self),
      ih hrest fun p hp => hcount p (List.mem_cons_of_mem _ hp)⟩

/-- The function constants of the chunk are in `h'` what they are in `h`. -/
def EvolvesIn (c : Chunk) (h h' : Heap) : Prop :=
  h.EvolvesOn (fun r => Value.obj r ∈ c.constants) h'

theorem EvolvesIn.captureCount {p : Prototype} {r : Ref} (hh : c.EvolvesIn h h') {index : Nat}
    (hconstant : c.constant? index = some (.obj r)) (hp : h.prototype? r = some p) :
    c.captureCount h' index = c.captureCount h index := by
  have hmem : Value.obj r ∈ c.constants := Array.mem_of_getElem? hconstant
  simp [Chunk.captureCount, hconstant, hp, hh.prototype? hmem hp]

end Chunk

/-- Code that is well formed splits in the same way in a heap that has its functions. -/
theorem Prototype.WellFormed.splits_evolved {p : Prototype} {closures : List Landmark}
    (hp : p.WellFormed h closures code) (hh : p.chunk.EvolvesIn h h') :
    p.chunk.Splits h' 0 code :=
  hp.splits.congr fun q hq hop => by
    obtain ⟨r, p', hconstant, hp', -⟩ := hp.closure q hq hop
    exact hh.captureCount hconstant hp'

/-! ## Branches -/

/-- The line of a branch ends with where it starts and where it goes. -/
def Chunk.branchLine (c : Chunk) (o : Nat) (i : Instruction) (t : Nat) : String :=
  c.margin o ++ (padRight 24 i.op.name ++ " " ++ (padLeft ' ' 4 o ++ " -> " ++ toString t))

/-- The line of a branch shows its target. -/
theorem Chunk.listInstruction_branch (hi : c.instruction? h o = some i)
    (ht : i.target? o = some t) : (c.listInstruction h o).1 = c.branchLine o i t := by
  rw [listInstruction_eq hi]
  obtain ⟨op, first, second, captures⟩ := i
  cases op <;> cases ht <;> rfl

/-- The machine with other handlers installed. -/
def Machine.withHandlers (m : Machine) (handlers : List Handler) : Machine :=
  { m with fiber := { m.fiber with handlers } }

/-- **`m.BranchesTo o i t`** — a step of the machine, which stands at the branch `i`, goes to the
offset `t` of the code. A condition is what is on top of the stack, and stays there. A handler is
installed for `t`, to be gone to when an error is caught. -/
def Machine.BranchesTo (m : Machine) (o : Nat) (i : Instruction) (t : Nat) : Prop :=
  match i.op with
  | .jumpIfFalse => ∀ v, m.fiber.stack.back? = some v →
    Exec.step m = .ok () ((m.elapse stepTime).movedTo (if v.isFalsey then t else o + 3))
  | .tryBegin => Exec.step m = .ok () (((m.elapse stepTime).movedTo (o + 3)).withHandlers
      (⟨m.fiber.frames.length, m.fiber.stack.size, t⟩ :: m.fiber.handlers))
  | .tryEnd => Exec.step m = .ok ()
      (((m.elapse stepTime).movedTo t).withHandlers m.fiber.handlers.tail)
  | _ => Exec.step m = .ok () ((m.elapse stepTime).movedTo t)

theorem Instruction.width_branch (hin : i.InRange) (ht : i.target? o = some t) : i.width = 3 := by
  have hcaptures := hin.captures_eq_nil (fun hop => by simp [Instruction.target?, hop] at ht)
  obtain ⟨op, first, second, captures⟩ := i
  obtain rfl : captures = [] := hcaptures
  cases op <;> cases ht <;> rfl

namespace Exec

/-- A machine that has read up to some offset moves its frame there. -/
theorem modifyIp_movedTo (hm : m.StandsAt c h o) (o' : Nat) (g : Nat → Nat) :
    modifyIp g (m.movedTo o') = .ok () (m.movedTo (g o')) := by
  obtain ⟨-, f, rest, hf, -, -⟩ := hm
  rw [Machine.movedTo_eq hf, Machine.movedTo_eq hf]
  rfl

theorem frame_movedTo (hm : m.StandsAt c h o) (o' : Nat) :
    ∃ f, f.ip = o' ∧ frame (m.movedTo o') = .ok f (m.movedTo o') := by
  obtain ⟨-, f, rest, hf, -, -⟩ := hm
  rw [Machine.movedTo_eq hf]
  exact ⟨_, rfl, frame_eq rfl⟩

end Exec

theorem Machine.length_frames_movedTo (m : Machine) (o : Nat) :
    (m.movedTo o).fiber.frames.length = m.fiber.frames.length := by
  unfold Machine.movedTo
  cases m.fiber.frames <;> rfl

open Exec in
/-- **`branchesTo`** — a machine goes where a branch says. -/
theorem Machine.StandsAt.branchesTo (hm : m.StandsAt c h o) (hi : c.instruction? h o = some i)
    (hin : i.InRange) (ht : i.target? o = some t) : m.BranchesTo o i t := by
  have hlater := hm.elapse stepTime
  have hstep := step_eq_execute hi hm
  rw [Instruction.width_branch hin ht] at hstep
  obtain ⟨op, first, second, captures⟩ := i
  cases op <;> cases ht
  case jump => exact hstep.trans (modifyIp_movedTo hlater (o + 3) (· + first))
  case loop => exact hstep.trans (modifyIp_movedTo hlater (o + 3) (· - first))
  case jumpIfFalse =>
    intro v hv
    rw [hstep]
    have hsize : 0 < m.fiber.stack.size := (Array.getElem?_eq_some_iff.mp hv).1.pos
    have hpeek : peek 0 ((m.elapse stepTime).movedTo (o + 3)) = .ok v _ := peek_eq hsize hv
    show (peek 0 >>= fun v => if v.isFalsey then modifyIp (· + first) else pure ()) _ = _
    rw [bind_ok hpeek]
    split
    · exact modifyIp_movedTo hlater _ _
    · rfl
  case tryBegin =>
    obtain ⟨f, hip, hframe⟩ := frame_movedTo hlater (o + 3)
    refine hstep.trans ((bind_ok hframe).trans ?_)
    show EStateM.Result.ok ()
      (((m.elapse stepTime).movedTo (o + 3)).withHandlers (⟨_, _, _⟩ :: _)) = _
    rw [Machine.length_frames_movedTo, hip]
    rfl
  case tryEnd =>
    have hrest : ((m.elapse stepTime).withHandlers m.fiber.handlers.tail).StandsAt c h o := hlater
    exact hstep.trans (modifyIp_movedTo hrest (o + 3) (· + first))

/-! ## Reading alike -/

/-- **`c.ReadAlike h code`** — a listing and a machine read the code as the same instructions. -/
structure Chunk.ReadAlike (c : Chunk) (h : Heap) (code : List (Nat × Instruction)) : Prop where
  /-- fetching from the start on yields these instructions, at their offsets, up to the end -/
  machine : (Exec.scan c.size).ReadsAt c h 0 code c.size
  /-- a listing starts its instructions at the same offsets, and ends at the same end -/
  listing : c.lineStarts h c.size 0 = (code.map Prod.fst, c.size)
  text : ∀ name, c.listing h name = "== " ++ name ++ " ==\n" ++
    String.join (code.map fun q => c.margin q.1 ++ c.instructionText h q.1 q.2 ++ "\n")
  /-- the next instruction of a listing is where the machine is when it has read the operands -/
  next : ∀ q ∈ code, Exec.fetch.ReadsAt c h q.1 q.2 (c.listInstruction h q.1).2
  /-- and a step executes what is fetched in this way -/
  step : ∀ q ∈ code, ∀ m : Machine, m.StandsAt c h q.1 → Exec.step m = (do
    modify fun m : Machine => m.elapse stepTime
    Exec.execute (← Exec.fetch)) m
  /-- a branch is listed with the offset to which a machine goes -/
  branch : ∀ q ∈ code, ∀ t ∈ q.2.target? q.1,
    (c.listInstruction h q.1).1 = c.branchLine q.1 q.2 t ∧
      ∀ m : Machine, m.StandsAt c h q.1 → m.BranchesTo q.1 q.2 t
  /-- no branch leads to before the start -/
  back : ∀ q ∈ code, q.2.op = .loop → q.2.first ≤ q.1 + 3

/-- **`readAlike`** — code that is well formed is read alike. -/
theorem Prototype.WellFormed.readAlike {p : Prototype} {closures : List Landmark}
    (hp : p.WellFormed h closures code) (hh : p.chunk.EvolvesIn h h') :
    p.chunk.ReadAlike h' code := by
  have hsplits := hp.splits_evolved hh
  have hfuel : code.length ≤ p.chunk.size := by
    have := hsplits.length_le
    omega
  have hin : ∀ q ∈ code, p.chunk.instruction? h' q.1 = some q.2 := hsplits.instruction?
  exact {
    machine := Exec.reads_scan hsplits hfuel
    listing := hsplits.lineStarts hfuel
    text := fun name => by
      rw [Chunk.listing_eq, hsplits.lineStarts hfuel, List.map_map]
      refine congrArg _ (congrArg _ (List.map_congr_left fun q hq => ?_))
      rw [Function.comp_apply, Chunk.listInstruction_eq (hin q hq)]
    next := fun q hq => by
      rw [Chunk.listInstruction_eq (hin q hq)]
      exact Exec.reads_fetch (hin q hq) (hsplits.width_le hq)
    step := fun q hq m hm => Exec.step_eq_fetch (hin q hq) (hsplits.width_le hq) hm
    branch := fun q hq t ht => ⟨Chunk.listInstruction_branch (hin q hq) ht,
      fun m hm => hm.branchesTo (hin q hq) (hp.inRange q hq) ht⟩
    back := hp.back }

/-- **`compile_readAlike`** — the code of every function that an accepted text is compiled to is read
alike by a listing and by a machine, as long as the functions it refers to are there. -/
theorem compile_readAlike {heap heap' : Heap} {source path : String} {r f : Ref} {p : Prototype}
    (ht : heap.Tidy) (hc : compile heap source path = (.ok r, heap'))
    (hf : ConstantGraph heap' r f) (hp : heap'.prototype? f = some p)
    (hh : p.chunk.EvolvesIn heap' h) : ∃ code, p.chunk.ReadAlike h code := by
  obtain ⟨k, p', statements, closures, refs, code, -, hp', hcode⟩ := compile_wellFormed ht hc hf
  obtain rfl := Option.some.inj (hp.symm.trans hp')
  exact ⟨code, hcode.readAlike hh⟩

theorem compile_readAlike_function :
    ∃ r heap' p, compile (Heap.new {}) "func f(x) \x7b return x; \x7d" "a" = (.ok r, heap') ∧
      heap'.prototype? r = some p ∧ ∃ code, p.chunk.ReadAlike heap' code := by
  obtain ⟨image, htranslate⟩ := translate_function
  obtain ⟨r, heap', hc⟩ := compile_of_translate _ htranslate
  obtain ⟨k, p, statements, closures, refs, code, -, hp, -⟩ :=
    compile_wellFormed (Heap.new_tidy {}) hc .root
  exact ⟨r, heap', _, hc, hp,
    compile_readAlike (Heap.new_tidy {}) hc .root hp ((Heap.Evolves.refl heap').on _)⟩

end ScriptMachine
