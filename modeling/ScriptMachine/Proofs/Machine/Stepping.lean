import Mathlib
import ScriptMachine.Machine.Step
import ScriptMachine.Proofs.Machine.Consistency

/-!
# ScriptMachine.Proofs.Machine.Stepping — an instruction from one boundary to the next

The running fiber is about to execute an instruction of its listing. The machine moves past it and does
what it says. In the end the machine is valid again, or the instruction has failed; then the values
below those it takes are still there, and so is everything else that a handler counts on. This module
says what that means and proves it of the plain instructions.

`Stepping.settles` and `Stepping.enters` turn the end of a scene into the next boundary: the values that
the instruction leaves are on the stack, so the stack is as high as the situation behind it says, or the
activation that was entered stands at its first instruction. `Stepping.plain` applies this to every
plain instruction. For those that move control, change cells or concern tasks the boundary is reached in
other ways, each in a module of its own, and all of them end in `Completes`.
-/

namespace ScriptMachine

open Exec (Meets)

variable {α : Type} {m m' : Machine} {h h' : Heap} {t : Fiber} {a : Activation}
  {rest : List Activation} {q : Placed}

/-- **`t.Failing h a rest q`** — the fiber has failed while it executed `q`, and the values that the
instruction does not take are on its stack. -/
structure Fiber.Failing (h : Heap) (t : Fiber) (a : Activation) (rest : List Activation)
    (q : Placed) : Prop where
  frames : t.frames = a.frame :: rest.map Activation.frame
  handlers : t.handlers = a.handlers ++ rest.flatMap Activation.handlers
  sound : a.Sound h (rest.length + 1)
  mem : q ∈ a.listing
  situation : q.situation = a.situation
  raises : q.instr.op.mayRaise = true
  floor : a.frame.base + (a.situation.height - q.instr.effect.takes) ≤ t.stack.size
  shared : ∀ j, t.IsOpen j → a.frame.base ≤ j → a.situation.mayBeOpen (j - a.frame.base)
  waiting : Waiting h t.IsOpen t.stack rest a.frame.base a.frame.kind.results
  ready : t.state = .ready

/-- **`Executing.failing`** — a fiber that has not touched what its instruction leaves alone has failed
in order. -/
theorem Fiber.Executing.failing {t' : Fiber} (he : t.Executing h a rest q)
    (hraises : q.instr.op.mayRaise = true) (hh : h.Persists h') (hs : h'.Sound) (ht' : t'.Sound h')
    (hframes : t'.frames = t.frames) (hhandlers : t'.handlers = t.handlers)
    (hopen : t'.openUpvalues = t.openUpvalues) (hstate : t'.state = t.state)
    (hfloor : t.stack.size - q.instr.effect.takes ≤ t'.stack.size)
    (hbelow : ∀ j, j < t.stack.size - q.instr.effect.takes → t'.stack[j]? = t.stack[j]?) :
    t'.Failing h' a rest q := by
  have hreads := (he.sound.suits he.mem).reads
  have htakes := q.instr.takes_le_reads
  rw [he.situation] at hreads
  have hsize := he.size
  have hhas : ∀ b ∈ a :: rest, h'.Has b.frame.closure .closure := by
    intro b hb
    apply (ht'.frames b.frame _).closure
    rw [hframes, he.frames, ← List.map_cons]
    exact List.mem_map_of_mem hb
  have hisOpen : t'.IsOpen = t.IsOpen := by
    funext j
    rw [Fiber.IsOpen, hopen, Fiber.IsOpen]
  exact {
    frames := hframes.trans he.frames
    handlers := hhandlers.trans he.handlers
    sound := he.sound.persists hh hs (hhas a List.mem_cons_self)
    mem := he.mem
    situation := he.situation
    raises := hraises
    floor := by omega
    shared := hisOpen ▸ he.shared
    waiting := by
      have hsame : Waiting h t'.IsOpen t'.stack rest a.frame.base a.frame.kind.results :=
        he.waiting.mono (fun j hj _ => hisOpen ▸ hj) fun j hlt _ => hbelow j (by omega)
      exact hsame.persists hh hs (fun b hb => hhas b (List.mem_cons_of_mem _ hb)) ht'.stack
    ready := hstate.trans he.ready }

/-- **`m.Faulting`** — an instruction of the running fiber has failed. -/
structure Machine.Faulting (m : Machine) : Prop extends m.Consistent where
  failing : ∃ a rest q, m.fiber.Failing m.heap a rest q

/-- **`m.past f rest i`** — the machine has moved past the instruction. -/
def Machine.past (m : Machine) (f : Frame) (rest : List Frame) (i : Instruction) : Machine :=
  { m.elapse stepTime with
    fiber := { m.fiber with frames := { f with ip := f.ip + i.width } :: rest } }

/-- **`m.Completes q wrote x m₁`** — from `m₁`, in the middle of the instruction `q` that was begun in
`m`, `x` leads to a valid machine or fails. -/
def Machine.Completes (m : Machine) (q : Placed) (wrote : Ref → Prop) (x : Exec Unit)
    (m₁ : Machine) : Prop :=
  x.Meets m₁ (fun _ m' => m'.Valid ∧ Law wrote m m') fun e m' =>
    e = .stuck ∧ m.Misfit q.instr.op ∨ e ≠ .stuck ∧ m'.Faulting ∧ Law (fun _ => False) m m'

/-! ## Moving past an instruction -/

namespace Exec

theorem get_bind (f : Machine → Exec α) (m : Machine) : (get >>= f) m = f m m := rfl

theorem modify_bind (g : Machine → Machine) (f : Unit → Exec α) (m : Machine) :
    (modify g >>= f) m = f () (g m) := rfl

theorem bind_ok {β : Type} {x : Exec β} {f : β → Exec α} {b : β} (hx : x m = .ok b m') :
    (x >>= f) m = f b m' := by
  show EStateM.bind x f m = _
  unfold EStateM.bind
  rw [hx]

theorem bind_error {β : Type} {x : Exec β} {f : β → Exec α} {e : Fault} (hx : x m = .error e m') :
    (x >>= f) m = .error e m' := by
  show EStateM.bind x f m = _
  unfold EStateM.bind
  rw [hx]

theorem frame_eq {f : Frame} {frames : List Frame} (hf : m.fiber.frames = f :: frames) :
    Exec.frame m = .ok f m := by
  unfold Exec.frame
  rw [get_bind, hf]
  rfl

theorem heap_eq (m : Machine) : Exec.heap m = .ok m.heap m := rfl

theorem modifyIp_eq {f : Frame} {frames : List Frame} (hf : m.fiber.frames = f :: frames)
    (g : Nat → Nat) : modifyIp g m = .ok () { m with fiber := { m.fiber with
      frames := { f with ip := g f.ip } :: frames } } := by
  obtain ⟨heap, globals, extensions, fiber, _⟩ := m
  obtain ⟨id, handle, stack, frames', _⟩ := fiber
  obtain rfl : frames' = f :: frames := hf
  rfl

/-- A step reads the instruction that its frame is at, moves past it, and executes it. -/
theorem step_of_instruction? {f : Frame} {frames : List Frame} {i : Instruction}
    (hf : m.fiber.frames = f :: frames) (hi : f.chunk.instruction? m.heap f.ip = some i) :
    step m = execute i (m.past f frames i) := by
  unfold step
  rw [bind_ok (frame_eq hf), bind_ok (heap_eq m), hi]
  dsimp only
  rw [modify_bind]
  exact bind_ok (modifyIp_eq (m := m.elapse stepTime) hf _)

/-- **`step_eq`** — a step decodes the instruction that the fiber is about to execute. -/
theorem step_eq (hp : m.fiber.Poised m.heap a rest q) :
    step m = execute q.instr (m.past a.frame (rest.map Activation.frame) q.instr) := by
  refine step_of_instruction? hp.frames ?_
  rw [hp.ip]
  exact hp.sound.instruction? hp.mem

end Exec

/-- **`Stepping m a rest q`** — the machine is about to execute `q`, and host functions invent no
references. -/
structure Stepping (m : Machine) (a : Activation) (rest : List Activation) (q : Placed) : Prop where
  consistent : m.Consistent
  poised : m.fiber.Poised m.heap a rest q
  ready : m.fiber.state = .ready
  honest : m.heap.Honest

/-- The activation behind its instruction. -/
def Activation.past (a : Activation) (i : Instruction) : Activation :=
  { a with frame := { a.frame with ip := a.frame.ip + i.width } }

namespace Stepping

variable {k leaves : Nat} {wrote : Ref → Prop} (hs : Stepping m a rest q)

/-- The machine that executes the instruction. -/
abbrev inside (m : Machine) (a : Activation) (rest : List Activation) (q : Placed) : Machine :=
  m.past a.frame (rest.map Activation.frame) q.instr

/-- The instruction as a scene: it does not touch what it does not take. -/
def scene (m : Machine) (a : Activation) (rest : List Activation) (q : Placed) : Scene :=
  ⟨inside m a rest q, m.fiber.stack.size - q.instr.effect.takes, m.Misfit q.instr.op⟩

include hs

/-- While it is executed, the task stands past the instruction, in the same activation. -/
theorem executing : (inside m a rest q).fiber.Executing m.heap (a.past q.instr) rest q :=
  hs.poised.executing hs.ready

/-- Where the innermost activation goes on has nothing to do with what it holds. -/
theorem frame_sound (ip : Nat) :
    ∀ f ∈ { a.frame with ip } :: rest.map Activation.frame, f.Sound m.heap := by
  intro f hf
  have hframes := hs.consistent.sound.fiber.frames
  rw [hs.poised.frames] at hframes
  rcases List.mem_cons.mp hf with rfl | hf
  · have hfirst := hframes a.frame List.mem_cons_self
    exact ⟨hfirst.closure, hfirst.package, hfirst.args⟩
  · exact hframes f (List.mem_cons_of_mem _ hf)

theorem sound : (inside m a rest q).Sound := by
  have hm := hs.consistent.sound
  exact ⟨hm.heap, hm.globals, hm.extensions, ⟨hm.fiber.handle, hm.fiber.stack, hs.frame_sound _,
    hm.fiber.openUpvalues⟩, hm.queue, hm.names, hm.mainHandle, hm.mainResult⟩

/-- The instruction suits the situation that its listing states. -/
theorem suits : q.instr.Suits (m.heap.pool a.function) q.offset a.situation :=
  hs.poised.situation ▸ hs.poised.sound.suits hs.poised.mem

/-- There are more values on the stack than the instruction looks at. -/
theorem reads_lt : q.instr.effect.reads < m.fiber.stack.size := by
  have hreads := hs.suits.reads
  have hsize := hs.poised.size
  omega

/-- The operands are on the stack, above the slot of the callee. -/
theorem takes_lt : q.instr.effect.takes < m.fiber.stack.size :=
  Nat.lt_of_le_of_lt q.instr.takes_le_reads hs.reads_lt

/-- The instruction starts as a moment of its scene. -/
theorem amid : Amid (scene m a rest q) q.instr.effect.takes (inside m a rest q) where
  sound := hs.sound
  honest := hs.honest
  still := .refl _
  fiber := rfl
  queue := rfl
  lastTask := rfl
  mainResult := rfl
  mainHandle := rfl
  names := rfl
  config := rfl
  size := (Nat.sub_add_cancel (Nat.le_of_lt hs.takes_lt)).symm
  below _ _ := rfl

/-- What the instruction names is there. -/
theorem setting : Setting (scene m a rest q) (a.past q.instr).frame (rest.map Activation.frame)
    q.instr (inside m a rest q) := by
  have hsuits := hs.suits
  have hsize := hs.poised.size
  have hheap := hs.consistent.sound.heap
  obtain ⟨c, hc, hp⟩ := hs.poised.sound.closure
  refine ⟨rfl, fun hop => ?_, fun n hn => ?_, fun hop => ?_, fun hop => ?_, ?_, fun k hk => ?_,
    fun hop v hv => ?_, id⟩
  · have hlt := hsuits.constant hop
    have hv := Array.getElem?_eq_getElem hlt
    refine ⟨_, ?_, (hheap.sound.prototype hp).2.2 _ (Array.mem_of_getElem? hv)⟩
    show a.frame.chunk.constant? q.instr.first = _
    rw [hs.poised.sound.chunk]
    exact hv
  · show ∃ r, a.frame.chunk.constant? n = _ ∧ _
    rw [hs.poised.sound.chunk]
    exact hsuits.names n hn
  · have hslot := hsuits.slot (by rw [hop]; rfl)
    have htakes : q.instr.effect.takes = 0 := by
      unfold Instruction.effect
      rw [hop]
    show a.frame.base + q.instr.first < m.fiber.stack.size - q.instr.effect.takes
    omega
  · have hlt := hsuits.capture (by rw [hop]; rfl)
    exact ⟨c, hc, (hheap.made _ c hc).2 _ hp ▸ hlt⟩
  · show q.instr.effect.reads < m.fiber.stack.size - q.instr.effect.takes + q.instr.effect.takes
    have hreads := hs.reads_lt
    omega
  · -- the collection stands right below the values that are taken
    have hreads := hsuits.reads
    have htakes := q.instr.takes_le_reads
    have hholds := hs.poised.holds _ k (hsuits.fills k hk)
    refine hholds.congr (congrArg (m.fiber.stack[·]?) ?_)
    show m.fiber.stack.size - q.instr.effect.takes - 1 = _
    omega
  · obtain ⟨r, c, hr, hc, -⟩ := (hs.poised.fresh hop).made
    obtain rfl := Option.some.inj (hr.symm.trans hv)
    exact ⟨r, rfl, Heap.has_closure.mpr ⟨c, hc⟩⟩

/-! ## Plain instructions -/

theorem running : m.fiber.isDone = false := by
  simp [Fiber.isDone, hs.poised.frames]

/-- Cells of slots that the instruction does not take keep their values. -/
theorem becomes (hcloses : q.instr.op.closesTaken = false) {t : Fiber}
    (ht : t.id = m.fiber.id) (hhandle : t.handle = m.fiber.handle)
    (hopen : t.openUpvalues = m.fiber.openUpvalues)
    (hbelow : ∀ i, i < m.fiber.stack.size - q.instr.effect.takes →
      t.stack[i]? = m.fiber.stack[i]?) : m.fiber.Becomes wrote t := by
  refine ⟨⟨ht, hopen, fun e he => ?_⟩, hhandle, fun _ => hs.running⟩
  have hlt := hs.poised.open_lt hcloses ⟨e.2, he⟩
  refine ⟨?_, .inr (hbelow e.1 hlt)⟩
  have hget : t.stack[e.1]? = some m.fiber.stack[e.1] :=
    (hbelow e.1 hlt).trans (Array.getElem?_eq_getElem (by omega))
  exact (Array.getElem?_eq_some_iff.mp hget).1

/-- Moving past an instruction is nothing to the rest of the machine. -/
theorem consistent_inside : (inside m a rest q).Consistent := by
  have hbecomes : m.fiber.Becomes (fun _ => False) (inside m a rest q).fiber :=
    ⟨⟨rfl, rfl, fun e he => ⟨(hs.consistent.cells.listed m.fiber List.mem_cons_self e he).2,
      .inr rfl⟩⟩, rfl, fun _ => hs.running⟩
  exact (hs.consistent.calm _ hs.sound (Heap.Still.refl _).calm rfl rfl rfl hbecomes).1

omit hs in
theorem law_inside (hlaw : Law wrote (inside m a rest q) m') : Law wrote m m' := by
  refine ⟨hlaw.lastTask, hlaw.abides, hlaw.tasks, fun r v hr hw u hu => hlaw.values r v ?_ hw u hu⟩
  rcases hr with hr | ⟨t, ht, slot, hr, hv⟩
  · exact .inl hr
  · rcases Machine.mem_fibers.mp ht with rfl | ht
    · exact .inr ⟨_, List.mem_cons_self, slot, hr, hv⟩
    · exact .inr ⟨t, List.mem_cons_of_mem _ ht, slot, hr, hv⟩

/-- The scene of the instruction has failed. -/
theorem faulting (hraises : q.instr.op.mayRaise = true) (hcloses : q.instr.op.closesTaken = false)
    (hm : Amid (scene m a rest q) k m') : m'.Faulting ∧ Law wrote m m' := by
  have hfiber : m'.fiber = { (inside m a rest q).fiber with stack := m'.fiber.stack } := hm.fiber
  have hbecomes : m.fiber.Becomes wrote m'.fiber :=
    hs.becomes hcloses (by rw [hfiber]; rfl) (by rw [hfiber]; rfl) (by rw [hfiber]; rfl) hm.below
  obtain ⟨hc, hmoves⟩ := hs.consistent.calm _ hm.sound hm.still.calm hm.queue hm.lastTask hm.mainHandle
    hbecomes
  have hsize : m.fiber.stack.size - q.instr.effect.takes ≤ m'.fiber.stack.size :=
    hm.size ▸ Nat.le_add_right ..
  refine ⟨⟨hc, a.past q.instr, rest, q, ?_⟩, hs.consistent.law hmoves⟩
  exact hs.executing.failing hraises hm.still.calm.persists hc.heap_sound hm.sound.fiber
    (by rw [hfiber]) (by rw [hfiber]) (by rw [hfiber]) (by rw [hfiber]) hsize hm.below

/-- The values that the instruction leaves are on the stack. -/
theorem settles (hplain : q.instr.op.isPlain = true)
    (hm : Settles (scene m a rest q) q.instr.effect.leaves m')
    (hmade : ∀ k, q.instr.op.makes = some k → m'.fiber.state = m.fiber.state ∧
      m'.heap.Holds m'.fiber.stack m.fiber.stack.size k) : m'.Valid ∧ Law wrote m m' := by
  have hfiber : m'.fiber = { (inside m a rest q).fiber with
      stack := m'.fiber.stack, state := m'.fiber.state } := hm.fiber
  have hcloses : q.instr.op.closesTaken = false := by
    revert hplain
    cases q.instr.op <;> decide
  have hbecomes : m.fiber.Becomes wrote m'.fiber :=
    hs.becomes hcloses (by rw [hfiber]; rfl) (by rw [hfiber]; rfl) (by rw [hfiber]; rfl) hm.below
  obtain ⟨hc, hmoves⟩ := hs.consistent.calm _ hm.sound hm.calm hm.queue hm.lastTask hm.mainHandle
    hbecomes
  have hopen : m'.fiber.openUpvalues = m.fiber.openUpvalues := by
    rw [hfiber]
    rfl
  have hlt : ∀ j, m'.fiber.IsOpen j → j < m.fiber.stack.size - q.instr.effect.takes := by
    rintro j ⟨cell, hj⟩
    exact hs.poised.open_lt hcloses ⟨cell, hopen ▸ hj⟩
  have hsize : m'.fiber.stack.size = m.fiber.stack.size - q.instr.effect.takes +
      q.instr.effect.leaves := hm.size
  refine ⟨⟨hc, .inr ?_⟩, hs.consistent.law hmoves⟩
  -- what is left to show are the conditions for going on behind the instruction
  refine hs.executing.fall ?_ ?_ hm.calm.persists hc.heap_sound hm.sound.fiber (by rw [hfiber])
    (by rw [hfiber]) hsize (fun j hj => ⟨?_, .inl ?_⟩) (fun j hlt _ => .inl (hm.below j hlt))
    (fun k hk => (hmade k hk).2) (fun hop => ?_) ?_ fun since deadline hsleep => ?_
  · revert hplain
    cases q.instr.op <;> decide
  · rintro hop
    rw [hop] at hplain
    cases hplain
  · have := hlt j hj
    omega
  · obtain ⟨cell, hj⟩ := hj
    exact ⟨cell, hopen ▸ hj⟩
  · rw [hop] at hplain
    cases hplain
  · -- the fiber is ready as before, or it has fallen asleep with a value left on top
    rcases hm.state with hstate | ⟨hleaves, since, deadline, hsleep⟩
    · exact .inl (hstate.trans hs.ready)
    · refine .inr ⟨fun hop => ?_, ?_, hleaves, since, deadline, hsleep⟩
      · rw [hop] at hplain
        cases hplain
      · refine Option.eq_none_iff_forall_ne_some.mpr fun k hk => ?_
        cases hsleep.symm.trans ((hmade k hk).1.trans hs.ready)
  · rcases hm.state with hstate | ⟨hleaves, -⟩
    · rw [hsleep] at hstate
      cases hstate.trans hs.ready
    · refine ⟨by omega, fun hj => ?_⟩
      have := hlt _ hj
      omega

/-- The instruction has entered an activation. -/
theorem enters (hplain : q.instr.op.isPlain = true) (hmakes : q.instr.op.makes = none) {f : Frame} {p : Prototype}
    (hm : Enters (scene m a rest q) q.instr.effect.leaves f p m') :
    (m'.entering f).Valid ∧ Law wrote m (m'.entering f) := by
  have hfiber : m'.fiber = { (inside m a rest q).fiber with stack := m'.fiber.stack } :=
    hm.amid.fiber
  have hcloses : q.instr.op.closesTaken = false := by
    revert hplain
    cases q.instr.op <;> decide
  have hsound : (m'.entering f).Sound := by
    have ht := hm.amid.sound.fiber
    refine hm.amid.sound.withFiber ⟨ht.handle, ht.stack, fun g hg => ?_, ht.openUpvalues⟩
    rcases List.mem_cons.mp hg with rfl | hg
    · exact hm.frame
    · exact ht.frames g hg
  have hstill := hm.amid.still
  have hbecomes : m.fiber.Becomes wrote (m'.entering f).fiber := by
    refine hs.becomes hcloses ?_ ?_ ?_ hm.amid.below
    · show m'.fiber.id = _
      rw [hfiber]
      rfl
    · show m'.fiber.handle = _
      rw [hfiber]
      rfl
    · show m'.fiber.openUpvalues = _
      rw [hfiber]
      rfl
  obtain ⟨hc, hmoves⟩ := hs.consistent.calm _ hsound hstill.calm hm.amid.queue hm.amid.lastTask
    hm.amid.mainHandle hbecomes
  refine ⟨⟨hc, .inr ?_⟩, hs.consistent.law hmoves⟩
  -- the function that is entered is trusted, as that of every closure is
  obtain ⟨c, hclosure, hp⟩ := hm.closure
  obtain ⟨p', listing, hp', hlists⟩ := (hm.amid.sound.heap.made _ c hclosure).1.prototype
  obtain rfl := Option.some.inj (hp.symm.trans hp')
  refine hs.executing.enter hplain hmakes hstill.calm.persists hc.heap_sound hsound.fiber ?_ ?_ ?_
    ⟨c, hclosure, hp⟩ hm.chunk hlists hm.ip hm.base (fun j hlt => ?_) ?_ hm.results ?_
  · show f :: m'.fiber.frames = _
    rw [hfiber]
  · show m'.fiber.handlers = _
    rw [hfiber]
  · show m'.fiber.openUpvalues = _
    rw [hfiber]
  · exact hm.amid.below j (hm.base ▸ hlt)
  · rw [hm.base]
    exact hm.amid.size
  · show m'.fiber.state = _
    rw [hfiber]
    exact hs.ready

/-- A collection that has been made is on top, above everything that was there. -/
theorem startsLiteral {c : Collection} (hop : q.instr.op.makes = some c) :
    m.Completes q wrote (Exec.execute q.instr) (inside m a rest q) := by
  have hplain : q.instr.op.isPlain = true ∧ q.instr.effect = ⟨0, 0, 1⟩ := by
    unfold Instruction.effect
    revert hop
    cases q.instr.op <;> simp [Operation.makes, Operation.isPlain]
  have hamid := hs.amid
  rw [hplain.2] at hamid
  have hmakes := hamid.startsLiteral hop
  refine Meets.mono hmakes (fun _ m' hmade => ?_) fun e m' hm => ?_
  · obtain ⟨hm, hholds⟩ := hmade
    refine hs.settles hplain.1 (by rw [hplain.2]; exact hm.settles) fun k hk => ⟨?_, ?_⟩
    · rw [hm.fiber]
      rfl
    · obtain rfl := Option.some.inj (hop.symm.trans hk)
      have hfloor : (scene m a rest q).floor = m.fiber.stack.size := by
        show m.fiber.stack.size - q.instr.effect.takes = _
        rw [hplain.2]
        rfl
      exact hfloor ▸ hholds
  · rcases hm with ⟨he, hstuck⟩ | ⟨he, k, hm⟩
    · exact .inl ⟨he, hstuck⟩
    · refine .inr ⟨he, hs.faulting ?_ ?_ hm⟩ <;>
      · revert hop
        cases q.instr.op <;> simp [Operation.makes, Operation.mayRaise, Operation.closesTaken]

/-- **`plain`** — a plain instruction completes. -/
theorem plain (hplain : q.instr.op.isPlain = true) :
    m.Completes q wrote (Exec.execute q.instr) (inside m a rest q) := by
  cases hmakes : q.instr.op.makes with
  | some c => exact hs.startsLiteral hmakes
  | none =>
    refine Meets.mono (Amid.execute hs.setting hplain hs.amid) (fun _ m' hm => ?_) fun e m' hm => ?_
    · cases hm with
      | settles hm => exact hs.settles hplain hm (by rw [hmakes]; nofun)
      | enters hm => exact hs.enters hplain hmakes hm
    · rcases hm with ⟨he, hstuck⟩ | ⟨he, k, hm⟩
      · exact .inl ⟨he, hstuck⟩
      · refine .inr ⟨he, hs.faulting ?_ ?_ hm⟩ <;>
        · revert hplain
          cases q.instr.op <;> decide

end Stepping

end ScriptMachine
