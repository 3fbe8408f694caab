import Mathlib
import ScriptMachine.Proofs.Machine.Stepping

/-!
# ScriptMachine.Proofs.Machine.Control — jumps, handlers and variables

These instructions change the running fiber alone: where it goes on, which handlers it has installed, or
a value on its stack. None of them can fail. An assignment to a captured variable may also change a
closed cell, or the stack of a fiber that waits.

Two lemmas do most of the work. `goesOn` is for instructions after which the next one follows and `goTo`
for those that branch; each asks for a way out of the instruction in the listing, which is where the
discipline of the code comes in, and gives back that the fiber is about to execute an instruction again.
A handler notes the height of the stack and the number of activations as they are when it is installed,
so that there is nothing to say about what happens until it is used.
-/

namespace ScriptMachine

variable {m m' : Machine} {h h' : Heap} {t t' : Fiber} {a : Activation}
  {rest : List Activation} {q : Placed} {v : Value} {wrote : Ref → Prop}

namespace Exec

/-- A value that is on the stack can be looked at. -/
theorem peek_eq {distance : Nat} (hd : distance < m.fiber.stack.size)
    (hv : m.fiber.stack[m.fiber.stack.size - 1 - distance]? = some v) :
    peek distance m = .ok v m := by
  unfold peek
  rw [get_bind, if_pos hd, hv]
  rfl

/-- And it can be taken from the top. -/
theorem pop_eq (hv : m.fiber.stack[m.fiber.stack.size - 1]? = some v) :
    pop m = .ok v m.popped := by
  have hlt := (Array.getElem?_eq_some_iff.mp hv).1
  unfold pop
  rw [bind_ok (peek_eq (by omega) hv)]
  rfl

theorem pop_push {below : Array Value} (hs : m.fiber.stack = below.push v) :
    pop m = .ok v m.popped ∧ m.popped.fiber.stack = below :=
  ⟨pop_eq (by rw [hs, Array.size_push]; exact Array.getElem?_push_size),
    by show m.fiber.stack.pop = _; rw [hs, Array.pop_push]⟩

theorem discard_pop_eq (hv : m.fiber.stack[m.fiber.stack.size - 1]? = some v) :
    (discard pop : Exec Unit) m = .ok () m.popped := by
  show EStateM.map _ pop m = _
  unfold EStateM.map
  rw [pop_eq hv]

end Exec

/-- An instruction that comes out well completes, if the machine is valid after it. -/
theorem Machine.Completes.of_ok {x : Exec Unit} {m₁ : Machine} (hx : x m₁ = .ok () m')
    (hm : m'.Valid ∧ Law wrote m m') : m.Completes q wrote x m₁ := by
  unfold Machine.Completes Exec.Meets
  rw [hx]
  exact hm

/-- An instruction on operands that do not fit is excused. -/
theorem Machine.Completes.of_misfit {x : Exec Unit} {m₁ : Machine}
    (hx : x m₁ = .error .stuck m') (hm : m.Misfit q.instr.op) : m.Completes q wrote x m₁ := by
  unfold Machine.Completes Exec.Meets
  rw [hx]
  exact .inl ⟨rfl, hm⟩

namespace Fiber

/-! ## Where control goes -/

/-- A forward branch takes three bytes. -/
theorem At.width_forward (hat : t.At h a rest q) (hop : q.instr.op.isForward = true) :
    q.instr.width = 3 := by
  have hcaptures := (hat.sound.suits hat.mem).inRange.captures_eq_nil (fun heq => by
    rw [heq] at hop
    cases hop)
  have hshape : q.instr.op.shape = .word := by
    revert hop
    cases q.instr.op <;> decide
  simp [Instruction.width, hcaptures, hshape, Instruction.shapeWidth]

/-- A jump ahead leads to an instruction of the listing. -/
theorem At.reaches_ahead (hat : t.At h a rest q) (hop : q.instr.op.isForward = true) :
    Reaches a.listing (a.situation.branch q.instr.op) (.direct (q.offset + 3 + q.instr.first)) := by
  obtain ⟨b, hb, hoffset, -, q', hq', hend, hflows⟩ := hat.sound.exits hat.mem (.ahead hop)
  obtain rfl := hat.sound.contiguous.offset_inj hb hat.mem (Nat.succ.inj hoffset)
  refine ⟨q', hq', ?_, hat.situation ▸ hflows⟩
  omega

/-- **`Executing.jump`** — a fiber that goes on somewhere else, where a branch of its instruction leads. -/
theorem Executing.jump {ip : Nat} (he : t.Executing h a rest q) (hop : q.instr.op ≠ .tryEnd)
    (hop' : q.instr.op ≠ .tryBegin)
    (hreach : Reaches a.listing (a.situation.branch q.instr.op) (.direct ip)) :
    ({ t with frames := { a.frame with ip } :: rest.map Activation.frame } : Fiber).Alive h := by
  have hbranch : a.situation.branch q.instr.op = { a.situation with fresh := false } := by
    revert hop hop'
    cases q.instr.op <;> simp [Situation.branch]
  rw [hbranch] at hreach
  have hstands : ({ t with frames := { a.frame with ip } :: rest.map Activation.frame } :
      Fiber).Stands h ⟨{ a.frame with ip }, a.function, a.listing,
        { a.situation with fresh := false }, a.handlers⟩ rest :=
    ⟨rfl, he.handlers, ⟨he.sound.closure, he.sound.chunk, he.sound.lists, he.sound.handlers⟩,
      he.size, he.shared, he.holds, he.waiting⟩
  exact hstands.alive_of_ready hreach (fun hfresh => by cases hfresh) he.ready

/-- The body of a statement with a handler ends: the handler is gone, and control goes on behind it. -/
theorem Executing.tryEnd (he : t.Executing h a rest q) (hop : q.instr.op = .tryEnd) :
    ({ t with
      frames := { a.frame with ip := a.frame.ip + q.instr.first } :: rest.map Activation.frame
      handlers := t.handlers.tail } : Fiber).Alive h := by
  have hforward : q.instr.op.isForward = true := by rw [hop]; rfl
  have hreach := he.reaches_ahead hforward
  -- the handler that is removed is one of this activation
  have hne := (he.sound.suits he.mem).closing hop
  rw [he.situation] at hne
  obtain ⟨g, gs, hguards⟩ := List.exists_cons_of_ne_nil hne
  have hhandlers := he.sound.handlers
  rw [hguards] at hhandlers
  obtain ⟨hd, own, hown, hrest, hcons⟩ := List.forall₂_cons_right_iff.mp hhandlers
  rw [hop] at hreach
  have hstands : ({ t with
      frames := { a.frame with ip := a.frame.ip + q.instr.first } :: rest.map Activation.frame
      handlers := t.handlers.tail } : Fiber).Stands h
        ⟨{ a.frame with ip := a.frame.ip + q.instr.first }, a.function, a.listing,
          a.situation.branch .tryEnd, a.handlers.tail⟩ rest := by
    refine ⟨rfl, ?_, ⟨he.sound.closure, he.sound.chunk, he.sound.lists, ?_⟩, he.size, he.shared,
      he.holds, he.waiting⟩
    · show t.handlers.tail = a.handlers.tail ++ _
      rw [he.handlers, hcons, List.cons_append, List.tail_cons, List.tail_cons]
    · show List.Forall₂ _ a.handlers.tail a.situation.handlers.tail
      rw [hcons, hguards]
      exact hrest
  refine hstands.alive_of_ready ?_ nofun he.ready
  show Reaches a.listing _ (.direct (a.frame.ip + q.instr.first))
  rw [he.ip, he.width_forward hforward]
  exact hreach

/-- A handler is installed: it restores the stack and the activations as they are now. -/
theorem Executing.tryBegin (he : t.Executing h a rest q) (hop : q.instr.op = .tryBegin) :
    ({ t with
      handlers := ⟨t.frames.length, t.stack.size, a.frame.ip + q.instr.first⟩ :: t.handlers } :
        Fiber).Alive h := by
  have hforward : q.instr.op.isForward = true := by rw [hop]; rfl
  have hfalls : q.instr.op.falls = true := by rw [hop]; rfl
  have hreach := he.sound.exits he.mem (.fall hfalls)
  rw [he.situation, ← he.ip] at hreach
  have heffect : q.instr.effect = ⟨0, 0, 0⟩ := by
    unfold Instruction.effect
    rw [hop]
  have hcaptures := (he.sound.suits he.mem).inRange.captures_eq_nil (by rw [hop]; nofun)
  -- the handler is the one that the new guard of the situation tells of
  have hguards : Handler.Guards a.listing (rest.length + 1) a.frame.base
      ⟨t.frames.length, t.stack.size, a.frame.ip + q.instr.first⟩
      ⟨q.offset + 1, a.situation.height⟩ := by
    refine ⟨?_, he.size, q, he.mem, rfl, hforward, ?_⟩
    · simp [he.frames]
    · show a.frame.ip + q.instr.first = q.offset + 1 + 2 + q.instr.first
      rw [he.ip, he.width_forward hforward]
  have hstands : ({ t with
      handlers := ⟨t.frames.length, t.stack.size, a.frame.ip + q.instr.first⟩ :: t.handlers } :
        Fiber).Stands h ⟨a.frame, a.function, a.listing, a.situation.next q.offset q.instr,
          ⟨t.frames.length, t.stack.size, a.frame.ip + q.instr.first⟩ :: a.handlers⟩ rest := by
    refine ⟨he.frames, ?_, ⟨he.sound.closure, he.sound.chunk, he.sound.lists, ?_⟩, ?_,
      fun j hj hle => ?_, fun j k hj => ?_, he.waiting⟩
    · show _ :: t.handlers = _ :: a.handlers ++ _
      rw [he.handlers]
      rfl
    · show List.Forall₂ _ _ (Situation.next ..).handlers
      rw [Situation.next, if_pos hop]
      exact .cons hguards he.sound.handlers
    · show t.stack.size = a.frame.base + (a.situation.height - _ + _)
      rw [heffect]
      exact he.size
    · have hlt := he.open_lt (by rw [hop]; rfl) hj
      have hsize := he.size
      change a.frame.base ≤ j at hle
      rw [heffect] at hlt
      refine ⟨.inl (he.shared j hj hle), ?_⟩
      show j - a.frame.base < a.situation.height - _ + _
      rw [heffect]
      dsimp only at hlt ⊢
      omega
    · rcases hj with ⟨hj, -⟩ | ⟨hmakes, -⟩
      · exact he.holds j k hj
      · rw [hop] at hmakes
        cases hmakes
  refine hstands.alive_of_ready hreach (fun hfresh => ?_) he.ready
  obtain ⟨hclosure, -⟩ := of_decide_eq_true hfresh
  rw [hop] at hclosure
  cases hclosure

end Fiber

namespace Stepping

variable (hs : Stepping m a rest q)
include hs

/-- **`onward`** — an instruction that changes nothing but the running fiber. -/
theorem onward (halive : t'.Alive m.heap) (hid : t'.id = m.fiber.id)
    (hhandle : t'.handle = m.fiber.handle) (hopen : t'.openUpvalues = m.fiber.openUpvalues)
    (hsound : t'.Sound m.heap) (hvalues : ∀ e ∈ m.fiber.openUpvalues,
      e.1 < t'.stack.size ∧ (wrote e.2 ∨ t'.stack[e.1]? = m.fiber.stack[e.1]?)) : { inside m a rest q with fiber := t' }.Valid ∧
      Law wrote m { inside m a rest q with fiber := t' } := by
  have hbecomes : m.fiber.Becomes wrote t' := ⟨⟨hid, hopen, hvalues⟩, hhandle, fun _ => hs.running⟩
  obtain ⟨hc, hmoves⟩ := hs.consistent.calm _ (hs.sound.withFiber hsound) (Heap.Still.refl _).calm rfl
    rfl rfl hbecomes
  exact ⟨⟨hc, .inr halive⟩, hs.consistent.law hmoves⟩

/-- The stack is the same, and with it the values of all variables. -/
theorem values_same : ∀ e ∈ m.fiber.openUpvalues, e.1 < m.fiber.stack.size ∧
    (wrote e.2 ∨ m.fiber.stack[e.1]? = m.fiber.stack[e.1]?) :=
  fun e he => ⟨(hs.consistent.cells.listed m.fiber List.mem_cons_self e he).2, .inr rfl⟩

/-! ## Jumps -/

/-- A branch moves the instruction pointer and nothing else, to where the listing says. -/
theorem goTo {ip : Nat} (hop : q.instr.op ≠ .tryEnd) (hop' : q.instr.op ≠ .tryBegin)
    (hreach : Reaches a.listing (a.situation.branch q.instr.op) (.direct ip)) :
    let t' := { m.fiber with frames := { a.frame with ip } :: rest.map Activation.frame }
    { inside m a rest q with fiber := t' }.Valid ∧
      Law wrote m { inside m a rest q with fiber := t' } := by
  have hfiber := hs.consistent.sound.fiber
  exact hs.onward (hs.executing.jump hop hop' hreach) rfl rfl rfl
    ⟨hfiber.handle, hfiber.stack, hs.frame_sound _, hfiber.openUpvalues⟩ hs.values_same

/-- A jump ahead leads as far as its operand says. -/
theorem reaches_ahead (hop : q.instr.op.isForward = true) : Reaches a.listing
    (a.situation.branch q.instr.op) (.direct (a.frame.ip + q.instr.width + q.instr.first)) := by
  rw [hs.poised.ip, hs.poised.width_forward hop]
  exact hs.poised.reaches_ahead hop

theorem jump (hop : q.instr.op = .jump) :
    m.Completes q wrote (Exec.execute q.instr) (inside m a rest q) := by
  refine .of_ok ?_ (hs.goTo (by rw [hop]; nofun) (by rw [hop]; nofun)
    (hs.reaches_ahead (by rw [hop]; rfl)))
  unfold Exec.execute
  rw [hop]
  exact Exec.modifyIp_eq (m := inside m a rest q) rfl _

/-- The distance of a loop leads back within the code. -/
theorem loop (hop : q.instr.op = .loop) :
    m.Completes q wrote (Exec.execute q.instr) (inside m a rest q) := by
  have hcaptures := hs.suits.inRange.captures_eq_nil (by rw [hop]; decide)
  have hwidth : q.instr.width = 3 := by
    simp [Instruction.width, hcaptures, hop, Operation.shape, Instruction.shapeWidth]
  have hreach := hs.poised.sound.exits hs.poised.mem (.back hop)
  rw [hs.poised.situation, ← hs.poised.ip, ← hwidth] at hreach
  refine .of_ok ?_ (hs.goTo (by rw [hop]; decide) (by rw [hop]; decide) hreach)
  unfold Exec.execute
  rw [hop]
  exact Exec.modifyIp_eq (m := inside m a rest q) rfl _

/-! ## Falling through -/

/-- **`goesOn`** — the next instruction follows, and the stack has changed by what the instruction takes
and leaves, and by what it assigns. -/
theorem goesOn {stack : Array Value} (hfalls : q.instr.op.falls = true)
    (hop : q.instr.op ≠ .tryBegin) (hop' : q.instr.op ≠ .closure) (hmakes : q.instr.op.makes = none)
    (hcloses : q.instr.op.closesTaken = false) (hlive : ∀ v ∈ stack, m.heap.Live v)
    (hsize : stack.size = m.fiber.stack.size - q.instr.effect.takes + q.instr.effect.leaves)
    (hvalues : ∀ e ∈ m.fiber.openUpvalues, wrote e.2 ∨ stack[e.1]? = m.fiber.stack[e.1]?)
    (hkept : ∀ j, j < m.fiber.stack.size - q.instr.effect.takes → ¬ m.fiber.IsOpen j →
      stack[j]? = m.fiber.stack[j]? ∨ q.instr.op = .setLocal ∧ j = a.frame.base + q.instr.first) :
    let t' := { (inside m a rest q).fiber with stack }
    { inside m a rest q with fiber := t' }.Valid ∧
      Law wrote m { inside m a rest q with fiber := t' } := by
  have hfiber := hs.consistent.sound.fiber
  have hsound : ({ (inside m a rest q).fiber with stack } : Fiber).Sound m.heap :=
    ⟨hfiber.handle, hlive, hs.frame_sound _, hfiber.openUpvalues⟩
  have hlt : ∀ j, m.fiber.IsOpen j → j < stack.size := by
    intro j hj
    have := hs.poised.open_lt hcloses hj
    omega
  refine hs.onward ?_ rfl rfl rfl hsound fun e he => ⟨hlt e.1 ⟨e.2, he⟩, hvalues e he⟩
  refine hs.executing.fall hfalls hop (Heap.Evolves.refl _).persists hs.consistent.heap_sound hsound
    rfl rfl hsize (fun j hj => ⟨hlt j hj, .inl hj⟩) hkept (by rw [hmakes]; nofun)
    (fun h => (hop' h).elim) (.inl hs.ready) ?_
  intro since deadline hsleep
  cases hs.ready.symm.trans hsleep

/-- **`falls`** — the next instruction follows, and nothing has changed below what the instruction
takes. -/
theorem falls {stack : Array Value} (hfalls : q.instr.op.falls = true)
    (hop : q.instr.op ≠ .tryBegin) (hop' : q.instr.op ≠ .closure) (hmakes : q.instr.op.makes = none)
    (hcloses : q.instr.op.closesTaken = false) (hlive : ∀ v ∈ stack, m.heap.Live v)
    (hsize : stack.size = m.fiber.stack.size - q.instr.effect.takes + q.instr.effect.leaves)
    (hbelow : ∀ j, j < m.fiber.stack.size - q.instr.effect.takes →
      stack[j]? = m.fiber.stack[j]?) :
    let t' := { (inside m a rest q).fiber with stack }
    { inside m a rest q with fiber := t' }.Valid ∧
      Law wrote m { inside m a rest q with fiber := t' } :=
  hs.goesOn hfalls hop hop' hmakes hcloses hlive hsize
    (fun e he => .inr (hbelow e.1 (hs.poised.open_lt hcloses ⟨e.2, he⟩)))
    fun j hj _ => .inl (hbelow j hj)

theorem pop_eq (hop : q.instr.op = .pop) :
    Exec.execute q.instr (inside m a rest q) = .ok () (inside m a rest q).popped := by
  have hpos := hs.takes_lt
  unfold Exec.execute
  rw [hop]
  exact Exec.discard_pop_eq (m := inside m a rest q) (Array.getElem?_eq_getElem (by
    show m.fiber.stack.size - 1 < m.fiber.stack.size
    omega))

/-- The stack is one value shorter, and nothing else changes. -/
theorem pop (hop : q.instr.op = .pop) :
    m.Completes q wrote (Exec.execute q.instr) (inside m a rest q) := by
  have heffect : q.instr.effect = ⟨1, 1, 0⟩ := by
    unfold Instruction.effect
    rw [hop]
  refine .of_ok (hs.pop_eq hop) (hs.falls (by rw [hop]; rfl) (by rw [hop]; nofun) (by rw [hop]; nofun)
    (by rw [hop]; rfl) (by rw [hop]; rfl) (fun w hw => ?_) ?_ fun j hj => ?_)
  · rw [← Array.mem_toList_iff, Array.toList_pop] at hw
    exact hs.consistent.sound.fiber.stack w (Array.mem_toList_iff.mp (List.mem_of_mem_dropLast hw))
  · rw [heffect, Array.size_pop]
    rfl
  · rw [heffect] at hj
    show m.fiber.stack.pop[j]? = _
    rw [Array.getElem?_pop, if_pos hj]

/-- The value on top is there to be looked at. -/
theorem peek (hreads : 0 < q.instr.effect.reads) : ∃ v,
    m.fiber.stack[m.fiber.stack.size - 1]? = some v ∧
    Exec.peek 0 (inside m a rest q) = .ok v (inside m a rest q) ∧ m.heap.Live v := by
  have hlt := hs.reads_lt
  have hv : m.fiber.stack[m.fiber.stack.size - 1 - 0]? =
      some m.fiber.stack[m.fiber.stack.size - 1 - 0] := Array.getElem?_eq_getElem (by omega)
  exact ⟨_, hv, Exec.peek_eq (m := inside m a rest q) (by show 0 < m.fiber.stack.size; omega) hv,
    hs.consistent.sound.fiber.stack _ (Array.mem_of_getElem? hv)⟩

/-- **`jumpIfFalse_eq`** — the activation goes on behind the instruction, or where it leads. -/
theorem jumpIfFalse_eq (hop : q.instr.op = .jumpIfFalse) :
    Exec.execute q.instr (inside m a rest q) = .ok () (inside m a rest q) ∨
      Exec.execute q.instr (inside m a rest q) = .ok () { inside m a rest q with
        fiber := { m.fiber with
          frames := { a.frame with ip := a.frame.ip + q.instr.width + q.instr.first } ::
            rest.map Activation.frame } } := by
  have heffect : q.instr.effect = ⟨1, 0, 0⟩ := by
    unfold Instruction.effect
    rw [hop]
  obtain ⟨v, -, hpeek, -⟩ := hs.peek (by rw [heffect]; exact Nat.one_pos)
  have hexec : Exec.execute q.instr (inside m a rest q) =
      (if v.isFalsey then Exec.modifyIp (· + q.instr.first) else pure ()) (inside m a rest q) := by
    unfold Exec.execute
    rw [hop]
    exact Exec.bind_ok hpeek
  by_cases hv : v.isFalsey = true
  · rw [if_pos hv] at hexec
    exact .inr (hexec.trans (Exec.modifyIp_eq (m := inside m a rest q) rfl _))
  · rw [if_neg hv] at hexec
    exact .inl hexec

/-- The condition stays on the stack on both ways. -/
theorem jumpIfFalse (hop : q.instr.op = .jumpIfFalse) :
    m.Completes q wrote (Exec.execute q.instr) (inside m a rest q) := by
  rcases hs.jumpIfFalse_eq hop with hexec | hexec
  · refine .of_ok hexec (hs.falls (by rw [hop]; rfl) (by rw [hop]; nofun) (by rw [hop]; nofun)
      (by rw [hop]; rfl) (by rw [hop]; rfl) hs.consistent.sound.fiber.stack ?_ fun j _ => rfl)
    unfold Instruction.effect
    rw [hop]
    rfl
  · exact .of_ok hexec (hs.goTo (by rw [hop]; nofun) (by rw [hop]; nofun)
      (hs.reaches_ahead (by rw [hop]; rfl)))

/-! ## Handlers -/

omit hs in
theorem tryBegin_eq (hop : q.instr.op = .tryBegin) :
    Exec.execute q.instr (inside m a rest q) = .ok () { inside m a rest q with
      fiber := { (inside m a rest q).fiber with
        handlers := ⟨rest.length + 1, m.fiber.stack.size,
          a.frame.ip + q.instr.width + q.instr.first⟩ :: m.fiber.handlers } } := by
  unfold Exec.execute
  rw [hop]
  show Exec.installHandler q.instr.first (inside m a rest q) = _
  unfold Exec.installHandler
  rw [Exec.bind_ok (Exec.frame_eq rfl), ← List.length_map Activation.frame]
  rfl

/-- The handler that is installed is the one that the situation after it has. -/
theorem tryBegin (hop : q.instr.op = .tryBegin) :
    m.Completes q wrote (Exec.execute q.instr) (inside m a rest q) := by
  have hfiber := hs.sound.fiber
  have halive := hs.executing.tryBegin hop
  have hlength : (inside m a rest q).fiber.frames.length = rest.length + 1 := by
    show (rest.map Activation.frame).length + 1 = _
    rw [List.length_map]
  rw [hlength] at halive
  exact .of_ok (tryBegin_eq hop) (hs.onward halive rfl rfl rfl
    ⟨hfiber.handle, hfiber.stack, hfiber.frames, hfiber.openUpvalues⟩ hs.values_same)

omit hs in
theorem tryEnd_eq (hop : q.instr.op = .tryEnd) :
    Exec.execute q.instr (inside m a rest q) = .ok () { inside m a rest q with
      fiber := { m.fiber with
        frames := { a.frame with ip := a.frame.ip + q.instr.width + q.instr.first } ::
          rest.map Activation.frame
        handlers := m.fiber.handlers.tail } } := by
  unfold Exec.execute
  rw [hop]
  show Exec.removeHandler q.instr.first (inside m a rest q) = _
  unfold Exec.removeHandler Exec.modifyFiber
  rw [Exec.modify_bind]
  exact Exec.modifyIp_eq (m := { inside m a rest q with
    fiber := { (inside m a rest q).fiber with handlers := m.fiber.handlers.tail } }) rfl _

/-- The handler that is removed is the innermost one. -/
theorem tryEnd (hop : q.instr.op = .tryEnd) :
    m.Completes q wrote (Exec.execute q.instr) (inside m a rest q) := by
  have hfiber := hs.consistent.sound.fiber
  exact .of_ok (tryEnd_eq hop) (hs.onward (hs.executing.tryEnd hop) rfl rfl rfl
    ⟨hfiber.handle, hfiber.stack, hs.frame_sound _, hfiber.openUpvalues⟩ hs.values_same)

end Stepping

end ScriptMachine
