import Mathlib
import ScriptMachine.Machine.Run
import ScriptMachine.Proofs.Machine.Capturing

/-!
# ScriptMachine.Proofs.Machine.Raising — where an error goes

When an instruction fails, the innermost handler of the fiber is one that the activation has installed,
or one of an activation that waits, behind an instruction that can fail as well. Either way the code
says that control can go from that instruction to the handler, and that what the handler restores is
still on the stack. So the activation goes on there, with the error on top.

Without a handler the task ends. If it is the main task, so does the run.

`Faulting.raise` is the result, for every error and wherever it goes. `Breaks.catches` finds the
handler: it goes down the activations, to the first that has one, and `Breaks.lands` says that the code
at the handler is disciplined for the stack as it is cut back. `Faulting.handled` and
`Faulting.uncaught` are the two ways an error can end in the task itself, and `Faulting.abandon` is the
end of a run. Which handler is the right one with respect to the text is asked in the module on routing.
-/

namespace ScriptMachine

variable {m m' : Machine} {h h' : Heap} {t t' : Fiber} {a b : Activation}
  {rest : List Activation} {q : Placed} {v : Value} {r : Ref} {opens opens' : Nat → Prop} {stack : Array Value}
  {wrote : Ref → Prop} {hd : Handler} {hds : List Handler} {top results : Nat}

/-! ## Instructions that have failed -/

/-- **`Breaks h opens stack a rest q`** — the instruction `q` of the activation has failed, or the activation
waits behind it for one that has; `rest` waits for the activation. -/
structure Breaks (h : Heap) (opens : Nat → Prop) (stack : Array Value) (a : Activation)
    (rest : List Activation) (q : Placed) : Prop where
  sound : a.Sound h (rest.length + 1)
  mem : q ∈ a.listing
  situation : q.situation = a.situation
  raises : q.instr.op.mayRaise = true
  shared : ∀ j, opens j → a.frame.base ≤ j →
    j < a.frame.base + (a.situation.height - q.instr.effect.takes) →
    a.situation.mayBeOpen (j - a.frame.base)
  waiting : Waiting h opens stack rest a.frame.base a.frame.kind.results

/-- A failing task breaks off at its instruction. -/
theorem Fiber.Failing.breaks (hf : t.Failing h a rest q) : Breaks h t.IsOpen t.stack a rest q :=
  ⟨hf.sound, hf.mem, hf.situation, hf.raises, fun j hj hle _ => hf.shared j hj hle, hf.waiting⟩

/-- An activation that waits is behind an instruction that can fail. -/
theorem Waiting.breaks (hw : Waiting h opens stack (a :: rest) top results) :
    ∃ q, Breaks h opens stack a rest q ∧
      top = a.frame.base + (a.situation.height - q.instr.effect.takes) := by
  cases hw with
  | @call _ _ _ _ q sound mem situation ip plain makes leaves height shared holds outer =>
    have hraises : q.instr.op.mayRaise = true := by
      revert plain
      cases q.instr.op <;> decide
    exact ⟨q, ⟨sound, mem, situation, hraises, fun j hj hle hlt => shared j hj hle (height ▸ hlt),
      outer⟩, height⟩

/-- The handler that an activation has installed last. -/
theorem Breaks.guard (hb : Breaks h opens stack a rest q) {own : List Handler}
    (hown : a.handlers = hd :: own) : ∃ g gs, a.situation.handlers = g :: gs ∧
      hd.Guards a.listing (rest.length + 1) a.frame.base g ∧
      List.Forall₂ (Handler.Guards a.listing (rest.length + 1) a.frame.base) own gs ∧
      g.height + q.instr.effect.takes ≤ a.situation.height := by
  have hhandlers := hb.sound.handlers
  rw [hown] at hhandlers
  obtain ⟨g, gs, hguards, hothers, heq⟩ := List.forall₂_cons_left_iff.mp hhandlers
  refine ⟨g, gs, heq, hguards, hothers, ?_⟩
  have hguarded := (hb.sound.suits hb.mem).guarded hb.raises
  rw [hb.situation, heq] at hguarded
  exact hguarded g rfl

/-- What a handler restores is below what the instruction takes. -/
theorem Breaks.height_le (hb : Breaks h opens stack a rest q) {own : List Handler}
    (hown : a.handlers = hd :: own) :
    hd.height ≤ a.frame.base + (a.situation.height - q.instr.effect.takes) := by
  obtain ⟨g, gs, -, hguards, -, hle⟩ := hb.guard hown
  rw [hguards.height]
  omega

/-- **`Breaks.lands`** — the activation goes on at its handler. -/
theorem Breaks.lands (hb : Breaks h opens stack a rest q) {own : List Handler}
    (hown : a.handlers = hd :: own)
    (hframes : t.frames = { a.frame with ip := hd.target } :: rest.map Activation.frame)
    (hhandlers : t.handlers = own ++ rest.flatMap Activation.handlers)
    (hsize : t.stack.size = hd.height + 1)
    (hopen : ∀ j, t.IsOpen j → opens j ∧ j < hd.height)
    (hkept : ∀ j, j < hd.height → t.stack[j]? = stack[j]?) (hready : t.state = .ready) :
    t.Alive h := by
  have hbelow := hb.height_le hown
  obtain ⟨g, gs, heq, hguards, hothers, hle⟩ := hb.guard hown
  have hstands : t.Stands h ⟨{ a.frame with ip := hd.target }, a.function, a.listing,
      a.situation.escape g.height gs, own⟩ rest := by
    refine ⟨hframes, hhandlers, ⟨hb.sound.closure, hb.sound.chunk, hb.sound.lists, hothers⟩, ?_,
      fun j hj hbase => ?_, nofun, hb.waiting.mono (fun j hj _ => (hopen j hj).1) fun j hlt _ => ?_⟩
    · rw [hsize, hguards.height]
      exact Nat.add_assoc ..
    · obtain ⟨hj, hlt⟩ := hopen j hj
      change a.frame.base ≤ j at hbase
      refine ⟨hb.shared j hj hbase (Nat.lt_of_lt_of_le hlt hbelow), ?_⟩
      show j - a.frame.base < g.height
      rw [hguards.height] at hlt
      omega
    · refine hkept j ?_
      rw [hguards.height]
      exact Nat.lt_add_right _ hlt
  -- the code has a way from the instruction to the handler
  obtain ⟨b, hbmem, hoperand, -, q', hq', hoffset, hflows⟩ :=
    hb.sound.exits hb.mem (.raise hb.raises (hb.situation ▸ heq))
  obtain ⟨b', hb', hoperand', -, htarget⟩ := hguards.target
  obtain rfl := hb.sound.contiguous.offset_inj hbmem hb' (Nat.succ.inj (hoperand.trans hoperand'.symm))
  refine hstands.alive_of_ready ⟨q', hq', hoffset.trans htarget.symm, hb.situation ▸ hflows⟩ nofun
    hready

/-- **`Breaks.catches`** — the innermost handler is one of the activation, or of one that waits. -/
theorem Breaks.catches (hb : Breaks h opens stack a rest q)
    (hhandlers : a.handlers ++ rest.flatMap Activation.handlers = hd :: hds) :
    ∃ b others q' own, Breaks h opens stack b others q' ∧ b.handlers = hd :: own ∧
      hds = own ++ others.flatMap Activation.handlers ∧
      (a :: rest).drop ((a :: rest).length - hd.depth) = b :: others ∧
      b.frame.base + (b.situation.height - q'.instr.effect.takes) ≤
        a.frame.base + (a.situation.height - q.instr.effect.takes) := by
  induction rest generalizing a q with
  | nil =>
    rw [List.flatMap_nil, List.append_nil] at hhandlers
    refine ⟨a, [], q, hds, hb, hhandlers, by simp, ?_, Nat.le_refl _⟩
    obtain ⟨g, gs, -, hguards, -⟩ := hb.guard hhandlers
    rw [hguards.depth]
    rfl
  | cons c rest ih =>
    cases hown : a.handlers with
    | cons hd' own =>
      rw [hown, List.cons_append] at hhandlers
      obtain ⟨rfl, rfl⟩ := List.cons.inj hhandlers
      refine ⟨a, c :: rest, q, own, hb, hown, rfl, ?_, Nat.le_refl _⟩
      obtain ⟨g, gs, -, hguards, -⟩ := hb.guard hown
      rw [hguards.depth, List.length_cons, Nat.sub_self, List.drop_zero]
    | nil =>
      -- it has none, so it is one of an activation that waits
      rw [hown, List.nil_append, List.flatMap_cons] at hhandlers
      obtain ⟨q', hb', htop⟩ := hb.waiting.breaks
      obtain ⟨b, others, q'', own, hbreaks, hhd, hrest, hdrop, hle⟩ := ih hb' hhandlers
      refine ⟨b, others, q'', own, hbreaks, hhd, hrest, ?_, ?_⟩
      · obtain ⟨g, gs, -, hguards, -⟩ := hbreaks.guard hhd
        have hlen := congrArg List.length hdrop
        rw [hguards.depth] at hdrop hlen ⊢
        rw [List.length_drop, List.length_cons, List.length_cons] at hlen
        rw [List.length_cons, Nat.succ_sub (by rw [List.length_cons]; omega), List.drop_succ_cons]
        exact hdrop
      · omega

/-! ## At the handler -/

/-- **`e.Catchable`** — an error that goes to a handler. A file that is no program ends the run, whoever
loads it. -/
def Fault.Catchable : Fault → Prop
  | .uncompilable _ | .stuck | .endless => False
  | _ => True

/-- The fiber cut back to what a handler restores, in the activation `f`. -/
def Fiber.cutBack (t : Fiber) (hd : Handler) (hds : List Handler) (f : Frame) (frames : List Frame) :
    Fiber :=
  { t with
    stack := t.stack.shrink hd.height
    frames := { f with ip := hd.target } :: frames
    openUpvalues := t.openBelow hd.height
    handlers := hds }

namespace Machine

/-- The machine with the running fiber cut back to a handler. -/
def cutBack (m : Machine) (hd : Handler) (hds : List Handler) (f : Frame) (frames : List Frame) :
    Machine :=
  { m with
    heap := (m.fiber.closeUpvalues hd.height m.heap).2
    fiber := m.fiber.cutBack hd hds f frames }

/-- The machine with a text on the stack. -/
def withText (m : Machine) (text : String) : Machine :=
  { m with
    heap := (m.heap.intern text).2
    fiber := { m.fiber with stack := m.fiber.stack.push (.obj (m.heap.intern text).1) } }

/-- **`unwindTo_eq`** — what going on at a handler does. -/
theorem unwindTo_eq {f : Frame} {frames : List Frame} (text : String)
    (horder : m.fiber.openUpvalues.Pairwise fun e e' => e'.1 < e.1)
    (hframes : keepFrames m.fiber.frames hd.depth = f :: frames) :
    unwindTo { m with fiber := { m.fiber with handlers := hds } } hd text =
      (m.cutBack hd hds f frames).withText text := by
  have horder' : ({ m.fiber with handlers := hds } : Fiber).openUpvalues.Pairwise
    fun e e' => e'.1 < e.1 := horder
  unfold unwindTo
  dsimp only
  rw [Fiber.closeUpvalues_eq horder']
  dsimp only
  rw [hframes]
  unfold withText cutBack Fiber.cutBack
  rw [Fiber.closeUpvalues_eq horder]
  rfl

/-- **`Consistent.withText`** — a text is pushed. -/
theorem Consistent.withText (hc : m.Consistent) (text : String) :
    (m.withText text).Consistent ∧ Moves wrote m (m.withText text) := by
  have htidy := hc.heap_sound.tidy
  have hstill := htidy.still_intern text
  have hlisted : ∀ e ∈ m.fiber.openUpvalues, e.1 < m.fiber.stack.size := fun e he =>
    (hc.cells.listed _ List.mem_cons_self e he).2
  have hsound : ({ m.fiber with stack := m.fiber.stack.push (.obj (m.heap.intern text).1) } :
      Fiber).Sound (m.heap.intern text).2 := by
    have hfiber := hstill.evolves.fiber hc.sound.fiber
    refine ⟨hfiber.handle, fun v hv => ?_, hfiber.frames, hfiber.openUpvalues⟩
    rcases Array.mem_push.mp hv with hv | rfl
    · exact hfiber.stack v hv
    · exact (Heap.has_string.mpr ⟨text, (htidy.intern text).2.2⟩ : Heap.Has _ _ .string).live
  refine hc.calm _ ((hc.sound.evolve hstill.evolves (hc.sound.heap.intern text)).withFiber hsound)
    hstill.calm rfl rfl rfl ⟨⟨rfl, rfl, fun e he => ⟨?_, .inr ?_⟩⟩, rfl, id⟩
  · show e.1 < (m.fiber.stack.push _).size
    rw [Array.size_push]
    exact Nat.lt_succ_of_lt (hlisted e he)
  · show (m.fiber.stack.push _)[e.1]? = _
    rw [Array.getElem?_push_lt (hlisted e he), ← Array.getElem?_eq_getElem]

/-- **`Consistent.cutBack`** — the running fiber drops what is above a handler. -/
theorem Consistent.cutBack {f : Frame} {frames : List Frame} (hc : m.Consistent) (hd : Handler)
    (hds : List Handler)
    (hframes : ∀ g ∈ f :: frames, g ∈ m.fiber.frames) :
    (m.cutBack hd hds f frames).Consistent ∧ Moves wrote m (m.cutBack hd hds f frames) := by
  have hfiber := hc.sound.fiber
  have hsound : (m.fiber.cutBack hd hds f frames).Sound m.heap := by
    refine ⟨hfiber.handle, fun v hv => ?_, fun g hg => ?_, fun e he => ?_⟩
    · change v ∈ m.fiber.stack.shrink hd.height at hv
      rw [← Array.mem_toList_iff, Array.toList_shrink] at hv
      exact hfiber.stack v (Array.mem_toList_iff.mp (List.mem_of_mem_take hv))
    · rcases List.mem_cons.mp hg with rfl | hg
      · have hf := hfiber.frames f (hframes f List.mem_cons_self)
        exact ⟨hf.closure, hf.package, hf.args⟩
      · exact hfiber.frames g (hframes g (List.mem_cons_of_mem _ hg))
    · exact hfiber.openUpvalues e (Fiber.mem_openBelow.mp he).1
  refine hc.closing (m.fiber.cutBack hd hds f frames) _ rfl rfl rfl (fun j hj => ?_) hsound
    fun _ => ?_
  · show (m.fiber.stack.shrink hd.height)[j]? = _
    rw [← Array.getElem?_toList, Array.toList_shrink, List.getElem?_take_of_lt hj,
      Array.getElem?_toList]
  · cases hdone : m.fiber.isDone with
    | false => rfl
    | true =>
      rw [Fiber.isDone, List.isEmpty_iff] at hdone
      have hmem := hframes f List.mem_cons_self
      rw [hdone] at hmem
      cases hmem

/-- Some of the activations are those that are kept. -/
theorem keepFrames_eq {others : List Activation}
    (hdrop : (a :: rest).drop ((a :: rest).length - hd.depth) = b :: others) :
    keepFrames ((a :: rest).map Activation.frame) hd.depth =
      b.frame :: others.map Activation.frame := by
  rw [keepFrames, List.length_map, ← List.map_drop, hdrop, List.map_cons]

/-- **`Faulting.handled`** — an error goes to the innermost handler of the fiber, in the activation that
has installed it. -/
theorem Faulting.handled (hf : m.Faulting) (text : String) (hhandlers : m.fiber.handlers = hd :: hds) :
    let m' := unwindTo { m with fiber := { m.fiber with handlers := hds } } hd text
    m'.Valid ∧ Moves wrote m m' := by
  obtain ⟨a, rest, q, hfailing⟩ := hf.failing
  have hc := hf.toConsistent
  have horder := hc.cells.order _ List.mem_cons_self
  obtain ⟨b, others, q', own, hb, hown, hrest, hdrop, hle⟩ :=
    hfailing.breaks.catches (hfailing.handlers.symm.trans hhandlers)
  have hkeep := keepFrames_eq hdrop
  rw [List.map_cons, ← hfailing.frames] at hkeep
  have hmem : ∀ g ∈ b.frame :: others.map Activation.frame, g ∈ m.fiber.frames := by
    intro g hg
    rw [← hkeep] at hg
    exact List.mem_of_mem_drop hg
  have hsize : hd.height ≤ m.fiber.stack.size :=
    ((hb.height_le hown).trans hle).trans hfailing.floor
  obtain ⟨hc₁, hm₁⟩ : _ ∧ Moves wrote _ _ := hc.cutBack hd hds hmem
  obtain ⟨hc₂, hm₂⟩ : _ ∧ Moves wrote _ _ := hc₁.withText text
  have hev : m.heap.Evolves ((m.cutBack hd hds b.frame (others.map Activation.frame)).withText
      text).heap :=
    (hc.closed hd.height).closes.evolves.trans (hc₁.heap_sound.tidy.still_intern text).evolves
  show Valid (unwindTo _ hd text) ∧ Moves wrote m (unwindTo _ hd text)
  rw [unwindTo_eq text horder hkeep]
  refine ⟨⟨hc₂, .inr ?_⟩, hm₁.trans hm₂⟩
  -- the activation lands in the heap of before, and lives on in that of after
  have halive : ((m.cutBack hd hds b.frame (others.map Activation.frame)).withText
      text).fiber.Alive m.heap := by
    refine hb.lands hown rfl hrest ?_ (fun j hj => ?_) (fun j hj => ?_) hfailing.ready
    · show ((m.fiber.stack.shrink hd.height).push _).size = _
      rw [Array.size_push, Array.size_shrink, Nat.min_eq_left hsize]
    · obtain ⟨cell, hj⟩ := hj
      obtain ⟨hj, hlt⟩ := Fiber.mem_openBelow.mp hj
      exact ⟨⟨cell, hj⟩, hlt⟩
    · show ((m.fiber.stack.shrink hd.height).push _)[j]? = m.fiber.stack[j]?
      have hlt : j < (m.fiber.stack.shrink hd.height).size := by
        rw [Array.size_shrink, Nat.min_eq_left hsize]
        exact hj
      rw [Array.getElem?_push_lt hlt, ← Array.getElem?_eq_getElem, ← Array.getElem?_toList,
        Array.toList_shrink, List.getElem?_take_of_lt hj, Array.getElem?_toList]
  exact halive.persists hev.persists hc₂.heap_sound hc₂.sound.fiber

/-! ## Without a handler -/

/-- The running fiber has a handle that says it runs. -/
theorem Faulting.running (hf : m.Faulting) :
    m.fiber.isDone = false ∧ ∃ th, m.heap.task? m.fiber.handle = some th ∧ th.id = m.fiber.id ∧
      th.status = .running ∧ th.result = .none := by
  obtain ⟨a, rest, q, hfailing⟩ := hf.failing
  have hdone : m.fiber.isDone = false := by simp [Fiber.isDone, hfailing.frames]
  obtain ⟨th, hth, hid, hrunning⟩ := hf.tasks.handle m.fiber List.mem_cons_self
  have hrun := hrunning hdone
  exact ⟨hdone, th, hth, hid, hrun, (hf.tasks.known _ th hth).2 (by rw [hrun]; decide)⟩

/-- **`Faulting.uncaught`** — a task without a handler ends without a result. -/
theorem Faulting.uncaught (hf : m.Faulting) {th : TaskHandle}
    (hth : m.heap.task? m.fiber.handle = some th) :
    (m.resetFiber.finishTask .none).Valid ∧ Moves wrote m (m.resetFiber.finishTask .none) ∧
      (m.resetFiber.finishTask .none).heap.task? m.fiber.handle =
        some { th with status := .finished, result := .none } := by
  obtain ⟨-, th', hth', hid, hrunning, -⟩ := hf.running
  obtain rfl := Option.some.inj (hth'.symm.trans hth)
  obtain ⟨hc, hm, hspent, htasks⟩ : _ ∧ Moves wrote _ _ ∧ _ := hf.toConsistent.resetting
  have hfid := Consistent.id_resetFiber m
  obtain ⟨hc', hm', hhandle⟩ : _ ∧ Moves wrote _ _ ∧ _ := hc.ending .finished
    ((htasks _).trans hth) (.inl hrunning) Heap.live_none nofun fun t ht heq => by
      obtain rfl := hc.tasks.id_inj t ht _ List.mem_cons_self ((heq.trans hid).trans hfid.symm)
      exact hspent.done
  have hfinish : m.resetFiber.finishTask .none =
      m.resetFiber.endTask th'.id m.fiber.handle .finished .none := by
    rw [finishTask, hfid, Consistent.handle_resetFiber, hid]
  rw [hfinish]
  exact ⟨⟨hc', .inl (hspent.wake th'.id)⟩, hm.trans hm', hhandle⟩

/-- A machine with more error output. -/
theorem Consistent.withErrors (hc : m.Consistent) (text : String) :
    { m with stderr := text }.Consistent :=
  ⟨⟨hc.sound.heap, hc.sound.globals, hc.sound.extensions, hc.sound.fiber, hc.sound.queue,
    hc.sound.names, hc.sound.mainHandle, hc.sound.mainResult⟩, hc.waiting, hc.cells, hc.tasks⟩

/-- **`Faulting.abandon`** — every task is dropped. -/
theorem Faulting.abandon (hf : m.Faulting) : m.abandon.Valid ∧ Moves wrote m m.abandon := by
  obtain ⟨hdone, -⟩ := hf.running
  obtain ⟨hc₁, hm₁, -⟩ : _ ∧ Moves wrote _ _ ∧ _ := hf.toConsistent.dropping
  obtain ⟨hc₂, hm₂, hspent, htasks⟩ : _ ∧ Moves wrote _ _ ∧ _ := hc₁.resetting
  have hfid : m.dropOthers.resetFiber.fiber.id = m.fiber.id := Consistent.id_resetFiber m.dropOthers
  unfold Machine.abandon
  dsimp only
  split
  · rename_i hmain
    -- the main task was running, and its fiber is gone
    obtain ⟨th, hth, hid, hrunning⟩ := hc₁.tasks.handle m.fiber List.mem_cons_self
    obtain ⟨th', hth', hid'⟩ := hc₁.tasks.main
    obtain heq := hc₁.tasks.single _ _ _ _ hth' hth
      (hid'.trans ((hid.trans hfid.symm).trans hmain).symm)
    rw [heq] at hth'
    obtain rfl := Option.some.inj (hth'.symm.trans hth)
    have hrun := hrunning hdone
    have hresult := (hc₁.tasks.known _ _ hth).2 (by rw [hrun]; nofun)
    have hth₂ : m.dropOthers.resetFiber.heap.task? m.dropOthers.resetFiber.mainHandle = some th' := by
      rw [show m.dropOthers.resetFiber.mainHandle = m.fiber.handle from heq]
      exact (htasks _).trans hth
    have hchanged := Heap.handleChanged_modifyHandle (f := fun t => { t with status := .aborted })
      hc₂.sound.heap hth₂ rfl rfl (by rw [hresult]; exact Heap.live_none)
    obtain ⟨hc₃, hm₃⟩ : _ ∧ Moves wrote _ _ := hc₂.handling hth₂ hchanged rfl rfl (.inl hrun)
      (fun _ => hresult) fun t ht hsame hlive => by
        obtain rfl := hc₂.tasks.id_inj t ht _ List.mem_cons_self (hsame.trans (hid.trans hfid.symm))
        rw [hspent.done] at hlive
        cases hlive
    exact ⟨⟨hc₃, .inl hspent⟩, (hm₁.trans hm₂).trans hm₃⟩
  · exact ⟨⟨hc₂, .inl hspent⟩, hm₁.trans hm₂⟩

/-- A caught error unwinds to the innermost handler, which is used up. -/
theorem raise_handled {e : Fault} (he : e.Catchable) (hhandlers : m.fiber.handlers = hd :: hds) :
    m.raise e = (none, unwindTo { m with fiber := { m.fiber with handlers := hds } } hd e.message) := by
  unfold Machine.raise
  split
  · exact he.elim
  · exact he.elim
  · exact he.elim
  · dsimp only
    rw [hhandlers]

/-- An error that a spawned task does not catch is printed, and ends that task only. -/
theorem raise_uncaught {e : Fault} (he : e.Catchable) (hhandlers : m.fiber.handlers = [])
    (hid : m.fiber.id ≠ mainTask) :
    m.raise e = (none, { m with
      stderr := m.stderr ++ (m.runtimeError e.message).text ++ "\n" }.resetFiber.finishTask .none) := by
  unfold Machine.raise
  split
  · exact he.elim
  · exact he.elim
  · exact he.elim
  · dsimp only
    rw [hhandlers]
    dsimp only
    rw [if_neg hid]

/-- An error that the main task does not catch ends the run. -/
theorem raise_main (he : e.Catchable) (hhandlers : m.fiber.handlers = [])
    (hid : m.fiber.id = mainTask) :
    m.raise e = (some (.runtimeError (m.runtimeError e.message)), m.abandon) := by
  unfold Machine.raise
  split
  · exact he.elim
  · exact he.elim
  · exact he.elim
  · dsimp only
    rw [hhandlers]
    dsimp only
    rw [if_pos hid]

/-- An error that ends the run stops every task. -/
theorem raise_ends {e : Fault} {outcome : Outcome} (hstuck : e ≠ .stuck) (hendless : e ≠ .endless)
    (hends : (m.raise e).1 = some outcome) : (m.raise e).2 = m.abandon := by
  revert hends
  unfold Machine.raise
  split
  · exact fun _ => rfl
  · exact (hstuck rfl).elim
  · exact (hendless rfl).elim
  · dsimp only
    split
    · nofun
    · split
      · exact fun _ => rfl
      · nofun

/-- **`Faulting.raise`** — wherever an error goes, the machine is valid then. -/
theorem Faulting.raise {e : Fault} (hf : m.Faulting) (hstuck : e ≠ .stuck)
    (hendless : e ≠ .endless) : (m.raise e).2.Valid ∧ Moves wrote m (m.raise e).2 := by
  unfold Machine.raise
  split
  · exact hf.abandon
  · exact (hstuck rfl).elim
  · exact (hendless rfl).elim
  · dsimp only
    split
    · rename_i hd hds hhandlers
      exact hf.handled e.message hhandlers
    · split
      · exact hf.abandon
      · -- what is written to the error output changes nothing else
        obtain ⟨-, th, hth, -⟩ := hf.running
        have hf' : { m with stderr := m.stderr ++ (m.runtimeError e.message).text ++ "\n" }.Faulting :=
          ⟨hf.toConsistent.withErrors _, hf.failing⟩
        obtain ⟨hvalid, hmoves, -⟩ : _ ∧ Moves wrote _ _ ∧ _ := hf'.uncaught hth
        exact ⟨hvalid, hmoves.lastTask, hmoves.abides, hmoves.tasks, hmoves.carried⟩

end Machine

end ScriptMachine
