import Mathlib
import ScriptMachine.Proofs.Machine.Control
import ScriptMachine.Proofs.Machine.Endings

/-!
# ScriptMachine.Proofs.Machine.Returning — leaving scopes and activations

Leaving the scope of a captured variable closes its cell. Returning from an activation closes whatever
the activation has opened, removes its handlers and leaves the result to the activation that waits; if
none does, the task has finished.

`ret` is the result, with two cases: an activation waits for the answer (`ret_inner`), or none does and
the task ends with it (`ret_last`). A file that was required answers with its package, and one that was
imported with nothing (`Frame.answer`). What the activation had on the stack is dropped, and its cells
are closed before, so that closures which outlive it keep their variables.
-/

namespace ScriptMachine

variable {m m' : Machine} {h h' : Heap} {t t' : Fiber} {a : Activation}
  {rest : List Activation} {q : Placed} {v : Value} {wrote : Ref → Prop} {opens : Nat → Prop}
  {stack : Array Value} {top results : Nat}

/-! ## Activations that wait -/

/-- The handlers of an activation know how many activations there were. -/
theorem Activation.Sound.handlers_depth {depth : Nat} (ha : a.Sound h depth) :
    ∀ hd ∈ a.handlers, hd.depth = depth := by
  have hhandlers := ha.handlers
  generalize a.handlers = own, a.situation.handlers = guards at hhandlers
  induction hhandlers with
  | nil => simp
  | cons hguards _ ih =>
    intro hd hhd
    rcases List.mem_cons.mp hhd with rfl | hhd
    · exact hguards.depth
    · exact ih hd hhd

/-- No handler was installed when there were more activations than there are now. -/
theorem Waiting.depth_le (hw : Waiting h opens stack rest top results) :
    ∀ hd ∈ rest.flatMap Activation.handlers, hd.depth ≤ rest.length := by
  induction hw with
  | bottom => simp
  | @call a rest top results q sound mem situation ip plain makes leaves height shared holds outer ih =>
    intro hd hhd
    rw [List.flatMap_cons, List.mem_append] at hhd
    rcases hhd with hown | houter
    · exact Nat.le_of_eq (sound.handlers_depth hd hown)
    · exact Nat.le_succ_of_le (ih hd houter)

/-- **`Waiting.resumes`** — the activation that waited gets its results and goes on. -/
theorem Waiting.resumes (hw : Waiting h opens stack (a :: rest) top results)
    (hframes : t.frames = a.frame :: rest.map Activation.frame)
    (hhandlers : t.handlers = a.handlers ++ rest.flatMap Activation.handlers)
    (hsize : t.stack.size = top + results) (hopen : ∀ j, t.IsOpen j → opens j ∧ j < top)
    (hkept : ∀ j, j < top → t.stack[j]? = stack[j]?) (hready : t.state = .ready) : t.Alive h := by
  cases hw with
  | @call _ _ _ _ q sound mem situation ip plain makes leaves height shared holds outer =>
    have hfalls : q.instr.op.falls = true ∧ q.instr.op ≠ .tryBegin ∧ q.instr.op ≠ .closure := by
      revert plain
      cases q.instr.op <;> decide
    have hstands : t.Stands h { a with situation := a.situation.next q.offset q.instr } rest := by
      refine ⟨hframes, hhandlers, ⟨sound.closure, sound.chunk, sound.lists, ?_⟩, ?_,
        fun j hj hle => ⟨.inl ?_, ?_⟩, fun j k hj => ?_,
        outer.mono (fun j hj _ => (hopen j hj).1) fun j hlt _ => hkept j (by omega)⟩
      · show List.Forall₂ _ _ (Situation.next ..).handlers
        rw [Situation.next, if_neg hfalls.2.1]
        exact sound.handlers
      · show t.stack.size = a.frame.base + (a.situation.height - _ + _)
        rw [hsize, height, leaves, Nat.add_assoc]
      · exact shared j (hopen j hj).1 hle (hopen j hj).2
      · have hlt := (hopen j hj).2
        change a.frame.base ≤ j at hle
        show j - a.frame.base < a.situation.height - _ + _
        omega
      · rcases hj with ⟨hj, hlt⟩ | ⟨hmakes, -⟩
        · exact (holds j k hj hlt).congr (hkept _ (by
            show a.frame.base + j < top
            omega))
        · rw [makes] at hmakes
          cases hmakes
    have hreach := sound.exits mem (.fall hfalls.1)
    rw [situation, ← ip] at hreach
    refine hstands.alive_of_ready hreach (fun hfresh => ?_) hready
    exact (hfalls.2.2 (of_decide_eq_true hfresh).1).elim

/-! ## Returning -/

/-- The values that an activation leaves when it returns `v`. -/
def Frame.answer (f : Frame) (v : Value) : List Value :=
  match f.kind with
  | .function => [v]
  | .package required => if required then [f.package.elim .none .obj] else []

theorem Frame.length_answer (f : Frame) (v : Value) : (f.answer v).length = f.kind.results := by
  unfold Frame.answer FrameKind.results
  cases f.kind with
  | function => rfl
  | package required => cases required <;> rfl

/-- **`t.left f frames values`** — the fiber without what belonged to the activation `f`, which has left
some values. -/
def Fiber.left (t : Fiber) (f : Frame) (frames : List Frame) (values : List Value) : Fiber :=
  { t with
    stack := t.stack.shrink f.base ++ values
    frames
    openUpvalues := t.openBelow f.base
    handlers := t.handlers.dropWhile fun hd => frames.length < hd.depth }

/-- The machine after the running fiber has left an activation. -/
def Machine.leaving (m : Machine) (f : Frame) (frames : List Frame) (values : List Value) : Machine :=
  { m with
    heap := (m.fiber.closeUpvalues f.base m.heap).2
    fiber := m.fiber.left f frames values }

/-- **`returnFromFrame_eq`** — what a return does. -/
theorem Exec.returnFromFrame_eq {f : Frame} {frames : List Frame}
    (hframes : m.fiber.frames = f :: frames)
    (hv : m.fiber.stack[m.fiber.stack.size - 1]? = some v)
    (horder : m.fiber.openUpvalues.Pairwise fun e e' => e'.1 < e.1) :
    returnFromFrame m = .ok () (if frames.isEmpty
      then (m.popped.leaving f frames []).finishTask v
      else m.popped.leaving f frames (f.answer v)) := by
  have hpop : pop m = .ok v m.popped := pop_eq hv
  have hframe : Exec.frame m.popped = .ok f m.popped := frame_eq hframes
  -- closing does not look at activations
  have hclose : ({ m.popped.fiber with frames } : Fiber).closeUpvalues f.base m.popped.heap =
      ({ m.popped.fiber with frames, openUpvalues := m.fiber.openBelow f.base },
        (m.popped.fiber.closeUpvalues f.base m.popped.heap).2) := by
    have horder' : ({ m.popped.fiber with frames } : Fiber).openUpvalues.Pairwise
      fun e e' => e'.1 < e.1 := horder
    rw [Fiber.closeUpvalues_eq horder', Fiber.closeUpvalues_eq (t := m.popped.fiber) horder]
    rfl
  have htail : m.popped.fiber.frames.tail = frames := by
    show m.fiber.frames.tail = frames
    rw [hframes]
    rfl
  unfold returnFromFrame
  rw [bind_ok hpop, bind_ok hframe]
  simp only [modifyFiber, modify_bind, Exec.closeUpvalues, truncate, modifyStack, get_bind]
  rw [htail, hclose]
  cases frames with
  | nil => rfl
  | cons g frames =>
    have hcontinue : (if (g :: frames).isEmpty = true
        then (m.popped.leaving f (g :: frames) []).finishTask v
        else m.popped.leaving f (g :: frames) (f.answer v)) =
          m.popped.leaving f (g :: frames) (f.answer v) := rfl
    rw [hcontinue]
    unfold Frame.answer
    cases f.kind with
    | function => rfl
    | package required => cases required <;> rfl

/-- Only the innermost activation has a part of the stack that starts at its bottom. -/
theorem Waiting.nil_top (hw : Waiting h opens stack [] top results) : top = 0 := by
  cases hw
  rfl

/-- The handlers that go with an activation are its own. -/
theorem dropWhile_handlers (ha : a.Sound h (rest.length + 1))
    (hw : Waiting h opens stack rest top results) :
    (a.handlers ++ rest.flatMap Activation.handlers).dropWhile
      (fun hd => (rest.map Activation.frame).length < hd.depth) =
        rest.flatMap Activation.handlers := by
  have hown : ∀ hd ∈ a.handlers,
      decide ((rest.map Activation.frame).length < hd.depth) = true := by
    intro hd hhd
    rw [ha.handlers_depth hd hhd, List.length_map]
    exact decide_eq_true (Nat.lt_succ_self _)
  rw [List.dropWhile_append_of_pos hown]
  cases hrest : rest.flatMap Activation.handlers with
  | nil => rfl
  | cons hd others =>
    have hle := hw.depth_le hd (hrest ▸ List.mem_cons_self)
    rw [List.dropWhile_cons_of_neg]
    simpa using hle

/-- **`Consistent.leave`** — the running fiber leaves an activation. -/
theorem Machine.Consistent.leave (hc : m.Consistent) {f : Frame} {frames : List Frame}
    {values : List Value} (hframes : m.fiber.frames = f :: frames)
    (hvalues : ∀ v ∈ values, m.heap.Live v) (hbase : f.base ≤ m.fiber.stack.size) :
    (m.leaving f frames values).Consistent ∧ Moves wrote m (m.leaving f frames values) := by
  have hfiber := hc.sound.fiber
  have hsound : (m.fiber.left f frames values).Sound m.heap := by
    refine ⟨hfiber.handle, fun v hv => ?_, fun g hg => ?_, fun e he => ?_⟩
    · rcases List.mem_append.mp (Array.toList_appendList ▸ Array.mem_toList_iff.mpr hv) with hv | hv
      · rw [Array.toList_shrink] at hv
        exact hfiber.stack v (Array.mem_toList_iff.mp (List.mem_of_mem_take hv))
      · exact hvalues v hv
    · exact hfiber.frames g (hframes ▸ List.mem_cons_of_mem _ hg)
    · exact hfiber.openUpvalues e (Fiber.mem_openBelow.mp he).1
  refine hc.closing (m.fiber.left f frames values) _ rfl rfl rfl (fun j hj => ?_) hsound
    fun _ => by simp [Fiber.isDone, hframes]
  show (m.fiber.stack.shrink f.base ++ values)[j]? = _
  rw [← Array.getElem?_toList, Array.toList_appendList, Array.toList_shrink,
    List.getElem?_append_left, List.getElem?_take_of_lt hj, Array.getElem?_toList]
  rw [List.length_take, Array.length_toList]
  omega

namespace Stepping

variable (hs : Stepping m a rest q)
include hs

/-- The value on top, which the instruction takes. -/
theorem taken (htakes : 0 < q.instr.effect.takes) : ∃ v, m.heap.Live v ∧
    m.fiber.stack[m.fiber.stack.size - 1]? = some v := by
  have hlt := hs.takes_lt
  have hv : m.fiber.stack[m.fiber.stack.size - 1]? = some m.fiber.stack[m.fiber.stack.size - 1] :=
    Array.getElem?_eq_getElem (by omega)
  exact ⟨_, hs.consistent.sound.fiber.stack _ (Array.mem_of_getElem? hv), hv⟩

/-- Taking a value from the stack is nothing to the rest of the machine. -/
theorem consistent_popped (htakes : q.instr.effect.takes = 1)
    (hcloses : q.instr.op.closesTaken = false) :
    (inside m a rest q).popped.Consistent ∧
      Moves wrote (inside m a rest q) (inside m a rest q).popped := by
  have hfiber := hs.sound.fiber
  have hc := hs.consistent_inside
  refine hc.calm _ (hc.sound.withFiber ⟨hfiber.handle, fun v hv => ?_, hfiber.frames,
    hfiber.openUpvalues⟩) (Heap.Still.refl _).calm rfl rfl rfl ?_
  · change v ∈ m.fiber.stack.pop at hv
    rw [← Array.mem_toList_iff, Array.toList_pop] at hv
    exact hfiber.stack v (Array.mem_toList_iff.mp (List.mem_of_mem_dropLast hv))
  · have hbecomes : m.fiber.Becomes wrote (inside m a rest q).popped.fiber := by
      refine hs.becomes hcloses rfl rfl rfl fun i hi => ?_
      rw [htakes] at hi
      show m.fiber.stack.pop[i]? = _
      rw [Array.getElem?_pop, if_pos hi]
    exact ⟨⟨hbecomes.id, hbecomes.openUpvalues, hbecomes.stack⟩, hbecomes.handle, fun _ => rfl⟩

/-! ## The end of a scope -/

omit hs in
/-- Closing the top of the stack closes the cell of that slot, if there is one: no open upvalue is
above it. -/
theorem closeTop_eq (hv : m.fiber.stack[m.fiber.stack.size - 1]? = some v)
    (horder : m.fiber.openUpvalues.Pairwise fun e e' => e'.1 < e.1) :
    Exec.closeTop m = .ok () { m with
      heap := (m.fiber.closeUpvalues (m.fiber.stack.size - 1) m.heap).2
      fiber := { m.fiber with
        stack := m.fiber.stack.pop
        openUpvalues := m.fiber.openBelow (m.fiber.stack.size - 1) } } := by
  have hclose : Exec.closeUpvalues (m.fiber.stack.size - 1) m = .ok () { m with
      heap := (m.fiber.closeUpvalues (m.fiber.stack.size - 1) m.heap).2
      fiber := { m.fiber with openUpvalues := m.fiber.openBelow (m.fiber.stack.size - 1) } } := by
    show EStateM.Result.ok () { m with
      heap := (m.fiber.closeUpvalues (m.fiber.stack.size - 1) m.heap).2
      fiber := (m.fiber.closeUpvalues (m.fiber.stack.size - 1) m.heap).1 } = _
    rw [Fiber.closeUpvalues_eq horder]
  unfold Exec.closeTop
  rw [Exec.bind_ok (show Exec.height m = .ok m.fiber.stack.size m from rfl), Exec.bind_ok hclose]
  exact Exec.discard_pop_eq (m := { m with
    heap := (m.fiber.closeUpvalues (m.fiber.stack.size - 1) m.heap).2
    fiber := { m.fiber with openUpvalues := m.fiber.openBelow (m.fiber.stack.size - 1) } }) hv

/-- **`closeUpvalue`** — the captured variable on top leaves its scope: its cell takes it over. -/
theorem closeUpvalue (hop : q.instr.op = .closeUpvalue) :
    m.Completes q wrote (Exec.execute q.instr) (inside m a rest q) := by
  have heffect : q.instr.effect = ⟨1, 1, 0⟩ := by
    unfold Instruction.effect
    rw [hop]
  have hc := hs.consistent_inside
  have hfiber := hs.sound.fiber
  obtain ⟨v, -, hv⟩ := hs.taken (by rw [heffect]; exact Nat.one_pos)
  have hexec := closeTop_eq (m := inside m a rest q) hv (hc.cells.order _ List.mem_cons_self)
  -- the fiber without the variable
  have hsound : ({ (inside m a rest q).fiber with
      stack := m.fiber.stack.pop
      openUpvalues := (inside m a rest q).fiber.openBelow (m.fiber.stack.size - 1) } :
        Fiber).Sound m.heap := by
    refine ⟨hfiber.handle, fun w hw => ?_, hfiber.frames, fun e he => ?_⟩
    · change w ∈ m.fiber.stack.pop at hw
      rw [← Array.mem_toList_iff, Array.toList_pop] at hw
      exact hfiber.stack w (Array.mem_toList_iff.mp (List.mem_of_mem_dropLast hw))
    · exact hfiber.openUpvalues e (Fiber.mem_openBelow.mp he).1
  obtain ⟨hc', hmoves⟩ : _ ∧ Moves wrote _ _ := hc.closing
    { (inside m a rest q).fiber with
      stack := m.fiber.stack.pop
      openUpvalues := (inside m a rest q).fiber.openBelow (m.fiber.stack.size - 1) }
    (m.fiber.stack.size - 1)
    rfl rfl rfl (fun j hj => by
      show m.fiber.stack.pop[j]? = m.fiber.stack[j]?
      rw [Array.getElem?_pop, if_pos hj]) hsound fun _ => rfl
  have hev := (hc.closed (m.fiber.stack.size - 1)).closes.evolves
  refine .of_ok (by unfold Exec.execute; rw [hop]; exact hexec) ⟨⟨hc', .inr ?_⟩,
    law_inside (hc.law hmoves)⟩
  refine hs.executing.fall (by rw [hop]; rfl) (by rw [hop]; nofun) hev.persists hc'.heap_sound
    hc'.sound.fiber rfl rfl ?_ (fun j hj => ?_) (fun j hj _ => .inl ?_) (by rw [hop]; nofun)
    (fun h => by rw [hop] at h; cases h) (.inl hs.ready) fun since deadline hsleep => ?_
  · show m.fiber.stack.pop.size = m.fiber.stack.size - _ + _
    rw [heffect, Array.size_pop]
    rfl
  · obtain ⟨cell, hj⟩ := hj
    obtain ⟨hmem, hlt⟩ := Fiber.mem_openBelow.mp hj
    refine ⟨?_, .inl ⟨cell, hmem⟩⟩
    show j < m.fiber.stack.pop.size
    rw [Array.size_pop]
    exact hlt
  · rw [heffect] at hj
    change j < m.fiber.stack.size - 1 at hj
    show m.fiber.stack.pop[j]? = m.fiber.stack[j]?
    rw [Array.getElem?_pop, if_pos hj]
  · cases hs.ready.symm.trans hsleep

/-! ## The end of an activation -/

/-- What the activation leaves is in the heap. -/
theorem live_answer (hv : m.heap.Live v) :
    ∀ w ∈ (a.past q.instr).frame.answer v, m.heap.Live w := by
  have hpackage := (hs.frame_sound _ _ List.mem_cons_self : (a.past q.instr).frame.Sound m.heap).package
  intro w hw
  unfold Frame.answer at hw
  split at hw
  · rw [List.mem_singleton.mp hw]
    exact hv
  · split at hw
    · rw [List.mem_singleton.mp hw]
      cases hp : (a.past q.instr).frame.package with
      | none => exact Heap.live_none
      | some r => exact (hpackage r hp).live
    · cases hw

/-- The result, and what the machine does with it. -/
theorem ret_eq (hop : q.instr.op = .ret) : ∃ v, m.heap.Live v ∧
    m.fiber.stack[m.fiber.stack.size - 1]? = some v ∧
    Exec.execute q.instr (inside m a rest q) = .ok () (if (rest.map Activation.frame).isEmpty
      then ((inside m a rest q).popped.leaving (a.past q.instr).frame (rest.map Activation.frame)
        []).finishTask v
      else (inside m a rest q).popped.leaving (a.past q.instr).frame (rest.map Activation.frame)
        ((a.past q.instr).frame.answer v)) := by
  have heffect : q.instr.effect = ⟨1, 1, 0⟩ := by
    unfold Instruction.effect
    rw [hop]
  obtain ⟨v, hlive, hv⟩ := hs.taken (by rw [heffect]; exact Nat.one_pos)
  refine ⟨v, hlive, hv, ?_⟩
  unfold Exec.execute
  rw [hop]
  exact Exec.returnFromFrame_eq (m := inside m a rest q) rfl hv
    (hs.consistent_inside.cells.order _ List.mem_cons_self)

/-- Leaving the innermost activation. -/
theorem leaves (hop : q.instr.op = .ret) (values : List Value)
    (hvalues : ∀ v ∈ values, m.heap.Live v) :
    ((inside m a rest q).popped.leaving (a.past q.instr).frame (rest.map Activation.frame)
      values).Consistent ∧ Moves wrote (inside m a rest q) ((inside m a rest q).popped.leaving
        (a.past q.instr).frame (rest.map Activation.frame) values) := by
  have heffect : q.instr.effect = ⟨1, 1, 0⟩ := by
    unfold Instruction.effect
    rw [hop]
  obtain ⟨hc₁, hm₁⟩ : _ ∧ Moves wrote _ _ := hs.consistent_popped (by rw [heffect])
    (by rw [hop]; rfl)
  obtain ⟨hc₂, hm₂⟩ : _ ∧ Moves wrote _ _ := hc₁.leave
    (show _ = (a.past q.instr).frame :: rest.map Activation.frame from rfl) hvalues (by
      show a.frame.base ≤ m.fiber.stack.pop.size
      have hreads := hs.suits.reads
      rw [heffect] at hreads
      rw [Array.size_pop, hs.poised.size]
      omega)
  exact ⟨hc₂, hm₁.trans hm₂⟩

/-- **`ret_inner`** — returning to an activation that waits. -/
theorem ret_inner {b : Activation} {others : List Activation} (hop : q.instr.op = .ret)
    (hrest : rest = b :: others) (hv : m.heap.Live v) :
    let m' := (inside m a rest q).popped.leaving (a.past q.instr).frame (rest.map Activation.frame)
      ((a.past q.instr).frame.answer v)
    m'.Valid ∧ Law wrote m m' := by
  obtain ⟨hc, hmoves⟩ : _ ∧ Moves wrote _ _ := hs.leaves hop _ (hs.live_answer hv)
  refine ⟨⟨hc, .inr ?_⟩, law_inside (hs.consistent_inside.law hmoves)⟩
  obtain ⟨hc₁, -⟩ : _ ∧ Moves wrote _ _ := hs.consistent_popped (by
    unfold Instruction.effect
    rw [hop]) (by rw [hop]; rfl)
  have hev := (hc₁.closed a.frame.base).closes.evolves
  -- the activation that waits gets the answer on its part of the stack
  have hwaiting := hs.poised.waiting.persists hev.persists hc.heap_sound
    (fun c hc' => (hc.sound.fiber.frames c.frame (List.mem_map_of_mem hc')).closure)
    fun v hv => hev.live (hs.consistent.sound.fiber.stack v hv)
  have hhandlers : (m.fiber.handlers.dropWhile fun hd => (rest.map Activation.frame).length < hd.depth) =
      rest.flatMap Activation.handlers := by
    rw [hs.poised.handlers]
    exact dropWhile_handlers hs.poised.sound hs.poised.waiting
  -- the answer was above the callee, which is where the activation starts
  have hle : a.frame.base ≤ m.fiber.stack.pop.size := by
    have hreads := hs.suits.reads
    rw [Array.size_pop, hs.poised.size]
    omega
  subst hrest
  refine hwaiting.resumes rfl hhandlers ?_ (fun j hj => ?_) (fun j hj => ?_) hs.ready
  · show (m.fiber.stack.pop.shrink a.frame.base ++ (a.past q.instr).frame.answer v).size = _
    rw [← Array.length_toList, Array.toList_appendList, List.length_append, Array.length_toList,
      Frame.length_answer, Array.size_shrink, Nat.min_eq_left hle]
    rfl
  · obtain ⟨cell, hj⟩ := hj
    obtain ⟨hmem, hlt⟩ := Fiber.mem_openBelow.mp hj
    exact ⟨⟨cell, hmem⟩, hlt⟩
  · show (m.fiber.stack.pop.shrink a.frame.base ++ (a.past q.instr).frame.answer v)[j]? = _
    have hlt : j < m.fiber.stack.size - 1 := by
      rw [Array.size_pop] at hle
      omega
    rw [← Array.getElem?_toList, Array.toList_appendList, Array.toList_shrink,
      List.getElem?_append_left, List.getElem?_take_of_lt hj, Array.getElem?_toList,
      Array.getElem?_pop, if_pos hlt]
    rw [List.length_take, Array.length_toList]
    omega

/-- **`ret_last`** — returning from the last activation ends the task with the result. -/
theorem ret_last (hop : q.instr.op = .ret) (hrest : rest = []) (hv : m.heap.Live v)
    {th : TaskHandle} (hth : m.heap.task? m.fiber.handle = some th) :
    let m' := ((inside m a rest q).popped.leaving (a.past q.instr).frame (rest.map Activation.frame)
      []).finishTask v
    m'.Valid ∧ Law wrote m m' ∧
      m'.heap.task? m.fiber.handle = some { th with status := .finished, result := v } := by
  subst hrest
  obtain ⟨hc, hmoves⟩ : _ ∧ Moves wrote _ _ := hs.leaves hop [] nofun
  obtain ⟨hc₁, -⟩ : _ ∧ Moves wrote _ _ := hs.consistent_popped (by
    unfold Instruction.effect
    rw [hop]) (by rw [hop]; rfl)
  have hclosed := hc₁.closed a.frame.base
  obtain ⟨th', hth', hid, hrunning⟩ := hs.consistent.tasks.handle m.fiber List.mem_cons_self
  obtain rfl := Option.some.inj (hth'.symm.trans hth)
  have hsame : ((inside m a [] q).popped.leaving (a.past q.instr).frame [] []).heap.task?
      m.fiber.handle = some th' := (hclosed.tasks _).trans hth
  -- nothing is left to run
  have hdone : ∀ t ∈ ((inside m a [] q).popped.leaving (a.past q.instr).frame [] []).fibers,
      t.id = th'.id → t.isDone = true := by
    intro t ht heq
    obtain rfl := hc.tasks.id_inj t ht _ List.mem_cons_self (heq.trans hid)
    rfl
  obtain ⟨hc', hmoves', hhandle⟩ : _ ∧ Moves wrote _ _ ∧ _ :=
    hc.ending .finished hsame (.inl (hrunning hs.running))
    (hclosed.closes.evolves.live hv) nofun hdone
  have hfinish : ((inside m a [] q).popped.leaving (a.past q.instr).frame [] []).finishTask v =
      ((inside m a [] q).popped.leaving (a.past q.instr).frame [] []).endTask th'.id m.fiber.handle
        .finished v := by
    rw [hid]
    rfl
  show Machine.Valid (Machine.finishTask _ v) ∧ Law wrote m (Machine.finishTask _ v) ∧
    (Machine.finishTask _ v).heap.task? m.fiber.handle = _
  rw [List.map_nil, hfinish]
  refine ⟨⟨hc', .inl ?_⟩, law_inside (hs.consistent_inside.law (hmoves.trans hmoves')), hhandle⟩
  -- what the activation held is gone
  have hspent : ((inside m a [] q).popped.leaving (a.past q.instr).frame [] []).fiber.Spent := by
    refine ⟨rfl, ?_, ?_, ?_⟩
    · show m.fiber.stack.pop.shrink a.frame.base ++ [] = #[]
      rw [hs.poised.waiting.nil_top]
      exact Array.eq_empty_of_size_eq_zero (by simp)
    · show Fiber.openBelow _ a.frame.base = []
      rw [hs.poised.waiting.nil_top]
      exact Fiber.openBelow_zero
    · show m.fiber.handlers.dropWhile _ = []
      rw [hs.poised.handlers]
      exact dropWhile_handlers hs.poised.sound hs.poised.waiting
  exact hspent.wake _

/-- **`ret`** — a return completes. -/
theorem ret (hop : q.instr.op = .ret) :
    m.Completes q wrote (Exec.execute q.instr) (inside m a rest q) := by
  obtain ⟨v, hv, -, hexec⟩ := hs.ret_eq hop
  cases hrest : rest with
  | nil =>
    obtain ⟨th, hth, -⟩ := hs.consistent.tasks.handle m.fiber List.mem_cons_self
    obtain ⟨hvalid, hlaw, -⟩ : _ ∧ Law wrote _ _ ∧ _ := hs.ret_last hop hrest hv hth
    subst hrest
    exact .of_ok hexec ⟨hvalid, hlaw⟩
  | cons b others =>
    have hinner : _ ∧ Law wrote _ _ := hs.ret_inner hop hrest hv
    subst hrest
    exact .of_ok hexec hinner

end Stepping

end ScriptMachine
