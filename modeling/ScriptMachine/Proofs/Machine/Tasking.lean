import Mathlib
import ScriptMachine.Proofs.Machine.Returning

/-!
# ScriptMachine.Proofs.Machine.Tasking — starting, awaiting and aborting tasks

A task starts with an id that was never given before and a handle of its own, and its fiber waits at
the start of a function without parameters. Awaiting a task that runs parks the fiber before the
instruction; awaiting one that has ended yields what its handle says. Aborting a task drops its fiber.

`awaitTask` and `abortTask` are the results, each a choice of what becomes of the task: it has ended, it
still runs, or the value is no task that can be waited for. An await on a running task is not a
failure, and it does not complete either: the fiber stays where it is and will execute the instruction
again. A task can neither await nor abort itself.
-/

namespace ScriptMachine

variable {m m' : Machine} {h h' : Heap} {t t' : Fiber} {a : Activation}
  {rest : List Activation} {q : Placed} {v : Value} {r : Ref} {th : TaskHandle}
  {wrote : Ref → Prop}

/-! ## Awaiting -/

namespace Exec

/-- Awaiting a task that has ended: the result of its handle takes the place of the task. -/
theorem awaitTask_ended (hpeek : peek 0 m = .ok (.obj r) m) (hth : m.heap.task? r = some th)
    (hended : th.status ≠ .running) (hresult : th.status ≠ .finished → th.result = .none) :
    awaitTask m = .ok () { m with fiber := { m.fiber with
      stack := (m.fiber.stack.shrink (m.fiber.stack.size - 1)).push th.result } } := by
  unfold awaitTask
  rw [bind_ok hpeek]
  dsimp only
  rw [get_bind, hth]
  dsimp only
  cases hstatus : th.status with
  | running => exact (hended hstatus).elim
  | finished => rfl
  | aborted =>
    rw [hresult (by rw [hstatus]; nofun)]
    rfl

/-- Awaiting another task that runs: the fiber is parked before the instruction. -/
theorem awaitTask_running {f : Frame} {frames : List Frame} (hpeek : peek 0 m = .ok (.obj r) m)
    (hth : m.heap.task? r = some th) (hrunning : th.status = .running) (hne : th.id ≠ m.fiber.id)
    (hframes : m.fiber.frames = f :: frames) :
    awaitTask m = .ok () { m with fiber := { m.fiber with
      state := .parked th.id, frames := { f with ip := f.ip - 1 } :: frames } } := by
  unfold awaitTask
  rw [bind_ok hpeek]
  dsimp only
  rw [get_bind, hth]
  dsimp only
  rw [hrunning]
  dsimp only
  rw [get_bind, if_neg hne]
  unfold modifyFiber
  rw [modify_bind]
  exact modifyIp_eq (m := { m with fiber := { m.fiber with state := .parked th.id } }) hframes _

/-- Nothing but another task can be awaited. -/
theorem awaitTask_refused (hpeek : peek 0 m = .ok v m)
    (hv : ∀ r th, v = .obj r → m.heap.task? r = some th →
      th.status = .running ∧ th.id = m.fiber.id) :
    ∃ e, e ≠ .stuck ∧ awaitTask m = .error e m := by
  unfold awaitTask
  rw [bind_ok hpeek]
  cases v with
  | obj r =>
    dsimp only
    rw [get_bind]
    cases hth : m.heap.task? r with
    | none => exact ⟨.notAwaitable, nofun, rfl⟩
    | some th =>
      obtain ⟨hrunning, hid⟩ := hv r th rfl hth
      dsimp only
      rw [hrunning]
      dsimp only
      rw [get_bind, if_pos hid]
      exact ⟨.awaitsItself, nofun, rfl⟩
  | _ => exact ⟨.notAwaitable, nofun, rfl⟩

end Exec

namespace Stepping

variable (hs : Stepping m a rest q)
include hs

/-- The instruction fails before it has done anything that it would have to take back. -/
theorem fails {k : Nat} {e : Fault} (hexec : Exec.execute q.instr (inside m a rest q) = .error e m')
    (he : e ≠ .stuck) (hraises : q.instr.op.mayRaise = true)
    (hcloses : q.instr.op.closesTaken = false) (hm : Amid (scene m a rest q) k m') :
    m.Completes q wrote (Exec.execute q.instr) (inside m a rest q) := by
  unfold Machine.Completes Exec.Meets
  rw [hexec]
  exact .inr ⟨he, hs.faulting hraises hcloses hm⟩

/-- **`await_ended`** — awaiting a task that has ended yields the result that its handle has. -/
theorem await_ended (hop : q.instr.op = .awaitTask)
    (htop : m.fiber.stack[m.fiber.stack.size - 1]? = some (.obj r))
    (hth : m.heap.task? r = some th) (hended : th.status ≠ .running) :
    let t' := { (inside m a rest q).fiber with
      stack := (m.fiber.stack.shrink (m.fiber.stack.size - 1)).push th.result }
    Exec.execute q.instr (inside m a rest q) = .ok () { inside m a rest q with fiber := t' } ∧
      { inside m a rest q with fiber := t' }.Valid ∧
      Law wrote m { inside m a rest q with fiber := t' } := by
  have heffect : q.instr.effect = ⟨1, 1, 1⟩ := by
    unfold Instruction.effect
    rw [hop]
  have hlt := (Array.getElem?_eq_some_iff.mp htop).1
  have hpeek : Exec.peek 0 (inside m a rest q) = .ok (.obj r) (inside m a rest q) :=
    Exec.peek_eq (by show 0 < m.fiber.stack.size; omega) htop
  have hresult := (hs.consistent.tasks.known r th hth).2
  refine ⟨?_, hs.falls (by rw [hop]; rfl) (by rw [hop]; nofun) (by rw [hop]; nofun)
    (by rw [hop]; rfl) (by rw [hop]; rfl) (fun w hw => ?_) ?_ fun j hj => ?_⟩
  · unfold Exec.execute
    rw [hop]
    exact Exec.awaitTask_ended hpeek hth hended hresult
  · rcases Array.mem_push.mp hw with hw | rfl
    · rw [← Array.mem_toList_iff, Array.toList_shrink] at hw
      exact hs.consistent.sound.fiber.stack w (Array.mem_toList_iff.mp (List.mem_of_mem_take hw))
    · exact (hs.consistent.heap_sound.objects r _ (Heap.task?_eq_some.mp hth)).2
  · rw [heffect, Array.size_push, Array.size_shrink, Nat.min_eq_left (Nat.sub_le ..)]
  · rw [heffect] at hj
    have hsize : j < (m.fiber.stack.shrink (m.fiber.stack.size - 1)).size := by
      rw [Array.size_shrink, Nat.min_eq_left (Nat.sub_le ..)]
      exact hj
    rw [Array.getElem?_push_lt hsize, ← Array.getElem?_eq_getElem hsize, ← Array.getElem?_toList,
      Array.toList_shrink, List.getElem?_take_of_lt hj, Array.getElem?_toList]

/-- **`await_running`** — awaiting another task that runs parks the fiber where it is. -/
theorem await_running (hop : q.instr.op = .awaitTask)
    (htop : m.fiber.stack[m.fiber.stack.size - 1]? = some (.obj r))
    (hth : m.heap.task? r = some th) (hrunning : th.status = .running) (hne : th.id ≠ m.fiber.id) :
    let t' := { m.fiber with state := .parked th.id }
    Exec.execute q.instr (inside m a rest q) = .ok () { inside m a rest q with fiber := t' } ∧
      { inside m a rest q with fiber := t' }.Valid ∧
      Law wrote m { inside m a rest q with fiber := t' } := by
  have hlt := (Array.getElem?_eq_some_iff.mp htop).1
  have hpeek : Exec.peek 0 (inside m a rest q) = .ok (.obj r) (inside m a rest q) :=
    Exec.peek_eq (by show 0 < m.fiber.stack.size; omega) htop
  have hwidth : q.instr.width = 1 := by
    have hcaptures := hs.suits.inRange.captures_eq_nil (by rw [hop]; decide)
    simp [Instruction.width, hcaptures, hop, Operation.shape, Instruction.shapeWidth]
  have hfiber := hs.consistent.sound.fiber
  have halive : ({ m.fiber with state := .parked th.id } : Fiber).Alive m.heap := by
    refine ⟨a, rest, q, { hs.poised with
      fresh := fun hfresh => ?_
      parked := fun _ _ => hop
      sleeping := fun _ _ hsleep => by cases hsleep
      rests := fun _ _ hsleep => by cases hsleep }⟩
    rw [hop] at hfresh
    cases hfresh
  refine ⟨?_, hs.onward halive rfl rfl rfl
    ⟨hfiber.handle, hfiber.stack, hfiber.frames, hfiber.openUpvalues⟩ hs.values_same⟩
  unfold Exec.execute
  rw [hop]
  refine (Exec.awaitTask_running hpeek hth hrunning hne rfl).trans ?_
  -- the fiber goes back by the width of the instruction, to where it was
  have hip : ({ a.frame with ip := a.frame.ip + q.instr.width - 1 } : Frame) = a.frame := by
    rw [hwidth]
    rfl
  show EStateM.Result.ok () { inside m a rest q with fiber := { m.fiber with
    state := .parked th.id
    frames := { a.frame with ip := a.frame.ip + q.instr.width - 1 } ::
      rest.map Activation.frame } } = _
  rw [hip, ← hs.poised.frames]

/-- **`awaitTask`** — an await completes. -/
theorem awaitTask (hop : q.instr.op = .awaitTask) :
    m.Completes q wrote (Exec.execute q.instr) (inside m a rest q) := by
  have heffect : q.instr.effect = ⟨1, 1, 1⟩ := by
    unfold Instruction.effect
    rw [hop]
  obtain ⟨v, -, htop⟩ := hs.taken (by rw [heffect]; exact Nat.one_pos)
  have hlt := (Array.getElem?_eq_some_iff.mp htop).1
  by_cases hv : ∃ r th, v = .obj r ∧ m.heap.task? r = some th ∧
      ¬ (th.status = .running ∧ th.id = m.fiber.id)
  · obtain ⟨r, th, rfl, hth, hother⟩ := hv
    by_cases hrunning : th.status = .running
    · obtain ⟨hexec, hvalid, hlaw⟩ : _ ∧ _ ∧ Law wrote _ _ :=
        hs.await_running hop htop hth hrunning fun hid => hother ⟨hrunning, hid⟩
      exact .of_ok hexec ⟨hvalid, hlaw⟩
    · obtain ⟨hexec, hvalid, hlaw⟩ : _ ∧ _ ∧ Law wrote _ _ := hs.await_ended hop htop hth hrunning
      exact .of_ok hexec ⟨hvalid, hlaw⟩
  · -- what is on top cannot be awaited
    have hpeek : Exec.peek 0 (inside m a rest q) = .ok v (inside m a rest q) :=
      Exec.peek_eq (by show 0 < m.fiber.stack.size; omega) htop
    obtain ⟨e, he, herror⟩ := Exec.awaitTask_refused hpeek fun r th heq hth => by
      by_contra hnot
      exact hv ⟨r, th, heq, hth, hnot⟩
    refine hs.fails ?_ he (by rw [hop]; rfl) (by rw [hop]; rfl) hs.amid
    unfold Exec.execute
    rw [hop]
    exact herror

end Stepping

/-! ## Aborting -/

/-- The machine without the fiber `t` of a task. -/
def Machine.without (m : Machine) (task : Nat) (t : Fiber) : Machine :=
  { m with queue := m.queue.eraseP fun u => u.id = task, heap := (t.reset m.heap).2 }

namespace Exec

/-- Nothing but another task can be aborted. -/
theorem abortTop_refused (htop : m.fiber.stack[m.fiber.stack.size - 1]? = some v)
    (hv : ∀ r th, v = .obj r → m.heap.task? r = some th → th.id = m.fiber.id) :
    ∃ e, e ≠ .stuck ∧ abortTop m = .error e m.popped := by
  unfold abortTop
  rw [bind_ok (pop_eq htop)]
  cases v with
  | obj r =>
    dsimp only
    rw [get_bind]
    show ∃ e, e ≠ .stuck ∧ (if (m.heap.task? r).isSome then abort r else throw .notAbortable)
      m.popped = .error e m.popped
    cases hth : m.heap.task? r with
    | none => exact ⟨.notAbortable, nofun, rfl⟩
    | some th =>
      have hneed : need (m.popped.heap.task? r) m.popped = .ok th m.popped := by
        show need (m.heap.task? r) _ = _
        rw [hth]
        rfl
      refine ⟨.abortsItself, nofun, ?_⟩
      show abort r m.popped = _
      unfold abort
      rw [get_bind, bind_ok hneed, get_bind,
        if_pos (show th.id = m.popped.fiber.id from hv r th rfl hth)]
      rfl
  | _ => exact ⟨.notAbortable, nofun, rfl⟩

/-- What aborting another task comes to: the handle goes from the stack, and the task, if it is in
the queue, ends there. -/
theorem abortTop_eq (htop : m.fiber.stack[m.fiber.stack.size - 1]? = some (.obj r))
    (hth : m.heap.task? r = some th) (hne : th.id ≠ m.fiber.id) :
    abortTop m = .ok () ((m.queue.find? fun t => t.id = th.id).elim m.popped fun t =>
      (m.popped.without th.id t).endTask th.id r .aborted .none) := by
  have hneed : need (m.popped.heap.task? r) m.popped = .ok th m.popped := by
    show need (m.heap.task? r) _ = _
    rw [hth]
    rfl
  unfold abortTop
  rw [bind_ok (pop_eq htop)]
  dsimp only
  rw [get_bind]
  show (if (m.heap.task? r).isSome then abort r else throw .notAbortable) m.popped = _
  rw [hth]
  show abort r m.popped = _
  unfold abort
  rw [get_bind, bind_ok hneed, get_bind, if_neg (show ¬ th.id = m.popped.fiber.id from hne)]
  dsimp only
  rw [get_bind]
  cases hfind : m.queue.find? fun t => t.id = th.id with
  | none =>
    rw [show m.popped.queue.find? (fun t => decide (t.id = th.id)) = none from hfind]
    rfl
  | some t =>
    rw [show m.popped.queue.find? (fun t => decide (t.id = th.id)) = some t from hfind]
    rfl

end Exec

/-- **`Consistent.dismissing`** — the fiber of a task that waits is dropped, and no other has its id. -/
theorem Machine.Consistent.dismissing (hc : m.Consistent)
    (hfind : m.queue.find? (fun t => t.id = th.id) = some t) :
    (m.without th.id t).Consistent ∧ Moves wrote m (m.without th.id t) ∧
      m.heap.Evolves (m.without th.id t).heap ∧
      (∀ r, (m.without th.id t).heap.task? r = m.heap.task? r) ∧
      (∀ u ∈ (m.without th.id t).fibers, u.id ≠ th.id) ∧
      ∀ u ∈ m.queue, u.id = th.id ∨ u ∈ (m.without th.id t).queue := by
  have hid : t.id = th.id := by simpa using List.find?_some hfind
  have hmem := List.mem_of_find?_eq_some hfind
  have hfibers : t ∈ m.fibers := List.mem_cons_of_mem _ hmem
  obtain ⟨u, before, after, -, hu, hqueue, herase⟩ :=
    List.exists_of_eraseP (p := fun u => u.id = th.id) hmem (decide_eq_true hid)
  obtain rfl : u = t := hc.tasks.id_inj u
    (List.mem_cons_of_mem _ (by rw [hqueue]; simp)) t hfibers ((of_decide_eq_true hu).trans hid.symm)
  have hwithout : m.without th.id u =
      { m with heap := (u.reset m.heap).2, queue := before ++ after } := by
    rw [Machine.without, herase]
  obtain ⟨hc₁, hm₁⟩ : _ ∧ Moves wrote _ _ := hc.discarding _ hqueue
  have hclosed : Cells.Closed u 0 m.heap (u.reset m.heap).2 :=
    hc.cells.closed hfibers hc.sound.heap (hc.sound.queue u hmem) 0
  rw [hwithout]
  refine ⟨hc₁, hm₁, hclosed.closes.evolves, hclosed.tasks, fun w hw => ?_, fun w hw => ?_⟩
  · exact hid ▸ hc.id_ne_dropped _ hqueue w hw
  · rw [hqueue, List.mem_append, List.mem_cons] at hw
    rcases hw with hw | rfl | hw
    · exact .inr (List.mem_append_left _ hw)
    · exact .inl hid
    · exact .inr (List.mem_append_right _ hw)

/-- **`Consistent.aborting`** — the fiber of a task that waits is dropped, and its handle says so. -/
theorem Machine.Consistent.aborting (hc : m.Consistent) (hth : m.heap.task? r = some th)
    (hfind : m.queue.find? (fun t => t.id = th.id) = some t) :
    let m' := (m.without th.id t).endTask th.id r .aborted .none
    m'.Consistent ∧ Moves wrote m m' ∧ m.heap.Evolves m'.heap ∧
      m'.heap.task? r = some { th with status := .aborted, result := .none } := by
  obtain ⟨hc₁, hm₁, hev, htasks, hne, -⟩ : _ ∧ Moves wrote _ _ ∧ _ := hc.dismissing hfind
  -- the handle of the fiber is the one that is aborted, and it was running
  have hid : t.id = th.id := by simpa using List.find?_some hfind
  have hmem := List.mem_of_find?_eq_some hfind
  obtain ⟨th', hth', hid', hrunning⟩ := hc.tasks.handle t (List.mem_cons_of_mem _ hmem)
  obtain rfl := hc.tasks.single _ _ _ _ hth' hth (hid'.trans hid)
  obtain rfl := Option.some.inj (hth'.symm.trans hth)
  have hrun := hrunning (hc.waiting t hmem).not_done
  have hsame := (htasks t.handle).trans hth
  obtain ⟨hc₂, hm₂, hhandle⟩ : _ ∧ Moves wrote _ _ ∧ _ := hc₁.ending .aborted hsame
    (.inl hrun) Heap.live_none (fun _ => rfl) fun v hv heq => (hne v hv heq).elim
  exact ⟨hc₂, hm₁.trans hm₂, hev.trans (hc₁.endTask_evolves hsame Heap.live_none), hhandle⟩

namespace Stepping

variable (hs : Stepping m a rest q)
include hs

/-- The fiber of an abort goes on, whatever becomes of the heap. -/
theorem goes_popped (hop : q.instr.op = .abortTask) (hh : m.heap.Persists h') (hs' : h'.Sound)
    (ht : (inside m a rest q).popped.fiber.Sound h') :
    (inside m a rest q).popped.fiber.Alive h' := by
  have heffect : q.instr.effect = ⟨1, 1, 0⟩ := by
    unfold Instruction.effect
    rw [hop]
  have hsize : (inside m a rest q).popped.fiber.stack.size = m.fiber.stack.size - 1 :=
    Array.size_pop
  refine hs.executing.fall (by rw [hop]; rfl) (by rw [hop]; nofun) hh hs' ht rfl rfl ?_
    (fun j hj => ⟨?_, .inl hj⟩) (fun j hj _ => .inl ?_) (by rw [hop]; nofun)
    (fun h => by rw [hop] at h; cases h) (.inl hs.ready) fun since deadline hsleep => ?_
  · rw [hsize, heffect]
    rfl
  · have hlt := hs.poised.open_lt (by rw [hop]; rfl) hj
    rw [heffect] at hlt
    rw [hsize]
    exact hlt
  · rw [heffect] at hj
    change j < m.fiber.stack.size - 1 at hj
    show m.fiber.stack.pop[j]? = m.fiber.stack[j]?
    rw [Array.getElem?_pop, if_pos hj]
  · cases hs.ready.symm.trans hsleep

/-- **`abort_waiting`** — aborting a task that has not ended drops its fiber and ends it without a
result. -/
theorem abort_waiting (hop : q.instr.op = .abortTask)
    (htop : m.fiber.stack[m.fiber.stack.size - 1]? = some (.obj r))
    (hth : m.heap.task? r = some th) (hne : th.id ≠ m.fiber.id)
    (hfind : m.queue.find? (fun t => t.id = th.id) = some t) :
    let m' := ((inside m a rest q).popped.without th.id t).endTask th.id r .aborted .none
    Exec.execute q.instr (inside m a rest q) = .ok () m' ∧ m'.Valid ∧ Law wrote m m' ∧
      m'.heap.task? r = some { th with status := .aborted, result := .none } := by
  have heffect : q.instr.effect = ⟨1, 1, 0⟩ := by
    unfold Instruction.effect
    rw [hop]
  obtain ⟨hc₁, hm₁⟩ : _ ∧ Moves wrote _ _ := hs.consistent_popped (by rw [heffect])
    (by rw [hop]; rfl)
  obtain ⟨hc₂, hm₂, hev, hhandle⟩ : _ ∧ Moves wrote _ _ ∧ _ := hc₁.aborting hth hfind
  refine ⟨?_, ⟨hc₂, .inr ?_⟩, law_inside (hs.consistent_inside.law (hm₁.trans hm₂)), hhandle⟩
  · unfold Exec.execute
    rw [hop]
    refine (Exec.abortTop_eq (m := inside m a rest q) htop hth hne).trans ?_
    rw [show (inside m a rest q).queue.find? (fun t => decide (t.id = th.id)) = some t from hfind]
    rfl
  · have halive := hs.goes_popped hop hev.persists hc₂.heap_sound (hev.fiber hc₁.sound.fiber)
    exact halive.wake th.id

/-- **`abortTask`** — an abort completes. -/
theorem abortTask (hop : q.instr.op = .abortTask) :
    m.Completes q wrote (Exec.execute q.instr) (inside m a rest q) := by
  have heffect : q.instr.effect = ⟨1, 1, 0⟩ := by
    unfold Instruction.effect
    rw [hop]
  obtain ⟨v, -, htop⟩ := hs.taken (by rw [heffect]; exact Nat.one_pos)
  by_cases hv : ∃ r th, v = .obj r ∧ m.heap.task? r = some th ∧ th.id ≠ m.fiber.id
  · obtain ⟨r, th, rfl, hth, hne⟩ := hv
    cases hfind : m.queue.find? fun t => t.id = th.id with
    | some t =>
      obtain ⟨hexec, hvalid, hlaw, -⟩ : _ ∧ _ ∧ Law wrote _ _ ∧ _ :=
        hs.abort_waiting hop htop hth hne hfind
      exact .of_ok hexec ⟨hvalid, hlaw⟩
    | none =>
      -- the task has ended already
      obtain ⟨hc, hmoves⟩ : _ ∧ Moves wrote _ _ := hs.consistent_popped (by rw [heffect])
        (by rw [hop]; rfl)
      have hexec : Exec.execute q.instr (inside m a rest q) = .ok () (inside m a rest q).popped := by
        unfold Exec.execute
        rw [hop]
        refine (Exec.abortTop_eq (m := inside m a rest q) htop hth hne).trans ?_
        rw [show (inside m a rest q).queue.find? (fun t => decide (t.id = th.id)) = none from hfind]
        rfl
      have halive := hs.goes_popped hop (Heap.Evolves.refl _).persists hc.heap_sound hc.sound.fiber
      exact .of_ok hexec ⟨⟨hc, .inr halive⟩, law_inside (hs.consistent_inside.law hmoves)⟩
  · -- what is on top cannot be aborted
    obtain ⟨e, he, herror⟩ := Exec.abortTop_refused (m := inside m a rest q) htop
      fun r th heq hth => by
        by_contra hnot
        exact hv ⟨r, th, heq, hth, hnot⟩
    have hamid : Amid (scene m a rest q) (0 + 1) (inside m a rest q) := by
      have hfirst := hs.amid
      rwa [heffect] at hfirst
    refine hs.fails ?_ he (by rw [hop]; rfl) (by rw [hop]; rfl) hamid.popped
    unfold Exec.execute
    rw [hop]
    exact herror

end Stepping

end ScriptMachine
