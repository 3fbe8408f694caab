import Mathlib
import ScriptMachine.Proofs.Machine.Passage
import ScriptMachine.Proofs.Machine.Tasks

/-!
# ScriptMachine.Proofs.Machine.Standing — what handles and waiters are told

A handle that says its task runs, and a task that is parked for another, both rely on that task having
something left to run. A task that is relied on and has nothing left is *missed*: whoever awaits it waits
forever.

No step makes a task missed but two. Both drop a spawned task while it has its turn and leave its handle
as it is: a file it imports does not compile, and that ends the run; or the host loads a script in the
middle of the run. The task is *stranded* then. The tasks that wait are dropped as well, but their handles
are told.

`Reachable.truthful` is the result. Its step is `Valid.honours`, one case for each way to go on: a step
makes nobody missed that it does not strand. `uncompilable_misses` is the converse for the first of the
two ways, that a spawned task which imports a file that does not compile is missed indeed, which is a
defect. `truthful_awaitInTurn` applies the result to a run with tasks that run, wait and were aborted.
-/

namespace ScriptMachine

variable {m m' m₁ : Machine} {t t' : Fiber} {a : Activation} {rest : List Activation} {q : Placed}
  {e : Fault} {id : Nat} {gone gone' : Nat → Prop} {h : Heap}

namespace Machine

/-- **`m.Lives id`** — the task has something left to run. -/
def Lives (m : Machine) (id : Nat) : Prop :=
  ∃ t ∈ m.alive, t.id = id

/-- **`m.Relies id`** — a handle says that the task runs, or another task waits for it. -/
def Relies (m : Machine) (id : Nat) : Prop :=
  (∃ r th, m.heap.task? r = some th ∧ th.id = id ∧ th.status = .running) ∨
    ∃ t ∈ m.alive, t.state = .parked id

/-- **`m.Misses id`** — the task is relied on, but it has nothing left to run. -/
def Misses (m : Machine) (id : Nat) : Prop :=
  m.Relies id ∧ ¬ m.Lives id

/-- **`m.Strands id m'`** — the step drops the spawned task that has its turn, and its handle is not told:
the task imports a file that does not compile, or a script is loaded before the run has ended. -/
inductive Strands : Machine → Nat → Machine → Prop
  | uncompilable {m m₁ : Machine} {errors : Array CompileError} (hready : m.Ready)
      (hhonest : m.heap.Honest) (hstep : Exec.step m = .error (.uncompilable errors) m₁)
      (hspawned : m.fiber.id ≠ mainTask) :
      Strands m m.fiber.id (m₁.raise (.uncompilable errors)).2
  | loads {m : Machine} {source path : String} {script : Ref} {h : Heap}
      (hcompile : compile m.heap source path = (.ok script, h)) (hlive : m.fiber.isDone = false)
      (hspawned : m.fiber.id ≠ mainTask) :
      Strands m m.fiber.id ({ m with heap := h }.load script path)

/-- **`m.Stranded id`** — the task was stranded at some time. -/
inductive Stranded : Machine → Nat → Prop
  | strands {m m' : Machine} {id : Nat} (hm : m.Reachable) (hstrands : m.Strands id m') :
      Stranded m' id
  | goes {m m' : Machine} {id : Nat} (hm : Stranded m id) (hgoes : m.Goes m') : Stranded m' id
  | native {m : Machine} {id : Nat} (hm : Stranded m id) (name : String) (body : NativeBody) :
      Stranded (m.defineNative name body) id

/-- **`m.Truthful`** — the handle of a task with something left to run says that it runs. Conversely, a
task whose handle says so, and a task that another waits for, has something left to run, unless it was
stranded; and a task that is stranded by its import is missed. -/
structure Truthful (m : Machine) : Prop where
  live : ∀ t ∈ m.alive, ∃ th, m.heap.task? t.handle = some th ∧ th.id = t.id ∧ th.status = .running
  running : ∀ r th, m.heap.task? r = some th → th.status = .running →
    m.Lives th.id ∨ m.Stranded th.id
  parked : ∀ t ∈ m.alive, ∀ id, t.state = .parked id → m.Lives id ∨ m.Stranded id
  strands : ∀ errors m₁, m.Ready → m.heap.Honest →
    Exec.step m = .error (.uncompilable errors) m₁ → m.fiber.id ≠ mainTask →
      (m₁.raise (.uncompilable errors)).2.Misses m.fiber.id

/-- **`m.Honours gone m'`** — what is missed afterwards was missed before, or it is gone. -/
def Honours (m : Machine) (gone : Nat → Prop) (m' : Machine) : Prop :=
  ∀ id, m'.Misses id → m.Misses id ∨ gone id

/-! ## Tasks that live on -/

theorem mem_alive : t ∈ m.alive ↔ t = m.fiber ∧ m.fiber.isDone = false ∨ t ∈ m.queue := by
  unfold alive
  split <;> simp_all

theorem lives_fiber (hlive : m.fiber.isDone = false) : m.Lives m.fiber.id :=
  ⟨m.fiber, mem_alive.mpr (.inl ⟨rfl, hlive⟩), rfl⟩

theorem lives_queue (ht : t ∈ m.queue) : m.Lives t.id :=
  ⟨t, mem_alive.mpr (.inr ht), rfl⟩

namespace Honours

/-- Promises are kept one step after the other; the tasks that end on the way add up. -/
theorem trans (h : m.Honours gone m₁) (h' : m₁.Honours gone' m') :
    m.Honours (fun id => gone id ∨ gone' id) m' := by
  intro id hmiss
  rcases h' id hmiss with hmiss | hgone
  · exact (h id hmiss).imp_right .inl
  · exact .inr (.inr hgone)

theorem mono (h : m.Honours gone m') (hgone : ∀ id, gone id → gone' id) : m.Honours gone' m' :=
  fun id hmiss => (h id hmiss).imp_right (hgone id)

/-- **`Honours.of_calm`** — no handle is made to say that its task runs, no task is parked anew, and all
live on but those that are gone. -/
theorem of_calm (htasks : ∀ r th, m'.heap.task? r = some th → m.heap.task? r = some th)
    (hparked : ∀ t' ∈ m'.alive, ∀ id, t'.state = .parked id → m.Relies id)
    (hlives : ∀ t ∈ m.alive, m'.Lives t.id ∨ gone t.id) : m.Honours gone m' := by
  intro id ⟨hrelies, hnot⟩
  have hbefore : m.Relies id := by
    obtain ⟨r, th, hr, hth⟩ | ⟨t', ht', hstate⟩ := hrelies
    · exact .inl ⟨r, th, htasks r th hr, hth⟩
    · exact hparked t' ht' id hstate
  by_cases hlive : m.Lives id
  · obtain ⟨t, ht, rfl⟩ := hlive
    exact .inr ((hlives t ht).resolve_left hnot)
  · exact .inl ⟨hbefore, hlive⟩

/-- The running fiber goes on, and the others are the same. -/
theorem of_onward (htasks : ∀ r th, m'.heap.task? r = some th → m.heap.task? r = some th)
    (hqueue : m'.queue = m.queue) (hid : m'.fiber.id = m.fiber.id)
    (hlive : m'.fiber.isDone = false)
    (hstate : ∀ id, m'.fiber.state = .parked id → m.Relies id) : m.Honours gone m' := by
  refine of_calm htasks (fun t' ht' id hparked => ?_) fun t ht => .inl ?_
  · rcases mem_alive.mp ht' with ⟨rfl, -⟩ | ht'
    · exact hstate id hparked
    · exact .inr ⟨t', mem_alive.mpr (.inr (hqueue ▸ ht')), hparked⟩
  · rcases mem_alive.mp ht with ⟨rfl, -⟩ | ht
    · exact hid ▸ lives_fiber hlive
    · exact lives_queue (hqueue ▸ ht)

/-- Neither the fibers nor the handles have changed. -/
theorem of_same (htasks : ∀ r th, m'.heap.task? r = some th → m.heap.task? r = some th)
    (hfibers : m'.fibers = m.fibers) : m.Honours gone m' := by
  obtain ⟨hfiber, hqueue⟩ := List.cons.inj hfibers
  have halive : m'.alive = m.alive := by
    unfold alive
    rw [hfiber, hqueue]
  exact of_calm htasks (fun t' ht' _ hstate => .inr ⟨t', halive ▸ ht', hstate⟩)
    fun t ht => .inl ⟨t, halive ▸ ht, rfl⟩

end Honours

/-! ## Tasks that end -/

/-- The end of one task wakes others, and no other task ends by it. -/
theorem alive_endTask (m : Machine) (task : Nat) (handle : Ref) (status : TaskStatus) (v : Value) :
    (m.endTask task handle status v).alive = m.alive.map (Fiber.wake task) := by
  unfold alive endTask wakeWaiters
  dsimp only
  rw [Fiber.wake_isDone]
  split <;> rfl

/-- **`Consistent.misses_endTask`** — the task that ends is missed by nobody, and no other is that was not
missed before. -/
theorem Consistent.misses_endTask (hc : m.Consistent) {r : Ref} {th : TaskHandle}
    {status : TaskStatus} {v : Value} (hr : m.heap.task? r = some th) (hstatus : status ≠ .running)
    (hmiss : (m.endTask th.id r status v).Misses id) : m.Misses id ∧ id ≠ th.id := by
  obtain ⟨hrelies, hnot⟩ := hmiss
  have hnot' : ¬ m.Lives id := by
    rintro ⟨t, ht, rfl⟩
    exact hnot ⟨t.wake th.id, alive_endTask .. ▸ List.mem_map_of_mem ht, Fiber.wake_id⟩
  suffices hbefore : m.Relies id ∧ id ≠ th.id from ⟨⟨hbefore.1, hnot'⟩, hbefore.2⟩
  obtain ⟨r', th', hr', hid, hrunning⟩ | ⟨t', ht', hstate⟩ := hrelies
  · -- the handle of the task that ends does not say that it runs
    have hget : (m.heap.modifyHandle r fun t => { t with status, result := v }).get? r' =
      some (.task th') := Heap.task?_eq_some.mp hr'
    rw [Heap.modifyHandle, Heap.get?_modify] at hget
    split at hget
    · rename_i heq
      subst heq
      rw [Heap.task?_eq_some.mp hr] at hget
      obtain rfl := Obj.task.inj (Option.some.inj hget)
      exact (hstatus hrunning).elim
    · rename_i hne
      have hbefore := Heap.task?_eq_some.mpr hget
      refine ⟨.inl ⟨r', th', hbefore, hid, hrunning⟩, fun heq => hne ?_⟩
      exact hc.tasks.single _ _ _ _ hbefore hr (hid.trans heq)
  · rw [alive_endTask] at ht'
    obtain ⟨t, ht, rfl⟩ := List.mem_map.mp ht'
    obtain ⟨hparked, hne⟩ := Fiber.parked_wake hstate
    exact ⟨.inr ⟨t, ht, hparked⟩, hne⟩

end Machine

/-! ## Instructions -/

namespace Stepping

variable (hs : Stepping m a rest q)
include hs

/-- **`Honouring m a rest q`** — if the instruction succeeds, no task is missed that was not. -/
def Honouring (m : Machine) (a : Activation) (rest : List Activation) (q : Placed) : Prop :=
  (Exec.execute q.instr).Meets (inside m a rest q) (fun _ m' => m.Honours (fun _ => False) m')
    fun _ _ => True

omit hs in
theorem Honouring.of_ok (hexec : Exec.execute q.instr (inside m a rest q) = .ok () m')
    (hm : m.Honours (fun _ => False) m') : Honouring m a rest q := by
  unfold Honouring Exec.Meets
  rw [hexec]
  exact hm

omit hs in
/-- What fails is raised, which is accounted for apart. -/
theorem Honouring.of_error (hexec : Exec.execute q.instr (inside m a rest q) = .error e m') :
    Honouring m a rest q := by
  unfold Honouring Exec.Meets
  rw [hexec]
  trivial

omit hs in
/-- An instruction that changes nothing but the running fiber, which stays able to run. -/
theorem honours_onward (hexec : Exec.execute q.instr (inside m a rest q) =
      .ok () { inside m a rest q with fiber := t' }) (hid : t'.id = m.fiber.id)
    (hlive : t'.isDone = false) (hready : t'.state = .ready) : Honouring m a rest q := by
  refine .of_ok hexec (.of_onward (fun _ _ hr => hr) rfl hid hlive fun id hstate => ?_)
  cases hready.symm.trans hstate

/-- A jump, wherever it leads. -/
theorem honours_modifyIp (g : Nat → Nat)
    (hexec : Exec.execute q.instr (inside m a rest q) = Exec.modifyIp g (inside m a rest q)) :
    Honouring m a rest q :=
  honours_onward (hexec.trans (Exec.modifyIp_eq (m := inside m a rest q) rfl g)) rfl rfl hs.ready

/-- A plain instruction. -/
theorem honours_plain (hplain : q.instr.op.isPlain = true) : Honouring m a rest q := by
  refine Exec.Meets.mono (Amid.execute hs.setting hplain hs.amid) (fun _ m' hdone => ?_)
    fun _ _ _ => trivial
  cases hdone with
  | settles hm =>
    have hfiber : m'.fiber = { (inside m a rest q).fiber with
        stack := m'.fiber.stack, state := m'.fiber.state } := hm.fiber
    refine .of_onward hm.calm.tasks hm.queue ?_ ?_ fun id hparked => ?_
    · rw [hfiber]
      rfl
    · rw [hfiber]
      rfl
    · rcases hm.state with hstate | ⟨-, since, deadline, hstate⟩
      · cases (hstate.trans hs.ready).symm.trans hparked
      · cases hstate.symm.trans hparked
  | @enters m₁ f p hm =>
    have hfiber : m₁.fiber = { (inside m a rest q).fiber with stack := m₁.fiber.stack } :=
      hm.amid.fiber
    refine .of_onward (fun r th hr => hm.amid.still.tasks r ▸ hr) hm.amid.queue ?_ rfl
      fun id hparked => ?_
    · show m₁.fiber.id = _
      rw [hfiber]
      rfl
    · change m₁.fiber.state = _ at hparked
      rw [hfiber] at hparked
      cases hs.ready.symm.trans hparked

/-- Another task's stack may be written, and its handle is still its own. -/
theorem honours_setUpvalue (hop : q.instr.op = .setUpvalue) : Honouring m a rest q := by
  obtain ⟨r, v, u, -, -, hu, -, hexec⟩ := hs.setUpvalue_eq hop
  rw [Exec.writeUpvalue_eq (m := inside m a rest q) hu] at hexec
  unfold Machine.setShared at hexec
  cases u with
  | closed w =>
    refine .of_ok hexec (.of_onward (fun r' th hr' => ?_) rfl rfl rfl fun id hparked => ?_)
    · rw [Heap.task?_eq_some] at hr' ⊢
      change (m.heap.modify r _).get? r' = _ at hr'
      rw [Heap.get?_modify] at hr'
      split at hr'
      · obtain ⟨o, -, ho⟩ := Option.map_eq_some_iff.mp hr'
        cases ho
      · exact hr'
    · cases hs.ready.symm.trans hparked
  | onStack task slot =>
    dsimp only at hexec
    split at hexec
    · exact honours_onward hexec rfl rfl hs.ready
    · -- the variable of a fiber that waits
      refine .of_ok hexec (.of_calm (fun _ _ hr => hr) (fun t' ht' id hparked => ?_) fun t ht => .inl ?_)
      · rcases Machine.mem_alive.mp ht' with ⟨rfl, -⟩ | ht'
        · cases hs.ready.symm.trans hparked
        · obtain ⟨t, ht, rfl⟩ := List.mem_map.mp ht'
          refine .inr ⟨t, Machine.mem_alive.mpr (.inr ht), ?_⟩
          split at hparked <;> exact hparked
      · rcases Machine.mem_alive.mp ht with ⟨rfl, -⟩ | ht
        · exact Machine.lives_fiber (m := { inside m a rest q with queue := _ }) rfl
        · refine ⟨_, Machine.mem_alive.mpr (.inr (List.mem_map_of_mem ht)), ?_⟩
          split <;> rfl

/-- Capturing makes cells, and none of them is a handle. -/
theorem honours_closure (hop : q.instr.op = .closure) : Honouring m a rest q := by
  obtain ⟨r, rs, m₁, -, hm₁, hk, -, hexec, -, (_ : Law (fun _ => False) _ _)⟩ := hs.makes hop
  have hfiber : m₁.fiber = { (inside m a rest q).fiber with
      openUpvalues := m₁.fiber.openUpvalues } := by rw [hk.machine]
  refine .of_ok hexec (.of_onward (fun r' th hr' => ?_) ?_ ?_ ?_ fun id hparked => ?_)
  · refine hk.tasks r' th ?_
    rw [Heap.task?_eq_some] at hr' ⊢
    change (m₁.heap.alloc _).2.get? r' = _ at hr'
    rw [hm₁.healthy.sound.tidy.get?_alloc] at hr'
    split at hr'
    · cases hr'
    · exact hr'
  · show m₁.queue = _
    rw [hk.machine]
    rfl
  · show m₁.fiber.id = _
    rw [hfiber]
    rfl
  · show m₁.fiber.isDone = _
    rw [hfiber]
    rfl
  · change m₁.fiber.state = _ at hparked
    rw [hfiber] at hparked
    cases hs.ready.symm.trans hparked

/-- Closing a variable does not concern the tasks. -/
theorem honours_closeUpvalue (hop : q.instr.op = .closeUpvalue) : Honouring m a rest q := by
  have heffect : q.instr.effect = ⟨1, 1, 0⟩ := by
    unfold Instruction.effect
    rw [hop]
  have hc := hs.consistent_inside
  obtain ⟨v, -, hv⟩ := hs.taken (by rw [heffect]; exact Nat.one_pos)
  have hexec := closeTop_eq (m := inside m a rest q) hv (hc.cells.order _ List.mem_cons_self)
  have hexecute : Exec.execute q.instr (inside m a rest q) = Exec.closeTop (inside m a rest q) := by
    unfold Exec.execute
    rw [hop]
  refine .of_ok (hexecute.trans hexec) (.of_onward (fun r th hr => ?_) rfl rfl rfl fun id hparked => ?_)
  · exact (hc.closed (m.fiber.stack.size - 1)).tasks r ▸ hr
  · cases hs.ready.symm.trans hparked

/-! ### Activations and tasks -/

/-- A task has returned from its last activation, or it goes on in the one that waits. -/
theorem honours_ret (hop : q.instr.op = .ret) : Honouring m a rest q := by
  have heffect : q.instr.effect = ⟨1, 1, 0⟩ := by
    unfold Instruction.effect
    rw [hop]
  obtain ⟨v, hv, -, hexec⟩ := hs.ret_eq hop
  obtain ⟨hc₁, -⟩ : _ ∧ Moves (fun _ => False) _ _ := hs.consistent_popped (by rw [heffect])
    (by rw [hop]; rfl)
  have htasks := (hc₁.closed a.frame.base).tasks
  cases hrest : rest with
  | cons b others =>
    subst hrest
    refine .of_ok hexec (.of_onward (fun r th hr => htasks r ▸ hr) rfl rfl rfl fun id hparked => ?_)
    cases hs.ready.symm.trans hparked
  | nil =>
    subst hrest
    obtain ⟨th, hth, hid, -⟩ := hs.consistent.tasks.handle m.fiber List.mem_cons_self
    obtain ⟨hc, -⟩ : _ ∧ Moves (fun _ => False) _ _ := hs.leaves hop [] nofun
    have hleaves : m.Honours (· = th.id)
        ((inside m a [] q).popped.leaving (a.past q.instr).frame [] []) := by
      refine .of_calm (fun r th hr => htasks r ▸ hr) (fun t' ht' id hparked => ?_) fun t ht => ?_
      · rcases Machine.mem_alive.mp ht' with ⟨-, hlive⟩ | ht'
        · cases hlive
        · exact .inr ⟨t', Machine.mem_alive.mpr (.inr ht'), hparked⟩
      · rcases Machine.mem_alive.mp ht with ⟨rfl, -⟩ | ht
        · exact .inr hid.symm
        · exact .inl (Machine.lives_queue ht)
    refine .of_ok hexec fun id hmiss => ?_
    have hmiss' : (Machine.endTask ((inside m a [] q).popped.leaving (a.past q.instr).frame [] [])
        th.id m.fiber.handle .finished v).Misses id := by
      rw [hid]
      exact hmiss
    have hended : TaskStatus.finished ≠ .running := nofun
    obtain ⟨hbefore, hne⟩ := hc.misses_endTask ((htasks _).trans hth) hended hmiss'
    exact .inl ((hleaves id hbefore).resolve_right hne)

/-- The handle of the new task says that it runs, and the task waits for its turn. -/
theorem honours_spawn (hop : q.instr.op = .spawn) : Honouring m a rest q := by
  obtain ⟨r, c, p, htop, hclosure, hp, -⟩ := hs.thunk hop
  have hheap := hs.consistent.sound.heap
  have hstill : m.heap.Still m.nextName.2 := hheap.sound.tidy.still_intern _
  have hnamed : m.nextName.2.Healthy := hheap.intern _
  have hev : m.heap.Evolves m.nextHandle.2 :=
    hstill.evolves.trans (hnamed.sound.tidy.keeps_alloc (.task m.nextTask)).evolves
  have hexec : Exec.execute q.instr (inside m a rest q) = Exec.spawnTop (inside m a rest q) := by
    unfold Exec.execute
    rw [hop]
  rcases Nat.lt_or_ge (m.lastTask + 1) taskIds with hleft | hleft
  case inr =>
    exact .of_error (hexec.trans (Exec.spawnTop_stuck (m := inside m a rest q) hleft htop))
  refine .of_ok (hexec.trans (Exec.spawnTop_eq (m := inside m a rest q) hleft htop
    (hev.closure? hclosure) (hev.prototype? hp))) ?_
  rintro id ⟨hrelies, hnot⟩
  -- the tasks that there were are still there
  have hnot' : ¬ m.Lives id := by
    rintro ⟨t, ht, rfl⟩
    rcases Machine.mem_alive.mp ht with ⟨rfl, -⟩ | ht
    · exact hnot (Machine.lives_fiber (m := Machine.pushed _ _) rfl)
    · exact hnot (Machine.lives_queue (m := Machine.pushed _ _) (List.mem_append_left _ ht))
  refine .inl ⟨?_, hnot'⟩
  obtain ⟨r', th, hr', hid, hrunning⟩ | ⟨t', ht', hparked⟩ := hrelies
  · rw [Heap.task?_eq_some] at hr'
    change m.nextHandle.2.get? r' = _ at hr'
    unfold Machine.nextHandle at hr'
    rw [hnamed.sound.tidy.get?_alloc] at hr'
    split at hr'
    · obtain rfl := Obj.task.inj (Option.some.inj hr')
      refine (hnot ⟨_, Machine.mem_alive.mpr (.inr (List.mem_append_right _ List.mem_cons_self)), ?_⟩).elim
      exact hid
    · exact .inl ⟨r', th, (hstill.tasks r').symm.trans (Heap.task?_eq_some.mpr hr'), hid, hrunning⟩
  · rcases Machine.mem_alive.mp ht' with ⟨rfl, -⟩ | ht'
    · cases hs.ready.symm.trans hparked
    · rcases List.mem_append.mp ht' with ht' | ht'
      · exact .inr ⟨t', Machine.mem_alive.mpr (.inr ht'), hparked⟩
      · rw [List.mem_singleton.mp ht'] at hparked
        cases hparked

/-- A task is parked only for one whose handle says that it runs. -/
theorem honours_awaitTask (hop : q.instr.op = .awaitTask) : Honouring m a rest q := by
  have heffect : q.instr.effect = ⟨1, 1, 1⟩ := by
    unfold Instruction.effect
    rw [hop]
  obtain ⟨v, -, htop⟩ := hs.taken (by rw [heffect]; exact Nat.one_pos)
  by_cases hv : ∃ r th, v = .obj r ∧ m.heap.task? r = some th ∧
      ¬ (th.status = .running ∧ th.id = m.fiber.id)
  · obtain ⟨r, th, rfl, hth, hother⟩ := hv
    by_cases hrunning : th.status = .running
    · obtain ⟨hexec, -, (_ : Law (fun _ => False) _ _)⟩ :=
        hs.await_running hop htop hth hrunning fun hid => hother ⟨hrunning, hid⟩
      refine .of_ok hexec (.of_onward (fun _ _ hr => hr) rfl rfl hs.running fun id hparked => ?_)
      obtain rfl := FiberState.parked.inj hparked
      exact .inl ⟨r, th, hth, rfl, hrunning⟩
    · obtain ⟨hexec, -, (_ : Law (fun _ => False) _ _)⟩ := hs.await_ended hop htop hth hrunning
      exact honours_onward hexec rfl rfl hs.ready
  · -- what is on top cannot be awaited
    have hlt := (Array.getElem?_eq_some_iff.mp htop).1
    have hpeek : Exec.peek 0 (inside m a rest q) = .ok v (inside m a rest q) :=
      Exec.peek_eq (by show 0 < m.fiber.stack.size; omega) htop
    obtain ⟨e, -, herror⟩ := Exec.awaitTask_refused hpeek fun r th heq hth => by
      by_contra hnot
      exact hv ⟨r, th, heq, hth, hnot⟩
    unfold Honouring Exec.Meets Exec.execute
    rw [hop]
    dsimp only
    rw [herror]
    trivial

/-- The task that is aborted is gone, and its handle says so. -/
theorem honours_abortTask (hop : q.instr.op = .abortTask) : Honouring m a rest q := by
  have heffect : q.instr.effect = ⟨1, 1, 0⟩ := by
    unfold Instruction.effect
    rw [hop]
  obtain ⟨v, -, htop⟩ := hs.taken (by rw [heffect]; exact Nat.one_pos)
  by_cases hv : ∃ r th, v = .obj r ∧ m.heap.task? r = some th ∧ th.id ≠ m.fiber.id
  · obtain ⟨r, th, rfl, hth, hne⟩ := hv
    cases hfind : m.queue.find? fun t => t.id = th.id with
    | none =>
      -- the task has ended already
      have hexec : Exec.execute q.instr (inside m a rest q) =
          .ok () (inside m a rest q).popped := by
        unfold Exec.execute
        rw [hop]
        refine (Exec.abortTop_eq (m := inside m a rest q) htop hth hne).trans ?_
        rw [show (inside m a rest q).queue.find? (fun t => decide (t.id = th.id)) = none from hfind]
        rfl
      exact honours_onward hexec rfl rfl hs.ready
    | some t =>
      obtain ⟨hexec, -, (_ : Law (fun _ => False) _ _), -⟩ := hs.abort_waiting hop htop hth hne hfind
      obtain ⟨hc, -⟩ : _ ∧ Moves (fun _ => False) _ _ := hs.consistent_popped (by rw [heffect])
        (by rw [hop]; rfl)
      obtain ⟨hc₁, -, -, htasks, -, hothers⟩ : _ ∧ Moves (fun _ => False) _ _ ∧ _ :=
        hc.dismissing hfind
      have hdropped : m.Honours (· = th.id) ((inside m a rest q).popped.without th.id t) := by
        refine .of_calm (fun r th hr => htasks r ▸ hr) (fun t' ht' id hparked => ?_) fun u hu => ?_
        · rcases Machine.mem_alive.mp ht' with ⟨rfl, -⟩ | ht'
          · cases hs.ready.symm.trans hparked
          · exact .inr ⟨t', Machine.mem_alive.mpr (.inr (List.mem_of_mem_eraseP ht')), hparked⟩
        · rcases Machine.mem_alive.mp hu with ⟨rfl, -⟩ | hu
          · exact .inl (Machine.lives_fiber (m := Machine.without _ _ _) rfl)
          · exact (hothers u hu).symm.imp_left Machine.lives_queue
      refine .of_ok hexec fun id hmiss => ?_
      have haborted : TaskStatus.aborted ≠ .running := nofun
      obtain ⟨hbefore, hne⟩ := hc₁.misses_endTask ((htasks r).trans hth) haborted hmiss
      exact .inl ((hdropped id hbefore).resolve_right hne)
  · -- what is on top cannot be aborted
    obtain ⟨e, -, herror⟩ := Exec.abortTop_refused (m := inside m a rest q) htop
      fun r th heq hth => by
        by_contra hnot
        exact hv ⟨r, th, heq, hth, hnot⟩
    unfold Honouring Exec.Meets Exec.execute
    rw [hop]
    dsimp only
    rw [herror]
    trivial

/-- **`honours`** — whichever the instruction is, if it succeeds no task is missed that was not. -/
theorem honours : Honouring m a rest q := by
  cases hop : q.instr.op with
  | setLocal =>
    obtain ⟨v, -, -, hexec⟩ := hs.setLocal_eq hop
    exact honours_onward hexec rfl rfl hs.ready
  | setUpvalue => exact hs.honours_setUpvalue hop
  | jump | loop => exact hs.honours_modifyIp _ (by unfold Exec.execute; rw [hop])
  | jumpIfFalse =>
    rcases hs.jumpIfFalse_eq hop with hexec | hexec
    · exact honours_onward hexec rfl rfl hs.ready
    · exact honours_onward hexec rfl rfl hs.ready
  | closure => exact hs.honours_closure hop
  | closeUpvalue => exact hs.honours_closeUpvalue hop
  | ret => exact hs.honours_ret hop
  | spawn => exact hs.honours_spawn hop
  | awaitTask => exact hs.honours_awaitTask hop
  | abortTask => exact hs.honours_abortTask hop
  | tryBegin => exact honours_onward (tryBegin_eq hop) rfl rfl hs.ready
  | tryEnd => exact honours_onward (tryEnd_eq hop) rfl rfl hs.ready
  | pop => exact honours_onward (hs.pop_eq hop) rfl rfl hs.ready
  | _ => exact hs.honours_plain (by rw [hop]; rfl)

end Stepping

/-! ## Turns -/

/-- The scheduler parks no task. -/
theorem Schedules.parked {turn : Turn} (hs : Schedules m turn m') :
    ∀ t' ∈ m'.alive, ∀ id, t'.state = .parked id → t' ∈ m.alive := by
  -- who gets the turn is ready, and who had it keeps its state
  have hswitch : ∀ {m : Machine} {ts : List Fiber} {t : Fiber}, t.state = .ready →
      (∀ u ∈ ts, u ∈ m.queue) → ∀ t' ∈ (m.switchTo t ts).alive, ∀ id, t'.state = .parked id →
        t' ∈ m.alive := by
    intro m ts t hready hts t' ht' id hparked
    rcases Machine.mem_alive.mp ht' with ⟨rfl, -⟩ | ht'
    · cases hready.symm.trans hparked
    · unfold Machine.switchTo at ht'
      dsimp only at ht'
      split at ht'
      · exact Machine.mem_alive.mpr (.inr (hts t' ht'))
      · rename_i hlive
        rcases List.mem_append.mp ht' with ht' | ht'
        · exact Machine.mem_alive.mpr (.inr (hts t' ht'))
        · exact Machine.mem_alive.mpr
            (.inl ⟨List.mem_singleton.mp ht', Bool.eq_false_iff.mpr hlive⟩)
  induction hs with
  | @other m passed after t t' start mid stop hstart hqueue hskips hw =>
    exact hswitch (m := { m with clock := stop }) hw.turned.2.1 fun u hu => by
      rw [show m.queue = _ from hqueue]
      simp only [List.mem_append, List.mem_cons] at hu ⊢
      tauto
  | @same m t' start mid stop hstart hskips hlive hw =>
    intro u hu id hparked
    rcases Machine.mem_alive.mp hu with ⟨rfl, -⟩ | hu
    · cases hw.turned.2.1.symm.trans hparked
    · exact Machine.mem_alive.mpr (.inr hu)
  | later _ _ _ _ _ _ ih => exact ih
  | finished => exact fun t' ht' _ _ => ht'
  | @deadlock m start stop hstart hskips hdeadline hsome =>
    rcases Machine.deadlocked_cases (m := { m with clock := stop }) hsome with
      ⟨-, -, heq⟩ | ⟨before, next, after, hqueue, -, -, heq⟩
    · rw [heq]
      intro u hu id hparked
      rcases Machine.mem_alive.mp hu with ⟨rfl, -⟩ | hu
      · cases hparked
      · exact Machine.mem_alive.mpr (.inr hu)
    · rw [heq]
      exact hswitch (m := { m with clock := stop }) rfl fun u hu => by
        rw [show m.queue = _ from hqueue]
        simp only [List.mem_append, List.mem_cons] at hu ⊢
        tauto

namespace Machine

/-- **`Valid.honours_turn`** — no task is missed for who gets a turn. -/
theorem Valid.honours_turn {turn : Turn} (hv : m.Valid) (hs : Schedules m turn m') :
    m.Honours gone m' := by
  obtain ⟨ts, hperm, hturned⟩ := (hs.conserves hv.queue_live).alive
  have hids := (turned_same hturned).1
  refine .of_calm (fun r th hr => hs.lasts.1 ▸ hr) (fun t' ht' id hparked => ?_) fun t ht => .inl ?_
  · exact .inr ⟨t', hs.parked t' ht' id hparked, hparked⟩
  · obtain ⟨t', ht', hid⟩ := List.mem_map.mp (hids ▸ List.mem_map_of_mem ht)
    exact ⟨t', hperm.mem_iff.mp ht', hid⟩

/-! ## Errors -/

/-- Nothing is left to run when every task is dropped. -/
theorem alive_abandon (m : Machine) : m.abandon.alive = [] := by
  unfold Machine.abandon
  dsimp only
  split <;> rfl

/-- **`Faulting.honours_abandon`** — when every task is dropped, only the one that has its turn can be
missed, and it is no main task. -/
theorem Faulting.honours_abandon (hf : m.Faulting) :
    m.Honours (fun id => id = m.fiber.id ∧ id ≠ mainTask) m.abandon := by
  obtain ⟨hvalid, hmoves⟩ : _ ∧ Moves (fun _ => False) _ _ := hf.abandon
  rintro id ⟨hrelies, -⟩
  have hlast : m.abandon.lastTask = m.lastTask := by
    unfold Machine.abandon
    dsimp only
    split <;> rfl
  obtain ⟨r, th', hr', rfl, hrunning⟩ | ⟨t, ht, -⟩ := hrelies
  · -- the handle was there, and its task did not wait in the queue
    obtain hnew | ⟨th, hr, hid, -⟩ := hmoves.tasks r th' hr'
    · exact absurd hnew (Nat.not_lt.mpr (hlast ▸ (hvalid.tasks.known r th' hr').1))
    have hhandle := hf.abandon_handle hr
    rw [hr'] at hhandle
    split at hhandle
    · obtain rfl := Option.some.inj hhandle
      cases hrunning
    rename_i hnot
    obtain ⟨hqueue, hmain⟩ := not_or.mp hnot
    obtain rfl := Option.some.inj hhandle
    by_cases hlive : m.Lives th'.id
    · obtain ⟨t, ht, hid⟩ := hlive
      rcases mem_alive.mp ht with ⟨rfl, -⟩ | ht
      · refine .inr ⟨hid.symm, fun heq => hmain ⟨hid.trans heq, ?_⟩⟩
        obtain ⟨th₁, hth₁, hid₁⟩ := hf.tasks.main
        exact hf.tasks.single _ _ _ _ hr hth₁ (heq.trans hid₁.symm)
      · exact (hqueue (hid ▸ List.mem_map_of_mem ht)).elim
    · exact .inl ⟨.inl ⟨r, th', hr, rfl, hrunning⟩, hlive⟩
  · rw [alive_abandon] at ht
    cases ht

/-- A task that nothing handles the error of ends. -/
theorem Faulting.honours_finish (hf : m.Faulting) :
    m.Honours gone (m.resetFiber.finishTask .none) := by
  obtain ⟨-, th, hth, hid, -⟩ := hf.running
  obtain ⟨hc, -, hspent, htasks⟩ : _ ∧ Moves (fun _ => False) _ _ ∧ _ := hf.toConsistent.resetting
  have hreset : m.Honours (· = th.id) m.resetFiber := by
    refine .of_calm (fun r th hr => htasks r ▸ hr) (fun t' ht' id hparked => ?_) fun t ht => ?_
    · rcases mem_alive.mp ht' with ⟨-, hlive⟩ | ht'
      · cases hspent.done.symm.trans hlive
      · exact .inr ⟨t', mem_alive.mpr (.inr ht'), hparked⟩
    · rcases mem_alive.mp ht with ⟨rfl, -⟩ | ht
      · exact .inr hid.symm
      · exact .inl (lives_queue ht)
  have hfinish : m.resetFiber.finishTask .none =
      m.resetFiber.endTask th.id m.fiber.handle .finished .none := by
    rw [finishTask, Consistent.id_resetFiber, Consistent.handle_resetFiber, hid]
  rw [hfinish]
  intro id hmiss
  have hended : TaskStatus.finished ≠ .running := by decide
  obtain ⟨hbefore, hne⟩ := hc.misses_endTask ((htasks _).trans hth) hended hmiss
  exact .inl ((hreset id hbefore).resolve_right hne)

/-- **`Faulting.honours`** — an error strands no task that it can be caught by. -/
theorem Faulting.honours (hf : m.Faulting) (hstuck : e ≠ .stuck) (hendless : e ≠ .endless) :
    m.Honours (fun id => ¬ e.Catchable ∧ id = m.fiber.id ∧ id ≠ mainTask) (m.raise e).2 := by
  by_cases hcatchable : e.Catchable
  · cases hhandlers : m.fiber.handlers with
    | cons hd hds =>
      obtain ⟨f, inner, others, -, -, -, -, -, -, heq⟩ := hf.unwound e.message hhandlers
      have hmem : ∀ r, ((m.cutBack hd hds f others).withText e.message).heap.task? r =
          m.heap.task? r := fun r => by
        have hclosed := hf.toConsistent.closed hd.height
        have hstill := hclosed.closes.healthy.sound.tidy.still_intern e.message
        exact (hstill.tasks r).trans (hclosed.tasks r)
      obtain ⟨a, rest, q, hfailing⟩ := hf.failing
      rw [raise_handled hcatchable hhandlers]
      dsimp only
      rw [heq]
      refine .of_onward (fun r th hr => hmem r ▸ hr) rfl rfl rfl fun id hparked => ?_
      cases hfailing.ready.symm.trans hparked
    | nil =>
      by_cases hid : m.fiber.id = mainTask
      · rw [raise_main hcatchable hhandlers hid]
        exact hf.honours_abandon.mono fun id hgone => (hgone.2 (hgone.1.trans hid)).elim
      · rw [raise_uncaught hcatchable hhandlers hid]
        exact (hf.withErrors _).honours_finish
  · -- a file that is no program
    have hends : (m.raise e).2 = m.abandon := by
      cases e <;> first
        | rfl
        | exact (hcatchable trivial).elim
        | exact (hstuck rfl).elim
        | exact (hendless rfl).elim
    rw [hends]
    exact hf.honours_abandon.mono fun id hgone => ⟨hcatchable, hgone⟩

/-! ## Scripts -/

theorem lastTask_startMain (m : Machine) (closure : Ref) (chunk : Chunk) :
    (m.startMain closure chunk).lastTask = m.lastTask := by
  unfold startMain defineGlobal
  dsimp only
  split <;> rfl

/-- **`Valid.honours_load`** — when a script is loaded only the task that has its turn can be missed. -/
theorem Valid.honours_load {source path : String} {script : Ref} (hv : m.Valid)
    (hcompile : compile m.heap source path = (.ok script, h)) :
    m.Honours (fun id => id = m.fiber.id ∧ id ≠ mainTask ∧ m.fiber.isDone = false)
      ({ m with heap := h }.load script path) := by
  obtain ⟨m₁, r, c, p, heq, hc, -, hfibers, htasks, hclosure, hp, harity, hpackage⟩ :
    ∃ m₁ r c p, _ ∧ _ ∧ Moves (fun _ => False) m m₁ ∧ _ := hv.loaded hcompile
  obtain ⟨hfiber, hqueue⟩ := List.cons.inj hfibers
  -- first the tasks that wait are dropped
  obtain ⟨hc₁, hm₁, hev, hdropped⟩ : _ ∧ Moves (fun _ => False) _ _ ∧ _ := hc.dropping
  obtain ⟨hvalid, hmoves⟩ : _ ∧ Moves (fun _ => False) _ _ :=
    hc₁.starting (hev.closure? hclosure) (hev.prototype? hp) harity hpackage
  have hsame : m₁.dropOthers.startMain r p.chunk = m₁.startMain r p.chunk := rfl
  rw [hsame] at hvalid hmoves
  obtain ⟨hnone, hbegins, -⟩ := begins_startMain m₁ r p.chunk
  have hid : (m₁.startMain r p.chunk).fiber.id = mainTask := by
    unfold startMain defineGlobal
    dsimp only
    split <;> rfl
  have hlive : (m₁.startMain r p.chunk).fiber.isDone = false := by
    unfold startMain defineGlobal
    dsimp only
    split <;> rfl
  have hready : (m₁.startMain r p.chunk).fiber.state = .ready := by
    unfold startMain defineGlobal
    dsimp only
    split <;> rfl
  rw [heq]
  rintro id ⟨hrelies, hnot⟩
  have hspawned : id ≠ mainTask := fun heq => hnot (heq ▸ hid ▸ lives_fiber hlive)
  obtain ⟨r', th, hr', rfl, hrunning⟩ | ⟨t, ht, hparked⟩ := hrelies
  · -- the handle said so before, and its task did not wait in the queue
    have hbound := (hvalid.tasks.known r' th hr').1
    rw [lastTask_startMain] at hbound
    obtain hnew | ⟨th₁, hr₁, hid₁, -, hchange⟩ := hmoves.tasks r' th hr'
    · exact absurd hnew (Nat.not_lt.mpr hbound)
    have hrun₁ : th₁.status = .running := by
      obtain rfl | hrun | hmain := hchange
      · exact hrunning
      · exact hrun
      · exact (hspawned (hid₁ ▸ hmain)).elim
    obtain hnew | ⟨th₂, hr₂, hid₂, -⟩ := hm₁.tasks r' th₁ hr₁
    · exact absurd hnew (Nat.not_lt.mpr (hid₁ ▸ hbound))
    have hhandle := hdropped r' th₂ hr₂
    rw [hr₁] at hhandle
    split at hhandle
    · obtain rfl := Option.some.inj hhandle
      cases hrun₁
    rename_i hwaits
    obtain rfl := Option.some.inj hhandle
    by_cases hlive : m.Lives th.id
    · obtain ⟨t, ht, hid⟩ := hlive
      rcases mem_alive.mp ht with ⟨rfl, hdone⟩ | ht
      · exact .inr ⟨hid.symm, hspawned, hdone⟩
      · refine (hwaits ?_).elim
        rw [hid₁, ← hid, hqueue]
        exact List.mem_map_of_mem ht
    · exact .inl ⟨.inl ⟨r', th₁, htasks r' ▸ hr₂, hid₁, hrun₁⟩, hlive⟩
  · rcases mem_alive.mp ht with ⟨rfl, -⟩ | ht
    · cases hready.symm.trans hparked
    · rw [hnone] at ht
      cases ht

/-! ## Every step -/

/-- **`Valid.honours`** — a task is missed only if it was before or if the step strands it. -/
theorem Valid.honours (hv : m.Valid) (hgoes : m.Goes m') :
    m.Honours (fun id => m.Strands id m') m' := by
  cases hgoes with
  | steps hready hhonest hstep =>
    obtain ⟨a, rest, q, hs⟩ := hv.stepping hready hhonest
    have hhonours := hs.honours
    unfold Stepping.Honouring Exec.Meets at hhonours
    rw [Exec.step_eq hs.poised] at hstep
    rw [hstep] at hhonours
    exact hhonours.mono fun _ => False.elim
  | @fails m₁ e hready hhonest hstep hstuck hendless =>
    obtain ⟨a, rest, q, k, hs, -, hamid, hfaulting⟩ := hv.fails hready hhonest hstep hstuck
    have hfiber : m₁.fiber = { (Stepping.inside m a rest q).fiber with stack := m₁.fiber.stack } :=
      hamid.fiber
    have hid : m₁.fiber.id = m.fiber.id := by
      rw [hfiber]
      rfl
    -- until the error is raised, nothing has happened to any task
    have hbefore : m.Honours (fun _ => False) m₁ := by
      refine .of_onward (fun r th hr => hamid.still.tasks r ▸ hr) hamid.queue hid ?_ fun id hparked => ?_
      · rw [hfiber]
        rfl
      · rw [hfiber] at hparked
        cases hs.ready.symm.trans hparked
    refine (hbefore.trans (hfaulting.honours hstuck hendless)).mono fun id hgone => ?_
    obtain ⟨hcatchable, heq, hspawned⟩ := hgone.resolve_left not_false
    rw [hid] at heq
    subst heq
    -- of the errors that can get so far, only one ends the run wherever it is raised
    cases e with
    | uncompilable errors => exact .uncompilable hready hhonest hstep hspawned
    | stuck => exact (hstuck rfl).elim
    | endless => exact (hendless rfl).elim
    | _ => exact (hcatchable trivial).elim
  | turns hturn => exact hv.honours_turn hturn
  | deadlocks hturn =>
    obtain ⟨hfaulting, -⟩ : _ ∧ Moves (fun _ => False) _ _ := hturn.faulting hv
    have hturned : m.Honours (fun _ => False) _ := hv.honours_turn hturn
    have hraised := hfaulting.honours (e := .deadlock) nofun nofun
    exact (hturned.trans hraised).mono fun id hgone =>
      ((hgone.resolve_left not_false).1 trivial).elim
  | collects => exact .of_same (hv.heap_sound.calm_collect m.roots).tasks rfl
  | interns text =>
    exact .of_same (fun r th hr => (hv.heap_sound.tidy.still_intern text).tasks r ▸ hr) rfl
  | compiles source path =>
    exact .of_same (fun r th hr => (healthy_compile hv.sound.heap source path).2.tasks r ▸ hr) rfl
  | loads hcompile =>
    refine (hv.honours_load hcompile).mono fun id ⟨heq, hspawned, hlive⟩ => ?_
    subst heq
    exact .loads hcompile hlive hspawned
  | defines name hlive =>
    refine .of_same (fun r th hr => ?_) (fibers_defineGlobal m name _)
    rw [heap_defineGlobal] at hr
    exact (hv.heap_sound.tidy.still_intern name).tasks r ▸ hr
  | ends | outside => exact .of_same (fun _ _ hr => hr) rfl

/-- **`Valid.uncompilable_misses`** — a spawned task that imports a file that does not compile is missed
from then on. -/
theorem Valid.uncompilable_misses {errors : Array CompileError} (hv : m.Valid) (hready : m.Ready)
    (hhonest : m.heap.Honest) (hstep : Exec.step m = .error (.uncompilable errors) m₁)
    (hspawned : m.fiber.id ≠ mainTask) :
    (m₁.raise (.uncompilable errors)).2.Misses m.fiber.id := by
  obtain ⟨a, rest, q, k, hs, -, hamid, hf⟩ := hv.fails hready hhonest hstep nofun
  have hfiber : m₁.fiber = { (Stepping.inside m a rest q).fiber with stack := m₁.fiber.stack } :=
    hamid.fiber
  have hid : m₁.fiber.id = m.fiber.id := by
    rw [hfiber]
    rfl
  obtain ⟨-, th, hth, heq, hrunning, -⟩ := hf.running
  have hothers : ¬ (th.id ∈ m₁.queue.map Fiber.id ∨
      m₁.fiber.id = mainTask ∧ m₁.fiber.handle = m₁.mainHandle) := by
    rintro (hmem | ⟨hmain, -⟩)
    · obtain ⟨t, ht, hsame⟩ := List.mem_map.mp hmem
      exact hf.toConsistent.id_ne ht (hsame.trans heq)
    · exact hspawned (hid ▸ hmain)
  have hhandle := hf.abandon_handle hth
  rw [if_neg hothers] at hhandle
  have hraise : (m₁.raise (.uncompilable errors)).2 = m₁.abandon := rfl
  rw [hraise]
  refine ⟨.inl ⟨_, th, hhandle, heq.trans hid, hrunning⟩, ?_⟩
  rintro ⟨t, ht, -⟩
  rw [alive_abandon] at ht
  cases ht

/-- A native function is defined, and nothing else has changed. -/
theorem Valid.honours_native (hv : m.Valid) (name : String) (body : NativeBody) :
    m.Honours (fun _ => False) (m.defineNative name body) := by
  have htidy := hv.heap_sound.tidy
  refine .of_same (fun r th hr => ?_) (fibers_defineGlobal ..)
  unfold defineNative at hr
  rw [heap_defineGlobal] at hr
  have hstill := (htidy.alloc (.native ⟨name, body⟩)).still_intern name
  have hmade := (hstill.tasks r).symm.trans hr
  rw [Heap.task?_eq_some, htidy.get?_alloc] at hmade
  split at hmade
  · cases hmade
  · exact Heap.task?_eq_some.mpr hmade

/-- The one handle of a machine without builtins says that the main task has ended. -/
theorem status_bare (config : Config) (files : Files) {r : Ref} {th : TaskHandle}
    (hr : (bare config files).heap.task? r = some th) : th.status = .finished := by
  have hintern : ∀ {h : Heap}, h.Tidy ∧ (∀ r, h.task? r = none) → ∀ s,
      (h.intern s).2.Tidy ∧ ∀ r, (h.intern s).2.task? r = none := fun ⟨htidy, hnone⟩ s =>
    ⟨(htidy.intern s).1, fun r => ((htidy.still_intern s).tasks r).trans (hnone r)⟩
  have hempty : (Heap.new config.heap).Tidy ∧ ∀ r, (Heap.new config.heap).task? r = none :=
    ⟨Heap.new_tidy _, by simp [Heap.new, Heap.task?, Heap.get?]⟩
  have hnames := hintern (hintern (hintern (hintern (hintern hempty "init") "__args__")
    "__ans__") "__name__") "default"
  unfold bare at hr
  dsimp only at hr
  generalize Heap.intern _ "default" = taskName at hnames hr
  obtain ⟨htidy, hnone⟩ := hnames
  rw [Heap.task?_eq_some, htidy.get?_alloc] at hr
  split at hr
  · obtain rfl := Obj.task.inj (Option.some.inj hr)
    rfl
  · cases (hnone r).symm.trans (Heap.task?_eq_some.mpr hr)

/-- Nothing is missed in a machine that has not run anything. -/
theorem not_misses_new (config : Config) (files : Files) : ¬ (new config files).Misses id := by
  have halive : (bare config files).alive = [] := by
    unfold bare
    dsimp only [alive]
    rfl
  have hbare : ¬ (bare config files).Misses id := by
    rintro ⟨⟨r, th, hr, -, hrunning⟩ | ⟨t, ht, -⟩, -⟩
    · cases hrunning.symm.trans (status_bare config files hr)
    · rw [halive] at ht
      cases ht
  unfold new
  suffices hall : ∀ bs : List (String × Builtin), ∀ m : Machine, m.Valid → ¬ m.Misses id →
      ¬ (bs.foldl (fun m b => m.defineNative b.1 (.builtin b.2)) m).Misses id from
    hall _ _ (valid_bare config files).1 hbare
  intro bs
  induction bs with
  | nil => exact fun _ _ hm => hm
  | cons b bs ih =>
    refine fun m hv hm => ih _ (hv.definingNative b.1 _) fun hmiss => ?_
    exact (hv.honours_native b.1 _ id hmiss).elim hm not_false

/-- **`Reachable.stranded`** — a task that is missed was stranded. -/
theorem Reachable.stranded (hm : m.Reachable) (hmiss : m.Misses id) : m.Stranded id := by
  induction hm generalizing id with
  | new config files => exact (not_misses_new config files hmiss).elim
  | @goes m m' hm hgoes ih =>
    rcases hm.valid.honours hgoes id hmiss with hbefore | hstrands
    · exact .goes (ih hbefore) hgoes
    · exact .strands hm hstrands
  | @native m hm name body ih =>
    rcases hm.valid.honours_native name body id hmiss with hbefore | hgone
    · exact .native (ih hbefore) name body
    · exact hgone.elim

/-- **`truthful`** — in every state that a machine can come to, handles and waiters are told the truth
about every task but those that were stranded. -/
theorem Reachable.truthful (hm : m.Reachable) : m.Truthful where
  live t ht := by
    have hmem : t ∈ m.fibers ∧ t.isDone = false := by
      rcases mem_alive.mp ht with ⟨rfl, hlive⟩ | ht
      · exact ⟨List.mem_cons_self, hlive⟩
      · exact ⟨List.mem_cons_of_mem _ ht, hm.valid.queue_live t ht⟩
    obtain ⟨th, hth, hid, hrunning⟩ := hm.valid.tasks.handle t hmem.1
    exact ⟨th, hth, hid, hrunning hmem.2⟩
  running r th hr hrunning := by
    by_cases hlive : m.Lives th.id
    · exact .inl hlive
    · exact .inr (hm.stranded ⟨.inl ⟨r, th, hr, rfl, hrunning⟩, hlive⟩)
  parked t ht id hparked := by
    by_cases hlive : m.Lives id
    · exact .inl hlive
    · exact .inr (hm.stranded ⟨.inr ⟨t, ht, hparked⟩, hlive⟩)
  strands _ _ hready hhonest hstep hspawned :=
    hm.valid.uncompilable_misses hready hhonest hstep hspawned

/-- The second task runs, the first is parked for it and the main task for the first, and the third was
aborted. -/
theorem truthful_awaitInTurn :
    (rehearse awaitInTurn 30).Reachable ∧
      ((rehearse awaitInTurn 30).fiber.id = 3 ∧ (rehearse awaitInTurn 30).fiber.isDone = false ∧
        (rehearse awaitInTurn 30).queue.map (fun t => (t.id, t.state)) =
          [(mainTask, .parked 1), (1, .parked 3)] ∧
        (rehearse awaitInTurn 30).statuses =
          [(mainTask, .running), (1, .running), (2, .aborted), (3, .running)]) ∧
      (rehearse awaitInTurn 30).Truthful :=
  ⟨reachable_rehearse _ _, by decide +kernel, Reachable.truthful (reachable_rehearse _ _)⟩

end Machine

end ScriptMachine
