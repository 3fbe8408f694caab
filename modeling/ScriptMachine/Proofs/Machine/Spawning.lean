import Mathlib
import ScriptMachine.Proofs.Machine.Tasking

/-!
# ScriptMachine.Proofs.Machine.Spawning — tasks that start

A new task gets an id that was never given before, a handle that says it runs, and a fiber at the start
of the function on top of the stack. Such a function has no parameters: the closure has just been made
by the instruction before, and code runs nothing else as a task.

`spawn` is the result and `thunk` what it rests on: the instruction is written behind the one that makes
the closure, with nothing in between, so what is on top is a closure that nothing else holds, of a
function without parameters. There are so many ids and no more. When the last one has been given the
machine is stuck at the next spawn, and `spawnTop_stuck` says so; a counter that starts over is a defect
that these statements leave out, as they are about machines in which each id was given once.
-/

namespace ScriptMachine

variable {m m' : Machine} {h h' : Heap} {t t' : Fiber} {a : Activation}
  {rest : List Activation} {q : Placed} {v : Value} {r : Ref} {th : TaskHandle}
  {wrote : Ref → Prop}

/-- A handle is made. -/
theorem Heap.handleChanged_alloc (hh : h.Healthy) (hth : (Obj.task th).Sound h) :
    h.HandleChanged (h.alloc (.task th)).1 th (h.alloc (.task th)).2 := by
  have htidy := hh.sound.tidy
  have hnone := htidy.get?_alloc_fst (.task th)
  have hself := htidy.get?_alloc_self (.task th)
  have hsame : ∀ r', r' ≠ (h.alloc (.task th)).1 → (h.alloc (.task th)).2.get? r' = h.get? r' := by
    intro r' hne
    rw [htidy.get?_alloc, if_neg hne]
  refine ⟨hh.alloc hth nofun, (htidy.keeps_alloc _).evolves, htidy.abides_alloc nofun, fun r' => ?_,
    task?_eq_some.mpr hself, fun r' hne => ?_⟩
  · by_cases heq : r' = (h.alloc (.task th)).1
    · subst heq
      unfold upvalue?
      rw [hself, hnone]
    · unfold upvalue?
      rw [hsame r' heq]
  · unfold task?
    rw [hsame r' hne]

/-- Every handle is the new one, or it was there before. -/
theorem Heap.HandleChanged.of_task? (hnew : h.HandleChanged r th h') {r' : Ref} {th' : TaskHandle}
    (hr' : h'.task? r' = some th') : r' = r ∧ th' = th ∨ h.task? r' = some th' := by
  by_cases heq : r' = r
  · subst heq
    exact .inl ⟨rfl, Option.some.inj (hr'.symm.trans hnew.handle)⟩
  · exact .inr (hnew.tasks r' heq ▸ hr')

/-- A handle that was there is not the new one, whose slot was vacant, so it is as it was. -/
theorem Heap.HandleChanged.task?_of_vacant (hnew : h.HandleChanged r th h') (hr : h.get? r = none)
    {r' : Ref} {th' : TaskHandle} (hr' : h.task? r' = some th') : h'.task? r' = some th' := by
  refine (hnew.tasks r' fun heq => ?_).trans hr'
  rw [heq, Heap.task?_eq_some, hr] at hr'
  cases hr'

/-- The handles agree with the fibers when one has joined them, under the next id. -/
theorem Tasks.join {ts : List Fiber} {last : Nat} {main : Ref} (htasks : Tasks h ts last main)
    (hnew : h.HandleChanged r th h') (hr : h.get? r = none) (hid : th.id = last + 1)
    (hrunning : th.status = .running) (hresult : th.result = .none) (ht : t.id = th.id)
    (hhandle : t.handle = r) : Tasks h' (ts ++ [t]) (last + 1) main := by
  have hmem : ∀ u ∈ ts ++ [t], u ∈ ts ∨ u = t := fun u hu =>
    (List.mem_append.mp hu).imp_right List.mem_singleton.mp
  constructor
  case ids =>
    -- the new id is above all others
    have hbound : t.id ∉ ts.map Fiber.id := by
      intro hin
      obtain ⟨u, hu, heq⟩ := List.mem_map.mp hin
      have hle := htasks.bound u hu
      omega
    rw [List.map_append]
    refine List.nodup_append.mpr ⟨htasks.ids, List.nodup_singleton _, fun x hx y hy hxy => ?_⟩
    rw [List.map_singleton, List.mem_singleton] at hy
    exact hbound (hy ▸ hxy ▸ hx)
  case bound =>
    intro u hu
    rcases hmem u hu with hu | rfl
    · exact Nat.le_succ_of_le (htasks.bound u hu)
    · exact Nat.le_of_eq (ht.trans hid)
  case handle =>
    intro u hu
    rcases hmem u hu with hu | rfl
    · obtain ⟨th₀, hth₀, hid₀, hrun⟩ := htasks.handle u hu
      exact ⟨th₀, hnew.task?_of_vacant hr hth₀, hid₀, hrun⟩
    · exact ⟨th, hhandle ▸ hnew.handle, ht.symm, fun _ => hrunning⟩
  case known =>
    intro r' th' hr'
    rcases hnew.of_task? hr' with ⟨-, rfl⟩ | hr'
    · exact ⟨Nat.le_of_eq hid, fun _ => hresult⟩
    · obtain ⟨hle, hnone⟩ := htasks.known r' th' hr'
      exact ⟨Nat.le_succ_of_le hle, hnone⟩
  case single =>
    -- two handles of one id: the new id is above those of all handles that were there
    intro r₁ r₂ th₁ th₂ h₁ h₂ heq
    rcases hnew.of_task? h₁ with ⟨rfl, rfl⟩ | h₁ <;> rcases hnew.of_task? h₂ with ⟨rfl, rfl⟩ | h₂
    · rfl
    · have hle := (htasks.known r₂ th₂ h₂).1
      omega
    · have hle := (htasks.known r₁ th₁ h₁).1
      omega
    · exact htasks.single r₁ r₂ th₁ th₂ h₁ h₂ heq
  case main =>
    obtain ⟨th₀, hth₀, hid₀⟩ := htasks.main
    exact ⟨th₀, hnew.task?_of_vacant hr hth₀, hid₀⟩

/-- **`beginning`** — a fiber with a new id and a new handle joins those that wait. -/
theorem Machine.Consistent.beginning (hc : m.Consistent) (hnew : m.heap.HandleChanged r th h')
    (hr : m.heap.get? r = none) (hid : th.id = m.lastTask + 1) (hrunning : th.status = .running)
    (hresult : th.result = .none) (ht : t.id = th.id) (hhandle : t.handle = r)
    (hopen : t.openUpvalues = []) (hsound : t.Sound h') (halive : t.Alive h') :
    let m' := { m with heap := h', lastTask := m.lastTask + 1, queue := m.queue ++ [t] }
    m'.Consistent ∧ Moves wrote m m' := by
  have hev := hnew.evolves
  have hm := hc.sound.evolve hev hnew.healthy
  have hs : { m with heap := h', lastTask := m.lastTask + 1, queue := m.queue ++ [t] }.Sound := by
    refine ⟨hm.heap, hm.globals, hm.extensions, hm.fiber, fun u hu => ?_, hm.names, hm.mainHandle,
      hm.mainResult⟩
    rcases List.mem_append.mp hu with hu | hu
    · exact hm.queue u hu
    · rwa [List.mem_singleton.mp hu]
  -- the new fiber has no open cell, and nothing has happened to the others
  have hcarried : Carried wrote m.heap m.fibers h' (m.fibers ++ [t]) := by
    refine .of_calm hc.cells (fun r' u hu => hnew.upvalues r' ▸ hu)
      (fun u hu => (hs.of_mem_fibers hu).openUpvalues) (fun u hu => ?_) fun u hu _ => ?_
    · rcases List.mem_append.mp hu with hu | hu
      · exact .inr ⟨u, hu, (hc.becomes_self hu).toCarries⟩
      · exact .inl (List.mem_singleton.mp hu ▸ hopen)
    · exact ⟨u, List.mem_append_left _ hu, (hc.becomes_self hu).toCarries⟩
  have hmoves : Moves wrote m
      { m with heap := h', lastTask := m.lastTask + 1, queue := m.queue ++ [t] } := by
    refine ⟨Nat.le_succ _, hnew.abides, fun r' th' hr' => ?_, hcarried⟩
    rcases hnew.of_task? hr' with ⟨-, rfl⟩ | hr'
    · exact .inl (by omega)
    · exact .inr ⟨th', hr', rfl, rfl, .inl rfl⟩
  have htasks := hc.tasks.join hnew hr hid hrunning hresult ht hhandle
  refine ⟨hc.of_moves hmoves hs (fun u hu => ?_) htasks, hmoves⟩
  rcases List.mem_append.mp hu with hu' | hu'
  · exact (hc.waiting u hu').persists hev.persists hnew.healthy.sound (hs.queue u hu)
  · rwa [List.mem_singleton.mp hu']

/-! ## A new task -/

namespace Machine

/-- The name of the next task, and the heap that has it. -/
def nextName (m : Machine) : Ref × Heap :=
  m.heap.intern ("task-" ++ toString (m.lastTask + 1))

/-- The handle of the next task. -/
def nextTask (m : Machine) : TaskHandle :=
  { name := m.nextName.1, id := m.lastTask + 1, status := .running, result := .none }

/-- Where the handle of the next task is, and the heap that has it. -/
def nextHandle (m : Machine) : Ref × Heap :=
  m.nextName.2.alloc (.task m.nextTask)

/-- The machine with a task more, which will run a function. -/
def started (m : Machine) (t : Fiber) : Machine :=
  { m with heap := m.nextHandle.2, lastTask := m.lastTask + 1, queue := m.queue ++ [t] }

/-- The machine with one value more on the stack. -/
def pushed (m : Machine) (v : Value) : Machine :=
  { m with fiber := { m.fiber with stack := m.fiber.stack.push v } }

end Machine

namespace Fiber

/-- A fiber at the start of a function. -/
def ofClosure (id : Nat) (handle closure : Ref) (c : Closure) (p : Prototype) (args : Array Value) :
    Fiber :=
  { Fiber.new id handle with
    stack := #[.obj closure]
    frames := [⟨closure, p.chunk, 0, 0, c.package, .function, args⟩] }

variable {id : Nat} {handle : Ref} {c : Closure} {p : Prototype} {args : Array Value}

/-- A task that begins with a call refers to live values only. -/
theorem sound_ofClosure (hh : h.Healthy) (hhandle : h.Has handle .task) (hr : h.closure? r = some c)
    (hargs : ∀ v ∈ args, h.Live v) : (ofClosure id handle r c p args).Sound h := by
  have hclosure : h.Has r .closure := Heap.has_closure.mpr ⟨c, hr⟩
  refine ⟨hhandle, fun v hv => ?_, fun f hf => ?_, nofun⟩
  · obtain rfl : v = .obj r := by simpa [ofClosure] using hv
    exact hclosure.live
  · obtain rfl := List.mem_singleton.mp hf
    exact ⟨hclosure, (hh.sound.closure hr).2.2, hargs⟩

/-- It is about to execute the first instruction, if the function has no parameters. -/
theorem alive_ofClosure (hh : h.Healthy) (hr : h.closure? r = some c)
    (hp : h.prototype? c.prototype = some p) (harity : p.arity = 0) :
    (ofClosure id handle r c p args).Alive h := by
  obtain ⟨p', listing, hp', hlists⟩ := (hh.made r c hr).1.prototype
  obtain rfl := Option.some.inj (hp.symm.trans hp')
  have hframes : (ofClosure id handle r c p args).frames =
      ⟨r, p.chunk, 0, 0, c.package, .function, args⟩ :: [].map Activation.frame := rfl
  refine alive_of_entry .bottom hframes rfl ⟨c, hr, hp⟩ rfl hlists rfl ?_ (fun j hj => ?_) rfl
  · rw [harity]
    rfl
  · obtain ⟨cell, hj⟩ := hj
    cases hj

end Fiber

/-- What a spawn does while there is an id left. -/
theorem Exec.spawnTop_eq {c : Closure} {p : Prototype} (hid : m.lastTask + 1 < taskIds)
    (htop : m.fiber.stack[m.fiber.stack.size - 1]? = some (.obj r))
    (hc : m.nextHandle.2.closure? r = some c) (hp : m.nextHandle.2.prototype? c.prototype = some p) :
    spawnTop m = .ok () ((m.popped.started
      (.ofClosure (m.lastTask + 1) m.nextHandle.1 r c p #[])).pushed (.obj m.nextHandle.1)) := by
  have hspawn : spawn r m.popped = .ok m.nextHandle.1 (m.popped.started
      (.ofClosure (m.lastTask + 1) m.nextHandle.1 r c p #[])) := by
    -- the steps of a spawn, one after the other: its name, its handle, its function
    have hname : intern ("task-" ++ toString (m.lastTask + 1))
        { m.popped with lastTask := m.lastTask + 1 } =
          .ok m.nextName.1 { m.popped with heap := m.nextName.2, lastTask := m.lastTask + 1 } := rfl
    have halloc : alloc (.task m.nextTask)
        { m.popped with heap := m.nextName.2, lastTask := m.lastTask + 1 } =
          .ok m.nextHandle.1
            { m.popped with heap := m.nextHandle.2, lastTask := m.lastTask + 1 } := rfl
    have hneed : need (m.nextHandle.2.closure? r)
        { m.popped with heap := m.nextHandle.2, lastTask := m.lastTask + 1 } =
          .ok c { m.popped with heap := m.nextHandle.2, lastTask := m.lastTask + 1 } := by
      rw [hc]
      rfl
    have hneed' : need (m.nextHandle.2.prototype? c.prototype)
        { m.popped with heap := m.nextHandle.2, lastTask := m.lastTask + 1 } =
          .ok p { m.popped with heap := m.nextHandle.2, lastTask := m.lastTask + 1 } := by
      rw [hp]
      rfl
    have hleft : ¬ taskIds ≤ m.popped.lastTask + 1 := Nat.not_le.mpr hid
    unfold spawn
    rw [get_bind]
    dsimp only
    rw [if_neg hleft, modify_bind]
    refine (bind_ok hname).trans ((bind_ok halloc).trans ?_)
    rw [get_bind]
    refine (bind_ok hneed).trans ?_
    rw [get_bind]
    exact (bind_ok hneed').trans rfl
  unfold spawnTop
  rw [bind_ok (pop_eq htop)]
  dsimp only
  rw [bind_ok hspawn]
  rfl

/-- There is no task behind the last id. -/
theorem Exec.spawnTop_stuck (hid : taskIds ≤ m.lastTask + 1)
    (htop : m.fiber.stack[m.fiber.stack.size - 1]? = some (.obj r)) :
    spawnTop m = .error .stuck m.popped := by
  have hspawn : spawn r m.popped = .error .stuck m.popped := by
    have hnone : taskIds ≤ m.popped.lastTask + 1 := hid
    unfold spawn
    rw [get_bind]
    dsimp only
    rw [if_pos hnone]
    rfl
  unfold spawnTop
  rw [bind_ok (pop_eq htop)]
  exact bind_error hspawn

namespace Stepping

variable (hs : Stepping m a rest q)
include hs

/-- The closure on top has just been made, of a function without parameters. -/
theorem thunk (hop : q.instr.op = .spawn) : ∃ r c p,
    m.fiber.stack[m.fiber.stack.size - 1]? = some (.obj r) ∧ m.heap.closure? r = some c ∧
      m.heap.prototype? c.prototype = some p ∧ p.arity = 0 := by
  obtain ⟨r, c, hr, hc, hmade⟩ := (hs.poised.fresh (by rw [hop]; rfl)).made
  obtain ⟨b, hb, hend, hclosure, r', p, hconstant, hp, harity⟩ :=
    hs.poised.sound.lists.annotates.spawned q hs.poised.mem hop
  have hsame := hmade b hb hclosure hend
  rw [hs.poised.sound.chunk, hconstant] at hsame
  obtain rfl := Value.obj.inj (Option.some.inj hsame)
  exact ⟨r, c, p, hr, hc, hp, harity⟩

/-- **`spawn`** — a spawn completes: the new task waits at the start of its function. Only when no
id is left is there no task. -/
theorem spawn (hop : q.instr.op = .spawn) :
    m.Completes q wrote (Exec.execute q.instr) (inside m a rest q) := by
  have heffect : q.instr.effect = ⟨1, 1, 1⟩ := by
    unfold Instruction.effect
    rw [hop]
  obtain ⟨r, c, p, htop, hclosure, hp, harity⟩ := hs.thunk hop
  have hexec : Exec.execute q.instr (inside m a rest q) = Exec.spawnTop (inside m a rest q) := by
    unfold Exec.execute
    rw [hop]
  rcases Nat.lt_or_ge (m.lastTask + 1) taskIds with hid | hid
  case inr =>
    refine .of_misfit (hexec.trans (Exec.spawnTop_stuck (m := inside m a rest q) hid htop)) ?_
    rw [hop]
    exact hid
  obtain ⟨hc₁, hm₁⟩ : _ ∧ Moves wrote _ _ := hs.consistent_popped (by rw [heffect])
    (by rw [hop]; rfl)
  -- its name is in the heap
  have htidy := hc₁.heap_sound.tidy
  have hstill : m.heap.Still m.nextName.2 := htidy.still_intern _
  have hnamed : m.nextName.2.Healthy := hc₁.sound.heap.intern _
  obtain ⟨hc₂, hm₂⟩ : _ ∧ Moves wrote _ _ := hc₁.calm
    { (inside m a rest q).popped with heap := m.nextName.2 }
    (hc₁.sound.evolve hstill.evolves hnamed) hstill.calm rfl rfl rfl
    (hc₁.becomes_self List.mem_cons_self)
  -- and so is its handle
  have hname : m.nextName.2.Has m.nextName.1 .string :=
    Heap.has_string.mpr ⟨_, (htidy.intern _).2.2⟩
  have hnew : m.nextName.2.HandleChanged m.nextHandle.1 m.nextTask m.nextHandle.2 :=
    Heap.handleChanged_alloc hnamed ⟨hname, Heap.live_none⟩
  have hev : m.heap.Evolves m.nextHandle.2 := hstill.evolves.trans hnew.evolves
  have hclosure' := hev.closure? hclosure
  have hp' := hev.prototype? hp
  obtain ⟨hc₃, hm₃⟩ : _ ∧ Moves wrote _ _ := hc₂.beginning hnew
    (hnamed.sound.tidy.get?_alloc_fst _) rfl rfl rfl rfl rfl rfl
    (Fiber.sound_ofClosure hnew.healthy (Heap.has_task.mpr ⟨_, hnew.handle⟩) hclosure'
      fun v hv => (Array.not_mem_empty v hv).elim)
    (Fiber.alive_ofClosure hnew.healthy hclosure' hp' harity)
  -- the task is answered
  have hfiber := hc₃.sound.fiber
  have hlive : m.nextHandle.2.Live (.obj m.nextHandle.1) :=
    (Heap.has_task.mpr ⟨_, hnew.handle⟩).live
  have hbelow : ∀ e ∈ m.fiber.openUpvalues, e.1 < m.fiber.stack.pop.size := fun e he =>
    (hc₃.cells.listed _ List.mem_cons_self e he).2
  have hpushed : ({ (inside m a rest q).popped.fiber with
      stack := m.fiber.stack.pop.push (.obj m.nextHandle.1) } : Fiber).Sound m.nextHandle.2 := by
    refine ⟨hfiber.handle, fun w hw => ?_, hfiber.frames, hfiber.openUpvalues⟩
    rcases Array.mem_push.mp hw with hw | rfl
    · exact hfiber.stack w hw
    · exact hlive
  obtain ⟨hc₄, hm₄⟩ : _ ∧ Moves wrote _ _ := hc₃.calm
    (((inside m a rest q).popped.started
      (.ofClosure (m.lastTask + 1) m.nextHandle.1 r c p #[])).pushed (.obj m.nextHandle.1))
    (hc₃.sound.withFiber hpushed) (Heap.Still.refl _).calm rfl rfl rfl
    ⟨⟨rfl, rfl, fun e he => ⟨by
      show e.1 < (m.fiber.stack.pop.push _).size
      rw [Array.size_push]
      exact Nat.lt_succ_of_lt (hbelow e he), .inr (by
        show (m.fiber.stack.pop.push _)[e.1]? = m.fiber.stack.pop[e.1]?
        rw [Array.getElem?_push_lt (hbelow e he), ← Array.getElem?_eq_getElem])⟩⟩, rfl, id⟩
  have hmoves := ((hm₁.trans hm₂).trans hm₃).trans hm₄
  refine .of_ok
    (hexec.trans (Exec.spawnTop_eq (m := inside m a rest q) hid htop hclosure' hp'))
    ⟨⟨hc₄, .inr ?_⟩, law_inside (hs.consistent_inside.law hmoves)⟩
  · refine hs.executing.fall (by rw [hop]; rfl) (by rw [hop]; nofun) hev.persists hc₄.heap_sound
      hpushed rfl rfl ?_ (fun j hj => ⟨?_, .inl hj⟩) (fun j hj _ => .inl ?_) (by rw [hop]; nofun)
      (fun h => by rw [hop] at h; cases h) (.inl hs.ready) fun since deadline hsleep => ?_
    · show (m.fiber.stack.pop.push _).size = m.fiber.stack.size - _ + _
      rw [heffect, Array.size_push, Array.size_pop]
    · obtain ⟨cell, hj⟩ := hj
      show j < (m.fiber.stack.pop.push _).size
      rw [Array.size_push]
      exact Nat.lt_succ_of_lt (hbelow _ hj)
    · rw [heffect] at hj
      change j < m.fiber.stack.size - 1 at hj
      have hpop : j < m.fiber.stack.pop.size := by
        rw [Array.size_pop]
        exact hj
      show (m.fiber.stack.pop.push _)[j]? = m.fiber.stack[j]?
      rw [Array.getElem?_push_lt hpop, ← Array.getElem?_eq_getElem, Array.getElem?_pop, if_pos hj]
    · cases hs.ready.symm.trans hsleep

end Stepping

end ScriptMachine
