import Mathlib
import ScriptMachine.Proofs.Machine.Activation
import ScriptMachine.Proofs.Machine.Cells

/-!
# ScriptMachine.Proofs.Machine.Consistency — what holds of a machine between instructions

A machine is *consistent* when it is sound, every waiting fiber is about to execute an instruction, the
cells agree with the fibers, and so do the task handles: no two handles have the same id, no two
fibers, each fiber has the handle with its id, and the handle of a fiber that has something left to run
says so. It is *valid* when moreover the running fiber is about to execute an instruction or spent.

`Law` is what two successive states have to do with each other, whatever happened in between: ids are
given once, collections stay paused as they were and no native function is made, a handle changes only
while its task runs, and the values of captured variables stay.

Nothing is proved here about an instruction. The lemmas are about moving on in general: `Moves` allows the
running fiber to go on, fibers to take turns, cells to be closed and handles to change, and
`Consistent.of_moves` and `Consistent.law` say that a consistent machine which moves on is consistent and
keeps to the law. `Consistent.revise` and `Consistent.calm` are the two cases that come up all the time.

That ids are given once is part of the law because a spawn stops when there is none left. Counting on
from there would give an old id to a new task, and nothing below would hold of such a machine.
-/

namespace ScriptMachine

/-- Every fiber, the running one first. -/
def Machine.fibers (m : Machine) : List Fiber :=
  m.fiber :: m.queue

/-- **`Tasks h ts last main`** — the handles in the heap agree with the fibers; `last` is the latest id
given and `main` the handle of the main task. Only a task that has finished has a result. -/
structure Tasks (h : Heap) (ts : List Fiber) (last : Nat) (main : Ref) : Prop where
  ids : (ts.map Fiber.id).Nodup
  bound : ∀ t ∈ ts, t.id ≤ last
  handle : ∀ t ∈ ts, ∃ th, h.task? t.handle = some th ∧ th.id = t.id ∧
    (t.isDone = false → th.status = .running)
  known : ∀ r th, h.task? r = some th →
    th.id ≤ last ∧ (th.status ≠ .finished → th.result = .none)
  single : ∀ r r' th th', h.task? r = some th → h.task? r' = some th' → th.id = th'.id → r = r'
  main : ∃ th, h.task? main = some th ∧ th.id = mainTask

/-- **`Heap.Succeeds last h h'`** — every handle of `h'` is new, or it was there with the same id and
name and has changed only if its task was running; the main task runs again and again. -/
def Heap.Succeeds (last : Nat) (h h' : Heap) : Prop :=
  ∀ r th', h'.task? r = some th' → last < th'.id ∨
    ∃ th, h.task? r = some th ∧ th.id = th'.id ∧ th.name = th'.name ∧
      (th' = th ∨ th.status = .running ∨ th.id = mainTask)

/-- **`m.Consistent`** — the machine holds together, whatever the running fiber is up to. -/
structure Machine.Consistent (m : Machine) : Prop where
  sound : m.Sound
  waiting : ∀ t ∈ m.queue, t.Alive m.heap
  cells : Cells m.heap m.fibers
  tasks : Tasks m.heap m.fibers m.lastTask m.mainHandle

/-- **`m.Valid`** — the machine is consistent, and the running fiber is spent or about to execute an
instruction. -/
structure Machine.Valid (m : Machine) : Prop extends m.Consistent where
  running : m.fiber.Spent ∨ m.fiber.Alive m.heap

/-- **`Law wrote m m'`** — what is so of two successive states. -/
structure Law (wrote : Ref → Prop) (m m' : Machine) : Prop where
  lastTask : m.lastTask ≤ m'.lastTask
  abides : m.heap.Abides m'.heap
  tasks : m.heap.Succeeds m.lastTask m'.heap
  values : ∀ r v, Reads m.heap m.fibers r v → ¬ wrote r → ∀ u, m'.heap.upvalue? r = some u →
    Reads m'.heap m'.fibers r v

/-- **`t.Becomes wrote t'`** — the fiber `t'` is a later state of `t`, with the same open cells. -/
structure Fiber.Becomes (wrote : Ref → Prop) (t t' : Fiber) : Prop
    extends t.Carries wrote t' t.openUpvalues where
  handle : t'.handle = t.handle
  done : t'.isDone = false → t.isDone = false

/-- **`Moves wrote m m'`** — the machine has moved on without making a cell. -/
structure Moves (wrote : Ref → Prop) (m m' : Machine) : Prop where
  lastTask : m.lastTask ≤ m'.lastTask
  abides : m.heap.Abides m'.heap
  tasks : m.heap.Succeeds m.lastTask m'.heap
  carried : Carried wrote m.heap m.fibers m'.heap m'.fibers

variable {h h' : Heap} {ts ts' : List Fiber} {last : Nat} {main : Ref} {m m' m'' : Machine}
  {wrote : Ref → Prop}

/-! ## Tasks -/

namespace Tasks

/-- Different fibers have different ids. -/
theorem id_inj (ht : Tasks h ts last main) : ∀ t ∈ ts, ∀ t' ∈ ts, t.id = t'.id → t = t' :=
  fun _ ht₁ _ ht₂ heq => List.inj_on_of_nodup_map ht.ids ht₁ ht₂ heq

/-- **`Tasks.of_calm`** — no handle is made or changed, and every fiber was there. -/
theorem of_calm (ht : Tasks h ts last main) (hcalm : ∀ r th, h'.task? r = some th → h.task? r = some th)
    (hids : (ts'.map Fiber.id).Nodup) (hmain : h'.Has main .task)
    (hto : ∀ t' ∈ ts', h'.Has t'.handle .task ∧ ∃ t ∈ ts, t'.id = t.id ∧ t'.handle = t.handle ∧
      (t'.isDone = false → t.isDone = false)) : Tasks h' ts' last main where
  ids := hids
  bound t' ht' := by
    obtain ⟨-, t, htmem, hid, -⟩ := hto t' ht'
    exact hid ▸ ht.bound t htmem
  handle t' ht' := by
    obtain ⟨hhas, t, htmem, hid, hhandle, hdone⟩ := hto t' ht'
    obtain ⟨th', hth'⟩ := Heap.has_task.mp hhas
    obtain ⟨th, hth, heq, hrunning⟩ := ht.handle t htmem
    obtain rfl := Option.some.inj ((hcalm _ _ hth').symm.trans (hhandle ▸ hth))
    exact ⟨th', hth', heq.trans hid.symm, fun h => hrunning (hdone h)⟩
  known r th hr := ht.known r th (hcalm r th hr)
  single r r' th th' hr hr' := ht.single r r' th th' (hcalm r th hr) (hcalm r' th' hr')
  main := by
    obtain ⟨th', hth'⟩ := Heap.has_task.mp hmain
    obtain ⟨th, hth, hid⟩ := ht.main
    obtain rfl := Option.some.inj ((hcalm _ _ hth').symm.trans hth)
    exact ⟨th', hth', hid⟩

end Tasks

namespace Heap

/-- Handles that are not written keep what they say. -/
theorem Succeeds.of_calm (hcalm : ∀ r th, h'.task? r = some th → h.task? r = some th) :
    h.Succeeds last h' :=
  fun r th' hr => .inr ⟨th', hcalm r th' hr, rfl, rfl, .inl rfl⟩

/-- **`Succeeds.trans`** — handles have histories. -/
theorem Succeeds.trans {h'' : Heap} {last' : Nat} (hs : h.Succeeds last h')
    (hs' : h'.Succeeds last' h'') (hle : last ≤ last') : h.Succeeds last h'' := by
  intro r th'' hr
  rcases hs' r th'' hr with hnew | ⟨th', hr', hid', hname', hchange'⟩
  · exact .inl (Nat.lt_of_le_of_lt hle hnew)
  rcases hs r th' hr' with hnew | ⟨th, hr, hid, hname, hchange⟩
  · exact .inl (hid' ▸ hnew)
  refine .inr ⟨th, hr, hid.trans hid', hname.trans hname', ?_⟩
  -- what had ended before the first change has not changed in either
  rcases hchange with rfl | hrunning
  · exact hchange'
  · exact .inr hrunning

end Heap

/-! ## Laws -/

theorem Law.mono {wrote' : Ref → Prop} (hlaw : Law wrote m m') (hw : ∀ r, wrote r → wrote' r) :
    Law wrote' m m' :=
  ⟨hlaw.lastTask, hlaw.abides, hlaw.tasks, fun r v hr hnot => hlaw.values r v hr fun h => hnot (hw r h)⟩

/-- Moves may be put together, over what either of them writes. -/
theorem Moves.trans (hm : Moves wrote m m') (hm' : Moves wrote m' m'') : Moves wrote m m'' :=
  ⟨Nat.le_trans hm.lastTask hm'.lastTask, hm.abides.trans hm'.abides,
    hm.tasks.trans hm'.tasks hm.lastTask, hm.carried.trans hm'.carried⟩

/-! ## Machines -/

namespace Machine

theorem Consistent.heap_sound (hc : m.Consistent) : m.heap.Sound :=
  hc.sound.heap.sound

theorem mem_fibers {t : Fiber} : t ∈ m.fibers ↔ t = m.fiber ∨ t ∈ m.queue :=
  List.mem_cons

theorem Sound.of_mem_fibers {t : Fiber} (hs : m.Sound) (ht : t ∈ m.fibers) : t.Sound m.heap := by
  rcases mem_fibers.mp ht with rfl | ht
  · exact hs.fiber
  · exact hs.queue t ht

/-- A task that waits is found by its id. -/
theorem Consistent.find?_id (hc : m.Consistent) {t : Fiber} (ht : t ∈ m.queue) :
    m.queue.find? (fun u => u.id = t.id) = some t := by
  cases hfind : m.queue.find? fun u => u.id = t.id with
  | none => simpa using List.find?_eq_none.mp hfind t ht
  | some u =>
    have hid : u.id = t.id := by simpa using List.find?_some hfind
    have hmem := List.mem_cons_of_mem m.fiber (List.mem_of_find?_eq_some hfind)
    rw [hc.tasks.id_inj u hmem t (List.mem_cons_of_mem _ ht) hid]

/-- A task that waits is not the one that runs. -/
theorem Consistent.id_ne (hc : m.Consistent) {t : Fiber} (ht : t ∈ m.queue) : t.id ≠ m.fiber.id := by
  have hnodup := hc.tasks.ids
  rw [fibers, List.map_cons, List.nodup_cons] at hnodup
  intro heq
  exact hnodup.1 (heq ▸ List.mem_map_of_mem ht)

/-- **`Consistent.law`** — what moves on keeps to the law. -/
theorem Consistent.law (hc : m.Consistent) (hm : Moves wrote m m') : Law wrote m m' :=
  ⟨hm.lastTask, hm.abides, hm.tasks,
    fun _ _ hr hw _ hu => hm.carried.reads hc.cells hc.tasks.id_inj hr hw hu⟩

/-- A move keeps a machine consistent: cells and variables as the move says, and the tasks in the
queue where they stood. -/
theorem Consistent.of_moves (hc : m.Consistent) (hm : Moves wrote m m') (hs : m'.Sound)
    (hwaiting : ∀ t ∈ m'.queue, t.Alive m'.heap)
    (htasks : Tasks m'.heap m'.fibers m'.lastTask m'.mainHandle) : m'.Consistent :=
  ⟨hs, hwaiting, hm.carried.cells hc.cells, htasks⟩

/-- A fiber that stays as it is. -/
theorem Consistent.becomes_self (hc : m.Consistent) {t : Fiber} (ht : t ∈ m.fibers) :
    t.Becomes wrote t :=
  ⟨⟨rfl, rfl, fun e he => ⟨(hc.cells.listed t ht e he).2, .inr rfl⟩⟩, rfl, id⟩

/-- **`Consistent.revise`** — fibers take turns and go on while the heap is calm. -/
theorem Consistent.revise (hc : m.Consistent) (hs : m'.Sound) (hcalm : m.heap.Calm m'.heap)
    (hlast : m'.lastTask = m.lastTask) (hmain : m'.mainHandle = m.mainHandle)
    (hwaiting : ∀ t ∈ m'.queue, t.Alive m'.heap) (hids : (m'.fibers.map Fiber.id).Nodup)
    (hto : ∀ t' ∈ m'.fibers, ∃ t ∈ m.fibers, t.Becomes wrote t')
    (hfrom : ∀ t ∈ m.fibers, t.openUpvalues ≠ [] → ∃ t' ∈ m'.fibers, t.Becomes wrote t') :
    m'.Consistent ∧ Moves wrote m m' := by
  have hcarried : Carried wrote m.heap m.fibers m'.heap m'.fibers := by
    refine .of_calm hc.cells hcalm.upvalues (fun t' ht' => (hs.of_mem_fibers ht').openUpvalues)
      (fun t' ht' => ?_) fun t ht hne => ?_
    · obtain ⟨t, ht, hbecomes⟩ := hto t' ht'
      exact .inr ⟨t, ht, hbecomes.toCarries⟩
    · obtain ⟨t', ht', hbecomes⟩ := hfrom t ht hne
      exact ⟨t', ht', hbecomes.toCarries⟩
  have htasks : Tasks m'.heap m'.fibers m'.lastTask m'.mainHandle := by
    rw [hlast, hmain]
    refine hc.tasks.of_calm hcalm.tasks hids (hmain ▸ hs.mainHandle) fun t' ht' => ?_
    obtain ⟨t, ht, hbecomes⟩ := hto t' ht'
    exact ⟨(hs.of_mem_fibers ht').handle, t, ht, hbecomes.id, hbecomes.handle, hbecomes.done⟩
  have hmoves : Moves wrote m m' :=
    ⟨Nat.le_of_eq hlast.symm, hcalm.abides, .of_calm hcalm.tasks, hcarried⟩
  exact ⟨hc.of_moves hmoves hs hwaiting htasks, hmoves⟩

/-- **`Consistent.calm`** — the running fiber goes on while the heap is calm. -/
theorem Consistent.calm (hc : m.Consistent) (m' : Machine) (hs : m'.Sound)
    (hcalm : m.heap.Calm m'.heap)
    (hqueue : m'.queue = m.queue) (hlast : m'.lastTask = m.lastTask)
    (hmain : m'.mainHandle = m.mainHandle) (hbecomes : m.fiber.Becomes wrote m'.fiber) :
    m'.Consistent ∧ Moves wrote m m' := by
  have hwaiting : ∀ t ∈ m'.queue, t.Alive m'.heap := fun t ht =>
    (hc.waiting t (hqueue ▸ ht)).persists hcalm.persists hs.heap.sound (hs.queue t ht)
  refine hc.revise hs hcalm hlast hmain hwaiting ?_ (fun t' ht' => ?_) fun t ht _ => ?_
  · rw [fibers, hqueue, List.map_cons, hbecomes.id]
    exact hc.tasks.ids
  · rcases mem_fibers.mp ht' with rfl | ht'
    · exact ⟨m.fiber, List.mem_cons_self, hbecomes⟩
    · have hmem : t' ∈ m.fibers := List.mem_cons_of_mem _ (hqueue ▸ ht')
      exact ⟨t', hmem, hc.becomes_self hmem⟩
  · rcases mem_fibers.mp ht with rfl | ht'
    · exact ⟨m'.fiber, List.mem_cons_self, hbecomes⟩
    · exact ⟨t, List.mem_cons_of_mem _ (hqueue ▸ ht'), hc.becomes_self ht⟩

end Machine

end ScriptMachine
