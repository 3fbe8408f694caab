import Mathlib
import ScriptMachine.Proofs.Machine.Histories

/-!
# ScriptMachine.Proofs.Machine.Tasks — whose turn it is, and what becomes of a task

Tasks take turns, and none gets lost: the scheduler hands the machine from one to the next, finds that
all have ended, or finds that all that are left wait for each other. A task ends once. Its handle says
how, with the result if it has returned one, and says so from then on; whoever awaits the task, and
whenever, is given that result.

The two halves are separate. The first, `schedules_fair`, is about the scheduler alone: from `Orderly`,
that ids are distinct and nothing that waits has ended, it follows that the turn is `Fair`, whatever the
clock reads; that every reachable machine is orderly is part of the statement. It rests on what
`Schedules` conserves. `schedules_fair_mutualAwait` is two tasks that wait for each other.

The second, `results_written_once`, is about histories. `Ends` lists the ways in which a task can end,
by a return, an error, an abort or the end of the run, and `ends_handle` says that the handle of the
task then says how. From there on nothing changes it (`handle_later`, from the law that each step keeps
to), so an await that completes at any later time finds the same result (`awaits_result`). In
`results_written_once_awaited` three tasks await each other in turn and another is aborted.

A spawned task that is dropped while it has its turn has no end in this sense, since its handle is never
told; when that happens is shown in `Standing`. Nor is it claimed that a task ends at all. And as ids are
counted with 32 bits, all of this is about machines in which each id was given once: a spawn beyond
the last one has no outcome here.
-/

namespace ScriptMachine

open Relation

variable {m m' m'' : Machine} {turn : Turn} {t : Fiber} {r r' : Ref} {v : Value} {e : Fault}
  {status : TaskStatus} {th th' : TaskHandle}

namespace Machine

/-! ## Turns -/

/-- **`m.Orderly`** — no two tasks have one id, and every task that waits has something to run. -/
structure Orderly (m : Machine) : Prop where
  ids : (m.fibers.map Fiber.id).Nodup
  queue : ∀ t ∈ m.queue, t.isDone = false

/-- **`Fair m turn m'`** — the scheduler has found the right turn, and `m'` has the tasks of `m`. -/
structure Fair (m : Machine) (turn : Turn) (m' : Machine) : Prop where
  conserves : Conserves m m'
  orderly : m'.Orderly
  run : turn = .run → m'.fiber.isDone = false ∧ m'.fiber.state = .ready
  finished : turn = .finished ↔ m.alive = []
  deadlock : turn = .deadlock ↔ m.alive ≠ [] ∧ ∀ t ∈ m.alive, ∃ task, t.state = .parked task
  told : turn = .deadlock → m'.fiber.isDone = false ∧ m'.fiber.state = .ready ∧
    ((∃ t ∈ m.alive, t.id = mainTask) → m'.fiber.id = mainTask)

theorem alive_sublist (m : Machine) : m.alive.Sublist m.fibers := by
  unfold alive
  split
  · exact List.sublist_cons_self ..
  · exact .refl _

/-- A turn keeps which tasks there are, and which of them have ended. -/
theorem turned_same {ts ts' : List Fiber} (hturned : List.Forall₂ Fiber.Turned ts ts') :
    ts.map Fiber.id = ts'.map Fiber.id ∧ ts.map Fiber.isDone = ts'.map Fiber.isDone := by
  induction hturned with
  | nil => exact ⟨rfl, rfl⟩
  | cons ht _ ih =>
    simp only [List.map_cons, ht.id, ht.isDone, ih.1, ih.2, and_self]

namespace Orderly

variable (ho : m.Orderly)
include ho

/-- Tasks that are alive have a frame. -/
theorem alive_live : ∀ t ∈ m.alive, t.isDone = false := by
  intro t ht
  unfold alive at ht
  split at ht
  · exact ho.queue t ht
  · rename_i hlive
    rcases List.mem_cons.mp ht with rfl | ht
    · exact Bool.eq_false_iff.mpr hlive
    · exact ho.queue t ht

/-- The tasks that have something to run are the same afterwards, with the same ids. -/
theorem alive_conserved (hc : Conserves m m') :
    (m'.alive.map Fiber.id).Nodup ∧ ∀ t ∈ m'.alive, t.isDone = false := by
  obtain ⟨ts, hperm, hturned⟩ := hc.alive
  obtain ⟨hids, hdone⟩ := turned_same hturned
  refine ⟨?_, fun t' ht' => ?_⟩
  · rw [← (hperm.map Fiber.id).nodup_iff, ← hids]
    exact ((alive_sublist m).map _).nodup ho.ids
  · obtain ⟨t, ht, heq⟩ := List.mem_map.mp (hdone ▸ List.mem_map_of_mem (hperm.mem_iff.mpr ht'))
    exact heq.symm.trans (ho.alive_live t ht)

/-- A turn that conserves the tasks keeps their ids distinct, and leaves nothing in the queue that has
ended. -/
theorem conserved (hc : Conserves m m') (hfiber : m'.fiber.isDone = true → m'.queue = []) :
    m'.Orderly := by
  obtain ⟨hids, hlive⟩ := ho.alive_conserved hc
  cases hdone : m'.fiber.isDone with
  | false =>
    have halive : m'.alive = m'.fibers := by
      rw [alive, hdone]
      rfl
    rw [halive] at hids hlive
    exact ⟨hids, fun t ht => hlive t (List.mem_cons_of_mem _ ht)⟩
  | true =>
    have hqueue := hfiber hdone
    refine ⟨?_, fun t ht => ?_⟩
    · rw [fibers, hqueue]
      exact List.nodup_singleton _
    · rw [hqueue] at ht
      cases ht

/-- **`fair`** — whatever the scheduler does with an orderly machine is fair. -/
theorem fair (hs : Schedules m turn m') : Fair m turn m' := by
  have hconserves := hs.conserves ho.queue
  have hrun : turn = .run → m'.fiber.isDone = false ∧ m'.fiber.state = .ready := by
    rintro rfl
    exact hs.run ho.queue
  have htold : turn = .deadlock → m'.fiber.isDone = false ∧ m'.fiber.state = .ready ∧
      ((∃ t ∈ m.alive, t.id = mainTask) → m'.fiber.id = mainTask) := by
    rintro rfl
    exact hs.told ho.queue
  refine ⟨hconserves, ho.conserved hconserves fun hdone => ?_, hrun, hs.finished_iff,
    hs.deadlock_iff, htold⟩
  -- only when all tasks have ended is the running fiber done
  cases hturn : turn with
  | run => rw [(hrun hturn).1] at hdone; cases hdone
  | deadlock => rw [(htold hturn).1] at hdone; cases hdone
  | finished =>
    obtain ⟨ts, hperm, hturned⟩ := hconserves.alive
    rw [hs.finished_iff.mp hturn] at hturned
    obtain rfl := List.forall₂_nil_left_iff.mp hturned
    have hnone := hperm.symm.eq_nil
    rwa [alive, if_pos hdone] at hnone

end Orderly

theorem Valid.orderly (hv : m.Valid) : m.Orderly :=
  ⟨hv.tasks.ids, hv.queue_live⟩

/-- **`schedules_fair`** — the scheduler neither loses a task nor makes one up, finds one to run when
there is one, and tells the main task of a deadlock; and every reachable machine is one it is fair to. -/
theorem schedules_fair (m : Machine) : (m.Orderly → ∀ turn m', Schedules m turn m' → Fair m turn m') ∧
    Schedules m m.schedule.1 m.schedule.2 ∧ (m.Reachable → m.Orderly) :=
  ⟨fun ho _ _ hs => ho.fair hs, schedules_schedule m, fun hm => hm.valid.orderly⟩

/-- Two tasks that wait for each other are in a deadlock, and the main task, though it is not the one that
ran last, gets to know of it. -/
theorem schedules_fair_mutualAwait :
    let main := { Fiber.new mainTask default with frames := [default], state := .parked 1 }
    let other := { Fiber.new 1 default with frames := [default], state := .parked mainTask }
    let m := { bare {} default with fiber := other, queue := [main] }
    m.schedule.1 = .deadlock ∧ m.schedule.2.fiber.id = mainTask := by
  intro main other m
  have horderly : m.Orderly := ⟨by decide, by decide⟩
  have hfair := (schedules_fair m).1 horderly _ _ (schedules_fair m).2.1
  have hparked : m.alive ≠ [] ∧ ∀ t ∈ m.alive, ∃ task, t.state = .parked task := by
    refine ⟨nofun, fun t ht => ?_⟩
    rcases List.mem_cons.mp ht with rfl | ht
    · exact ⟨mainTask, rfl⟩
    · exact ⟨1, by rw [List.mem_singleton.mp ht]⟩
  have hdeadlock := hfair.deadlock.mpr hparked
  exact ⟨hdeadlock, (hfair.told hdeadlock).2.2 ⟨main, List.mem_cons_of_mem _ (.head _), rfl⟩⟩

/-! ## Ends -/

/-- **`m.Errs e m'`** — an error comes up, and `m'` is the machine that is to raise it. -/
inductive Errs : Machine → Fault → Machine → Prop
  | fails {m m' : Machine} {e : Fault} (hready : m.Ready) (hhonest : m.heap.Honest)
      (hstep : Exec.step m = .error e m') (hstuck : e ≠ .stuck) (hendless : e ≠ .endless) : Errs m e m'
  | deadlock {m m' : Machine} (hturn : Schedules m .deadlock m') : Errs m .deadlock m'

/-- An error has come up wherever it is raised, and what is written does not change that. -/
theorem Faulting.withErrors (hf : m.Faulting) (text : String) :
    { m with stderr := text }.Faulting :=
  ⟨hf.toConsistent.withErrors text, hf.failing⟩

/-- The machine that is to raise an error stands where one may be raised. -/
theorem Valid.errs (hv : m.Valid) (he : m.Errs e m') : m'.Faulting ∧ e ≠ .stuck ∧ e ≠ .endless := by
  cases he with
  | deadlock hturn =>
    obtain ⟨hfaulting, -⟩ : _ ∧ Moves (fun _ => False) _ _ := hturn.faulting hv
    exact ⟨hfaulting, nofun, nofun⟩
  | fails hready hhonest hstep hstuck hendless =>
    have hmeets := hv.step hready hhonest
    unfold Exec.Meets at hmeets
    rw [hstep] at hmeets
    obtain ⟨heq, -⟩ | ⟨-, hfaulting, -⟩ := hmeets
    · exact (hstuck heq).elim
    · exact ⟨hfaulting, hstuck, hendless⟩

/-- **`m.Ends t status v m'`** — the task of the fiber `t` ends, so that its handle is to have this status
and this result: its last activation returns, it has no handler for an error, another task aborts it,
or an error ends the run. -/
inductive Ends : Machine → Fiber → TaskStatus → Value → Machine → Prop
  | returns {m m' : Machine} {f : Frame} {i : Instruction} {v : Value} (hready : m.Ready)
      (hhonest : m.heap.Honest) (hlast : m.fiber.frames = [f]) (hnext : m.Next i) (hop : i.op = .ret)
      (htop : m.fiber.stack[m.fiber.stack.size - 1]? = some v) (hstep : Exec.step m = .ok () m') :
      Ends m m.fiber .finished v m'
  | uncaught {m m' : Machine} {e : Fault} (he : m.Errs e m') (hcatch : e.Catchable)
      (hnone : m'.fiber.handlers = []) (hspawned : m'.fiber.id ≠ mainTask) :
      Ends m m'.fiber .finished .none (m'.raise e).2
  | aborted {m m' : Machine} {t : Fiber} {i : Instruction} {r : Ref} {th : TaskHandle}
      (hready : m.Ready) (hhonest : m.heap.Honest) (hnext : m.Next i) (hop : i.op = .abortTask)
      (htop : m.fiber.stack[m.fiber.stack.size - 1]? = some (.obj r)) (hth : m.heap.task? r = some th)
      (ht : t ∈ m.queue) (hid : t.id = th.id) (hstep : Exec.step m = .ok () m') :
      Ends m t .aborted .none m'
  | abandoned {m m' : Machine} {t : Fiber} {e : Fault} {outcome : Outcome} (he : m.Errs e m')
      (hends : (m'.raise e).1 = some outcome) (ht : t ∈ m'.queue) :
      Ends m t .aborted .none (m'.raise e).2

/-- **`m.Awaits r v m'`** — an await on the handle `r` completes and yields `v`. -/
structure Awaits (m : Machine) (r : Ref) (v : Value) (m' : Machine) : Prop where
  ready : m.Ready
  honest : m.heap.Honest
  next : ∃ i, m.Next i ∧ i.op = .awaitTask
  awaited : m.fiber.stack[m.fiber.stack.size - 1]? = some (.obj r)
  step : Exec.step m = .ok () m'
  completes : m'.fiber.state = .ready
  yields : m'.fiber.stack[m.fiber.stack.size - 1]? = some v

/-- **`abandon_handle`** — when every task is dropped, the handles of those that waited say that they were
aborted, and so does that of the main task if it had its turn. The others stay as they are. -/
theorem Faulting.abandon_handle (hf : m.Faulting) (hth : m.heap.task? r = some th) :
    m.abandon.heap.task? r = some (if th.id ∈ m.queue.map Fiber.id ∨
      m.fiber.id = mainTask ∧ r = m.mainHandle then { th with status := .aborted } else th) := by
  obtain ⟨hc₁, -, -, hdropped⟩ : _ ∧ Moves (fun _ => False) _ _ ∧ _ := hf.toConsistent.dropping
  obtain ⟨-, -, -, hreset⟩ : _ ∧ Moves (fun _ => False) _ _ ∧ _ := hc₁.resetting
  have htask := (hreset r).trans (hdropped r th hth)
  have hid : m.dropOthers.resetFiber.fiber.id = m.fiber.id := Consistent.id_resetFiber m.dropOthers
  unfold Machine.abandon
  dsimp only
  rw [hid]
  by_cases hmain : m.fiber.id = mainTask
  · rw [if_pos hmain]
    rw [Heap.task?_eq_some] at htask ⊢
    show (Heap.modify _ _ _).get? r = _
    rw [Heap.get?_modify, show m.dropOthers.resetFiber.mainHandle = m.mainHandle from rfl, htask]
    by_cases hr : r = m.mainHandle
    · have heither : th.id ∈ m.queue.map Fiber.id ∨ m.fiber.id = mainTask ∧ r = m.mainHandle :=
        .inr ⟨hmain, hr⟩
      rw [if_pos hr, if_pos heither]
      split <;> rfl
    · rw [if_neg hr]
      simp [hr]
  · rw [if_neg hmain, htask]
    simp [hmain]

namespace Valid

variable (hv : m.Valid)
include hv

/-- An instruction that is executed is the one the running fiber is poised at. -/
theorem executes {i : Instruction} (hready : m.Ready) (hhonest : m.heap.Honest) (hnext : m.Next i)
    (hstep : Exec.step m = .ok () m') : ∃ a rest q, Stepping m a rest q ∧ q.instr = i ∧
      Exec.execute q.instr (Stepping.inside m a rest q) = .ok () m' := by
  obtain ⟨a, rest, q, hs⟩ := hv.stepping hready hhonest
  exact ⟨a, rest, q, hs, (hs.next_inj hnext).symm, (Exec.step_eq hs.poised).symm.trans hstep⟩

/-- **`ends`** — the handle of a task that has ended says how. -/
theorem ends_handle (hends : m.Ends t status v m') :
    ∃ th, m'.heap.task? t.handle = some th ∧ th.id = t.id ∧ th.status = status ∧ th.result = v := by
  cases hends with
  | returns hready hhonest hlast hnext hop htop hstep =>
    obtain ⟨a, rest, q, hs, rfl, hexec⟩ := hv.executes hready hhonest hnext hstep
    -- no activation waits for the one that returns
    have hrest : rest = [] := by
      have hframes := hs.poised.frames.symm.trans hlast
      exact List.map_eq_nil_iff.mp (List.cons.inj hframes).2
    obtain ⟨v', hlive, htop', hret⟩ := hs.ret_eq hop
    obtain rfl := Option.some.inj (htop'.symm.trans htop)
    obtain ⟨th, hth, hid, -⟩ := hs.consistent.tasks.handle m.fiber List.mem_cons_self
    obtain ⟨-, -, hhandle⟩ : _ ∧ Law (fun _ => False) _ _ ∧ _ := hs.ret_last hop hrest hlive hth
    subst hrest
    cases hret.symm.trans hexec
    exact ⟨_, hhandle, hid, rfl, rfl⟩
  | uncaught he hcatch hnone hspawned =>
    obtain ⟨hfaulting, -⟩ := hv.errs he
    obtain ⟨-, th, hth, hid, -⟩ := hfaulting.running
    obtain ⟨-, -, hhandle⟩ : _ ∧ Moves (fun _ => False) _ _ ∧ _ :=
      (hfaulting.withErrors _).uncaught hth
    rw [raise_uncaught hcatch hnone hspawned]
    exact ⟨_, hhandle, hid, rfl, rfl⟩
  | aborted hready hhonest hnext hop htop hth ht hid hstep =>
    obtain ⟨a, rest, q, hs, rfl, hexec⟩ := hv.executes hready hhonest hnext hstep
    have hmem : t ∈ m.fibers := List.mem_cons_of_mem _ ht
    have hfind := hid ▸ hv.toConsistent.find?_id ht
    have hne := hid ▸ hv.toConsistent.id_ne ht
    obtain ⟨habort, -, -, hhandle⟩ : _ ∧ _ ∧ Law (fun _ => False) _ _ ∧ _ :=
      hs.abort_waiting hop htop hth hne hfind
    cases habort.symm.trans hexec
    obtain ⟨th', hth', hid', -⟩ := hv.tasks.handle t hmem
    obtain rfl := hv.tasks.single _ _ _ _ hth' hth (hid'.trans hid)
    obtain rfl := Option.some.inj (hth'.symm.trans hth)
    exact ⟨_, hhandle, hid', rfl, rfl⟩
  | abandoned he hends ht =>
    obtain ⟨hfaulting, hstuck, hendless⟩ := hv.errs he
    -- the result is the one the handle had, and it says nothing while a task runs
    obtain ⟨th, hth, hid, hrunning⟩ := hfaulting.tasks.handle t (List.mem_cons_of_mem _ ht)
    have hrun := hrunning (hfaulting.waiting t ht).not_done
    have hresult := (hfaulting.tasks.known _ th hth).2 (by rw [hrun]; nofun)
    have hhandle := hfaulting.abandon_handle hth
    rw [if_pos (.inl (hid ▸ List.mem_map_of_mem ht))] at hhandle
    rw [raise_ends hstuck hendless hends]
    exact ⟨_, hhandle, hid, rfl, hresult⟩

/-- An await that completes finds that the task has ended, and yields its result. -/
theorem awaits_result (ha : m.Awaits r v m') :
    ∃ th, m.heap.task? r = some th ∧ th.status ≠ .running ∧ v = th.result := by
  obtain ⟨i, hnext, hop⟩ := ha.next
  obtain ⟨a, rest, q, hs, rfl, hexec⟩ := hv.executes ha.ready ha.honest hnext ha.step
  have hlt := (Array.getElem?_eq_some_iff.mp ha.awaited).1
  by_cases hended : ∃ th, m.heap.task? r = some th ∧ th.status ≠ .running
  · obtain ⟨th, hth, hended⟩ := hended
    obtain ⟨hawait, -⟩ : _ ∧ _ ∧ Law (fun _ => False) _ _ :=
      hs.await_ended hop ha.awaited hth hended
    cases hawait.symm.trans hexec
    refine ⟨th, hth, hended, ?_⟩
    have hyields := ha.yields
    have hsize : (m.fiber.stack.shrink (m.fiber.stack.size - 1)).size = m.fiber.stack.size - 1 := by
      rw [Array.size_shrink, Nat.min_eq_left (Nat.sub_le ..)]
    rw [Array.getElem?_push, if_pos hsize.symm] at hyields
    exact (Option.some.inj hyields).symm
  · -- otherwise the await fails, or the task is parked
    exfalso
    -- a task that has not ended is another one, or it is no task that can be awaited
    have hrunning : ∀ th, m.heap.task? r = some th → th.status = .running := fun th hth => by
      by_contra hnot
      exact hended ⟨th, hth, hnot⟩
    by_cases hother : ∃ th, m.heap.task? r = some th ∧ th.id ≠ m.fiber.id
    · obtain ⟨th, hth, hne⟩ := hother
      obtain ⟨hawait, -⟩ : _ ∧ _ ∧ Law (fun _ => False) _ _ :=
        hs.await_running hop ha.awaited hth (hrunning th hth) hne
      cases hawait.symm.trans hexec
      cases ha.completes
    · have hpeek : Exec.peek 0 (Stepping.inside m a rest q) = .ok (.obj r) (Stepping.inside m a rest q) :=
        Exec.peek_eq (by show 0 < m.fiber.stack.size; omega) ha.awaited
      obtain ⟨e, -, herror⟩ := Exec.awaitTask_refused hpeek fun r' th heq hth => by
        obtain rfl := Value.obj.inj heq
        exact ⟨hrunning th hth, by_contra fun hne => hother ⟨th, hth, hne⟩⟩
      unfold Exec.execute at hexec
      rw [hop] at hexec
      cases herror.symm.trans hexec

/-- **`handle_later`** — a handle keeps its name and its task, and once the task has ended it never
changes. -/
theorem handle_later (hlater : m.Later m') (hth : m.heap.task? r = some th) (hspawned : th.id ≠ mainTask)
    (hth' : m'.heap.task? r' = some th') (hid : th'.id = th.id) :
    r' = r ∧ th'.name = th.name ∧ (th.status ≠ .running → th' = th) := by
  obtain ⟨-, -, -, hsucceeds⟩ := hv.later hlater
  obtain hnew | ⟨th₀, hth₀, hid₀, hname, hsame⟩ := hsucceeds r' th' hth'
  · -- a task that was known is none that was started since
    have hknown := (hv.tasks.known r th hth).1
    omega
  · obtain rfl := hv.tasks.single _ _ _ _ hth₀ hth (hid₀.trans hid)
    obtain rfl := Option.some.inj (hth₀.symm.trans hth)
    refine ⟨rfl, hname.symm, fun hended => ?_⟩
    obtain rfl | hrunning | hmain := hsame
    · rfl
    · exact (hended hrunning).elim
    · exact (hspawned hmain).elim

end Valid

/-- **`m.WritesResultsOnce`** — a handle says how its task has ended, then and ever after, and every await
on it that completes yields the result that it says. -/
structure WritesResultsOnce (m : Machine) : Prop where
  ends : ∀ m' t status v, m.Ends t status v m' →
    ∃ th, m'.heap.task? t.handle = some th ∧ th.id = t.id ∧ th.status = status ∧ th.result = v
  unfinished : ∀ r th, m.heap.task? r = some th → th.status ≠ .finished → th.result = .none
  later : ∀ r th, m.heap.task? r = some th → th.id ≠ mainTask → ∀ m', m.Later m' →
    ∀ r' th', m'.heap.task? r' = some th' → th'.id = th.id →
      r' = r ∧ th'.name = th.name ∧ (th.status ≠ .running → th' = th)
  awaits : ∀ r th, m.heap.task? r = some th → th.id ≠ mainTask → ∀ m', m.Later m' →
    ∀ r' th' v m'', m'.heap.task? r' = some th' → th'.id = th.id → m'.Awaits r' v m'' →
      th'.status ≠ .running ∧ v = th'.result ∧ (th.status ≠ .running → v = th.result)

/-- **`results_written_once`** — the handle of a spawned task is written to once, when the task ends. -/
theorem Reachable.results_written_once (hm : m.Reachable) : m.WritesResultsOnce where
  ends _ _ _ _ hends := hm.valid.ends_handle hends
  unfinished r th hth := (hm.valid.tasks.known r th hth).2
  later _ _ hth hspawned _ hlater _ _ hth' hid := hm.valid.handle_later hlater hth hspawned hth' hid
  awaits r th hth hspawned m' hlater r' th' v m'' hth' hid ha := by
    obtain ⟨th₁, hth₁, hended', rfl⟩ := (hm.valid.later hlater).1.awaits_result ha
    obtain rfl := Option.some.inj (hth₁.symm.trans hth')
    refine ⟨hended', rfl, fun hended => ?_⟩
    rw [(hm.valid.handle_later hlater hth hspawned hth' hid).2.2 hended]

/-- Three tasks: the main task awaits the first, which awaits the second; another is aborted. -/
def awaitInTurn : String :=
  "func f() \x7b return true; \x7d func g() \x7b var a = async f(); return await a; \x7d " ++
    "var b = async g(); var c = async f(); abort c; var v = await b;"

/-- The task that is awaited returns and ends, the task that awaits it gets the result, and whatever
happens from then on the handle says so. -/
theorem results_written_once_awaited :
    (rehearse awaitInTurn 32).Ends (rehearse awaitInTurn 32).fiber .finished (.bool true)
        (rehearse awaitInTurn 33) ∧
      (∃ r, (rehearse awaitInTurn 34).Awaits r (.bool true) (rehearse awaitInTurn 35)) ∧
      (rehearse awaitInTurn 32).WritesResultsOnce := by
  have hfacts : ((rehearse awaitInTurn 32).fiber.frames.length = 1 ∧
      (rehearse awaitInTurn 32).Performs 3 .ret ∧
      (rehearse awaitInTurn 32).fiber.stack[(rehearse awaitInTurn 32).fiber.stack.size - 1]? =
        some (.bool true)) ∧
      (rehearse awaitInTurn 34).Performs 1 .awaitTask ∧
      (((rehearse awaitInTurn 34).fiber.stack[(rehearse awaitInTurn 34).fiber.stack.size - 1]?).bind
        Value.ref?).isSome = true ∧
      (rehearse awaitInTurn 35).fiber.state = .ready ∧
      (rehearse awaitInTurn 35).fiber.stack[(rehearse awaitInTurn 34).fiber.stack.size - 1]? =
        some (.bool true) := by
    decide +kernel
  obtain ⟨⟨hlength, hreturns, hlast⟩, hawaits, htop, hcompletes, hyields⟩ := hfacts
  refine ⟨?_, ?_, Reachable.results_written_once (reachable_rehearse _ _)⟩
  · obtain ⟨f, hf⟩ := List.length_eq_one_iff.mp hlength
    obtain ⟨i, hi, hop⟩ := hreturns.next
    exact .returns hreturns.ready (honest_rehearse _ _) hf hi hop hlast (step_rehearse hreturns)
  · obtain ⟨r, hr⟩ := exists_reference htop
    exact ⟨r, hawaits.ready, honest_rehearse _ _, hawaits.next, hr, step_rehearse hawaits,
      hcompletes, hyields⟩

end Machine

end ScriptMachine
