import Mathlib
import ScriptMachine.Proofs.Machine.Consistency

/-!
# ScriptMachine.Proofs.Machine.Endings — cells that are closed and tasks that end

When a fiber leaves a part of its stack it closes the cells of that part; when a task ends its handle
says how, and the fibers that waited for it are ready to run. Both are single moves of a consistent
machine, and everything that ends a scope, an activation or a task is put together from them.

`closing` and `ending` are the two moves. Aborting, dropping and resetting are put together from them for
one fiber and then for all that wait (`discarding`, `dropping`), by induction on the queue. The handle of
a task is told before the task is gone in all of these but one: when everything is dropped the handle of
the running task is left as it is, unless it is the main task. What follows from that is told elsewhere;
here it only matters that a handle does not change without its task.
-/

namespace ScriptMachine

variable {m m' : Machine} {h h' : Heap} {t t' : Fiber} {r : Ref} {v : Value} {slot task : Nat}
  {wrote : Ref → Prop}

namespace Machine.Consistent

variable (hc : m.Consistent)
include hc

/-! ## Closing cells -/

theorem closed (slot : Nat) :
    Cells.Closed m.fiber slot m.heap (m.fiber.closeUpvalues slot m.heap).2 :=
  hc.cells.closed List.mem_cons_self hc.sound.heap hc.sound.fiber slot

/-- **`closing`** — the running fiber leaves the part of its stack from a slot on. -/
theorem closing (t' : Fiber) (slot : Nat) (hid : t'.id = m.fiber.id) (hhandle : t'.handle = m.fiber.handle)
    (hopen : t'.openUpvalues = m.fiber.openBelow slot)
    (hbelow : ∀ j, j < slot → t'.stack[j]? = m.fiber.stack[j]?) (hsound : t'.Sound m.heap)
    (hdone : t'.isDone = false → m.fiber.isDone = false) :
    let m' := { m with heap := (m.fiber.closeUpvalues slot m.heap).2, fiber := t' }
    m'.Consistent ∧ Moves wrote m m' := by
  have hclosed := hc.closed slot
  have hev := hclosed.closes.evolves
  have hheap := hclosed.closes.healthy
  have hs : { m with heap := (m.fiber.closeUpvalues slot m.heap).2, fiber := t' }.Sound :=
    (hc.sound.evolve hev hheap).withFiber (hev.fiber hsound)
  have hcalm : ∀ r th, (m.fiber.closeUpvalues slot m.heap).2.task? r = some th →
      m.heap.task? r = some th := fun r _ hr => hclosed.tasks r ▸ hr
  -- below the slot the fiber still lists its cells, and has their values
  have hown : m.fiber.Carries wrote t' (m.fiber.openBelow slot) := by
    refine ⟨hid, hopen, fun e he => ?_⟩
    obtain ⟨hmem, hlt⟩ := Fiber.mem_openBelow.mp he
    obtain ⟨v, hv⟩ := hc.cells.listed_slot List.mem_cons_self hmem
    have hstack := hbelow e.1 hlt
    exact ⟨(Array.getElem?_eq_some_iff.mp (hstack.trans hv)).1, .inr hstack⟩
  have hstays : ∀ t ∈ m.queue, t.Carries wrote t t.openUpvalues := fun t ht =>
    (hc.becomes_self (List.mem_cons_of_mem _ ht)).toCarries
  -- the cells of all other fibers stay as they are
  have hcarried : Carried wrote m.heap m.fibers (m.fiber.closeUpvalues slot m.heap).2
      (t' :: m.queue) := by
    refine hc.cells.carried_close List.mem_cons_self hclosed (fun t₁ ht₁ => ?_)
      (fun _ => ⟨t', List.mem_cons_self, hown⟩)
      (fun t₁ ht₁ heq => hc.tasks.id_inj t₁ ht₁ m.fiber List.mem_cons_self heq)
      fun t₁ ht₁ hne _ => ?_
    · rcases List.mem_cons.mp ht₁ with rfl | ht₁
      · exact .inr (.inl hown)
      · exact .inr (.inr ⟨t₁, List.mem_cons_of_mem _ ht₁, hc.id_ne ht₁, hstays t₁ ht₁⟩)
    · rcases mem_fibers.mp ht₁ with rfl | ht₁
      · exact (hne rfl).elim
      · exact ⟨t₁, List.mem_cons_of_mem _ ht₁, hstays t₁ ht₁⟩
  have hmoves : Moves wrote m
      { m with heap := (m.fiber.closeUpvalues slot m.heap).2, fiber := t' } :=
    ⟨Nat.le_refl _, hclosed.closes.abides, .of_calm hcalm, hcarried⟩
  refine ⟨hc.of_moves hmoves hs (fun t ht => ?_) ?_, hmoves⟩
  · exact (hc.waiting t ht).persists hev.persists hheap.sound (hs.queue t ht)
  · refine hc.tasks.of_calm hcalm ?_ hs.mainHandle fun t₁ ht₁ => ⟨(hs.of_mem_fibers ht₁).handle, ?_⟩
    · show (t'.id :: m.queue.map Fiber.id).Nodup
      rw [hid]
      exact hc.tasks.ids
    · rcases mem_fibers.mp ht₁ with rfl | ht₁
      · exact ⟨m.fiber, List.mem_cons_self, hid, hhandle, hdone⟩
      · exact ⟨t₁, List.mem_cons_of_mem _ ht₁, rfl, rfl, id⟩

end Machine.Consistent

/-! ## Handles -/

namespace Heap

variable {f : TaskHandle → TaskHandle} {th : TaskHandle}

/-- **`HandleChanged h r th h'`** — the handle at `r` has become `th`, and nothing else has changed. -/
structure HandleChanged (h : Heap) (r : Ref) (th : TaskHandle) (h' : Heap) : Prop where
  healthy : h'.Healthy
  evolves : h.Evolves h'
  abides : h.Abides h'
  upvalues : ∀ r', h'.upvalue? r' = h.upvalue? r'
  handle : h'.task? r = some th
  tasks : ∀ r', r' ≠ r → h'.task? r' = h.task? r'

/-- **`modifyHandle`** — a handle changes its status and result. -/
theorem handleChanged_modifyHandle (hh : h.Healthy) (hr : h.task? r = some th)
    (hname : (f th).name = th.name) (hid : (f th).id = th.id) (hlive : h.Live (f th).result) :
    HandleChanged h r (f th) (h.modifyHandle r f) := by
  have hget := task?_eq_some.mp hr
  have hfixed : (Obj.task (f th)).fixed = (Obj.task th).fixed := by
    simp [Obj.fixed, hname, hid]
  have hsame : ∀ r', r' ≠ r → (h.modifyHandle r f).get? r' = h.get? r' := fun r' hne => by
    rw [modifyHandle, get?_modify, if_neg hne]
  have hself : (h.modifyHandle r f).get? r = some (.task (f th)) := by
    rw [modifyHandle, get?_modify, if_pos rfl, hget]
    rfl
  refine ⟨?_, ?_, ?_, fun r' => ?_, task?_eq_some.mpr hself, fun r' hne => ?_⟩
  · refine hh.modify (fun o ho => ?_) fun o ho hsound => ?_
    · obtain rfl := Option.some.inj (hget.symm.trans ho)
      exact hfixed
    · obtain rfl := Option.some.inj (hget.symm.trans ho)
      refine ⟨?_, hlive⟩
      rw [hname]
      exact hsound.1
  · refine evolves_modify fun o ho => ?_
    obtain rfl := Option.some.inj (hget.symm.trans ho)
    exact hfixed
  · refine abides_modify fun o ho => ?_
    obtain rfl := Option.some.inj (hget.symm.trans ho)
    exact hfixed
  · by_cases heq : r' = r
    · subst heq
      unfold upvalue?
      rw [hself, hget]
    · unfold upvalue?
      rw [hsame r' heq]
  · unfold task?
    rw [hsame r' hne]

end Heap

/-! ## Waiting for a task -/

namespace Fiber

/-- Waking changes the state of a fiber and nothing else. -/
theorem wake_frames : (t.wake task).frames = t.frames := by
  unfold wake
  split <;> rfl

theorem wake_id : (t.wake task).id = t.id := by
  unfold wake
  split <;> rfl

theorem wake_isDone : (t.wake task).isDone = t.isDone := by
  rw [isDone, wake_frames, isDone]

/-- A fiber that is still parked waits for another task. -/
theorem parked_wake {id : Nat} (ht : (t.wake task).state = .parked id) :
    t.state = .parked id ∧ id ≠ task := by
  unfold wake at ht
  split at ht
  · cases ht
  · rename_i hne
    refine ⟨ht, fun heq => hne ?_⟩
    rw [ht, heq]

/-- A fiber that becomes ready goes on with the same instruction. -/
theorem Alive.rouse (ht : t.Alive h) : ({ t with state := .ready } : Fiber).Alive h := by
  obtain ⟨a, rest, q, hp⟩ := ht
  exact ⟨a, rest, q, { hp with
    fresh := fun hop => ⟨(hp.fresh hop).made, (hp.fresh hop).unshared⟩
    parked := fun _ hparked => by cases hparked
    sleeping := fun _ _ hsleep => by cases hsleep
    rests := fun _ _ hsleep => by cases hsleep }⟩

/-- **`Alive.wake`** — whoever waited for a task does not wait any more. -/
theorem Alive.wake (ht : t.Alive h) (task : Nat) : (t.wake task).Alive h := by
  unfold Fiber.wake
  split
  · exact ht.rouse
  · exact ht

/-- What has ended is not waked to anything. -/
theorem Spent.wake (ht : t.Spent) (task : Nat) : (t.wake task).Spent := by
  unfold Fiber.wake
  split
  · exact ⟨ht.frames, ht.stack, ht.openUpvalues, ht.handlers⟩
  · exact ht

theorem Sound.wake (ht : t.Sound h) (task : Nat) : (t.wake task).Sound h := by
  unfold Fiber.wake
  split
  · exact ⟨ht.handle, ht.stack, ht.frames, ht.openUpvalues⟩
  · exact ht

/-- A fiber may be waked after it has become another one. -/
theorem Becomes.wake (ht : t.Becomes wrote t') (task : Nat) : t.Becomes wrote (t'.wake task) := by
  unfold Fiber.wake
  split
  · exact ⟨⟨ht.id, ht.openUpvalues, ht.stack⟩, ht.handle, ht.done⟩
  · exact ht

end Fiber

/-! ## The end of a task -/

namespace Machine.Consistent

variable (hc : m.Consistent)
include hc

/-- **`waking`** — everything that waits for a task goes on. -/
theorem waking (task : Nat) :
    (m.wakeWaiters task).Consistent ∧ Moves wrote m (m.wakeWaiters task) := by
  have hself : ∀ t ∈ m.fibers, t.Becomes wrote (t.wake task) := fun t ht =>
    (hc.becomes_self ht).wake task
  have hfibers : (m.wakeWaiters task).fibers = m.fibers.map (Fiber.wake task) := rfl
  have hsound : (m.wakeWaiters task).Sound := by
    refine (hc.sound.withFiber (hc.sound.fiber.wake task)).withQueue fun t' ht' => ?_
    obtain ⟨t, ht, rfl⟩ := List.mem_map.mp ht'
    exact (hc.sound.queue t ht).wake task
  refine hc.revise hsound (Heap.Still.refl _).calm rfl rfl (fun t' ht' => ?_) ?_ (fun t' ht' => ?_)
    fun t ht _ => ?_
  · obtain ⟨t, ht, rfl⟩ := List.mem_map.mp ht'
    exact (hc.waiting t ht).wake task
  · have hmap : ∀ t ∈ m.fibers, (t.wake task).id = t.id := fun _ _ => Fiber.wake_id
    rw [hfibers, List.map_map, show m.fibers.map (Fiber.id ∘ _) = _ from List.map_congr_left hmap]
    exact hc.tasks.ids
  · rw [hfibers] at ht'
    obtain ⟨t, ht, rfl⟩ := List.mem_map.mp ht'
    exact ⟨t, ht, hself t ht⟩
  · exact ⟨_, hfibers ▸ List.mem_map_of_mem ht, hself t ht⟩

/-- **`handling`** — a handle changes while its task runs, or when nothing of its task is left to run. -/
theorem handling {th th' : TaskHandle} (hr : m.heap.task? r = some th)
    (hchanged : m.heap.HandleChanged r th' h') (hid : th'.id = th.id) (hname : th'.name = th.name)
    (hold : th.status = .running ∨ th.id = mainTask)
    (hresult : th'.status ≠ .finished → th'.result = .none)
    (hlives : ∀ t ∈ m.fibers, t.id = th.id → t.isDone = false → th'.status = .running) :
    { m with heap := h' }.Consistent ∧ Moves wrote m { m with heap := h' } := by
  have hpersists := hchanged.evolves.persists
  have hsound := hc.sound.evolve hchanged.evolves hchanged.healthy
  -- every other handle is as it was
  have hcases : ∀ r' th₁, h'.task? r' = some th₁ →
      r' = r ∧ th₁ = th' ∨ r' ≠ r ∧ m.heap.task? r' = some th₁ := by
    intro r' th₁ hr'
    by_cases heq : r' = r
    · subst heq
      exact .inl ⟨rfl, Option.some.inj (hr'.symm.trans hchanged.handle)⟩
    · exact .inr ⟨heq, hchanged.tasks r' heq ▸ hr'⟩
  have hback : ∀ r' th₁, h'.task? r' = some th₁ →
      ∃ th₀, m.heap.task? r' = some th₀ ∧ th₀.id = th₁.id := by
    intro r' th₁ hr'
    rcases hcases r' th₁ hr' with ⟨rfl, rfl⟩ | ⟨-, hr'⟩
    · exact ⟨th, hr, hid.symm⟩
    · exact ⟨th₁, hr', rfl⟩
  have hcarried : Carried wrote m.heap m.fibers h' m.fibers := by
    refine (Carried.refl hc.cells).congr_heap hchanged.upvalues
  have hsucceeds : m.heap.Succeeds m.lastTask h' := by
    intro r' th₁ hr'
    rcases hcases r' th₁ hr' with ⟨rfl, rfl⟩ | ⟨-, hr'⟩
    · exact .inr ⟨th, hr, hid.symm, hname.symm, .inr hold⟩
    · exact .inr ⟨th₁, hr', rfl, rfl, .inl rfl⟩
  have hmoves : Moves wrote m { m with heap := h' } :=
    ⟨Nat.le_refl _, hchanged.abides, hsucceeds, hcarried⟩
  refine ⟨hc.of_moves hmoves hsound (fun t ht => ?_) ?_, hmoves⟩
  · exact (hc.waiting t ht).persists hpersists hchanged.healthy.sound (hsound.queue t ht)
  · refine ⟨hc.tasks.ids, hc.tasks.bound, fun t ht => ?_, fun r' th₁ hr' => ?_,
      fun r₁ r₂ th₁ th₂ h₁ h₂ heq => ?_, ?_⟩
    · obtain ⟨th₀, hth₀, hid₀, hrunning⟩ := hc.tasks.handle t ht
      by_cases heq : t.handle = r
      · rw [heq] at hth₀
        obtain rfl := Option.some.inj (hr.symm.trans hth₀)
        exact ⟨th', by rw [heq]; exact hchanged.handle, hid.trans hid₀, hlives t ht hid₀.symm⟩
      · exact ⟨th₀, (hchanged.tasks _ heq).trans hth₀, hid₀, hrunning⟩
    · rcases hcases r' th₁ hr' with ⟨rfl, rfl⟩ | ⟨-, hr'⟩
      · exact ⟨hid ▸ (hc.tasks.known _ th hr).1, hresult⟩
      · exact hc.tasks.known r' th₁ hr'
    · obtain ⟨th₁', h₁', heq₁⟩ := hback r₁ th₁ h₁
      obtain ⟨th₂', h₂', heq₂⟩ := hback r₂ th₂ h₂
      exact hc.tasks.single r₁ r₂ th₁' th₂' h₁' h₂' (heq₁.trans (heq.trans heq₂.symm))
    · obtain ⟨th₀, hth₀, hid₀⟩ := hc.tasks.main
      by_cases heq : m.mainHandle = r
      · rw [heq] at hth₀
        obtain rfl := Option.some.inj (hr.symm.trans hth₀)
        exact ⟨th', by rw [show m.mainHandle = r from heq]; exact hchanged.handle, hid.trans hid₀⟩
      · exact ⟨th₀, (hchanged.tasks _ heq).trans hth₀, hid₀⟩

/-- The result of the main task is not part of what holds the machine together. -/
theorem withMainResult {result : Option Value} (hv : ∀ v ∈ result, m.heap.Live v) :
    { m with mainResult := result }.Consistent ∧
      Moves wrote m { m with mainResult := result } := by
  have hs := hc.sound
  have hsound : { m with mainResult := result }.Sound :=
    ⟨hs.heap, hs.globals, hs.extensions, hs.fiber, hs.queue, hs.names, hs.mainHandle, hv⟩
  exact ⟨⟨hsound, hc.waiting, hc.cells, hc.tasks⟩, Nat.le_refl _, .refl _, .of_calm fun _ _ hr => hr,
    .refl hc.cells⟩

theorem withoutMainResult :
    { m with mainResult := none }.Consistent ∧ Moves wrote m { m with mainResult := none } :=
  hc.withMainResult nofun

/-- **`ending`** — a task of which nothing is left to run ends. -/
theorem ending {th : TaskHandle} (status : TaskStatus) (hr : m.heap.task? r = some th)
    (hold : th.status = .running ∨ th.id = mainTask) (hv : m.heap.Live v)
    (hresult : status ≠ .finished → v = .none)
    (hdone : ∀ t ∈ m.fibers, t.id = th.id → t.isDone = true) :
    (m.endTask th.id r status v).Consistent ∧ Moves wrote m (m.endTask th.id r status v) ∧
      (m.endTask th.id r status v).heap.task? r = some { th with status, result := v } := by
  have hchanged := Heap.handleChanged_modifyHandle (f := fun t => { t with status, result := v })
    hc.sound.heap hr rfl rfl hv
  -- the handle changes, then the result is taken down, then whoever waited goes on
  obtain ⟨hc₁, hm₁⟩ : _ ∧ Moves wrote m _ := hc.handling hr hchanged rfl rfl hold hresult
    fun t ht hid hlive => by
      rw [hdone t ht hid] at hlive
      cases hlive
  have hmain : ∀ w ∈ (if th.id = mainTask then some v else m.mainResult),
      (m.heap.modifyHandle r fun t => { t with status, result := v }).Live w := by
    intro w hw
    split at hw
    · obtain rfl := Option.some.inj hw
      exact hchanged.evolves.live hv
    · exact hchanged.evolves.live (hc.sound.mainResult w hw)
  obtain ⟨hc₂, hm₂⟩ : _ ∧ Moves wrote _ _ := hc₁.withMainResult hmain
  obtain ⟨hc₃, hm₃⟩ : _ ∧ Moves wrote _ _ := hc₂.waking th.id
  exact ⟨hc₃, (hm₁.trans hm₂).trans hm₃, hchanged.handle⟩

/-- The end of a task changes its handle, and nothing else in the heap. -/
theorem endTask_evolves {th : TaskHandle} {status : TaskStatus} (hr : m.heap.task? r = some th)
    (hv : m.heap.Live v) : m.heap.Evolves (m.endTask task r status v).heap :=
  (Heap.handleChanged_modifyHandle (f := fun t => { t with status, result := v }) hc.sound.heap hr
    rfl rfl hv).evolves

/-! ## Tasks that are dropped -/

/-- When a fiber is gone, no other has its id. -/
theorem id_ne_dropped (before : List Fiber) {after : List Fiber}
    (hqueue : m.queue = before ++ t :: after) :
    ∀ t' ∈ m.fiber :: (before ++ after), t'.id ≠ t.id := by
  intro t' ht' heq
  have hnodup := hc.tasks.ids
  have hperm : (m.fiber :: (before ++ t :: after)).Perm (t :: m.fiber :: (before ++ after)) :=
    (List.Perm.cons _ List.perm_middle).trans (List.Perm.swap ..)
  rw [fibers, hqueue] at hnodup
  have hcons := (hperm.map Fiber.id).nodup_iff.mp hnodup
  rw [List.map_cons, List.nodup_cons] at hcons
  exact hcons.1 (heq ▸ List.mem_map_of_mem ht')

/-- **`discarding`** — a fiber that waits is dropped; what it captured survives. -/
theorem discarding (before : List Fiber) {after : List Fiber} (hqueue : m.queue = before ++ t :: after) :
    let m' := { m with heap := (t.reset m.heap).2, queue := before ++ after }
    m'.Consistent ∧ Moves wrote m m' := by
  have hmem : t ∈ m.queue := by simp [hqueue]
  have hfibers : t ∈ m.fibers := List.mem_cons_of_mem _ hmem
  have hsub : (before ++ after).Sublist m.queue := by
    rw [hqueue]
    exact (List.Sublist.refl before).append (List.sublist_cons_self t after)
  have hclosed : Cells.Closed t 0 m.heap (t.reset m.heap).2 :=
    hc.cells.closed hfibers hc.sound.heap (hc.sound.queue t hmem) 0
  have hev := hclosed.closes.evolves
  have hheap := hclosed.closes.healthy
  have hs : { m with heap := (t.reset m.heap).2, queue := before ++ after }.Sound :=
    (hc.sound.evolve hev hheap).withQueue fun t' ht' =>
      hev.fiber (hc.sound.queue t' (hsub.subset ht'))
  have hcalm : ∀ r th, (t.reset m.heap).2.task? r = some th → m.heap.task? r = some th :=
    fun r _ hr => hclosed.tasks r ▸ hr
  have hsub' : (m.fiber :: (before ++ after)).Sublist m.fibers := hsub.cons_cons _
  -- the others are those with other ids
  have hne := hc.id_ne_dropped _ hqueue
  have hothers : ∀ t' ∈ m.fibers, t'.id ≠ t.id → t' ∈ m.fiber :: (before ++ after) := by
    intro t' ht' hid
    rcases mem_fibers.mp ht' with rfl | ht'
    · exact List.mem_cons_self
    · rw [hqueue, List.mem_append, List.mem_cons] at ht'
      rcases ht' with ht' | rfl | ht'
      · exact List.mem_cons_of_mem _ (List.mem_append_left _ ht')
      · exact (hid rfl).elim
      · exact List.mem_cons_of_mem _ (List.mem_append_right _ ht')
  have hstays : ∀ t' ∈ m.fibers, t'.Carries wrote t' t'.openUpvalues := fun t' ht' =>
    (hc.becomes_self ht').toCarries
  have hcarried : Carried wrote m.heap m.fibers (t.reset m.heap).2
      (m.fiber :: (before ++ after)) := by
    refine hc.cells.carried_close hfibers hclosed (fun t' ht' => ?_) (fun h => ?_)
      (fun t' ht' heq => hc.tasks.id_inj t' ht' t hfibers heq) fun t' ht' hid _ => ?_
    · have ht := hsub'.subset ht'
      exact .inr (.inr ⟨t', ht, hne t' ht', hstays t' ht⟩)
    · exact (h Fiber.openBelow_zero).elim
    · exact ⟨t', hothers t' ht' hid, hstays t' ht'⟩
  have hmoves : Moves wrote m { m with heap := (t.reset m.heap).2, queue := before ++ after } :=
    ⟨Nat.le_refl _, hclosed.closes.abides, .of_calm hcalm, hcarried⟩
  refine ⟨hc.of_moves hmoves hs (fun t' ht' => ?_) ?_, hmoves⟩
  · exact (hc.waiting t' (hsub.subset ht')).persists hev.persists hheap.sound (hs.queue t' ht')
  · refine hc.tasks.of_calm hcalm ((hsub'.map _).nodup hc.tasks.ids) hs.mainHandle fun t' ht' => ?_
    exact ⟨(hs.of_mem_fibers ht').handle, t', hsub'.subset ht', rfl, rfl, id⟩

omit hc in
theorem id_resetFiber (m : Machine) : m.resetFiber.fiber.id = m.fiber.id := by
  show (m.fiber.closeUpvalues 0 m.heap).1.id = _
  unfold Fiber.closeUpvalues
  split <;> rfl

omit hc in
theorem handle_resetFiber (m : Machine) : m.resetFiber.fiber.handle = m.fiber.handle := by
  show (m.fiber.closeUpvalues 0 m.heap).1.handle = _
  unfold Fiber.closeUpvalues
  split <;> rfl

/-- **`resetting`** — the running fiber drops everything it holds. -/
theorem resetting : m.resetFiber.Consistent ∧ Moves wrote m m.resetFiber ∧
    m.resetFiber.fiber.Spent ∧ ∀ r, m.resetFiber.heap.task? r = m.heap.task? r := by
  have horder := hc.cells.order _ List.mem_cons_self
  have hopen : (m.fiber.reset m.heap).1.openUpvalues = m.fiber.openBelow 0 := by
    show (m.fiber.closeUpvalues 0 m.heap).1.openUpvalues = _
    rw [Fiber.closeUpvalues_eq horder]
  have hid : (m.fiber.reset m.heap).1.id = m.fiber.id := id_resetFiber m
  have hhandle : (m.fiber.reset m.heap).1.handle = m.fiber.handle := handle_resetFiber m
  have hnil := hopen.trans Fiber.openBelow_zero
  have hsound : (m.fiber.reset m.heap).1.Sound m.heap := by
    refine ⟨hhandle ▸ hc.sound.fiber.handle, fun v hv => ?_, fun f hf => ?_, fun e he => ?_⟩
    · cases Array.mem_toList_iff.mpr hv
    · cases hf
    · rw [hnil] at he
      cases he
  obtain ⟨hc', hmoves⟩ : _ ∧ Moves wrote _ _ := hc.closing _ 0 hid hhandle hopen
    (fun j hj => (Nat.not_lt_zero j hj).elim) hsound nofun
  exact ⟨hc', hmoves, ⟨rfl, rfl, hnil, rfl⟩, (hc.closed 0).tasks⟩

/-- The first fiber that waits is dropped, and its task is aborted. -/
theorem dropping_first {rest : List Fiber} (hqueue : m.queue = t :: rest) :
    let m' := { m with heap := dropFiber m.heap t, queue := rest }
    m'.Consistent ∧ Moves wrote m m' ∧ m.heap.Evolves m'.heap ∧
      ∀ r th, m.heap.task? r = some th → m'.heap.task? r =
        some (if th.id = t.id then { th with status := .aborted } else th) := by
  have hmem : t ∈ m.queue := by simp [hqueue]
  have hclosed : Cells.Closed t 0 m.heap (t.reset m.heap).2 :=
    hc.cells.closed (List.mem_cons_of_mem _ hmem) hc.sound.heap (hc.sound.queue t hmem) 0
  obtain ⟨hc₁, hm₁⟩ : _ ∧ Moves wrote _ _ := hc.discarding [] hqueue
  -- it was running, so it has no result
  obtain ⟨th, hth, hid, hrunning⟩ := hc.tasks.handle t (List.mem_cons_of_mem _ hmem)
  have hrun := hrunning (hc.waiting t hmem).not_done
  have hresult := (hc.tasks.known _ th hth).2 (by rw [hrun]; nofun)
  have hth' := (hclosed.tasks t.handle).trans hth
  have hchanged := Heap.handleChanged_modifyHandle (f := fun h => { h with status := .aborted })
    hc₁.sound.heap hth' rfl rfl (by rw [hresult]; exact Heap.live_none)
  obtain ⟨hc₂, hm₂⟩ : _ ∧ Moves wrote _ _ := hc₁.handling hth' hchanged rfl rfl (.inl hrun)
    (fun _ => hresult) fun u hu heq => by
      exact (hc.id_ne_dropped [] hqueue u hu (heq.trans hid)).elim
  refine ⟨hc₂, hm₁.trans hm₂, hclosed.closes.evolves.trans hchanged.evolves, fun r th' hr => ?_⟩
  by_cases heq : r = t.handle
  · subst heq
    obtain rfl := Option.some.inj (hth.symm.trans hr)
    rw [if_pos hid]
    exact hchanged.handle
  · have hne : th'.id ≠ t.id := fun h => heq (hc.tasks.single _ _ _ _ hr hth (h.trans hid.symm))
    rw [if_neg hne]
    exact (hchanged.tasks r heq).trans ((hclosed.tasks r).trans hr)

omit hc in
/-- **`dropping`** — every fiber that waits is dropped, and its task is aborted. -/
theorem dropping (hc : m.Consistent) :
    m.dropOthers.Consistent ∧ Moves wrote m m.dropOthers ∧ m.heap.Evolves m.dropOthers.heap ∧
      ∀ r th, m.heap.task? r = some th → m.dropOthers.heap.task? r =
        some (if th.id ∈ m.queue.map Fiber.id then { th with status := .aborted } else th) := by
  generalize hqueue : m.queue = queue
  induction queue generalizing m with
  | nil =>
    have hsame : m.dropOthers = m := by
      unfold dropOthers
      rw [hqueue]
      show { m with queue := [] } = m
      rw [← hqueue]
    rw [hsame]
    exact ⟨hc, ⟨Nat.le_refl _, .refl _, .of_calm fun _ _ hr => hr, .refl hc.cells⟩, .refl _,
      fun _ _ hr => hr⟩
  | cons t rest ih =>
    obtain ⟨hc₁, hm₁, hev₁, htasks₁⟩ : _ ∧ Moves wrote _ _ ∧ _ := hc.dropping_first hqueue
    obtain ⟨hc₂, hm₂, hev₂, htasks₂⟩ := ih hc₁ rfl
    have hsame : ({ m with heap := dropFiber m.heap t, queue := rest } : Machine).dropOthers =
        m.dropOthers := by
      unfold dropOthers
      rw [hqueue]
      rfl
    rw [hsame] at hc₂ hm₂ hev₂ htasks₂
    refine ⟨hc₂, hm₁.trans hm₂, hev₁.trans hev₂, fun r th hr => ?_⟩
    rw [htasks₂ r _ (htasks₁ r th hr), List.map_cons]
    by_cases hid : th.id = t.id <;> simp [hid]

end Machine.Consistent

end ScriptMachine
