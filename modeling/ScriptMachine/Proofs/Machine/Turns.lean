import Mathlib
import ScriptMachine.Proofs.Machine.Raising
import ScriptMachine.Proofs.Machine.Scheduling

/-!
# ScriptMachine.Proofs.Machine.Turns — a machine between two instructions

Between the instructions of one fiber another may get its turn, and garbage may be collected. Neither
makes a consistent machine inconsistent: a fiber that has slept finds the time on top of its stack,
where no closure shares it, and everything else about fibers stays.

`Schedules.valid` is the result for turns, and `Valid.collectGarbage` for collections. When a deadlock is
found the machine is not valid but faulting: the fiber that gets to know of it has failed where it was
parked, which is an instruction that can fail, so that the error is raised like any other.
-/

namespace ScriptMachine

variable {m m' : Machine} {h h' : Heap} {t t' : Fiber} {start stop clock : Nat}
  {ts passed after : List Fiber} {wrote : Ref → Prop} {turn : Turn}

/-! ## Fibers that wake -/

namespace Fiber

/-- **`Alive.awaken`** — a fiber that has slept goes on, with the time it slept on top. -/
theorem Alive.awaken {since deadline : Nat} (ht : t.Alive h)
    (hstate : t.state = .sleeping since deadline) : (t.awaken clock since).Alive h := by
  obtain ⟨a, rest, q, hp⟩ := ht
  obtain ⟨hneeds, hempty⟩ := hp.sleeping since deadline hstate
  have hsize := hp.size
  have hreads := (hp.sound.suits hp.mem).reads
  rw [hp.situation] at hreads
  -- the time takes the place of the value on top, which is no collection of a literal
  have hkept : ∀ (v : Value) j, j ≠ t.stack.size - 1 →
      (t.stack.setIfInBounds (t.stack.size - 1) v)[j]? = t.stack[j]? := fun v j hne =>
    Array.getElem?_setIfInBounds_ne fun heq => hne heq.symm
  exact ⟨a, rest, q, { hp with
    size := Array.size_setIfInBounds.trans hp.size
    holds := fun j k hj => by
      refine (hp.holds j k hj).congr (hkept _ _ fun heq => hempty k ?_)
      have hlt := (hp.unshared hj).1
      obtain rfl : j = a.situation.height - 1 := by omega
      exact hj
    waiting := hp.waiting.mono (fun _ hj _ => hj) fun j hlt _ => hkept _ j (by omega)
    fresh := fun hop => by rw [hneeds] at hop; cases hop
    parked := fun _ hparked => by cases hparked
    sleeping := fun _ _ hsleep => by cases hsleep
    rests := fun _ _ hsleep => by cases hsleep }⟩

/-- A task that wakes stands where it did. A sleeper has the time that has passed on top of its stack. -/
theorem Wakes.alive (hw : t.Wakes start t' stop) (ht : t.Alive h) : t'.Alive h := by
  cases hw with
  | ready => exact ht
  | due hstate => exact ht.awaken hstate

theorem Sound.wakes (ht : t.Sound h) (hw : t.Wakes start t' stop) : t'.Sound h := by
  cases hw with
  | ready => exact ht
  | due hstate =>
    refine ⟨ht.handle, fun v hv => ?_, ht.frames, ht.openUpvalues⟩
    rcases Array.mem_or_eq_of_mem_setIfInBounds hv with hv | rfl
    · exact ht.stack v hv
    · exact Heap.live_number _

/-- What is shared of a fiber is below what it finds when it wakes. -/
theorem Becomes.of_wakes (ht : t.Becomes wrote t) (halive : t.Alive h)
    (hw : t.Wakes start t' stop) : t.Becomes wrote t' := by
  cases hw with
  | ready => exact ht
  | due hstate =>
    obtain ⟨a, rest, q, hp⟩ := halive
    obtain ⟨hpos, hunshared⟩ := hp.rests _ _ hstate
    refine ⟨⟨rfl, rfl, fun e he => ⟨?_, .inr ?_⟩⟩, rfl, fun hdone => hdone⟩
    · show e.1 < (t.stack.setIfInBounds _ _).size
      rw [Array.size_setIfInBounds]
      exact (ht.stack e he).1
    · refine Array.getElem?_setIfInBounds_ne fun heq => hunshared ⟨e.2, ?_⟩
      rw [heq]
      exact he

end Fiber

namespace Machine

/-! ## Turns -/

/-- The running task stands in listings, unless it has ended. -/
theorem Valid.alive_of_live (hv : m.Valid) (hlive : m.fiber.isDone = false) :
    m.fiber.Alive m.heap := by
  rcases hv.running with hspent | halive
  · rw [hspent.done] at hlive
    cases hlive
  · exact halive

theorem Valid.queue_live (hv : m.Valid) : ∀ t ∈ m.queue, t.isDone = false :=
  fun t ht => (hv.waiting t ht).not_done

/-- A machine at another time. -/
theorem Consistent.withClock (hc : m.Consistent) (clock : Nat) : { m with clock }.Consistent :=
  ⟨⟨hc.sound.heap, hc.sound.globals, hc.sound.extensions, hc.sound.fiber, hc.sound.queue,
    hc.sound.names, hc.sound.mainHandle, hc.sound.mainResult⟩, hc.waiting, hc.cells, hc.tasks⟩

/-- **`switching`** — another fiber gets its turn, and the one that had it waits, unless it is done. -/
theorem Valid.switching (hv : m.Valid) (t' : Fiber) (hqueue : m.queue = passed ++ t :: after)
    (hsound : t'.Sound m.heap) (hbecomes : t.Becomes wrote t') (hts : ts.Perm (passed ++ after)) :
    (m.switchTo t' ts).Consistent ∧ Moves wrote m (m.switchTo t' ts) := by
  have hc := hv.toConsistent
  have hmem : ∀ u, u ∈ m.queue ↔ u = t ∨ u ∈ ts := by
    intro u
    rw [hqueue, hts.mem_iff]
    simp only [List.mem_append, List.mem_cons]
    tauto
  -- who waits afterwards has waited before, or had the turn and is not done
  have hafter : ∀ u ∈ (m.switchTo t' ts).queue,
      u ∈ ts ∨ u = m.fiber ∧ m.fiber.isDone = false := by
    intro u hu
    unfold switchTo at hu
    dsimp only at hu
    split at hu
    · exact .inl hu
    · rename_i hlive
      exact (List.mem_append.mp hu).imp id fun h =>
        ⟨List.mem_singleton.mp h, Bool.eq_false_iff.mpr hlive⟩
  have hts' : ∀ u ∈ ts, u ∈ (m.switchTo t' ts).queue := by
    intro u hu
    unfold switchTo
    dsimp only
    split
    · exact hu
    · exact List.mem_append_left _ hu
  have hlater : ∀ u ∈ ts, u ∈ m.fibers := fun u hu =>
    List.mem_cons_of_mem _ ((hmem u).mpr (.inr hu))
  have hs : (m.switchTo t' ts).Sound := by
    refine (hc.sound.withFiber hsound).withQueue fun u hu => ?_
    rcases hafter u hu with hu | ⟨rfl, -⟩
    · exact hc.sound.queue u ((hmem u).mpr (.inr hu))
    · exact hc.sound.fiber
  refine hc.revise hs (Heap.Still.refl _).calm rfl rfl (fun u hu => ?_) ?_ (fun u hu => ?_)
    fun u hu hopen => ?_
  · rcases hafter u hu with hu | ⟨rfl, hlive⟩
    · exact hc.waiting u ((hmem u).mpr (.inr hu))
    · exact hv.alive_of_live hlive
  · -- the ids are those of before, in another order
    have hold : ((m.fiber :: t :: ts).map Fiber.id).Nodup := by
      refine (List.Perm.nodup_iff ?_).mp hc.tasks.ids
      refine (List.Perm.cons m.fiber ?_).map Fiber.id
      rw [hqueue]
      exact List.perm_middle.trans (hts.symm.cons t)
    have hnew : ((t' :: (ts ++ [m.fiber])).map Fiber.id).Nodup := by
      rw [List.map_cons, hbecomes.id, ← List.map_cons]
      refine (List.Perm.nodup_iff ?_).mp hold
      refine List.Perm.map Fiber.id ((List.Perm.swap t m.fiber ts).trans ?_)
      exact (List.perm_append_singleton m.fiber ts).symm.cons t
    refine (List.Sublist.map Fiber.id ?_).nodup hnew
    refine List.Sublist.cons_cons t' ?_
    show List.Sublist (if m.fiber.isDone then ts else ts ++ [m.fiber]) _
    split
    · exact List.sublist_append_left ..
    · exact .refl _
  · rcases mem_fibers.mp hu with rfl | hu
    · exact ⟨t, List.mem_cons_of_mem _ ((hmem t).mpr (.inl rfl)), hbecomes⟩
    · rcases hafter u hu with hu | ⟨rfl, -⟩
      · exact ⟨u, hlater u hu, hc.becomes_self (hlater u hu)⟩
      · exact ⟨m.fiber, List.mem_cons_self, hc.becomes_self List.mem_cons_self⟩
  · rcases mem_fibers.mp hu with rfl | hu
    · -- a fiber with an open cell is not done, so it waits now
      have hlive : m.fiber.isDone = false := by
        rcases hv.running with hspent | halive
        · exact (hopen hspent.openUpvalues).elim
        · exact halive.not_done
      refine ⟨m.fiber, List.mem_cons_of_mem _ ?_, hc.becomes_self List.mem_cons_self⟩
      show m.fiber ∈ if m.fiber.isDone then ts else ts ++ [m.fiber]
      rw [if_neg (by rw [hlive]; nofun)]
      simp
    · rcases (hmem u).mp hu with rfl | hu
      · exact ⟨t', List.mem_cons_self, hbecomes⟩
      · exact ⟨u, List.mem_cons_of_mem _ (hts' u hu), hc.becomes_self (hlater u hu)⟩

/-- A machine whose running fiber can be found able to run. -/
theorem Valid.wakes (hv : m.Valid) (hlive : m.fiber.isDone = false)
    (hw : m.fiber.Wakes start t' stop) :
    { m with clock, fiber := t' }.Valid ∧ Moves wrote m { m with clock, fiber := t' } := by
  have hc := hv.toConsistent
  have halive := hv.alive_of_live hlive
  have hself : m.fiber.Becomes wrote m.fiber := hc.becomes_self List.mem_cons_self
  have hsound := (hc.withClock clock).sound.withFiber (hc.sound.fiber.wakes hw)
  obtain ⟨hc', hmoves⟩ : _ ∧ Moves wrote _ _ := hc.calm { m with clock, fiber := t' } hsound
    (Heap.Still.refl _).calm rfl rfl rfl (hself.of_wakes halive hw)
  exact ⟨⟨hc', .inr (hw.alive halive)⟩, hmoves⟩

end Machine

/-- **`Poised.failing`** — a fiber that was parked by an await has failed there when it hears of a
deadlock. -/
theorem Fiber.Poised.failing {a : Activation} {rest : List Activation} {q : Placed}
    (hp : t.Poised h a rest q) (hop : q.instr.op.mayRaise = true) :
    ({ t with state := .ready } : Fiber).Failing h a rest q where
  frames := hp.frames
  handlers := hp.handlers
  sound := hp.sound
  mem := hp.mem
  situation := hp.situation
  raises := hop
  floor := by
    show _ ≤ t.stack.size
    rw [hp.size]
    omega
  shared := hp.shared
  waiting := hp.waiting
  ready := rfl

/-- A task that is parked stands at an await, so that an error can be raised in it. -/
theorem Fiber.Alive.failing {task : Nat} (ht : t.Alive h) (hstate : t.state = .parked task) :
    ∃ a rest q, ({ t with state := .ready } : Fiber).Failing h a rest q := by
  obtain ⟨a, rest, q, hp⟩ := ht
  exact ⟨a, rest, q, hp.failing (by rw [hp.parked task hstate]; rfl)⟩

namespace Schedules

/-- **`valid`** — a machine stays valid when a fiber gets its turn. -/
theorem valid (hs : Schedules m turn m') (hv : m.Valid) (hturn : turn ≠ .deadlock) :
    m'.Valid ∧ Moves wrote m m' := by
  induction hs with
  | @other m passed after t t' start mid stop hstart hsplit hskips hwakes =>
    have hmem : t ∈ m.queue := by rw [hsplit]; simp
    have halive := hv.waiting t hmem
    have hself : t.Becomes wrote t :=
      hv.toConsistent.becomes_self (List.mem_cons_of_mem _ hmem)
    have hv' : { m with clock := stop }.Valid := ⟨hv.toConsistent.withClock stop, hv.running⟩
    obtain ⟨hc, hmoves⟩ : _ ∧ Moves wrote _ _ := hv'.switching t' hsplit
      ((hv.sound.queue t hmem).wakes hwakes) (hself.of_wakes halive hwakes) List.perm_append_comm
    exact ⟨⟨hc, .inr (hwakes.alive halive)⟩, hmoves.lastTask, hmoves.abides, hmoves.tasks,
      hmoves.carried⟩
  | same hstart hskips hlive hwakes => exact hv.wakes hlive hwakes
  | later _ _ _ _ _ _ ih =>
    obtain ⟨hvalid, hmoves⟩ : _ ∧ Moves wrote _ _ :=
      ih ⟨hv.toConsistent.withClock _, hv.running⟩ hturn
    exact ⟨hvalid, hmoves.lastTask, hmoves.abides, hmoves.tasks,
      hmoves.carried⟩
  | finished =>
    exact ⟨⟨hv.toConsistent.withClock _, hv.running⟩, Nat.le_refl _, .refl _, .of_calm fun _ _ hr => hr,
      .refl hv.cells⟩
  | deadlock => exact (hturn rfl).elim

/-- **`faulting`** — a deadlock is an error of the fiber that gets to know of it. -/
theorem faulting (hs : Schedules m .deadlock m') (hv : m.Valid) :
    m'.Faulting ∧ Moves wrote m m' := by
  generalize hturn : Turn.deadlock = turn at hs
  induction hs with
  | other => cases hturn
  | same => cases hturn
  | later _ _ _ _ _ _ ih =>
    obtain ⟨hfaulting, hmoves⟩ : _ ∧ Moves wrote _ _ :=
      ih ⟨hv.toConsistent.withClock _, hv.running⟩ hturn
    exact ⟨hfaulting, hmoves.lastTask, hmoves.abides, hmoves.tasks,
      hmoves.carried⟩
  | finished => cases hturn
  | @deadlock m start stop hstart hskips hdeadline hsome =>
    have hparked := ((Schedules.deadlock hstart hskips hdeadline hsome).turn_spec.2.2 rfl).2
    have hv' : { m with clock := stop }.Valid := ⟨hv.toConsistent.withClock stop, hv.running⟩
    have hc' := hv'.toConsistent
    rcases Machine.deadlocked_cases (m := { m with clock := stop }) hsome with
      ⟨hlive, -, heq⟩ | ⟨before, next, after, hsplit, -, -, heq⟩
    · have hmem : m.fiber ∈ m.alive := by
        have hdone : ¬ m.fiber.isDone = true := by rw [show m.fiber.isDone = false from hlive]; decide
        rw [Machine.alive, if_neg hdone]
        exact List.mem_cons_self
      -- the fiber that runs is parked itself, and hears of the deadlock
      obtain ⟨task, hstate⟩ := hparked _ hmem
      have hfiber := hv.sound.fiber
      have hself : m.fiber.Becomes wrote m.fiber := hc'.becomes_self List.mem_cons_self
      obtain ⟨hc, hmoves⟩ : _ ∧ Moves wrote _ _ := hc'.calm
        { m with clock := stop, fiber := { m.fiber with state := .ready } }
        (hc'.sound.withFiber ⟨hfiber.handle, hfiber.stack, hfiber.frames, hfiber.openUpvalues⟩)
        (Heap.Still.refl _).calm rfl rfl rfl
        ⟨⟨hself.id, hself.openUpvalues, hself.stack⟩, hself.handle, hself.done⟩
      rw [heq]
      exact ⟨⟨hc, (hv.alive_of_live hlive).failing hstate⟩, hmoves.lastTask, hmoves.abides,
        hmoves.tasks, hmoves.carried⟩
    · -- another fiber hears of it: it gets its turn first
      have hnext : next ∈ m.queue := by rw [show m.queue = _ from hsplit]; simp
      have hmem : next ∈ m.alive := by
        unfold Machine.alive
        split
        · exact hnext
        · exact List.mem_cons_of_mem _ hnext
      obtain ⟨task, hstate⟩ := hparked _ hmem
      have hfiber := hv.sound.queue next hnext
      have hself : next.Becomes wrote next := hc'.becomes_self (List.mem_cons_of_mem _ hnext)
      obtain ⟨hc, hmoves⟩ : _ ∧ Moves wrote _ _ := hv'.switching
        { next with state := .ready } hsplit
        ⟨hfiber.handle, hfiber.stack, hfiber.frames, hfiber.openUpvalues⟩
        ⟨⟨hself.id, hself.openUpvalues, hself.stack⟩, hself.handle, hself.done⟩ (.refl _)
      rw [heq]
      exact ⟨⟨hc, (hv.waiting next hnext).failing hstate⟩, hmoves.lastTask, hmoves.abides,
        hmoves.tasks, hmoves.carried⟩

end Schedules

/-! ## Collections -/

/-- **`Valid.collectGarbage`** — a machine stays valid when garbage is collected. -/
theorem Machine.Valid.collectGarbage (hv : m.Valid) :
    m.collectGarbage.2.Valid ∧ Moves wrote m m.collectGarbage.2 := by
  have hc := hv.toConsistent
  have hsound := hc.sound.collectGarbage
  have hcalm : m.heap.Calm m.collectGarbage.2.heap := hc.heap_sound.calm_collect m.roots
  obtain ⟨hc', hmoves⟩ : _ ∧ Moves wrote _ _ := hc.calm _ hsound hcalm rfl rfl rfl
    (hc.becomes_self List.mem_cons_self)
  refine ⟨⟨hc', hv.running.imp (fun hspent => hspent) fun halive => ?_⟩, hmoves⟩
  exact halive.persists hcalm.persists hsound.heap.sound hsound.fiber

end ScriptMachine
