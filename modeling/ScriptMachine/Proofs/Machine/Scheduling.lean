import Mathlib
import ScriptMachine.Machine.Schedule

/-!
# ScriptMachine.Proofs.Machine.Scheduling — who runs next

The scheduler reads the clock whenever it looks at a fiber that sleeps. `Schedules` says what it can
find when all that is known of these readings is that time does not run backwards; `Machine.schedule`,
which spends a fixed time on every search, is one case of it.

Whatever the clock says, no fiber is lost and none is doubled; a fiber that gets its turn can run, the
end of a run means that no fiber is left, and a deadlock that all fibers that are left wait for tasks.

`Schedules.conserves` says that no fiber is lost or doubled, `Schedules.run` that the one which gets its
turn can run, `finished_iff` and `deadlock_iff` when there is none, and `told` who gets to know of a
deadlock. `schedules_schedule` says that the scheduler of the machine is one that `Schedules` describes,
so the statements hold of it. How long a fiber has to wait for its turn, and that it gets one at all, is
not claimed: a fiber that is ready waits behind those that are in front of it in the queue.
-/

namespace ScriptMachine

/-- **`t.Wakes start t' stop`** — a look at `t` between two times finds that it can run, as `t'`. -/
inductive Fiber.Wakes (t : Fiber) (start : Nat) : Fiber → Nat → Prop
  | ready (hstate : t.state = .ready) : t.Wakes start t start
  | due {since deadline now stop : Nat} (hstate : t.state = .sleeping since deadline)
      (hstart : start ≤ now) (hdue : deadline ≤ now) (hstop : now ≤ stop) :
      t.Wakes start (t.awaken stop since) stop

/-- **`t.Waits start stop`** — a look at `t` between two times finds that it cannot run. -/
inductive Fiber.Waits (t : Fiber) (start : Nat) : Nat → Prop
  | parked {task : Nat} (hstate : t.state = .parked task) : t.Waits start start
  | asleep {since deadline now : Nat} (hstate : t.state = .sleeping since deadline)
      (hstart : start ≤ now) (hdue : now < deadline) : t.Waits start now

/-- **`Skips start ts stop`** — one look at each of the fibers finds none that can run. -/
inductive Skips : Nat → List Fiber → Nat → Prop
  | nil {start : Nat} : Skips start [] start
  | cons {t : Fiber} {rest : List Fiber} {start mid stop : Nat} (hwaits : t.Waits start mid)
      (hskips : Skips mid rest stop) : Skips start (t :: rest) stop

/-- The fibers with something left to run, in the order in which the scheduler looks at them. -/
def Machine.turns (m : Machine) : List Fiber :=
  m.queue ++ if m.fiber.isDone then [] else [m.fiber]

/-- **`Schedules m turn m'`** — what the scheduler can find, if the clock goes forward. -/
inductive Schedules : Machine → Turn → Machine → Prop
  | other {m : Machine} {passed after : List Fiber} {t t' : Fiber} {start mid stop : Nat}
      (hstart : m.clock ≤ start) (hqueue : m.queue = passed ++ t :: after)
      (hskips : Skips start passed mid) (hwakes : t.Wakes mid t' stop) :
      Schedules m .run ({ m with clock := stop }.switchTo t' (after ++ passed))
  | same {m : Machine} {t' : Fiber} {start mid stop : Nat} (hstart : m.clock ≤ start)
      (hskips : Skips start m.queue mid) (hlive : m.fiber.isDone = false)
      (hwakes : m.fiber.Wakes mid t' stop) : Schedules m .run { m with clock := stop, fiber := t' }
  | later {m m' : Machine} {turn : Turn} {start stop deadline now : Nat} (hstart : m.clock ≤ start)
      (hskips : Skips start m.turns stop) (hdeadline : earliest? m.turns = some deadline)
      (hnow : stop ≤ now) (hdue : deadline ≤ now) (hagain : Schedules { m with clock := now } turn m') :
      Schedules m turn m'
  | finished {m : Machine} {start stop : Nat} (hstart : m.clock ≤ start)
      (hskips : Skips start m.turns stop) (hdeadline : earliest? m.turns = none)
      (hqueue : m.queue = []) (hdone : m.fiber.isDone = true) :
      Schedules m .finished { m with clock := stop }
  | deadlock {m : Machine} {start stop : Nat} (hstart : m.clock ≤ start)
      (hskips : Skips start m.turns stop) (hdeadline : earliest? m.turns = none)
      (hsome : ¬ (m.queue = [] ∧ m.fiber.isDone = true)) :
      Schedules m .deadlock { m with clock := stop }.deadlocked

variable {m m' : Machine} {t t' : Fiber} {ts passed after : List Fiber} {start stop clock : Nat}
  {turn : Turn}

/-! ## The clock that ticks -/

namespace Fiber

/-- A fiber that can run now wakes now. -/
theorem wakes_of_runnable? (ht : t.runnable? clock = some t') : t.Wakes clock t' clock := by
  unfold runnable? at ht
  split at ht
  · obtain rfl := Option.some.inj ht
    exact .ready ‹_›
  · split at ht
    · obtain rfl := Option.some.inj ht
      exact .due ‹_› (Nat.le_refl _) ‹_› (Nat.le_refl _)
    · cases ht
  · cases ht

/-- A fiber that cannot run waits. -/
theorem waits_of_runnable? (ht : t.runnable? clock = none) : t.Waits clock clock := by
  unfold runnable? at ht
  split at ht
  · cases ht
  · split at ht
    · cases ht
    · exact .asleep ‹_› (Nat.le_refl _) (Nat.lt_of_not_le ‹_›)
  · exact .parked ‹_›

end Fiber

/-- When no fiber is picked, all of them wait. -/
theorem skips_of_pickRunnable (hpick : pickRunnable clock ts = none) : Skips clock ts clock := by
  induction ts with
  | nil => exact .nil
  | cons t rest ih =>
    unfold pickRunnable at hpick
    split at hpick
    · cases hpick
    · exact .cons (Fiber.waits_of_runnable? ‹_›) (ih (Option.map_eq_none_iff.mp hpick))

/-- The fiber that is picked is the first that can run: those before it wait. -/
theorem split_of_pickRunnable (hpick : pickRunnable clock ts = some (passed, t', after)) :
    ∃ t, ts = passed ++ t :: after ∧ Skips clock passed clock ∧ t.Wakes clock t' clock := by
  induction ts generalizing passed with
  | nil => cases hpick
  | cons t rest ih =>
    unfold pickRunnable at hpick
    split at hpick
    · obtain ⟨rfl, rfl, rfl⟩ : [] = passed ∧ _ = t' ∧ rest = after := by simpa using hpick
      exact ⟨t, rfl, .nil, Fiber.wakes_of_runnable? ‹_›⟩
    · obtain ⟨⟨passed', t₁, after'⟩, hrest, heq⟩ := Option.map_eq_some_iff.mp hpick
      obtain ⟨rfl, rfl, rfl⟩ : t :: passed' = passed ∧ t₁ = t' ∧ after' = after := by simpa using heq
      obtain ⟨u, hsplit, hskips, hwakes⟩ := ih hrest
      exact ⟨u, congrArg (t :: ·) hsplit, .cons (Fiber.waits_of_runnable? ‹_›) hskips, hwakes⟩

theorem Skips.append {mid : Nat} {ts' : List Fiber} (hs : Skips start ts mid)
    (hs' : Skips mid ts' stop) : Skips start (ts ++ ts') stop := by
  induction hs with
  | nil => exact hs'
  | cons hwaits _ ih => exact .cons hwaits (ih hs')

namespace Machine

/-- A machine that finds a fiber at once gives it the turn. -/
theorem schedules_turn? (hturn : m.turn? = some m') (hclock : clock ≤ m.clock) :
    Schedules { m with clock } .run m' := by
  unfold turn? at hturn
  split at hturn
  · rename_i passed next after hpick
    obtain rfl := Option.some.inj hturn
    obtain ⟨t, hsplit, hskips, hwakes⟩ := split_of_pickRunnable hpick
    exact .other (m := { m with clock }) hclock hsplit hskips hwakes
  · rename_i hpick
    split at hturn
    · cases hturn
    · rename_i hdone
      obtain ⟨t, ht, rfl⟩ := Option.map_eq_some_iff.mp hturn
      exact .same (m := { m with clock }) hclock (skips_of_pickRunnable hpick)
        (Bool.eq_false_iff.mpr hdone) (Fiber.wakes_of_runnable? ht)

/-- When nobody gets a turn, everybody waits, in the order of the turns. -/
theorem skips_of_turn? (hturn : m.turn? = none) : Skips m.clock m.turns m.clock := by
  unfold turn? at hturn
  split at hturn
  · cases hturn
  · rename_i hpick
    unfold turns
    split at hturn
    · rw [if_pos ‹_›, List.append_nil]
      exact skips_of_pickRunnable hpick
    · rw [if_neg ‹_›]
      exact (skips_of_pickRunnable hpick).append
        (.cons (Fiber.waits_of_runnable? (Option.map_eq_none_iff.mp hturn)) .nil)

theorem mem_turns : t ∈ m.turns ↔ t ∈ m.alive := by
  unfold turns alive
  split
  · rw [List.append_nil]
  · simp [or_comm]

end Machine

/-- The earliest deadline is one of them, and none is earlier. -/
theorem earliest?_eq_some {deadline : Nat} : earliest? ts = some deadline ↔
    (∃ t ∈ ts, t.deadline? = some deadline) ∧
      ∀ t ∈ ts, ∀ d, t.deadline? = some d → deadline ≤ d := by
  unfold earliest?
  rw [List.min?_eq_some_iff, List.mem_filterMap]
  refine and_congr_right fun _ => ⟨fun h t ht d hd => ?_, fun h d hd => ?_⟩
  · exact h d (List.mem_filterMap.mpr ⟨t, ht, hd⟩)
  · obtain ⟨t, ht, hd⟩ := List.mem_filterMap.mp hd
    exact h t ht d hd

theorem earliest?_eq_none : earliest? ts = none ↔ ∀ t ∈ ts, t.deadline? = none := by
  unfold earliest?
  rw [List.min?_eq_none_iff, List.filterMap_eq_nil_iff]

/-- Deadlines do not depend on the order of the fibers. -/
theorem earliest?_congr {ts' : List Fiber} (hmem : ∀ t, t ∈ ts ↔ t ∈ ts') :
    earliest? ts = earliest? ts' := by
  refine Option.ext fun deadline => ?_
  rw [earliest?_eq_some, earliest?_eq_some]
  simp only [hmem]

/-- A sleeper that is due can run. -/
theorem Fiber.runnable?_of_due {deadline : Nat} (ht : t.deadline? = some deadline)
    (hdue : deadline ≤ clock) : ∃ t', t.runnable? clock = some t' := by
  unfold deadline? at ht
  split at ht
  · rename_i since d hstate
    obtain rfl := Option.some.inj ht
    refine ⟨t.awaken clock since, ?_⟩
    unfold runnable?
    rw [hstate]
    exact if_pos hdue
  · cases ht

/-- If some fiber can run, one is picked. -/
theorem pickRunnable_of_mem (ht : t ∈ ts) (hrun : t.runnable? clock = some t') :
    pickRunnable clock ts ≠ none := by
  induction ts with
  | nil => cases ht
  | cons u rest ih =>
    unfold pickRunnable
    split
    · nofun
    · rename_i hnone
      rcases List.mem_cons.mp ht with rfl | ht
      · rw [hrun] at hnone
        cases hnone
      · exact fun h => ih ht (Option.map_eq_none_iff.mp h)

namespace Machine

/-- A machine finds a fiber when one is due. -/
theorem turn?_of_due {deadline : Nat} (ht : t ∈ m.turns) (hd : t.deadline? = some deadline)
    (hdue : deadline ≤ m.clock) : ∃ m', m.turn? = some m' := by
  obtain ⟨t', hrun⟩ := Fiber.runnable?_of_due hd hdue
  cases hturn : m.turn? with
  | some m' => exact ⟨m', rfl⟩
  | none =>
    unfold turn? at hturn
    split at hturn
    · cases hturn
    · rename_i hpick
      rcases List.mem_append.mp ht with ht | ht
      · exact (pickRunnable_of_mem ht hrun hpick).elim
      · split at ht
        · cases ht
        · rw [if_neg ‹_›, ← List.mem_singleton.mp ht, hrun] at hturn
          cases hturn

/-- **`schedules_schedule`** — the scheduler that looks once, and again when the first sleeper is due, is
one of those that read the clock as they like. -/
theorem schedules_schedule (m : Machine) : Schedules m m.schedule.1 m.schedule.2 := by
  have hclock : m.clock ≤ (m.elapse stepTime).clock := Nat.le_add_right ..
  unfold schedule
  dsimp only
  split
  · rename_i m' hturn
    have hnow : Schedules m .run m' := schedules_turn? (m := m.elapse stepTime) hturn hclock
    exact hnow
  · rename_i hturn
    have hskips := skips_of_turn? hturn
    have hsame : earliest? (m.elapse stepTime).alive = earliest? m.turns :=
      earliest?_congr fun t => mem_turns.symm
    split
    · rename_i deadline hdeadline
      rw [hsame] at hdeadline
      obtain ⟨⟨t, ht, hd⟩, -⟩ := earliest?_eq_some.mp hdeadline
      -- time passes until the first sleeper is due
      have hdue : deadline ≤
          ((m.elapse stepTime).elapse (deadline - (m.elapse stepTime).clock + wakeDelay)).clock := by
        show deadline ≤ (m.elapse stepTime).clock +
          (deadline - (m.elapse stepTime).clock + wakeDelay)
        omega
      obtain ⟨m', hfound⟩ : ∃ m', ((m.elapse stepTime).elapse
          (deadline - (m.elapse stepTime).clock + wakeDelay)).turn? = some m' :=
        turn?_of_due ht hd hdue
      rw [hfound]
      have hagain := schedules_turn? hfound (Nat.le_refl _)
      exact .later hclock hskips hdeadline (Nat.le_add_right ..) hdue hagain
    · rename_i hdeadline
      rw [hsame] at hdeadline
      split
      · rename_i hnone
        rw [List.isEmpty_iff] at hnone
        have hempty : m.queue = [] ∧ m.fiber.isDone = true := by
          change m.alive = [] at hnone
          unfold alive at hnone
          split at hnone
          · exact ⟨hnone, ‹_›⟩
          · cases hnone
        exact .finished hclock hskips hdeadline hempty.1 hempty.2
      · rename_i hsome
        refine .deadlock hclock hskips hdeadline fun ⟨hqueue, hdone⟩ => hsome ?_
        show m.alive.isEmpty = true
        unfold alive
        rw [if_pos hdone, hqueue]
        rfl

end Machine

/-! ## What the scheduler keeps -/

/-- **`t.Turned t'`** — `t'` is `t` after the scheduler has looked at it: its state may be another, and
the value on top if it has slept. -/
structure Fiber.Turned (t t' : Fiber) : Prop where
  same : t' = { t with state := t'.state, stack := t'.stack }
  stack : t'.stack = t.stack ∨ ∃ since deadline n, t.state = .sleeping since deadline ∧
    t'.state = .ready ∧ t'.stack = t.stack.setIfInBounds (t.stack.size - 1) (.number n)

/-- **`Conserves m m'`** — the fibers with something left to run are the same, except for what the
scheduler does to them, and so is the rest of the machine but for the time. -/
structure Conserves (m m' : Machine) : Prop where
  machine : m' = { m with clock := m'.clock, fiber := m'.fiber, queue := m'.queue }
  alive : ∃ ts, ts.Perm m'.alive ∧ List.Forall₂ Fiber.Turned m.alive ts
  clock : m.clock ≤ m'.clock

namespace Fiber

theorem Turned.refl (t : Fiber) : t.Turned t :=
  ⟨rfl, .inl rfl⟩

theorem Turned.rouse (t : Fiber) : t.Turned { t with state := .ready } :=
  ⟨rfl, .inl rfl⟩

theorem Turned.isDone (ht : t.Turned t') : t'.isDone = t.isDone := by
  rw [ht.same, Fiber.isDone, Fiber.isDone]

theorem Turned.id (ht : t.Turned t') : t'.id = t.id := by
  rw [ht.same]

/-- A fiber that wakes is ready, and it is the same task. -/
theorem Wakes.turned (ht : t.Wakes start t' stop) :
    t.Turned t' ∧ t'.state = .ready ∧ start ≤ stop := by
  cases ht with
  | ready hstate => exact ⟨.refl t, hstate, Nat.le_refl _⟩
  | due hstate hstart hdue hstop =>
    exact ⟨⟨rfl, .inr ⟨_, _, _, hstate, rfl, rfl⟩⟩, rfl, Nat.le_trans hstart hstop⟩

/-- Time does not run backwards. -/
theorem Waits.le (ht : t.Waits start stop) : start ≤ stop := by
  cases ht with
  | parked => exact Nat.le_refl _
  | asleep _ hstart _ => exact hstart

/-- A fiber that cannot run sleeps or waits for a task. -/
theorem Waits.parked_of_deadline? (ht : t.Waits start stop) (hd : t.deadline? = none) :
    ∃ task, t.state = .parked task := by
  cases ht with
  | parked hstate => exact ⟨_, hstate⟩
  | asleep hstate _ _ =>
    unfold deadline? at hd
    rw [hstate] at hd
    cases hd

end Fiber

theorem Skips.le (hs : Skips start ts stop) : start ≤ stop := by
  induction hs with
  | nil => exact Nat.le_refl _
  | cons hwaits _ ih => exact Nat.le_trans hwaits.le ih

/-- Whoever is skipped waits for a while. -/
theorem Skips.waits (hs : Skips start ts stop) (ht : t ∈ ts) :
    ∃ start stop, t.Waits start stop := by
  induction hs with
  | nil => cases ht
  | cons hwaits _ ih =>
    rcases List.mem_cons.mp ht with rfl | ht
    · exact ⟨_, _, hwaits⟩
    · exact ih ht

namespace Machine

theorem turned_refl (ts : List Fiber) : List.Forall₂ Fiber.Turned ts ts := by
  induction ts with
  | nil => exact .nil
  | cons t ts ih => exact .cons (.refl t) ih

/-- **`switchTo_conserves`** — the fiber that ran before goes to the end of the queue, unless it is
done. -/
theorem switchTo_conserves (hqueue : m.queue = passed ++ t :: after) (ht : t.Turned t')
    (hlive : t.isDone = false) (hclock : m.clock ≤ clock) {ts : List Fiber}
    (hts : ts.Perm (passed ++ after)) :
    Conserves m ({ m with clock }.switchTo t' ts) := by
  have hdone : t'.isDone = false := ht.isDone.trans hlive
  have hmid : (t' :: ts).Perm (passed ++ t' :: after) :=
    (List.Perm.cons t' hts).trans List.perm_middle.symm
  have hturned : List.Forall₂ Fiber.Turned m.queue (passed ++ t' :: after) := by
    rw [hqueue]
    exact List.rel_append (turned_refl passed) (.cons ht (turned_refl after))
  refine ⟨rfl, ?_, hclock⟩
  unfold switchTo alive
  dsimp only
  rw [if_neg (by rw [hdone]; nofun)]
  cases hfiber : m.fiber.isDone with
  | true => exact ⟨passed ++ t' :: after, hmid.symm, hturned⟩
  | false =>
    refine ⟨m.fiber :: (passed ++ t' :: after), ?_, .cons (.refl _) hturned⟩
    have hlast : (m.fiber :: (t' :: ts)).Perm (t' :: (ts ++ [m.fiber])) :=
      (List.perm_append_singleton m.fiber (t' :: ts)).symm
    exact (List.Perm.cons _ hmid.symm).trans hlast

/-- **`deadlocked_cases`** — who gets to know of a deadlock. -/
theorem deadlocked_cases (hsome : ¬ (m.queue = [] ∧ m.fiber.isDone = true)) :
    (m.fiber.isDone = false ∧ (m.fiber.id = mainTask ∨ m.queue = []) ∧
      m.deadlocked = { m with fiber := { m.fiber with state := .ready } }) ∨
    ∃ before next after, m.queue = before ++ next :: after ∧
      ¬ (m.fiber.id = mainTask ∧ m.fiber.isDone = false) ∧
      (next.id = mainTask ∨ ∀ t ∈ m.queue, t.id ≠ mainTask) ∧
      m.deadlocked = m.switchTo { next with state := .ready } (before ++ after) := by
  unfold deadlocked
  dsimp only
  by_cases hmain : m.fiber.id = mainTask ∧ m.fiber.isDone = false
  · rw [if_pos (by rw [hmain.1, hmain.2]; rfl)]
    exact .inl ⟨hmain.2, .inl hmain.1, rfl⟩
  · have hcond : ¬ (decide (m.fiber.id = mainTask) && !m.fiber.isDone) = true := by
      rw [Bool.and_eq_true, decide_eq_true_eq, Bool.not_eq_true']
      exact hmain
    rw [if_neg hcond]
    generalize hindex : (m.queue.findIdx? fun t => t.id = mainTask).getD 0 = index
    cases hnext : m.queue[index]? with
    | none =>
      -- the index is that of a fiber unless there is none
      have hnil : m.queue = [] := by
        cases hfind : m.queue.findIdx? fun t => t.id = mainTask with
        | none =>
          rw [hfind] at hindex
          obtain rfl : 0 = index := hindex
          exact List.length_eq_zero_iff.mp (Nat.le_zero.mp (List.getElem?_eq_none_iff.mp hnext))
        | some i =>
          rw [hfind] at hindex
          obtain rfl : i = index := hindex
          obtain ⟨hlt, -⟩ := List.findIdx?_eq_some_iff_getElem.mp hfind
          rw [List.getElem?_eq_getElem hlt] at hnext
          cases hnext
      have hlive : m.fiber.isDone = false := by
        cases hdone : m.fiber.isDone with
        | false => rfl
        | true => exact (hsome ⟨hnil, hdone⟩).elim
      exact .inl ⟨hlive, .inr hnil, rfl⟩
    | some next =>
      obtain ⟨hlt, hget⟩ := List.getElem?_eq_some_iff.mp hnext
      refine .inr ⟨m.queue.take index, next, m.queue.drop (index + 1), ?_, hmain, ?_, ?_⟩
      · rw [← hget, List.cons_getElem_drop_succ, List.take_append_drop]
      · cases hfind : m.queue.findIdx? fun t => t.id = mainTask with
        | none =>
          refine .inr fun t ht heq => ?_
          have hno := List.findIdx?_eq_none_iff.mp hfind t ht
          simp [heq] at hno
        | some i =>
          rw [hfind] at hindex
          obtain rfl : i = index := hindex
          obtain ⟨hlt', hid, -⟩ := List.findIdx?_eq_some_iff_getElem.mp hfind
          rw [← hget]
          exact .inl (of_decide_eq_true hid)
      · rw [List.eraseIdx_eq_take_drop_succ]
        rfl

end Machine

namespace Schedules

/-- **`conserves`** — no fiber is lost, and none is doubled. -/
theorem conserves (hs : Schedules m turn m') (hqueue : ∀ t ∈ m.queue, t.isDone = false) :
    Conserves m m' := by
  induction hs with
  | other hstart hsplit hskips hwakes =>
    obtain ⟨hturned, -, hle⟩ := hwakes.turned
    refine Machine.switchTo_conserves hsplit hturned (hqueue _ (by rw [hsplit]; simp))
      ((hstart.trans hskips.le).trans hle) List.perm_append_comm
  | @same m t' start mid stop hstart hskips hlive hwakes =>
    obtain ⟨hturned, -, hle⟩ := hwakes.turned
    refine ⟨rfl, ⟨t' :: m.queue, ?_, ?_⟩, (hstart.trans hskips.le).trans hle⟩
    · rw [Machine.alive, if_neg]
      show ¬ t'.isDone = true
      rw [hturned.isDone, hlive]
      nofun
    · rw [Machine.alive, if_neg (by rw [hlive]; nofun)]
      exact .cons hturned (Machine.turned_refl _)
  | later hstart hskips hdeadline hnow hdue hagain ih =>
    obtain ⟨hmachine, halive, hclock⟩ := ih hqueue
    exact ⟨hmachine, halive, ((hstart.trans hskips.le).trans hnow).trans hclock⟩
  | finished hstart hskips hdeadline hnil hdone =>
    exact ⟨rfl, ⟨_, .refl _, Machine.turned_refl _⟩, hstart.trans hskips.le⟩
  | @deadlock m start stop hstart hskips hdeadline hsome =>
    -- the fiber that hears of the deadlock only becomes ready, and may take its turn with it
    have hclock := hstart.trans hskips.le
    rcases Machine.deadlocked_cases (m := { m with clock := stop }) hsome with
      ⟨hlive, -, heq⟩ | ⟨before, next, after, hsplit, -, -, heq⟩
    · rw [heq]
      change m.fiber.isDone = false at hlive
      refine ⟨rfl, ⟨{ m.fiber with state := .ready } :: m.queue, ?_, ?_⟩, hclock⟩
      · rw [Machine.alive, if_neg]
        show ¬ m.fiber.isDone = true
        rw [hlive]
        nofun
      · rw [Machine.alive, if_neg (by rw [hlive]; nofun)]
        exact .cons (.rouse _) (Machine.turned_refl _)
    · rw [heq]
      exact Machine.switchTo_conserves (m := m) hsplit (.rouse next) (hqueue _ (by
        rw [show m.queue = _ from hsplit]
        simp)) hclock (.refl _)

/-- **`run`** — the fiber that gets its turn can run. -/
theorem run (hs : Schedules m .run m') (hqueue : ∀ t ∈ m.queue, t.isDone = false) :
    m'.fiber.isDone = false ∧ m'.fiber.state = .ready := by
  generalize hturn : Turn.run = turn at hs
  induction hs with
  | other hstart hsplit hskips hwakes =>
    obtain ⟨hturned, hready, -⟩ := hwakes.turned
    exact ⟨hturned.isDone.trans (hqueue _ (by rw [hsplit]; simp)), hready⟩
  | same hstart hskips hlive hwakes =>
    obtain ⟨hturned, hready, -⟩ := hwakes.turned
    exact ⟨hturned.isDone.trans hlive, hready⟩
  | later _ _ _ _ _ _ ih => exact ih hqueue hturn
  | finished => cases hturn
  | deadlock => cases hturn

/-- The turns the scheduler gives say what is left to run. -/
theorem turn_spec (hs : Schedules m turn m') :
    (turn = .run → m.alive ≠ [] ∧ ∃ t ∈ m.alive, ∀ task, t.state ≠ .parked task) ∧
    (turn = .finished → m.alive = []) ∧
    (turn = .deadlock → m.alive ≠ [] ∧ ∀ t ∈ m.alive, ∃ task, t.state = .parked task) := by
  have hparked : ∀ {m : Machine} {start stop : Nat}, Skips start m.turns stop →
      earliest? m.turns = none → ∀ t ∈ m.alive, ∃ task, t.state = .parked task := by
    intro m start stop hskips hdeadline t ht
    obtain ⟨start, stop, hwaits⟩ := hskips.waits (Machine.mem_turns.mpr ht)
    exact hwaits.parked_of_deadline? (earliest?_eq_none.mp hdeadline t (Machine.mem_turns.mpr ht))
  have hwoken : ∀ {t t' : Fiber} {start stop : Nat}, t.Wakes start t' stop →
      ∀ task, t.state ≠ .parked task := by
    intro t t' start stop hwakes task hstate
    cases hwakes with
    | ready h => cases h.symm.trans hstate
    | due h => cases h.symm.trans hstate
  induction hs with
  | @other m passed after t t' start mid stop hstart hsplit hskips hwakes =>
    have ht : t ∈ m.alive := by
      rw [← Machine.mem_turns, Machine.turns, hsplit]
      simp
    exact ⟨fun _ => ⟨List.ne_nil_of_mem ht, t, ht, hwoken hwakes⟩, nofun, nofun⟩
  | @same m t' start mid stop hstart hskips hlive hwakes =>
    have ht : m.fiber ∈ m.alive := by
      rw [Machine.alive, if_neg (by rw [hlive]; nofun)]
      exact List.mem_cons_self
    exact ⟨fun _ => ⟨List.ne_nil_of_mem ht, _, ht, hwoken hwakes⟩, nofun, nofun⟩
  | later _ _ _ _ _ _ ih => exact ih
  | finished hstart hskips hdeadline hnil hdone =>
    refine ⟨nofun, fun _ => ?_, nofun⟩
    rw [Machine.alive, if_pos hdone, hnil]
  | @deadlock m start stop hstart hskips hdeadline hsome =>
    refine ⟨nofun, nofun, fun _ => ⟨fun hnil => hsome ?_, hparked hskips hdeadline⟩⟩
    unfold Machine.alive at hnil
    split at hnil
    · exact ⟨hnil, ‹_›⟩
    · cases hnil

/-- **`finished_iff`** — a run ends exactly when nothing is left to run. -/
theorem finished_iff (hs : Schedules m turn m') : turn = .finished ↔ m.alive = [] := by
  obtain ⟨hrun, hfinished, hdeadlock⟩ := hs.turn_spec
  refine ⟨hfinished, fun hnil => ?_⟩
  cases turn with
  | run => exact ((hrun rfl).1 hnil).elim
  | finished => rfl
  | deadlock => exact ((hdeadlock rfl).1 hnil).elim

/-- **`deadlock_iff`** — a deadlock is found exactly when something is left to run and all of it waits
for tasks. -/
theorem deadlock_iff (hs : Schedules m turn m') : turn = .deadlock ↔
    m.alive ≠ [] ∧ ∀ t ∈ m.alive, ∃ task, t.state = .parked task := by
  obtain ⟨hrun, hfinished, hdeadlock⟩ := hs.turn_spec
  refine ⟨hdeadlock, fun ⟨hne, hall⟩ => ?_⟩
  cases turn with
  | run =>
    obtain ⟨t, ht, hnot⟩ := (hrun rfl).2
    obtain ⟨task, hstate⟩ := hall t ht
    exact (hnot task hstate).elim
  | finished => exact (hne (hfinished rfl)).elim
  | deadlock => rfl

/-- **`told`** — a deadlock goes to a fiber that is ready to hear of it, and to the main task if that
has something left to run. -/
theorem told (hs : Schedules m .deadlock m') (hqueue : ∀ t ∈ m.queue, t.isDone = false) :
    m'.fiber.isDone = false ∧ m'.fiber.state = .ready ∧
      ((∃ t ∈ m.alive, t.id = mainTask) → m'.fiber.id = mainTask) := by
  generalize hturn : Turn.deadlock = turn at hs
  induction hs with
  | other => cases hturn
  | same => cases hturn
  | later _ _ _ _ _ _ ih => exact ih hqueue hturn
  | finished => cases hturn
  | @deadlock m start stop hstart hskips hdeadline hsome =>
    rcases Machine.deadlocked_cases (m := { m with clock := stop }) hsome with
      ⟨hlive, hwho, heq⟩ | ⟨before, next, after, hsplit, hnot, hwho, heq⟩
    · rw [heq]
      refine ⟨hlive, rfl, fun ⟨t, ht, hid⟩ => ?_⟩
      rcases hwho with hmain | hnil
      · exact hmain
      · change m.queue = [] at hnil
        rw [Machine.alive, if_neg (by rw [show m.fiber.isDone = false from hlive]; nofun), hnil,
          List.mem_singleton] at ht
        rw [← hid, ht]
    · rw [heq]
      refine ⟨hqueue next (by rw [show m.queue = _ from hsplit]; simp), rfl, fun ⟨t, ht, hid⟩ => ?_⟩
      rcases hwho with hmain | hnone
      · exact hmain
      · -- the main task is neither in the queue nor running
        unfold Machine.alive at ht
        split at ht
        · exact (hnone t ht hid).elim
        · rename_i hlive
          rcases List.mem_cons.mp ht with rfl | ht
          · exact (hnot ⟨hid, Bool.eq_false_iff.mpr hlive⟩).elim
          · exact (hnone t ht hid).elim

end Schedules

end ScriptMachine
