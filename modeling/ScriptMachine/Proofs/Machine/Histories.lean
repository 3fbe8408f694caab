import Mathlib
import ScriptMachine.Proofs.Machine.Reachable

/-!
# ScriptMachine.Proofs.Machine.Histories — one thing after the other

`Goes` says what may happen to a machine next, and leaves open what does. A `Run` is a history in
which every step is written down: the machines that a reachable machine is, one after the other. Whatever
is later is the end of some run, so what is proved of every run is proved of every history.

One history can be computed. `successor` executes an instruction if the running task can, routes the
error if that fails, and gives another task its turn if it cannot. It collects no garbage and takes no
turn away, which is one of the ways in which things may go; so `after n`, the machine `n` steps later,
is a run, and `rehearse` is the run of a script on a new machine. That is how the theorems about
reachable machines and about runs are shown to be about something: each is applied to a rehearsal in
which what it is about does happen.

A machine with host functions of its own has such runs only as long as these invent no references. The
functions of a new machine are all builtins, and so they stay: that is what `Sane` says.

What a run does is not compared here with what the loop does. The loop takes steps of the same kind, with
collections and turns where they are due, which is proved with the loop.
-/

namespace ScriptMachine

open Relation

variable {m m' : Machine} {run : Nat → Machine} {n i j : Nat}

namespace Machine

/-! ## Runs -/

/-- **`Run run n`** — `n` steps of a machine that can be reached, from `run 0` to `run n`. -/
structure Run (run : Nat → Machine) (n : Nat) : Prop where
  first : (run 0).Reachable
  goes : ∀ i < n, (run i).Goes (run (i + 1))

/-- What comes later in a run is later for the machine. -/
theorem Run.later (hrun : Run run n) (hij : i ≤ j) (hj : j ≤ n) : (run i).Later (run j) := by
  induction j, hij using Nat.le_induction with
  | base => exact .refl
  | succ j hij ih => exact (ih (by omega)).tail (hrun.goes j (by omega))

/-- Every machine of a run is reachable. -/
theorem Run.reachable (hrun : Run run n) (hi : i ≤ n) : (run i).Reachable :=
  hrun.first.later (hrun.later (Nat.zero_le i) hi)

/-- A run with one step more. -/
theorem Run.snoc (hrun : Run run n) (hgoes : (run n).Goes m') :
    Run (fun i => if i ≤ n then run i else m') (n + 1) := by
  refine ⟨by simpa using hrun.first, fun i hi => ?_⟩
  rcases Nat.lt_succ_iff_lt_or_eq.mp hi with hlt | rfl
  · simpa [Nat.le_of_lt hlt, Nat.succ_le_of_lt hlt] using hrun.goes i hlt
  · simpa using hgoes

/-- **`Later.exists_run`** — whatever is later is the end of a run. -/
theorem Later.exists_run (hm : m.Reachable) (hlater : m.Later m') :
    ∃ run n, Run run n ∧ run 0 = m ∧ run n = m' := by
  induction hlater with
  | refl => exact ⟨fun _ => m, 0, ⟨hm, nofun⟩, rfl, rfl⟩
  | tail _ hgoes ih =>
    obtain ⟨run, n, hrun, hfirst, rfl⟩ := ih
    exact ⟨_, n + 1, hrun.snoc hgoes, by simpa using hfirst, by simp⟩

/-! ## Machines without foreign functions -/

/-- **`m.Sane`** — a valid machine whose host functions are modest. -/
structure Sane (m : Machine) : Prop where
  valid : m.Valid
  modest : m.heap.Modest

/-- A sane machine stays so, since no step makes a host function. -/
theorem Sane.later (hs : m.Sane) (hlater : m.Later m') : m'.Sane :=
  ⟨(hs.valid.later hlater).1, (hs.valid.later hlater).2.2.1.modest hs.modest⟩

theorem sane_new (config : Config) (files : Files) : (new config files).Sane :=
  ⟨valid_new config files, modest_new config files⟩

/-! ## The history without collections -/

/-- **`m.successor`** — the machine after the next thing that happens to it, if no garbage is collected
and no turn is taken away. A machine that is stuck stays as it is. -/
def successor (m : Machine) : Machine :=
  if m.fiber.isDone || m.fiber.state != .ready then
    match m.schedule with
    | (.deadlock, m') => (m'.raise .deadlock).2
    | (_, m') => m'
  else
    match Exec.step m with
    | .ok _ m' => m'
    | .error .stuck _ => m
    | .error .endless _ => m
    | .error e m' => (m'.raise e).2

/-- **`m.after n`** — the machine after the next `n` things that happen to it. -/
def after (m : Machine) : Nat → Machine
  | 0 => m
  | n + 1 => (m.after n).successor

/-- Nothing has happened. -/
theorem goes_self (m : Machine) : m.Goes m :=
  .outside m m.config m.scriptArgs m.clock m.seed m.files m.loads m.stdout m.stderr

/-- **`Sane.goes_successor`** — the successor is what may happen next. -/
theorem Sane.goes_successor (hs : m.Sane) : m.Goes m.successor := by
  unfold successor
  split
  · have hturn := schedules_schedule m
    generalize m.schedule = found at hturn ⊢
    obtain ⟨turn, m₁⟩ := found
    cases turn with
    | run => exact .turns hturn nofun
    | finished => exact .turns hturn nofun
    | deadlock => exact .deadlocks hturn
  · rename_i hready
    simp only [Bool.or_eq_true, not_or, Bool.not_eq_true, bne_eq_false_iff_eq] at hready
    have hready : m.Ready := ⟨hready.1, hready.2⟩
    split
    · exact .steps hready hs.modest.honest ‹_›
    · exact goes_self m
    · exact goes_self m
    · rename_i hstuck hendless hstep
      exact .fails hready hs.modest.honest hstep hstuck hendless

/-- **`Sane.run_after`** — the machines after so many steps are a run. -/
theorem Sane.run_after (hs : m.Sane) (hm : m.Reachable) (n : Nat) : Run m.after n := by
  have hsane : ∀ n, (m.after n).Sane := by
    intro n
    induction n with
    | zero => exact hs
    | succ n ih => exact ih.later (.single ih.goes_successor)
  exact ⟨hm, fun i _ => (hsane i).goes_successor⟩

/-! ## What happens next

These are decided by computing the machine, so a rehearsal can be asked. -/

instance : Decidable m.Ready :=
  decidable_of_iff (m.fiber.isDone = false ∧ m.fiber.state = .ready)
    ⟨fun h => ⟨h.1, h.2⟩, fun h => ⟨h.live, h.ready⟩⟩

instance (o : Option Value) (b : Bool) : Decidable (o = some (.bool b)) :=
  match o with
  | some (.bool c) => decidable_of_iff (c = b) (by simp)
  | some .none | some (.number _) | some (.obj _) => isFalse (by simp)
  | none => isFalse nofun

instance (o : Option Upvalue) (b : Bool) : Decidable (o = some (.closed (.bool b))) :=
  match o with
  | some (.closed v) => decidable_of_iff (some v = some (.bool b)) (by simp)
  | some (.onStack ..) => isFalse (by simp)
  | none => isFalse nofun

theorem exists_reference {o : Option Value} (h : (o.bind Value.ref?).isSome = true) :
    ∃ r, o = some (.obj r) := by
  obtain ⟨r, hr⟩ := Option.isSome_iff_exists.mp h
  obtain ⟨v, rfl, hv⟩ := Option.bind_eq_some_iff.mp hr
  cases v with
  | obj r => exact ⟨r, rfl⟩
  | _ => cases hv

/-- What the handles say of their tasks. -/
def statuses (m : Machine) : List (Nat × TaskStatus) :=
  (List.range m.heap.cells.size).filterMap fun i =>
    (m.heap.task? ⟨i⟩).map fun th => (th.id, th.status)

/-- Does the next instruction succeed? -/
def succeeds (m : Machine) : Bool :=
  match Exec.step m with
  | .ok .. => true
  | .error .. => false

/-- **`m.Performs task op`** — the task has its turn, and its next instruction is this one and succeeds. -/
structure Performs (m : Machine) (task : Nat) (op : Operation) : Prop where
  task : m.fiber.id = task
  ready : m.Ready
  op : m.next?.map (·.op) = some op
  succeeds : m.succeeds = true

instance (task : Nat) (op : Operation) : Decidable (m.Performs task op) :=
  decidable_of_iff (m.fiber.id = task ∧ m.Ready ∧ m.next?.map (·.op) = some op ∧ m.succeeds = true)
    ⟨fun h => ⟨h.1, h.2.1, h.2.2.1, h.2.2.2⟩, fun h => ⟨h.task, h.ready, h.op, h.succeeds⟩⟩

namespace Performs

variable {task : Nat} {op : Operation} (hm : m.Performs task op)
include hm

/-- The instruction that is performed is the next one. -/
theorem next : ∃ i, m.Next i ∧ i.op = op := by
  obtain ⟨i, hi, hop⟩ := Option.map_eq_some_iff.mp hm.op
  exact ⟨i, next_iff.mpr hi, hop⟩

/-- The successor is the machine after the instruction. -/
theorem step : Exec.step m = .ok () m.successor := by
  have hsucceeds := hm.succeeds
  unfold Machine.succeeds at hsucceeds
  have hready : ¬ (m.fiber.isDone || m.fiber.state != .ready) = true := by
    simp [hm.ready.live, hm.ready.ready]
  unfold successor
  rw [if_neg hready]
  revert hsucceeds
  generalize Exec.step m = result
  cases result with
  | ok v m' => exact fun _ => rfl
  | error e m' => exact fun h => absurd h Bool.false_ne_true

end Performs

/-! ## Scripts -/

/-- **`m.about source`** — the machine about to run a script, if the text compiles. -/
def about (m : Machine) (source : String) : Machine :=
  match compile m.heap source "main" with
  | (.ok script, h) => { m with heap := h }.load script "main"
  | (.error _, h) => { m with heap := h }

/-- Starting a script is something that a machine can do. -/
theorem goes_about (m : Machine) (source : String) : m.Goes (m.about source) := by
  unfold about
  split
  · exact .loads ‹_›
  · rename_i h hcompile
    have hcompiles := Goes.compiles m source "main"
    rwa [hcompile] at hcompiles

/-- **`rehearse source n`** — a new machine that has run the script for `n` steps. -/
def rehearse (source : String) : Nat → Machine :=
  ((new {} default).about source).after

/-- **`run_rehearse`** — a rehearsal is a run. -/
theorem run_rehearse (source : String) (n : Nat) : Run (rehearse source) n :=
  ((sane_new {} default).later (.single (goes_about _ source))).run_after
    (.goes (.new {} default) (goes_about _ source)) n

/-- A rehearsal goes on with the instruction that is next. -/
theorem step_rehearse {source : String} {task : Nat} {op : Operation}
    (h : (rehearse source n).Performs task op) :
    Exec.step (rehearse source n) = .ok () (rehearse source (n + 1)) :=
  h.step

/-- Every moment of a rehearsal is a reachable machine. -/
theorem reachable_rehearse (source : String) (n : Nat) : (rehearse source n).Reachable :=
  (run_rehearse source n).reachable (Nat.le_refl n)

/-- Rehearsed machines have no foreign functions. -/
theorem honest_rehearse (source : String) (n : Nat) : (rehearse source n).heap.Honest := by
  have hlater := (run_rehearse source n).later (Nat.zero_le n) (Nat.le_refl n)
  have hsane := (sane_new {} default).later (.single (goes_about (new {} default) source))
  exact (hsane.later hlater).modest.honest

end Machine

end ScriptMachine
