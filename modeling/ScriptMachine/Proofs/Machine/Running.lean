import Mathlib
import ScriptMachine.Proofs.Machine.Coherence

/-!
# ScriptMachine.Proofs.Machine.Running — runs of scripts

The loop that runs a script takes only steps that a machine can take, and when it comes to an end it
leaves the machine *idle*: no task waits, and the one that ran last holds on to nothing. So an idle
machine is all that the next run ever finds, and every captured variable that a closure still has is
in a closed cell.

`AtRest.interpret_idle` is the result. `runsTo_loop` is the induction, on the fuel of the loop: every
turn of the loop is a step of the machine, so that what is known of histories is known of runs. It adds
the values: in what cells a run has closed by its end there is the last value of each variable
(`KeepsLast`), which is what the variable had in the last state where it was alive. This holds of any
run (`Run.keepsLast`), because closing a cell does not change what reading it gives.

A run that does not end has no end to speak of. `interpret_idle_keptClosure` is a run that ends, with a
closure that outlives it over a variable that was assigned after it had been captured, and with a task
that nobody has awaited.
-/

namespace ScriptMachine

open Relation

variable {m m' : Machine} {e : Fault} {fuel budget : Nat} {source path : String} {h : Heap} {r : Ref}
  {v w : Value}

/-- **`o.Returns`** — the run has come to its end. -/
def Outcome.Returns : Outcome → Prop
  | .stuck | .unfinished => False
  | _ => True

instance : DecidablePred Outcome.Returns
  | .value _ | .compileErrors _ | .runtimeError _ => .isTrue trivial
  | .stuck | .unfinished => .isFalse id

namespace Machine

/-- **`m.Idle`** — nothing is left to run, and nothing is held on to. -/
structure Idle (m : Machine) : Prop where
  queue : m.queue = []
  fiber : m.fiber.Spent

/-- **`Valid.closed`** — all cells of an idle machine are closed. -/
theorem Valid.closed (hv : m.Valid) (hidle : m.Idle) {r : Ref} {u : Upvalue}
    (hr : m.heap.upvalue? r = some u) : ∃ v, u = .closed v := by
  cases u with
  | closed v => exact ⟨v, rfl⟩
  | onStack task slot =>
    obtain ⟨t, ht, -, hmem⟩ := hv.cells.covered r task slot hr
    rw [fibers, hidle.queue] at ht
    obtain rfl := List.mem_singleton.mp ht
    rw [hidle.fiber.openUpvalues] at hmem
    cases hmem

/-- What is defined has nothing to do with what runs. -/
theorem Idle.defining {v : Value} (hidle : m.Idle) (name : String) : (m.defineGlobal name v).Idle := by
  unfold defineGlobal
  dsimp only
  split <;> exact ⟨hidle.queue, hidle.fiber⟩

theorem Idle.definingNative (hidle : m.Idle) (name : String) (body : NativeBody) :
    (m.defineNative name body).Idle := by
  have hmade : { m with heap := (m.heap.alloc (.native ⟨name, body⟩)).2 }.Idle :=
    ⟨hidle.queue, hidle.fiber⟩
  exact hmade.defining name

/-- A new machine is idle: nothing has been started. -/
theorem idle_new (config : Config) (files : Files) : (new config files).Idle := by
  have hbare : (bare config files).Idle := by
    unfold bare
    dsimp only
    exact ⟨rfl, rfl, rfl, rfl, rfl⟩
  unfold new
  refine List.foldlRecOn Builtin.all _ hbare fun m hm b _ => ?_
  exact hm.definingNative b.1 (.builtin b.2)

/-- A valid machine is idle when no fiber has anything left to run. -/
theorem Valid.idle (hv : m.Valid) (hqueue : m.queue = []) (hdone : m.fiber.isDone = true) :
    m.Idle := by
  refine ⟨hqueue, hv.running.elim id fun halive => ?_⟩
  rw [halive.not_done] at hdone
  cases hdone

/-! ## Ends -/

/-- Abandoning leaves no task in the queue and none running. -/
theorem queue_abandon (m : Machine) : m.abandon.queue = [] ∧ m.abandon.fiber.isDone = true := by
  unfold abandon
  dsimp only
  split <;> exact ⟨rfl, rfl⟩

/-- **`Faulting.idle`** — an error that ends the run leaves an idle machine. -/
theorem Faulting.idle {outcome : Outcome} (hf : m.Faulting) (hstuck : e ≠ .stuck)
    (hendless : e ≠ .endless) (hends : (m.raise e).1 = some outcome) : (m.raise e).2.Idle := by
  obtain ⟨hvalid, -⟩ : _ ∧ Moves (fun _ => False) _ _ := hf.raise hstuck hendless
  have habandon := raise_ends hstuck hendless hends
  obtain ⟨hqueue, hdone⟩ := queue_abandon m
  exact hvalid.idle (habandon ▸ hqueue) (habandon ▸ hdone)

/-- The scheduler has found that all tasks have ended. -/
theorem Valid.idle_of_finished (hv : m.Valid) (hturn : Schedules m .finished m') : m'.Idle := by
  obtain ⟨hvalid, -⟩ : _ ∧ Moves (fun _ => False) _ _ := hturn.valid hv nofun
  have hnone : m.alive = [] := hturn.finished_iff.mp rfl
  obtain ⟨ts, hperm, hturned⟩ := (hturn.conserves hv.queue_live).alive
  rw [hnone] at hturned
  obtain rfl := List.forall₂_nil_left_iff.mp hturned
  have hnone' : m'.alive = [] := hperm.symm.eq_nil
  unfold alive at hnone'
  split at hnone'
  · rename_i hdone
    exact hvalid.idle hnone' hdone
  · cases hnone'

/-! ## The loop -/

/-- A task that need not yield can go on. -/
theorem ready_of_mustYield (h : ¬ m.mustYield budget = true) : m.Ready := by
  unfold mustYield at h
  simp only [Bool.or_eq_true, not_or, Bool.not_eq_true, bne_eq_false_iff_eq] at h
  exact ⟨h.1.1, h.1.2⟩

/-- What happens before an instruction: a collection if it is wanted, and the trace. -/
def prepareBy (collects : Bool) (m : Machine) : Machine :=
  let m := if collects then m.collectGarbage.2 else m
  if m.config.trace then { m with stderr := m.stderr ++ m.traceText } else m

/-- What happens before an instruction leaves the running fiber alone. -/
theorem later_prepareBy (collects : Bool) (m : Machine) :
    m.Later (m.prepareBy collects) ∧ (m.prepareBy collects).fiber = m.fiber := by
  have hcollects : m.Later (if collects then m.collectGarbage.2 else m) ∧
      (if collects then m.collectGarbage.2 else m).fiber = m.fiber := by
    split
    · exact ⟨.single (.collects m), rfl⟩
    · exact ⟨.refl, rfl⟩
  unfold prepareBy
  dsimp only
  generalize (if collects then m.collectGarbage.2 else m) = m₁ at hcollects ⊢
  split
  · exact ⟨hcollects.1.tail (.outside m₁ m₁.config m₁.scriptArgs m₁.clock m₁.seed m₁.files m₁.loads
      m₁.stdout (m₁.stderr ++ m₁.traceText)), hcollects.2⟩
  · exact hcollects

theorem later_prepare (m : Machine) : m.Later m.prepare ∧ m.prepare.fiber = m.fiber :=
  later_prepareBy m.heap.shouldCollect m

/-- **`m.RunsTo o m'`** — a run has taken the machine from `m` to `m'`. If the outcome says that it has
come to its end the machine is idle; if not, it was interrupted, or its last instruction got stuck or
never completes. -/
def RunsTo (m : Machine) (o : Outcome) (m' : Machine) : Prop :=
  m.Later m' ∧ (o.Returns → m'.Idle) ∨
    ¬ o.Returns ∧ ∃ m₁ e, m.Later m₁ ∧ Exec.step m₁ = .error e m' ∧ (e = .stuck ∨ e = .endless)

theorem RunsTo.of_later {o : Outcome} {m₁ : Machine} (hlater : m.Later m₁) (hruns : m₁.RunsTo o m') :
    m.RunsTo o m' := by
  rcases hruns with ⟨hlater', hidle⟩ | ⟨hreturns, m₂, e, hlater', hstep, he⟩
  · exact .inl ⟨hlater.trans hlater', hidle⟩
  · exact .inr ⟨hreturns, m₂, e, hlater.trans hlater', hstep, he⟩

/-- **`runsTo_loop`** — the loop takes steps of the machine until it is idle. -/
theorem Valid.runsTo_loop (hv : m.Valid) (hhonest : ∀ m', m.Later m' → m'.heap.Honest) :
    m.RunsTo (loop fuel budget m).1 (loop fuel budget m).2 := by
  induction fuel generalizing budget m with
  | zero => exact .inl ⟨.refl, False.elim⟩
  | succ fuel ih =>
    -- the rest of the loop starts from a later machine
    have hrest : ∀ {budget : Nat} {m₁ : Machine}, m.Later m₁ →
        m.RunsTo (loop fuel budget m₁).1 (loop fuel budget m₁).2 := fun hlater =>
      .of_later hlater (ih (hv.later hlater).1 fun m' h => hhonest m' (hlater.trans h))
    unfold loop
    by_cases hyield : m.mustYield budget = true
    · rw [if_pos hyield]
      have hturn := schedules_schedule m
      generalize m.schedule = found at hturn ⊢
      obtain ⟨turn, m₁⟩ := found
      cases turn with
      | run => exact hrest (.single (.turns hturn nofun))
      | finished =>
        obtain ⟨hqueue, hfiber⟩ := hv.idle_of_finished hturn
        exact .inl ⟨(ReflTransGen.single (.turns hturn nofun)).tail (.ends m₁),
          fun _ => ⟨hqueue, hfiber⟩⟩
      | deadlock =>
        obtain ⟨hfaulting, -⟩ : _ ∧ Moves (fun _ => False) _ _ := hturn.faulting hv
        have hlater : m.Later (m₁.raise .deadlock).2 := .single (.deadlocks hturn)
        have hidle : ∀ outcome, (m₁.raise .deadlock).1 = some outcome →
            (m₁.raise .deadlock).2.Idle := fun _ => hfaulting.idle nofun nofun
        dsimp only
        generalize m₁.raise .deadlock = raised at hlater hidle ⊢
        obtain ⟨_ | outcome, m₂⟩ := raised
        · exact hrest hlater
        · exact .inl ⟨hlater, fun _ => hidle outcome rfl⟩
    · rw [if_neg hyield]
      obtain ⟨hlater, hfiber⟩ := later_prepare m
      have hready : m.prepare.Ready := by
        obtain ⟨hlive, hready⟩ := ready_of_mustYield hyield
        exact ⟨hfiber ▸ hlive, hfiber ▸ hready⟩
      have hhonest' := hhonest _ hlater
      have hmeets := (hv.later hlater).1.step hready hhonest'
      unfold Exec.Meets at hmeets
      rw [show Exec.step.run m.prepare = Exec.step m.prepare from rfl]
      generalize hstep : Exec.step m.prepare = result at hmeets ⊢
      cases result with
      | ok v m₁ => exact hrest (hlater.tail (.steps hready hhonest' hstep))
      | error e m₁ =>
        dsimp only
        by_cases hstuck : e = .stuck
        · subst hstuck
          exact .inr ⟨id, _, _, hlater, hstep, .inl rfl⟩
        by_cases hendless : e = .endless
        · subst hendless
          exact .inr ⟨id, _, _, hlater, hstep, .inr rfl⟩
        obtain ⟨heq, -⟩ | ⟨-, hfaulting, -⟩ := hmeets
        · exact (hstuck heq).elim
        have hlater' := hlater.tail (.fails hready hhonest' hstep hstuck hendless)
        have hidle : ∀ outcome, (m₁.raise e).1 = some outcome → (m₁.raise e).2.Idle :=
          fun _ => hfaulting.idle hstuck hendless
        generalize m₁.raise e = raised at hlater' hidle ⊢
        obtain ⟨_ | outcome, m₂⟩ := raised
        · exact hrest hlater'
        · exact .inl ⟨hlater', fun _ => hidle outcome rfl⟩

/-! ## Scripts -/

/-- **`runsTo_interpret`** — a run of a script takes steps of the machine until it is idle. -/
theorem Valid.runsTo_interpret (hv : m.Valid) (hidle : m.Idle)
    (hhonest : ∀ m', m.Later m' → m'.heap.Honest) (fuel : Nat) (source path : String) :
    m.RunsTo (interpret fuel m source path).1 (interpret fuel m source path).2 := by
  unfold interpret
  have hcompiles : m.Later { m with heap := (compile m.heap source path).2 } :=
    .single (.compiles m source path)
  cases hcompile : compile m.heap source path with
  | mk result heap =>
    rw [hcompile] at hcompiles
    dsimp only
    cases result with
    | error errors => exact .inl ⟨hcompiles, fun _ => ⟨hidle.queue, hidle.fiber⟩⟩
    | ok script =>
      have hloads : m.Later ({ m with heap }.load script path) := .single (.loads hcompile)
      exact .of_later hloads ((hv.later hloads).1.runsTo_loop fun m' h => hhonest m' (hloads.trans h))

/-- **`later_interpret`** — a run that has come to its end has left the machine idle. -/
theorem Valid.later_interpret (hv : m.Valid) (hidle : m.Idle)
    (hhonest : ∀ m', m.Later m' → m'.heap.Honest)
    (hreturns : (interpret fuel m source path).1.Returns) :
    m.Later (interpret fuel m source path).2 ∧ (interpret fuel m source path).2.Idle := by
  rcases hv.runsTo_interpret hidle hhonest fuel source path with ⟨hlater, hidle'⟩ | ⟨hnot, -⟩
  · exact ⟨hlater, hidle' hreturns⟩
  · exact (hnot hreturns).elim

/-- **`AtRest m`** — a machine between two calls of those who use it. -/
inductive AtRest : Machine → Prop
  | new (config : Config) (files : Files) : AtRest (new config files)
  | native {m : Machine} (hm : AtRest m) (name : String) (body : NativeBody) :
      AtRest (m.defineNative name body)
  | defines {m : Machine} {v : Value} (hm : AtRest m) (name : String) (hv : m.heap.Live v) :
      AtRest (m.defineGlobal name v)
  | collects {m : Machine} (hm : AtRest m) : AtRest m.collectGarbage.2
  | looksUp {m : Machine} (hm : AtRest m) (name : String) : AtRest (m.global name).2
  | disassembles {m : Machine} (hm : AtRest m) (source path : String) :
      AtRest (m.disassemble source path).2
  | outside {m : Machine} (hm : AtRest m) (config : Config) (scriptArgs : List String) (clock : Nat)
      (seed : UInt64) (files : Files) (loads : List String) (stdout stderr : String) :
      AtRest { m with config, scriptArgs, clock, seed, files, loads, stdout, stderr }
  | interprets {m : Machine} (hm : AtRest m) (hhonest : ∀ m', m.Later m' → m'.heap.Honest)
      {fuel : Nat} {source path : String} (hreturns : (interpret fuel m source path).1.Returns) :
      AtRest (interpret fuel m source path).2

/-- **`AtRest.idle`** — whatever it is used for, a machine is idle afterwards. -/
theorem AtRest.idle (hm : m.AtRest) : m.Reachable ∧ m.Idle := by
  induction hm with
  | new config files => exact ⟨.new config files, idle_new config files⟩
  | native _ name body ih => exact ⟨ih.1.native name body, ih.2.definingNative name body⟩
  | defines _ name hv ih => exact ⟨ih.1.goes (.defines name hv), ih.2.defining name⟩
  | collects _ ih => exact ⟨ih.1.goes (.collects _), ih.2.queue, ih.2.fiber⟩
  | looksUp _ name ih =>
    have hinterns := ih.1.goes (.interns _ name)
    unfold global
    dsimp only
    exact ⟨hinterns, ih.2.queue, ih.2.fiber⟩
  | disassembles _ source path ih =>
    have hcompiles := ih.1.goes (.compiles _ source path)
    unfold disassemble
    dsimp only
    exact ⟨hcompiles, ih.2.queue, ih.2.fiber⟩
  | outside _ config scriptArgs clock seed files loads stdout stderr ih =>
    exact ⟨ih.1.goes (.outside ..), ih.2.queue, ih.2.fiber⟩
  | interprets _ hhonest hreturns ih =>
    obtain ⟨hlater, hidle⟩ := ih.1.valid.later_interpret ih.2 hhonest hreturns
    exact ⟨ih.1.later hlater, hidle⟩

/-- A closed cell has one value. -/
theorem reads_closed {ts : List Fiber} (hr : h.upvalue? r = some (.closed v)) (hw : Reads h ts r w) :
    w = v := by
  rcases hw with hw | ⟨t, -, slot, hw, -⟩
  · exact Upvalue.closed.inj (Option.some.inj (hw.symm.trans hr))
  · cases hw.symm.trans hr

/-- **`KeepsLast run n`** — in what cells a run has closed by its end there is the last value of each
variable: the value it had at any moment since which it was not assigned, and what it was assigned last. -/
structure KeepsLast (run : Nat → Machine) (n : Nat) : Prop where
  last : ∀ r v, (run n).heap.upvalue? r = some (.closed v) → ∀ i ≤ n, Untouched run i n r →
    ∀ w, Reads (run i).heap (run i).fibers r w → w = v
  assigned : ∀ r v, (run n).heap.upvalue? r = some (.closed v) → ∀ i < n, (run i).Ready →
    (run i).heap.Honest → (run i).Assigns (run (i + 1)) r → Untouched run (i + 1) n r →
      (run i).fiber.stack[(run i).fiber.stack.size - 1]? = some v

/-- Over a whole run each cell keeps the last value of its variable. By induction on the steps, the
value that is read through a cell changes only where it is written. -/
theorem Run.keepsLast {run : Nat → Machine} {n : Nat} (hrun : Run run n) : KeepsLast run n where
  last _ _ hr _ hi hsame _ hw := reads_closed hr (hrun.reads hi (Nat.le_refl n) hsame hw)
  assigned r v hr i hi hready hhonest hassigns hsame := by
    obtain ⟨w, htop, hreads⟩ :=
      (hrun.reachable (Nat.le_of_lt hi)).valid.assigns hready hhonest hassigns
    rw [htop, reads_closed hr (hrun.reads hi (Nat.le_refl n) hsame hreads)]

/-- **`AtRest.interpret_idle`** — a run that has come to its end, in whatever way, has left nothing
behind: no task waits, the fiber has no activations, values, handlers or open cells, and collections
are paused as often as before. Every captured variable is in a closed cell. It has taken steps of the
machine to come there, and by whatever steps it came there, each cell has the last value of its variable;
and whatever happens next, that is the value of the variable until it is assigned. -/
theorem AtRest.interpret_idle (hm : m.AtRest) (hhonest : ∀ m', m.Later m' → m'.heap.Honest)
    (hreturns : (interpret fuel m source path).1.Returns) :
    (interpret fuel m source path).2.queue = [] ∧
      (interpret fuel m source path).2.fiber.Spent ∧
      (interpret fuel m source path).2.heap.pauses = m.heap.pauses ∧
      (∀ r u, (interpret fuel m source path).2.heap.upvalue? r = some u → ∃ v, u = .closed v) ∧
      (∃ run n, Run run n ∧ run 0 = m ∧ run n = (interpret fuel m source path).2) ∧
      (∀ run n, Run run n → run n = (interpret fuel m source path).2 → KeepsLast run n) ∧
      ∀ run n, Run run n → run 0 = (interpret fuel m source path).2 → ∀ r v,
        (run 0).heap.upvalue? r = some (.closed v) → ∀ i ≤ n, Untouched run 0 i r →
          Reads (run i).heap (run i).fibers r v := by
  obtain ⟨hreachable, hidle⟩ := hm.idle
  obtain ⟨hlater, hidle'⟩ := hreachable.valid.later_interpret hidle hhonest hreturns
  obtain ⟨hvalid, -, habides, -⟩ := hreachable.valid.later hlater
  exact ⟨hidle'.queue, hidle'.fiber, habides.pauses, fun r u hr => hvalid.closed hidle' hr,
    hlater.exists_run hreachable, fun run n hrun _ => hrun.keepsLast,
    fun run n hrun _ r v hr i hi hsame => hrun.reads (Nat.zero_le i) hi hsame (.inl hr)⟩

/-- A closure that outlives the run, over a variable that it assigns, and a task that is never awaited. -/
def keptClosure : String :=
  "func make() \x7b var seen = false; func see() \x7b seen = true; \x7d return see; \x7d " ++
    "var see = make(); async see();"

/-- The run ends. The variable was false when it was captured; it is true in the cell that the run leaves,
and is that until the next run assigns it. -/
theorem interpret_idle_keptClosure :
    (interpret 40 (new {} default) keptClosure "main").1.Returns ∧
      (interpret 40 (new {} default) keptClosure "main").2.queue = [] ∧
      (∃ r, (interpret 40 (new {} default) keptClosure "main").2.heap.upvalue? r =
          some (.closed (.bool true)) ∧
        ∀ run n, Run run n → run 0 = (interpret 40 (new {} default) keptClosure "main").2 →
          Untouched run 0 n r → Reads (run n).heap (run n).fibers r (.bool true)) ∧
      ∃ run n, Run run n ∧ run 0 = new {} default ∧
        run n = (interpret 40 (new {} default) keptClosure "main").2 ∧ KeepsLast run n := by
  have hfacts : (interpret 40 (new {} default) keptClosure "main").1.Returns ∧
      ∃ i < (interpret 40 (new {} default) keptClosure "main").2.heap.cells.size,
        (interpret 40 (new {} default) keptClosure "main").2.heap.upvalue? ⟨i⟩ =
          some (.closed (.bool true)) := by
    decide +kernel
  obtain ⟨hreturns, i, -, hclosed⟩ := hfacts
  have hrest : AtRest (new {} default) := .new {} default
  obtain ⟨hqueue, -, -, -, ⟨run, n, hrun, hfirst, hlast⟩, hkeeps, hstays⟩ :=
    hrest.interpret_idle ((valid_new {} default).honest_later (modest_new {} default)) hreturns
  exact ⟨hreturns, hqueue, ⟨⟨i⟩, hclosed, fun run n hrun hfirst hsame =>
    hstays run n hrun hfirst _ _ (hfirst.symm ▸ hclosed) n (Nat.le_refl n) hsame⟩,
    run, n, hrun, hfirst, hlast, hkeeps run n hrun hlast⟩

end Machine

end ScriptMachine
