import Mathlib
import ScriptMachine.Proofs.Machine.Running
import ScriptMachine.Proofs.Renaming.Seeing

/-!
# ScriptMachine.Proofs.Renaming.Runs — collections go unnoticed

When garbage is collected is a choice that the loop makes before every instruction. A `Policy` makes
it in any way whatever; the policy of the loop itself follows the threshold of the heap. Runs of one
script under two policies are in lockstep: they execute the same instructions in the same tasks, write
the same and end in the same way, unless the script asks how much the heap holds.

It is enough to compare each policy with the one that never collects. Then all collections are on one
side, and each of them only narrows the pairing of references to what is still reachable.

`collections_unobservable` is the result, for any texts that a new machine runs one after the other and
any two policies. `Like.turnBy` is the step, a turn of the loop, and `Like.loopBy` the induction on
fuel. `loop_eq` says that the loop of the machine is the one with the automatic policy. What is seen of
a run is a `Report`: every instruction with its task, its place and its trace, how the run ended, and
all that was written. How long a run takes, and how much memory, is not part of it.
-/

namespace ScriptMachine

open Relation

variable {β : Pairing} {m m' n : Machine} {h h' : Heap} {v w : Value} {e : Fault} {o o' : Outcome}
  {fuel budget : Nat} {source path : String}

/-! ## Policies -/

/-- **`Policy`** — when to collect: a choice before every instruction, by how many turns of the loop
are left and by the machine. -/
abbrev Policy := Nat → Machine → Bool

/-- Collections are when they are due. -/
def Policy.automatic : Policy := fun _ m => m.heap.shouldCollect

/-- There are no collections. -/
def Policy.never : Policy := fun _ _ => false

/-- A run: the instructions that it executed, how it ended and the machine that it left. -/
structure History where
  executed : List Executed
  outcome : Outcome
  machine : Machine

/-- The run, after some instructions. -/
def History.after (executed : List Executed) (r : History) : History :=
  { r with executed := executed ++ r.executed }

namespace Machine

/-- The instruction that a turn of the loop executes, unless the scheduler has its turn. -/
def executedBy (collects : Bool) (budget : Nat) (m : Machine) : List Executed :=
  if m.mustYield budget then [] else [(m.prepareBy collects).executed]

/-- **`m.turnBy collects budget`** — a turn of the loop: the outcome if it ends the run, how many
instructions the running task has left, and the machine. -/
def turnBy (collects : Bool) (budget : Nat) (m : Machine) : Option Outcome × Nat × Machine :=
  if m.mustYield budget then
    match m.schedule with
    | (.run, m) => (none, quantum, m)
    | (.finished, m) => (some m.takeResult.1, quantum, m.takeResult.2)
    | (.deadlock, m) => ((m.raise .deadlock).1, quantum, (m.raise .deadlock).2)
  else
    match Exec.step.run (m.prepareBy collects) with
    | .ok _ m => (none, budget - 1, m)
    | .error fault m => ((m.raise fault).1, budget - 1, (m.raise fault).2)

/-- **`loopBy p fuel budget m`** — the loop with collections as the policy has them. -/
def loopBy (p : Policy) : (fuel budget : Nat) → Machine → History
  | 0, _, m => ⟨[], .unfinished, m⟩
  | fuel + 1, budget, m =>
    match m.turnBy (p fuel m) budget with
    | (some outcome, _, m') => ⟨m.executedBy (p fuel m) budget, outcome, m'⟩
    | (none, budget', m') => (loopBy p fuel budget' m').after (m.executedBy (p fuel m) budget)

/-- **`interpretBy p fuel m source path`** — a run of a source text with collections as the policy has
them. -/
def interpretBy (p : Policy) (fuel : Nat) (m : Machine) (source path : String) : History :=
  let (result, heap) := compile m.heap source path
  let m := { m with heap }
  match result with
  | .ok script => loopBy p fuel quantum (m.load script path)
  | .error errors => ⟨[], .compileErrors errors, m⟩

/-- What a turn of the loop executes is part of what the loop executes. -/
theorem executedBy_subset (p : Policy) (fuel budget : Nat) (m : Machine) :
    m.executedBy (p fuel m) budget ⊆ (loopBy p (fuel + 1) budget m).executed := by
  unfold loopBy
  split
  · exact fun _ he => he
  · exact List.subset_append_left _ _

/-- **`loop_eq`** — the loop is the one whose collections are when they are due. -/
theorem loop_eq : loop fuel budget m =
    ((loopBy .automatic fuel budget m).outcome, (loopBy .automatic fuel budget m).machine) := by
  induction fuel generalizing budget m with
  | zero => rfl
  | succ fuel ih =>
    unfold loop loopBy turnBy
    by_cases hyield : m.mustYield budget = true
    · rw [if_pos hyield, if_pos hyield]
      generalize m.schedule = found
      obtain ⟨_ | _ | _, m₁⟩ := found
      · exact ih
      · rfl
      · dsimp only
        generalize m₁.raise .deadlock = raised
        obtain ⟨_ | outcome, m₂⟩ := raised
        · exact ih
        · rfl
    · rw [if_neg hyield, if_neg hyield, show m.prepare = m.prepareBy (Policy.automatic fuel m) from rfl]
      generalize Exec.step.run (m.prepareBy (Policy.automatic fuel m)) = result
      cases result with
      | ok v m₁ => exact ih
      | error e m₁ =>
        dsimp only
        generalize m₁.raise e = raised
        obtain ⟨_ | outcome, m₂⟩ := raised
        · exact ih
        · rfl

/-- **`interpret_eq`** — a run of a source text is the one whose collections are when they are due. -/
theorem interpret_eq (fuel : Nat) (m : Machine) (source path : String) :
    interpret fuel m source path = ((interpretBy .automatic fuel m source path).outcome,
      (interpretBy .automatic fuel m source path).machine) := by
  unfold interpret interpretBy
  generalize compile m.heap source path = compiled
  obtain ⟨errors | script, h⟩ := compiled
  · rfl
  · exact loop_eq

/-! ## Turns of one machine -/

/-- A turn of the loop that does not interrupt the run leaves a later machine. -/
theorem Sane.later_turnBy (hs : m.Sane) (collects : Bool) (budget : Nat)
    (hreturns : ∀ o, (m.turnBy collects budget).1 = some o → o.Returns) :
    m.Later (m.turnBy collects budget).2.2 := by
  unfold turnBy at hreturns ⊢
  by_cases hyield : m.mustYield budget = true
  · rw [if_pos hyield] at hreturns ⊢
    have hturn := schedules_schedule m
    generalize m.schedule = found at hturn ⊢
    obtain ⟨turn, m₁⟩ := found
    cases turn with
    | run => exact .single (.turns hturn nofun)
    | finished => exact (ReflTransGen.single (.turns hturn nofun)).tail (.ends m₁)
    | deadlock => exact .single (.deadlocks hturn)
  · rw [if_neg hyield] at hreturns ⊢
    obtain ⟨hlater, hfiber⟩ := later_prepareBy collects m
    have hready : (m.prepareBy collects).Ready := by
      obtain ⟨hlive, hready⟩ := ready_of_mustYield hyield
      exact ⟨hfiber ▸ hlive, hfiber ▸ hready⟩
    have hhonest := (hs.later hlater).modest.honest
    rw [show Exec.step.run (m.prepareBy collects) = Exec.step (m.prepareBy collects) from rfl]
      at hreturns ⊢
    generalize hstep : Exec.step (m.prepareBy collects) = result at hreturns ⊢
    cases result with
    | ok v m₁ => exact hlater.tail (.steps hready hhonest hstep)
    | error e m₁ =>
      have hstuck : e ≠ .stuck := by
        rintro rfl
        exact hreturns .stuck rfl
      have hendless : e ≠ .endless := by
        rintro rfl
        exact hreturns .unfinished rfl
      exact hlater.tail (.fails hready hhonest hstep hstuck hendless)

/-- A loop that returns has gone on by turns. By induction on the fuel. -/
theorem Sane.later_loopBy {p : Policy} (hs : m.Sane)
    (hreturns : (loopBy p fuel budget m).outcome.Returns) :
    m.Later (loopBy p fuel budget m).machine := by
  induction fuel generalizing budget m with
  | zero => exact hreturns.elim
  | succ fuel ih =>
    have hturn := hs.later_turnBy (p fuel m) budget
    unfold loopBy at hreturns ⊢
    generalize m.turnBy (p fuel m) budget = turned at hturn hreturns ⊢
    obtain ⟨_ | outcome, budget', m₁⟩ := turned
    · have hlater : m.Later m₁ := hturn nofun
      exact hlater.trans (ih (hs.later hlater) hreturns)
    · exact hturn fun o ho => Option.some.inj ho ▸ hreturns

end Machine

/-! ## Outcomes -/

/-- **`o.Like β o'`** — the same outcome under other references. -/
inductive Outcome.Like (β : Pairing) : Outcome → Outcome → Prop
  | value {v w : Value} (hv : v.Like β w) : Outcome.Like β (.value v) (.value w)
  | same {o : Outcome} (ho : ∀ v, o ≠ .value v) : Outcome.Like β o o

/-- Like outcomes return both or not at all. -/
theorem Outcome.Like.returns_iff (ho : o.Like β o') : o.Returns ↔ o'.Returns := by
  cases ho <;> rfl

/-- **`r.Like β s`** — runs that executed the same, ended in the same way and left like machines. -/
structure History.Like (β : Pairing) (r s : History) : Prop where
  executed : r.executed = s.executed
  outcome : r.outcome.Like β s.outcome
  machine : r.machine.Like β s.machine

/-- Does the instruction call a builtin that measures the heap? -/
def Executed.measures (e : Executed) : Bool :=
  e.calls.any Builtin.measuresHeap

/-- **`r.Quiet`** — the run does not ask how much the heap holds. -/
def History.Quiet (r : History) : Prop :=
  ∀ e ∈ r.executed, e.measures = false

theorem History.quiet_after {executed : List Executed} {r : History} :
    (r.after executed).Quiet ↔ (∀ e ∈ executed, e.measures = false) ∧ r.Quiet :=
  List.forall_mem_append

namespace Machine

/-- No error is a value. -/
theorem raise_ne_value (hends : (m.raise e).1 = some o) (v : Value) : o ≠ .value v := by
  rintro rfl
  unfold Machine.raise at hends
  split at hends
  · cases hends
  · cases hends
  · cases hends
  · dsimp only at hends
    split at hends
    · cases hends
    · split at hends <;> cases hends

/-! ## Turns of like machines -/

/-- An error ends the run in the same way, or the run goes on. -/
theorem Like.raised (hm : m.Like β n) (e : Fault) : ∃ β',
    Option.Rel (Outcome.Like β') (m.raise e).1 (n.raise e).1 ∧
      (m.raise e).2.Like β' (n.raise e).2 := by
  obtain ⟨hend, β', -, hm'⟩ := hm.raise e
  refine ⟨β', ?_, hm'⟩
  rw [← hend]
  cases hraise : (m.raise e).1 with
  | none => exact .none
  | some o => exact .some (.same (raise_ne_value hraise))

/-- **`Like.prepareBy`** — a collection before an instruction makes no difference. -/
theorem Like.prepareBy (hm : m.Like β n) (hs : m.Sane) (collects : Bool) :
    ∃ β', (m.prepareBy collects).Like β' (n.prepareBy false) := by
  have hquiet : n.prepareBy false = n := by
    unfold Machine.prepareBy
    rw [if_neg Bool.false_ne_true, if_neg (by rw [hm.config.untraced.2]; exact Bool.false_ne_true)]
  have hcollects : ∃ β', (if collects then m.collectGarbage.2 else m).Like β' n := by
    split
    · exact ⟨_, hm.collectGarbage hs.valid⟩
    · exact ⟨β, hm⟩
  obtain ⟨β', hm'⟩ := hcollects
  refine ⟨β', ?_⟩
  rw [hquiet]
  unfold Machine.prepareBy
  dsimp only
  rw [if_neg (by rw [hm'.config.untraced.1]; exact Bool.false_ne_true)]
  exact hm'

theorem Like.mustYield_eq (hm : m.Like β n) : m.mustYield budget = n.mustYield budget := by
  unfold Machine.mustYield
  rw [hm.fiber.isDone_eq, hm.fiber.state]

/-- Which instruction is executed, and whether it measures the heap, is the same on both sides. -/
theorem Like.executedBy_eq (hm : m.Like β n) (hs : m.Sane) (collects : Bool) (budget : Nat) :
    m.executedBy collects budget = n.executedBy false budget := by
  obtain ⟨β', hprepared⟩ := hm.prepareBy hs collects
  unfold Machine.executedBy
  rw [hm.mustYield_eq, hprepared.executed_eq]

/-- **`Like.turnBy`** — a turn of the loop leaves like machines like, whether or not there is a
collection on the left. -/
theorem Like.turnBy (hm : m.Like β n) (hs : m.Sane) (collects : Bool) (budget : Nat)
    (hquiet : ∀ e ∈ m.executedBy collects budget, e.measures = false) :
    (m.turnBy collects budget).2.1 = (n.turnBy false budget).2.1 ∧ ∃ β',
      Option.Rel (Outcome.Like β') (m.turnBy collects budget).1 (n.turnBy false budget).1 ∧
        (m.turnBy collects budget).2.2.Like β' (n.turnBy false budget).2.2 := by
  unfold Machine.executedBy at hquiet
  unfold Machine.turnBy
  rw [← hm.mustYield_eq]
  by_cases hyield : m.mustYield budget = true
  · rw [if_pos hyield, if_pos hyield]
    -- the scheduler has its turn, and finds the same on both sides
    obtain ⟨hturn, hm₁⟩ := hm.schedule
    generalize m.schedule = found, n.schedule = found' at hturn hm₁ ⊢
    obtain ⟨turn, m₁⟩ := found
    obtain ⟨turn', n₁⟩ := found'
    obtain rfl : turn = turn' := hturn
    cases turn with
    | run => exact ⟨rfl, β, .none, hm₁⟩
    | finished =>
      have hresult : (m₁.mainResult.getD .none).Like β (n₁.mainResult.getD .none) :=
        hm₁.mainResult.getD .none
      exact ⟨rfl, β, .some (.value hresult), { hm₁ with mainResult := .none }⟩
    | deadlock => exact ⟨rfl, hm₁.raised .deadlock⟩
  · rw [if_neg hyield] at hquiet
    rw [if_neg hyield, if_neg hyield]
    -- a collection narrows the pairing, and the instruction is compared under what is left
    obtain ⟨β₁, hprepared⟩ := hm.prepareBy hs collects
    have hcalls : ∀ b, (m.prepareBy collects).calls? = some b → b.measuresHeap = false := by
      intro b hb
      have hmeasures := hquiet _ List.mem_cons_self
      unfold Executed.measures Machine.executed at hmeasures
      rwa [hb] at hmeasures
    have hagree := Exec.step_agree hprepared hcalls
    change Exec.Agree Exec.Done β₁ (Exec.step.run (m.prepareBy collects))
      (Exec.step.run (n.prepareBy false)) at hagree
    generalize Exec.step.run (m.prepareBy collects) = result,
      Exec.step.run (n.prepareBy false) = result' at hagree ⊢
    cases hagree with
    | ok _ hm₁ _ => exact ⟨rfl, _, .none, hm₁⟩
    | error _ hm₁ => exact ⟨rfl, hm₁.raised _⟩

/-! ## Runs of like machines -/

/-- **`Like.loopBy`** — whenever there are collections, the loop does the same as without them. -/
theorem Like.loopBy (hm : m.Like β n) (hs : m.Sane) (p : Policy)
    (hquiet : (loopBy p fuel budget m).Quiet ∨ (loopBy .never fuel budget n).Quiet) :
    ∃ β', (loopBy p fuel budget m).Like β' (loopBy .never fuel budget n) := by
  induction fuel generalizing β budget m n with
  | zero => exact ⟨β, rfl, .same nofun, hm⟩
  | succ fuel ih =>
    have hexecuted := hm.executedBy_eq hs (p fuel m) budget
    have hturn := hm.turnBy hs (p fuel m) budget
    have hlater := hs.later_turnBy (p fuel m) budget
    -- both runs execute this turn alike, so either one tells that it measures nothing
    have hnow : ∀ e ∈ m.executedBy (p fuel m) budget, e.measures = false := by
      rcases hquiet with hquiet | hquiet
      · exact fun e he => hquiet e (executedBy_subset p fuel budget m he)
      · exact fun e he => hquiet e (executedBy_subset .never fuel budget n (hexecuted ▸ he))
    obtain ⟨hbudget, β₁, hend, hm₁⟩ := hturn hnow
    unfold Machine.loopBy at hquiet ⊢
    rw [show Policy.never fuel n = false from rfl, ← hexecuted] at hquiet ⊢
    generalize m.executedBy (p fuel m) budget = executed at hquiet ⊢
    generalize m.turnBy (p fuel m) budget = turned, n.turnBy false budget = turned' at *
    obtain ⟨end₁, budget₁, m₁⟩ := turned
    obtain ⟨end₂, budget₂, n₁⟩ := turned'
    obtain rfl : budget₁ = budget₂ := hbudget
    cases hend with
    | some ho => exact ⟨β₁, rfl, ho, hm₁⟩
    | none =>
      dsimp only at hquiet ⊢
      rw [History.quiet_after, History.quiet_after] at hquiet
      obtain ⟨β₂, hrun⟩ := ih hm₁ (hs.later (hlater nofun)) (hquiet.imp And.right And.right)
      exact ⟨β₂, congrArg (executed ++ ·) hrun.executed, hrun.outcome, hrun.machine⟩

/-- **`Like.interpretBy`** — whenever there are collections, a run of a source text does the same as
without them. -/
theorem Like.interpretBy (hm : m.Like β n) (hs : m.Sane) (p : Policy)
    (hquiet : (interpretBy p fuel m source path).Quiet ∨
      (interpretBy .never fuel n source path).Quiet) :
    ∃ β', (interpretBy p fuel m source path).Like β' (interpretBy .never fuel n source path) := by
  obtain ⟨β₁, hβ₁, hresult, hh₁⟩ := compile_like hm.heap source path
  have hm₁ := hm.grow hβ₁ hh₁ fun r ⟨o, ho, hkind⟩ =>
    ⟨o, (hm.heap.left.tidy.compile source path).1 r o ho, hkind⟩
  have hloads : ∀ {script h}, compile m.heap source path = (.ok script, h) →
      m.Later ({ m with heap := h }.load script path) := fun hcompile => .single (.loads hcompile)
  unfold Machine.interpretBy at hquiet ⊢
  generalize compile m.heap source path = compiled, compile n.heap source path = compiled' at *
  obtain ⟨result, h⟩ := compiled
  obtain ⟨result', h'⟩ := compiled'
  dsimp only at hresult hm₁
  cases hresult with
  | error errors => exact ⟨β₁, rfl, .same nofun, hm₁⟩
  | ok hr =>
    obtain ⟨β₂, hm₂⟩ := hm₁.load hr path
    exact hm₂.loopBy (hs.later (hloads rfl)) p hquiet

/-- A run that returns leaves a later machine: the text is compiled and loaded, and the loop goes on
from there. -/
theorem Sane.later_interpretBy (hs : m.Sane) (p : Policy) (fuel : Nat) (source path : String)
    (hreturns : (interpretBy p fuel m source path).outcome.Returns) :
    m.Later (interpretBy p fuel m source path).machine := by
  unfold interpretBy at hreturns ⊢
  have hcompiles : m.Later { m with heap := (compile m.heap source path).2 } :=
    .single (.compiles m source path)
  cases hcompile : compile m.heap source path with
  | mk result h =>
    rw [hcompile] at hcompiles hreturns
    cases result with
    | error errors => exact hcompiles
    | ok script =>
      have hloads : m.Later ({ m with heap := h }.load script path) := .single (.loads hcompile)
      exact hloads.trans ((hs.later hloads).later_loopBy hreturns)

end Machine

/-! ## Reports -/

/-- How a run ended, as it is shown: a value by its text and type, an error as it is. -/
inductive Verdict where
  | value (text typeName : String)
  | compileErrors (errors : Array CompileError)
  | runtimeError (e : RuntimeError)
  | stuck
  | unfinished
deriving Repr, DecidableEq

/-- **`o.verdict h`** — the outcome as it is shown. -/
def Outcome.verdict (h : Heap) : Outcome → Verdict
  | .value v => .value (h.display v) (h.typeName v)
  | .compileErrors errors => .compileErrors errors
  | .runtimeError e => .runtimeError e
  | .stuck => .stuck
  | .unfinished => .unfinished

/-- What is shown of an outcome is the same text. -/
theorem Outcome.Like.verdict_eq (ho : o.Like β o') (hh : h.Like β h') : o.verdict h = o'.verdict h' := by
  cases ho with
  | value hv => exact congrArg₂ Verdict.value (hh.display_eq hv) (hh.typeName_eq hv)
  | same ho =>
    cases o with
    | value v => exact (ho v rfl).elim
    | _ => rfl

/-- **`Report`** — what is seen of a run: the instructions that were executed, how it ended, and all
that was written so far. -/
structure Report where
  executed : List Executed
  verdict : Verdict
  stdout : String
  stderr : String
deriving Repr, DecidableEq

/-- **`r.Quiet`** — nothing is seen that asks how much the heap holds. -/
def Report.Quiet (r : Report) : Prop :=
  ∀ e ∈ r.executed, e.measures = false

instance : DecidablePred Report.Quiet := fun r =>
  inferInstanceAs (Decidable (∀ e ∈ r.executed, e.measures = false))

/-- What is seen of the run. -/
def History.report (r : History) : Report :=
  ⟨r.executed, r.outcome.verdict r.machine.heap, r.machine.stdout, r.machine.stderr⟩

theorem History.Like.report_eq {r s : History} (h : r.Like β s) : r.report = s.report := by
  unfold History.report
  rw [h.executed, h.outcome.verdict_eq h.machine.heap, h.machine.stdout, h.machine.stderr]

namespace Machine

/-- **`reports p fuel texts m`** — what is seen of the runs of some texts, one after the other, as long
as each comes to its end. `p` has a policy for every run, by how many texts are left. -/
def reports (p : Nat → Policy) (fuel : Nat) : List (String × String) → Machine → List Report
  | [], _ => []
  | (source, path) :: rest, m =>
    let run := m.interpretBy (p rest.length) fuel source path
    run.report :: if run.outcome.Returns then reports p fuel rest run.machine else []

/-- **`Like.reports_eq`** — whenever there are collections, the same is seen as without them. -/
theorem Like.reports_eq (p : Nat → Policy) {texts : List (String × String)} (hm : m.Like β n)
    (hs : m.Sane)
    (hquiet : (∀ r ∈ reports p fuel texts m, r.Quiet) ∨
      ∀ r ∈ reports (fun _ => .never) fuel texts n, r.Quiet) :
    reports p fuel texts m = reports (fun _ => .never) fuel texts n := by
  induction texts generalizing β m n with
  | nil => rfl
  | cons text rest ih =>
    obtain ⟨source, path⟩ := text
    have hlater := hs.later_interpretBy (p rest.length) fuel source path
    unfold Machine.reports at hquiet ⊢
    simp only [List.forall_mem_cons] at hquiet
    obtain ⟨β₁, hrun⟩ := hm.interpretBy hs (p rest.length) (hquiet.imp And.left And.left)
    generalize m.interpretBy (p rest.length) fuel source path = run,
      n.interpretBy .never fuel source path = run' at hlater hquiet hrun ⊢
    dsimp only at hquiet ⊢
    rw [hrun.report_eq]
    by_cases hreturns : run.outcome.Returns
    · have hreturns' := hrun.outcome.returns_iff.mp hreturns
      rw [if_pos hreturns, if_pos hreturns'] at hquiet ⊢
      exact congrArg _ (ih hrun.machine (hs.later (hlater hreturns)) (hquiet.imp And.right And.right))
    · rw [if_neg hreturns, if_neg (mt hrun.outcome.returns_iff.mpr hreturns)]

/-- **`collections_unobservable`** — whatever texts a new machine runs, it cannot be seen when garbage
was collected: under any two policies, and with any thresholds, the same instructions are executed in
the same tasks, on stacks that show the same values, the same is written, and every text ends with the
same value or error. All that the texts must not do is to call a builtin that measures the heap. Among
these runs are those of `interpret`, under the policy of the loop itself. -/
theorem collections_unobservable {config config' : Config} (hconfig : config.Like config')
    (files : Files) (args : List String) (p q : Nat → Policy) (fuel : Nat)
    (texts : List (String × String))
    (hquiet : ∀ r ∈ reports p fuel texts ((new config files).loadArgs args), r.Quiet) :
    reports p fuel texts ((new config files).loadArgs args) =
        reports q fuel texts ((new config' files).loadArgs args) ∧
      ∀ m source path, interpret fuel m source path =
        ((interpretBy .automatic fuel m source path).outcome,
          (interpretBy .automatic fuel m source path).machine) := by
  -- both runs do the same as the one on the right without collections
  have hself : config'.Like config' :=
    ⟨rfl, rfl, ⟨hconfig.untraced.2, hconfig.untraced.2⟩, hconfig.unlogged.2, hconfig.unlogged.2⟩
  have hsane : ∀ config, ((new config files).loadArgs args).Sane := fun config =>
    (sane_new config files).later (.single (.outside _ _ args _ _ _ _ _ _))
  obtain ⟨β₁, hm₁⟩ := like_new hconfig files
  obtain ⟨β₂, hm₂⟩ := like_new hself files
  have hleft := (hm₁.loadArgs args).reports_eq p (hsane config) (.inl hquiet)
  rw [hleft] at hquiet
  have hright := (hm₂.loadArgs args).reports_eq q (hsane config') (.inr hquiet)
  exact ⟨hleft.trans hright.symm, fun m source path => interpret_eq fuel m source path⟩

/-- Lists and strings that are garbage at once, with collections when they are due and always. -/
theorem collections_unobservable_garbage :
    let texts := [("[1]; [2]; 'a' + 'b';", "first"), ("return [3];", "second")]
    (∀ r ∈ reports (fun _ => .automatic) 40 texts ((new {} default).loadArgs ["c"]), r.Quiet) ∧
      reports (fun _ => .automatic) 40 texts ((new {} default).loadArgs ["c"]) =
        reports (fun _ _ _ => true) 40 texts
          ((new { heap := { threshold := 0, growth := 0 } } default).loadArgs ["c"]) := by
  intro texts
  have hquiet : ∀ r ∈ reports (fun _ => .automatic) 40 texts ((new {} default).loadArgs ["c"]),
      r.Quiet := by
    decide +kernel
  have hconfig : ({} : Config).Like { heap := { threshold := 0, growth := 0 } } :=
    ⟨rfl, rfl, ⟨rfl, rfl⟩, rfl, rfl⟩
  exact ⟨hquiet, (collections_unobservable hconfig default ["c"] _ (fun _ _ _ => true) 40 texts
    hquiet).1⟩

end Machine

end ScriptMachine
