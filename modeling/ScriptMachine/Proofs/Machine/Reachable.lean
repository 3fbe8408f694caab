import Mathlib
import ScriptMachine.Proofs.Machine.Execution
import ScriptMachine.Proofs.Machine.Starting

/-!
# ScriptMachine.Proofs.Machine.Reachable — everything that can happen to a machine

A machine *goes on* in small steps: an instruction is executed, an error is routed, a task gets its
turn, garbage is collected, a script is compiled and loaded, a global is defined. `Reachable` machines
are those that a new machine can become in this way, with native functions defined in between. Every
reachable machine is valid, and every step keeps to the law.

A run is one way among many to put these steps together: a step may be taken wherever it makes sense,
so what holds of reachable machines holds whenever collections are due, however long things take and
whoever gets a turn.

The step lemma is `Valid.goes`, with a case for each way to go on, and `Reachable.valid` and `Valid.later`
are the inductions that the statements of the last modules start from. Steps that leave the machine
stuck, or that never end, are no way to go on: a history ends before them. `Modest` is what is assumed of
host functions, and a new machine has none.
-/

namespace ScriptMachine

open Relation

variable {m m' m'' : Machine} {h h' : Heap} {wrote : Ref → Prop} {config : Config} {files : Files}

/-! ## Laws -/

/-- Moving on keeps to the law, whatever was done before. -/
theorem Law.moves (hlaw : Law wrote m m') (hc : m'.Consistent)
    (hm : Moves (fun _ => False) m' m'') : Law wrote m m'' where
  lastTask := Nat.le_trans hlaw.lastTask hm.lastTask
  abides := hlaw.abides.trans hm.abides
  tasks := hlaw.tasks.trans hm.tasks hlaw.lastTask
  values r v hr hw u hu := by
    obtain ⟨u', hu', -⟩ := hm.carried.back r u hu
    exact hm.carried.reads hc.cells hc.tasks.id_inj (hlaw.values r v hr hw u' hu') id hu

/-! ## Host functions -/

namespace Heap

/-- **`h.Modest`** — a host function answers with one of its arguments or with no reference at all. -/
def Modest (h : Heap) : Prop :=
  ∀ r n f, h.native? r = some n → n.body = .host f →
    ∀ render args v, f render args = .ok v → v ∈ args ∨ ∀ r, v ≠ .obj r

theorem Modest.honest (hh : h.Modest) : h.Honest := by
  intro r n f hn hf render args v hv
  exact (hh r n f hn hf render args v hv).imp id fun hplain r' heq => (hplain r' heq).elim

theorem Abides.modest (ha : h.Abides h') (hh : h.Modest) : h'.Modest :=
  fun r n f hn => hh r n f (ha.natives r n hn)

end Heap

/-! ## Steps -/

namespace Machine

/-- **`m.Goes m'`** — one thing happens to the machine. -/
inductive Goes : Machine → Machine → Prop
  | steps {m m' : Machine} {v : Unit} (hready : m.Ready) (hhonest : m.heap.Honest)
      (hstep : Exec.step m = .ok v m') : Goes m m'
  | fails {m m' : Machine} {e : Fault} (hready : m.Ready) (hhonest : m.heap.Honest)
      (hstep : Exec.step m = .error e m') (hstuck : e ≠ .stuck) (hendless : e ≠ .endless) :
      Goes m (m'.raise e).2
  | turns {m m' : Machine} {turn : Turn} (hturn : Schedules m turn m') (hlive : turn ≠ .deadlock) :
      Goes m m'
  | deadlocks {m m' : Machine} (hturn : Schedules m .deadlock m') : Goes m (m'.raise .deadlock).2
  | collects (m : Machine) : Goes m m.collectGarbage.2
  | ends (m : Machine) : Goes m m.takeResult.2
  | interns (m : Machine) (text : String) : Goes m { m with heap := (m.heap.intern text).2 }
  | compiles (m : Machine) (source path : String) :
      Goes m { m with heap := (compile m.heap source path).2 }
  | loads {m : Machine} {source path : String} {script : Ref} {h : Heap}
      (hcompile : compile m.heap source path = (.ok script, h)) :
      Goes m ({ m with heap := h }.load script path)
  | defines {m : Machine} {v : Value} (name : String) (hv : m.heap.Live v) :
      Goes m (m.defineGlobal name v)
  | outside (m : Machine) (config : Config) (scriptArgs : List String) (clock : Nat) (seed : UInt64)
      (files : Files) (loads : List String) (stdout stderr : String) :
      Goes m { m with config, scriptArgs, clock, seed, files, loads, stdout, stderr }

/-- **`m.Assigns m' r`** — the step is an assignment of the variable whose cell is `r`. -/
def Assigns (m m' : Machine) (r : Ref) : Prop :=
  m.Writes r ∧ Exec.step m = .ok () m'

namespace Valid

variable (hv : m.Valid)
include hv

/-- Ending a run takes the result, and moves nothing. -/
theorem ends : m.takeResult.2.Valid ∧ Moves wrote m m.takeResult.2 := by
  obtain ⟨hc, hmoves⟩ : _ ∧ Moves wrote _ _ := hv.toConsistent.withoutMainResult
  exact ⟨⟨hc, hv.running⟩, hmoves⟩

/-- What the host may change between steps, or while a script runs, is no part of what is kept. -/
theorem outside (config : Config) (scriptArgs : List String) (clock : Nat) (seed : UInt64)
    (files : Files) (loads : List String) (stdout stderr : String) :
    let m' := { m with config, scriptArgs, clock, seed, files, loads, stdout, stderr }
    m'.Valid ∧ Moves wrote m m' := by
  have hs := hv.sound
  exact ⟨⟨⟨⟨hs.heap, hs.globals, hs.extensions, hs.fiber, hs.queue, hs.names, hs.mainHandle,
    hs.mainResult⟩, hv.waiting, hv.cells, hv.tasks⟩, hv.running⟩,
    Nat.le_refl _, .refl _, .of_calm fun _ _ hr => hr, .refl hv.cells⟩

/-- **`goes`** — a valid machine goes on to be valid, and keeps to the law. -/
theorem goes (hgoes : m.Goes m') : m'.Valid ∧ Law (m.Assigns m') m m' := by
  -- what moves on assigns nothing
  have hmoves : ∀ {m₁ : Machine}, m₁.Valid ∧ Moves (fun _ => False) m m₁ →
      m₁.Valid ∧ Law (m.Assigns m₁) m m₁ := fun hm =>
    ⟨hm.1, (hv.toConsistent.law hm.2).mono fun _ => False.elim⟩
  cases hgoes with
  | steps hready hhonest hstep =>
    have hmeets := hv.step hready hhonest
    unfold Exec.Meets at hmeets
    rw [hstep] at hmeets
    obtain ⟨hvalid, hlaw⟩ := hmeets
    refine ⟨hvalid, hlaw.lastTask, hlaw.abides, hlaw.tasks, fun r v hr hw => ?_⟩
    exact hlaw.values r v hr fun h => hw ⟨h, hstep⟩
  | @fails m₁ e hready hhonest hstep hstuck hendless =>
    have hmeets := hv.step hready hhonest
    unfold Exec.Meets at hmeets
    rw [hstep] at hmeets
    obtain ⟨heq, -⟩ | ⟨-, hfaulting, hlaw⟩ := hmeets
    · exact (hstuck heq).elim
    obtain ⟨hvalid, hraise⟩ : _ ∧ Moves (fun _ => False) _ _ := hfaulting.raise hstuck hendless
    exact ⟨hvalid, (hlaw.moves hfaulting.toConsistent hraise).mono fun _ => False.elim⟩
  | turns hturn hlive => exact hmoves (hturn.valid hv hlive)
  | deadlocks hturn =>
    obtain ⟨hfaulting, hm₁⟩ : _ ∧ Moves (fun _ => False) _ _ := hturn.faulting hv
    obtain ⟨hvalid, hm₂⟩ : _ ∧ Moves (fun _ => False) _ _ :=
      hfaulting.raise (e := .deadlock) nofun nofun
    exact hmoves ⟨hvalid, hm₁.trans hm₂⟩
  | collects => exact hmoves hv.collectGarbage
  | ends => exact hmoves hv.ends
  | interns text =>
    obtain ⟨hh, hstill, -⟩ := hv.sound.heap.interned text
    exact hmoves (hv.still hh hstill)
  | compiles source path =>
    obtain ⟨hh, hstill⟩ := healthy_compile hv.sound.heap source path
    exact hmoves (hv.still hh hstill)
  | loads hcompile => exact hmoves (hv.loading hcompile)
  | defines name hlive => exact hmoves (hv.defining name hlive)
  | outside => exact hmoves (hv.outside ..)

end Valid

/-! ## Histories -/

/-- **`m.Later m'`** — `m'` is a later state of the machine `m`. -/
def Later : Machine → Machine → Prop :=
  ReflTransGen Goes

/-- **`Reachable m`** — what a new machine can become. -/
inductive Reachable : Machine → Prop
  | new (config : Config) (files : Files) : Reachable (new config files)
  | goes {m m' : Machine} (hm : Reachable m) (hgoes : m.Goes m') : Reachable m'
  | native {m : Machine} (hm : Reachable m) (name : String) (body : NativeBody) :
      Reachable (m.defineNative name body)

/-- **`Reachable.valid`** — every reachable machine is valid. -/
theorem Reachable.valid (hm : m.Reachable) : m.Valid := by
  induction hm with
  | new config files => exact valid_new config files
  | goes _ hgoes ih => exact (ih.goes hgoes).1
  | native _ name body ih => exact ih.definingNative name body

/-- **`Reachable.balances`** — whatever is executed and however it got there, the stack of every task is
as high as the code of its activations says. -/
theorem Reachable.balances (hm : m.Reachable) :
    ∀ t ∈ m.fibers, m.heap.Balances t.frames t.stack.size :=
  hm.valid.balances

/-- What a reachable machine comes to is reachable. -/
theorem Reachable.later (hm : m.Reachable) (hlater : m.Later m') : m'.Reachable := by
  induction hlater with
  | refl => exact hm
  | tail _ hgoes ih => exact ih.goes hgoes

/-- **`Valid.later`** — what the law says of each step is so of a whole history. -/
theorem Valid.later (hv : m.Valid) (hlater : m.Later m') :
    m'.Valid ∧ m.lastTask ≤ m'.lastTask ∧ m.heap.Abides m'.heap ∧
      m.heap.Succeeds m.lastTask m'.heap := by
  induction hlater with
  | refl => exact ⟨hv, Nat.le_refl _, .refl _, .of_calm fun _ _ hr => hr⟩
  | tail _ hgoes ih =>
    obtain ⟨hvalid, hle, habides, hsucceeds⟩ := ih
    obtain ⟨hvalid', hlaw⟩ := hvalid.goes hgoes
    exact ⟨hvalid', Nat.le_trans hle hlaw.lastTask, habides.trans hlaw.abides,
      hsucceeds.trans hlaw.tasks hle⟩

/-- **`Valid.honest_later`** — modest host functions never invent a reference. -/
theorem Valid.honest_later (hv : m.Valid) (hmodest : m.heap.Modest) :
    ∀ m', m.Later m' → m'.heap.Honest :=
  fun _ hlater => ((hv.later hlater).2.2.1.modest hmodest).honest

/-! ### New machines -/

/-- A native is a small object. -/
theorem modest_defineNative (hv : m.Valid) (hmodest : m.heap.Modest) (name : String) (b : Builtin) :
    (m.defineNative name (.builtin b)).heap.Modest := by
  have htidy := hv.toConsistent.heap_sound.tidy
  have hstill := (hv.toConsistent.makingNative ⟨name, .builtin b⟩).heap_sound.tidy.still_intern name
  intro r n f hn hf
  rw [heap_defineNative, hstill.natives, Heap.native?_eq_some, htidy.get?_alloc] at hn
  split at hn
  · obtain rfl := Obj.native.inj (Option.some.inj hn)
    cases hf
  · exact hmodest r n f (Heap.native?_eq_some.mpr hn) hf

/-- **`modest_new`** — the native functions of a new machine are builtins. -/
theorem modest_new (config : Config) (files : Files) : (new config files).heap.Modest := by
  have hbare : (bare config files).heap.Modest := by
    refine (valid_bare config files).2.modest fun r n f hn => ?_
    simp [Heap.new, Heap.native?, Heap.get?] at hn
  unfold new
  suffices hboth : ∀ bs : List (String × Builtin), ∀ m : Machine, m.Valid → m.heap.Modest →
      (bs.foldl (fun m b => m.defineNative b.1 (.builtin b.2)) m).heap.Modest from
    hboth _ _ (valid_bare config files).1 hbare
  intro bs
  induction bs with
  | nil => exact fun _ _ hmodest => hmodest
  | cons b bs ih =>
    exact fun m hv hmodest => ih _ (hv.definingNative b.1 _) (modest_defineNative hv hmodest b.1 b.2)

end Machine

end ScriptMachine
