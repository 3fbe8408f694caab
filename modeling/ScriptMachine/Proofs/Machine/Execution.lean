import Mathlib
import ScriptMachine.Proofs.Machine.Assignment
import ScriptMachine.Proofs.Machine.Turns

/-!
# ScriptMachine.Proofs.Machine.Execution — one instruction

Every instruction takes a valid machine to a valid one or fails, and when it fails its error can be
raised. The cells an instruction writes are those it names; all others keep their values.

Two instructions change a class or an enumeration that a variable names: the one that makes it a
subclass and the one that defines a member. Another task can have assigned the variable, and when they
find something else there they get stuck. So does the one that starts a task, when all ids have been
given. Nothing else ever does.

Two statements sum the module up. `Valid.step` is the step lemma that every history rests on. It says
that validity is kept and which cells may change, and leaves to the statements about single instructions
what the values are. `Valid.balances` reads off a valid machine how high the stack is: the heights that
the code was shown to have when it was compiled are those that the machine has, for the activation that
runs and for all that wait.
-/

namespace ScriptMachine

variable {m m' : Machine} {a : Activation} {rest : List Activation} {q : Placed}
  {wrote : Ref → Prop}

namespace Machine

/-- **`m.Next i`** — `i` is the instruction that the running fiber is about to execute. -/
def Next (m : Machine) (i : Instruction) : Prop :=
  ∃ f rest, m.fiber.frames = f :: rest ∧ f.chunk.instruction? m.heap f.ip = some i

/-- The instruction that the running fiber is about to execute. -/
def next? (m : Machine) : Option Instruction :=
  m.fiber.frames.head?.bind fun f => f.chunk.instruction? m.heap f.ip

/-- There is one next instruction, and it can be computed. -/
theorem next_iff {i : Instruction} : m.Next i ↔ m.next? = some i := by
  unfold Next next?
  constructor
  · rintro ⟨f, rest, hframes, hi⟩
    rw [hframes]
    exact hi
  · intro hi
    obtain ⟨f, hf, hi⟩ := Option.bind_eq_some_iff.mp hi
    obtain ⟨rest, hframes⟩ := List.head?_eq_some_iff.mp hf
    exact ⟨f, rest, hframes, hi⟩

/-- **`m.Writes r`** — the next instruction assigns the variable whose cell is `r`. -/
def Writes (m : Machine) (r : Ref) : Prop :=
  ∃ f rest i, m.fiber.frames = f :: rest ∧ f.chunk.instruction? m.heap f.ip = some i ∧
    (i.op = .setLocal ∧ (f.base + i.first, r) ∈ m.fiber.openUpvalues ∨
      i.op = .setUpvalue ∧ ∃ c, m.heap.closure? f.closure = some c ∧ c.upvalues[i.first]? = some r)

end Machine

theorem Machine.Completes.mono {wrote' : Ref → Prop} {x : Exec Unit} {m₁ : Machine}
    (h : m.Completes q wrote x m₁) (hw : ∀ r, wrote r → wrote' r) : m.Completes q wrote' x m₁ :=
  Exec.Meets.mono h (fun _ _ hm => ⟨hm.1, hm.2.mono hw⟩) fun _ _ he => he

namespace Stepping

variable (hs : Stepping m a rest q)
include hs

theorem next : m.Next q.instr := by
  refine ⟨a.frame, rest.map Activation.frame, hs.poised.frames, ?_⟩
  rw [hs.poised.ip]
  exact hs.poised.sound.instruction? hs.poised.mem

theorem next_inj {i : Instruction} (hi : m.Next i) : i = q.instr := by
  obtain ⟨f, frames, hframes, hf⟩ := hi
  obtain ⟨g, frames', hframes', hg⟩ := hs.next
  obtain ⟨rfl, rfl⟩ := List.cons.inj (hframes.symm.trans hframes')
  exact Option.some.inj (hf.symm.trans hg)

theorem closure (hop : q.instr.op = .closure) :
    m.Completes q wrote (Exec.execute q.instr) (inside m a rest q) := by
  obtain ⟨r, rs, m₁, -, -, -, -, hexec, hvalid, (hlaw : Law wrote _ _)⟩ := hs.makes hop
  exact .of_ok hexec ⟨hvalid, hlaw⟩

/-- **`execute`** — what an instruction does, whichever it is. -/
theorem execute : m.Completes q m.Writes (Exec.execute q.instr) (inside m a rest q) := by
  obtain ⟨f, frames, hframes, hnext⟩ := hs.next
  obtain ⟨rfl, -⟩ := List.cons.inj (hframes.symm.trans hs.poised.frames)
  cases hop : q.instr.op with
  | setLocal =>
    exact (hs.setLocal hop).mono fun r hr =>
      ⟨_, frames, q.instr, hframes, hnext, .inl ⟨hop, hr⟩⟩
  | setUpvalue =>
    exact (hs.setUpvalue hop).mono fun r hr =>
      ⟨_, frames, q.instr, hframes, hnext, .inr ⟨hop, hr⟩⟩
  | jump => exact hs.jump hop
  | jumpIfFalse => exact hs.jumpIfFalse hop
  | loop => exact hs.loop hop
  | closure => exact hs.closure hop
  | closeUpvalue => exact hs.closeUpvalue hop
  | ret => exact hs.ret hop
  | spawn => exact hs.spawn hop
  | awaitTask => exact hs.awaitTask hop
  | abortTask => exact hs.abortTask hop
  | tryBegin => exact hs.tryBegin hop
  | tryEnd => exact hs.tryEnd hop
  | pop => exact hs.pop hop
  | _ => exact hs.plain (by rw [hop]; rfl)

end Stepping

namespace Machine

/-- **`m.Ready`** — the running fiber can execute an instruction. -/
structure Ready (m : Machine) : Prop where
  live : m.fiber.isDone = false
  ready : m.fiber.state = .ready

/-- A valid machine that is ready stands at an instruction of some listing. -/
theorem Valid.stepping (hv : m.Valid) (hready : m.Ready) (hhonest : m.heap.Honest) :
    ∃ a rest q, Stepping m a rest q := by
  obtain ⟨a, rest, q, hpoised⟩ := hv.alive_of_live hready.live
  exact ⟨a, rest, q, hv.toConsistent, hpoised, hready.ready, hhonest⟩

/-- **`Valid.step`** — a valid machine is valid after an instruction; an instruction that fails leaves
it able to raise the error. -/
theorem Valid.step (hv : m.Valid) (hready : m.Ready) (hhonest : m.heap.Honest) :
    Exec.step.Meets m (fun _ m' => m'.Valid ∧ Law m.Writes m m') fun e m' =>
      e = .stuck ∧ (∃ i, m.Next i ∧ m.Misfit i.op) ∨
        e ≠ .stuck ∧ m'.Faulting ∧ Law (fun _ => False) m m' := by
  obtain ⟨a, rest, q, hs⟩ := hv.stepping hready hhonest
  have hexec := hs.execute
  unfold Completes Exec.Meets at hexec
  unfold Exec.Meets
  rw [Exec.step_eq hs.poised]
  revert hexec
  cases Exec.execute q.instr (m.past a.frame (rest.map Activation.frame) q.instr) with
  | ok v m' => exact id
  | error e m' => exact Or.imp_left fun ⟨he, hop⟩ => ⟨he, q.instr, hs.next, hop⟩

end Machine

/-! ## The height of the stack

An activation that waits has its part of the stack up to where the one above it starts. It stands behind
the instruction that has entered that one, so the values that are still to be left count as well. -/

namespace Heap

variable {h : Heap} {f : Frame} {top : Nat}

/-- **`h.HasHeight f top`** — the part of the stack from the base of the activation to `top` is as high as
the code of the activation says of the place where it stands. -/
def HasHeight (h : Heap) (f : Frame) (top : Nat) : Prop :=
  ∃ c p statements height n, h.closure? f.closure = some c ∧ h.prototype? c.prototype = some p ∧
    f.chunk = p.chunk ∧ p.Balanced h statements height ∧ height f.ip = some n ∧ top = f.base + n

/-- **`h.Balances frames top`** — so it is for all activations of a fiber, the innermost first. -/
def Balances (h : Heap) : List Frame → (top : Nat) → Prop
  | [], _ => True
  | f :: frames, top => h.HasHeight f top ∧ h.Balances frames (f.base + f.kind.results)

/-- However control can have come to where the activation stands, the height is the same. -/
theorem HasHeight.arrives {c : Closure} {p : Prototype} {n : Nat} (hm : h.HasHeight f top)
    (hc : h.closure? f.closure = some c) (hp : h.prototype? c.prototype = some p)
    (ha : p.Arrives h f.ip n) : top = f.base + n := by
  obtain ⟨c', p', statements, height, n', hc', hp', -, hbalanced, hheight, rfl⟩ := hm
  obtain rfl := Option.some.inj (hc.symm.trans hc')
  obtain rfl := Option.some.inj (hp.symm.trans hp')
  rw [Option.some.inj ((hbalanced.arrives ha).symm.trans hheight)]

end Heap

section Heights

variable {h : Heap} {t : Fiber} {opens : Nat → Prop} {stack : Array Value} {top results depth : Nat}

/-- An activation in a situation of its listing has the height of it. -/
theorem Activation.Sound.hasHeight {s : Situation} (ha : a.Sound h depth)
    (hs : Reaches a.listing s (.direct a.frame.ip)) :
    h.HasHeight a.frame (a.frame.base + s.height) := by
  obtain ⟨c, hc, hp⟩ := ha.closure
  obtain ⟨statements, hbalanced⟩ := ha.lists.balanced
  obtain ⟨r, hr, hoffset, hflows⟩ := hs
  refine ⟨c, a.function, statements, _, s.height, hc, hp, ha.chunk, hbalanced, ?_, rfl⟩
  exact (heightIn_eq_some ha.contiguous).mpr ⟨r, hr, hoffset, hflows.height.symm⟩

/-- The induction is on how many activations wait. -/
theorem Waiting.balances (hw : Waiting h opens stack rest top results) :
    h.Balances (rest.map Activation.frame) (top + results) := by
  induction hw with
  | bottom => trivial
  | @call b rest top results r sound mem situation ip plain makes leaves height shared holds _ ih =>
    refine ⟨?_, ih⟩
    have hfalls : r.instr.op.falls = true := by
      revert plain
      cases r.instr.op <;> decide
    have hheight₀ := sound.hasHeight (ip ▸ sound.exits mem (.fall hfalls))
    have hheight : (r.situation.next r.offset r.instr).height =
        b.situation.height - r.instr.effect.takes + results := by
      rw [← situation, ← leaves]
      rfl
    rwa [hheight, ← Nat.add_assoc, ← height] at hheight₀

/-- The stack of a task is as high as its innermost activation's situation says. -/
theorem Fiber.Alive.balances (ht : t.Alive h) : h.Balances t.frames t.stack.size := by
  obtain ⟨a, rest, q, hp⟩ := ht
  rw [hp.frames, hp.size]
  refine ⟨hp.sound.hasHeight ⟨q, hp.mem, hp.ip.symm, ?_⟩, hp.waiting.balances⟩
  rw [hp.situation]
  exact .refl _

/-- **`Valid.balances`** — all activations of all tasks have the heights that their code says. -/
theorem Machine.Valid.balances (hv : m.Valid) :
    ∀ t ∈ m.fibers, m.heap.Balances t.frames t.stack.size := by
  intro t ht
  rcases List.mem_cons.mp ht with rfl | hqueue
  · rcases hv.running with hspent | halive
    · rw [hspent.frames]
      trivial
    · exact halive.balances
  · exact (hv.waiting t hqueue).balances

end Heights

end ScriptMachine
