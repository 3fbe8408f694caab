import Mathlib
import ScriptMachine.Proofs.Machine.Bodies
import ScriptMachine.Proofs.Machine.Closures
import ScriptMachine.Proofs.Machine.Histories

/-!
# ScriptMachine.Proofs.Machine.Lifetimes — a captured variable has one cell for as long as it lives

A variable lives from where it is declared to the end of its scope. While it does, the activation that
declares it has its slot on the stack, and where that activation goes on the slot is that of a local
in scope. The slot may be used again, in the next turn of a loop or by another activation, but then
there was a moment between when no variable was in it; the only exception is the variable of a handler,
which may follow at once on one that the error has ended.

The cell of a captured variable lives just as long. It is open as long as the variable lives, so closures
that capture it share the cell, and it is closed when the variable ends, however that comes about, so
those that capture the next one do not.

`Run.shares` is the result, about any run of a reachable machine and any two closures made in it. It comes
from what happens to one cell in one step: `Valid.cell_stays` if its variable lives on, and
`Valid.cell_stayed` the other way round, and the inductions go along the run. `shares_loopBody` applies it
to a run in which a variable in the body of a loop is captured twice in each turn: the closures of one
turn share their cell, and those of different turns do not, though the slot is the same.

A variable is known here by its task, its slot and the activation that has the slot. That this is the
variable the text means is what resolving names is about, and is shown with closures.
-/

namespace ScriptMachine

variable {m m' : Machine} {h : Heap} {t t' : Fiber} {a : Activation} {rest : List Activation}
  {f : Frame} {r : Ref} {u : Upvalue} {task slot ip top results : Nat} {e : Nat × Ref}
  {made : Ref → Prop} {lands : Nat → Prop} {opens : Nat → Prop} {stack : Array Value}

/-! ## Variables in scope -/

/-- The activation that has a slot: the innermost one that starts at or below it. -/
def Fiber.owner? (t : Fiber) (slot : Nat) : Option Frame :=
  t.frames.find? fun f => f.base ≤ slot

/-- **`m.InScope task slot f`** — the slot of the task belongs to its activation `f`, and where that goes
on a variable in the slot is in scope. -/
def Machine.InScope (m : Machine) (task slot : Nat) (f : Frame) : Prop :=
  ∃ t ∈ m.fibers, t.id = task ∧ slot < t.stack.size ∧ t.owner? slot = some f ∧
    slot - f.base < f.chunk.scopeAt f.ip

/-- **`m.Retains m' task slot`** — the variable in the slot lives on: it is in scope before the step and
after it, in the same activation, and no error has taken its place. -/
def Machine.Retains (m m' : Machine) (task slot : Nat) : Prop :=
  (∃ f ip, m.InScope task slot f ∧ m'.InScope task slot { f with ip }) ∧ ¬ m.Lands m' task slot

/-- An activation that waits has in scope what it shares. -/
theorem Waiting.inScope (hw : Waiting h opens stack rest top results) (hopen : opens slot)
    (hlt : slot < top) : ∃ f, (rest.map Activation.frame).find? (fun f => f.base ≤ slot) = some f ∧
      slot - f.base < f.chunk.scopeAt f.ip := by
  induction hw with
  | bottom => omega
  | @call a rest top results q sound mem situation ip plain makes leaves height shared holds outer ih =>
    by_cases hle : a.frame.base ≤ slot
    · refine ⟨a.frame, ?_, ?_⟩
      · rw [List.map_cons, List.find?_cons_of_pos (by simpa using hle)]
      · -- the slot is below what the call has taken, so the next instruction shares it as well
        have hfalls : q.instr.op.falls = true := by
          revert plain
          cases q.instr.op <;> decide
        obtain ⟨x, hx, hoffset, hflows⟩ := sound.exits mem (.fall hfalls)
        have hnext : x.situation.mayBeOpen (slot - a.frame.base) := by
          apply hflows.mayBeOpen
          refine ⟨.inl ?_, ?_⟩
          · rw [situation]
            exact shared slot hopen hle hlt
          · rw [situation]
            omega
        have hdeclared := sound.lists.annotates.declared x hx _ hnext
        rwa [hoffset, ← ip, ← sound.chunk] at hdeclared
    · rw [List.map_cons, List.find?_cons_of_neg (by simpa using hle)]
      exact ih (by omega)

namespace Fiber

/-- What a fiber shares is in scope. -/
theorem Alive.inScope (ht : t.Alive h) (hopen : t.IsOpen slot) :
    ∃ f, t.owner? slot = some f ∧ slot - f.base < f.chunk.scopeAt f.ip := by
  obtain ⟨a, rest, q, hp⟩ := ht
  unfold owner?
  rw [hp.frames]
  by_cases hle : a.frame.base ≤ slot
  · refine ⟨a.frame, List.find?_cons_of_pos (by simpa using hle), ?_⟩
    have hshared := hp.shared slot hopen hle
    rw [← hp.situation] at hshared
    have hdeclared := hp.sound.lists.annotates.declared q hp.mem _ hshared
    rwa [← hp.ip, ← hp.sound.chunk] at hdeclared
  · rw [List.find?_cons_of_neg (by simpa using hle)]
    exact hp.waiting.inScope hopen (by omega)

/-! ## What a step does to a cell -/

/-- A cell that is listed now was listed before, or it is new. -/
theorem Advances.listed (ht : t.Advances made lands t') (he : e ∈ t'.openUpvalues) :
    e ∈ t.openUpvalues ∨ made e.2 := by
  cases ht with
  | stays frames opens => exact .inl (opens ▸ he)
  | goes before after opens news => exact news e he
  | enters before after start opens above => exact .inl (opens ▸ he)
  | returns before after below opens => exact .inl (mem_openBelow.mp (opens ▸ he)).1
  | unwinds before after above base size opens catches landed =>
    exact .inl (mem_openBelow.mp (opens ▸ he)).1

/-- **`Advances.owner`** — as long as a cell is listed, its slot belongs to the same activation. -/
theorem Advances.owner (ht : t.Advances made lands t') (he : e ∈ t.openUpvalues)
    (he' : e ∈ t'.openUpvalues) (hf : t.owner? e.1 = some f) :
    ∃ ip, t'.owner? e.1 = some { f with ip } := by
  -- the innermost activation may have gone on, what is below it is the same
  have hgoes : ∀ {g : Frame} {n : Nat} {frames : List Frame},
      (g :: frames).find? (fun f => f.base ≤ e.1) = some f →
      ∃ ip, ({ g with ip := n } :: frames).find? (fun f => f.base ≤ e.1) = some { f with ip } := by
    intro g n frames hfind
    by_cases hle : g.base ≤ e.1
    · rw [List.find?_cons_of_pos (by simpa using hle)] at hfind ⊢
      obtain rfl := Option.some.inj hfind
      exact ⟨n, rfl⟩
    · rw [List.find?_cons_of_neg (by simpa using hle)] at hfind ⊢
      exact ⟨f.ip, hfind⟩
  unfold owner? at hf ⊢
  cases ht with
  | stays frames opens => exact ⟨f.ip, frames ▸ hf⟩
  | goes before after opens news =>
    rw [before] at hf
    rw [after]
    exact hgoes hf
  | enters before after start opens above =>
    rw [before] at hf
    rw [after, List.find?_cons_of_neg (by simpa using above e he)]
    exact hgoes hf
  | returns before after below opens =>
    have hlt := (mem_openBelow.mp (opens ▸ he')).2
    rw [before, List.find?_cons_of_neg (by simpa using hlt)] at hf
    exact ⟨f.ip, after ▸ hf⟩
  | @unwinds g inner rest hd before after above base size opens catches landed =>
    have hlt := (mem_openBelow.mp (opens ▸ he')).2
    have hinner : inner.find? (fun f => f.base ≤ e.1) = none := by
      rw [List.find?_eq_none]
      intro c hc
      have := above c hc
      simp only [decide_eq_true_eq]
      omega
    rw [before, List.find?_append, hinner, Option.none_or] at hf
    rw [after]
    exact hgoes hf

/-- **`Advances.keeps`** — as long as its slot belongs to the same activation and no error takes its
place, a cell is listed. -/
theorem Advances.keeps (ht : t.Advances made lands t') (he : e ∈ t.openUpvalues)
    (hf : t.owner? e.1 = some f) (hf' : t'.owner? e.1 = some { f with ip })
    (hlt : e.1 < t'.stack.size) (hlands : ¬ lands e.1) : e ∈ t'.openUpvalues := by
  unfold owner? at hf hf'
  cases ht with
  | stays frames opens => exact opens ▸ he
  | goes before after opens news => exact opens e he hlt
  | enters before after start opens above => exact opens ▸ he
  | @returns g rest before after below opens =>
    rw [opens]
    refine mem_openBelow.mpr ⟨he, ?_⟩
    by_contra hle
    -- the activation that has returned was the one, and all others start below it
    rw [before, List.find?_cons_of_pos (by simpa using hle)] at hf
    obtain rfl := Option.some.inj hf
    have hbase := below _ (after ▸ List.mem_of_find?_eq_some hf')
    exact (Nat.lt_irrefl _ hbase).elim
  | @unwinds g inner rest hd before after above base size opens catches landed =>
    rw [opens]
    refine mem_openBelow.mpr ⟨he, ?_⟩
    have hne : e.1 ≠ hd.height := by
      intro heq
      rw [heq] at hlands
      exact hlands landed
    omega

end Fiber

namespace Machine

/-- **`Valid.inScope`** — an open cell is that of a variable in scope. -/
theorem Valid.inScope (hv : m.Valid) (hr : m.heap.upvalue? r = some (.onStack task slot)) :
    ∃ f, m.InScope task slot f := by
  obtain ⟨t, ht, hid, hmem⟩ := hv.cells.covered r task slot hr
  have halive : t.Alive m.heap := by
    rcases mem_fibers.mp ht with rfl | hqueue
    · refine hv.running.resolve_left fun hspent => ?_
      rw [hspent.openUpvalues] at hmem
      cases hmem
    · exact hv.waiting t hqueue
  obtain ⟨f, howner, hscope⟩ := halive.inScope ⟨r, hmem⟩
  exact ⟨f, t, ht, hid, (hv.cells.listed t ht _ hmem).2, howner, hscope⟩

/-- The fiber of a task that has an open cell. -/
theorem Consistent.mem_openUpvalues (hc : m.Consistent)
    (hr : m.heap.upvalue? r = some (.onStack task slot)) (ht : t ∈ m.fibers) (hid : t.id = task) :
    (slot, r) ∈ t.openUpvalues := by
  obtain ⟨t', ht', hid', hmem⟩ := hc.cells.covered r task slot hr
  rwa [hc.tasks.id_inj t ht t' ht' (hid.trans hid'.symm)]

/-- An error closes the cell of the slot that it is put in. -/
theorem Valid.not_lands (hv : m.Valid) (hv' : m'.Valid)
    (hr : m'.heap.upvalue? r = some (.onStack task slot)) : ¬ m.Lands m' task slot := by
  rintro ⟨e, m₁, hthrows, rfl, rfl, hd, hds, hhandlers, rfl⟩
  obtain ⟨hf, he⟩ : m₁.Faulting ∧ e.Catchable := by
    cases hthrows with
    | fails hready hhonest hstep hcatchable =>
      obtain ⟨a, rest, q, k, -, -, -, hfaulting⟩ := hv.fails hready hhonest hstep fun hstuck => by
        rw [hstuck] at hcatchable
        exact hcatchable
      exact ⟨hfaulting, hcatchable⟩
    | deadlock hturn he =>
      obtain ⟨hfaulting, (_ : Moves (fun _ => False) _ _)⟩ := hturn.faulting hv
      exact ⟨hfaulting, he ▸ trivial⟩
  obtain ⟨f, inner, others, -, -, -, -, -, -, heq⟩ := hf.unwound e.message hhandlers
  have hraise : (m₁.raise e).2 = (m₁.cutBack hd hds f others).withText e.message := by
    rw [raise_handled he hhandlers, heq]
  have hfiber : (m₁.raise e).2.fiber.id = m₁.fiber.id ∧
      (m₁.raise e).2.fiber.openUpvalues = m₁.fiber.openBelow hd.height := by
    rw [hraise]
    exact ⟨rfl, rfl⟩
  have hmem := hv'.toConsistent.mem_openUpvalues hr List.mem_cons_self hfiber.1
  rw [hfiber.2] at hmem
  exact Nat.lt_irrefl _ (Fiber.mem_openBelow.mp hmem).2

/-- **`Valid.cell_stays`** — the cell of a variable that lives on stays open. -/
theorem Valid.cell_stays (hv : m.Valid) (hgoes : m.Goes m')
    (hr : m.heap.upvalue? r = some (.onStack task slot)) (hretains : m.Retains m' task slot) :
    m'.heap.upvalue? r = some (.onStack task slot) := by
  have hv' := (hv.goes hgoes).1
  obtain ⟨⟨f, ip, ⟨t, ht, hid, -, hf, -⟩, t', ht', hid', hlt, hf', -⟩, hlands⟩ := hretains
  have hmem := hv.toConsistent.mem_openUpvalues hr ht hid
  rcases hv.passes hgoes t' ht' with hbegets | ⟨-, u, hu, hbrings⟩
  · -- the activation was there before, so the fiber has not just begun
    refine (hbegets.anew t ht (hid.trans hid'.symm) _ (List.mem_of_find?_eq_some hf') f
      (List.mem_of_find?_eq_some hf) ?_).elim
    rfl
  · obtain rfl := hv.tasks.id_inj u hu t ht (hbrings.id.symm.trans (hid'.trans hid.symm))
    have hmem' := hbrings.advances.keeps hmem hf hf' hlt (hid ▸ hlands)
    rw [(hv'.cells.listed t' ht' _ hmem').1, hid']

/-- **`Valid.cell_stayed`** — a cell that was there and is open was open before, for the same variable. -/
theorem Valid.cell_stayed (hv : m.Valid) (hgoes : m.Goes m') (hu : m.heap.upvalue? r = some u)
    (hr : m'.heap.upvalue? r = some (.onStack task slot)) :
    m.heap.upvalue? r = some (.onStack task slot) ∧ m.Retains m' task slot := by
  have hv' := (hv.goes hgoes).1
  obtain ⟨f', hscope'⟩ := hv'.inScope hr
  obtain ⟨t', ht', hid', hlt, hf', hdeclared⟩ := hscope'
  have hmem' := hv'.toConsistent.mem_openUpvalues hr ht' hid'
  rcases hv.passes hgoes t' ht' with hbegets | ⟨-, t, ht, hbrings⟩
  · rw [hbegets.openUpvalues] at hmem'
    cases hmem'
  · have hmem : (slot, r) ∈ t.openUpvalues := by
      refine (hbrings.advances.listed hmem').resolve_right fun hnew => ?_
      rw [hu] at hnew
      cases hnew
    have hr₀ : m.heap.upvalue? r = some (.onStack task slot) := by
      rw [(hv.cells.listed t ht _ hmem).1, ← hbrings.id, hid']
    obtain ⟨f, hscope⟩ := hv.inScope hr₀
    have hf : t.owner? slot = some f := by
      obtain ⟨t₀, ht₀, hid₀, -, hf, -⟩ := hscope
      rwa [hv.tasks.id_inj t ht t₀ ht₀ (hbrings.id.symm.trans (hid'.trans hid₀.symm))]
    obtain ⟨ip, howner⟩ := hbrings.advances.owner hmem hmem' hf
    obtain rfl := Option.some.inj (howner.symm.trans hf')
    exact ⟨hr₀, ⟨f, ip, hscope, t', ht', hid', hlt, hf', hdeclared⟩, hv.not_lands hv' hr⟩

/-! ## Closures -/

/-- **`m.Takes m' task slot r`** — the step makes a closure in the task; one of its captures is the local
in the slot, and the closure has the cell `r` for it. -/
def Takes (m m' : Machine) (task slot : Nat) (r : Ref) : Prop :=
  ∃ (f : Frame) (captures : List Capture) (c : Closure) (k j : Nat), m.Makes f captures m' c ∧
    captures[k]? = some ⟨true, j⟩ ∧ c.upvalues[k]? = some r ∧ m.fiber.id = task ∧ f.base + j = slot

/-- The task that makes a closure goes on. -/
theorem Makes.same_task {captures : List Capture} {c : Closure} (h : m.Makes f captures m' c) :
    m'.fiber.id = m.fiber.id := by
  obtain ⟨hm, hready, hhonest, ⟨frames, hframes⟩, ⟨i, hi, hop, rfl⟩, hstep, -⟩ := h
  obtain ⟨a, rest, q, hs⟩ := hm.valid.stepping hready hhonest
  obtain rfl := hs.next_inj ⟨f, frames, hframes, hi⟩
  obtain ⟨r, rs, m₁, -, -, hk, -, hexec, -, (_ : Law (fun _ => False) _ _)⟩ := hs.makes hop
  rw [Exec.step_eq hs.poised, hexec] at hstep
  obtain ⟨-, rfl⟩ := EStateM.Result.ok.inj hstep
  show m₁.fiber.id = _
  rw [hk.machine]
  rfl

/-- The cell that a closure has for a local is open, and it is that of the slot. -/
theorem Takes.cell (h : m.Takes m' task slot r) :
    m'.heap.upvalue? r = some (.onStack task slot) := by
  obtain ⟨f, captures, c, k, j, hmakes, hcapture, hcell, rfl, rfl⟩ := h
  have hv' := (hmakes.reachable.valid.goes (.steps hmakes.ready hmakes.honest hmakes.step)).1
  rw [← Array.getElem?_toList] at hcell
  obtain ⟨hk, hcapture⟩ := List.getElem?_eq_some_iff.mp hcapture
  obtain ⟨hk', hcell⟩ := List.getElem?_eq_some_iff.mp hcell
  have hobtains := hmakes.cells.get hk hk'
  rw [List.get_eq_getElem, List.get_eq_getElem, hcapture, hcell] at hobtains
  have hlisted := (hv'.cells.listed m'.fiber List.mem_cons_self _ hobtains).1
  rwa [hmakes.same_task] at hlisted

section Run

variable {run : Nat → Machine} {n i j k : Nat}

/-- **`Run.cell_stays`** — the cell of a variable that lives on stays open throughout a run. -/
theorem Run.cell_stays (hrun : Run run n) (hr : (run i).heap.upvalue? r = some (.onStack task slot))
    (hij : i ≤ j) (hj : j ≤ n)
    (hretains : ∀ k, i ≤ k → k < j → (run k).Retains (run (k + 1)) task slot) :
    (run j).heap.upvalue? r = some (.onStack task slot) := by
  induction j, hij using Nat.le_induction with
  | base => exact hr
  | succ j hij ih =>
    have hopen := ih (by omega) fun k hik hk => hretains k hik (by omega)
    exact (hrun.reachable (by omega)).valid.cell_stays (hrun.goes j (by omega)) hopen
      (hretains j hij (by omega))

/-- **`Run.cell_stayed`** — a cell that is open was open before, as long as it was there, and its variable
lived all the time. The induction is on how long it was there. -/
theorem Run.cell_stayed (hrun : Run run n) (hr : (run j).heap.upvalue? r = some (.onStack task slot))
    (hij : i ≤ j) (hj : j ≤ n) (hthere : ∀ k, i ≤ k → k < j → (run k).heap.upvalue? r ≠ none) :
    (run i).heap.upvalue? r = some (.onStack task slot) ∧
      ∀ k, i ≤ k → k < j → (run k).Retains (run (k + 1)) task slot := by
  induction j, hij using Nat.le_induction with
  | base => exact ⟨hr, fun k hik hk => absurd hk (by omega)⟩
  | succ j hij ih =>
    obtain ⟨u, hu⟩ := Option.ne_none_iff_exists'.mp (hthere j hij (by omega))
    obtain ⟨hopen, hlast⟩ := (hrun.reachable (by omega)).valid.cell_stayed (hrun.goes j (by omega)) hu hr
    obtain ⟨hfirst, hretains⟩ := ih hopen (by omega) fun k hik hk => hthere k hik (by omega)
    refine ⟨hfirst, fun k hik hk => ?_⟩
    rcases Nat.lt_succ_iff_lt_or_eq.mp hk with hk | rfl
    · exact hretains k hik hk
    · exact hlast

/-- **`SharesByVariable run n`** — in a run, closures share cells just as they capture the same variables. -/
structure SharesByVariable (run : Nat → Machine) (n : Nat) : Prop where
  /-- Every open cell is that of a variable in scope, in the activation that has the slot. -/
  scope : ∀ i ≤ n, ∀ t ∈ (run i).fibers, ∀ e ∈ t.openUpvalues, ∃ f, (run i).InScope t.id e.1 f
  /-- Two closures have the same cell for a local, and it was there all the time between, if and only if
  they capture the same variable: the same slot of the same task, with a variable that has lived from the
  one moment to the other. -/
  shared : ∀ i j task slot r task' slot' r', i ≤ j → j < n →
    (run i).Takes (run (i + 1)) task slot r → (run j).Takes (run (j + 1)) task' slot' r' →
    ((r = r' ∧ ∀ k, i < k → k ≤ j → (run k).heap.upvalue? r ≠ none) ↔
      task = task' ∧ slot = slot' ∧ ∀ k, i < k → k ≤ j → (run k).Retains (run (k + 1)) task slot)

/-- **`Run.shares`** — in every run, closures share cells just as they capture the same variables. -/
theorem Run.shares (hrun : Run run n) : SharesByVariable run n := by
  refine ⟨fun i hi t ht e he => ?_, fun i j task slot r task' slot' r' hij hj htakes htakes' =>
    ⟨fun ⟨hsame, hthere⟩ => ?_, fun ⟨htask, hslot, hretains⟩ => ?_⟩⟩
  · have hv := (hrun.reachable hi).valid
    exact hv.inScope (hv.cells.listed t ht e he).1
  · -- the cell that the second closure has was open since the first one was made
    subst hsame
    obtain ⟨hopen, hretains⟩ := hrun.cell_stayed htakes'.cell (by omega : i + 1 ≤ j + 1) (by omega)
      fun k hik hk => hthere k hik (by omega)
    obtain ⟨rfl, rfl⟩ := Upvalue.onStack.inj (Option.some.inj (htakes.cell.symm.trans hopen))
    exact ⟨rfl, rfl, fun k hik hk => hretains k hik (by omega)⟩
  · -- the cell that the first closure has stays open, and a slot has one open cell
    subst htask hslot
    have hstays : ∀ k, i < k → k ≤ j + 1 → (run k).heap.upvalue? r = some (.onStack task slot) :=
      fun k hik hk => hrun.cell_stays htakes.cell hik (by omega) fun l hil hl =>
        hretains l hil (by omega)
    refine ⟨?_, fun k hik hk hnone => ?_⟩
    · have hc := (hrun.reachable (by omega : j + 1 ≤ n)).valid.toConsistent
      obtain ⟨t, ht, hid, hmem⟩ := hc.cells.covered r task slot (hstays (j + 1) (by omega) (by omega))
      have hmem' := hc.mem_openUpvalues htakes'.cell ht hid
      exact congrArg Prod.snd (hc.cells.slot_inj ht hmem hmem' rfl)
    · rw [hstays k hik (by omega)] at hnone
      cases hnone

end Run

/-! ## Looking at the closures of a history -/

/-- The slots that the closure on top has just captured, with its cells for them, if the next instruction
of `m` makes a closure and `m'` is the machine after it. -/
def captured (m m' : Machine) : List (Nat × Ref) :=
  match m.fiber.frames, m.next?, m'.fiber.stack.back? with
  | f :: _, some i, some (.obj r) =>
    ((m'.heap.closure? r).map fun c => (i.captures.zip c.upvalues.toList).filterMap fun e =>
      if e.1.isLocal then some (f.base + e.1.index, e.2) else none).getD []
  | _, _, _ => []

/-- **`takes_of_captured`** — what is listed was taken. -/
theorem takes_of_captured (hm : m.Reachable) (hhonest : m.heap.Honest)
    (hperforms : m.Performs task .closure) (hmem : (slot, r) ∈ m.captured m.successor) :
    m.Takes m.successor task slot r := by
  obtain ⟨i, hnext, hop⟩ := hperforms.next
  have hi := next_iff.mp hnext
  obtain ⟨f, frames, hframes, hf⟩ := hnext
  obtain ⟨m', c, hmakes, -⟩ := hm.makes hperforms.ready hhonest hframes hf hop
  obtain rfl : m.successor = m' :=
    (EStateM.Result.ok.inj (hperforms.step.symm.trans hmakes.step)).2
  obtain ⟨r', hstack, hclosure⟩ := hmakes.pushed
  unfold captured at hmem
  rw [hframes, hi, hstack, Array.back?_push] at hmem
  dsimp only at hmem
  rw [hclosure] at hmem
  obtain ⟨⟨cap, r''⟩, hzip, heq⟩ := List.mem_filterMap.mp hmem
  obtain ⟨k, hk, hget⟩ := List.getElem_of_mem hzip
  split at heq
  · rename_i hlocal
    obtain ⟨rfl, rfl⟩ := Prod.mk.inj (Option.some.inj heq)
    rw [List.length_zip] at hk
    rw [List.getElem_zip] at hget
    obtain ⟨hcap, hcell⟩ := Prod.mk.inj hget
    refine ⟨f, i.captures, c, k, cap.index, hmakes, ?_, ?_, hperforms.task, rfl⟩
    · rw [List.getElem?_eq_getElem (by omega), hcap]
      obtain ⟨isLocal, index⟩ := cap
      obtain rfl : isLocal = true := hlocal
      rfl
    · rw [← Array.getElem?_toList, List.getElem?_eq_getElem (by omega), hcell]
  · cases heq

/-- A variable in the body of a loop, and two closures that capture it. -/
def loopBody : String :=
  "for (var i = 0; i < 2; i = i + 1) \x7b var x = i; func a() \x7b return x; \x7d " ++
    "func b() \x7b return x; \x7d \x7d"

/-- The closures of one turn share their cell. Those of different turns do not, though the variable is in
the same slot: it did not live on from the one to the other. -/
theorem shares_loopBody :
    Run (rehearse loopBody) 30 ∧ SharesByVariable (rehearse loopBody) 30 ∧
      ∃ r r', (rehearse loopBody 8).Takes (rehearse loopBody 9) mainTask 2 r ∧
        (rehearse loopBody 9).Takes (rehearse loopBody 10) mainTask 2 r ∧
        (rehearse loopBody 27).Takes (rehearse loopBody 28) mainTask 2 r' ∧ r ≠ r' ∧
        ¬ ∀ k, 8 < k → k ≤ 27 → (rehearse loopBody k).Retains (rehearse loopBody (k + 1)) mainTask 2 := by
  have hrun := run_rehearse loopBody 30
  have hshares := Run.shares hrun
  have hfacts : (rehearse loopBody 8).Performs mainTask .closure ∧
      (rehearse loopBody 9).Performs mainTask .closure ∧
      (rehearse loopBody 27).Performs mainTask .closure ∧
      ∃ e ∈ (rehearse loopBody 8).captured (rehearse loopBody 9), e.1 = 2 ∧
        e ∈ (rehearse loopBody 9).captured (rehearse loopBody 10) ∧
        ∃ e' ∈ (rehearse loopBody 27).captured (rehearse loopBody 28), e'.1 = 2 ∧ e.2 ≠ e'.2 := by
    decide +kernel
  obtain ⟨h₈, h₉, h₂₇, ⟨_, r⟩, hr, rfl, hr', ⟨_, r'⟩, hr'', rfl, hne⟩ := hfacts
  have htakes : ∀ {n slot : Nat} {r : Ref}, (rehearse loopBody n).Performs mainTask .closure →
      (slot, r) ∈ (rehearse loopBody n).captured (rehearse loopBody (n + 1)) →
        (rehearse loopBody n).Takes (rehearse loopBody (n + 1)) mainTask slot r := fun hn hmem =>
    takes_of_captured (reachable_rehearse _ _) (honest_rehearse _ _) hn hmem
  refine ⟨hrun, hshares, r, r', htakes h₈ hr, htakes h₉ hr', htakes h₂₇ hr'', hne, fun hretains => hne ?_⟩
  exact ((hshares.shared 8 27 mainTask 2 r mainTask 2 r' (by omega) (by omega) (htakes h₈ hr)
    (htakes h₂₇ hr'')).mpr ⟨rfl, rfl, hretains⟩).1

end Machine

end ScriptMachine
