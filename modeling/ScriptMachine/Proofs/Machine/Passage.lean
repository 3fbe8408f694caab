import Mathlib
import ScriptMachine.Proofs.Machine.Reachable

/-!
# ScriptMachine.Proofs.Machine.Passage — what a step makes of each fiber

Whatever happens to a machine, a fiber afterwards has either just begun, or it is one that was there
before. In the second case its activations are the same, except that the innermost one may have gone
on, entered another or returned, or that an error has unwound some. Open cells disappear only together
with their slots, and handlers only from the inside; a new handler comes from the one instruction that
installs it.

This is all that later arguments about histories need to know of a single step.

`Valid.passes` is the result, for every step that a machine can take. It is proved for each way to go
on: instructions (`passes`), errors (`Passes.of_raise`), turns (`Schedules.lasts`), collections and
loading. For the running fiber `Advances` lists what can become of its activations and its open cells,
and for all others `Lasts` says that they have not run.

`Throws` and `Lands` name the moments at which an error leaves an instruction and arrives at a handler.
The modules on lifetimes and on routing are about histories, and take from here what one step does.
-/

namespace ScriptMachine

variable {m m' m₁ : Machine} {t t' u : Fiber} {a : Activation} {rest : List Activation} {q : Placed}
  {e : Fault} {h h' : Heap} {hd : Handler} {hds : List Handler} {made made' : Ref → Prop}
  {lands lands' : Nat → Prop}

/-! ## Fibers -/

/-- **`t.Begins`** — the fiber is at the start of everything it has to run. -/
structure Fiber.Begins (t : Fiber) : Prop where
  start : ∀ f ∈ t.frames, f.ip = 0
  handlers : t.handlers = []
  openUpvalues : t.openUpvalues = []

/-- **`t.Lasts t'`** — the fiber has not run. It may have been woken, and variables of it assigned. -/
structure Fiber.Lasts (t t' : Fiber) : Prop where
  id : t'.id = t.id
  frames : t'.frames = t.frames
  handlers : t'.handlers = t.handlers
  openUpvalues : t'.openUpvalues = t.openUpvalues

/-- **`t.Advances made lands t'`** — what a step can do to the activations and the open cells of a fiber:
cells of `made` may be new, and an error goes on where so many values were on the stack that `lands` says
so. -/
inductive Fiber.Advances (made : Ref → Prop) (lands : Nat → Prop) (t t' : Fiber) : Prop
  | stays (frames : t'.frames = t.frames) (opens : t'.openUpvalues = t.openUpvalues)
  | goes {f : Frame} {n : Nat} {rest : List Frame} (before : t.frames = f :: rest)
      (after : t'.frames = { f with ip := n } :: rest)
      (opens : ∀ e ∈ t.openUpvalues, e.1 < t'.stack.size → e ∈ t'.openUpvalues)
      (news : ∀ e ∈ t'.openUpvalues, e ∈ t.openUpvalues ∨ made e.2)
  | enters {f g : Frame} {n : Nat} {rest : List Frame} (before : t.frames = f :: rest)
      (after : t'.frames = g :: { f with ip := n } :: rest) (start : g.ip = 0)
      (opens : t'.openUpvalues = t.openUpvalues) (above : ∀ e ∈ t.openUpvalues, e.1 < g.base)
  | returns {f : Frame} {rest : List Frame} (before : t.frames = f :: rest)
      (after : t'.frames = rest) (below : ∀ g ∈ rest, g.base < f.base)
      (opens : t'.openUpvalues = t.openBelow f.base)
  | unwinds {f : Frame} {inner rest : List Frame} {hd : Handler}
      (before : t.frames = inner ++ f :: rest) (after : t'.frames = { f with ip := hd.target } :: rest)
      (above : ∀ g ∈ inner, hd.height ≤ g.base) (base : f.base ≤ hd.height)
      (size : t'.stack.size = hd.height + 1) (opens : t'.openUpvalues = t.openBelow hd.height)
      (catches : (hd.target, hd.height - f.base) ∈ f.chunk.catches) (lands : lands hd.height)

/-! ## Attempts -/

/-- **`Attempt`** — a body with a handler that a task has entered: the number of activations below the
one that entered it, the offsets where the instruction that installs the handler stands and where the
handler starts, and how many values there were on the stack. -/
structure Attempt where
  task : Nat
  below : Nat
  start : Nat
  target : Nat
  height : Nat
deriving Repr, DecidableEq

/-- The handler that an attempt installs. -/
def Attempt.handler (t : Attempt) : Handler :=
  ⟨t.below + 1, t.height, t.target⟩

/-- **`m.Attempts b m'`** — the step executes the instruction that installs a handler. -/
structure Machine.Attempts (m : Machine) (b : Attempt) (m' : Machine) : Prop where
  next : ∃ f rest i, m.fiber.frames = f :: rest ∧ f.chunk.instruction? m.heap f.ip = some i ∧
    i.op = .tryBegin ∧
      b = ⟨m.fiber.id, rest.length, f.ip, f.ip + i.width + i.first, m.fiber.stack.size⟩
  step : Exec.step m = .ok () m'

/-! ## Machines -/

/-- **`m.Throws e m₁`** — the instruction that is next in `m` fails with the error `e`, which can be
caught, and leaves `m₁`; or the scheduler finds a deadlock in `m` and tells a task of it. -/
inductive Machine.Throws (m : Machine) (e : Fault) (m₁ : Machine) : Prop
  | fails (hready : m.Ready) (hhonest : m.heap.Honest) (hstep : Exec.step m = .error e m₁)
      (hcatchable : e.Catchable)
  | deadlock (hturn : Schedules m .deadlock m₁) (he : e = .deadlock)

/-- **`m.Restores height`** — the innermost handler of the running fiber restores so many values. -/
def Machine.Restores (m : Machine) (height : Nat) : Prop :=
  ∃ hd hds, m.fiber.handlers = hd :: hds ∧ hd.height = height

/-- **`m.Lands m' task height`** — in the step from `m` to `m'` the task fails and goes on at a handler,
with the error in the slot `height`. -/
def Machine.Lands (m m' : Machine) (task height : Nat) : Prop :=
  ∃ e m₁, m.Throws e m₁ ∧ m' = (m₁.raise e).2 ∧ m₁.fiber.id = task ∧ m₁.Restores height

/-- **`t.Follows lands t'`** — `t'` is the next state of the fiber `t`, with no cell and no handler
more. -/
structure Fiber.Follows (lands : Nat → Prop) (t t' : Fiber) : Prop where
  id : t'.id = t.id
  advances : t.Advances (fun _ => False) lands t'
  handlers : t'.handlers <:+ t.handlers

/-- **`m.Brings m' t t'`** — the step from `m` to `m'` makes `t'` of the fiber `t`. -/
structure Machine.Brings (m m' : Machine) (t t' : Fiber) : Prop where
  id : t'.id = t.id
  advances : t.Advances (fun r => m.heap.upvalue? r = none) (m.Lands m' t.id) t'
  handlers : t'.handlers <:+ t.handlers ∨
    t = m.fiber ∧ ∃ b, m.Attempts b m' ∧ t'.handlers = b.handler :: t.handlers

/-- **`m.Begets t'`** — the fiber has just begun, and it has no activation that its task had before. -/
structure Machine.Begets (m : Machine) (t' : Fiber) : Prop extends t'.Begins where
  anew : ∀ t ∈ m.fibers, t.id = t'.id → ∀ f' ∈ t'.frames, ∀ f ∈ t.frames, f'.closure ≠ f.closure

/-- **`m.Passes m'`** — every fiber of `m'` has just begun or is one of `m`, and then what there is in
the heap is what was there. -/
def Machine.Passes (m m' : Machine) : Prop :=
  ∀ t' ∈ m'.fibers, m.Begets t' ∨ m.heap.Persists m'.heap ∧ ∃ t ∈ m.fibers, m.Brings m' t t'

namespace Fiber

theorem Lasts.refl (t : Fiber) : t.Lasts t :=
  ⟨rfl, rfl, rfl, rfl⟩

/-- Waking a task does not change what it carries on with. -/
theorem Lasts.wake (ht : t.Lasts t') (task : Nat) : t.Lasts (t'.wake task) := by
  unfold Fiber.wake
  split
  · exact ⟨ht.id, ht.frames, ht.handlers, ht.openUpvalues⟩
  · exact ht

/-- A turn of the scheduler lets a task carry on as it was. -/
theorem Turned.lasts (ht : t.Turned t') : t.Lasts t' := by
  rw [ht.same]
  exact ⟨rfl, rfl, rfl, rfl⟩

/-- A task that is spent has no handler and no open upvalue, like one that begins. -/
theorem Spent.begins (ht : t.Spent) : t.Begins where
  start f hf := by
    rw [ht.frames] at hf
    cases hf
  handlers := ht.handlers
  openUpvalues := ht.openUpvalues

/-- Carrying on is one way to follow. -/
theorem Lasts.follows (ht : t.Lasts t') : t.Follows lands t' :=
  ⟨ht.id, .stays ht.frames ht.openUpvalues, ht.handlers ▸ List.suffix_refl _⟩

/-- An advance remains one if more cells may be made and more errors caught. -/
theorem Advances.mono (ht : t.Advances made lands t') (hmade : ∀ r, made r → made' r)
    (hlands : ∀ n, lands n → lands' n) : t.Advances made' lands' t' := by
  cases ht with
  | stays frames opens => exact .stays frames opens
  | goes before after opens news =>
    exact .goes before after opens fun e he => (news e he).imp_right (hmade _)
  | enters before after start opens above => exact .enters before after start opens above
  | returns before after below opens => exact .returns before after below opens
  | unwinds before after above base size opens catches landed =>
    exact .unwinds before after above base size opens catches (hlands _ landed)

/-- What comes after a fiber that has not run. -/
theorem Lasts.advances (ht : t.Lasts u) (hu : u.Advances made lands t') :
    t.Advances made lands t' := by
  have hbelow : ∀ slot, u.openBelow slot = t.openBelow slot := fun slot => by
    rw [openBelow, openBelow, ht.openUpvalues]
  cases hu with
  | stays frames opens => exact .stays (frames.trans ht.frames) (opens.trans ht.openUpvalues)
  | goes before after opens news =>
    exact .goes (ht.frames.symm.trans before) after (ht.openUpvalues ▸ opens) (ht.openUpvalues ▸ news)
  | enters before after start opens above =>
    exact .enters (ht.frames.symm.trans before) after start (opens.trans ht.openUpvalues)
      (ht.openUpvalues ▸ above)
  | returns before after below opens =>
    exact .returns (ht.frames.symm.trans before) after below (opens.trans (hbelow _))
  | unwinds before after above base size opens catches landed =>
    exact .unwinds (ht.frames.symm.trans before) after above base size (opens.trans (hbelow _)) catches
      landed

/-- **`Advances.of_moved`** — what comes after a fiber that has moved on in its activation. -/
theorem Advances.of_moved {f : Frame} {n : Nat} {frames : List Frame} (ht : t.frames = f :: frames)
    (hu : u.frames = { f with ip := n } :: frames) (hopen : u.openUpvalues = t.openUpvalues)
    (hadvances : u.Advances made lands t') : t.Advances made lands t' := by
  have hbelow : ∀ slot, u.openBelow slot = t.openBelow slot := fun slot => by
    rw [openBelow, openBelow, hopen]
  -- where the activation goes on has no part in what can become of it
  cases hadvances with
  | stays after opens =>
    exact .goes ht (after.trans hu) (fun e he _ => by rwa [opens, hopen]) fun e he => by
      rw [opens, hopen] at he
      exact .inl he
  | goes before after opens news =>
    obtain ⟨rfl, rfl⟩ := List.cons.inj (hu.symm.trans before)
    exact .goes ht after (hopen ▸ opens) (hopen ▸ news)
  | enters before after start opens above =>
    obtain ⟨rfl, rfl⟩ := List.cons.inj (hu.symm.trans before)
    exact .enters ht after start (opens.trans hopen) (hopen ▸ above)
  | returns before after below opens =>
    obtain ⟨rfl, rfl⟩ := List.cons.inj (hu.symm.trans before)
    exact .returns ht after below (opens.trans (hbelow _))
  | @unwinds g inner rest hd before after above base size opens catches landed =>
    cases inner with
    | nil =>
      obtain ⟨rfl, rfl⟩ := List.cons.inj (hu.symm.trans before)
      have hframes : t.frames = [] ++ f :: frames := ht
      refine .unwinds hframes after (fun g hg => ?_) base size (opens.trans (hbelow _)) catches
        landed
      cases hg
    | cons c inner =>
      obtain ⟨rfl, rfl⟩ := List.cons.inj (hu.symm.trans before)
      have hframes : t.frames = (f :: inner) ++ g :: rest := ht
      refine .unwinds hframes after (fun g hg => ?_)
        base size (opens.trans (hbelow _)) catches landed
      rcases List.mem_cons.mp hg with rfl | hg
      · exact above { g with ip := n } List.mem_cons_self
      · exact above g (List.mem_cons_of_mem _ hg)

/-- A new task is at the start of its function. -/
theorem begins_ofClosure (id : Nat) (handle r : Ref) (c : Closure) (p : Prototype) (args : Array Value) :
    (ofClosure id handle r c p args).Begins := by
  refine ⟨fun f hf => ?_, rfl, rfl⟩
  obtain rfl := List.mem_singleton.mp hf
  rfl

end Fiber

namespace Machine

theorem Brings.of_follows (ht : t.Follows (m.Lands m' t.id) t') : m.Brings m' t t' :=
  ⟨ht.id, ht.advances.mono (fun _ => False.elim) fun _ h => h, .inl ht.handlers⟩

/-- A fiber with nothing left to run has begun anew. -/
theorem Begets.of_spent (ht : t'.Spent) : m.Begets t' :=
  ⟨ht.begins, fun _ _ _ f hf => by rw [ht.frames] at hf; cases hf⟩

/-- Nothing has run. -/
theorem Passes.of_lasts (hh : m.heap.Persists m'.heap)
    (hfibers : ∀ t' ∈ m'.fibers, m.Begets t' ∨ ∃ t ∈ m.fibers, t.Lasts t') : m.Passes m' := by
  intro t' ht'
  refine (hfibers t' ht').imp id fun ⟨t, ht, hlasts⟩ => ⟨hh, t, ht, .of_follows hlasts.follows⟩

/-- The fibers are the same. -/
theorem Passes.of_same (hh : m.heap.Persists m'.heap) (hfibers : m'.fibers = m.fibers) :
    m.Passes m' :=
  .of_lasts hh fun t' ht' => .inr ⟨t', hfibers ▸ ht', .refl t'⟩

/-- Only the running fiber has run. -/
theorem Passes.of_running (hh : m.heap.Persists m'.heap)
    (hrun : m.Begets m'.fiber ∨ m.Brings m' m.fiber m'.fiber)
    (hqueue : ∀ t' ∈ m'.queue, m.Begets t' ∨ ∃ t ∈ m.queue, t.Lasts t') : m.Passes m' := by
  intro t' ht'
  rcases mem_fibers.mp ht' with rfl | ht'
  · exact hrun.imp id fun hb => ⟨hh, m.fiber, List.mem_cons_self, hb⟩
  · refine (hqueue t' ht').imp id fun ⟨t, ht, hlasts⟩ => ⟨hh, t, List.mem_cons_of_mem _ ht, ?_⟩
    exact .of_follows hlasts.follows

/-- And the others are the same. -/
theorem Passes.of_onward (hh : m.heap.Persists m'.heap) (hrun : m.Brings m' m.fiber m'.fiber)
    (hqueue : m'.queue = m.queue) : m.Passes m' :=
  .of_running hh (.inr hrun) fun t' ht' => .inr ⟨t', hqueue ▸ ht', .refl t'⟩

end Machine

/-- A fiber with nothing left to run holds on to nothing. -/
theorem Machine.Valid.spent_of_done (hv : m.Valid) (hdone : m.fiber.isDone = true) :
    m.fiber.Spent := by
  rcases hv.running with hspent | halive
  · exact hspent
  · exact (Bool.eq_false_iff.mp halive.not_done hdone).elim

/-! ## The scheduler -/

/-- **`lasts`** — the scheduler runs nothing. -/
theorem Schedules.lasts {turn : Turn} (hs : Schedules m turn m') :
    m'.heap = m.heap ∧ ∀ t' ∈ m'.fibers, ∃ t ∈ m.fibers, t.Lasts t' := by
  -- giving a fiber its turn moves fibers between the queue and the turn, and nothing else
  have hswitch : ∀ {m : Machine} {before after ts : List Fiber} {t t' : Fiber},
      m.queue = before ++ t :: after → t.Lasts t' → (∀ v ∈ ts, v ∈ before ++ after) →
      ∀ v ∈ (m.switchTo t' ts).fibers, ∃ w ∈ m.fibers, w.Lasts v := by
    intro m before after ts t t' hqueue hlasts hts v hv
    have hmem : ∀ w ∈ before ++ t :: after, w ∈ m.fibers := fun w hw =>
      List.mem_cons_of_mem _ (hqueue ▸ hw)
    have hothers : ∀ w ∈ ts, w ∈ m.fibers := fun w hw => hmem w (by
      have := List.mem_append.mp (hts w hw)
      simp only [List.mem_append, List.mem_cons]
      tauto)
    rcases Machine.mem_fibers.mp hv with rfl | hv
    · exact ⟨t, hmem t (by simp), hlasts⟩
    · unfold Machine.switchTo at hv
      dsimp only at hv
      split at hv
      · exact ⟨v, hothers v hv, .refl v⟩
      · rcases List.mem_append.mp hv with hv | hv
        · exact ⟨v, hothers v hv, .refl v⟩
        · rw [List.mem_singleton.mp hv]
          exact ⟨m.fiber, List.mem_cons_self, .refl _⟩
  induction hs with
  | @other m passed after t t' start mid stop hstart hqueue hskips hw =>
    exact ⟨rfl, hswitch (m := { m with clock := stop }) hqueue hw.turned.1.lasts fun v hv => by
      simpa [or_comm] using hv⟩
  | @same m t' start mid stop hstart hskips hlive hw =>
    refine ⟨rfl, fun v hv => ?_⟩
    rcases Machine.mem_fibers.mp hv with rfl | hv
    · exact ⟨m.fiber, List.mem_cons_self, hw.turned.1.lasts⟩
    · exact ⟨v, List.mem_cons_of_mem _ hv, .refl v⟩
  | later _ _ _ _ _ _ ih => exact ih
  | finished => exact ⟨rfl, fun v hv => ⟨v, hv, .refl v⟩⟩
  | @deadlock m start stop hstart hskips hdeadline hsome =>
    rcases Machine.deadlocked_cases (m := { m with clock := stop }) hsome with
      ⟨-, -, heq⟩ | ⟨before, next, after, hqueue, -, -, heq⟩
    · rw [heq]
      refine ⟨rfl, fun v hv => ?_⟩
      rcases Machine.mem_fibers.mp hv with rfl | hv
      · exact ⟨m.fiber, List.mem_cons_self, (Fiber.Turned.rouse _).lasts⟩
      · exact ⟨v, List.mem_cons_of_mem _ hv, .refl v⟩
    · rw [heq]
      exact ⟨rfl, hswitch (m := { m with clock := stop }) hqueue (Fiber.Turned.rouse next).lasts fun v hv => hv⟩

/-! ## Instructions -/

/-- **`base_lt`** — an activation that waits starts below the one above it. -/
theorem Waiting.base_lt {opens : Nat → Prop} {stack : Array Value} {top results : Nat}
    (hw : Waiting h opens stack rest top results) : ∀ b ∈ rest, b.frame.base < top := by
  induction hw with
  | bottom => simp
  | @call a rest top results q sound mem situation ip plain makes leaves height shared holds outer ih =>
    have hreads := (sound.suits mem).reads
    have htakes := q.instr.takes_le_reads
    rw [situation] at hreads
    intro b hb
    rcases List.mem_cons.mp hb with rfl | hb
    · omega
    · have := ih b hb
      omega

namespace Stepping

variable (hs : Stepping m a rest q)
include hs

/-- **`Passing m a rest q`** — the instruction passes, or it fails amid its scene. -/
def Passing (m : Machine) (a : Activation) (rest : List Activation) (q : Placed) : Prop :=
  (Exec.execute q.instr).Meets (inside m a rest q) (fun _ m' => m.Passes m') fun e m' =>
    e ≠ .stuck → q.instr.op.mayRaise = true ∧ ∃ k, Amid (scene m a rest q) k m'

omit hs in
/-- An instruction that ends well passes if the machine it leaves does. -/
theorem Passing.of_ok (hexec : Exec.execute q.instr (inside m a rest q) = .ok () m')
    (hm : m.Passes m') : Passing m a rest q := by
  unfold Passing Exec.Meets
  rw [hexec]
  exact hm

omit hs in
/-- So does one that fails, since the frames and the values below its operands are those it found. -/
theorem Passing.of_error {k : Nat} (hexec : Exec.execute q.instr (inside m a rest q) = .error e m')
    (hraises : q.instr.op.mayRaise = true) (hm : Amid (scene m a rest q) k m') :
    Passing m a rest q := by
  unfold Passing Exec.Meets
  rw [hexec]
  exact fun _ => ⟨hraises, k, hm⟩

omit hs in
/-- What is stuck is no step. -/
theorem Passing.of_stuck (hexec : Exec.execute q.instr (inside m a rest q) = .error .stuck m') :
    Passing m a rest q := by
  unfold Passing Exec.Meets
  rw [hexec]
  exact fun hstuck => absurd rfl hstuck

/-- The running fiber goes on in its activation, wherever that is. -/
theorem brings (ip : Nat) (hid : t'.id = m.fiber.id)
    (hframes : t'.frames = { a.frame with ip } :: rest.map Activation.frame)
    (hhandlers : t'.handlers <:+ m.fiber.handlers)
    (hopen : ∀ e ∈ m.fiber.openUpvalues, e.1 < t'.stack.size → e ∈ t'.openUpvalues)
    (hnew : ∀ e ∈ t'.openUpvalues, e ∈ m.fiber.openUpvalues ∨ m.heap.upvalue? e.2 = none) :
    m.Brings m' m.fiber t' :=
  ⟨hid, .goes hs.poised.frames hframes hopen hnew, .inl hhandlers⟩

/-- An instruction that changes nothing but the running fiber, and there no cells and no handlers. -/
theorem passes_onward (ip : Nat) (hid : t'.id = m.fiber.id)
    (hframes : t'.frames = { a.frame with ip } :: rest.map Activation.frame)
    (hhandlers : t'.handlers <:+ m.fiber.handlers)
    (hopen : t'.openUpvalues = m.fiber.openUpvalues) :
    m.Passes { inside m a rest q with fiber := t' } :=
  .of_onward (Heap.Evolves.refl _).persists
    (hs.brings ip hid hframes hhandlers (fun _ he _ => hopen ▸ he) fun _ he => .inl (hopen ▸ he)) rfl

/-- A plain instruction. -/
theorem passes_plain (hplain : q.instr.op.isPlain = true) : Passing m a rest q := by
  have hexec := Amid.execute hs.setting hplain hs.amid
  have hcloses : q.instr.op.closesTaken = false := by
    revert hplain
    cases q.instr.op <;> decide
  have hraises : q.instr.op.mayRaise = true := by
    revert hplain
    cases q.instr.op <;> decide
  refine Exec.Meets.mono hexec (fun _ m' hdone => ?_) fun _ _ hfails hne => ?_
  · cases hdone with
    | settles hm =>
      have hfiber : m'.fiber = { (inside m a rest q).fiber with
          stack := m'.fiber.stack, state := m'.fiber.state } := hm.fiber
      -- the activation goes on, and the open cells are those of before
      have hopen : m'.fiber.openUpvalues = m.fiber.openUpvalues := by
        rw [hfiber]
        rfl
      refine .of_onward hm.calm.persists (hs.brings (a.frame.ip + q.instr.width) ?_ ?_ ?_
        (fun e he _ => hopen ▸ he) fun e he => .inl (hopen ▸ he)) hm.queue
      · rw [hfiber]
        rfl
      · rw [hfiber]
        rfl
      · rw [hfiber]
        exact List.suffix_refl _
    | @enters m₁ f p hm =>
      -- an activation has been entered, above everything that is shared
      have hfiber : m₁.fiber = { (inside m a rest q).fiber with stack := m₁.fiber.stack } :=
        hm.amid.fiber
      refine .of_onward hm.amid.still.evolves.persists ⟨?_, .enters (g := f)
        (n := a.frame.ip + q.instr.width) hs.poised.frames ?_ hm.ip ?_ fun e he => ?_, .inl ?_⟩
        hm.amid.queue
      · show m₁.fiber.id = _
        rw [hfiber]
        rfl
      · show f :: m₁.fiber.frames = _
        rw [hfiber]
        rfl
      · show m₁.fiber.openUpvalues = _
        rw [hfiber]
        rfl
      · rw [hm.base]
        exact hs.poised.open_lt hcloses ⟨e.2, he⟩
      · show m₁.fiber.handlers <:+ _
        rw [hfiber]
        exact List.suffix_refl _
  · rcases hfails with ⟨heq, -⟩ | ⟨-, k, hm⟩
    · exact (hne heq).elim
    · exact ⟨hraises, k, hm⟩

/-! ### Jumps and handlers -/

/-- A jump, wherever it leads. -/
theorem passes_modifyIp (g : Nat → Nat)
    (hexec : Exec.execute q.instr (inside m a rest q) = Exec.modifyIp g (inside m a rest q)) :
    Passing m a rest q :=
  .of_ok (hexec.trans (Exec.modifyIp_eq (m := inside m a rest q) rfl g))
    (hs.passes_onward (g (a.frame.ip + q.instr.width)) rfl rfl (List.suffix_refl _) rfl)

/-- An instruction that changes at most the stack. -/
theorem passes_stack {stack : Array Value} (hexec : Exec.execute q.instr (inside m a rest q) =
    .ok () { inside m a rest q with fiber := { (inside m a rest q).fiber with stack } }) :
    Passing m a rest q :=
  .of_ok hexec (hs.passes_onward (a.frame.ip + q.instr.width) rfl rfl (List.suffix_refl _) rfl)

theorem passes_jumpIfFalse (hop : q.instr.op = .jumpIfFalse) : Passing m a rest q := by
  rcases hs.jumpIfFalse_eq hop with hexec | hexec
  · exact hs.passes_stack hexec
  · exact .of_ok hexec (hs.passes_onward _ rfl rfl (List.suffix_refl _) rfl)

/-- A handler is installed: that is the start of an attempt. -/
theorem passes_tryBegin (hop : q.instr.op = .tryBegin) : Passing m a rest q := by
  refine .of_ok (tryBegin_eq hop) (.of_onward (Heap.Evolves.refl _).persists
    ⟨rfl, .goes hs.poised.frames rfl (fun e he _ => he) fun e he => .inl he,
      .inr ⟨rfl, ⟨m.fiber.id, rest.length, a.frame.ip, a.frame.ip + q.instr.width + q.instr.first,
        m.fiber.stack.size⟩, ⟨?_, ?_⟩, rfl⟩⟩ rfl)
  · refine ⟨a.frame, rest.map Activation.frame, q.instr, hs.poised.frames, ?_, hop, ?_⟩
    · rw [hs.poised.ip]
      exact hs.poised.sound.instruction? hs.poised.mem
    · rw [List.length_map]
  · exact (Exec.step_eq hs.poised).trans (tryBegin_eq hop)

theorem passes_tryEnd (hop : q.instr.op = .tryEnd) : Passing m a rest q :=
  .of_ok (tryEnd_eq hop) (hs.passes_onward _ rfl rfl (List.tail_suffix _) rfl)

/-! ### Variables -/

/-- An assignment to a captured variable writes one slot or one cell, which may be another task's.
The slots of frames and handlers stay where they are. -/
theorem passes_setUpvalue (hop : q.instr.op = .setUpvalue) : Passing m a rest q := by
  obtain ⟨r, v, u, -, hv, hu, -, hexec⟩ := hs.setUpvalue_eq hop
  rw [Exec.writeUpvalue_eq (m := inside m a rest q) hu] at hexec
  unfold Machine.setShared at hexec
  have hbrings : ∀ {m' : Machine}, m.Brings m' m.fiber (inside m a rest q).fiber :=
    hs.brings _ rfl rfl (List.suffix_refl _) (fun _ he _ => he) fun _ he => .inl he
  cases u with
  | closed w =>
    obtain ⟨hev, -, (_ : Moves (· = r) _ _)⟩ := hs.consistent_inside.assignClosed hu hv
    exact .of_ok hexec (.of_onward hev.persists hbrings rfl)
  | onStack task slot =>
    dsimp only at hexec
    split at hexec
    · exact hs.passes_stack hexec
    · refine .of_ok hexec (.of_running (Heap.Evolves.refl _).persists (.inr hbrings) fun t' ht' => ?_)
      obtain ⟨t, ht, rfl⟩ := List.mem_map.mp ht'
      refine .inr ⟨t, ht, ?_⟩
      split
      · exact ⟨rfl, rfl, rfl, rfl⟩
      · exact .refl t

/-- A closure captures slots of the frame that makes it: each is found among the open upvalues or
added to them, and the rest of the list stays. -/
theorem passes_closure (hop : q.instr.op = .closure) : Passing m a rest q := by
  obtain ⟨r, rs, m₁, -, hm₁, hk, -, hexec, -, (_ : Law (fun _ => False) _ _)⟩ := hs.makes hop
  have hkeeps := hk.keeps.trans (hm₁.healthy.sound.tidy.keeps_alloc
    (.closure ⟨r, rs.toArray, a.frame.package⟩))
  have hfiber : m₁.fiber = { (inside m a rest q).fiber with
      openUpvalues := m₁.fiber.openUpvalues } := by rw [hk.machine]
  refine .of_ok hexec (.of_onward hkeeps.evolves.persists
    (hs.brings (a.frame.ip + q.instr.width) ?_ ?_ ?_ (fun e he _ => hk.older e he) fun e he => ?_) ?_)
  · show m₁.fiber.id = _
    rw [hfiber]
    rfl
  · show m₁.fiber.frames = _
    rw [hfiber]
    rfl
  · show m₁.fiber.handlers <:+ _
    rw [hfiber]
    exact List.suffix_refl _
  · -- a cell that was there was listed
    by_contra hnot
    obtain ⟨hold, hcell⟩ := not_or.mp hnot
    obtain ⟨u, hu⟩ := Option.ne_none_iff_exists'.mp hcell
    have hlisted := (hm₁.cells.listed m₁.fiber.raised List.mem_cons_self e he).1
    have hu' : m₁.heap.upvalue? e.2 = some u :=
      Heap.upvalue?_eq_some.mpr (hk.keeps _ _ (Heap.upvalue?_eq_some.mp hu))
    obtain rfl := Option.some.inj (hu'.symm.trans hlisted)
    obtain ⟨t, ht, hid, hmem⟩ := hs.consistent.cells.covered _ _ _ hu
    obtain rfl := hs.consistent.tasks.id_inj t ht m.fiber List.mem_cons_self (hid.trans (by
      show m₁.fiber.id = _
      rw [hfiber]
      rfl))
    exact hold hmem
  · show m₁.queue = _
    rw [hk.machine]
    rfl

/-- The variable on top of the stack goes out of scope, and its cell is closed with its value. -/
theorem passes_closeUpvalue (hop : q.instr.op = .closeUpvalue) : Passing m a rest q := by
  have heffect : q.instr.effect = ⟨1, 1, 0⟩ := by
    unfold Instruction.effect
    rw [hop]
  have hc := hs.consistent_inside
  obtain ⟨v, -, hv⟩ := hs.taken (by rw [heffect]; exact Nat.one_pos)
  have hexec := closeTop_eq (m := inside m a rest q) hv (hc.cells.order _ List.mem_cons_self)
  have hexecute : Exec.execute q.instr (inside m a rest q) = Exec.closeTop (inside m a rest q) := by
    unfold Exec.execute
    rw [hop]
  refine .of_ok (hexecute.trans hexec) (.of_onward (hc.closed (m.fiber.stack.size - 1)).closes.evolves.persists
      (hs.brings (a.frame.ip + q.instr.width) rfl rfl (List.suffix_refl _) (fun e he hlt => ?_)
        fun e he => .inl (Fiber.mem_openBelow.mp he).1) rfl)
  refine Fiber.mem_openBelow.mpr ⟨he, ?_⟩
  change e.1 < m.fiber.stack.pop.size at hlt
  rwa [Array.size_pop] at hlt

/-! ### Activations and tasks -/

/-- A return drops the frame with its values, after the cells above its base have been closed and
the handlers of deeper frames dropped. -/
theorem passes_ret (hop : q.instr.op = .ret) : Passing m a rest q := by
  have heffect : q.instr.effect = ⟨1, 1, 0⟩ := by
    unfold Instruction.effect
    rw [hop]
  obtain ⟨v, hv, -, hexec⟩ := hs.ret_eq hop
  obtain ⟨hc₁, -⟩ : _ ∧ Moves (fun _ => False) _ _ := hs.consistent_popped (by rw [heffect])
    (by rw [hop]; rfl)
  have hclosed := hc₁.closed a.frame.base
  have hev : m.heap.Evolves _ := hclosed.closes.evolves
  have hbelow : ∀ g ∈ rest.map Activation.frame, g.base < a.frame.base := by
    intro g hg
    obtain ⟨b, hb, rfl⟩ := List.mem_map.mp hg
    exact hs.poised.waiting.base_lt b hb
  cases hrest : rest with
  | nil =>
    -- the task has ended
    subst hrest
    obtain ⟨th, hth, -⟩ := hs.consistent.tasks.handle m.fiber List.mem_cons_self
    obtain ⟨hvalid, (_ : Law (fun _ => False) _ _), -⟩ := hs.ret_last hop rfl hv hth
    obtain ⟨hc, -⟩ : _ ∧ Moves (fun _ => False) _ _ := hs.leaves hop [] nofun
    have hsame : ((inside m a [] q).popped.leaving (a.past q.instr).frame [] []).heap.task?
        m.fiber.handle = some th := (hclosed.tasks _).trans hth
    refine .of_ok hexec (.of_running (hev.trans (hc.endTask_evolves hsame (hev.live hv))).persists
      (.inl ?_) fun t' ht' => ?_)
    · have hdone : (((inside m a [] q).popped.leaving (a.past q.instr).frame [] []).finishTask
          v).fiber.isDone = true := by
        show (Fiber.wake _ _).isDone = true
        rw [Fiber.isDone, Fiber.wake_frames]
        rfl
      exact .of_spent (hvalid.spent_of_done hdone)
    · obtain ⟨t, ht, rfl⟩ := List.mem_map.mp ht'
      exact .inr ⟨t, ht, (Fiber.Lasts.refl t).wake _⟩
  | cons b others =>
    subst hrest
    exact .of_ok hexec (.of_onward hev.persists ⟨rfl, .returns hs.poised.frames rfl hbelow rfl,
      .inl (List.dropWhile_suffix _)⟩ rfl)

/-- A spawned task starts with an empty list of open upvalues; the other tasks do not notice. -/
theorem passes_spawn (hop : q.instr.op = .spawn) : Passing m a rest q := by
  have heffect : q.instr.effect = ⟨1, 1, 1⟩ := by
    unfold Instruction.effect
    rw [hop]
  obtain ⟨r, c, p, htop, hclosure, hp, -⟩ := hs.thunk hop
  have hheap := hs.consistent.sound.heap
  have hstill : m.heap.Still m.nextName.2 := hheap.sound.tidy.still_intern _
  have hnamed : m.nextName.2.Healthy := hheap.intern _
  have hev : m.heap.Evolves m.nextHandle.2 :=
    hstill.evolves.trans (hnamed.sound.tidy.keeps_alloc (.task m.nextTask)).evolves
  have hexec : Exec.execute q.instr (inside m a rest q) = Exec.spawnTop (inside m a rest q) := by
    unfold Exec.execute
    rw [hop]
  rcases Nat.lt_or_ge (m.lastTask + 1) taskIds with hid | hid
  case inr => exact .of_stuck (hexec.trans (Exec.spawnTop_stuck (m := inside m a rest q) hid htop))
  refine .of_ok (hexec.trans (Exec.spawnTop_eq (m := inside m a rest q) hid htop
    (hev.closure? hclosure) (hev.prototype? hp))) (.of_running hev.persists (.inr (hs.brings
        (a.frame.ip + q.instr.width) rfl rfl (List.suffix_refl _) (fun _ he _ => he) fun _ he => .inl he))
        fun t' ht' => ?_)
  rcases List.mem_append.mp ht' with ht' | ht'
  · exact .inr ⟨t', ht', .refl t'⟩
  · -- the id of the new task was never given before
    rw [List.mem_singleton.mp ht']
    refine .inl ⟨Fiber.begins_ofClosure .., fun t ht hid => ?_⟩
    have hbound := hs.consistent.tasks.bound t ht
    rw [hid] at hbound
    exact (Nat.not_succ_le_self _ hbound).elim

/-- An await either takes the result or parks the task, at the same instruction. -/
theorem passes_awaitTask (hop : q.instr.op = .awaitTask) : Passing m a rest q := by
  have heffect : q.instr.effect = ⟨1, 1, 1⟩ := by
    unfold Instruction.effect
    rw [hop]
  obtain ⟨v, -, htop⟩ := hs.taken (by rw [heffect]; exact Nat.one_pos)
  by_cases hv : ∃ r th, v = .obj r ∧ m.heap.task? r = some th ∧
      ¬ (th.status = .running ∧ th.id = m.fiber.id)
  · obtain ⟨r, th, rfl, hth, hother⟩ := hv
    by_cases hrunning : th.status = .running
    · obtain ⟨hexec, -, (_ : Law (fun _ => False) _ _)⟩ :=
        hs.await_running hop htop hth hrunning fun hid => hother ⟨hrunning, hid⟩
      exact .of_ok hexec (hs.passes_onward a.frame.ip rfl hs.poised.frames
        (List.suffix_refl _) rfl)
    · obtain ⟨hexec, -, (_ : Law (fun _ => False) _ _)⟩ := hs.await_ended hop htop hth hrunning
      exact hs.passes_stack hexec
  · -- what is on top cannot be awaited
    have hlt := (Array.getElem?_eq_some_iff.mp htop).1
    have hpeek : Exec.peek 0 (inside m a rest q) = .ok v (inside m a rest q) :=
      Exec.peek_eq (by show 0 < m.fiber.stack.size; omega) htop
    obtain ⟨e, -, herror⟩ := Exec.awaitTask_refused hpeek fun r th heq hth => by
      by_contra hnot
      exact hv ⟨r, th, heq, hth, hnot⟩
    refine .of_error (e := e) ?_ (by rw [hop]; rfl) hs.amid
    unfold Exec.execute
    rw [hop]
    exact herror

/-- An abort drops a task that waits, with its cells closed. The running one cannot abort itself. -/
theorem passes_abortTask (hop : q.instr.op = .abortTask) : Passing m a rest q := by
  have heffect : q.instr.effect = ⟨1, 1, 0⟩ := by
    unfold Instruction.effect
    rw [hop]
  obtain ⟨v, -, htop⟩ := hs.taken (by rw [heffect]; exact Nat.one_pos)
  by_cases hv : ∃ r th, v = .obj r ∧ m.heap.task? r = some th ∧ th.id ≠ m.fiber.id
  · obtain ⟨r, th, rfl, hth, hne⟩ := hv
    cases hfind : m.queue.find? fun t => t.id = th.id with
    | some t =>
      obtain ⟨hexec, -, (_ : Law (fun _ => False) _ _), -⟩ := hs.abort_waiting hop htop hth hne hfind
      obtain ⟨hc, -⟩ : _ ∧ Moves (fun _ => False) _ _ := hs.consistent_popped (by rw [heffect])
        (by rw [hop]; rfl)
      obtain ⟨-, (_ : Moves (fun _ => False) _ _), hev, -⟩ := hc.aborting hth hfind
      refine .of_ok hexec (.of_running hev.persists (.inr ?_) fun t' ht' => ?_)
      · have hwoken : (inside m a rest q).popped.fiber.Lasts
            ((inside m a rest q).popped.fiber.wake th.id) := (Fiber.Lasts.refl _).wake _
        refine hs.brings (a.frame.ip + q.instr.width) hwoken.id hwoken.frames ?_
          (fun e he _ => ?_) fun e he => .inl ?_
        · show ((inside m a rest q).popped.fiber.wake th.id).handlers <:+ _
          rw [hwoken.handlers]
          exact List.suffix_refl _
        · show e ∈ ((inside m a rest q).popped.fiber.wake th.id).openUpvalues
          rw [hwoken.openUpvalues]
          exact he
        · change e ∈ ((inside m a rest q).popped.fiber.wake th.id).openUpvalues at he
          rw [hwoken.openUpvalues] at he
          exact he
      · obtain ⟨u, hu, rfl⟩ := List.mem_map.mp ht'
        exact .inr ⟨u, List.mem_of_mem_eraseP hu, (Fiber.Lasts.refl u).wake _⟩
    | none =>
      -- the task has ended already
      have hexec : Exec.execute q.instr (inside m a rest q) =
          .ok () (inside m a rest q).popped := by
        unfold Exec.execute
        rw [hop]
        refine (Exec.abortTop_eq (m := inside m a rest q) htop hth hne).trans ?_
        rw [show (inside m a rest q).queue.find? (fun t => decide (t.id = th.id)) = none from hfind]
        rfl
      exact hs.passes_stack hexec
  · -- what is on top cannot be aborted
    obtain ⟨e, -, herror⟩ := Exec.abortTop_refused (m := inside m a rest q) htop
      fun r th heq hth => by
        by_contra hnot
        exact hv ⟨r, th, heq, hth, hnot⟩
    have hamid : Amid (scene m a rest q) (0 + 1) (inside m a rest q) := by
      have hfirst := hs.amid
      rwa [heffect] at hfirst
    refine .of_error (e := e) ?_ (by rw [hop]; rfl) hamid.popped
    unfold Exec.execute
    rw [hop]
    exact herror

/-- **`passes`** — every instruction passes or fails amid its scene. -/
theorem passes : Passing m a rest q := by
  cases hop : q.instr.op with
  | setLocal =>
    obtain ⟨v, -, -, hexec⟩ := hs.setLocal_eq hop
    exact hs.passes_stack hexec
  | setUpvalue => exact hs.passes_setUpvalue hop
  | jump | loop => exact hs.passes_modifyIp _ (by unfold Exec.execute; rw [hop])
  | jumpIfFalse => exact hs.passes_jumpIfFalse hop
  | closure => exact hs.passes_closure hop
  | closeUpvalue => exact hs.passes_closeUpvalue hop
  | ret => exact hs.passes_ret hop
  | spawn => exact hs.passes_spawn hop
  | awaitTask => exact hs.passes_awaitTask hop
  | abortTask => exact hs.passes_abortTask hop
  | tryBegin => exact hs.passes_tryBegin hop
  | tryEnd => exact hs.passes_tryEnd hop
  | pop => exact hs.passes_stack (hs.pop_eq hop)
  | _ => exact hs.passes_plain (by rw [hop]; rfl)

end Stepping

/-! ## Errors -/

/-- **`Breaks.above`** — the activations that an error leaves stand on what the handler restores. -/
theorem Breaks.above {opens : Nat → Prop} {stack : Array Value} (hb : Breaks h opens stack a rest q)
    (hhandlers : a.handlers ++ rest.flatMap Activation.handlers = hd :: hds) :
    ∀ c ∈ (a :: rest).take ((a :: rest).length - hd.depth), hd.height ≤ c.frame.base := by
  induction rest generalizing a q with
  | nil =>
    rw [List.flatMap_nil, List.append_nil] at hhandlers
    obtain ⟨g, gs, -, hguards, -⟩ := hb.guard hhandlers
    rw [hguards.depth]
    simp
  | cons c rest ih =>
    cases hown : a.handlers with
    | cons hd' own =>
      rw [hown, List.cons_append] at hhandlers
      obtain ⟨rfl, -⟩ := List.cons.inj hhandlers
      obtain ⟨g, gs, -, hguards, -⟩ := hb.guard hown
      rw [hguards.depth, List.length_cons, Nat.sub_self]
      simp
    | nil =>
      -- it is one of an activation that waits, and this one stands on top of that
      rw [hown, List.nil_append, List.flatMap_cons] at hhandlers
      obtain ⟨q', hb', htop⟩ := hb.waiting.breaks
      obtain ⟨b, others, q'', own, hbreaks, hhd, -, hdrop, hle⟩ := hb'.catches hhandlers
      have hheight := hbreaks.height_le hhd
      obtain ⟨g, gs, -, hguards, -⟩ := hbreaks.guard hhd
      have hlen := congrArg List.length hdrop
      rw [List.length_drop, List.length_cons, List.length_cons, hguards.depth] at hlen
      have hsucc : (a :: c :: rest).length - hd.depth = (c :: rest).length - hd.depth + 1 := by
        rw [hguards.depth]
        simp only [List.length_cons]
        omega
      rw [hsucc, List.take_succ_cons]
      intro d hd'
      rcases List.mem_cons.mp hd' with rfl | hd'
      · omega
      · exact ih hb' hhandlers d hd'

/-- **`Breaks.caught`** — the handler finds the error in the slot that the code notes for it. -/
theorem Breaks.caught {opens : Nat → Prop} {stack : Array Value} {own : List Handler}
    (hb : Breaks h opens stack a rest q)
    (hown : a.handlers = hd :: own) : a.frame.base ≤ hd.height ∧
      (hd.target, hd.height - a.frame.base) ∈ a.frame.chunk.catches := by
  obtain ⟨g, gs, heq, hguards, -⟩ := hb.guard hown
  obtain ⟨guards, hencloses, hsub⟩ := hb.sound.lists.annotates.within q hb.mem
  obtain ⟨b, hb', hop, rfl, -⟩ := (hencloses.mem g).mp (hsub (by
    rw [hb.situation, heq]
    exact List.mem_cons_self))
  obtain ⟨b₁, hb₁, hoffset, -, htarget⟩ := hguards.target
  obtain rfl := hb.sound.contiguous.offset_inj hb₁ hb' (Nat.succ.inj hoffset)
  have hheight := hguards.height
  refine ⟨by rw [hheight]; exact Nat.le_add_right .., ?_⟩
  rw [hheight, htarget, Nat.add_sub_cancel_left, hb.sound.chunk]
  have hcaught := hb.sound.lists.annotates.caught b₁ hb₁ hop
  rwa [show b₁.offset + 1 + 2 + b₁.instr.first = b₁.offset + 3 + b₁.instr.first by omega]

namespace Machine

/-- **`Faulting.unwound`** — an error that is handled. -/
theorem Faulting.unwound (hf : m.Faulting) (text : String) (hhandlers : m.fiber.handlers = hd :: hds) :
    ∃ f inner others, m.fiber.frames = inner ++ f :: others ∧ others.length + 1 = hd.depth ∧
      (∀ g ∈ inner, hd.height ≤ g.base) ∧ f.base ≤ hd.height ∧ hd.height ≤ m.fiber.stack.size ∧
      (hd.target, hd.height - f.base) ∈ f.chunk.catches ∧
      unwindTo { m with fiber := { m.fiber with handlers := hds } } hd text =
        (m.cutBack hd hds f others).withText text := by
  obtain ⟨a, rest, q, hfailing⟩ := hf.failing
  have horder := hf.toConsistent.cells.order _ List.mem_cons_self
  have hown := hfailing.handlers.symm.trans hhandlers
  obtain ⟨b, others, q', own, hb, hhd, -, hdrop, hle⟩ := hfailing.breaks.catches hown
  have habove := hfailing.breaks.above hown
  obtain ⟨hbase, hcatches⟩ := hb.caught hhd
  obtain ⟨g, gs, -, hguards, -⟩ := hb.guard hhd
  have hkeep := keepFrames_eq hdrop
  rw [List.map_cons, ← hfailing.frames] at hkeep
  refine ⟨b.frame, ((a :: rest).take ((a :: rest).length - hd.depth)).map Activation.frame,
    others.map Activation.frame, ?_, ?_, fun g hg => ?_, hbase, ?_, hcatches,
    unwindTo_eq text horder hkeep⟩
  · rw [hfailing.frames, ← List.map_cons, ← List.map_cons, ← hdrop, ← List.map_append,
      List.take_append_drop]
  · rw [List.length_map, hguards.depth]
  · obtain ⟨c, hc, rfl⟩ := List.mem_map.mp hg
    exact habove c hc
  · exact ((hb.height_le hhd).trans hle).trans hfailing.floor

/-- The task of an error that nothing handles ends, and those that wait for it go on. -/
theorem Faulting.finishes (hf : m.Faulting) :
    ∀ t' ∈ (m.resetFiber.finishTask .none).fibers, t'.Spent ∨
      m.heap.Persists (m.resetFiber.finishTask .none).heap ∧ ∃ t ∈ m.fibers, t.Lasts t' := by
  obtain ⟨-, th, hth, -⟩ := hf.running
  obtain ⟨hc, (_ : Moves (fun _ => False) _ _), hspent, htasks⟩ := hf.toConsistent.resetting
  have hfinish : m.resetFiber.finishTask .none =
      m.resetFiber.endTask m.fiber.id m.fiber.handle .finished .none := by
    rw [finishTask, Consistent.id_resetFiber, Consistent.handle_resetFiber]
  have hev : m.heap.Evolves (m.resetFiber.endTask m.fiber.id m.fiber.handle .finished .none).heap :=
    (hf.toConsistent.closed 0).closes.evolves.trans
      (hc.endTask_evolves ((htasks _).trans hth) Heap.live_none)
  rw [hfinish]
  intro t' ht'
  rcases mem_fibers.mp ht' with rfl | ht'
  · exact .inl (hspent.wake m.fiber.id)
  · obtain ⟨t, ht, rfl⟩ := List.mem_map.mp ht'
    exact .inr ⟨hev.persists, t, List.mem_cons_of_mem _ ht, (Fiber.Lasts.refl t).wake _⟩

/-- **`Faulting.follows`** — what an error makes of each fiber. -/
theorem Faulting.follows (hf : m.Faulting) (hstuck : e ≠ .stuck) (hendless : e ≠ .endless) :
    ∀ t' ∈ (m.raise e).2.fibers, t'.Spent ∨ m.heap.Persists (m.raise e).2.heap ∧ ∃ t ∈ m.fibers,
      t.Follows (fun height => e.Catchable ∧ t = m.fiber ∧ m.Restores height) t' := by
  have habandon : ∀ t' ∈ m.abandon.fibers, t'.Spent := by
    obtain ⟨hvalid, (_ : Moves (fun _ => False) _ _)⟩ := hf.abandon
    have hqueue : m.abandon.queue = [] := by
      unfold Machine.abandon
      dsimp only
      split <;> rfl
    have hdone : m.abandon.fiber.isDone = true := by
      unfold Machine.abandon
      dsimp only
      split <;> rfl
    intro t' ht'
    rw [fibers, hqueue, List.mem_singleton] at ht'
    rw [ht']
    exact hvalid.spent_of_done hdone
  by_cases hcatchable : e.Catchable
  · cases hhandlers : m.fiber.handlers with
    | cons hd hds =>
      obtain ⟨f, inner, others, hframes, -, habove, hbase, hsize, hcatches, heq⟩ :=
        hf.unwound e.message hhandlers
      rw [raise_handled hcatchable hhandlers]
      dsimp only
      rw [heq]
      have hmem : ∀ g ∈ f :: others, g ∈ m.fiber.frames := fun g hg => by
        rw [hframes]
        exact List.mem_append_right _ hg
      obtain ⟨hc, (_ : Moves (fun _ => False) _ _)⟩ := hf.toConsistent.cutBack hd hds hmem
      have hev : m.heap.Evolves ((m.cutBack hd hds f others).withText e.message).heap :=
        (hf.toConsistent.closed hd.height).closes.evolves.trans
          (hc.heap_sound.tidy.still_intern e.message).evolves
      intro t' ht'
      refine .inr ⟨hev.persists, ?_⟩
      rcases mem_fibers.mp ht' with rfl | ht'
      · refine ⟨m.fiber, List.mem_cons_self, rfl, .unwinds hframes rfl habove hbase ?_ rfl hcatches
          ⟨hcatchable, rfl, hd, hds, hhandlers, rfl⟩, ?_⟩
        · show ((m.fiber.stack.shrink hd.height).push _).size = _
          rw [Array.size_push, Array.size_shrink, Nat.min_eq_left hsize]
        · rw [hhandlers]
          exact List.suffix_cons ..
      · exact ⟨t', List.mem_cons_of_mem _ ht', (Fiber.Lasts.refl t').follows⟩
    | nil =>
      by_cases hid : m.fiber.id = mainTask
      · rw [raise_main hcatchable hhandlers hid]
        exact fun t' ht' => .inl (habandon t' ht')
      · rw [raise_uncaught hcatchable hhandlers hid]
        have hf' : { m with
            stderr := m.stderr ++ (m.runtimeError e.message).text ++ "\n" }.Faulting :=
          ⟨hf.toConsistent.withErrors _, hf.failing⟩
        intro t' ht'
        rcases hf'.finishes t' ht' with hspent | ⟨hpersists, t, ht, hlasts⟩
        · exact .inl hspent
        · exact .inr ⟨hpersists, t, ht, hlasts.follows⟩
  · -- a file that is no program
    have hends : (m.raise e).2 = m.abandon := by
      cases e <;> first
        | rfl
        | exact (hcatchable trivial).elim
        | exact (hstuck rfl).elim
        | exact (hendless rfl).elim
    rw [hends]
    exact fun t' ht' => .inl (habandon t' ht')

/-- **`Passes.of_raise`** — the error of a machine that has moved on within an instruction. -/
theorem Passes.of_raise (hh : m.heap.Evolves m₁.heap) (hf : m₁.Faulting)
    (hfibers : ∀ u ∈ m₁.fibers, ∃ t ∈ m.fibers, u.id = t.id ∧ u.handlers = t.handlers ∧
      ∀ made lands t', u.Advances made lands t' → t.Advances made lands t') (hstuck : e ≠ .stuck)
    (hendless : e ≠ .endless) (hthrows : e.Catchable → m.Throws e m₁) :
    m.Passes (m₁.raise e).2 := by
  intro t' ht'
  refine (hf.follows hstuck hendless t' ht').imp .of_spent fun ⟨hpersists, u, hu, hfollows⟩ => ?_
  obtain ⟨t, ht, hid, hhandlers, hadvances⟩ := hfibers u hu
  refine ⟨fun r o o'' ho ho'' => ?_, t, ht, hfollows.id.trans hid,
    (hadvances _ _ t' hfollows.advances).mono (fun _ => False.elim) fun height hlands => ?_,
    .inl (hhandlers ▸ hfollows.handlers)⟩
  rotate_left
  · obtain ⟨hcatchable, rfl, hrestores⟩ := hlands
    exact ⟨e, m₁, hthrows hcatchable, rfl, hid, hrestores⟩
  obtain ⟨o', ho', hfixed⟩ := hh r o ho
  exact (hpersists r o' o'' ho' ho'').trans hfixed

/-! ## Every step -/

theorem fibers_defineGlobal (m : Machine) (name : String) (v : Value) :
    (m.defineGlobal name v).fibers = m.fibers := by
  unfold defineGlobal
  dsimp only
  split <;> rfl

/-- The main task is at the start of a closure. -/
theorem begins_startMain (m : Machine) (closure : Ref) (chunk : Chunk) :
    (m.startMain closure chunk).queue = [] ∧ (m.startMain closure chunk).fiber.Begins ∧
      ∀ f ∈ (m.startMain closure chunk).fiber.frames, f.closure = closure := by
  unfold startMain
  dsimp only
  have hsame := fibers_defineGlobal { m.restart with
    heap := ((internAll m.restart.heap m.restart.scriptArgs).2.alloc
      (.list (internAll m.restart.heap m.restart.scriptArgs).1)).2 } "args"
        (.obj ((internAll m.restart.heap m.restart.scriptArgs).2.alloc
          (.list (internAll m.restart.heap m.restart.scriptArgs).1)).1)
  obtain ⟨hfiber, hqueue⟩ := List.cons.inj hsame
  rw [hfiber]
  refine ⟨hqueue, ⟨fun f hf => ?_, rfl, rfl⟩, fun f hf => ?_⟩ <;>
    obtain rfl := List.mem_singleton.mp hf <;> rfl

/-- **`Valid.begets_load`** — a machine that is about to run a script has one task, which runs a closure
that has just been made. -/
theorem Valid.begets_load {script : Ref} {source path : String} (hv : m.Valid)
    (hcompile : compile m.heap source path = (.ok script, h)) :
    ∀ t' ∈ ({ m with heap := h }.load script path).fibers, m.Begets t' := by
  obtain ⟨hh, hstill⟩ := healthy_compile hv.sound.heap source path
  rw [hcompile] at hh hstill
  intro t' ht'
  unfold load at ht'
  dsimp only at ht'
  obtain ⟨hqueue, hbegins, hclosure⟩ := begins_startMain ({ m with
    heap := ((h.alloc (.closure ⟨script, #[], none⟩)).2.intern path).2 }.defineGlobal "__name__" _)
      (h.alloc (.closure ⟨script, #[], none⟩)).1 _
  rw [fibers, hqueue, List.mem_singleton] at ht'
  subst ht'
  refine ⟨hbegins, fun t ht _ f' hf' f hf heq => ?_⟩
  obtain ⟨o, ho, -⟩ := ((hv.sound.of_mem_fibers ht).frames f hf).closure
  obtain ⟨o', ho', -⟩ := hstill.evolves _ _ ho
  rw [← heq, hclosure f' hf', hh.sound.tidy.get?_alloc_fst] at ho'
  cases ho'

/-- **`Valid.fails`** — an instruction that fails is one that can, and it has touched nothing but what it
takes. -/
theorem Valid.fails (hv : m.Valid) (hready : m.Ready) (hhonest : m.heap.Honest)
    (hstep : Exec.step m = .error e m₁) (hstuck : e ≠ .stuck) :
    ∃ a rest q k, Stepping m a rest q ∧ q.instr.op.mayRaise = true ∧
      Amid (Stepping.scene m a rest q) k m₁ ∧ m₁.Faulting := by
  obtain ⟨a, rest, q, hs⟩ := hv.stepping hready hhonest
  have hpassing := hs.passes
  unfold Stepping.Passing Exec.Meets at hpassing
  rw [Exec.step_eq hs.poised] at hstep
  rw [hstep] at hpassing
  obtain ⟨hraises, k, hamid⟩ := hpassing hstuck
  have hcloses : q.instr.op.closesTaken = false := by
    revert hraises
    cases q.instr.op <;> decide
  obtain ⟨hfaulting, (_ : Law (fun _ => False) _ _)⟩ := hs.faulting hraises hcloses hamid
  exact ⟨a, rest, q, k, hs, hraises, hamid, hfaulting⟩

/-- **`Valid.passes`** — whatever happens to a valid machine, every fiber passes. -/
theorem Valid.passes (hv : m.Valid) (hgoes : m.Goes m') : m.Passes m' := by
  have hfibers : ∀ {m' : Machine}, m.heap.Evolves m'.heap → m'.fibers = m.fibers → m.Passes m' :=
    fun hev hsame => .of_same hev.persists hsame
  -- fibers change when they run, fail or get their turn; in all other steps they are the same
  cases hgoes with
  | steps hready hhonest hstep =>
    obtain ⟨a, rest, q, hs⟩ := hv.stepping hready hhonest
    have hpassing := hs.passes
    unfold Stepping.Passing Exec.Meets at hpassing
    rw [Exec.step_eq hs.poised] at hstep
    rwa [hstep] at hpassing
  | @fails m₁ e hready hhonest hstep hstuck hendless =>
    obtain ⟨a, rest, q, k, hs, -, hamid, hfaulting⟩ := hv.fails hready hhonest hstep hstuck
    have hfiber : m₁.fiber = { (Stepping.inside m a rest q).fiber with stack := m₁.fiber.stack } :=
      hamid.fiber
    refine .of_raise hamid.evolves hfaulting (fun u hu => ?_) hstuck hendless
      (.fails hready hhonest hstep)
    rcases mem_fibers.mp hu with rfl | hu
    · refine ⟨m.fiber, List.mem_cons_self, ?_, ?_, fun _ _ t' => .of_moved hs.poised.frames
        (n := a.frame.ip + q.instr.width) ?_ ?_⟩ <;> rw [hfiber] <;> rfl
    · refine ⟨u, List.mem_cons_of_mem _ ?_, rfl, rfl, fun _ _ _ => id⟩
      rwa [hamid.queue] at hu
  | turns hturn =>
    obtain ⟨hheap, hlasts⟩ := hturn.lasts
    refine .of_lasts (hheap ▸ (Heap.Evolves.refl _).persists) fun t' ht' => .inr (hlasts t' ht')
  | deadlocks hturn =>
    obtain ⟨hheap, hlasts⟩ := hturn.lasts
    obtain ⟨hfaulting, (_ : Moves (fun _ => False) _ _)⟩ := hturn.faulting hv
    refine .of_raise (hheap ▸ .refl _) hfaulting (fun u hu => ?_) nofun nofun
      fun _ => .deadlock hturn rfl
    obtain ⟨t, ht, hlasts⟩ := hlasts u hu
    exact ⟨t, ht, hlasts.id, hlasts.handlers, fun _ _ _ => hlasts.advances⟩
  | collects => exact .of_same (hv.heap_sound.calm_collect m.roots).persists rfl
  | interns text => exact hfibers (hv.heap_sound.tidy.still_intern text).evolves rfl
  | compiles source path => exact hfibers (healthy_compile hv.sound.heap source path).2.evolves rfl
  | loads hcompile => exact fun t' ht' => .inl (hv.begets_load hcompile t' ht')
  | defines name hlive =>
    refine hfibers ?_ (fibers_defineGlobal m name _)
    rw [heap_defineGlobal]
    exact (hv.heap_sound.tidy.still_intern name).evolves
  | ends | outside => exact hfibers (.refl _) rfl

end Machine

end ScriptMachine
