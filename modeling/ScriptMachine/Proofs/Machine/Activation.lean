import Mathlib
import ScriptMachine.Proofs.Machine.Plain

/-!
# ScriptMachine.Proofs.Machine.Activation — where a fiber stands

A fiber is a stack of activations. Each runs the code of a trusted function, so there is a listing for
it, and the fiber keeps to the situations of these listings: the activation that runs has as many
values on its part of the stack as its situation says, the handlers it has installed are those of the
situation, only slots that may be shared are shared, and where a literal is being put together there
is a collection of its kind. Every other activation *waits*: it stands behind a plain instruction that
has entered the activation above it and counts on the results of that one.

Nothing here says what an instruction does. The statements are about one moment, and about what they
depend on: the heap may go on, and cells may be closed, without disturbing them. That the collection of
a literal stays where it is rests on two facts about the code: its slot is shared with no closure, so
that no cell leads to it, and no assignment names it.

The main statements are about going on. `Alive.persists` says that a fiber stays alive while the heap
keeps what it holds, `Waiting.mono` that activations which wait are not disturbed by what happens above
them, and `Executing.fall` and `Executing.enter` what a fiber stands at when its instruction has done
what its effect says. Inductions are along `Waiting`, one activation after the other.
-/

namespace ScriptMachine

/-- A slot of the fiber is shared with a closure. -/
def Fiber.IsOpen (t : Fiber) (slot : Nat) : Prop :=
  ∃ cell, (slot, cell) ∈ t.openUpvalues

/-- **`Activation`** — an activation, the function it runs with its listing, the situation it is in,
and the handlers it has installed. -/
structure Activation where
  frame : Frame
  function : Prototype
  listing : List Placed
  situation : Situation
  handlers : List Handler

/-- **`hd.Guards listing depth base g`** — the handler is the one that the guard tells of, installed by
an activation at `base` when there were `depth` activations. -/
structure Handler.Guards (listing : List Placed) (depth base : Nat) (hd : Handler) (g : Guard) :
    Prop where
  depth : hd.depth = depth
  height : hd.height = base + g.height
  target : ∃ b ∈ listing, b.offset + 1 = g.operand ∧ b.instr.op.isForward = true ∧
    hd.target = g.operand + 2 + b.instr.first

/-- **`a.Sound h depth`** — the activation, the `depth`-th of its fiber, runs the code of its function,
and its handlers are those of its situation. -/
structure Activation.Sound (h : Heap) (depth : Nat) (a : Activation) : Prop where
  closure : ∃ c, h.closure? a.frame.closure = some c ∧ h.prototype? c.prototype = some a.function
  chunk : a.frame.chunk = a.function.chunk
  lists : h.Lists a.function a.listing
  handlers : List.Forall₂ (Handler.Guards a.listing depth a.frame.base) a.handlers
    a.situation.handlers

/-- **`Waiting h opens stack as top results`** — the activations `as`, innermost first, wait for the one
above them, which has its part of the stack from `top` on and will leave so many values. -/
inductive Waiting (h : Heap) (opens : Nat → Prop) (stack : Array Value) :
    List Activation → (top results : Nat) → Prop
  | bottom {results : Nat} : Waiting h opens stack [] 0 results
  | call {a : Activation} {rest : List Activation} {top results : Nat} {q : Placed}
      (sound : a.Sound h (rest.length + 1)) (mem : q ∈ a.listing)
      (situation : q.situation = a.situation) (ip : a.frame.ip = q.offset + q.instr.width)
      (plain : q.instr.op.isPlain = true) (makes : q.instr.op.makes = none)
      (leaves : q.instr.effect.leaves = results)
      (height : top = a.frame.base + (a.situation.height - q.instr.effect.takes))
      (shared : ∀ j, opens j → a.frame.base ≤ j → j < top → a.situation.mayBeOpen (j - a.frame.base))
      (holds : ∀ j k, a.situation.holds j k → j < a.situation.height - q.instr.effect.takes →
        h.Holds stack (a.frame.base + j) k)
      (outer : Waiting h opens stack rest a.frame.base a.frame.kind.results) :
      Waiting h opens stack (a :: rest) top results

/-- **`t.HoldsFresh h a o`** — the value on top is the closure that the instruction ending at `o` has
made, and nothing else can change it. -/
structure Fiber.HoldsFresh (h : Heap) (t : Fiber) (a : Activation) (o : Nat) : Prop where
  made : ∃ r c, t.stack[t.stack.size - 1]? = some (.obj r) ∧ h.closure? r = some c ∧
    ∀ b ∈ a.listing, b.instr.op = .closure → b.offset + b.instr.width = o →
      a.frame.chunk.constant? b.instr.first = some (.obj c.prototype)
  unshared : ¬ t.IsOpen (t.stack.size - 1)

/-- **`t.Stands h a rest`** — the fiber is in the activation `a`, in the situation of it, and `rest`
waits. -/
structure Fiber.Stands (h : Heap) (t : Fiber) (a : Activation) (rest : List Activation) : Prop where
  frames : t.frames = a.frame :: rest.map Activation.frame
  handlers : t.handlers = a.handlers ++ rest.flatMap Activation.handlers
  sound : a.Sound h (rest.length + 1)
  size : t.stack.size = a.frame.base + a.situation.height
  shared : ∀ j, t.IsOpen j → a.frame.base ≤ j → a.situation.mayBeOpen (j - a.frame.base)
  holds : ∀ j k, a.situation.holds j k → h.Holds t.stack (a.frame.base + j) k
  waiting : Waiting h t.IsOpen t.stack rest a.frame.base a.frame.kind.results

/-- **`t.At h a rest q`** — the situation of the fiber is that before the instruction `q`. -/
structure Fiber.At (h : Heap) (t : Fiber) (a : Activation) (rest : List Activation) (q : Placed) :
    Prop extends t.Stands h a rest where
  mem : q ∈ a.listing
  situation : q.situation = a.situation
  fresh : q.instr.op.needsFresh = true → t.HoldsFresh h a q.offset

/-- **`t.Rests`** — a fiber that sleeps has a value on top that no closure shares. -/
def Fiber.Rests (t : Fiber) : Prop :=
  ∀ since deadline, t.state = .sleeping since deadline →
    0 < t.stack.size ∧ ¬ t.IsOpen (t.stack.size - 1)

/-- **`t.Poised h a rest q`** — the fiber is about to execute the instruction `q`. It can only have been
parked by this very instruction. -/
structure Fiber.Poised (h : Heap) (t : Fiber) (a : Activation) (rest : List Activation)
    (q : Placed) : Prop extends t.At h a rest q where
  ip : a.frame.ip = q.offset
  parked : ∀ task, t.state = .parked task → q.instr.op = .awaitTask
  sleeping : ∀ since deadline, t.state = .sleeping since deadline → q.instr.op.needsFresh = false ∧
    ∀ k, ¬ a.situation.holds (a.situation.height - 1) k
  rests : t.Rests

/-- **`t.Executing h a rest q`** — the fiber has moved past the instruction `q` and executes it. -/
structure Fiber.Executing (h : Heap) (t : Fiber) (a : Activation) (rest : List Activation)
    (q : Placed) : Prop extends t.At h a rest q where
  ip : a.frame.ip = q.offset + q.instr.width
  ready : t.state = .ready

/-- **`t.Alive h`** — the fiber is about to execute an instruction. -/
def Fiber.Alive (h : Heap) (t : Fiber) : Prop :=
  ∃ a rest q, t.Poised h a rest q

/-- **`t.Spent`** — the fiber has nothing left to run, and holds on to nothing. -/
structure Fiber.Spent (t : Fiber) : Prop where
  frames : t.frames = []
  stack : t.stack = #[]
  openUpvalues : t.openUpvalues = []
  handlers : t.handlers = []

variable {h h' : Heap} {t : Fiber} {a : Activation} {rest : List Activation} {q : Placed}
  {opens opens' : Nat → Prop} {stack stack' : Array Value} {top results : Nat}

theorem Fiber.Alive.not_done (ht : t.Alive h) : t.isDone = false := by
  obtain ⟨a, rest, q, hp⟩ := ht
  simp [Fiber.isDone, hp.frames]

theorem Fiber.Spent.done (ht : t.Spent) : t.isDone = true := by
  simp [Fiber.isDone, ht.frames]

/-! ## The code of an activation -/

namespace Heap.Lists

variable {p : Prototype} {listing : List Placed} (hl : h.Lists p listing)
include hl

/-- The code of a function is the listing that its discipline is about. -/
theorem splits : p.chunk.Splits h 0 (instructionsOf listing) := by
  obtain ⟨statements, closures, hd⟩ := hl.disciplined
  refine hd.splits fun k n hfunction => ?_
  obtain ⟨r, p', hr, hp, rfl⟩ := hfunction
  rw [Chunk.captureCount, hr]
  simp [hp]

/-- **`Lists.instruction?`** — the machine decodes the instructions of a listing. -/
theorem instruction? (hq : q ∈ listing) : p.chunk.instruction? h q.offset = some q.instr :=
  hl.splits.instruction? (q.offset, q.instr) (mem_instructionsOf.mpr ⟨q, hq, rfl, rfl⟩)

/-- **`Lists.balanced`** — the situations of a listing tell one height of the stack for every
instruction. -/
theorem balanced : ∃ statements, p.Balanced h statements (heightIn listing) := by
  obtain ⟨statements, closures, hd⟩ := hl.disciplined
  exact ⟨statements, hd.balanced hl.splits⟩

end Heap.Lists

namespace Activation.Sound

variable {depth : Nat} (ha : a.Sound h depth)
include ha

/-- There are landmarks for which the listing is disciplined. -/
theorem disciplined : ∃ statements closures, Disciplined (h.pool a.function) a.function.arity
    a.frame.chunk.code statements closures a.listing :=
  ha.chunk ▸ ha.lists.disciplined

/-- The instruction at hand suits the situation. -/
theorem suits (hq : q ∈ a.listing) : q.instr.Suits (h.pool a.function) q.offset q.situation := by
  obtain ⟨statements, closures, hd⟩ := ha.disciplined
  exact hd.suits q hq

/-- Every way out of the instruction leads to another one of the listing. -/
theorem exits (hq : q ∈ a.listing) {e : Exit} {s : Situation}
    (hl : Leads q.offset q.instr q.situation e s) : Reaches a.listing s e := by
  obtain ⟨statements, closures, hd⟩ := ha.disciplined
  exact hd.exits q hq e s hl

theorem contiguous : Contiguous 0 a.listing := by
  obtain ⟨statements, closures, hd⟩ := ha.disciplined
  exact hd.contiguous

/-- What is decoded at an offset of the listing is what the listing has there. -/
theorem instruction? (hq : q ∈ a.listing) :
    a.frame.chunk.instruction? h q.offset = some q.instr :=
  ha.chunk ▸ ha.lists.instruction? hq

/-- The heap may go on as long as it keeps what the activation holds. -/
theorem persists (hh : h.Persists h') (hs : h'.Sound) (hf : h'.Has a.frame.closure .closure) :
    a.Sound h' depth := by
  obtain ⟨c, hc, hp⟩ := ha.closure
  have hc' := hh.closure? hc hf.live
  have hp' := hh.prototype? hp (hs.closure hc').1.live
  exact ⟨⟨c, hc', hp'⟩, ha.chunk, hh.lists ha.lists (hs.prototype hp'), ha.handlers⟩

end Activation.Sound

/-- Two instructions of a listing that end at the same place are the same. -/
theorem Contiguous.end_inj {o : Nat} {l : List Placed} (hl : Contiguous o l) {p q : Placed}
    (hp : p ∈ l) (hq : q ∈ l)
    (heq : p.offset + p.instr.width = q.offset + q.instr.width) : p = q := by
  have hpos : ∀ i : Instruction, 0 < i.width := Instruction.width_pos
  induction l generalizing o with
  | nil => simp at hp
  | cons r l ih =>
    obtain ⟨hr, -, hrest⟩ := hl
    rcases List.mem_cons.mp hp with rfl | hp' <;> rcases List.mem_cons.mp hq with rfl | hq'
    · rfl
    · have hle := hrest.le_offset q hq'
      have := hpos q.instr
      omega
    · have hle := hrest.le_offset p hp'
      have := hpos p.instr
      omega
    · exact ih hrest hp' hq'

/-! ## What lasts -/

/-- A collection stays one as long as the heap keeps it. -/
theorem Heap.Holds.persists {i : Nat} {k : Collection} (hk : h.Holds stack i k) (hh : h.Persists h')
    (hlive : ∀ v ∈ stack, h'.Live v) : h'.Holds stack i k := by
  obtain ⟨r, hr, o, ho, hkind⟩ := hk
  obtain ⟨o', ho'⟩ := Heap.live_obj.mp (hlive _ (Array.mem_of_getElem? hr))
  exact ⟨r, hr, o', ho', (Obj.kind_eq_of_fixed (hh r o o' ho ho')).trans hkind⟩

theorem Heap.Holds.congr {i i' : Nat} {k : Collection} (hk : h.Holds stack i k)
    (hi : stack'[i']? = stack[i]?) : h.Holds stack' i' k :=
  let ⟨r, hr, hhas⟩ := hk
  ⟨r, hi.trans hr, hhas⟩

/-- Closing cells frees an activation that waits of nothing it counts on, and neither does a change of
slots that are shared. -/
theorem Waiting.mono (hw : Waiting h opens stack rest top results)
    (ho : ∀ j, opens' j → j < top → opens j)
    (hk : ∀ j, j < top → ¬ opens j → stack'[j]? = stack[j]?) :
    Waiting h opens' stack' rest top results := by
  induction hw with
  | bottom => exact .bottom
  | @call a rest top results q sound mem situation ip plain makes leaves height shared holds _ ih =>
    refine .call sound mem situation ip plain makes leaves height
      (fun j hj hle hlt => shared j (ho j hj hlt) hle hlt) (fun j k hj hlt => ?_)
      (ih (fun j hj hlt => ho j hj ?_) fun j hlt => hk j ?_)
    · -- the slot of a collection is not shared
      have hheld := ((sound.suits mem).held j k (situation ▸ hj)).2
      rw [situation] at hheld
      have htop : a.frame.base + j < top := by omega
      refine (holds j k hj hlt).congr (hk _ htop fun hopen => hheld ?_)
      have hshared := shared _ hopen (Nat.le_add_right ..) htop
      rwa [Nat.add_sub_cancel_left] at hshared
    · omega
    · omega

/-- Activations that wait are not disturbed by what happens in the heap, as long as their closures
stay closures. -/
theorem Waiting.persists (hw : Waiting h opens stack rest top results) (hh : h.Persists h')
    (hs : h'.Sound) (hf : ∀ a ∈ rest, h'.Has a.frame.closure .closure)
    (hlive : ∀ v ∈ stack, h'.Live v) : Waiting h' opens stack rest top results := by
  induction hw with
  | bottom => exact .bottom
  | call sound mem situation ip plain makes leaves height shared holds _ ih =>
    exact .call (sound.persists hh hs (hf _ List.mem_cons_self)) mem situation ip plain makes leaves height
      shared (fun j k hj hlt => (holds j k hj hlt).persists hh hlive)
      (ih fun a ha => hf a (List.mem_cons_of_mem _ ha))

namespace Fiber

/-- The activations of a fiber hold closures that are in the heap. -/
theorem Stands.has (hst : t.Stands h a rest) (ht : t.Sound h') :
    ∀ b ∈ a :: rest, h'.Has b.frame.closure .closure := by
  intro b hb
  apply (ht.frames b.frame _).closure
  rw [hst.frames, ← List.map_cons]
  exact List.mem_map_of_mem hb

theorem HoldsFresh.persists {o : Nat} (hf : t.HoldsFresh h a o) (hh : h.Persists h')
    (ht : t.Sound h') : t.HoldsFresh h' a o := by
  obtain ⟨r, c, hr, hc, hmade⟩ := hf.made
  exact ⟨⟨r, c, hr, hh.closure? hc (ht.stack _ (Array.mem_of_getElem? hr)), hmade⟩, hf.unshared⟩

/-- Neither is the one that runs. -/
theorem Stands.persists (hst : t.Stands h a rest) (hh : h.Persists h') (hs : h'.Sound)
    (ht : t.Sound h') : t.Stands h' a rest :=
  { hst with
    sound := hst.sound.persists hh hs (hst.has ht a List.mem_cons_self)
    holds := fun j k hj => (hst.holds j k hj).persists hh ht.stack
    waiting := hst.waiting.persists hh hs (fun b hb => hst.has ht b (List.mem_cons_of_mem _ hb))
      ht.stack }

/-- **`Alive.persists`** — a fiber stays alive as long as the heap keeps what it holds. -/
theorem Alive.persists (ht : t.Alive h) (hh : h.Persists h') (hs : h'.Sound) (ht' : t.Sound h') :
    t.Alive h' := by
  obtain ⟨a, rest, q, hp⟩ := ht
  exact ⟨a, rest, q, { hp with
    toStands := hp.toStands.persists hh hs ht'
    fresh := fun hop => (hp.fresh hop).persists hh ht' }⟩

/-! ## On to the next instruction -/

/-- The activation in another situation. -/
theorem Stands.flow {s : Situation} (hst : t.Stands h a rest) (hs : a.situation.Flows s) :
    t.Stands h { a with situation := s } rest where
  frames := hst.frames
  handlers := hst.handlers
  sound := ⟨hst.sound.closure, hst.sound.chunk, hst.sound.lists, hs.handlers ▸ hst.sound.handlers⟩
  size := hs.height ▸ hst.size
  shared j hj hle := hs.mayBeOpen _ (hst.shared j hj hle)
  holds j k hj := hst.holds j k (hs.holds j k hj)
  waiting := hst.waiting

/-- **`Stands.alive`** — a fiber that stands where control can go is about to execute an
instruction. -/
theorem Stands.alive (hst : t.Stands h a rest)
    (hreach : Reaches a.listing a.situation (.direct a.frame.ip))
    (hfresh : a.situation.fresh = true → t.HoldsFresh h a a.frame.ip)
    (hsleeps : ∀ since deadline, t.state = .sleeping since deadline → a.situation.fresh = false ∧
      ∀ k, ¬ a.situation.holds (a.situation.height - 1) k)
    (hstate : ∀ task, t.state ≠ .parked task) (hrests : t.Rests) : t.Alive h := by
  obtain ⟨q, hq, hoffset, hflows⟩ := hreach
  -- an instruction that counts on a fresh closure has one
  have hneeds : q.instr.op.needsFresh = true → a.situation.fresh = true := fun hop =>
    hflows.fresh ((hst.sound.suits hq).fresh hop)
  have hholds : q.instr.op.needsFresh = true → t.HoldsFresh h a q.offset := by
    intro hop
    rw [hoffset]
    exact hfresh (hneeds hop)
  refine ⟨{ a with situation := q.situation }, rest, q, ?_⟩
  exact { hst.flow hflows with
    mem := hq
    situation := rfl
    fresh := fun hop => ⟨(hholds hop).made, (hholds hop).unshared⟩
    ip := hoffset.symm
    parked := fun task hp => (hstate task hp).elim
    sleeping := fun since deadline hs => by
      obtain ⟨hstale, hempty⟩ := hsleeps since deadline hs
      refine ⟨?_, fun k hk => hempty k ?_⟩
      · cases hop : q.instr.op.needsFresh with
        | false => rfl
        | true => rw [hneeds hop] at hstale; cases hstale
      · rw [hflows.height]
        exact hflows.holds _ k hk
    rests := hrests }

/-- A fiber that is ready to run goes on where control can go. -/
theorem Stands.alive_of_ready (hst : t.Stands h a rest)
    (hreach : Reaches a.listing a.situation (.direct a.frame.ip))
    (hfresh : a.situation.fresh = true → t.HoldsFresh h a a.frame.ip) (hready : t.state = .ready) :
    t.Alive h := by
  have hawake : ∀ since deadline, t.state ≠ .sleeping since deadline := by
    intro since deadline hsleep
    cases hready.symm.trans hsleep
  refine hst.alive hreach hfresh (fun since deadline hsleep => ?_) ?_ fun since deadline hsleep => ?_
  · exact (hawake since deadline hsleep).elim
  · intro task hparked
    cases hready.symm.trans hparked
  · exact (hawake since deadline hsleep).elim

/-- A fiber stays poised when it moves past its instruction, in which case it executes it. -/
theorem Poised.executing (hp : t.Poised h a rest q) (hready : t.state = .ready) :
    ({ t with frames := { a.frame with ip := a.frame.ip + q.instr.width } ::
        rest.map Activation.frame } : Fiber).Executing h
      { a with frame := { a.frame with ip := a.frame.ip + q.instr.width } } rest q where
  frames := rfl
  handlers := hp.handlers
  sound := ⟨hp.sound.closure, hp.sound.chunk, hp.sound.lists, hp.sound.handlers⟩
  size := hp.size
  shared := hp.shared
  holds := hp.holds
  waiting := hp.waiting
  mem := hp.mem
  situation := hp.situation
  fresh hop := ⟨(hp.fresh hop).made, (hp.fresh hop).unshared⟩
  ip := congrArg (· + q.instr.width) hp.ip
  ready := hready

/-! ## Leaving an instruction -/

section Leaving

variable {t' : Fiber}

/-- What is shared lies below what the instruction takes. -/
theorem At.open_lt (hat : t.At h a rest q) (hcloses : q.instr.op.closesTaken = false) {j : Nat}
    (hj : t.IsOpen j) : j < t.stack.size - q.instr.effect.takes := by
  have hsuits := hat.sound.suits hat.mem
  have hreads := hsuits.reads
  have htakes := q.instr.takes_le_reads
  rw [hat.situation] at hsuits hreads
  rw [hat.size]
  by_cases hbase : a.frame.base ≤ j
  · have hnot : ¬ a.situation.height - q.instr.effect.takes ≤ j - a.frame.base := fun hle =>
      hsuits.taken hcloses _ hle (hat.shared j hj hbase)
    omega
  · omega

/-- The slot of a collection that a literal is adding to is on the stack and not shared. -/
theorem At.unshared (hat : t.At h a rest q) {j : Nat} {k : Collection} (hj : a.situation.holds j k) :
    j < a.situation.height ∧ ¬ t.IsOpen (a.frame.base + j) := by
  have hheld := (hat.sound.suits hat.mem).held j k (hat.situation ▸ hj)
  rw [hat.situation] at hheld
  refine ⟨hheld.1, fun hopen => hheld.2 ?_⟩
  have hshared := hat.shared _ hopen (Nat.le_add_right ..)
  rwa [Nat.add_sub_cancel_left] at hshared

/-- **`Executing.fall`** — the next instruction follows when the stack has grown by what the instruction
leaves and shrunk by what it takes, and every other slot that is not shared has kept its value, but for
a variable that the instruction assigns. -/
theorem Executing.fall (he : t.Executing h a rest q) (hfalls : q.instr.op.falls = true)
    (hop : q.instr.op ≠ .tryBegin) (hh : h.Persists h') (hs : h'.Sound) (ht' : t'.Sound h')
    (hframes : t'.frames = t.frames) (hhandlers : t'.handlers = t.handlers)
    (hsize : t'.stack.size = t.stack.size - q.instr.effect.takes + q.instr.effect.leaves)
    (hopen : ∀ j, t'.IsOpen j → j < t'.stack.size ∧ (t.IsOpen j ∨
      a.frame.base ≤ j ∧ ⟨true, j - a.frame.base⟩ ∈ q.instr.captures))
    (hkept : ∀ j, j < t.stack.size - q.instr.effect.takes → ¬ t.IsOpen j →
      t'.stack[j]? = t.stack[j]? ∨ q.instr.op = .setLocal ∧ j = a.frame.base + q.instr.first)
    (hmade : ∀ k, q.instr.op.makes = some k → h'.Holds t'.stack t.stack.size k)
    (hfresh : q.instr.op = .closure →
      (∀ c ∈ q.instr.captures, c.isLocal = true → c.index < a.situation.height) →
      t'.HoldsFresh h' a (q.offset + q.instr.width))
    (hstate : t'.state = .ready ∨ q.instr.op ≠ .closure ∧ q.instr.op.makes = none ∧
      0 < q.instr.effect.leaves ∧ ∃ since deadline, t'.state = .sleeping since deadline)
    (hrests : t'.Rests) : t'.Alive h' := by
  have hsuits := he.sound.suits he.mem
  have hreads := hsuits.reads
  have htakes := q.instr.takes_le_reads
  rw [he.situation] at hsuits hreads
  have hsize₀ := he.size
  have hnext : t'.stack.size = a.frame.base +
      (a.situation.height - q.instr.effect.takes + q.instr.effect.leaves) := by
    rw [hsize, he.size]
    omega
  have hhas : ∀ b ∈ a :: rest, h'.Has b.frame.closure .closure := by
    intro b hb
    apply (ht'.frames b.frame _).closure
    rw [hframes, he.frames, ← List.map_cons]
    exact List.mem_map_of_mem hb
  -- those that wait stand below the activation, where the instruction takes nothing
  have hwaiting : Waiting h t'.IsOpen t'.stack rest a.frame.base a.frame.kind.results := by
    refine he.waiting.mono (fun j hj hlt => ?_) fun j hlt hclosed => ?_
    · obtain ⟨-, hj | ⟨hle, -⟩⟩ := hopen j hj
      · exact hj
      · omega
    · obtain hsame | ⟨-, heq⟩ := hkept j (by omega) hclosed
      · exact hsame
      · omega
  -- the same activation, in the situation behind the instruction
  have hstands : t'.Stands h' { a with situation := a.situation.next q.offset q.instr } rest :=
    { frames := hframes.trans he.frames
      handlers := hhandlers.trans he.handlers
      sound := by
        obtain ⟨hclosure, hchunk, hlists, hguards⟩ :=
          he.sound.persists hh hs (hhas a List.mem_cons_self)
        refine ⟨hclosure, hchunk, hlists, ?_⟩
        show List.Forall₂ _ _ (Situation.next ..).handlers
        rw [Situation.next, if_neg hop]
        exact hguards
      size := hnext
      shared := fun j hj hle => by
        obtain ⟨hlt, hj⟩ := hopen j hj
        refine ⟨hj.imp (fun hj => he.shared j hj hle) And.right, ?_⟩
        change a.frame.base ≤ j at hle
        show j - a.frame.base < _
        omega
      holds := fun j k hj => by
        rcases hj with ⟨hj, hlt⟩ | ⟨hmakes, rfl⟩
        · -- it was there before, and nothing has been assigned to its slot
          have hold := he.holds j k hj
          obtain hsame | ⟨hassigns, heq⟩ := hkept (a.frame.base + j) (by omega) (he.unshared hj).2
          · refine Heap.Holds.persists (hold.congr hsame) hh ht'.stack
          · obtain rfl : j = q.instr.first := by omega
            exact (hsuits.assigned hassigns k hj).elim
        · exact hsize₀ ▸ hmade k hmakes
      waiting := hwaiting.persists hh hs (fun b hb => hhas b (List.mem_cons_of_mem _ hb)) ht'.stack }
  have hreach := he.sound.exits he.mem (.fall hfalls)
  rw [he.situation, ← he.ip] at hreach
  refine hstands.alive hreach (fun hf => ?_) (fun since deadline hsleep => ?_) (fun task hp => ?_)
    hrests
  · obtain ⟨hclosure, hlocals⟩ := of_decide_eq_true hf
    have hholds := hfresh hclosure hlocals
    refine ⟨?_, hholds.unshared⟩
    show ∃ r c, _ ∧ _ ∧ ∀ b ∈ a.listing, _ → _ = a.frame.ip → _
    rw [he.ip]
    exact hholds.made
  · -- what it has left on top is neither a closure of the code nor a collection
    rcases hstate with hstate | ⟨hne, hmakes, hleaves, -⟩
    · rw [hstate] at hsleep
      cases hsleep
    · refine ⟨decide_eq_false fun hclosure => hne hclosure.1, fun k hk => ?_⟩
      rcases hk with ⟨-, hlt⟩ | ⟨hmade, -⟩
      · change a.situation.height - q.instr.effect.takes + q.instr.effect.leaves - 1 <
          a.situation.height - q.instr.effect.takes at hlt
        omega
      · rw [hmakes] at hmade
        cases hmade
  · rcases hstate with hstate | ⟨-, -, -, since, deadline, hstate⟩ <;>
    · rw [hstate] at hp
      cases hp

/-- A fiber at the start of a function. -/
theorem alive_of_entry {f : Frame} {p : Prototype} {listing : List Placed}
    (hwaiting : Waiting h t.IsOpen t.stack rest f.base f.kind.results)
    (hframes : t.frames = f :: rest.map Activation.frame)
    (hhandlers : t.handlers = rest.flatMap Activation.handlers)
    (hclosure : ∃ c, h.closure? f.closure = some c ∧ h.prototype? c.prototype = some p)
    (hchunk : f.chunk = p.chunk) (hlists : h.Lists p listing) (hip : f.ip = 0)
    (hsize : t.stack.size = f.base + (1 + p.arity)) (hopen : ∀ j, t.IsOpen j → j < f.base)
    (hready : t.state = .ready) : t.Alive h := by
  have hstands : t.Stands h ⟨f, p, listing, .entry p.arity, []⟩ rest :=
    { frames := hframes
      handlers := hhandlers
      sound := ⟨hclosure, hchunk, hlists, .nil⟩
      size := hsize
      shared := fun j hj hle => (Nat.not_lt.mpr hle (hopen j hj)).elim
      holds := nofun
      waiting := hwaiting }
  obtain ⟨statements, closures, hd⟩ := hlists.disciplined
  refine hstands.alive_of_ready ?_ nofun hready
  show Reaches listing _ (.direct f.ip)
  rw [hip]
  exact hd.entry

/-- **`Executing.enter`** — a plain instruction enters an activation on top of what it does not take. -/
theorem Executing.enter {f : Frame} {p : Prototype} {listing : List Placed}
    (he : t.Executing h a rest q) (hplain : q.instr.op.isPlain = true)
    (hmakes : q.instr.op.makes = none) (hh : h.Persists h')
    (hs : h'.Sound) (ht' : t'.Sound h') (hframes : t'.frames = f :: t.frames)
    (hhandlers : t'.handlers = t.handlers) (hopen : t'.openUpvalues = t.openUpvalues)
    (hclosure : ∃ c, h'.closure? f.closure = some c ∧ h'.prototype? c.prototype = some p)
    (hchunk : f.chunk = p.chunk) (hlists : h'.Lists p listing) (hip : f.ip = 0)
    (hbase : f.base = t.stack.size - q.instr.effect.takes)
    (hbelow : ∀ j, j < f.base → t'.stack[j]? = t.stack[j]?)
    (hsize : t'.stack.size = f.base + (1 + p.arity))
    (hresults : f.kind.results = q.instr.effect.leaves) (hready : t'.state = .ready) :
    t'.Alive h' := by
  have hcloses : q.instr.op.closesTaken = false := by
    revert hplain
    cases q.instr.op <;> decide
  have hreads := (he.sound.suits he.mem).reads
  have htakes := q.instr.takes_le_reads
  rw [he.situation] at hreads
  have hisOpen : ∀ j, t'.IsOpen j ↔ t.IsOpen j := fun j => by rw [IsOpen, hopen, IsOpen]
  have hhas : ∀ b ∈ a :: rest, h'.Has b.frame.closure .closure := by
    intro b hb
    apply (ht'.frames b.frame _).closure
    rw [hframes, he.frames, ← List.map_cons]
    exact List.mem_cons_of_mem _ (List.mem_map_of_mem hb)
  have hsize₀ := he.size
  -- the activation that calls waits from now on, with those that waited before
  have hwaiting : Waiting h t'.IsOpen t'.stack (a :: rest) f.base f.kind.results := by
    refine .call he.sound he.mem he.situation he.ip hplain hmakes hresults.symm (by omega)
      (fun j hj hle _ => he.shared j ((hisOpen j).mp hj) hle) (fun j k hj hlt => ?_)
      (he.waiting.mono (fun j hj _ => (hisOpen j).mp hj) fun j hlt _ => hbelow j (by omega))
    exact (he.holds j k hj).congr (hbelow _ (by omega))
  refine alive_of_entry (hwaiting.persists hh hs hhas ht'.stack) ?_ ?_ hclosure hchunk hlists hip hsize
    (fun j hj => ?_) hready
  · rw [hframes, he.frames, List.map_cons]
  · rw [hhandlers, he.handlers, List.flatMap_cons]
  · rw [hbase]
    exact he.open_lt hcloses ((hisOpen j).mp hj)

end Leaving

end Fiber

end ScriptMachine
