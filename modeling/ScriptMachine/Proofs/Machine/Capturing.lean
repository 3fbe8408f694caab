import Mathlib
import ScriptMachine.Proofs.Machine.Spawning

/-!
# ScriptMachine.Proofs.Machine.Capturing — closures and the cells they capture

A closure captures variables of the activation that makes it, each through the one open cell of its
slot: the cell that is listed for the slot, or a new one. A function that is a variable itself may
capture the slot that the instruction is about to fill, so while the cells are collected the stack
counts as one value higher than it is.

`captureCells` is the induction, over the captures of the instruction, with `captureSlot` as its step: a
cell is found among those that are listed, or it is made and put in its place among them, which are in
descending order. `makes` is the result for the instruction. That captures of different closures for one
slot get one cell is how the cells of a fiber are listed, and needs no argument beyond that.
-/

namespace ScriptMachine

variable {m m' m'' : Machine} {h h' : Heap} {t t' : Fiber} {a : Activation}
  {rest : List Activation} {q : Placed} {v : Value} {r : Ref} {slots slots' : Nat → Prop}
  {wrote : Ref → Prop} {slot : Nat} {cell : Ref} {cells : List (Nat × Ref)}

/-! ## Lists of open cells -/

namespace Exec

/-- Opening a slot adds one entry to the list. -/
theorem mem_insertOpen {e : Nat × Ref} :
    e ∈ insertOpen slot cell cells ↔ e = (slot, cell) ∨ e ∈ cells := by
  induction cells with
  | nil => simp [insertOpen]
  | cons c cells ih =>
    unfold insertOpen
    split
    · rw [List.mem_cons]
    · rw [List.mem_cons, List.mem_cons, ih, or_left_comm]

/-- The list stays sorted, from the highest slot to the lowest. -/
theorem pairwise_insertOpen (hcells : cells.Pairwise fun e e' => e'.1 < e.1)
    (hslot : ∀ e ∈ cells, e.1 ≠ slot) :
    (insertOpen slot cell cells).Pairwise fun e e' => e'.1 < e.1 := by
  induction cells with
  | nil => simp [insertOpen]
  | cons c cells ih =>
    obtain ⟨hfirst, hrest⟩ := List.pairwise_cons.mp hcells
    have hne := hslot c List.mem_cons_self
    unfold insertOpen
    split
    · rename_i hlt
      refine List.pairwise_cons.mpr ⟨fun e he => ?_, hcells⟩
      rcases List.mem_cons.mp he with rfl | he
      · exact hlt
      · exact Nat.lt_trans (hfirst e he) hlt
    · rename_i hge
      have hih := ih hrest fun e he => hslot e (List.mem_cons_of_mem _ he)
      refine List.pairwise_cons.mpr ⟨fun e he => ?_, hih⟩
      rcases mem_insertOpen.mp he with rfl | he
      · change slot < c.1
        omega
      · exact hfirst e he

end Exec

/-- The fiber as it will be when the closure is on its stack. -/
def Fiber.raised (t : Fiber) : Fiber :=
  { t with stack := t.stack.push .none }

/-- **`m.Collects`** — the cells agree with the fibers, the closure counted with the stack. -/
structure Machine.Collects (m : Machine) : Prop where
  healthy : m.heap.Healthy
  cells : Cells m.heap (m.fiber.raised :: m.queue)

/-- **`Captures slots m m'`** — the machine has made some cells, for slots of `slots`, and nothing else
has changed. -/
structure Captures (slots : Nat → Prop) (m m' : Machine) : Prop where
  machine : m' = { m with
    heap := m'.heap, fiber := { m.fiber with openUpvalues := m'.fiber.openUpvalues } }
  keeps : m.heap.Keeps m'.heap
  abides : m.heap.Abides m'.heap
  tasks : ∀ r th, m'.heap.task? r = some th → m.heap.task? r = some th
  older : ∀ e ∈ m.fiber.openUpvalues, e ∈ m'.fiber.openUpvalues
  newer : ∀ e ∈ m'.fiber.openUpvalues, e ∈ m.fiber.openUpvalues ∨ slots e.1

namespace Captures

theorem refl (slots : Nat → Prop) (m : Machine) : Captures slots m m :=
  ⟨rfl, .refl _, .refl _, fun _ _ hr => hr, fun _ he => he, fun _ he => .inl he⟩

/-- Captured variables add up. -/
theorem trans (hk : Captures slots m m') (hk' : Captures slots m' m'') : Captures slots m m'' where
  machine := by
    rw [hk'.machine, hk.machine]
  keeps := hk.keeps.trans hk'.keeps
  abides := hk.abides.trans hk'.abides
  tasks r th hr := hk.tasks r th (hk'.tasks r th hr)
  older e he := hk'.older e (hk.older e he)
  newer e he := by
    rcases hk'.newer e he with he | he
    · exact hk.newer e he
    · exact .inr he

theorem mono (hk : Captures slots m m') (hs : ∀ j, slots j → slots' j) : Captures slots' m m' :=
  { hk with newer := fun e he => (hk.newer e he).imp id (hs e.1) }

end Captures

/-- The new cell of a slot, and the heap that has it. -/
def Machine.newCell (m : Machine) (slot : Nat) : Ref × Heap :=
  m.heap.alloc (.upvalue (.onStack m.fiber.id slot))

/-- The machine with a new cell for a slot, listed among the others. -/
def Machine.opening (m : Machine) (slot : Nat) : Machine :=
  { m with
    heap := (m.newCell slot).2
    fiber := { m.fiber with
      openUpvalues := Exec.insertOpen slot (m.newCell slot).1 m.fiber.openUpvalues } }

section Opening

variable (ht : m.heap.Tidy)
include ht

/-- The new cell is the variable of the slot. -/
theorem Machine.upvalue?_newCell (slot : Nat) :
    (m.newCell slot).2.upvalue? (m.newCell slot).1 = some (.onStack m.fiber.id slot) :=
  Heap.upvalue?_eq_some.mpr (ht.get?_alloc_self _)

/-- Everything else is what it was. -/
theorem Machine.get?_newCell (hne : r ≠ (m.newCell slot).1) :
    (m.newCell slot).2.get? r = m.heap.get? r :=
  (ht.get?_alloc _ r).trans (if_neg hne)

/-- Opening a slot makes a cell for it and nothing else. -/
theorem Machine.captures_opening : Captures (· = slot) m (m.opening slot) where
  machine := rfl
  keeps := ht.keeps_alloc _
  abides := ht.abides_alloc nofun
  tasks r th hr := by
    change (m.newCell slot).2.task? r = some th at hr
    have hne : r ≠ (m.newCell slot).1 := by
      rintro rfl
      have hcell := Heap.upvalue?_eq_some.mp (Machine.upvalue?_newCell ht slot)
      rw [Heap.task?_eq_some, hcell] at hr
      cases hr
    rwa [Heap.task?_eq_some, Machine.get?_newCell ht hne, ← Heap.task?_eq_some] at hr
  older e he := Exec.mem_insertOpen.mpr (.inr he)
  newer e he := by
    rcases Exec.mem_insertOpen.mp he with rfl | he
    · exact .inr rfl
    · exact .inl he

end Opening

/-- The cells still agree with the fibers, if the slot had none. -/
theorem Machine.Collects.opening (hm : m.Collects) (hslot : slot ≤ m.fiber.stack.size)
    (hnone : ∀ e ∈ m.fiber.openUpvalues, e.1 ≠ slot) : (m.opening slot).Collects := by
  have htidy := hm.healthy.sound.tidy
  have hnew := Machine.upvalue?_newCell htidy slot
  have hlater : ∀ {r u}, m.heap.upvalue? r = some u → (m.newCell slot).2.upvalue? r = some u :=
    fun hu => Heap.upvalue?_eq_some.mpr (htidy.keeps_alloc _ _ _ (Heap.upvalue?_eq_some.mp hu))
  refine ⟨hm.healthy.alloc (by trivial) nofun, ?_⟩
  constructor
  case order =>
    intro t ht
    rcases List.mem_cons.mp ht with rfl | ht
    · exact Exec.pairwise_insertOpen (hm.cells.order m.fiber.raised List.mem_cons_self) hnone
    · exact hm.cells.order t (List.mem_cons_of_mem _ ht)
  case listed =>
    intro t ht e he
    rcases List.mem_cons.mp ht with rfl | ht
    · rcases Exec.mem_insertOpen.mp he with rfl | he
      · refine ⟨hnew, ?_⟩
        show slot < (m.fiber.stack.push .none).size
        rw [Array.size_push]
        exact Nat.lt_succ_of_le hslot
      · obtain ⟨hu, hlt⟩ := hm.cells.listed _ List.mem_cons_self e he
        exact ⟨hlater hu, hlt⟩
    · obtain ⟨hu, hlt⟩ := hm.cells.listed t (List.mem_cons_of_mem _ ht) e he
      exact ⟨hlater hu, hlt⟩
  case covered =>
    intro r task j hr
    change (m.newCell slot).2.upvalue? r = some (.onStack task j) at hr
    by_cases heq : r = (m.newCell slot).1
    · subst heq
      obtain ⟨rfl, rfl⟩ := Upvalue.onStack.inj (Option.some.inj (hnew.symm.trans hr))
      exact ⟨_, List.mem_cons_self, rfl, Exec.mem_insertOpen.mpr (.inl rfl)⟩
    · rw [Heap.upvalue?_eq_some, Machine.get?_newCell htidy heq, ← Heap.upvalue?_eq_some] at hr
      obtain ⟨t, ht, hid, hmem⟩ := hm.cells.covered r task j hr
      rcases List.mem_cons.mp ht with rfl | ht
      · exact ⟨_, List.mem_cons_self, hid, Exec.mem_insertOpen.mpr (.inr hmem)⟩
      · exact ⟨t, List.mem_cons_of_mem _ ht, hid, hmem⟩

/-- **`captureSlot`** — the cell of a slot is the one that is listed, or else a new one. -/
theorem Machine.Collects.captureSlot (hm : m.Collects) (hslot : slot ≤ m.fiber.stack.size) :
    ∃ r m', Exec.captureSlot slot m = .ok r m' ∧ m'.Collects ∧ Captures (· = slot) m m' ∧
      (slot, r) ∈ m'.fiber.openUpvalues := by
  unfold Exec.captureSlot
  rw [Exec.get_bind]
  cases hlookup : m.fiber.openUpvalues.lookup slot with
  | some r =>
    have hmem : (slot, r) ∈ m.fiber.openUpvalues := by
      obtain ⟨l₁, l₂, hsplit, -⟩ := List.lookup_eq_some_iff.mp hlookup
      rw [hsplit]
      simp
    exact ⟨r, m, rfl, hm, .refl _ m, hmem⟩
  | none =>
    have hnone : ∀ e ∈ m.fiber.openUpvalues, e.1 ≠ slot := by
      intro e he heq
      have hne := List.lookup_eq_none_iff.mp hlookup e he
      simp [heq] at hne
    exact ⟨(m.newCell slot).1, m.opening slot, rfl, hm.opening hslot hnone,
      Machine.captures_opening hm.healthy.sound.tidy, Exec.mem_insertOpen.mpr (.inl rfl)⟩

/-- What a closure gets for a capture: the cell that is listed for a variable of the activation, or the
cell that the closure of the activation has. -/
def Machine.Obtains (m : Machine) (f : Frame) (c : Capture) (r : Ref) : Prop :=
  if c.isLocal then (f.base + c.index, r) ∈ m.fiber.openUpvalues
  else ∃ enclosing, m.heap.closure? f.closure = some enclosing ∧ enclosing.upvalues[c.index]? = some r

/-- A closure has it as long as cells are only made. -/
theorem Captures.obtains {f : Frame} {c : Capture} (hk : Captures slots m m')
    (hr : m.Obtains f c r) : m'.Obtains f c r := by
  unfold Machine.Obtains at hr ⊢
  split
  · rename_i hlocal
    rw [if_pos hlocal] at hr
    exact hk.older _ hr
  · rename_i hlocal
    rw [if_neg hlocal] at hr
    obtain ⟨enclosing, hc, hindex⟩ := hr
    exact ⟨enclosing, hk.keeps.evolves.closure? hc, hindex⟩

/-- **`captureCells`** — a closure gets a cell for each of its captures. -/
theorem Machine.Collects.captureCells {f : Frame} {captures : List Capture} (hm : m.Collects)
    (hthere : ∀ c ∈ captures, if c.isLocal then f.base + c.index ≤ m.fiber.stack.size
      else ∃ enclosing, m.heap.closure? f.closure = some enclosing ∧
        c.index < enclosing.upvalues.size) :
    ∃ rs m', (captures.mapM (Exec.captureCell f)) m = .ok rs m' ∧ m'.Collects ∧
      Captures (fun j => ∃ c ∈ captures, c.isLocal = true ∧ j = f.base + c.index) m m' ∧
      List.Forall₂ (m'.Obtains f) captures rs := by
  induction captures generalizing m with
  | nil =>
    refine ⟨[], m, ?_, hm, .refl _ m, .nil⟩
    rw [List.mapM_nil]
    rfl
  | cons c captures ih =>
    -- the first cell
    obtain ⟨r, m₁, hfirst, hm₁, hk₁, hr⟩ : ∃ r m₁, Exec.captureCell f c m = .ok r m₁ ∧
        m₁.Collects ∧ Captures (fun j => c.isLocal = true ∧ j = f.base + c.index) m m₁ ∧
        m₁.Obtains f c r := by
      have hc := hthere c List.mem_cons_self
      unfold Exec.captureCell Machine.Obtains
      cases hlocal : c.isLocal with
      | true =>
        rw [hlocal, if_pos rfl] at hc
        obtain ⟨r, m₁, hexec, hm₁, hk₁, hr⟩ := hm.captureSlot hc
        exact ⟨r, m₁, hexec, hm₁, hk₁.mono fun j hj => ⟨rfl, hj⟩, hr⟩
      | false =>
        rw [hlocal] at hc
        obtain ⟨enclosing, hclosure, hlt⟩ := hc
        have hindex : enclosing.upvalues[c.index]? = some enclosing.upvalues[c.index] :=
          Array.getElem?_eq_getElem hlt
        refine ⟨_, m, ?_, hm, .refl _ m, enclosing, hclosure, hindex⟩
        show (Exec.need (m.heap.closure? f.closure) >>= _) m = _
        rw [hclosure]
        show Exec.need enclosing.upvalues[c.index]? m = _
        rw [hindex]
        rfl
    -- the others
    obtain ⟨rs, m₂, hothers, hm₂, hk₂, hrs⟩ := ih hm₁ fun c' hc' => by
      have hc := hthere c' (List.mem_cons_of_mem _ hc')
      have hstack : m₁.fiber.stack = m.fiber.stack := by rw [hk₁.machine]
      split
      · rename_i hlocal
        rw [if_pos hlocal] at hc
        rw [hstack]
        exact hc
      · rename_i hlocal
        rw [if_neg hlocal] at hc
        obtain ⟨enclosing, hclosure, hlt⟩ := hc
        exact ⟨enclosing, hk₁.keeps.evolves.closure? hclosure, hlt⟩
    refine ⟨r :: rs, m₂, ?_, hm₂, (hk₁.mono ?_).trans (hk₂.mono ?_), .cons (hk₂.obtains hr) hrs⟩
    · rw [List.mapM_cons, Exec.bind_ok hfirst, Exec.bind_ok hothers]
      rfl
    · rintro j ⟨hlocal, rfl⟩
      exact ⟨c, List.mem_cons_self, hlocal, rfl⟩
    · rintro j ⟨c', hc', hj⟩
      exact ⟨c', List.mem_cons_of_mem _ hc', hj⟩

/-! ## The closure -/

/-- The machine with a new closure on the stack. -/
def Machine.withClosure (m : Machine) (c : Closure) : Machine :=
  { m with
    heap := (m.heap.alloc (.closure c)).2
    fiber := { m.fiber with
      stack := m.fiber.stack.push (.obj (m.heap.alloc (.closure c)).1) } }

/-- **`withClosure`** — a consistent machine has made cells for a closure and then the closure. -/
theorem Machine.Consistent.withClosure {c : Closure} (hc : m.Consistent)
    (hk : Captures slots m m') (hm' : m'.Collects) (hsound : (Obj.closure c).Sound m'.heap)
    (hmade : m'.heap.Made c) : (m'.withClosure c).Consistent ∧ Law wrote m (m'.withClosure c) := by
  have htidy := hm'.healthy.sound.tidy
  have hself := htidy.get?_alloc_self (.closure c)
  -- a closure is neither a cell nor a handle
  have hstill : m'.heap.Still (m'.withClosure c).heap := htidy.still_alloc rfl
  have hkeeps := hk.keeps.trans (htidy.keeps_alloc (.closure c))
  have hhealthy : (m'.withClosure c).heap.Healthy := hm'.healthy.alloc hsound fun c' heq =>
    Obj.closure.inj heq ▸ hmade
  have htasks : ∀ r th, (m'.withClosure c).heap.task? r = some th → m.heap.task? r = some th :=
    fun r th hr => hk.tasks r th (hstill.tasks r ▸ hr)
  have hqueue : m'.queue = m.queue := by rw [hk.machine]
  have hid : m'.fiber.id = m.fiber.id := by rw [hk.machine]
  have hhandle : m'.fiber.handle = m.fiber.handle := by rw [hk.machine]
  have hframes : m'.fiber.frames = m.fiber.frames := by rw [hk.machine]
  have hstack : m'.fiber.stack = m.fiber.stack := by rw [hk.machine]
  have hlast : m'.lastTask = m.lastTask := by rw [hk.machine]
  have hmain : m'.mainHandle = m.mainHandle := by rw [hk.machine]
  have hcells : Cells (m'.withClosure c).heap (m'.withClosure c).fibers := by
    refine (hm'.cells.congr_fiber (m'.withClosure c).fiber rfl rfl ?_).congr_heap hstill.upvalues
    show (m'.fiber.stack.push _).size ≤ (m'.fiber.stack.push _).size
    rw [Array.size_push, Array.size_push]
  have hs : (m'.withClosure c).Sound := by
    have hsame : m'.withClosure c = { m with
        heap := (m'.withClosure c).heap, fiber := (m'.withClosure c).fiber } := by
      unfold Machine.withClosure
      rw [hk.machine]
    rw [hsame]
    refine (hc.sound.evolve hkeeps.evolves hhealthy).withFiber ⟨?_, fun v hv => ?_, fun f hf => ?_,
      fun e he => ?_⟩
    · exact hhandle ▸ hkeeps.evolves.has hc.sound.fiber.handle
    · rcases Array.mem_push.mp hv with hv | rfl
      · exact hkeeps.evolves.live (hc.sound.fiber.stack v (hstack ▸ hv))
      · exact Heap.live_obj.mpr ⟨_, hself⟩
    · exact hkeeps.evolves.frame (hc.sound.fiber.frames f (hframes ▸ hf))
    · exact Heap.has_upvalue.mpr ⟨_, (hcells.listed _ List.mem_cons_self e he).1⟩
  refine ⟨⟨hs, fun t ht => ?_, hcells, ?_⟩, ⟨Nat.le_of_eq hlast.symm,
    hk.abides.trans hstill.abides, .of_calm htasks, fun r v hr _ u hu => ?_⟩⟩
  · exact (hc.waiting t (hqueue ▸ ht)).persists hkeeps.evolves.persists hhealthy.sound
      (hs.queue t ht)
  · show Tasks _ _ m'.lastTask m'.mainHandle
    rw [hlast, hmain]
    refine hc.tasks.of_calm htasks ?_ (hmain ▸ hs.mainHandle) fun t ht =>
      ⟨(hs.of_mem_fibers ht).handle, ?_⟩
    · show (m'.fiber.id :: m'.queue.map Fiber.id).Nodup
      rw [hid, hqueue]
      exact hc.tasks.ids
    · rcases Machine.mem_fibers.mp ht with rfl | ht
      · refine ⟨m.fiber, List.mem_cons_self, hid, hhandle, fun hdone => ?_⟩
        rwa [Fiber.isDone, ← hframes]
      · exact ⟨t, List.mem_cons_of_mem _ (hqueue ▸ ht), rfl, rfl, id⟩
  · -- a cell that was there has not changed, nor has its slot
    have hlater : ∀ {u}, m.heap.upvalue? r = some u →
        (m'.withClosure c).heap.upvalue? r = some u := fun hu =>
      Heap.upvalue?_eq_some.mpr (hkeeps _ _ (Heap.upvalue?_eq_some.mp hu))
    rcases hr with hr | ⟨t, ht, slot, hr, hv⟩
    · exact .inl (hlater hr)
    · rcases Machine.mem_fibers.mp ht with rfl | ht
      · refine .inr ⟨(m'.withClosure c).fiber, List.mem_cons_self, slot, ?_, ?_⟩
        · show _ = some (Upvalue.onStack m'.fiber.id slot)
          rw [hid]
          exact hlater hr
        · show (m'.fiber.stack.push _)[slot]? = some v
          have hlt := (Array.getElem?_eq_some_iff.mp hv).1
          rw [hstack, Array.getElem?_push_lt hlt, ← Array.getElem?_eq_getElem hlt]
          exact hv
      · exact .inr ⟨t, List.mem_cons_of_mem _ (hqueue ▸ ht), slot, hlater hr, hv⟩

namespace Stepping

variable (hs : Stepping m a rest q)
include hs

/-- The machine collects cells as if the closure were already there. -/
theorem collects : (inside m a rest q).Collects := by
  have hc := hs.consistent_inside
  refine ⟨hc.sound.heap, hc.cells.congr_fiber _ rfl rfl ?_⟩
  show m.fiber.stack.size ≤ (m.fiber.stack.push _).size
  rw [Array.size_push]
  exact Nat.le_succ _

/-- The captures of the instruction are there to be collected. -/
theorem captures_there : ∀ c ∈ q.instr.captures,
    if c.isLocal then (a.past q.instr).frame.base + c.index ≤ m.fiber.stack.size
    else ∃ enclosing, m.heap.closure? (a.past q.instr).frame.closure = some enclosing ∧
      c.index < enclosing.upvalues.size := by
  intro c hc
  have hcaptured := hs.suits.captured c hc
  split
  · rename_i hlocal
    rw [if_pos hlocal] at hcaptured
    rw [hs.poised.size]
    exact Nat.add_le_add_left hcaptured _
  · rename_i hlocal
    rw [if_neg hlocal] at hcaptured
    obtain ⟨enclosing, hclosure, hp⟩ := hs.poised.sound.closure
    have hsize := (hs.consistent.sound.heap.made _ enclosing hclosure).2 _ hp
    exact ⟨enclosing, hclosure, hsize ▸ hcaptured⟩

/-- The function of the closure is a trusted one with as many captures. -/
theorem captured_function (hop : q.instr.op = .closure) : ∃ r p,
    a.frame.chunk.constant? q.instr.first = some (.obj r) ∧ m.heap.prototype? r = some p ∧
      m.heap.Trusts r ∧ p.captureCount = q.instr.captures.length := by
  obtain ⟨r, p, hconstant, hp, hcount⟩ := hs.suits.function hop
  obtain ⟨enclosing, hclosure, hfunction⟩ := hs.poised.sound.closure
  refine ⟨r, p, hs.poised.sound.chunk ▸ hconstant, hp, ?_, hcount⟩
  obtain ⟨hp', -, htrusts⟩ := (hs.consistent.sound.heap.made _ enclosing hclosure).1
  obtain rfl := Option.some.inj (hp'.symm.trans hfunction)
  exact htrusts r p (Array.mem_of_getElem? hconstant) hp

/-- The fiber goes on with the new closure, which is fresh if it has not captured itself. -/
theorem goes_with_closure {c : Closure} (hop : q.instr.op = .closure)
    (hconstant : a.frame.chunk.constant? q.instr.first = some (.obj c.prototype))
    (hk : Captures (fun j => ∃ c ∈ q.instr.captures, c.isLocal = true ∧ j = a.frame.base + c.index)
      (inside m a rest q) m') (hm : m'.Collects) (hc : (m'.withClosure c).Consistent) :
    (m'.withClosure c).fiber.Alive (m'.withClosure c).heap := by
  have heffect : q.instr.effect = ⟨0, 0, 1⟩ := by
    unfold Instruction.effect
    rw [hop]
  have hfiber : m'.fiber = { (inside m a rest q).fiber with
      openUpvalues := m'.fiber.openUpvalues } := by rw [hk.machine]
  have hstack : m'.fiber.stack = m.fiber.stack := by rw [hfiber]; rfl
  have hstate : m'.fiber.state = .ready := by
    rw [hfiber]
    exact hs.ready
  have hframes : m'.fiber.frames = (inside m a rest q).fiber.frames := by rw [hfiber]
  have hhandlers : m'.fiber.handlers = m.fiber.handlers := by rw [hfiber]; rfl
  have htidy := hm.healthy.sound.tidy
  have hev : m.heap.Evolves (m'.withClosure c).heap :=
    (hk.keeps.trans (htidy.keeps_alloc _)).evolves
  have hsize : (m'.withClosure c).fiber.stack.size = m.fiber.stack.size + 1 := by
    show (m'.fiber.stack.push _).size = _
    rw [Array.size_push, hstack]
  -- a cell was there or is one of those that the closure captures
  have hopen : ∀ j, (m'.withClosure c).fiber.IsOpen j → m.fiber.IsOpen j ∨
      ∃ c ∈ q.instr.captures, c.isLocal = true ∧ j = a.frame.base + c.index := by
    rintro j ⟨cell, hj⟩
    exact (hk.newer _ hj).imp (fun hold => ⟨cell, hold⟩) id
  have hold : ∀ j, m.fiber.IsOpen j → j < m.fiber.stack.size := by
    rintro j ⟨cell, hj⟩
    exact (hs.consistent.cells.listed _ List.mem_cons_self _ hj).2
  refine hs.executing.fall (by rw [hop]; rfl) (by rw [hop]; nofun) hev.persists hc.heap_sound
    hc.sound.fiber hframes hhandlers ?_ (fun j hj => ?_) (fun j hj _ => .inl ?_)
    (by rw [hop]; nofun) (fun _ hlocals => ?_) (.inl hstate) fun since deadline hsleep => ?_
  · rw [hsize, heffect]
    rfl
  · obtain ⟨cell, hmem⟩ := hj
    refine ⟨(hc.cells.listed _ List.mem_cons_self _ hmem).2, ?_⟩
    rcases hopen j ⟨cell, hmem⟩ with hj | ⟨d, hd, hlocal, rfl⟩
    · exact .inl hj
    · refine .inr ⟨Nat.le_add_right .., ?_⟩
      show (⟨true, a.frame.base + d.index - a.frame.base⟩ : Capture) ∈ _
      rw [Nat.add_sub_cancel_left, ← hlocal]
      exact hd
  · have hlt : j < m.fiber.stack.size := by
      rw [heffect] at hj
      exact hj
    show (m'.fiber.stack.push _)[j]? = m.fiber.stack[j]?
    rw [hstack, Array.getElem?_push_lt hlt, ← Array.getElem?_eq_getElem]
  · have htop : (m'.withClosure c).fiber.stack.size - 1 = m.fiber.stack.size := by
      rw [hsize]
      rfl
    refine ⟨⟨(m'.heap.alloc (.closure c)).1, c, ?_, ?_, fun b hb hclosure hend => ?_⟩, fun hj => ?_⟩
    · rw [htop]
      show (m'.fiber.stack.push _)[m.fiber.stack.size]? = _
      rw [← hstack]
      exact Array.getElem?_push_size
    · exact Heap.closure?_eq_some.mpr (htidy.get?_alloc_self _)
    · obtain rfl := hs.poised.sound.contiguous.end_inj hb hs.poised.mem hend
      exact hconstant
    · rw [htop] at hj
      rcases hopen _ hj with hj | ⟨d, hd, hlocal, heq⟩
      · exact absurd (hold _ hj) (Nat.lt_irrefl _)
      · have hlt := hlocals d hd hlocal
        have hheight := hs.poised.size
        change d.index < a.situation.height at hlt
        omega
  · cases hstate.symm.trans hsleep

/-- **`makes`** — a closure is made over cells for all its captures. -/
theorem makes (hop : q.instr.op = .closure) : ∃ r rs m₁,
    a.frame.chunk.constant? q.instr.first = some (.obj r) ∧ m₁.Collects ∧
    Captures (fun j => ∃ c ∈ q.instr.captures, c.isLocal = true ∧ j = a.frame.base + c.index)
      (inside m a rest q) m₁ ∧
    List.Forall₂ (m₁.Obtains a.frame) q.instr.captures rs ∧
    Exec.execute q.instr (inside m a rest q) =
      .ok () (m₁.withClosure ⟨r, rs.toArray, a.frame.package⟩) ∧
    (m₁.withClosure ⟨r, rs.toArray, a.frame.package⟩).Valid ∧
    Law wrote m (m₁.withClosure ⟨r, rs.toArray, a.frame.package⟩) := by
  obtain ⟨r, p, hconstant, hp, htrusts, hcount⟩ := hs.captured_function hop
  obtain ⟨rs, m₁, hexec, hm₁, hk, hrs⟩ := hs.collects.captureCells hs.captures_there
  have hev := hk.keeps.evolves
  have hfiber : m₁.fiber = { (inside m a rest q).fiber with
      openUpvalues := m₁.fiber.openUpvalues } := by rw [hk.machine]
  -- the cells are there
  have hcells : ∀ u ∈ rs, m₁.heap.Has u .upvalue := by
    intro u hu
    obtain ⟨i, hi, rfl⟩ := List.mem_iff_getElem.mp hu
    have hi' : i < q.instr.captures.length := hrs.length_eq ▸ hi
    have hobtains := hrs.get hi' hi
    unfold Machine.Obtains at hobtains
    split at hobtains
    · exact Heap.has_upvalue.mpr ⟨_, (hm₁.cells.listed _ List.mem_cons_self _ hobtains).1⟩
    · obtain ⟨enclosing, hclosure, hindex⟩ := hobtains
      exact (hm₁.healthy.sound.closure hclosure).2.1 _ (Array.mem_of_getElem? hindex)
  have hsound : (Obj.closure ⟨r, rs.toArray, a.frame.package⟩).Sound m₁.heap := by
    refine ⟨hev.has ⟨_, Heap.prototype?_eq_some.mp hp, rfl⟩, fun u hu => hcells u ?_, fun u hu => ?_⟩
    · exact Array.mem_toList_iff.mpr hu
    · exact hev.has ((hs.frame_sound a.frame.ip _ List.mem_cons_self).package u hu)
  have hmade : m₁.heap.Made ⟨r, rs.toArray, a.frame.package⟩ := by
    have hp' := hev.prototype? hp
    refine ⟨hev.persists.trusts hs.consistent.heap_sound hm₁.healthy.sound htrusts
      (Heap.live_obj.mpr ⟨_, Heap.prototype?_eq_some.mp hp'⟩), fun p' hp'' => ?_⟩
    obtain rfl := Option.some.inj (hp'.symm.trans hp'')
    exact (hrs.length_eq.symm.trans hcount.symm : rs.length = p.captureCount)
  obtain ⟨hc, hlaw⟩ : _ ∧ Law wrote _ _ := hs.consistent_inside.withClosure hk hm₁ hsound hmade
  refine ⟨r, rs, m₁, hconstant, hm₁, hk, hrs, ?_, ⟨hc, .inr ?_⟩, law_inside hlaw⟩
  · have hconst : Exec.constant q.instr.first (inside m a rest q) =
        .ok (.obj r) (inside m a rest q) := by
      unfold Exec.constant
      rw [Exec.bind_ok (Exec.frame_eq rfl)]
      show Exec.need (a.frame.chunk.constant? q.instr.first) _ = _
      rw [hconstant]
      rfl
    have hname : Exec.nameConstant q.instr.first (inside m a rest q) =
        .ok r (inside m a rest q) := by
      unfold Exec.nameConstant
      rw [Exec.bind_ok hconst]
      rfl
    unfold Exec.execute
    rw [hop]
    refine (Exec.bind_ok hname).trans ?_
    unfold Exec.makeClosure
    rw [Exec.bind_ok (Exec.frame_eq rfl)]
    exact (Exec.bind_ok hexec).trans rfl
  · exact hs.goes_with_closure hop hconstant hk hm₁ hc

end Stepping

end ScriptMachine
