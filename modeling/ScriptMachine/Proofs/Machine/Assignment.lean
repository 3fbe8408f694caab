import Mathlib
import ScriptMachine.Proofs.Machine.Control

/-!
# ScriptMachine.Proofs.Machine.Assignment — assignments to variables

A variable that no closure shares is a slot of the stack. One that is shared is a cell, and the cell
says where the value is: in the cell itself, on the stack of the running fiber, or on that of a fiber
that waits. Whichever it is, all who look at the variable afterwards find the new value, and every
other variable is as it was.

There are two instructions to show this of, `setLocal` and `setUpvalue`. The first writes to the stack of
the running fiber, where a cell for the slot may be open; the second writes through a cell, and there
the cases are those three. `Carried` is the relation in which the result is put, with the one variable
that is written to left out of it.
-/

namespace ScriptMachine

variable {m m' : Machine} {h h' : Heap} {t : Fiber} {ts : List Fiber} {a : Activation}
  {rest : List Activation} {q : Placed} {v : Value} {r : Ref} {slot : Nat}

/-- **`Alive.write`** — another fiber may assign a shared variable of a fiber that waits. -/
theorem Fiber.Alive.write (ht : t.Alive h) (hopen : t.IsOpen slot) (v : Value) :
    ({ t with stack := t.stack.setIfInBounds slot v } : Fiber).Alive h := by
  obtain ⟨a, rest, q, hp⟩ := ht
  have hsize : (t.stack.setIfInBounds slot v).size = t.stack.size := Array.size_setIfInBounds
  -- and neither does a collection that is being put together stand there
  have hkept : ∀ j, ¬ t.IsOpen j → (t.stack.setIfInBounds slot v)[j]? = t.stack[j]? := fun j hj =>
    Array.getElem?_setIfInBounds_ne fun (heq : slot = j) => hj (heq ▸ hopen)
  refine ⟨a, rest, q, { hp with
    size := hsize.trans hp.size
    holds := fun j k hj => (hp.holds j k hj).congr (hkept _ (hp.unshared hj).2)
    waiting := hp.waiting.mono (fun _ hj _ => hj) fun j _ hj => hkept j hj
    fresh := fun hop => ?_
    rests := ?_ }⟩
  · obtain ⟨⟨r, c, hr, hc, hmade⟩, hunshared⟩ := hp.fresh hop
    -- a fresh closure is not shared, so it is not what is assigned
    have hne : slot ≠ t.stack.size - 1 := fun heq => hunshared (heq ▸ hopen)
    refine ⟨⟨r, c, ?_, hc, hmade⟩, ?_⟩
    · show (t.stack.setIfInBounds slot v)[(t.stack.setIfInBounds slot v).size - 1]? = _
      rw [hsize, Array.getElem?_setIfInBounds_ne hne]
      exact hr
    · show ¬ Fiber.IsOpen _ ((t.stack.setIfInBounds slot v).size - 1)
      rw [hsize]
      exact hunshared
  · intro since deadline hsleep
    show 0 < (t.stack.setIfInBounds slot v).size ∧
      ¬ Fiber.IsOpen _ ((t.stack.setIfInBounds slot v).size - 1)
    rw [hsize]
    exact hp.rests since deadline hsleep

/-- Assigning a slot of a stack. -/
theorem Fiber.carries_write {wrote : Ref → Prop} {stack : Array Value}
    (hlisted : ∀ e ∈ t.openUpvalues, e.1 < t.stack.size)
    (hwrote : ∀ r, (slot, r) ∈ t.openUpvalues → wrote r)
    (hstack : stack = t.stack.setIfInBounds slot v) : ∀ e ∈ t.openUpvalues,
      e.1 < stack.size ∧ (wrote e.2 ∨ stack[e.1]? = t.stack[e.1]?) := by
  subst hstack
  intro e he
  refine ⟨by rw [Array.size_setIfInBounds]; exact hlisted e he, ?_⟩
  by_cases hslot : slot = e.1
  · exact .inl (hwrote e.2 (hslot ▸ he))
  · exact .inr (Array.getElem?_setIfInBounds_ne hslot)

/-- **`Carried.write`** — assigning a closed cell. -/
theorem Carried.write {w : Value} (hc : Cells h ts) (hr : h.upvalue? r = some (.closed w))
    (hh : h.Healthy) (hv : h.Live v) :
    Carried (· = r) h ts (h.modify r fun _ => .upvalue (.closed v)) ts := by
  obtain ⟨hcloses, hclosed⟩ := Fiber.closes_modify hh (Heap.has_upvalue.mpr ⟨_, hr⟩) hv
  have hsame : ∀ r', r' ≠ r →
      (h.modify r fun _ => .upvalue (.closed v)).upvalue? r' = h.upvalue? r' := by
    intro r' hne
    unfold Heap.upvalue?
    rw [hcloses.unchanged r' hne]
  have hopen : ∀ t ∈ ts, ∀ e ∈ t.openUpvalues, e.2 ≠ r := by
    rintro t ht e he rfl
    cases hr.symm.trans (hc.listed t ht e he).1
  refine ⟨fun r' u hu => ?_, fun t ht => ?_, fun t ht e he u hu => ?_, fun r' w' hr' u hu => ?_⟩
  · by_cases heq : r' = r
    · subst heq
      obtain rfl := Option.some.inj (hu.symm.trans hclosed)
      exact ⟨_, hr, nofun⟩
    · exact ⟨u, hsame r' heq ▸ hu, fun _ _ _ => rfl⟩
  · exact .inr ⟨t, ht, rfl, .refl _, fun e he =>
      ⟨hsame _ (hopen t ht e he), (hc.listed t ht e he).2⟩⟩
  · rw [hsame _ (hopen t ht e he), (hc.listed t ht e he).1] at hu
    exact .inl ⟨(Option.some.inj hu).symm, t, ht, rfl, he, .inr rfl⟩
  · by_cases heq : r' = r
    · exact .inl heq
    · rw [hsame r' heq, hr'] at hu
      exact .inr (Option.some.inj hu).symm

namespace Machine.Consistent

variable (hc : m.Consistent)
include hc

/-- The variable is in a closed cell. -/
theorem assignClosed {w : Value} (hr : m.heap.upvalue? r = some (.closed w)) (hv : m.heap.Live v) :
    let h' := m.heap.modify r fun _ => .upvalue (.closed v)
    m.heap.Evolves h' ∧ { m with heap := h' }.Consistent ∧
      Moves (· = r) m { m with heap := h' } := by
  have hhas : m.heap.Has r .upvalue := Heap.has_upvalue.mpr ⟨_, hr⟩
  have hcloses := (Fiber.closes_modify hc.sound.heap hhas hv).1
  have hsound := hc.sound.evolve hcloses.evolves hcloses.healthy
  have htasks := hcloses.tasks fun r' heq => heq ▸ hhas
  have hcalm : ∀ r' th, (m.heap.modify r fun _ => .upvalue (.closed v)).task? r' = some th →
      m.heap.task? r' = some th := fun r' _ hr' => htasks r' ▸ hr'
  have hmoves : Moves (· = r) m { m with heap := m.heap.modify r fun _ => .upvalue (.closed v) } :=
    ⟨Nat.le_refl _, hcloses.abides, .of_calm hcalm, .write hc.cells hr hc.sound.heap hv⟩
  refine ⟨hcloses.evolves, hc.of_moves hmoves hsound (fun t ht => ?_) ?_, hmoves⟩
  · exact (hc.waiting t ht).persists hcloses.evolves.persists hcloses.healthy.sound
      (hsound.queue t ht)
  · exact hc.tasks.of_calm hcalm hc.tasks.ids hsound.mainHandle fun t ht =>
      ⟨(hcloses.evolves.fiber (hc.sound.of_mem_fibers ht)).handle, t, ht, rfl, rfl, id⟩

/-- The variable is on the stack of a fiber that waits. -/
theorem assignWaiting {task : Nat} (hr : m.heap.upvalue? r = some (.onStack task slot))
    (hv : m.heap.Live v) :
    let m' := { m with queue := m.queue.map fun t =>
      if t.id = task then { t with stack := t.stack.setIfInBounds slot v } else t }
    m'.Consistent ∧ Moves (· = r) m m' := by
  obtain ⟨t₀, ht₀, hid₀, he₀⟩ := hc.cells.covered r task slot hr
  have howner : ∀ t ∈ m.fibers, t.id = task → t = t₀ := fun t ht hid =>
    hc.tasks.id_inj t ht t₀ ht₀ (hid.trans hid₀.symm)
  -- a fiber that is written to has the variable on its stack
  have hwrite : ∀ t ∈ m.fibers, t.id = task →
      t.Becomes (· = r) { t with stack := t.stack.setIfInBounds slot v } := by
    intro t ht hid
    obtain rfl := howner t ht hid
    have hwrote : ∀ r', (slot, r') ∈ t.openUpvalues → r' = r := fun r' hr' =>
      congrArg Prod.snd (hc.cells.slot_inj ht hr' he₀ rfl)
    refine ⟨⟨rfl, rfl, fun e he => ?_⟩, rfl, id⟩
    exact Fiber.carries_write (fun e he => (hc.cells.listed t ht e he).2) hwrote rfl e he
  have hsound : ∀ t ∈ m.queue, Fiber.Sound m.heap
      (if t.id = task then { t with stack := t.stack.setIfInBounds slot v } else t) := by
    intro t ht
    have hold := hc.sound.queue t ht
    split
    · refine ⟨hold.handle, fun w hw => ?_, hold.frames, hold.openUpvalues⟩
      rcases Array.mem_or_eq_of_mem_setIfInBounds hw with hw | rfl
      · exact hold.stack w hw
      · exact hv
    · exact hold
  have hbecomes : ∀ t ∈ m.queue, t.Becomes (· = r)
      (if t.id = task then { t with stack := t.stack.setIfInBounds slot v } else t) := by
    intro t ht
    have hmem : t ∈ m.fibers := List.mem_cons_of_mem _ ht
    split
    · exact hwrite t hmem ‹_›
    · exact hc.becomes_self hmem
  refine hc.revise (hc.sound.withQueue fun t' ht' => ?_) (Heap.Still.refl _).calm rfl rfl
    (fun t' ht' => ?_) ?_ (fun t' ht' => ?_) fun t ht _ => ?_
  · obtain ⟨t, ht, rfl⟩ := List.mem_map.mp ht'
    exact hsound t ht
  · obtain ⟨t, ht, rfl⟩ := List.mem_map.mp ht'
    have halive := hc.waiting t ht
    split
    · rename_i hid
      obtain rfl := howner t (List.mem_cons_of_mem _ ht) hid
      exact halive.write ⟨r, he₀⟩ v
    · exact halive
  · have hmap : ∀ t ∈ m.queue, Fiber.id
        (if t.id = task then { t with stack := t.stack.setIfInBounds slot v } else t) = t.id :=
      fun t ht => (hbecomes t ht).id
    show (m.fiber.id :: (m.queue.map _).map Fiber.id).Nodup
    rw [List.map_map, show m.queue.map (Fiber.id ∘ _) = _ from List.map_congr_left hmap]
    exact hc.tasks.ids
  · rcases Machine.mem_fibers.mp ht' with rfl | ht'
    · exact ⟨m.fiber, List.mem_cons_self, hc.becomes_self List.mem_cons_self⟩
    · obtain ⟨t, ht, rfl⟩ := List.mem_map.mp ht'
      exact ⟨t, List.mem_cons_of_mem _ ht, hbecomes t ht⟩
  · rcases Machine.mem_fibers.mp ht with rfl | ht
    · exact ⟨m.fiber, List.mem_cons_self, hc.becomes_self List.mem_cons_self⟩
    · exact ⟨_, List.mem_cons_of_mem _ (List.mem_map_of_mem ht), hbecomes t ht⟩

end Machine.Consistent

/-- The machine after a variable was assigned, wherever its cell says that it is. -/
def Machine.setShared (m : Machine) (r : Ref) (v : Value) : Upvalue → Machine
  | .closed _ => { m with heap := m.heap.modify r fun _ => .upvalue (.closed v) }
  | .onStack task slot =>
    if m.fiber.id = task then
      { m with fiber := { m.fiber with stack := m.fiber.stack.setIfInBounds slot v } }
    else { m with queue := m.queue.map fun t =>
      if t.id = task then { t with stack := t.stack.setIfInBounds slot v } else t }

/-- What writing a captured variable comes to: its slot or its cell has the value, and nothing else
changes. -/
theorem Exec.writeUpvalue_eq {u : Upvalue} (hu : m.heap.upvalue? r = some u) (v : Value) :
    writeUpvalue r v m = .ok () (m.setShared r v u) := by
  have hneed : need (m.heap.upvalue? r) m = .ok u m := by
    rw [hu]
    rfl
  unfold writeUpvalue Machine.setShared
  rw [get_bind, bind_ok hneed]
  cases u with
  | closed w => rfl
  | onStack task slot =>
    dsimp only
    rw [get_bind]
    split <;> rfl

namespace Stepping

variable (hs : Stepping m a rest q)
include hs

/-! ## Slots -/

/-- The value on top and the slot that is assigned. -/
theorem setLocal_eq (hop : q.instr.op = .setLocal) : ∃ v,
    m.fiber.stack[m.fiber.stack.size - 1]? = some v ∧ m.heap.Live v ∧
    Exec.execute q.instr (inside m a rest q) = .ok () { inside m a rest q with
      fiber := { (inside m a rest q).fiber with
        stack := m.fiber.stack.setIfInBounds (a.frame.base + q.instr.first) v } } := by
  have heffect : q.instr.effect = ⟨1, 0, 0⟩ := by
    unfold Instruction.effect
    rw [hop]
  obtain ⟨v, htop, hpeek, hv⟩ := hs.peek (by rw [heffect]; exact Nat.one_pos)
  refine ⟨v, htop, hv, ?_⟩
  unfold Exec.execute
  rw [hop]
  show (Exec.frame >>= _) _ = _
  rw [Exec.bind_ok (Exec.frame_eq rfl), Exec.bind_ok hpeek]
  rfl

/-- The slot may be shared, so the cells that are open on it are written, too. -/
theorem setLocal (hop : q.instr.op = .setLocal) :
    m.Completes q (fun r => (a.frame.base + q.instr.first, r) ∈ m.fiber.openUpvalues)
      (Exec.execute q.instr) (inside m a rest q) := by
  obtain ⟨v, -, hv, hexec⟩ := hs.setLocal_eq hop
  have heffect : q.instr.effect = ⟨1, 0, 0⟩ := by
    unfold Instruction.effect
    rw [hop]
  refine .of_ok hexec (hs.goesOn (by rw [hop]; rfl) (by rw [hop]; nofun) (by rw [hop]; nofun)
    (by rw [hop]; rfl) (by rw [hop]; rfl) (fun w hw => ?_) ?_ (fun e he => ?_) fun j _ _ => ?_)
  · rcases Array.mem_or_eq_of_mem_setIfInBounds hw with hw | rfl
    · exact hs.consistent.sound.fiber.stack w hw
    · exact hv
  · rw [heffect, Array.size_setIfInBounds]
    rfl
  · exact (Fiber.carries_write (fun e he => (hs.consistent.cells.listed _ List.mem_cons_self e he).2)
      (fun _ hr => hr) rfl e he).2
  · by_cases hslot : a.frame.base + q.instr.first = j
    · exact .inr ⟨hop, hslot.symm⟩
    · exact .inl (Array.getElem?_setIfInBounds_ne hslot)

/-! ## Cells -/

/-- The cell that is assigned, and the value on top. -/
theorem setUpvalue_eq (hop : q.instr.op = .setUpvalue) : ∃ r v u,
    m.fiber.stack[m.fiber.stack.size - 1]? = some v ∧ m.heap.Live v ∧
    m.heap.upvalue? r = some u ∧
    (∃ c, m.heap.closure? a.frame.closure = some c ∧ c.upvalues[q.instr.first]? = some r) ∧
    Exec.execute q.instr (inside m a rest q) = Exec.writeUpvalue r v (inside m a rest q) := by
  have heffect : q.instr.effect = ⟨1, 0, 0⟩ := by
    unfold Instruction.effect
    rw [hop]
  obtain ⟨v, htop, hpeek, hv⟩ := hs.peek (by rw [heffect]; exact Nat.one_pos)
  obtain ⟨c, hc, hlt⟩ : ∃ c, m.heap.closure? a.frame.closure = some c ∧
      q.instr.first < c.upvalues.size := by
    obtain ⟨c, hc, hp⟩ := hs.poised.sound.closure
    have hlt := hs.suits.capture (by rw [hop]; rfl)
    exact ⟨c, hc, (hs.consistent.sound.heap.made _ c hc).2 _ hp ▸ hlt⟩
  have hr : c.upvalues[q.instr.first]? = some c.upvalues[q.instr.first] :=
    Array.getElem?_eq_getElem hlt
  have hhas := (hs.consistent.heap_sound.closure hc).2.1 _ (Array.getElem_mem hlt)
  obtain ⟨u, hu⟩ := Heap.has_upvalue.mp hhas
  refine ⟨_, v, u, htop, hv, hu, ⟨c, hc, hr⟩, ?_⟩
  have hcell : Exec.upvalueCell q.instr.first (inside m a rest q) =
      .ok c.upvalues[q.instr.first] (inside m a rest q) := by
    unfold Exec.upvalueCell
    rw [Exec.get_bind, Exec.bind_ok (Exec.frame_eq rfl)]
    show (Exec.need (m.heap.closure? a.frame.closure) >>= _) _ = _
    rw [hc]
    show Exec.need c.upvalues[q.instr.first]? _ = _
    rw [hr]
    rfl
  unfold Exec.execute
  rw [hop]
  show (Exec.upvalueCell q.instr.first >>= _) _ = _
  rw [Exec.bind_ok hcell, Exec.bind_ok hpeek]

/-- The stack of the running fiber is as it was, and the heap may have gone on. -/
theorem stays (hop : q.instr.op.falls = true) (hop' : q.instr.op ≠ .tryBegin)
    (hop'' : q.instr.op ≠ .closure) (hmakes : q.instr.op.makes = none)
    (heffect : q.instr.effect.takes = 0)
    (heffect' : q.instr.effect.leaves = 0) (hh : m.heap.Persists h') (hs' : h'.Sound)
    (ht : (inside m a rest q).fiber.Sound h') : (inside m a rest q).fiber.Alive h' := by
  refine hs.executing.fall hop hop' hh hs' ht rfl rfl ?_ (fun j hj => ⟨?_, .inl hj⟩)
    (fun _ _ _ => .inl rfl) (by rw [hmakes]; nofun) (fun h => (hop'' h).elim) (.inl hs.ready) fun since deadline hsleep => ?_
  · rw [heffect, heffect']
    rfl
  · obtain ⟨cell, hj⟩ := hj
    exact (hs.consistent.cells.listed m.fiber List.mem_cons_self _ hj).2
  · cases hs.ready.symm.trans hsleep

/-- **`setUpvalue`** — an assignment to a captured variable changes its value wherever it is. -/
theorem setUpvalue (hop : q.instr.op = .setUpvalue) :
    m.Completes q (fun r => ∃ c, m.heap.closure? a.frame.closure = some c ∧
      c.upvalues[q.instr.first]? = some r) (Exec.execute q.instr) (inside m a rest q) := by
  obtain ⟨r, v, u, -, hv, hu, hcell, hexec⟩ := hs.setUpvalue_eq hop
  have hc := hs.consistent_inside
  have heffect : q.instr.effect = ⟨1, 0, 0⟩ := by
    unfold Instruction.effect
    rw [hop]
  have halive : ∀ {h' : Heap}, m.heap.Evolves h' → h'.Sound →
      (inside m a rest q).fiber.Sound h' → (inside m a rest q).fiber.Alive h' :=
    fun hev hs' ht => hs.stays (by rw [hop]; rfl) (by rw [hop]; nofun) (by rw [hop]; nofun)
      (by rw [hop]; rfl) (by rw [heffect]) (by rw [heffect]) hev.persists hs' ht
  rw [Exec.writeUpvalue_eq (m := inside m a rest q) hu] at hexec
  unfold Machine.setShared at hexec
  -- the machine does what the cell says
  cases u with
  | closed w =>
    obtain ⟨hev, hc', hmoves⟩ := hc.assignClosed hu hv
    refine .of_ok hexec ⟨⟨hc', .inr (halive hev hc'.heap_sound hc'.sound.fiber)⟩, ?_⟩
    exact law_inside ((hc.law hmoves).mono fun r' heq => heq ▸ hcell)
  | onStack task slot =>
    dsimp only at hexec
    by_cases htask : m.fiber.id = task
    · -- the running fiber owns the variable
      rw [if_pos (show (inside m a rest q).fiber.id = task from htask)] at hexec
      have hmem : m.fiber ∈ m.fibers := List.mem_cons_self
      obtain ⟨t, ht, hid, hopen⟩ := hs.consistent.cells.covered r task slot hu
      obtain rfl := hs.consistent.tasks.id_inj t ht m.fiber hmem (hid.trans htask.symm)
      refine .of_ok hexec (hs.goesOn (by rw [hop]; rfl) (by rw [hop]; nofun) (by rw [hop]; nofun)
        (by rw [hop]; rfl) (by rw [hop]; rfl) (fun w hw => ?_) ?_ (fun e he => ?_)
        fun j _ hj => .inl ?_)
      · rcases Array.mem_or_eq_of_mem_setIfInBounds hw with hw | rfl
        · exact hs.consistent.sound.fiber.stack w hw
        · exact hv
      · rw [heffect, Array.size_setIfInBounds]
        rfl
      · have hwrote : ∀ r', (slot, r') ∈ m.fiber.openUpvalues → r' = r := fun r' hr' =>
          congrArg Prod.snd (hs.consistent.cells.slot_inj hmem hr' hopen rfl)
        exact (Fiber.carries_write (fun e he => (hs.consistent.cells.listed _ hmem e he).2)
          (fun r' hr' => hwrote r' hr' ▸ hcell) rfl e he).2
      · exact Array.getElem?_setIfInBounds_ne fun (heq : slot = j) => hj ⟨r, heq ▸ hopen⟩
    · rw [if_neg (show ¬ (inside m a rest q).fiber.id = task from htask)] at hexec
      obtain ⟨hc', hmoves⟩ := hc.assignWaiting hu hv
      refine .of_ok hexec ⟨⟨hc', .inr (halive (.refl _) hc'.heap_sound hc'.sound.fiber)⟩, ?_⟩
      exact law_inside ((hc.law hmoves).mono fun r' heq => heq ▸ hcell)

end Stepping

end ScriptMachine
