import Mathlib
import ScriptMachine.Machine.Upvalues
import ScriptMachine.Proofs.Machine.Soundness

/-!
# ScriptMachine.Proofs.Machine.Cells — captured variables and the fibers they live on

The cells of captured variables and the fibers point at each other: an open cell names a task and a
slot, and the fiber of that task lists the cell for that slot. `Cells h ts` says that the two agree,
that every listed slot is on its stack, and that a fiber lists no slot twice. So the value of a
variable is where its cell says, whichever task looks for it.

What a transition of the machine does to cells is one relation: `Carried` says which cells stay open,
and that those which do not have taken over the value of their slot. Both the agreement and the values
read through cells follow from it.

`Carried.cells` and `Carried.reads` are these two consequences, and `Cells.carried_close` is the move that
takes the most: the cells of a fiber from a slot on are closed, each with the value of its slot, and the
others stay open. It is used wherever a part of a stack is left, by the end of a scope, a return, an
error or the end of a task. How a cell is made is not a case of `Carried`, and is treated with closures.
-/

namespace ScriptMachine

/-- **`Cells h ts`** — the open cells of the heap and those that the fibers list are the same, each
fiber lists them by descending slots, and the slots are on its stack. -/
structure Cells (h : Heap) (ts : List Fiber) : Prop where
  order : ∀ t ∈ ts, t.openUpvalues.Pairwise fun e e' => e'.1 < e.1
  listed : ∀ t ∈ ts, ∀ e ∈ t.openUpvalues,
    h.upvalue? e.2 = some (.onStack t.id e.1) ∧ e.1 < t.stack.size
  covered : ∀ r task slot, h.upvalue? r = some (.onStack task slot) →
    ∃ t ∈ ts, t.id = task ∧ (slot, r) ∈ t.openUpvalues

/-- **`Reads h ts r v`** — the value of the variable whose cell is `r` is `v`. -/
def Reads (h : Heap) (ts : List Fiber) (r : Ref) (v : Value) : Prop :=
  h.upvalue? r = some (.closed v) ∨
    ∃ t ∈ ts, ∃ slot, h.upvalue? r = some (.onStack t.id slot) ∧ t.stack[slot]? = some v

/-- **`Carried wrote h ts h' ts'`** — no cell is made; those that stay open are listed by the same task
for the same slot, and those that are closed now hold the value of their slot. The values of all cells
are the same as before, except for those of `wrote`. -/
structure Carried (wrote : Ref → Prop) (h : Heap) (ts : List Fiber) (h' : Heap) (ts' : List Fiber) :
    Prop where
  back : ∀ r u', h'.upvalue? r = some u' →
    ∃ u, h.upvalue? r = some u ∧ ∀ task slot, u' = .onStack task slot → u = u'
  fiber : ∀ t' ∈ ts', t'.openUpvalues = [] ∨ ∃ t ∈ ts, t'.id = t.id ∧
    t'.openUpvalues.Sublist t.openUpvalues ∧ ∀ e ∈ t'.openUpvalues,
      h'.upvalue? e.2 = h.upvalue? e.2 ∧ e.1 < t'.stack.size
  opened : ∀ t ∈ ts, ∀ e ∈ t.openUpvalues, ∀ u, h'.upvalue? e.2 = some u →
    (u = .onStack t.id e.1 ∧ ∃ t' ∈ ts', t'.id = t.id ∧ e ∈ t'.openUpvalues ∧
      (wrote e.2 ∨ t'.stack[e.1]? = t.stack[e.1]?)) ∨
    ∃ v, u = .closed v ∧ (wrote e.2 ∨ t.stack[e.1]? = some v)
  closed : ∀ r v, h.upvalue? r = some (.closed v) → ∀ u, h'.upvalue? r = some u →
    wrote r ∨ u = .closed v

/-- **`t.Carries wrote t' cells`** — the fiber `t'` is the next state of `t`: it lists these cells, and
their slots hold what they held, unless they were written to. -/
structure Fiber.Carries (wrote : Ref → Prop) (t t' : Fiber) (cells : List (Nat × Ref)) : Prop where
  id : t'.id = t.id
  openUpvalues : t'.openUpvalues = cells
  stack : ∀ e ∈ cells, e.1 < t'.stack.size ∧ (wrote e.2 ∨ t'.stack[e.1]? = t.stack[e.1]?)

variable {h h' h'' : Heap} {ts ts' ts'' : List Fiber} {wrote : Ref → Prop} {r : Ref} {v : Value}
  {t : Fiber}

/-- A slot that is shared is on the stack. -/
theorem Cells.listed_slot (hc : Cells h ts) (ht : t ∈ ts) {e : Nat × Ref}
    (he : e ∈ t.openUpvalues) : ∃ v, t.stack[e.1]? = some v :=
  ⟨_, Array.getElem?_eq_getElem (hc.listed t ht e he).2⟩

/-- A fiber lists one cell for a slot. -/
theorem Cells.slot_inj (hc : Cells h ts) (ht : t ∈ ts) {e e' : Nat × Ref}
    (he : e ∈ t.openUpvalues) (he' : e' ∈ t.openUpvalues) (heq : e.1 = e'.1) : e = e' := by
  have hnodup : (t.openUpvalues.map Prod.fst).Nodup :=
    List.pairwise_map.mpr ((hc.order t ht).imp fun hlt => Nat.ne_of_gt hlt)
  exact List.inj_on_of_nodup_map hnodup he he' heq

/-- **`Cells.reads`** — every cell has a value: no cell names a task that is gone or a slot that is not
on its stack. -/
theorem Cells.reads (hc : Cells h ts) {u : Upvalue} (hu : h.upvalue? r = some u) :
    ∃ v, Reads h ts r v := by
  cases u with
  | closed v => exact ⟨v, .inl hu⟩
  | onStack task slot =>
    obtain ⟨t, ht, rfl, he⟩ := hc.covered r task slot hu
    obtain ⟨v, hv⟩ := hc.listed_slot ht he
    exact ⟨v, .inr ⟨t, ht, slot, hu, hv⟩⟩

/-- Of a fiber, what it lists matters, and that this is on its stack. -/
theorem Cells.congr_fiber (hc : Cells h (t :: ts)) (t' : Fiber) (hid : t'.id = t.id)
    (hopen : t'.openUpvalues = t.openUpvalues) (hsize : t.stack.size ≤ t'.stack.size) :
    Cells h (t' :: ts) where
  order u hu := by
    rcases List.mem_cons.mp hu with rfl | hu
    · exact hopen ▸ hc.order t List.mem_cons_self
    · exact hc.order u (List.mem_cons_of_mem _ hu)
  listed u hu e he := by
    rcases List.mem_cons.mp hu with rfl | hu
    · obtain ⟨hcell, hlt⟩ := hc.listed t List.mem_cons_self e (hopen ▸ he)
      exact ⟨hid ▸ hcell, Nat.lt_of_lt_of_le hlt hsize⟩
    · exact hc.listed u (List.mem_cons_of_mem _ hu) e he
  covered r task slot hr := by
    obtain ⟨u, hu, htask, he⟩ := hc.covered r task slot hr
    rcases List.mem_cons.mp hu with rfl | hu
    · exact ⟨t', List.mem_cons_self, hid.trans htask, hopen ▸ he⟩
    · exact ⟨u, List.mem_cons_of_mem _ hu, htask, he⟩

/-- Of the heap, only the cells matter. -/
theorem Cells.congr_heap (hc : Cells h ts) (hu : ∀ r, h'.upvalue? r = h.upvalue? r) :
    Cells h' ts where
  order := hc.order
  listed t ht e he := hu e.2 ▸ hc.listed t ht e he
  covered r task slot hr := hc.covered r task slot (hu r ▸ hr)

namespace Carried

/-- **`Carried.cells`** — the cells still agree with the fibers. -/
theorem cells (hk : Carried wrote h ts h' ts') (hc : Cells h ts) : Cells h' ts' where
  order t' ht' := by
    rcases hk.fiber t' ht' with hnil | ⟨t, ht, -, hsub, -⟩
    · rw [hnil]
      exact .nil
    · exact (hc.order t ht).sublist hsub
  listed t' ht' e he := by
    rcases hk.fiber t' ht' with hnil | ⟨t, ht, hid, hsub, hopen⟩
    · rw [hnil] at he
      cases he
    · obtain ⟨hu, hlt⟩ := hopen e he
      rw [hu, hid]
      exact ⟨(hc.listed t ht e (hsub.subset he)).1, hlt⟩
  covered r task slot hr := by
    obtain ⟨u, hu, hsame⟩ := hk.back r _ hr
    obtain rfl := hsame task slot rfl
    obtain ⟨t, ht, rfl, he⟩ := hc.covered r task slot hu
    rcases hk.opened t ht _ he _ hr with ⟨-, t', ht', hid, he', -⟩ | ⟨v, hv, -⟩
    · exact ⟨t', ht', hid, he'⟩
    · cases hv

/-- **`Carried.reads`** — a cell that nobody wrote to still has its value. -/
theorem reads (hk : Carried wrote h ts h' ts') (hc : Cells h ts)
    (hids : ∀ t ∈ ts, ∀ t' ∈ ts, t.id = t'.id → t = t')
    (hr : Reads h ts r v) (hwrote : ¬ wrote r) {u : Upvalue} (hu : h'.upvalue? r = some u) :
    Reads h' ts' r v := by
  rcases hr with hr | ⟨t, ht, slot, hr, hv⟩
  · obtain hw | rfl := hk.closed r v hr u hu
    · exact (hwrote hw).elim
    · exact .inl hu
  · obtain ⟨t₁, ht₁, hid, he⟩ := hc.covered r t.id slot hr
    obtain rfl := hids t₁ ht₁ t ht hid
    rcases hk.opened t₁ ht _ he u hu with ⟨rfl, t', ht', hid', -, hw⟩ | ⟨w, rfl, hw⟩
    · obtain hw | hstack := hw
      · exact (hwrote hw).elim
      · exact .inr ⟨t', ht', slot, hid' ▸ hu, hstack.trans hv⟩
    · obtain hw | hw := hw
      · exact (hwrote hw).elim
      · obtain rfl : w = v := Option.some.inj (hw.symm.trans hv)
        exact .inl hu

theorem refl (hc : Cells h ts) : Carried wrote h ts h ts where
  back r u hu := ⟨u, hu, fun _ _ _ => rfl⟩
  fiber t ht := .inr ⟨t, ht, rfl, .refl _, fun e he => ⟨rfl, (hc.listed t ht e he).2⟩⟩
  opened t ht e he u hu := by
    obtain rfl := Option.some.inj (hu.symm.trans (hc.listed t ht e he).1)
    exact .inl ⟨rfl, t, ht, rfl, he, .inr rfl⟩
  closed r v hr u hu := .inr (Option.some.inj (hu.symm.trans hr))

/-- What is carried on twice is carried on. A cell that was closed in between keeps what it was
closed with. -/
theorem trans (hk : Carried wrote h ts h' ts') (hk' : Carried wrote h' ts' h'' ts'') :
    Carried wrote h ts h'' ts'' where
  back r u'' hu'' := by
    obtain ⟨u', hu', hsame'⟩ := hk'.back r u'' hu''
    obtain ⟨u, hu, hsame⟩ := hk.back r u' hu'
    refine ⟨u, hu, fun task slot heq => ?_⟩
    have heq' := hsame' task slot heq
    exact (hsame task slot (heq'.trans heq)).trans heq'
  fiber t'' ht'' := by
    rcases hk'.fiber t'' ht'' with hnil | ⟨t', ht', hid', hsub', hopen'⟩
    · exact .inl hnil
    rcases hk.fiber t' ht' with hnil | ⟨t, ht, hid, hsub, hopen⟩
    · rw [hnil, List.sublist_nil] at hsub'
      exact .inl hsub'
    · refine .inr ⟨t, ht, hid'.trans hid, hsub'.trans hsub, fun e he => ?_⟩
      exact ⟨(hopen' e he).1.trans (hopen e (hsub'.subset he)).1, (hopen' e he).2⟩
  opened t ht e he u'' hu'' := by
    obtain ⟨u', hu', hsame'⟩ := hk'.back e.2 u'' hu''
    -- the cell is open all along, or it closes in the second part, or it has closed in the first
    rcases hk.opened t ht e he u' hu' with ⟨rfl, t', ht', hid, he', hw⟩ | ⟨v, rfl, hw⟩
    · rcases hk'.opened t' ht' e he' u'' hu'' with ⟨rfl, t'', ht'', hid', he'', hw'⟩ | ⟨v, rfl, hw'⟩
      · refine .inl ⟨by rw [hid], t'', ht'', hid'.trans hid, he'', ?_⟩
        obtain hw | hw := hw
        · exact .inl hw
        · exact hw'.imp id fun hw' => hw'.trans hw
      · refine .inr ⟨v, rfl, ?_⟩
        obtain hw | hw := hw
        · exact .inl hw
        · exact hw'.imp id fun hw' => hw.symm.trans hw'
    · cases u'' with
      | onStack task slot => cases hsame' task slot rfl
      | closed w =>
        refine .inr ⟨w, rfl, ?_⟩
        obtain hw' | hw' := hk'.closed e.2 v hu' _ hu''
        · exact .inl hw'
        · obtain rfl : w = v := Upvalue.closed.inj hw'
          exact hw
  closed r v hr u'' hu'' := by
    obtain ⟨u', hu', hsame'⟩ := hk'.back r u'' hu''
    obtain hw | rfl := hk.closed r v hr u' hu'
    · exact .inl hw
    · exact hk'.closed r v hu' u'' hu''

/-- Only what the heap has for cells matters. -/
theorem congr_heap (hk : Carried wrote h ts h' ts') (hu : ∀ r, h''.upvalue? r = h'.upvalue? r) :
    Carried wrote h ts h'' ts' where
  back r := hu r ▸ hk.back r
  fiber t' ht' := by
    rcases hk.fiber t' ht' with hnil | ⟨t, ht, hid, hsub, hopen⟩
    · exact .inl hnil
    · exact .inr ⟨t, ht, hid, hsub, fun e he => ⟨(hu e.2).trans (hopen e he).1, (hopen e he).2⟩⟩
  opened t ht e he u heq := hk.opened t ht e he u (hu e.2 ▸ heq)
  closed r v hr u heq := hk.closed r v hr u (hu r ▸ heq)

/-- **`Carried.of_calm`** — fibers may come and go while the heap is calm, as long as those with open
cells stay and these cells are still on their stacks. -/
theorem of_calm (hc : Cells h ts) (hcalm : ∀ r u, h'.upvalue? r = some u → h.upvalue? r = some u)
    (hhas : ∀ t' ∈ ts', ∀ e ∈ t'.openUpvalues, h'.Has e.2 .upvalue)
    (hto : ∀ t' ∈ ts', t'.openUpvalues = [] ∨ ∃ t ∈ ts, t.Carries wrote t' t.openUpvalues)
    (hfrom : ∀ t ∈ ts, t.openUpvalues ≠ [] → ∃ t' ∈ ts', t.Carries wrote t' t.openUpvalues) :
    Carried wrote h ts h' ts' where
  back r u hu := ⟨u, hcalm r u hu, fun _ _ _ => rfl⟩
  fiber t' ht' := by
    rcases hto t' ht' with hnil | ⟨t, ht, hcarries⟩
    · exact .inl hnil
    · have hsub : t'.openUpvalues.Sublist t.openUpvalues := by rw [hcarries.openUpvalues]
      refine .inr ⟨t, ht, hcarries.id, hsub, fun e he => ?_⟩
      obtain ⟨u, hu⟩ := Heap.has_upvalue.mp (hhas t' ht' e he)
      exact ⟨hu.trans (hcalm e.2 u hu).symm, (hcarries.stack e (hsub.subset he)).1⟩
  opened t ht e he u hu := by
    obtain ⟨t', ht', hcarries⟩ := hfrom t ht (List.ne_nil_of_mem he)
    obtain rfl := Option.some.inj ((hcalm e.2 u hu).symm.trans (hc.listed t ht e he).1)
    exact .inl ⟨rfl, t', ht', hcarries.id, hcarries.openUpvalues ▸ he, (hcarries.stack e he).2⟩
  closed r v hr u hu := .inr (Option.some.inj ((hcalm r u hu).symm.trans hr))

end Carried

/-! ## Closing cells -/

namespace Heap

/-- **`h.Closes closing h'`** — the heap goes on, and only the cells of `closing` change. -/
structure Closes (h : Heap) (closing : Ref → Prop) (h' : Heap) : Prop where
  healthy : h'.Healthy
  evolves : h.Evolves h'
  abides : h.Abides h'
  unchanged : ∀ r, ¬ closing r → h'.get? r = h.get? r

/-- Closing cells touches no handle. -/
theorem Closes.tasks {closing : Ref → Prop} (hc : h.Closes closing h')
    (hcell : ∀ r, closing r → h.Has r .upvalue) (r : Ref) : h'.task? r = h.task? r := by
  by_cases hr : closing r
  · obtain ⟨o, ho, hkind⟩ := hcell r hr
    obtain ⟨o', ho', hfixed⟩ := hc.evolves r o ho
    have hkind' := (Obj.kind_eq_of_fixed hfixed).trans hkind
    unfold task?
    rw [ho, ho']
    cases o <;> first | cases hkind; done | skip
    cases o' <;> first | cases hkind'; done | rfl
  · unfold task?
    rw [hc.unchanged r hr]

end Heap

namespace Fiber

/-- The cell takes over the value of its slot. -/
theorem closes_modify (hh : h.Healthy) (hr : h.Has r .upvalue) (hv : h.Live v) :
    h.Closes (· = r) (h.modify r fun _ => .upvalue (.closed v)) ∧
      (h.modify r fun _ => .upvalue (.closed v)).upvalue? r = some (.closed v) := by
  obtain ⟨o, ho, hkind⟩ := hr
  have hfixed : ∀ o', h.get? r = some o' → (Obj.upvalue (.closed v)).fixed = o'.fixed := by
    intro o' ho'
    obtain rfl := Option.some.inj (ho.symm.trans ho')
    cases o <;> first | rfl | cases hkind
  refine ⟨⟨hh.modify hfixed fun _ _ _ => hv, Heap.evolves_modify hfixed, Heap.abides_modify hfixed,
    fun r' hne => ?_⟩, ?_⟩
  · rw [Heap.get?_modify, if_neg hne]
  · rw [Heap.upvalue?_eq_some, Heap.get?_modify, if_pos rfl, ho]
    rfl

variable {stack : Array Value} {cells : List (Nat × Ref)}

/-- **`closes_closeCells`** — closing some cells moves the values of their slots into them, and changes
nothing else. -/
theorem closes_closeCells (hh : h.Healthy) (hcell : ∀ e ∈ cells, h.Has e.2 .upvalue)
    (hlive : ∀ v ∈ stack, h.Live v) (hone : ∀ e ∈ cells, ∀ e' ∈ cells, e.2 = e'.2 → e.1 = e'.1) :
    h.Closes (fun r => ∃ s, (s, r) ∈ cells) (closeCells stack cells h) ∧
      ∀ e ∈ cells, (closeCells stack cells h).upvalue? e.2 =
        some (.closed (stack.getD e.1 .none)) := by
  induction cells generalizing h with
  | nil =>
    exact ⟨⟨hh, .refl h, .refl h, fun _ _ => rfl⟩, by simp⟩
  | cons e cells ih =>
    have hv : h.Live (stack.getD e.1 .none) := by
      rw [Array.getD_eq_getD_getElem?]
      cases hs : stack[e.1]? with
      | none => exact Heap.live_none
      | some w => exact hlive w (Array.mem_of_getElem? hs)
    -- the first cell is closed, and the others after it
    obtain ⟨hfirst, hclosed⟩ := closes_modify hh (hcell e List.mem_cons_self) hv
    obtain ⟨hrest, hothers⟩ := ih hfirst.healthy
      (fun e' he' => hfirst.evolves.has (hcell e' (List.mem_cons_of_mem _ he')))
      (fun w hw => hfirst.evolves.live (hlive w hw))
      fun e₁ h₁ e₂ h₂ => hone e₁ (List.mem_cons_of_mem _ h₁) e₂ (List.mem_cons_of_mem _ h₂)
    refine ⟨⟨hrest.healthy, hfirst.evolves.trans hrest.evolves, hfirst.abides.trans hrest.abides,
      fun r hr => ?_⟩, fun e' he' => ?_⟩
    · have hne : r ≠ e.2 := by
        rintro rfl
        exact hr ⟨e.1, List.mem_cons_self⟩
      have hnot : ¬ ∃ s, (s, r) ∈ cells := fun ⟨s, hs⟩ => hr ⟨s, List.mem_cons_of_mem _ hs⟩
      exact (hrest.unchanged r hnot).trans (hfirst.unchanged r hne)
    · rcases List.mem_cons.mp he' with rfl | he'
      · -- the cell may be listed once more, but only for the same slot
        by_cases hagain : ∃ s, (s, e'.2) ∈ cells
        · obtain ⟨s, hs⟩ := hagain
          obtain rfl : e'.1 = s := hone e' List.mem_cons_self _ (List.mem_cons_of_mem _ hs) rfl
          exact hothers _ hs
        · exact Heap.upvalue?_eq_some.mpr
            ((hrest.unchanged _ hagain).trans (Heap.upvalue?_eq_some.mp hclosed))
      · exact hothers e' he'

/-- The open cells below a slot. -/
def openBelow (t : Fiber) (slot : Nat) : List (Nat × Ref) :=
  t.openUpvalues.filter fun e => e.1 < slot

/-- The open cells at or above a slot. -/
def openFrom (t : Fiber) (slot : Nat) : List (Nat × Ref) :=
  t.openUpvalues.filter fun e => slot ≤ e.1

theorem mem_openBelow {e : Nat × Ref} {slot : Nat} :
    e ∈ t.openBelow slot ↔ e ∈ t.openUpvalues ∧ e.1 < slot := by
  simp [openBelow]

theorem mem_openFrom {e : Nat × Ref} {slot : Nat} :
    e ∈ t.openFrom slot ↔ e ∈ t.openUpvalues ∧ slot ≤ e.1 := by
  simp [openFrom]

theorem openBelow_zero : t.openBelow 0 = [] := by
  simp [openBelow]

/-- Cells in descending order are split where the slots get too low. -/
theorem splitOpen_eq (ht : t.openUpvalues.Pairwise fun e e' => e'.1 < e.1) (slot : Nat) :
    t.splitOpen slot = (t.openFrom slot, t.openBelow slot) := by
  unfold splitOpen openFrom openBelow
  rw [List.span_eq_takeWhile_dropWhile]
  generalize t.openUpvalues = cells at ht ⊢
  induction cells with
  | nil => rfl
  | cons e rest ih =>
    obtain ⟨hfirst, hrest⟩ := List.pairwise_cons.mp ht
    by_cases hle : slot ≤ e.1
    · have hih := Prod.mk.inj (ih hrest)
      have hnot : ¬ e.1 < slot := Nat.not_lt.mpr hle
      simp [hle, hnot, hih]
    · -- everything that follows is lower still
      have hlt : ∀ e' ∈ e :: rest, e'.1 < slot := by
        intro e' he'
        rcases List.mem_cons.mp he' with rfl | he'
        · exact Nat.lt_of_not_le hle
        · exact Nat.lt_trans (hfirst e' he') (Nat.lt_of_not_le hle)
      have hnone : (e :: rest).filter (fun e => decide (slot ≤ e.1)) = [] := by
        rw [List.filter_eq_nil_iff]
        intro e' he'
        simpa using hlt e' he'
      have hall : (e :: rest).filter (fun e => decide (e.1 < slot)) = e :: rest := by
        rw [List.filter_eq_self]
        intro e' he'
        simpa using hlt e' he'
      rw [hnone, hall]
      simp [hle]

/-- **`closeUpvalues_eq`** — closing from a slot on keeps the cells below, and closes the others. -/
theorem closeUpvalues_eq (ht : t.openUpvalues.Pairwise fun e e' => e'.1 < e.1) (slot : Nat) :
    t.closeUpvalues slot h =
      ({ t with openUpvalues := t.openBelow slot }, closeCells t.stack (t.openFrom slot) h) := by
  have hsplit := splitOpen_eq ht slot
  obtain ⟨id, handle, stack, frames, cells, handlers, state⟩ := t
  cases cells with
  | nil => rfl
  | cons e rest => simp only [closeUpvalues, hsplit]

end Fiber

namespace Cells

variable {slot : Nat}

/-- The heap after closing the cells of a fiber from a slot on: they have taken over the values of their
slots. -/
structure Closed (t : Fiber) (slot : Nat) (h h' : Heap) : Prop where
  closes : h.Closes (fun r => ∃ s, (s, r) ∈ t.openFrom slot) h'
  values : ∀ e ∈ t.openFrom slot, ∃ v, t.stack[e.1]? = some v ∧ h'.upvalue? e.2 = some (.closed v)
  tasks : ∀ r, h'.task? r = h.task? r

/-- Each cell from the slot on gets the value that its slot has. -/
theorem closed (hc : Cells h ts) (ht : t ∈ ts) (hh : h.Healthy) (hs : t.Sound h) (slot : Nat) :
    Closed t slot h (t.closeUpvalues slot h).2 := by
  rw [Fiber.closeUpvalues_eq (hc.order t ht)]
  have hmem : ∀ e ∈ t.openFrom slot, e ∈ t.openUpvalues := fun e he => (Fiber.mem_openFrom.mp he).1
  have hcell : ∀ e ∈ t.openFrom slot, h.Has e.2 .upvalue := fun e he =>
    hs.openUpvalues e (hmem e he)
  -- a cell names its slot, so it is listed for no other
  have hone : ∀ e ∈ t.openFrom slot, ∀ e' ∈ t.openFrom slot, e.2 = e'.2 → e.1 = e'.1 := by
    intro e he e' he' heq
    have hu := (hc.listed t ht e (hmem e he)).1
    rw [heq, (hc.listed t ht e' (hmem e' he')).1] at hu
    exact (Upvalue.onStack.inj (Option.some.inj hu)).2.symm
  obtain ⟨hcloses, hvalues⟩ := Fiber.closes_closeCells hh hcell hs.stack hone
  refine ⟨hcloses, fun e he => ?_, hcloses.tasks fun r ⟨s, hr⟩ => hcell _ hr⟩
  obtain ⟨v, hv⟩ := hc.listed_slot ht (hmem e he)
  refine ⟨v, hv, ?_⟩
  rw [hvalues e he, Array.getD_eq_getD_getElem?, hv]
  rfl

/-- **`Cells.carried_close`** — closing the cells of one fiber from a slot on, while the other fibers stay
as they are. -/
theorem carried_close (hc : Cells h ts) (ht : t ∈ ts) (hclosed : Closed t slot h h')
    (hto : ∀ t' ∈ ts', t'.openUpvalues = [] ∨ t.Carries wrote t' (t.openBelow slot) ∨
      ∃ t₁ ∈ ts, t₁.id ≠ t.id ∧ t₁.Carries wrote t' t₁.openUpvalues)
    (hown : t.openBelow slot ≠ [] → ∃ t' ∈ ts', t.Carries wrote t' (t.openBelow slot))
    (hids : ∀ t₁ ∈ ts, t₁.id = t.id → t₁ = t)
    (hothers : ∀ t₁ ∈ ts, t₁.id ≠ t.id → t₁.openUpvalues ≠ [] →
      ∃ t' ∈ ts', t₁.Carries wrote t' t₁.openUpvalues) :
    Carried wrote h ts h' ts' := by
  -- only cells of `t` from the slot on are closed
  have hsame : ∀ r, (¬ ∃ s, (s, r) ∈ t.openFrom slot) → h'.upvalue? r = h.upvalue? r := by
    intro r hr
    unfold Heap.upvalue?
    rw [hclosed.closes.unchanged r hr]
  have hbelow : ∀ e ∈ t.openBelow slot, ¬ ∃ s, (s, e.2) ∈ t.openFrom slot := by
    rintro e he ⟨s, hs⟩
    obtain ⟨hmem, hlt⟩ := Fiber.mem_openBelow.mp he
    obtain ⟨hmem', hle⟩ := Fiber.mem_openFrom.mp hs
    have hu := (hc.listed t ht e hmem).1
    rw [(hc.listed t ht _ hmem').1] at hu
    have heq := (Upvalue.onStack.inj (Option.some.inj hu)).2
    dsimp only at heq hle
    omega
  have hother : ∀ t₁ ∈ ts, t₁.id ≠ t.id → ∀ e ∈ t₁.openUpvalues,
      ¬ ∃ s, (s, e.2) ∈ t.openFrom slot := by
    rintro t₁ ht₁ hne e he ⟨s, hs⟩
    have hu := (hc.listed t₁ ht₁ e he).1
    rw [(hc.listed t ht _ (Fiber.mem_openFrom.mp hs).1).1] at hu
    exact hne (Upvalue.onStack.inj (Option.some.inj hu)).1.symm
  refine ⟨fun r u' hu' => ?_, fun t' ht' => ?_, fun t₁ ht₁ e he u hu => ?_, fun r v hr u hu => ?_⟩
  · by_cases hr : ∃ s, (s, r) ∈ t.openFrom slot
    · obtain ⟨s, hs⟩ := hr
      obtain ⟨v, -, hv⟩ := hclosed.values _ hs
      obtain rfl := Option.some.inj (hu'.symm.trans hv)
      exact ⟨_, (hc.listed t ht _ (Fiber.mem_openFrom.mp hs).1).1, nofun⟩
    · exact ⟨u', (hsame r hr).symm.trans hu', fun _ _ _ => rfl⟩
  · rcases hto t' ht' with hnil | hcarries | ⟨t₁, ht₁, hne, hcarries⟩
    · exact .inl hnil
    · refine .inr ⟨t, ht, hcarries.id, ?_, fun e he => ?_⟩
      · rw [hcarries.openUpvalues]
        exact List.filter_sublist
      · rw [hcarries.openUpvalues] at he
        exact ⟨hsame _ (hbelow e he), (hcarries.stack e he).1⟩
    · refine .inr ⟨t₁, ht₁, hcarries.id, ?_, fun e he => ?_⟩
      · rw [hcarries.openUpvalues]
      · rw [hcarries.openUpvalues] at he
        exact ⟨hsame _ (hother t₁ ht₁ hne e he), (hcarries.stack e he).1⟩
  · by_cases hid : t₁.id = t.id
    · obtain rfl := hids t₁ ht₁ hid
      by_cases hlt : e.1 < slot
      · have hmem := Fiber.mem_openBelow.mpr ⟨he, hlt⟩
        obtain ⟨t', ht', hcarries⟩ := hown (List.ne_nil_of_mem hmem)
        rw [hsame _ (hbelow e hmem), (hc.listed t₁ ht e he).1] at hu
        exact .inl ⟨(Option.some.inj hu).symm, t', ht', hcarries.id, hcarries.openUpvalues ▸ hmem,
          (hcarries.stack e hmem).2⟩
      · obtain ⟨v, hv, hclosed⟩ := hclosed.values e
          (Fiber.mem_openFrom.mpr ⟨he, Nat.le_of_not_lt hlt⟩)
        exact .inr ⟨v, Option.some.inj (hu.symm.trans hclosed), .inr hv⟩
    · obtain ⟨t', ht', hcarries⟩ := hothers t₁ ht₁ hid (List.ne_nil_of_mem he)
      rw [hsame _ (hother t₁ ht₁ hid e he), (hc.listed t₁ ht₁ e he).1] at hu
      exact .inl ⟨(Option.some.inj hu).symm, t', ht', hcarries.id, hcarries.openUpvalues ▸ he,
        (hcarries.stack e he).2⟩
  · by_cases hr' : ∃ s, (s, r) ∈ t.openFrom slot
    · obtain ⟨s, hs⟩ := hr'
      rw [(hc.listed t ht _ (Fiber.mem_openFrom.mp hs).1).1] at hr
      cases hr
    · rw [hsame r hr', hr] at hu
      exact .inr (Option.some.inj hu).symm

end Cells

end ScriptMachine
