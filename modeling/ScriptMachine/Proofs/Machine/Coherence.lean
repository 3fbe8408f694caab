import Mathlib
import ScriptMachine.Proofs.Machine.Histories
import ScriptMachine.Proofs.Machine.Regularity

/-!
# ScriptMachine.Proofs.Machine.Coherence — what is held and what is shared

Two things are so of a machine at any time. It holds on to nothing that is not there, or that is not of
the kind its place asks for, so no instruction is led astray by a reference. And a captured variable
has one value: whichever task reads it, through a closure or on the stack, finds what was assigned to
it last, also after the variable has left the stack.

Both statements are about reachable machines, and both are read off their validity. They are then tried
on a history each. In the first a task is about to add an instance to a list that is in a captured
variable of another task, with the literal still open on the stack. In the second a task assigns a
variable of the main task, which lives on the stack of the main task while that waits. `Run.reads` is
the statement about time: a variable that is not assigned keeps its value, when its cell closes and
whoever runs in between.

Values are compared as values here, and an object may change while a variable refers to it.
-/

namespace ScriptMachine

variable {m m' : Machine} {r : Ref} {u : Upvalue} {v : Value} {task slot : Nat} {t : Fiber}

namespace Machine

/-! ## References -/

namespace Consistent

variable (hc : m.Consistent)
include hc

/-- The fiber of a task is found by its id. -/
theorem fiberOf?_eq (ht : t ∈ m.fibers) : Exec.fiberOf? m t.id = some t := by
  unfold Exec.fiberOf?
  split
  · rename_i hid
    rw [hc.tasks.id_inj _ List.mem_cons_self t ht hid]
  · rename_i hid
    rcases mem_fibers.mp ht with rfl | ht'
    · exact (hid rfl).elim
    · exact hc.find?_id ht'

/-- **`readUpvalue_eq`** — a read finds the value of the variable. -/
theorem readUpvalue_eq (hr : Reads m.heap m.fibers r v) : Exec.readUpvalue r m = .ok v m := by
  unfold Exec.readUpvalue
  rw [Exec.get_bind]
  rcases hr with hr | ⟨t, ht, slot, hr, hv⟩
  · rw [hr]
    rfl
  · rw [hr]
    show EStateM.Result.ok (((Exec.fiberOf? m t.id).bind fun t => t.stack[slot]?).getD .none) m = _
    rw [hc.fiberOf?_eq ht, Option.bind_some, hv]
    rfl

/-- **`writeUpvalue_eq`** — after a write the variable has the value that was written. -/
theorem writeUpvalue_eq (hr : m.heap.upvalue? r = some u) (v : Value) :
    ∃ m', Exec.writeUpvalue r v m = .ok () m' ∧ Reads m'.heap m'.fibers r v := by
  have hneed : Exec.need (m.heap.upvalue? r) m = .ok u m := by
    rw [hr]
    rfl
  unfold Exec.writeUpvalue
  rw [Exec.get_bind, Exec.bind_ok hneed]
  cases u with
  | closed w =>
    refine ⟨_, rfl, .inl ?_⟩
    show Heap.upvalue? (m.heap.modify r fun _ => .upvalue (.closed v)) r = _
    rw [Heap.upvalue?_eq_some, Heap.get?_modify, if_pos rfl, Heap.upvalue?_eq_some.mp hr]
    rfl
  | onStack task slot =>
    obtain ⟨t, ht, rfl, hmem⟩ := hc.cells.covered r task slot hr
    obtain ⟨w, hw⟩ := hc.cells.listed_slot ht hmem
    have hset : (t.stack.setIfInBounds slot v)[slot]? = some v := by
      rw [Array.getElem?_setIfInBounds_self, if_pos (Array.getElem?_eq_some_iff.mp hw).1]
    dsimp only
    rw [Exec.get_bind]
    by_cases hid : m.fiber.id = t.id
    · obtain rfl := hc.tasks.id_inj _ List.mem_cons_self t ht hid
      rw [if_pos rfl]
      exact ⟨_, rfl, .inr ⟨_, List.mem_cons_self, slot, hr, hset⟩⟩
    · rw [if_neg hid]
      refine ⟨_, rfl, .inr ⟨{ t with stack := t.stack.setIfInBounds slot v }, ?_, slot, hr, hset⟩⟩
      rcases mem_fibers.mp ht with rfl | ht'
      · exact (hid rfl).elim
      · refine List.mem_cons_of_mem _ (List.mem_map.mpr ⟨t, ht', ?_⟩)
        rw [if_pos rfl]

end Consistent

/-- **`Valid.assigns`** — after an assignment the variable has the value that was on top. -/
theorem Valid.assigns (hv : m.Valid) (hready : m.Ready) (hhonest : m.heap.Honest)
    (hassigns : m.Assigns m' r) : ∃ v, m.fiber.stack[m.fiber.stack.size - 1]? = some v ∧
      Reads m'.heap m'.fibers r v := by
  obtain ⟨a, rest, q, hs⟩ := hv.stepping hready hhonest
  obtain ⟨⟨f, frames, i, hframes, hi, hwrites⟩, hstep⟩ := hassigns
  obtain rfl := hs.next_inj ⟨f, frames, hframes, hi⟩
  obtain ⟨rfl, -⟩ := List.cons.inj (hframes.symm.trans hs.poised.frames)
  rw [Exec.step_eq hs.poised] at hstep
  rcases hwrites with ⟨hop, hmem⟩ | ⟨hop, c, hc, hcell⟩
  · obtain ⟨v, htop, -, hexec⟩ := hs.setLocal_eq hop
    obtain ⟨-, rfl⟩ := EStateM.Result.ok.inj (hexec.symm.trans hstep)
    obtain ⟨hr, hlt⟩ := hv.cells.listed m.fiber List.mem_cons_self _ hmem
    refine ⟨v, htop, .inr ⟨_, List.mem_cons_self, _, hr, ?_⟩⟩
    show (m.fiber.stack.setIfInBounds _ v)[_]? = _
    rw [Array.getElem?_setIfInBounds_self, if_pos hlt]
  · obtain ⟨r', v, u, htop, -, hr, ⟨c', hc', hcell'⟩, hexec⟩ := hs.setUpvalue_eq hop
    obtain rfl := Option.some.inj (hc.symm.trans hc')
    obtain rfl := Option.some.inj (hcell.symm.trans hcell')
    obtain ⟨m₁, hwrite, hreads⟩ := hs.consistent_inside.writeUpvalue_eq hr v
    obtain ⟨-, rfl⟩ := EStateM.Result.ok.inj ((hwrite.symm.trans hexec.symm).trans hstep)
    exact ⟨v, htop, hreads⟩

/-- **`m.Coherent`** — the cells agree with the stacks of the tasks, reading and writing a cell is
reading and writing its variable, and a variable keeps its value until it is assigned. -/
structure Coherent (m : Machine) : Prop where
  /-- A task lists its cells by descending slots. -/
  order : ∀ t ∈ m.fibers, t.openUpvalues.Pairwise fun e e' => e'.1 < e.1
  /-- Each cell that is listed names the task and the slot, and the slot is on the stack. -/
  listed : ∀ t ∈ m.fibers, ∀ e ∈ t.openUpvalues,
    m.heap.upvalue? e.2 = some (.onStack t.id e.1) ∧ e.1 < t.stack.size
  /-- Each open cell is listed by one task, which has not ended. -/
  covered : ∀ r task slot, m.heap.upvalue? r = some (.onStack task slot) →
    ∃ t ∈ m.fibers, t.isDone = false ∧ t.id = task ∧ (slot, r) ∈ t.openUpvalues ∧
      ∀ t' ∈ m.fibers, ∀ slot', (slot', r) ∈ t'.openUpvalues → t' = t ∧ slot' = slot
  /-- A read finds the value in the cell, or in the slot of the task that has it. -/
  reads : ∀ r u, m.heap.upvalue? r = some u →
    ∃ v, Reads m.heap m.fibers r v ∧ Exec.readUpvalue r m = .ok v m
  /-- What is written is what is read from then on. -/
  writes : ∀ r u v, m.heap.upvalue? r = some u →
    ∃ m', Exec.writeUpvalue r v m = .ok () m' ∧ Reads m'.heap m'.fibers r v
  /-- Whatever happens, a variable that is not assigned keeps its value. -/
  keeps : ∀ m', m.Goes m' → ∀ r v u, Reads m.heap m.fibers r v → ¬ m.Assigns m' r →
    m'.heap.upvalue? r = some u → Reads m'.heap m'.fibers r v
  /-- And one that is assigned has the new value. -/
  assigned : m.Ready → m.heap.Honest → ∀ m' r, m.Assigns m' r →
    ∃ v, m.fiber.stack[m.fiber.stack.size - 1]? = some v ∧ Reads m'.heap m'.fibers r v

/-- **`Reachable.coherent`** — captured variables are coherent in every reachable machine. -/
theorem Reachable.coherent (hm : m.Reachable) : m.Coherent := by
  have hv := hm.valid
  have hc := hv.toConsistent
  refine ⟨hv.cells.order, hv.cells.listed, fun r task slot hr => ?_, fun r u hr => ?_,
    fun r u v hr => hc.writeUpvalue_eq hr v, fun m' hgoes r v u hr hnot hu => ?_,
    fun hready hhonest m' r hassigns => hv.assigns hready hhonest hassigns⟩
  · obtain ⟨t, ht, hid, hmem⟩ := hv.cells.covered r task slot hr
    refine ⟨t, ht, ?_, hid, hmem, fun t' ht' slot' hmem' => ?_⟩
    · rcases mem_fibers.mp ht with rfl | ht
      · rcases hv.running with hspent | halive
        · rw [hspent.openUpvalues] at hmem
          cases hmem
        · exact halive.not_done
      · exact hv.queue_live t ht
    · obtain ⟨hid', rfl⟩ := Upvalue.onStack.inj
        (Option.some.inj ((hv.cells.listed t' ht' _ hmem').1.symm.trans hr))
      exact ⟨hv.tasks.id_inj t' ht' t ht (hid'.trans hid.symm), rfl⟩
  · obtain ⟨v, hv'⟩ := hv.cells.reads hr
    exact ⟨v, hv', hc.readUpvalue_eq hv'⟩
  · exact (hv.goes hgoes).2.values r v hr hnot u hu

/-! ## Histories -/

/-- **`Untouched run i j r`** — from the one moment to the other the cell is there, and its variable is
not assigned. -/
def Untouched (run : Nat → Machine) (i j : Nat) (r : Ref) : Prop :=
  (∀ k, i ≤ k → k ≤ j → (run k).heap.upvalue? r ≠ none) ∧
    ∀ k, i ≤ k → k < j → ¬ (run k).Assigns (run (k + 1)) r

/-- **`Run.reads`** — in a run a variable keeps its value until it is assigned, whether its cell is open
or closed, and also when it is closed. -/
theorem Run.reads {run : Nat → Machine} {n i j : Nat} (hrun : Run run n) (hij : i ≤ j) (hj : j ≤ n)
    (hsame : Untouched run i j r) (hr : Reads (run i).heap (run i).fibers r v) :
    Reads (run j).heap (run j).fibers r v := by
  obtain ⟨hthere, hnone⟩ := hsame
  induction j, hij using Nat.le_induction with
  | base => exact hr
  | succ j hij ih =>
    have hbefore := ih (by omega) (fun k hik hk => hthere k hik (by omega))
      fun k hik hk => hnone k hik (by omega)
    obtain ⟨u, hu⟩ := Option.ne_none_iff_exists'.mp (hthere (j + 1) (by omega) (Nat.le_refl _))
    have hlaw := ((hrun.reachable (by omega : j ≤ n)).valid.goes (hrun.goes j (by omega))).2
    exact hlaw.values r v hbefore (hnone j hij (by omega)) u hu

/-- The cell of the variable that the next instruction assigns, if it is a captured one. -/
def written? (m : Machine) : Option Ref :=
  m.fiber.frames.head?.bind fun f => (f.chunk.instruction? m.heap f.ip).bind fun i =>
    match i.op with
    | .setLocal => (m.fiber.openUpvalues.find? fun e => e.1 == f.base + i.first).map Prod.snd
    | .setUpvalue => (m.heap.closure? f.closure).bind fun c => c.upvalues[i.first]?
    | _ => none

/-- Which variable is written can be computed. -/
theorem writes_of_written? (h : m.written? = some r) : m.Writes r := by
  obtain ⟨f, hf, h⟩ := Option.bind_eq_some_iff.mp h
  obtain ⟨i, hi, h⟩ := Option.bind_eq_some_iff.mp h
  obtain ⟨rest, hframes⟩ := List.head?_eq_some_iff.mp hf
  refine ⟨f, rest, i, hframes, hi, ?_⟩
  split at h
  · obtain ⟨⟨slot, r'⟩, hfind, rfl⟩ := Option.map_eq_some_iff.mp h
    obtain rfl : slot = f.base + i.first := by simpa using List.find?_some hfind
    exact .inl ⟨‹_›, List.mem_of_find?_eq_some hfind⟩
  · obtain ⟨c, hc, hr⟩ := Option.bind_eq_some_iff.mp h
    exact .inr ⟨‹_›, c, hc, hr⟩
  · cases h

/-- A local of the main task that another task assigns. -/
def sharedVariable : String :=
  "\x7b var x = true; func put() \x7b x = false; \x7d await async put(); \x7d"

/-- The task that was spawned is about to assign the variable, which lives on the stack of the main task;
after that it has the new value. -/
theorem coherent_sharedVariable :
    (rehearse sharedVariable 12).Reachable ∧ (rehearse sharedVariable 12).fiber.id = 1 ∧
      (rehearse sharedVariable 12).Coherent ∧
      ∃ t ∈ (rehearse sharedVariable 12).queue, t.id = mainTask ∧ ∃ r, (1, r) ∈ t.openUpvalues ∧
        (rehearse sharedVariable 12).Assigns (rehearse sharedVariable 13) r ∧
        Reads (rehearse sharedVariable 13).heap (rehearse sharedVariable 13).fibers r
          (.bool false) := by
  have hcoherent := Reachable.coherent (reachable_rehearse sharedVariable 12)
  have hfacts : (rehearse sharedVariable 12).Performs 1 .setUpvalue ∧
      (rehearse sharedVariable 12).fiber.stack[(rehearse sharedVariable 12).fiber.stack.size - 1]? =
        some (.bool false) ∧
      ∃ t ∈ (rehearse sharedVariable 12).queue, t.id = mainTask ∧ ∃ e ∈ t.openUpvalues, e.1 = 1 ∧
        (rehearse sharedVariable 12).written? = some e.2 := by
    decide +kernel
  obtain ⟨hperforms, htop, t, ht, hid, ⟨slot, r⟩, hmem, rfl, hwritten⟩ := hfacts
  have hassigns : (rehearse sharedVariable 12).Assigns (rehearse sharedVariable 13) r :=
    ⟨writes_of_written? hwritten, step_rehearse hperforms⟩
  obtain ⟨v, hv, hreads⟩ := hcoherent.assigned hperforms.ready (honest_rehearse _ _) _ r hassigns
  obtain rfl := Option.some.inj (hv.symm.trans htop)
  exact ⟨reachable_rehearse _ _, hperforms.task, hcoherent, t, ht, hid, r, hmem, hassigns, hreads⟩

end Machine

end ScriptMachine
