import Mathlib
import ScriptMachine.Proofs.Machine.Reachable
import ScriptMachine.Proofs.Machine.Upholding

/-!
# ScriptMachine.Proofs.Machine.Regularity — reachable machines are in order

Instructions keep a machine proper, and so does everything else that can happen to it: errors are
routed, tasks get their turns and are dropped, scripts are compiled and loaded. So in every state that a
machine can come to its tables and dictionaries are valid, the keys of its tables are strings of the
heap under their own hashes, and every text is at most one string. That is what the laws of equality, of
comparisons, of deep copies and of assignments to names ask for.

`Reachable.proper` is the result, and `Proper.goes` the step. It is independent of validity, and only
needs that operations keep tables in order whether they succeed or not. In the modules it is used for
the properties are stated as assumptions on a heap or a machine, and this module is why they are met.
-/

namespace ScriptMachine

variable {m m' : Machine} {h : Heap}

namespace Heap

/-- Dropping tasks closes their cells, and each of these is an upvalue. By induction on the tasks. -/
theorem Proper.dropFibers {ts : List Fiber} (hh : h.Proper)
    (hcells : ∀ t ∈ ts, ∀ e ∈ t.openUpvalues, h.Has e.2 .upvalue) :
    (ts.foldl Machine.dropFiber h).Proper ∧ h.Evolves (ts.foldl Machine.dropFiber h) := by
  induction ts generalizing h with
  | nil => exact ⟨hh, .refl h⟩
  | cons t ts ih =>
    obtain ⟨hreset, he, -⟩ := hh.reset (hcells t List.mem_cons_self)
    obtain ⟨hfirst, he₁⟩ := hreset.modifyHandle t.handle
      (fun handle => { handle with status := .aborted }) fun _ => ⟨rfl, rfl⟩
    obtain ⟨hrest, he₂⟩ := ih hfirst fun t' ht' e he' =>
      (he.trans he₁).has (hcells t' (List.mem_cons_of_mem _ ht') e he')
    exact ⟨hrest, (he.trans he₁).trans he₂⟩

/-- Interning some texts adds strings only. By induction on the texts. -/
theorem Proper.internAll (hh : h.Proper) (texts : List String) :
    (Machine.internAll h texts).2.Proper ∧ h.Evolves (Machine.internAll h texts).2 := by
  unfold Machine.internAll
  generalize #[] = vs
  induction texts generalizing h vs with
  | nil => exact ⟨hh, .refl h⟩
  | cons s texts ih =>
    obtain ⟨hrest, he⟩ := ih (hh.intern s) (vs.push (.obj (h.intern s).1))
    exact ⟨hrest, (hh.tidy.intern s).2.1.evolves.trans he⟩

end Heap

theorem Fiber.Wakes.openUpvalues {t t' : Fiber} {start stop : Nat} (ht : t.Wakes start t' stop) :
    t'.openUpvalues = t.openUpvalues := by
  cases ht <;> rfl

namespace Machine

namespace Proper

/-! ## Definitions -/

theorem defineGlobal (hm : m.Proper) (name : String) (v : Value) :
    (m.defineGlobal name v).Proper := by
  have hinterned := hm.intern name
  unfold Machine.defineGlobal
  dsimp only
  split
  · rename_i k hk
    exact hinterned.setGlobal hk v
  · exact hinterned

theorem defineNative (hm : m.Proper) (name : String) (body : NativeBody) :
    (m.defineNative name body).Proper :=
  (hm.allocFresh (o := .native ⟨name, body⟩) (Obj.fresh_of_kind (by simp [Obj.kind]))).defineGlobal _ _

/-- A text that is compiled adds strings and functions, all of whose references are typed. -/
theorem compile (hm : m.Proper) (source path : String) :
    { m with heap := (ScriptMachine.compile m.heap source path).2 }.Proper :=
  hm.withHeap (hm.proper_heap.compile source path) (hm.heap.tidy.compile source path).1.evolves

/-! ## Errors -/

theorem dropOthers (hm : m.Proper) : m.dropOthers.Proper := by
  obtain ⟨hh, he⟩ := hm.proper_heap.dropFibers fun t ht => hm.cells t (.inr ht)
  exact (hm.withHeap hh he).congr rfl rfl rfl fun t ht e he => ⟨t, ht.imp id (by simp [Machine.dropOthers]), he⟩

theorem resetFiber (hm : m.Proper) : m.resetFiber.Proper := by
  obtain ⟨hh, he, ht⟩ := hm.proper_heap.reset (hm.cells _ (.inl rfl))
  exact hm.withBoth hh he ht

theorem abandon (hm : m.Proper) : m.abandon.Proper := by
  have hdropped := hm.dropOthers.resetFiber
  unfold Machine.abandon
  dsimp only
  split
  · exact hdropped.modifyHandle _ _ fun _ => ⟨rfl, rfl⟩
  · exact hdropped

theorem unwindTo (hm : m.Proper) (handler : Handler) (message : String) :
    (m.unwindTo handler message).Proper := by
  obtain ⟨hh, he, ht⟩ := hm.proper_heap.closeUpvalues (hm.cells _ (.inl rfl)) handler.height
  exact hm.withBoth (hh.intern message) (he.trans (hh.tidy.intern message).2.1.evolves) ht

/-- **`raise`** — routing an error keeps a machine proper, wherever the error goes. -/
theorem raise (hm : m.Proper) (e : Fault) : (m.raise e).2.Proper := by
  unfold Machine.raise
  split
  · exact hm.abandon
  · exact hm
  · exact hm
  · dsimp only
    split
    · exact unwindTo (hm.withFiber (by simp)) _ _
    · split
      · exact hm.abandon
      · have hlogged (stderr : String) : { m with stderr }.Proper := hm.outside rfl rfl rfl rfl rfl
        exact (hlogged _).resetFiber.endTask _ _ _ _

/-! ## Turns -/

/-- The machine is handed to one of its fibers. -/
theorem switchTo (hm : m.Proper) {t t' : Fiber} {rest : List Fiber} (ht : t ∈ m.queue)
    (hcells : t'.openUpvalues = t.openUpvalues) (hrest : ∀ u ∈ rest, u ∈ m.queue) :
    (m.switchTo t' rest).Proper := by
  refine hm.congr rfl rfl rfl fun u hu e he => ?_
  rcases hu with rfl | hu
  · exact ⟨t, .inr ht, hcells ▸ he⟩
  · -- the fiber that ran before goes to the end
    have hu : u = m.fiber ∨ u ∈ rest := by
      unfold Machine.switchTo at hu
      dsimp only at hu
      split at hu
      · exact .inr hu
      · simpa [or_comm] using hu
    exact ⟨u, hu.imp id (hrest u), he⟩

theorem deadlocked (hm : m.Proper) : m.deadlocked.Proper := by
  unfold Machine.deadlocked
  dsimp only
  split
  · exact hm.withFiber fun _ he => he
  · split
    · rename_i next hnext
      have hmem := List.mem_of_getElem? hnext
      exact (hm.switchTo hmem rfl fun u hu => List.mem_of_mem_eraseIdx hu).withFiber fun _ he => he
    · exact hm.withFiber fun _ he => he

/-- A turn of the scheduler writes handles and cells, and moves tasks around. -/
theorem schedules (hm : m.Proper) {turn : Turn} (hturn : Schedules m turn m') : m'.Proper := by
  induction hturn with
  | @other m passed after t t' start mid stop hstart hqueue hskips hwakes =>
    have hlater : { m with clock := stop }.Proper := hm.outside rfl rfl rfl rfl rfl
    refine hlater.switchTo (t := t) ?_ hwakes.openUpvalues fun u hu => ?_
    · simp [hqueue]
    · simpa [hqueue, or_comm, or_assoc, or_left_comm] using Or.inr (List.mem_append.mp hu)
  | @same m t' start mid stop hstart hskips hlive hwakes =>
    have hlater : { m with clock := stop }.Proper := hm.outside rfl rfl rfl rfl rfl
    exact hlater.withFiber fun e he => hwakes.openUpvalues ▸ he
  | later hstart hskips hdeadline hnow hdue hagain ih => exact ih (hm.outside rfl rfl rfl rfl rfl)
  | finished => exact hm.outside rfl rfl rfl rfl rfl
  | deadlock => exact deadlocked (hm.outside rfl rfl rfl rfl rfl)

/-! ## Runs -/

theorem restart (hm : m.Proper) : m.restart.Proper := by
  have hdropped := hm.dropOthers.resetFiber.modifyHandle m.dropOthers.resetFiber.mainHandle
    (fun t => { t with status := .running, result := .none }) fun _ => ⟨rfl, rfl⟩
  refine hdropped.congr rfl rfl rfl fun t ht e he => ?_
  rcases ht with rfl | ht
  · cases he
  · exact ⟨t, .inr ht, he⟩

theorem startMain (hm : m.Proper) (closure : Ref) (chunk : Chunk) :
    (m.startMain closure chunk).Proper := by
  obtain ⟨hh, he⟩ := hm.restart.proper_heap.internAll m.restart.scriptArgs
  have hlist := (hm.restart.withHeap hh he).allocFresh
    (o := .list (internAll m.restart.heap m.restart.scriptArgs).1)
    (Obj.fresh_of_kind (by simp [Obj.kind]))
  exact (hlist.defineGlobal "args" _).withFiber fun _ he => he

theorem load (hm : m.Proper) (script : Ref) (path : String) : (m.load script path).Proper := by
  have hclosure := hm.allocFresh (o := .closure ⟨script, #[], none⟩)
    (Obj.fresh_of_kind (by simp [Obj.kind]))
  unfold Machine.load
  exact ((hclosure.intern path).defineGlobal "__name__" _).startMain _ _

/-- **`goes`** — whatever happens to a machine, it stays proper. -/
theorem goes (hm : m.Proper) (hgoes : m.Goes m') : m'.Proper := by
  cases hgoes with
  | steps _ _ hstep =>
    have hmeets := Exec.upholds_step m hm
    unfold Exec.UpholdsAt Exec.Meets at hmeets
    rwa [hstep] at hmeets
  | @fails m₁ e _ _ hstep =>
    have hmeets := Exec.upholds_step m hm
    unfold Exec.UpholdsAt Exec.Meets at hmeets
    rw [hstep] at hmeets
    exact hmeets.raise e
  | turns hturn => exact hm.schedules hturn
  | deadlocks hturn => exact (hm.schedules hturn).raise _
  | collects => exact hm.collectGarbage
  | ends => exact hm.outside rfl rfl rfl rfl rfl
  | interns text => exact hm.intern text
  | compiles source path => exact hm.compile source path
  | @loads source path script h hcompile =>
    have hcompiled := hm.compile source path
    rw [hcompile] at hcompiled
    exact hcompiled.load script path
  | defines name => exact hm.defineGlobal name _
  | outside => exact hm.outside rfl rfl rfl rfl rfl

end Proper

/-! ## Reachable machines -/

/-- A machine with nothing defined: its tables are empty. -/
theorem bare_proper (config : Config) (files : Files) : (bare config files).Proper := by
  unfold bare
  dsimp only
  have hnames := (((((Heap.new_proper config.heap).intern "init").intern "__args__").intern
    "__ans__").intern "__name__").intern "default"
  generalize Heap.intern _ "default" = taskName at hnames ⊢
  have hheap := hnames.allocFresh (o := .task ⟨taskName.1, mainTask, .finished, .none⟩)
    (Obj.fresh_of_kind (by simp [Obj.kind]))
  refine ⟨⟨hheap.toRegular, Table.keyed_empty, by simp⟩, hheap.interned, hheap.unmarked,
    fun t ht e he => ?_⟩
  -- no fiber has an open cell
  rcases ht with rfl | ht
  · cases he
  · cases ht

/-- A new machine, with the natives and the names it caches. -/
theorem new_proper (config : Config) (files : Files) : (new config files).Proper := by
  unfold new
  refine List.foldlRecOn _ _ (bare_proper config files) fun m hm b _ => hm.defineNative _ _

end Machine

end ScriptMachine
