import Mathlib
import ScriptMachine.Machine
import ScriptMachine.Proofs.Dict.Refinement
import ScriptMachine.Proofs.Heap.Upkeep
import ScriptMachine.Proofs.Machine.Bindings
import ScriptMachine.Proofs.Machine.Capturing
import ScriptMachine.Proofs.Machine.Stepping
import ScriptMachine.Proofs.Renaming.Collection

/-!
# ScriptMachine.Proofs.Machine.Upkeep — machine operations keep tables and dictionaries in order

A machine is *proper* when its heap is, the keys of its globals and extensions are strings of the heap,
and the cells that its fibers list as open are cells. An operation *upholds* this when it leaves a proper
machine proper, whether it fails or not. Most operations do because the operations that they are put
together from do. What remains is the few that put an entry into a table: its key is that of a name,
so it is a string with its own hash, and the string is still there when the entry is made.

`Upholds` is kept by composition, like `Observes` for operations that only look. A step that makes an
entry needs to know something of the machine it starts from, that its key is there, and for these there
is `UpholdsAt`. Which instructions there are, and what they do apart from this, is left to the next
module.
-/

namespace ScriptMachine

variable {α β : Type} {m m' : Machine} {h : Heap}

/-- **`m.Proper`** — the tables and dictionaries of the machine are valid, their keys are interned
strings, and open cells are cells. -/
structure Machine.Proper (m : Machine) : Prop extends m.Regular where
  interned : m.heap.Interned
  unmarked : m.heap.Unmarked
  cells : m.ListsCells

namespace Machine.Proper

theorem proper_heap (hm : m.Proper) : m.heap.Proper :=
  ⟨hm.heap, hm.interned, hm.unmarked⟩

/-- Another heap, in which everything is still there. -/
theorem withHeap (hm : m.Proper) (hh : h.Proper) (he : m.heap.Evolves h) :
    { m with heap := h }.Proper where
  heap := hh.toRegular
  globals := hm.globals.evolves he
  extensions e hmem := (hm.extensions e hmem).evolves he
  interned := hh.interned
  unmarked := hh.unmarked
  cells t ht e hmem := he.has (hm.cells t ht e hmem)

/-- The same heap and tables, and no other open cells. -/
theorem congr (hm : m.Proper) (hheap : m'.heap = m.heap) (hglobals : m'.globals = m.globals)
    (hextensions : m'.extensions = m.extensions)
    (hcells : ∀ t, t = m'.fiber ∨ t ∈ m'.queue → ∀ e ∈ t.openUpvalues,
      ∃ t', (t' = m.fiber ∨ t' ∈ m.queue) ∧ e ∈ t'.openUpvalues) : m'.Proper where
  heap := hheap ▸ hm.heap
  globals := hheap ▸ hglobals ▸ hm.globals
  extensions := hheap ▸ hextensions ▸ hm.extensions
  interned := hheap ▸ hm.interned
  unmarked := hheap ▸ hm.unmarked
  cells t ht e he := by
    obtain ⟨t', ht', he'⟩ := hcells t ht e he
    exact hheap ▸ hm.cells t' ht' e he'

/-- What counts the time, the output and the like does not matter. -/
theorem outside (hm : m.Proper) (hheap : m'.heap = m.heap) (hglobals : m'.globals = m.globals)
    (hextensions : m'.extensions = m.extensions) (hfiber : m'.fiber = m.fiber)
    (hqueue : m'.queue = m.queue) : m'.Proper :=
  hm.congr hheap hglobals hextensions fun t ht _ he => ⟨t, hfiber ▸ hqueue ▸ ht, he⟩

/-- Another fiber may run, provided that it shares no slot that was not shared before. -/
theorem withFiber (hm : m.Proper) {t : Fiber}
    (ht : ∀ e ∈ t.openUpvalues, e ∈ m.fiber.openUpvalues) : { m with fiber := t }.Proper := by
  refine hm.congr rfl rfl rfl fun u hu e he => ?_
  rcases hu with rfl | hu
  · exact ⟨m.fiber, .inl rfl, ht e he⟩
  · exact ⟨u, .inr hu, he⟩

theorem alloc (hm : m.Proper) {o : Obj} (ho : o.Regular m.heap) (hs : Heap.NoString o) :
    { m with heap := (m.heap.alloc o).2 }.Proper :=
  hm.withHeap (hm.proper_heap.alloc ho hs) (hm.heap.tidy.keeps_alloc o).evolves

theorem allocFresh (hm : m.Proper) {o : Obj} (ho : o.Fresh) :
    { m with heap := (m.heap.alloc o).2 }.Proper :=
  hm.alloc (ho.regular m.heap) ho.noString

theorem intern (hm : m.Proper) (text : String) :
    { m with heap := (m.heap.intern text).2 }.Proper :=
  hm.withHeap (hm.proper_heap.intern text) (hm.heap.tidy.intern text).2.1.evolves

/-- A cell may change, if it stays of its kind and its tables stay keyed by the heap. -/
theorem modify (hm : m.Proper) {r : Ref} {f : Obj → Obj}
    (hf : ∀ o, m.heap.get? r = some o → (f o).fixed = o.fixed)
    (ho : ∀ o, m.heap.get? r = some o → o.Regular m.heap → (f o).Regular m.heap) :
    { m with heap := m.heap.modify r f }.Proper := by
  obtain ⟨hh, he⟩ := hm.proper_heap.modify hf ho
  exact hm.withHeap hh he

theorem setGlobal (hm : m.Proper) {k : Key} {name : Ref} (hk : m.heap.key? name = some k)
    (v : Value) : { m with globals := m.globals.set k v }.Proper :=
  { hm with globals := hm.globals.set hk }

/-- Assigning a name keeps the tables in order, whichever table the name is in. -/
theorem rebind (hm : m.Proper) {k : Key} {name : Ref} (hk : m.heap.key? name = some k) (v : Value)
    (b : Binding) : (m.rebind k v b).Proper := by
  have hset : ∀ t : Table Value, t.Keyed m.heap → (t.set k v).Keyed m.heap := fun t ht => ht.set hk
  cases b with
  | global => exact hm.setGlobal hk v
  | _ =>
    refine hm.modify (fun o _ => ?_) fun o _ ho => ?_
    · cases o <;> rfl
    · cases o <;> simp_all

/-- The running fiber lists no other cells, and everything of the heap is still there. -/
theorem withBoth (hm : m.Proper) {t : Fiber} (hh : h.Proper) (he : m.heap.Evolves h)
    (ht : ∀ e ∈ t.openUpvalues, e ∈ m.fiber.openUpvalues) :
    { m with heap := h, fiber := t }.Proper :=
  (hm.withHeap hh he).withFiber ht

theorem modifyHandle (hm : m.Proper) (handle : Ref) (f : TaskHandle → TaskHandle)
    (hf : ∀ t, (f t).name = t.name ∧ (f t).id = t.id) :
    { m with heap := m.heap.modifyHandle handle f }.Proper := by
  obtain ⟨hh, he⟩ := hm.proper_heap.modifyHandle handle f hf
  exact hm.withHeap hh he

/-- Waking moves tasks from the parked to the ready ones, and changes none of their slots. -/
theorem wakeWaiters (hm : m.Proper) (task : Nat) : (m.wakeWaiters task).Proper := by
  have hwake : ∀ t : Fiber, (t.wake task).openUpvalues = t.openUpvalues := fun t => by
    unfold Fiber.wake
    split <;> rfl
  refine hm.congr rfl rfl rfl fun t ht e he => ?_
  rcases ht with rfl | ht
  · exact ⟨m.fiber, .inl rfl, hwake _ ▸ he⟩
  · obtain ⟨u, hu, rfl⟩ := List.mem_map.mp ht
    exact ⟨u, .inr hu, hwake u ▸ he⟩

/-- When a task ends, its handle is told and those who wait are woken. -/
theorem endTask (hm : m.Proper) (id : Nat) (handle : Ref) (status : TaskStatus) (result : Value) :
    (m.endTask id handle status result).Proper := by
  have hended := hm.modifyHandle handle (fun t => { t with status, result }) fun _ => ⟨rfl, rfl⟩
  have hresult (mainResult : Option Value) : { m with
      heap := m.heap.modifyHandle handle fun t => { t with status, result }
      mainResult }.Proper := hended.outside rfl rfl rfl rfl rfl
  exact (hresult _).wakeWaiters id

/-- One more open cell of the running fiber. -/
theorem openCell (hm : m.Proper) {cell : Ref} (hcell : m.heap.Has cell .upvalue) (slot : Nat) :
    { m with fiber := { m.fiber with
      openUpvalues := Exec.insertOpen slot cell m.fiber.openUpvalues } }.Proper where
  heap := hm.heap
  globals := hm.globals
  extensions := hm.extensions
  interned := hm.interned
  unmarked := hm.unmarked
  cells t ht e he := by
    rcases ht with rfl | ht
    · rcases Exec.mem_insertOpen.mp he with rfl | he
      · exact hcell
      · exact hm.cells _ (.inl rfl) e he
    · exact hm.cells t (.inr ht) e he

/-- A collection keeps the keys of globals and extensions, and the open cells. -/
theorem collectGarbage (hm : m.Proper) : m.collectGarbage.2.Proper := by
  obtain ⟨hglobals, hextensions, -, -⟩ := m.keeps_shared
  have hkey : ∀ {t : Table Value}, (∀ r ∈ t.references, m.Keeps r) → ∀ e ∈ t.toList,
      m.Keeps e.1.ref := fun hkeeps e he =>
    hkeeps _ (Table.mem_references.mpr ⟨e, he, .inl rfl⟩)
  have hcollected := hm.proper_heap.collect m.roots
  exact {
    heap := hcollected.toRegular
    globals := hm.globals.collect hm.unmarked (hkey hglobals)
    extensions := fun e he => (hm.extensions e he).collect hm.unmarked (hkey (hextensions e he))
    interned := hcollected.interned
    unmarked := hcollected.unmarked
    cells := fun t ht e he => by
      obtain ⟨o, ho, hkind⟩ := hm.cells t ht e he
      have hkept : m.Keeps e.2 := keeps_root
        (List.mem_cons_of_mem _ (List.mem_append_right _ (List.mem_map_of_mem he))) ht
      exact ⟨o, (hm.unmarked.get?_collect_of_reach hkept).trans ho, hkind⟩ }

end Machine.Proper

namespace Exec

/-- **`x.UpholdsAt m`** — started in `m`, the operation leaves a proper machine. -/
def UpholdsAt (x : Exec α) (m : Machine) : Prop :=
  x.Meets m (fun _ m' => m'.Proper) fun _ m' => m'.Proper

/-- **`x.Upholds`** — a proper machine stays proper. -/
def Upholds (x : Exec α) : Prop :=
  ∀ m, m.Proper → UpholdsAt x m

/-- **`x.Observes`** — the machine stays as it is. -/
def Observes (x : Exec α) : Prop :=
  ∀ m, x.Meets m (fun _ m' => m' = m) fun _ m' => m' = m

variable {x y : Exec α} {f : α → Exec β}

/-! ## Putting operations together -/

theorem Observes.upholds (hx : Observes x) : Upholds x := fun m hm =>
  (hx m).mono (fun _ _ heq => heq ▸ hm) fun _ _ heq => heq ▸ hm

/-- What follows an observation starts from the same machine. -/
theorem Observes.bind_at (hx : Observes x) (hm : m.Proper) (hf : ∀ a, UpholdsAt (f a) m) :
    UpholdsAt (x >>= f) m :=
  .bind ((hx m).mono (fun a _ heq => heq ▸ hf a) fun _ _ heq => heq ▸ hm)

theorem Observes.bind (hx : Observes x) (hf : ∀ a, Observes (f a)) : Observes (x >>= f) := fun m =>
  Meets.bind ((hx m).mono (fun a _ heq => heq ▸ hf a m) fun _ _ heq => heq)

theorem Observes.ite {c : Prop} [Decidable c] (hx : Observes x) (hy : Observes y) :
    Observes (if c then x else y) := by
  split <;> assumption

theorem UpholdsAt.bind (hx : UpholdsAt x m) (hf : ∀ a, Upholds (f a)) : UpholdsAt (x >>= f) m :=
  Meets.bind (hx.mono (fun a m' hm' => hf a m' hm') fun _ _ hm' => hm')

theorem Upholds.bind (hx : Upholds x) (hf : ∀ a, Upholds (f a)) : Upholds (x >>= f) := fun m hm =>
  UpholdsAt.bind (hx m hm) hf

theorem Upholds.ite {c : Prop} [Decidable c] (hx : Upholds x) (hy : Upholds y) :
    Upholds (if c then x else y) := by
  split <;> assumption

theorem meets_get {f : Machine → Exec α} {Q : α → Machine → Prop} {E : Fault → Machine → Prop}
    (hf : (f m).Meets m Q E) : (get >>= f).Meets m Q E :=
  hf

/-- What is computed from the machine may depend on it. -/
theorem upholds_get {f : Machine → Exec β} (hf : ∀ m, m.Proper → UpholdsAt (f m) m) :
    Upholds (get >>= f) :=
  hf

/-- What is needed is there, or the computation stops before it has changed anything. -/
theorem upholdsAt_need {o : Option α} {f : α → Exec β} (hm : m.Proper)
    (hf : ∀ a, o = some a → UpholdsAt (f a) m) : UpholdsAt (need o >>= f) m := by
  cases o with
  | none => exact hm
  | some a => exact hf a rfl

theorem upholdsAt_alloc {o : Obj} {f : Ref → Exec β}
    (hf : UpholdsAt (f (m.heap.alloc o).1) { m with heap := (m.heap.alloc o).2 }) :
    UpholdsAt (alloc o >>= f) m :=
  hf

/-- The key of a name is a string with its hash. -/
theorem upholds_key {name : Ref} {f : Key → Exec β}
    (hf : ∀ m k, m.Proper → m.heap.key? name = some k → UpholdsAt (f k) m) :
    Upholds (key name >>= f) := fun m hm =>
  upholdsAt_need hm fun k hk => hf m k hm hk

theorem observes_pure (a : α) : Observes (pure a) := fun _ => rfl

theorem observes_throw (e : Fault) : Observes (throw e : Exec α) := fun _ => rfl

theorem observes_get : Observes get := fun _ => rfl

theorem upholds_pure (a : α) : Upholds (pure a) :=
  (observes_pure a).upholds

theorem upholds_throw (e : Fault) : Upholds (throw e : Exec α) :=
  (observes_throw e).upholds

theorem upholds_modify {g : Machine → Machine} (hg : ∀ m, m.Proper → (g m).Proper) :
    Upholds (modify g) :=
  hg

theorem upholds_modifyGet {g : Machine → α × Machine} (hg : ∀ m, m.Proper → (g m).2.Proper) :
    Upholds (modifyGet g) :=
  hg

/-- A list of computations keeps what each of them keeps. -/
theorem upholds_mapM {f : β → Exec α} (hf : ∀ b, Upholds (f b)) (bs : List β) :
    Upholds (bs.mapM f) := by
  induction bs with
  | nil =>
    rw [List.mapM_nil]
    exact upholds_pure []
  | cons b bs ih =>
    rw [List.mapM_cons]
    exact (hf b).bind fun _ => ih.bind fun _ => upholds_pure _

/-! ## Operands, frames and the heap -/

theorem observes_heap : Observes heap := fun _ => rfl

theorem observes_height : Observes height := fun _ => rfl

theorem observes_need (o : Option α) : Observes (need o) := by
  cases o with
  | none => exact observes_throw _
  | some a => exact observes_pure a

theorem observes_stackAt (index : Nat) : Observes (stackAt index) :=
  observes_get.bind fun _ => observes_need _

theorem observes_peek (distance : Nat) : Observes (peek distance) :=
  observes_get.bind fun _ => .ite (observes_need _) (observes_throw _)

theorem observes_valuesFrom (height : Nat) : Observes (valuesFrom height) :=
  observes_get.bind fun _ => observes_pure _

theorem observes_frame : Observes frame := by
  refine observes_get.bind fun m => ?_
  cases m.fiber.frames with
  | nil => exact observes_throw _
  | cons f _ => exact observes_pure f

theorem observes_key (name : Ref) : Observes (key name) :=
  observes_get.bind fun _ => observes_need _

theorem observes_nameText (name : Ref) : Observes (nameText name) :=
  observes_get.bind fun _ => observes_pure _

theorem observes_constant (index : Nat) : Observes (constant index) :=
  observes_frame.bind fun _ => observes_need _

theorem observes_nameConstant (index : Nat) : Observes (nameConstant index) := by
  refine (observes_constant index).bind fun v => ?_
  split
  · exact observes_pure _
  · exact observes_throw _

theorem upholds_modifyFiber {g : Fiber → Fiber}
    (hg : ∀ t, ∀ e ∈ (g t).openUpvalues, e ∈ t.openUpvalues) : Upholds (modifyFiber g) :=
  upholds_modify fun m hm => hm.withFiber (hg m.fiber)

theorem upholds_modifyStack (f : Array Value → Array Value) : Upholds (modifyStack f) :=
  upholds_modifyFiber fun _ _ he => he

theorem upholds_push (v : Value) : Upholds (push v) :=
  upholds_modifyStack _

theorem upholds_pop : Upholds pop :=
  (observes_peek 0).upholds.bind fun v => (upholds_modifyStack _).bind fun _ => upholds_pure v

theorem upholds_replaceTop (count : Nat) (v : Value) : Upholds (replaceTop count v) :=
  (upholds_modifyStack _).bind fun _ => upholds_push v

theorem upholds_setStackAt (index : Nat) (v : Value) : Upholds (setStackAt index v) :=
  upholds_modifyStack _

theorem upholds_modifyIp (f : Nat → Nat) : Upholds (modifyIp f) := by
  refine upholds_modifyFiber fun t e he => ?_
  split at he <;> exact he

theorem upholds_alloc {o : Obj} (ho : o.Fresh) : Upholds (alloc o) :=
  upholds_modifyGet fun _ hm => hm.allocFresh ho

theorem upholds_allocValue {o : Obj} (ho : o.Fresh) : Upholds (allocValue o) :=
  (upholds_alloc ho).bind fun _ => upholds_pure _

theorem upholds_allocList (items : Array Value) : Upholds (allocValue (.list items)) :=
  upholds_allocValue (Obj.fresh_of_kind (by simp [Obj.kind]))

theorem upholds_intern (text : String) : Upholds (intern text) :=
  upholds_modifyGet fun _ hm => hm.intern text

theorem upholds_internValue (text : String) : Upholds (internValue text) :=
  (upholds_intern text).bind fun _ => upholds_pure _

theorem upholds_write (text : String) : Upholds (write text) :=
  upholds_modify fun _ hm => hm.outside rfl rfl rfl rfl rfl

/-! ## Names -/

theorem observes_searched (classRef : Ref) (found : Option α) : Observes (searched classRef found) :=
  observes_get.bind fun _ =>
    .ite ((observes_throw _).bind fun _ => observes_pure _) (observes_pure _)

theorem observes_searchReceiver (k : Key) : Observes (searchReceiver k) := by
  refine observes_get.bind fun m => ?_
  split
  · exact .ite (observes_pure _) ((observes_searched _ _).bind fun _ => observes_pure _)
  · exact observes_pure _

theorem upholds_readGlobal? (name : Ref) : Upholds (readGlobal? name) := by
  refine observes_get.upholds.bind fun m => .ite ?_ ?_
  · exact observes_frame.upholds.bind fun f => (upholds_allocList f.args).bind fun _ => upholds_pure _
  · exact ((observes_key name).bind fun k => (observes_searchReceiver k).bind fun _ =>
      observes_get.bind fun _ => observes_pure _).upholds

theorem upholds_getGlobal (name : Ref) : Upholds (getGlobal name) := by
  refine (upholds_readGlobal? name).bind fun v => ?_
  split
  · exact upholds_pure _
  · exact ((observes_nameText name).bind fun _ => observes_throw _).upholds

theorem upholds_setGlobal (name : Ref) (v : Value) : Upholds (setGlobal name v) := by
  refine upholds_key fun m k hm hk => (observes_searchReceiver k).bind_at hm fun _ => ?_
  refine observes_get.bind_at hm fun m' => ?_
  split
  · exact hm.rebind hk v _
  · exact ((observes_nameText name).bind fun _ => observes_throw _).upholds m hm

/-- A name is bound in the package that is open or among the globals, in both cases under its key. -/
theorem upholdsAt_define {name : Ref} {k : Key} (hm : m.Proper) (hk : m.heap.key? name = some k)
    (v : Value) : UpholdsAt (define k v) m := by
  refine observes_frame.bind_at hm fun f => ?_
  split
  · exact hm.rebind hk v _
  · exact hm.setGlobal hk v

/-! ## Captured variables -/

theorem observes_upvalueCell (index : Nat) : Observes (upvalueCell index) :=
  observes_get.bind fun _ => observes_frame.bind fun _ => (observes_need _).bind fun _ =>
    observes_need _

theorem observes_readUpvalue (cell : Ref) : Observes (readUpvalue cell) := by
  refine observes_get.bind fun m => (observes_need _).bind fun u => ?_
  split <;> exact observes_pure _

theorem upholds_closeUpvalues (slot : Nat) : Upholds (closeUpvalues slot) := by
  refine upholds_modify fun m hm => ?_
  obtain ⟨hh, he, ht⟩ := hm.proper_heap.closeUpvalues (hm.cells _ (.inl rfl)) slot
  exact hm.withBoth hh he ht

/-- A captured variable is written on the stack of the task that owns it, or in its cell once it is
closed. -/
theorem upholds_writeUpvalue (cell : Ref) (v : Value) : Upholds (writeUpvalue cell v) := by
  refine upholds_get fun m hm => upholdsAt_need hm fun u hu => ?_
  split
  · obtain ⟨hh, he⟩ := hm.proper_heap.writeCell (Heap.has_upvalue.mpr ⟨_, hu⟩) v
    exact hm.withHeap hh he
  · refine observes_get.bind_at hm fun m' => ?_
    split
    · exact upholds_setStackAt _ v m hm
    · -- the slot of another fiber
      refine hm.congr rfl rfl rfl fun t ht e he => ?_
      rcases ht with rfl | ht
      · exact ⟨m.fiber, .inl rfl, he⟩
      · obtain ⟨t', ht', rfl⟩ := List.mem_map.mp ht
        refine ⟨t', .inr ht', ?_⟩
        split at he <;> exact he

/-- A slot that is shared already has its cell; any other one gets a fresh cell. -/
theorem upholds_captureSlot (slot : Nat) : Upholds (captureSlot slot) := by
  refine upholds_get fun m hm => ?_
  dsimp only
  split
  · exact upholds_pure _ m hm
  · -- the new cell is there when the fiber lists it
    have hcell : Obj.Fresh (.upvalue (.onStack m.fiber.id slot)) :=
      Obj.fresh_of_kind (by simp [Obj.kind])
    exact (hm.allocFresh hcell).openCell ⟨_, hm.heap.tidy.get?_alloc_self _, rfl⟩ slot

theorem upholds_captureCell (f : Frame) (c : Capture) : Upholds (captureCell f c) :=
  .ite (upholds_captureSlot _) (observes_get.bind fun _ => (observes_need _).bind fun _ =>
    observes_need _).upholds

theorem upholds_makeClosure (prototype : Ref) (captures : List Capture) :
    Upholds (makeClosure prototype captures) :=
  observes_frame.upholds.bind fun f => (upholds_mapM (upholds_captureCell f) captures).bind fun _ =>
    (upholds_allocValue (Obj.fresh_of_kind (by simp [Obj.kind]))).bind fun _ => upholds_push _

theorem upholds_closeTop : Upholds closeTop :=
  observes_height.upholds.bind fun _ => (upholds_closeUpvalues _).bind fun _ =>
    upholds_pop.bind fun _ => upholds_pure _

/-! ## Calls -/

theorem observes_guardDepth : Observes guardDepth :=
  observes_get.bind fun _ => .ite (observes_throw _) (observes_pure _)

theorem upholds_enter (f : Frame) : Upholds (enter f) :=
  upholds_modifyFiber fun _ _ he => he

/-- The arguments are fitted to the parameters before the activation is entered. -/
theorem upholds_callClosure (closure : Ref) (argc : Nat) : Upholds (callClosure closure argc) := by
  refine observes_guardDepth.upholds.bind fun _ => observes_get.upholds.bind fun _ =>
    (observes_need _).upholds.bind fun c => observes_get.upholds.bind fun _ =>
    (observes_need _).upholds.bind fun p => observes_height.upholds.bind fun _ => ?_
  have henter (first : Nat) (f : Frame) : Upholds (do
      modifyStack (fitArguments first p.arity)
      enter f) :=
    (upholds_modifyStack _).bind fun _ => upholds_enter f
  exact .ite ((observes_valuesFrom _).upholds.bind fun _ => henter _ _)
    ((upholds_pure _).bind fun _ => henter _ _)

/-- The variables of the activation are closed, and its part of the stack goes. -/
theorem upholds_returnFromFrame : Upholds returnFromFrame := by
  refine .bind upholds_pop fun result => .bind observes_frame.upholds fun f =>
    .bind (upholds_modifyFiber fun _ _ he => he) fun _ => .bind (upholds_closeUpvalues _) fun _ =>
    .bind (upholds_modifyFiber fun _ _ he => he) fun _ => .bind (upholds_modifyStack _) fun _ =>
    .bind observes_get.upholds fun _ => .ite (upholds_modify fun m hm => ?_) ?_
  · exact hm.endTask _ _ _ _
  · split
    · exact upholds_push _
    · exact upholds_push _
    · exact upholds_pure _

/-! ## Builtins -/

theorem observes_numberArgument (args : Array Value) (i : Nat) (function : String) :
    Observes (numberArgument args i function) := by
  refine observes_get.bind fun m => ?_
  split
  · exact observes_pure _
  · exact observes_throw _

theorem observes_stringArgument (args : Array Value) (i : Nat) (function : String) :
    Observes (stringArgument args i function) := by
  refine observes_get.bind fun m => ?_
  split
  · exact observes_pure _
  · exact observes_throw _

theorem observes_joined (args : Array Value) : Observes (joined args) :=
  observes_get.bind fun _ => observes_pure _

theorem upholds_randomWord : Upholds randomWord := by
  refine upholds_modifyGet fun m hm => ?_
  have hseeded : ∀ seed, { m with seed }.Proper := fun _ => hm.outside rfl rfl rfl rfl rfl
  exact hseeded _

theorem upholds_randomFrom (low : Int) (count : Nat) : Upholds (randomFrom low count) :=
  upholds_randomWord.bind fun _ => upholds_pure _

/-- Random numbers change the seed and nothing else. -/
theorem upholds_random (args : Array Value) : Upholds (random args) := by
  unfold random
  split
  · exact upholds_randomWord.bind fun _ => upholds_pure _
  · exact (observes_numberArgument _ _ _).upholds.bind fun _ =>
      .ite ((upholds_throw _).bind fun _ => upholds_randomFrom _ _) (upholds_randomFrom _ _)
  · exact (observes_numberArgument _ _ _).upholds.bind fun _ =>
      (observes_numberArgument _ _ _).upholds.bind fun _ =>
      .ite ((upholds_throw _).bind fun _ => upholds_randomFrom _ _) (upholds_randomFrom _ _)

theorem upholds_sleep (s : Float) : Upholds (sleep s) :=
  upholds_modify fun _ hm => hm.withFiber fun _ he => he

theorem observes_lengthOf (v : Value) : Observes (lengthOf v) := by
  unfold lengthOf
  split
  · refine observes_get.bind fun m => ?_
    split
    · exact observes_pure _
    · exact observes_pure _
    · exact observes_pure _
    · exact observes_throw _
  · exact observes_throw _

theorem observes_toNumber (v : Value) : Observes (toNumber v) := by
  refine observes_heap.bind fun h => ?_
  split
  · exact observes_pure _
  · exact observes_pure _
  · dsimp only
    split
    · exact observes_pure _
    · exact observes_throw _

theorem observes_ofNumber (function : String) (f : Float → Float) (args : Array Value) :
    Observes (ofNumber function f args) :=
  (observes_numberArgument _ _ _).bind fun _ => observes_pure _

/-- A builtin may intern a text or collect garbage; it writes no table. -/
theorem upholds_runBuiltin (b : Builtin) (args : Array Value) : Upholds (runBuiltin b args) := by
  have hwrite (text : String) (v : Value) : Upholds (do write text; return v) :=
    (upholds_write text).bind fun _ => upholds_pure _
  cases b
  case print | println => exact (observes_joined args).upholds.bind fun _ => hwrite _ _
  case len => exact ((observes_lengthOf _).bind fun _ => observes_pure _).upholds
  case type | str => exact observes_get.upholds.bind fun _ => upholds_internValue _
  case num | int => exact ((observes_toNumber _).bind fun _ => observes_pure _).upholds
  case bool => exact upholds_pure _
  case clock | time | memory => exact (observes_get.bind fun _ => observes_pure _).upholds
  case wait =>
    exact (observes_numberArgument _ _ _).upholds.bind fun _ => (upholds_sleep _).bind fun _ =>
      upholds_pure _
  case throw => exact ((observes_joined args).bind fun _ => observes_throw _).upholds
  case gc =>
    exact (upholds_modifyGet fun _ hm => hm.collectGarbage).bind fun _ => upholds_pure _
  case rand => exact upholds_random args
  case floor | ceil | round | sqrt | abs => exact (observes_ofNumber _ _ args).upholds

theorem upholds_runNative (n : Native) (args : Array Value) : Upholds (runNative n args) := by
  unfold runNative
  split
  · exact upholds_runBuiltin _ args
  · refine observes_get.upholds.bind fun m => ?_
    split
    · exact upholds_pure _
    · exact upholds_throw _

/-! ## Methods of lists, dictionaries and strings -/

theorem upholds_modifyList (r : Ref) (f : Array Value → Array Value) : Upholds (modifyList r f) := by
  refine upholds_modify fun m hm => hm.modify (fun o _ => ?_) fun o _ ho => ?_
  · cases o <;> rfl
  · cases o with
    | list => exact (Obj.fresh_of_kind (by simp [Obj.kind])).regular m.heap
    | _ => exact ho

/-- The change has to keep the dict valid, which setting and erasing an entry do. -/
theorem upholds_modifyDict (r : Ref) {f : Dict Value → Dict Value} (hf : ∀ d, d.Valid → (f d).Valid) :
    Upholds (modifyDict r f) := by
  refine upholds_modify fun m hm => hm.modify (fun o _ => ?_) fun o _ ho => ?_
  · cases o <;> rfl
  · cases o with
    | dict d => exact Obj.regular_dict.mpr (hf d (Obj.regular_dict.mp ho))
    | _ => exact ho

theorem upholds_allocDict {d : Dict Value} (hd : d.Valid) : Upholds (allocValue (.dict d)) :=
  upholds_allocValue ⟨by simp [Heap.NoString, Obj.kind], by simp [Obj.tables], by simpa using hd⟩

/-- By induction on how many levels are copied: each level is a fresh list or dict of copies. -/
theorem upholds_deepCopy (levels : Nat) : ∀ v, Upholds (deepCopy levels v) := by
  induction levels with
  | zero => exact fun v => upholds_pure v
  | succ levels ih =>
    intro v
    cases v with
    | obj r =>
      refine observes_get.upholds.bind fun m => ?_
      split
      · exact (upholds_mapM ih _).bind fun _ => upholds_allocList _
      · exact (upholds_mapM ih _).bind fun _ => upholds_allocDict (Dict.valid_ofList _)
      · exact upholds_pure _
    | _ => exact upholds_pure _

theorem observes_indexArgument (args : Array Value) (i size : Nat) (allowEnd : Bool)
    (function : String) : Observes (indexArgument args i size allowEnd function) :=
  (observes_numberArgument _ _ _).bind fun _ =>
    .ite ((observes_throw _).bind fun _ => observes_pure _) (observes_pure _)

theorem observes_listItems (r : Ref) : Observes (listItems r) :=
  observes_get.bind fun _ => observes_need _

theorem observes_dictOf (r : Ref) : Observes (dictOf r) := by
  refine observes_get.bind fun m => ?_
  split
  · exact observes_pure _
  · exact observes_throw _

theorem observes_listIndex (r : Ref) (args : Array Value) (i : Nat) (allowEnd : Bool)
    (function : String) : Observes (listIndex r args i allowEnd function) :=
  (observes_listItems r).bind fun _ => observes_indexArgument _ _ _ _ _

theorem upholds_internList (texts : List String) : Upholds (internList texts) :=
  (upholds_mapM upholds_internValue texts).bind fun _ => upholds_allocList _

/-- Lists have no keys, so that their items may be exchanged freely. -/
theorem upholds_listMethod (r : Ref) (name : String) (args : Array Value) :
    Upholds (listMethod r name args) := by
  have hmodify (f : Array Value → Array Value) (v : Value) : Upholds (do modifyList r f; return v) :=
    (upholds_modifyList r f).bind fun _ => upholds_pure v
  have hindex (i : Nat) (allowEnd : Bool) : Upholds (listIndex r args i allowEnd name) :=
    (observes_listIndex r args i allowEnd name).upholds
  have hitems : Upholds (listItems r) := (observes_listItems r).upholds
  unfold listMethod
  split
  · exact hmodify _ _
  · exact hmodify _ _
  · refine hitems.bind fun items => ?_
    split
    · exact hmodify _ _
    · exact upholds_throw _
  · exact (hindex _ _).bind fun _ => hmodify _ _
  · exact (hindex _ _).bind fun _ => hitems.bind fun _ => (observes_need _).upholds.bind fun _ =>
      hmodify _ _
  · exact hitems.bind fun _ => observes_heap.upholds.bind fun _ => upholds_pure _
  · refine hitems.bind fun _ => observes_heap.upholds.bind fun _ => ?_
    split <;> exact upholds_pure _
  · exact hitems.bind fun _ => upholds_allocList _
  · exact upholds_deepCopy _ _
  · have hjoin (separator : String) : Upholds (do
        let items ← listItems r
        let h ← heap
        internValue (String.intercalate separator (items.toList.map h.display))) :=
      hitems.bind fun _ => observes_heap.upholds.bind fun _ => upholds_internValue _
    dsimp only
    split
    · exact (upholds_pure _).bind hjoin
    · exact (observes_stringArgument _ _ _).upholds.bind hjoin
  · exact (hindex _ _).bind fun _ => (hindex _ _).bind fun _ => hmodify _ _
  · exact hmodify _ _
  · exact upholds_throw _

/-- The dictionary that is read is valid. -/
theorem upholds_dictOf {r : Ref} {f : Dict Value → Exec β} (hf : ∀ d, d.Valid → Upholds (f d)) :
    Upholds (dictOf r >>= f) := by
  refine fun m hm => Meets.bind (meets_get ?_)
  split
  · rename_i d ho
    exact hf d (hm.heap.dictsValid r d ho) m hm
  · exact hm

theorem upholds_dictMethod (r : Ref) (name : String) (args : Array Value) :
    Upholds (dictMethod r name args) := by
  have hkey : Upholds (stringArgument args 0 name) := (observes_stringArgument args 0 name).upholds
  have hdict : Upholds (dictOf r) := (observes_dictOf r).upholds
  unfold dictMethod
  split
  · exact hkey.bind fun _ => hdict.bind fun _ => upholds_pure _
  · exact hdict.bind fun _ => upholds_internList _
  · exact hdict.bind fun _ => upholds_allocList _
  · exact hkey.bind fun k => hdict.bind fun _ =>
      (upholds_modifyDict r fun d hd => (hd.represents.remove k).2.2.valid).bind fun _ => upholds_pure _
  · exact hkey.bind fun _ => hdict.bind fun _ => upholds_pure _
  · exact upholds_dictOf fun d hd => upholds_allocDict hd
  · exact upholds_deepCopy _ _
  · exact upholds_throw _

theorem upholds_stringMethod (text name : String) (args : Array Value) :
    Upholds (stringMethod text name args) := by
  have harg (i : Nat) : Upholds (stringArgument args i name) :=
    (observes_stringArgument args i name).upholds
  unfold stringMethod
  split
  · exact upholds_internValue _
  · exact upholds_internValue _
  · exact upholds_internValue _
  · exact (harg 0).bind fun _ => (harg 1).bind fun _ => upholds_internValue _
  · split
    · exact upholds_internList _
    · exact (harg 0).bind fun _ => upholds_internList _
  · exact (harg 0).bind fun _ => upholds_pure _
  · exact (harg 0).bind fun _ => upholds_pure _
  · exact (harg 0).bind fun _ => upholds_pure _
  · refine (harg 0).bind fun _ => ?_
    split <;> exact upholds_pure _
  · exact upholds_throw _

theorem upholds_runMethod (r : Ref) (name : String) (args : Array Value) :
    Upholds (runMethod r name args) := by
  refine observes_get.upholds.bind fun m => ?_
  split
  · exact upholds_listMethod r name args
  · exact upholds_dictMethod r name args
  · exact upholds_stringMethod _ name args
  · exact upholds_throw _

end Exec

end ScriptMachine
