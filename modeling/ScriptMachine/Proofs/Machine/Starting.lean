import Mathlib
import ScriptMachine.Machine
import ScriptMachine.Proofs.Compiler.Trust
import ScriptMachine.Proofs.Machine.Spawning

/-!
# ScriptMachine.Proofs.Machine.Starting — machines that are made ready to run

A new machine is valid, and it stays valid when it gets globals and native functions. To run a script
everything that an earlier run may have left is dropped first; then the main task starts anew, on the
function that the compiler has made of the script.

`valid_new` and `Valid.loading` are the results: where histories begin, and how a run begins in the middle
of one. Compiling goes first and may leave new strings and functions in the heap, which is harmless
because no closure is made. `Consistent.restarting` drops what an earlier run has left; after a run that
came to its end there is nothing to drop, and after one that was cut short this is what makes the machine
usable again.
-/

namespace ScriptMachine

variable {m : Machine} {h h' : Heap} {t : Fiber} {v : Value} {wrote : Ref → Prop}

/-! ## Objects that are made -/

namespace Heap

/-- An object that is neither a cell, a handle nor a native function is made. -/
theorem Healthy.still_alloc {o : Obj} (hh : h.Healthy) (hplain : o.isPlain = true) (ho : o.Sound h)
    (hmade : ∀ c, o = .closure c → h.Made c) :
    (h.alloc o).2.Healthy ∧ h.Still (h.alloc o).2 :=
  ⟨hh.alloc ho hmade, hh.sound.tidy.still_alloc hplain⟩

/-- **`Healthy.interned`** — a text becomes a string of the heap. -/
theorem Healthy.interned (hh : h.Healthy) (s : String) :
    (h.intern s).2.Healthy ∧ h.Still (h.intern s).2 ∧ (h.intern s).2.Has (h.intern s).1 .string :=
  ⟨hh.intern s, hh.sound.tidy.still_intern s, has_string.mpr ⟨s, (hh.sound.tidy.intern s).2.2⟩⟩

/-- A string is a key. -/
theorem Has.key? {r : Ref} (hr : h.Has r .string) : ∃ k, h.key? r = some k ∧ k.ref = r := by
  obtain ⟨s, hs⟩ := has_string.mp hr
  obtain ⟨hash, ho⟩ := text?_eq_some.mp hs
  exact ⟨⟨r, hash⟩, key?_eq_some.mpr ⟨rfl, s, ho⟩, rfl⟩

/-- The values of some texts, put behind others. -/
theorem Healthy.internAll (texts : List String) (hh : h.Healthy) :
    ∀ vs : Array Value, (∀ v ∈ vs, h.Live v) →
    let made := texts.foldl (fun (values, heap) s =>
      let (r, heap) := heap.intern s
      (values.push (.obj r), heap)) (vs, h)
    made.2.Healthy ∧ h.Still made.2 ∧ ∀ v ∈ made.1, made.2.Live v := by
  induction texts generalizing h with
  | nil => exact fun vs hvs => ⟨hh, .refl h, hvs⟩
  | cons s texts ih =>
    intro vs hvs
    obtain ⟨hh₁, hstill₁, hstring⟩ := hh.interned s
    obtain ⟨hh₂, hstill₂, hlive⟩ := ih hh₁ (vs.push (.obj (h.intern s).1)) fun v hv => by
      rcases Array.mem_push.mp hv with hv | rfl
      · exact hstill₁.evolves.live (hvs v hv)
      · exact hstring.live
    exact ⟨hh₂, hstill₁.trans hstill₂, hlive⟩

end Heap

namespace Machine

/-! ## Machines of which little changes -/

/-- Defining a global interns its name. -/
@[simp]
theorem heap_defineGlobal (m : Machine) (name : String) (v : Value) :
    (m.defineGlobal name v).heap = (m.heap.intern name).2 := by
  unfold defineGlobal
  dsimp only
  split <;> rfl

/-- Defining a native allocates it, and interns its name. -/
theorem heap_defineNative (m : Machine) (name : String) (body : NativeBody) :
    (m.defineNative name body).heap =
      ((m.heap.alloc (.native ⟨name, body⟩)).2.intern name).2 := by
  unfold defineNative
  dsimp only
  rw [heap_defineGlobal]

namespace Consistent

variable (hc : m.Consistent)
include hc

/-- **`still`** — the heap goes on, and nothing else. -/
theorem still (hh : h'.Healthy) (hstill : m.heap.Still h') :
    { m with heap := h' }.Consistent ∧ Moves wrote m { m with heap := h' } :=
  hc.calm _ (hc.sound.evolve hstill.evolves hh) hstill.calm rfl rfl rfl
    (hc.becomes_self List.mem_cons_self)

/-- What a definition does. -/
theorem defineGlobal_eq (name : String) : ∃ k, k.ref = (m.heap.intern name).1 ∧
    m.defineGlobal name v =
      { m with heap := (m.heap.intern name).2, globals := m.globals.set k v } := by
  obtain ⟨k, hk, href⟩ := (hc.sound.heap.interned name).2.2.key?
  refine ⟨k, href, ?_⟩
  unfold defineGlobal
  dsimp only
  rw [hk]

/-- **`defining`** — a global gets a value that is in the heap. -/
theorem defining (name : String) (hv : m.heap.Live v) :
    (m.defineGlobal name v).Consistent ∧ Moves wrote m (m.defineGlobal name v) := by
  obtain ⟨hh, hstill, hstring⟩ := hc.sound.heap.interned name
  obtain ⟨k, href, heq⟩ := hc.defineGlobal_eq (v := v) name
  obtain ⟨hc', -⟩ : _ ∧ Moves wrote _ _ := hc.still hh hstill
  rw [heq]
  refine hc.calm { m with heap := (m.heap.intern name).2, globals := m.globals.set k v } ?_
    hstill.calm rfl rfl rfl (hc.becomes_self List.mem_cons_self)
  exact hc'.sound.withGlobals (hc'.sound.globals.set (href ▸ hstring) (hstill.evolves.live hv))

/-- A native function is made. -/
theorem makingNative (n : Native) :
    { m with heap := (m.heap.alloc (.native n)).2 }.Consistent := by
  have htidy := hc.heap_sound.tidy
  have hev := (htidy.keeps_alloc (.native n)).evolves
  have hh : (m.heap.alloc (.native n)).2.Healthy := hc.sound.heap.alloc (by trivial) nofun
  have hs : { m with heap := (m.heap.alloc (.native n)).2 }.Sound := hc.sound.evolve hev hh
  -- it is neither a cell nor a handle
  have hviews : ∀ r, (m.heap.alloc (.native n)).2.upvalue? r = m.heap.upvalue? r ∧
      (m.heap.alloc (.native n)).2.task? r = m.heap.task? r := by
    intro r
    by_cases hr : r = (m.heap.alloc (.native n)).1
    · subst hr
      have hnone := htidy.get?_alloc_fst (.native n)
      have hself := htidy.get?_alloc_self (.native n)
      unfold Heap.upvalue? Heap.task?
      rw [hself, hnone]
      exact ⟨rfl, rfl⟩
    · have hsame := htidy.get?_alloc (.native n) r
      rw [if_neg hr] at hsame
      exact ⟨(Heap.views_congr hsame).1, (Heap.views_congr hsame).2.1⟩
  refine ⟨hs, fun t ht => ?_, hc.cells.congr_heap fun r => (hviews r).1, ?_⟩
  · exact (hc.waiting t ht).persists hev.persists hh.sound (hs.queue t ht)
  · exact hc.tasks.of_calm (fun r _ hr => (hviews r).2 ▸ hr) hc.tasks.ids hs.mainHandle
      fun t ht => ⟨(hs.of_mem_fibers ht).handle, t, ht, rfl, rfl, id⟩

/-- **`replacing`** — with no other fiber there, one that holds on to nothing takes the place of the one
that ran. -/
theorem replacing (hopen : m.fiber.openUpvalues = []) (hqueue : m.queue = [])
    (hopen' : t.openUpvalues = []) (hsound : t.Sound m.heap) (hbound : t.id ≤ m.lastTask)
    (hhandle : ∃ th, m.heap.task? t.handle = some th ∧ th.id = t.id ∧
      (t.isDone = false → th.status = .running)) :
    { m with fiber := t }.Consistent ∧ Moves wrote m { m with fiber := t } := by
  have honly : ∀ u ∈ t :: m.queue, u = t := by simp [hqueue]
  have hcarried : Carried wrote m.heap m.fibers m.heap (t :: m.queue) := by
    refine .of_calm hc.cells (fun _ _ hu => hu) (fun u hu e he => ?_) (fun u hu => ?_) fun u hu hne => ?_
    · rw [honly u hu, hopen'] at he
      cases he
    · exact .inl (honly u hu ▸ hopen')
    · rcases mem_fibers.mp hu with rfl | hu
      · exact (hne hopen).elim
      · rw [hqueue] at hu
        cases hu
  have hmoves : Moves wrote m { m with fiber := t } :=
    ⟨Nat.le_refl _, .refl _, .of_calm fun _ _ hr => hr, hcarried⟩
  refine ⟨hc.of_moves hmoves (hc.sound.withFiber hsound) hc.waiting ⟨?_, fun u hu => ?_, fun u hu => ?_,
    hc.tasks.known, hc.tasks.single, hc.tasks.main⟩, hmoves⟩
  · show (t.id :: m.queue.map Fiber.id).Nodup
    rw [hqueue]
    simp
  · exact honly u hu ▸ hbound
  · exact honly u hu ▸ hhandle

end Consistent

/-- A machine whose heap goes on is valid while the running fiber stays as it is. -/
theorem Consistent.valid {m' : Machine} (hc : m'.Consistent) (hv : m.Valid)
    (hh : m.heap.Persists m'.heap) (hfiber : m'.fiber = m.fiber) : m'.Valid := by
  refine ⟨hc, ?_⟩
  rw [hfiber]
  refine hv.running.imp id fun halive => ?_
  exact halive.persists hh hc.heap_sound (hfiber ▸ hc.sound.fiber)

namespace Valid

variable (hv : m.Valid)
include hv

/-- A heap in which everything stays keeps the machine valid. -/
theorem still (hh : h'.Healthy) (hstill : m.heap.Still h') :
    { m with heap := h' }.Valid ∧ Moves wrote m { m with heap := h' } := by
  obtain ⟨hc, hmoves⟩ : _ ∧ Moves wrote _ _ := hv.toConsistent.still hh hstill
  exact ⟨hc.valid hv hstill.calm.persists rfl, hmoves⟩

/-- **`defining`** — a machine stays valid when a global is defined. -/
theorem defining (name : String) (hlive : m.heap.Live v) :
    (m.defineGlobal name v).Valid ∧ Moves wrote m (m.defineGlobal name v) := by
  obtain ⟨hc, hmoves⟩ : _ ∧ Moves wrote _ _ := hv.toConsistent.defining name hlive
  obtain ⟨k, -, heq⟩ := hv.toConsistent.defineGlobal_eq (v := v) name
  refine ⟨hc.valid hv ?_ (by rw [heq]), hmoves⟩
  rw [heq]
  exact (hv.sound.heap.interned name).2.1.calm.persists

/-- **`definingNative`** — and when a native function is defined. -/
theorem definingNative (name : String) (body : NativeBody) : (m.defineNative name body).Valid := by
  have htidy := hv.toConsistent.heap_sound.tidy
  have hc := hv.toConsistent.makingNative ⟨name, body⟩
  have hvalid := hc.valid hv (htidy.keeps_alloc _).evolves.persists rfl
  have hlive : Heap.Live (m.heap.alloc (.native ⟨name, body⟩)).2
      (.obj (m.heap.alloc (.native ⟨name, body⟩)).1) :=
    Heap.live_obj.mpr ⟨_, htidy.get?_alloc_self _⟩
  obtain ⟨hdefined, -⟩ : _ ∧ Moves (fun _ => False) _ _ := hvalid.defining name hlive
  exact hdefined

end Valid

/-! ## New machines -/

/-- The machine that has nothing defined: an idle main task with its handle, and the cached names. -/
theorem valid_bare (config : Config) (files : Files) :
    (bare config files).Valid ∧ (Heap.new config.heap).Abides (bare config files).heap := by
  have hcells : ∀ r, (Heap.new config.heap).upvalue? r = none := by
    simp [Heap.new, Heap.upvalue?, Heap.get?]
  have htasks : ∀ r, (Heap.new config.heap).task? r = none := by
    simp [Heap.new, Heap.task?, Heap.get?]
  unfold bare
  dsimp only
  obtain ⟨hh₁, hs₁, hn₁⟩ := (Heap.new_healthy config.heap).interned "init"
  generalize (Heap.new config.heap).intern "init" = init at hh₁ hs₁ hn₁ ⊢
  obtain ⟨hh₂, hs₂, hn₂⟩ := hh₁.interned "__args__"
  generalize init.2.intern "__args__" = args at hh₂ hs₂ hn₂ ⊢
  obtain ⟨hh₃, hs₃, hn₃⟩ := hh₂.interned "__ans__"
  generalize args.2.intern "__ans__" = answer at hh₃ hs₃ hn₃ ⊢
  obtain ⟨hh₄, hs₄, hn₄⟩ := hh₃.interned "__name__"
  generalize answer.2.intern "__name__" = name at hh₄ hs₄ hn₄ ⊢
  obtain ⟨hh₅, hs₅, hn₅⟩ := hh₄.interned "default"
  generalize name.2.intern "default" = taskName at hh₅ hs₅ hn₅ ⊢
  have hth : (Obj.task ⟨taskName.1, mainTask, .finished, .none⟩).Sound taskName.2 :=
    ⟨hn₅, Heap.live_none⟩
  have hnew := Heap.handleChanged_alloc hh₅ hth
  generalize taskName.2.alloc (.task ⟨taskName.1, mainTask, .finished, .none⟩) = made at hnew ⊢
  have hfrom₄ := hs₅.evolves.trans hnew.evolves
  have hfrom₃ := hs₄.evolves.trans hfrom₄
  have hfrom₂ := hs₃.evolves.trans hfrom₃
  have hfrom₁ := hs₂.evolves.trans hfrom₂
  -- there are no cells, and no other handles
  have hstill := hs₁.trans (hs₂.trans (hs₃.trans (hs₄.trans hs₅)))
  have hcell : ∀ r, made.2.upvalue? r = none := fun r =>
    (hnew.upvalues r).trans ((hstill.upvalues r).trans (hcells r))
  have hhandle : ∀ r th, made.2.task? r = some th →
      r = made.1 ∧ th = ⟨taskName.1, mainTask, .finished, .none⟩ := by
    intro r th hr
    by_cases hmain : r = made.1
    · rw [hmain, hnew.handle] at hr
      exact ⟨hmain, (Option.some.inj hr).symm⟩
    · rw [hnew.tasks r hmain, hstill.tasks r, htasks r] at hr
      cases hr
  have hmain : made.2.Has made.1 .task := Heap.has_task.mpr ⟨_, hnew.handle⟩
  have hfiber : (Fiber.new mainTask made.1).Sound made.2 :=
    ⟨hmain, by simp [Fiber.new], by simp [Fiber.new], by simp [Fiber.new]⟩
  refine ⟨⟨⟨⟨hnew.healthy, Table.holds_empty, by simp, hfiber, by simp,
      ⟨hfrom₁.has hn₁, hfrom₂.has hn₂, hfrom₃.has hn₃, hfrom₄.has hn₄⟩, hmain, by simp⟩,
    by simp, ⟨fun t ht => ?_, fun t ht => ?_, fun r task slot hr => ?_⟩,
    ⟨List.nodup_singleton _, fun t ht => ?_, fun t ht => ?_, fun r th hr => ?_,
      fun r r' th th' hr hr' _ => (hhandle r th hr).1.trans (hhandle r' th' hr').1.symm,
      ⟨_, hnew.handle, rfl⟩⟩⟩, .inl ⟨rfl, rfl, rfl, rfl⟩⟩, hstill.abides.trans hnew.abides⟩
  · obtain rfl := List.mem_singleton.mp ht
    exact .nil
  · obtain rfl := List.mem_singleton.mp ht
    simp [Fiber.new]
  · rw [hcell r] at hr
    cases hr
  · obtain rfl := List.mem_singleton.mp ht
    exact Nat.le_refl _
  · obtain rfl := List.mem_singleton.mp ht
    exact ⟨_, hnew.handle, rfl, by simp [Fiber.new, Fiber.isDone]⟩
  · obtain ⟨-, rfl⟩ := hhandle r th hr
    exact ⟨Nat.le_refl _, fun _ => rfl⟩

/-- **`valid_new`** — a machine that has not run anything is valid. -/
theorem valid_new (config : Config) (files : Files) : (new config files).Valid := by
  unfold new
  refine List.foldlRecOn Builtin.all _ (valid_bare config files).1 fun m hm b _ => ?_
  exact hm.definingNative b.1 (.builtin b.2)

/-! ## Scripts -/

/-- **`restarting`** — nothing is left of what ran before, and the main task runs. -/
theorem Consistent.restarting (hc : m.Consistent) :
    m.restart.Consistent ∧ Moves wrote m m.restart ∧ m.heap.Evolves m.restart.heap ∧
      ∃ th, m.restart.heap.task? m.mainHandle = some th ∧ th.id = mainTask ∧
        th.status = .running := by
  obtain ⟨hc₁, hm₁, hev₁, -⟩ : _ ∧ Moves wrote _ _ ∧ _ := hc.dropping
  have hclosed := hc₁.closed 0
  obtain ⟨hc₂, hm₂, hspent, htasks⟩ : _ ∧ Moves wrote _ _ ∧ _ := hc₁.resetting
  obtain ⟨th, hth, hid⟩ := hc₂.tasks.main
  have hchanged := Heap.handleChanged_modifyHandle
    (f := fun t => { t with status := .running, result := .none }) hc₂.sound.heap hth rfl rfl
    Heap.live_none
  obtain ⟨hc₃, hm₃⟩ : _ ∧ Moves wrote _ _ := hc₂.handling hth hchanged rfl rfl (.inr hid)
    (fun _ => rfl) fun _ _ _ _ => rfl
  obtain ⟨hc₄, hm₄⟩ : _ ∧ Moves wrote _ _ := hc₃.withoutMainResult
  obtain ⟨hc₅, hm₅⟩ : _ ∧ Moves wrote _ _ := hc₄.replacing (t := .new mainTask m.mainHandle)
    hspent.openUpvalues rfl rfl ⟨hc₄.sound.mainHandle, by simp [Fiber.new], nofun, nofun⟩
    (Nat.zero_le _) ⟨_, hchanged.handle, hid, nofun⟩
  exact ⟨hc₅, (((hm₁.trans hm₂).trans hm₃).trans hm₄).trans hm₅,
    (hev₁.trans hclosed.closes.evolves).trans hchanged.evolves, _, hchanged.handle, hid, rfl⟩

/-- **`starting`** — the main task is at the start of a function without parameters. -/
theorem Consistent.starting {r : Ref} {c : Closure} {p : Prototype} (hc : m.Consistent)
    (hr : m.heap.closure? r = some c) (hp : m.heap.prototype? c.prototype = some p)
    (harity : p.arity = 0) (hpackage : c.package = none) :
    (m.startMain r p.chunk).Valid ∧ Moves wrote m (m.startMain r p.chunk) := by
  obtain ⟨hc₁, hm₁, hev₁, th, hth, hid, hrunning⟩ : _ ∧ Moves wrote _ _ ∧ _ := hc.restarting
  -- the arguments are a list of the heap
  obtain ⟨hh₂, hstill₂, hargs⟩ := hc₁.sound.heap.internAll m.scriptArgs #[] (by simp)
  unfold startMain
  change (internAll m.restart.heap m.restart.scriptArgs).2.Healthy at hh₂
  change m.restart.heap.Still (internAll m.restart.heap m.restart.scriptArgs).2 at hstill₂
  change ∀ v ∈ (internAll m.restart.heap m.restart.scriptArgs).1,
    (internAll m.restart.heap m.restart.scriptArgs).2.Live v at hargs
  dsimp only
  generalize internAll m.restart.heap m.restart.scriptArgs = args at hh₂ hstill₂ hargs ⊢
  obtain ⟨hh₃, hstill₃⟩ := hh₂.still_alloc (o := .list args.1) rfl hargs nofun
  have hlist : (args.2.alloc (.list args.1)).2.Live (.obj (args.2.alloc (.list args.1)).1) :=
    Heap.live_obj.mpr ⟨_, hh₂.sound.tidy.get?_alloc_self _⟩
  generalize args.2.alloc (.list args.1) = list at hh₃ hstill₃ hlist ⊢
  obtain ⟨hc₃, hm₃⟩ : _ ∧ Moves wrote _ _ := hc₁.still hh₃ (hstill₂.trans hstill₃)
  obtain ⟨hc₄, hm₄⟩ : _ ∧ Moves wrote _ _ := hc₃.defining "args" hlist
  obtain ⟨k, -, heq⟩ := hc₃.defineGlobal_eq (v := .obj list.1) "args"
  have hstill₄ := hh₃.sound.tidy.still_intern "args"
  rw [heq] at hc₄ hm₄ ⊢
  have hlater := (hstill₂.trans hstill₃).trans hstill₄
  have hsince := (hstill₃.trans hstill₄).evolves
  have hr' := hlater.evolves.closure? (hev₁.closure? hr)
  have hp' := hlater.evolves.prototype? (hev₁.prototype? hp)
  -- the first activation
  have hsound : (Fiber.ofClosure mainTask m.mainHandle r c p args.1).Sound (list.2.intern "args").2 :=
    Fiber.sound_ofClosure hc₄.sound.heap hc₄.sound.mainHandle hr' fun v hv => hsince.live (hargs v hv)
  have halive : (Fiber.ofClosure mainTask m.mainHandle _ _ _ args.1).Alive _ :=
    Fiber.alive_ofClosure hc₄.sound.heap hr' hp' harity
  obtain ⟨hc₅, hm₅⟩ : _ ∧ Moves wrote _ _ := hc₄.replacing rfl rfl rfl hsound (Nat.zero_le _)
    ⟨th, (hlater.tasks _).trans hth, hid, fun _ => hrunning⟩
  have hfirst : ({ m.restart.fiber with
      stack := #[.obj r], frames := [⟨r, p.chunk, 0, 0, none, .function, args.1⟩] } : Fiber) =
      .ofClosure mainTask m.mainHandle r c p args.1 := by
    rw [← hpackage]
    rfl
  rw [hfirst]
  exact ⟨⟨hc₅, .inr halive⟩, ((hm₁.trans hm₃).trans hm₄).trans hm₅⟩

/-- **`loaded`** — a script that has been compiled starts on the main task of a machine with the same fibers
and the same handles. -/
theorem Valid.loaded {script : Ref} {source path : String} (hv : m.Valid)
    (hcompile : compile m.heap source path = (.ok script, h')) : ∃ m₁ r c p,
      { m with heap := h' }.load script path = m₁.startMain r p.chunk ∧ m₁.Consistent ∧
        Moves wrote m m₁ ∧ m₁.fibers = m.fibers ∧ (∀ r, m₁.heap.task? r = m.heap.task? r) ∧
        m₁.heap.closure? r = some c ∧ m₁.heap.prototype? c.prototype = some p ∧ p.arity = 0 ∧
        c.package = none := by
  obtain ⟨htrusts, p, hp, harity, hcaptures⟩ := compile_trusts hv.sound.heap hcompile
  obtain ⟨hh₁, hstill₁⟩ := healthy_compile hv.sound.heap source path
  rw [hcompile] at hh₁ hstill₁
  have hmade : h'.Made ⟨script, #[], none⟩ := by
    refine ⟨htrusts, fun p' hp' => ?_⟩
    obtain rfl := Option.some.inj (hp.symm.trans hp')
    exact hcaptures.symm
  have hprototype : h'.Has script .prototype := ⟨_, Heap.prototype?_eq_some.mp hp, rfl⟩
  obtain ⟨hh₂, hstill₂⟩ := hh₁.still_alloc (o := .closure ⟨script, #[], none⟩) rfl
    ⟨hprototype, by simp, nofun⟩ fun c heq => Obj.closure.inj heq ▸ hmade
  have hself := hh₁.sound.tidy.get?_alloc_self (.closure ⟨script, #[], none⟩)
  unfold load
  dsimp only
  generalize h'.alloc (.closure ⟨script, #[], none⟩) = made at hh₂ hstill₂ hself ⊢
  obtain ⟨hh₃, hstill₃, hstring⟩ := hh₂.interned path
  generalize made.2.intern path = named at hh₃ hstill₃ hstring ⊢
  have hsince := hstill₂.trans hstill₃
  obtain ⟨hc₃, hm₃⟩ : _ ∧ Moves wrote _ _ := hv.toConsistent.still hh₃ (hstill₁.trans hsince)
  obtain ⟨hc₄, hm₄⟩ : _ ∧ Moves wrote _ _ := hc₃.defining "__name__" hstring.live
  obtain ⟨k, -, heq⟩ := hc₃.defineGlobal_eq (v := .obj named.1) "__name__"
  have hlater := hh₃.sound.tidy.still_intern "__name__"
  have hp₃ := hsince.evolves.prototype? hp
  rw [heq] at hc₄ hm₄
  rw [hp₃, heq]
  exact ⟨_, made.1, ⟨script, #[], none⟩, p, rfl, hc₄, hm₃.trans hm₄, rfl,
    ((hstill₁.trans hsince).trans hlater).tasks,
    hlater.evolves.closure? (hstill₃.evolves.closure? (Heap.closure?_eq_some.mpr hself)),
    hlater.evolves.prototype? hp₃, harity, rfl⟩

/-- **`loading`** — a machine is valid when it is about to run a script that has been compiled. -/
theorem Valid.loading {script : Ref} {source path : String} (hv : m.Valid)
    (hcompile : compile m.heap source path = (.ok script, h')) :
    ({ m with heap := h' }.load script path).Valid ∧
      Moves wrote m ({ m with heap := h' }.load script path) := by
  obtain ⟨m₁, r, c, p, heq, hc, hm, -, -, hclosure, hp, harity, hpackage⟩ :
    ∃ m₁ r c p, _ ∧ _ ∧ Moves wrote m m₁ ∧ _ := hv.loaded hcompile
  obtain ⟨hvalid, hm'⟩ : _ ∧ Moves wrote _ _ := hc.starting hclosure hp harity hpackage
  rw [heq]
  exact ⟨hvalid, hm.trans hm'⟩

end Machine

end ScriptMachine
