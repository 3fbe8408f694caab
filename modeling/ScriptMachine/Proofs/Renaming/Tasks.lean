import Mathlib
import ScriptMachine.Machine.Run
import ScriptMachine.Proofs.Machine.Raising
import ScriptMachine.Proofs.Renaming.Loading

/-!
# ScriptMachine.Proofs.Renaming.Tasks — tasks, turns and errors on like machines

The scheduler looks at states, deadlines and identities of fibers, and like fibers have the same. So the
same task gets its turn, the same deadlocks are found, and an error is routed to the same handler. The
text of an error that nothing handles names functions, files and lines, never a reference.

`Like.schedule` and `Like.raise` are the results. The queue is compared fiber by fiber and in order, so
that the same index is picked. An error that ends the run resets what is left of the tasks, on both
sides alike, and the errors that are written are the same text.
-/

namespace ScriptMachine

variable {β β' : Pairing} {m n : Machine} {h h' : Heap} {t u : Fiber} {v w : Value} {r s : Ref}

/-! ## Fibers -/

/-- Like fibers, of which the first lists cells of variables. -/
structure Fiber.Fits (β : Pairing) (h : Heap) (t u : Fiber) : Prop where
  like : t.Like β u
  cells : ∀ e ∈ t.openUpvalues, h.Has e.2 .upvalue

/-- More pairs and more cells do not disturb a fiber. -/
theorem Fiber.Fits.mono (ht : t.Fits β h u) (hβ : β ≤ β')
    (hcells : ∀ r, h.Has r .upvalue → h'.Has r .upvalue) : t.Fits β' h' u :=
  ⟨ht.like.mono hβ, fun e he => hcells _ (ht.cells e he)⟩

namespace Machine

theorem Like.running (hm : m.Like β n) : m.fiber.Fits β m.heap n.fiber :=
  ⟨hm.fiber, hm.cells _ (.inl rfl)⟩

theorem Like.waiting (hm : m.Like β n) : List.Forall₂ (Fiber.Fits β m.heap) m.queue n.queue := by
  have hboth := (List.forall₂_and_left (p := (· ∈ m.queue)) _ _).mpr ⟨fun _ ht => ht, hm.queue⟩
  exact hboth.imp fun t u ht => ⟨ht.2, hm.cells t (.inr ht.1)⟩

/-- Other fibers have come to run and to wait. -/
theorem Like.withFibers (hm : m.Like β n) {q q' : List Fiber} (ht : t.Fits β m.heap u)
    (hq : List.Forall₂ (Fiber.Fits β m.heap) q q') :
    { m with fiber := t, queue := q }.Like β { n with fiber := u, queue := q' } :=
  { hm with
    fiber := ht.like
    queue := hq.imp fun _ _ ht => ht.like
    cells := by
      have hlists : ∀ t ∈ q, ∀ e ∈ t.openUpvalues, m.heap.Has e.2 .upvalue := by
        intro t ht
        obtain ⟨i, hi⟩ := List.mem_iff_getElem?.mp ht
        have hrel := forall₂_iff_getElem?.mp hq i
        rw [hi] at hrel
        generalize q'[i]? = b at hrel
        cases hrel with
        | some ht => exact ht.cells
      rintro t' (rfl | ht')
      · exact ht.cells
      · exact hlists t' ht' }

end Machine

namespace Fiber

theorem Fits.awaken (ht : t.Fits β h u) (clock since : Nat) :
    (t.awaken clock since).Fits β h (u.awaken clock since) := by
  refine ⟨{ ht.like with state := rfl, stack := ?_ }, ht.cells⟩
  show Aligned _ (t.stack.setIfInBounds _ _) (u.stack.setIfInBounds _ _)
  rw [ht.like.stack.size_eq]
  exact ht.like.stack.setIfInBounds _ (.number _)

/-- Whether a fiber can run depends on times and ids only. -/
theorem Fits.runnable? (ht : t.Fits β h u) (clock : Nat) :
    Option.Rel (Fits β h) (t.runnable? clock) (u.runnable? clock) := by
  unfold Fiber.runnable?
  rw [ht.like.state]
  split
  · exact .some ht
  · split
    · exact .some (ht.awaken clock _)
    · exact .none
  · exact .none

/-- What a fiber captured survives it, with like values. -/
theorem Fits.reset (ht : t.Fits β h u) (hh : h.Like β h') :
    (t.reset h).1.Fits β (t.reset h).2 (u.reset h').1 ∧ (t.reset h).2.Like β (u.reset h').2 ∧
      ∀ r, h.Has r .upvalue → (t.reset h).2.Has r .upvalue := by
  obtain ⟨hclosed, hheap, hlast, hsub⟩ := ht.like.closeUpvalues hh ht.cells 0
  exact ⟨⟨{ hclosed with stack := .empty, frames := .nil, handlers := rfl, state := rfl },
    fun e he => hlast _ (ht.cells e (hsub e he))⟩, hheap, hlast⟩

end Fiber

/-! ## Handles -/

/-- Task handles change alike. -/
theorem Heap.Like.modifyHandle (hh : h.Like β h') (hr : β.rel r s) {f g : TaskHandle → TaskHandle}
    (hfg : ∀ a b, a.Like β b → (f a).Like β (g b)) :
    (h.modifyHandle r f).Like β (h'.modifyHandle s g) ∧
      ∀ r', h.Has r' .upvalue → (h.modifyHandle r f).Has r' .upvalue := by
  refine ⟨hh.modify hr (fun o o' _ ho => ?_) fun o _ => ?_, fun r' => Exec.has_modify fun o _ => ?_⟩
  · cases ho with
    | task ht => exact .task (hfg _ _ ht)
    | _ => constructor <;> assumption
  · cases o <;> exact ⟨rfl, fun _ => by trivial⟩
  · cases o <;> rfl

/-! ## Whose turn it is -/

/-- The same fiber is picked, and the same ones are passed over. -/
theorem pickRunnable_like {q q' : List Fiber} (hq : List.Forall₂ (Fiber.Fits β h) q q')
    (clock : Nat) :
    Option.Rel (fun a b => List.Forall₂ (Fiber.Fits β h) a.1 b.1 ∧ a.2.1.Fits β h b.2.1 ∧
      List.Forall₂ (Fiber.Fits β h) a.2.2 b.2.2) (pickRunnable clock q) (pickRunnable clock q') := by
  induction hq with
  | nil => exact .none
  | @cons t u q q' ht hq ih =>
    have hready := ht.runnable? clock
    unfold pickRunnable
    generalize t.runnable? clock = a, u.runnable? clock = b at hready
    cases hready with
    | some hready => exact .some ⟨.nil, hready, hq⟩
    | none => exact ih.map fun _ _ h => ⟨.cons ht h.1, h.2⟩

/-- Deadlines are numbers. -/
theorem earliest?_eq {q q' : List Fiber} (hq : List.Forall₂ (Fiber.Fits β h) q q') :
    earliest? q = earliest? q' := by
  have hdeadlines : List.Forall₂ (· = ·) (q.filterMap Fiber.deadline?)
      (q'.filterMap Fiber.deadline?) :=
    List.rel_filterMap (R := Fiber.Fits β h) (P := (· = ·)) (fun t u ht => by
      unfold Fiber.deadline?
      rw [ht.like.state]
      split
      · exact .some rfl
      · exact .none) hq
  rw [List.forall₂_eq_eq_eq] at hdeadlines
  unfold earliest?
  rw [hdeadlines]

namespace Machine

theorem Like.elapse (hm : m.Like β n) (nanoseconds : Nat) :
    (m.elapse nanoseconds).Like β (n.elapse nanoseconds) :=
  { hm with clock := congrArg (· + nanoseconds) hm.clock }

theorem Like.alive (hm : m.Like β n) : List.Forall₂ (Fiber.Fits β m.heap) m.alive n.alive := by
  unfold Machine.alive
  rw [hm.fiber.isDone_eq]
  split
  · exact hm.waiting
  · exact .cons hm.running hm.waiting

theorem Like.switchTo (hm : m.Like β n) {q q' : List Fiber} (ht : t.Fits β m.heap u)
    (hq : List.Forall₂ (Fiber.Fits β m.heap) q q') :
    (m.switchTo t q).Like β (n.switchTo u q') := by
  refine hm.withFibers ht ?_
  rw [hm.fiber.isDone_eq]
  split
  · exact hq
  · exact List.rel_append hq (.cons hm.running .nil)

/-- The machine is handed to the same fiber on both sides. -/
theorem Like.turn? (hm : m.Like β n) : Option.Rel (Machine.Like β) m.turn? n.turn? := by
  have hpick := pickRunnable_like hm.waiting m.clock
  have hready := hm.running.runnable? m.clock
  nth_rewrite 2 [hm.clock] at hpick hready
  unfold Machine.turn?
  generalize pickRunnable m.clock m.queue = a, pickRunnable n.clock n.queue = b at hpick
  cases hpick with
  | some hpick =>
    obtain ⟨hpassed, hnext, hafter⟩ := hpick
    exact .some (hm.switchTo hnext (List.rel_append hafter hpassed))
  | none =>
    dsimp only
    rw [hm.fiber.isDone_eq]
    split
    · exact .none
    · exact hready.map fun _ _ ht => hm.withFiber ht.like ht.cells

/-- The fiber that gets to know is found by its id or by its place in the queue. -/
theorem Like.deadlocked (hm : m.Like β n) : m.deadlocked.Like β n.deadlocked := by
  -- whoever gets to know of it is ready to run
  have hready : ∀ {m n : Machine}, m.Like β n →
      { m with fiber := { m.fiber with state := .ready } }.Like β
        { n with fiber := { n.fiber with state := .ready } } := fun hm =>
    hm.withFiber { hm.fiber with state := rfl } hm.running.cells
  unfold Machine.deadlocked
  refine hready ?_
  rw [hm.fiber.id, hm.fiber.isDone_eq]
  split
  · exact hm
  · have hindex : m.queue.findIdx? (fun t => t.id = mainTask) =
        n.queue.findIdx? fun t => t.id = mainTask := by
      have hq : Aligned (Fiber.Like β) m.queue.toArray n.queue.toArray := hm.queue
      simpa using hq.findIdx?_eq (p := fun t => decide (t.id = mainTask))
        (q := fun t => decide (t.id = mainTask)) fun t u ht => by rw [ht.id]
    rw [hindex]
    extract_lets index
    have hnext := forall₂_iff_getElem?.mp hm.waiting index
    generalize m.queue[index]? = a, n.queue[index]? = b at hnext
    cases hnext with
    | none => exact hm
    | some ht =>
      refine hm.switchTo ht ?_
      rw [List.eraseIdx_eq_take_drop_succ, List.eraseIdx_eq_take_drop_succ]
      exact List.rel_append (List.forall₂_take _ hm.waiting) (List.forall₂_drop _ hm.waiting)

/-- **`Like.schedule`** — the same is found about whose turn it is. -/
theorem Like.schedule (hm : m.Like β n) :
    m.schedule.1 = n.schedule.1 ∧ m.schedule.2.Like β n.schedule.2 := by
  have hm := hm.elapse stepTime
  unfold Machine.schedule
  generalize m.elapse stepTime = m, n.elapse stepTime = n at hm ⊢
  dsimp only
  have hturn := hm.turn?
  generalize m.turn? = a, n.turn? = b at hturn
  cases hturn with
  | some hturn => exact ⟨rfl, hturn⟩
  | none =>
    dsimp only
    rw [earliest?_eq hm.alive, hm.clock]
    split
    · have hlater := hm.elapse (‹Nat› - n.clock + wakeDelay)
      exact ⟨rfl, hlater.turn?.getD hlater⟩
    · have halive := hm.alive
      generalize m.alive = q, n.alive = q' at halive
      cases halive with
      | nil => exact ⟨rfl, hm⟩
      | cons => exact ⟨rfl, hm.deadlocked⟩

/-! ## Dropping -/

theorem Like.resetFiber (hm : m.Like β n) : m.resetFiber.Like β n.resetFiber := by
  obtain ⟨ht, hh, hlast⟩ := hm.running.reset hm.heap
  exact (hm.withHeap hh hlast).withFiber ht.like ht.cells

theorem dropFiber_like (ht : t.Fits β h u) (hh : h.Like β h') :
    (dropFiber h t).Like β (dropFiber h' u) ∧
      ∀ r, h.Has r .upvalue → (dropFiber h t).Has r .upvalue := by
  obtain ⟨-, hreset, hlast⟩ := ht.reset hh
  obtain ⟨hhandle, hlast'⟩ := hreset.modifyHandle ht.like.handle
    (f := fun handle => { handle with status := .aborted })
    (g := fun handle => { handle with status := .aborted }) fun _ _ h => { h with status := rfl }
  exact ⟨hhandle, fun r hr => hlast' r (hlast r hr)⟩

/-- By induction on the queue; no cell is lost on the way. -/
theorem foldl_dropFiber_like {q q' : List Fiber} (hq : List.Forall₂ (Fiber.Fits β h) q q')
    (hh : h.Like β h') : (q.foldl dropFiber h).Like β (q'.foldl dropFiber h') ∧
      ∀ r, h.Has r .upvalue → (q.foldl dropFiber h).Has r .upvalue := by
  induction q generalizing q' h h' with
  | nil =>
    cases hq
    exact ⟨hh, fun _ hr => hr⟩
  | cons t q ih =>
    cases hq with
    | cons ht hq =>
      obtain ⟨hdropped, hlast⟩ := dropFiber_like ht hh
      obtain ⟨hrest, hlast'⟩ := ih (hq.imp fun _ _ ht => ht.mono le_rfl hlast) hdropped
      exact ⟨hrest, fun r hr => hlast' r (hlast r hr)⟩

theorem Like.dropOthers (hm : m.Like β n) : m.dropOthers.Like β n.dropOthers := by
  obtain ⟨hh, hlast⟩ := foldl_dropFiber_like hm.waiting hm.heap
  have hdropped := hm.withHeap hh hlast
  exact hdropped.withFibers hdropped.running .nil

theorem Like.abandon (hm : m.Like β n) : m.abandon.Like β n.abandon := by
  have hdropped := hm.dropOthers.resetFiber
  unfold Machine.abandon
  dsimp only
  rw [hdropped.fiber.id]
  split
  · exact hdropped.modifyHandle hdropped.mainHandle fun _ _ h => { h with status := rfl }
  · exact hdropped

/-! ## Texts of errors -/

section Trace

variable (hm : m.Like β n) {f g : Frame} (hf : f.Like β g)
include hm hf

theorem Like.framePrototype? : Option.Rel (Prototype.Like β)
    ((m.heap.closure? f.closure).bind fun c => m.heap.prototype? c.prototype)
    ((n.heap.closure? g.closure).bind fun c => n.heap.prototype? c.prototype) :=
  (hm.heap.closure? hf.closure).bind fun _ _ hc => hm.heap.prototype? hc.prototype

omit hm in
theorem frameLine_eq : f.line = g.line := by
  unfold Frame.line Chunk.lineAt
  rw [hf.ip, hf.chunk.lines]

/-- A line of a trace has a name, a number and a path in it, and no reference. -/
theorem Like.traceLine_eq (message : String) : m.traceLine f message = n.traceLine g message := by
  have hprototype := hm.framePrototype? hf
  have hpackage := hf.package.bind fun _ _ hr => hm.heap.package? hr
  unfold Machine.traceLine
  dsimp only
  rw [frameLine_eq hf]
  generalize Option.bind _ (fun c : Closure => m.heap.prototype? c.prototype) = p,
    Option.bind _ (fun c : Closure => n.heap.prototype? c.prototype) = q at hprototype ⊢
  have hname := hprototype.bind fun _ _ hp => hp.name
  have hpath := hprototype.bind fun _ _ hp => hp.path
  rw [hpath.eq_of_forall fun _ _ hr => hm.heap.name_eq hr]
  generalize p.bind (·.name) = a, q.bind (·.name) = b at hname ⊢
  cases hname with
  | none => rfl
  | some hr =>
    dsimp only
    rw [hm.heap.name_eq hr]
    generalize f.package.bind _ = a, g.package.bind _ = b at hpackage
    cases hpackage with
    | none => rfl
    | some hp => rw [Option.elim_some, Option.elim_some, hm.heap.name_eq hp.name]

theorem Like.isScript_eq : m.isScript f = n.isScript g :=
  Option.Rel.isNone_eq ((hm.framePrototype? hf).bind fun _ _ hp => hp.name)

end Trace

theorem Like.tracedFrames (hm : m.Like β n) {fs gs : List Frame}
    (hfs : List.Forall₂ (Frame.Like β) fs gs) :
    List.Forall₂ (Frame.Like β) (m.tracedFrames fs) (n.tracedFrames gs) := by
  induction hfs with
  | nil => exact .nil
  | cons hf _ ih =>
    unfold Machine.tracedFrames
    rw [hm.isScript_eq hf]
    split
    · exact .cons hf .nil
    · exact .cons hf ih

theorem Like.stackTrace_eq (hm : m.Like β n) (message : String) :
    m.stackTrace message = n.stackTrace message := by
  unfold Machine.stackTrace
  rw [(hm.heap.task? hm.fiber.handle).eq_of_forall fun _ _ ht => hm.heap.name_eq ht.name,
    forall₂_map_eq (hm.tracedFrames hm.fiber.frames) fun _ _ hf => hm.traceLine_eq hf message]

/-- **`Like.runtimeError_eq`** — an error has the same text, line and trace. -/
theorem Like.runtimeError_eq (hm : m.Like β n) (message : String) :
    m.runtimeError message = n.runtimeError message := by
  have hline : m.fiber.frames.head?.map Frame.line = n.fiber.frames.head?.map Frame.line := by
    have hframes := hm.fiber.frames
    generalize m.fiber.frames = fs, n.fiber.frames = gs at hframes
    cases hframes with
    | nil => rfl
    | cons hf _ => exact congrArg some (frameLine_eq hf)
  unfold Machine.runtimeError
  rw [hm.stackTrace_eq, hline]

/-! ## Routing errors -/

/-- The message that the handler finds is interned, which may add a pair. -/
theorem Like.unwindTo (hm : m.Like β n) (handler : Handler) (message : String) :
    ∃ β', β ≤ β' ∧ (m.unwindTo handler message).Like β' (n.unwindTo handler message) := by
  -- two things happen to the heaps: cells are closed, which pairs nothing anew, and the message
  -- is interned, which may; the cells are still cells after both
  obtain ⟨ht, hh, hlast, hsub⟩ := hm.fiber.closeUpvalues hm.heap hm.running.cells handler.height
  obtain ⟨β', hβ, hr, hh'⟩ := hh.intern message
  have hkeeps := (hh.left.tidy.intern message).2.1
  have hlast' : ∀ r, m.heap.Has r .upvalue → Heap.Has _ r .upvalue := fun r hr =>
    let ⟨o, ho, hkind⟩ := hlast r hr
    ⟨o, hkeeps r o ho, hkind⟩
  have ht' := ht.mono hβ
  refine ⟨β', hβ, ?_⟩
  unfold Machine.unwindTo
  generalize m.fiber.closeUpvalues handler.height m.heap = closed,
    n.fiber.closeUpvalues handler.height n.heap = closed' at *
  obtain ⟨t, h⟩ := closed
  obtain ⟨u, h'⟩ := closed'
  dsimp only at *
  have hkept : List.Forall₂ (Frame.Like β') (keepFrames t.frames handler.depth)
      (keepFrames u.frames handler.depth) := by
    unfold keepFrames
    rw [ht'.frames.length_eq]
    exact List.forall₂_drop _ ht'.frames
  have hstack := (ht'.stack.shrink handler.height).push (.obj hr)
  refine (hm.grow hβ hh' hlast').withFiber { ht' with frames := ?_, stack := hstack }
    fun e he => hlast' _ (hm.running.cells e (hsub e he))
  generalize keepFrames t.frames handler.depth = fs, keepFrames u.frames handler.depth = gs at hkept
  cases hkept with
  | nil => exact .nil
  | cons hf hrest => exact .cons { hf with ip := rfl } hrest

/-- **`Like.raise`** — an error ends the run in the same way, or goes on at the same handler. -/
theorem Like.raise (hm : m.Like β n) (fault : Fault) :
    (m.raise fault).1 = (n.raise fault).1 ∧
      ∃ β', β ≤ β' ∧ (m.raise fault).2.Like β' (n.raise fault).2 := by
  by_cases he : fault.Catchable
  · have heq := hm.fiber.handlers
    cases hhandlers : m.fiber.handlers with
    | cons handler rest =>
      rw [raise_handled he hhandlers, raise_handled he (heq ▸ hhandlers)]
      have hrest : { m with fiber := { m.fiber with handlers := rest } }.Like β
          { n with fiber := { n.fiber with handlers := rest } } :=
        hm.withFiber { hm.fiber with handlers := rfl } hm.running.cells
      exact ⟨rfl, hrest.unwindTo handler fault.message⟩
    | nil =>
      by_cases hid : m.fiber.id = mainTask
      · rw [raise_main he hhandlers hid, raise_main he (heq ▸ hhandlers) (hm.fiber.id ▸ hid),
          hm.runtimeError_eq]
        exact ⟨rfl, β, le_rfl, hm.abandon⟩
      · rw [raise_uncaught he hhandlers hid, raise_uncaught he (heq ▸ hhandlers) (hm.fiber.id ▸ hid),
          hm.runtimeError_eq, hm.stderr]
        have hreported : { m with
            stderr := n.stderr ++ (n.runtimeError fault.message).text ++ "\n" }.Like β { n with
            stderr := n.stderr ++ (n.runtimeError fault.message).text ++ "\n" } :=
          { hm with stderr := rfl }
        exact ⟨rfl, β, le_rfl, hreported.resetFiber.finishTask .none⟩
  · cases fault with
    | uncompilable errors => exact ⟨rfl, β, le_rfl, hm.abandon⟩
    | stuck => exact ⟨rfl, β, le_rfl, hm⟩
    | endless => exact ⟨rfl, β, le_rfl, hm⟩
    | _ => exact (he trivial).elim

end Machine

/-! ## Tasks in instructions -/

namespace Exec

/-- The name, the handle and the fiber of the new task are new pairs, with the same id. -/
theorem Alike.spawn (hr : β.rel r s) : Alike β Pairing.rel (spawn r) (spawn s) := by
  refine Steady.get.bind fun m n hm => ?_
  rw [hm.lastTask]
  extract_lets id starts starts'
  have hstarts : Alike β Pairing.rel (starts ()) (starts' ()) := by
    refine Steady.bind (.modify fun m n hm => { hm with lastTask := rfl }) fun _ _ _ => ?_
    refine (Alike.intern _).bind fun β₁ a b hβ₁ hab => ?_
    have htask : (Obj.task ⟨a, id, .running, .none⟩).Like β₁ (.task ⟨b, id, .running, .none⟩) :=
      .task ⟨hab, rfl, rfl, .none⟩
    refine (Alike.alloc htask nofun).bind fun β₂ c d hβ₂ hcd => ?_
    have hr₂ := hβ₂ _ _ (hβ₁ _ _ hr)
    refine Steady.get.bind fun m n hm => (Steady.need (hm.heap.closure? hr₂)).bind fun e f hef => ?_
    refine Steady.get.bind fun m n hm => (Steady.need (hm.heap.prototype? hef.prototype)).bind
      fun p q hp => ?_
    refine Steady.bind (.modify fun m n hm => ?_) fun _ _ _ => .pure hcd
    refine hm.withFibers hm.running (List.rel_append hm.waiting (.cons ⟨?_, nofun⟩ .nil))
    exact ⟨rfl, hcd, Aligned.push (R := Value.Like β₂) .empty (.obj hr₂),
      .cons ⟨hr₂, hp.chunk, rfl, rfl, hef.package, rfl, .empty⟩ .nil, .nil, rfl, rfl⟩
  split
  · exact Steady.bind (R := fun _ _ => False) (.throw _) fun _ _ => False.elim
  · exact hstarts

/-- The task that is taken out of the queue has the same id. -/
theorem eraseP_like {q q' : List Fiber} (hq : List.Forall₂ (Fiber.Fits β h) q q') (id : Nat) :
    List.Forall₂ (Fiber.Fits β h) (q.eraseP fun t => t.id = id) (q'.eraseP fun t => t.id = id) := by
  induction hq with
  | nil => exact .nil
  | cons ht hq ih =>
    rw [List.eraseP_cons, List.eraseP_cons, ht.like.id, Bool.cond_eq_ite, Bool.cond_eq_ite]
    split
    · exact hq
    · exact .cons ht ih

/-- Ids are the same in both machines, and so the same task is found. -/
theorem Alike.abort (hr : β.rel r s) : Alike β Done (abort r) (abort s) := by
  refine Steady.get.bind fun m n hm => (Steady.need (hm.heap.task? hr)).bind fun a b hab => ?_
  rw [hab.id]
  extract_lets id drop drop'
  have hdrop : Alike β Done (drop ()) (drop' ()) := by
    refine .of_get fun m n hm => ?_
    have hfound := find?_rel hm.waiting (p := fun t => decide (t.id = id))
      (q := fun t => decide (t.id = id)) fun t u ht => by rw [ht.like.id]
    generalize m.queue.find? _ = a, n.queue.find? _ = b at hfound
    cases hfound with
    | none => exact .ok le_rfl hm trivial
    | some ht =>
      obtain ⟨-, hh, hlast⟩ := ht.reset hm.heap
      have hreset := hm.withHeap hh hlast
      exact .ok le_rfl ((hreset.withFibers hreset.running (eraseP_like hreset.waiting id)).endTask hr
        id .aborted .none) trivial
  refine Steady.get.bind fun m n hm => ?_
  rw [hm.fiber.id]
  split
  · exact Steady.bind (R := fun _ _ => False) (.throw _) fun _ _ => False.elim
  · exact hdrop

/-- The handle says on both sides whether the task still runs. -/
theorem Alike.awaitTask : Alike β Done awaitTask awaitTask := by
  refine (Steady.peek 0).bind fun v w hv => ?_
  cases hv with
  | @obj r s hr =>
    refine Steady.get.bind fun m n hm => ?_
    have htask := hm.heap.task? hr
    generalize m.heap.task? r = a, n.heap.task? s = b at htask
    cases htask with
    | none => exact .throw _
    | some ht =>
      dsimp only
      rw [ht.status, ht.id]
      split
      · refine Steady.get.bind fun m n hm => ?_
        rw [hm.fiber.id]
        split
        · exact .throw _
        · refine Steady.bind (.modifyFiber (fun t u ht => { ht with state := rfl }) fun _ => rfl)
            fun _ _ _ => (Steady.modifyIp _).done
      · exact (Steady.replaceTop 1 ht.result).done
      · exact (Steady.replaceTop 1 .none).done
  | _ => exact .throw _

end Exec

end ScriptMachine
