import Mathlib
import ScriptMachine.Machine.Calls
import ScriptMachine.Proofs.Machine.Capturing
import ScriptMachine.Proofs.Renaming.Ancestry
import ScriptMachine.Proofs.Renaming.Stack

/-!
# ScriptMachine.Proofs.Renaming.Calls — variables, names and activations on like machines

A captured variable has like values on like machines, a bare name is bound at the same place, a call
enters the same code and a return leaves like results.

Every lemma has the form `Alike` or `Steady` for one operation of the machine, with like arguments, and is
put together from those on operands and frames. Where a name is bound is compared as a place
(`Binding.Like`), so that assigning it is the same change of a like object.
-/

namespace ScriptMachine

variable {β : Pairing} {v w : Value} {r s : Ref} {k l : Key}

/-! ## Captured variables -/

/-- A shared slot has its cell on both sides or on neither, and the cells are paired. -/
theorem CellsLike.lookup {cells cells' : List (Nat × Ref)} (hl : CellsLike β cells cells')
    (slot : Nat) : Option.Rel β.rel (cells.lookup slot) (cells'.lookup slot) := by
  induction hl with
  | nil => exact .none
  | @cons e f cells cells' hef _ ih =>
    obtain ⟨slot₁, cell⟩ := e
    obtain ⟨slot₂, cell'⟩ := f
    obtain ⟨(rfl : slot₁ = slot₂), hcell⟩ := hef
    rw [List.lookup_cons, List.lookup_cons]
    split
    · exact .some hcell
    · exact ih

namespace Exec

/-- The lists of shared slots are sorted by slots, which are numbers, so a new one goes to the same
place. -/
theorem insertOpen_like {cells cells' : List (Nat × Ref)} (hl : CellsLike β cells cells')
    (slot : Nat) (hr : β.rel r s) :
    CellsLike β (insertOpen slot r cells) (insertOpen slot s cells') := by
  induction hl with
  | nil => exact .cons ⟨rfl, hr⟩ .nil
  | @cons e f cells cells' hef hl ih =>
    unfold insertOpen
    rw [hef.1]
    split
    · exact .cons ⟨rfl, hr⟩ (.cons ⟨rfl, hef.2⟩ hl)
    · exact .cons ⟨rfl, hef.2⟩ ih

theorem Steady.closeUpvalues (slot : Nat) :
    Steady β (fun _ _ => True) (closeUpvalues slot) (closeUpvalues slot) :=
  .modify fun m n hm => by
    obtain ⟨ht, hh, hlast, hsub⟩ := hm.fiber.closeUpvalues hm.heap (hm.cells _ (.inl rfl)) slot
    exact (hm.withHeap hh hlast).withFiber ht fun e he =>
      hlast _ (hm.cells _ (.inl rfl) e (hsub e he))

/-- A variable is captured in the cell it has, or in a new one. -/
theorem Alike.captureSlot (slot : Nat) :
    Alike β Pairing.rel (captureSlot slot) (captureSlot slot) := by
  unfold Exec.captureSlot
  refine .of_get fun m n hm => ?_
  have hlookup := hm.fiber.openUpvalues.lookup slot
  generalize m.fiber.openUpvalues.lookup slot = a, n.fiber.openUpvalues.lookup slot = b at hlookup
  cases hlookup with
  | some hr => exact .ok le_rfl hm hr
  | none =>
    rw [hm.fiber.id]
    have hlike : (Obj.upvalue (.onStack n.fiber.id slot)).Like β (.upvalue (.onStack n.fiber.id slot)) :=
      .upvalue (.onStack ..)
    obtain ⟨β', hβ, hr, hh⟩ := hm.heap.alloc hlike nofun
    have hkeeps : ∀ r, m.heap.Has r .upvalue →
        (m.heap.alloc (.upvalue (.onStack n.fiber.id slot))).2.Has r .upvalue :=
      fun r ⟨p, hp, hkind⟩ => ⟨p, hm.heap.left.tidy.keeps_alloc _ r p hp, hkind⟩
    have hgrown := hm.grow hβ hh hkeeps
    have hopen := insertOpen_like hgrown.fiber.openUpvalues slot hr
    refine .ok hβ (hgrown.withFiber { hgrown.fiber with openUpvalues := hopen } fun e he => ?_) hr
    rcases mem_insertOpen.mp he with rfl | he
    · exact ⟨_, hm.heap.left.tidy.get?_alloc_self _, rfl⟩
    · exact hkeeps _ (hm.cells _ (.inl rfl) e he)

/-- A task is found by its id, which is the same on both sides. -/
theorem fiberOf?_like {m n : Machine} (hm : m.Like β n) (task : Nat) :
    Option.Rel (Fiber.Like β) (fiberOf? m task) (fiberOf? n task) := by
  unfold fiberOf?
  rw [hm.fiber.id]
  split
  · exact .some hm.fiber
  · exact find?_rel hm.queue fun t u ht => by rw [ht.id]

theorem Steady.readUpvalue (hr : β.rel r s) :
    Steady β (Value.Like β) (readUpvalue r) (readUpvalue s) := by
  refine Steady.get.seq fun m n hm => (Steady.need (hm.heap.upvalue? hr)).seq fun u u' hu => ?_
  cases hu with
  | closed hv => exact .pure hv
  | onStack task slot =>
    exact .pure (((fiberOf?_like hm task).bind fun _ _ ht => ht.stack.getElem? slot).getD .none)

/-- The variable is on the stack of the same task, or closed, on both sides. -/
theorem Steady.writeUpvalue (hr : β.rel r s) (hv : v.Like β w) :
    Steady β (fun _ _ => True) (writeUpvalue r v) (writeUpvalue s w) := by
  unfold Exec.writeUpvalue
  refine Alike.of_get fun m n hm => ?_
  have hu := hm.heap.upvalue? hr
  generalize hcell : m.heap.upvalue? r = a, n.heap.upvalue? s = b at hu
  cases hu with
  | none => exact .error le_rfl hm
  | some hu =>
    cases hu with
    | closed _ =>
      -- the cell is the cell of a variable already
      have hkind : ∀ o, m.heap.get? r = some o → o.kind = .upvalue := by
        intro o ho
        rw [Option.some.inj (ho.symm.trans (Heap.upvalue?_eq_some.mp hcell))]
        rfl
      have hmodify := hm.heap.modify hr (f := fun _ => .upvalue (.closed v))
        (g := fun _ => .upvalue (.closed w)) (fun _ _ _ _ => .upvalue (.closed hv))
        fun o ho => ⟨(hkind o ho).symm, fun hstring => by
          rw [hkind o ho] at hstring
          cases hstring⟩
      exact .ok le_rfl (hm.withHeap hmodify fun _ => has_modify fun o ho => (hkind o ho).symm)
        ⟨rfl, trivial⟩
    | onStack task slot =>
      change Agree _ β ((if m.fiber.id = task then _ else _ : Exec Unit) m)
        ((if n.fiber.id = task then _ else _ : Exec Unit) n)
      rw [hm.fiber.id]
      split
      · exact Steady.setStackAt slot hv m n hm
      · -- the variable is on the stack of a task that waits; what cells that stack has stays
        refine .ok le_rfl { hm with
          queue := List.rel_map (fun t u ht => ?_) hm.queue
          cells := fun t ht => ?_ } ⟨rfl, trivial⟩
        · by_cases hid : t.id = task
          · rw [if_pos hid, if_pos (ht.id ▸ hid)]
            exact { ht with stack := ht.stack.setIfInBounds slot hv }
          · rw [if_neg hid, if_neg (ht.id ▸ hid)]
            exact ht
        · rcases ht with rfl | ht
          · exact hm.cells _ (.inl rfl)
          · obtain ⟨t', ht', rfl⟩ := List.mem_map.mp ht
            have := hm.cells t' (.inr ht')
            split <;> exact this

end Exec

/-! ## Bare names -/

/-- The same place where a name is bound. -/
inductive Binding.Like (β : Pairing) : Binding → Binding → Prop
  | field {r s : Ref} (hr : β.rel r s) : Like β (.field r) (.field s)
  | static {r s : Ref} (hr : β.rel r s) : Like β (.static r) (.static s)
  | symbol {r s : Ref} (hr : β.rel r s) : Like β (.symbol r) (.symbol s)
  | global : Like β .global .global

namespace Machine

variable {m n : Machine} (hm : m.Like β n)
include hm

/-- The receiver is what the first slot of the activation refers to. -/
theorem Like.receiver? : Option.Rel (fun a b => β.rel a.1 b.1 ∧ a.2.Like β b.2) m.receiver?
    n.receiver? := by
  have hframes := hm.fiber.frames
  unfold Machine.receiver?
  generalize m.fiber.frames = fs, n.fiber.frames = gs at hframes
  cases hframes with
  | nil => exact .none
  | @cons f g _ _ hf _ =>
    dsimp only
    rw [hf.base]
    have hslot := hm.fiber.stack.getElem? g.base
    generalize m.fiber.stack[g.base]? = a, n.fiber.stack[g.base]? = b at hslot
    cases hslot with
    | none => exact .none
    | some hv =>
      cases hv with
      | obj hr => exact (hm.heap.instance? hr).map fun _ _ hi => ⟨hr, hi⟩
      | _ => exact .none

theorem Like.currentPackage : Option.Rel β.rel m.currentPackage n.currentPackage := by
  have hframes := hm.fiber.frames
  unfold Machine.currentPackage
  generalize m.fiber.frames = fs, n.fiber.frames = gs at hframes
  cases hframes with
  | nil => exact .none
  | cons hf _ => exact hf.package

/-- A name means the same thing on both sides, from the fields of the receiver out to the globals. -/
theorem Like.binding? (hk : k.Like β l) :
    Option.Rel (Binding.Like β) (m.binding? k) (n.binding? l) := by
  refine Option.Rel.or ?_ (Option.Rel.or ?_ ?_)
  · have hreceiver := hm.receiver?
    unfold receiverBinding?
    generalize m.receiver? = a, n.receiver? = b at hreceiver
    cases hreceiver with
    | none => exact .none
    | some hi =>
      dsimp only
      rw [hi.2.fields.contains_eq hk]
      split
      · exact .some (.field hi.1)
      · exact (hm.heap.staticOwner? hi.2.classRef hk).map fun _ _ hr => .static hr
  · have hpackage := hm.currentPackage
    unfold packageBinding?
    generalize m.currentPackage = a, n.currentPackage = b at hpackage
    cases hpackage with
    | none => exact .none
    | some hp =>
      exact (hm.heap.findPackage? (.some hp) hk).map fun _ _ he => .symbol he.1
  · rw [hm.globals.contains_eq hk]
    split
    · exact .some .global
    · exact .none

theorem Like.lookup? (hk : k.Like β l) :
    Option.Rel (Value.Like β) (m.lookup? k) (n.lookup? l) := by
  refine Option.Rel.or ?_ (Option.Rel.or ?_ (hm.globals.get? hk))
  · have hreceiver := hm.receiver?
    unfold receiverValue?
    generalize m.receiver? = a, n.receiver? = b at hreceiver
    cases hreceiver with
    | none => exact .none
    | some hi => exact (hi.2.fields.get? hk).or (hm.heap.static? hi.2.classRef hk)
  · exact hm.heap.searchPackages hm.currentPackage fun e f he => he.2.symbols.get? hk

/-- An object has changed. -/
theorem Like.modifyHeap (hr : β.rel r s) {f g : Obj → Obj}
    (hfg : ∀ o o', o.Like β o' → (f o).Like β (g o')) (hf : ∀ o, Heap.Tame o f) :
    { m with heap := m.heap.modify r f }.Like β { n with heap := n.heap.modify s g } :=
  hm.withHeap (hm.heap.modify hr (fun o o' _ => hfg o o') fun o _ => hf o)
    fun _ => Exec.has_modify fun o _ => (hf o).1

/-- By what the name means: what was found is what is changed. -/
theorem Like.rebind (hk : k.Like β l) (hv : v.Like β w) {b c : Binding} (hb : b.Like β c) :
    (m.rebind k v b).Like β (n.rebind l w c) := by
  cases hb with
  | field hr =>
    refine hm.modifyHeap hr (fun o o' ho => ?_) fun o => ?_
    · cases ho with
      | instanceObj hi => exact .instanceObj { hi with fields := hi.fields.set hk hv }
      | _ => constructor <;> assumption
    · cases o <;> exact ⟨rfl, fun _ => by trivial⟩
  | static hr =>
    refine hm.modifyHeap hr (fun o o' ho => ?_) fun o => ?_
    · cases ho with
      | classObj hc => exact .classObj { hc with statics := hc.statics.set hk hv }
      | _ => constructor <;> assumption
    · cases o <;> exact ⟨rfl, fun _ => by trivial⟩
  | symbol hr =>
    refine hm.modifyHeap hr (fun o o' ho => ?_) fun o => ?_
    · cases ho with
      | package hp => exact .package { hp with symbols := hp.symbols.set hk hv }
      | _ => constructor <;> assumption
    · cases o <;> exact ⟨rfl, fun _ => by trivial⟩
  | global => exact { hm with globals := hm.globals.set hk hv }

end Machine

namespace Exec

variable {α : Type}

/-- A search that finds like things ends alike. -/
theorem Steady.searched {R : α → α → Prop} {a b : Option α} (hr : β.rel r s)
    (hab : Option.Rel R a b) : Steady β (Option.Rel R) (searched r a) (searched s b) := by
  refine Steady.get.seq fun m n hm => ?_
  rw [hab.isNone_eq, hm.heap.ancestryEnds_eq hr]
  extract_lets found found'
  split
  · exact Steady.seq (R := fun _ _ => True) (.throw _) fun _ _ _ => .pure hab
  · exact .pure hab

/-- The search through the classes of the receiver ends on both sides or on neither. -/
theorem Steady.searchReceiver (hk : k.Like β l) :
    Steady β (fun _ _ => True) (searchReceiver k) (searchReceiver l) := by
  refine Steady.get.seq fun m n hm => ?_
  have hreceiver := hm.receiver?
  generalize m.receiver? = a, n.receiver? = b at hreceiver
  cases hreceiver with
  | none => exact .pure trivial
  | some hi =>
    dsimp only
    rw [hi.2.fields.contains_eq hk]
    split
    · exact .pure trivial
    · exact Steady.discard (.searched hi.2.classRef (hm.heap.staticOwner? hi.2.classRef hk))

theorem Alike.readGlobal? (hr : β.rel r s) :
    Alike β (fun β' => Option.Rel (Value.Like β')) (readGlobal? r) (readGlobal? s) := by
  refine Steady.get.bind fun m n hm => ?_
  by_cases hname : r = m.names.args
  · rw [if_pos hname, if_pos ((β.eq_iff hr hm.names.args).mp hname)]
    refine Steady.frame.bind fun f g hf => ?_
    exact (Alike.allocValue (.list hf.args) nofun).map fun _ _ _ _ hv => .some hv
  · rw [if_neg hname, if_neg fun h => hname ((β.eq_iff hr hm.names.args).mpr h)]
    refine (Steady.key hr).bind fun k l hk => (Steady.searchReceiver hk).bind fun _ _ _ => ?_
    exact Steady.get.bind fun m n hm => .pure (hm.lookup? hk)

theorem Alike.getGlobal (hr : β.rel r s) : Alike β Value.Like (getGlobal r) (getGlobal s) := by
  refine (Alike.readGlobal? hr).bind fun β' a b hβ hab => ?_
  cases hab with
  | some hv => exact .pure hv
  | none =>
    refine (Steady.nameText (hβ _ _ hr)).bind fun text _ htext => ?_
    rw [htext]
    exact .throw _

theorem Steady.setGlobal (hr : β.rel r s) (hv : v.Like β w) :
    Steady β (fun _ _ => True) (setGlobal r v) (setGlobal s w) := by
  refine (Steady.key hr).seq fun k l hk => (Steady.searchReceiver hk).seq fun _ _ _ => ?_
  refine Steady.get.seq fun m n hm => ?_
  have hbinding := hm.binding? hk
  generalize m.binding? k = a, n.binding? l = b at hbinding
  cases hbinding with
  | some hb => exact .modify fun _ _ hm => hm.rebind hk hv hb
  | none =>
    refine (Steady.nameText hr).seq fun text _ htext => ?_
    rw [htext]
    exact .throw _

theorem Steady.setSymbol (hr : β.rel r s) (hk : k.Like β l) (hv : v.Like β w) :
    Steady β (fun _ _ => True) (setSymbol r k v) (setSymbol s l w) :=
  .modify fun _ _ hm => hm.rebind hk hv (.symbol hr)

theorem Steady.define (hk : k.Like β l) (hv : v.Like β w) :
    Steady β (fun _ _ => True) (define k v) (define l w) := by
  refine Steady.frame.seq fun f g hf => ?_
  have hpackage := hf.package
  generalize f.package = a, g.package = b at hpackage
  cases hpackage with
  | some hr => exact .setSymbol hr hk hv
  | none => exact .setGlobalTable hk hv

end Exec

/-! ## The ends of tasks -/

namespace Machine

variable {m n : Machine} {t u : Fiber}

theorem Like.wakeFiber (ht : t.Like β u) (task : Nat) : (t.wake task).Like β (u.wake task) := by
  unfold Fiber.wake
  rw [ht.state]
  split
  · exact { ht with state := rfl }
  · exact ht

theorem openUpvalues_wake (t : Fiber) (task : Nat) : (t.wake task).openUpvalues = t.openUpvalues := by
  unfold Fiber.wake
  split <;> rfl

/-- The same tasks are woken, as they wait for the same id. -/
theorem Like.wakeWaiters (hm : m.Like β n) (task : Nat) :
    (m.wakeWaiters task).Like β (n.wakeWaiters task) :=
  { hm with
    fiber := Like.wakeFiber hm.fiber task
    queue := List.rel_map (R := Fiber.Like β) (P := Fiber.Like β)
      (fun _ _ ht => Like.wakeFiber ht task) hm.queue
    cells := by
      rintro t (rfl | ht) e he
      · exact hm.cells _ (.inl rfl) e (openUpvalues_wake m.fiber task ▸ he)
      · obtain ⟨u, hu, rfl⟩ := List.mem_map.mp ht
        exact hm.cells _ (.inr hu) e (openUpvalues_wake u task ▸ he) }

/-- Handles change alike. -/
theorem Like.modifyHandle (hm : m.Like β n) (hr : β.rel r s) {f g : TaskHandle → TaskHandle}
    (hfg : ∀ t u, t.Like β u → (f t).Like β (g u)) :
    { m with heap := m.heap.modifyHandle r f }.Like β
      { n with heap := n.heap.modifyHandle s g } := by
  refine hm.modifyHeap hr (fun o o' ho => ?_) fun o => ?_
  · cases ho with
    | task ht => exact .task (hfg _ _ ht)
    | _ => constructor <;> assumption
  · cases o <;> exact ⟨rfl, fun _ => by trivial⟩

theorem Like.endTask (hm : m.Like β n) (hr : β.rel r s) (id : Nat) (status : TaskStatus)
    (hv : v.Like β w) : (m.endTask id r status v).Like β (n.endTask id s status w) := by
  have hhandle := hm.modifyHandle hr (f := fun t => { t with status, result := v })
    (g := fun t => { t with status, result := w }) fun t u ht =>
      { ht with status := rfl, result := hv }
  unfold Machine.endTask
  refine Like.wakeWaiters ?_ id
  refine { hhandle with mainResult := ?_ }
  split
  · exact .some hv
  · exact hm.mainResult

theorem Like.finishTask (hm : m.Like β n) (hv : v.Like β w) :
    (m.finishTask v).Like β (n.finishTask w) := by
  unfold Machine.finishTask
  rw [hm.fiber.id]
  exact hm.endTask hm.fiber.handle _ _ hv

end Machine

/-! ## Calls and returns -/

namespace Exec

theorem Steady.guardDepth : Steady β (fun _ _ => True) guardDepth guardDepth := by
  refine Steady.get.seq fun m n hm => ?_
  rw [hm.config.maxFrames, hm.fiber.frames.length_eq]
  split
  · exact .throw _
  · exact .pure trivial

theorem Steady.enter {f g : Frame} (hf : f.Like β g) :
    Steady β (fun _ _ => True) (enter f) (enter g) :=
  .modifyFiber (fun _ _ ht => { ht with frames := .cons hf ht.frames }) fun _ => rfl

theorem fitArguments_like {xs ys : Array Value} (hs : Aligned (Value.Like β) xs ys)
    (first arity : Nat) :
    Aligned (Value.Like β) (fitArguments first arity xs) (fitArguments first arity ys) := by
  unfold fitArguments
  rw [hs.size_eq]
  dsimp only
  split
  · exact hs.append (.replicate .none _)
  · exact hs.shrink _

/-- The activation that is entered has like code, and arguments that are fitted alike. -/
theorem Steady.callClosure (hr : β.rel r s) (argc : Nat) :
    Steady β (fun _ _ => True) (callClosure r argc) (callClosure s argc) := by
  refine Steady.guardDepth.seq fun _ _ _ => Steady.get.seq fun m n hm => ?_
  refine (Steady.need (hm.heap.closure? hr)).seq fun c d hc => Steady.get.seq fun m n hm => ?_
  refine (Steady.need (hm.heap.prototype? hc.prototype)).seq fun p q hp => ?_
  refine Steady.height.seq fun height _ hheight => ?_
  subst hheight
  extract_lets first enterWith enterWith'
  have henter : ∀ args args', Aligned (Value.Like β) args args' →
      Steady β (fun _ _ => True) (enterWith args) (enterWith' args') := by
    intro args args' hargs
    refine Steady.seq (.modifyStack fun _ _ hs => ?_) fun _ _ _ => .enter ?_
    · rw [hp.arity]
      exact fitArguments_like hs _ _
    · exact ⟨hr, hp.chunk, rfl, rfl, hc.package, rfl, hargs⟩
  unfold readsArgs
  rw [hp.chunk.code]
  split
  · exact (Steady.valuesFrom _).seq henter
  · exact (Steady.pure .empty).seq henter

/-- A cell that is made for a slot is a new pair. -/
theorem Alike.captureCell {f g : Frame} (hf : f.Like β g) (c : Capture) :
    Alike β Pairing.rel (captureCell f c) (captureCell g c) := by
  unfold Exec.captureCell
  rw [hf.base]
  split
  · exact .captureSlot _
  · refine Steady.get.bind fun m n hm => ?_
    refine (Steady.need (hm.heap.closure? hf.closure)).bind fun c' d' hc => ?_
    exact (Steady.need (hc.upvalues.getElem? _)).alike fun _ _ => id

/-- Capturing may add pairs, one variable after the other, before the closure itself is added. -/
theorem Alike.makeClosure (hr : β.rel r s) (captures : List Capture) :
    Alike β Done (makeClosure r captures) (makeClosure s captures) := by
  refine Steady.frame.bind fun f g hf => ?_
  have hsame : List.Forall₂ (· = ·) captures captures := List.forall₂_same.mpr fun _ _ => rfl
  have hcells := Alike.mapM (R := fun _ => (· = ·)) (S := Pairing.rel) (f := Exec.captureCell f)
    (g := Exec.captureCell g) (fun _ h => h) (fun hβ h => hβ _ _ h) hsame
    fun β' c _ hβ hc => hc ▸ Alike.captureCell (hf.mono hβ) c
  refine hcells.bind fun β₁ rs ss hβ₁ hrs => ?_
  have hlike : (Obj.closure ⟨r, rs.toArray, f.package⟩).Like β₁
      (.closure ⟨s, ss.toArray, g.package⟩) :=
    .closure ⟨hβ₁ _ _ hr, hrs, hf.package.mono fun _ _ _ => hβ₁ _ _⟩
  exact (Alike.allocValue hlike nofun).bind fun β₂ v w _ hv =>
    (Steady.push hv).alike fun _ _ h => h

/-- The variables are closed, the handlers of the activation go, and the result is pushed or ends
the task. -/
theorem Steady.returnFromFrame :
    Steady β (fun _ _ => True) returnFromFrame returnFromFrame := by
  -- like frames start at the same height and are of one kind, so both calls clear the same slots
  -- and take the same way back
  refine Steady.pop.seq fun v w hv => Steady.frame.seq fun f g hf => ?_
  rw [hf.base]
  refine Steady.seq (.modifyFiber (fun t u ht => ?_) fun _ => rfl) fun _ _ _ => ?_
  · refine { ht with frames := ?_ }
    have hframes := ht.frames
    generalize t.frames = fs, u.frames = gs at hframes
    cases hframes with
    | nil => exact .nil
    | cons _ hrest => exact hrest
  refine (Steady.closeUpvalues _).seq fun _ _ _ => ?_
  refine Steady.seq (.modifyFiber (fun t u ht => ?_) fun _ => rfl) fun _ _ _ => ?_
  · refine { ht with handlers := ?_ }
    rw [ht.frames.length_eq, ht.handlers]
  refine (Steady.truncate _).seq fun _ _ _ => Steady.get.seq fun m n hm => ?_
  rw [hm.fiber.isDone_eq]
  split
  · exact .modify fun _ _ hm => hm.finishTask hv
  · rw [hf.kind]
    split
    · exact .push hv
    · refine .push ?_
      have hpackage := hf.package
      generalize f.package = a, g.package = b at hpackage
      cases hpackage with
      | some hr => exact .obj hr
      | none => exact .none
    · exact .pure trivial

end Exec

end ScriptMachine
