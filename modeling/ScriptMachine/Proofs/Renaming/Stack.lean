import Mathlib
import ScriptMachine.Machine.Upvalues
import ScriptMachine.Proofs.Renaming.Machine

/-!
# ScriptMachine.Proofs.Renaming.Stack — operands, frames and captured variables on like machines

The operations that instructions are made of. Reading and writing what a machine has is steady; only
allocating and interning bring new pairs.

Closing cells is the one operation here that changes several objects: cells are pairwise alike, and the
values that they take over are those of like slots (`Heap.Like.closeCells`).
-/

namespace ScriptMachine

variable {β : Pairing}

namespace Exec

variable {α : Type} {v w : Value} {r s : Ref}

theorem Steady.need {R : α → α → Prop} {a b : Option α} (hab : Option.Rel R a b) :
    Steady β R (need a) (need b) := by
  cases hab with
  | some hab => exact .pure hab
  | none => exact .throw _

/-- What is read off the machine. -/
theorem Steady.reads {R : α → α → Prop} {f g : Machine → α}
    (hfg : ∀ m n, m.Like β n → R (f m) (g n)) :
    Steady β R (do return f (← MonadState.get)) (do return g (← MonadState.get)) :=
  Steady.get.seq fun _ _ hm => .pure (hfg _ _ hm)

/-! ## The running fiber -/

theorem Steady.modifyFiber {f g : Fiber → Fiber} (hfg : ∀ t u, t.Like β u → (f t).Like β (g u))
    (hf : ∀ t, (f t).openUpvalues = t.openUpvalues) :
    Steady β (fun _ _ => True) (modifyFiber f) (modifyFiber g) :=
  .modify fun m n hm => hm.withFiber (hfg _ _ hm.fiber) (by
    rw [hf]
    exact hm.cells _ (.inl rfl))

theorem Steady.modifyStack {f g : Array Value → Array Value} (hfg : ∀ xs ys,
    Aligned (Value.Like β) xs ys → Aligned (Value.Like β) (f xs) (g ys)) :
    Steady β (fun _ _ => True) (modifyStack f) (modifyStack g) :=
  .modifyFiber (fun _ _ ht => { ht with stack := hfg _ _ ht.stack }) fun _ => rfl

theorem Steady.heap : Steady β (Heap.Like β) heap heap :=
  .reads fun _ _ hm => hm.heap

theorem Steady.push (hv : v.Like β w) : Steady β (fun _ _ => True) (push v) (push w) :=
  .modifyStack fun _ _ hs => hs.push hv

theorem Steady.height : Steady β (· = ·) height height :=
  .reads fun _ _ hm => hm.fiber.stack.size_eq

theorem Steady.stackAt (index : Nat) : Steady β (Value.Like β) (stackAt index) (stackAt index) :=
  Steady.get.seq fun _ _ hm => .need (hm.fiber.stack.getElem? index)

theorem Steady.peek (distance : Nat) :
    Steady β (Value.Like β) (peek distance) (peek distance) := by
  refine Steady.get.seq fun m n hm => ?_
  dsimp only
  rw [hm.fiber.stack.size_eq]
  split
  · exact .need (hm.fiber.stack.getElem? _)
  · exact .throw _

theorem Steady.pop : Steady β (Value.Like β) pop pop :=
  (Steady.peek 0).seq fun _ _ hv =>
    Steady.seq (.modifyStack fun _ _ hs => hs.pop) fun _ _ _ => .pure hv

theorem Steady.truncate (height : Nat) :
    Steady β (fun _ _ => True) (truncate height) (truncate height) :=
  .modifyStack fun _ _ hs => hs.shrink height

theorem Steady.drop (count : Nat) : Steady β (fun _ _ => True) (drop count) (drop count) :=
  .modifyStack fun xs ys hs => by
    rw [hs.size_eq]
    exact hs.shrink _

theorem Steady.replaceTop (count : Nat) (hv : v.Like β w) :
    Steady β (fun _ _ => True) (replaceTop count v) (replaceTop count w) :=
  (Steady.drop count).seq fun _ _ _ => .push hv

theorem Steady.setStackAt (index : Nat) (hv : v.Like β w) :
    Steady β (fun _ _ => True) (setStackAt index v) (setStackAt index w) :=
  .modifyStack fun _ _ hs => hs.setIfInBounds index hv

theorem Steady.valuesFrom (height : Nat) :
    Steady β (Aligned (Value.Like β)) (valuesFrom height) (valuesFrom height) :=
  .reads fun m n hm => by
    rw [hm.fiber.stack.size_eq]
    exact hm.fiber.stack.extract _ _

theorem Steady.frame : Steady β (Frame.Like β) frame frame := by
  refine Steady.get.seq fun m n hm => ?_
  have hframes := hm.fiber.frames
  generalize m.fiber.frames = fs, n.fiber.frames = gs at hframes
  cases hframes with
  | nil => exact .throw _
  | cons hf _ => exact .pure hf

theorem Steady.modifyIp (f : Nat → Nat) :
    Steady β (fun _ _ => True) (modifyIp f) (modifyIp f) := by
  refine .modifyFiber (fun t u ht => ?_) fun t => ?_
  · have hframes := ht.frames
    generalize hfs : t.frames = fs, hgs : u.frames = gs at hframes
    cases hframes with
    | nil => exact ht
    | cons hf hrest =>
      exact { ht with frames := .cons { hf with ip := congrArg f hf.ip } hrest }
  · cases t.frames <;> rfl

/-! ## The heap -/

theorem Alike.alloc {o o' : Obj} (hlike : o.Like β o') (ho : o.kind ≠ .string) :
    Alike β Pairing.rel (alloc o) (alloc o') :=
  .modifyGet fun _ _ hm => by
    obtain ⟨β', hβ, hr, hh⟩ := hm.heap.alloc hlike ho
    refine ⟨β', hβ, hr, hm.grow hβ hh fun r ⟨p, hp, hkind⟩ => ?_⟩
    exact ⟨p, hm.heap.left.tidy.keeps_alloc o r p hp, hkind⟩

theorem Alike.allocValue {o o' : Obj} (hlike : o.Like β o') (ho : o.kind ≠ .string) :
    Alike β Value.Like (allocValue o) (allocValue o') :=
  (Alike.alloc hlike ho).bind fun _ _ _ _ hr => .pure (.obj hr)

/-- A text that is interned on both sides is paired already, or it is a new pair. -/
theorem Alike.intern (text : String) : Alike β Pairing.rel (intern text) (intern text) :=
  .modifyGet fun _ _ hm => by
    obtain ⟨β', hβ, hr, hh⟩ := hm.heap.intern text
    refine ⟨β', hβ, hr, hm.grow hβ hh fun r ⟨p, hp, hkind⟩ => ?_⟩
    exact ⟨p, (hm.heap.left.tidy.intern text).2.1 r p hp, hkind⟩

theorem Alike.internValue (text : String) : Alike β Value.Like (internValue text) (internValue text) :=
  (Alike.intern text).bind fun _ _ _ _ hr => .pure (.obj hr)

/-- A change that no object takes for a change of its kind. -/
theorem has_modify {h : Heap} {f : Obj → Obj} {k : Kind} {r r' : Ref}
    (hf : ∀ o, h.get? r = some o → (f o).kind = o.kind) (hr : h.Has r' k) :
    (h.modify r f).Has r' k := by
  obtain ⟨o, ho, hkind⟩ := hr
  unfold Heap.Has
  rw [Heap.get?_modify]
  split
  · rename_i heq
    subst heq
    exact ⟨f o, by rw [ho]; rfl, (hf o ho).trans hkind⟩
  · exact ⟨o, ho, hkind⟩

/-- **`Steady.modifyHeap`** — paired objects change alike and keep their kind. -/
theorem Steady.modifyHeap (hr : β.rel r s) {f g : Obj → Obj}
    (hfg : ∀ o o', o.Like β o' → (f o).Like β (g o')) (hf : ∀ o, Heap.Tame o f) :
    Steady β (fun _ _ => True) (modifyHeap (·.modify r f)) (modifyHeap (·.modify s g)) :=
  .modify fun _ _ hm => hm.withHeap
    (hm.heap.modify hr (fun o o' _ => hfg o o') fun o _ => hf o)
    fun _ => has_modify fun o _ => (hf o).1

theorem Steady.key (hr : β.rel r s) : Steady β (Key.Like β) (key r) (key s) :=
  Steady.get.seq fun _ _ hm => .need (hm.heap.key? hr)

theorem Steady.nameText (hr : β.rel r s) : Steady β (· = ·) (nameText r) (nameText s) :=
  .reads fun _ _ hm => hm.heap.name_eq hr

theorem Steady.constant (index : Nat) :
    Steady β (Value.Like β) (constant index) (constant index) :=
  Steady.frame.seq fun _ _ hf => .need (hf.chunk.constants.getElem? index)

theorem Steady.nameConstant (index : Nat) :
    Steady β β.rel (nameConstant index) (nameConstant index) :=
  (Steady.constant index).seq fun _ _ hv => by
    cases hv with
    | obj hr => exact .pure hr
    | _ => exact .throw _

theorem Steady.setGlobalTable {k l : Key} (hk : k.Like β l) (hv : v.Like β w) :
    Steady β (fun _ _ => True) (setGlobalTable k v) (setGlobalTable l w) :=
  .modify fun _ _ hm => { hm with globals := hm.globals.set hk hv }

theorem Steady.write (text : String) : Steady β (fun _ _ => True) (write text) (write text) :=
  .modify fun _ _ hm => { hm with stdout := congrArg (· ++ text) hm.stdout }

end Exec

/-! ## Captured variables -/

section Cells

variable {t u : Fiber} {h h' : Heap} {l l' : List (Nat × Ref)} {stack stack' : Array Value}

/-- The cells at or above a slot are the same cells. -/
theorem CellsLike.span (hl : CellsLike β l l') (slot : Nat) :
    CellsLike β (l.span fun e => slot ≤ e.1).1 (l'.span fun e => slot ≤ e.1).1 ∧
      CellsLike β (l.span fun e => slot ≤ e.1).2 (l'.span fun e => slot ≤ e.1).2 := by
  rw [List.span_eq_takeWhile_dropWhile, List.span_eq_takeWhile_dropWhile]
  induction hl with
  | nil => exact ⟨.nil, .nil⟩
  | @cons e f l l' hef hl ih =>
    rw [List.takeWhile_cons, List.takeWhile_cons, List.dropWhile_cons, List.dropWhile_cons, hef.1]
    split
    · exact ⟨.cons hef ih.1, ih.2⟩
    · exact ⟨.nil, .cons hef hl⟩

/-- What closing cells does to the heap. -/
theorem Heap.Like.closeCells (hh : h.Like β h') (hl : CellsLike β l l')
    (hs : Aligned (Value.Like β) stack stack') (hcells : ∀ e ∈ l, h.Has e.2 .upvalue) :
    (Fiber.closeCells stack l h).Like β (Fiber.closeCells stack' l' h') ∧
      ∀ r, h.Has r .upvalue → (Fiber.closeCells stack l h).Has r .upvalue := by
  induction hl generalizing h h' with
  | nil => exact ⟨hh, fun _ => id⟩
  | @cons e f l l' hef hl ih =>
    obtain ⟨slot, cell⟩ := e
    obtain ⟨slot', cell'⟩ := f
    obtain ⟨(rfl : slot = slot'), hcell⟩ := hef
    have hupvalue : ∀ o, h.get? cell = some o → o.kind = .upvalue := by
      intro o ho
      obtain ⟨o', ho', hkind⟩ := hcells _ List.mem_cons_self
      rw [← hkind, Option.some.inj (ho.symm.trans ho')]
    have hkeeps : ∀ r, h.Has r .upvalue → (h.modify cell fun _ => .upvalue
        (.closed (stack.getD slot .none))).Has r .upvalue :=
      fun _ => Exec.has_modify fun o ho => (hupvalue o ho).symm
    have hmodify := hh.modify hcell
      (f := fun _ => .upvalue (.closed (stack.getD slot .none)))
      (g := fun _ => .upvalue (.closed (stack'.getD slot .none)))
      (fun _ _ _ _ => .upvalue (.closed (hs.getD slot .none)))
      fun o ho => ⟨(hupvalue o ho).symm, fun hstring => by
        rw [hupvalue o ho] at hstring
        cases hstring⟩
    obtain ⟨hlike, hlast⟩ := ih hmodify fun e he => hkeeps _ (hcells e (List.mem_cons_of_mem _ he))
    exact ⟨hlike, fun r hr => hlast r (hkeeps r hr)⟩

/-- By induction on the shared slots. A cell that is closed stays a cell, and both cells are closed
with like values. -/
theorem Fiber.Like.closeUpvalues (ht : t.Like β u) (hh : h.Like β h')
    (hcells : ∀ e ∈ t.openUpvalues, h.Has e.2 .upvalue) (slot : Nat) :
    (t.closeUpvalues slot h).1.Like β (u.closeUpvalues slot h').1 ∧
      (t.closeUpvalues slot h).2.Like β (u.closeUpvalues slot h').2 ∧
      (∀ r, h.Has r .upvalue → (t.closeUpvalues slot h).2.Has r .upvalue) ∧
      ∀ e ∈ (t.closeUpvalues slot h).1.openUpvalues, e ∈ t.openUpvalues := by
  have hopen := ht.openUpvalues
  unfold Fiber.closeUpvalues
  generalize hl : t.openUpvalues = l, hl' : u.openUpvalues = l' at hopen
  cases hopen with
  | nil => exact ⟨ht, hh, fun _ hr => hr, fun e he => hl ▸ he⟩
  | @cons e f l₁ l₁' hef hrest =>
    have hspan := CellsLike.span (.cons hef hrest) slot
    dsimp only [splitOpen]
    rw [hl, hl']
    have hsub : ∀ e' ∈ ((e :: l₁).span fun e => slot ≤ e.1).1 ++
        ((e :: l₁).span fun e => slot ≤ e.1).2, e' ∈ e :: l₁ := by
      rw [List.span_eq_takeWhile_dropWhile, List.takeWhile_append_dropWhile]
      exact fun _ he' => he'
    obtain ⟨hlike, hlast⟩ := hh.closeCells hspan.1 ht.stack fun e' he' =>
      hcells e' (hl ▸ hsub e' (List.mem_append_left _ he'))
    exact ⟨{ ht with openUpvalues := hspan.2 }, hlike, hlast,
      fun e' he' => hsub e' (List.mem_append_right _ he')⟩

end Cells

end ScriptMachine
