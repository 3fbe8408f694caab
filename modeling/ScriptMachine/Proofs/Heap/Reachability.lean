import Mathlib
import ScriptMachine.Heap.Collection
import ScriptMachine.Proofs.Heap.Soundness

/-!
# ScriptMachine.Proofs.Heap.Reachability — what a collection keeps

`Reach` is what can be reached from the roots by following references. A collection keeps exactly
that, each object as it was, and frees every other slot: marking visits what is reachable and nothing
else, and the sweep removes what is not marked.

Marking works off a list, and it ends because each pass either marks an object or shortens the list; the
induction is along that. `Marks` is what holds between the cells before and after: what was marked stays
marked, what is marked newly was reachable from the list, and what a newly marked object refers to is
marked too. Both inclusions of `Unmarked.isMarkedIn_markFrom` follow from it, and a sweep keeps just
what is marked.

The second half says what a collection does to the relations between heaps: it is calm, it evolves on
what is reachable, and it leaves a healthy heap healthy, since everything a reachable object refers to
is reachable as well.
-/

namespace ScriptMachine

/-- **`Reach look roots r`** — `r` is a root, or what something reachable refers to. -/
inductive Reach (look : Ref → Option Obj) (roots : List Ref) : Ref → Prop
  | root {r : Ref} (hr : r ∈ roots) : Reach look roots r
  | follow {r r' : Ref} {o : Obj} (hr : Reach look roots r) (ho : look r = some o)
      (hr' : r' ∈ o.references) : Reach look roots r'

/-- More roots reach more. -/
theorem Reach.of_roots {look : Ref → Option Obj} {roots roots' : List Ref} {r : Ref}
    (h : Reach look roots r) (hroots : ∀ r ∈ roots, Reach look roots' r) : Reach look roots' r := by
  induction h with
  | root hr => exact hroots _ hr
  | follow _ ho hr' ih => exact .follow ih ho hr'

namespace Heap

/-! ## Marking -/

/-- The object at a slot of some cells. -/
def objectAt (cells : Array (Option Cell)) (r : Ref) : Option Obj :=
  (cells.getD r.index none).map Cell.obj

theorem get?_eq_objectAt (h : Heap) : h.get? = objectAt h.cells :=
  funext fun r => h.get?_eq r

section Set

variable {cells : Array (Option Cell)} {r : Ref} {c : Cell} (hlt : r.index < cells.size)
  (hc : cells[r.index] = some c)
include hc

/-- Marking changes one cell. -/
theorem getD_mark (r' : Ref) :
    (cells.set r.index (some { c with marked := true }) hlt).getD r'.index none =
      if r' = r then some { c with marked := true } else cells.getD r'.index none := by
  rw [Array.getD_eq_getD_getElem?, Array.getD_eq_getD_getElem?, Array.getElem?_set]
  by_cases heq : r' = r
  · subst heq
    simp
  · have hne : r.index ≠ r'.index := fun hi => heq (by cases r; cases r'; cases hi; rfl)
    rw [if_neg hne, if_neg heq]

/-- A mark changes no object. -/
theorem objectAt_mark (r' : Ref) :
    objectAt (cells.set r.index (some { c with marked := true }) hlt) r' = objectAt cells r' := by
  unfold objectAt
  rw [getD_mark hlt hc]
  split
  · rename_i heq
    subst heq
    simp [Array.getD_eq_getD_getElem?, hlt, hc]
  · rfl

theorem isMarkedIn_mark (r' : Ref) :
    isMarkedIn (cells.set r.index (some { c with marked := true }) hlt) r' = true ↔
      r' = r ∨ isMarkedIn cells r' = true := by
  unfold isMarkedIn
  rw [getD_mark hlt hc]
  by_cases heq : r' = r <;> simp [heq]

end Set

/-- What marking from a work list does to the cells. -/
structure Marks (cells : Array (Option Cell)) (work : List Ref) (out : Array (Option Cell)) :
    Prop where
  size : out.size = cells.size
  object : ∀ r, objectAt out r = objectAt cells r
  marked : ∀ r, isMarkedIn cells r = true → isMarkedIn out r = true
  visited : ∀ r ∈ work, ∀ o, objectAt cells r = some o → isMarkedIn out r = true
  /-- what a newly marked object refers to is marked too -/
  closed : ∀ r o, isMarkedIn out r = true → isMarkedIn cells r = false → objectAt cells r = some o →
    ∀ r' ∈ o.references, ∀ o', objectAt cells r' = some o' → isMarkedIn out r' = true
  reached : ∀ r, isMarkedIn out r = true →
    isMarkedIn cells r = true ∨ Reach (objectAt cells) work r

/-- A reference that needs no marking. -/
theorem Marks.skip {cells out : Array (Option Cell)} {r : Ref} {rest : List Ref}
    (hm : Marks cells rest out) (hr : ∀ o, objectAt cells r = some o → isMarkedIn cells r = true) :
    Marks cells (r :: rest) out where
  size := hm.size
  object := hm.object
  marked := hm.marked
  visited r' hr' o ho := by
    rcases List.mem_cons.mp hr' with rfl | hr'
    · exact hm.marked _ (hr o ho)
    · exact hm.visited r' hr' o ho
  closed := hm.closed
  reached r' hr' := (hm.reached r' hr').imp id fun h =>
    h.of_roots fun x hx => .root (List.mem_cons_of_mem _ hx)

/-- A reference to an object without a mark: it is marked, and what it refers to comes next. -/
theorem Marks.visit {cells out : Array (Option Cell)} {r : Ref} {rest : List Ref} {c : Cell}
    (hlt : r.index < cells.size) (hc : cells[r.index] = some c)
    (hm : Marks (cells.set r.index (some { c with marked := true }) hlt)
      (c.obj.references ++ rest) out) : Marks cells (r :: rest) out := by
  have hobject := objectAt_mark hlt hc
  have hmarks := isMarkedIn_mark hlt hc
  have hr : objectAt cells r = some c.obj := by
    simp [objectAt, Array.getD_eq_getD_getElem?, hlt, hc]
  have hlook : objectAt (cells.set r.index (some { c with marked := true }) hlt) = objectAt cells :=
    funext hobject
  refine ⟨by rw [hm.size, Array.size_set], fun r' => (hm.object r').trans (hobject r'),
    fun r' h => hm.marked r' ((hmarks r').mpr (.inr h)), fun r' hr' o ho => ?_,
    fun r' o hout hcells ho x hx o' ho' => ?_, fun r' hout => ?_⟩
  · rcases List.mem_cons.mp hr' with rfl | hr'
    · exact hm.marked _ ((hmarks _).mpr (.inl rfl))
    · exact hm.visited r' (List.mem_append_right _ hr') o ((hobject r').trans ho)
  · by_cases heq : r' = r
    · subst heq
      obtain rfl := Option.some.inj (hr.symm.trans ho)
      exact hm.visited x (List.mem_append_left _ hx) o' ((hobject x).trans ho')
    · refine hm.closed r' o hout ?_ ((hobject r').trans ho) x hx o' ((hobject x).trans ho')
      rw [Bool.eq_false_iff]
      intro hmark
      rcases (hmarks r').mp hmark with h | h
      · exact heq h
      · rw [h] at hcells
        cases hcells
  · rcases hm.reached r' hout with h | h
    · exact ((hmarks r').mp h).elim (fun h => .inr (.root (by simp [h]))) .inl
    · rw [hlook] at h
      refine .inr (h.of_roots fun x hx => ?_)
      rcases List.mem_append.mp hx with hx | hx
      · exact .follow (.root List.mem_cons_self) hr hx
      · exact .root (List.mem_cons_of_mem _ hx)

/-- By induction on the recursion of the marking. The work list covers whatever is marked and not
yet followed. -/
theorem marks_markFrom (cells : Array (Option Cell)) (work : List Ref) :
    Marks cells work (markFrom cells work) := by
  induction cells, work using markFrom.induct with
  | case1 cells =>
    -- nothing left to do
    rw [markFrom]
    exact ⟨rfl, fun _ => rfl, fun _ h => h, nofun,
      fun r o hout hcells => by simp [hcells] at hout, fun _ h => .inl h⟩
  | case2 cells r rest hlt hc ih =>
    -- a vacant slot
    rw [markFrom, dif_pos hlt]
    split
    · refine ih.skip fun o ho => ?_
      simp [objectAt, Array.getD_eq_getD_getElem?, hlt, hc] at ho
    · rename_i c hc'
      rw [hc] at hc'
      cases hc'
  | case3 cells r rest hlt c hc hmarked ih =>
    -- an object with a mark
    rw [markFrom, dif_pos hlt]
    split
    · rename_i hc'
      rw [hc] at hc'
      cases hc'
    · rename_i c' hc'
      obtain rfl := Option.some.inj (hc.symm.trans hc')
      rw [dif_pos hmarked]
      exact ih.skip fun o _ => by simp [isMarkedIn, Array.getD_eq_getD_getElem?, hlt, hc, hmarked]
  | case4 cells r rest hlt c hc hmarked ih =>
    -- an object without a mark: it gets one, and what it refers to comes next
    rw [markFrom, dif_pos hlt]
    split
    · rename_i hc'
      rw [hc] at hc'
      cases hc'
    · rename_i c' hc'
      obtain rfl := Option.some.inj (hc.symm.trans hc')
      rw [dif_neg hmarked]
      exact ih.visit hlt hc
  | case5 cells r rest hlt ih =>
    -- no slot at all
    rw [markFrom, dif_neg hlt]
    refine ih.skip fun o ho => ?_
    have hnone : cells[r.index]? = none := Array.getElem?_eq_none (Nat.le_of_not_lt hlt)
    simp [objectAt, Array.getD_eq_getD_getElem?, hnone] at ho

/-! ## Collecting -/

variable {h : Heap} {roots : List Ref} {r : Ref} {o : Obj}

/-- Without marks to begin with, exactly the reachable objects get one. -/
theorem Unmarked.isMarkedIn_markFrom (hu : h.Unmarked) :
    isMarkedIn (markFrom h.cells roots) r = true ↔ (∃ o, h.get? r = some o) ∧ Reach h.get? roots r := by
  have hm := marks_markFrom h.cells roots
  have hclear : ∀ r, isMarkedIn h.cells r = false := by
    intro r
    unfold isMarkedIn
    rw [Array.getD_eq_getD_getElem?]
    cases hc : h.cells[r.index]? with
    | none => rfl
    | some c =>
      cases c with
      | none => rfl
      | some c => exact hu _ c hc
  rw [get?_eq_objectAt]
  constructor
  · intro hmark
    refine ⟨?_, (hm.reached r hmark).resolve_left (by simp [hclear])⟩
    rw [← hm.object]
    unfold isMarkedIn at hmark
    unfold objectAt
    split at hmark
    · rename_i c hc
      exact ⟨c.obj, by rw [hc]; rfl⟩
    · cases hmark
  · rintro ⟨⟨o, ho⟩, hreach⟩
    induction hreach generalizing o with
    | root hr => exact hm.visited _ hr o ho
    | follow _ ho' hr' ih => exact hm.closed _ _ (ih _ ho') (hclear _) ho' _ hr' o ho

theorem getD_sweep (cells : Array (Option Cell)) (i : Nat) :
    (cells.map sweptCell).getD i none = sweptCell (cells.getD i none) := by
  rw [Array.getD_eq_getD_getElem?, Array.getD_eq_getD_getElem?, Array.getElem?_map]
  cases cells[i]? <;> rfl

/-- An object is there after a collection if it was marked. -/
theorem get?_collect_eq (h : Heap) (roots : List Ref) (r : Ref) :
    (h.collect roots).2.get? r =
      if isMarkedIn (markFrom h.cells roots) r then h.get? r else none := by
  have hobject := (marks_markFrom h.cells roots).object r
  rw [get?_eq_objectAt, get?_eq_objectAt, ← hobject]
  show ((Array.map sweptCell _).getD _ _).map _ = _
  rw [getD_sweep]
  unfold isMarkedIn objectAt
  cases (markFrom h.cells roots).getD r.index none with
  | none => rfl
  | some c =>
    by_cases hmarked : c.marked = true <;> simp [sweptCell, hmarked]

/-- **`get?_collect_of_reach`** — what is reachable stays as it is. -/
theorem Unmarked.get?_collect_of_reach (hu : h.Unmarked) (hr : Reach h.get? roots r) :
    (h.collect roots).2.get? r = h.get? r := by
  rw [get?_collect_eq]
  cases ho : h.get? r with
  | none => split <;> rfl
  | some o => rw [if_pos (hu.isMarkedIn_markFrom.mpr ⟨⟨o, ho⟩, hr⟩)]

/-- **`reach_of_get?_collect`** — what is still there was reachable. -/
theorem Unmarked.reach_of_get?_collect (hu : h.Unmarked) (ho : (h.collect roots).2.get? r = some o) :
    h.get? r = some o ∧ Reach h.get? roots r := by
  rw [get?_collect_eq] at ho
  split at ho
  · rename_i hmarked
    exact ⟨ho, (hu.isMarkedIn_markFrom.mp hmarked).2⟩
  · cases ho

/-- A collection leaves no marks. -/
theorem unmarked_collect (h : Heap) (roots : List Ref) : (h.collect roots).2.Unmarked := by
  intro i c hc
  change (Array.map sweptCell _)[i]? = _ at hc
  rw [Array.getElem?_map] at hc
  obtain ⟨x, -, hx⟩ := Option.map_eq_some_iff.mp hc
  cases x with
  | none => cases hx
  | some x =>
    simp only [sweptCell] at hx
    split at hx
    · rw [← Option.some.inj hx]
    · cases hx

/-- The slots that a sweep frees are vacant after it, and were taken before. -/
theorem mem_doomed {cells : Array (Option Cell)} {i : Nat} (hi : i ∈ doomed cells) :
    ∃ c, cells[i]? = some (some c) ∧ (cells.map sweptCell)[i]? = some none := by
  obtain ⟨hlt, hunmarked⟩ := List.mem_filter.mp hi
  have hlt : i < cells.size := List.mem_range.mp hlt
  rw [Array.getD_eq_getD_getElem?, Array.getElem?_eq_getElem hlt] at hunmarked
  rw [Array.getElem?_map, Array.getElem?_eq_getElem hlt]
  cases hc : cells[i] with
  | none => simp [hc, Cell.isUnmarked] at hunmarked
  | some c =>
    have hmarked : c.marked = false := by simpa [hc, Cell.isUnmarked] using hunmarked
    exact ⟨c, rfl, by simp [sweptCell, hmarked]⟩

/-- The slots that are freed are vacant, and none is listed twice. -/
theorem Tidy.collect (ht : h.Tidy) (roots : List Ref) : (h.collect roots).2.Tidy := by
  have hm := marks_markFrom h.cells roots
  -- a slot of the old free list was vacant, so marking left it vacant
  have hfree : ∀ i ∈ h.free, (markFrom h.cells roots)[i]? = some none := by
    intro i hi
    have hvacant := ht.vacant i hi
    have hlt : i < (markFrom h.cells roots).size := by
      rw [hm.size]
      exact (Array.getElem?_eq_some_iff.mp hvacant).1
    have hobject := hm.object ⟨i⟩
    simp only [objectAt, Array.getD_eq_getD_getElem?, hvacant, Array.getElem?_eq_getElem hlt] at hobject
    rw [Array.getElem?_eq_getElem hlt]
    simpa using hobject
  refine ⟨fun i hi => ?_, ?_⟩
  · show (Array.map sweptCell _)[i]? = some none
    rcases List.mem_append.mp hi with hi | hi
    · obtain ⟨_, _, h⟩ := mem_doomed (List.mem_reverse.mp hi)
      exact h
    · rw [Array.getElem?_map, hfree i hi]
      rfl
  · refine List.nodup_append.mpr ⟨?_, ht.distinct, ?_⟩
    · exact List.nodup_reverse.mpr (List.nodup_range.filter _)
    · rintro i hi j hj rfl
      obtain ⟨c, hc, -⟩ := mem_doomed (List.mem_reverse.mp hi)
      rw [hfree i hj] at hc
      cases hc

/-- Everything reachable stays as it is, so the heap evolves on it. -/
theorem Sound.evolvesOn_collect (hs : h.Sound) (roots : List Ref) :
    h.EvolvesOn (Reach h.get? roots) (h.collect roots).2 :=
  fun _ hr o ho => ⟨o, (hs.unmarked.get?_collect_of_reach hr).trans ho, rfl⟩

/-- What is still there after a collection is what it was. -/
theorem Sound.persists_collect (hs : h.Sound) (roots : List Ref) :
    h.Persists (h.collect roots).2 := by
  intro r o o' ho ho'
  have heq := (hs.unmarked.reach_of_get?_collect ho').1
  rw [Option.some.inj (ho.symm.trans heq)]

theorem Sound.calm_collect (hs : h.Sound) (roots : List Ref) : h.Calm (h.collect roots).2 where
  persists := hs.persists_collect roots
  abides := ⟨rfl, fun _ _ hn => native?_eq_some.mpr (hs.unmarked.reach_of_get?_collect (native?_eq_some.mp hn)).1⟩
  upvalues _ _ hu := upvalue?_eq_some.mpr (hs.unmarked.reach_of_get?_collect (upvalue?_eq_some.mp hu)).1
  tasks _ _ ht := task?_eq_some.mpr (hs.unmarked.reach_of_get?_collect (task?_eq_some.mp ht)).1

theorem Sound.collect (hs : h.Sound) (roots : List Ref) : (h.collect roots).2.Sound := by
  refine ⟨hs.tidy.collect roots, unmarked_collect h roots, fun r o ho => ?_⟩
  obtain ⟨ho, hreach⟩ := hs.unmarked.reach_of_get?_collect ho
  exact (hs.evolvesOn_collect roots).sound (hs.objects r o ho) fun r' hr' => .follow hreach ho hr'

theorem Healthy.collect (hh : h.Healthy) (roots : List Ref) : (h.collect roots).2.Healthy := by
  refine (hh.sound.persists_collect roots).healthy hh.sound (hh.sound.collect roots) fun r c hc => ?_
  exact hh.made r c
    (closure?_eq_some.mpr (hh.sound.unmarked.reach_of_get?_collect (closure?_eq_some.mp hc)).1)

end Heap

end ScriptMachine
