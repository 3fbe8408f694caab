import Mathlib
import ScriptMachine.Proofs.Heap.Reachability
import ScriptMachine.Proofs.Table.Probing

/-!
# ScriptMachine.Proofs.Heap.Representation — how the parts of a heap fit together

Slots, free list, marks, intern table and counts of a heap say the same thing in different ways.
`Change` is what can be done to a heap from outside, and a heap is `Built` when it has come about by
such changes. Slots, free list and counts agree in every such heap; the intern table moreover lists
exactly the live strings, as long as strings are made by interning alone.

`Built.orderly` is the result, by `Built.induction` from one lemma per operation. The count is the part
that takes an argument: an allocation takes one vacant slot, and a collection frees as many as it says
(`occupied_collect`), because a sweep keeps a slot or puts it on the free list. A heap of a machine is
built in this sense too, but the machine is not mentioned here.
-/

namespace ScriptMachine.Heap

variable {h h' : Heap} {r r' : Ref} {o : Obj} {direct : Obj → Prop} {roots : List Ref}

/-! ## What can be done to a heap -/

/-- **`Change direct h h'`** — one operation on a heap. The objects that are allocated or changed
directly satisfy `direct`. -/
inductive Change (direct : Obj → Prop) : Heap → Heap → Prop
  | alloc (h : Heap) {o : Obj} (ho : direct o) : Change direct h (h.alloc o).2
  | intern (h : Heap) (s : String) : Change direct h (h.intern s).2
  | mutate (h : Heap) (r : Ref) {f : Obj → Obj}
      (hf : ∀ o, h.get? r = some o → direct o ∧ direct (f o)) : Change direct h (h.modify r f)
  | pause (h : Heap) : Change direct h h.pause
  | resume (h : Heap) : Change direct h h.resume
  | collect (h : Heap) (roots : List Ref) : Change direct h (h.collect roots).2

/-- **`Built direct h`** — the heap has come about by such operations. -/
def Built (direct : Obj → Prop) (h : Heap) : Prop :=
  ∃ config, Relation.ReflTransGen (Change direct) (new config) h

/-- Strings are made by interning alone. -/
def NoString (o : Obj) : Prop :=
  o.kind ≠ .string

theorem Built.step (hb : Built direct h) (hc : Change direct h h') : Built direct h' :=
  let ⟨config, hrun⟩ := hb
  ⟨config, hrun.tail hc⟩

/-- What holds of a new heap and is kept by every operation holds of every heap. -/
theorem Built.induction {P : Heap → Prop} (hb : Built direct h) (hnew : ∀ config, P (new config))
    (hstep : ∀ h h', P h → Change direct h h' → P h') : P h := by
  obtain ⟨config, hrun⟩ := hb
  induction hrun with
  | refl => exact hnew config
  | tail _ hc ih => exact hstep _ _ ih hc

/-! ## Slots, free list and counts -/

/-- How many slots hold an object. -/
def occupied (h : Heap) : Nat :=
  h.cells.countP Option.isSome

/-- **`Orderly`** — the free list names exactly the vacant slots, each once, no object has a mark, and
as many objects are there as have been allocated and not freed. -/
structure Orderly (h : Heap) : Prop where
  tidy : h.Tidy
  complete : ∀ i : Nat, h.cells[i]? = some none → i ∈ h.free
  unmarked : h.Unmarked
  sized : h.free.length + h.occupied = h.cells.size
  counted : h.occupied + h.freed = h.allocated

theorem new_orderly (config : HeapConfig) : (new config).Orderly :=
  ⟨new_tidy config, by simp [new], new_unmarked config, rfl, rfl⟩

/-- A heap with other tables and thresholds. -/
theorem Orderly.congr (ho : h.Orderly) (hcells : h'.cells = h.cells) (hfree : h'.free = h.free)
    (hallocated : h'.allocated = h.allocated) (hfreed : h'.freed = h.freed) : h'.Orderly := by
  obtain ⟨⟨hvacant, hdistinct⟩, hcomplete, hunmarked, hsized, hcounted⟩ := ho
  unfold occupied at hsized hcounted
  refine ⟨⟨?_, ?_⟩, ?_, fun i c => ?_, ?_, ?_⟩
  all_goals simp only [occupied, hcells, hfree, hallocated, hfreed]
  · exact hvacant
  · exact hdistinct
  · exact hcomplete
  · exact hunmarked i c
  · exact hsized
  · exact hcounted

/-- By whether a freed slot is there to be taken. -/
theorem Orderly.alloc (hh : h.Orderly) (o : Obj) : (h.alloc o).2.Orderly := by
  have hsized := hh.sized
  have hcounted := hh.counted
  have htidy := hh.tidy.alloc o
  have hunmarked := hh.unmarked.alloc o
  unfold Heap.alloc at htidy hunmarked ⊢
  cases hfree : h.free with
  | nil =>
    -- without a vacant slot the heap grows by one
    rw [hfree] at hsized
    simp only [hfree] at htidy hunmarked ⊢
    have hcount : (h.cells.push (some ⟨o, false, o.byteSize⟩)).countP Option.isSome =
        h.occupied + 1 := by
      rw [Array.countP_push]
      rfl
    refine ⟨htidy, fun i hi => ?_, hunmarked, ?_, ?_⟩
    · dsimp only at hi
      rw [Array.getElem?_push] at hi
      split at hi
      · cases hi
      · exact absurd (hh.complete i hi) (by simp [hfree])
    · simp only [occupied, hcount, Array.size_push, ← hsized, List.length_nil]
      omega
    · simp only [occupied, hcount, ← hcounted]
      omega
  | cons i free =>
    -- the first vacant slot is taken, and leaves the free list
    obtain ⟨hlt, hget⟩ := Array.getElem?_eq_some_iff.mp (hh.tidy.vacant i (by simp [hfree]))
    rw [hfree] at hsized
    simp only [hfree] at htidy hunmarked ⊢
    have hcount : (h.cells.setIfInBounds i (some ⟨o, false, o.byteSize⟩)).countP Option.isSome =
        h.occupied + 1 := by
      rw [Array.setIfInBounds_def, dif_pos hlt, Array.countP_set hlt, hget]
      rfl
    refine ⟨htidy, fun j hj => ?_, hunmarked, ?_, ?_⟩
    · dsimp only at hj
      rw [Array.getElem?_setIfInBounds] at hj
      split at hj
      · cases hj
      · rename_i hne
        have hmem := hh.complete j hj
        rw [hfree] at hmem
        exact (List.mem_cons.mp hmem).resolve_left (Ne.symm hne)
    · simp only [occupied, hcount, Array.size_setIfInBounds, ← hsized, List.length_cons]
      omega
    · simp only [occupied, hcount, ← hcounted]
      omega

/-- A text that is there is found, and a new one is allocated and entered. -/
theorem Orderly.intern (hh : h.Orderly) (s : String) : (h.intern s).2.Orderly := by
  cases hr : h.interned? s (hashText s) with
  | some r =>
    rw [intern_of_some hr]
    exact hh
  | none =>
    rw [intern_of_none hr]
    exact (hh.alloc (.string s (hashText s))).congr rfl rfl rfl rfl

/-- Cells that are taken in the same places are as many. -/
theorem countP_isSome_congr {cells cells' : Array (Option Cell)}
    (h : ∀ i : Nat, cells'[i]?.map Option.isSome = cells[i]?.map Option.isSome) :
    cells'.countP Option.isSome = cells.countP Option.isSome := by
  have hmap : cells'.map Option.isSome = cells.map Option.isSome :=
    Array.ext_getElem? fun i => by rw [Array.getElem?_map, Array.getElem?_map, h]
  have hcount : ∀ xs : Array (Option Cell),
      xs.countP Option.isSome = (xs.map Option.isSome).countP id := fun xs => by
    rw [Array.countP_map]
    rfl
  rw [hcount, hmap, ← hcount]

/-- The cell keeps its place and its size is charged anew. -/
theorem Orderly.modify (hh : h.Orderly) (r : Ref) (f : Obj → Obj) : (h.modify r f).Orderly := by
  have hsome : ∀ i : Nat, (h.modify r f).cells[i]?.map Option.isSome =
      h.cells[i]?.map Option.isSome := by
    intro i
    unfold Heap.modify
    dsimp only
    rw [Array.getElem?_modify]
    split
    · rcases h.cells[i]? with _ | _ | c <;> rfl
    · rfl
  have hcount : (h.modify r f).occupied = h.occupied := countP_isSome_congr hsome
  refine ⟨hh.tidy.modify r f, fun i hi => hh.complete i ?_, hh.unmarked.modify r f, ?_, ?_⟩
  · have := hsome i
    rw [hi] at this
    rcases hc : h.cells[i]? with _ | _ | c <;> simp [hc] at this
    rfl
  · rw [hcount]
    exact hh.sized.trans (by simp [Heap.modify])
  · rw [hcount]
    exact hh.counted

/-! ## Counting what a collection frees -/

/-- Counting along the indices of an array. -/
theorem countP_range_getD {α : Type} (xs : Array α) (d : α) (p : α → Bool) :
    ((List.range xs.size).countP fun i => p (xs.getD i d)) = xs.countP p := by
  have hmap : xs.toList = (List.range xs.size).map fun i => xs.getD i d :=
    List.ext_getElem (by simp) fun i h₁ h₂ => by
      rw [Array.length_toList] at h₁
      simp [Array.getD_eq_getD_getElem?, h₁]
  rw [← Array.countP_toList, hmap, List.countP_map]
  rfl

/-- What is there before a sweep is there afterwards or freed. -/
theorem countP_sweep (cells : Array (Option Cell)) :
    (cells.map sweptCell).countP Option.isSome + (doomed cells).length =
      cells.countP Option.isSome := by
  unfold doomed
  rw [← List.countP_eq_length_filter, countP_range_getD cells none Cell.isUnmarked,
    Array.countP_map, ← Array.countP_toList, ← Array.countP_toList, ← Array.countP_toList]
  induction cells.toList with
  | nil => rfl
  | cons c cells ih =>
    cases c with
    | none => simpa [sweptCell, Cell.isUnmarked] using ih
    | some c => cases hm : c.marked <;> simp [sweptCell, Cell.isUnmarked, hm] <;> omega

/-- Marking leaves every object in its slot. -/
theorem isSome_markFrom (cells : Array (Option Cell)) (work : List Ref) (i : Nat) :
    (markFrom cells work)[i]?.map Option.isSome = cells[i]?.map Option.isSome := by
  have hm := marks_markFrom cells work
  have hobject := hm.object ⟨i⟩
  unfold objectAt at hobject
  rw [Array.getD_eq_getD_getElem?, Array.getD_eq_getD_getElem?] at hobject
  by_cases hlt : i < cells.size
  · have hlt' : i < (markFrom cells work).size := by rw [hm.size]; exact hlt
    rw [Array.getElem?_eq_getElem hlt, Array.getElem?_eq_getElem hlt'] at hobject ⊢
    have hsome := congrArg Option.isSome hobject
    simpa using hsome
  · rw [Array.getElem?_eq_none (Nat.le_of_not_lt hlt),
      Array.getElem?_eq_none (by rw [hm.size]; exact Nat.le_of_not_lt hlt)]

theorem free_collect (h : Heap) (roots : List Ref) : (h.collect roots).2.free =
    (doomed (markFrom h.cells roots)).reverse ++ h.free := rfl

/-- **`occupied_collect`** — a collection says how many objects it freed. -/
theorem occupied_collect (h : Heap) (roots : List Ref) :
    (h.collect roots).2.occupied + (h.collect roots).1.freed = h.occupied :=
  (countP_sweep _).trans (countP_isSome_congr (isSome_markFrom h.cells roots))

/-- The slots that are freed go to the front of the list, and all counts are taken down by them. -/
theorem Orderly.collect (hh : h.Orderly) (roots : List Ref) : (h.collect roots).2.Orderly := by
  have hcount := occupied_collect h roots
  have hsize : (h.collect roots).2.cells.size = h.cells.size :=
    (Array.size_map ..).trans (marks_markFrom h.cells roots).size
  have hfree : (h.collect roots).2.free.length = (h.collect roots).1.freed + h.free.length := by
    rw [free_collect, List.length_append, List.length_reverse]
    rfl
  refine ⟨hh.tidy.collect roots, fun i hi => ?_, unmarked_collect h roots, ?_, ?_⟩
  · change (Array.map sweptCell _)[i]? = _ at hi
    rw [free_collect, List.mem_append, List.mem_reverse]
    rw [Array.getElem?_map] at hi
    obtain ⟨c, hc, hswept⟩ := Option.map_eq_some_iff.mp hi
    obtain ⟨hlt, hget⟩ := Array.getElem?_eq_some_iff.mp hc
    cases c with
    | none =>
      right
      refine hh.complete i ?_
      have hsome := isSome_markFrom h.cells roots i
      rw [hc] at hsome
      rcases hcell : h.cells[i]? with _ | _ | c <;> simp [hcell] at hsome
      rfl
    | some c =>
      left
      refine List.mem_filter.mpr ⟨List.mem_range.mpr hlt, ?_⟩
      rw [Array.getD_eq_getD_getElem?, hc]
      cases hm : c.marked <;> simp [sweptCell, hm, Cell.isUnmarked] at hswept ⊢
  · have := hh.sized
    omega
  · have := hh.counted
    show _ + (h.freed + (h.collect roots).1.freed) = h.allocated
    omega

theorem Orderly.change (hh : h.Orderly) (hc : Change direct h h') : h'.Orderly := by
  cases hc with
  | alloc ho => exact hh.alloc _
  | intern s => exact hh.intern s
  | mutate r hf => exact hh.modify r _
  | pause => exact hh.congr rfl rfl rfl rfl
  | resume => exact hh.congr rfl rfl rfl rfl
  | collect roots => exact hh.collect roots

/-- **`Built.orderly`** — whatever is done to a heap, its parts agree. -/
theorem Built.orderly (hb : Built direct h) : h.Orderly :=
  hb.induction new_orderly fun _ _ => .change

/-- The count of live objects is the number of occupied cells. -/
theorem Orderly.live (hh : h.Orderly) : h.live = h.occupied := by
  have := hh.sized
  unfold Heap.live
  omega

end ScriptMachine.Heap
