import Mathlib
import ScriptMachine.Heap

/-!
# ScriptMachine.Proofs.Heap.Allocation — what allocation changes

An allocation takes a slot that was vacant, so every object that was there before stays where it was.
That rests on the free list: it names vacant slots, each once.

`Tidy.get?_alloc` is the lemma that everything about growing heaps comes from: an allocation changes what
its own slot holds, and nothing else. Interning a text is an allocation or nothing, so it has the same
consequences (`Tidy.intern`). That an operation leaves the free list tidy is shown beside each of them;
a collection, which refills the list, is treated where reachability is.
-/

namespace ScriptMachine.Heap

variable {h h' : Heap} {r r' : Ref} {o : Obj}

/-- **`Tidy`** — the free list names vacant slots, each once. -/
structure Tidy (h : Heap) : Prop where
  vacant : ∀ i ∈ h.free, h.cells[i]? = some none
  distinct : h.free.Nodup

/-- **`Unmarked`** — no object has a mark, as it is between collections. -/
def Unmarked (h : Heap) : Prop :=
  ∀ (i : Nat) (c : Cell), h.cells[i]? = some (some c) → c.marked = false

/-- Every object of one heap is in the other. -/
def Keeps (h h' : Heap) : Prop :=
  ∀ r o, h.get? r = some o → h'.get? r = some o

theorem Keeps.refl (h : Heap) : h.Keeps h :=
  fun _ _ ho => ho

theorem Keeps.trans {h'' : Heap} (hk : h.Keeps h') (hk' : h'.Keeps h'') : h.Keeps h'' :=
  fun r o ho => hk' r o (hk r o ho)

theorem get?_eq (h : Heap) (r : Ref) : h.get? r = (h.cells.getD r.index none).map Cell.obj := by
  unfold get?
  cases h.cells.getD r.index none <;> rfl

/-- The object of a slot, by the cell that is there. -/
theorem get?_of_cells (h : Heap) (r : Ref) : h.get? r = (h.cells[r.index]?.join).map Cell.obj := by
  rw [get?_eq, Array.getD_eq_getD_getElem?]
  cases h.cells[r.index]? <;> rfl

/-- An object has a cell. -/
theorem index_lt (ho : h.get? r = some o) : r.index < h.cells.size := by
  rw [get?_of_cells] at ho
  by_contra hge
  rw [Array.getElem?_eq_none (Nat.le_of_not_lt hge)] at ho
  cases ho

theorem new_unmarked (config : HeapConfig) : (new config).Unmarked := by
  simp [Unmarked, new]

theorem new_tidy (config : HeapConfig) : (new config).Tidy :=
  ⟨by simp [new], by simp [new]⟩

/-- The slot that an allocation takes has no object yet. -/
theorem Tidy.get?_alloc_fst (ht : h.Tidy) (o : Obj) : h.get? (h.alloc o).1 = none := by
  rw [get?_of_cells]
  unfold alloc
  split
  · rename_i i free hfree
    have hvacant := ht.vacant i (by simp [hfree])
    simp [hvacant]
  · simp

/-- **`get?_alloc`** — an allocation changes what its own slot holds, and nothing else. -/
theorem Tidy.get?_alloc (ht : h.Tidy) (o : Obj) (r : Ref) :
    (h.alloc o).2.get? r = if r = (h.alloc o).1 then some o else h.get? r := by
  rw [get?_of_cells, get?_of_cells]
  unfold alloc
  split
  · rename_i i free hfree
    have hlt : i < h.cells.size := (Array.getElem?_eq_some_iff.mp (ht.vacant i (by simp [hfree]))).1
    by_cases hr : r = ⟨i⟩
    · subst hr
      simp [hlt]
    · have hne : i ≠ r.index := fun heq => hr (by rw [heq])
      simp [hr, Array.getElem?_setIfInBounds_ne hne]
  · by_cases hr : r = ⟨h.cells.size⟩
    · subst hr
      simp
    · have hne : r.index ≠ h.cells.size := fun heq => hr (by rw [← heq])
      simp only [hr, if_false]
      rw [Array.getElem?_push, if_neg hne]

/-- A freed slot is taken if there is one, and the list of free slots stays right in both cases. -/
theorem Tidy.alloc (ht : h.Tidy) (o : Obj) : (h.alloc o).2.Tidy := by
  unfold Heap.alloc
  split
  · rename_i i free hfree
    have hdistinct := ht.distinct
    rw [hfree] at hdistinct
    refine ⟨fun j hj => ?_, (List.nodup_cons.mp hdistinct).2⟩
    have hne : i ≠ j := fun heq => (List.nodup_cons.mp hdistinct).1 (heq ▸ hj)
    show (h.cells.setIfInBounds i _)[j]? = some none
    rw [Array.getElem?_setIfInBounds_ne hne]
    exact ht.vacant j (by simp [hfree, hj])
  · rename_i hfree
    exact ⟨by simp [hfree], by simp [hfree]⟩

theorem Unmarked.alloc (hu : h.Unmarked) (o : Obj) : (h.alloc o).2.Unmarked := by
  intro i c hc
  unfold Heap.alloc at hc
  split at hc
  · dsimp only at hc
    rw [Array.getElem?_setIfInBounds] at hc
    split at hc
    · split at hc
      · rw [← Option.some.inj (Option.some.inj hc)]
      · cases hc
    · exact hu i c hc
  · dsimp only at hc
    rw [Array.getElem?_push] at hc
    split at hc
    · rw [← Option.some.inj (Option.some.inj hc)]
    · exact hu i c hc

theorem Unmarked.modify (hu : h.Unmarked) (r : Ref) (f : Obj → Obj) : (h.modify r f).Unmarked := by
  intro i c hc
  unfold Heap.modify at hc
  dsimp only at hc
  rw [Array.getElem?_modify] at hc
  split at hc
  · obtain ⟨x, hx, hfx⟩ := Option.map_eq_some_iff.mp hc
    cases x with
    | none => cases hfx
    | some x => rw [← Option.some.inj hfx, ← hu i x hx]
  · exact hu i c hc

/-- What was allocated is there. -/
theorem Tidy.get?_alloc_self (ht : h.Tidy) (o : Obj) : (h.alloc o).2.get? (h.alloc o).1 = some o := by
  rw [ht.get?_alloc, if_pos rfl]

/-- And what was there before is there still. -/
theorem Tidy.keeps_alloc (ht : h.Tidy) (o : Obj) : h.Keeps (h.alloc o).2 := by
  intro r o' ho'
  rw [ht.get?_alloc, if_neg, ho']
  intro heq
  rw [heq, ht.get?_alloc_fst] at ho'
  cases ho'

/-! ## Strings -/

theorem text?_eq_some {s : String} : h.text? r = some s ↔ ∃ hash, h.get? r = some (.string s hash) := by
  unfold text?
  split
  · rename_i t hash heq
    simp [heq]
  · rename_i hne
    simp only [reduceCtorEq, false_iff, not_exists]
    exact hne s

theorem Keeps.text? (hk : h.Keeps h') {s : String} (hs : h.text? r = some s) :
    h'.text? r = some s := by
  obtain ⟨hash, ho⟩ := text?_eq_some.mp hs
  exact text?_eq_some.mpr ⟨hash, hk r _ ho⟩

theorem prototype?_eq_some {p : Prototype} :
    h.prototype? r = some p ↔ h.get? r = some (.prototype p) := by
  unfold prototype?
  split
  · rename_i q heq
    simp [heq]
  · rename_i hne
    simp only [reduceCtorEq, false_iff]
    exact hne p

/-- Probing for a key finds one that satisfies the test. -/
theorem findKeyFrom_test {α : Type} {slots : Array (Table.Slot α)} {hash : UInt32} {p : Ref → Bool}
    {fuel index : Nat} (hr : Table.findKeyFrom slots hash p index fuel = some r) : p r = true := by
  induction fuel generalizing index with
  | zero => cases hr
  | succ fuel ih =>
    unfold Table.findKeyFrom at hr
    split at hr
    · cases hr
    · exact ih hr
    · split at hr
      · rename_i hfound
        obtain rfl := Option.some.inj hr
        exact (Bool.and_eq_true_iff.mp hfound).2
      · exact ih hr

/-- What the table of texts finds is a text object of that text. -/
theorem text?_interned {s : String} {hash : UInt32} (hr : h.interned? s hash = some r) :
    h.text? r = some s := by
  unfold interned? Table.findKey? at hr
  split at hr
  · cases hr
  · have htest := findKeyFrom_test hr
    split at htest
    · rename_i t _ heq
      exact text?_eq_some.mpr ⟨_, by rw [heq, beq_iff_eq.mp htest]⟩
    · cases htest

theorem intern_of_some {s : String} (hr : h.interned? s (hashText s) = some r) :
    h.intern s = (r, h) := by
  simp [intern, hr]

theorem intern_of_none {s : String} (hr : h.interned? s (hashText s) = none) :
    h.intern s = ((h.alloc (.string s (hashText s))).1,
      { (h.alloc (.string s (hashText s))).2 with
        strings := (h.alloc (.string s (hashText s))).2.strings.set
          ⟨(h.alloc (.string s (hashText s))).1, hashText s⟩ () }) := by
  simp [intern, hr]

/-- **`Tidy.intern`** — a text is interned without touching an object that is there. -/
theorem Tidy.intern (ht : h.Tidy) (s : String) :
    (h.intern s).2.Tidy ∧ h.Keeps (h.intern s).2 ∧ (h.intern s).2.text? (h.intern s).1 = some s := by
  cases hr : h.interned? s (hashText s) with
  | some r =>
    rw [intern_of_some hr]
    exact ⟨ht, .refl h, text?_interned hr⟩
  | none =>
    rw [intern_of_none hr]
    have htidy := ht.alloc (.string s (hashText s))
    refine ⟨⟨htidy.vacant, htidy.distinct⟩, fun r o ho => ?_, ?_⟩
    · exact ht.keeps_alloc (.string s (hashText s)) r o ho
    · exact text?_eq_some.mpr ⟨hashText s, ht.get?_alloc_self _⟩

end ScriptMachine.Heap
