import Mathlib
import ScriptMachine.Proofs.Compiler.Accepted
import ScriptMachine.Proofs.Compiler.Grounding
import ScriptMachine.Proofs.Heap.Soundness

/-!
# ScriptMachine.Proofs.Compiler.Trust — compiling into a healthy heap

Whatever text is compiled, the heap stays healthy: the references of the functions in an image are in
order, and loading makes no closure. The script function of an accepted text is trusted, as is every
function it refers to, since the discipline of an image carries over to what its items become in the
heap.

An image is loaded item by item, and an item refers to earlier ones only. So the induction is on the
items: what an item becomes is sound because what it refers to already is (`Loaded.sound`), and the
heap stays healthy from one item to the next. `Loaded.pool` reads the constants back as the pool that
the discipline was stated for, which is what lets discipline carry over unchanged.

Rejected texts load nothing, and for them there is nothing to show but that the heap is left healthy.
-/

namespace ScriptMachine

open Compiler (SoundImage SoundItem translate)

variable {refs : Array Ref} {image : Image} {h : Heap} {p : Prototype} {item : Item}

namespace Image

/-! ## Loading -/

/-- What an item before the next one refers to is there. -/
theorem Loaded.live (hl : Loaded image refs h) {r : Ref} (hr : r.index < image.size) :
    h.Live (.obj (r.relocate refs)) := by
  obtain ⟨r', hr', hholds⟩ := hl.holds _ _ (Array.getElem?_eq_getElem hr)
  have heq : r.relocate refs = r' := by simp [Ref.relocate, hr']
  rw [heq, Heap.live_obj]
  cases hitem : image[r.index] with
  | text s =>
    rw [hitem] at hholds
    obtain ⟨hash, ho⟩ := Heap.text?_eq_some.mp hholds
    exact ⟨_, ho⟩
  | function p statements closures =>
    rw [hitem] at hholds
    exact ⟨_, Heap.prototype?_eq_some.mp hholds⟩

theorem Loaded.string (hl : Loaded image refs h) {r : Ref} (hr : image.IsText r) :
    h.Has (r.relocate refs) .string := by
  obtain ⟨t, ht⟩ := hr
  obtain ⟨r', hr', hholds⟩ := hl.holds _ _ ht
  have heq : r.relocate refs = r' := by simp [Ref.relocate, hr']
  rw [heq]
  exact Heap.has_string.mpr ⟨t, hholds⟩

/-- A text of an image with one more item was one before, if its index is that of an earlier item. -/
theorem IsText.of_push {r : Ref} (hr : Image.IsText (image.push item) r)
    (hlt : r.index < image.size) : image.IsText r := by
  obtain ⟨t, ht⟩ := hr
  rw [Array.getElem?_push_lt hlt] at ht
  exact ⟨t, by rw [Array.getElem?_eq_getElem hlt, ht]⟩

/-- A function that the next item of an image holds is sound once it is loaded. -/
theorem Loaded.sound (hl : Loaded image refs h) {statements closures : List Landmark}
    (hg : Grounded (image.push (.function p statements closures))) :
    (Obj.prototype (p.relocate refs)).Sound h := by
  have hgrounds := hg image.size p statements closures (Array.getElem?_push_size ..)
  refine ⟨fun r hr => ?_, fun r hr => ?_, fun v hv => ?_⟩
  · obtain ⟨r₀, hr₀, rfl⟩ := Option.mem_map.mp hr
    exact hl.string ((hgrounds.name r₀ hr₀).of_push (hgrounds.below.name r₀ hr₀))
  · obtain ⟨r₀, hr₀, rfl⟩ := Option.mem_map.mp hr
    exact hl.string ((hgrounds.path r₀ hr₀).of_push (hgrounds.below.path r₀ hr₀))
  · obtain ⟨v₀, hv₀, rfl⟩ := Array.mem_map.mp hv
    cases v₀ with
    | obj r => exact hl.live (hgrounds.below.constants r hv₀)
    | _ => nofun

/-- Placing an item keeps the heap healthy, since what the item refers to is in the heap already. -/
theorem Loaded.healthy_place (hl : Loaded image refs h) (hh : h.Healthy)
    (hg : Grounded (image.push item)) :
    (place refs h item).2.Healthy ∧ h.Still (place refs h item).2 := by
  cases item with
  | text s => exact ⟨hh.intern s, hh.sound.tidy.still_intern s⟩
  | function p statements closures =>
    exact ⟨hh.alloc (hl.sound hg) nofun, hh.sound.tidy.still_alloc rfl⟩

/-- And so does placing one after another. By induction on the items that are left. -/
theorem healthy_foldl_place (rest : List Item) : ∀ (done : Image) (refs : Array Ref) (h : Heap),
    Loaded done refs h → h.Healthy → Grounded (done ++ rest.toArray) →
      let loaded := rest.foldl (fun (refs, h) item => place refs h item) (refs, h)
      loaded.2.Healthy ∧ h.Still loaded.2 := by
  induction rest with
  | nil =>
    intro done refs h _ hh _
    exact ⟨hh, .refl h⟩
  | cons item rest ih =>
    intro done refs h hl hh hg
    have happend : done ++ (item :: rest).toArray = done.push item ++ rest.toArray := by simp
    rw [happend] at hg
    have hfirst : Grounded (done.push item) := by
      intro k p statements closures hk
      have hlt := (Array.getElem?_eq_some_iff.mp hk).1
      have hgrounds := hg k p statements closures (by rw [Array.getElem?_append_left hlt, hk])
      have htext : ∀ r, Image.IsText (done.push item ++ rest.toArray) r → r.index < k →
          Image.IsText (done.push item) r := by
        rintro r ⟨t, ht⟩ hr
        rw [Array.getElem?_append_left (Nat.lt_trans hr hlt)] at ht
        exact ⟨t, ht⟩
      exact ⟨hgrounds.below, fun r hr => htext r (hgrounds.name r hr) (hgrounds.below.name r hr),
        fun r hr => htext r (hgrounds.path r hr) (hgrounds.below.path r hr)⟩
    obtain ⟨hh', hstill⟩ := hl.healthy_place hh hfirst
    obtain ⟨hl', -⟩ := hl.add hh.sound.tidy hfirst.refersBack
    obtain ⟨hh'', hstill'⟩ := ih _ _ _ hl' hh' hg
    exact ⟨hh'', hstill.trans hstill'⟩

/-- Loading an image keeps the heap healthy and everything in it as it was. -/
theorem healthy_load (hg : Grounded image) (hh : h.Healthy) :
    (load image h).2.Healthy ∧ h.Still (load image h).2 := by
  have hempty : Loaded #[] #[] h := ⟨rfl, by simp⟩
  have hload := healthy_foldl_place image.toList #[] #[] h hempty hh (by simpa using hg)
  unfold load
  rw [← Array.foldl_toList]
  exact hload

/-! ## Trusted functions -/

/-- What a function's constants are known to be in the image, they are in the heap. -/
theorem Loaded.pool (hl : Loaded image refs h) (p : Prototype) :
    (Compiler.pool image p.chunk.constants p.captureCount).Extends (h.pool (p.relocate refs)) where
  size := by simp [Compiler.pool, Heap.pool, Prototype.relocate]
  isName k hk := by
    obtain ⟨r, s, hr, hs⟩ := hl.name hk
    exact ⟨r, hr, Heap.has_string.mpr ⟨s, hs⟩⟩
  isFunction k n hk := by
    obtain ⟨r, q, hr, hq, hn⟩ := hl.function hk
    exact ⟨r, q, hr, hq, hn.symm⟩
  isThunk k hk := by
    obtain ⟨r, q, statements, closures, hr, hq, harity⟩ := hk
    obtain ⟨r', hr', hholds⟩ := hl.holds _ _ hq
    exact ⟨r', q.relocate refs, Prototype.constant?_relocate hr hr', hholds, harity⟩
  captures := Nat.le_refl _

/-- The listing that a function has in the image is one that it has in the heap. -/
theorem Loaded.lists (hl : Loaded image refs h) {k : Nat} {statements closures : List Landmark}
    (hs : SoundItem image k p statements closures) :
    ∃ listing, h.Lists (p.relocate refs) listing := by
  obtain ⟨listing, hdisciplined, hannotates⟩ := hs.disciplined
  exact ⟨listing, ⟨statements, closures, hdisciplined.extend (hl.pool p)⟩,
    hannotates.of_notes ⟨rfl, rfl, rfl⟩ (hl.pool p)⟩

/-- **`Loaded.trusts`** — the functions of a sound image are trusted in the heap. -/
theorem Loaded.trusts (hl : Loaded image refs h) (hs : SoundImage image) (k : Nat) :
    ∀ p statements closures r, image[k]? = some (.function p statements closures) →
      refs[k]? = some r → h.Trusts r := by
  -- a function refers to earlier items only, so the induction is on its index
  induction k using Nat.strong_induction_on with
  | _ k ih =>
    intro p statements closures r hk hr
    have hitem := hs k p statements closures hk
    obtain ⟨r', hr', hholds⟩ := hl.holds k _ hk
    obtain rfl : r' = r := Option.some.inj (hr'.symm.trans hr)
    obtain ⟨listing, hlists⟩ := hl.lists hitem
    refine .intro hholds hlists fun g q hg hq => ?_
    obtain ⟨v, hv, hvg⟩ := Array.mem_map.mp hg
    cases v with
    | obj r₀ =>
      have hlt := hitem.refs r₀ hv
      have hsize : k < image.size := (Array.getElem?_eq_some_iff.mp hk).1
      obtain ⟨item, hitem'⟩ : ∃ item, image[r₀.index]? = some item :=
        ⟨_, Array.getElem?_eq_getElem (Nat.lt_trans hlt hsize)⟩
      obtain ⟨r', hr', hholds'⟩ := hl.holds _ _ hitem'
      obtain rfl : r' = g := by
        have := Value.obj.inj hvg
        simpa [Ref.relocate, hr'] using this
      cases item with
      | text s =>
        obtain ⟨hash, hget⟩ := Heap.text?_eq_some.mp hholds'
        rw [Heap.prototype?_eq_some, hget] at hq
        cases hq
      | function q' statements' closures' =>
        exact ih r₀.index hlt q' statements' closures' r' hitem' hr'
    | _ => cases hvg

end Image

/-! ## Compiling -/

/-- Compiling keeps the heap healthy, with or without errors. -/
theorem healthy_compile (hh : h.Healthy) (source path : String) :
    (compile h source path).2.Healthy ∧ h.Still (compile h source path).2 := by
  have hpaused : h.pause.Healthy := hh.of_cells rfl rfl
  obtain ⟨hloaded, hstill⟩ := Image.healthy_load (Compiler.translate_grounded source path) hpaused
  unfold compile
  generalize translate source path = t at hloaded hstill ⊢
  -- what is paused while the image is loaded goes on afterwards
  have hpauses : ((Image.load t.2 h.pause).2.resume).pauses = h.pauses :=
    congrArg (· - 1) hstill.pauses
  exact ⟨hloaded.of_cells rfl rfl,
    ⟨(Heap.evolves_of_get? fun _ => rfl).trans (hstill.evolves.trans (Heap.evolves_of_get? fun _ => rfl)),
      hpauses, hstill.upvalues, hstill.tasks, hstill.natives⟩⟩

/-- **`compile_trusts`** — the script function of an accepted text is trusted, and has neither
parameters nor captures. -/
theorem compile_trusts {h' : Heap} {source path : String} {r : Ref} (hh : h.Healthy)
    (hc : compile h source path = (.ok r, h')) :
    h'.Trusts r ∧ ∃ p, h'.prototype? r = some p ∧ p.arity = 0 ∧ p.captureCount = 0 := by
  obtain ⟨r₀, image, refs, -, rfl, hsound, hloaded, -, p, statements, closures, hitem, harity,
    hcaptures⟩ := compile_ok hh.sound.tidy hc
  obtain ⟨r, hr, hholds⟩ := hloaded.holds _ _ hitem
  have heq : r₀.relocate refs = r := by simp [Ref.relocate, hr]
  rw [heq]
  exact ⟨hloaded.trusts hsound _ p statements closures r hitem hr, p.relocate refs, hholds, harity,
    hcaptures⟩

end ScriptMachine
