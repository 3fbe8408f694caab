import ScriptMachine.Proofs.Compiler.Translation
import ScriptMachine.Proofs.Heap.Allocation

/-!
# ScriptMachine.Proofs.Compiler.Loading — compiled functions in the heap

Loading an image puts its items into slots that were vacant, one after the other. A function refers
only to items before it, so what its constants are replaced by does not depend on what is loaded
later. In the end every item is in the heap, with its references replaced by those of the items they
name.

The induction is on the items, and `Loaded` is stated for the items so far. What makes it go through is
`RefersBack`: an item that mentions only earlier items can be placed with all its references known. That
images of the compiler are like this is proved with the compiler, for accepted texts and for all others
(`Grounding`).
-/

namespace ScriptMachine

variable {refs : Array Ref} {image : Image} {h : Heap}

/-- A further reference does not change where an earlier item is. -/
theorem Ref.relocate_push {r : Ref} (hr : r.index < refs.size) (new : Ref) :
    r.relocate (refs.push new) = r.relocate refs := by
  unfold Ref.relocate
  rw [Array.getD_eq_getD_getElem?, Array.getD_eq_getD_getElem?, Array.getElem?_push_lt hr,
    Array.getElem?_eq_getElem hr]

/-- The references of a function are to the first `k` items of its image. -/
structure Prototype.RefersBelow (p : Prototype) (k : Nat) : Prop where
  constants : ∀ r, Value.obj r ∈ p.chunk.constants → r.index < k
  name : ∀ r ∈ p.name, r.index < k
  path : ∀ r ∈ p.path, r.index < k

/-- Nor does it change a function that refers to earlier items. -/
theorem Prototype.relocate_push {p : Prototype} (hp : p.RefersBelow refs.size) (new : Ref) :
    p.relocate (refs.push new) = p.relocate refs := by
  have hname : p.name.map (Ref.relocate (refs.push new)) = p.name.map (Ref.relocate refs) :=
    Option.map_congr fun r hr => Ref.relocate_push (hp.name r hr) new
  have hpath : p.path.map (Ref.relocate (refs.push new)) = p.path.map (Ref.relocate refs) :=
    Option.map_congr fun r hr => Ref.relocate_push (hp.path r hr) new
  have hconstants : p.chunk.constants.map (Value.relocate (refs.push new)) =
      p.chunk.constants.map (Value.relocate refs) := by
    refine Array.map_congr_left fun v hv => ?_
    cases v with
    | obj r => exact congrArg Value.obj (Ref.relocate_push (hp.constants r hv) new)
    | _ => rfl
  rw [Prototype.relocate, Prototype.relocate, hname, hpath, hconstants]

namespace Image

/-- An item of an image is in the heap at `r`; the other items are at `refs`. -/
def Holds (refs : Array Ref) (h : Heap) (r : Ref) : Item → Prop
  | .text s => h.text? r = some s
  | .function p _ _ => h.prototype? r = some (p.relocate refs)

/-- **`Loaded`** — the items of an image are in the heap at `refs`. -/
structure Loaded (image : Image) (refs : Array Ref) (h : Heap) : Prop where
  size : refs.size = image.size
  holds : ∀ (k : Nat) (item : Item), image[k]? = some item →
    ∃ r, refs[k]? = some r ∧ Holds refs h r item

/-- Every function of an image refers to items before it. -/
def RefersBack (image : Image) : Prop :=
  ∀ (k : Nat) (p : Prototype) (statements closures : List Landmark),
    image[k]? = some (.function p statements closures) → p.RefersBelow k

/-- An item that is in the heap stays in it while others are placed. -/
theorem Holds.push {item : Item} {r new : Ref} {h' : Heap} (hitem : Holds refs h r item)
    (hp : ∀ p statements closures, item = .function p statements closures →
      p.RefersBelow refs.size) (hk : h.Keeps h') : Holds (refs.push new) h' r item := by
  cases item with
  | text s => exact hk.text? hitem
  | function p statements closures =>
    show h'.prototype? r = some (p.relocate (refs.push new))
    rw [Prototype.relocate_push (hp p statements closures rfl)]
    exact Heap.prototype?_eq_some.mpr (hk r _ (Heap.prototype?_eq_some.mp hitem))

/-- One more item is loaded. -/
theorem Loaded.add {item : Item} (hl : Loaded image refs h) (ht : h.Tidy)
    (hback : RefersBack (image.push item)) :
    Loaded (image.push item) (place refs h item).1 (place refs h item).2 ∧
      (place refs h item).2.Tidy := by
  -- whatever the item is, it gets a reference, and nothing that was loaded moves
  have hplace : ∃ r h', place refs h item = (refs.push r, h') ∧ h'.Tidy ∧ h.Keeps h' ∧
      Holds (refs.push r) h' r item := by
    cases item with
    | text s =>
      obtain ⟨htidy, hkeeps, htext⟩ := ht.intern s
      exact ⟨_, _, rfl, htidy, hkeeps, htext⟩
    | function p statements closures =>
      refine ⟨_, _, rfl, ht.alloc _, ht.keeps_alloc _, ?_⟩
      have hp : p.RefersBelow refs.size := by
        rw [hl.size]
        exact hback image.size p statements closures (Array.getElem?_push_size ..)
      show Heap.prototype? _ _ = some (p.relocate (refs.push _))
      rw [Prototype.relocate_push hp]
      exact Heap.prototype?_eq_some.mpr (ht.get?_alloc_self _)
  obtain ⟨r, h', heq, htidy, hkeeps, hholds⟩ := hplace
  rw [heq]
  refine ⟨⟨by simp [hl.size], fun k item' hk => ?_⟩, htidy⟩
  rw [Array.getElem?_push] at hk
  split at hk
  · rename_i hlast
    obtain rfl := Option.some.inj hk
    refine ⟨r, ?_, hholds⟩
    rw [hlast, ← hl.size]
    exact Array.getElem?_push_size
  · obtain ⟨r', hr', hholds'⟩ := hl.holds k item' hk
    have hlt : k < refs.size := (Array.getElem?_eq_some_iff.mp hr').1
    refine ⟨r', ?_, hholds'.push ?_ hkeeps⟩
    · rw [Array.getElem?_push_lt hlt, ← hr', Array.getElem?_eq_getElem hlt]
    · intro p statements closures hitem
      subst hitem
      have hbelow := hback k p statements closures (by
        rw [Array.getElem?_push_lt (hl.size ▸ hlt)]
        rw [← hk, Array.getElem?_eq_getElem (hl.size ▸ hlt)])
      exact ⟨fun r hr => Nat.lt_trans (hbelow.constants r hr) hlt,
        fun r hr => Nat.lt_trans (hbelow.name r hr) hlt,
        fun r hr => Nat.lt_trans (hbelow.path r hr) hlt⟩

/-- Placing the items one after another loads the image. By induction on the items that are left;
each refers back to what is placed. -/
theorem foldl_place (rest : List Item) : ∀ (done : Image) (refs : Array Ref) (h : Heap),
    Loaded done refs h → h.Tidy → RefersBack (done ++ rest.toArray) →
      let loaded := rest.foldl (fun (refs, h) item => place refs h item) (refs, h)
      Loaded (done ++ rest.toArray) loaded.1 loaded.2 ∧ loaded.2.Tidy := by
  induction rest with
  | nil =>
    intro done refs h hl ht hback
    simpa using ⟨hl, ht⟩
  | cons item rest ih =>
    intro done refs h hl ht hback
    have happend : done ++ (item :: rest).toArray = done.push item ++ rest.toArray := by simp
    rw [happend] at hback ⊢
    have hprefix : RefersBack (done.push item) := by
      intro k p statements closures hk
      refine hback k p statements closures ?_
      rw [Array.getElem?_append_left (Array.getElem?_eq_some_iff.mp hk).1]
      exact hk
    obtain ⟨hl', ht'⟩ := hl.add ht hprefix
    exact ih _ _ _ hl' ht' hback

/-- **`loaded_load`** — loading an image puts its items into the heap. -/
theorem loaded_load (hback : RefersBack image) (ht : h.Tidy) :
    Loaded image (load image h).1 (load image h).2 ∧ (load image h).2.Tidy := by
  have hempty : Loaded #[] #[] h := ⟨rfl, by simp⟩
  have hload := foldl_place image.toList #[] #[] h hempty ht (by simpa using hback)
  unfold load
  rw [← Array.foldl_toList]
  simpa using hload

end Image

end ScriptMachine
