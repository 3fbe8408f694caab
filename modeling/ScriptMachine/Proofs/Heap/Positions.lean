import Mathlib
import ScriptMachine.Proofs.Dict.Refinement
import ScriptMachine.Proofs.Heap.Soundness

/-!
# ScriptMachine.Proofs.Heap.Positions — places within containers

A list has its items and a dictionary its entries at indices; a position is the list of indices that
leads from a value, container by container, to another one. Nothing is said of how often an object
occurs: one that is shared is at many positions, and a container that contains itself has positions of
every length. As long as no object is changed, the positions in a value stay what they are.

Positions are what a deep copy and its original are compared by. They are lists of indices and not
references, so that the comparison makes sense for shared and for cyclic values, of which a tree of
references would not. `Sound.live_at?` and `Keeps.at?` are the two facts that are used: what is at a
position is there, and making new objects changes no position.
-/

namespace ScriptMachine

/-- A step into a container: to an item of a list, or to the entry of a key. -/
inductive Index where
  | item (i : Nat)
  | entry (key : String)
deriving Repr, DecidableEq

namespace Obj

/-- Is the object a list or a dictionary? -/
def isContainer : Obj → Bool
  | .list _ | .dict _ => true
  | _ => false

/-- What a container has at each index. -/
def children : Obj → Mapping Index Value
  | .list items, .item i => items[i]?
  | .dict d, .entry key => d.get? key
  | _, _ => none

variable {o : Obj} {i : Index} {v : Value}

theorem isContainer_of_children (hv : o.children i = some v) : o.isContainer = true := by
  cases o with
  | list | dict => rfl
  | _ => cases hv

theorem isContainer_of_kind {o' : Obj} (hkind : o'.kind = o.kind) (hc : o.isContainer = true) :
    o'.isContainer = true := by
  cases o <;> cases o' <;> simp_all [isContainer, kind]

/-- **`lists_children_list`** — the items of a list, each at its index. -/
theorem lists_children_list (items : Array Value) : (Obj.list items).children.Lists
    (((List.range items.size).map Index.item).zip items.toList) := by
  refine ⟨?_, fun i v => ?_⟩
  · rw [List.map_fst_zip (by simp)]
    exact List.nodup_range.map fun _ _ => Index.item.inj
  · rw [List.mem_iff_getElem?]
    simp only [List.getElem?_zip_eq_some, List.getElem?_map, Option.map_eq_some_iff]
    constructor
    · rintro ⟨n, ⟨j, hj, rfl⟩, hv⟩
      obtain ⟨hn, rfl⟩ := List.getElem?_eq_some_iff.mp hj
      rw [List.getElem_range]
      simpa [children] using hv
    · intro hv
      cases i with
      | item n =>
        have hn : n < items.size := (Array.getElem?_eq_some_iff.mp hv).1
        exact ⟨n, ⟨n, by simp [hn], rfl⟩, by simpa [children] using hv⟩
      | entry => cases hv

/-- **`lists_children_dict`** — the entries of a dictionary, each at its key. -/
theorem lists_children_dict {d : Dict Value} {ks : List String} {vs : List Value}
    (hl : Mapping.Lists d.get? (ks.zip vs)) :
    (Obj.dict d).children.Lists ((ks.map Index.entry).zip vs) := by
  rw [List.zip_map_left]
  refine ⟨?_, fun i v => ?_⟩
  · have honce := hl.once.map fun _ _ => Index.entry.inj
    rwa [List.map_map] at honce ⊢
  · cases i with
    | item => simp [children]
    | entry key => simp [children, ← hl.mem]

end Obj

namespace Heap

variable {h h' : Heap} {v w : Value} {i : Index} {p : List Index} {r : Ref} {o : Obj}

/-- **`h.IsContainer v`** — the value is a list or a dictionary. -/
def IsContainer (h : Heap) (v : Value) : Prop :=
  ∃ r o, v = .obj r ∧ h.get? r = some o ∧ o.isContainer = true

/-- What a value has at an index, if it is a container. -/
def child? (h : Heap) (v : Value) (i : Index) : Option Value :=
  v.ref?.bind fun r => (h.get? r).bind (·.children i)

/-- **`h.at? v p`** — what a value has at a position. -/
def at? (h : Heap) : Value → List Index → Option Value
  | v, [] => some v
  | v, i :: p => (h.child? v i).bind (h.at? · p)

theorem child?_obj (ho : h.get? r = some o) (i : Index) : h.child? (.obj r) i = o.children i := by
  simp [child?, Value.ref?, ho]

theorem isContainer_obj (ho : h.get? r = some o) :
    h.IsContainer (.obj r) ↔ o.isContainer = true := by
  constructor
  · rintro ⟨r', o', hr, ho', hc⟩
    obtain rfl := Value.obj.inj hr
    obtain rfl := Option.some.inj (ho.symm.trans ho')
    exact hc
  · exact fun hc => ⟨r, o, rfl, ho, hc⟩

theorem isContainer_of_child? (hw : h.child? v i = some w) : h.IsContainer v := by
  unfold child? at hw
  obtain ⟨r, hr, hw⟩ := Option.bind_eq_some_iff.mp hw
  obtain ⟨o, ho, hw⟩ := Option.bind_eq_some_iff.mp hw
  refine ⟨r, o, ?_, ho, Obj.isContainer_of_children hw⟩
  cases v with
  | obj => exact congrArg Value.obj (Option.some.inj hr)
  | _ => cases hr

theorem Keeps.isContainer (hk : h.Keeps h') (hv : h.IsContainer v) : h'.IsContainer v := by
  obtain ⟨r, o, rfl, ho, hc⟩ := hv
  exact ⟨r, o, rfl, hk r o ho, hc⟩

/-! ## Positions in a heap that grows -/

/-- What a container has is live. -/
theorem Sound.live_child? (hs : h.Sound) (hw : h.child? v i = some w) : h.Live w := by
  unfold child? at hw
  obtain ⟨r, -, hw⟩ := Option.bind_eq_some_iff.mp hw
  obtain ⟨o, ho, hw⟩ := Option.bind_eq_some_iff.mp hw
  have hsound := hs.objects r o ho
  cases o with
  | list items =>
    cases i with
    | item i => exact hsound w (Array.mem_of_getElem? hw)
    | entry => cases hw
  | dict d =>
    cases i with
    | item => cases hw
    | entry key => exact hsound w (Dict.mem_of_get? hw)
  | _ => cases hw

/-- **`Sound.live_at?`** — what is at a position in something live is live. -/
theorem Sound.live_at? (hs : h.Sound) : ∀ {v : Value} {p : List Index}, h.Live v →
    h.at? v p = some w → h.Live w := by
  intro v p hv hw
  induction p generalizing v with
  | nil => exact Option.some.inj hw ▸ hv
  | cons i p ih =>
    obtain ⟨u, hu, hw⟩ := Option.bind_eq_some_iff.mp hw
    exact ih (hs.live_child? hu) hw

/-- What is kept has at each index what it had. -/
theorem Keeps.child? (hk : h.Keeps h') (hv : h.Live v) (i : Index) :
    h'.child? v i = h.child? v i := by
  cases v with
  | obj r =>
    obtain ⟨o, ho⟩ := live_obj.mp hv
    rw [child?_obj ho, child?_obj (hk r o ho)]
  | _ => rfl

/-- **`Keeps.at?`** — positions do not change while the heap only grows. -/
theorem Keeps.at? (hk : h.Keeps h') (hs : h.Sound) (hv : h.Live v) (p : List Index) :
    h'.at? v p = h.at? v p := by
  induction p generalizing v with
  | nil => rfl
  | cons i p ih =>
    unfold Heap.at?
    rw [hk.child? hv i]
    cases hu : h.child? v i with
    | none => rfl
    | some u => exact ih (hs.live_child? hu)

end Heap

end ScriptMachine
