import Mathlib
import ScriptMachine.Proofs.Heap.Equality
import ScriptMachine.Proofs.Heap.Evolution
import ScriptMachine.Proofs.Table.Refinement

/-!
# ScriptMachine.Proofs.Heap.Regularity — tables and dictionaries in a heap

The tables of the objects of a heap have strings for keys, each under its own hash, and are valid; its
dictionaries are valid too. Whatever allocates or changes an object has to see to that for this object
only: an entry stays good as long as the string of its key is there.

`Table.Keyed` is the condition on one table, and it is kept by storing, by adding the entries of another
table, and along any change of the heap that leaves the strings of its keys where they are
(`Keyed.mono`). `Regular` is the condition on a heap, with one lemma for each way to make or change an
object. It leaves collections out: why they keep the strings of keys is shown where heaps are kept up.
-/

namespace ScriptMachine

/-! ## Tables whose keys are strings of a heap -/

/-- **`t.Keyed h`** — the table is valid, and its keys are strings of the heap with their hashes. -/
structure Table.Keyed {α : Type} (h : Heap) (t : Table α) : Prop where
  valid : t.Valid
  keys : ∀ e ∈ t.toList, h.key? e.1.ref = some e.1

theorem Heap.key?_ref {h : Heap} {r : Ref} {k : Key} (hk : h.key? r = some k) : k.ref = r :=
  (Heap.key?_eq_some.mp hk).1

theorem Heap.Evolves.key? {h h' : Heap} {r : Ref} {k : Key} (hh : h.Evolves h')
    (hk : h.key? r = some k) : h'.key? r = some k := by
  obtain ⟨hr, s, hs⟩ := Heap.key?_eq_some.mp hk
  exact Heap.key?_eq_some.mpr ⟨hr, s, (hh.on fun _ => True).string trivial hs⟩

namespace Table

variable {α : Type} {h h' : Heap} {t u : Table α} {r : Ref} {k : Key} {v : α}

theorem keyed_empty : (empty : Table α).Keyed h :=
  ⟨valid_empty, by simp⟩

/-- A key of the heap is the only one in the table for its name. -/
theorem Keyed.agrees (ht : t.Keyed h) (hk : h.key? r = some k) : t.Agrees k := by
  intro e he href
  rw [← Heap.key?_ref hk, ← href, ht.keys e he] at hk
  exact Option.some.inj hk

theorem Keyed.get?_eq_some (ht : t.Keyed h) (hk : h.key? r = some k) :
    t.get? k = some v ↔ (k, v) ∈ t.toList :=
  ht.valid.get?_eq_some (ht.agrees hk)

theorem Keyed.mem_set (ht : t.Keyed h) (hk : h.key? r = some k) (e : Key × α) :
    e ∈ (t.set k v).toList ↔ e = (k, v) ∨ e ∈ t.toList ∧ e.1 ≠ k :=
  (ht.valid.set (ht.agrees hk)).2 e

theorem Keyed.set (ht : t.Keyed h) (hk : h.key? r = some k) : (t.set k v).Keyed h := by
  refine ⟨(ht.valid.set (ht.agrees hk)).1, fun e he => ?_⟩
  rcases (ht.mem_set hk e).mp he with rfl | ⟨he, -⟩
  · rwa [← Heap.key?_ref hk] at hk
  · exact ht.keys e he

theorem Keyed.get?_set (ht : t.Keyed h) (hk : h.key? r = some k) : (t.set k v).get? k = some v :=
  ((ht.set hk).get?_eq_some hk).mpr ((ht.mem_set hk _).mpr (.inl rfl))

/-- Entry by entry, all of them under keys of the heap. -/
theorem Keyed.addAll (ht : t.Keyed h) (hu : u.Keyed h) : (t.addAll u).Keyed h := by
  have hfold : ∀ es : List (Key × α), (∀ e ∈ es, h.key? e.1.ref = some e.1) →
      ∀ {t : Table α}, t.Keyed h → (es.foldl (fun t e => t.set e.1 e.2) t).Keyed h := by
    intro es
    induction es with
    | nil => exact fun _ _ ht => ht
    | cons e es ih =>
      intro hkeys t ht
      obtain ⟨hk, hkeys⟩ := List.forall_mem_cons.mp hkeys
      exact ih hkeys (ht.set hk)
  rw [addAll_eq]
  exact hfold _ hu.keys ht

/-- The strings of the keys have to stay. -/
theorem Keyed.mono (ht : t.Keyed h)
    (hkeys : ∀ r k, r ∈ t.toList.map (·.1.ref) → h.key? r = some k → h'.key? r = some k) :
    t.Keyed h' :=
  ⟨ht.valid, fun e he => hkeys _ _ (List.mem_map_of_mem he) (ht.keys e he)⟩

theorem Keyed.evolves (ht : t.Keyed h) (hh : h.Evolves h') : t.Keyed h' :=
  ht.mono fun _ _ _ => hh.key?

end Table

/-! ## Objects and heaps -/

/-- The tables of an object. -/
def Obj.tables : Obj → List (Table Value)
  | .classObj c => [c.methods, c.fields, c.statics]
  | .instanceObj i => [i.fields]
  | .enumeration e => [e.members]
  | .package p => [p.symbols]
  | _ => []

/-- **`o.Regular h`** — the tables of the object have strings of the heap for keys; a dictionary is
valid. -/
structure Obj.Regular (h : Heap) (o : Obj) : Prop where
  tables : ∀ t ∈ o.tables, t.Keyed h
  dict : ∀ d, o = .dict d → d.Valid

namespace Heap

variable {h h' : Heap} {o : Obj} {r : Ref}

/-- **`h.Regular`** — every object is regular, and the free list is in order. -/
structure Regular (h : Heap) : Prop where
  tidy : h.Tidy
  objects : ∀ r o, h.get? r = some o → o.Regular h

theorem Evolves.regular (hh : h.Evolves h') (ho : o.Regular h) : o.Regular h' :=
  ⟨fun t ht => (ho.tables t ht).evolves hh, ho.dict⟩

theorem Regular.dictsValid (hr : h.Regular) : h.DictsValid :=
  fun r d hd => (hr.objects r _ hd).dict d rfl

theorem new_regular (config : HeapConfig) : (new config).Regular :=
  ⟨new_tidy config, by simp [new, get?]⟩

theorem Regular.of_get? (hr : h.Regular) (ht : h'.Tidy) (hget : ∀ r, h'.get? r = h.get? r) :
    h'.Regular :=
  ⟨ht, fun r o ho => (evolves_of_get? hget).regular (hr.objects r o (hget r ▸ ho))⟩

theorem Regular.alloc (hr : h.Regular) (ho : o.Regular h) : (h.alloc o).2.Regular := by
  have hevolves := (hr.tidy.keeps_alloc o).evolves
  refine ⟨hr.tidy.alloc o, fun r o' ho' => ?_⟩
  rw [hr.tidy.get?_alloc] at ho'
  split at ho'
  · exact Option.some.inj ho' ▸ hevolves.regular ho
  · exact hevolves.regular (hr.objects r o' ho')

theorem Regular.intern (hr : h.Regular) (s : String) : (h.intern s).2.Regular := by
  cases hfound : h.interned? s (hashText s) with
  | some r => rwa [intern_of_some hfound]
  | none =>
    rw [intern_of_none hfound]
    have halloc := hr.alloc (o := .string s (hashText s)) ⟨by simp [Obj.tables], nofun⟩
    exact halloc.of_get? ⟨halloc.tidy.vacant, halloc.tidy.distinct⟩ fun _ => rfl

/-- The object stays of its kind, and it is in order after the change. -/
theorem Regular.modify {f : Obj → Obj} (hr : h.Regular)
    (hf : ∀ o, h.get? r = some o → (f o).fixed = o.fixed)
    (ho : ∀ o, h.get? r = some o → o.Regular h → (f o).Regular h) : (h.modify r f).Regular := by
  have hevolves : h.Evolves (h.modify r f) := evolves_modify hf
  refine ⟨hr.tidy.modify r f, fun r' o' ho' => ?_⟩
  rw [get?_modify] at ho'
  split at ho'
  · rename_i heq
    subst heq
    obtain ⟨o, hget, rfl⟩ := Option.map_eq_some_iff.mp ho'
    exact hevolves.regular (ho o hget (hr.objects r' o hget))
  · exact hevolves.regular (hr.objects r' o' ho')

end Heap

end ScriptMachine
