import Mathlib
import ScriptMachine.Compiler
import ScriptMachine.Machine.Calls
import ScriptMachine.Proofs.Heap.Contents
import ScriptMachine.Proofs.Heap.Interning
import ScriptMachine.Proofs.Heap.Regularity

/-!
# ScriptMachine.Proofs.Heap.Upkeep — what keeps a heap in order

A heap is *proper* when its tables and dictionaries are valid, the keys of its tables are its strings,
these are interned, and nothing has a mark. Making and changing objects keeps it so, whatever the
objects refer to, and so does a collection: the keys of a table are among the references of its object,
so that their strings stay as long as the object does.

`Proper` gathers what comparing and looking up rely on, and each way in which the machine changes a heap
has one lemma here, down to closing cells and resetting handles. Loading and compiling are among them:
they intern texts and allocate functions. The lemmas about instructions and natives build on these and
never open a table again.
-/

namespace ScriptMachine

/-- **`o.Fresh`** — the object is no string, its tables are empty, and a dictionary is valid. -/
structure Obj.Fresh (o : Obj) : Prop where
  noString : Heap.NoString o
  tables : ∀ t ∈ o.tables, t = .empty
  dict : ∀ d, o = .dict d → d.Valid

variable {h h' : Heap} {o : Obj} {r : Ref} {roots : List Ref} {f : Obj → Obj}

theorem Obj.Fresh.regular (ho : o.Fresh) (h : Heap) : o.Regular h :=
  ⟨fun t ht => ho.tables t ht ▸ Table.keyed_empty, ho.dict⟩

/-- An object that has no tables is in order wherever it is put. -/
theorem Obj.fresh_of_kind (hk : o.kind ∉ [Kind.string, .classObj, .instanceObj, .dict, .enumeration,
    .package]) : o.Fresh := by
  refine ⟨fun heq => hk (by simp [heq]), fun t ht => ?_, fun d heq => absurd hk (by simp [heq, kind])⟩
  cases o <;> simp_all [tables, kind]

namespace Obj

theorem regular_iff : o.Regular h ↔ (∀ t ∈ o.tables, t.Keyed h) ∧ ∀ d, o = .dict d → d.Valid :=
  ⟨fun ho => ⟨ho.tables, ho.dict⟩, fun ho => ⟨ho.1, ho.2⟩⟩

@[simp]
theorem regular_classObj {c : ClassObj} : (Obj.classObj c).Regular h ↔
    c.methods.Keyed h ∧ c.fields.Keyed h ∧ c.statics.Keyed h := by
  simp [regular_iff, tables]

@[simp]
theorem regular_instanceObj {i : InstanceObj} :
    (Obj.instanceObj i).Regular h ↔ i.fields.Keyed h := by
  simp [regular_iff, tables]

@[simp]
theorem regular_enumeration {e : Enumeration} :
    (Obj.enumeration e).Regular h ↔ e.members.Keyed h := by
  simp [regular_iff, tables]

@[simp]
theorem regular_package {p : Package} : (Obj.package p).Regular h ↔ p.symbols.Keyed h := by
  simp [regular_iff, tables]

@[simp]
theorem regular_dict {d : Dict Value} : (Obj.dict d).Regular h ↔ d.Valid := by
  simp [regular_iff, tables]

end Obj

/-- What refers to the table keeps the keys. -/
theorem Obj.key_mem_references {t : Table Value} (ht : t ∈ o.tables) {e : Key × Value}
    (he : e ∈ t.toList) : e.1.ref ∈ o.references := by
  have hkey : e.1.ref ∈ t.references := Table.mem_references.mpr ⟨e, he, .inl rfl⟩
  cases o <;> simp_all [Obj.tables, Obj.references]
  rcases ht with rfl | rfl | rfl <;> simp [hkey]

/-- A collection keeps the keys of what it keeps. -/
theorem Table.Keyed.collect {t : Table Value} (ht : t.Keyed h) (hu : h.Unmarked)
    (hkeys : ∀ e ∈ t.toList, Reach h.get? roots e.1.ref) : t.Keyed (h.collect roots).2 := by
  refine ⟨ht.valid, fun e he => ?_⟩
  have hk := ht.keys e he
  rw [Heap.key?_eq_some] at hk ⊢
  rwa [hu.get?_collect_of_reach (hkeys e he)]

namespace Heap

/-- **`h.Proper`** — the heap is regular, its strings are interned, and no object has a mark. -/
structure Proper (h : Heap) : Prop extends h.Regular where
  interned : h.Interned
  unmarked : h.Unmarked

theorem new_proper (config : HeapConfig) : (new config).Proper :=
  ⟨new_regular config, new_interned config, new_unmarked config⟩

theorem Proper.alloc (hh : h.Proper) (ho : o.Regular h) (hs : NoString o) :
    (h.alloc o).2.Proper :=
  ⟨hh.toRegular.alloc ho, hh.interned.alloc hh.tidy hs, hh.unmarked.alloc o⟩

theorem Proper.intern (hh : h.Proper) (s : String) : (h.intern s).2.Proper := by
  refine ⟨hh.toRegular.intern s, hh.interned.intern hh.tidy s, ?_⟩
  cases hfound : h.interned? s (hashText s) with
  | some r =>
    rw [intern_of_some hfound]
    exact hh.unmarked
  | none =>
    rw [intern_of_none hfound]
    exact fun i c hc => hh.unmarked.alloc (.string s (hashText s)) i c hc

/-- The strings of a heap stay as they are when objects keep their fixed parts. -/
theorem Interned.modify (hi : h.Interned) (hf : ∀ o, h.get? r = some o → (f o).fixed = o.fixed) :
    (h.modify r f).Interned := by
  refine hi.congr rfl fun r' s hash => ⟨fun hs => ?_, fun hs => ?_⟩
  · rw [get?_modify] at hs
    split at hs
    · obtain ⟨o, ho, hfo⟩ := Option.map_eq_some_iff.mp hs
      rename_i heq
      have hfixed := hf o (heq ▸ ho)
      rw [hfo] at hfixed
      rw [ho, Obj.eq_string_of_fixed hfixed.symm]
    · exact hs
  · exact ((evolves_modify hf).on fun _ => True).string trivial hs

theorem Proper.modify (hh : h.Proper) (hf : ∀ o, h.get? r = some o → (f o).fixed = o.fixed)
    (ho : ∀ o, h.get? r = some o → o.Regular h → (f o).Regular h) :
    (h.modify r f).Proper ∧ h.Evolves (h.modify r f) :=
  ⟨⟨hh.toRegular.modify hf ho, hh.interned.modify hf, hh.unmarked.modify r f⟩, evolves_modify hf⟩

/-- Thresholds and counts do not matter. -/
theorem Proper.congr (hh : h.Proper) (hcells : h'.cells = h.cells) (hfree : h'.free = h.free)
    (hstrings : h'.strings = h.strings) : h'.Proper := by
  have hget : ∀ r, h'.get? r = h.get? r := fun r => by rw [get?, get?, hcells]
  refine ⟨hh.toRegular.of_get? ⟨fun i hi => ?_, hfree ▸ hh.tidy.distinct⟩ hget,
    hh.interned.congr hstrings fun r s hash => by rw [hget], fun i c hc => ?_⟩
  · rw [hcells]
    exact hh.tidy.vacant i (hfree ▸ hi)
  · exact hh.unmarked i c (hcells ▸ hc)

/-- A cell takes another value over. -/
theorem Proper.writeCell {cell : Ref} (hh : h.Proper) (hcell : h.Has cell .upvalue) (v : Value) :
    (h.modify cell fun _ => .upvalue (.closed v)).Proper ∧
      h.Evolves (h.modify cell fun _ => .upvalue (.closed v)) := by
  refine hh.modify (fun o ho => ?_) fun o _ _ =>
    (Obj.fresh_of_kind (by simp [Obj.kind])).regular h
  obtain ⟨u, hu⟩ := has_upvalue.mp hcell
  rw [upvalue?_eq_some, ho] at hu
  rw [Option.some.inj hu]
  rfl

/-- A handle keeps its name and its task. -/
theorem Proper.modifyHandle (hh : h.Proper) (handle : Ref) (f : TaskHandle → TaskHandle)
    (hf : ∀ t, (f t).name = t.name ∧ (f t).id = t.id) :
    (h.modifyHandle handle f).Proper ∧ h.Evolves (h.modifyHandle handle f) := by
  refine hh.modify (fun o _ => ?_) fun o _ ho => ?_
  · cases o with
    | task t => simp [Obj.fixed, hf t]
    | _ => rfl
  · cases o with
    | task t => exact (Obj.fresh_of_kind (by simp [Obj.kind])).regular h
    | _ => exact ho

/-- By induction on the cells. -/
theorem Proper.closeCells {cells : List (Nat × Ref)} (stack : Array Value) (hh : h.Proper)
    (hcells : ∀ e ∈ cells, h.Has e.2 .upvalue) :
    (Fiber.closeCells stack cells h).Proper ∧ h.Evolves (Fiber.closeCells stack cells h) := by
  induction cells generalizing h with
  | nil => exact ⟨hh, .refl h⟩
  | cons e cells ih =>
    obtain ⟨hfirst, he⟩ := hh.writeCell (hcells e List.mem_cons_self) (stack.getD e.1 .none)
    obtain ⟨hrest, he'⟩ := ih hfirst fun e' he' => he.has (hcells e' (List.mem_cons_of_mem _ he'))
    exact ⟨hrest, he.trans he'⟩

/-- Closing cells changes no table, and the slots that are still shared were shared before. -/
theorem Proper.closeUpvalues {t : Fiber} (hh : h.Proper)
    (hcells : ∀ e ∈ t.openUpvalues, h.Has e.2 .upvalue) (slot : Nat) :
    (t.closeUpvalues slot h).2.Proper ∧ h.Evolves (t.closeUpvalues slot h).2 ∧
      ∀ e ∈ (t.closeUpvalues slot h).1.openUpvalues, e ∈ t.openUpvalues := by
  have hsplit : (t.splitOpen slot).1 ++ (t.splitOpen slot).2 = t.openUpvalues := by
    rw [Fiber.splitOpen, List.span_eq_takeWhile_dropWhile, List.takeWhile_append_dropWhile]
  unfold Fiber.closeUpvalues
  split
  · exact ⟨hh, .refl h, fun _ he => he⟩
  · obtain ⟨hclosed, he⟩ := hh.closeCells t.stack fun e he =>
      hcells e (hsplit ▸ List.mem_append_left _ he)
    exact ⟨hclosed, he, fun e he => hsplit ▸ List.mem_append_right _ he⟩

theorem Proper.reset {t : Fiber} (hh : h.Proper) (hcells : ∀ e ∈ t.openUpvalues, h.Has e.2 .upvalue) :
    (t.reset h).2.Proper ∧ h.Evolves (t.reset h).2 ∧
      ∀ e ∈ (t.reset h).1.openUpvalues, e ∈ t.openUpvalues :=
  hh.closeUpvalues hcells 0

/-- A proper heap is proper after a collection: texts that are kept stay in the table of texts. -/
theorem Proper.collect (hh : h.Proper) (roots : List Ref) : (h.collect roots).2.Proper := by
  refine ⟨⟨hh.tidy.collect roots, fun r o ho => ?_⟩, hh.interned.collect roots,
    unmarked_collect h roots⟩
  obtain ⟨ho, hreach⟩ := hh.unmarked.reach_of_get?_collect ho
  obtain ⟨htables, hdict⟩ := hh.objects r o ho
  exact ⟨fun t ht => (htables t ht).collect hh.unmarked fun e he =>
    .follow hreach ho (Obj.key_mem_references ht he), hdict⟩

theorem Proper.allocFresh (hh : h.Proper) (ho : o.Fresh) : (h.alloc o).2.Proper :=
  hh.alloc (ho.regular h) ho.noString

theorem Proper.load (hh : h.Proper) (image : Image) : (image.load h).2.Proper := by
  unfold Image.load
  refine Array.foldl_induction (fun _ (p : Array Ref × Heap) => p.2.Proper) hh fun i p hp => ?_
  cases image[i] with
  | text s => exact hp.intern s
  | function p => exact hp.allocFresh (Obj.fresh_of_kind (by simp [Obj.kind]))

theorem Proper.compile (hh : h.Proper) (source path : String) : (compile h source path).2.Proper := by
  have hpause : h.pause.Proper := hh.congr rfl rfl rfl
  unfold ScriptMachine.compile
  cases Compiler.translate source path with
  | mk result image => exact (hpause.load image).congr rfl rfl rfl

end Heap

end ScriptMachine
