import Mathlib
import ScriptMachine.Machine.Roots
import ScriptMachine.Proofs.Heap.Reachability

/-!
# ScriptMachine.Proofs.Machine.Soundness — what a machine holds

A machine is *sound* when its heap is healthy and everything it holds outside the heap is in the heap,
and of the kind that its place asks for: the values and closures of its fibers, its globals and
extensions, the names it looks up and the handle of its main task. The roots of a collection name all
of that, so a collection at any time leaves a sound machine.

`EvolvesOn.machine` is the lemma behind all others: what is sound over one heap is sound over another that
keeps the objects it refers to. A collection keeps what its roots reach, and the roots are all that a
machine holds, which is `Sound.collectGarbage`. A root that is forgotten would show up here, and nowhere
else.
-/

namespace ScriptMachine

variable {h h' : Heap} {m : Machine}

/-- What an activation holds is in the heap. -/
structure Frame.Sound (h : Heap) (f : Frame) : Prop where
  closure : h.Has f.closure .closure
  package : ∀ r ∈ f.package, h.Has r .package
  args : ∀ v ∈ f.args, h.Live v

/-- What a fiber holds is in the heap. -/
structure Fiber.Sound (h : Heap) (t : Fiber) : Prop where
  handle : h.Has t.handle .task
  stack : ∀ v ∈ t.stack, h.Live v
  frames : ∀ f ∈ t.frames, f.Sound h
  openUpvalues : ∀ e ∈ t.openUpvalues, h.Has e.2 .upvalue

/-- The names are strings of the heap. -/
structure Names.Sound (h : Heap) (n : Names) : Prop where
  init : h.Has n.init .string
  args : h.Has n.args .string
  answer : h.Has n.answer .string
  name : h.Has n.name .string

/-- **`m.Sound`** — the heap is healthy, and what the machine holds is in it. -/
structure Machine.Sound (m : Machine) : Prop where
  heap : m.heap.Healthy
  globals : m.globals.Holds m.heap m.heap.Live
  extensions : ∀ e ∈ m.extensions, e.2.Holds m.heap m.heap.IsMethod
  fiber : m.fiber.Sound m.heap
  queue : ∀ t ∈ m.queue, t.Sound m.heap
  names : m.names.Sound m.heap
  mainHandle : m.heap.Has m.mainHandle .task
  mainResult : ∀ v ∈ m.mainResult, m.heap.Live v

/-! ## What lasts -/

section EvolvesOn

variable {refs : Ref → Prop} (hh : h.EvolvesOn refs h')
include hh

/-- A frame stays sound where what it refers to is as it was. -/
theorem Heap.EvolvesOn.frame {f : Frame} (hf : f.Sound h) (hr : ∀ r ∈ f.roots, refs r) :
    f.Sound h' where
  closure := hh.has (hr _ List.mem_cons_self) hf.closure
  package r h := hh.has (hr r (.tail _ (List.mem_append_left _ (Option.mem_toList.mpr h))))
    (hf.package r h)
  args v h := hh.value (hf.args v h) fun r heq => hr r (.tail _ (List.mem_append_right _
    (List.mem_filterMap.mpr ⟨v, Array.mem_toList_iff.mpr h, by rw [heq]; rfl⟩)))

/-- And so does a task. -/
theorem Heap.EvolvesOn.fiber {t : Fiber} (ht : t.Sound h) (hr : ∀ r ∈ t.roots, refs r) :
    t.Sound h' := by
  simp only [Fiber.roots, List.mem_cons, List.mem_append] at hr
  refine ⟨hh.has (hr _ (.inl rfl)) ht.handle, fun v hv => ?_, fun f hf => ?_, fun e he => ?_⟩
  · refine hh.value (ht.stack v hv) fun r heq => hr r (.inr (.inl (.inl ?_)))
    exact List.mem_filterMap.mpr ⟨v, Array.mem_toList_iff.mpr hv, by rw [heq]; rfl⟩
  · exact hh.frame (ht.frames f hf) fun r h =>
      hr r (.inr (.inl (.inr (List.mem_flatMap.mpr ⟨f, hf, h⟩))))
  · exact hh.has (hr _ (.inr (.inr (List.mem_map_of_mem he)))) (ht.openUpvalues e he)

/-- **`EvolvesOn.machine`** — a machine stays sound over another heap, if that heap is healthy and has
what the machine holds. -/
theorem Heap.EvolvesOn.machine (hm : m.Sound) (heq : m.heap = h) (hh' : h'.Healthy)
    (hr : ∀ r ∈ m.roots, refs r) : { m with heap := h' }.Sound := by
  subst heq
  simp only [Machine.roots, List.mem_append, List.mem_cons, List.mem_flatMap, Option.mem_toList,
    List.not_mem_nil, or_false] at hr
  refine ⟨hh', ?_, fun e he => ?_, ?_, fun t ht => ?_, ⟨?_, ?_, ?_, ?_⟩, ?_, fun v hv => ?_⟩
  · exact hh.holds hm.globals (fun r h => hr r (by tauto)) fun _ => hh.value
  · refine hh.holds (hm.extensions e he) (fun r h => hr r ?_) fun _ => hh.isMethod
    exact .inl (.inl (.inl (.inl (.inr ⟨e, he, h⟩))))
  · exact hh.fiber hm.fiber fun r h => hr r (by tauto)
  · exact hh.fiber (hm.queue t ht) fun r h => hr r (.inl (.inl (.inr ⟨t, ht, h⟩)))
  · exact hh.has (hr _ (by tauto)) hm.names.init
  · exact hh.has (hr _ (by tauto)) hm.names.args
  · exact hh.has (hr _ (by tauto)) hm.names.answer
  · exact hh.has (hr _ (by tauto)) hm.names.name
  · exact hh.has (hr _ (by tauto)) hm.mainHandle
  · refine hh.value (hm.mainResult v hv) fun r heq => hr r (.inr ?_)
    rw [Option.mem_def.mp hv, heq]
    rfl

end EvolvesOn

theorem Heap.Evolves.fiber {t : Fiber} (hh : h.Evolves h') (ht : t.Sound h) : t.Sound h' :=
  (hh.on fun _ => True).fiber ht fun _ _ => trivial

theorem Heap.Evolves.frame {f : Frame} (hh : h.Evolves h') (hf : f.Sound h) : f.Sound h' :=
  (hh.on fun _ => True).frame hf fun _ _ => trivial

namespace Machine

/-- A machine stays sound while its heap goes on. -/
theorem Sound.evolve (hm : m.Sound) (hh : m.heap.Evolves h') (hh' : h'.Healthy) :
    { m with heap := h' }.Sound :=
  (hh.on fun _ => True).machine hm rfl hh' fun _ _ => trivial

/-- A machine with another running fiber. -/
theorem Sound.withFiber (hm : m.Sound) {t : Fiber} (ht : t.Sound m.heap) :
    { m with fiber := t }.Sound :=
  ⟨hm.heap, hm.globals, hm.extensions, ht, hm.queue, hm.names, hm.mainHandle, hm.mainResult⟩

theorem Sound.withQueue (hm : m.Sound) {ts : List Fiber} (hts : ∀ t ∈ ts, t.Sound m.heap) :
    { m with queue := ts }.Sound :=
  ⟨hm.heap, hm.globals, hm.extensions, hm.fiber, hts, hm.names, hm.mainHandle, hm.mainResult⟩

theorem Sound.withGlobals (hm : m.Sound) {t : Table Value} (ht : t.Holds m.heap m.heap.Live) :
    { m with globals := t }.Sound :=
  ⟨hm.heap, ht, hm.extensions, hm.fiber, hm.queue, hm.names, hm.mainHandle, hm.mainResult⟩

/-- **`Sound.collectGarbage`** — a collection leaves a sound machine. -/
theorem Sound.collectGarbage (hm : m.Sound) : m.collectGarbage.2.Sound := by
  have hsound := (hm.heap.sound.evolvesOn_collect m.roots).machine hm rfl (hm.heap.collect m.roots)
    fun r hr => .root hr
  exact ⟨hsound.heap, hsound.globals, hsound.extensions, hsound.fiber, hsound.queue, hsound.names,
    hsound.mainHandle, hsound.mainResult⟩

end Machine

end ScriptMachine
