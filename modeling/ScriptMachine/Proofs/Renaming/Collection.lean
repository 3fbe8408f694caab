import Mathlib
import ScriptMachine.Proofs.Machine.Turns
import ScriptMachine.Proofs.Renaming.Stepping

/-!
# ScriptMachine.Proofs.Renaming.Collection — a collection on one side

A collection keeps what is reachable and forgets the rest, so after it a machine is alike to whatever
it was alike to, under the pairing of the reachable references. What a machine holds is reachable: its
roots are, and so are the constants of the code it runs, since an activation keeps its closure and the
closure its function.

`Like.collectGarbage` is the result, and the only lemma of the comparison in which just one of the two
machines does something. The pairing gets smaller by it, while in all others it grows. That validity is
needed is because of the constants: nothing but the discipline of code ties the code which an activation
runs to the closure it holds.
-/

namespace ScriptMachine

variable {β : Pairing} {m n : Machine} {h : Heap} {t : Fiber} {r : Ref}

/-- **`f.Runs h`** — the activation runs the code of the function of its closure. -/
def Frame.Runs (h : Heap) (f : Frame) : Prop :=
  ∃ c p, h.closure? f.closure = some c ∧ h.prototype? c.prototype = some p ∧ f.chunk = p.chunk

theorem Activation.Sound.runs {a : Activation} {depth : Nat} (ha : a.Sound h depth) :
    a.frame.Runs h := by
  obtain ⟨c, hc, hp⟩ := ha.closure
  exact ⟨c, a.function, hc, hp, ha.chunk⟩

/-- By induction on the activations that wait. -/
theorem Waiting.runs {opens : Nat → Prop} {stack : Array Value} {as : List Activation}
    {top results : Nat} (hw : Waiting h opens stack as top results) : ∀ a ∈ as, a.frame.Runs h := by
  induction hw with
  | bottom => nofun
  | call sound _ _ _ _ _ _ _ _ _ _ ih =>
    intro a ha
    rcases List.mem_cons.mp ha with rfl | ha
    · exact sound.runs
    · exact ih a ha

theorem Fiber.Alive.runs (ht : t.Alive h) : ∀ f ∈ t.frames, f.Runs h := by
  obtain ⟨a, rest, q, hp⟩ := ht
  intro f hf
  rw [hp.frames] at hf
  rcases List.mem_cons.mp hf with rfl | hf
  · exact hp.sound.runs
  · obtain ⟨b, hb, rfl⟩ := List.mem_map.mp hf
    exact hp.waiting.runs b hb

namespace Machine

/-- Every activation of every task runs the code of its closure. -/
theorem Valid.runs (hv : m.Valid) (ht : t = m.fiber ∨ t ∈ m.queue) : ∀ f ∈ t.frames, f.Runs m.heap := by
  rcases ht with rfl | ht
  · rcases hv.running with hspent | halive
    · rw [hspent.frames]
      nofun
    · exact halive.runs
  · exact (hv.waiting t ht).runs

/-- **`m.Keeps r`** — what a collection keeps. -/
def Keeps (m : Machine) (r : Ref) : Prop :=
  Reach m.heap.get? m.roots r

/-- A collection keeps what a fiber refers to. -/
theorem keeps_root (hr : r ∈ t.roots) (ht : t = m.fiber ∨ t ∈ m.queue) : m.Keeps r := by
  refine .root ?_
  simp only [roots, List.mem_append, List.mem_flatMap]
  rcases ht with rfl | ht
  · exact .inl (.inl (.inl (.inr hr)))
  · exact .inl (.inl (.inr ⟨t, ht, hr⟩))

/-- **`Valid.keeps`** — everything that a fiber holds is kept, the constants of its code included. -/
theorem Valid.keeps (hv : m.Valid) (ht : t = m.fiber ∨ t ∈ m.queue) (hr : t.Holds r) : m.Keeps r := by
  rcases hr with hr | ⟨f, hf, hr⟩
  · exact keeps_root hr ht
  · obtain ⟨c, p, hc, hp, hchunk⟩ := hv.runs ht f hf
    have hclosure : m.Keeps f.closure := keeps_root (List.mem_cons_of_mem _ (List.mem_append_left _
      (List.mem_append_right _ (List.mem_flatMap.mpr ⟨f, hf, List.mem_cons_self⟩)))) ht
    have hprototype : m.Keeps c.prototype :=
      .follow hclosure (Heap.closure?_eq_some.mp hc) List.mem_cons_self
    rw [hchunk] at hr
    exact .follow hprototype (Heap.prototype?_eq_some.mp hp) (List.mem_append_right _ hr)

/-- What the machine holds outside its fibers is kept too. -/
theorem keeps_shared : (∀ r ∈ m.globals.references, m.Keeps r) ∧
    (∀ e ∈ m.extensions, ∀ r ∈ e.2.references, m.Keeps r) ∧
    (∀ r ∈ [m.names.init, m.names.args, m.names.answer, m.names.name, m.mainHandle], m.Keeps r) ∧
    ∀ v ∈ m.mainResult, ∀ r ∈ v.ref?, m.Keeps r := by
  refine ⟨fun r hr => .root ?_, fun e he r hr => .root ?_, fun r hr => .root ?_,
    fun v hv r hr => .root ?_⟩
  all_goals simp only [roots, List.mem_append, List.mem_flatMap, Option.mem_toList]
  · exact .inl (.inl (.inl (.inl (.inl hr))))
  · exact .inl (.inl (.inl (.inl (.inr ⟨e, he, hr⟩))))
  · exact .inl (.inr hr)
  · exact .inr (Option.mem_bind_iff.mpr ⟨v, hv, hr⟩)

/-- **`Like.collectGarbage`** — a collection makes no difference to what the machine is alike to. -/
theorem Like.collectGarbage (hm : m.Like β n) (hv : m.Valid) :
    m.collectGarbage.2.Like (β.restrict m.Keeps) n := by
  obtain ⟨hglobals, hextension, hshared, hresult⟩ := m.keeps_shared
  have hkept : ∀ {r}, m.Keeps r → m.collectGarbage.2.heap.get? r = m.heap.get? r :=
    hv.sound.heap.sound.unmarked.get?_collect_of_reach
  have hextensions := (List.forall₂_and_left (p := (· ∈ m.extensions)) _ _).mpr
    ⟨fun _ he => he, hm.extensions⟩
  have hqueue := (List.forall₂_and_left (p := (· ∈ m.queue)) _ _).mpr ⟨fun _ ht => ht, hm.queue⟩
  have hname : ∀ {r s}, r ∈ [m.names.init, m.names.args, m.names.answer, m.names.name, m.mainHandle] →
      β.rel r s → (β.restrict m.Keeps).rel r s := fun hr hrs => ⟨hshared _ hr, hrs⟩
  have hnames : m.names.Like (β.restrict m.Keeps) n.names :=
    ⟨hname (by simp) hm.names.init, hname (by simp) hm.names.args,
      hname (by simp) hm.names.answer, hname (by simp) hm.names.name⟩
  have hhandle : (β.restrict m.Keeps).rel m.mainHandle n.mainHandle := hname (by simp) hm.mainHandle
  -- every part of the machine holds only what is kept, so it stays paired
  refine { hm with
    heap := ⟨fun r s hr => ?_, ⟨hm.heap.left.tidy.collect _, hm.heap.left.interned.collect _⟩,
      hm.heap.right⟩
    globals := hm.globals.transfer fun r s hr hrs => ⟨hglobals r hr, hrs⟩
    extensions := hextensions.imp fun e f he =>
      ⟨he.2.1, he.2.2.transfer fun r s hr hrs => ⟨hextension e he.1 r hr, hrs⟩⟩
    fiber := hm.fiber.transfer fun r s hr hrs => ⟨hv.keeps (.inl rfl) hr, hrs⟩
    queue := hqueue.imp fun t u ht => ht.2.transfer fun r s hr hrs =>
      ⟨hv.keeps (.inr ht.1) hr, hrs⟩
    mainResult := hm.mainResult.mono fun v hv w hvw => hvw.transfer fun r s hr hrs =>
      ⟨hresult v hv r hr, hrs⟩
    mainHandle := hhandle
    names := hnames
    stderr := ?_
    cells := fun t ht e he => ?_ }
  · obtain ⟨o, o', ho, ho', hlike⟩ := hm.heap.objects r s hr.2
    refine ⟨o, o', (hkept hr.1).trans ho, ho', hlike.transfer fun r' s' hr' hrs => ⟨?_, hrs⟩⟩
    -- what a kept object refers to is kept
    exact .follow hr.1 ho hr'
  · show (if m.config.heap.log then _ else _) = _
    rw [hm.config.unlogged.1]
    exact hm.stderr
  · obtain ⟨o, ho, hkind⟩ := hm.cells t ht e he
    refine ⟨o, (hkept ?_).trans ho, hkind⟩
    exact keeps_root (List.mem_cons_of_mem _ (List.mem_append_right _ (List.mem_map_of_mem he))) ht

end Machine

end ScriptMachine
