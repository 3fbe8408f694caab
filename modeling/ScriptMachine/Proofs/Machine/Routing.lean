import Mathlib
import ScriptMachine.Proofs.Machine.Bodies
import ScriptMachine.Proofs.Machine.Running

/-!
# ScriptMachine.Proofs.Machine.Routing — an error goes to the innermost body a task is in

A task is in the body of a statement with a handler from the moment it has executed the instruction at
the start of it, as long as the activation that did so is there and stays between that instruction and
the handler. `Recounts` follows a history of the machine and keeps account of the bodies that tasks are
in. It looks at activations only, never at the handlers that the machine keeps.

The two agree. A handler is there only while its task is in the body it belongs to, and where something
fails the handlers are those of all bodies the task is in, the innermost first.

`Reachable.errors_routed` is the result. `Recounts` is the induction, with a step lemma for what leaves
and enters bodies (`Agrees.of_passes`, `Agrees.enters`) and one for errors (`Agrees.routes`). The
handlers of the machine are compared with the account, and never the other way round, so the account is
an independent witness of where an error should go. `errors_routed_nestedBodies` applies the result to a
run in which an error comes up within two bodies, one of them in a function that the other calls.

Errors that end the run are not routed. A file that does not compile is such an error, whoever loads it.
-/

namespace ScriptMachine

variable {m m' m₁ : Machine} {t t' : Fiber} {b b' : Attempt} {ts bs outer : List Attempt} {e : Fault}
  {f : Frame}

/-! ## Being in a body -/

/-- **`m.isInside b`** — the activation that has made the attempt is there, and it is in the body. -/
def Machine.isInside (m : Machine) (b : Attempt) : Bool :=
  m.fibers.any fun t => t.id = b.task &&
    (t.activation? b.below).any fun f => b.start < f.ip && f.ip < b.target

/-- **`Recounts m bs`** — a history that leads to `m`, and the bodies that tasks have entered in it and not
left since, the latest first. -/
inductive Recounts : Machine → List Attempt → Prop
  | new (config : Config) (files : Files) : Recounts (.new config files) []
  | enters {m m' : Machine} {bs : List Attempt} {b : Attempt} (hm : Recounts m bs)
      (hgoes : m.Goes m') (hb : m.Attempts b m') : Recounts m' ((b :: bs).filter m'.isInside)
  | goes {m m' : Machine} {bs : List Attempt} (hm : Recounts m bs) (hgoes : m.Goes m')
      (hnone : ∀ b, ¬ m.Attempts b m') : Recounts m' (bs.filter m'.isInside)
  | native {m : Machine} {bs : List Attempt} (hm : Recounts m bs) (name : String) (body : NativeBody) :
      Recounts (m.defineNative name body) bs

/-- The bodies that a task is in. -/
def Machine.bodiesOf (bs : List Attempt) (task : Nat) : List Attempt :=
  bs.filter fun b => b.task = task

/-- A recount is of a reachable machine. -/
theorem Recounts.reachable (ht : Recounts m bs) : m.Reachable := by
  induction ht with
  | new config files => exact .new config files
  | enters _ hgoes _ ih => exact .goes ih hgoes
  | goes _ hgoes _ ih => exact .goes ih hgoes
  | native _ name body ih => exact .native ih name body

/-- Every history can be followed. -/
theorem Machine.Reachable.exists_recounts (hm : m.Reachable) : ∃ bs, Recounts m bs := by
  induction hm with
  | new config files => exact ⟨_, .new config files⟩
  | @goes m m' _ hgoes ih =>
    obtain ⟨bs, ht⟩ := ih
    by_cases hb : ∃ b, m.Attempts b m'
    · obtain ⟨b, hb⟩ := hb
      exact ⟨_, .enters ht hgoes hb⟩
    · exact ⟨_, .goes ht hgoes fun b h => hb ⟨b, h⟩⟩
  | native _ name body ih =>
    obtain ⟨bs, ht⟩ := ih
    exact ⟨bs, .native ht name body⟩

/-- To be inside a try body is to have its activation among the frames of the task, between the
start and the target. -/
theorem Machine.isInside_iff : m.isInside b = true ↔
    ∃ t ∈ m.fibers, t.id = b.task ∧
      ∃ f, t.activation? b.below = some f ∧ b.start < f.ip ∧ f.ip < b.target := by
  unfold isInside
  simp [List.any_eq_true, Option.any_eq_true]

/-- **`m.Knows b`** — the activation that has made the attempt is there, and its code has the body. -/
def Machine.Knows (m : Machine) (b : Attempt) : Prop :=
  ∃ t ∈ m.fibers, t.id = b.task ∧
    ∃ f, t.activation? b.below = some f ∧ m.heap.Installs f b.start b.target

namespace Machine

/-- Two bodies of one activation that end at the same place are the same. -/
theorem Consistent.start_inj (hc : m.Consistent) (hb : m.Knows b) (hb' : m.Knows b')
    (htask : b.task = b'.task) (hbelow : b.below = b'.below) (htarget : b.target = b'.target) :
    b.start = b'.start := by
  obtain ⟨t, ht, hid, f, hf, hinstalls⟩ := hb
  obtain ⟨t', ht', hid', f', hf', hinstalls'⟩ := hb'
  obtain rfl := hc.tasks.id_inj t ht t' ht' (hid.trans (htask.trans hid'.symm))
  rw [hbelow] at hf
  obtain rfl := Option.some.inj (hf.symm.trans hf')
  rw [htarget] at hinstalls
  exact hinstalls.start_inj hinstalls'

/-- An attempt is made by the innermost activation of the running fiber, before the body. -/
theorem Attempts.first (hb : m.Attempts b m') : b.task = m.fiber.id ∧
    ∃ f, m.fiber.activation? b.below = some f ∧ f.ip = b.start := by
  obtain ⟨⟨f, rest, i, hframes, -, -, rfl⟩, -⟩ := hb
  exact ⟨rfl, f, Fiber.activation?_eq_some.mpr ⟨[], rest, hframes, rfl⟩, rfl⟩

/-- A step enters one body at most. -/
theorem Attempts.inj (hb : m.Attempts b m') (hb' : m.Attempts b' m') : b = b' := by
  obtain ⟨⟨f, rest, i, hframes, hi, -, rfl⟩, -⟩ := hb
  obtain ⟨⟨f', rest', i', hframes', hi', -, rfl⟩, -⟩ := hb'
  obtain ⟨rfl, rfl⟩ := List.cons.inj (hframes.symm.trans hframes')
  obtain rfl := Option.some.inj (hi.symm.trans hi')
  rfl

/-- The code of the activation has the body. -/
theorem Valid.knows (hv : m.Valid) (hb : m.Attempts b m') : m.Knows b := by
  obtain ⟨⟨f, frames, i, hframes, hi, hop, rfl⟩, -⟩ := hb
  have hlive : m.fiber.isDone = false := by simp [Fiber.isDone, hframes]
  obtain ⟨a, rest, q, hp⟩ := hv.alive_of_live hlive
  obtain ⟨rfl, rfl⟩ := List.cons.inj (hframes.symm.trans hp.frames)
  have hdecode := hp.sound.instruction? hp.mem
  rw [← hp.ip] at hdecode
  obtain rfl := Option.some.inj (hi.symm.trans hdecode)
  refine ⟨m.fiber, List.mem_cons_self, rfl, a.frame,
    Fiber.activation?_eq_some.mpr ⟨[], _, hp.frames, rfl⟩, ?_⟩
  have hinstalls := hp.sound.installs hp.mem hop
  rw [← hp.ip] at hinstalls
  rwa [hp.width_forward (by rw [hop]; rfl)]

/-- **`Passes.knows`** — an activation that is in the body after a step was there before, and its code is
what it was. -/
theorem Passes.knows (hp : m.Passes m') (hc : m.Consistent) (hs : m'.Sound) (hb : m.Knows b)
    (ht' : t' ∈ m'.fibers) (hid : t'.id = b.task) {f' : Frame}
    (hget : t'.activation? b.below = some f') (hip : f'.ip ≠ 0) :
    m'.heap.Installs f' b.start b.target := by
  obtain ⟨inner, outer, hframes, -⟩ := Fiber.activation?_eq_some.mp hget
  have hmem : f' ∈ t'.frames := by
    rw [hframes]
    simp
  rcases hp t' ht' with hbegins | ⟨hpersists, t, ht, hbrings⟩
  · exact (hip (hbegins.start f' hmem)).elim
  rcases hbrings.advances.activation hget with hzero | ⟨f, ip, hf, rfl⟩
  · exact (hip hzero).elim
  obtain ⟨u, hu, hid', g, hg, hinstalls⟩ := hb
  obtain rfl := hc.tasks.id_inj t ht u hu (hbrings.id.symm.trans (hid.trans hid'.symm))
  obtain rfl := Option.some.inj (hf.symm.trans hg)
  exact hinstalls.persists hpersists hs.heap.sound rfl rfl
    ((hs.of_mem_fibers ht').frames _ hmem).closure

end Machine

/-! ## Handlers and bodies -/

/-- A list all of whose elements come from those that a test keeps comes from what it keeps. -/
theorem sublist_map_filter {α β : Type} {l : List β} {cs : List α} {g : α → β} {p : α → Bool}
    (hl : l.Sublist (cs.map g)) (hp : ∀ c ∈ cs, g c ∈ l → p c = true) :
    l.Sublist ((cs.filter p).map g) := by
  obtain ⟨l', hsub, rfl⟩ := List.sublist_map_iff.mp hl
  have hkeep := hsub.filter p
  rw [List.filter_eq_self.mpr fun c hc => hp c (hsub.subset hc) (List.mem_map_of_mem hc)] at hkeep
  exact hkeep.map g

/-- **`m.Agrees bs`** — the handlers that the machine keeps are of bodies that tasks are in. -/
structure Machine.Agrees (m : Machine) (bs : List Attempt) : Prop where
  inside : ∀ b ∈ bs, m.isInside b = true
  known : ∀ b ∈ bs, m.Knows b
  distinct : bs.Pairwise fun b b' => b.task = b'.task → b.below = b'.below → b.start ≠ b'.start
  handlers : ∀ t ∈ m.fibers, t.handlers.Sublist ((Machine.bodiesOf bs t.id).map Attempt.handler)

namespace Machine

theorem mem_bodiesOf {task : Nat} : b ∈ bodiesOf bs task ↔ b ∈ bs ∧ b.task = task := by
  simp [bodiesOf]

/-- A fiber of a valid machine is alive, or it holds on to nothing. -/
theorem Valid.spent_or_alive (hv : m.Valid) (ht : t ∈ m.fibers) : t.Spent ∨ t.Alive m.heap := by
  rcases mem_fibers.mp ht with rfl | ht
  · exact hv.running
  · exact .inr (hv.waiting t ht)

/-- **`Agrees.of_passes`** — bodies that have been left are struck from the account, and no handler of
them is left. -/
theorem Agrees.of_passes (hv : m.Valid) (hv' : m'.Valid) (hp : m.Passes m')
    (hknown : ∀ b ∈ bs, m.Knows b)
    (hdistinct : bs.Pairwise fun b b' => b.task = b'.task → b.below = b'.below → b.start ≠ b'.start)
    (hhandlers : ∀ t ∈ m'.fibers, t.handlers.Sublist ((bodiesOf bs t.id).map Attempt.handler)) :
    m'.Agrees (bs.filter m'.isInside) where
  inside b hb := (List.mem_filter.mp hb).2
  known b hb := by
    obtain ⟨hmem, hinside⟩ := List.mem_filter.mp hb
    obtain ⟨t, ht, hid, f, hf, hstart, -⟩ := isInside_iff.mp hinside
    exact ⟨t, ht, hid, f, hf, hp.knows hv.toConsistent hv'.sound (hknown b hmem) ht hid hf (by omega)⟩
  distinct := hdistinct.filter _
  handlers t ht := by
    have hfilter : bodiesOf (bs.filter m'.isInside) t.id = (bodiesOf bs t.id).filter m'.isInside := by
      unfold bodiesOf
      rw [List.filter_filter, List.filter_filter]
      exact List.filter_congr fun c _ => Bool.and_comm ..
    rw [hfilter]
    refine sublist_map_filter (hhandlers t ht) fun b hb hhd => ?_
    obtain ⟨hmem, hid⟩ := mem_bodiesOf.mp hb
    obtain ⟨i, f, start, hdepth, hf, hinstalls, hstart, htarget⟩ :=
      ((hv'.spent_or_alive ht).resolve_left fun hspent =>
        List.ne_nil_of_mem hhd hspent.handlers).stands hhd
    obtain rfl : b.below = i := Nat.succ.inj hdepth
    have hbody := hp.knows hv.toConsistent hv'.sound (hknown b hmem) ht hid.symm hf (by omega)
    rw [hinstalls.start_inj hbody] at hstart
    exact isInside_iff.mpr ⟨t, ht, hid.symm, f, hf, hstart, htarget⟩

/-- The handlers of a fiber are of bodies that its task was in, or of the one it has entered. -/
theorem Agrees.handlers_of_passes (ha : m.Agrees bs) (hp : m.Passes m') {cs : List Attempt}
    (hsub : bs.Sublist cs) (hnew : ∀ b, m.Attempts b m' → cs = b :: bs) :
    ∀ t ∈ m'.fibers, t.handlers.Sublist ((bodiesOf cs t.id).map Attempt.handler) := by
  intro t' ht'
  rcases hp t' ht' with hbegins | ⟨-, t, ht, hbrings⟩
  · rw [hbegins.handlers]
    exact List.nil_sublist _
  rw [hbrings.id]
  rcases hbrings.handlers with hsuffix | ⟨rfl, b, hb, heq⟩
  · exact (hsuffix.sublist.trans (ha.handlers t ht)).trans ((hsub.filter _).map _)
  · rw [heq, hnew b hb, bodiesOf, List.filter_cons_of_pos (by simp [hb.first.1])]
    exact (ha.handlers _ ht).cons_cons _

/-- **`Agrees.enters`** — the body that is entered is none that its task is in. -/
theorem Agrees.enters (ha : m.Agrees bs) (hc : m.Consistent) (hb : m.Attempts b m') :
    (b :: bs).Pairwise fun b b' => b.task = b'.task → b.below = b'.below → b.start ≠ b'.start := by
  refine List.pairwise_cons.mpr ⟨fun b' hb' htask hbelow hstart => ?_, ha.distinct⟩
  obtain ⟨hid, f, hf, hip⟩ := hb.first
  obtain ⟨t, ht, hid', f', hf', hlt, -⟩ := isInside_iff.mp (ha.inside b' hb')
  obtain rfl := hc.tasks.id_inj t ht m.fiber List.mem_cons_self (hid'.trans (htask.symm.trans hid))
  rw [← hbelow] at hf'
  obtain rfl := Option.some.inj (hf.symm.trans hf')
  omega

/-- A native function is defined. -/
theorem Agrees.native (ha : m.Agrees bs) (hv : m.Valid) (name : String) (body : NativeBody) :
    (m.defineNative name body).Agrees bs := by
  have htidy := hv.toConsistent.heap_sound.tidy
  have hvalid := hv.definingNative name body
  have hfibers : (m.defineNative name body).fibers = m.fibers := fibers_defineGlobal _ name _
  have hpersists : m.heap.Persists (m.defineNative name body).heap := by
    rw [heap_defineNative]
    exact ((htidy.keeps_alloc _).evolves.trans
      ((htidy.alloc (.native ⟨name, body⟩)).still_intern name).evolves).persists
  refine ⟨fun b hb => ?_, fun b hb => ?_, ha.distinct, fun t ht => ha.handlers t (hfibers ▸ ht)⟩
  · rw [← ha.inside b hb, isInside, isInside, hfibers]
  · obtain ⟨t, ht, hid, f, hf, hinstalls⟩ := ha.known b hb
    rw [← hfibers] at ht
    obtain ⟨inner, outer, hframes, -⟩ := Fiber.activation?_eq_some.mp hf
    have hmem : f ∈ t.frames := by
      rw [hframes]
      simp
    exact ⟨t, ht, hid, f, hf, hinstalls.persists hpersists hvalid.sound.heap.sound rfl rfl
      ((hvalid.sound.of_mem_fibers ht).frames f hmem).closure⟩

end Machine

/-- **`Recounts.agrees`** — the account of a history agrees with the handlers. -/
theorem Recounts.agrees (hr : Recounts m bs) : m.Agrees bs := by
  induction hr with
  | new config files =>
    refine ⟨nofun, nofun, .nil, fun t ht => ?_⟩
    have hidle := Machine.idle_new config files
    rw [Machine.fibers, hidle.queue, List.mem_singleton] at ht
    rw [ht, hidle.fiber.handlers]
    exact List.nil_sublist _
  | @enters m m' bs b hm hgoes hb ih =>
    have hv := hm.reachable.valid
    refine .of_passes hv (hv.goes hgoes).1 (hv.passes hgoes) (List.forall_mem_cons.mpr
      ⟨hv.knows hb, ih.known⟩) (ih.enters hv.toConsistent hb)
      (ih.handlers_of_passes (hv.passes hgoes) (List.sublist_cons_self ..) fun b' hb' => ?_)
    rw [hb'.inj hb]
  | @goes m m' bs hm hgoes hnone ih =>
    have hv := hm.reachable.valid
    exact .of_passes hv (hv.goes hgoes).1 (hv.passes hgoes) ih.known ih.distinct
      (ih.handlers_of_passes (hv.passes hgoes) (.refl _) fun b hb => (hnone b hb).elim)
  | native hm name body ih => exact ih.native hm.reachable.valid name body

/-! ## Where something fails -/

namespace Machine

/-- **`Valid.throws`** — an error leaves all activations where they are, and the innermost one at an
instruction that can fail. -/
theorem Valid.throws (hv : m.Valid) (ht : m.Throws e m₁) : m₁.Faulting ∧ e.Catchable ∧
    ∃ t ∈ m.fibers, m₁.fiber.id = t.id ∧ m₁.fiber.handlers = t.handlers ∧
      ∃ a rest q ip, t.Poised m.heap a rest q ∧ q.instr.op.mayRaise = true ∧
        m₁.fiber.frames = { a.frame with ip } :: rest.map Activation.frame := by
  cases ht with
  | fails hready hhonest hstep hcatchable =>
    obtain ⟨a, rest, q, k, hs, hraises, hamid, hfaulting⟩ :=
      hv.fails hready hhonest hstep fun hstuck => by
        rw [hstuck] at hcatchable
        exact hcatchable
    have hfiber : m₁.fiber = { (Stepping.inside m a rest q).fiber with stack := m₁.fiber.stack } :=
      hamid.fiber
    refine ⟨hfaulting, hcatchable, m.fiber, List.mem_cons_self, ?_, ?_, a, rest, q, _, hs.poised, hraises,
      by rw [hfiber]; rfl⟩ <;> rw [hfiber] <;> rfl
  | deadlock hturn he =>
    obtain ⟨hfaulting, (_ : Moves (fun _ => False) _ _)⟩ := hturn.faulting hv
    obtain ⟨-, hlasts⟩ := hturn.lasts
    obtain ⟨t, ht, hlasts⟩ := hlasts m₁.fiber List.mem_cons_self
    refine ⟨hfaulting, he ▸ trivial, t, ht, hlasts.id, hlasts.handlers, ?_⟩
    -- all that is left to run waits for tasks
    have hlive : t.isDone = false := by
      have htold := (hturn.told hv.queue_live).1
      rwa [Fiber.isDone, hlasts.frames] at htold
    have halive : t ∈ m.alive := by
      unfold alive
      rcases mem_fibers.mp ht with rfl | ht
      · simp [hlive]
      · split
        · exact ht
        · exact List.mem_cons_of_mem _ ht
    obtain ⟨task, hparked⟩ := (hturn.turn_spec.2.2 rfl).2 t halive
    obtain ⟨a, rest, q, hp⟩ := (hv.spent_or_alive ht).resolve_left fun hspent => by
      rw [hspent.done] at hlive
      cases hlive
    exact ⟨a, rest, q, a.frame.ip, hp, by rw [hp.parked task hparked]; rfl,
      hlasts.frames.trans hp.frames⟩

/-- A body is known by its task, its activation and where it ends. -/
theorem Agrees.eq_of_handler (ha : m.Agrees bs) (hc : m.Consistent) (hb : b ∈ bs) (hb' : b' ∈ bs)
    (htask : b.task = b'.task) (hbelow : b.below = b'.below) (htarget : b.target = b'.target) :
    b = b' := by
  by_contra hne
  have : Std.Symm fun b b' : Attempt =>
      b.task = b'.task → b.below = b'.below → b.start ≠ b'.start :=
    ⟨fun _ _ h htask hbelow hstart => h htask.symm hbelow.symm hstart.symm⟩
  exact ha.distinct.forall hb hb' hne htask hbelow
    (hc.start_inj (ha.known b hb) (ha.known b' hb') htask hbelow htarget)

/-- **`Agrees.handlers_eq`** — where something fails, the handlers are those of all bodies. -/
theorem Agrees.handlers_eq {a : Activation} {rest : List Activation} {q : Placed} (ha : m.Agrees bs)
    (hc : m.Consistent) (ht : t ∈ m.fibers) (hp : t.Poised m.heap a rest q)
    (hraises : q.instr.op.mayRaise = true) :
    t.handlers = (bodiesOf bs t.id).map Attempt.handler := by
  have hsub := ha.handlers t ht
  have hinj : ∀ b ∈ bodiesOf bs t.id, ∀ b' ∈ bodiesOf bs t.id, b.below = b'.below →
      b.target = b'.target → b = b' := by
    intro b hb b' hb'
    obtain ⟨hb, hid⟩ := mem_bodiesOf.mp hb
    obtain ⟨hb', hid'⟩ := mem_bodiesOf.mp hb'
    exact ha.eq_of_handler hc hb hb' (hid.trans hid'.symm)
  have hnodup : ((bodiesOf bs t.id).map Attempt.handler).Nodup := by
    refine List.Nodup.map_on (fun b hb b' hb' heq => hinj b hb b' hb' ?_ ?_) ?_
    · exact Nat.succ.inj (congrArg Handler.depth heq)
    · exact congrArg Handler.target heq
    · refine (ha.distinct.filter _).imp fun h heq => ?_
      exact h (congrArg _ heq) (congrArg _ heq) (congrArg _ heq)
  have hall : (bodiesOf bs t.id).map Attempt.handler ⊆ t.handlers := by
    intro hd hhd
    obtain ⟨b, hb, rfl⟩ := List.mem_map.mp hhd
    obtain ⟨hmem, hid⟩ := mem_bodiesOf.mp hb
    obtain ⟨u, hu, huid, f, hf, hstart, htarget⟩ := isInside_iff.mp (ha.inside b hmem)
    obtain ⟨v, hv, hvid, g, hg, hinstalls⟩ := ha.known b hmem
    obtain rfl := hc.tasks.id_inj u hu t ht (huid.trans hid)
    obtain rfl := hc.tasks.id_inj v hv u ht (hvid.trans hid)
    obtain rfl := Option.some.inj (hf.symm.trans hg)
    obtain ⟨hd, hhd, hdepth, hends⟩ := hp.installed hraises hf hinstalls hstart htarget
    obtain ⟨b', hb', rfl⟩ := List.mem_map.mp (hsub.subset hhd)
    rwa [hinj b hb b' hb' (Nat.succ.inj hdepth).symm hends.symm]
  exact hsub.eq_of_length_le (hnodup.subperm hall).length_le

end Machine

/-! ## Where errors go -/

/-- The fiber at the handler of the body `b`, in the activation `f` that has `others` below it. What was
on the stack when the body was entered is there, and a text on top; `outer` are the bodies that the task
is still in. -/
def Fiber.resumed (t : Fiber) (b : Attempt) (outer : List Attempt) (f : Frame) (others : List Frame)
    (text : Ref) : Fiber :=
  { t with
    stack := (t.stack.shrink b.height).push (.obj text)
    frames := { f with ip := b.target } :: others
    openUpvalues := t.openBelow b.height
    handlers := outer.map Attempt.handler }

namespace Machine

/-- **`m.Catches e m₁ b outer`** — the error `e`, which leaves `m₁`, goes to the handler of the body `b`
in the activation that has entered it: those above are gone, the stack has its height again, and the
message is on top, in the slot that the code notes for the variable of the handler. -/
def Catches (m : Machine) (e : Fault) (m₁ : Machine) (b : Attempt) (outer : List Attempt) : Prop :=
  ∃ f inner others text, m₁.fiber.frames = inner ++ f :: others ∧ others.length = b.below ∧
    (∃ t ∈ m.fibers, t.id = b.task ∧ ∃ ip, t.activation? b.below = some { f with ip }) ∧
    f.base ≤ b.height ∧ b.height ≤ m₁.fiber.stack.size ∧
    (b.target, b.height - f.base) ∈ f.chunk.catches ∧ (m₁.raise e).1 = none ∧
    (m₁.raise e).2.fiber = m₁.fiber.resumed b outer f others text ∧
    (m₁.raise e).2.queue = m₁.queue ∧ (m₁.raise e).2.heap.text? text = some e.message

/-- **`m.Routes bs`** — an error goes to the innermost of the bodies `bs` that its task is in. -/
structure Routes (m : Machine) (bs : List Attempt) : Prop where
  /-- No handler is there without its body, and the innermost body comes first. -/
  handlers : ∀ t ∈ m.fibers, t.handlers.Sublist ((bodiesOf bs t.id).map Attempt.handler)
  /-- Where something fails, no handler is missing. -/
  installed : ∀ e m₁, m.Throws e m₁ →
    m₁.fiber.handlers = (bodiesOf bs m₁.fiber.id).map Attempt.handler
  /-- In a body, the task goes on at the handler of the innermost one. -/
  caught : ∀ e m₁ b outer, m.Throws e m₁ → bodiesOf bs m₁.fiber.id = b :: outer →
    m.Catches e m₁ b outer
  /-- Outside of all bodies, the task ends, and if it is the main task so does the run. -/
  uncaught : ∀ e m₁, m.Throws e m₁ → bodiesOf bs m₁.fiber.id = [] →
    m₁.fiber.handlers = [] ∧ m₁.raise e =
      if m₁.fiber.id = mainTask then (some (.runtimeError (m₁.runtimeError e.message)), m₁.abandon)
      else (none, { m₁ with
        stderr := m₁.stderr ++ (m₁.runtimeError e.message).text ++ "\n" }.resetFiber.finishTask .none)

/-- **`Faulting.catches`** — an error goes on at the handler that was installed last. -/
theorem Faulting.catches (hf : m₁.Faulting) (he : e.Catchable)
    (hhandlers : m₁.fiber.handlers = b.handler :: outer.map Attempt.handler)
    (hstays : ∀ i f, m₁.fiber.activation? i = some f →
      ∃ t ∈ m.fibers, t.id = b.task ∧ ∃ ip, t.activation? i = some { f with ip }) :
    m.Catches e m₁ b outer := by
  obtain ⟨f, inner, others, hframes, hdepth, -, hbase, hsize, hcatches, heq⟩ :=
    hf.unwound e.message hhandlers
  obtain hbelow : others.length = b.below := Nat.succ.inj hdepth
  obtain ⟨hc, -⟩ : (m₁.cutBack b.handler (outer.map Attempt.handler) f others).Consistent ∧
      Moves (fun _ => False) _ _ := hf.toConsistent.cutBack b.handler _ fun g hg => by
    rw [hframes]
    exact List.mem_append_right _ hg
  refine ⟨f, inner, others, ((m₁.cutBack b.handler (outer.map Attempt.handler) f others).heap.intern
    e.message).1, hframes, hbelow,
    hstays _ f (Fiber.activation?_eq_some.mpr ⟨inner, others, hframes, hbelow⟩), hbase, hsize,
    hcatches, ?_, ?_, ?_, ?_⟩ <;> rw [raise_handled he hhandlers, heq]
  · rfl
  · rfl
  · exact (hc.heap_sound.tidy.intern e.message).2.2

/-- **`Agrees.routes`** — wherever the account agrees with the handlers, errors go by it. -/
theorem Agrees.routes (ha : m.Agrees bs) (hv : m.Valid) : m.Routes bs := by
  have hinstalled : ∀ e m₁, m.Throws e m₁ →
      m₁.fiber.handlers = (bodiesOf bs m₁.fiber.id).map Attempt.handler := by
    intro e m₁ hthrows
    obtain ⟨-, -, t, ht, hid, hhandlers, a, rest, q, ip, hp, hraises, -⟩ := hv.throws hthrows
    rw [hhandlers, hid]
    exact ha.handlers_eq hv.toConsistent ht hp hraises
  refine ⟨ha.handlers, hinstalled, fun e m₁ b outer hthrows hbodies => ?_,
    fun e m₁ hthrows hbodies => ?_⟩
  · have hhandlers := hinstalled e m₁ hthrows
    rw [hbodies, List.map_cons] at hhandlers
    obtain ⟨hf, he, t, ht, hid, -, a, rest, q, ip, hp, -, hframes⟩ := hv.throws hthrows
    have hmem : b ∈ bodiesOf bs m₁.fiber.id := by
      rw [hbodies]
      exact List.mem_cons_self
    refine hf.catches he hhandlers fun i f hget => ⟨t, ht,
      hid.symm.trans (mem_bodiesOf.mp hmem).2.symm, ?_⟩
    obtain ⟨inner, outer, hsplit, hlen⟩ := Fiber.activation?_eq_some.mp hget
    cases inner with
    | nil =>
      obtain ⟨rfl, rfl⟩ := List.cons.inj (hframes.symm.trans hsplit)
      exact ⟨a.frame.ip, Fiber.activation?_eq_some.mpr ⟨[], _, hp.frames, hlen⟩⟩
    | cons g inner =>
      obtain ⟨-, hrest⟩ := List.cons.inj (hframes.symm.trans hsplit)
      refine ⟨f.ip, Fiber.activation?_eq_some.mpr ⟨a.frame :: inner, outer, ?_, hlen⟩⟩
      rw [hp.frames, hrest]
      rfl
  · have hhandlers := hinstalled e m₁ hthrows
    rw [hbodies, List.map_nil] at hhandlers
    obtain ⟨-, he, -⟩ := hv.throws hthrows
    refine ⟨hhandlers, ?_⟩
    split
    · exact raise_main he hhandlers ‹_›
    · exact raise_uncaught he hhandlers ‹_›

/-- **`Reachable.errors_routed`** — every history of a machine has its account of the bodies that tasks
are in, and errors go by it. -/
theorem Reachable.errors_routed (hm : m.Reachable) :
    (∃ bs, Recounts m bs) ∧ ∀ bs, Recounts m bs → m.Routes bs :=
  ⟨hm.exists_recounts, fun _ hr => hr.agrees.routes hm.valid⟩

instance (e : Fault) : Decidable e.Catchable :=
  decidable_of_iff ((match e with
    | .uncompilable _ | .stuck | .endless => false
    | _ => true) = true) (by cases e <;> simp [Fault.Catchable])

/-- How the next instruction fails, if it does. -/
def failure? (m : Machine) : Option (Fault × Machine) :=
  match Exec.step m with
  | .ok .. => none
  | .error e m₁ => some (e, m₁)

/-- An error that a step comes to is raised. -/
theorem throws_of_failure? (hready : m.Ready) (hhonest : m.heap.Honest)
    (h : m.failure? = some (e, m₁)) (he : e.Catchable) : m.Throws e m₁ := by
  unfold failure? at h
  split at h
  · cases h
  · obtain ⟨rfl, rfl⟩ := Prod.mk.inj (Option.some.inj h)
    exact .fails hready hhonest ‹_› he

/-- A body with a handler, in which a function is called that has one of its own. -/
def nestedBodies : String :=
  "func fail() \x7b try \x7b null(); \x7d catch (e) \x7b null(); \x7d \x7d " ++
    "try \x7b fail(); \x7d catch (e) \x7b e; \x7d"

/-- In the inner body an error comes up. The task is in both bodies, and the error goes to the inner
one. -/
theorem errors_routed_nestedBodies :
    (rehearse nestedBodies 10).Reachable ∧
      ∃ bs e m₁ b outer, Recounts (rehearse nestedBodies 10) bs ∧
        (rehearse nestedBodies 10).Routes bs ∧ (rehearse nestedBodies 10).Throws e m₁ ∧
        bodiesOf bs mainTask = b :: outer ∧ b.handler = ⟨2, 3, 13⟩ ∧
        outer.map Attempt.handler = [⟨1, 1, 18⟩] ∧
        (rehearse nestedBodies 10).Catches e m₁ b outer := by
  obtain ⟨⟨bs, hrecounts⟩, hrouted⟩ := Reachable.errors_routed (reachable_rehearse nestedBodies 10)
  have hroutes := hrouted bs hrecounts
  have hfacts : (rehearse nestedBodies 10).Ready ∧ ∃ x ∈ (rehearse nestedBodies 10).failure?,
      x.1.Catchable ∧ x.2.fiber.id = mainTask ∧ x.2.fiber.handlers = [⟨2, 3, 13⟩, ⟨1, 1, 18⟩] := by
    decide +kernel
  obtain ⟨hready, ⟨e, m₁⟩, hfailure, he, hid, hhandlers⟩ := hfacts
  have hthrows := throws_of_failure? hready (honest_rehearse _ _) hfailure he
  have hinstalled := hroutes.installed e m₁ hthrows
  dsimp only at hid hhandlers
  rw [hhandlers, hid] at hinstalled
  obtain ⟨b, outer, hbodies, hb, houter⟩ := List.map_eq_cons_iff.mp hinstalled.symm
  exact ⟨reachable_rehearse _ _, bs, e, m₁, b, outer, hrecounts, hroutes, hthrows, hbodies, hb, houter,
    hroutes.caught e m₁ b outer hthrows (hid.symm ▸ hbodies)⟩

end Machine

end ScriptMachine
