import Mathlib
import ScriptMachine.Machine.Stack
import ScriptMachine.Proofs.Machine.Soundness
import ScriptMachine.Proofs.Renaming.Heap

/-!
# ScriptMachine.Proofs.Renaming.Machine — machines that do the same with other references

Two machines are alike under a pairing when their heaps are, and what they hold outside their heaps is
the same except for paired references: the same tasks, the same activations at the same places of the
same code, like values on the stacks, the same output so far.

Two computations *agree* when they do the same to like machines: both answer, with like results, or
both fail with the same fault, and leave machines that are alike under a pairing that has come to know
more objects. What only reads the machine, or writes what it has, needs no new pairs; such computations
are *steady*.

Both are kept by composition, and `Agree.bind` is the rule that the whole comparison is put together with:
the second computation is compared under the pairing that the first has left, and what was alike before
still is, because pairings only grow (`Like.transfer`). So for one operation of the machine there is one
lemma, and its proof follows its definition. Faults are compared for equality, as they name no
reference.
-/

namespace ScriptMachine

variable {β β' : Pairing}

/-! ## Machines -/

/-- The same activation under other references. -/
structure Frame.Like (β : Pairing) (f g : Frame) : Prop where
  closure : β.rel f.closure g.closure
  chunk : f.chunk.Like β g.chunk
  ip : f.ip = g.ip
  base : f.base = g.base
  package : Option.Rel β.rel f.package g.package
  kind : f.kind = g.kind
  args : Aligned (Value.Like β) f.args g.args

/-- The open cells of the same slots. -/
def CellsLike (β : Pairing) : List (Nat × Ref) → List (Nat × Ref) → Prop :=
  List.Forall₂ fun e f => e.1 = f.1 ∧ β.rel e.2 f.2

/-- The same fiber under other references. -/
structure Fiber.Like (β : Pairing) (t u : Fiber) : Prop where
  id : t.id = u.id
  handle : β.rel t.handle u.handle
  stack : Aligned (Value.Like β) t.stack u.stack
  frames : List.Forall₂ (Frame.Like β) t.frames u.frames
  openUpvalues : CellsLike β t.openUpvalues u.openUpvalues
  handlers : t.handlers = u.handlers
  state : t.state = u.state

/-- The same names under other references. -/
structure Names.Like (β : Pairing) (a b : Names) : Prop where
  init : β.rel a.init b.init
  args : β.rel a.args b.args
  answer : β.rel a.answer b.answer
  name : β.rel a.name b.name

/-- The same configuration up to when collections are due; neither traces nor logs. -/
structure Config.Like (c d : Config) : Prop where
  searchPaths : c.searchPaths = d.searchPaths
  maxFrames : c.maxFrames = d.maxFrames
  untraced : c.trace = false ∧ d.trace = false
  unlogged : c.heap.log = false ∧ d.heap.log = false

/-- What a machine lists as open cells are cells of variables. -/
def Machine.ListsCells (m : Machine) : Prop :=
  ∀ t, t = m.fiber ∨ t ∈ m.queue → ∀ e ∈ t.openUpvalues, m.heap.Has e.2 .upvalue

/-- **`m.Like β n`** — the same machine under other references. -/
structure Machine.Like (β : Pairing) (m n : Machine) : Prop where
  heap : m.heap.Like β n.heap
  globals : m.globals.Like β n.globals
  extensions : List.Forall₂ (fun e f => e.1 = f.1 ∧ e.2.Like β f.2) m.extensions n.extensions
  fiber : m.fiber.Like β n.fiber
  queue : List.Forall₂ (Fiber.Like β) m.queue n.queue
  lastTask : m.lastTask = n.lastTask
  mainResult : Option.Rel (Value.Like β) m.mainResult n.mainResult
  mainHandle : β.rel m.mainHandle n.mainHandle
  names : m.names.Like β n.names
  config : m.config.Like n.config
  scriptArgs : m.scriptArgs = n.scriptArgs
  clock : m.clock = n.clock
  seed : m.seed = n.seed
  files : m.files = n.files
  loads : m.loads = n.loads
  stdout : m.stdout = n.stdout
  stderr : m.stderr = n.stderr
  cells : m.ListsCells

/-! ## What lasts -/

section Transfer

theorem Frame.Like.transfer {f g : Frame} (h : f.Like β g) (hβ : ∀ r s,
    r ∈ f.roots ∨ r ∈ f.chunk.constants.toList.filterMap Value.ref? → β.rel r s → β'.rel r s) :
    f.Like β' g :=
  { h with
    closure := hβ _ _ (.inl List.mem_cons_self) h.closure
    chunk := h.chunk.transfer fun r s hr => hβ r s (.inr hr)
    package := h.package.mono fun r hr s => hβ r s
      (.inl (List.mem_cons_of_mem _ (List.mem_append_left _ (Option.mem_toList.mpr hr))))
    args := aligned_transfer h.args fun r s hr => hβ r s
      (.inl (List.mem_cons_of_mem _ (List.mem_append_right _ hr))) }

/-- What a fiber holds: its roots, and the constants of the code it runs. -/
def Fiber.Holds (t : Fiber) (r : Ref) : Prop :=
  r ∈ t.roots ∨ ∃ f ∈ t.frames, r ∈ f.chunk.constants.toList.filterMap Value.ref?

/-- Fibers stay alike under another pairing, if it agrees on what they hold. -/
theorem Fiber.Like.transfer {t u : Fiber} (h : t.Like β u)
    (hβ : ∀ r s, t.Holds r → β.rel r s → β'.rel r s) : t.Like β' u := by
  have hframes := (List.forall₂_and_left (p := (· ∈ t.frames)) _ _).mpr ⟨fun _ hf => hf, h.frames⟩
  have hcells := (List.forall₂_and_left (p := (· ∈ t.openUpvalues)) _ _).mpr
    ⟨fun _ he => he, h.openUpvalues⟩
  refine { h with
    handle := hβ _ _ (.inl List.mem_cons_self) h.handle
    stack := aligned_transfer h.stack fun r s hr => hβ r s (.inl ?_)
    frames := hframes.imp fun f g hfg => hfg.2.transfer fun r s hr => hβ r s ?_
    openUpvalues := hcells.imp fun e f hef => ⟨hef.2.1, hβ _ _ (.inl ?_) hef.2.2⟩ }
  · exact List.mem_cons_of_mem _ (List.mem_append_left _ (List.mem_append_left _ hr))
  · refine hr.imp (fun hr => ?_) fun hr => ⟨f, hfg.1, hr⟩
    exact List.mem_cons_of_mem _ (List.mem_append_left _ (List.mem_append_right _
      (List.mem_flatMap.mpr ⟨f, hfg.1, hr⟩)))
  · exact List.mem_cons_of_mem _ (List.mem_append_right _ (List.mem_map_of_mem hef.1))

variable (hβ : β ≤ β')
include hβ

theorem Value.Like.mono {v w : Value} (h : v.Like β w) : v.Like β' w :=
  h.transfer fun r s _ => hβ r s

theorem Key.Like.mono {k l : Key} (h : k.Like β l) : k.Like β' l :=
  ⟨hβ _ _ h.ref, h.hash⟩

theorem Table.Like.mono {t u : Table Value} (h : t.Like β u) : t.Like β' u :=
  h.transfer fun r s _ => hβ r s

theorem Aligned.grow {xs ys : Array Value} (h : Aligned (Value.Like β) xs ys) :
    Aligned (Value.Like β') xs ys :=
  aligned_transfer h fun r s _ => hβ r s

theorem Frame.Like.mono {f g : Frame} (h : f.Like β g) : f.Like β' g :=
  h.transfer fun r s _ => hβ r s

theorem Fiber.Like.mono {t u : Fiber} (h : t.Like β u) : t.Like β' u :=
  h.transfer fun r s _ => hβ r s

theorem Names.Like.mono {a b : Names} (h : a.Like β b) : a.Like β' b :=
  ⟨hβ _ _ h.init, hβ _ _ h.args, hβ _ _ h.answer, hβ _ _ h.name⟩

end Transfer

theorem Fiber.Like.isDone_eq {t u : Fiber} (ht : t.Like β u) : t.isDone = u.isDone := by
  have hframes := ht.frames
  unfold Fiber.isDone
  generalize t.frames = fs, u.frames = gs at hframes
  cases hframes <;> rfl

namespace Machine

variable {m n : Machine} {h h' : Heap} {t u : Fiber}

/-- **`Like.grow`** — the heaps have come to hold more. -/
theorem Like.grow (hm : m.Like β n) (hβ : β ≤ β') (hh : h.Like β' h')
    (hcells : ∀ r, m.heap.Has r .upvalue → h.Has r .upvalue) :
    { m with heap := h }.Like β' { n with heap := h' } :=
  { hm with
    heap := hh
    globals := hm.globals.mono hβ
    extensions := hm.extensions.imp fun _ _ he => ⟨he.1, he.2.mono hβ⟩
    fiber := hm.fiber.mono hβ
    queue := hm.queue.imp fun _ _ ht => ht.mono hβ
    mainResult := hm.mainResult.mono fun _ _ _ hv => hv.mono hβ
    mainHandle := hβ _ _ hm.mainHandle
    names := hm.names.mono hβ
    cells := fun t ht e he => hcells _ (hm.cells t ht e he) }

/-- The heaps have changed. -/
theorem Like.withHeap (hm : m.Like β n) (hh : h.Like β h')
    (hcells : ∀ r, m.heap.Has r .upvalue → h.Has r .upvalue) :
    { m with heap := h }.Like β { n with heap := h' } :=
  hm.grow le_rfl hh hcells

/-- The running fiber has changed, and lists no other cells. -/
theorem Like.withFiber (hm : m.Like β n) (ht : t.Like β u)
    (hcells : ∀ e ∈ t.openUpvalues, m.heap.Has e.2 .upvalue) :
    { m with fiber := t }.Like β { n with fiber := u } :=
  { hm with
    fiber := ht
    cells := by
      rintro t' (rfl | ht') e he
      · exact hcells e he
      · exact hm.cells t' (.inr ht') e he }

end Machine

/-! ## Computations -/

namespace Exec

variable {α γ : Type} {R : Pairing → α → α → Prop} {S : Pairing → γ → γ → Prop}
  {x y : Exec α} {f g : α → Exec γ} {m n : Machine}

/-- **`Agree R β p q`** — two computations on like machines have come out alike. -/
inductive Agree (R : Pairing → α → α → Prop) (β : Pairing) :
    EStateM.Result Fault Machine α → EStateM.Result Fault Machine α → Prop
  | ok {β' : Pairing} {a b : α} {m n : Machine} (hβ : β ≤ β') (hm : m.Like β' n) (hab : R β' a b) :
    Agree R β (.ok a m) (.ok b n)
  | error {β' : Pairing} {e : Fault} {m n : Machine} (hβ : β ≤ β') (hm : m.Like β' n) :
    Agree R β (.error e m) (.error e n)

/-- **`Alike β R x y`** — the computations agree on like machines. -/
def Alike (β : Pairing) (R : Pairing → α → α → Prop) (x y : Exec α) : Prop :=
  ∀ m n, m.Like β n → Agree R β (x m) (y n)

/-- **`Steady β R x y`** — the computations agree and need no new pairs. -/
def Steady (β : Pairing) (R : α → α → Prop) (x y : Exec α) : Prop :=
  Alike β (fun β' a b => β' = β ∧ R a b) x y

/-- Computations for their effect. -/
abbrev Done : Pairing → Unit → Unit → Prop := fun _ _ _ => True

/-- What agrees under more pairs agrees under fewer. -/
theorem Agree.of_le {p q : EStateM.Result Fault Machine α} (h : Agree R β' p q) (hβ : β ≤ β') :
    Agree R β p q := by
  cases h with
  | ok hβ' hm hab => exact .ok (hβ.trans hβ') hm hab
  | error hβ' hm => exact .error (hβ.trans hβ') hm

theorem Agree.imp {R' : Pairing → α → α → Prop} {p q : EStateM.Result Fault Machine α}
    (h : Agree R β p q) (hR : ∀ β' a b, β ≤ β' → R β' a b → R' β' a b) : Agree R' β p q := by
  cases h with
  | ok hβ hm hab => exact .ok hβ hm (hR _ _ _ hβ hab)
  | error hβ hm => exact .error hβ hm

/-- **`Agree.bind`** — one computation after the other. -/
theorem Agree.bind (hxy : Agree R β (x m) (y n))
    (hfg : ∀ β' a b m' n', β ≤ β' → R β' a b → m'.Like β' n' → x m = .ok a m' →
      Agree S β' (f a m') (g b n')) : Agree S β ((x >>= f) m) ((y >>= g) n) := by
  change Agree S β (EStateM.bind x f m) (EStateM.bind y g n)
  unfold EStateM.bind
  generalize hp : x m = p, y n = q at hxy
  cases hxy with
  | ok hβ hm hab => exact (hfg _ _ _ _ _ hβ hab hm hp).of_le hβ
  | error hβ hm => exact .error hβ hm

/-- Two parts that are alike make a whole that is. The pairs that the first part adds are there for
the second. -/
theorem Alike.bind (hxy : Alike β R x y)
    (hfg : ∀ β' a b, β ≤ β' → R β' a b → Alike β' S (f a) (g b)) :
    Alike β S (x >>= f) (y >>= g) :=
  fun m n hm => (hxy m n hm).bind fun _ _ _ _ _ hβ hab hm' _ => hfg _ _ _ hβ hab _ _ hm'

/-- A first part that adds no pair. -/
theorem Steady.bind {R : α → α → Prop} (hxy : Steady β R x y)
    (hfg : ∀ a b, R a b → Alike β S (f a) (g b)) : Alike β S (x >>= f) (y >>= g) :=
  Alike.bind hxy fun _ a b _ hab => hab.1 ▸ hfg a b hab.2

/-- Computations that are both steady. -/
theorem Steady.seq {R : α → α → Prop} {S : γ → γ → Prop} (hxy : Steady β R x y)
    (hfg : ∀ a b, R a b → Steady β S (f a) (g b)) : Steady β S (x >>= f) (y >>= g) :=
  Steady.bind hxy hfg

theorem Steady.alike {R' : α → α → Prop} (hxy : Steady β R' x y) (hR : ∀ a b, R' a b → R β a b) :
    Alike β R x y :=
  fun m n hm => (hxy m n hm).imp fun _ a b _ hab => hab.1 ▸ hR a b hab.2

theorem Alike.pure {a b : α} (hab : R β a b) : Alike β R (pure a) (pure b) :=
  fun _ _ hm => .ok le_rfl hm hab

theorem Steady.pure {R : α → α → Prop} {a b : α} (hab : R a b) : Steady β R (pure a) (pure b) :=
  Alike.pure ⟨rfl, hab⟩

theorem Alike.throw (e : Fault) : Alike β R (throw e) (throw e) :=
  fun _ _ hm => .error le_rfl hm

theorem Steady.throw {R : α → α → Prop} (e : Fault) : Steady β R (throw e) (throw e) :=
  Alike.throw e

theorem Steady.get : Steady β (Machine.Like β) get get :=
  fun _ _ hm => .ok le_rfl hm ⟨rfl, hm⟩

/-- What reads the machine first is looked at where it reads. -/
theorem Alike.of_get {f g : Machine → Exec γ}
    (hfg : ∀ m n, m.Like β n → Agree S β (f m m) (g n n)) : Alike β S (get >>= f) (get >>= g) :=
  fun m n hm => hfg m n hm

theorem Steady.modify {f g : Machine → Machine}
    (hfg : ∀ m n, m.Like β n → (f m).Like β (g n)) : Steady β (fun _ _ => True) (modify f) (modify g) :=
  fun m n hm => .ok le_rfl (hfg m n hm) ⟨rfl, trivial⟩

/-- A change to the machine may add pairs. -/
theorem Alike.modifyGet {f g : Machine → α × Machine} (hfg : ∀ m n, m.Like β n →
    ∃ β', β ≤ β' ∧ R β' (f m).1 (g n).1 ∧ (f m).2.Like β' (g n).2) :
    Alike β R (modifyGet f) (modifyGet g) := by
  intro m n hm
  obtain ⟨β', hβ, hab, hm'⟩ := hfg m n hm
  exact .ok hβ hm' hab

theorem Alike.map {p : α → γ} (hxy : Alike β R x y)
    (hp : ∀ β' a b, β ≤ β' → R β' a b → S β' (p a) (p b)) : Alike β S (p <$> x) (p <$> y) := by
  rw [map_eq_pure_bind, map_eq_pure_bind]
  exact hxy.bind fun β' a b hβ hab => .pure (hp β' a b hβ hab)

theorem Steady.discard {R : α → α → Prop} (hxy : Steady β R x y) :
    Steady β (fun _ _ => True) (discard x) (discard y) := by
  unfold Functor.discard
  exact hxy.map fun _ _ _ _ hab => ⟨hab.1, trivial⟩

/-- **`Alike.mapM`** — a computation for each item of like lists, when what is alike stays so. -/
theorem Alike.mapM {R : Pairing → α → α → Prop}
    (hR : ∀ {β β' : Pairing} {a b : α}, β ≤ β' → R β a b → R β' a b)
    (hS : ∀ {β β' : Pairing} {a b : γ}, β ≤ β' → S β a b → S β' a b) {l l' : List α}
    (hl : List.Forall₂ (R β) l l')
    (hfg : ∀ β' a b, β ≤ β' → R β' a b → Alike β' S (f a) (g b)) :
    Alike β (fun β' => List.Forall₂ (S β')) (l.mapM f) (l'.mapM g) := by
  induction l generalizing β l' with
  | nil =>
    cases hl
    exact .pure .nil
  | cons a l ih =>
    cases hl with
    | cons hab hl =>
      rw [List.mapM_cons, List.mapM_cons]
      refine (hfg β _ _ le_rfl hab).bind fun β₁ c d hβ₁ hcd => ?_
      have hrest := ih (β := β₁) (hl.imp fun _ _ h => hR hβ₁ h)
        fun β' a b hβ' => hfg β' a b (hβ₁.trans hβ')
      exact hrest.bind fun β₂ cs ds hβ₂ hcds => .pure (.cons (hS hβ₂ hcd) hcds)

end Exec

end ScriptMachine
