import Mathlib
import ScriptMachine.Machine.Stack
import ScriptMachine.Proofs.Machine.Soundness

/-!
# ScriptMachine.Proofs.Machine.Scene — in the middle of an instruction

Most instructions take some values off the stack of their activation and leave others. While one of
them is executed the values below a *floor* are untouched, and so are the activations, the handlers,
the open cells, the other fibers, every cell of a captured variable and every task handle. A *scene*
is such an instruction being executed: the machine it started from and its floor. `Amid s k m` says
that `m` is the machine at some moment of the scene, with `k` values above the floor.

`Runs s x m Q` says that `x`, started in `m`, ends well with `Q`, or fails with the scene still on;
only an instruction that is excused may get stuck. There is one lemma for each step that machine
operations are put together from. They are written so that what follows is proved last: each takes the
proof about the rest as its argument.

The proofs of operations are written backwards from here: to show `Runs s (x >>= f) m Q`, the lemma for
`x` asks for the proof about `f`. What a scene fixes is never mentioned again, since every moment of it
has it as a field of `Amid`, and the end of a scene only has to say what is above the floor. Whether and
where the instruction moves control is outside of scenes.
-/

namespace ScriptMachine

/-- **`x.Meets m Q E`** — started in `m`, `x` ends well with `Q` or fails with `E`. -/
def Exec.Meets {α : Type} (x : Exec α) (m : Machine) (Q : α → Machine → Prop)
    (E : Fault → Machine → Prop) : Prop :=
  match x m with
  | .ok a m' => Q a m'
  | .error e m' => E e m'

/-- What is met may be weakened, on both ways out. -/
theorem Exec.Meets.mono {α : Type} {x : Exec α} {m : Machine} {Q Q' : α → Machine → Prop}
    {E E' : Fault → Machine → Prop} (hx : x.Meets m Q E) (hQ : ∀ v m', Q v m' → Q' v m')
    (hE : ∀ e m', E e m' → E' e m') : x.Meets m Q' E' := by
  unfold Meets at hx ⊢
  split
  · rename_i v m' heq
    rw [heq] at hx
    exact hQ v m' hx
  · rename_i e m' heq
    rw [heq] at hx
    exact hE e m' hx

/-- A computation in two parts meets what its second part meets after the first; a fault of the
first part is one of the whole. -/
theorem Exec.Meets.bind {α β : Type} {x : Exec β} {f : β → Exec α} {m : Machine}
    {Q : α → Machine → Prop} {E : Fault → Machine → Prop}
    (h : x.Meets m (fun b m' => (f b).Meets m' Q E) E) : (x >>= f).Meets m Q E := by
  unfold Meets at h ⊢
  show match EStateM.bind x f m with | .ok a m' => _ | .error e m' => _
  unfold EStateM.bind
  cases hx : x m with
  | ok b m' =>
    rw [hx] at h
    exact h
  | error e m' =>
    rw [hx] at h
    exact h

/-- The machine with one value less on the stack. -/
def Machine.popped (m : Machine) : Machine :=
  { m with fiber := { m.fiber with stack := m.fiber.stack.pop } }

/-- An instruction being executed: the machine it started from, the height of the stack below which it
takes nothing, and whether it may get stuck. -/
structure Scene where
  start : Machine
  floor : Nat
  excused : Prop

/-- **`Amid s k m`** — a moment of the scene, with `k` values above the floor. -/
structure Amid (s : Scene) (k : Nat) (m : Machine) : Prop where
  sound : m.Sound
  honest : m.heap.Honest
  still : s.start.heap.Still m.heap
  fiber : m.fiber = { s.start.fiber with stack := m.fiber.stack }
  queue : m.queue = s.start.queue
  lastTask : m.lastTask = s.start.lastTask
  mainResult : m.mainResult = s.start.mainResult
  mainHandle : m.mainHandle = s.start.mainHandle
  names : m.names = s.start.names
  config : m.config = s.start.config
  size : m.fiber.stack.size = s.floor + k
  below : ∀ i, i < s.floor → m.fiber.stack[i]? = s.start.fiber.stack[i]?

/-- **`Fails s e m`** — a moment of the scene at which it ends with a fault. -/
def Fails (s : Scene) (e : Fault) (m : Machine) : Prop :=
  e = .stuck ∧ s.excused ∨ e ≠ .stuck ∧ ∃ k, Amid s k m

/-- **`Runs s x m Q`** — in the scene, `x` goes from `m` to a result that satisfies `Q`, or fails. -/
def Runs {α : Type} (s : Scene) (x : Exec α) (m : Machine) (Q : α → Machine → Prop) : Prop :=
  x.Meets m Q (Fails s)

variable {α β : Type} {s : Scene} {m m' : Machine} {k : Nat} {v : Value}

/-- **`Yields s k m Q`** — `Q` holds of every value that can be there later in the scene. -/
def Yields (s : Scene) (k : Nat) (m : Machine) (Q : Value → Machine → Prop) : Prop :=
  ∀ v m', Amid s k m' → m.heap.Evolves m'.heap → m'.heap.Live v → Q v m'

/-! ## Steps of any program -/

section Steps

variable {Q : α → Machine → Prop}

theorem Runs.pure {a : α} (hQ : Q a m) : Runs s (pure a) m Q := hQ

/-- Parts run one after another: the second in whatever machine the first one leads to. -/
theorem Runs.bind {x : Exec β} {f : β → Exec α} (h : Runs s x m fun b m' => Runs s (f b) m' Q) :
    Runs s (x >>= f) m Q :=
  Exec.Meets.bind h

/-- A result is turned into another one. -/
theorem Runs.map {x : Exec β} {f : β → α} (h : Runs s x m fun b m' => Q (f b) m') :
    Runs s (f <$> x) m Q := by
  unfold Runs Exec.Meets at h ⊢
  show match EStateM.map f x m with | .ok a m' => _ | .error e m' => _
  unfold EStateM.map
  cases hx : x m with
  | ok b m' =>
    rw [hx] at h
    exact h
  | error e m' =>
    rw [hx] at h
    exact h

/-- Each branch may use its condition. -/
theorem Runs.ite {c : Prop} [Decidable c] {x y : Exec α} (hx : c → Runs s x m Q)
    (hy : ¬c → Runs s y m Q) : Runs s (if c then x else y) m Q := by
  split
  · exact hx ‹c›
  · exact hy ‹¬c›

theorem Runs.get {Q : Machine → Machine → Prop} (hQ : Q m m) : Runs s get m Q := hQ

theorem Runs.modify {Q : Unit → Machine → Prop} {f : Machine → Machine} (hQ : Q () (f m)) :
    Runs s (modify f) m Q := hQ

theorem Runs.modifyGet {f : Machine → α × Machine} (hQ : Q (f m).1 (f m).2) :
    Runs s (modifyGet f) m Q := hQ

theorem Runs.heap {Q : Heap → Machine → Prop} (hQ : Q m.heap m) : Runs s Exec.heap m Q := hQ

theorem Runs.height {Q : Nat → Machine → Prop} (hQ : Q m.fiber.stack.size m) :
    Runs s Exec.height m Q := hQ

/-- What is needed is there. -/
theorem Runs.need {o : Option α} {a : α} (ho : o = some a) (hQ : Q a m) :
    Runs s (Exec.need o) m Q := by
  subst ho
  exact hQ

end Steps

/-! ## Faults -/

section Faults

variable {Q : α → Machine → Prop}

/-- Any fault but being stuck may come up in the middle of an instruction. -/
theorem Amid.throw {e : Fault} (hm : Amid s k m) (he : e ≠ .stuck) : Runs s (throw e) m Q :=
  .inr ⟨he, k, hm⟩

/-- A scene that excuses being stuck may be. -/
theorem Runs.stuck (h : s.excused) : Runs s (throw .stuck) m Q :=
  .inl ⟨rfl, h⟩

end Faults

namespace Amid

/-! ## The state of a scene -/

theorem evolves (hm : Amid s k m) : s.start.heap.Evolves m.heap :=
  hm.still.evolves

theorem frames (hm : Amid s k m) : m.fiber.frames = s.start.fiber.frames := by
  rw [hm.fiber]

/-- A moment at which the machine has not changed, except for what no scene fixes. -/
theorem congr {n : Nat} {t : Fiber} (hm : Amid s k m) (hsound : { m with fiber := t }.Sound)
    (ht : t = { m.fiber with stack := t.stack }) (hsize : t.stack.size = s.floor + n)
    (hbelow : ∀ i, i < s.floor → t.stack[i]? = m.fiber.stack[i]?) :
    Amid s n { m with fiber := t } where
  sound := hsound
  honest := hm.honest
  still := hm.still
  fiber := by
    show t = _
    rw [ht, hm.fiber]
  queue := hm.queue
  lastTask := hm.lastTask
  mainResult := hm.mainResult
  mainHandle := hm.mainHandle
  names := hm.names
  config := hm.config
  size := hsize
  below i hi := (hbelow i hi).trans (hm.below i hi)

/-- The operand stack changes above the floor. -/
theorem withStack {n : Nat} {stack : Array Value} (hm : Amid s k m)
    (hlive : ∀ v ∈ stack, m.heap.Live v) (hsize : stack.size = s.floor + n)
    (hbelow : ∀ i, i < s.floor → stack[i]? = m.fiber.stack[i]?) :
    Amid s n { m with fiber := { m.fiber with stack } } := by
  refine hm.congr (hm.sound.withFiber ⟨hm.sound.fiber.handle, hlive, hm.sound.fiber.frames,
    hm.sound.fiber.openUpvalues⟩) rfl hsize hbelow

/-- The heap goes on. -/
theorem withHeap {h' : Heap} (hm : Amid s k m) (hstill : m.heap.Still h') (hh' : h'.Healthy) :
    Amid s k { m with heap := h' } where
  sound := hm.sound.evolve hstill.evolves hh'
  honest := hstill.honest hm.honest
  still := hm.still.trans hstill
  fiber := hm.fiber
  queue := hm.queue
  lastTask := hm.lastTask
  mainResult := hm.mainResult
  mainHandle := hm.mainHandle
  names := hm.names
  config := hm.config
  size := hm.size
  below := hm.below

/-- What no scene fixes changes. -/
theorem other (hm : Amid s k m) {globals : Table Value} {extensions : List (String × Table Value)}
    {seed : UInt64} {loads : List String} {stdout stderr : String}
    (hglobals : globals.Holds m.heap m.heap.Live)
    (hextensions : ∀ e ∈ extensions, e.2.Holds m.heap m.heap.IsMethod) :
    Amid s k { m with globals, extensions, seed, loads, stdout, stderr } where
  sound := ⟨hm.sound.heap, hglobals, hextensions, hm.sound.fiber, hm.sound.queue, hm.sound.names,
    hm.sound.mainHandle, hm.sound.mainResult⟩
  honest := hm.honest
  still := hm.still
  fiber := hm.fiber
  queue := hm.queue
  lastTask := hm.lastTask
  mainResult := hm.mainResult
  mainHandle := hm.mainHandle
  names := hm.names
  config := hm.config
  size := hm.size
  below := hm.below

/-! ## The stack -/

section Stack

/-- Every value on the stack is live. -/
theorem live_getElem? (hm : Amid s k m) {i : Nat} (hv : m.fiber.stack[i]? = some v) :
    m.heap.Live v :=
  hm.sound.fiber.stack v (Array.mem_of_getElem? hv)

/-- A live value is pushed, and the instruction has one value more above its floor. -/
theorem push {Q : Unit → Machine → Prop} (hm : Amid s k m) (hv : m.heap.Live v)
    (hQ : ∀ m', Amid s (k + 1) m' → m'.heap = m.heap → Q () m') : Runs s (Exec.push v) m Q := by
  refine hQ _ (hm.withStack (fun w hw => ?_) ?_ fun i hi => ?_) rfl
  · rcases Array.mem_push.mp hw with hw | rfl
    · exact hm.sound.fiber.stack w hw
    · exact hv
  · rw [Array.size_push, hm.size, Nat.add_assoc]
  · exact Array.getElem?_push_lt (by rw [hm.size]; omega) |>.trans
      (Array.getElem?_eq_getElem (by rw [hm.size]; omega)).symm

/-- The values above the floor can be looked at, and as many below it as the floor is high. -/
theorem peek {Q : Value → Machine → Prop} {distance : Nat} (hm : Amid s k m)
    (hd : distance < s.floor + k) (hQ : ∀ v, m.heap.Live v →
      m.fiber.stack[m.fiber.stack.size - 1 - distance]? = some v → Q v m) :
    Runs s (Exec.peek distance) m Q := by
  have hlt : m.fiber.stack.size - 1 - distance < m.fiber.stack.size := by rw [hm.size]; omega
  have hv := Array.getElem?_eq_getElem hlt
  unfold Exec.peek
  refine .bind (.get ?_)
  dsimp only
  rw [if_pos (by rw [hm.size]; exact hd)]
  exact .need hv (hQ _ (hm.live_getElem? hv) hv)

/-- The stack is cut, but not below the floor. -/
theorem shrink (hm : Amid s k m) {n : Nat} (hn : n ≤ k) {height : Nat}
    (hheight : height = s.floor + n) :
    Amid s n { m with fiber := { m.fiber with stack := m.fiber.stack.shrink height } } := by
  subst hheight
  have hle : s.floor + n ≤ m.fiber.stack.size := by rw [hm.size]; omega
  refine hm.withStack (fun v hv => hm.sound.fiber.stack v ?_) ?_ fun i hi => ?_
  · rw [← Array.mem_toList_iff, Array.toList_shrink] at hv
    exact Array.mem_toList_iff.mp (List.mem_of_mem_take hv)
  · rw [Array.size_shrink]
    omega
  · rw [← Array.getElem?_toList, Array.toList_shrink, List.getElem?_take_of_lt (by omega),
      Array.getElem?_toList]

/-- The value on top is taken. -/
theorem popped (hm : Amid s (k + 1) m) : Amid s k m.popped := by
  have hpop : m.fiber.stack.pop = m.fiber.stack.shrink (s.floor + k) := by
    apply Array.toList_inj.mp
    rw [Array.toList_pop, Array.toList_shrink, List.dropLast_eq_take, Array.length_toList, hm.size]
    rfl
  unfold Machine.popped
  rw [hpop]
  exact hm.shrink (by omega) rfl

/-- One of the values above the floor is taken. -/
theorem pop {Q : Value → Machine → Prop} (hm : Amid s (k + 1) m)
    (hQ : ∀ v m', Amid s k m' → m'.heap = m.heap → m.heap.Live v →
      m.fiber.stack[m.fiber.stack.size - 1]? = some v →
      m'.fiber.stack = m.fiber.stack.pop → Q v m') : Runs s Exec.pop m Q := by
  refine .bind (hm.peek (by omega) fun v hv hget => ?_)
  exact hQ v m.popped hm.popped rfl hv hget rfl

theorem drop {Q : Unit → Machine → Prop} {n : Nat} (hm : Amid s (k + n) m)
    (hQ : ∀ m', Amid s k m' → m'.heap = m.heap → Q () m') : Runs s (Exec.drop n) m Q :=
  hQ _ (hm.shrink (by omega) (by rw [hm.size]; omega)) rfl

theorem truncate {Q : Unit → Machine → Prop} {n height : Nat} (hm : Amid s k m) (hn : n ≤ k)
    (hheight : height = s.floor + n) (hQ : ∀ m', Amid s n m' → m'.heap = m.heap → Q () m') :
    Runs s (Exec.truncate height) m Q :=
  hQ _ (hm.shrink hn hheight) rfl

/-- The uppermost values make place for one. -/
theorem replaceTop {Q : Unit → Machine → Prop} {n : Nat} (hm : Amid s (k + n) m)
    (hv : m.heap.Live v) (hQ : ∀ m', Amid s (k + 1) m' → m'.heap = m.heap → Q () m') :
    Runs s (Exec.replaceTop n v) m Q :=
  .bind (hm.drop fun _ hm' heq => hm'.push (heq ▸ hv) fun m'' hm'' heq' =>
    hQ m'' hm'' (heq'.trans heq))

/-- A slot at or above the floor is overwritten. What is below belongs to the scene. -/
theorem setStackAt {Q : Unit → Machine → Prop} {index : Nat} (hm : Amid s k m)
    (hindex : s.floor ≤ index) (hv : m.heap.Live v)
    (hQ : ∀ m', Amid s k m' → m'.heap = m.heap → Q () m') :
    Runs s (Exec.setStackAt index v) m Q := by
  refine hQ _ (hm.withStack (fun w hw => ?_) ?_ fun i hi => ?_) rfl
  · rcases Array.mem_or_eq_of_mem_setIfInBounds hw with hw | rfl
    · exact hm.sound.fiber.stack w hw
    · exact hv
  · rw [Array.size_setIfInBounds, hm.size]
  · exact Array.getElem?_setIfInBounds_ne (by omega)

theorem valuesFrom {Q : Array Value → Machine → Prop} {height : Nat} (hm : Amid s k m)
    (hQ : ∀ vs, (∀ v ∈ vs, m.heap.Live v) → Q vs m) : Runs s (Exec.valuesFrom height) m Q := by
  refine .bind (.get (.pure (hQ _ fun v hv => hm.sound.fiber.stack v ?_)))
  rw [← Array.mem_toList_iff, Array.toList_extract] at hv
  exact Array.mem_toList_iff.mp (List.mem_of_mem_drop (List.mem_of_mem_take hv))

/-- The frame is the one that the scene started with. -/
theorem frame {Q : Frame → Machine → Prop} {f : Frame} {rest : List Frame} (hm : Amid s k m)
    (hf : s.start.fiber.frames = f :: rest) (hQ : f.Sound m.heap → Q f m) :
    Runs s Exec.frame m Q := by
  have hframes := hm.frames.trans hf
  refine .bind (.get ?_)
  rw [hframes]
  exact .pure (hQ (hm.sound.fiber.frames f (by rw [hframes]; exact List.mem_cons_self)))

end Stack

/-! ## The heap -/

section Heap

variable {Q : Ref → Machine → Prop} {o : Obj}

/-- A new object that may be made at any time: the heap goes on from what it was. -/
theorem alloc (hm : Amid s k m) (hplain : o.isPlain = true) (ho : o.Sound m.heap)
    (hc : ∀ c, o = .closure c → m.heap.Made c)
    (hQ : ∀ r m', Amid s k m' → m.heap.Evolves m'.heap → m'.heap.get? r = some o →
      m'.fiber = m.fiber → Q r m') : Runs s (Exec.alloc o) m Q := by
  have htidy := hm.sound.heap.sound.tidy
  have hstill := htidy.still_alloc hplain
  exact hQ _ _ (hm.withHeap hstill (hm.sound.heap.alloc ho hc)) hstill.evolves
    (htidy.get?_alloc_self o) rfl

theorem allocValue {Q : Value → Machine → Prop} (hm : Amid s k m) (hplain : o.isPlain = true)
    (ho : o.Sound m.heap) (hc : ∀ c, o = .closure c → m.heap.Made c) (hQ : Yields s k m Q) :
    Runs s (Exec.allocValue o) m Q :=
  .bind (hm.alloc hplain ho hc fun _ m' hm' hev hr _ =>
    .pure (hQ _ m' hm' hev (Heap.live_obj.mpr ⟨o, hr⟩)))

theorem intern (hm : Amid s k m) (text : String)
    (hQ : ∀ r m', Amid s k m' → m.heap.Evolves m'.heap → m'.heap.Has r .string → Q r m') :
    Runs s (Exec.intern text) m Q := by
  have htidy := hm.sound.heap.sound.tidy
  have hstill := htidy.still_intern text
  exact hQ _ _ (hm.withHeap hstill (hm.sound.heap.intern text)) hstill.evolves
    (Heap.has_string.mpr ⟨text, (htidy.intern text).2.2⟩)

theorem internValue {Q : Value → Machine → Prop} (hm : Amid s k m) (text : String)
    (hQ : Yields s k m Q) : Runs s (Exec.internValue text) m Q :=
  .bind (hm.intern text fun _ m' hm' hev hr => .pure (hQ _ m' hm' hev hr.live))

/-- An object is written so that what the frames rely on stays: either it is as it was, or it is
plain and keeps its fixed parts. -/
theorem modifyHeap {Q : Unit → Machine → Prop} {r : Ref} {f : Obj → Obj} (hm : Amid s k m)
    (hf : ∀ o, m.heap.get? r = some o → f o = o ∨ (f o).fixed = o.fixed ∧ o.isPlain = true)
    (ho : ∀ o, m.heap.get? r = some o → o.Sound m.heap → (f o).Sound m.heap)
    (hQ : ∀ m', Amid s k m' → m.heap.Evolves m'.heap → Q () m') :
    Runs s (Exec.modifyHeap (·.modify r f)) m Q := by
  have hstill := Heap.still_modify hf
  have hfixed : ∀ o, m.heap.get? r = some o → (f o).fixed = o.fixed := fun o h =>
    (hf o h).elim (congrArg Obj.fixed) And.left
  exact hQ _ (hm.withHeap hstill (hm.sound.heap.modify hfixed ho)) hstill.evolves

theorem key {Q : Key → Machine → Prop} {name : Ref} (_hm : Amid s k m)
    (hname : m.heap.Has name .string)
    (hQ : ∀ key : Key, m.heap.Has key.ref .string → Q key m) : Runs s (Exec.key name) m Q := by
  obtain ⟨o, ho, hkind⟩ := hname
  cases o with
  | string text hash =>
    have hk : m.heap.key? name = some ⟨name, hash⟩ := Heap.key?_eq_some.mpr ⟨rfl, text, ho⟩
    exact .bind (.get (.need hk (hQ _ ⟨_, ho, rfl⟩)))
  | _ => cases hkind

theorem nameText {Q : String → Machine → Prop} {name : Ref} (hQ : ∀ text, Q text m) :
    Runs s (Exec.nameText name) m Q :=
  .bind (.get (.pure (hQ _)))

/-- A global is bound to a live value. -/
theorem setGlobalTable {Q : Unit → Machine → Prop} {key : Key} (hm : Amid s k m)
    (hk : m.heap.Has key.ref .string) (hv : m.heap.Live v)
    (hQ : ∀ m', Amid s k m' → m'.heap = m.heap → Q () m') :
    Runs s (Exec.setGlobalTable key v) m Q :=
  hQ _ (hm.other (hm.sound.globals.set hk hv) hm.sound.extensions) rfl

end Heap

end Amid

end ScriptMachine
