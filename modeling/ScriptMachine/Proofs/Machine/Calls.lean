import Mathlib
import ScriptMachine.Machine.Dispatch
import ScriptMachine.Proofs.Machine.Lookup

/-!
# ScriptMachine.Proofs.Machine.Calls — how a scene ends

An instruction ends in one of two ways. Either the values it leaves are on the stack right above its
floor; then the scene *settles*. Or it has entered an activation that stands on its floor, and will
leave as many values when it returns; then the scene *enters* that activation. Calls of closures and
required files enter, calls of native functions settle; a collection or a sleep can only be the last
thing that happens in a scene.

`callClosure`, `callNative`, `callValue` and `invoke` are the results, one for each way to call, and each
ends in `Done`: the scene has settled, or it enters. They are written so that an instruction which
calls at its end is proved by what leads up to the call. A class is called too, and then an instance
is the receiver of its initialiser. Whether a call finds room for an activation is one of the ways in
which it may fail, and failing is allowed in every scene.
-/

namespace ScriptMachine

/-- How many values an activation leaves to the one below when it returns. -/
def FrameKind.results : FrameKind → Nat
  | .function => 1
  | .package required => if required then 1 else 0

/-- **`Settles s leaves m`** — the scene is over, and left so many values above its floor. A fiber that
has fallen asleep has the value that stands for the time it slept on top. -/
structure Settles (s : Scene) (leaves : Nat) (m : Machine) : Prop where
  sound : m.Sound
  calm : s.start.heap.Calm m.heap
  fiber : m.fiber = { s.start.fiber with stack := m.fiber.stack, state := m.fiber.state }
  state : m.fiber.state = s.start.fiber.state ∨
    0 < leaves ∧ ∃ since deadline, m.fiber.state = .sleeping since deadline
  queue : m.queue = s.start.queue
  lastTask : m.lastTask = s.start.lastTask
  mainResult : m.mainResult = s.start.mainResult
  mainHandle : m.mainHandle = s.start.mainHandle
  names : m.names = s.start.names
  config : m.config = s.start.config
  size : m.fiber.stack.size = s.floor + leaves
  below : ∀ i, i < s.floor → m.fiber.stack[i]? = s.start.fiber.stack[i]?

/-- The machine with one more activation. -/
def Machine.entering (m : Machine) (f : Frame) : Machine :=
  { m with fiber := { m.fiber with frames := f :: m.fiber.frames } }

/-- **`Enters s leaves f p m`** — the activation `f` of the function `p`, which will leave so many
values, is about to be entered. -/
structure Enters (s : Scene) (leaves : Nat) (f : Frame) (p : Prototype) (m : Machine) : Prop where
  amid : Amid s (1 + p.arity) m
  frame : f.Sound m.heap
  closure : ∃ c, m.heap.closure? f.closure = some c ∧ m.heap.prototype? c.prototype = some p
  chunk : f.chunk = p.chunk
  ip : f.ip = 0
  base : f.base = s.floor
  results : f.kind.results = leaves

/-- **`Done s leaves m`** — the instruction has done its part. -/
inductive Done (s : Scene) (leaves : Nat) : Machine → Prop
  | settles {m : Machine} (h : Settles s leaves m) : Done s leaves m
  | enters {m : Machine} {f : Frame} {p : Prototype} (h : Enters s leaves f p m) :
      Done s leaves (m.entering f)

/-- **`Finishes s leaves x m`** — started in `m`, `x` does its part of the scene or fails. -/
def Finishes (s : Scene) (leaves : Nat) (x : Exec Unit) (m : Machine) : Prop :=
  Runs s x m fun _ m' => Done s leaves m'

variable {s : Scene} {m : Machine} {k leaves argc : Nat} {r name : Ref} {v : Value}

theorem Finishes.bind {α : Type} {x : Exec α} {f : α → Exec Unit}
    (h : Runs s x m fun a m' => Finishes s leaves (f a) m') : Finishes s leaves (x >>= f) m :=
  Runs.bind h

namespace Amid

/-! ## The end of a scene -/

/-- In the midst of an instruction that has taken what it takes, the stack below is as it was. -/
theorem settles (hm : Amid s k m) : Settles s k m where
  sound := hm.sound
  calm := hm.still.calm
  fiber := by
    rw [hm.fiber]
  state := .inl (by rw [hm.fiber])
  queue := hm.queue
  lastTask := hm.lastTask
  mainResult := hm.mainResult
  mainHandle := hm.mainHandle
  names := hm.names
  config := hm.config
  size := hm.size
  below := hm.below

theorem done (hm : Amid s k m) : Done s k m :=
  .settles hm.settles

/-- The last thing an instruction does is to push a value. -/
theorem pushLast (hm : Amid s k m) (hv : m.heap.Live v) : Finishes s (k + 1) (Exec.push v) m :=
  hm.push hv fun _ hm' _ => hm'.done

/-- The last thing an instruction does is to put a value in place of others. -/
theorem replaceLast {n : Nat} (hm : Amid s (k + n) m) (hv : m.heap.Live v) :
    Finishes s (k + 1) (Exec.replaceTop n v) m :=
  hm.replaceTop hv fun _ hm' _ => hm'.done

/-! ## Closures -/

/-- The depth of activations is limited, and at the limit a call is refused. -/
theorem guardDepth {Q : Unit → Machine → Prop} (hm : Amid s k m) (hQ : Q () m) :
    Runs s Exec.guardDepth m Q := by
  refine .bind (.get (.ite (fun _ => ?_) fun _ => ?_))
  · exact hm.throw nofun
  · exact .pure hQ

/-- The arguments of a call, brought to the number of parameters. -/
theorem fitArguments (hm : Amid s (argc + 1) m) {first : Nat} (hfirst : first = s.floor + 1)
    (arity : Nat) : Amid s (1 + arity) { m with fiber := { m.fiber with
      stack := Exec.fitArguments first arity m.fiber.stack } } := by
  unfold Exec.fitArguments
  have hsize := hm.size
  by_cases hlt : m.fiber.stack.size - first < arity
  · refine hm.withStack (fun v hv => ?_) ?_ fun i hi => ?_
    · rw [if_pos hlt] at hv
      rcases Array.mem_append.mp hv with hv | hv
      · exact hm.sound.fiber.stack v hv
      · rw [(Array.mem_replicate.mp hv).2]
        exact Heap.live_none
    · rw [if_pos hlt, Array.size_append, Array.size_replicate]
      omega
    · rw [if_pos hlt]
      exact Array.getElem?_append_left (by omega)
  · simp only [if_neg hlt]
    exact hm.shrink (by omega) (by omega)

/-- **`callClosure`** — a call of a closure enters it. -/
theorem callClosure (hm : Amid s (argc + 1) m) (hr : m.heap.Has r .closure) :
    Finishes s 1 (Exec.callClosure r argc) m := by
  obtain ⟨c, hc⟩ := Heap.has_closure.mp hr
  obtain ⟨hprototype, -, hpackage⟩ := hm.sound.heap.sound.closure hc
  obtain ⟨p, -, hp, -⟩ := (hm.sound.heap.made r c hc).1.prototype
  have hfirst : m.fiber.stack.size - argc = s.floor + 1 := by
    rw [hm.size]
    omega
  -- whether the arguments are kept or not, they are there
  have henter : ∀ args : Array Value, (∀ v ∈ args, m.heap.Live v) → Finishes s 1 (do
      Exec.modifyStack (Exec.fitArguments (m.fiber.stack.size - argc) p.arity)
      Exec.enter
        { closure := r, chunk := p.chunk, ip := 0, base := m.fiber.stack.size - argc - 1,
          package := c.package, kind := .function, args }) m := by
    intro args hargs
    have hm' := hm.fitArguments hfirst p.arity
    exact Done.enters ⟨hm', ⟨hr, hpackage, hargs⟩, ⟨c, hc, hp⟩, rfl, rfl, by
      show _ - 1 = _
      rw [hfirst]
      rfl, rfl⟩
  refine .bind (hm.guardDepth (.bind (.get (.bind (.need hc (.bind (.get (.bind (.need hp
    (.bind (.height ?_)))))))))))
  dsimp only
  split
  · exact .bind (hm.valuesFrom henter)
  · exact henter #[] nofun

/-! ## Native functions -/

/-- The result of a native function replaces the callee and the arguments. -/
theorem answer (hm : Amid s (argc + 1) m) {first : Nat} (hfirst : first = s.floor + 1)
    (hv : m.heap.Live v) : Finishes s 1 (do Exec.truncate (first - 1); Exec.push v) m :=
  .bind (hm.truncate (n := 0) (by omega) (by omega) fun _ hm' heq => hm'.pushLast (heq ▸ hv))

/-- A collection before the answer. -/
theorem collect (hm : Amid s (argc + 1) m) {n : Float} :
    Settles s 1 { m.collectGarbage.2 with fiber := { m.fiber with
      stack := (m.fiber.stack.shrink s.floor).push (.number n) } } := by
  have hshrink := hm.shrink (n := 0) (by omega) rfl
  have hsound := hm.sound.collectGarbage
  refine ⟨hsound.withFiber ⟨hsound.fiber.handle, fun v hv => ?_, hsound.fiber.frames,
      hsound.fiber.openUpvalues⟩,
    hm.still.calm_trans (hm.sound.heap.sound.calm_collect m.roots), ?_, .inl ?_, hm.queue,
    hm.lastTask, hm.mainResult, hm.mainHandle, hm.names, hm.config, ?_, fun i hi => ?_⟩
  · rcases Array.mem_push.mp hv with hv | rfl
    · refine hsound.fiber.stack v ?_
      rw [← Array.mem_toList_iff, Array.toList_shrink] at hv
      exact Array.mem_toList_iff.mp (List.mem_of_mem_take hv)
    · exact Heap.live_number n
  · dsimp only
    rw [hm.fiber]
  · show m.fiber.state = _
    rw [hm.fiber]
  · show Array.size (Array.push _ _) = _
    rw [Array.size_push]
    exact congrArg (· + 1) hshrink.size
  · have hlt : i < (m.fiber.stack.shrink s.floor).size := by
      rw [Array.size_shrink, hm.size]
      omega
    show (Array.push _ _)[i]? = _
    rw [Array.getElem?_push_lt hlt, ← Array.getElem?_eq_getElem hlt]
    exact hshrink.below i hi

/-- Falling asleep, with the answer already on the stack. -/
theorem sleep (hm : Amid s k m) (hk : 0 < k) {since deadline : Nat} :
    Settles s k { m with fiber := { m.fiber with state := .sleeping since deadline } } :=
  ⟨hm.sound.withFiber ⟨hm.sound.fiber.handle, hm.sound.fiber.stack, hm.sound.fiber.frames,
      hm.sound.fiber.openUpvalues⟩, hm.still.calm, by
    dsimp only
    rw [hm.fiber], .inr ⟨hk, since, deadline, rfl⟩, hm.queue, hm.lastTask, hm.mainResult,
    hm.mainHandle, hm.names, hm.config, hm.size, hm.below⟩

/-- **`callNative`** — a call of a native function leaves its result. -/
theorem callNative {n : Native} (hm : Amid s (argc + 1) m) (hn : m.heap.native? r = some n) :
    Finishes s 1 (Exec.callNative n argc) m := by
  have hfirst : m.fiber.stack.size - argc = s.floor + 1 := by
    rw [hm.size]
    omega
  refine .bind (.height (.bind (hm.valuesFrom fun args hargs => ?_)))
  have hyields : Yields s (argc + 1) m fun v m' => Finishes s 1 (do
      Exec.truncate (m.fiber.stack.size - argc - 1)
      Exec.push v) m' := fun v m' hm' _ hv => hm'.answer hfirst hv
  cases hbody : n.body with
  | host f => exact .bind (hm.runHost hn hbody hargs hyields)
  | builtin b =>
    have hrun : Exec.runNative n args = Exec.runBuiltin b args := by
      unfold Exec.runNative
      rw [hbody]
    rw [hrun]
    by_cases hgc : b = .gc
    · subst hgc
      -- the collection comes last, when the arguments are gone
      have hheight : m.fiber.stack.size - argc - 1 = s.floor := by omega
      refine .bind (.bind (.modifyGet (.pure (.bind (.modify (.modify ?_))))))
      rw [hheight]
      exact .settles hm.collect
    · by_cases hwait : b = .wait
      · subst hwait
        refine .bind (.bind (hm.numberArgument fun x => .bind (.modify (.pure (.bind (.modify
          (.modify ?_)))))))
        have hheight : m.fiber.stack.size - argc - 1 = s.floor + 0 := by omega
        -- the fiber falls asleep with the answer on its stack
        have hshrink := hm.shrink (n := 0) (by omega) hheight
        have hpush : Amid s 1 { m with fiber := { m.fiber with stack := ((m.fiber.stack.shrink
            (m.fiber.stack.size - argc - 1)).push (.number 0)) } } :=
          hshrink.withStack (fun w hw => ?_) ?_ fun i hi => ?_
        · exact .settles (hpush.sleep (Nat.zero_lt_one))
        · rcases Array.mem_push.mp hw with hw | rfl
          · exact hshrink.sound.fiber.stack w hw
          · exact Heap.live_number _
        · rw [Array.size_push]
          exact congrArg (· + 1) hshrink.size
        · have hlt : i < (m.fiber.stack.shrink (m.fiber.stack.size - argc - 1)).size := by
            rw [Array.size_shrink, hm.size]
            omega
          rw [Array.getElem?_push_lt hlt, ← Array.getElem?_eq_getElem hlt]
      · exact .bind (hm.runBuiltin hgc hwait hyields)

/-! ## Classes and other values -/

/-- The instance stands in the slot of the callee, and the initialiser returns it from there. -/
theorem instantiate (hm : Amid s (argc + 1) m) (hr : m.heap.Has r .classObj) :
    Finishes s 1 (Exec.instantiate r argc) m := by
  obtain ⟨c, hc⟩ := Heap.has_class.mp hr
  obtain ⟨-, -, -, -, hfields, -⟩ := hm.sound.heap.classObj hc
  refine .bind (.get (.bind (.need hc (.bind (hm.alloc rfl ⟨hr, hfields⟩ nofun ?_)))))
  intro target m₁ hm₁ hev htarget _
  refine .bind (.height (.bind (hm₁.setStackAt (by rw [hm₁.size]; omega)
    (Heap.live_obj.mpr ⟨_, htarget⟩) fun m₂ hm₂ _ => ?_)))
  refine .bind (.get (.bind (hm₂.key hm₂.sound.names.init fun key _ => .bind (hm₂.searched ?_))))
  split
  · rename_i init hinit
    exact hm₂.callClosure (hm₂.sound.heap.method? hinit)
  · refine .ite (fun _ => hm₂.throw nofun) fun hargc => ?_
    obtain rfl : argc = 0 := by simpa using hargc
    exact .pure hm₂.done

/-- **`callValue`** — a call of any value. -/
theorem callValue {callee : Value} (hm : Amid s (argc + 1) m) :
    Finishes s 1 (Exec.callValue callee argc) m := by
  unfold Exec.callValue
  split
  · rename_i r
    refine .bind (.get ?_)
    split
    · rename_i c hc
      exact hm.callClosure ⟨_, hc, rfl⟩
    · rename_i n hn
      exact hm.callNative (r := r) (by rw [Heap.native?, hn])
    · rename_i c hc
      exact hm.instantiate ⟨_, hc, rfl⟩
    · rename_i b hb
      obtain ⟨hmethod, hreceiver⟩ := hm.sound.heap.sound.objects r _ hb
      refine .bind (.height (.bind (hm.setStackAt (by rw [hm.size]; omega) hreceiver
        fun m' hm' heq => hm'.callClosure (heq ▸ hmethod))))
    · exact hm.throw nofun
  · exact hm.throw nofun

theorem callInstead (hm : Amid s (argc + 1) m) (hv : m.heap.Live v) :
    Finishes s 1 (Exec.callInstead v argc) m :=
  .bind (.height (.bind (hm.setStackAt (by rw [hm.size]; omega) hv fun _ hm' _ => hm'.callValue)))

/-! ## Methods -/

/-- What is called takes the place of the class and the arguments. -/
theorem invokeOnClass (hm : Amid s (argc + 1) m) (hname : m.heap.Has name .string) :
    Finishes s 1 (Exec.invokeOnClass r name argc) m := by
  refine .bind (hm.key hname fun key _ => .bind (.heap (.bind (hm.searched ?_))))
  split
  · rename_i hmethod
    exact hm.callClosure (hm.sound.heap.method? hmethod)
  · rename_i hv
    exact hm.callInstead (hm.sound.heap.static? hv)
  · refine .bind (hm.extension? hname fun found hfound => ?_)
    cases found with
    | some method => exact hm.callClosure (hfound method rfl)
    | none => exact hm.noProperty

theorem invokeOnPackage {p : Package} (hm : Amid s (argc + 1) m)
    (hp : (Obj.package p).Sound m.heap) (hname : m.heap.Has name .string) :
    Finishes s 1 (Exec.invokeOnPackage p name argc) m := by
  refine .bind (hm.key hname fun key _ => ?_)
  split
  · rename_i hv
    exact hm.callInstead (hp.2.2.get? hv)
  · exact hm.noProperty

theorem invokeOnInstance {i : InstanceObj} (hm : Amid s (argc + 1) m)
    (hr : m.heap.instance? r = some i) (hname : m.heap.Has name .string) :
    Finishes s 1 (Exec.invokeOnInstance r name argc) m := by
  refine .bind (hm.extension? hname fun found hfound => ?_)
  cases found with
  | some method => exact hm.callClosure (hfound method rfl)
  | none =>
    refine .bind (hm.key hname fun key _ => .bind (.heap (.bind (.need hr (.bind (hm.searched ?_))))))
    split
    · rename_i hmethod
      exact hm.callClosure (hm.sound.heap.method? hmethod)
    · rename_i hv
      exact hm.callInstead ((hm.sound.heap.instanceObj hr).2.get? hv)
    · exact hm.noProperty

/-- A built-in method runs at once, and its result takes the place of the receiver and the
arguments. -/
theorem invokeBuiltin {target : Value} (hm : Amid s (argc + 1) m)
    (hname : m.heap.Has name .string) : Finishes s 1 (Exec.invokeBuiltin target name argc) m := by
  refine .bind (hm.extension? hname fun found hfound => ?_)
  cases found with
  | some method => exact hm.callClosure (hfound method rfl)
  | none =>
    dsimp only
    split
    · refine .bind (.height (.bind (nameText fun _ => .bind (hm.valuesFrom fun args hargs => ?_))))
      refine .bind (hm.runMethod hargs fun v m' hm' _ hv => ?_)
      refine .bind (hm'.truncate (n := 0) (by omega) (by rw [hm.size]; omega) fun m'' hm'' heq => ?_)
      exact hm''.pushLast (heq ▸ hv)
    · exact hm.throw nofun

/-- **`invoke`** — a method call. -/
theorem invoke (hm : Amid s (argc + 1) m) (hname : m.heap.Has name .string) :
    Finishes s 1 (Exec.invoke name argc) m := by
  refine .bind (hm.peek (by omega) fun target _ _ => ?_)
  split
  · refine .bind (.get ?_)
    split
    · exact hm.invokeOnClass hname
    · rename_i hp
      exact hm.invokeOnPackage (hm.sound.heap.sound.objects _ _ hp) hname
    · rename_i hi
      exact hm.invokeOnInstance (Heap.instance?_eq_some.mpr hi) hname
    · exact hm.invokeBuiltin hname
  · exact hm.invokeBuiltin hname

theorem invokeSuper {superclass : Value} (hm : Amid s (argc + 1) m)
    (hname : m.heap.Has name .string) : Finishes s 1 (Exec.invokeSuper superclass name argc) m :=
  .bind (hm.superMethod hname fun _ hr => hm.callClosure hr)

/-! ## Files -/

/-- **`enterFile`** — running a file enters its body. -/
theorem enterFile {source path : String} {package : Option Ref} {required : Bool}
    (hm : Amid s 0 m) (hpackage : ∀ r ∈ package, m.heap.Has r .package)
    (hleaves : leaves = if required then 1 else 0) :
    Finishes s leaves (Exec.enterFile source path package required) m := by
  refine .bind (hm.guardDepth (.bind (hm.compileSource ?_)))
  intro prototype m₁ p hm₁ hev _ htrusts hp harity hcaptures
  have hmade : m₁.heap.Made ⟨prototype, #[], package⟩ := ⟨htrusts, fun q hq => by
    rw [Option.some.inj (hq.symm.trans hp), hcaptures]
    rfl⟩
  have hpackage₁ : ∀ r ∈ package, m₁.heap.Has r .package := fun r h => hev.has (hpackage r h)
  refine .bind (.get (.bind (.need hp (.bind (hm₁.alloc rfl
    ⟨⟨_, Heap.prototype?_eq_some.mp hp, rfl⟩, nofun, hpackage₁⟩ (fun c hc => ?_) ?_)))))
  · rw [← Obj.closure.inj hc]
    exact hmade
  · intro closure m₂ hm₂ hev' hclosure _
    refine .bind (hm₂.push (Heap.live_obj.mpr ⟨_, hclosure⟩) fun m₃ hm₃ heq => .bind (.height ?_))
    have hm₃ : Amid s (1 + p.arity) m₃ := by
      rw [harity]
      exact hm₃
    refine Done.enters ⟨hm₃, ⟨?_, fun r h => ?_, nofun⟩, ⟨⟨prototype, #[], package⟩, ?_, ?_⟩, rfl, rfl,
      ?_, hleaves.symm⟩
    · rw [heq]
      exact ⟨_, hclosure, rfl⟩
    · rw [heq]
      exact hev'.has (hpackage₁ r h)
    · rw [heq]
      exact Heap.closure?_eq_some.mpr hclosure
    · rw [heq]
      exact hev'.prototype? hp
    · show _ - 1 = _
      rw [hm₃.size, harity]
      omega

/-- Nothing is left on the stack by an import; the package is bound to a name. -/
theorem importFile {f : Frame} {rest : List Frame} (hm : Amid s 2 m)
    (hf : s.start.fiber.frames = f :: rest) : Finishes s 0 Exec.importFile m := by
  refine .bind (hm.pop fun given m₁ hm₁ heq₁ _ _ _ => .bind (.get (.bind (hm₁.pop
    fun path m₂ hm₂ heq₂ _ _ _ => ?_))))
  split
  · exact hm₂.throw nofun
  · refine .bind (.heap (.bind (hm₂.loadSource fun found m₃ hm₃ heq₃ => ?_)))
    refine .bind (hm₃.frame hf fun hframe => ?_)
    split
    · exact hm₃.enterFile hframe.package rfl
    · refine .bind (hm₃.newPackage hframe.package fun package m₄ hm₄ hev₄ hpackage => ?_)
      refine .bind (hm₄.intern _ fun r m₅ hm₅ hev₅ hr => .bind (hm₅.key hr fun key hkey => ?_))
      refine .bind (hm₅.define hf hkey (hev₅.has hpackage).live fun m₆ hm₆ hev₆ => ?_)
      refine hm₆.enterFile (fun r h => ?_) rfl
      obtain rfl := Option.some.inj h
      exact hev₆.has (hev₅.has hpackage)

/-- The package that is required is left on the stack. -/
theorem requireFile {f : Frame} {rest : List Frame} (hm : Amid s 1 m)
    (hf : s.start.fiber.frames = f :: rest) : Finishes s 1 Exec.requireFile m := by
  refine .bind (.get (.bind (hm.pop fun path m₁ hm₁ heq₁ _ _ _ => ?_)))
  split
  · exact hm₁.throw nofun
  · refine .bind (hm₁.loadSource fun found m₂ hm₂ _ => .bind (hm₂.frame hf fun hframe => ?_))
    refine .bind (hm₂.newPackage hframe.package fun package m₃ hm₃ _ hpackage => ?_)
    refine hm₃.enterFile (fun r h => ?_) rfl
    obtain rfl := Option.some.inj h
    exact hpackage

end Amid

end ScriptMachine
