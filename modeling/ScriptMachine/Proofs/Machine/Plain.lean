import Mathlib
import ScriptMachine.Proofs.Machine.Operations

/-!
# ScriptMachine.Proofs.Machine.Plain — the instructions that are one scene

A *plain* instruction takes its operands and leaves its results or enters an activation, and control
goes on behind it. All others change what a scene fixes: slots of variables, cells, handlers, tasks or
the place where control goes on.

`Amid.execute` is the result: an instruction that finds what its situation promises does its part of the
scene, taking and leaving what `Instruction.effect` says, or fails. This is where the table of effects,
which the compiler computes with, is confirmed by the machine; `startsLiteral` adds what a situation
says of literals, that a new collection is on top. The cases are those of `Operation.isPlain`, and each
is a lemma of an earlier module.
-/

namespace ScriptMachine

/-- Is the instruction plain? -/
def Operation.isPlain : Operation → Bool
  | .setLocal | .setUpvalue | .jump | .jumpIfFalse | .loop | .closure | .closeUpvalue | .ret
  | .spawn | .awaitTask | .abortTask | .tryBegin | .tryEnd | .pop => false
  | _ => true

/-- The kind of object that a literal puts together. -/
def Collection.kind : Collection → Kind
  | .list => .list
  | .dict => .dict

/-- **`h.Holds stack i k`** — there is a collection of this kind in the slot. -/
def Heap.Holds (h : Heap) (stack : Array Value) (i : Nat) (k : Collection) : Prop :=
  ∃ r, stack[i]? = some (.obj r) ∧ h.Has r k.kind

variable {s : Scene} {m : Machine} {k : Nat} {name : Ref} {v : Value} {f : Frame}
  {rest : List Frame} {i : Instruction}

/-- **`Setting s f rest i m`** — the instruction finds what it needs: its constants, its variables, and
enough values on the stack. -/
structure Setting (s : Scene) (f : Frame) (rest : List Frame) (i : Instruction) (m : Machine) :
    Prop where
  frames : s.start.fiber.frames = f :: rest
  constant : i.op = .constant → ∃ v, f.chunk.constant? i.first = some v ∧ m.heap.Live v
  names : ∀ n ∈ i.names, ∃ r, f.chunk.constant? n = some (.obj r) ∧ m.heap.Has r .string
  slot : i.op = .getLocal → f.base + i.first < s.floor
  capture : i.op = .getUpvalue → ∃ c, m.heap.closure? f.closure = some c ∧ i.first < c.upvalues.size
  reads : i.effect.reads < s.floor + i.effect.takes
  fills : ∀ k, i.op.fills = some k → m.heap.Holds s.start.fiber.stack (s.floor - 1) k
  fresh : i.op.needsFresh = true →
    ∀ v, m.fiber.stack[m.fiber.stack.size - 1]? = some v → m.heap.IsMethod v
  excused : m.Misfit i.op → s.excused

namespace Amid

/-- A constant that the listing knows is there. -/
theorem constant {Q : Value → Machine → Prop} {index : Nat} (hm : Amid s k m)
    (hf : s.start.fiber.frames = f :: rest) (hv : f.chunk.constant? index = some v) (hQ : Q v m) :
    Runs s (Exec.constant index) m Q :=
  .bind (hm.frame hf fun _ => .need hv hQ)

theorem nameConstant {Q : Ref → Machine → Prop} {index : Nat} (hm : Amid s k m)
    (hf : s.start.fiber.frames = f :: rest) (hr : f.chunk.constant? index = some (.obj name))
    (hQ : Q name m) : Runs s (Exec.nameConstant index) m Q :=
  .bind (hm.constant hf hr (.pure hQ))

/-- The value of a captured variable is there. -/
theorem readUpvalue {Q : Value → Machine → Prop} {cell : Ref} (hm : Amid s k m)
    (hcell : m.heap.Has cell .upvalue) (hQ : ∀ v, m.heap.Live v → Q v m) :
    Runs s (Exec.readUpvalue cell) m Q := by
  obtain ⟨u, hu⟩ := Heap.has_upvalue.mp hcell
  refine .bind (.get (.bind (.need hu ?_)))
  cases u with
  | closed v => exact .pure (hQ v (hm.sound.heap.sound.objects _ _ (Heap.upvalue?_eq_some.mp hu)))
  | onStack task slot =>
    refine .pure (hQ _ ?_)
    cases hv : (Exec.fiberOf? m task).bind fun t => t.stack[slot]? with
    | none => exact Heap.live_none
    | some v =>
      obtain ⟨t, ht, hv⟩ := Option.bind_eq_some_iff.mp hv
      have hsound : t.Sound m.heap := by
        unfold Exec.fiberOf? at ht
        split at ht
        · exact Option.some.inj ht ▸ hm.sound.fiber
        · exact hm.sound.queue t (List.mem_of_find?_eq_some ht)
      exact hsound.stack v (Array.mem_of_getElem? hv)

/-- A captured variable is read through its cell, open or closed, and pushed. -/
theorem getUpvalue {index : Nat} {c : Closure} (hm : Amid s 0 m)
    (hf : s.start.fiber.frames = f :: rest) (hc : m.heap.closure? f.closure = some c)
    (hindex : index < c.upvalues.size) : Finishes s 1 (do
      Exec.push (← Exec.readUpvalue (← Exec.upvalueCell index))) m := by
  have hcell : c.upvalues[index]? = some c.upvalues[index] := Array.getElem?_eq_getElem hindex
  refine .bind (.bind (.get (.bind (hm.frame hf fun _ => .bind (.need hc (.need hcell ?_))))))
  refine .bind (hm.readUpvalue ?_ fun v hv => hm.pushLast hv)
  exact (hm.sound.heap.sound.closure hc).2.1 _ (Array.getElem_mem hindex)

/-- The value of a variable of the activation. -/
theorem getLocal {index : Nat} (hm : Amid s 0 m) (hf : s.start.fiber.frames = f :: rest)
    (hindex : f.base + index < s.floor) : Finishes s 1 (do
      Exec.push (← Exec.stackAt ((← Exec.frame).base + index))) m := by
  have hlt : f.base + index < m.fiber.stack.size := by
    rw [hm.size]
    omega
  have hv := Array.getElem?_eq_getElem hlt
  refine .bind (hm.frame hf fun _ => .bind (.bind (.get (.need hv ?_))))
  exact hm.pushLast (hm.live_getElem? hv)

/-- The latest answer is kept outside packages. -/
theorem keepAnswer (hm : Amid s 1 m) (hf : s.start.fiber.frames = f :: rest) :
    Finishes s 0 Exec.keepAnswer m := by
  refine .bind (hm.pop fun v m₁ hm₁ heq hv _ _ => .bind (hm₁.frame hf fun _ => ?_))
  refine .ite (fun _ => ?_) fun _ => .pure hm₁.done
  refine .bind (.get (.bind (hm₁.key hm₁.sound.names.answer fun key hkey => ?_)))
  exact hm₁.setGlobalTable hkey (heq ▸ hv) fun m₂ hm₂ _ => hm₂.done

/-- A name is bound to the value on top. -/
theorem defineTop {index : Nat} (hm : Amid s 1 m) (hf : s.start.fiber.frames = f :: rest)
    (hr : f.chunk.constant? index = some (.obj name)) (hname : m.heap.Has name .string) :
    Finishes s 0 (do
      let name ← Exec.nameConstant index
      let v ← Exec.pop
      Exec.define (← Exec.key name) v) m := by
  refine .bind (hm.nameConstant hf hr (.bind (hm.pop fun v m₁ hm₁ heq hv _ _ => ?_)))
  refine .bind (hm₁.key (heq ▸ hname) fun key hkey => ?_)
  exact hm₁.define hf hkey (heq ▸ hv) fun m₂ hm₂ _ => hm₂.done

theorem defineForced {index : Nat} (hm : Amid s 1 m) (hf : s.start.fiber.frames = f :: rest)
    (hr : f.chunk.constant? index = some (.obj name)) (hname : m.heap.Has name .string) :
    Finishes s 0 (do
      let name ← Exec.nameConstant index
      let v ← Exec.pop
      Exec.setGlobalTable (← Exec.key name) v) m := by
  refine .bind (hm.nameConstant hf hr (.bind (hm.pop fun v m₁ hm₁ heq hv _ _ => ?_)))
  refine .bind (hm₁.key (heq ▸ hname) fun key hkey => ?_)
  exact hm₁.setGlobalTable hkey (heq ▸ hv) fun m₂ hm₂ _ => hm₂.done

/-- The method of the superclass on top, bound to the receiver below. -/
theorem getSuper {index : Nat} (hm : Amid s 2 m) (hf : s.start.fiber.frames = f :: rest)
    (hr : f.chunk.constant? index = some (.obj name)) (hname : m.heap.Has name .string) :
    Finishes s 1 (do
      let superclass ← Exec.pop
      let target ← Exec.pop
      let method ← Exec.superMethod superclass (← Exec.nameConstant index)
      Exec.push (← Exec.bindMethod target method)) m := by
  refine .bind (hm.pop fun superclass m₁ hm₁ heq₁ _ _ _ => .bind (hm₁.pop
    fun target m₂ hm₂ heq₂ htarget _ _ => .bind (hm₂.nameConstant hf hr ?_)))
  have hname₂ : m₂.heap.Has name .string := heq₂.trans heq₁ ▸ hname
  refine .bind (hm₂.superMethod hname₂ fun method hmethod => .bind ?_)
  exact hm₂.bindMethod (heq₂ ▸ htarget) hmethod fun v m₃ hm₃ _ hv => hm₃.pushLast hv

/-- An object is made and pushed. -/
theorem pushNew {o : Obj} (hm : Amid s 0 m) (hplain : o.isPlain = true) (ho : o.Sound m.heap)
    (hc : ∀ c, o = .closure c → m.heap.Made c) : Runs s (do Exec.push (← Exec.allocValue o)) m
      fun _ m' => Amid s 1 m' ∧ ∃ r, m'.fiber.stack[s.floor]? = some (.obj r) ∧ m'.heap.get? r = some o := by
  refine .bind (.bind (hm.alloc hplain ho hc fun r m₁ hm₁ _ hr _ => .pure ?_))
  have hsize : m₁.fiber.stack.size = s.floor := hm₁.size
  refine ⟨hm₁.push (Q := fun _ m' => Amid s 1 m') (Heap.live_obj.mpr ⟨o, hr⟩) fun _ hm₂ _ => hm₂, r,
    ?_, hr⟩
  show (m₁.fiber.stack.push (.obj r))[s.floor]? = _
  rw [← hsize]
  exact Array.getElem?_push_size

/-- **`startsLiteral`** — a literal starts with an empty collection on top. -/
theorem startsLiteral {c : Collection} (hm : Amid s 0 m) (hop : i.op.makes = some c) :
    Runs s (Exec.execute i) m fun _ m' => Amid s 1 m' ∧ m'.heap.Holds m'.fiber.stack s.floor c := by
  obtain ⟨op, first, second, captures⟩ := i
  cases op <;> cases hop
  case newList =>
    refine Exec.Meets.mono (hm.pushNew (o := .list #[]) rfl (fun _ h => by simp at h) nofun)
      (fun _ m' => ?_) fun _ _ => id
    rintro ⟨hm', r, hr, ho⟩
    exact ⟨hm', r, hr, _, ho, rfl⟩
  case newDict =>
    refine Exec.Meets.mono (hm.pushNew (o := .dict .empty) rfl
      (fun _ h => by simp [Dict.values_empty] at h) nofun) (fun _ m' => ?_) fun _ _ => id
    rintro ⟨hm', r, hr, ho⟩
    exact ⟨hm', r, hr, _, ho, rfl⟩

/-- **`execute`** — a plain instruction is a scene. -/
theorem execute (hs : Setting s f rest i m) (hplain : i.op.isPlain = true)
    (hm : Amid s i.effect.takes m) : Finishes s i.effect.leaves (Exec.execute i) m := by
  obtain ⟨op, first, second, captures⟩ := i
  obtain ⟨hf, hconstant, hnames, hslot, hcapture, hreads, hfills, hfresh, hexcused⟩ := hs
  have htop : 0 < s.floor + (Instruction.effect ⟨op, first, second, captures⟩).takes :=
    Nat.lt_of_le_of_lt (Nat.zero_le _) hreads
  -- one case for each plain operation; the others are not plain
  cases op
  case constant =>
    obtain ⟨v, hv, hlive⟩ := hconstant rfl
    exact .bind (hm.constant hf hv (Amid.pushLast (k := 0) hm hlive))
  case pushNull => exact Amid.pushLast (k := 0) hm Heap.live_none
  case pushTrue | pushFalse => exact Amid.pushLast (k := 0) hm (Heap.live_bool _)
  case concat => exact hm.concatPieces
  case range => exact hm.expand
  case replPop => exact hm.keepAnswer hf
  case getLocal => exact hm.getLocal hf (hslot rfl)
  case getGlobal =>
    obtain ⟨r, hr, hstring⟩ := hnames first (by simp [Instruction.names])
    exact .bind (hm.nameConstant hf hr (.bind (Amid.getGlobal (k := 0) hm hf hstring
      fun v m₁ hm₁ _ hv => hm₁.pushLast hv)))
  case defineGlobal =>
    obtain ⟨r, hr, hstring⟩ := hnames first (by simp [Instruction.names])
    exact hm.defineTop hf hr hstring
  case defineGlobalForced =>
    obtain ⟨r, hr, hstring⟩ := hnames first (by simp [Instruction.names])
    exact hm.defineForced hf hr hstring
  case setGlobal =>
    obtain ⟨r, hr, hstring⟩ := hnames first (by simp [Instruction.names])
    refine .bind (hm.nameConstant hf hr (.bind (hm.peek htop fun v hv _ => ?_)))
    exact hm.setGlobal hstring hv fun m₁ hm₁ _ => hm₁.done
  case getUpvalue =>
    obtain ⟨c, hc, hlt⟩ := hcapture rfl
    exact Amid.getUpvalue hm hf hc hlt
  case getProperty =>
    obtain ⟨r, hr, hstring⟩ := hnames first (by simp [Instruction.names])
    refine .bind (hm.peek htop fun v hv _ => .bind (hm.nameConstant hf hr ?_))
    exact .bind (hm.getProperty hstring fun w m₁ hm₁ _ hw => Amid.replaceLast (k := 0) hm₁ hw)
  case getPropertyNoPop =>
    obtain ⟨r, hr, hstring⟩ := hnames first (by simp [Instruction.names])
    refine .bind (hm.peek htop fun v hv _ => .bind (hm.nameConstant hf hr ?_))
    exact .bind (hm.getProperty hstring fun w m₁ hm₁ _ hw => Amid.pushLast (k := 0) hm₁ hw)
  case setProperty =>
    obtain ⟨r, hr, hstring⟩ := hnames first (by simp [Instruction.names])
    have hbelow : 1 < s.floor + 2 := by omega
    refine .bind (hm.peek htop fun v hv _ => .bind (hm.peek hbelow fun target _ _ => ?_))
    refine .bind (hm.nameConstant hf hr (.bind (hm.setProperty hstring hv fun m₁ hm₁ hev => ?_)))
    exact Amid.replaceLast (k := 0) hm₁ (hev.live hv)
  case getSuper =>
    obtain ⟨r, hr, hstring⟩ := hnames first (by simp [Instruction.names])
    exact hm.getSuper hf hr hstring
  case equal => exact hm.equality
  case greater | less => exact hm.compare
  case add | subtract | multiply | divide | modulo | power =>
    exact .ite (fun _ => hm.elementwise) fun _ => hm.arithmetic
  case inc | dec => exact hm.increase
  case shiftLeft | shiftRight | bitwiseAnd | bitwiseOr => exact hm.bitwise
  case contains => exact hm.membership
  case isType =>
    obtain ⟨r, hr, hstring⟩ := hnames second (by simp [Instruction.names])
    refine .bind (hm.nameConstant hf hr (.bind (nameText fun text => .bind (Amid.pop (k := 0) hm
      fun v m₁ hm₁ _ _ _ _ => .bind (hm₁.testType fun _ => hm₁.pushLast (Heap.live_bool _))))))
  case not => exact hm.negateTruth
  case negate => exact hm.negate
  case dup => exact .bind (hm.peek htop fun v hv _ => Amid.pushLast (k := 0) hm hv)
  case importFile => exact hm.importFile hf
  case requireFile => exact hm.requireFile hf
  case newList =>
    have hmakes := Amid.startsLiteral (i := ⟨.newList, first, second, captures⟩) (c := .list) hm rfl
    exact Exec.Meets.mono hmakes (fun _ _ h => h.1.done) fun _ _ => id
  case newDict =>
    have hmakes := Amid.startsLiteral (i := ⟨.newDict, first, second, captures⟩) (c := .dict) hm rfl
    exact Exec.Meets.mono hmakes (fun _ _ h => h.1.done) fun _ _ => id
  case addList =>
    obtain ⟨r, hr, hlist⟩ := hfills .list rfl
    exact hm.addItem (by change 2 < s.floor + 1 at hreads; omega) hr hlist
  case addDict =>
    obtain ⟨r, hr, hdict⟩ := hfills .dict rfl
    exact hm.addEntry (by change 3 < s.floor + 2 at hreads; omega) hr hdict
  case subscript => exact hm.subscript
  case subscriptAssign => exact hm.subscriptAssign
  case call =>
    have hcallee : first < s.floor + (first + 1) := by omega
    exact .bind (hm.peek hcallee fun v _ _ => hm.callValue)
  case invoke =>
    obtain ⟨r, hr, hstring⟩ := hnames second (by simp [Instruction.names])
    exact .bind (hm.nameConstant hf hr (hm.invoke hstring))
  case superInvoke =>
    obtain ⟨r, hr, hstring⟩ := hnames second (by simp [Instruction.names])
    refine .bind (hm.nameConstant hf hr (.bind (Amid.pop (k := first + 1) hm
      fun superclass m₁ hm₁ heq _ _ _ => ?_)))
    exact hm₁.invokeSuper (heq ▸ hstring)
  case classDef =>
    obtain ⟨r, hr, hstring⟩ := hnames first (by simp [Instruction.names])
    exact .bind (hm.nameConstant hf hr (hm.newClass hf hstring))
  case inherit => exact hm.inherit (by change 2 < s.floor + 1 at hreads; omega) hexcused
  case method =>
    obtain ⟨r, hr, hstring⟩ := hnames first (by simp [Instruction.names])
    exact .bind (hm.nameConstant hf hr (hm.defineMethod hstring (hfresh rfl)))
  case member =>
    obtain ⟨r, hr, hstring⟩ := hnames first (by simp [Instruction.names])
    exact .bind (hm.nameConstant hf hr (hm.defineProperty hstring hexcused))
  case extend =>
    obtain ⟨r, hr, hstring⟩ := hnames first (by simp [Instruction.names])
    obtain ⟨r', hr', hstring'⟩ := hnames second (by simp [Instruction.names])
    exact .bind (hm.nameConstant hf hr (.bind (hm.nameConstant hf hr'
      (hm.defineExtension hf hstring hstring' (hfresh rfl)))))
  case enumDef =>
    obtain ⟨r, hr, hstring⟩ := hnames first (by simp [Instruction.names])
    exact .bind (hm.nameConstant hf hr (hm.newEnumeration hstring))
  case nop => exact .pure (Amid.done (k := 0) hm)
  all_goals simp [Operation.isPlain] at hplain

end Amid

end ScriptMachine
