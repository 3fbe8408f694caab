import Mathlib
import ScriptMachine.Machine.Step
import ScriptMachine.Proofs.Renaming.Tasks

/-!
# ScriptMachine.Proofs.Renaming.Stepping — one instruction on like machines

Like machines are about to execute the same instruction, and after it they are alike again: whichever
instruction it is, both complete it or both fail with the same fault. The one thing they must not do is
to call a builtin that measures the heap; `Machine.calls?` says which builtin the next instruction
calls, if it calls any.

`step_agree` is the result. `Alike.execute` has the cases of all instructions that call no value, each a
lemma of an earlier module; the two that remain are calls and method calls, whose condition is stated
by `calls?`. Decoding is the same on both sides because like functions have equal code.
-/

namespace ScriptMachine

variable {β : Pairing} {m n : Machine} {h h' : Heap} {v w : Value} {r s : Ref}

/-! ## The next instruction -/

namespace Chunk.Like

variable {c d : Chunk} (hc : c.Like β d) (hh : h.Like β h')
include hc hh

theorem captureCount_eq (index : Nat) : c.captureCount h index = d.captureCount h' index := by
  have hconstant := hc.constants.getElem? index
  unfold Chunk.captureCount Chunk.constant?
  generalize c.constants[index]? = a, d.constants[index]? = b at hconstant
  cases hconstant with
  | none => rfl
  | some hv =>
    cases hv with
    | obj hr =>
      dsimp only
      rw [(hh.prototype? hr).eq_of_forall fun _ _ hp => hp.captureCount]
    | _ => rfl

theorem instruction?_eq (offset : Nat) : c.instruction? h offset = d.instruction? h' offset := by
  unfold Chunk.instruction?
  rw [hc.code, show c.captureCount h = d.captureCount h' from funext (hc.captureCount_eq hh)]

end Chunk.Like

namespace Machine

/-- The operand so far below the top. -/
def operand? (m : Machine) (distance : Nat) : Option Value :=
  if distance < m.fiber.stack.size then m.fiber.stack[m.fiber.stack.size - 1 - distance]? else none

/-- The name that a constant of the running code is. -/
def name? (m : Machine) (index : Nat) : Option Ref :=
  m.fiber.frames.head?.bind fun f => (f.chunk.constant? index).bind Value.ref?

/-- **`m.callee? i`** — the value that an instruction calls. -/
def callee? (m : Machine) (i : Instruction) : Option Value :=
  match i.op with
  | .call => m.operand? i.first
  | .invoke =>
    (m.name? i.second).bind fun name => (m.operand? i.first).bind fun target => m.standIn? target name
  | _ => none

/-- **`m.calls?`** — the builtin that the next instruction calls. -/
def calls? (m : Machine) : Option Builtin :=
  m.next?.bind fun i => (m.callee? i).bind m.heap.builtin?

/-- The next instruction is decoded from the same bytes. -/
theorem Like.next?_eq (hm : m.Like β n) : m.next? = n.next? := by
  have hframes := hm.fiber.frames
  unfold Machine.next?
  generalize m.fiber.frames = fs, n.fiber.frames = gs at hframes
  cases hframes with
  | nil => rfl
  | cons hf _ =>
    rw [List.head?_cons, List.head?_cons, Option.bind_some, Option.bind_some, hf.ip]
    exact hf.chunk.instruction?_eq hm.heap _

end Machine

namespace Exec

/-! ## The instructions -/

theorem Steady.upvalueCell (index : Nat) :
    Steady β β.rel (upvalueCell index) (upvalueCell index) := by
  refine Steady.get.seq fun m n hm => Steady.frame.seq fun f g hf => ?_
  refine (Steady.need (hm.heap.closure? hf.closure)).seq fun c d hc => ?_
  exact .need (hc.upvalues.getElem? index)

theorem Steady.keepAnswer : Steady β (fun _ _ => True) keepAnswer keepAnswer := by
  refine Steady.pop.seq fun v w hv => Steady.frame.seq fun f g hf => ?_
  rw [hf.package.isNone_eq]
  split
  · refine Steady.get.seq fun m n hm => (Steady.key hm.names.answer).seq fun k l hk => ?_
    exact .setGlobalTable hk hv
  · exact .pure trivial

/-- What stands below is a list on both sides or on neither. -/
theorem Steady.addItem : Steady β (fun _ _ => True) addItem addItem := by
  refine Steady.pop.seq fun v w hv => (Steady.peek 0).seq fun v' w' hv' => ?_
  cases hv' with
  | @obj r s hr =>
    refine Steady.heap.seq fun h h' hh => ?_
    obtain ⟨o, o', ho, ho', hlike⟩ := hh.objects r s hr
    rw [ho, ho']
    cases hlike with
    | list => exact .modifyList hr fun _ _ h => h.push hv
    | _ => exact .throw _
  | _ => exact .pure trivial

/-- What stands below is a dict on both sides or on neither. -/
theorem Steady.addEntry : Steady β (fun _ _ => True) addEntry addEntry := by
  refine Steady.pop.seq fun v w hv => Steady.get.seq fun m n hm => Steady.pop.seq fun k l hk => ?_
  rw [hm.heap.textOf?_eq hk]
  split
  · exact .throw _
  · refine (Steady.peek 0).seq fun v' w' hv' => ?_
    cases hv' with
    | @obj r s hr =>
      refine Steady.heap.seq fun h h' hh => ?_
      obtain ⟨o, o', ho, ho', hlike⟩ := hh.objects r s hr
      rw [ho, ho']
      cases hlike with
      | dict => exact .modifyDict hr fun _ _ h => h.insert _ hv
      | _ => exact .throw _
    | _ => exact .pure trivial

theorem Steady.closeTop : Steady β (fun _ _ => True) closeTop closeTop := by
  refine Steady.height.seq fun height _ hheight => ?_
  subst hheight
  exact (Steady.closeUpvalues _).seq fun _ _ _ => Steady.discard .pop

theorem Alike.spawnTop : Alike β Done spawnTop spawnTop := by
  refine Steady.pop.bind fun v w hv => ?_
  cases hv with
  | obj hr => exact (Alike.spawn hr).bind fun _ _ _ _ hs => (Steady.push (.obj hs)).done
  | _ => exact .throw _

theorem Alike.abortTop : Alike β Done abortTop abortTop := by
  refine Steady.pop.bind fun v w hv => ?_
  cases hv with
  | obj hr =>
    refine Steady.get.bind fun m n hm => ?_
    rw [(hm.heap.task? hr).isSome_eq]
    split
    · exact .abort hr
    · exact .throw _
  | _ => exact .throw _

theorem Steady.installHandler (offset : Nat) :
    Steady β (fun _ _ => True) (installHandler offset) (installHandler offset) := by
  refine Steady.frame.seq fun f g hf => ?_
  refine .modifyFiber (fun t u ht => { ht with handlers := ?_ }) fun _ => rfl
  rw [hf.ip, ht.frames.length_eq, ht.stack.size_eq, ht.handlers]

theorem Steady.removeHandler (offset : Nat) :
    Steady β (fun _ _ => True) (removeHandler offset) (removeHandler offset) := by
  refine Steady.seq (.modifyFiber (fun t u ht => { ht with handlers := ?_ }) fun _ => rfl)
    fun _ _ _ => .modifyIp _
  rw [ht.handlers]

theorem Alike.arithmeticStep (op : Arithmetic) (i : Instruction) :
    Alike β Done (arithmeticStep op i) (arithmeticStep op i) := by
  unfold Exec.arithmeticStep
  split
  · exact .elementwise op
  · exact .arithmetic op

/-- **`Alike.execute`** — an instruction that calls no value does the same to like machines. -/
theorem Alike.execute (i : Instruction) (hcall : i.op ≠ .call) (hinvoke : i.op ≠ .invoke) :
    Alike β Done (execute i) (execute i) := by
  have hname : ∀ index, Steady β β.rel (Exec.nameConstant index) (Exec.nameConstant index) :=
    Steady.nameConstant
  obtain ⟨op, first, second, captures⟩ := i
  -- one case for each operation, from the lemmas on what it is made of; the two that call are left
  -- out
  cases op with
  | constant => exact (Steady.constant first).bind fun _ _ hv => (Steady.push hv).done
  | pushNull => exact (Steady.push .none).done
  | pushTrue => exact (Steady.push (.bool true)).done
  | pushFalse => exact (Steady.push (.bool false)).done
  | concat => exact .concatPieces first
  | range => exact .expand _
  | pop => exact (Steady.discard .pop).done
  | replPop => exact Steady.keepAnswer.done
  | getLocal =>
    refine Steady.frame.bind fun f g hf => ?_
    rw [hf.base]
    exact (Steady.stackAt _).bind fun _ _ hv => (Steady.push hv).done
  | setLocal =>
    refine Steady.frame.bind fun f g hf => ?_
    rw [hf.base]
    exact (Steady.peek 0).bind fun _ _ hv => (Steady.setStackAt _ hv).done
  | getGlobal => exact (hname first).bind fun _ _ hr => Alike.pushes (.getGlobal hr)
  | defineGlobal =>
    refine (hname first).bind fun _ _ hr => Steady.pop.bind fun _ _ hv => ?_
    exact (Steady.key hr).bind fun _ _ hk => (Steady.define hk hv).done
  | defineGlobalForced =>
    refine (hname first).bind fun _ _ hr => Steady.pop.bind fun _ _ hv => ?_
    exact (Steady.key hr).bind fun _ _ hk => (Steady.setGlobalTable hk hv).done
  | setGlobal =>
    exact (hname first).bind fun _ _ hr => (Steady.peek 0).bind fun _ _ hv =>
      (Steady.setGlobal hr hv).done
  | getUpvalue =>
    exact (Steady.upvalueCell first).bind fun _ _ hr => (Steady.readUpvalue hr).bind
      fun _ _ hv => (Steady.push hv).done
  | setUpvalue =>
    exact (Steady.upvalueCell first).bind fun _ _ hr => (Steady.peek 0).bind
      fun _ _ hv => (Steady.writeUpvalue hr hv).done
  | getProperty =>
    refine (Steady.peek 0).bind fun _ _ hv => (hname first).bind fun _ _ hr => ?_
    exact (Alike.getProperty hv hr).replaces 1
  | getPropertyNoPop =>
    refine (Steady.peek 0).bind fun _ _ hv => (hname first).bind fun _ _ hr => ?_
    exact (Alike.getProperty hv hr).pushes
  | setProperty =>
    refine (Steady.peek 0).bind fun _ _ hv => (Steady.peek 1).bind fun _ _ ho => ?_
    refine (hname first).bind fun _ _ hr => (Steady.setProperty ho hr hv).bind fun _ _ _ => ?_
    exact (Steady.replaceTop 2 hv).done
  | getSuper =>
    refine Steady.pop.bind fun _ _ hs => Steady.pop.bind fun _ _ hv => ?_
    refine (hname first).bind fun _ _ hr => (Steady.superMethod hs hr).bind fun _ _ hm => ?_
    exact (Alike.bindMethod hv hm).pushes
  | equal => exact .equality
  | greater => exact .compare _
  | less => exact .compare _
  | add => exact .arithmeticStep _ _
  | subtract => exact .arithmeticStep _ _
  | multiply => exact .arithmeticStep _ _
  | divide => exact .arithmeticStep _ _
  | modulo => exact .arithmeticStep _ _
  | power => exact .arithmeticStep _ _
  | inc => exact .increase _
  | dec => exact .increase _
  | shiftLeft => exact .bitwise _
  | shiftRight => exact .bitwise _
  | bitwiseAnd => exact .bitwise _
  | bitwiseOr => exact .bitwise _
  | contains => exact .membership
  | isType =>
    refine (hname second).bind fun _ _ hr => (Steady.nameText hr).same fun name => ?_
    refine Steady.pop.bind fun _ _ hv => (Steady.testType hv name).same fun found => ?_
    exact (Steady.push (.bool _)).done
  | not => exact .negateTruth
  | negate => exact .negate
  | jump => exact (Steady.modifyIp (· + first)).done
  | jumpIfFalse =>
    refine (Steady.peek 0).bind fun _ _ hv => ?_
    rw [hv.isFalsey_eq]
    split
    · exact (Steady.modifyIp _).done
    · exact .pure trivial
  | loop => exact (Steady.modifyIp (· - first)).done
  | dup => exact (Steady.peek 0).bind fun _ _ hv => (Steady.push hv).done
  | importFile => exact .importFile
  | requireFile => exact .requireFile
  | newList => exact (Alike.newList .empty).pushes
  | addList => exact Steady.addItem.done
  | newDict => exact (Alike.newDict .empty).pushes
  | addDict => exact Steady.addEntry.done
  | subscript => exact .subscript
  | subscriptAssign => exact .subscriptAssign
  | call => exact absurd rfl hcall
  | invoke => exact absurd rfl hinvoke
  | superInvoke =>
    exact (hname second).bind fun _ _ hr => Steady.pop.bind fun _ _ hs => .invokeSuper hs hr first
  | closure => exact (hname first).bind fun _ _ hr => .makeClosure hr captures
  | closeUpvalue => exact Steady.closeTop.done
  | ret => exact Steady.returnFromFrame.done
  | classDef => exact (hname first).bind fun _ _ hr => .newClass hr
  | inherit => exact Steady.inherit.done
  | method => exact (hname first).bind fun _ _ hr => (Steady.defineMethod hr).done
  | member => exact (hname first).bind fun _ _ hr => .defineProperty hr _
  | extend =>
    exact (hname first).bind fun _ _ hr => (hname second).bind fun _ _ hs => .defineExtension hr hs
  | enumDef => exact (hname first).bind fun _ _ hr => .newEnumeration hr
  | spawn => exact .spawnTop
  | awaitTask => exact .awaitTask
  | abortTask => exact .abortTop
  | tryBegin => exact (Steady.installHandler first).done
  | tryEnd => exact (Steady.removeHandler first).done
  | nop => exact .pure trivial

theorem reads_frame : frame.Reads fun m f => m.fiber.frames.head? = some f := by
  intro m f m' hok
  unfold frame at hok
  rw [get_bind] at hok
  cases hframes : m.fiber.frames with
  | nil =>
    rw [hframes] at hok
    cases hok
  | cons g rest =>
    rw [hframes] at hok
    cases hok
    exact ⟨rfl, congrArg List.head? hframes⟩

/-- The name that an instruction gives is a constant of the running code. -/
theorem reads_nameConstant (index : Nat) :
    (nameConstant index).Reads fun m r => m.name? index = some r := by
  have hconstant : (constant index).Reads fun m v =>
      (m.fiber.frames.head?.bind fun f => f.chunk.constant? index) = some v :=
    reads_frame.bind fun f m v m' hok => by
      obtain ⟨rfl, hv⟩ := reads_need m v m' hok
      exact ⟨rfl, fun hf => by rw [hf, Option.bind_some, hv]⟩
  refine hconstant.bind fun v m r m' hok => ?_
  cases v with
  | obj r' =>
    cases hok
    refine ⟨rfl, fun hv => ?_⟩
    unfold Machine.name?
    cases hframe : m.fiber.frames.head? with
    | none =>
      rw [hframe] at hv
      cases hv
    | some f =>
      rw [hframe, Option.bind_some] at hv
      rw [Option.bind_some, hv]
      rfl
  | _ => cases hok

/-- **`execute_agree`** — every instruction does the same to like machines, unless it measures the
heap. -/
theorem execute_agree (hm : m.Like β n) (i : Instruction)
    (hb : ∀ v, m.callee? i = some v → ¬ m.heap.Measures v) :
    Agree Done β (execute i m) (execute i n) := by
  have hoperand : ∀ {distance v}, distance < m.fiber.stack.size ∧
      m.fiber.stack[m.fiber.stack.size - 1 - distance]? = some v → m.operand? distance = some v := by
    rintro distance v ⟨hlt, hv⟩
    unfold Machine.operand?
    rw [if_pos hlt, hv]
  by_cases hcall : i.op = .call
  · unfold execute
    rw [hcall]
    refine (Steady.peek i.first).reading (reads_peek i.first) hm fun n' v w hm' hv hat => ?_
    refine callValue_agree hm' hv i.first (hb v ?_)
    unfold Machine.callee?
    rw [hcall]
    exact hoperand hat
  by_cases hinvoke : i.op = .invoke
  · unfold execute
    rw [hinvoke]
    refine (Steady.nameConstant i.second).reading (reads_nameConstant i.second) hm
      fun n' r s hm' hr hname => ?_
    refine invoke_agree hm' hr i.first fun target v hlt htarget hstand => hb v ?_
    unfold Machine.callee?
    rw [hinvoke]
    dsimp only
    rw [hname, Option.bind_some, hoperand ⟨hlt, htarget⟩, Option.bind_some, hstand]
  exact Alike.execute i hcall hinvoke m n hm

/-- Moving on changes nothing about what an instruction calls. -/
theorem callee?_past {f : Frame} {rest : List Frame} (hframes : m.fiber.frames = f :: rest)
    (i j : Instruction) : (m.past f rest i).callee? j = m.callee? j := by
  have hname : (m.past f rest i).name? j.second = m.name? j.second := by
    unfold Machine.name? Machine.past
    rw [hframes]
    rfl
  unfold Machine.callee?
  rw [hname]
  rfl

/-- **`step_agree`** — like machines execute the same instruction and are alike afterwards, with the
same fault if there is one, unless the instruction measures the heap. -/
theorem step_agree (hm : m.Like β n) (hb : ∀ b, m.calls? = some b → b.measuresHeap = false) :
    Agree Done β (step m) (step n) := by
  refine Steady.frame.reading reads_frame hm fun n f g hm hf hfirst => ?_
  refine Steady.heap.reading reads_heap hm fun n h h' hm hh heq => ?_
  subst heq
  rw [← hf.chunk.instruction?_eq hh, ← hf.ip, ← hf.chunk.code]
  cases hi : f.chunk.instruction? m.heap f.ip with
  | none =>
    exact ((Steady.modifyIp _).bind fun _ _ _ => .throw _ : Alike β Done _ _) m n hm
  | some i =>
    change Agree Done β ((modifyIp (· + i.width) >>= fun _ => execute i) (m.elapse stepTime))
      ((modifyIp (· + i.width) >>= fun _ => execute i) (n.elapse stepTime))
    refine Agree.bind (Steady.modifyIp (· + i.width) _ _ (hm.elapse stepTime))
      fun β' _ _ m₁ n₁ _ _ hm₁ hpast => execute_agree hm₁ i fun v hv hmeasures => ?_
    obtain ⟨rest, hframes⟩ := List.head?_eq_some_iff.mp hfirst
    rw [modifyIp_eq (m := m.elapse stepTime) hframes] at hpast
    obtain rfl : m.past f rest i = m₁ := by
      cases hpast
      rfl
    rw [callee?_past hframes] at hv
    obtain ⟨b, hbuiltin, hmeasure⟩ := hmeasures
    have hcalls : m.calls? = some b := by
      unfold Machine.calls? Machine.next?
      rw [hfirst, Option.bind_some, hi, Option.bind_some, hv]
      exact hbuiltin
    rw [hb b hcalls] at hmeasure
    cases hmeasure

end Exec

end ScriptMachine
