import Mathlib
import ScriptMachine.Proofs.Renaming.Starting

/-!
# ScriptMachine.Proofs.Renaming.Seeing — what is seen of an instruction

Like machines not only execute the same instruction: it stands at the same place, belongs to the same
task, calls the same builtin, and the trace of it, which shows the values on the stack, is the same
text.

`Like.executed_eq` says so. Part of what is seen is whether the instruction calls a builtin that measures
the heap, so that a run which asks for it can be told from its report alone.
-/

namespace ScriptMachine

variable {β : Pairing} {m n : Machine} {h h' : Heap} {v w : Value} {r s : Ref}

/-! ## Listings -/

namespace Chunk.Like

variable {c d : Chunk} (hc : c.Like β d) (hh : h.Like β h')
include hc

theorem lineAt_eq (offset : Nat) : c.lineAt offset = d.lineAt offset := by
  unfold Chunk.lineAt
  rw [hc.lines]

theorem margin_eq (offset : Nat) : c.margin offset = d.margin offset := by
  unfold Chunk.margin
  rw [hc.lineAt_eq, hc.lineAt_eq]

include hh

theorem shownConstant_eq (quoted : Bool) (index : Nat) :
    (c.constant? index).map (h.showValue quoted) = (d.constant? index).map (h'.showValue quoted) :=
  (hc.constants.getElem? index).eq_of_forall fun _ _ hv => hh.showAt_eq _ _ hv

theorem constantText_eq (index : Nat) : c.constantText h index = d.constantText h' index := by
  unfold Chunk.constantText
  rw [hc.shownConstant_eq hh]

theorem instructionText_eq (offset : Nat) (i : Instruction) :
    c.instructionText h offset i = d.instructionText h' offset i := by
  unfold Chunk.instructionText
  simp only [hc.constantText_eq hh, hc.shownConstant_eq hh]

theorem listInstruction_eq (offset : Nat) :
    c.listInstruction h offset = d.listInstruction h' offset := by
  unfold Chunk.listInstruction
  rw [hc.instruction?_eq hh, hc.margin_eq]
  split
  · rw [hc.instructionText_eq hh]
  · rfl

end Chunk.Like

/-! ## Callees -/

theorem Heap.Like.builtin?_eq (hl : h.Like β h') (hv : v.Like β w) : h.builtin? v = h'.builtin? w := by
  cases hv with
  | @obj r s hr =>
    obtain ⟨o, o', ho, ho', hlike⟩ := hl.objects r s hr
    unfold Heap.builtin?
    dsimp only
    rw [ho, ho']
    cases hlike <;> rfl
  | _ => rfl

namespace Machine

variable (hm : m.Like β n)
include hm

theorem Like.operand? (distance : Nat) :
    Option.Rel (Value.Like β) (m.operand? distance) (n.operand? distance) := by
  unfold Machine.operand?
  rw [hm.fiber.stack.size_eq]
  split
  · exact hm.fiber.stack.getElem? _
  · exact .none

theorem Like.first? : Option.Rel (Frame.Like β) m.fiber.frames.head? n.fiber.frames.head? := by
  have hframes := hm.fiber.frames
  generalize m.fiber.frames = fs, n.fiber.frames = gs at hframes
  cases hframes with
  | nil => exact .none
  | cons hf _ => exact .some hf

theorem Like.name? (index : Nat) : Option.Rel β.rel (m.name? index) (n.name? index) :=
  hm.first?.bind fun _ _ hf => (hf.chunk.constants.getElem? index).bind fun _ _ hv => hv.ref?

/-- What a call finds in place of the callee: by the kind of the receiver. -/
theorem Like.standIn? (hv : v.Like β w) (hr : β.rel r s) :
    Option.Rel (Value.Like β) (m.standIn? v r) (n.standIn? w s) := by
  have hkey := hm.heap.key? hr
  cases hv with
  | @obj t u ht =>
    obtain ⟨o, o', ho, ho', hlike⟩ := hm.heap.objects t u ht
    unfold Machine.standIn?
    generalize m.heap.key? r = a, n.heap.key? s = b at hkey
    cases hkey with
    | none => exact .none
    | some hk =>
      dsimp only
      rw [ho, ho']
      cases hlike with
      | classObj =>
        dsimp only
        rw [(hm.heap.method? ht hk).isSome_eq, hm.heap.ancestryEnds_eq ht]
        split
        · exact .none
        · exact hm.heap.static? ht hk
      | package hp => exact hp.symbols.get? hk
      | instanceObj hi =>
        dsimp only
        rw [hm.heap.typeName_eq (.obj ht), (Exec.extension?_like hm _ hk).isSome_eq,
          (hm.heap.method? hi.classRef hk).isSome_eq, hm.heap.ancestryEnds_eq hi.classRef]
        split
        · exact .none
        · exact hi.fields.get? hk
      | _ => exact .none
  | _ =>
    unfold Machine.standIn?
    exact .none

/-- What an instruction is going to call is read off the stack. -/
theorem Like.callee? (i : Instruction) :
    Option.Rel (Value.Like β) (m.callee? i) (n.callee? i) := by
  unfold Machine.callee?
  split
  · exact hm.operand? _
  · exact (hm.name? _).bind fun _ _ hr => (hm.operand? _).bind fun _ _ hv => hm.standIn? hv hr
  · exact .none

theorem Like.calls?_eq : m.calls? = n.calls? := by
  unfold Machine.calls?
  rw [hm.next?_eq]
  cases n.next? with
  | none => rfl
  | some i =>
    have hcallee := hm.callee? i
    rw [Option.bind_some, Option.bind_some]
    generalize m.callee? i = a, n.callee? i = b at hcallee
    cases hcallee with
    | none => rfl
    | some hv => exact hm.heap.builtin?_eq hv

/-- A trace lists the stack and the instruction, both without references. -/
theorem Like.traceText_eq : m.traceText = n.traceText := by
  have hframes := hm.fiber.frames
  unfold Machine.traceText
  generalize m.fiber.frames = fs, n.fiber.frames = gs at hframes
  cases hframes with
  | nil => rfl
  | cons hf _ =>
    dsimp only
    rw [hf.base, hf.ip, hf.chunk.listInstruction_eq hm.heap, hm.fiber.stack.size_eq,
      forall₂_map_eq (hm.fiber.stack.extract _ _) fun _ _ hv => by
        rw [show m.heap.showValue true _ = n.heap.showValue true _ from hm.heap.showAt_eq _ _ hv]]

end Machine

/-- **`Executed`** — an instruction that is executed: the task and the place in the code, what the
instruction is, the builtin it calls, and what the trace shows of it and of the stack. -/
structure Executed where
  task : Nat
  offset : Option Nat
  instruction : Option Instruction
  calls : Option Builtin
  trace : String
deriving Repr, DecidableEq

namespace Machine

/-- The instruction that the machine is about to execute, as it is seen. -/
def executed (m : Machine) : Executed :=
  ⟨m.fiber.id, m.fiber.frames.head?.map Frame.ip, m.next?, m.calls?, m.traceText⟩

/-- **`Like.executed_eq`** — the same is seen of the next instruction of like machines. -/
theorem Like.executed_eq (hm : m.Like β n) : m.executed = n.executed := by
  unfold Machine.executed
  rw [hm.fiber.id, hm.first?.eq_of_forall fun _ _ hf => hf.ip, hm.next?_eq, hm.calls?_eq,
    hm.traceText_eq]

end Machine

end ScriptMachine
