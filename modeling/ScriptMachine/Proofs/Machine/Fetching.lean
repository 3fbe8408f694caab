import Mathlib
import ScriptMachine.Proofs.Code.WellFormed
import ScriptMachine.Proofs.Machine.Control

/-!
# ScriptMachine.Proofs.Machine.Fetching — reading an instruction byte by byte

A listing knows the layout of an instruction from the shape of its operation. A machine need not know
it: it can read a byte or two at a time, move past what it has read, and let the operation say what to
read next. `fetch` reads an instruction in this way, with a table of its own of what every operation
reads, and the captured variables of a closure one after the other. It comes to the instruction that
`decode?` sees from outside, and to the offset that the width of this instruction gives. A step is to
fetch an instruction and to execute it.

`reads_fetch` is the comparison, and `step_eq_fetch` is why it matters: the machine decodes
from outside, and it takes the same step as if it read byte by byte. `reads_scan` goes through the
code of a function from its start and finds the instructions of the listing. The table of `readOperands`
was written from what executing each operation asks for, and not from `Operation.shape`.
-/

namespace ScriptMachine

variable {α β : Type} {c : Chunk} {h h' : Heap} {o o' o'' : Nat} {m : Machine} {i : Instruction}

/-- Code does not split past its end. -/
theorem Chunk.Splits.le_size {l : List (Nat × Instruction)} (hl : c.Splits h o l) : o ≤ c.size := by
  induction l generalizing o with
  | nil => exact Nat.le_of_eq hl
  | cons q l ih => exact Nat.le_trans (Nat.le_add_right ..) (ih hl.2.2)

/-- There are at most as many instructions as bytes. -/
theorem Chunk.Splits.length_le {l : List (Nat × Instruction)} (hl : c.Splits h o l) :
    o + l.length ≤ c.size := by
  induction l generalizing o with
  | nil => exact Nat.le_of_eq hl
  | cons q l ih =>
    have hrest := ih hl.2.2
    have hpos := q.2.width_pos
    rw [List.length_cons]
    omega

namespace Machine

/-- **`m.StandsAt c h o`** — the running activation of `m` goes on at the offset `o` of the code `c`, in
the heap `h`. -/
def StandsAt (m : Machine) (c : Chunk) (h : Heap) (o : Nat) : Prop :=
  m.heap = h ∧ ∃ f rest, m.fiber.frames = f :: rest ∧ f.chunk = c ∧ f.ip = o

/-- The machine with its running activation at another offset. -/
def movedTo (m : Machine) (o : Nat) : Machine :=
  { m with fiber := { m.fiber with frames :=
      match m.fiber.frames with
      | f :: rest => { f with ip := o } :: rest
      | [] => [] } }

/-- Only the offset of the innermost frame changes. -/
theorem movedTo_eq {f : Frame} {rest : List Frame} (hf : m.fiber.frames = f :: rest) (o : Nat) :
    m.movedTo o = { m with fiber := { m.fiber with frames := { f with ip := o } :: rest } } := by
  unfold movedTo
  rw [hf]

theorem StandsAt.movedTo (hm : m.StandsAt c h o) (o' : Nat) : (m.movedTo o').StandsAt c h o' := by
  obtain ⟨hheap, f, rest, hf, hc, -⟩ := hm
  rw [movedTo_eq hf]
  exact ⟨hheap, _, rest, rfl, hc, rfl⟩

theorem StandsAt.elapse (hm : m.StandsAt c h o) (nanoseconds : Nat) :
    (m.elapse nanoseconds).StandsAt c h o := hm

theorem movedTo_movedTo (m : Machine) (o o' : Nat) : (m.movedTo o).movedTo o' = m.movedTo o' := by
  obtain ⟨heap, globals, extensions, ⟨id, handle, stack, frames, _⟩, _⟩ := m
  cases frames <;> rfl

/-- The frame stands at the offset it is moved to. -/
theorem StandsAt.movedTo_self (hm : m.StandsAt c h o) : m.movedTo o = m := by
  obtain ⟨heap, globals, extensions, ⟨id, handle, stack, frames, _⟩, _⟩ := m
  obtain ⟨-, f, rest, rfl, -, rfl⟩ := hm
  rfl

end Machine

namespace Exec

/-! ## Reading -/

/-- The next byte of the code. -/
def readByte : Exec UInt8 := do
  let f ← frame
  let b ← need f.chunk.code[f.ip]?
  modifyIp (· + 1)
  return b

/-- The next two bytes of the code, as one number. -/
def readWord : Exec Nat := do
  let high ← readByte
  let low ← readByte
  return high.toNat * 256 + low.toNat

/-- The captured variables of a closure, one after the other. -/
def readCaptures : Nat → Exec (List Capture)
  | 0 => return []
  | count + 1 => do
    let isLocal := (← readByte) == 1
    let index ← readWord
    return ⟨isLocal, index⟩ :: (← readCaptures count)

/-- The operands of an operation, in the order in which executing it asks for them. -/
def readOperands (op : Operation) : Exec Instruction := do
  match op with
  -- one constant
  | .constant | .getGlobal | .defineGlobal | .defineGlobalForced | .setGlobal | .getProperty
  | .getPropertyNoPop | .setProperty | .getSuper | .classDef | .method | .enumDef =>
    return .make op (← readWord) 0
  -- a slot, a captured variable, a number of pieces, a distance
  | .getLocal | .setLocal | .getUpvalue | .setUpvalue | .concat | .jump | .jumpIfFalse | .loop
  | .tryBegin | .tryEnd =>
    return .make op (← readWord) 0
  -- a flag or a number of arguments
  | .range | .add | .subtract | .multiply | .divide | .modulo | .power | .call =>
    return .make op (← readByte).toNat 0
  | .isType | .invoke | .superInvoke =>
    let first := (← readByte).toNat
    return .make op first (← readWord)
  | .member =>
    let first ← readWord
    return .make op first (← readByte).toNat
  | .extend =>
    let first ← readWord
    return .make op first (← readWord)
  -- a function, and what its closure captures
  | .closure =>
    let index ← readWord
    let count := (← frame).chunk.captureCount (← heap) index
    return ⟨op, index, 0, ← readCaptures count⟩
  | .pushNull | .pushTrue | .pushFalse | .pop | .replPop | .equal | .greater | .less | .inc | .dec
  | .shiftLeft | .shiftRight | .bitwiseAnd | .bitwiseOr | .contains | .not | .negate | .dup
  | .importFile | .requireFile | .newList | .addList | .newDict | .addDict | .subscript
  | .subscriptAssign | .closeUpvalue | .ret | .inherit | .spawn | .awaitTask | .abortTask | .nop =>
    return .make op 0 0

/-- **`fetch`** — reads the next instruction and moves past it. -/
def fetch : Exec Instruction := do
  let b ← readByte
  match Operation.ofCode? b with
  | some op => readOperands op
  | none => throw (.unknownOperation b.toNat)

/-- **`scan`** — fetches the instructions that follow, at most so many, up to the end of the code; each
comes with its offset. Nothing is executed. -/
def scan : Nat → Exec (List (Nat × Instruction))
  | 0 => return []
  | fuel + 1 => do
    let f ← frame
    if f.ip < f.chunk.size then
      let i ← fetch
      return (f.ip, i) :: (← scan fuel)
    else return []

/-! ## What is read where -/

/-- **`x.ReadsAt c h o a o'`** — at the offset `o` of the code, `x` yields `a`, moves to the offset `o'`
and does nothing else. -/
def ReadsAt (x : Exec α) (c : Chunk) (h : Heap) (o : Nat) (a : α) (o' : Nat) : Prop :=
  ∀ m : Machine, m.StandsAt c h o → x m = .ok a (m.movedTo o')

namespace ReadsAt

theorem pure (a : α) : (Pure.pure a : Exec α).ReadsAt c h o a o := fun m hm => by
  rw [hm.movedTo_self]
  rfl

/-- A second reading goes on where the first one ended. -/
theorem bind {x : Exec α} {f : α → Exec β} {a : α} {b : β} (hx : x.ReadsAt c h o a o')
    (hf : (f a).ReadsAt c h o' b o'') : (x >>= f).ReadsAt c h o b o'' := fun m hm => by
  rw [bind_ok (hx m hm), hf _ (hm.movedTo o'), m.movedTo_movedTo]

end ReadsAt

/-- One byte is read, and the frame moves past it. -/
theorem reads_readByte (ho : o < c.size) :
    readByte.ReadsAt c h o (c.code.getD o 255) (o + 1) := fun m hm => by
  obtain ⟨-, f, rest, hf, rfl, rfl⟩ := hm
  have hget : f.chunk.code[f.ip]? = some (f.chunk.code.getD f.ip 255) := by
    rw [Array.getD_eq_getD_getElem?, Array.getElem?_eq_getElem ho]
    rfl
  unfold readByte
  rw [bind_ok (frame_eq hf), hget, Machine.movedTo_eq hf]
  show (modifyIp (· + 1) >>= fun _ => pure _) m = _
  exact bind_ok (modifyIp_eq hf _)

/-- What stands past the end does not matter before it. -/
theorem toNat_getD (ho : o < c.size) : (c.code.getD o 255).toNat = Instruction.byteAt c.code o := by
  simp only [Instruction.byteAt, Array.getD_eq_getD_getElem?, Array.getElem?_eq_getElem ho]
  rfl

/-- Two bytes are read, the high one first. -/
theorem reads_readWord (ho : o + 2 ≤ c.size) :
    readWord.ReadsAt c h o (Instruction.wordAt c.code o) (o + 2) := by
  have hhigh : o < c.size := by omega
  have hlow : o + 1 < c.size := by omega
  refine .bind (reads_readByte hhigh) (.bind (reads_readByte hlow) ?_)
  rw [toNat_getD hhigh, toNat_getD hlow]
  exact .pure _

/-- The descriptors of a closure follow each other, three bytes each. -/
theorem capturesAt_succ (code : Array UInt8) (o count : Nat) :
    Instruction.capturesAt code o (count + 1) =
      ⟨Instruction.byteAt code o == 1, Instruction.wordAt code (o + 1)⟩ ::
        Instruction.capturesAt code (o + 3) count := by
  unfold Instruction.capturesAt
  rw [List.range_succ_eq_map, List.map_cons, List.map_map]
  refine congrArg₂ _ rfl (List.map_congr_left fun k _ => ?_)
  simp only [Function.comp_apply, show o + 3 * k.succ = o + 3 + 3 * k from by omega]

/-- Captured variables are read three bytes each. -/
theorem reads_readCaptures {count : Nat} (ho : o + 3 * count ≤ c.size) :
    (readCaptures count).ReadsAt c h o (Instruction.capturesAt c.code o count) (o + 3 * count) := by
  induction count generalizing o with
  | zero => exact .pure _
  | succ count ih =>
    have hflag : o < c.size := by omega
    have hlocal : (c.code.getD o 255 == 1) = (Instruction.byteAt c.code o == 1) := by
      rw [← toNat_getD hflag, Bool.eq_iff_iff, beq_iff_eq, beq_iff_eq, ← UInt8.toNat_inj]
      rfl
    rw [capturesAt_succ, ← hlocal]
    refine .bind (reads_readByte hflag) (.bind (reads_readWord (o := o + 1) (by omega)) ?_)
    rw [show o + 3 * (count + 1) = o + 3 + 3 * count from by omega]
    exact .bind (ih (by omega)) (.pure _)

/-! ## Fetching an instruction -/

/-- What an operation reads is laid out as its shape says. -/
theorem readOperands_eq (op : Operation) : readOperands op =
    match op.shape with
    | .plain => return .make op 0 0
    | .byte => return .make op (← readByte).toNat 0
    | .word => return .make op (← readWord) 0
    | .byteWord => do
      let first := (← readByte).toNat
      return .make op first (← readWord)
    | .wordByte => do
      let first ← readWord
      return .make op first (← readByte).toNat
    | .twoWords => do
      let first ← readWord
      return .make op first (← readWord)
    | .captures => do
      let index ← readWord
      let count := (← frame).chunk.captureCount (← heap) index
      return ⟨op, index, 0, ← readCaptures count⟩ := by
  cases op <;> rfl

/-- How many variables a function captures is looked up in the heap. -/
theorem ReadsAt.captureCount {f : Nat → Exec α} {a : α} {index : Nat}
    (hf : (f (c.captureCount h index)).ReadsAt c h o a o') :
    (do f ((← frame).chunk.captureCount (← heap) index)).ReadsAt c h o a o' := fun m hm => by
  have hread := hf m hm
  obtain ⟨rfl, g, rest, hg, rfl, rfl⟩ := hm
  rw [bind_ok (frame_eq hg), bind_ok (heap_eq m), hread]

theorem width_make (op : Operation) (first second : Nat) :
    (Instruction.make op first second).width = Instruction.shapeWidth op.shape := rfl

/-- **`reads_fetch`** — a machine that reads byte by byte fetches the instruction that stands at its
offset, and has moved past as many bytes as the instruction is wide. -/
theorem reads_fetch (hi : c.instruction? h o = some i) (ho : o + i.width ≤ c.size) :
    fetch.ReadsAt c h o i (o + i.width) := by
  have hpos := i.width_pos
  refine .bind (reads_readByte (by omega)) ?_
  unfold Chunk.instruction? Instruction.decode? at hi
  cases hop : Operation.ofCode? (c.code.getD o 255) with
  | none =>
    rw [hop] at hi
    cases hi
  | some op =>
    rw [hop] at hi
    obtain rfl := Option.some.inj hi
    dsimp only
    rw [readOperands_eq]
    -- one case for each layout of operands
    cases hs : op.shape <;> simp only [hs, width_make, Instruction.shapeWidth] at ho ⊢
    case plain => exact .pure _
    case byte =>
      rw [← toNat_getD (by omega)]
      exact .bind (reads_readByte (by omega)) (.pure _)
    case word => exact .bind (reads_readWord (by omega)) (.pure _)
    case byteWord =>
      rw [← toNat_getD (by omega)]
      exact .bind (reads_readByte (by omega)) (.bind (reads_readWord (by omega)) (.pure _))
    case wordByte =>
      rw [← toNat_getD (by omega)]
      exact .bind (reads_readWord (by omega)) (.bind (reads_readByte (by omega)) (.pure _))
    case twoWords =>
      exact .bind (reads_readWord (by omega)) (.bind (reads_readWord (by omega)) (.pure _))
    case captures =>
      -- the width depends on how many variables are captured, which is looked up while reading
      have hlength : ∀ count, (Instruction.capturesAt c.code (o + 3) count).length = count := by
        simp [Instruction.capturesAt]
      simp only [Instruction.width, hs, hlength, Instruction.shapeWidth] at ho ⊢
      rw [← Nat.add_assoc]
      refine .bind (reads_readWord (by omega)) ?_
      let rest (count : Nat) : Exec Instruction := do
        return ⟨op, Instruction.wordAt c.code (o + 1), 0, ← readCaptures count⟩
      refine ReadsAt.captureCount (f := rest) ?_
      exact .bind (reads_readCaptures (by omega)) (.pure _)

/-- A step executes the instruction from the offset behind it. -/
theorem step_eq_execute (hi : c.instruction? h o = some i) (hm : m.StandsAt c h o) :
    step m = execute i ((m.elapse stepTime).movedTo (o + i.width)) := by
  obtain ⟨rfl, f, rest, hf, rfl, rfl⟩ := hm
  rw [step_of_instruction? hf hi, Machine.movedTo_eq (m := m.elapse stepTime) hf]
  rfl

/-- **`step_eq_fetch`** — a step fetches the next instruction and executes it. -/
theorem step_eq_fetch (hi : c.instruction? h o = some i) (ho : o + i.width ≤ c.size)
    (hm : m.StandsAt c h o) :
    step m = (do
      modify fun m : Machine => m.elapse stepTime
      execute (← fetch)) m := by
  rw [step_eq_execute hi hm, modify_bind, bind_ok (reads_fetch hi ho _ (hm.elapse _))]

/-! ## Up to the end -/

/-- **`reads_scan`** — where the code splits into instructions, a machine fetches them one after the
other and ends up exactly where the code does. -/
theorem reads_scan {l : List (Nat × Instruction)} {fuel : Nat} (hl : c.Splits h o l)
    (hfuel : l.length ≤ fuel) : (scan fuel).ReadsAt c h o l c.size := by
  induction l generalizing o fuel with
  | nil =>
    obtain rfl : o = c.size := hl
    cases fuel with
    | zero => exact .pure _
    | succ fuel =>
      intro m hm
      have hself := hm.movedTo_self
      obtain ⟨-, f, rest, hf, rfl, hip⟩ := hm
      unfold scan
      rw [bind_ok (frame_eq hf), if_neg (by omega), hself]
      rfl
  | cons q l ih =>
    obtain ⟨rfl, hi, hrest⟩ := hl
    have hend := hrest.le_size
    cases fuel with
    | zero => simp at hfuel
    | succ fuel =>
      have hscan := ih hrest (Nat.le_of_succ_le_succ hfuel)
      let listed (i : Instruction) : Exec (List (Nat × Instruction)) := do
        return (q.1, i) :: (← scan fuel)
      have hread : (fetch >>= listed).ReadsAt c h q.1 (q :: l) c.size :=
        .bind (reads_fetch hi hend) (.bind hscan (.pure _))
      have hpos := q.2.width_pos
      intro m hm
      have hrun := hread m hm
      obtain ⟨-, f, rest, hf, rfl, hip⟩ := hm
      unfold scan
      rw [bind_ok (frame_eq hf), if_pos (by omega), hip]
      exact hrun

end Exec

end ScriptMachine
