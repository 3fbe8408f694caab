import ScriptMachine.Listing
import ScriptMachine.Proofs.Code.Discipline

/-!
# ScriptMachine.Proofs.Code.WellFormed — what a machine can decode

Code is read an instruction at a time, with the decoder that `step` uses. `Chunk.Splits` says that
reading from an offset on yields certain instructions and ends exactly where the code ends;
`Prototype.WellFormed` says that these are the instructions that were meant, and what their operands
refer to.

Whatever is decoded fits its bytes, so that alone says nothing about a number that was too large for
them. The chunk notes each instruction before it becomes bytes, with the index, the distance or the
count that was meant, however large. Well-formed code is decoded to exactly these: had an operand been
cut to its width, another number would be read.

`Prototype.Balanced` is about the stack. It speaks of `Instruction.effect` alone, which is a table. That
the machine treats the stack as the table says is proved with the machine: `Amid.execute` does so for the
plain instructions, `Stepping.settles` and `Stepping.enters` carry it over to the height of the next
instruction, and `Machine.Reachable.balances` puts it together: every activation that ever runs or waits
has the height that its code says.
-/

namespace ScriptMachine

/-- **`c.Splits h o l`** — decoded from `o` on, the code is exactly the instructions of `l`, each
with its offset. -/
def Chunk.Splits (c : Chunk) (h : Heap) : Nat → List (Nat × Instruction) → Prop
  | o, [] => o = c.code.size
  | o, q :: rest => q.1 = o ∧ c.instruction? h o = some q.2 ∧ c.Splits h (o + q.2.width) rest

/-- Where an instruction at `o` can jump to. -/
def Instruction.target? (i : Instruction) (o : Nat) : Option Nat :=
  match i.op with
  | .jump | .jumpIfFalse | .tryBegin | .tryEnd => some (o + 3 + i.first)
  | .loop => some (o + 3 - i.first)
  | _ => none

/-- **`p.WellFormed h closures code`** — the code of a function is that of the instructions `code`,
and whatever they name is there. The landmarks `closures` tell how many locals are declared where
closures are made. -/
structure Prototype.WellFormed (p : Prototype) (h : Heap) (closures : List Landmark)
    (code : List (Nat × Instruction)) : Prop where
  /-- the code splits exactly into the instructions that were meant, none of which lost a part of an
  operand -/
  meant : p.chunk.meant.toList = code
  splits : p.chunk.Splits h 0 code
  bytes : p.chunk.code.toList = code.flatMap fun q => q.2.encode
  inRange : ∀ q ∈ code, q.2.InRange
  last : ∃ q ∈ code.getLast?, q.2.op = .ret
  /-- jumps go to instructions -/
  target : ∀ q ∈ code, ∀ t ∈ q.2.target? q.1, ∃ i, (t, i) ∈ code
  back : ∀ q ∈ code, q.2.op = .loop → q.2.first ≤ q.1 + 3
  /-- constants are there, and of the kind that is needed -/
  constants : p.chunk.constants.size ≤ Chunk.maxConstants
  constant : ∀ q ∈ code, q.2.op = .constant → q.2.first < p.chunk.constants.size
  name : ∀ q ∈ code, ∀ k ∈ q.2.names, ∃ r s, p.chunk.constant? k = some (.obj r) ∧ h.text? r = some s
  closure : ∀ q ∈ code, q.2.op = .closure → ∃ r p', p.chunk.constant? q.2.first = some (.obj r) ∧
    h.prototype? r = some p' ∧ q.2.captures.length = p'.captureCount
  /-- captured variables are there -/
  captured : ∀ q ∈ code, ∀ c ∈ q.2.captures,
    if c.isLocal then ∃ l ∈ closures, l.offset = q.1 ∧ c.index < l.locals
    else c.index < p.captureCount
  upvalue : ∀ q ∈ code, q.2.op.usesCapture = true → q.2.first < p.captureCount

/-- **`i.flow o n`** — where control can go from an instruction at `o` with `n` values on the stack of
the activation, and how many there are then. A handler finds the message on top; a call is counted
with the value that the called activation leaves. -/
def Instruction.flow (i : Instruction) (o n : Nat) : List (Nat × Nat) :=
  match i.op with
  | .jump | .tryEnd => [(o + 3 + i.first, n)]
  | .jumpIfFalse => [(o + 3, n), (o + 3 + i.first, n)]
  | .loop => [(o + 3 - i.first, n)]
  | .tryBegin => [(o + 3, n), (o + 3 + i.first, n + 1)]
  | .ret => []
  | _ => [(o + i.width, n - i.effect.takes + i.effect.leaves)]

/-- **`p.Balanced h statements height`** — `height` gives the number of values that the stack of an
activation holds before an instruction. Every way through the code agrees with it, nothing below
slot one is taken or looked at, and local variables are in slots that are there; a closure may
capture the slot that it is about to fill. The landmarks `statements` tell how many locals are
declared where statements start. -/
structure Prototype.Balanced (p : Prototype) (h : Heap) (statements : List Landmark)
    (height : Nat → Option Nat) : Prop where
  entry : height 0 = some (1 + p.arity)
  decodes : ∀ o n, height o = some n → ∃ i, p.chunk.instruction? h o = some i
  flow : ∀ o n i, height o = some n → p.chunk.instruction? h o = some i →
    ∀ e ∈ i.flow o n, height e.1 = some e.2
  reads : ∀ o n i, height o = some n → p.chunk.instruction? h o = some i → i.effect.reads < n
  slot : ∀ o n i, height o = some n → p.chunk.instruction? h o = some i →
    i.op.usesSlot = true → i.first < n
  captured : ∀ o n i, height o = some n → p.chunk.instruction? h o = some i →
    ∀ c ∈ i.captures, c.isLocal = true → c.index ≤ n
  statement : ∀ l ∈ statements, height l.offset = some l.locals

/-- **`p.Arrives h o n`** — control can come to the offset `o` from the start of the function, along the
ways from one instruction to the next, and there are `n` values then. -/
inductive Prototype.Arrives (p : Prototype) (h : Heap) : (offset height : Nat) → Prop
  | entry : Arrives p h 0 (1 + p.arity)
  | along {o n : Nat} {i : Instruction} {e : Nat × Nat} (ho : Arrives p h o n)
      (hi : p.chunk.instruction? h o = some i) (he : e ∈ i.flow o n) : Arrives p h e.1 e.2

/-- **`Balanced.arrives`** — along whichever way control comes, there are as many values as the height
says. -/
theorem Prototype.Balanced.arrives {p : Prototype} {h : Heap} {statements : List Landmark}
    {height : Nat → Option Nat} (hb : p.Balanced h statements height) {o n : Nat}
    (ha : p.Arrives h o n) : height o = some n := by
  induction ha with
  | entry => exact hb.entry
  | along _ hi he ih => exact hb.flow _ _ _ ih hi _ he

/-- The functions that a function refers to by its constants, and so on. -/
inductive ConstantGraph (h : Heap) (r : Ref) : Ref → Prop
  | root : ConstantGraph h r r
  | constant {f g : Ref} {p q : Prototype} (hf : ConstantGraph h r f)
      (hp : h.prototype? f = some p) (hg : Value.obj g ∈ p.chunk.constants)
      (hq : h.prototype? g = some q) : ConstantGraph h r g

/-- The height that a listing tells for an offset. -/
def heightIn (listing : List Placed) (o : Nat) : Option Nat :=
  (listing.find? fun q => q.offset = o).map (·.situation.height)

/-- The height at an offset is that of the one instruction that starts there. -/
theorem heightIn_eq_some {listing : List Placed} {o n k : Nat} (hl : Contiguous k listing) :
    heightIn listing o = some n ↔ ∃ q ∈ listing, q.offset = o ∧ q.situation.height = n := by
  unfold heightIn
  constructor
  · intro h
    obtain ⟨q, hq, rfl⟩ := Option.map_eq_some_iff.mp h
    exact ⟨q, List.mem_of_find?_eq_some hq, by simpa using List.find?_some hq, rfl⟩
  · rintro ⟨q, hq, rfl, rfl⟩
    cases hfind : listing.find? fun r => r.offset = q.offset with
    | none =>
      have := List.find?_eq_none.mp hfind q hq
      simp at this
    | some r =>
      have hoffset : r.offset = q.offset := by simpa using List.find?_some hfind
      obtain rfl := hl.offset_inj (List.mem_of_find?_eq_some hfind) hq hoffset
      rfl

/-- By induction on the listing: where it has an instruction, that one is decoded. -/
theorem Chunk.Splits.instruction? {c : Chunk} {h : Heap} {l : List (Nat × Instruction)} :
    ∀ {o : Nat}, c.Splits h o l → ∀ q ∈ l, c.instruction? h q.1 = some q.2 := by
  induction l with
  | nil => simp
  | cons p l ih =>
    intro o hs q hq
    obtain ⟨ho, hp, hs⟩ := hs
    rcases List.mem_cons.mp hq with rfl | hq
    · rw [ho]
      exact hp
    · exact ih hs q hq

/-- The code of a listing is decoded to its instructions. -/
theorem splits_of_contiguous {c : Chunk} {h : Heap} {l : List Placed} :
    ∀ done : List Placed, c.code.toList = codeOf (done ++ l) → Contiguous (codeOf done).length l →
      (∀ q ∈ l, q.instr.op = .closure → c.captureCount h q.instr.first = q.instr.captures.length) →
      c.Splits h (codeOf done).length (instructionsOf l) := by
  induction l with
  | nil =>
    intro done hcode _ _
    show (codeOf done).length = c.code.size
    rw [← Array.length_toList, hcode, List.append_nil]
  | cons q l ih =>
    intro done hcode hcontiguous hcount
    obtain ⟨hoffset, hrange, hrest⟩ := hcontiguous
    refine ⟨hoffset, ?_, ?_⟩
    · refine Instruction.decode?_encode (r := codeOf l) hrange (hcount q List.mem_cons_self) ?_
      rw [hcode, codeOf_append, codeOf_cons, List.append_assoc]
    · have hlength : (codeOf done).length + q.instr.width = (codeOf (done ++ [q])).length := by
        simp [codeOf, Instruction.length_encode hrange]
      show c.Splits h ((codeOf done).length + q.instr.width) (instructionsOf l)
      rw [hlength]
      refine ih (done ++ [q]) ?_ ?_ fun r hr => hcount r (List.mem_cons_of_mem _ hr)
      · rw [hcode, List.append_assoc]
        rfl
      · rw [← hlength]
        exact hrest

/-! ## Disciplined code -/

section Disciplined

variable {pool : Pool} {arity : Nat} {code : Array UInt8} {statements closures : List Landmark}
  {listing : List Placed} {q : Placed}

/-- A jump ahead: its operand is its own, so the instruction that the operand belongs to is this
one. -/
theorem Disciplined.ahead (hd : Disciplined pool arity code statements closures listing)
    (hq : q ∈ listing) (hforward : q.instr.op.isForward = true) :
    ∃ q' ∈ listing, q'.offset = q.offset + 3 + q.instr.first ∧
      q'.situation.height = (q.situation.branch q.instr.op).height := by
  obtain ⟨b, hb, hoffset, -, q', hq', htarget, hflows⟩ := hd.exits q hq _ _ (.ahead hforward)
  obtain rfl : b = q := hd.contiguous.offset_inj hb hq (Nat.succ.inj hoffset)
  exact ⟨q', hq', by omega, hflows.height.symm⟩

/-- A jump back finds the height that it leaves. -/
theorem Disciplined.back (hd : Disciplined pool arity code statements closures listing)
    (hq : q ∈ listing) (hop : q.instr.op = .loop) :
    ∃ q' ∈ listing, q'.offset = q.offset + 3 - q.instr.first ∧
      q'.situation.height = q.situation.height := by
  obtain ⟨q', hq', hoffset, hflows⟩ := hd.exits q hq _ _ (.back hop)
  refine ⟨q', hq', hoffset, ?_⟩
  rw [← hflows.height, hop]
  rfl

/-- What follows finds what was there, without what was taken and with what was left. -/
theorem Disciplined.fall (hd : Disciplined pool arity code statements closures listing)
    (hq : q ∈ listing) (hfalls : q.instr.op.falls = true) :
    ∃ q' ∈ listing, q'.offset = q.offset + q.instr.width ∧
      q'.situation.height = q.situation.height - q.instr.effect.takes + q.instr.effect.leaves := by
  obtain ⟨q', hq', hoffset, hflows⟩ := hd.exits q hq _ _ (.fall hfalls)
  exact ⟨q', hq', hoffset, hflows.height.symm⟩

/-- A jump goes to an instruction. -/
theorem Disciplined.target (hd : Disciplined pool arity code statements closures listing)
    (hq : q ∈ listing) {t : Nat} (ht : t ∈ q.instr.target? q.offset) :
    ∃ q' ∈ listing, q'.offset = t := by
  unfold Instruction.target? at ht
  split at ht
  case h_5 hop =>
    obtain ⟨q', hq', hoffset, -⟩ := hd.back hq hop
    exact ⟨q', hq', hoffset.trans (Option.some.inj ht)⟩
  case h_6 => cases ht
  all_goals
    rename_i hop
    obtain ⟨q', hq', hoffset, -⟩ := hd.ahead hq (by rw [hop]; rfl)
    exact ⟨q', hq', hoffset.trans (Option.some.inj ht)⟩

/-- Control goes from an instruction to others, with the stack as high as they expect. -/
theorem Disciplined.flow (hd : Disciplined pool arity code statements closures listing)
    (hq : q ∈ listing) {e : Nat × Nat} (he : e ∈ q.instr.flow q.offset q.situation.height) :
    ∃ q' ∈ listing, q'.offset = e.1 ∧ q'.situation.height = e.2 := by
  -- the branch of a jump, and the way past an instruction that has one
  have hahead : ∀ n, q.instr.op.isForward = true → (q.situation.branch q.instr.op).height = n →
      e = (q.offset + 3 + q.instr.first, n) →
      ∃ q' ∈ listing, q'.offset = e.1 ∧ q'.situation.height = e.2 := by
    rintro n hforward rfl rfl
    exact hd.ahead hq hforward
  have hpast : q.instr.op.isForward = true → q.instr.op.falls = true →
      e = (q.offset + 3, q.situation.height) →
      ∃ q' ∈ listing, q'.offset = e.1 ∧ q'.situation.height = e.2 := by
    rintro hforward hfalls rfl
    obtain ⟨q', hq', hoffset, hheight⟩ := hd.fall hq hfalls
    have hcaptures := ((Instruction.inRange_forward_iff hforward).mp (hd.suits q hq).inRange).2.2
    rw [Instruction.width, hcaptures] at hoffset
    unfold Instruction.effect at hheight
    rcases Instruction.op_of_forward hforward with hop | hop | hop | hop <;>
      · rw [hop] at hoffset hheight
        exact ⟨q', hq', hoffset, hheight⟩
  unfold Instruction.flow at he
  split at he
  case h_1 hop => exact hahead _ (by rw [hop]; rfl) (by rw [hop]; rfl) (List.mem_singleton.mp he)
  case h_2 hop => exact hahead _ (by rw [hop]; rfl) (by rw [hop]; rfl) (List.mem_singleton.mp he)
  case h_3 hop =>
    rcases List.mem_cons.mp he with he | he
    · exact hpast (by rw [hop]; rfl) (by rw [hop]; rfl) he
    · exact hahead _ (by rw [hop]; rfl) (by rw [hop]; rfl) (List.mem_singleton.mp he)
  case h_4 hop =>
    obtain rfl := List.mem_singleton.mp he
    exact hd.back hq hop
  case h_5 hop =>
    rcases List.mem_cons.mp he with he | he
    · exact hpast (by rw [hop]; rfl) (by rw [hop]; rfl) he
    · exact hahead _ (by rw [hop]; rfl) (by rw [hop]; rfl) (List.mem_singleton.mp he)
  case h_6 => cases he
  case h_7 =>
    obtain rfl := List.mem_singleton.mp he
    refine hd.fall hq ?_
    unfold Operation.falls
    split <;> first | rfl | contradiction

/-- Disciplined code is decoded to the instructions of its listing. -/
theorem Disciplined.splits {c : Chunk} {h : Heap}
    (hd : Disciplined pool arity c.code statements closures listing)
    (hcount : ∀ k n, pool.isFunction k n → c.captureCount h k = n) :
    c.Splits h 0 (instructionsOf listing) :=
  splits_of_contiguous [] hd.code_eq hd.contiguous fun _ hq hop =>
    hcount _ _ ((hd.suits _ hq).function hop)

/-- **`Disciplined.balanced`** — the situations of disciplined code tell one height of the stack for
every instruction. -/
theorem Disciplined.balanced {p : Prototype} {h : Heap}
    (hd : Disciplined pool p.arity p.chunk.code statements closures listing)
    (hsplits : p.chunk.Splits h 0 (instructionsOf listing)) :
    p.Balanced h statements (heightIn listing) := by
  have hheight : ∀ {o n}, heightIn listing o = some n ↔
      ∃ q ∈ listing, q.offset = o ∧ q.situation.height = n := heightIn_eq_some hd.contiguous
  have hdecode : ∀ q ∈ listing, p.chunk.instruction? h q.offset = some q.instr :=
    fun q hq => hsplits.instruction? (q.offset, q.instr) (mem_instructionsOf.mpr ⟨q, hq, rfl, rfl⟩)
  -- the instruction at an offset with a height is one of the listing
  have hplaced : ∀ {o n i}, heightIn listing o = some n → p.chunk.instruction? h o = some i →
      ∃ q ∈ listing, q.offset = o ∧ q.situation.height = n ∧ q.instr = i := by
    intro o n i ho hi
    obtain ⟨q, hq, rfl, rfl⟩ := hheight.mp ho
    exact ⟨q, hq, rfl, rfl, Option.some.inj ((hdecode q hq).symm.trans hi)⟩
  constructor
  case entry =>
    obtain ⟨q, hq, hoffset, hflows⟩ := hd.entry
    exact hheight.mpr ⟨q, hq, hoffset, hflows.height.symm⟩
  case decodes =>
    intro o n ho
    obtain ⟨q, hq, rfl, rfl⟩ := hheight.mp ho
    exact ⟨q.instr, hdecode q hq⟩
  case flow =>
    intro o n i ho hi e he
    obtain ⟨q, hq, rfl, rfl, rfl⟩ := hplaced ho hi
    exact hheight.mpr (hd.flow hq he)
  case reads =>
    intro o n i ho hi
    obtain ⟨q, hq, rfl, rfl, rfl⟩ := hplaced ho hi
    exact (hd.suits q hq).reads
  case slot =>
    intro o n i ho hi hop
    obtain ⟨q, hq, rfl, rfl, rfl⟩ := hplaced ho hi
    exact (hd.suits q hq).slot hop
  case captured =>
    intro o n i ho hi c hc hlocal
    obtain ⟨q, hq, rfl, rfl, rfl⟩ := hplaced ho hi
    simpa [hlocal] using (hd.suits q hq).captured c hc
  case statement =>
    intro l hl
    exact hheight.mpr (hd.statements l hl)

end Disciplined

end ScriptMachine
