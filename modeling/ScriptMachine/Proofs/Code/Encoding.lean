import Mathlib
import ScriptMachine.Chunk

/-!
# ScriptMachine.Proofs.Code.Encoding — bytes and instructions

What `encode` writes, `decode?` reads back, wherever the bytes stand in a code: `decode?_encode`
asks only that the operands fit their widths and that the reader knows how many variables the
function of a closure captures. Beside it stand the two ways in which code changes, one more
instruction at the end and some bytes written over others, as equations between lists of bytes.

`InRange` is a condition on an instruction and is decidable; the compiler's side of it, that whatever it
emits is in range, is part of the discipline of code. An operand out of range is not read back: the
bytes keep its low part only. That no code has such an operand is said in `WellFormed`, by comparing
what is read with what was meant.

The list equations `toList_emit` and `toList_overwrite` are what later modules reason with. They never
look at how an array of bytes is written to.
-/

namespace ScriptMachine

namespace Operation

/-- Every operation is read back from its byte code. -/
theorem ofCode?_code (op : Operation) : ofCode? op.code = some op := by
  cases op <;> rfl

end Operation

namespace Instruction

/-- **`i.InRange`** — every operand fits its width, and an operand that the shape lacks is zero. -/
def InRange (i : Instruction) : Prop :=
  match i.op.shape with
  | .plain => i.first = 0 ∧ i.second = 0 ∧ i.captures = []
  | .byte => i.first < 256 ∧ i.second = 0 ∧ i.captures = []
  | .word => i.first < 65536 ∧ i.second = 0 ∧ i.captures = []
  | .byteWord => i.first < 256 ∧ i.second < 65536 ∧ i.captures = []
  | .wordByte => i.first < 65536 ∧ i.second < 256 ∧ i.captures = []
  | .twoWords => i.first < 65536 ∧ i.second < 65536 ∧ i.captures = []
  | .captures => i.first < 65536 ∧ i.second = 0 ∧ ∀ c ∈ i.captures, c.index < 65536

instance (i : Instruction) : Decidable i.InRange := by
  unfold InRange
  split <;> infer_instance

/-! ## Lengths -/

theorem length_wordBytes (n : Nat) : (wordBytes n).length = 2 := rfl

theorem length_flatMap_captureBytes (cs : List Capture) :
    (cs.flatMap captureBytes).length = 3 * cs.length := by
  induction cs with
  | nil => rfl
  | cons c cs ih =>
    rw [List.flatMap_cons, List.length_append, ih, List.length_cons]
    show 3 + 3 * cs.length = 3 * (cs.length + 1)
    omega

/-- An instruction takes as many bytes as its width says. -/
theorem length_encode {i : Instruction} (h : i.InRange) : i.encode.length = i.width := by
  unfold InRange at h
  unfold encode operandBytes width
  cases hs : i.op.shape <;> simp only [hs] at h ⊢
  case captures =>
    rw [List.length_cons, List.length_append, length_flatMap_captureBytes, length_wordBytes]
    show 2 + 3 * i.captures.length + 1 = 3 + 3 * i.captures.length
    omega
  all_goals simp [h.2.2, shapeWidth, length_wordBytes]

/-- Only a closure is followed by descriptors. -/
theorem InRange.captures_eq_nil {i : Instruction} (h : i.InRange) (hop : i.op ≠ .closure) :
    i.captures = [] := by
  unfold InRange at h
  cases hi : i.op <;> simp_all [Operation.shape]

theorem width_pos (i : Instruction) : 0 < i.width := by
  have : 0 < shapeWidth i.op.shape := by cases i.op.shape <;> decide
  unfold width
  omega

/-! ## Reading bytes back -/

section Reading

variable {c : Array UInt8} {l r : List UInt8}

theorem byteAt_of_toList {b : UInt8} (h : c.toList = l ++ b :: r) :
    byteAt c l.length = b.toNat := by
  have hget : c.toList[l.length]? = some b := by simp [h]
  rw [Array.getElem?_toList] at hget
  simp [byteAt, hget]

/-- A two-byte operand is read back. -/
theorem wordAt_wordBytes {n : Nat} (hn : n < 65536)
    (h : c.toList = l ++ wordBytes n ++ r) : wordAt c l.length = n := by
  have h₀ : byteAt c l.length = (UInt8.ofNat (n / 256)).toNat :=
    byteAt_of_toList (r := UInt8.ofNat n :: r) (by simp [h, wordBytes])
  have h₁ : byteAt c (l.length + 1) = (UInt8.ofNat n).toNat := by
    have := byteAt_of_toList (c := c) (l := l ++ [UInt8.ofNat (n / 256)])
      (r := r) (b := UInt8.ofNat n) (by simp [h, wordBytes])
    simpa using this
  rw [wordAt, h₀, h₁, UInt8.toNat_ofNat', UInt8.toNat_ofNat']
  omega

/-- A one-byte operand is read back. -/
theorem byteAt_ofNat {n : Nat} (hn : n < 256) (h : c.toList = l ++ UInt8.ofNat n :: r) :
    byteAt c l.length = n := by
  rw [byteAt_of_toList h, UInt8.toNat_ofNat']
  omega

/-- The captured variables of a closure are read back. -/
theorem capturesAt_captureBytes {cs : List Capture} (hcs : ∀ x ∈ cs, x.index < 65536)
    (h : c.toList = l ++ cs.flatMap captureBytes ++ r) :
    capturesAt c l.length cs.length = cs := by
  induction cs generalizing l with
  | nil => rfl
  | cons x cs ih =>
    have hc : x.index < 65536 := hcs x (List.mem_cons_self ..)
    have hflag : byteAt c l.length = if x.isLocal then 1 else 0 := by
      have := byteAt_of_toList (c := c) (l := l)
        (r := wordBytes x.index ++ cs.flatMap captureBytes ++ r)
        (b := if x.isLocal then 1 else 0) (by simp [h, captureBytes])
      rw [this]
      cases x.isLocal <;> rfl
    have hword : wordAt c (l.length + 1) = x.index := by
      have := wordAt_wordBytes (c := c) (r := cs.flatMap captureBytes ++ r)
        (l := l ++ [if x.isLocal then 1 else 0]) hc (by simp [h, captureBytes])
      simpa using this
    -- the rest of the list starts three bytes further on
    have hrest : capturesAt c (l.length + 3) cs.length = cs := by
      have := ih (l := l ++ captureBytes x)
        (fun y hy => hcs y (List.mem_cons_of_mem _ hy)) (by simp [h])
      simpa [captureBytes, wordBytes] using this
    unfold capturesAt at hrest ⊢
    rw [List.length_cons, List.range_succ_eq_map, List.map_cons, List.map_map]
    refine List.cons_eq_cons.mpr ⟨?_, ?_⟩
    · have hbeq : (byteAt c l.length == 1) = x.isLocal := by
        rw [hflag]
        cases x.isLocal <;> rfl
      simp only [Nat.mul_zero, Nat.add_zero, hbeq, hword]
    · rw [← hrest]
      simp only [List.length_map, List.length_range]
      refine List.map_congr_left fun k _ => ?_
      simp only [Function.comp_apply, show l.length + 3 * k.succ = l.length + 3 + 3 * k
        from by omega]

/-- **`decode?_encode`** — an instruction is read back from where its bytes stand. -/
theorem decode?_encode {i : Instruction} {captureCount : Nat → Nat} (hi : i.InRange)
    (hcount : i.op = .closure → captureCount i.first = i.captures.length)
    (h : c.toList = l ++ i.encode ++ r) :
    decode? c captureCount l.length = some i := by
  have hop : c.getD l.length 255 = i.op.code := by
    have hget : c.toList[l.length]? = some i.op.code := by simp [h, encode]
    rw [Array.getElem?_toList] at hget
    simp [hget]
  -- the operands start one byte further on
  have hoperands : c.toList = (l ++ [i.op.code]) ++ i.operandBytes ++ r := by
    simp [h, encode]
  have hlen : (l ++ [i.op.code]).length = l.length + 1 := by simp
  have hshape : i.op.shape = .captures → i.op = .closure := by cases i.op <;> simp [Operation.shape]
  unfold decode?
  rw [hop, Operation.ofCode?_code]
  unfold InRange at hi
  unfold operandBytes at hoperands
  cases hs : i.op.shape <;> simp only [hs] at hi hoperands ⊢
  case plain =>
    obtain ⟨h₁, h₂, h₃⟩ := hi
    rw [make, ← h₃, ← h₁, show i.first = i.second from h₁.trans h₂.symm]
    cases i
    simp_all
  case byte =>
    obtain ⟨h₁, h₂, h₃⟩ := hi
    rw [← hlen, byteAt_ofNat h₁ (r := r) (by simp [hoperands])]
    simp [make, ← h₂, ← h₃]
  case word =>
    obtain ⟨h₁, h₂, h₃⟩ := hi
    rw [← hlen, wordAt_wordBytes h₁ hoperands]
    simp [make, ← h₂, ← h₃]
  case byteWord =>
    obtain ⟨h₁, h₂, h₃⟩ := hi
    have hsecond : wordAt c (l.length + 2) = i.second := by
      have := wordAt_wordBytes (c := c) (r := r)
        (l := l ++ [i.op.code, UInt8.ofNat i.first]) h₂ (by simp [hoperands])
      simpa using this
    rw [hsecond, ← hlen, byteAt_ofNat h₁ (r := wordBytes i.second ++ r) (by simp [hoperands])]
    simp [make, ← h₃]
  case wordByte =>
    obtain ⟨h₁, h₂, h₃⟩ := hi
    have hsecond : byteAt c (l.length + 3) = i.second := by
      have := byteAt_ofNat (c := c) (r := r)
        (l := l ++ i.op.code :: wordBytes i.first) h₂ (by simp [hoperands])
      simpa [wordBytes] using this
    rw [hsecond, ← hlen, wordAt_wordBytes h₁ (r := [UInt8.ofNat i.second] ++ r)
      (by simp [hoperands])]
    simp [make, ← h₃]
  case twoWords =>
    obtain ⟨h₁, h₂, h₃⟩ := hi
    have hsecond : wordAt c (l.length + 3) = i.second := by
      have := wordAt_wordBytes (c := c) (r := r)
        (l := l ++ i.op.code :: wordBytes i.first) h₂ (by simp [hoperands])
      simpa [wordBytes] using this
    rw [hsecond, ← hlen, wordAt_wordBytes h₁ (r := wordBytes i.second ++ r)
      (by simp [hoperands])]
    simp [make, ← h₃]
  case captures =>
    obtain ⟨h₁, h₂, h₃⟩ := hi
    have hcaptures : capturesAt c (l.length + 3) i.captures.length = i.captures := by
      have := capturesAt_captureBytes (c := c) (r := r)
        (l := l ++ i.op.code :: wordBytes i.first) h₃ (by simp [hoperands])
      simpa [wordBytes] using this
    rw [← hlen, wordAt_wordBytes h₁ (r := i.captures.flatMap captureBytes ++ r)
      (by simp [hoperands]), hcount (hshape hs), hcaptures]
    simp [← h₂]

end Reading

end Instruction

/-! ## How code changes -/

namespace Chunk

/-- Writing bytes over others, as a change of lists. -/
theorem toList_overwrite {code : Array UInt8} {before old new after : List UInt8}
    (h : code.toList = before ++ old ++ after) (hlen : new.length = old.length) :
    (overwrite code before.length new).toList = before ++ new ++ after := by
  induction new generalizing code before old with
  | nil =>
    obtain rfl : old = [] := List.length_eq_zero_iff.mp hlen.symm
    simpa [overwrite] using h
  | cons b new ih =>
    obtain ⟨c, old, rfl⟩ : ∃ c old', old = c :: old' := by
      cases old with
      | nil => simp at hlen
      | cons c old => exact ⟨c, old, rfl⟩
    have hset : (code.setIfInBounds before.length b).toList = (before ++ [b]) ++ old ++ after := by
      rw [Array.toList_setIfInBounds, h]
      simp
    have := ih hset (by simpa using hlen)
    simpa [overwrite] using this

theorem size_overwrite (code : Array UInt8) (offset : Nat) (bytes : List UInt8) :
    (overwrite code offset bytes).size = code.size := by
  induction bytes generalizing code offset with
  | nil => rfl
  | cons b bytes ih => rw [overwrite, ih, Array.size_setIfInBounds]

/-- Bytes are written one behind the other, and constants are not concerned. -/
theorem foldl_write (c : Chunk) (line : Nat) (bytes : List UInt8) :
    (bytes.foldl (fun c b => c.write b line) c).code.toList = c.code.toList ++ bytes ∧
      (bytes.foldl (fun c b => c.write b line) c).constants = c.constants := by
  induction bytes generalizing c with
  | nil => simp
  | cons b bytes ih =>
    obtain ⟨hcode, hconstants⟩ := ih (c.write b line)
    refine ⟨?_, ?_⟩
    · rw [List.foldl_cons, hcode]
      simp [write]
    · rw [List.foldl_cons, hconstants]
      rfl

/-- An instruction goes to the end of the code. -/
theorem toList_emit (c : Chunk) (i : Instruction) (line : Nat) :
    (c.emit i line).code.toList = c.code.toList ++ i.encode :=
  (foldl_write c line i.encode).1

theorem size_emit {i : Instruction} (h : i.InRange) (c : Chunk) (line : Nat) :
    (c.emit i line).code.size = c.code.size + i.width := by
  have := congrArg List.length (toList_emit c i line)
  rwa [List.length_append, Instruction.length_encode h, Array.length_toList, Array.length_toList]
    at this

@[simp]
theorem constants_emit (c : Chunk) (i : Instruction) (line : Nat) :
    (c.emit i line).constants = c.constants :=
  (foldl_write c line i.encode).2

end Chunk

end ScriptMachine
