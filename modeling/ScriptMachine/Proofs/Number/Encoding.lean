import Mathlib
import ScriptMachine.Number.Binary64

/-!
# ScriptMachine.Proofs.Number.Encoding — what the bits of a number mean

`Binary64.ofFloat` reads the fields of a bit pattern with shifts and masks. `Float.Model.unpack` is the
library's own reading of a number, as a sign, a mantissa and an exponent, with vectors of bits. Both read
the same.

`ofFloat_eq` is the comparison, field by field. It is what lets the text of a number, which is computed
from the fields, be about the number that arithmetic is about.
-/

namespace ScriptMachine.Binary64

open Float.Model UnpackedFloat

/-- What an unpacked number denotes. -/
def ofUnpacked : UnpackedFloat → Binary64
  | .notANumber => .nan
  | .infinity s => .infinite (s == .negative)
  | .zero s => .finite (s == .negative) 0 (-1074)
  | .finite s m e _ => .finite (s == .negative) m e

/-! ## The three fields -/

theorem fraction_eq (b : UInt64) :
    (@unpackMantissa Format.binary64 b.toBitVec).toNat = (b &&& 0xfffffffffffff).toNat := by
  have hmask : (0xfffffffffffff : UInt64).toNat = 2 ^ 52 - 1 := rfl
  rw [UInt64.toNat_and, hmask, Nat.and_two_pow_sub_one_eq_mod]
  simp [unpackMantissa, BitVec.extractLsb_toNat]

theorem biased_eq (b : UInt64) :
    (@unpackExponent Format.binary64 b.toBitVec).toNat = ((b >>> 52) &&& 0x7ff).toNat := by
  have hmask : (0x7ff : UInt64).toNat = 2 ^ 11 - 1 := rfl
  rw [UInt64.toNat_and, hmask, Nat.and_two_pow_sub_one_eq_mod, UInt64.toNat_shiftRight]
  simp [unpackExponent, BitVec.extractLsb_toNat]

/-- The sign is the first bit of the word. -/
theorem sign_eq (b : UInt64) :
    (Sign.ofBitVec (@unpackSign Format.binary64 b.toBitVec) == .negative) =
      (b >>> 63 == 1) := by
  have hbit : (@unpackSign Format.binary64 b.toBitVec).toNat = (b >>> 63).toNat := by
    have := b.toNat_lt
    rw [UInt64.toNat_shiftRight]
    simp [unpackSign, BitVec.extractLsb_toNat, Nat.shiftRight_eq_div_pow]
    omega
  have hnegative (v : BitVec 1) : (Sign.ofBitVec v == .negative) = (v.toNat == 1) := by
    revert v
    decide
  rw [hnegative, hbit, Bool.eq_iff_iff, beq_iff_eq, beq_iff_eq, ← UInt64.toNat_inj]
  rfl

/-- A mantissa has one bit more than is written. -/
theorem toNat_one_append (v : BitVec 52) : (1#1 ++ v).toNat = v.toNat + Nat.pow 2 52 := by
  rw [BitVec.toNat_append, ← Nat.shiftLeft_add_eq_or_of_lt v.isLt, Nat.add_comm]
  rfl

/-! ## The whole pattern -/

/-- **`ofFloat_eq`** — the bits of a number are read as the library reads them. -/
theorem ofFloat_eq (x : Float) : ofFloat x = ofUnpacked x.toModel.unpack := by
  obtain ⟨b, hb⟩ : ∃ b, b = x.toBits := ⟨_, rfl⟩
  have hunpack : x.toModel.unpack = UnpackedFloat.unpack Format.binary64 b.toBitVec := by rw [hb]; rfl
  have hmax (v : BitVec 11) : v.toNat = 2047 ↔ v = -1#11 := by
    rw [← BitVec.toNat_inj]
    rfl
  have hzero (v : BitVec 11) : v.toNat = 0 ↔ v = 0#11 := by
    rw [← BitVec.toNat_inj]
    rfl
  have hnone (v : BitVec 52) : v.toNat = 0 ↔ v = 0#52 := by
    rw [← BitVec.toNat_inj]
    rfl
  rw [ofFloat, ← hb, hunpack]
  unfold ofBits UnpackedFloat.unpack
  rw [← sign_eq b, ← fraction_eq b, ← biased_eq b]
  dsimp only
  simp only [hmax, hzero, hnone]
  split
  · split <;> rfl
  · split
    case isTrue hleast =>
      split
      · simp_all [ofUnpacked]
      · rw [ofUnpacked, hleast]
        rfl
    case isFalse =>
      rw [ofUnpacked]
      exact congrArg (finite _ · _) (toNat_one_append _).symm

end ScriptMachine.Binary64
