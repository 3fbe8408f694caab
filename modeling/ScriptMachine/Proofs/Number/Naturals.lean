import Mathlib
import ScriptMachine.Proofs.Number.Addition

/-!
# ScriptMachine.Proofs.Number.Naturals — counts compared as numbers

A count with at most 53 bits is turned into a number without rounding: its bits become the mantissa,
filled up with zeros at the end, and the exponent tells how many there were. So two such counts compare
as numbers like they do as counts.

`toFloat_lt_iff` is the result. It is used where a table compares its load with three quarters of its
capacity: as numbers, this comes out like the comparison of the counts (`toFloat_three_quarters`). Counts
of more bits are not considered; no table has so many slots.
-/

namespace ScriptMachine.Number

open Float.Model UnpackedFloat

variable {m n n' : ℕ} {e : ℤ} {s : Sign}

/-- What is written into the bits with a full mantissa is read from them again. -/
theorem unpack_pack {hm : 0 < m} (hfull : 2 ^ 52 ≤ m) (hbelow : m < 2 ^ 53) (hleast : -1074 ≤ e)
    (hmost : e ≤ 971) : (Float.Model.pack (.finite s m e hm)).unpack = .finite s m e hm := by
  obtain ⟨biased, hbiased, hbias⟩ := exists_biased hleast
  have hlog := (log2_succ_iff hm hbelow).mpr hfull
  have hroom : ¬ 2 ^ 11 ≤ biased + 1 := by omega
  have hpack : UnpackedFloat.pack Format.binary64 (.finite s m e hm) =
      packComponents Format.binary64 s (BitVec.ofNat 11 biased) (BitVec.ofNat 52 m) := by
    unfold UnpackedFloat.pack
    dsimp only
    rw [hbias, Int.toNat_natCast]
    exact (if_neg hroom).trans (if_pos hlog)
  have hexponent : (BitVec.ofNat 11 biased).toNat = biased := by
    rw [BitVec.toNat_ofNat]
    omega
  show UnpackedFloat.unpack Format.binary64 (UnpackedFloat.pack Format.binary64 (.finite s m e hm)) = _
  rw [hpack]
  unfold UnpackedFloat.unpack
  dsimp only
  split
  case isTrue hlast =>
    rw [unpackExponent_packComponents] at hlast
    -- the exponent is neither the greatest nor the least, so a leading bit is read again
    have hall : biased = 2047 := hexponent.symm.trans (congrArg BitVec.toNat hlast)
    omega
  case isFalse =>
    split
    case isTrue hzero =>
      rw [unpackExponent_packComponents] at hzero
      have hnone : biased = 0 := hexponent.symm.trans (congrArg BitVec.toNat hzero)
      omega
    case isFalse =>
      have hmantissa : (1#1 ++ BitVec.ofNat 52 m).toNat = m := by
        rw [Binary64.toNat_one_append, BitVec.toNat_ofNat]
        show m % 2 ^ 52 + 2 ^ 52 = m
        omega
      rw [UnpackedFloat.finite.injEq, unpackSign_packComponents, unpackMantissa_packComponents,
        unpackExponent_packComponents, ofBitVec_toBitVec]
      refine ⟨rfl, hmantissa, ?_⟩
      show ((BitVec.ofNat 11 biased).toNat : ℤ) - (1023 + 52) = e
      rw [hexponent, hbiased]
      omega

/-! ## Counts -/

/-- The mantissa of a count is filled up, and nothing is rounded off. -/
theorem round_count (hpos : 0 < n) (hn : n < 2 ^ 53) :
    UnpackedFloat.round Format.binary64 .positive n 0 =
      .finite .positive (n <<< (52 - n.log2)) ((n.log2 : ℤ) - 52)
        (Nat.shiftLeft_pos_iff.mpr hpos) := by
  have hlog := log2_le hn
  have hround : UnpackedFloat.round Format.binary64 .positive n 0 =
      UnpackedFloat.roundWithAccuracy Format.binary64 .positive (n <<< (52 - n.log2))
        ((n.log2 : ℤ) - 52) .exact := by
    have hshift : (0 - max ((n.log2 : ℤ) + 0 - 52) (-1074)).toNat = 52 - n.log2 := by omega
    have hexponent : (0 : ℤ) - (52 - n.log2 : ℕ) = (n.log2 : ℤ) - 52 := by omega
    rw [← hexponent, ← hshift, UnpackedFloat.round, targetExponent_eq]
    rfl
  have haligned : Aligned (n <<< (52 - n.log2)) ((n.log2 : ℤ) - 52) 0 :=
    ⟨by rw [log2_shiftLeft hpos]; omega, Nat.shiftLeft_pos_iff.mpr hpos⟩
  have hexact : roundedOff (n <<< (52 - n.log2)) 0 = n <<< (52 - n.log2) :=
    Nat.le_antisymm (roundedOff_le (Nat.le_of_eq (Nat.mul_one _).symm))
      (le_roundedOff (Nat.le_of_eq (Nat.mul_one _)))
  have hbelow := haligned.below
  have hpositive := haligned.positive
  rw [hround, haligned.roundWithAccuracy_eq, hexact, carried, dif_neg (by omega), if_pos (by omega),
    UnpackedFloat.finite.injEq]
  exact ⟨rfl, rfl, Int.add_zero _⟩

/-- A count as a number. -/
theorem unpack_toFloat (hpos : 0 < n) (hn : n < 2 ^ 53) : n.toUInt64.toFloat.toModel.unpack =
    .finite .positive (n <<< (52 - n.log2)) ((n.log2 : ℤ) - 52) (Nat.shiftLeft_pos_iff.mpr hpos) := by
  have hlog := log2_le hn
  have hcount : n.toUInt64.toNat = n := by
    rw [Nat.toUInt64_eq, UInt64.toNat_ofNat']
    omega
  have hround : n.toUInt64.toFloat.toModel =
      Float.Model.pack (UnpackedFloat.round Format.binary64 .positive n 0) := by
    show Float.Model.pack (UnpackedFloat.normalize Format.binary64 n.toUInt64.toNat 0 .positive) = _
    rw [hcount, UnpackedFloat.normalize, Int.compare_eq_gt.mpr (by omega)]
    rfl
  have hfilled : n <<< (52 - n.log2) ≠ 0 := (Nat.shiftLeft_pos_iff.mpr hpos).ne'
  have hlow : 2 ^ 52 ≤ n <<< (52 - n.log2) := by
    rw [← Nat.le_log2 hfilled, log2_shiftLeft hpos]
    omega
  have hhigh : n <<< (52 - n.log2) < 2 ^ 53 := by
    rw [← Nat.log2_lt hfilled, log2_shiftLeft hpos]
    omega
  rw [hround, round_count hpos hn, unpack_pack hlow hhigh (by omega) (by omega)]

/-- A count with more bits is greater. -/
theorem lt_of_log2_lt (hpos' : 0 < n') (hlog : n.log2 < n'.log2) : n < n' :=
  calc n < 2 ^ (n.log2 + 1) := Nat.lt_log2_self
    _ ≤ 2 ^ n'.log2 := Nat.pow_le_pow_right (by decide) hlog
    _ ≤ n' := Nat.log2_self_le hpos'.ne'

/-- **`toFloat_lt_iff`** — as numbers, counts are compared like counts. -/
theorem toFloat_lt_iff (hpos : 0 < n) (hn : n < 2 ^ 53) (hpos' : 0 < n') (hn' : n' < 2 ^ 53) :
    n.toUInt64.toFloat < n'.toUInt64.toFloat ↔ n < n' := by
  rw [lt_iff, order?, unpack_toFloat hpos hn, unpack_toFloat hpos' hn']
  show some ((compare ((n.log2 : ℤ) - 52) ((n'.log2 : ℤ) - 52)).then
    (compare (n <<< (52 - n.log2)) (n' <<< (52 - n'.log2)))) = some .lt ↔ _
  rw [Option.some_inj, Ordering.then_eq_lt, Int.compare_eq_lt, Int.compare_eq_eq, Nat.compare_eq_lt]
  rcases Nat.lt_trichotomy n.log2 n'.log2 with hlog | hlog | hlog
  · exact iff_of_true (.inl (by omega)) (lt_of_log2_lt hpos' hlog)
  · -- as many bits, so the mantissas are compared
    have hmantissas : n <<< (52 - n'.log2) < n' <<< (52 - n'.log2) ↔ n < n' := by
      rw [Nat.shiftLeft_eq, Nat.shiftLeft_eq]
      exact Nat.mul_lt_mul_right (Nat.two_pow_pos _)
    rw [hlog, hmantissas]
    omega
  · refine iff_of_false ?_ (Nat.lt_asymm (lt_of_log2_lt hpos hlog))
    omega

/-- Three quarters of a power of two. -/
theorem toFloat_three_quarters (k : ℕ) (hk : k < 51) :
    (4 * 2 ^ k).toUInt64.toFloat * 0.75 = (3 * 2 ^ k).toUInt64.toFloat := by
  revert k
  decide +kernel

end ScriptMachine.Number
