import Mathlib
import ScriptMachine.Proofs.Number.Encoding
import ScriptMachine.Proofs.Number.Ordering

/-!
# ScriptMachine.Proofs.Number.Ranks — where a number stands among the numbers

There are only so many numbers, and each of them but the two zeros has a rank of its own: how many steps
from one number to the next it is away from zero. The rank is read off the mantissa and the exponent, if
these are written canonically, and stands in the bits of the number as it is.

The rank is defined on numbers with mantissa and exponent, where it is easy to compare with a sum, and
`bitsRank_pack` says that it is what the bits spell as a natural number, from which `rank_inj` follows.
That the order of numbers is that of their ranks is not shown, since only adding is about ranks here.
-/

namespace ScriptMachine.Number

open Float.Model UnpackedFloat

variable {m : ℕ} {e : ℤ} {s : Sign} {f : UnpackedFloat} {x y : Float}

/-! ## Mantissas and exponents -/

/-- A mantissa and an exponent as they are written: no bit is wasted, unless the exponent is the
least. -/
structure Canonical (m : ℕ) (e : ℤ) : Prop where
  least : -1074 ≤ e
  below : m < 2 ^ 53
  above : e = -1074 ∨ 2 ^ 52 ≤ m

/-- The numbers of each exponent come right behind those of the exponent before. -/
def magnitudeRank (m : ℕ) (e : ℤ) : ℤ :=
  (e + 1074) * 2 ^ 52 + m

/-- The rank of the infinite numbers. -/
def infiniteRank : ℤ :=
  2047 * 2 ^ 52

/-- **`unpackedRank f`** — where a number stands, counted from zero. -/
def unpackedRank : UnpackedFloat → ℤ
  | .notANumber => 0
  | .infinity s => s.apply infiniteRank
  | .zero _ => 0
  | .finite s m e _ => s.apply (min (magnitudeRank m e) infiniteRank)

/-- Is a number written canonically? -/
def Fits : UnpackedFloat → Prop
  | .finite _ m e _ => Canonical m e
  | _ => True

theorem log2_le (h : m < 2 ^ 53) : m.log2 ≤ 52 := by
  rcases Nat.eq_zero_or_pos m with rfl | hpos
  · decide
  · have := (Nat.log2_lt hpos.ne').mpr h
    omega

theorem magnitudeRank_nonneg (h : -1074 ≤ e) (m : ℕ) : 0 ≤ magnitudeRank m e := by
  unfold magnitudeRank
  omega

/-- No rank lies beyond that of infinity. -/
theorem unpackedRank_le (hf : Fits f) (s : Sign) : s.apply (unpackedRank f) ≤ infiniteRank := by
  have hinfinite : 0 ≤ infiniteRank := by decide
  cases f with
  | notANumber | zero => cases s <;> exact hinfinite
  | infinity s' => cases s <;> cases s' <;> simp only [unpackedRank, Sign.apply] <;> omega
  | finite s' m e hm =>
    have := magnitudeRank_nonneg hf.least m
    cases s <;> cases s' <;> simp only [unpackedRank, Sign.apply] <;> omega

/-- **`IsTowards s f`** — a number that is not zero, with the sign `s`. -/
def IsTowards (s : Sign) : UnpackedFloat → Prop
  | .finite s' _ _ _ => s' = s
  | .infinity s' => s' = s
  | _ => False

theorem IsTowards.ne_notANumber (hs : IsTowards s f) : f ≠ .notANumber := by
  rintro rfl
  exact hs

/-- Away from zero there is a rank on the side of the sign. -/
theorem unpackedRank_pos (hf : Fits f) (hs : IsTowards s f) : 0 < s.apply (unpackedRank f) := by
  have hinfinite : 0 < infiniteRank := by decide
  cases f with
  | notANumber | zero => exact hs.elim
  | infinity s' =>
    obtain rfl : s' = s := hs
    cases s' <;> exact hinfinite
  | finite s' m e hm =>
    obtain rfl : s' = s := hs
    have hleast := hf.least
    cases s' <;> simp only [unpackedRank, magnitudeRank, Sign.apply] <;> omega

/-! ## Bits -/

/-- The rank that is written in the bits of a number. -/
def bitsRank (b : BitVec 64) : ℤ :=
  (Sign.ofBitVec (@unpackSign Format.binary64 b)).apply
    ((@unpackExponent Format.binary64 b).toNat * 2 ^ 52 +
      (@unpackMantissa Format.binary64 b).toNat : ℕ)

theorem unpackSign_packComponents {spec : Format} (s : Sign) (exponent : BitVec spec.exponentBits)
    (mantissa : BitVec spec.mantissaBitsWithoutImplicit) :
    unpackSign (packComponents spec s exponent mantissa) = s.toBitVec := by
  refine BitVec.eq_of_getLsbD_eq fun i hi => ?_
  obtain rfl : i = 0 := by omega
  simp [unpackSign, packComponents, BitVec.getLsbD_append, BitVec.getElem_append]

theorem ofBitVec_toBitVec (s : Sign) : Sign.ofBitVec s.toBitVec = s := by
  cases s <;> rfl

/-- The rank of the bits is read off the fields: the exponent counts whole runs of mantissas. -/
theorem bitsRank_packComponents (s : Sign) (exponent : BitVec 11) (mantissa : BitVec 52) :
    bitsRank (packComponents Format.binary64 s exponent mantissa) =
      s.apply (exponent.toNat * 2 ^ 52 + mantissa.toNat : ℕ) := by
  unfold bitsRank
  rw [unpackSign_packComponents, unpackExponent_packComponents, unpackMantissa_packComponents,
    ofBitVec_toBitVec]

/-- The exponent as it is written into the bits of a full mantissa. -/
theorem exists_biased (hleast : -1074 ≤ e) : ∃ biased : ℕ, (biased : ℤ) = e + 1075 ∧
    (e + Format.binary64.exponentBias + Format.binary64.mantissaBitsWithoutImplicit : ℤ) = biased := by
  refine ⟨(e + 1075).toNat, by omega, ?_⟩
  rw [show Format.binary64.exponentBias = 1023 from rfl,
    show Format.binary64.mantissaBitsWithoutImplicit = 52 from rfl]
  omega

/-- Is a mantissa full? -/
theorem log2_succ_iff (hm : 0 < m) (hbelow : m < 2 ^ 53) : m.log2 + 1 = 53 ↔ 2 ^ 52 ≤ m := by
  rw [← Nat.le_log2 hm.ne']
  have := log2_le hbelow
  omega

/-- What is written into the bits is the rank. -/
theorem bitsRank_pack (hf : Fits f) (hnumber : f ≠ .notANumber) :
    bitsRank (UnpackedFloat.pack Format.binary64 f) = unpackedRank f := by
  cases f with
  | notANumber => exact absurd rfl hnumber
  | infinity s => cases s <;> decide
  | zero s => cases s <;> decide
  | finite s m e hm =>
    obtain ⟨hleast, hbelow, habove⟩ := hf
    obtain ⟨biased, hbiased, hbias⟩ := exists_biased hleast
    have hlog := log2_succ_iff hm hbelow
    unfold UnpackedFloat.pack unpackedRank magnitudeRank infiniteRank
    dsimp only
    rw [hbias, Int.toNat_natCast, show Format.binary64.mantissaBits = 53 from rfl]
    simp only [hlog]
    split
    · refine (bitsRank_packComponents s _ _).trans (congrArg s.apply ?_)
      show ((2047 * 2 ^ 52 : ℕ) : ℤ) = _
      omega
    · split
      · refine (bitsRank_packComponents s _ _).trans (congrArg s.apply ?_)
        rw [BitVec.toNat_ofNat, BitVec.toNat_ofNat]
        omega
      · refine (bitsRank_packComponents s _ _).trans (congrArg s.apply ?_)
        rw [BitVec.toNat_ofNat, BitVec.toNat_ofNat]
        omega

/-- Ranks of bits and of unpacked numbers agree. The cases are those of the exponent field:
subnormal numbers and zero, normal numbers, and infinity. -/
theorem unpackedRank_unpack {b : BitVec 64} (hb : unpack Format.binary64 b ≠ .notANumber) :
    unpackedRank (unpack Format.binary64 b) = bitsRank b ∧ Fits (unpack Format.binary64 b) := by
  revert hb
  have hmantissa : (@unpackMantissa Format.binary64 b).toNat < 2 ^ 52 := BitVec.isLt _
  have hexponent : (@unpackExponent Format.binary64 b).toNat < 2 ^ 11 := BitVec.isLt _
  have hbias : Format.binary64.exponentBias = 1023 := rfl
  unfold UnpackedFloat.unpack bitsRank
  dsimp only
  split
  case isTrue hlast =>
    -- the greatest exponent: infinite, or not a number
    rw [hlast]
    split
    case isTrue hm =>
      intro _
      rw [hm]
      exact ⟨rfl, trivial⟩
    case isFalse => exact fun h => absurd rfl h
  case isFalse hlast =>
    have hlast' : (@unpackExponent Format.binary64 b).toNat ≠ 2047 := fun h =>
      hlast (BitVec.eq_of_toNat_eq h)
    split
    case isTrue hleast =>
      -- the least exponent: a zero, or a mantissa without its leading bit
      split
      case isTrue hm =>
        intro _
        rw [hm, hleast]
        refine ⟨Eq.symm ?_, trivial⟩
        show Sign.apply _ ((0 : ℕ) : ℤ) = 0
        cases Sign.ofBitVec (@unpackSign Format.binary64 b) <;> rfl
      case isFalse hm =>
        intro _
        have hexp : (@unpackExponent Format.binary64 b).toNat = 0 := by
          rw [hleast]
          rfl
        refine ⟨congrArg (Sign.apply _) ?_, ?_⟩
        · rw [magnitudeRank, infiniteRank, hbias]
          omega
        · exact ⟨by omega, by omega, .inl (by omega)⟩
    case isFalse hleast =>
      -- any other exponent: the mantissa has a leading bit that is not written
      intro _
      have hexp : (@unpackExponent Format.binary64 b).toNat ≠ 0 := fun h =>
        hleast (BitVec.eq_of_toNat_eq h)
      have hm : (1#1 ++ @unpackMantissa Format.binary64 b).toNat =
        (@unpackMantissa Format.binary64 b).toNat + 2 ^ 52 := Binary64.toNat_one_append _
      refine ⟨congrArg (Sign.apply _) ?_, ?_⟩
      · rw [magnitudeRank, infiniteRank, hm, hbias]
        omega
      · show Canonical _ _
        rw [hm, hbias]
        exact ⟨by omega, by omega, .inr (by omega)⟩

/-- The bits are the sign, the exponent and the mantissa, from left to right. -/
theorem toNat_fields (b : BitVec 64) : b.toNat = (@unpackSign Format.binary64 b).toNat * 2 ^ 63 +
    (@unpackExponent Format.binary64 b).toNat * 2 ^ 52 +
      (@unpackMantissa Format.binary64 b).toNat := by
  have hb : b.toNat < 2 ^ 64 := b.isLt
  simp [unpackSign, unpackExponent, unpackMantissa, BitVec.extractLsb_toNat,
    Nat.shiftRight_eq_div_pow]
  omega

theorem sign_cases (v : BitVec 1) : Sign.ofBitVec v = .negative ∧ v.toNat = 1 ∨
    Sign.ofBitVec v = .positive ∧ v.toNat = 0 := by
  unfold Sign.ofBitVec
  split
  case isTrue h => exact .inr ⟨rfl, congrArg BitVec.toNat h⟩
  case isFalse h =>
    have hne : v.toNat ≠ 0 := fun h' => h (BitVec.eq_of_toNat_eq h')
    exact .inl ⟨rfl, by omega⟩

/-- Two patterns of one rank are the same, unless they are the two zeros. -/
theorem bitsRank_inj {b b' : BitVec 64} (h : bitsRank b = bitsRank b') (hne : bitsRank b ≠ 0) :
    b = b' := by
  have hmantissa : (@unpackMantissa Format.binary64 b).toNat < 2 ^ 52 := BitVec.isLt _
  have hmantissa' : (@unpackMantissa Format.binary64 b').toNat < 2 ^ 52 := BitVec.isLt _
  refine BitVec.eq_of_toNat_eq ?_
  rw [toNat_fields b, toNat_fields b']
  unfold bitsRank at h hne
  rcases sign_cases (@unpackSign Format.binary64 b) with ⟨hs, hbit⟩ | ⟨hs, hbit⟩ <;>
    rcases sign_cases (@unpackSign Format.binary64 b') with ⟨hs', hbit'⟩ | ⟨hs', hbit'⟩ <;>
    rw [hs] at h hne <;> rw [hs'] at h <;> simp only [Sign.apply] at h hne <;> omega

/-! ## The rank of a number -/

/-- **`rank x`** — where a number stands, counted from zero. -/
def rank (x : Float) : ℤ :=
  bitsRank x.toBits.toBitVec

/-- Only the two zeros share a rank. -/
theorem rank_inj (h : rank x = rank y) (hne : rank x ≠ 0) : x = y :=
  Float.toBits_inj.mp (UInt64.toBitVec_inj.mp (bitsRank_inj h hne))

theorem rank_eq (hx : x.toModel.unpack ≠ .notANumber) :
    rank x = unpackedRank x.toModel.unpack ∧ Fits x.toModel.unpack :=
  (unpackedRank_unpack hx).imp_left Eq.symm

theorem rank_pack (hf : Fits f) (hnumber : f ≠ .notANumber) :
    rank ⟨Float.Model.pack f⟩ = unpackedRank f :=
  bitsRank_pack hf hnumber

/-- Only zeros have the rank zero. -/
theorem unpack_eq_zero_of_rank (hx : x.toModel.unpack ≠ .notANumber) (h : rank x = 0) :
    ∃ s, x.toModel.unpack = .zero s := by
  obtain ⟨hrank, hfits⟩ := rank_eq hx
  rw [h] at hrank
  cases hux : x.toModel.unpack with
  | notANumber => exact absurd hux hx
  | zero s => exact ⟨s, rfl⟩
  | infinity s | finite s =>
    rw [hux] at hrank hfits
    have hpos := unpackedRank_pos (s := s) hfits rfl
    rw [← hrank] at hpos
    cases s <;> exact absurd hpos (by decide)

theorem IsTowards.fits (hx : IsTowards s x.toModel.unpack) : Fits x.toModel.unpack :=
  (rank_eq hx.ne_notANumber).2

/-- Ranks are bounded. -/
theorem rank_le (x : Float) (s : Sign) : s.apply (rank x) ≤ 2 ^ 63 := by
  have hmantissa : (@unpackMantissa Format.binary64 x.toBits.toBitVec).toNat < 2 ^ 52 := BitVec.isLt _
  have hexponent : (@unpackExponent Format.binary64 x.toBits.toBitVec).toNat < 2 ^ 11 := BitVec.isLt _
  unfold rank bitsRank
  cases s <;> cases Sign.ofBitVec (@unpackSign Format.binary64 x.toBits.toBitVec) <;>
    simp only [Sign.apply] <;> omega

/-- A number that is not zero has a sign. -/
theorem isTowards_of_ne_zero (hzero : (x == 0) = false) (hnumber : x ≠ Float.nan) :
    ∃ s, IsTowards s x.toModel.unpack := by
  cases hux : x.toModel.unpack with
  | infinity s | finite s => exact ⟨s, rfl⟩
  | notANumber =>
    have hnone : order? x x = none := by
      unfold order?
      rw [hux]
      rfl
    exact absurd (order?_eq_none.mp hnone) (by simpa using hnumber)
  | zero s =>
    have heq : (x == 0) = true := by
      rw [beq_iff, order?, hux]
      rfl
    rw [hzero] at heq
    cases heq

end ScriptMachine.Number
