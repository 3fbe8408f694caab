import Mathlib
import ScriptMachine.Number.Decimal

/-!
# ScriptMachine.Proofs.Number.Rounding — a ratio rounded to a number of decimal digits

The unit in the last of `p` significant digits of a ratio is a power of ten that the ratio itself
decides. Rounding is to the nearest multiple of this unit, a tie going to the even one: there is one
such multiple, which may be one digit longer than the ratio. `Decimal.ofRatio` computes it with
naturals. Its digits are those of the nearest multiple of the unit that its own exponent decides as
well; so whoever rounds a second time, for the exponent that came out of the first, gets the same.

`ofRatio_spec` is the result and `nearest_roundedQuotient` its core, that dividing naturals and looking at
the remainder finds the nearest multiple, with ties to the even one. The exponent is found with naturals
too (`floorLog10_eq`), so no logarithm is ever rounded. `Nearest.carry` is why a carry into one more digit
does no harm: the digit that is dropped then is a zero.
-/

namespace ScriptMachine

variable {num den : ℕ} {q v v' : ℚ} {d d' p : ℕ}

/-! ## The nearest natural number -/

/-- **`Nearest q d`** — no natural number is nearer to `q` than `d`, which is even if another is as
near. -/
def Nearest (q : ℚ) (d : ℕ) : Prop :=
  2 * |q - d| ≤ 1 ∧ (2 * |q - d| = 1 → Even d)

/-- **`unique`** — one natural number is nearest. -/
theorem Nearest.unique (hd : Nearest q d) (hd' : Nearest q d') : d = d' := by
  wlog hle : d ≤ d' generalizing d d'
  · exact (this hd' hd (by omega)).symm
  obtain ⟨hnear, heven⟩ := hd
  obtain ⟨hnear', heven'⟩ := hd'
  have habove := le_abs_self (q - d)
  have hbelow := neg_abs_le (q - d')
  have hclose : d' ≤ d + 1 := by
    have : (d' : ℚ) ≤ (d + 1 : ℕ) := by
      push_cast
      linarith
    exact_mod_cast this
  by_contra hne
  obtain rfl : d' = d + 1 := by omega
  -- both are as far away as a nearest number can be, and one of two neighbours is odd
  push_cast at hbelow hnear' heven'
  have htie : 2 * |q - d| = 1 := le_antisymm hnear (by linarith)
  have htie' : 2 * |q - (d + 1)| = 1 := le_antisymm hnear' (by linarith)
  exact Nat.not_even_iff_odd.mpr (heven htie).add_one (heven' htie')

/-- Rounding to the nearest does not pass below a natural number. -/
theorem Nearest.le_of_le {n : ℕ} (hd : Nearest q d) (hn : (n : ℚ) ≤ q) : n ≤ d := by
  have := le_abs_self (q - d)
  have : (n : ℚ) < (d + 1 : ℕ) := by
    push_cast
    linarith [hd.1]
  exact Nat.lt_succ_iff.mp (by exact_mod_cast this)

/-- Nor above one. -/
theorem Nearest.ge_of_ge {n : ℕ} (hd : Nearest q d) (hn : q ≤ n) : d ≤ n := by
  have := neg_abs_le (q - d)
  have : (d : ℚ) < (n + 1 : ℕ) := by
    push_cast
    linarith [hd.1]
  exact Nat.lt_succ_iff.mp (by exact_mod_cast this)

/-- With a last digit less, a nearest number that ends with a zero is still nearest. -/
theorem Nearest.carry {n : ℕ} (hd : Nearest q d) (hn : d = 10 * n) : Nearest (q / 10) n := by
  subst hn
  have hdist : |q / 10 - n| = |q - (10 * n : ℕ)| / 10 := by
    push_cast
    rw [← abs_of_pos (show (0 : ℚ) < 10 by norm_num), ← abs_div]
    norm_num
    congr 1
    ring
  unfold Nearest
  rw [hdist]
  exact ⟨by linarith [hd.1], fun h => by linarith [hd.1]⟩

/-- **`nearest_roundedQuotient`** — the rounded quotient is the nearest natural number. -/
theorem nearest_roundedQuotient (num : ℕ) (hden : 0 < den) :
    Nearest (num / den) (Binary64.roundedQuotient num den) := by
  have hpos : (0 : ℚ) < den := by exact_mod_cast hden
  obtain ⟨f, hf⟩ : ∃ f : ℚ, f = (num % den : ℕ) / den := ⟨_, rfl⟩
  have hquotient : (num : ℚ) / den - (num / den : ℕ) = f := by
    rw [hf, div_sub' hpos.ne']
    congr 1
    have : (num : ℚ) = (den * (num / den) + num % den : ℕ) := by rw [Nat.div_add_mod]
    rw [this]
    push_cast
    ring
  have hf0 : 0 ≤ f := hf ▸ by positivity
  have hf1 : f < 1 := by
    rw [hf, div_lt_one hpos]
    exact_mod_cast Nat.mod_lt num hden
  -- what the remainder says of the fraction `f`: more than a half, or a half
  have hhalf : den < 2 * (num % den) ↔ 1 < 2 * f := by
    rw [hf, ← mul_div_assoc, one_lt_div hpos]
    exact_mod_cast Iff.rfl
  have htie : 2 * (num % den) = den ↔ 2 * f = 1 := by
    rw [hf, ← mul_div_assoc, div_eq_one_iff_eq hpos.ne']
    exact_mod_cast Iff.rfl
  unfold Binary64.roundedQuotient Nearest
  simp only [hhalf, htie]
  split
  case isTrue hup =>
    -- rounded up, because the fraction is more than a half or a half on top of an odd number
    have hdist : |(num : ℚ) / den - (num / den + 1 : ℕ)| = 1 - f := by
      push_cast
      rw [← sub_sub, hquotient, abs_of_nonpos (by linarith)]
      ring
    rw [hdist]
    rcases hup with hmore | ⟨heq, hodd⟩
    · exact ⟨by linarith, fun h => by linarith⟩
    · exact ⟨by linarith, fun _ => (Nat.odd_iff.mpr hodd).add_one⟩
  case isFalse hdown =>
    rw [hquotient, abs_of_nonneg hf0]
    rw [not_or, not_lt, not_and] at hdown
    refine ⟨hdown.1, fun heq => Nat.even_iff.mpr ?_⟩
    have := hdown.2 heq
    omega

/-- A power of ten may be in the divisor or in the dividend. -/
theorem nearest_scaled (num : ℕ) (hden : 0 < den) (shift : ℤ) :
    Nearest (num / den * 10 ^ shift)
      (if 0 ≤ shift then Binary64.roundedQuotient (num * Nat.pow 10 shift.toNat) den
        else Binary64.roundedQuotient num (den * Nat.pow 10 (-shift).toNat)) := by
  split
  case isTrue h =>
    convert nearest_roundedQuotient (num * Nat.pow 10 shift.toNat) hden using 1
    obtain ⟨n, rfl⟩ := Int.eq_ofNat_of_zero_le h
    simp
    ring
  case isFalse h =>
    have hpos : 0 < den * Nat.pow 10 (-shift).toNat := Nat.mul_pos hden (Nat.pow_pos (by decide))
    convert nearest_roundedQuotient num hpos using 1
    obtain ⟨n, rfl⟩ : ∃ n : ℕ, shift = -n := ⟨(-shift).toNat, by omega⟩
    simp
    ring

/-! ## The decimal exponent -/

/-- The decimal exponent of a number is that of the greatest power of ten that it reaches. -/
theorem log_eq_iff (hq : 0 < q) {x : ℤ} :
    Int.log 10 q = x ↔ (10 : ℚ) ^ x ≤ q ∧ q < (10 : ℚ) ^ (x + 1) := by
  have hlow := Int.zpow_le_iff_le_log (b := 10) (by decide) (x := x) hq
  have hhigh := Int.lt_zpow_iff_log_lt (b := 10) (by decide) (x := x + 1) hq
  push_cast at hlow hhigh
  rw [hlow, hhigh]
  omega

/-- With the unit of its fifteenth digit as one, a number has fifteen digits before the point. -/
theorem log_eq_iff_scaled (hq : 0 < q) {x : ℤ} :
    Int.log 10 q = x ↔ (10 : ℚ) ^ 14 ≤ q * 10 ^ (14 - x) ∧ q * 10 ^ (14 - x) < 10 ^ 15 := by
  have hunit : (0 : ℚ) < 10 ^ (14 - x) := by positivity
  have hlow : (10 : ℚ) ^ 14 = 10 ^ x * 10 ^ (14 - x) := by
    rw [← zpow_add₀ (by norm_num), ← zpow_natCast]
    congr 1
    omega
  have hhigh : (10 : ℚ) ^ 15 = 10 ^ (x + 1) * 10 ^ (14 - x) := by
    rw [← zpow_add₀ (by norm_num), ← zpow_natCast]
    congr 1
    omega
  rw [log_eq_iff hq, hlow, hhigh, mul_le_mul_iff_of_pos_right hunit, mul_lt_mul_iff_of_pos_right hunit]

namespace Decimal

theorem digitCount_eq (n : ℕ) : digitCount n = Nat.log 10 n + 1 := by
  induction n using digitCount.induct with
  | case1 n h =>
    rw [digitCount, if_pos h, Nat.log_of_lt h]
  | case2 n h ih =>
    rw [digitCount, if_neg h, ih, ← Nat.log_of_one_lt_of_le (by decide) (by omega)]

/-- **`floorLog10_eq`** — the exponent of the first digit, computed with naturals. -/
theorem floorLog10_eq (hnum : 0 < num) (hden : 0 < den) :
    floorLog10 num den = Int.log 10 (num / den : ℚ) := by
  have hnum' : (0 : ℚ) < num := by exact_mod_cast hnum
  have hden' : (0 : ℚ) < den := by exact_mod_cast hden
  symm
  rw [log_eq_iff (by positivity)]
  unfold floorLog10
  split
  case isTrue hle =>
    have hquotient : num / den ≠ 0 := (Nat.div_pos hle hden).ne'
    have hlow := (Nat.le_div_iff_mul_le hden).mp (Nat.pow_log_le_self 10 hquotient)
    have hhigh := (Nat.div_lt_iff_lt_mul hden).mp
      (Nat.lt_pow_succ_log_self (b := 10) (by decide) (num / den))
    rw [digitCount_eq, Nat.cast_add_one, add_sub_cancel_right, le_div_iff₀ hden', div_lt_iff₀ hden']
    exact ⟨by exact_mod_cast hlow, by exact_mod_cast hhigh⟩
  case isFalse hlt =>
    have hquotient : (den - 1) / num ≠ 0 := (Nat.div_pos (by omega) hnum).ne'
    have hlow := (Nat.le_div_iff_mul_le hnum).mp (Nat.pow_log_le_self 10 hquotient)
    have hhigh := (Nat.div_lt_iff_lt_mul hnum).mp
      (Nat.lt_pow_succ_log_self (b := 10) (by decide) ((den - 1) / num))
    obtain ⟨l, hl⟩ : ∃ l, l = Nat.log 10 ((den - 1) / num) := ⟨_, rfl⟩
    rw [← hl] at hlow
    rw [← hl, Nat.succ_eq_add_one] at hhigh
    rw [digitCount_eq, ← hl, Nat.cast_add_one, show -((l : ℤ) + 1) + 1 = -l from by omega,
      ← Nat.cast_add_one, zpow_neg, zpow_neg, zpow_natCast, zpow_natCast, le_div_iff₀ hden',
      div_lt_iff₀ hden', inv_mul_le_iff₀ (by positivity), lt_inv_mul_iff₀ (by positivity)]
    have hle : den ≤ 10 ^ (l + 1) * num := by omega
    have hlt : 10 ^ l * num < den := by omega
    exact ⟨by exact_mod_cast hle, by exact_mod_cast hlt⟩

end Decimal

/-! ## Rounding to significant digits -/

/-- **`RoundsTo p q v`** — `v` is `q` rounded to `p` significant decimal digits: the nearest multiple
of the unit in the last digit of `q`, a tie going to the even multiple. -/
def RoundsTo (p : ℕ) (q v : ℚ) : Prop :=
  let unit : ℚ := 10 ^ (Int.log 10 q + 1 - p)
  ∃ d, Nearest (q / unit) d ∧ v = d * unit

/-- There is one number to round to: the exponent is that of the number, and ties go to even. -/
theorem RoundsTo.unique (hv : RoundsTo p q v) (hv' : RoundsTo p q v') : v = v' := by
  obtain ⟨d, hd, rfl⟩ := hv
  obtain ⟨d', hd', rfl⟩ := hv'
  rw [hd.unique hd']

namespace Decimal

/-- The value of a decimal of `precision` digits. -/
def value (d : Decimal) : ℚ :=
  d.digits * 10 ^ (d.exponent + 1 - precision)

theorem value_scaled (d : Decimal) : d.value * 10 ^ (14 - d.exponent) = d.digits := by
  rw [value, mul_assoc, ← zpow_add₀ (by norm_num), precision,
    show d.exponent + 1 - (15 : ℕ) + (14 - d.exponent) = 0 from by omega, zpow_zero, mul_one]

/-- **`d.Full`** — the decimal has `precision` digits, the first of them not zero. -/
def Full (d : Decimal) : Prop :=
  10 ^ 14 ≤ d.digits ∧ d.digits < 10 ^ 15

theorem Full.value_pos {d : Decimal} (hd : d.Full) : 0 < d.value := by
  have : (0 : ℚ) < d.digits := by exact_mod_cast Nat.lt_of_lt_of_le (by decide) hd.1
  unfold Decimal.value
  positivity

/-- A decimal with all its digits has the exponent it states. -/
theorem Full.log_value {d : Decimal} (hd : d.Full) : Int.log 10 d.value = d.exponent := by
  rw [log_eq_iff_scaled hd.value_pos, value_scaled]
  exact ⟨by exact_mod_cast hd.1, by exact_mod_cast hd.2⟩

/-- **`ofRatio_spec`** — a ratio is rounded to fifteen digits, which are also the nearest for the
exponent that comes with them. -/
theorem ofRatio_spec (hnum : 0 < num) (hden : 0 < den) :
    (ofRatio num den).Full ∧ RoundsTo 15 (num / den) (ofRatio num den).value ∧
      Nearest (num / den * 10 ^ (14 - (ofRatio num den).exponent)) (ofRatio num den).digits := by
  have hnum' : (0 : ℚ) < num := by exact_mod_cast hnum
  have hden' : (0 : ℚ) < den := by exact_mod_cast hden
  obtain ⟨q, hq⟩ : ∃ q : ℚ, q = num / den := ⟨_, rfl⟩
  obtain ⟨x, hx⟩ : ∃ x, x = Int.log 10 q := ⟨_, rfl⟩
  obtain ⟨hlow, hhigh⟩ := (log_eq_iff_scaled (hq ▸ div_pos hnum' hden')).mp hx.symm
  obtain ⟨d, hnear, hc⟩ : ∃ d, Nearest (q * 10 ^ (14 - x)) d ∧ ofRatio num den =
      if d = 10 ^ 15 then ⟨10 ^ 14, x + 1⟩ else ⟨d, x⟩ := by
    rw [hx, hq, ← floorLog10_eq hnum hden]
    exact ⟨_, nearest_scaled num hden _, rfl⟩
  have hunit : q / 10 ^ (x + 1 - (15 : ℕ)) = q * 10 ^ (14 - x) := by
    rw [div_eq_mul_inv, ← zpow_neg]
    congr 2
    omega
  have hrounds : RoundsTo 15 q (d * 10 ^ (x + 1 - (15 : ℕ))) :=
    ⟨d, by rwa [← hx, hunit], by rw [← hx]⟩
  have hd_low : 10 ^ 14 ≤ d := hnear.le_of_le (by exact_mod_cast hlow)
  have hd_high : d ≤ 10 ^ 15 := hnear.ge_of_ge (by exact_mod_cast hhigh.le)
  rw [← hq, hc]
  split
  case isTrue hcarry =>
    -- the digits have become one more, all but the first of them zeros
    subst hcarry
    have hdigits : (10 : ℕ) ^ 15 = 10 * 10 ^ 14 := by decide
    refine ⟨⟨Nat.le_refl _, by dsimp only; omega⟩, ?_, ?_⟩
    · have hvalue : value ⟨10 ^ 14, x + 1⟩ = (10 ^ 15 : ℕ) * 10 ^ (x + 1 - (15 : ℕ)) := by
        rw [value, precision, hdigits,
          show x + 1 + 1 - ((15 : ℕ) : ℤ) = x + 1 - (15 : ℕ) + 1 from by omega,
          zpow_add_one₀ (by norm_num)]
        push_cast
        ring
      rwa [hvalue]
    · have hunit' : q * 10 ^ (14 - (x + 1)) = q * 10 ^ (14 - x) / 10 := by
        rw [← sub_sub, zpow_sub_one₀ (by norm_num), ← mul_assoc]
        rfl
      rw [hunit']
      exact hnear.carry hdigits
  case isFalse hne =>
    exact ⟨⟨hd_low, by dsimp only; omega⟩, hrounds, hnear⟩

end Decimal

end ScriptMachine
