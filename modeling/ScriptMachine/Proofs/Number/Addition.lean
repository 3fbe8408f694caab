import Mathlib
import ScriptMachine.Proofs.Number.Ranks

/-!
# ScriptMachine.Proofs.Number.Addition — a sum lies in the direction of what is added

A sum is rounded. Rounding keeps to the order of the ranks: it does not pass over a number. What is
added to a number can therefore be lost, so that the sum is the number itself, but it cannot take the sum
the other way.

The argument follows the library's own definition of rounding. Both operands are brought to the smaller
exponent, where the sum of mantissas is exact; then bits are shifted out, and what is left is either of
the two numbers around the sum (`Aligned.roundedOff_mem`). `normalize_ranks` turns this into ranks, with
the carry of a mantissa that became too long as a case of its own (`carried`). `rank_add_le` and
`rank_add_lt` are what ranges use. Nothing is said of how close the sum is to the exact one.
-/

namespace ScriptMachine.Number

open Float.Model UnpackedFloat

variable {m M n k j : ℕ} {e E : ℤ} {s : Sign} {f : UnpackedFloat} {x y : Float}

/-! ## Shifting out bits -/

/-- Shifting out `k` bits, one at a time, divides the mantissa by `2 ^ k`. -/
theorem shiftRight_mantissa (em : ExtendedMantissa) (k : ℕ) :
    (em >>> k).mantissa = em.mantissa / 2 ^ k := by
  induction k with
  | zero => simp [HShiftRight.hShiftRight, Nat.repeat]
  | succ k ih =>
    show (em >>> k).mantissa / 2 = _
    rw [ih, Nat.div_div_eq_div_mul, Nat.pow_succ]

/-- A natural number with bits to be shifted out. -/
def extended (M : ℕ) : ExtendedMantissa :=
  ⟨M, false, false⟩

/-- The residual bits tell whether anything but zeros has been shifted out. -/
theorem shiftRight_residue (M k : ℕ) :
    ((extended M >>> k).roundBit || (extended M >>> k).stickyBit) = (M % 2 ^ k != 0) := by
  induction k with
  | zero => simp [extended, HShiftRight.hShiftRight, Nat.repeat, Nat.mod_one]
  | succ k ih =>
    have hround : (extended M >>> (k + 1)).roundBit = (M / 2 ^ k % 2 != 0) := by
      rw [show M / 2 ^ k = (extended M >>> k).mantissa from (shiftRight_mantissa (extended M) k).symm]
      rfl
    have hsticky : (extended M >>> (k + 1)).stickyBit = (M % 2 ^ k != 0) := ih
    rw [hround, hsticky, Nat.mod_pow_succ, Bool.eq_iff_iff]
    have hpos : 0 < 2 ^ k := Nat.two_pow_pos k
    simp only [Bool.or_eq_true, bne_iff_ne, ne_eq, Nat.add_eq_zero_iff, Nat.mul_eq_zero,
      Nat.ne_of_gt hpos, false_or, not_and_or]
    exact or_comm

/-- Nothing is rounded where only zeros have been shifted out. -/
theorem roundedMantissa_of_exact {em : ExtendedMantissa} (h : (em.roundBit || em.stickyBit) = false) :
    em.roundedMantissa = em.mantissa := by
  obtain ⟨m, r, s⟩ := em
  cases r <;> cases s <;> first | rfl | cases h

/-- A rounded mantissa is the one that is left or the next one above it, whatever the residue. -/
theorem roundedMantissa_mem (em : ExtendedMantissa) :
    em.mantissa ≤ em.roundedMantissa ∧ em.roundedMantissa ≤ em.mantissa + 1 := by
  obtain ⟨m, r, s⟩ := em
  cases r <;> cases s <;>
    simp only [ExtendedMantissa.roundedMantissa, ExtendedMantissa.accuracy,
      Accuracy.roundToNearestEven] <;> omega

/-- The natural number that is left of `M` when `k` bits are rounded off. -/
def roundedOff (M k : ℕ) : ℕ :=
  (extended M >>> k).roundedMantissa

/-- Rounding does not pass below a number of the coarser grid. -/
theorem le_roundedOff (h : n * 2 ^ k ≤ M) : n ≤ roundedOff M k := by
  refine Nat.le_trans ?_ (roundedMantissa_mem _).1
  rw [shiftRight_mantissa]
  exact (Nat.le_div_iff_mul_le (Nat.two_pow_pos k)).mpr h

/-- Nor does it pass above one. If the number is `M` itself, then only zeros are shifted out. -/
theorem roundedOff_le (h : M ≤ n * 2 ^ k) : roundedOff M k ≤ n := by
  have hpos : 0 < 2 ^ k := Nat.two_pow_pos k
  have hmantissa : (extended M >>> k).mantissa = M / 2 ^ k := shiftRight_mantissa _ k
  rcases Nat.lt_or_ge (M / 2 ^ k) n with hlt | hge
  · have := (roundedMantissa_mem (extended M >>> k)).2
    unfold roundedOff
    omega
  · -- nothing but zeros is shifted out
    have hM : M = n * 2 ^ k := Nat.le_antisymm h ((Nat.le_div_iff_mul_le hpos).mp hge)
    have hexact : ((extended M >>> k).roundBit || (extended M >>> k).stickyBit) = false := by
      rw [shiftRight_residue, hM]
      simp
    unfold roundedOff
    rw [roundedMantissa_of_exact hexact, hmantissa, hM, Nat.mul_div_cancel _ hpos]

/-! ## Rounding -/

/-- The exponent that is rounded to: fifty-two below that of the first bit, and no less than that of
the subnormal numbers. -/
theorem targetExponent_eq (M : ℕ) (E : ℤ) :
    Format.binary64.targetExponent (totalExponent M E) = max ((M.log2 : ℤ) + E - 52) (-1074) := by
  have hbits : (Format.binary64.mantissaBits : ℤ) = 53 := rfl
  have hleast : Format.binary64.minExponent = -1074 := rfl
  rw [Format.targetExponent, totalExponent, hbits, hleast]
  congr 1
  omega

theorem shiftToTargetExponent_eq (M : ℕ) (E : ℤ) :
    shiftToTargetExponent Format.binary64 M E .exact =
      (extended M >>> (max ((M.log2 : ℤ) + E - 52) (-1074) - E).toNat,
        E + (max ((M.log2 : ℤ) + E - 52) (-1074) - E).toNat) := by
  rw [shiftToTargetExponent, targetExponent_eq]
  rfl

theorem log2_shiftLeft (hM : 0 < M) (k : ℕ) : (M <<< k).log2 = M.log2 + k := by
  have hpos : 0 < 2 ^ k := Nat.two_pow_pos k
  rw [Nat.shiftLeft_eq, Nat.log2_eq_iff (Nat.mul_pos hM hpos).ne', Nat.pow_add, Nat.add_right_comm,
    Nat.pow_add]
  exact ⟨Nat.mul_le_mul_right _ (Nat.log2_self_le hM.ne'),
    Nat.mul_lt_mul_of_pos_right Nat.lt_log2_self hpos⟩

/-- **`Aligned M E k`** — rounding takes `k` bits from `M`, at the exponent `E`. -/
structure Aligned (M : ℕ) (E : ℤ) (k : ℕ) : Prop where
  target : max ((M.log2 : ℤ) + E - 52) (-1074) = E + k
  positive : 0 < M

/-- What is left fits the fifty-three bits of a mantissa, since `k` bits go. -/
theorem Aligned.below (h : Aligned M E k) : M < 2 ^ 53 * 2 ^ k := by
  have := h.target
  refine Nat.lt_of_lt_of_le Nat.lt_log2_self ?_
  rw [← Nat.pow_add]
  exact Nat.pow_le_pow_right (by decide) (by omega)

/-- Unless the number is subnormal, its first bit is kept. -/
theorem Aligned.above (h : Aligned M E k) : E + k = -1074 ∨ 2 ^ 52 * 2 ^ k ≤ M := by
  have := h.target
  by_cases hleast : E + k = -1074
  · exact .inl hleast
  · refine .inr (Nat.le_trans ?_ (Nat.log2_self_le h.positive.ne'))
    rw [← Nat.pow_add]
    exact Nat.pow_le_pow_right (by decide) (by omega)

/-- What is left has no more bits than a mantissa has, and one bit more only if these are zeros. -/
theorem Aligned.roundedOff_mem (h : Aligned M E k) :
    (E + k = -1074 ∨ 2 ^ 52 ≤ roundedOff M k) ∧ roundedOff M k ≤ 2 ^ 53 :=
  ⟨h.above.imp_right le_roundedOff, roundedOff_le h.below.le⟩

theorem Aligned.least (h : Aligned M E k) : -1074 ≤ E + k :=
  h.target ▸ le_max_right _ _

theorem shiftRight_zero (em : ExtendedMantissa) : em >>> 0 = em := rfl

/-- What rounding comes to. A mantissa that has become too long is carried over to the exponent. -/
def carried (s : Sign) (r : ℕ) (e : ℤ) : UnpackedFloat :=
  if h : r = 0 then .zero s
  else if r < 2 ^ 53 then .finite s r e (Nat.pos_of_ne_zero h)
  else .finite s (2 ^ 52) (e + 1) (by decide)

/-- The carry of a mantissa that became too long does not show in the rank: ranks go on counting
over the change of the exponent. Beyond the largest number there is only infinity. -/
theorem carried_rank {r : ℕ} (s : Sign) (hleast : -1074 ≤ e) (hlow : e = -1074 ∨ 2 ^ 52 ≤ r)
    (hhigh : r ≤ 2 ^ 53) : Fits (carried s r e) ∧ carried s r e ≠ .notANumber ∧
      unpackedRank (carried s r e) = s.apply (min (magnitudeRank r e) infiniteRank) := by
  unfold carried
  split
  case isTrue hzero =>
    obtain rfl : e = -1074 := by omega
    subst hzero
    exact ⟨trivial, nofun, by cases s <;> rfl⟩
  case isFalse hne =>
    split
    case isTrue hlt => exact ⟨⟨hleast, hlt, hlow⟩, nofun, rfl⟩
    case isFalse hge =>
      obtain rfl : r = 2 ^ 53 := by omega
      have hcarry : magnitudeRank (2 ^ 52) (e + 1) = magnitudeRank (2 ^ 53) e := by
        unfold magnitudeRank
        push_cast
        ring
      exact ⟨⟨by omega, by decide, .inr (Nat.le_refl _)⟩, nofun,
        congrArg (fun rank => s.apply (min rank infiniteRank)) hcarry⟩

/-- The library's rounding, from a sum that is exact, is the carry of what is left. -/
theorem Aligned.roundWithAccuracy_eq (h : Aligned M E k) (s : Sign) :
    roundWithAccuracy Format.binary64 s M E .exact = carried s (roundedOff M k) (E + k) := by
  have htarget := h.target
  have hleast := h.least
  have hhigh := h.roundedOff_mem.2
  have hfirst : shiftToTargetExponent Format.binary64 M E .exact = (extended M >>> k, E + k) := by
    rw [shiftToTargetExponent_eq, htarget, show (E + (k : ℤ) - E).toNat = k from by omega]
  unfold roundWithAccuracy
  rw [hfirst]
  dsimp only
  rw [show (extended M >>> k).roundedMantissa = roundedOff M k from rfl]
  generalize roundedOff M k = r at hhigh ⊢
  unfold carried
  rcases Nat.lt_or_ge r (2 ^ 53) with hlt | hge
  · have hlog := log2_le hlt
    have hsecond : shiftToTargetExponent Format.binary64 r (E + k) .exact = (extended r, E + k) := by
      rw [shiftToTargetExponent_eq, show (max ((r.log2 : ℤ) + (E + k) - 52) (-1074) -
        (E + k)).toNat = 0 from by omega, shiftRight_zero, Nat.cast_zero, Int.add_zero]
    rw [hsecond]
    simp only [extended, if_pos hlt]
    rfl
  · obtain rfl : r = 2 ^ 53 := Nat.le_antisymm hhigh hge
    have hsecond : shiftToTargetExponent Format.binary64 (2 ^ 53) (E + k) .exact =
        (extended (2 ^ 53) >>> 1, E + k + 1) := by
      rw [shiftToTargetExponent_eq, Nat.log2_two_pow, show (max (((53 : ℕ) : ℤ) + (E + k) - 52)
        (-1074) - (E + k)).toNat = 1 from by omega]
      rfl
    rw [hsecond]
    rfl

/-- **`RanksAs f s M E`** — `f` stands among the canonical numbers where the number with the sign `s`,
the mantissa `M` and the exponent `E` belongs. -/
def RanksAs (f : UnpackedFloat) (s : Sign) (M : ℕ) (E : ℤ) : Prop :=
  ∃ rank : ℤ, 0 ≤ rank ∧ unpackedRank f = s.apply (min rank infiniteRank) ∧
    ∀ m j, Canonical m (E + (j : ℕ)) →
    (m * 2 ^ j ≤ M → magnitudeRank m (E + j) ≤ rank) ∧
    (M ≤ m * 2 ^ j → rank ≤ magnitudeRank m (E + j))

/-- A number of the format keeps its side of the sum when the sum is rounded. -/
theorem Aligned.ranks (h : Aligned M E k) (hc : Canonical m (E + (j : ℕ))) :
    (m * 2 ^ j ≤ M → magnitudeRank m (E + j) ≤ magnitudeRank (roundedOff M k) (E + k)) ∧
      (M ≤ m * 2 ^ j → magnitudeRank (roundedOff M k) (E + k) ≤ magnitudeRank m (E + j)) := by
  obtain ⟨hleast, hbelow, habove⟩ := hc
  have hlow := h.least
  obtain ⟨hnormal, hhigh⟩ := h.roundedOff_mem
  have hM := h.below
  unfold magnitudeRank
  rcases Nat.lt_trichotomy j k with hlt | rfl | hgt
  · -- a number of a smaller exponent is less
    have hnot : ¬ M ≤ m * 2 ^ j := by
      intro hle
      have hpow : 2 ^ 52 * 2 ^ k ≤ m * 2 ^ j := (h.above.resolve_left (by omega)).trans hle
      have hlonger : 2 ^ 53 * 2 ^ j ≤ 2 ^ 52 * 2 ^ k := by
        rw [← Nat.pow_add, ← Nat.pow_add]
        exact Nat.pow_le_pow_right (by decide) (by omega)
      have := Nat.le_of_mul_le_mul_right (hlonger.trans hpow) (Nat.two_pow_pos j)
      omega
    exact ⟨fun _ => by omega, fun hle => absurd hle hnot⟩
  · exact ⟨fun hle => by have := le_roundedOff hle; omega,
      fun hle => by have := roundedOff_le hle; omega⟩
  · -- and one of a greater exponent is greater
    have hfull := habove.resolve_left (by omega)
    have hnot : ¬ m * 2 ^ j ≤ M := by
      intro hle
      have hlonger : 2 ^ 53 * 2 ^ k ≤ 2 ^ 52 * 2 ^ j := by
        rw [← Nat.pow_add, ← Nat.pow_add]
        exact Nat.pow_le_pow_right (by decide) (by omega)
      have hmul : 2 ^ 52 * 2 ^ j ≤ m * 2 ^ j := Nat.mul_le_mul_right _ hfull
      omega
    exact ⟨fun hle => absurd hle hnot, fun _ => by omega⟩

/-- Rounding keeps the order: what is at most, or at least, a number of the format remains so. -/
theorem round_ranks (s : Sign) (hM : 0 < M) (E : ℤ) :
    let f := round Format.binary64 s M E
    Fits f ∧ f ≠ .notANumber ∧ RanksAs f s M E := by
  obtain ⟨d, hd⟩ : ∃ d, d = (E - max ((M.log2 : ℤ) + E - 52) (-1074)).toNat := ⟨_, rfl⟩
  have hround : round Format.binary64 s M E =
      UnpackedFloat.roundWithAccuracy Format.binary64 s (M <<< d) (E - d) .exact := by
    unfold UnpackedFloat.round
    rw [targetExponent_eq, hd]
    rfl
  have hlog := log2_shiftLeft hM d
  have haligned : Aligned (M <<< d) (E - d)
      (max ((M.log2 : ℤ) + E - 52) (-1074) - (E - d)).toNat :=
    ⟨by rw [hlog]; omega, by rw [Nat.shiftLeft_eq]; positivity⟩
  rw [hround, haligned.roundWithAccuracy_eq]
  obtain ⟨hnormal, hhigh⟩ := haligned.roundedOff_mem
  obtain ⟨hfits, hnumber, hrank⟩ := carried_rank s haligned.least hnormal hhigh
  refine ⟨hfits, hnumber, _, magnitudeRank_nonneg haligned.least _, hrank, fun m j hc => ?_⟩
  have hexponent : E + (j : ℤ) = E - d + ((j + d : ℕ) : ℤ) := by omega
  rw [hexponent] at hc ⊢
  have hranks := haligned.ranks hc
  have hpos : 0 < 2 ^ d := Nat.two_pow_pos d
  have hscale : m * 2 ^ (j + d) = (m * 2 ^ j) * 2 ^ d := by rw [Nat.pow_add, Nat.mul_assoc]
  have hshift : M <<< d = M * 2 ^ d := Nat.shiftLeft_eq ..
  refine ⟨fun hle => hranks.1 ?_, fun hle => hranks.2 ?_⟩
  · rw [hscale, hshift]
    exact Nat.mul_le_mul_right _ hle
  · rw [hscale, hshift]
    exact Nat.mul_le_mul_right _ hle

/-! ## Sums -/

/-- **`normalize_ranks`** — rounding keeps to the order: it does not pass over a number that is written
canonically. -/
theorem normalize_ranks (Z : ℤ) (E : ℤ) (s : Sign) (hm : 0 < m) (hc : Canonical m (E + (j : ℕ))) :
    let f := UnpackedFloat.normalize Format.binary64 Z E .positive
    Fits f ∧
      (s.apply (m * 2 ^ j : ℕ) ≤ Z → unpackedRank (.finite s m (E + j) hm) ≤ unpackedRank f) ∧
      (Z ≤ s.apply (m * 2 ^ j : ℕ) → unpackedRank f ≤ unpackedRank (.finite s m (E + j) hm)) := by
  have hpos := magnitudeRank_nonneg hc.least m
  have hinfinite : 0 ≤ infiniteRank := by decide
  have hvalue : 0 < m * 2 ^ j := Nat.mul_pos hm (Nat.two_pow_pos j)
  have hself : unpackedRank (.finite s m (E + j) hm) =
      s.apply (min (magnitudeRank m (E + j)) infiniteRank) := rfl
  unfold UnpackedFloat.normalize
  rw [hself]
  rcases Int.lt_trichotomy Z 0 with hlt | rfl | hgt
  · rw [Int.compare_eq_lt.mpr hlt]
    dsimp only
    obtain ⟨hfits, -, rank, hrank0, hr, hranks⟩ :=
      round_ranks .negative (M := (-Z).toNat) (by omega) E
    obtain ⟨hge, hle⟩ := hranks m j hc
    refine ⟨hfits, ?_, ?_⟩ <;> rw [hr] <;> cases s <;> simp only [Sign.apply] <;> omega
  · rw [Int.compare_eq_eq.mpr rfl]
    refine ⟨trivial, ?_, ?_⟩ <;> cases s <;> simp only [Sign.apply, unpackedRank] <;> omega
  · rw [Int.compare_eq_gt.mpr hgt]
    dsimp only
    obtain ⟨hfits, -, rank, hrank0, hr, hranks⟩ :=
      round_ranks .positive (M := Z.toNat) (by omega) E
    obtain ⟨hge, hle⟩ := hranks m j hc
    refine ⟨hfits, ?_, ?_⟩ <;> rw [hr] <;> cases s <;> simp only [Sign.apply] <;> omega

variable {s₁ s₂ : Sign} {m₁ m₂ : ℕ} {e₁ e₂ : ℤ} {hm₁ : 0 < m₁} {hm₂ : 0 < m₂}

/-- Both numbers are taken to the smaller exponent, and what is added comes on top of the other. -/
theorem finite_add_ranks (hf : Canonical m₁ e₁) :
    let f := UnpackedFloat.add Format.binary64 (.finite s₁ m₁ e₁ hm₁) (.finite s₂ m₂ e₂ hm₂)
    Fits f ∧ s₂.apply (unpackedRank (.finite s₁ m₁ e₁ hm₁)) ≤ s₂.apply (unpackedRank f) := by
  obtain ⟨j, hj⟩ : ∃ j : ℕ, e₁ = min e₁ e₂ + j := ⟨(e₁ - min e₁ e₂).toNat, by omega⟩
  have hshift : (e₁ - min e₁ e₂).toNat = j := by omega
  have hc : Canonical m₁ (min e₁ e₂ + j) := hj ▸ hf
  obtain ⟨b, hb⟩ : ∃ b, b = m₂ <<< (e₂ - min e₁ e₂).toNat := ⟨_, rfl⟩
  have hpos : 0 < b := by
    rw [hb, Nat.shiftLeft_eq]
    positivity
  have hsum : UnpackedFloat.add Format.binary64 (.finite s₁ m₁ e₁ hm₁) (.finite s₂ m₂ e₂ hm₂) =
      UnpackedFloat.normalize Format.binary64 (s₁.apply (m₁ * 2 ^ j : ℕ) + s₂.apply b)
        (min e₁ e₂) .positive := by
    rw [hb, ← hshift, ← Nat.shiftLeft_eq]
    rfl
  have hself : unpackedRank (.finite s₁ m₁ e₁ hm₁) =
      unpackedRank (.finite s₁ m₁ (min e₁ e₂ + j) hm₁) := by
    unfold unpackedRank
    rw [← hj]
  obtain ⟨hfits, hle, hge⟩ :=
    normalize_ranks (s₁.apply (m₁ * 2 ^ j : ℕ) + s₂.apply b) _ s₁ hm₁ hc
  rw [hsum, hself]
  refine ⟨hfits, ?_⟩
  cases s₂ with
  | positive => exact hle (by simp only [Sign.apply]; omega)
  | negative => exact Int.neg_le_neg (hge (by simp only [Sign.apply]; omega))

/-- **`add_ranks`** — what is added to a number takes it in its own direction, or leaves it where it
is. -/
theorem add_ranks {g : UnpackedFloat} (hf : Fits f) (hg : Fits g) (hs : IsTowards s g)
    (hsum : UnpackedFloat.add Format.binary64 f g ≠ .notANumber) :
    Fits (UnpackedFloat.add Format.binary64 f g) ∧
      s.apply (unpackedRank f) ≤ s.apply (unpackedRank (UnpackedFloat.add Format.binary64 f g)) := by
  cases f with
  | notANumber => exact absurd rfl hsum
  | infinity s₁ =>
    cases g with
    | notANumber | zero => exact hs.elim
    | finite => exact ⟨trivial, Int.le_refl _⟩
    | infinity s₂ =>
      cases s₁ <;> cases s₂ <;> first | exact absurd rfl hsum | exact ⟨trivial, Int.le_refl _⟩
  | zero s₁ =>
    cases g with
    | notANumber | zero => exact hs.elim
    | infinity s₂ | finite s₂ =>
      have hzero : s.apply (unpackedRank (.zero s₁)) = 0 := by cases s <;> rfl
      exact ⟨hg, hzero.trans_le (unpackedRank_pos hg hs).le⟩
  | finite s₁ m₁ e₁ hm₁ =>
    cases g with
    | notANumber | zero => exact hs.elim
    | infinity s₂ =>
      obtain rfl : s₂ = s := hs
      have hle := unpackedRank_le hf s₂
      refine ⟨trivial, hle.trans_eq ?_⟩
      cases s₂ <;> rfl
    | finite s₂ m₂ e₂ hm₂ =>
      obtain rfl : s₂ = s := hs
      exact finite_add_ranks hf

/-! ## Adding -/

theorem add_eq (x y : Float) : x + y =
    ⟨Float.Model.pack (UnpackedFloat.add Format.binary64 x.toModel.unpack y.toModel.unpack)⟩ := rfl

/-- A sum that is a number has operands that are numbers. -/
theorem add_ne_nan (hsum : x + y ≠ Float.nan) : x.toModel.unpack ≠ .notANumber ∧
    UnpackedFloat.add Format.binary64 x.toModel.unpack y.toModel.unpack ≠ .notANumber := by
  have hadd : UnpackedFloat.add Format.binary64 x.toModel.unpack y.toModel.unpack ≠ .notANumber := by
    intro h
    rw [add_eq, h] at hsum
    exact hsum rfl
  refine ⟨fun h => ?_, hadd⟩
  rw [h] at hadd
  exact hadd rfl

/-- **`rank_add_le`** — what is added to a number takes it in its own direction, or leaves it where it
is. -/
theorem rank_add_le (hy : IsTowards s y.toModel.unpack) (hsum : x + y ≠ Float.nan) :
    s.apply (rank x) ≤ s.apply (rank (x + y)) := by
  obtain ⟨hx, hadd⟩ := add_ne_nan hsum
  obtain ⟨hrank, hfits⟩ := rank_eq hx
  obtain ⟨hfits', hle⟩ := add_ranks hfits hy.fits hy hadd
  rwa [add_eq, rank_pack hfits' hadd, hrank]

/-- Adding to a zero gives what is added. -/
theorem zero_add_unpacked (hs : IsTowards s f) :
    UnpackedFloat.add Format.binary64 (.zero s₁) f = f := by
  cases f with
  | notANumber | zero => exact hs.elim
  | infinity | finite => rfl

theorem rank_add_ne_zero (hx : x.toModel.unpack = .zero s₁) (hy : IsTowards s y.toModel.unpack) :
    rank (x + y) ≠ 0 := by
  have hpos := unpackedRank_pos hy.fits hy
  rw [add_eq, hx, zero_add_unpacked hy, rank_pack hy.fits hy.ne_notANumber]
  intro hzero
  rw [hzero] at hpos
  cases s <;> exact absurd hpos (by decide)

/-- A sum that stands where the first number stands is that number. -/
theorem add_eq_self (hy : IsTowards s y.toModel.unpack) (hsum : x + y ≠ Float.nan)
    (h : rank (x + y) = rank x) : x + y = x := by
  by_cases hne : rank x = 0
  · obtain ⟨s₁, hx⟩ := unpack_eq_zero_of_rank (add_ne_nan hsum).1 hne
    exact absurd (h.trans hne) (rank_add_ne_zero hx hy)
  · exact rank_inj h (h ▸ hne)

/-- **`rank_add_lt`** — a number that is not lost moves the sum on. -/
theorem rank_add_lt (hy : IsTowards s y.toModel.unpack) (hsum : x + y ≠ Float.nan)
    (hmoves : x + y ≠ x) : s.apply (rank x) < s.apply (rank (x + y)) := by
  refine lt_of_le_of_ne (rank_add_le hy hsum) fun h => hmoves (add_eq_self hy hsum ?_)
  cases s <;> simp only [Sign.apply] at h <;> omega

end ScriptMachine.Number
