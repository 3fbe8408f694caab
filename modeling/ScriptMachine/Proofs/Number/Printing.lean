import Mathlib
import ScriptMachine.Proofs.Number.Encoding
import ScriptMachine.Proofs.Number.Rounding

/-!
# ScriptMachine.Proofs.Number.Printing — how a number is shown

A numeral is what can be written down: a sign, a whole part, the digits of a fraction and perhaps an
exponent. A finite number that is not zero is shown as one whose value is that of the number, rounded to
fifteen significant digits; it has no needless zeros, and an exponent just when the rounded value is far
from one.

The same text comes out of another procedure, which rounds twice: to scientific form, to learn the
exponent, and then to so many decimals as the exponent leaves. The two roundings agree, also when the
first carries into a new digit.

`text_shows` is the result: `Shows` says what a correct text is without reference to any procedure, and
the text that is computed is the numeral of a decimal which is shown as it should be (`Full.shows`).
`byFormats_eq` is the comparison with the procedure that rounds twice, and `text_shows_carry` is a
number where the first rounding carries. Infinite numbers, zeros and what is not a number are shown by
words and are not considered; neither is reading a text back, and fifteen digits do not determine a
number.
-/

namespace ScriptMachine

variable {n k : ℕ} {l : List (Fin 10)} {d : Decimal} {num den : ℕ} {negative : Bool}

/-! ## Numerals -/

/-- A written number. -/
structure Numeral where
  negative : Bool
  whole : ℕ
  fraction : List (Fin 10)
  exponent : Option ℤ

namespace Numeral

/-- What the digits after the point are worth. -/
def fractionValue : List (Fin 10) → ℚ
  | [] => 0
  | digit :: rest => (digit.val + fractionValue rest) / 10

/-- The value of a numeral, without its sign. -/
def magnitude (a : Numeral) : ℚ :=
  (a.whole + fractionValue a.fraction) * 10 ^ a.exponent.getD 0

def digitChar (digit : Fin 10) : Char :=
  digit.val.digitChar

/-- The point is written only before a fraction. -/
def fractionChars : List (Fin 10) → List Char
  | [] => []
  | fraction => '.' :: fraction.map digitChar

/-- A sign and at least two digits. -/
def exponentChars (x : ℤ) : List Char :=
  (if x < 0 then '-' else '+') :: (Nat.toDigits 10 x.natAbs).leftpad 2 '0'

/-- **`a.chars`** — how a numeral is written. -/
def chars (a : Numeral) : List Char :=
  (if a.negative then ['-'] else []) ++ Nat.toDigits 10 a.whole ++ fractionChars a.fraction ++
    match a.exponent with
    | none => []
    | some x => 'e' :: exponentChars x

/-- **`a.Shows negative q`** — the numeral is how `q` is shown with fifteen significant digits, behind
the sign. -/
structure Shows (a : Numeral) (negative : Bool) (q : ℚ) : Prop where
  sign : a.negative = negative
  rounded : RoundsTo 15 q a.magnitude
  /-- no zero ends the fraction -/
  trimmed : a.fraction.getLast? ≠ some 0
  /-- the exponent is that of the rounded value, and is written when it is small or large -/
  exponent : a.exponent =
    if Int.log 10 a.magnitude < -4 ∨ 15 ≤ Int.log 10 a.magnitude then some (Int.log 10 a.magnitude)
    else none
  /-- before an exponent there is one digit, not a zero, before the point -/
  leading : a.exponent.isSome → 0 < a.whole ∧ a.whole < 10

/-! ## Decimal places -/

/-- The last `k` decimal digits of a natural number. -/
def places : ℕ → ℕ → List (Fin 10)
  | 0, _ => []
  | k + 1, n => places k (n / 10) ++ [Fin.ofNat 10 n]

/-- A fraction without the zeros at its end. -/
def trim (l : List (Fin 10)) : List (Fin 10) :=
  l.rdropWhile (· == 0)

/-- The digits of a natural number, the last `k` of them behind the point. -/
def ofPlaces (negative : Bool) (n k : ℕ) (exponent : Option ℤ) : Numeral :=
  ⟨negative, n / 10 ^ k, trim (places k n), exponent⟩

/-- The last `j + k` places are the last `j` of what stands before the last `k`, and then those. -/
theorem places_add (j k n : ℕ) : places (j + k) n = places j (n / 10 ^ k) ++ places k n := by
  induction k generalizing n with
  | zero => simp [places]
  | succ k ih =>
    rw [← Nat.add_assoc, places, ih, places, Nat.div_div_eq_div_mul, Nat.pow_succ',
      List.append_assoc]

theorem places_of_zero (k : ℕ) : places k 0 = List.replicate k 0 := by
  induction k with
  | zero => rfl
  | succ k ih =>
    rw [places, Nat.zero_div, ih, List.replicate_succ']
    rfl

/-- The digits of a natural number are those of its whole part and then the places. -/
theorem toDigits_eq (h : 10 ^ k ≤ n) :
    Nat.toDigits 10 n = Nat.toDigits 10 (n / 10 ^ k) ++ (places k n).map digitChar := by
  induction k generalizing n with
  | zero => simp [places]
  | succ k ih =>
    rw [Nat.pow_succ'] at h
    have hpos : 0 < 10 ^ k := Nat.pow_pos (by decide)
    have hten : 10 ≤ n := by nlinarith
    rw [Nat.toDigits_of_base_le (by decide) hten,
      ih ((Nat.le_div_iff_mul_le (by decide)).mpr (by rwa [Nat.mul_comm])), Nat.div_div_eq_div_mul,
      ← Nat.pow_succ', places, List.map_append, List.append_assoc]
    rfl

/-- A place further to the right counts a tenth of the one before it. -/
theorem fractionValue_concat (l : List (Fin 10)) (digit : Fin 10) :
    fractionValue (l ++ [digit]) = fractionValue l + digit.val / 10 ^ (l.length + 1) := by
  induction l with
  | nil => simp [fractionValue]
  | cons first l ih =>
    rw [List.cons_append, fractionValue, ih, fractionValue, List.length_cons,
      pow_succ' _ (l.length + 1)]
    ring

theorem length_places (k n : ℕ) : (places k n).length = k := by
  induction k generalizing n with
  | zero => rfl
  | succ k ih => rw [places, List.length_append, ih, List.length_singleton]

/-- **`fractionValue_places`** — the point divides by a power of ten. -/
theorem fractionValue_places (k n : ℕ) :
    ((n / 10 ^ k : ℕ) : ℚ) + fractionValue (places k n) = n / 10 ^ k := by
  induction k generalizing n with
  | zero => simp [places, fractionValue]
  | succ k ih =>
    have hsplit : (n : ℚ) = ((10 * (n / 10) + n % 10 : ℕ) : ℚ) := by rw [Nat.div_add_mod]
    rw [places, fractionValue_concat, length_places, ← add_assoc, Nat.pow_succ',
      ← Nat.div_div_eq_div_mul, ih, hsplit, pow_succ']
    show _ + ((n % 10 : ℕ) : ℚ) / _ = _
    push_cast
    field_simp

/-- The zeros at the end of a fraction do not count. -/
theorem fractionValue_trim (l : List (Fin 10)) : fractionValue (trim l) = fractionValue l := by
  induction l using List.reverseRecOn with
  | nil => rfl
  | append_singleton l digit ih =>
    unfold trim at ih ⊢
    rw [List.rdropWhile_concat]
    split
    case isTrue h =>
      obtain rfl : digit = 0 := by simpa using h
      rw [ih, fractionValue_concat]
      simp
    case isFalse => rfl

/-- None of them is left. -/
theorem getLast?_trim (l : List (Fin 10)) : (trim l).getLast? ≠ some 0 := by
  intro h
  have hne : trim l ≠ [] := by
    rintro hnil
    rw [hnil] at h
    cases h
  rw [List.getLast?_eq_some_getLast hne] at h
  exact List.rdropWhile_last_not _ l hne (beq_iff_eq.mpr (Option.some.inj h))

theorem trimmed_ofPlaces (negative : Bool) (n k : ℕ) (exponent : Option ℤ) :
    (ofPlaces negative n k exponent).fraction.getLast? ≠ some 0 :=
  getLast?_trim _

/-- **`magnitude_ofPlaces`** — zeros that are left out are worth nothing. -/
theorem magnitude_ofPlaces (negative : Bool) (n k : ℕ) (exponent : Option ℤ) :
    (ofPlaces negative n k exponent).magnitude = n / 10 ^ k * 10 ^ exponent.getD 0 := by
  unfold magnitude ofPlaces
  rw [fractionValue_trim, fractionValue_places]

/-! ## Writing fractions -/

theorem digitChar_beq_zero (digit : Fin 10) : (digitChar digit == '0') = (digit == 0) := by
  revert digit
  decide

theorem digitChar_ne_point (digit : Fin 10) : digitChar digit ≠ '.' := by
  revert digit
  decide

/-- Taking the zeros from the end of a text takes them from the places it shows. -/
theorem rdropWhile_digits (l : List (Fin 10)) :
    (l.map digitChar).rdropWhile (· == '0') = (trim l).map digitChar := by
  have hcomp : ((· == '0') ∘ digitChar) = (· == (0 : Fin 10)) := funext digitChar_beq_zero
  unfold trim List.rdropWhile
  rw [← List.map_reverse, List.dropWhile_map, hcomp, List.map_reverse]

theorem withFraction_eq (whole : List Char) (l : List (Fin 10)) :
    Decimal.withFraction whole (l.map digitChar) = whole ++ fractionChars (trim l) := by
  have hdrop : Decimal.withoutTrailingZeros (l.map digitChar) = (trim l).map digitChar :=
    rdropWhile_digits l
  unfold Decimal.withFraction
  rw [hdrop]
  cases trim l <;> simp [fractionChars]

/-- An exponent has a sign and two digits at least. -/
theorem exponentText_eq (x : ℤ) : Decimal.exponentText x = exponentChars x := by
  have hne := Nat.toDigits_ne_nil (b := 10) (n := x.natAbs)
  refine congrArg (List.cons _) ?_
  unfold Decimal.digitsOf
  match h : Nat.toDigits 10 x.natAbs with
  | [] => exact absurd h hne
  | [_] => rfl
  | _ :: _ :: _ => simp [List.leftpad]

/-- A number between two powers of ten has as many digits as the lower one. -/
theorem length_toDigits {j : ℕ} (hlow : 10 ^ j ≤ n) (hhigh : n < 10 ^ (j + 1)) :
    (Nat.toDigits 10 n).length = j + 1 := by
  refine le_antisymm ((Nat.length_toDigits_le_iff (by decide) (by omega)).mpr hhigh) ?_
  by_contra hshort
  rcases Nat.eq_zero_or_pos j with rfl | hj
  · exact hshort Nat.length_toDigits_pos
  · have := (Nat.length_toDigits_le_iff (b := 10) (n := n) (by decide) hj).mp (by omega)
    omega

/-- A numeral is written with its digits around the point, the zeros at the end left out. -/
theorem chars_ofPlaces (negative : Bool) (n k : ℕ) (exponent : Option ℤ) :
    (ofPlaces negative n k exponent).chars = (if negative then ['-'] else []) ++
      Decimal.withFraction (Nat.toDigits 10 (n / 10 ^ k)) ((places k n).map digitChar) ++
      match exponent with
      | none => []
      | some x => 'e' :: exponentChars x := by
  rw [withFraction_eq, ← List.append_assoc]
  rfl

end Numeral

/-! ## The text of a decimal -/

namespace Decimal

open Numeral

/-- Is a decimal shown with its exponent? -/
def IsFar (x : ℤ) : Prop :=
  x < -4 ∨ 15 ≤ x

instance (x : ℤ) : Decidable (IsFar x) :=
  inferInstanceAs (Decidable (_ ∨ _))

/-- **`d.numeral negative`** — how a decimal is shown. -/
def numeral (negative : Bool) (d : Decimal) : Numeral :=
  if IsFar d.exponent then ofPlaces negative d.digits 14 (some d.exponent)
  else ofPlaces negative d.digits (14 - d.exponent).toNat none

/-- The digits of a decimal with the point behind some of them. -/
theorem Full.split (hd : d.Full) (hk : k ≤ 14) :
    (digitsOf d.digits).take (15 - k) = Nat.toDigits 10 (d.digits / 10 ^ k) ∧
      (digitsOf d.digits).drop (15 - k) = (places k d.digits).map digitChar := by
  have hle : 10 ^ k ≤ d.digits :=
    Nat.le_trans (Nat.pow_le_pow_right (by decide) hk) hd.1
  have hlength : (Nat.toDigits 10 (d.digits / 10 ^ k)).length = 15 - k := by
    have hpos : 0 < 10 ^ k := Nat.pow_pos (by decide)
    rw [show 15 - k = 14 - k + 1 from by omega]
    refine length_toDigits ((Nat.le_div_iff_mul_le hpos).mpr ?_) ((Nat.div_lt_iff_lt_mul hpos).mpr ?_)
    · rw [← Nat.pow_add, Nat.sub_add_cancel hk]
      exact hd.1
    · rw [← Nat.pow_add, show 14 - k + 1 + k = 15 from by omega]
      exact hd.2
  rw [digitsOf, toDigits_eq hle, ← hlength]
  exact ⟨List.take_left, List.drop_left⟩

/-- The first digit is not a zero. -/
theorem Full.first (hd : d.Full) : 0 < d.digits / 10 ^ 14 ∧ d.digits / 10 ^ 14 < 10 := by
  obtain ⟨hlow, hhigh⟩ := hd
  omega

/-- All digits of a decimal are places. -/
theorem Full.places (hd : d.Full) : digitsOf d.digits = (places 15 d.digits).map digitChar := by
  obtain ⟨n, hn⟩ : ∃ n, n = d.digits / 10 ^ 14 := ⟨_, rfl⟩
  have hfirst : n < 10 := hn ▸ hd.first.2
  have hdigit : Nat.toDigits 10 n = (Numeral.places 1 n).map digitChar := by
    rw [Nat.toDigits_of_lt_base hfirst]
    exact congrArg (fun k => [Nat.digitChar k]) (Nat.mod_eq_of_lt hfirst).symm
  rw [digitsOf, toDigits_eq hd.1, places_add 1 14, ← hn, hdigit, List.map_append]

/-- A decimal whose exponent is small or large has one digit before the point. -/
theorem Full.text_far (hd : d.Full) (hfar : IsFar d.exponent) :
    d.text = (ofPlaces false d.digits 14 (some d.exponent)).chars := by
  obtain ⟨hwhole, hfraction⟩ := hd.split (k := 14) (Nat.le_refl _)
  have hfar' : d.exponent < -4 ∨ (precision : ℤ) ≤ d.exponent := hfar
  rw [chars_ofPlaces, ← hwhole, ← hfraction, text, if_pos hfar', exponentText_eq]
  rfl

/-- A decimal below one has zeros behind the point. -/
theorem Full.text_below (hd : d.Full) (hnear : ¬ IsFar d.exponent) (hx : d.exponent < 0) :
    d.text = (ofPlaces false d.digits (14 - d.exponent).toNat none).chars := by
  have hnear' : ¬ (d.exponent < -4 ∨ (precision : ℤ) ≤ d.exponent) := hnear
  obtain ⟨z, hz⟩ : ∃ z, z = (-d.exponent).toNat - 1 := ⟨_, rfl⟩
  have hwhole : d.digits / 10 ^ 15 = 0 := Nat.div_eq_of_lt hd.2
  have hplaces : (Numeral.places (z + 15) d.digits).map digitChar =
      List.replicate z '0' ++ digitsOf d.digits := by
    rw [places_add, hwhole, places_of_zero, List.map_append, List.map_replicate, hd.places]
    rfl
  rw [chars_ofPlaces, show (14 - d.exponent).toNat = z + 15 from by omega, hplaces, Nat.pow_add',
    ← Nat.div_div_eq_div_mul, hwhole, Nat.zero_div, text, if_neg hnear', if_pos hx, ← hz]
  simp

/-- A decimal that is not below one has so many digits before the point as its exponent says. -/
theorem Full.text_above (hd : d.Full) (hnear : ¬ IsFar d.exponent) (hx : ¬ d.exponent < 0) :
    d.text = (ofPlaces false d.digits (14 - d.exponent).toNat none).chars := by
  have hnear' : ¬ (d.exponent < -4 ∨ (precision : ℤ) ≤ d.exponent) := hnear
  have hk : (14 - d.exponent).toNat ≤ 14 := by omega
  obtain ⟨hwhole, hfraction⟩ := hd.split hk
  have hbefore : 15 - (14 - d.exponent).toNat = d.exponent.toNat + 1 := by
    unfold IsFar at hnear
    omega
  rw [chars_ofPlaces, ← hwhole, ← hfraction, hbefore, text, if_neg hnear', if_neg hx]
  simp

/-- **`text_eq`** — the text of a decimal is that of its numeral. -/
theorem Full.text_eq (hd : d.Full) : d.text = (d.numeral false).chars := by
  unfold numeral
  split
  case isTrue hfar => exact hd.text_far hfar
  case isFalse hnear =>
    by_cases hx : d.exponent < 0
    · exact hd.text_below hnear hx
    · exact hd.text_above hnear hx

theorem chars_numeral (negative : Bool) (d : Decimal) : (d.numeral negative).chars =
    (if negative then ['-'] else []) ++ (d.numeral false).chars := by
  unfold numeral
  split <;> simp [chars_ofPlaces]

/-- Where the point stands does not change the value. -/
theorem magnitude_numeral (negative : Bool) (d : Decimal) :
    (d.numeral negative).magnitude = d.value := by
  unfold numeral value
  split
  case isTrue =>
    rw [magnitude_ofPlaces, div_mul_eq_mul_div, mul_div_assoc]
    congr 1
    rw [div_eq_iff (by positivity), ← zpow_natCast, ← zpow_add₀ (by norm_num)]
    congr 1
    simp only [precision, Option.getD_some]
    omega
  case isFalse hnear =>
    rw [magnitude_ofPlaces, Option.getD_none, zpow_zero, mul_one, div_eq_mul_inv, ← zpow_natCast,
      ← zpow_neg]
    congr 2
    unfold IsFar at hnear
    simp only [precision]
    omega

/-- **`shows`** — a decimal that a ratio is rounded to is shown as it should be. -/
theorem Full.shows (hd : d.Full) {q : ℚ} (hq : RoundsTo 15 q d.value) (negative : Bool) :
    (d.numeral negative).Shows negative q where
  sign := by
    unfold numeral
    split <;> rfl
  rounded := by rwa [magnitude_numeral]
  trimmed := by
    unfold numeral
    split <;> exact trimmed_ofPlaces _ _ _ _
  exponent := by
    rw [magnitude_numeral, hd.log_value]
    show _ = if IsFar d.exponent then some d.exponent else none
    unfold numeral
    split <;> rfl
  leading := by
    unfold numeral
    split
    · exact fun _ => hd.first
    · nofun

/-! ## By two formats -/

/-- A fraction without the zeros at its end, and without the point if nothing is left behind it. -/
def trimFraction (cs : List Char) : List Char :=
  if '.' ∈ cs then (cs.rdropWhile (· == '0')).rdropWhile (· == '.') else cs

/-- A ratio with so many decimals, correctly rounded. -/
def fixed (negative : Bool) (num den decimals : ℕ) : List Char :=
  let n := Binary64.roundedQuotient (num * 10 ^ decimals) den
  (if negative then ['-'] else []) ++ Nat.toDigits 10 (n / 10 ^ decimals) ++
    if decimals = 0 then [] else '.' :: (places decimals n).map digitChar

/-- A ratio with one digit before the point and `precision - 1` behind it, correctly rounded, and the
power of ten that it is to be multiplied by. -/
def scientific (negative : Bool) (num den : ℕ) : List Char × ℤ :=
  let d := ofRatio num den
  ((if negative then ['-'] else []) ++ Nat.toDigits 10 (d.digits / 10 ^ (precision - 1)) ++
    '.' :: (places (precision - 1) d.digits).map digitChar, d.exponent)

/-- **`byFormats`** — the text of a ratio. Its scientific form tells the exponent; unless that is small
or large, the ratio is rounded again, to the decimals that are left for it. -/
def byFormats (negative : Bool) (num den : ℕ) : List Char :=
  let (mantissa, x) := scientific negative num den
  if x < -4 ∨ (precision : ℤ) ≤ x then
    trimFraction mantissa ++ 'e' :: (if x < 0 then '-' else '+') ::
      (Nat.toDigits 10 x.natAbs).leftpad 2 '0'
  else trimFraction (fixed negative num den (max (precision - 1 - x) 0).toNat)

/-- The text is trimmed up to its only point, so that the zeros of the whole part stay. -/
theorem trimFraction_point {whole : List Char} (hwhole : '.' ∉ whole) (l : List (Fin 10)) :
    trimFraction (whole ++ '.' :: l.map digitChar) = whole ++ fractionChars (trim l) := by
  have hzeros : (whole ++ '.' :: l.map digitChar).rdropWhile (· == '0') =
      whole ++ '.' :: (trim l).map digitChar := by
    induction l using List.reverseRecOn with
    | nil => exact List.rdropWhile_concat_neg _ _ _ (by decide)
    | append_singleton l digit ih =>
      have hsplit : whole ++ '.' :: (l ++ [digit]).map digitChar =
          (whole ++ '.' :: l.map digitChar) ++ [digitChar digit] := by simp
      rw [hsplit, List.rdropWhile_concat, digitChar_beq_zero, trim, List.rdropWhile_concat]
      split
      · exact ih
      · exact hsplit.symm
  have hpoint : '.' ∈ whole ++ '.' :: l.map digitChar := by simp
  rw [trimFraction, if_pos hpoint, hzeros]
  rcases List.eq_nil_or_concat (trim l) with hnil | ⟨front, digit, hlast⟩
  · rw [hnil, List.map_nil, List.rdropWhile_concat_pos _ _ _ (by decide), fractionChars,
      List.append_nil, List.rdropWhile_eq_self_iff]
    intro hne hdot
    exact hwhole (beq_iff_eq.mp hdot ▸ List.getLast_mem hne)
  · have hsplit : whole ++ '.' :: (trim l).map digitChar =
        (whole ++ '.' :: front.map digitChar) ++ [digitChar digit] := by
      simp [hlast]
    have hfraction : fractionChars (trim l) = '.' :: (trim l).map digitChar := by
      cases htrim : trim l with
      | nil => simp [htrim] at hlast
      | cons => rfl
    rw [hsplit, List.rdropWhile_concat_neg _ _ _ (by simpa using digitChar_ne_point digit), ← hsplit,
      hfraction]

/-- The point that ends the trimming is the one that the format puts there: neither the sign nor the
whole part has one. -/
theorem point_notMem (negative : Bool) (n : ℕ) :
    '.' ∉ (if negative then ['-'] else []) ++ Nat.toDigits 10 n := by
  rw [List.mem_append, not_or]
  refine ⟨by cases negative <;> decide, fun h => ?_⟩
  have := Nat.isDigit_of_mem_toDigits (by decide) (by decide) h
  revert this
  decide

/-- Rounding to decimals comes to the digits that the exponent leaves for them. -/
theorem roundedQuotient_decimals (hnum : 0 < num) (hden : 0 < den)
    (hnear : ¬ IsFar (ofRatio num den).exponent) :
    Binary64.roundedQuotient (num * 10 ^ (14 - (ofRatio num den).exponent).toNat) den =
      (ofRatio num den).digits := by
  obtain ⟨-, -, hdigits⟩ := ofRatio_spec hnum hden
  refine Nearest.unique ?_ hdigits
  convert nearest_roundedQuotient (num * 10 ^ (14 - (ofRatio num den).exponent).toNat) hden using 1
  obtain ⟨k, hk⟩ : ∃ k : ℕ, 14 - (ofRatio num den).exponent = k := by
    unfold IsFar at hnear
    exact ⟨_, (Int.toNat_of_nonneg (by omega)).symm⟩
  rw [hk, Int.toNat_natCast, zpow_natCast]
  push_cast
  ring

/-- **`byFormats_eq`** — rounding twice comes to the same as rounding once. -/
theorem byFormats_eq (negative : Bool) (hnum : 0 < num) (hden : 0 < den) :
    byFormats negative num den = ((ofRatio num den).numeral negative).chars := by
  unfold byFormats scientific numeral
  dsimp only
  split
  case isTrue hfar =>
    have hfar' : IsFar (ofRatio num den).exponent := hfar
    have hplaces : precision - 1 = 14 := rfl
    rw [if_pos hfar', chars_ofPlaces, withFraction_eq, hplaces, trimFraction_point (point_notMem _ _)]
    simp only [List.append_assoc, exponentChars]
  case isFalse hnear =>
    have hnear' : ¬ IsFar (ofRatio num den).exponent := hnear
    have hdecimals : (max ((precision : ℤ) - 1 - (ofRatio num den).exponent) 0).toNat =
        (14 - (ofRatio num den).exponent).toNat := by
      simp only [precision]
      omega
    rw [if_neg hnear', chars_ofPlaces, withFraction_eq, hdecimals, fixed,
      roundedQuotient_decimals hnum hden hnear']
    dsimp only
    by_cases hnone : (14 - (ofRatio num den).exponent).toNat = 0
    · rw [if_pos hnone, trimFraction, List.append_nil, if_neg (point_notMem _ _), hnone]
      simp [places, trim, fractionChars]
    · rw [if_neg hnone, trimFraction_point (point_notMem _ _), List.append_nil, List.append_assoc]

end Decimal

/-! ## The text of a number -/

namespace Binary64

/-- **`ratio m e`** — the magnitude of a finite number, as a ratio of natural numbers. -/
def ratio (m : ℕ) (e : ℤ) : ℕ × ℕ :=
  if 0 ≤ e then (m <<< e.toNat, 1) else (m, 1 <<< (-e).toNat)

theorem ratio_pos {m : ℕ} (hm : m ≠ 0) (e : ℤ) : 0 < (ratio m e).1 ∧ 0 < (ratio m e).2 := by
  unfold ratio
  split <;> simp only [Nat.shiftLeft_eq] <;> constructor <;> positivity

/-- A finite number as a ratio of natural numbers, which is exact. -/
theorem ratio_eq (m : ℕ) (e : ℤ) : ((ratio m e).1 : ℚ) / (ratio m e).2 = m * 2 ^ e := by
  unfold ratio
  split
  case isTrue h =>
    obtain ⟨k, rfl⟩ := Int.eq_ofNat_of_zero_le h
    simp [Nat.shiftLeft_eq]
  case isFalse h =>
    obtain ⟨k, rfl⟩ : ∃ k : ℕ, e = -k := ⟨(-e).toNat, by omega⟩
    simp [Nat.shiftLeft_eq, div_eq_mul_inv]

/-- **`text_eq`** — a finite number that is not zero is shown as the numeral of its decimal. -/
theorem text_eq (negative : Bool) {m : ℕ} (hm : m ≠ 0) (e : ℤ) :
    (Binary64.finite negative m e).text = String.ofList
      ((Decimal.ofRatio (ratio m e).1 (ratio m e).2).numeral negative).chars := by
  obtain ⟨hnum, hden⟩ := ratio_pos hm e
  rw [Decimal.chars_numeral, ← (Decimal.ofRatio_spec hnum hden).1.text_eq, text, if_neg hm, ratio]
  by_cases he : 0 ≤ e <;> cases negative <;> simp [he]

end Binary64

namespace Number

open Float.Model

variable {x : Float} {s : UnpackedFloat.Sign} {m : ℕ} {e : ℤ} {hm : 0 < m}

/-- **`text_shows`** — a finite number that is not zero is shown correctly rounded, with fifteen
significant digits; rounding it twice, through two formats, comes to the same text. -/
theorem text_shows (hx : x.toModel.unpack = .finite s m e hm) :
    ∃ a : Numeral, text x = String.ofList a.chars ∧ a.Shows (s == .negative) (m * 2 ^ e) ∧
      text x = String.ofList (Decimal.byFormats (s == .negative)
        (Binary64.ratio m e).1 (Binary64.ratio m e).2) := by
  obtain ⟨hnum, hden⟩ := Binary64.ratio_pos hm.ne' e
  obtain ⟨hfull, hrounds, -⟩ := Decimal.ofRatio_spec hnum hden
  rw [Binary64.ratio_eq] at hrounds
  rw [text, Binary64.ofFloat_eq, hx, Binary64.ofUnpacked, Binary64.text_eq _ hm.ne',
    Decimal.byFormats_eq _ hnum hden]
  exact ⟨_, rfl, hfull.shows hrounds _, rfl⟩

/-- An eighth below a power of ten, rounding carries into a new digit, and the exponent is written. -/
theorem text_shows_carry :
    let x := Float.ofBits 0x430c6bf52633ffff
    x.toModel.unpack = .finite .positive 7999999999999999 (-3) (by decide) ∧
      ∃ a : Numeral, text x = String.ofList a.chars ∧
        a.Shows false ((7999999999999999 : ℕ) * 2 ^ (-3 : ℤ)) := by
  have hx : (Float.ofBits 0x430c6bf52633ffff).toModel.unpack =
      .finite .positive 7999999999999999 (-3) (by decide) := by rfl
  obtain ⟨a, htext, hshows, -⟩ := text_shows hx
  exact ⟨hx, a, htext, hshows⟩

example : text (Float.ofBits 0x430c6bf52633ffff) = "1e+15" := by decide +kernel

end Number

end ScriptMachine
