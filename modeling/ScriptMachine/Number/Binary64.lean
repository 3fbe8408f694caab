/-!
# ScriptMachine.Number.Binary64 — numbers as exact dyadic ratios

Script numbers are binary64. This module reads a bit pattern as what it denotes (a sign, a natural
mantissa and a power of two, or one of the special values) and goes back: `ofRatio` is the nearest
binary64 number to a ratio of naturals, a tie going to the even mantissa. Printing, reading, the
remainder and the conversions to machine integers are all stated on these exact values.
-/

namespace ScriptMachine

/-- What a binary64 bit pattern denotes; `finite s m e` is `± m * 2 ^ e`, negative iff `s`. -/
inductive Binary64 where
  | nan
  | infinite (negative : Bool)
  | finite (negative : Bool) (mantissa : Nat) (exponent : Int)
deriving Repr, DecidableEq, Inhabited

namespace Binary64

/-- Reads the sign, exponent and fraction fields. Subnormals share the least exponent. -/
def ofBits (bits : UInt64) : Binary64 :=
  let negative := bits >>> 63 == 1
  let biased := ((bits >>> 52) &&& 0x7ff).toNat
  let fraction := (bits &&& 0xfffffffffffff).toNat
  if biased = 2047 then
    if fraction = 0 then .infinite negative else .nan
  else if biased = 0 then .finite negative fraction (-1074)
  else .finite negative (fraction + Nat.pow 2 52) ((biased : Int) - 1075)

/-- **`ofFloat x`** — the exact value of `x`. -/
def ofFloat (x : Float) : Binary64 :=
  ofBits x.toBits

/-! ## Ratios and rounding -/

/-- The quotient of two naturals rounded to the nearest natural, a tie going to the even one. -/
def roundedQuotient (num den : Nat) : Nat :=
  let q := num / den
  let r := num % den
  if den < 2 * r ∨ (2 * r = den ∧ q % 2 = 1) then q + 1 else q

/-- The ratio `num / den` scaled by `2 ^ (-e)`. -/
def scaledByTwo (num den : Nat) (e : Int) : Nat × Nat :=
  if 0 ≤ e then (num, den <<< e.toNat) else (num <<< (-e).toNat, den)

/-- The greatest `k` with `2 ^ k ≤ num / den`, for positive `num` and `den`. -/
def floorLog2 (num den : Nat) : Int :=
  let k : Int := (num.log2 : Int) - den.log2
  let (n, d) := scaledByTwo num den k
  if d ≤ n then k else k - 1

/-- The bits of the nearest binary64 number to `num / den`, sign bit clear. The exponent field and
the fraction are added, so that a mantissa rounded up to a power of two carries into the exponent.
-/
def magnitudeBits (num den : Nat) : UInt64 :=
  if num = 0 ∨ den = 0 then 0
  else
    let e := max (floorLog2 num den - 52) (-1074)
    let (n, d) := scaledByTwo num den e
    let bits := (e + 1074).toNat * Nat.pow 2 52 + roundedQuotient n d
    if bits < 0x7ff0000000000000 then UInt64.ofNat bits else 0x7ff0000000000000

/-- **`ofRatio s num den`** — the binary64 number nearest to `± num / den`. -/
def ofRatio (negative : Bool) (num den : Nat) : Float :=
  let bits := magnitudeBits num den
  Float.ofBits (if negative then bits ||| 0x8000000000000000 else bits)

/-! ## Conversions to integers -/

/-- The integer part, toward zero; `none` for the special values. -/
def truncated? : Binary64 → Option Int
  | .finite negative m e =>
    let n := if 0 ≤ e then m <<< e.toNat else m >>> (-e).toNat
    some (if negative then -(n : Int) else n)
  | _ => none

/-- The integer part clamped to `[lo, hi]`; NaN goes to zero, the infinities to the ends. -/
def clamped (lo hi : Int) (x : Float) : Int :=
  match ofFloat x with
  | .nan => 0
  | .infinite negative => if negative then lo else hi
  | b@(.finite ..) => max lo (min hi (b.truncated?.getD 0))

end Binary64

/-! ## Operations on numbers -/

namespace Number

/-- The signed 64-bit integer a number stands for in bit operations and as an index. -/
def toInt64 (x : Float) : Int :=
  Binary64.clamped (-(Nat.pow 2 63 : Nat)) ((Nat.pow 2 63 : Nat) - 1) x

/-- The number as a position, never negative. -/
def toIndex (x : Float) : Nat :=
  (Binary64.clamped 0 ((Nat.pow 2 64 : Nat) - 1) x).toNat

/-- The number as a code point candidate. -/
def toCodePoint (x : Float) : Nat :=
  (Binary64.clamped 0 ((Nat.pow 2 32 : Nat) - 1) x).toNat

/-- The nearest number to an integer. -/
def ofInteger (n : Int) : Float :=
  Binary64.ofRatio (n < 0) n.natAbs 1

/-- The integer part of a number, with its sign kept on zero; special values stand for themselves.
-/
def integerPart (x : Float) : Float :=
  match Binary64.ofFloat x with
  | .finite negative m e =>
    Binary64.ofRatio negative (if 0 ≤ e then m <<< e.toNat else m >>> (-e).toNat) 1
  | _ => x

/-- **`remainder x y`** — `x - n * y` for the integer `n` nearest to zero below `x / y` in
magnitude: exact, with the sign of `x`. -/
def remainder (x y : Float) : Float :=
  match Binary64.ofFloat x, Binary64.ofFloat y with
  | .finite negative m e, .finite _ n f =>
    if n = 0 then Float.ofBits 0x7ff8000000000000
    else
      let low := min e f
      let a := m <<< (e - low).toNat
      let b := n <<< (f - low).toNat
      let r := a % b
      if 0 ≤ low then Binary64.ofRatio negative (r <<< low.toNat) 1
      else Binary64.ofRatio negative r (1 <<< (-low).toNat)
  | .finite .., .infinite _ => x
  | _, _ => Float.ofBits 0x7ff8000000000000

end Number

end ScriptMachine
