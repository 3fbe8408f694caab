import ScriptMachine.Number.Binary64

/-!
# ScriptMachine.Number.Decimal — the decimal text of a number

A number is shown with fifteen significant decimal digits, correctly rounded (a tie to the even
digit), without trailing zeros: positionally when its decimal exponent lies in `[-4, 15)`, otherwise
with an exponent of at least two digits. The same decimals are read back by `Decimal.read?`, which
accepts an optional sign, digits with an optional point, an optional exponent, and the words for
infinity and NaN in any case.
-/

namespace ScriptMachine

/-- A positive decimal: the digits of a natural number and the power of ten of the first of them. -/
structure Decimal where
  digits : Nat
  exponent : Int
deriving Repr, DecidableEq

namespace Decimal

/-- Significant digits of a shown number. -/
def precision : Nat := 15

/-- How many decimal digits a natural number has; one for zero. -/
def digitCount (n : Nat) : Nat :=
  if n < 10 then 1 else digitCount (n / 10) + 1

/-- The greatest `x` with `10 ^ x ≤ num / den`, for positive `num` and `den`. -/
def floorLog10 (num den : Nat) : Int :=
  if den ≤ num then (digitCount (num / den) : Int) - 1
  else -(digitCount ((den - 1) / num) : Int)

/-- `num / den` rounded to `precision` significant digits. Rounding up to the next power of ten
moves the exponent. -/
def ofRatio (num den : Nat) : Decimal :=
  let x := floorLog10 num den
  let shift : Int := (precision : Int) - 1 - x
  let d :=
    if 0 ≤ shift then Binary64.roundedQuotient (num * Nat.pow 10 shift.toNat) den
    else Binary64.roundedQuotient num (den * Nat.pow 10 (-shift).toNat)
  if d = Nat.pow 10 precision then ⟨Nat.pow 10 (precision - 1), x + 1⟩ else ⟨d, x⟩

/-- The decimal digits of a natural number, most significant first. -/
def digitsOf (n : Nat) : List Char :=
  Nat.toDigits 10 n

/-- Drops the zeros at the end of a fraction. -/
def withoutTrailingZeros (cs : List Char) : List Char :=
  (cs.reverse.dropWhile (· == '0')).reverse

/-- Joins a whole part and a fraction; the point is written only before a fraction. -/
def withFraction (whole fraction : List Char) : List Char :=
  match withoutTrailingZeros fraction with
  | [] => whole
  | f => whole ++ '.' :: f

/-- The exponent as a sign and at least two digits. -/
def exponentText (x : Int) : List Char :=
  let ds := digitsOf x.natAbs
  (if x < 0 then '-' else '+') :: (if ds.length < 2 then '0' :: ds else ds)

/-- The text of a decimal of `precision` digits. -/
def text (d : Decimal) : List Char :=
  let ds := digitsOf d.digits
  if d.exponent < -4 ∨ (precision : Int) ≤ d.exponent then
    withFraction (ds.take 1) (ds.drop 1) ++ 'e' :: exponentText d.exponent
  else if d.exponent < 0 then
    withFraction ['0'] (List.replicate ((-d.exponent).toNat - 1) '0' ++ ds)
  else
    withFraction (ds.take (d.exponent.toNat + 1)) (ds.drop (d.exponent.toNat + 1))

end Decimal

/-- The text of an exact value: fifteen significant digits, the sign kept on zero. -/
def Binary64.text : Binary64 → String
  | .nan => "nan"
  | .infinite negative => if negative then "-inf" else "inf"
  | .finite negative m e =>
    let magnitude : List Char :=
      if m = 0 then ['0']
      else if 0 ≤ e then (Decimal.ofRatio (m <<< e.toNat) 1).text
      else (Decimal.ofRatio m (1 <<< (-e).toNat)).text
    String.ofList (if negative then '-' :: magnitude else magnitude)

/-- **`Number.text x`** — how the number `x` is shown. -/
def Number.text (x : Float) : String :=
  (Binary64.ofFloat x).text

/-! ## Reading -/

namespace Decimal

/-- The value of a digit word read after the digits of `start`. -/
def valueFrom (start : Nat) (ds : List Char) : Nat :=
  ds.foldl (fun n c => n * 10 + (c.toNat - '0'.toNat)) start

/-- The leading digits and what follows them. -/
def spanDigits (cs : List Char) : List Char × List Char :=
  cs.span Char.isDigit

/-- An optional sign and what follows it; `true` for minus. -/
def sign : List Char → Bool × List Char
  | '-' :: cs => (true, cs)
  | '+' :: cs => (false, cs)
  | cs => (false, cs)

/-- An exponent part: nothing, or `e` with an optional sign and at least one digit, to the end. -/
def exponent? : List Char → Option Int
  | [] => some 0
  | c :: cs =>
    if c == 'e' || c == 'E' then
      let (negative, cs) := sign cs
      let (ds, rest) := spanDigits cs
      if ds.isEmpty || !rest.isEmpty then none
      else
        let n : Int := valueFrom 0 ds
        some (if negative then -n else n)
    else none

/-- The nearest number to `± n * 10 ^ x`. Exponents beyond the range of numbers are not expanded. -/
def toFloat (negative : Bool) (n : Nat) (x : Int) : Float :=
  let top : Int := digitCount n + x
  if n = 0 ∨ top < -400 then Binary64.ofRatio negative 0 1
  else if 400 < top then
    Float.ofBits (if negative then 0xfff0000000000000 else 0x7ff0000000000000)
  else if 0 ≤ x then Binary64.ofRatio negative (n * Nat.pow 10 x.toNat) 1
  else Binary64.ofRatio negative n (Nat.pow 10 (-x).toNat)

/-- Digits with an optional point and exponent. -/
def magnitude? (negative : Bool) (cs : List Char) : Option Float :=
  let (whole, rest) := spanDigits cs
  let (fraction, rest) :=
    match rest with
    | '.' :: rest => spanDigits rest
    | rest => ([], rest)
  if whole.isEmpty && fraction.isEmpty then none
  else do
    let x ← exponent? rest
    return toFloat negative (valueFrom (valueFrom 0 whole) fraction) (x - fraction.length)

/-- The number a text denotes, or `none` when it denotes none. -/
def read? (s : String) : Option Float :=
  let (negative, cs) := sign s.toList
  let word := String.ofList (cs.map Char.toLower)
  if word == "nan" then
    some (Float.ofBits (if negative then 0xfff8000000000000 else 0x7ff8000000000000))
  else if word == "inf" || word == "infinity" then
    some (Float.ofBits (if negative then 0xfff0000000000000 else 0x7ff0000000000000))
  else magnitude? negative cs

/-- The value of a hexadecimal digit. -/
def hexDigit (c : Char) : Nat :=
  if c.isDigit then c.toNat - '0'.toNat
  else if 'a' ≤ c && c ≤ 'f' then c.toNat - 'a'.toNat + 10
  else c.toNat - 'A'.toNat + 10

/-- A hexadecimal word as a number, when it fits a signed 64-bit integer. -/
def readHex? (cs : List Char) : Option Float :=
  let n := cs.foldl (fun n c => n * 16 + hexDigit c) 0
  if n < Nat.pow 2 63 then some (Number.ofInteger n) else none

end Decimal

end ScriptMachine
