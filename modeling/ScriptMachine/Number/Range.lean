import ScriptMachine.Number.Binary64

/-!
# ScriptMachine.Number.Range — arithmetic progressions

A range starts at a number, always included, and adds its step until it is past its stop. Numbers
are binary64, so a step can be too small to move a large number: such a range never ends, and
`Range.numbers?` says so with `none`. A range of characters also ends where its number is no
character.
-/

namespace ScriptMachine

/-- How a range goes on after its first number. -/
structure Range where
  step : Float
  stop : Float
  exclusive : Bool
  characters : Bool
deriving Repr, Inhabited

namespace Range

/-- Is a natural number the code of a character? -/
def isCharacter (n : Nat) : Bool :=
  n < 0xd800 || (0xdfff < n && n < 0x110000)

/-- Has the range gone past its stop? -/
def isPast (r : Range) (x : Float) : Bool :=
  if 0 < r.step then
    if r.exclusive then r.stop ≤ x else r.stop < x
  else
    if r.exclusive then x ≤ r.stop else x < r.stop

/-- Can the range have this number? -/
def admits (r : Range) (x : Float) : Bool :=
  !r.characters || isCharacter (Number.toCodePoint x)

/-- Does the step leave the number where it is? -/
def isStuckAt (r : Range) (x : Float) : Bool :=
  (x + r.step).toBits == x.toBits || (x + r.step).isNaN

/-- The numbers of the range from `x` on, after those already found. -/
def numbersFrom (r : Range) : (fuel : Nat) → (x : Float) → Array Float → Option (Array Float)
  | 0, _, _ => none
  | fuel + 1, x, found =>
    if r.admits x then
      if r.isPast (x + r.step) then some (found.push x)
      else if r.isStuckAt x then none
      else r.numbersFrom fuel (x + r.step) (found.push x)
    else some found

/-- More numbers than any range that ends can have in a memory. -/
def limit : Nat := Nat.pow 2 62

/-- **`numbers? r start`** — the numbers of a range, or `none` when it never ends. -/
def numbers? (r : Range) (start : Float) : Option (Array Float) :=
  r.numbersFrom limit start #[]

end Range

end ScriptMachine
