import Mathlib
import ScriptMachine.Number.Range
import ScriptMachine.Proofs.Number.Addition

/-!
# ScriptMachine.Proofs.Number.Ranges — ranges that end, and ranges that do not

A range adds its step, and stops behind the first number past its end. `Range.walk` does just this, for
so many rounds. A step that is not zero can still leave a number where it is: it is lost when the sum is
rounded. From such a number on the range goes nowhere, and no number of rounds is enough.

There is no other way not to end: a step that is not lost goes on in its own direction, and there are only
so many numbers that way. `Range.numbers?` looks out for steps that are lost. For a range that ends this
makes no difference.

`walk_ends_iff` is the result. One direction is `walk_eq_none`, by induction on the rounds; the other,
`walk_ends`, is an induction on how many numbers are left in the direction of the step, which is a
difference of ranks. How many rounds a range takes is not claimed, and may be more than anyone waits for.
-/

namespace ScriptMachine

open Float.Model

variable {r : Range} {x y : Float} {found numbers : Array Float} {fuel : ℕ}

namespace Number

/-- At most is less or equal, which leaves out what is not a number. -/
theorem le_iff : x ≤ y ↔ order? x y = some .lt ∨ order? x y = some .eq := by
  show decide (x.toModel ≤ y.toModel) = true ↔ _
  rw [decide_eq_true_iff]
  show (order? x y).any (·.isLE) = true ↔ _
  rcases order? x y with _ | _ | _ | _ <;> simp

/-- What is not a number is not less than or equal to anything, nor is anything to it. -/
theorem not_le_nan (h : x = Float.nan ∨ y = Float.nan) : ¬ x ≤ y := by
  rw [le_iff, order?_eq_none.mpr h]
  simp

theorem nan_add (y : Float) : Float.nan + y = Float.nan := rfl

theorem add_nan (x : Float) : x + Float.nan = Float.nan := by
  rw [add_eq, show Float.nan.toModel.unpack = .notANumber from rfl]
  cases x.toModel.unpack <;> rfl

end Number

namespace Range

/-- **`walk r fuel x found`** — the numbers of a range from `x` on, behind those found, if it ends within
so many rounds. -/
def walk (r : Range) : ℕ → Float → Array Float → Option (Array Float)
  | 0, _, _ => none
  | fuel + 1, x, found =>
    if r.admits x then
      if r.isPast (x + r.step) then some (found.push x)
      else r.walk fuel (x + r.step) (found.push x)
    else some found

/-- **`walk_eq_none`** — a range that always comes to another number to go on from does not end. -/
theorem walk_eq_none (goes : Float → Prop) (hgoes : ∀ y, goes y →
    r.admits y = true ∧ r.isPast (y + r.step) = false ∧ goes (y + r.step)) (hx : goes x)
    (fuel : ℕ) (found : Array Float) : r.walk fuel x found = none := by
  induction fuel generalizing x found with
  | zero => rfl
  | succ fuel ih =>
    obtain ⟨hadmits, hpast, hnext⟩ := hgoes x hx
    rw [walk, if_pos hadmits, if_neg (by simp [hpast])]
    exact ih hnext _

/-! ## Steps that are lost -/

/-- Nothing is past the end of a range once the counter is not a number; such a walk does not end. -/
theorem isPast_nan (r : Range) : r.isPast Float.nan = false := by
  have hle : ∀ y, ¬ y ≤ Float.nan ∧ ¬ Float.nan ≤ y := fun y =>
    ⟨Number.not_le_nan (.inr rfl), Number.not_le_nan (.inl rfl)⟩
  have hlt : ∀ y, ¬ y < Float.nan ∧ ¬ Float.nan < y := fun y =>
    ⟨(Number.unordered (.inr rfl)).1, (Number.unordered (.inl rfl)).1⟩
  simp [isPast, hle, hlt]

theorem admits_nan (r : Range) : r.admits Float.nan = true := by
  have h : isCharacter (Number.toCodePoint Float.nan) = true := by decide +kernel
  simp [admits, h]

/-- A walk is stuck where the step does not show in the sum, or the sum is no number. -/
theorem isStuckAt_iff : r.isStuckAt x = true ↔ x + r.step = x ∨ x + r.step = Float.nan := by
  unfold isStuckAt
  rw [Bool.or_eq_true, beq_iff_eq, Float.toBits_inj, Float.isNaN_eq_decide_eq_nan, decide_eq_true_iff]

/-- **`walk_of_isStuckAt`** — from a number that its step does not move, a range does not end. -/
theorem walk_of_isStuckAt (hadmits : r.admits x = true) (hpast : r.isPast (x + r.step) = false)
    (hstuck : r.isStuckAt x = true) (fuel : ℕ) (found : Array Float) :
    r.walk fuel x found = none := by
  refine walk_eq_none (fun y => y = x ∨ y = Float.nan) ?_ (.inl rfl) fuel found
  rintro y (rfl | rfl)
  · exact ⟨hadmits, hpast, isStuckAt_iff.mp hstuck⟩
  · rw [Number.nan_add]
    exact ⟨r.admits_nan, r.isPast_nan, .inr rfl⟩

/-- **`numbersFrom_eq_some_iff`** — looking out for steps that are lost makes no difference to a range
that ends. -/
theorem numbersFrom_eq_some_iff :
    r.numbersFrom fuel x found = some numbers ↔ r.walk fuel x found = some numbers := by
  induction fuel generalizing x found with
  | zero => rfl
  | succ fuel ih =>
    unfold numbersFrom
    by_cases hadmits : r.admits x = true
    · cases hpast : r.isPast (x + r.step) with
      | true => simp [walk, hadmits, hpast]
      | false =>
        cases hstuck : r.isStuckAt x with
        | true => simp [hadmits, walk_of_isStuckAt hadmits hpast hstuck]
        | false => simp [walk, hadmits, hpast, ih]
    · simp [walk, hadmits]

/-- **`numbers?_eq_some_iff`** — the numbers of a range are those that its loop comes to. -/
theorem numbers?_eq_some_iff : r.numbers? x = some numbers ↔ r.walk limit x #[] = some numbers :=
  numbersFrom_eq_some_iff

/-- From two to the power of 53 to two numbers further the range by one does not end, although its step
is not zero: the sum is half way between two numbers, and rounded to the even one. -/
example (fuel : ℕ) (found : Array Float) :
    walk { step := 1, stop := 9007199254740994, exclusive := false, characters := false } fuel
      9007199254740992 found = none :=
  walk_of_isStuckAt (by decide +kernel) (by decide +kernel) (by decide +kernel) fuel found

/-! ## Ranges that end -/

/-- **`r.Sticks x`** — from `x` on, the range comes to a number that its step does not move, and that is
not its last. -/
inductive Sticks (r : Range) : Float → Prop
  | here {x : Float} (hadmits : r.admits x = true) (hpast : r.isPast (x + r.step) = false)
    (hstuck : r.isStuckAt x = true) : r.Sticks x
  | later {x : Float} (hadmits : r.admits x = true) (hpast : r.isPast (x + r.step) = false)
    (hlater : r.Sticks (x + r.step)) : r.Sticks x

/-- A walk that sticks has no result with any fuel. By induction on the fuel: each step either finds
the counter where it was or goes on to a counter from which the walk sticks. -/
theorem Sticks.walk_eq_none (h : r.Sticks x) (fuel : ℕ) (found : Array Float) :
    r.walk fuel x found = none := by
  induction h generalizing fuel found with
  | here hadmits hpast hstuck => exact walk_of_isStuckAt hadmits hpast hstuck fuel found
  | later hadmits hpast _ ih =>
    cases fuel with
    | zero => rfl
    | succ fuel =>
      rw [walk, if_pos hadmits, if_neg (by simp [hpast])]
      exact ih fuel _

/-- A step that is not lost goes in its own direction, and there are only so many numbers. -/
theorem walk_ends {s : UnpackedFloat.Sign} {x : Float} (hs : Number.IsTowards s r.step.toModel.unpack)
    (h : ¬ r.Sticks x) (found : Array Float) :
    ∃ fuel numbers, r.walk fuel x found = some numbers := by
  by_cases hadmits : r.admits x = true
  case neg => exact ⟨1, found, by rw [walk, if_neg hadmits]⟩
  cases hpast : r.isPast (x + r.step) with
  | true => exact ⟨1, found.push x, by rw [walk, if_pos hadmits, if_pos hpast]⟩
  | false =>
    have hmoves : ¬ (x + r.step = x ∨ x + r.step = Float.nan) := fun hstuck =>
      h (.here hadmits hpast (isStuckAt_iff.mpr hstuck))
    rw [not_or] at hmoves
    have hlt := Number.rank_add_lt hs hmoves.2 hmoves.1
    have hle := Number.rank_le (x + r.step) s
    obtain ⟨fuel, numbers, hwalk⟩ := walk_ends hs (fun hlater => h (.later hadmits hpast hlater))
      (found.push x)
    exact ⟨fuel + 1, numbers, by rw [walk, if_pos hadmits, if_neg (by simp [hpast]), hwalk]⟩
termination_by (2 ^ 63 - s.apply (Number.rank x)).toNat

/-- **`walk_ends_iff`** — a range whose step is not zero ends, unless its step is lost on one of its
numbers. -/
theorem walk_ends_iff (hstep : (r.step == 0) = false) :
    (∃ fuel numbers, r.walk fuel x found = some numbers) ↔ ¬ r.Sticks x := by
  constructor
  · rintro ⟨fuel, numbers, hwalk⟩ hsticks
    rw [hsticks.walk_eq_none] at hwalk
    cases hwalk
  · intro h
    by_cases hnumber : r.step = Float.nan
    · have hsum : x + r.step = Float.nan := by rw [hnumber, Number.add_nan]
      have hadmits : r.admits x ≠ true := fun hadmits =>
        h (.here hadmits (hsum ▸ r.isPast_nan) (isStuckAt_iff.mpr (.inr hsum)))
      exact ⟨1, found, by rw [walk, if_neg hadmits]⟩
    · obtain ⟨s, hs⟩ := Number.isTowards_of_ne_zero hstep hnumber
      exact walk_ends hs h found

end Range

end ScriptMachine
