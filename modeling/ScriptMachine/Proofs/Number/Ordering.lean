import Mathlib

/-!
# ScriptMachine.Proofs.Number.Ordering — how numbers compare

A number is less than another, equal to it or greater, unless one of the two is not a number: then
none of the three holds. `order?` says which it is, and `<` and `==` are two questions to it. What
follows is read off two facts: swapping the arguments swaps the answer, and there is an answer whenever
both arguments are numbers.

The operators of the language are built on `<` and `==`, and so are `Relations` and its laws. That the
order is transitive is never asked for, and is left out.
-/

namespace ScriptMachine.Number

open Float.Model

variable {x y : Float}

/-- **`order? x y`** — how `x` compares with `y`; `none` when one of them is not a number. -/
def order? (x y : Float) : Option Ordering :=
  x.toModel.unpack.compare y.toModel.unpack

/-- Less is one answer of the comparison. -/
theorem lt_iff : x < y ↔ order? x y = some .lt := by
  show decide (x.toModel < y.toModel) = true ↔ _
  rw [decide_eq_true_iff]
  exact beq_iff_eq

/-- Equality of numbers is another one; it is not equality of bits, since the zeros are equal. -/
theorem beq_iff : (x == y) = true ↔ order? x y = some .eq := by
  show (order? x y == some .eq) = true ↔ _
  exact beq_iff_eq

/-! ## Two facts about the order -/

/-- Comparing the other way around turns the answer around. The cases are those of the two numbers:
none, infinite, zero or finite. -/
theorem compare_swap (a b : UnpackedFloat) : a.compare b = (b.compare a).map Ordering.swap := by
  cases a with
  | notANumber => cases b <;> rfl
  | infinity s =>
    cases b with
    | notANumber => cases s <;> rfl
    | infinity s' => cases s <;> cases s' <;> rfl
    | zero | finite => cases s <;> rfl
  | zero s =>
    cases b with
    | notANumber | zero => rfl
    | infinity s' | finite s' => cases s' <;> rfl
  | finite s m e hm =>
    cases b with
    | notANumber | zero => cases s <;> rfl
    | infinity s' => cases s <;> cases s' <;> rfl
    | finite s' m' e' hm' =>
      cases s <;> cases s' <;>
        simp [UnpackedFloat.compare, Ordering.swap_then, Int.compare_swap, Nat.compare_swap]

theorem compare_eq_none (a b : UnpackedFloat) :
    a.compare b = none ↔ a.isNaN = true ∨ b.isNaN = true := by
  cases a with
  | notANumber => cases b <;> simp [UnpackedFloat.compare, UnpackedFloat.isNaN]
  | infinity s | finite s =>
    cases s <;> cases b with
    | notANumber => simp [UnpackedFloat.compare, UnpackedFloat.isNaN]
    | infinity s' | zero s' | finite s' =>
      cases s' <;> simp [UnpackedFloat.compare, UnpackedFloat.isNaN]
  | zero s =>
    cases b with
    | notANumber | zero => simp [UnpackedFloat.compare, UnpackedFloat.isNaN]
    | infinity s' | finite s' => cases s' <;> simp [UnpackedFloat.compare, UnpackedFloat.isNaN]

theorem order?_swap (x y : Float) : order? x y = (order? y x).map Ordering.swap :=
  compare_swap ..

/-- Only what is not a number has no order. -/
theorem order?_eq_none : order? x y = none ↔ x = Float.nan ∨ y = Float.nan := by
  have hnan : ∀ {z : Float}, z.toModel.unpack.isNaN = true ↔ z = Float.nan := fun {z} => by
    show z.isNaN = true ↔ _
    simp [Float.isNaN_eq_decide_eq_nan]
  rw [← hnan, ← hnan]
  exact compare_eq_none ..

/-! ## What follows for `<` and `==` -/

/-- **`beq_comm`** — equality of numbers is symmetric. -/
theorem beq_comm (x y : Float) : (x == y) = (y == x) := by
  rw [Bool.eq_iff_iff, beq_iff, beq_iff, order?_swap]
  rcases order? y x with _ | _ | _ | _ <;> simp

theorem lt_asymm (hlt : x < y) : ¬ y < x := by
  rw [lt_iff, order?_swap, lt_iff.mp hlt]
  simp

/-- **`not_lt_iff`** — one number is not greater than another if and only if it is less or equal. -/
theorem not_lt_iff (hx : x ≠ Float.nan) (hy : y ≠ Float.nan) :
    ¬ y < x ↔ x < y ∨ (x == y) = true := by
  have hsome : order? x y ≠ none := fun hnone => (order?_eq_none.mp hnone).elim hx hy
  rw [lt_iff, lt_iff, beq_iff, order?_swap y x]
  cases hxy : order? x y with
  | none => exact absurd hxy hsome
  | some o => cases o <;> simp

/-- A number equals itself. -/
theorem beq_self (hx : x ≠ Float.nan) : (x == x) = true :=
  ((not_lt_iff hx hx).mp fun hlt => lt_asymm hlt hlt).resolve_left fun hlt => lt_asymm hlt hlt

/-- What is not a number is neither less nor greater than anything, nor equal to it. -/
theorem unordered (h : x = Float.nan ∨ y = Float.nan) :
    ¬ x < y ∧ ¬ y < x ∧ (x == y) = false := by
  have hnone : order? x y = none := order?_eq_none.mpr h
  rw [lt_iff, lt_iff, ← Bool.not_eq_true, beq_iff, order?_swap y x, hnone]
  simp

end ScriptMachine.Number
