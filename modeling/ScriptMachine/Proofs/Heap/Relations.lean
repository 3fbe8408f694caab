import Mathlib
import ScriptMachine.Proofs.Heap.Equality
import ScriptMachine.Proofs.Heap.Interning

/-!
# ScriptMachine.Proofs.Heap.Relations — what the six comparisons say about each other

Two values can be ordered when both stand for numbers or both are texts. `<` and `>` are one relation
read in two directions, `==` is the equality of script values, and `<=`, `>=` and `!=` are what `>`, `<`
and `==` deny. So `<=` is more than `<` or `==` where numbers are not ordered at all: every number is
`<=` and `>=` to one that is not a number.

An enumeration member is compared as its number, except that two members are equal when they are one
and the same. Nothing is said here about `==` of different members with equal numbers.

`Interned.coheres` is the result. Its cases are those of `Orderable`, two numbers or two texts, and the
interning of texts is used where equality of references has to mean equality of characters. What does
not hold is left out of `Coherent` on purpose: for a value that is not a number `<=` and `>=` are not
`<` or `==`, and for `Twins` the equality of their numbers is not the equality of the values.
-/

namespace ScriptMachine

/-- The comparison operators of the language. -/
inductive Relational where
  | less | lessEqual | greater | greaterEqual | equal | notEqual
deriving Repr, DecidableEq, Inhabited

namespace Heap

variable {h : Heap} {a b : Value} {x y : Float} {s t : String} {r r' : Ref}

/-- **`h.Orderable a b`** — the values stand for two numbers, or for two texts. -/
def Orderable (h : Heap) (a b : Value) : Prop :=
  (∃ x y, h.numeric? a = some x ∧ h.numeric? b = some y) ∨
    ∃ s t, h.textOf? a = some s ∧ h.textOf? b = some t

/-- **`h.precedes a b`** — the order of numbers, and that of texts. -/
def precedes (h : Heap) (a b : Value) : Bool :=
  match h.numeric? a, h.numeric? b with
  | some x, some y => x < y
  | _, _ =>
    match h.textOf? a, h.textOf? b with
    | some s, some t => s < t
    | _, _ => false

/-- **`h.holds o a b`** — does the comparison hold of the values? -/
def holds (h : Heap) (o : Relational) (a b : Value) : Bool :=
  match o with
  | .less => h.precedes a b
  | .lessEqual => !h.precedes b a
  | .greater => h.precedes b a
  | .greaterEqual => !h.precedes a b
  | .equal => h.equal a b
  | .notEqual => !h.equal a b

/-! ## Numbers and texts -/

/-- Values with numbers are ordered by them. -/
theorem precedes_of_numeric? (ha : h.numeric? a = some x) (hb : h.numeric? b = some y) :
    h.precedes a b = decide (x < y) := by
  rw [precedes, ha, hb]

theorem exists_of_textOf? (ha : h.textOf? a = some s) :
    ∃ r hash, a = .obj r ∧ h.get? r = some (.string s hash) := by
  cases a with
  | obj r =>
    rw [textOf?, text?] at ha
    split at ha
    · rename_i t hash hr
      exact ⟨r, hash, rfl, Option.some.inj ha ▸ hr⟩
    · cases ha
  | _ => cases ha

theorem numeric?_of_textOf? (ha : h.textOf? a = some s) : h.numeric? a = none := by
  obtain ⟨r, hash, rfl, hr⟩ := exists_of_textOf? ha
  simp [numeric?, hr]

/-- Texts are ordered by their characters. -/
theorem precedes_of_textOf? (ha : h.textOf? a = some s) (hb : h.textOf? b = some t) :
    h.precedes a b = decide (s < t) := by
  rw [precedes, numeric?_of_textOf? ha, ha, hb]

/-- Texts are equal when they have the same characters: there is one string object for each. -/
theorem Interned.equal_of_textOf? (hi : h.Interned) (ha : h.textOf? a = some s)
    (hb : h.textOf? b = some t) : h.equal a b = true ↔ s = t := by
  obtain ⟨r, hash, rfl, hr⟩ := exists_of_textOf? ha
  obtain ⟨r', hash', rfl, hr'⟩ := exists_of_textOf? hb
  rw [equal, equalAt_obj]
  constructor
  · rintro (rfl | ⟨l, l', hl, -⟩ | ⟨l, l', hl, -⟩)
    · rw [hr] at hr'
      exact (Obj.string.inj (Option.some.inj hr')).1
    all_goals
      rw [hr] at hl
      cases hl
  · rintro rfl
    exact .inl (hi.single r r' s hash hash' hr hr')

/-- A number and a value that stands for a number are equal when the numbers are. -/
theorem equal_number (hb : h.numeric? b = some y) : h.equal (.number x) b = (x == y) := by
  cases b with
  | number n => rw [← Option.some.inj hb, equal, equalAt]
  | obj r =>
    rw [numeric?] at hb
    split at hb
    · rename_i m hr
      cases hm : m.value with
      | number k =>
        rw [hm] at hb
        obtain rfl : k = y := Option.some.inj hb
        simp only [equal, equalAt, carries, hr, hm]
        exact Number.beq_comm k x
      | _ =>
        rw [hm] at hb
        cases hb
    · cases hb
  | _ => cases hb

/-- A value that stands for a number is a number or a member of an enumeration. -/
theorem number_or_member (ha : h.numeric? a = some x) : a = .number x ∨ ∃ r, a = .obj r := by
  cases a with
  | number n => exact .inl (congrArg Value.number (Option.some.inj ha))
  | obj r => exact .inr ⟨r, rfl⟩
  | _ => cases ha

/-- Two members of enumerations are equal when they are the same. -/
theorem equal_member (ha : h.numeric? (.obj r) = some x) :
    h.equal (.obj r) (.obj r') = true ↔ r = r' := by
  rw [equal, equalAt_obj]
  refine or_iff_left ?_
  rintro (⟨l, l', hl, -⟩ | ⟨l, l', hl, -⟩) <;> simp [numeric?, hl] at ha

/-- What stands for numbers is equal when the numbers are, or, for two members, when they are the same. -/
theorem equal_of_numeric? (ha : h.numeric? a = some x) (hb : h.numeric? b = some y) :
    (∃ r r', a = .obj r ∧ b = .obj r' ∧ (h.equal a b = true ↔ r = r')) ∨
      (∀ r r', a = .obj r → b = .obj r' → False) ∧ h.equal a b = (x == y) := by
  rcases number_or_member ha with rfl | ⟨r, rfl⟩
  · exact .inr ⟨nofun, equal_number hb⟩
  rcases number_or_member hb with rfl | ⟨r', rfl⟩
  · refine .inr ⟨nofun, ?_⟩
    rw [Number.beq_comm]
    exact equal_number ha
  · exact .inl ⟨r, r', rfl, rfl, equal_member ha⟩

/-! ## The six comparisons -/

/-- **`h.Unordered a b`** — one of the values stands for something that is not a number. -/
def Unordered (h : Heap) (a b : Value) : Prop :=
  h.numeric? a = some Float.nan ∨ h.numeric? b = some Float.nan

/-- **`h.Twins a b`** — two different members of enumerations that carry equal numbers. -/
def Twins (h : Heap) (a b : Value) : Prop :=
  ∃ r r' x y, a = .obj r ∧ b = .obj r' ∧ r ≠ r' ∧
    h.numeric? a = some x ∧ h.numeric? b = some y ∧ (x == y) = true

/-- **`h.Coherent a b`** — how the comparisons of two values depend on each other and on the numbers. -/
structure Coherent (h : Heap) (a b : Value) : Prop where
  lessEqual : h.holds .lessEqual a b = true ↔ ¬ h.holds .greater a b = true
  greaterEqual : h.holds .greaterEqual a b = true ↔ ¬ h.holds .less a b = true
  notEqual : h.holds .notEqual a b = true ↔ ¬ h.holds .equal a b = true
  exclusive : ¬ (h.holds .less a b = true ∧ h.holds .greater a b = true)
  orEqual : ¬ h.Unordered a b → ¬ h.Twins a b →
    (h.holds .lessEqual a b = true ↔ h.holds .less a b = true ∨ h.holds .equal a b = true) ∧
    (h.holds .greaterEqual a b = true ↔ h.holds .greater a b = true ∨ h.holds .equal a b = true)
  unordered : h.Unordered a b →
    h.holds .less a b = false ∧ h.holds .greater a b = false ∧
    (h.holds .equal a b = true ↔ ∃ r, a = .obj r ∧ b = .obj r)
  asNumbers : ∀ o x y, h.numeric? a = some x → h.numeric? b = some y →
    (o = .equal ∨ o = .notEqual →
      ¬ h.Twins a b ∧ ∀ r, a = .obj r → b = .obj r → x ≠ Float.nan) →
    h.holds o a b = h.holds o (.number x) (.number y)

/-- Values with numbers are equal when their numbers are, apart from twins and from what differs
from itself. -/
theorem equal_eq_beq (ha : h.numeric? a = some x) (hb : h.numeric? b = some y)
    (htwins : ¬ h.Twins a b) (hsame : ∀ r, a = .obj r → b = .obj r → x ≠ Float.nan) :
    h.equal a b = (x == y) := by
  rcases equal_of_numeric? ha hb with ⟨r, r', rfl, rfl, hequal⟩ | ⟨-, hequal⟩
  · by_cases hr : r = r'
    · subst hr
      obtain rfl : x = y := Option.some.inj (ha.symm.trans hb)
      rw [hequal.mpr rfl, Number.beq_self (hsame r rfl rfl)]
    · rw [Bool.eq_false_iff.mpr (fun heq => hr (hequal.mp heq)), eq_comm, ← Bool.not_eq_true]
      exact fun heq => htwins ⟨r, r', x, y, rfl, rfl, hr, ha, hb, heq⟩
  · exact hequal

/-- Where there is no order, equality is identity. -/
theorem equal_of_unordered (hu : h.Unordered a b) (ha : h.numeric? a = some x)
    (hb : h.numeric? b = some y) : h.equal a b = true ↔ ∃ r, a = .obj r ∧ b = .obj r := by
  rcases equal_of_numeric? ha hb with ⟨r, r', rfl, rfl, hequal⟩ | ⟨hobj, hequal⟩
  · rw [hequal]
    simp [eq_comm]
  · have hnan : x = Float.nan ∨ y = Float.nan := by
      simpa [Unordered, ha, hb] using hu
    rw [hequal, (Number.unordered hnan).2.2]
    exact iff_of_false Bool.false_ne_true fun ⟨r, ha', hb'⟩ => hobj r r ha' hb'

/-- By the three cases of the order of numbers, and the case in which there is none. -/
theorem coherent_of_numeric? (ha : h.numeric? a = some x) (hb : h.numeric? b = some y) :
    h.Coherent a b where
  lessEqual := by simp [holds]
  greaterEqual := by simp [holds]
  notEqual := by simp [holds]
  exclusive := by
    simp only [holds, precedes_of_numeric? ha hb, precedes_of_numeric? hb ha, decide_eq_true_iff]
    exact fun hlt => Number.lt_asymm hlt.1 hlt.2
  orEqual hordered htwins := by
    have hx : x ≠ Float.nan := fun heq => hordered (.inl (heq ▸ ha))
    have hy : y ≠ Float.nan := fun heq => hordered (.inr (heq ▸ hb))
    have hequal := equal_eq_beq ha hb htwins fun _ _ _ => hx
    simp only [holds, precedes_of_numeric? ha hb, precedes_of_numeric? hb ha, hequal,
      Bool.not_eq_true', decide_eq_false_iff_not, decide_eq_true_iff]
    refine ⟨Number.not_lt_iff hx hy, ?_⟩
    rw [Number.beq_comm]
    exact Number.not_lt_iff hy hx
  unordered hu := by
    have hnan : x = Float.nan ∨ y = Float.nan := by
      simpa [Unordered, ha, hb] using hu
    obtain ⟨hless, hgreater, -⟩ := Number.unordered hnan
    simp only [holds, precedes_of_numeric? ha hb, precedes_of_numeric? hb ha,
      decide_eq_false_iff_not]
    exact ⟨hless, hgreater, equal_of_unordered hu ha hb⟩
  asNumbers o x' y' ha' hb' hequality := by
    obtain rfl : x = x' := Option.some.inj (ha.symm.trans ha')
    obtain rfl : y = y' := Option.some.inj (hb.symm.trans hb')
    have hless : h.precedes a b = h.precedes (.number x) (.number y) :=
      precedes_of_numeric? ha hb
    have hgreater : h.precedes b a = h.precedes (.number y) (.number x) :=
      precedes_of_numeric? hb ha
    -- equality is that of the numbers where the statement asks for it
    have hequal (ho : o = .equal ∨ o = .notEqual) :
        h.equal a b = h.equal (.number x) (.number y) := by
      rw [equal_number rfl]
      exact equal_eq_beq ha hb (hequality ho).1 (hequality ho).2
    cases o with
    | less => exact hless
    | greater => exact hgreater
    | lessEqual => exact congrArg not hgreater
    | greaterEqual => exact congrArg not hless
    | equal => exact hequal (.inl rfl)
    | notEqual => exact congrArg not (hequal (.inr rfl))

/-- Equal texts are one object, as texts are interned. -/
theorem Interned.coherent_of_textOf? (hi : h.Interned) (ha : h.textOf? a = some s)
    (hb : h.textOf? b = some t) : h.Coherent a b := by
  have hna := numeric?_of_textOf? ha
  have hnb := numeric?_of_textOf? hb
  refine ⟨by simp [holds], by simp [holds], by simp [holds], ?_, fun _ _ => ?_, fun hu => ?_,
    fun o x y hx => ?_⟩
  · simp only [holds, precedes_of_textOf? ha hb, precedes_of_textOf? hb ha, decide_eq_true_iff]
    exact fun hlt => lt_asymm hlt.1 hlt.2
  · simp only [holds, precedes_of_textOf? ha hb, precedes_of_textOf? hb ha, hi.equal_of_textOf? ha hb,
      Bool.not_eq_true', decide_eq_false_iff_not, decide_eq_true_iff, not_lt]
    exact ⟨le_iff_lt_or_eq, by rw [le_iff_lt_or_eq, eq_comm]⟩
  · rw [Unordered, hna, hnb] at hu
    simp at hu
  · rw [hna] at hx
    cases hx

/-- **`Interned.coheres`** — the comparisons of two values that can be ordered depend on each other as
`Coherent` says. -/
theorem Interned.coheres (hi : h.Interned) (hab : h.Orderable a b) : h.Coherent a b := by
  rcases hab with ⟨x, y, ha, hb⟩ | ⟨s, t, ha, hb⟩
  · exact coherent_of_numeric? ha hb
  · exact hi.coherent_of_textOf? ha hb

end Heap

end ScriptMachine
