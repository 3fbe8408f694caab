import Mathlib
import ScriptMachine.Machine.Globals
import ScriptMachine.Proofs.Heap.Evolution

/-!
# ScriptMachine.Proofs.Heap.Climbing — the way up from a class or a package

A class has the one above it, a package the one around it. Both ways are climbed in the same manner, at
most as many times as the heap has cells. The limit makes no difference to what is found: a way through
references of fewer cells comes back to where it has been, so that going on finds nothing new.

`repeats` is a count: more steps than there are cells visit a cell twice. From it `findSome?_climb`
follows, that a search with the limit finds what a longer one does, and `ends_iff`, that a way which
ends at all ends within the limit. A way that goes round is not excluded here. Two classes can have
each other as superclass, and a climb among them is cut off at the limit; what it finds until then is
all there is to find.
-/

namespace ScriptMachine

/-! ## The way up -/

section Way

variable {α : Type} (look : Ref → Option α) (up : α → Option Ref)

/-- The next reference on the way. -/
def nextUp (o : Option Ref) : Option Ref :=
  o.bind fun r => (look r).bind up

/-- What is found on the way, at most so many. -/
def climb : Nat → Option Ref → List (Ref × α)
  | 0, _ | _, none => []
  | fuel + 1, some r =>
    match look r with
    | some a => (r, a) :: climb fuel (up a)
    | none => []

theorem nextUp_none (k : Nat) : (nextUp look up)^[k] none = none :=
  Function.iterate_fixed rfl k

/-- What is found after so many steps. -/
theorem getElem?_climb (fuel k : Nat) (o : Option Ref) : (climb look up fuel o)[k]? =
    if k < fuel then ((nextUp look up)^[k] o).bind fun r => (look r).map (r, ·) else none := by
  induction fuel generalizing k o with
  | zero => cases o <;> rfl
  | succ fuel ih =>
    cases o with
    | none => simp [climb, nextUp_none]
    | some r =>
      unfold climb
      cases hr : look r with
      | none =>
        cases k with
        | zero => simp [hr]
        | succ k =>
          rw [Function.iterate_succ_apply, show nextUp look up (some r) = none by simp [nextUp, hr],
            nextUp_none]
          simp
      | some a =>
        cases k with
        | zero => simp [hr]
        | succ k =>
          rw [Function.iterate_succ_apply, show nextUp look up (some r) = up a by simp [nextUp, hr],
            List.getElem?_cons_succ, ih]
          simp only [Nat.add_lt_add_iff_right]

/-- What is found is what its reference stands for. -/
theorem look_of_mem_climb {fuel : Nat} {o : Option Ref} {e : Ref × α}
    (he : e ∈ climb look up fuel o) : look e.1 = some e.2 := by
  obtain ⟨k, hk⟩ := List.mem_iff_getElem?.mp he
  rw [getElem?_climb] at hk
  split at hk
  · obtain ⟨r, -, hr⟩ := Option.bind_eq_some_iff.mp hk
    obtain ⟨a, ha, rfl⟩ := Option.map_eq_some_iff.mp hr
    exact ha
  · cases hk

section Changed

variable {look up} {look' : Ref → Option α} {f : Ref → α → α}
  (hlook : ∀ r, look' r = (look r).map (f r)) (hup : ∀ r a, up (f r a) = up a)
include hlook hup

/-- What is found may change: the way does not, as long as it leads on to the same. -/
theorem nextUp_congr : nextUp look' up = nextUp look up := by
  funext o
  unfold nextUp
  refine Option.bind_congr fun r _ => ?_
  rw [hlook, Option.bind_map]
  exact Option.bind_congr fun a _ => hup r a

/-- Another way to look things up, with the same steps up, climbs through the same references. -/
theorem climb_congr (fuel : Nat) (o : Option Ref) :
    climb look' up fuel o = (climb look up fuel o).map fun e => (e.1, f e.1 e.2) := by
  induction fuel generalizing o with
  | zero => cases o <;> rfl
  | succ fuel ih =>
    cases o with
    | none => rfl
    | some r =>
      unfold climb
      rw [hlook]
      cases look r with
      | none => rfl
      | some a => simp [ih, hup]

end Changed

/-- With less fuel a climb stops earlier, and it is the same until then. -/
theorem take_climb (n fuel : Nat) (hle : n ≤ fuel) (o : Option Ref) :
    (climb look up fuel o).take n = climb look up n o := by
  refine List.ext_getElem? fun k => ?_
  rw [List.getElem?_take, getElem?_climb, getElem?_climb]
  split
  · rw [if_pos (by omega)]
  · rfl

variable {look up} {n : Nat} {o : Option Ref}
  (hbound : ∀ k r, (nextUp look up)^[k] o = some r → r.index < n)
include hbound

/-- **`repeats`** — a way through so few cells that goes on for as many steps has been there before. -/
theorem repeats (hgoes : ((nextUp look up)^[n] o).isSome = true) :
    ∃ i j, i < j ∧ j ≤ n ∧ (nextUp look up)^[i] o = (nextUp look up)^[j] o := by
  -- whatever comes before a step that finds something has found something
  have hsome : ∀ k ≤ n, ∃ r, (nextUp look up)^[k] o = some r := by
    intro k hk
    cases hr : (nextUp look up)^[k] o with
    | some r => exact ⟨r, rfl⟩
    | none =>
      obtain ⟨d, rfl⟩ := Nat.exists_eq_add_of_le hk
      rw [Nat.add_comm, Function.iterate_add_apply, hr, nextUp_none] at hgoes
      cases hgoes
  choose! ref href using hsome
  have hlt : ∀ k : Fin (n + 1), (ref k).index < n := fun k =>
    hbound k _ (href k (Nat.le_of_lt_succ k.isLt))
  obtain ⟨i, j, hne, heq⟩ := Fintype.exists_ne_map_eq_of_card_lt
    (fun k : Fin (n + 1) => (⟨(ref k).index, hlt k⟩ : Fin n)) (by simp)
  have hsame : (nextUp look up)^[i] o = (nextUp look up)^[j] o := by
    rw [href i (Nat.le_of_lt_succ i.isLt), href j (Nat.le_of_lt_succ j.isLt)]
    have hindex := congrArg Fin.val heq
    exact congrArg some (congrArg Ref.mk hindex)
  rcases Nat.lt_or_gt_of_ne (Fin.val_ne_of_ne hne) with hlt | hlt
  · exact ⟨i, j, hlt, Nat.le_of_lt_succ j.isLt, hsame⟩
  · exact ⟨j, i, hlt, Nat.le_of_lt_succ i.isLt, hsame.symm⟩

/-- Every step that finds something finds what an early step has found. -/
theorem exists_early (k : Nat) (hk : ((nextUp look up)^[k] o).isSome = true) :
    ∃ i < n, (nextUp look up)^[i] o = (nextUp look up)^[k] o := by
  induction k using Nat.strong_induction_on with
  | _ k ih =>
    by_cases hlt : k < n
    · exact ⟨k, hlt, rfl⟩
    · obtain ⟨d, rfl⟩ := Nat.exists_eq_add_of_le (Nat.le_of_not_lt hlt)
      have hgoes : ((nextUp look up)^[n] o).isSome = true := by
        cases hr : (nextUp look up)^[n] o with
        | some r => rfl
        | none =>
          rw [Nat.add_comm, Function.iterate_add_apply, hr, nextUp_none] at hk
          cases hk
      obtain ⟨i, j, hij, hjn, hsame⟩ := repeats hbound hgoes
      -- the same way from the earlier visit
      have hback : (nextUp look up)^[n + d - j + i] o = (nextUp look up)^[n + d] o := by
        rw [Function.iterate_add_apply, hsame, ← Function.iterate_add_apply,
          Nat.sub_add_cancel (by omega)]
      obtain ⟨e, he, heq⟩ := ih (n + d - j + i) (by omega) (by rw [hback]; exact hk)
      exact ⟨e, he, heq.trans hback⟩

/-- A longer climb reaches nothing new. -/
theorem mem_climb (fuel : Nat) {e : Ref × α} (he : e ∈ climb look up fuel o) :
    e ∈ climb look up n o := by
  obtain ⟨k, hk⟩ := List.mem_iff_getElem?.mp he
  rw [getElem?_climb] at hk
  split at hk
  · have hsome : ((nextUp look up)^[k] o).isSome = true := by
      cases hr : (nextUp look up)^[k] o with
      | some r => rfl
      | none =>
        rw [hr] at hk
        cases hk
    obtain ⟨i, hi, heq⟩ := exists_early hbound k hsome
    refine List.mem_iff_getElem?.mpr ⟨i, ?_⟩
    rw [getElem?_climb, if_pos hi, heq, hk]
  · cases hk

/-- **`findSome?_climb`** — a longer search finds the same. -/
theorem findSome?_climb {γ : Type} (p : Ref × α → Option γ) (fuel : Nat) (hle : n ≤ fuel) :
    (climb look up fuel o).findSome? p = (climb look up n o).findSome? p := by
  conv_lhs => rw [← List.take_append_drop n (climb look up fuel o)]
  rw [List.findSome?_append, take_climb look up n fuel hle]
  cases hfound : (climb look up n o).findSome? p with
  | some c => rfl
  | none =>
    rw [Option.none_or, List.findSome?_eq_none_iff]
    intro e he
    exact List.findSome?_eq_none_iff.mp hfound e
      (mem_climb hbound fuel (List.mem_of_mem_drop he))

/-- A way that ends at all ends within as many steps as there are cells. -/
theorem ends_iff (fuel : Nat) (hle : n ≤ fuel) :
    (nextUp look up)^[fuel] o = none ↔ (nextUp look up)^[n] o = none := by
  obtain ⟨d, rfl⟩ := Nat.exists_eq_add_of_le hle
  constructor
  · intro hends
    cases hr : (nextUp look up)^[n] o with
    | none => rfl
    | some r =>
      obtain ⟨i, j, hij, hjn, hsame⟩ := repeats hbound (by rw [hr]; rfl)
      -- round and round from the first visit
      have hround : ∀ c, (nextUp look up)^[c * (j - i) + i] o = (nextUp look up)^[i] o := by
        intro c
        induction c with
        | zero => rw [Nat.zero_mul, Nat.zero_add]
        | succ c ih =>
          have hsplit : (c + 1) * (j - i) + i = (j - i) + (c * (j - i) + i) := by ring
          rw [hsplit, Function.iterate_add_apply, ih, ← Function.iterate_add_apply,
            Nat.sub_add_cancel (Nat.le_of_lt hij)]
          exact hsame.symm
      have hfar : n + d ≤ (n + d) * (j - i) + i :=
        Nat.le_add_right_of_le (Nat.le_mul_of_pos_right _ (by omega))
      obtain ⟨x, hx⟩ := Nat.exists_eq_add_of_le hfar
      have hnone : (nextUp look up)^[i] o = none := by
        rw [← hround (n + d), hx, Nat.add_comm, Function.iterate_add_apply, hends, nextUp_none]
      obtain ⟨y, hy⟩ := Nat.exists_eq_add_of_le (show i ≤ n by omega)
      rw [hy, Nat.add_comm, Function.iterate_add_apply, hnone, nextUp_none] at hr
      cases hr
  · intro hends
    rw [Nat.add_comm, Function.iterate_add_apply, hends, nextUp_none]

end Way

/-! ## The ways of the heap -/

namespace Heap

variable {h : Heap} {n : Nat} {start : Option Ref}

theorem ancestryFrom_eq (h : Heap) (fuel : Nat) (o : Option Ref) :
    h.ancestryFrom fuel o = climb h.class? ClassObj.superclass fuel o := by
  induction fuel generalizing o with
  | zero => cases o <;> rfl
  | succ fuel ih =>
    cases o with
    | none => rfl
    | some r =>
      unfold ancestryFrom climb
      split <;> rename_i hr <;> rw [hr]
      rw [ih]

theorem packagesFrom_eq (h : Heap) (fuel : Nat) (o : Option Ref) :
    h.packagesFrom fuel o = climb h.package? Package.parent fuel o := by
  induction fuel generalizing o with
  | zero => cases o <;> rfl
  | succ fuel ih =>
    cases o with
    | none => rfl
    | some r =>
      unfold packagesFrom climb
      split <;> rename_i hr <;> rw [hr]
      rw [ih]

/-- A chain of classes ends within so many steps when there is nothing left after them. -/
theorem ancestryEndsWithin_iff (h : Heap) (fuel : Nat) (o : Option Ref) :
    h.ancestryEndsWithin fuel o = true ↔
      (nextUp h.class? ClassObj.superclass)^[fuel] o = none := by
  induction fuel generalizing o with
  | zero => cases o <;> simp [ancestryEndsWithin]
  | succ fuel ih =>
    cases o with
    | none => simp [ancestryEndsWithin, nextUp_none]
    | some r =>
      rw [Function.iterate_succ_apply]
      unfold ancestryEndsWithin
      cases hr : h.class? r with
      | none => simp [nextUp, hr, nextUp_none]
      | some c =>
        rw [show nextUp h.class? ClassObj.superclass (some r) = c.superclass by simp [nextUp, hr]]
        exact ih c.superclass

theorem class?_of_mem_ancestryFrom {e : Ref × ClassObj} (he : e ∈ h.ancestryFrom n start) :
    h.class? e.1 = some e.2 := by
  rw [ancestryFrom_eq] at he
  exact look_of_mem_climb _ _ he

theorem package?_of_mem_packagesFrom {e : Ref × Package} (he : e ∈ h.packagesFrom n start) :
    h.package? e.1 = some e.2 := by
  rw [packagesFrom_eq] at he
  exact look_of_mem_climb _ _ he

end Heap

end ScriptMachine
