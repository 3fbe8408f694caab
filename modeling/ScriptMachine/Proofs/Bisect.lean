import Mathlib
import ScriptMachine.Bisect

/-!
# ScriptMachine.Proofs.Bisect — halving finds the place

Where the keys ascend strictly, the answer of a search splits them: the keys in front of it are at most
the number that was looked for, and the others are greater. `Position.reach` is the number of the
former, whichever of the two answers it is.

The search keeps a window of indices and halves it. What carries the induction is that the place is in
the window all along (`le_iff_lt_reach_searchFrom`): the keys in front of the window are less than the
number, and those behind it are greater. The recursion is on the size of the window, and the cases of the
proofs are those of the search: found, to the right, to the left, and the window is empty.

Two readers use this. The lines of a chunk start runs, and a byte belongs to the last run that starts at
or before it (`reach_eq`). The branch whose distance is filled in is found among the noted instructions
by its offset (`search_getElem`). Keys that do not ascend are not considered: neither reader has any.
-/

namespace ScriptMachine

/-- How many keys are at most the number, by the answer of the search for it. -/
def Position.reach {n : Nat} : Position n → Nat
  | .present i => i + 1
  | .absent i => i

theorem Position.reach_le {n : Nat} (p : Position n) : p.reach ≤ n := by
  cases p with
  | present i => exact i.isLt
  | absent i => exact Nat.le_of_lt_succ i.isLt

namespace Bisect

variable {α : Type} {key : α → Nat} {xs : Array α} {target low high j : Nat}

/-- **`Ascending key xs`** — each key is less than those that follow. -/
def Ascending (key : α → Nat) (xs : Array α) : Prop :=
  (xs.toList.map key).Pairwise (· < ·)

theorem Ascending.lt (hasc : Ascending key xs) {i : Nat} (hij : i < j) (hj : j < xs.size) :
    key xs[i] < key xs[j] := by
  have hpair := List.pairwise_iff_getElem.mp hasc i j (by simp; omega) (by simpa) hij
  simpa using hpair

theorem Ascending.le (hasc : Ascending key xs) {i : Nat} (hij : i ≤ j) (hj : j < xs.size) :
    key xs[i] ≤ key xs[j] := by
  rcases Nat.lt_or_eq_of_le hij with hlt | rfl
  · exact Nat.le_of_lt (hasc.lt hlt hj)
  · exact Nat.le_refl _

/-- The search narrows its window down and never loses the place: the keys before the window are less,
and those behind it are greater. -/
theorem le_iff_lt_reach_searchFrom (hasc : Ascending key xs) (hle : low ≤ high)
    (hhigh : high ≤ xs.size)
    (hbelow : ∀ (j : Nat) (hj : j < xs.size), j < low → key xs[j] < target)
    (habove : ∀ (j : Nat) (hj : j < xs.size), high ≤ j → target < key xs[j]) (hj : j < xs.size) :
    key xs[j] ≤ target ↔ j < (searchFrom key xs target low high hle hhigh).reach := by
  fun_induction searchFrom key xs target low high hle hhigh with
  | case1 low high hle hhigh hlt middle hmiddle hsize heq =>
    -- found: the keys up to the middle one are at most it
    show _ ↔ j < middle + 1
    constructor
    · intro hkey
      by_contra hnot
      have := hasc.lt (i := middle) (by omega) hj
      omega
    · intro hlt
      have := hasc.le (Nat.le_of_lt_succ hlt) hsize
      omega
  | case2 low high hle hhigh hlt middle hmiddle hsize hne hless ih =>
    refine ih (fun j hj hlow => ?_) habove
    exact Nat.lt_of_le_of_lt (hasc.le (Nat.le_of_lt_succ hlow) hsize) hless
  | case3 low high hle hhigh hlt middle hmiddle hsize hne hless ih =>
    refine ih hbelow fun j hj hhigh' => ?_
    have := hasc.le hhigh' hj
    omega
  | case4 low high hle hhigh hnot =>
    show _ ↔ j < low
    constructor
    · intro hkey
      by_contra hge
      have := habove j hj (by omega)
      omega
    · exact fun hlow => Nat.le_of_lt (hbelow j hj hlow)

/-- **`le_iff_lt_reach`** — a key is at most the number that was looked for if and only if it stands in
front of the answer. -/
theorem le_iff_lt_reach (hasc : Ascending key xs) (target : Nat) (hj : j < xs.size) :
    key xs[j] ≤ target ↔ j < (search key xs target).reach :=
  le_iff_lt_reach_searchFrom hasc _ _ (fun j _ hlow => absurd hlow (Nat.not_lt_zero j))
    (fun _ hj hhigh => absurd hj (Nat.not_lt_of_le hhigh)) hj

/-- The answer stands right behind the last key that is at most the number. -/
theorem reach_eq (hasc : Ascending key xs) (hj : j < xs.size) (hkey : key xs[j] ≤ target)
    (hnext : ∀ h : j + 1 < xs.size, target < key xs[j + 1]) :
    (search key xs target).reach = j + 1 := by
  have hlt := (le_iff_lt_reach hasc target hj).mp hkey
  have hle := (search key xs target).reach_le
  by_contra hne
  have hnext' := hnext (by omega)
  have := (le_iff_lt_reach hasc target (j := j + 1) (by omega)).mpr (by omega)
  omega

/-- The window of a search keeps the index of the key that is looked for. -/
theorem searchFrom_getElem (hasc : Ascending key xs) (hj : j < xs.size) (htarget : key xs[j] = target)
    (hle : low ≤ high) (hhigh : high ≤ xs.size) (hlow : low ≤ j) (hlt : j < high) :
    searchFrom key xs target low high hle hhigh = .present ⟨j, hj⟩ := by
  fun_induction searchFrom key xs target low high hle hhigh with
  | case1 low high hle hhigh h middle hmiddle hsize heq =>
    rcases Nat.lt_trichotomy middle j with hbefore | hsame | hbehind
    · have := hasc.lt hbefore hj
      omega
    · simp only [hsame]
    · have := hasc.lt hbehind hsize
      omega
  | case2 low high hle hhigh h middle hmiddle hsize hne hless ih =>
    refine ih ?_ hlt
    by_contra hnot
    have := hasc.le (Nat.le_of_not_lt hnot) hsize
    omega
  | case3 low high hle hhigh h middle hmiddle hsize hne hless ih =>
    refine ih hlow ?_
    by_contra hnot
    have := hasc.le (Nat.le_of_not_lt hnot) hj
    omega
  | case4 low high hle hhigh h => omega

/-- **`search_getElem`** — a key that is there is found, at its index. -/
theorem search_getElem (hasc : Ascending key xs) (hj : j < xs.size) :
    search key xs (key xs[j]) = .present ⟨j, hj⟩ :=
  searchFrom_getElem hasc hj rfl _ _ (Nat.zero_le j) hj

end Bisect

end ScriptMachine
