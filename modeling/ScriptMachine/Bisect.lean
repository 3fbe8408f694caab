/-!
# ScriptMachine.Bisect — searching ascending numbers by halving

A number is looked for among the keys of an array, which ascend. The answer is the index of the key
that equals it, or the index at which it would have to be inserted.
-/

namespace ScriptMachine

/-- Where a number is among `n` keys: at an index, or nowhere, and an index to insert it at. -/
inductive Position (n : Nat) where
  | present (index : Fin n)
  | absent (index : Fin (n + 1))
deriving Repr, DecidableEq

namespace Bisect

variable {α : Type}

/-- The search among the indices from `low` on and below `high`. -/
def searchFrom (key : α → Nat) (xs : Array α) (target low high : Nat) (hle : low ≤ high)
    (hhigh : high ≤ xs.size) : Position xs.size :=
  if h : low < high then
    let middle := low + (high - low) / 2
    have hmiddle : middle < high := by omega
    have hsize : middle < xs.size := by omega
    if key xs[middle] = target then .present ⟨middle, hsize⟩
    else if key xs[middle] < target then searchFrom key xs target (middle + 1) high hmiddle hhigh
    else searchFrom key xs target low middle (by omega) (by omega)
  else .absent ⟨low, by omega⟩
termination_by high - low

/-- **`search key xs target`** — where a number is among the keys of an array. -/
def search (key : α → Nat) (xs : Array α) (target : Nat) : Position xs.size :=
  searchFrom key xs target 0 xs.size (Nat.zero_le _) (Nat.le_refl _)

end Bisect

end ScriptMachine
