import Mathlib

/-!
# ScriptMachine.Proofs.Related — options, arrays and lists that are related piece by piece

Two options are related when both are empty or both have related values; two arrays or lists when they
have one length and are related place by place. What is done to both sides alike keeps them related.

The relation is a parameter throughout. It is that of a renaming of references wherever two machines are
compared, and that of equal numbers where a list of items is compared with the numbers it stands for.
`Aligned` is to arrays what `List.Forall₂` is to lists, and has a lemma for each operation that the
stack of a task or the slots of a container go through.

Nothing is said of operations that reorder: no related arrays are ever sorted.
-/

/-! ## Options that are there together -/

namespace Option.Rel

variable {α β γ δ : Type} {R : α → β → Prop} {S : γ → δ → Prop}

theorem map {o : Option α} {o' : Option β} {f : α → γ} {g : β → δ}
    (h : Rel R o o') (hf : ∀ a b, R a b → S (f a) (g b)) :
    Rel S (o.map f) (o'.map g) := by
  cases h with
  | some h => exact .some (hf _ _ h)
  | none => exact .none

theorem bind {o : Option α} {o' : Option β} {f : α → Option γ} {g : β → Option δ}
    (h : Rel R o o') (hf : ∀ a b, R a b → Rel S (f a) (g b)) :
    Rel S (o.bind f) (o'.bind g) := by
  cases h with
  | some h => exact hf _ _ h
  | none => exact .none

theorem isSome_eq {o : Option α} {o' : Option β} (h : Rel R o o') :
    o.isSome = o'.isSome := by
  cases h <;> rfl

theorem isNone_eq {o : Option α} {o' : Option β} (h : Rel R o o') : o.isNone = o'.isNone := by
  cases h <;> rfl

theorem or {o o₁ : Option α} {o' o₁' : Option β} (h : Rel R o o')
    (h₁ : Rel R o₁ o₁') : Rel R (o.or o₁) (o'.or o₁') := by
  cases h with
  | some h => exact .some h
  | none => exact h₁

theorem getD {o : Option α} {o' : Option β} (h : Rel R o o') {x : α} {y : β} (hx : R x y) :
    R (o.getD x) (o'.getD y) := by
  cases h with
  | some h => exact h
  | none => exact hx

theorem eq_of_forall {o : Option α} {o' : Option β} {f : α → γ} {g : β → γ}
    (h : Rel R o o') (hf : ∀ a b, R a b → f a = g b) : o.map f = o'.map g := by
  cases h with
  | some h => exact congrArg Option.some (hf _ _ h)
  | none => rfl

theorem mono {R' : α → β → Prop} {o : Option α} {o' : Option β} (h : Rel R o o')
    (hR : ∀ a ∈ o, ∀ b, R a b → R' a b) : Rel R' o o' := by
  cases h with
  | some h => exact .some (hR _ rfl _ h)
  | none => exact .none

end Option.Rel

namespace ScriptMachine

/-! ## Sequences of the same length -/

/-- **`Aligned R xs ys`** — the arrays have one length and are related place by place. -/
def Aligned {α β : Type} (R : α → β → Prop) (xs : Array α) (ys : Array β) : Prop :=
  List.Forall₂ R xs.toList ys.toList

section Aligned

variable {α β γ δ : Type} {R : α → β → Prop} {S : γ → δ → Prop}
  {xs xs' : Array α} {ys ys' : Array β} {x : α} {y : β} {l : List α} {l' : List β}

/-- Lists are related when what they have at each index is. -/
theorem forall₂_iff_getElem? : List.Forall₂ R l l' ↔ ∀ i : Nat, Option.Rel R l[i]? l'[i]? := by
  constructor
  · intro h
    induction h with
    | nil => exact fun _ => .none
    | cons hx _ ih =>
      rintro (_ | i)
      · exact .some hx
      · exact ih i
  · intro h
    induction l generalizing l' with
    | nil =>
      cases l' with
      | nil => exact .nil
      | cons => cases h 0
    | cons x l ih =>
      cases l' with
      | nil => cases h 0
      | cons y l' =>
        cases h 0 with
        | some hx => exact .cons hx (ih fun i => h (i + 1))

/-- And so are arrays. -/
theorem aligned_iff : Aligned R xs ys ↔ ∀ i : Nat, Option.Rel R xs[i]? ys[i]? := by
  unfold Aligned
  rw [forall₂_iff_getElem?]
  simp only [Array.getElem?_toList]

namespace Aligned

theorem empty : Aligned R #[] #[] :=
  .nil

theorem getElem? (h : Aligned R xs ys) (i : Nat) : Option.Rel R xs[i]? ys[i]? :=
  aligned_iff.mp h i

theorem size_eq (h : Aligned R xs ys) : xs.size = ys.size := by
  rw [← Array.length_toList, ← Array.length_toList, List.Forall₂.length_eq h]

theorem mono {R' : α → β → Prop} (h : Aligned R xs ys) (hR : ∀ x ∈ xs, ∀ y, R x y → R' x y) :
    Aligned R' xs ys := by
  have hboth := (List.forall₂_and_left (p := (· ∈ xs)) _ _).mpr
    ⟨fun x hx => Array.mem_toList_iff.mp hx, h⟩
  exact hboth.imp fun x y hxy => hR x hxy.1 y hxy.2

theorem getD (h : Aligned R xs ys) (i : Nat) (hx : R x y) : R (xs.getD i x) (ys.getD i y) := by
  rw [Array.getD_eq_getD_getElem?, Array.getD_eq_getD_getElem?]
  exact (h.getElem? i).getD hx

theorem push (h : Aligned R xs ys) (hx : R x y) : Aligned R (xs.push x) (ys.push y) := by
  unfold Aligned
  rw [Array.toList_push, Array.toList_push]
  exact List.rel_append h (.cons hx .nil)

theorem pop (h : Aligned R xs ys) : Aligned R xs.pop ys.pop := by
  unfold Aligned
  rw [Array.toList_pop, Array.toList_pop, List.dropLast_eq_take, List.dropLast_eq_take, h.length_eq]
  exact List.forall₂_take _ h

theorem shrink (h : Aligned R xs ys) (n : Nat) : Aligned R (xs.shrink n) (ys.shrink n) := by
  unfold Aligned
  rw [Array.toList_shrink, Array.toList_shrink]
  exact List.forall₂_take n h

theorem extract (h : Aligned R xs ys) (i j : Nat) : Aligned R (xs.extract i j) (ys.extract i j) := by
  unfold Aligned
  rw [Array.toList_extract, Array.toList_extract, List.extract_eq_take_drop,
    List.extract_eq_take_drop]
  exact List.forall₂_take _ (List.forall₂_drop i h)

theorem append (h : Aligned R xs ys) (h' : Aligned R xs' ys') : Aligned R (xs ++ xs') (ys ++ ys') := by
  unfold Aligned
  rw [Array.toList_append, Array.toList_append]
  exact List.rel_append h h'

theorem replicate (hx : R x y) (n : Nat) :
    Aligned R (Array.replicate n x) (Array.replicate n y) := by
  rw [aligned_iff]
  intro i
  rw [Array.getElem?_replicate, Array.getElem?_replicate]
  split
  · exact .some hx
  · exact .none

theorem setIfInBounds (h : Aligned R xs ys) (i : Nat) (hx : R x y) :
    Aligned R (xs.setIfInBounds i x) (ys.setIfInBounds i y) := by
  rw [aligned_iff]
  intro j
  rw [Array.getElem?_setIfInBounds, Array.getElem?_setIfInBounds, h.size_eq]
  split
  · split
    · exact .some hx
    · exact .none
  · exact h.getElem? j

theorem map (h : Aligned R xs ys) {f : α → γ} {g : β → δ} (hf : ∀ x y, R x y → S (f x) (g y)) :
    Aligned S (xs.map f) (ys.map g) := by
  unfold Aligned
  rw [Array.toList_map, Array.toList_map]
  exact List.rel_map (fun x y => hf x y) h

theorem eraseIdxIfInBounds (h : Aligned R xs ys) (i : Nat) :
    Aligned R (xs.eraseIdxIfInBounds i) (ys.eraseIdxIfInBounds i) := by
  unfold Array.eraseIdxIfInBounds
  by_cases hi : i < xs.size
  · rw [dif_pos hi, dif_pos (h.size_eq ▸ hi), aligned_iff]
    intro j
    rw [Array.getElem?_eraseIdx, Array.getElem?_eraseIdx]
    split
    · exact h.getElem? j
    · exact h.getElem? (j + 1)
  · rw [dif_neg hi, dif_neg (h.size_eq ▸ hi)]
    exact h

theorem insertIdxIfInBounds (h : Aligned R xs ys) (i : Nat) (hx : R x y) :
    Aligned R (xs.insertIdxIfInBounds i x) (ys.insertIdxIfInBounds i y) := by
  unfold Array.insertIdxIfInBounds
  by_cases hi : i ≤ xs.size
  · rw [dif_pos hi, dif_pos (h.size_eq ▸ hi), aligned_iff]
    intro j
    rw [Array.getElem?_insertIdx, Array.getElem?_insertIdx, h.size_eq]
    split
    · exact h.getElem? j
    · split
      · split
        · exact .some hx
        · exact .none
      · exact h.getElem? (j - 1)
  · rw [dif_neg hi, dif_neg (h.size_eq ▸ hi)]
    exact h

theorem swapIfInBounds (h : Aligned R xs ys) (i j : Nat) :
    Aligned R (xs.swapIfInBounds i j) (ys.swapIfInBounds i j) := by
  unfold Array.swapIfInBounds
  by_cases hi : i < xs.size
  · by_cases hj : j < xs.size
    · have hat : ∀ k (hk : k < xs.size) (hk' : k < ys.size), R xs[k] ys[k] := by
        intro k hk hk'
        have hitem := h.getElem? k
        rw [Array.getElem?_eq_getElem hk, Array.getElem?_eq_getElem hk'] at hitem
        cases hitem with
        | some hxy => exact hxy
      rw [dif_pos hi, dif_pos hj, dif_pos (h.size_eq ▸ hi), dif_pos (h.size_eq ▸ hj), aligned_iff]
      intro k
      rw [Array.getElem?_swap, Array.getElem?_swap]
      split
      · exact .some (hat i hi (h.size_eq ▸ hi))
      · split
        · exact .some (hat j hj (h.size_eq ▸ hj))
        · exact h.getElem? k
    · rw [dif_pos hi, dif_neg hj, dif_pos (h.size_eq ▸ hi), dif_neg (h.size_eq ▸ hj)]
      exact h
  · rw [dif_neg hi, dif_neg (h.size_eq ▸ hi)]
    exact h

theorem any_eq (h : Aligned R xs ys) {p : α → Bool} {q : β → Bool} (hp : ∀ x y, R x y → p x = q y) :
    xs.any p = ys.any q := by
  rw [← Array.any_toList, ← Array.any_toList]
  unfold Aligned at h
  generalize xs.toList = l, ys.toList = l' at h
  induction h with
  | nil => rfl
  | cons hx _ ih => rw [List.any_cons, List.any_cons, hp _ _ hx, ih]

theorem findIdx?_eq (h : Aligned R xs ys) {p : α → Bool} {q : β → Bool}
    (hp : ∀ x y, R x y → p x = q y) : xs.findIdx? p = ys.findIdx? q := by
  obtain ⟨l⟩ := xs
  obtain ⟨l'⟩ := ys
  rw [List.findIdx?_toArray, List.findIdx?_toArray]
  change List.Forall₂ R l l' at h
  induction h with
  | nil => rfl
  | cons hx _ ih => rw [List.findIdx?_cons, List.findIdx?_cons, hp _ _ hx, ih]

end Aligned

end Aligned

/-! ## Lists that are related item by item -/

theorem forall₂_map_eq {α γ δ : Type} {R : α → γ → Prop} {l : List α} {l' : List γ} {f : α → δ}
    {g : γ → δ} (h : List.Forall₂ R l l') (hfg : ∀ a b, R a b → f a = g b) : l.map f = l'.map g := by
  induction h with
  | nil => rfl
  | cons hab _ ih => rw [List.map_cons, List.map_cons, hfg _ _ hab, ih]

theorem forall₂_all_eq {α γ : Type} {R : α → γ → Prop} {l : List α} {l' : List γ} {p : α → Bool}
    {q : γ → Bool} (h : List.Forall₂ R l l') (hpq : ∀ a b, R a b → p a = q b) :
    l.all p = l'.all q := by
  induction h with
  | nil => rfl
  | cons hab _ ih => rw [List.all_cons, List.all_cons, hpq _ _ hab, ih]

theorem forall₂_zip {α γ δ ε : Type} {R : α → γ → Prop} {S : δ → ε → Prop} {l : List α}
    {l' : List γ} {k : List δ} {k' : List ε} (h : List.Forall₂ R l l') (h' : List.Forall₂ S k k') :
    List.Forall₂ (fun a b => R a.1 b.1 ∧ S a.2 b.2) (l.zip k) (l'.zip k') := by
  induction h generalizing k k' with
  | nil => exact .nil
  | cons hab _ ih =>
    cases h' with
    | nil => exact .nil
    | cons hcd h' => exact .cons ⟨hab, hcd⟩ (ih h')

theorem findSome?_congr {α β : Type} {l : List α} {f g : α → Option β} (h : ∀ a ∈ l, f a = g a) :
    l.findSome? f = l.findSome? g := by
  induction l with
  | nil => rfl
  | cons a l ih =>
    obtain ⟨ha, hl⟩ := List.forall_mem_cons.mp h
    rw [List.findSome?_cons, List.findSome?_cons, ha, ih hl]

/-- Searches along related lists find related things. -/
theorem findSome?_rel {α β γ δ : Type} {R : α → β → Prop} {S : γ → δ → Prop} {l : List α}
    {l' : List β} {p : α → Option γ} {q : β → Option δ} (h : List.Forall₂ R l l')
    (hpq : ∀ a b, R a b → Option.Rel S (p a) (q b)) :
    Option.Rel S (l.findSome? p) (l'.findSome? q) := by
  induction h with
  | nil => exact .none
  | cons hab _ ih =>
    rw [List.findSome?_cons, List.findSome?_cons]
    have hrel := hpq _ _ hab
    generalize p _ = x, q _ = y at hrel
    cases hrel with
    | some hxy => exact .some hxy
    | none => exact ih

theorem guard_rel {α β : Type} {R : α → β → Prop} {a : α} {b : β} {p : α → Bool} {q : β → Bool}
    (hab : R a b) (hpq : p a = q b) : Option.Rel R (Option.guard p a) (Option.guard q b) := by
  unfold Option.guard
  rw [hpq]
  split
  · exact .some hab
  · exact .none

theorem find?_rel {α γ : Type} {R : α → γ → Prop} {l : List α} {l' : List γ} {p : α → Bool}
    {q : γ → Bool} (h : List.Forall₂ R l l') (hpq : ∀ a b, R a b → p a = q b) :
    Option.Rel R (l.find? p) (l'.find? q) := by
  rw [List.find?_eq_findSome?_guard, List.find?_eq_findSome?_guard]
  exact findSome?_rel h fun a b hab => guard_rel hab (hpq a b hab)

end ScriptMachine
