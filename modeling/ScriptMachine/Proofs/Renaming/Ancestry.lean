import Mathlib
import ScriptMachine.Proofs.Heap.Climbing
import ScriptMachine.Proofs.Renaming.Heap

/-!
# ScriptMachine.Proofs.Renaming.Ancestry — searches through classes and packages

A search goes from class to class, or from package to package, at most as many times as the heap has
cells. Like heaps can have different numbers of cells; they find like things all the same.

`Like.search` compares two searches, each of which is limited by the number of cells of its own heap. That
this number is always enough to find what there is to find is shown where climbing is treated.
-/

namespace ScriptMachine

/-! ## The way up in like heaps -/

section Like

variable {α : Type} {β : Pairing} {look look' : Ref → Option α} {up : α → Option Ref}
  {R : α → α → Prop} {r s : Ref} {o o' : Option Ref}
  (hlook : ∀ r s, β.rel r s → Option.Rel R (look r) (look' s))
  (hup : ∀ a b, R a b → Option.Rel β.rel (up a) (up b))
include hlook hup

theorem nextUp_like (k : Nat) (ho : Option.Rel β.rel o o') :
    Option.Rel β.rel ((nextUp look up)^[k] o) ((nextUp look' up)^[k] o') := by
  induction k with
  | zero => exact ho
  | succ k ih =>
    rw [Function.iterate_succ_apply', Function.iterate_succ_apply']
    exact ih.bind fun r s hr => (hlook r s hr).bind hup

/-- By induction on the fuel, one step up at a time. -/
theorem climb_like (fuel : Nat) (ho : Option.Rel β.rel o o') :
    List.Forall₂ (fun e f => β.rel e.1 f.1 ∧ R e.2 f.2) (climb look up fuel o)
      (climb look' up fuel o') := by
  induction fuel generalizing o o' with
  | zero => cases ho <;> exact .nil
  | succ fuel ih =>
    cases ho with
    | none => exact .nil
    | @some r s hr =>
      have hrs := hlook r s hr
      unfold climb
      generalize look r = a, look' s = b at hrs
      cases hrs with
      | none => exact .nil
      | some hab => exact .cons ⟨hr, hab⟩ (ih (hup _ _ hab))

end Like

namespace Heap

variable {β : Pairing} {h h' : Heap} {r s : Ref} {k l : Key} {o o' : Option Ref}

/-! ### Searches -/

section Search

variable {α γ : Type} {look look' : Ref → Option α} {up : α → Option Ref}
  {R : α → α → Prop} {S : γ → γ → Prop} (hl : h.Like β h')
  (hlook : ∀ r s, β.rel r s → Option.Rel R (look r) (look' s))
  (hup : ∀ a b, R a b → Option.Rel β.rel (up a) (up b)) (ho : Option.Rel β.rel o o')
include hl hlook hup ho

/-- The way goes through objects that are there. -/
theorem Like.bounds : (∀ k r, (nextUp look up)^[k] o = some r → r.index < h.cells.size) ∧
    ∀ k s, (nextUp look' up)^[k] o' = some s → s.index < h'.cells.size := by
  have hpaired := fun k => nextUp_like hlook hup k ho
  constructor
  · intro k r hr
    have hrel := hpaired k
    rw [hr] at hrel
    generalize (nextUp look' up)^[k] o' = b at hrel
    cases hrel with
    | some hrs =>
      obtain ⟨_, _, hobj, -⟩ := hl.objects _ _ hrs
      exact index_lt hobj
  · intro k s hs
    have hrel := hpaired k
    rw [hs] at hrel
    generalize (nextUp look up)^[k] o = a at hrel
    cases hrel with
    | some hrs =>
      obtain ⟨_, _, -, hobj, -⟩ := hl.objects _ _ hrs
      exact index_lt hobj

/-- **`Like.search`** — searches in like heaps find like things, whatever the numbers of cells. -/
theorem Like.search {p q : Ref × α → Option γ}
    (hpq : ∀ e f, β.rel e.1 f.1 ∧ R e.2 f.2 → Option.Rel S (p e) (q f)) :
    Option.Rel S ((climb look up h.cells.size o).findSome? p)
      ((climb look' up h'.cells.size o').findSome? q) := by
  obtain ⟨hbound, hbound'⟩ := hl.bounds hlook hup ho
  rw [← findSome?_climb hbound p (max h.cells.size h'.cells.size) (Nat.le_max_left ..),
    ← findSome?_climb hbound' q (max h.cells.size h'.cells.size) (Nat.le_max_right ..)]
  exact findSome?_rel (climb_like hlook hup _ ho) hpq

end Search

section Classes

variable (hl : h.Like β h') (hr : β.rel r s)
include hl hr

/-- A search through the classes finds the same one. -/
theorem Like.searchClasses {γ : Type} {S : γ → γ → Prop} {p q : Ref × ClassObj → Option γ}
    (hpq : ∀ e f, β.rel e.1 f.1 ∧ e.2.Like β f.2 → Option.Rel S (p e) (q f)) :
    Option.Rel S ((h.ancestry r).findSome? p) ((h'.ancestry s).findSome? q) := by
  unfold ancestry
  rw [ancestryFrom_eq, ancestryFrom_eq]
  exact hl.search (fun _ _ => hl.class?) (fun _ _ hc => hc.superclass) (.some hr) hpq

theorem Like.method? (hk : k.Like β l) :
    Option.Rel β.rel (h.method? r k) (h'.method? s l) :=
  hl.searchClasses hr fun _ _ he => (he.2.methods.get? hk).bind fun _ _ hv => hv.ref?

theorem Like.static? (hk : k.Like β l) :
    Option.Rel (Value.Like β) (h.static? r k) (h'.static? s l) :=
  hl.searchClasses hr fun _ _ he => he.2.statics.get? hk

theorem Like.staticOwner? (hk : k.Like β l) :
    Option.Rel β.rel (h.staticOwner? r k) (h'.staticOwner? s l) := by
  unfold Heap.staticOwner?
  rw [List.find?_eq_findSome?_guard, List.find?_eq_findSome?_guard]
  refine Option.Rel.map (R := fun e f => β.rel e.1 f.1 ∧ e.2.Like β f.2)
    (hl.searchClasses hr fun e f he => ?_) fun _ _ he => he.1
  exact guard_rel he (he.2.statics.contains_eq hk)

theorem Like.ancestry_any_eq {p q : Ref × ClassObj → Bool}
    (hpq : ∀ e f, β.rel e.1 f.1 ∧ e.2.Like β f.2 → p e = q f) :
    (h.ancestry r).any p = (h'.ancestry s).any q := by
  have hany : ∀ {l : List (Ref × ClassObj)} {p : Ref × ClassObj → Bool},
      l.any p = (l.findSome? (Option.guard p)).isSome := fun {l p} => by
    rw [← List.find?_eq_findSome?_guard, Bool.eq_iff_iff, List.find?_isSome, List.any_eq_true]
  rw [hany, hany]
  exact (hl.searchClasses (S := fun e f => β.rel e.1 f.1 ∧ e.2.Like β f.2) hr fun e f he =>
    guard_rel he (hpq e f he)).isSome_eq

/-- A chain of classes ends on both sides or on neither. -/
theorem Like.ancestryEnds_eq : h.ancestryEnds r = h'.ancestryEnds s := by
  obtain ⟨hbound, hbound'⟩ := hl.bounds (fun _ _ => hl.class?) (fun _ _ hc => hc.superclass) (.some hr)
  have hpaired := nextUp_like (fun _ _ => hl.class?) (fun _ _ hc => hc.superclass)
    (max h.cells.size h'.cells.size) (.some hr)
  unfold ancestryEnds
  rw [Bool.eq_iff_iff, ancestryEndsWithin_iff, ancestryEndsWithin_iff,
    ← ends_iff hbound (max h.cells.size h'.cells.size) (Nat.le_max_left ..),
    ← ends_iff hbound' (max h.cells.size h'.cells.size) (Nat.le_max_right ..)]
  generalize (nextUp h.class? _)^[_] _ = a, (nextUp h'.class? _)^[_] _ = b at hpaired
  cases hpaired <;> simp

end Classes

/-- Searches through packages, as those through classes. -/
theorem Like.searchPackages {γ : Type} {S : γ → γ → Prop} {p q : Ref × Package → Option γ}
    (hl : h.Like β h') (ho : Option.Rel β.rel o o')
    (hpq : ∀ e f, β.rel e.1 f.1 ∧ e.2.Like β f.2 → Option.Rel S (p e) (q f)) :
    Option.Rel S ((h.packages o).findSome? p) ((h'.packages o').findSome? q) := by
  unfold packages
  rw [packagesFrom_eq, packagesFrom_eq]
  exact hl.search (fun _ _ => hl.package?) (fun _ _ hp => hp.parent) ho hpq

theorem Like.findPackage? (hl : h.Like β h') (ho : Option.Rel β.rel o o') (hk : k.Like β l) :
    Option.Rel (fun e f => β.rel e.1 f.1 ∧ e.2.Like β f.2)
      ((h.packages o).find? fun q => q.2.symbols.contains k)
      ((h'.packages o').find? fun q => q.2.symbols.contains l) := by
  rw [List.find?_eq_findSome?_guard, List.find?_eq_findSome?_guard]
  exact hl.searchPackages ho fun e f he => guard_rel he (he.2.symbols.contains_eq hk)

end Heap

end ScriptMachine
