import Mathlib
import ScriptMachine.Heap.Equality
import ScriptMachine.Proofs.Dict.Refinement
import ScriptMachine.Proofs.Heap.Allocation
import ScriptMachine.Proofs.Number.Ordering

/-!
# ScriptMachine.Proofs.Heap.Equality — equality does not depend on the order of its arguments

Two dictionaries are compared by looking up the keys of the one in the other. That is enough: there are
as many keys on both sides and none occurs twice, so what has all the keys of the other has no more.
The rest of the argument follows the depth limit. Nothing is asked of the heap but that its dictionaries
are valid: containers may be shared, contain themselves, or be nested more deeply than is compared.

`equalAt_symm` is the induction, over the depth that is left, and `Matches.symm` its step: lists are
compared item by item, and dictionaries of one size by `Dict.Within.symm`. Where no depth is left two
containers are equal only if they are one object, which is symmetric by itself. Nothing is
claimed about transitivity, and equality is not transitive: a number can equal two different members of
enumerations.
-/

namespace ScriptMachine.Heap

variable {h : Heap} {levels : Nat} {a b : Value}

/-- **`h.DictsValid`** — every dictionary of the heap is valid. -/
def DictsValid (h : Heap) : Prop :=
  ∀ r d, h.get? r = some (.dict d) → d.Valid

theorem new_dictsValid (config : HeapConfig) : (new config).DictsValid := by
  simp [DictsValid, new, get?]

theorem DictsValid.alloc {o : Obj} (hd : h.DictsValid) (ht : h.Tidy)
    (ho : ∀ d, o = .dict d → d.Valid) : (h.alloc o).2.DictsValid := by
  intro r d hr
  rw [ht.get?_alloc] at hr
  split at hr
  · exact ho d (Option.some.inj hr)
  · exact hd r d hr

/-- **`h.Matches R x y`** — two objects are lists of related items, or dictionaries of one size of which
the second has the keys of the first, with related values. -/
def Matches (h : Heap) (R : Value → Value → Prop) (x y : Ref) : Prop :=
  (∃ l r, h.get? x = some (.list l) ∧ h.get? y = some (.list r) ∧ List.Forall₂ R l.toList r.toList) ∨
    ∃ l r, h.get? x = some (.dict l) ∧ h.get? y = some (.dict r) ∧ l.size = r.size ∧ l.Within r R

/-- Two containers match the other way round: their sizes are equal, so each key of the one is a key
of the other. -/
theorem Matches.symm {R R' : Value → Value → Prop} {x y : Ref} (hd : h.DictsValid)
    (hR : ∀ a b, R a b → R' b a) (hm : h.Matches R x y) : h.Matches R' y x := by
  rcases hm with ⟨l, r, hx, hy, hitems⟩ | ⟨l, r, hx, hy, hsize, hwithin⟩
  · exact .inl ⟨r, l, hy, hx, (hitems.imp fun a b => hR a b).flip⟩
  · have hwithin' := hwithin.symm (hd x l hx) (hd y r hy) hsize
    exact .inr ⟨r, l, hy, hx, hsize.symm, hwithin'.mono fun b a => hR a b⟩

/-- References are equal when they are the same, or while a level is left and the contents match. -/
theorem equalAt_obj {x y : Ref} : h.equalAt (levels + 1) (.obj x) (.obj y) = true ↔
    x = y ∨ h.Matches (fun a b => h.equalAt levels a b = true) x y := by
  rw [equalAt, Bool.or_eq_true, beq_iff_eq]
  refine or_congr_right ?_
  unfold Matches
  split
  · rename_i l r hx hy
    simp [hx, hy, List.forall₂_iff_zip]
  · rename_i l r hx hy
    simp only [hx, hy, Option.some.injEq, reduceCtorEq, Obj.dict.injEq, false_and, and_self,
      exists_const, exists_and_left, exists_eq_left', false_or, Dict.Within, Bool.and_eq_true,
      beq_iff_eq, List.all_eq_true, Prod.forall]
    refine and_congr_right fun _ => forall₃_congr fun k v _ => ?_
    cases r.get? k <;> simp
  · rename_i hlists hdicts
    refine iff_of_false Bool.false_ne_true ?_
    rintro (⟨l, r, hx, hy, -⟩ | ⟨l, r, hx, hy, -⟩)
    · exact hlists l r hx hy
    · exact hdicts l r hx hy

/-- By induction on the levels. -/
theorem equalAt_symm (hd : h.DictsValid) :
    ∀ levels a b, h.equalAt levels a b = true → h.equalAt levels b a = true := by
  intro levels
  induction levels with
  | zero =>
    intro a b hab
    cases a <;> cases b <;> simp_all [equalAt, Number.beq_comm]
  | succ levels ih =>
    intro a b hab
    cases a with
    | obj x =>
      cases b with
      | obj y =>
        rw [equalAt_obj] at hab ⊢
        exact hab.imp Eq.symm (Matches.symm hd ih)
      | _ => simp_all [equalAt]
    | _ => cases b <;> simp_all [equalAt, Number.beq_comm]

/-- **`equal_comm`** — equality of script values is symmetric: it does not matter on which side a value
stands, whatever containers it is nested in and however they refer to each other. -/
theorem equal_comm (hd : h.DictsValid) (a b : Value) : h.equal a b = h.equal b a :=
  Bool.eq_iff_iff.mpr ⟨equalAt_symm hd _ a b, equalAt_symm hd _ b a⟩

/-- Two dictionaries with the same entries, put in in different orders, equal each other in either
order; one value in them is a list that contains itself. -/
theorem equal_comm_entry_order :
    let loop := (new {}).alloc (.list #[.obj ⟨0⟩])
    let d : Dict Value := (Dict.empty.insert "x" (.number 1)).insert "y" (.obj loop.1)
    let d' : Dict Value := (Dict.empty.insert "y" (.obj loop.1)).insert "x" (.number 1)
    let first := loop.2.alloc (.dict d)
    let second := first.2.alloc (.dict d')
    second.2.DictsValid ∧
      second.2.equal (.obj first.1) (.obj second.1) = second.2.equal (.obj second.1) (.obj first.1) ∧
      second.2.equal (.obj first.1) (.obj second.1) = true := by
  intro loop d d' first second
  have hd : d.Valid := ((Dict.represents_empty.insert _ _).insert _ _).valid
  have hd' : d'.Valid := ((Dict.represents_empty.insert _ _).insert _ _).valid
  have htidy : loop.2.Tidy := (new_tidy {}).alloc _
  have hvalid : second.2.DictsValid :=
    (((new_dictsValid {}).alloc (new_tidy {}) (fun _ heq => by cases heq)).alloc htidy
      fun _ heq => Obj.dict.inj heq ▸ hd).alloc (htidy.alloc _) fun _ heq => Obj.dict.inj heq ▸ hd'
  exact ⟨hvalid, equal_comm hvalid _ _, by decide +kernel⟩

end ScriptMachine.Heap
