import Mathlib
import ScriptMachine.Object
import ScriptMachine.Proofs.Related

/-!
# ScriptMachine.Proofs.Renaming.Pairing — the same data under other references

Two heaps can hold the same objects in different slots. A *pairing* says which reference of the one
stands for which reference of the other; it is one-to-one. Two pieces of data are *alike* under a pairing
when they are the same except for references, and these are paired.

This module has pairings, values, and the two kinds of maps. Nothing that a map does depends on what
its references are: keys are compared for equality, which a pairing respects, and slots are found by
the hash of a text.

Both kinds of maps have the same lemmas, for looking a key up, putting an entry in, taking one out and
listing the entries, and all say that like maps come out alike, slot by slot. So the order in which
entries are listed is alike as well, which is visible to scripts. `Pairing.restrict` and
`Pairing.extend` are how pairings change, by a collection on one side and by a new object on both.
-/

namespace ScriptMachine

open Relator

/-! ## Pairings -/

/-- **`Pairing`** — which references of two heaps stand for each other. -/
structure Pairing where
  rel : Ref → Ref → Prop
  unique : BiUnique rel

namespace Pairing

instance : Preorder Pairing where
  le β β' := ∀ r s, β.rel r s → β'.rel r s
  le_refl _ _ _ := id
  le_trans _ _ _ h h' r s hr := h' r s (h r s hr)

variable {β β' : Pairing} {r r' s s' : Ref}

/-- Paired references are compared alike. -/
theorem eq_iff (hr : β.rel r s) (hr' : β.rel r' s') : r = r' ↔ s = s' :=
  rel_eq β.unique hr hr'

theorem beq_eq (hr : β.rel r s) (hr' : β.rel r' s') : (r == r') = (s == s') := by
  rw [Bool.eq_iff_iff, beq_iff_eq, beq_iff_eq]
  exact β.eq_iff hr hr'

/-- The pairing of some of the references. -/
def restrict (β : Pairing) (P : Ref → Prop) : Pairing where
  rel r s := P r ∧ β.rel r s
  unique := ⟨fun _ _ _ h h' => β.unique.1 h.2 h'.2, fun _ _ _ h h' => β.unique.2 h.2 h'.2⟩

/-- A pairing with one more pair; both references are new to it, or they are a pair already. -/
def extend (β : Pairing) (r s : Ref) (hr : ∀ s', β.rel r s' → s' = s)
    (hs : ∀ r', β.rel r' s → r' = r) : Pairing where
  rel r' s' := β.rel r' s' ∨ r' = r ∧ s' = s
  unique := by
    refine ⟨fun a b c ha hb => ?_, fun a b c hb hc => ?_⟩
    · rcases ha with ha | ⟨rfl, rfl⟩ <;> rcases hb with hb | ⟨rfl, hb⟩
      · exact β.unique.1 ha hb
      · subst hb
        exact hs _ ha
      · exact (hs _ hb).symm
      · rfl
    · rcases hb with hb | ⟨rfl, rfl⟩ <;> rcases hc with hc | ⟨hc, rfl⟩
      · exact β.unique.2 hb hc
      · subst hc
        exact hr _ hb
      · exact (hr _ hc).symm
      · rfl

end Pairing

variable {β β' : Pairing} {r s : Ref}

/-! ## Values and keys -/

/-- **`v.Like β w`** — the same value under other references. -/
inductive Value.Like (β : Pairing) : Value → Value → Prop
  | none : Like β .none .none
  | bool (b : Bool) : Like β (.bool b) (.bool b)
  | number (n : Float) : Like β (.number n) (.number n)
  | obj {r s : Ref} (hr : β.rel r s) : Like β (.obj r) (.obj s)

namespace Value

variable {v w : Value}

/-- What is alike stays alike when the references it has are paired. -/
theorem Like.transfer (h : v.Like β w) (hβ : ∀ r s, v.ref? = some r → β.rel r s → β'.rel r s) :
    v.Like β' w := by
  cases h with
  | none => exact .none
  | bool b => exact .bool b
  | number n => exact .number n
  | obj hr => exact .obj (hβ _ _ rfl hr)

theorem Like.isFalsey_eq (h : v.Like β w) : v.isFalsey = w.isFalsey := by
  cases h <;> rfl

theorem Like.isNone_eq (h : v.Like β w) : v.isNone = w.isNone := by
  cases h <;> rfl

theorem Like.number?_eq (h : v.Like β w) : v.number? = w.number? := by
  cases h <;> rfl

theorem Like.ref? (h : v.Like β w) : Option.Rel β.rel v.ref? w.ref? := by
  cases h with
  | obj hr => exact .some hr
  | _ => exact .none

end Value

/-- The keys of one name. -/
structure Key.Like (β : Pairing) (k l : Key) : Prop where
  ref : β.rel k.ref l.ref
  hash : k.hash = l.hash

/-! ## Tables -/

/-- Slots with the same entry. -/
inductive Table.Slot.Like (β : Pairing) : Table.Slot Value → Table.Slot Value → Prop
  | vacant : Like β .vacant .vacant
  | erased : Like β .erased .erased
  | taken {k l : Key} {v w : Value} (hk : k.Like β l) (hv : v.Like β w) :
    Like β (.taken k v) (.taken l w)

/-- **`t.Like β u`** — the same table under other references, slot by slot. -/
structure Table.Like (β : Pairing) (t u : Table Value) : Prop where
  used : t.used = u.used
  slots : Aligned (Table.Slot.Like β) t.slots u.slots

namespace Table

variable {t u t' u' : Table Value} {k l : Key} {v w : Value}
  {ss ss' : Array (Slot Value)}

theorem Slot.Like.item? {x y : Slot Value} (h : x.Like β y) :
    Option.Rel (fun e f => e.1.Like β f.1 ∧ e.2.Like β f.2) x.item? y.item? := by
  cases h with
  | taken hk hv => exact .some ⟨hk, hv⟩
  | _ => exact .none

/-- Tables stay alike under another pairing, if it agrees on what they refer to. -/
theorem Like.transfer (h : t.Like β u) (hβ : ∀ r s, r ∈ t.references → β.rel r s → β'.rel r s) :
    t.Like β' u := by
  refine ⟨h.used, h.slots.mono fun x hx y hxy => ?_⟩
  cases hxy with
  | vacant => exact .vacant
  | erased => exact .erased
  | @taken k l v w hk hv =>
    have hmem : (k, v) ∈ t.toList :=
      List.mem_filterMap.mpr ⟨_, Array.mem_toList_iff.mpr hx, rfl⟩
    refine .taken ⟨hβ _ _ ?_ hk.ref, hk.hash⟩ (hv.transfer fun r s hr => hβ r s ?_)
    · exact List.mem_flatMap.mpr ⟨_, hmem, List.mem_cons_self⟩
    · refine List.mem_flatMap.mpr ⟨_, hmem, List.mem_cons_of_mem _ ?_⟩
      rw [hr]
      exact List.mem_cons_self

theorem Like.empty : (empty : Table Value).Like β .empty :=
  ⟨rfl, .empty⟩

/-- A reference is looked for in the same slots. -/
theorem findSlotFrom_eq (h : Aligned (Slot.Like β) ss ss') (hr : β.rel r s) (grave : Option Nat)
    (i fuel : Nat) : findSlotFrom ss r grave i fuel = findSlotFrom ss' s grave i fuel := by
  induction fuel generalizing grave i with
  | zero => rfl
  | succ fuel ih =>
    have hslot := h.getD i (x := .vacant) (y := .vacant) .vacant
    unfold findSlotFrom
    generalize ss.getD i .vacant = x, ss'.getD i .vacant = y at hslot
    cases hslot with
    | vacant => rfl
    | erased => rw [h.size_eq, ih]
    | taken hk hv =>
      dsimp only
      rw [h.size_eq, ih]
      exact if_congr (β.eq_iff hk.ref hr) rfl rfl

/-- A key is found in the same slot, as hashes do not depend on references. -/
theorem findSlot_eq (h : Aligned (Slot.Like β) ss ss') (hk : k.Like β l) :
    findSlot ss k = findSlot ss' l := by
  unfold findSlot home
  rw [hk.hash, h.size_eq]
  exact findSlotFrom_eq h hk.ref _ _ _

theorem Like.get? (h : t.Like β u) (hk : k.Like β l) :
    Option.Rel (Value.Like β) (t.get? k) (u.get? l) := by
  unfold Table.get?
  rw [h.used, findSlot_eq h.slots hk]
  split
  · exact .none
  · exact (h.slots.getD _ .vacant).item?.map fun _ _ he => he.2

theorem Like.contains_eq (h : t.Like β u) (hk : k.Like β l) : t.contains k = u.contains l :=
  (h.get? hk).isSome_eq

theorem Like.place (h : t.Like β u) (hk : k.Like β l) (hv : v.Like β w) :
    (t.place k v).Like β (u.place l w) := by
  have hslot := h.slots.getD (findSlot u.slots l) (x := .vacant) (y := .vacant) .vacant
  unfold Table.place
  dsimp only
  rw [findSlot_eq h.slots hk, h.used]
  refine ⟨?_, h.slots.setIfInBounds _ (.taken hk hv)⟩
  generalize t.slots.getD _ .vacant = x, u.slots.getD _ .vacant = y at hslot
  cases hslot <;> rfl

theorem Like.receive (h : t.Like β u) (hk : k.Like β l) (hv : v.Like β w) :
    (t.receive k v).Like β (u.receive l w) := by
  unfold Table.receive
  rw [findSlot_eq h.slots hk, h.used]
  exact ⟨rfl, h.slots.setIfInBounds _ (.taken hk hv)⟩

/-- Entries are put in one after the other. -/
theorem Like.foldl {put : Table Value → Slot Value → Table Value}
    (hput : ∀ {t u : Table Value} {x y : Slot Value}, t.Like β u → x.Like β y →
      (put t x).Like β (put u y))
    (h : t.Like β u) (hs : Aligned (Slot.Like β) ss ss') :
    (ss.foldl put t).Like β (ss'.foldl put u) := by
  rw [← Array.foldl_toList, ← Array.foldl_toList]
  exact List.rel_foldl (R := Slot.Like β) (P := Table.Like β) (fun _ _ h _ _ hxy => hput h hxy) h hs

/-- The entries are placed again, in the order of the slots. -/
theorem Like.resized (h : t.Like β u) (capacity : Nat) :
    (t.resized capacity).Like β (u.resized capacity) := by
  have hvacant : (vacant capacity).Like β (vacant capacity) :=
    ⟨rfl, .replicate .vacant capacity⟩
  refine Like.foldl (fun h hxy => ?_) hvacant h.slots
  cases hxy with
  | taken hk hv => exact h.receive hk hv
  | _ => exact h

theorem Like.set (h : t.Like β u) (hk : k.Like β l) (hv : v.Like β w) :
    (t.set k v).Like β (u.set l w) := by
  refine Like.place ?_ hk hv
  unfold withRoom nextCapacity capacity
  rw [h.slots.size_eq, h.used]
  split
  · exact h.resized _
  · exact h

theorem Like.addAll (h : t.Like β u) (h' : t'.Like β u') :
    (t.addAll t').Like β (u.addAll u') := by
  refine Like.foldl (fun h hxy => ?_) h h'.slots
  cases hxy with
  | taken hk hv => exact h.set hk hv
  | _ => exact h

end Table

/-! ## Dictionaries -/

/-- Slots with the same entry. -/
inductive Dict.Slot.Like (β : Pairing) : Dict.Slot Value → Dict.Slot Value → Prop
  | vacant : Like β .vacant .vacant
  | erased : Like β .erased .erased
  | full (key : String) (hash : UInt32) {v w : Value} (hv : v.Like β w) :
    Like β (.full key hash v) (.full key hash w)

/-- **`d.Like β e`** — the same dictionary under other references, slot by slot. -/
structure Dict.Like (β : Pairing) (d e : Dict Value) : Prop where
  size : d.size = e.size
  slots : Aligned (Dict.Slot.Like β) d.slots e.slots

namespace Dict

variable {d e : Dict Value} {v w : Value} {ss ss' : Array (Slot Value)}

theorem Slot.Like.item? {x y : Slot Value} (h : x.Like β y) :
    Option.Rel (fun a b => a.1 = b.1 ∧ a.2.Like β b.2) x.item? y.item? := by
  cases h with
  | full _ _ hv => exact .some ⟨rfl, hv⟩
  | _ => exact .none

theorem Like.toList (h : d.Like β e) :
    List.Forall₂ (fun a b => a.1 = b.1 ∧ a.2.Like β b.2) d.toList e.toList :=
  List.rel_filterMap (fun _ _ hxy => Slot.Like.item? hxy) h.slots

theorem Like.keys_eq (h : d.Like β e) : d.keys = e.keys := by
  have hkeys : List.Forall₂ (· = ·) d.keys e.keys := List.rel_map (fun _ _ he => he.1) h.toList
  rwa [List.forall₂_eq_eq_eq] at hkeys

theorem Like.values (h : d.Like β e) : List.Forall₂ (Value.Like β) d.values e.values :=
  List.rel_map (fun _ _ he => he.2) h.toList

theorem Like.transfer (h : d.Like β e)
    (hβ : ∀ r s, r ∈ d.values.filterMap Value.ref? → β.rel r s → β'.rel r s) : d.Like β' e := by
  refine ⟨h.size, h.slots.mono fun x hx y hxy => ?_⟩
  cases hxy with
  | vacant => exact .vacant
  | erased => exact .erased
  | @full key hash v w hv =>
    have hmem : v ∈ d.values :=
      List.mem_map.mpr ⟨(key, v), List.mem_filterMap.mpr ⟨_, Array.mem_toList_iff.mpr hx, rfl⟩, rfl⟩
    exact .full _ _ (hv.transfer fun r s hr => hβ r s (List.mem_filterMap.mpr ⟨v, hmem, hr⟩))

theorem Like.empty : (empty : Dict Value).Like β .empty :=
  ⟨rfl, .replicate .vacant _⟩

/-- By induction on the probes that are left. -/
theorem locateFrom_eq (h : Aligned (Slot.Like β) ss ss') (key : String) (hash : UInt32)
    (i fuel : Nat) : locateFrom ss key hash i fuel = locateFrom ss' key hash i fuel := by
  induction fuel generalizing i with
  | zero => rfl
  | succ fuel ih =>
    have hslot := h.getD i (x := .vacant) (y := .vacant) .vacant
    unfold locateFrom
    rw [h.size_eq, ih]
    generalize ss.getD i .vacant = x, ss'.getD i .vacant = y at hslot
    cases hslot <;> rfl

theorem Like.locate?_eq (h : d.Like β e) (key : String) : d.locate? key = e.locate? key := by
  unfold locate? capacity
  dsimp only
  rw [h.slots.size_eq, locateFrom_eq h.slots]

theorem Like.get? (h : d.Like β e) (key : String) :
    Option.Rel (Value.Like β) (d.get? key) (e.get? key) := by
  unfold Dict.get?
  rw [h.locate?_eq]
  split
  · exact (h.slots.getD _ .vacant).item?.map fun _ _ he => he.2
  · exact .none

theorem Like.contains_eq (h : d.Like β e) (key : String) : d.contains key = e.contains key := by
  unfold contains
  rw [h.locate?_eq]

/-- A free slot is found at the same place. -/
theorem openSlotFrom_eq (h : Aligned (Slot.Like β) ss ss') (i fuel : Nat) :
    openSlotFrom ss i fuel = openSlotFrom ss' i fuel := by
  induction fuel generalizing i with
  | zero => rfl
  | succ fuel ih =>
    have hslot := h.getD i (x := .vacant) (y := .vacant) .vacant
    unfold openSlotFrom
    rw [h.size_eq, ih]
    generalize ss.getD i .vacant = x, ss'.getD i .vacant = y at hslot
    cases hslot <;> rfl

/-- An entry is placed in the same slot. -/
theorem aligned_place (h : Aligned (Slot.Like β) ss ss') (key : String) (hash : UInt32)
    (hv : v.Like β w) :
    Aligned (Slot.Like β) (place ss key hash v) (place ss' key hash w) := by
  unfold place
  dsimp only
  rw [openSlotFrom_eq h, h.size_eq]
  exact h.setIfInBounds _ (.full key hash hv)

theorem Like.resized (h : d.Like β e) (capacity : Nat) :
    (d.resized capacity).Like β (e.resized capacity) := by
  refine ⟨h.size, ?_⟩
  unfold Dict.resized
  dsimp only
  rw [← Array.foldl_toList, ← Array.foldl_toList]
  refine List.rel_foldl (P := Aligned (Slot.Like β)) (fun ss ss' hs x y hxy => ?_)
    (.replicate .vacant _) h.slots
  cases hxy with
  | vacant => exact hs
  | erased => exact hs
  | full key hash hv => exact aligned_place hs key hash hv

theorem Like.withRoom (h : d.Like β e) : d.withRoom.Like β e.withRoom := by
  unfold Dict.withRoom capacity
  rw [h.size, h.slots.size_eq]
  split
  · exact h.resized _
  · exact h

theorem Like.insert (h : d.Like β e) (key : String) (hv : v.Like β w) :
    (d.insert key v).Like β (e.insert key w) := by
  have hr := h.withRoom
  unfold Dict.insert
  dsimp only
  rw [hr.locate?_eq]
  split
  · exact ⟨hr.size, hr.slots.setIfInBounds _ (.full _ _ hv)⟩
  · exact ⟨congrArg (· + 1) hr.size, aligned_place hr.slots _ _ hv⟩

theorem Like.withoutSlack (h : d.Like β e) : d.withoutSlack.Like β e.withoutSlack := by
  unfold Dict.withoutSlack capacity
  rw [h.size, h.slots.size_eq]
  split
  · exact h.resized _
  · exact h

theorem Like.remove (h : d.Like β e) (key : String) :
    (d.remove key).2.Like β (e.remove key).2 := by
  unfold Dict.remove
  rw [h.locate?_eq]
  split
  · exact h
  · exact Like.withoutSlack ⟨congrArg (· - 1) h.size, h.slots.setIfInBounds _ .erased⟩

theorem Like.ofList {entries entries' : List (String × Value)}
    (h : List.Forall₂ (fun a b => a.1 = b.1 ∧ a.2.Like β b.2) entries entries') :
    (ofList entries).Like β (ofList entries') := by
  refine List.rel_foldl (R := fun a b => a.1 = b.1 ∧ a.2.Like β b.2) (P := Dict.Like β)
    (fun d e hd a b hab => ?_) .empty h
  obtain ⟨key, v⟩ := a
  obtain ⟨key', w⟩ := b
  obtain ⟨(rfl : key = key'), hv⟩ := hab
  exact hd.insert key hv

end Dict

end ScriptMachine
