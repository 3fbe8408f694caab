import Mathlib
import ScriptMachine.Object

/-!
# ScriptMachine.Proofs.Heap.Contents — what tables and dictionaries hold

Whatever an operation on a table or a dictionary does to the slots, the entries it leaves are among
those that were there and those it was given; what a lookup finds is an entry. Nothing here depends
on where entries are put.

The two halves follow the same order, for tables and for dictionaries: what placing one entry leaves,
what moving all entries leaves, and then each operation. These facts are all that the soundness of
references asks of the containers. That a key finds its own entry is a matter of where entries are put,
and is shown with the searches.
-/

namespace ScriptMachine

namespace Table

variable {α : Type} {t : Table α} {k : Key} {v : α} {e : Key × α}

/-- An entry of the table is in one of its slots. -/
theorem mem_toList : e ∈ t.toList ↔ Slot.taken e.1 e.2 ∈ t.slots := by
  unfold toList
  rw [List.mem_filterMap]
  constructor
  · rintro ⟨s, hs, he⟩
    cases s with
    | taken k v =>
      obtain rfl := Option.some.inj he
      exact Array.mem_toList_iff.mp hs
    | _ => cases he
  · intro h
    exact ⟨_, Array.mem_toList_iff.mpr h, rfl⟩

@[simp]
theorem toList_empty : (empty : Table α).toList = [] := rfl

theorem mem_receive (he : e ∈ (t.receive k v).toList) : e ∈ t.toList ∨ e = (k, v) := by
  rw [mem_toList] at he ⊢
  rcases Array.mem_or_eq_of_mem_setIfInBounds he with he | he
  · exact .inl he
  · obtain ⟨h₁, h₂⟩ := Slot.taken.inj he
    exact .inr (Prod.ext h₁ h₂)

theorem mem_place (he : e ∈ (t.place k v).toList) : e ∈ t.toList ∨ e = (k, v) :=
  mem_receive he

/-- Putting the entries of some slots into a table one after the other. -/
theorem mem_foldl (put : Table α → Key → α → Table α)
    (hput : ∀ (u : Table α) (k : Key) (v : α), ∀ e ∈ (put u k v).toList, e ∈ u.toList ∨ e = (k, v))
    (slots : List (Slot α)) : ∀ (u : Table α), ∀ e ∈ (slots.foldl
      (fun u s => match s with | .taken k v => put u k v | _ => u) u).toList,
      e ∈ u.toList ∨ Slot.taken e.1 e.2 ∈ slots := by
  induction slots with
  | nil =>
    intro u e he
    exact .inl he
  | cons s slots ih =>
    intro u e he
    rcases ih _ e he with he | he
    · cases s with
      | taken k v =>
        rcases hput u k v e he with he | rfl
        · exact .inl he
        · exact .inr List.mem_cons_self
      | _ => exact .inl he
    · exact .inr (List.mem_cons_of_mem _ he)

/-- Nothing is in a resized map that was not there before. -/
theorem mem_resized {capacity : Nat} (he : e ∈ (t.resized capacity).toList) : e ∈ t.toList := by
  unfold resized at he
  rw [← Array.foldl_toList] at he
  rcases mem_foldl receive (fun u k v e he => mem_receive he) _ _ e he with he | he
  · rw [mem_toList] at he
    simp [vacant] at he
  · exact mem_toList.mpr (Array.mem_toList_iff.mp he)

/-- **`mem_set`** — setting a key brings in the new entry and no other. -/
theorem mem_set (he : e ∈ (t.set k v).toList) : e ∈ t.toList ∨ e = (k, v) := by
  rcases mem_place he with he | he
  · unfold withRoom at he
    split at he
    · exact .inl (mem_resized he)
    · exact .inl he
  · exact .inr he

theorem mem_addAll {source : Table α} (he : e ∈ (t.addAll source).toList) :
    e ∈ t.toList ∨ e ∈ source.toList := by
  unfold addAll at he
  rw [← Array.foldl_toList] at he
  rcases mem_foldl set (fun u k v e he => mem_set he) _ _ e he with he | he
  · exact .inl he
  · exact .inr (mem_toList.mpr (Array.mem_toList_iff.mp he))

/-- What a lookup finds is stored under some key. -/
theorem mem_of_get? (hv : t.get? k = some v) : ∃ k', (k', v) ∈ t.toList := by
  unfold get? at hv
  split at hv
  · cases hv
  · obtain ⟨⟨k', v'⟩, hitem, rfl⟩ := Option.map_eq_some_iff.mp hv
    rw [Array.getD_eq_getD_getElem?] at hitem
    cases hs : t.slots[findSlot t.slots k]? with
    | none => simp [hs, Slot.item?] at hitem
    | some s =>
      rw [hs] at hitem
      cases s with
      | taken k'' v'' =>
        obtain ⟨rfl, rfl⟩ := Prod.mk.inj (Option.some.inj hitem)
        exact ⟨_, mem_toList.mpr (Array.mem_of_getElem? hs)⟩
      | _ => cases hitem

/-- The keys of a table, and what its values refer to, are its references. -/
theorem mem_references {t : Table Value} {r : Ref} :
    r ∈ t.references ↔ ∃ e ∈ t.toList, r = e.1.ref ∨ e.2 = .obj r := by
  unfold references
  rw [List.mem_flatMap]
  refine exists_congr fun e => and_congr_right fun _ => ?_
  obtain ⟨k, v⟩ := e
  cases v <;> simp [Value.ref?, eq_comm]

end Table

namespace Dict

variable {α : Type} {d : Dict α} {k : String} {v w : α}

/-- A value of the dict is in one of its slots. -/
theorem mem_values : w ∈ d.values ↔ ∃ k hash, Slot.full k hash w ∈ d.slots := by
  unfold values toList
  rw [List.mem_map]
  constructor
  · rintro ⟨⟨k, w'⟩, he, rfl⟩
    obtain ⟨s, hs, hitem⟩ := List.mem_filterMap.mp he
    cases s with
    | full k' hash w'' =>
      obtain ⟨rfl, rfl⟩ := Prod.mk.inj (Option.some.inj hitem)
      exact ⟨_, hash, Array.mem_toList_iff.mp hs⟩
    | _ => cases hitem
  · rintro ⟨k, hash, hs⟩
    exact ⟨(k, w), List.mem_filterMap.mpr ⟨_, Array.mem_toList_iff.mpr hs, rfl⟩, rfl⟩

@[simp]
theorem values_empty : (empty : Dict α).values = [] := by
  simp [values, toList, empty, Slot.item?, minCapacity, List.replicate]

theorem mem_place {slots : Array (Slot α)} {k k' : String} {hash hash' : UInt32}
    (h : Slot.full k' hash' w ∈ place slots k hash v) : Slot.full k' hash' w ∈ slots ∨ w = v := by
  rcases Array.mem_or_eq_of_mem_setIfInBounds h with h | h
  · exact .inl h
  · exact .inr (Slot.full.inj h).2.2

/-- Resizing brings no value into the dict. By induction on the slots whose items are placed again. -/
theorem mem_resized {capacity : Nat} (hw : w ∈ (d.resized capacity).values) : w ∈ d.values := by
  obtain ⟨k, hash, hs⟩ := mem_values.mp hw
  unfold resized at hs
  rw [← Array.foldl_toList] at hs
  -- the function that is folded over the slots puts their items into an array
  generalize hg : (fun (slots : Array (Slot α)) (s : Slot α) => _) = g at hs
  have hfull : ∀ slots k h v, g slots (.full k h v) = place slots k h v := fun _ _ _ _ => hg ▸ rfl
  have hvacant : ∀ slots, g slots .vacant = slots := fun _ => hg ▸ rfl
  have herased : ∀ slots, g slots .erased = slots := fun _ => hg ▸ rfl
  have hfold : ∀ (rest : List (Slot α)) (slots : Array (Slot α)),
      Slot.full k hash w ∈ rest.foldl g slots →
      Slot.full k hash w ∈ slots ∨ ∃ k' hash', Slot.full k' hash' w ∈ rest := by
    intro rest
    induction rest with
    | nil => exact fun _ h => .inl h
    | cons s rest ih =>
      intro slots h
      rcases ih _ h with h | ⟨k', hash', h⟩
      · cases s with
        | full k'' hash'' v'' =>
          rw [hfull] at h
          rcases mem_place h with h | rfl
          · exact .inl h
          · exact .inr ⟨k'', hash'', List.mem_cons_self⟩
        | vacant =>
          rw [hvacant] at h
          exact .inl h
        | erased =>
          rw [herased] at h
          exact .inl h
      · exact .inr ⟨k', hash', List.mem_cons_of_mem _ h⟩
  rcases hfold _ _ hs with h | ⟨k', hash', h⟩
  · simp at h
  · exact mem_values.mpr ⟨k', hash', Array.mem_toList_iff.mp h⟩

theorem mem_withRoom (hw : w ∈ d.withRoom.values) : w ∈ d.values := by
  unfold withRoom at hw
  split at hw
  · exact mem_resized hw
  · exact hw

/-- **`mem_insert`** — inserting brings in the new value and no other. -/
theorem mem_insert (hw : w ∈ (d.insert k v).values) : w ∈ d.values ∨ w = v := by
  unfold insert at hw
  dsimp only at hw
  split at hw
  · obtain ⟨k', hash, hs⟩ := mem_values.mp hw
    rcases Array.mem_or_eq_of_mem_setIfInBounds hs with hs | hs
    · exact .inl (mem_withRoom (mem_values.mpr ⟨k', hash, hs⟩))
    · exact .inr (Slot.full.inj hs).2.2
  · obtain ⟨k', hash, hs⟩ := mem_values.mp hw
    rcases mem_place hs with hs | rfl
    · exact .inl (mem_withRoom (mem_values.mpr ⟨k', hash, hs⟩))
    · exact .inr rfl

/-- Nothing is left by a removal that was not there. -/
theorem mem_remove (hw : w ∈ (d.remove k).2.values) : w ∈ d.values := by
  unfold remove at hw
  split at hw
  · exact hw
  · rename_i i _
    have herased : ∀ {n : Nat}, w ∈ (Dict.mk n (d.slots.setIfInBounds i .erased)).values →
        w ∈ d.values := by
      intro n h
      obtain ⟨k', hash, hs⟩ := mem_values.mp h
      rcases Array.mem_or_eq_of_mem_setIfInBounds hs with hs | hs
      · exact mem_values.mpr ⟨k', hash, hs⟩
      · cases hs
    dsimp only [withoutSlack] at hw
    split at hw
    · exact herased (mem_resized hw)
    · exact herased hw

/-- What is found is one of the values. -/
theorem mem_of_get? (hv : d.get? k = some v) : v ∈ d.values := by
  unfold get? at hv
  split at hv
  · rename_i i _
    obtain ⟨⟨k', v'⟩, hitem, rfl⟩ := Option.map_eq_some_iff.mp hv
    rw [Array.getD_eq_getD_getElem?] at hitem
    cases hs : d.slots[i]? with
    | none => simp [hs, Slot.item?] at hitem
    | some s =>
      rw [hs] at hitem
      cases s with
      | full k'' hash v'' =>
        obtain ⟨rfl, rfl⟩ := Prod.mk.inj (Option.some.inj hitem)
        exact mem_values.mpr ⟨_, hash, Array.mem_of_getElem? hs⟩
      | _ => cases hitem
  · cases hv

/-- The values of a dict that is made from a list are those of the list. -/
theorem mem_ofList {entries : List (String × α)} (hw : w ∈ (ofList entries).values) :
    ∃ k, (k, w) ∈ entries := by
  have hfold : ∀ (entries : List (String × α)) (d : Dict α),
      w ∈ (entries.foldl (fun d e => d.insert e.1 e.2) d).values →
      w ∈ d.values ∨ ∃ k, (k, w) ∈ entries := by
    intro entries
    induction entries with
    | nil => exact fun _ h => .inl h
    | cons e entries ih =>
      intro d h
      rcases ih _ h with h | ⟨k, h⟩
      · rcases mem_insert h with h | rfl
        · exact .inl h
        · exact .inr ⟨e.1, List.mem_cons_self⟩
      · exact .inr ⟨k, List.mem_cons_of_mem _ h⟩
  rcases hfold entries empty hw with h | h
  · simp at h
  · exact h

end Dict

end ScriptMachine
