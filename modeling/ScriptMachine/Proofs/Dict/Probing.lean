import Mathlib
import ScriptMachine.Proofs.Table.Probing

/-!
# ScriptMachine.Proofs.Dict.Probing — where a dictionary puts its entries

Probing visits the slots as it does in a table. What differs is that erased slots do not count towards
growth, so a dictionary can run out of vacant slots; a slot that is not full is always left, and a
lookup that meets no vacant slot ends after one round. A slot array is *arranged* when no slot on the
way from the home of an entry to the entry is vacant and no key is stored twice.

`Settles` is the loop that looks for an open slot, without a bound: an insertion needs it to end.

Three things are done to slots, and `Arranged` survives each: an entry with a new key is placed, the value
of a key is overwritten, an entry is erased (`Arranged.place`, `Arranged.overwrite`, `Arranged.erase`).
Erasing must not vacate a slot, since the way to an entry further on may lead through it. What is looked
up is answered for arranged slots only; how many of them may be full is decided elsewhere.
-/

namespace ScriptMachine.Dict

open Table (probe probe_succ probe_lt exists_probe)

variable {α : Type} {d : Dict α} {slots : Array (Slot α)} {key key' : String} {hash hash' : UInt32}
  {v v' : α} {s : Slot α} {i j n w fuel : Nat}

/-! ## Slots -/

/-- The slot at an index; there is nothing beyond the array. -/
def slotAt (slots : Array (Slot α)) (i : Nat) : Slot α :=
  slots.getD i .vacant

/-- Has the slot an entry? -/
def Slot.isFull : Slot α → Bool
  | .full .. => true
  | _ => false

/-- Is the slot not vacant? -/
def Slot.inUse : Slot α → Bool
  | .vacant => false
  | _ => true

theorem Slot.inUse_of_isFull (h : s.isFull = true) : s.inUse = true := by
  cases s with
  | full => rfl
  | _ => cases h

theorem Slot.isFull_iff : s.isFull = true ↔ ∃ key hash v, s = .full key hash v := by
  cases s <;> simp [Slot.isFull]

theorem slotAt_eq_full : slotAt slots i = .full key hash v ↔ slots[i]? = some (.full key hash v) := by
  unfold slotAt
  rw [Array.getD_eq_getD_getElem?]
  cases slots[i]? <;> simp

theorem slotAt_of_lt (hi : i < slots.size) : slotAt slots i = slots[i] := by
  simp [slotAt, Array.getD_eq_getD_getElem?, hi]

theorem lt_of_inUse (h : (slotAt slots i).inUse = true) : i < slots.size := by
  by_contra hge
  rw [slotAt, Array.getD_eq_getD_getElem?, Array.getElem?_eq_none (Nat.le_of_not_lt hge)] at h
  cases h

theorem lt_of_full (h : slotAt slots i = .full key hash v) : i < slots.size :=
  lt_of_inUse (by rw [h]; rfl)

/-- Writing a slot changes that slot. -/
theorem slotAt_set (j : Nat) (s : Slot α) (hi : i < slots.size) :
    slotAt (slots.setIfInBounds i s) j = if j = i then s else slotAt slots j := by
  unfold slotAt
  rw [Array.getD_eq_getD_getElem?, Array.getD_eq_getD_getElem?, Array.getElem?_setIfInBounds]
  by_cases h : j = i
  · subst h
    simp [hi]
  · simp [h, Ne.symm h]

/-- **`Stored slots key v`** — some slot has the value under the key. -/
def Stored (slots : Array (Slot α)) (key : String) (v : α) : Prop :=
  ∃ i hash, slotAt slots i = .full key hash v

/-- The entries of a dict are those that its slots hold. -/
theorem mem_toList {e : String × α} : e ∈ d.toList ↔ Stored d.slots e.1 e.2 := by
  unfold toList Stored
  simp only [List.mem_filterMap, Array.mem_toList_iff, slotAt_eq_full, Array.mem_iff_getElem?]
  constructor
  · rintro ⟨s, ⟨i, hs⟩, hitem⟩
    cases s with
    | full key hash v =>
      obtain rfl := Option.some.inj hitem
      exact ⟨i, hash, hs⟩
    | _ => cases hitem
  · rintro ⟨i, hash, hs⟩
    exact ⟨_, ⟨i, hs⟩, rfl⟩

/-! ## Looking for a key -/

/-- A slot that probing locates holds the key. -/
theorem full_of_locateFrom (h : locateFrom slots key hash i fuel = some j) :
    ∃ v, slotAt slots j = .full key hash v := by
  induction fuel generalizing i with
  | zero => cases h
  | succ fuel ih =>
    unfold locateFrom at h
    split at h
    · cases h
    · exact ih h
    · rename_i key' hash' v hslot
      split at h
      · rename_i hfound
        obtain rfl := Option.some.inj h
        obtain ⟨rfl, rfl⟩ : hash' = hash ∧ key' = key := by simpa using hfound
        exact ⟨v, hslot⟩
      · exact ih h

/-- Probing locates nothing only if the key is not met on the way to the first vacant slot. -/
theorem locateFrom_eq_none (hfuel : n + fuel = slots.size)
    (h : locateFrom slots key hash (probe slots.size hash n) fuel = none) (hn : n ≤ w)
    (hw : w < slots.size)
    (hway : ∀ e < w, (slotAt slots (probe slots.size hash e)).inUse = true) :
    slotAt slots (probe slots.size hash w) ≠ .full key hash v := by
  intro hslot
  induction fuel generalizing n with
  | zero => omega
  | succ fuel ih =>
    unfold locateFrom at h
    rcases Nat.lt_or_eq_of_le hn with hlt | rfl
    · split at h
      · rename_i hvacant
        have huse := hway n hlt
        rw [slotAt, hvacant] at huse
        cases huse
      · rw [probe_succ] at h
        exact ih (by omega) h hlt
      · split at h
        · cases h
        · rw [probe_succ] at h
          exact ih (by omega) h hlt
    · rw [slotAt] at hslot
      rw [hslot] at h
      simp at h

/-! ## Looking for an open slot -/

/-- **`Settles slots i j`** — the loop that goes on to the next slot while the slot it is at is full
ends at `j` when it starts at `i`. -/
inductive Settles (slots : Array (Slot α)) : Nat → Nat → Prop
  | here {i : Nat} (h : (slotAt slots i).isFull = false) : Settles slots i i
  | next {i j : Nat} (h : (slotAt slots i).isFull = true)
      (hrest : Settles slots ((i + 1) % slots.size) j) : Settles slots i j

/-- The slot where probing for an open slot ends, with the slots before it, which are full. -/
theorem openSlotFrom_spec (hopen : ∃ w < slots.size,
    (slotAt slots (probe slots.size hash w)).isFull = false) (hfuel : n + fuel = slots.size)
    (hfull : ∀ e < n, (slotAt slots (probe slots.size hash e)).isFull = true) :
    ∃ w < slots.size, openSlotFrom slots (probe slots.size hash n) fuel = probe slots.size hash w ∧
      Settles slots (probe slots.size hash n) (probe slots.size hash w) ∧
      (slotAt slots (probe slots.size hash w)).isFull = false ∧
      ∀ e < w, (slotAt slots (probe slots.size hash e)).isFull = true := by
  induction fuel generalizing n with
  | zero =>
    -- all slots have been passed, and one of them was not full
    obtain ⟨w, hw, hslot⟩ := hopen
    rw [hfull w (by omega)] at hslot
    cases hslot
  | succ fuel ih =>
    unfold openSlotFrom
    cases hslot : (slotAt slots (probe slots.size hash n)).isFull with
    | true =>
      have hnext : ∀ e < n + 1, (slotAt slots (probe slots.size hash e)).isFull = true := by
        intro e he
        rcases Nat.lt_succ_iff_lt_or_eq.mp he with he | rfl
        · exact hfull e he
        · exact hslot
      obtain ⟨w, hw, heq, hsettles, hrest⟩ := ih (by omega) hnext
      obtain ⟨key, hash', v, hs⟩ := Slot.isFull_iff.mp hslot
      rw [slotAt] at hs
      refine ⟨w, hw, ?_, .next hslot (by rwa [probe_succ]), hrest⟩
      rw [hs]
      dsimp only
      rw [probe_succ, heq]
    | false =>
      refine ⟨n, by omega, ?_, .here hslot, hslot, hfull⟩
      split
      · rename_i hs
        rw [slotAt, hs] at hslot
        cases hslot
      · rfl

/-! ## Arranged slots -/

/-- **`Arranged slots`** — every entry can be reached from its home, and no key is stored twice. -/
structure Arranged (slots : Array (Slot α)) : Prop where
  hashed : ∀ i key hash v, slotAt slots i = .full key hash v → hash = hashKey key
  reached : ∀ i key hash v, slotAt slots i = .full key hash v →
    ∃ w < slots.size, probe slots.size hash w = i ∧
      ∀ e < w, (slotAt slots (probe slots.size hash e)).inUse = true
  distinct : ∀ i j key hash v hash' v', slotAt slots i = .full key hash v →
    slotAt slots j = .full key hash' v' → i = j

/-- Without entries there is nothing to arrange. -/
theorem arranged_vacant (n : Nat) : Arranged (Array.replicate n (.vacant : Slot α)) := by
  have hvacant : ∀ i, slotAt (Array.replicate n (.vacant : Slot α)) i = .vacant := by
    intro i
    simp only [slotAt, Array.getD_eq_getD_getElem?, Array.getElem?_replicate]
    split <;> rfl
  refine ⟨fun i _ _ _ h => ?_, fun i _ _ _ h => ?_, fun i _ _ _ _ _ _ h => ?_⟩ <;>
    · rw [hvacant] at h
      cases h

/-- Where fewer slots are full than there are, a slot is left that is not. -/
theorem exists_open (h : slots.countP Slot.isFull < slots.size) (hash : UInt32) :
    ∃ w < slots.size, (slotAt slots (probe slots.size hash w)).isFull = false := by
  have hex : ∃ s ∈ slots, s.isFull ≠ true := by
    by_contra hnone
    have hall : ∀ s ∈ slots, s.isFull = true := fun s hs => by
      by_contra hfull
      exact hnone ⟨s, hs, hfull⟩
    rw [Array.countP_eq_size.mpr hall] at h
    exact Nat.lt_irrefl _ h
  obtain ⟨s, hs, hfull⟩ := hex
  obtain ⟨i, hi, rfl⟩ := Array.getElem_of_mem hs
  obtain ⟨w, hw, rfl⟩ := exists_probe hash hi
  exact ⟨w, hw, by rw [slotAt_of_lt hi]; exact Bool.eq_false_of_not_eq_true hfull⟩

/-- Looking for an open slot ends when there is one. -/
theorem settles (h : slots.countP Slot.isFull < slots.size) (hash : UInt32) :
    Settles slots (hash.toNat % slots.size)
      (openSlotFrom slots (hash.toNat % slots.size) slots.size) := by
  obtain ⟨w, -, heq, hsettles, -⟩ :=
    openSlotFrom_spec (exists_open h hash) (Nat.zero_add _) (fun e he => absurd he (Nat.not_lt_zero e))
  rw [probe, Nat.add_zero] at heq hsettles
  rwa [heq]

theorem size_place : (place slots key hash v).size = slots.size := by
  simp [place]

/-- **`Arranged.place`** — an entry with a new key goes to a slot that was not full, and the slots stay
arranged. -/
theorem Arranged.place (hs : Arranged slots) (hroom : slots.countP Slot.isFull < slots.size)
    (hnew : ∀ v, ¬ Stored slots key v) :
    Arranged (place slots key (hashKey key) v) ∧
      (place slots key (hashKey key) v).countP Slot.isFull = slots.countP Slot.isFull + 1 ∧
      ∀ key' v', Stored (Dict.place slots key (hashKey key) v) key' v' ↔
        (key' = key ∧ v' = v) ∨ Stored slots key' v' := by
  obtain ⟨w, hw, heq, -, hopen, hfull⟩ := openSlotFrom_spec (exists_open hroom (hashKey key))
    (Nat.zero_add _) (fun e he => absurd he (Nat.not_lt_zero e))
  have hlt : probe slots.size (hashKey key) w < slots.size := probe_lt (Nat.zero_lt_of_lt hw)
  have hplace : Dict.place slots key (hashKey key) v =
      slots.setIfInBounds (probe slots.size (hashKey key) w) (.full key (hashKey key) v) := by
    rw [probe, Nat.add_zero] at heq
    rw [Dict.place, heq]
  rw [hplace]
  have hslot := fun j => slotAt_set j (.full key (hashKey key) v) hlt
  -- the ways that were there lead through no vacant slot still
  have huse : ∀ j, (slotAt slots j).inUse = true →
      (slotAt (slots.setIfInBounds (probe slots.size (hashKey key) w)
        (.full key (hashKey key) v)) j).inUse = true := by
    intro j hj
    rw [hslot]
    split
    · rfl
    · exact hj
  refine ⟨⟨fun j key' hash' v' hj => ?_, fun j key' hash' v' hj => ?_,
    fun j j' key' h₁ v₁ h₂ v₂ hj hj' => ?_⟩, ?_, fun key' v' => ?_⟩
  · rw [hslot] at hj
    split at hj
    · obtain ⟨rfl, rfl, -⟩ := Slot.full.inj hj
      rfl
    · exact hs.hashed j key' hash' v' hj
  · rw [Array.size_setIfInBounds]
    rw [hslot] at hj
    split at hj
    · rename_i hjw
      obtain ⟨rfl, rfl, -⟩ := Slot.full.inj hj
      -- the way to the new entry is the one on which the open slot was found
      exact ⟨w, hw, hjw.symm, fun e he => huse _ (Slot.inUse_of_isFull (hfull e he))⟩
    · obtain ⟨w', hw', heq', hway⟩ := hs.reached j key' hash' v' hj
      exact ⟨w', hw', heq', fun e he => huse _ (hway e he)⟩
  · rw [hslot] at hj hj'
    split at hj <;> split at hj'
    · -- one entry at both places, the new one at either, or the new one at neither
      omega
    · obtain ⟨rfl, -, -⟩ := Slot.full.inj hj
      exact absurd ⟨j', h₂, hj'⟩ (hnew v₂)
    · obtain ⟨rfl, -, -⟩ := Slot.full.inj hj'
      exact absurd ⟨j, h₁, hj⟩ (hnew v₁)
    · exact hs.distinct j j' key' h₁ v₁ h₂ v₂ hj hj'
  · have hnot : slots[probe slots.size (hashKey key) w].isFull = false := by
      rwa [slotAt_of_lt hlt] at hopen
    rw [Array.setIfInBounds, dif_pos hlt, Array.countP_set, hnot]
    rfl
  · constructor
    · rintro ⟨j, hash', hj⟩
      rw [hslot] at hj
      split at hj
      · obtain ⟨rfl, -, rfl⟩ := Slot.full.inj hj
        exact .inl ⟨rfl, rfl⟩
      · exact .inr ⟨j, hash', hj⟩
    · rintro (⟨rfl, rfl⟩ | ⟨j, hash', hj⟩)
      · exact ⟨_, _, by rw [hslot, if_pos rfl]⟩
      · refine ⟨j, hash', ?_⟩
        rw [hslot, if_neg, hj]
        rintro rfl
        rw [hj] at hopen
        cases hopen

/-- Another value in place of the one of a key. -/
theorem Arranged.overwrite (hs : Arranged slots) (hi : slotAt slots i = .full key hash v) (v' : α) :
    Arranged (slots.setIfInBounds i (.full key hash v')) ∧
      (slots.setIfInBounds i (.full key hash v')).countP Slot.isFull = slots.countP Slot.isFull ∧
      ∀ key₁ v₁, Stored (slots.setIfInBounds i (.full key hash v')) key₁ v₁ ↔
        (key₁ = key ∧ v₁ = v') ∨ (key₁ ≠ key ∧ Stored slots key₁ v₁) := by
  have hlt := lt_of_full hi
  have hslot := fun j => slotAt_set j (.full key hash v') hlt
  -- the slots hold the same keys as before
  have hback : ∀ {j key₁ hash₁ v₁},
      slotAt (slots.setIfInBounds i (.full key hash v')) j = .full key₁ hash₁ v₁ →
      ∃ v₂, slotAt slots j = .full key₁ hash₁ v₂ := by
    intro j key₁ hash₁ v₁ hj
    rw [hslot] at hj
    split at hj
    · rename_i heq
      obtain ⟨rfl, rfl, -⟩ := Slot.full.inj hj
      exact ⟨v, heq ▸ hi⟩
    · exact ⟨v₁, hj⟩
  refine ⟨⟨fun j key₁ hash₁ v₁ hj => ?_, fun j key₁ hash₁ v₁ hj => ?_,
    fun j j' key₁ h₁ v₁ h₂ v₂ hj hj' => ?_⟩, ?_, fun key₁ v₁ => ?_⟩
  · obtain ⟨v₂, hj⟩ := hback hj
    exact hs.hashed j key₁ hash₁ v₂ hj
  · obtain ⟨v₂, hj⟩ := hback hj
    obtain ⟨w, hw, heq, hway⟩ := hs.reached j key₁ hash₁ v₂ hj
    rw [Array.size_setIfInBounds]
    refine ⟨w, hw, heq, fun e he => ?_⟩
    rw [hslot]
    split
    · rfl
    · exact hway e he
  · obtain ⟨v₃, hj⟩ := hback hj
    obtain ⟨v₄, hj'⟩ := hback hj'
    exact hs.distinct j j' key₁ h₁ v₃ h₂ v₄ hj hj'
  · have hfull : slots[i].isFull = true := by
      rw [← slotAt_of_lt hlt, hi]
      rfl
    have hpos : 0 < slots.countP Slot.isFull :=
      Array.countP_pos_iff.mpr ⟨_, Array.getElem_mem hlt, hfull⟩
    rw [Array.setIfInBounds, dif_pos hlt, Array.countP_set, hfull]
    simp only [Slot.isFull, if_true]
    omega
  · constructor
    · rintro ⟨j, hash₁, hj⟩
      rw [hslot] at hj
      split at hj
      · obtain ⟨rfl, -, rfl⟩ := Slot.full.inj hj
        exact .inl ⟨rfl, rfl⟩
      · rename_i hne
        refine .inr ⟨?_, j, hash₁, hj⟩
        rintro rfl
        exact hne (hs.distinct _ _ _ _ _ _ _ hj hi)
    · rintro (⟨rfl, rfl⟩ | ⟨hne, j, hash₁, hj⟩)
      · exact ⟨i, hash, by rw [hslot, if_pos rfl]⟩
      · refine ⟨j, hash₁, ?_⟩
        rw [hslot, if_neg, hj]
        rintro rfl
        rw [hi] at hj
        exact hne (Slot.full.inj hj).1.symm

/-- An entry erased: the way through its slot stays open. -/
theorem Arranged.erase (hs : Arranged slots) (hi : slotAt slots i = .full key hash v) :
    Arranged (slots.setIfInBounds i .erased) ∧
      (slots.setIfInBounds i .erased).countP Slot.isFull = slots.countP Slot.isFull - 1 ∧
      ∀ key₁ v₁, Stored (slots.setIfInBounds i .erased) key₁ v₁ ↔
        key₁ ≠ key ∧ Stored slots key₁ v₁ := by
  have hlt := lt_of_full hi
  have hslot := fun j => slotAt_set j (.erased : Slot α) hlt
  -- an entry that is left was there
  have hback : ∀ {j key₁ hash₁ v₁},
      slotAt (slots.setIfInBounds i .erased) j = .full key₁ hash₁ v₁ →
      slotAt slots j = .full key₁ hash₁ v₁ := by
    intro j key₁ hash₁ v₁ hj
    rw [hslot] at hj
    split at hj
    · cases hj
    · exact hj
  refine ⟨⟨fun j key₁ hash₁ v₁ hj => hs.hashed j _ _ _ (hback hj), fun j key₁ hash₁ v₁ hj => ?_,
    fun j j' key₁ h₁ v₁ h₂ v₂ hj hj' => hs.distinct j j' _ _ _ _ _ (hback hj) (hback hj')⟩,
    ?_, fun key₁ v₁ => ?_⟩
  · -- an erased slot is in use, so no way is cut off
    obtain ⟨w, hw, heq, hway⟩ := hs.reached j key₁ hash₁ v₁ (hback hj)
    rw [Array.size_setIfInBounds]
    refine ⟨w, hw, heq, fun e he => ?_⟩
    rw [hslot]
    split
    · rfl
    · exact hway e he
  · have hfull : slots[i].isFull = true := by
      rw [← slotAt_of_lt hlt, hi]
      rfl
    rw [Array.setIfInBounds, dif_pos hlt, Array.countP_set, hfull]
    rfl
  · constructor
    · rintro ⟨j, hash₁, hj⟩
      refine ⟨?_, j, hash₁, hback hj⟩
      rintro rfl
      obtain rfl := hs.distinct _ _ _ _ _ _ _ (hback hj) hi
      rw [hslot, if_pos rfl] at hj
      cases hj
    · rintro ⟨hne, j, hash₁, hj⟩
      refine ⟨j, hash₁, ?_⟩
      rw [hslot, if_neg, hj]
      rintro rfl
      rw [hi] at hj
      exact hne (Slot.full.inj hj).1.symm

end ScriptMachine.Dict
