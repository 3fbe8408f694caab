import Mathlib
import ScriptMachine.Proofs.Heap.Contents

/-!
# ScriptMachine.Proofs.Table.Probing — where a table puts its entries

Probing for a hash visits the slots one after the other, starting at its home. A table is *valid* when
the slots on the way from the home of an entry to the entry are all in use, no reference is stored
twice, and a vacant slot is left, so that probing ends. Then probing finds every entry, and storing
one under a key replaces the entry of that key and leaves all others as they were.

Equal references carry equal hashes wherever a table is used; `Agrees` says so of a key.

`Lands` is where probing ends, and everything about a search is read off it: `Valid.get?_eq_some` for a
lookup, `Valid.set` for storing, `findKey?_eq_some` and `Valid.findKey?_eq_none` for a test of the
keys with some hash. `Valid.place` is the step that changes slots. When a table grows its entries are
received by empty slots, and there receiving is the same as placing (`Valid.receive_eq`), so that growing
needs no probing argument of its own.

An erased slot counts as one in use, and a table has a vacant slot because it grows in time. That it does
is left open here: validity asks for the vacant slot, and `Valid.withRoom` provides it.
-/

namespace ScriptMachine.Table

variable {α : Type} {t u : Table α} {slots : Array (Slot α)} {k : Key} {v : α} {e : Key × α}
  {hash : UInt32} {ref : Ref} {i d n : Nat}

/-! ## Slots -/

/-- The slot at an index; there is nothing beyond the array. -/
def slotAt (slots : Array (Slot α)) (i : Nat) : Slot α :=
  slots.getD i .vacant

/-- Is the slot not vacant? -/
def Slot.inUse : Slot α → Bool
  | .vacant => false
  | _ => true

theorem slotAt_eq_taken : slotAt slots i = .taken k v ↔ slots[i]? = some (.taken k v) := by
  unfold slotAt
  rw [Array.getD_eq_getD_getElem?]
  cases slots[i]? <;> simp

theorem slotAt_set (j : Nat) (s : Slot α) (hi : i < slots.size) :
    slotAt (slots.setIfInBounds i s) j = if j = i then s else slotAt slots j := by
  unfold slotAt
  rw [Array.getD_eq_getD_getElem?, Array.getD_eq_getD_getElem?, Array.getElem?_setIfInBounds]
  by_cases h : j = i
  · subst h
    simp [hi]
  · simp [h, Ne.symm h]

theorem mem_toList_iff_slotAt : e ∈ t.toList ↔ ∃ i, slotAt t.slots i = .taken e.1 e.2 := by
  rw [mem_toList, Array.mem_iff_getElem?]
  simp only [slotAt_eq_taken]

theorem mem_of_slotAt (h : slotAt t.slots i = .taken k v) : (k, v) ∈ t.toList :=
  mem_toList_iff_slotAt.mpr ⟨i, h⟩

/-! ## Probing -/

/-- The index that probing for a hash visits after so many others. -/
def probe (size : Nat) (hash : UInt32) (d : Nat) : Nat :=
  (hash.toNat + d) % size

theorem probe_succ : (probe n hash d + 1) % n = probe n hash (d + 1) := by
  simp [probe, Nat.add_assoc]

theorem probe_lt (hpos : 0 < n) : probe n hash d < n :=
  Nat.mod_lt _ hpos

/-- Probing visits every slot. -/
theorem exists_probe (hash : UInt32) (hi : i < n) : ∃ d < n, probe n hash d = i := by
  have hpos := Nat.zero_lt_of_lt hi
  have hhome := Nat.mod_lt hash.toNat hpos
  refine ⟨(i + (n - hash.toNat % n)) % n, Nat.mod_lt _ hpos, ?_⟩
  have hsplit := Nat.mod_add_div hash.toNat n
  calc (hash.toNat + (i + (n - hash.toNat % n)) % n) % n
      = (hash.toNat + (i + (n - hash.toNat % n))) % n := Nat.add_mod_mod ..
    _ = (i + n * (hash.toNat / n + 1)) % n := by
        congr 1
        rw [Nat.mul_add]
        omega
    _ = i := by rw [Nat.add_mul_mod_self_left, Nat.mod_eq_of_lt hi]

/-- The slots visited before the `d`-th are all in use, and none holds the reference. -/
def Clear (slots : Array (Slot α)) (hash : UInt32) (ref : Ref) (d : Nat) : Prop :=
  ∀ e < d, (slotAt slots (probe slots.size hash e)).inUse = true ∧
    ∀ k v, slotAt slots (probe slots.size hash e) = .taken k v → k.ref ≠ ref

/-- A slot in use that holds another key is passed over. -/
theorem Clear.succ (hc : Clear slots hash ref d)
    (huse : (slotAt slots (probe slots.size hash d)).inUse = true)
    (hne : ∀ k v, slotAt slots (probe slots.size hash d) = .taken k v → k.ref ≠ ref) :
    Clear slots hash ref (d + 1) := by
  intro e he
  rcases Nat.lt_succ_iff_lt_or_eq.mp he with he | rfl
  · exact hc e he
  · exact ⟨huse, hne⟩

/-- **`Lands slots hash ref i`** — `i` is where probing for a reference ends: at the entry of the
reference, or at a slot without an entry before which the reference would have been met. -/
inductive Lands (slots : Array (Slot α)) (hash : UInt32) (ref : Ref) : Nat → Prop
  | found {d : Nat} {k : Key} {v : α} (hclear : Clear slots hash ref d)
      (hslot : slotAt slots (probe slots.size hash d) = .taken k v) (hk : k.ref = ref) :
      Lands slots hash ref (probe slots.size hash d)
  | opened {d e : Nat} (hd : d < slots.size) (hclear : Clear slots hash ref d)
      (hvacant : slotAt slots (probe slots.size hash d) = .vacant) (he : e ≤ d)
      (hslot : (slotAt slots (probe slots.size hash e)).item? = none) :
      Lands slots hash ref (probe slots.size hash e)

/-- By induction on the probes that are left. The first tombstone that was passed is where the key
goes if it is not found. -/
theorem lands_findSlotFrom (hvacant : ∃ w < slots.size,
    slotAt slots (probe slots.size hash w) = .vacant) {fuel : Nat} {grave : Option Nat}
    (hfuel : d + fuel = slots.size) (hclear : Clear slots hash ref d)
    (hgrave : ∀ g ∈ grave, ∃ e < d, g = probe slots.size hash e ∧ slotAt slots g = .erased) :
    Lands slots hash ref (findSlotFrom slots ref grave (probe slots.size hash d) fuel) := by
  induction fuel generalizing d grave with
  | zero =>
    -- so many slots in use cannot be, as a vacant one is among them
    obtain ⟨w, hw, hslot⟩ := hvacant
    have huse := (hclear w (by omega)).1
    rw [hslot] at huse
    cases huse
  | succ fuel ih =>
    unfold findSlotFrom
    split
    · rename_i hslot
      -- a vacant slot: the search ends here, or at the first erased slot that it has passed
      cases grave with
      | none => exact .opened (by omega) hclear hslot (Nat.le_refl d) (by rw [slotAt, hslot]; rfl)
      | some g =>
        obtain ⟨e, he, rfl, hg⟩ := hgrave g rfl
        exact .opened (by omega) hclear hslot (Nat.le_of_lt he) (by rw [hg]; rfl)
    · rename_i hslot
      rw [probe_succ]
      refine ih (by omega) (hclear.succ (by rw [slotAt, hslot]; rfl) ?_) fun g hg => ?_
      · intro k v hkv
        rw [slotAt, hslot] at hkv
        cases hkv
      · cases grave with
        | none =>
          -- the first erased slot, if none was passed before
          obtain rfl := Option.some.inj hg
          exact ⟨d, Nat.lt_succ_self d, rfl, hslot⟩
        | some g' =>
          obtain rfl := Option.some.inj hg
          obtain ⟨e, he, hge⟩ := hgrave _ rfl
          exact ⟨e, Nat.lt_succ_of_lt he, hge⟩
    · rename_i k v hslot
      split
      · rename_i hk
        exact .found hclear hslot hk
      · rename_i hk
        rw [probe_succ]
        refine ih (by omega) (hclear.succ (by rw [slotAt, hslot]; rfl) ?_) fun g hg => ?_
        · intro k' v' hkv
          rw [slotAt, hslot] at hkv
          obtain ⟨rfl, rfl⟩ := Slot.taken.inj hkv
          exact hk
        · obtain ⟨e, he, hge⟩ := hgrave g hg
          exact ⟨e, Nat.lt_succ_of_lt he, hge⟩

/-! ## Valid tables -/

/-- **`t.Valid`** — every entry can be reached from its home, no reference is stored twice, and there
is a vacant slot unless there is no slot at all. -/
structure Valid (t : Table α) : Prop where
  counted : t.used = t.slots.countP Slot.inUse
  room : t.capacity = 0 ∨ t.used < t.capacity
  reached : ∀ i k v, slotAt t.slots i = .taken k v →
    ∃ d < t.capacity, probe t.capacity k.hash d = i ∧
      ∀ e < d, (slotAt t.slots (probe t.capacity k.hash e)).inUse = true
  distinct : ∀ i j k v k' v', slotAt t.slots i = .taken k v → slotAt t.slots j = .taken k' v' →
    k.ref = k'.ref → i = j

/-- **`t.Agrees k`** — an entry with the reference of the key has its hash too. -/
def Agrees (t : Table α) (k : Key) : Prop :=
  ∀ e ∈ t.toList, e.1.ref = k.ref → e.1 = k

/-- Where not every slot is in use, probing for a hash comes to a vacant one. -/
theorem exists_vacant (hlt : slots.countP Slot.inUse < slots.size) (hash : UInt32) :
    ∃ w < slots.size, slotAt slots (probe slots.size hash w) = .vacant := by
  have hex : ∃ s ∈ slots, s.inUse ≠ true := by
    by_contra hnone
    have hall : ∀ s ∈ slots, s.inUse = true := fun s hs => by
      by_contra huse
      exact hnone ⟨s, hs, huse⟩
    rw [Array.countP_eq_size.mpr hall] at hlt
    exact Nat.lt_irrefl _ hlt
  obtain ⟨s, hs, huse⟩ := hex
  obtain ⟨i, hi, hget⟩ := Array.getElem_of_mem hs
  obtain ⟨w, hw, hprobe⟩ := exists_probe hash hi
  refine ⟨w, hw, ?_⟩
  have hslot : slotAt slots i = s := by
    unfold slotAt
    simp [Array.getD_eq_getD_getElem?, hi, hget]
  rw [hprobe, hslot]
  cases s with
  | vacant => rfl
  | _ => exact absurd rfl huse

/-- A slot is vacant somewhere on the way around, as the table is never full. -/
theorem Valid.exists_vacant (ht : t.Valid) (hpos : 0 < t.capacity) (hash : UInt32) :
    ∃ w < t.capacity, slotAt t.slots (probe t.capacity hash w) = .vacant := by
  refine Table.exists_vacant ?_ hash
  have := ht.room
  rw [← ht.counted]
  unfold capacity at this hpos
  omega

theorem Valid.lands (ht : t.Valid) (hpos : 0 < t.capacity) (k : Key) :
    Lands t.slots k.hash k.ref (findSlot t.slots k) := by
  unfold findSlot
  have hhome : home t.slots k.hash = probe t.slots.size k.hash 0 := by simp [home, probe]
  rw [hhome]
  exact lands_findSlotFrom (ht.exists_vacant hpos k.hash) (Nat.zero_add _) nofun nofun

/-- Where probing for a key meets a vacant slot without having met its reference, no entry has that
reference. -/
theorem Valid.not_stored (ht : t.Valid) (hk : t.Agrees k)
    (hclear : Clear t.slots k.hash k.ref d) (hd : d < t.capacity)
    (hvacant : slotAt t.slots (probe t.slots.size k.hash d) = .vacant) :
    ∀ e ∈ t.toList, e.1.ref ≠ k.ref := by
  intro e he href
  obtain ⟨i, hi⟩ := mem_toList_iff_slotAt.mp he
  obtain rfl := hk e he href
  obtain ⟨d', hd', rfl, hway⟩ := ht.reached i _ _ hi
  rcases Nat.lt_trichotomy d' d with hlt | rfl | hlt
  · exact (hclear d' hlt).2 _ _ hi rfl
  · rw [capacity, hvacant] at hi
    cases hi
  · have huse := hway d hlt
    rw [capacity, hvacant] at huse
    cases huse

/-! ## Looking up -/

/-- **`get?_eq_some`** — a lookup finds exactly the entry of the key. -/
theorem Valid.get?_eq_some (ht : t.Valid) (hk : t.Agrees k) :
    t.get? k = some v ↔ (k, v) ∈ t.toList := by
  constructor
  · intro hv
    unfold get? at hv
    split at hv
    · cases hv
    · rename_i hused
      have hpos : 0 < t.capacity := by
        have : t.slots.countP Slot.inUse ≤ t.slots.size := Array.countP_le_size
        have := ht.counted
        unfold capacity
        omega
      have hlands := ht.lands hpos k
      change (slotAt t.slots _).item?.map _ = _ at hv
      generalize findSlot t.slots k = i at hv hlands
      cases hlands with
      | found hclear hslot href =>
        have hmem := mem_of_slotAt hslot
        rw [hslot] at hv
        obtain rfl : _ = v := Option.some.inj hv
        rwa [← hk _ hmem href]
      | opened hd hclear hvacant he hslot =>
        rw [hslot] at hv
        cases hv
  · intro hmem
    obtain ⟨i, hi⟩ := mem_toList_iff_slotAt.mp hmem
    obtain ⟨d, hd, -, -⟩ := ht.reached i _ _ hi
    have hused : t.used ≠ 0 := by
      rw [ht.counted]
      refine Nat.ne_of_gt (Array.countP_pos_iff.mpr ⟨.taken k v, ?_, rfl⟩)
      exact mem_toList.mp hmem
    have hlands := ht.lands (Nat.zero_lt_of_lt hd) k
    unfold get?
    rw [if_neg hused]
    change (slotAt t.slots _).item?.map _ = _
    generalize findSlot t.slots k = j at hlands
    cases hlands with
    | found hclear hslot href =>
      -- both entries have the reference of the key, so they are one
      obtain rfl := ht.distinct _ _ _ _ _ _ hi hslot href.symm
      rw [hi]
      rfl
    | opened hd hclear hvacant he hslot =>
      exact absurd rfl (ht.not_stored hk hclear hd hvacant _ hmem)

/-- A key that probing finds has the hash, satisfies the test and is stored. -/
theorem mem_of_findKeyFrom {p : Ref → Bool} {r : Ref} {fuel index : Nat}
    (h : findKeyFrom slots hash p index fuel = some r) :
    p r = true ∧ ∃ i v, slotAt slots i = .taken ⟨r, hash⟩ v := by
  induction fuel generalizing index with
  | zero => cases h
  | succ fuel ih =>
    unfold findKeyFrom at h
    split at h
    · cases h
    · exact ih h
    · rename_i k v hslot
      split at h
      · rename_i hfound
        obtain rfl := Option.some.inj h
        obtain ⟨hhash, hp⟩ := Bool.and_eq_true_iff.mp hfound
        obtain rfl : k.hash = hash := by simpa using hhash
        exact ⟨hp, index, v, hslot⟩
      · exact ih h

/-- Probing finds nothing only if no entry on the way to the first vacant slot passes the test. -/
theorem findKeyFrom_eq_none {p : Ref → Bool} {fuel : Nat} (hfuel : d + fuel = slots.size)
    (h : findKeyFrom slots hash p (probe slots.size hash d) fuel = none) {w : Nat} (hd : d ≤ w)
    (hw : w < slots.size) (hway : ∀ e < w, (slotAt slots (probe slots.size hash e)).inUse = true)
    (hslot : slotAt slots (probe slots.size hash w) = .taken k v) (hk : k.hash = hash) :
    p k.ref = false := by
  induction fuel generalizing d with
  | zero => omega
  | succ fuel ih =>
    unfold findKeyFrom at h
    rcases Nat.lt_or_eq_of_le hd with hlt | rfl
    · split at h
      · rename_i hvacant
        have huse := hway d hlt
        rw [slotAt, hvacant] at huse
        cases huse
      · rw [probe_succ] at h
        exact ih (by omega) h hlt
      · split at h
        · cases h
        · rw [probe_succ] at h
          exact ih (by omega) h hlt
    · rw [slotAt] at hslot
      rw [hslot] at h
      dsimp only at h
      split at h
      · cases h
      · rename_i hne
        simpa [hk] using hne

/-- **`findKey?_eq_some`** — what `findKey?` answers is a key with the hash that passes the test. -/
theorem findKey?_eq_some {p : Ref → Bool} {r : Ref} (h : t.findKey? hash p = some r) :
    p r = true ∧ ∃ v, ((⟨r, hash⟩ : Key), v) ∈ t.toList := by
  unfold findKey? at h
  split at h
  · cases h
  · obtain ⟨hp, i, v, hslot⟩ := mem_of_findKeyFrom h
    exact ⟨hp, v, mem_of_slotAt hslot⟩

/-- **`findKey?_eq_none`** — `findKey?` finds nothing only if no key with the hash passes the test. -/
theorem Valid.findKey?_eq_none (ht : t.Valid) {p : Ref → Bool} (h : t.findKey? hash p = none)
    (he : e ∈ t.toList) (hk : e.1.hash = hash) : p e.1.ref = false := by
  obtain ⟨i, hi⟩ := mem_toList_iff_slotAt.mp he
  obtain ⟨d, hd, rfl, hway⟩ := ht.reached i _ _ hi
  unfold findKey? at h
  split at h
  · rename_i hused
    have hpos : 0 < t.slots.countP Slot.inUse :=
      Array.countP_pos_iff.mpr ⟨_, mem_toList.mp he, rfl⟩
    rw [← ht.counted, hused] at hpos
    exact absurd hpos (Nat.lt_irrefl 0)
  · have hhome : home t.slots hash = probe t.slots.size hash 0 := by simp [home, probe]
    rw [hhome] at h
    subst hk
    exact findKeyFrom_eq_none (Nat.zero_add _) h (Nat.zero_le d) hd hway hi rfl

/-! ## Storing -/

theorem capacity_place : (t.place k v).capacity = t.capacity := by
  simp [place, capacity]

theorem slotAt_place {j : Nat} (hlt : findSlot t.slots k < t.capacity) :
    slotAt (t.place k v).slots j =
      if j = findSlot t.slots k then .taken k v else slotAt t.slots j :=
  slotAt_set j _ hlt

theorem Lands.lt (hl : Lands slots hash ref i) (hpos : 0 < slots.size) : i < slots.size := by
  cases hl <;> exact probe_lt hpos

/-- An entry in a vacant slot is one more in use, and one in place of another or of a tombstone is
not. -/
theorem used_place (ht : t.Valid) (hpos : 0 < t.capacity) :
    (t.place k v).used = (t.place k v).slots.countP Slot.inUse ∧
      (t.place k v).used ≤ t.used + 1 := by
  have hlt := (ht.lands hpos k).lt hpos
  have hcount : (t.slots.setIfInBounds (findSlot t.slots k) (.taken k v)).countP Slot.inUse =
      t.used - (if (slotAt t.slots (findSlot t.slots k)).inUse = true then 1 else 0) + 1 := by
    have hget : slotAt t.slots (findSlot t.slots k) = t.slots[findSlot t.slots k] := by
      simp [slotAt, Array.getD_eq_getD_getElem?, hlt]
    rw [Array.setIfInBounds_def, dif_pos hlt, Array.countP_set hlt, ← ht.counted, hget]
    rfl
  have hused : (slotAt t.slots (findSlot t.slots k)).inUse = true → 0 < t.used := by
    intro huse
    rw [ht.counted]
    refine Array.countP_pos_iff.mpr ⟨t.slots[findSlot t.slots k], Array.getElem_mem hlt, ?_⟩
    simpa [slotAt, Array.getD_eq_getD_getElem?, hlt] using huse
  unfold place
  change (match slotAt t.slots (findSlot t.slots k) with | .vacant => _ | _ => _) = _ ∧
    (match slotAt t.slots (findSlot t.slots k) with | .vacant => _ | _ => _) ≤ _
  dsimp only
  rw [hcount]
  cases hs : slotAt t.slots (findSlot t.slots k) <;> rw [hs] at hused <;>
    simp_all [Slot.inUse] <;> omega

section Place

variable (ht : t.Valid) (hpos : 0 < t.capacity)
include ht hpos

/-- A slot in use stays in use. -/
theorem Valid.inUse_place {j : Nat} (hj : (slotAt t.slots j).inUse = true) :
    (slotAt (t.place k v).slots j).inUse = true := by
  rw [slotAt_place ((ht.lands hpos k).lt hpos)]
  split
  · rfl
  · exact hj

/-- An entry elsewhere has another reference. -/
theorem Valid.ref_ne_of_ne_findSlot (hk : t.Agrees k) {j : Nat} {k' : Key} {v' : α}
    (hj : slotAt t.slots j = .taken k' v') (hne : j ≠ findSlot t.slots k) : k'.ref ≠ k.ref := by
  intro href
  have hlands := ht.lands hpos k
  generalize findSlot t.slots k = i at hlands hne
  cases hlands with
  | found hclear hi hki => exact hne (ht.distinct _ _ _ _ _ _ hj hi (href.trans hki.symm))
  | opened hd hclear hvacant he hi =>
    exact ht.not_stored hk hclear hd hvacant (k', v') (mem_of_slotAt hj) href

/-- The entry is reached on the way on which its slot was found: either one of its key was there, or
no slot before it was vacant. -/
theorem Valid.reached_place (hk : t.Agrees k) :
    ∃ d < t.capacity, probe t.capacity k.hash d = findSlot t.slots k ∧
      ∀ e < d, (slotAt t.slots (probe t.capacity k.hash e)).inUse = true := by
  have hlands := ht.lands hpos k
  generalize findSlot t.slots k = i at hlands
  cases hlands with
  | @found d k' v' hclear hi hki =>
    have hkk := hk _ (mem_of_slotAt hi) hki
    dsimp only at hkk
    subst hkk
    exact ht.reached _ _ _ hi
  | opened hd hclear hvacant he hi =>
    exact ⟨_, Nat.lt_of_le_of_lt he hd, rfl,
      fun e' he' => (hclear e' (Nat.lt_of_lt_of_le he' he)).1⟩

/-- The entry takes the place of that of its key, and all others stay. -/
theorem Valid.mem_place (hk : t.Agrees k) (e : Key × α) :
    e ∈ (t.place k v).toList ↔ e = (k, v) ∨ e ∈ t.toList ∧ e.1 ≠ k := by
  have hlands := ht.lands hpos k
  have hslot := fun j => slotAt_place (t := t) (k := k) (v := v) (j := j) (hlands.lt hpos)
  rw [mem_toList_iff_slotAt, mem_toList_iff_slotAt]
  constructor
  · rintro ⟨j, hj⟩
    rw [hslot] at hj
    split at hj
    · obtain ⟨h₁, h₂⟩ := Slot.taken.inj hj
      exact .inl (Prod.ext h₁.symm h₂.symm)
    · rename_i hne
      exact .inr ⟨⟨j, hj⟩, fun heq => ht.ref_ne_of_ne_findSlot hpos hk hj hne (by rw [heq])⟩
  · rintro (rfl | ⟨⟨j, hj⟩, hne⟩)
    · exact ⟨_, by rw [hslot, if_pos rfl]⟩
    · refine ⟨j, ?_⟩
      rw [hslot, if_neg, hj]
      -- the slot that is overwritten has an entry of this key or none
      rintro rfl
      generalize findSlot t.slots k = i at hlands hj
      cases hlands with
      | found hclear hi hki =>
        rw [hj] at hi
        obtain ⟨rfl, rfl⟩ := Slot.taken.inj hi
        exact hne (hk e (mem_of_slotAt hj) hki)
      | opened hd hclear hvacant he hi =>
        rw [hj] at hi
        cases hi

end Place

/-- **`Valid.place`** — placing an entry where there is room keeps the table valid; the entry takes
the place of that of its key, and all others stay. -/
theorem Valid.place (ht : t.Valid) (hk : t.Agrees k) (hroom : t.used + 1 < t.capacity) :
    (t.place k v).Valid ∧
      ∀ e, e ∈ (t.place k v).toList ↔ e = (k, v) ∨ e ∈ t.toList ∧ e.1 ≠ k := by
  have hpos : 0 < t.capacity := by omega
  have hslot := fun j =>
    slotAt_place (t := t) (k := k) (v := v) (j := j) ((ht.lands hpos k).lt hpos)
  obtain ⟨hcounted, hused⟩ := used_place (k := k) (v := v) ht hpos
  refine ⟨?_, ht.mem_place hpos hk⟩
  constructor
  case counted => exact hcounted
  case room =>
    rw [capacity_place]
    omega
  case reached =>
    intro j k' v' hj
    rw [capacity_place]
    rw [hslot] at hj
    split at hj
    · rename_i hji
      obtain ⟨rfl, rfl⟩ := Slot.taken.inj hj
      obtain ⟨d, hd, heq, hway⟩ := ht.reached_place hpos hk
      exact ⟨d, hd, heq.trans hji.symm, fun e he => ht.inUse_place hpos (hway e he)⟩
    · obtain ⟨d, hd, heq, hway⟩ := ht.reached j k' v' hj
      exact ⟨d, hd, heq, fun e he => ht.inUse_place hpos (hway e he)⟩
  case distinct =>
    intro j j' k₁ v₁ k₂ v₂ h₁ h₂ href
    rw [hslot] at h₁ h₂
    split at h₁ <;> split at h₂
    · omega
    · rename_i hne
      obtain ⟨rfl, rfl⟩ := Slot.taken.inj h₁
      exact absurd href.symm (ht.ref_ne_of_ne_findSlot hpos hk h₂ hne)
    · rename_i hne _
      obtain ⟨rfl, rfl⟩ := Slot.taken.inj h₂
      exact absurd href (ht.ref_ne_of_ne_findSlot hpos hk h₁ hne)
    · exact ht.distinct j j' k₁ v₁ k₂ v₂ h₁ h₂ href

/-! ## Making room -/

/-- The references of the entries are distinct. -/
theorem Valid.nodup_refs (ht : t.Valid) : (t.toList.map fun e => e.1.ref).Nodup := by
  unfold toList
  refine List.Pairwise.map (R := fun e e' => e.1.ref ≠ e'.1.ref) _ (fun _ _ h => h) ?_
  refine List.Pairwise.filterMap (R := fun s s' => ∀ e ∈ s.item?, ∀ e' ∈ s'.item?,
    e.1.ref ≠ e'.1.ref) _ (fun s s' h e he e' he' => h e he e' he') ?_
  rw [List.pairwise_iff_getElem]
  intro i j hi hj hij e he e' he' href
  have hslot : ∀ {i : Nat} (hi : i < t.slots.toList.length) {e : Key × α},
      t.slots.toList[i].item? = some e → slotAt t.slots i = .taken e.1 e.2 := by
    intro i hi e he
    rw [Array.length_toList] at hi
    rw [slotAt_eq_taken, Array.getElem?_eq_getElem hi]
    rw [Array.getElem_toList] at he
    cases hs : t.slots[i] with
    | taken k v =>
      rw [hs] at he
      rw [← Option.some.inj he]
    | _ => rw [hs] at he; cases he
  exact Nat.ne_of_lt hij (ht.distinct i j _ _ _ _ (hslot hi he) (hslot hj he') href)

/-- Tombstones are counted as in use. -/
theorem length_toList_le (ht : t.Valid) : t.toList.length ≤ t.used := by
  rw [ht.counted, ← Array.countP_toList, toList, List.length_filterMap_eq_countP]
  refine List.countP_mono_left fun s _ hs => ?_
  cases s with
  | vacant => cases hs
  | _ => rfl

theorem resized_eq (capacity : Nat) : t.resized capacity =
    t.toList.foldl (fun u e => u.receive e.1 e.2) (vacant capacity) := by
  unfold resized toList
  rw [← Array.foldl_toList, List.foldl_filterMap]
  congr
  funext u s
  cases s <;> rfl

@[simp] theorem capacity_vacant (n : Nat) : (vacant n : Table α).capacity = n := by
  simp [vacant, capacity]

@[simp] theorem slotAt_vacant (n i : Nat) : slotAt (vacant n : Table α).slots i = .vacant := by
  simp only [vacant, slotAt, Array.getD_eq_getD_getElem?, Array.getElem?_replicate]
  split <;> rfl

/-- A table of vacant slots is valid and empty. -/
theorem valid_vacant (n : Nat) :
    (vacant n : Table α).Valid ∧ (vacant n : Table α).toList = [] := by
  refine ⟨⟨?_, ?_, fun i k v h => ?_, fun i j k v k' v' h => ?_⟩, ?_⟩
  · simp [vacant, Array.countP_replicate, Slot.inUse]
  · rw [capacity_vacant]
    show n = 0 ∨ 0 < n
    omega
  · rw [slotAt_vacant] at h
    cases h
  · rw [slotAt_vacant] at h
    cases h
  · rw [List.eq_nil_iff_forall_not_mem]
    intro e he
    obtain ⟨i, hi⟩ := mem_toList_iff_slotAt.mp he
    rw [slotAt_vacant] at hi
    cases hi

/-- Where nothing was erased, an entry with a new reference is received as it would be placed. -/
theorem Valid.receive_eq (ht : t.Valid) (hpos : 0 < t.capacity)
    (hclean : ∀ i, slotAt t.slots i ≠ .erased) (hnew : ∀ e ∈ t.toList, e.1.ref ≠ k.ref) :
    t.receive k v = t.place k v := by
  have hvacant : slotAt t.slots (findSlot t.slots k) = .vacant := by
    have hlands := ht.lands hpos k
    generalize findSlot t.slots k = i at hlands
    cases hlands with
    | found hclear hslot href => exact absurd href (hnew _ (mem_of_slotAt hslot))
    | @opened d e hd hclear hvacant he hslot =>
      cases hs : slotAt t.slots (probe t.slots.size k.hash e) with
      | vacant => rfl
      | erased => exact absurd hs (hclean _)
      | taken k' v' =>
        rw [hs] at hslot
        cases hslot
  unfold slotAt at hvacant
  unfold Table.receive Table.place
  dsimp only
  rw [hvacant]

/-- Placing an entry leaves no tombstone. -/
theorem slotAt_place_ne_erased (ht : t.Valid) (hpos : 0 < t.capacity)
    (hclean : ∀ i, slotAt t.slots i ≠ .erased) (i : Nat) :
    slotAt (t.place k v).slots i ≠ .erased := by
  rw [slotAt_place ((ht.lands hpos k).lt hpos)]
  split
  · exact nofun
  · exact hclean i

/-- Entries with new references received one after the other, nothing having been erased. -/
theorem Valid.foldl_receive (es : List (Key × α)) : ∀ {u : Table α}, u.Valid →
    (∀ i, slotAt u.slots i ≠ .erased) → (es.map fun e => e.1.ref).Nodup →
    (∀ e ∈ es, ∀ e' ∈ u.toList, e'.1.ref ≠ e.1.ref) → u.used + es.length < u.capacity →
      let t := es.foldl (fun u e => u.receive e.1 e.2) u
      t.Valid ∧ t.capacity = u.capacity ∧ t.used ≤ u.used + es.length ∧
        ∀ e, e ∈ t.toList ↔ e ∈ u.toList ∨ e ∈ es := by
  induction es with
  | nil =>
    intro u hu _ _ _ _
    exact ⟨hu, rfl, Nat.le_refl _, by simp⟩
  | cons e₀ es ih =>
    intro u hu hclean hnodup hnew hroom
    rw [List.length_cons] at hroom
    have hpos : 0 < u.capacity := by omega
    obtain ⟨hnot, hnodup⟩ := List.nodup_cons.mp hnodup
    have hnew₀ := hnew e₀ List.mem_cons_self
    have hagrees : u.Agrees e₀.1 := fun e' he' href => absurd href (hnew₀ e' he')
    -- the first entry is placed, and the others are received by what is left
    obtain ⟨hvalid, hmem⟩ := hu.place (v := e₀.2) hagrees (by omega)
    have hused := (used_place (k := e₀.1) (v := e₀.2) hu hpos).2
    obtain ⟨hvalid', hcapacity, hused', hmem'⟩ := ih hvalid
      (slotAt_place_ne_erased hu hpos hclean) hnodup
      (fun e he e' he' => by
        rcases (hmem e').mp he' with rfl | ⟨he', -⟩
        · exact fun href => hnot (List.mem_map.mpr ⟨e, he, href.symm⟩)
        · exact hnew e (List.mem_cons_of_mem _ he) e' he')
      (by rw [capacity_place]; omega)
    rw [List.foldl_cons, hu.receive_eq hpos hclean hnew₀]
    refine ⟨hvalid', hcapacity.trans capacity_place, ?_, fun e => ?_⟩
    · rw [List.length_cons]
      exact Nat.le_trans hused' (by omega)
    · rw [hmem', hmem, List.mem_cons]
      constructor
      · rintro ((rfl | ⟨he, -⟩) | he)
        · exact .inr (.inl rfl)
        · exact .inl he
        · exact .inr (.inr he)
      · rintro (he | rfl | he)
        · refine .inl (.inr ⟨he, fun heq => hnew₀ e he ?_⟩)
          rw [heq]
        · exact .inl (.inl rfl)
        · exact .inr he

/-- **`Valid.withRoom`** — making room keeps the entries. -/
theorem Valid.withRoom (ht : t.Valid) : t.withRoom.Valid ∧
    t.withRoom.used + 1 < t.withRoom.capacity ∧ ∀ e, e ∈ t.withRoom.toList ↔ e ∈ t.toList := by
  unfold Table.withRoom
  split
  · obtain ⟨hvacant, hnil⟩ := valid_vacant (α := α) t.nextCapacity
    have hlength := length_toList_le ht
    have hroom := ht.room
    have hnone : t.capacity = 0 → t.used = 0 := by
      intro h
      have : t.slots.countP Slot.inUse ≤ t.slots.size := Array.countP_le_size
      have := ht.counted
      unfold capacity at h
      omega
    have hnext : t.nextCapacity = max (2 * t.capacity) 8 := rfl
    have hused₀ : (Table.vacant t.nextCapacity : Table α).used = 0 := rfl
    obtain ⟨hvalid, hcap, hused, hmem⟩ := Valid.foldl_receive t.toList hvacant (by simp)
      ht.nodup_refs (by simp [hnil]) (by rw [capacity_vacant, hused₀]; omega)
    rw [resized_eq]
    refine ⟨hvalid, ?_, fun e => ?_⟩
    · rw [hcap, capacity_vacant]
      omega
    · rw [hmem, hnil]
      simp
  · rename_i hfull
    exact ⟨ht, by omega, fun _ => .rfl⟩

theorem Agrees.of_mem (hk : t.Agrees k) (hmem : ∀ e, e ∈ u.toList → e ∈ t.toList) : u.Agrees k :=
  fun e he => hk e (hmem e he)

/-- **`Valid.set`** — storing a value under a key keeps the table valid; the key has that value then,
and the other keys have the values they had. -/
theorem Valid.set (ht : t.Valid) (hk : t.Agrees k) : (t.set k v).Valid ∧
    ∀ e, e ∈ (t.set k v).toList ↔ e = (k, v) ∨ e ∈ t.toList ∧ e.1 ≠ k := by
  obtain ⟨hvalid, hroom, hmem⟩ := ht.withRoom
  obtain ⟨hset, hsetmem⟩ := hvalid.place (v := v) (hk.of_mem fun e => (hmem e).mp) hroom
  exact ⟨hset, fun e => by rw [Table.set, hsetmem, hmem]⟩

theorem valid_empty : (empty : Table α).Valid :=
  (valid_vacant 0).1

/-! ## Erasing -/

section Retain

variable (t : Table α) (p : Key → Bool)

/-- What erasing does to a slot. -/
def Slot.retain : Slot α → Slot α
  | .taken k v => if p k then .taken k v else .erased
  | s => s

theorem slotAt_retain (i : Nat) :
    slotAt (t.retain p).slots i = (slotAt t.slots i).retain p := by
  have hslots : (t.retain p).slots = t.slots.map (Slot.retain p) := by
    unfold Table.retain
    congr
  unfold slotAt
  rw [hslots, Array.getD_eq_getD_getElem?, Array.getD_eq_getD_getElem?, Array.getElem?_map]
  cases t.slots[i]? <;> rfl

theorem Slot.inUse_retain (s : Slot α) : (s.retain p).inUse = s.inUse := by
  cases s with
  | taken k v => by_cases hp : p k = true <;> simp [Slot.retain, Slot.inUse, hp]
  | _ => rfl

/-- An entry that is kept stays in its slot, and one that is not leaves a tombstone. -/
theorem slotAt_retain_eq_taken : slotAt (t.retain p).slots i = .taken k v ↔
    slotAt t.slots i = .taken k v ∧ p k = true := by
  rw [slotAt_retain]
  cases slotAt t.slots i with
  | taken k' v' =>
    by_cases hp : p k' = true
    · simp only [Slot.retain, hp, if_true, Slot.taken.injEq]
      exact ⟨fun h => ⟨h, h.1 ▸ hp⟩, And.left⟩
    · simp only [Slot.retain, hp, Bool.false_eq_true, if_false, reduceCtorEq, Slot.taken.injEq,
        false_iff, not_and]
      rintro ⟨rfl, -⟩
      exact hp
  | _ => simp [Slot.retain]

/-- **`mem_toList_retain`** — erasing keys leaves the entries of the others. -/
theorem mem_toList_retain : e ∈ (t.retain p).toList ↔ e ∈ t.toList ∧ p e.1 = true := by
  rw [mem_toList_iff_slotAt, mem_toList_iff_slotAt]
  simp only [slotAt_retain_eq_taken]
  exact exists_and_right

/-- Tombstones are still passed over, so what is kept is found as before. -/
theorem Valid.retain (ht : t.Valid) : (t.retain p).Valid := by
  have hcapacity : (t.retain p).capacity = t.capacity := by simp [capacity, Table.retain]
  refine ⟨?_, hcapacity ▸ ht.room, fun i k v h => ?_, fun i j k v k' v' h h' => ?_⟩
  · unfold Table.retain
    rw [Array.countP_map, ht.counted]
    refine congrArg (t.slots.countP ·) (funext fun s => ?_)
    have huse := Slot.inUse_retain p s
    cases s <;> exact huse.symm
  · obtain ⟨d, hd, heq, hway⟩ := ht.reached i k v ((slotAt_retain_eq_taken t p).mp h).1
    rw [hcapacity]
    refine ⟨d, hd, heq, fun e he => ?_⟩
    rw [slotAt_retain, Slot.inUse_retain]
    exact hway e he
  · exact ht.distinct i j k v k' v' ((slotAt_retain_eq_taken t p).mp h).1
      ((slotAt_retain_eq_taken t p).mp h').1

end Retain

end ScriptMachine.Table
