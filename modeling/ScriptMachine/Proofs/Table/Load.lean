import Mathlib
import ScriptMachine.Proofs.Number.Naturals
import ScriptMachine.Proofs.Table.Refinement

/-!
# ScriptMachine.Proofs.Table.Load — a table never fills up

An erased slot counts like a taken one, a slot that is taken again has been counted already, and a
table grows before more than three quarters of its slots are counted. So there is a vacant slot in
every table with slots, whatever was done to it, and with whatever hashes: this does not ask that a
reference always comes with the same hash, nor that it is stored only once.

The searches of the model stop after as many looks as there are slots. `Ends` is the same search
without that bound, going round by masking the index. It comes to an end on its own, at the answer of
the bounded search. The load is compared with three quarters of the capacity as natural numbers here,
and as doubles this comes out the same.

`probing_ends` is the result, over any changes to any number of tables; `Loaded` is the invariant, and
each operation has one lemma that keeps it. Growing is the only place with arithmetic: receiving the
entries of the old slots counts each once, so a grown table is at most three quarters full again.
That the slots which are searched while a table grows are vacant enough as well is part of the
statement (`Searched`).
-/

namespace ScriptMachine.Table

variable {α σ ρ : Type} {t : Table α} {slots : Array (Slot α)} {k : Key} {v : α} {s : σ} {d w : Nat}

/-! ## Searches without a bound -/

/-- **`Ends look s n r`** — looking again and again, beginning with the state `s`, until a look has a
result takes `n` looks, and `r` is the result. -/
inductive Ends (look : σ → ρ ⊕ σ) : σ → Nat → ρ → Prop
  | here {s : σ} {r : ρ} (h : look s = .inl r) : Ends look s 1 r
  | later {s s' : σ} {n : Nat} {r : ρ} (h : look s = .inr s') (rest : Ends look s' n r) :
      Ends look s (n + 1) r

/-- The index that a number has among so many slots, by masking. -/
def masked (size n : Nat) : Nat :=
  n &&& (size - 1)

/-- One look of the search for the slot of a reference. The state is the first erased slot that was
passed, and where to look. -/
def slotLook (slots : Array (Slot α)) (ref : Ref) : Option Nat × Nat → Nat ⊕ (Option Nat × Nat)
  | (grave, index) =>
    match slotAt slots index with
    | .vacant => .inl (grave.getD index)
    | .erased => .inr (grave.or (some index), masked slots.size (index + 1))
    | .taken k _ =>
      if k.ref = ref then .inl index else .inr (grave, masked slots.size (index + 1))

/-- One look of the search for a key with a hash that satisfies `p`. The state is where to look. -/
def keyLook (slots : Array (Slot α)) (hash : UInt32) (p : Ref → Bool) (index : Nat) :
    Option Ref ⊕ Nat :=
  match slotAt slots index with
  | .vacant => .inl none
  | .erased => .inr (masked slots.size (index + 1))
  | .taken k _ =>
    if k.hash = hash && p k.ref then .inl (some k.ref) else .inr (masked slots.size (index + 1))

/-- **`SearchesEnd slots`** — every search through the slots ends after at most as many looks as there
are slots, with the answer of the bounded search. -/
structure SearchesEnd (slots : Array (Slot α)) : Prop where
  slot (key : Key) : ∃ n ≤ slots.size,
    Ends (slotLook slots key.ref) (none, masked slots.size key.hash.toNat) n (findSlot slots key)
  key (hash : UInt32) (p : Ref → Bool) : ∃ n ≤ slots.size,
    Ends (keyLook slots hash p) (masked slots.size hash.toNat) n
      (findKeyFrom slots hash p (home slots hash) slots.size)

section Bounded

variable {hash : UInt32} {e : Nat}

/-- Masking is taking the remainder, as the capacity is a power of two. -/
theorem masked_eq (hsize : slots.size = 2 ^ e) (n : Nat) : masked slots.size n = n % slots.size := by
  rw [masked, hsize, Nat.and_two_pow_sub_one_eq_mod]

/-- A bounded search that goes by the looks ends like the search without a bound when every look that
has no result is at a slot in use and is followed by one at the next slot: it comes to the vacant slot
at the latest. -/
theorem ends_of_bounded {look : σ → ρ ⊕ σ} {run : σ → Nat → ρ} (index : σ → Nat)
    (hrun : ∀ s fuel, run s (fuel + 1) = (look s).elim id (run · fuel))
    (hturn : ∀ s s', look s = .inr s' →
      slotAt slots (index s) ≠ .vacant ∧ index s' = (index s + 1) % slots.size)
    (hvacant : slotAt slots (probe slots.size hash w) = .vacant) (fuel : Nat)
    (hs : index s = probe slots.size hash d) (hd : d ≤ w) (hfuel : w < d + fuel) :
    ∃ n ≤ w + 1 - d, Ends look s n (run s fuel) := by
  -- each look goes one place on, and the vacant slot is `w - d` places ahead
  induction fuel generalizing d s with
  | zero => omega
  | succ fuel ih =>
    rw [hrun]
    cases hlook : look s with
    | inl r => exact ⟨1, by omega, .here hlook⟩
    | inr s' =>
      obtain ⟨huse, hs'⟩ := hturn s s' hlook
      -- a look at the vacant slot would have had a result
      have hne : d ≠ w := by
        rintro rfl
        exact huse (hs ▸ hvacant)
      rw [hs, probe_succ] at hs'
      obtain ⟨n, hn, hends⟩ := ih hs' (by omega) (by omega)
      exact ⟨n + 1, by omega, .later hlook hends⟩

variable (hsize : slots.size = 2 ^ e)
include hsize

theorem findSlotFrom_succ (ref : Ref) (s : Option Nat × Nat) (fuel : Nat) :
    findSlotFrom slots ref s.1 s.2 (fuel + 1) =
      (slotLook slots ref s).elim id fun s' => findSlotFrom slots ref s'.1 s'.2 fuel := by
  obtain ⟨grave, index⟩ := s
  rw [findSlotFrom, slotLook, ← slotAt, masked_eq hsize]
  cases slotAt slots index with
  | vacant => rfl
  | erased => rfl
  | taken k v =>
    dsimp only
    split <;> rfl

/-- The search goes on from a slot in use, to the next one around. -/
theorem slotLook_turn {ref : Ref} {s s' : Option Nat × Nat} (h : slotLook slots ref s = .inr s') :
    slotAt slots s.2 ≠ .vacant ∧ s'.2 = (s.2 + 1) % slots.size := by
  obtain ⟨grave, index⟩ := s
  unfold slotLook at h
  dsimp only at h
  rw [masked_eq hsize] at h
  split at h
  · cases h
  · rename_i hslot
    obtain rfl := Sum.inr.inj h
    exact ⟨by simp [hslot], rfl⟩
  · rename_i hslot
    split at h
    · cases h
    · obtain rfl := Sum.inr.inj h
      exact ⟨by simp [hslot], rfl⟩

theorem findKeyFrom_succ (hash : UInt32) (p : Ref → Bool) (index fuel : Nat) :
    findKeyFrom slots hash p index (fuel + 1) =
      (keyLook slots hash p index).elim id (findKeyFrom slots hash p · fuel) := by
  rw [findKeyFrom, keyLook, ← slotAt, masked_eq hsize]
  cases slotAt slots index with
  | vacant => rfl
  | erased => rfl
  | taken k v =>
    dsimp only
    split <;> rfl

/-- And so does the search by hash. -/
theorem keyLook_turn {p : Ref → Bool} {index index' : Nat}
    (h : keyLook slots hash p index = .inr index') :
    slotAt slots index ≠ .vacant ∧ index' = (index + 1) % slots.size := by
  unfold keyLook at h
  rw [masked_eq hsize] at h
  split at h
  · cases h
  · rename_i hslot
    exact ⟨by simp [hslot], (Sum.inr.inj h).symm⟩
  · rename_i hslot
    split at h
    · cases h
    · exact ⟨by simp [hslot], (Sum.inr.inj h).symm⟩

/-- **`searchesEnd`** — where not every slot is in use, every search ends. -/
theorem searchesEnd (hlt : slots.countP Slot.inUse < slots.size) : SearchesEnd slots := by
  have hhome : ∀ hash, home slots hash = probe slots.size hash 0 := fun hash => by
    simp [home, probe]
  have hmasked : ∀ hash : UInt32, masked slots.size hash.toNat = probe slots.size hash 0 := fun hash =>
    masked_eq hsize _
  refine ⟨fun key => ?_, fun hash p => ?_⟩
  · obtain ⟨w, hw, hvacant⟩ := exists_vacant hlt key.hash
    obtain ⟨n, hn, hends⟩ := ends_of_bounded (s := (none, probe slots.size key.hash 0)) Prod.snd
      (findSlotFrom_succ hsize key.ref) (fun _ _ => slotLook_turn hsize) hvacant slots.size
      rfl (Nat.zero_le w) (by omega)
    rw [hmasked, findSlot, hhome]
    exact ⟨n, by omega, hends⟩
  · obtain ⟨w, hw, hvacant⟩ := exists_vacant hlt hash
    obtain ⟨n, hn, hends⟩ := ends_of_bounded (s := probe slots.size hash 0) id
      (findKeyFrom_succ hsize hash p) (fun _ _ => keyLook_turn hsize) hvacant slots.size
      rfl (Nat.zero_le w) (by omega)
    rw [hmasked, hhome]
    exact ⟨n, by omega, hends⟩

end Bounded

/-! ## The load -/

/-- **`t.Loaded`** — the capacity is none or a power of two that is at least eight, every slot in use is
counted, and at most three quarters of the slots are. -/
structure Loaded (t : Table α) : Prop where
  capacity : t.capacity = 0 ∨ 8 ≤ t.capacity ∧ ∃ e, t.capacity = 2 ^ e
  counted : t.slots.countP Slot.inUse ≤ t.used
  light : 4 * t.used ≤ 3 * t.capacity

theorem loaded_empty : (empty : Table α).Loaded :=
  ⟨.inl rfl, Nat.le_refl 0, Nat.le_refl 0⟩

/-- Another slot in the place of one counts once more at most, and not if that was in use. -/
theorem countP_set_le (slots : Array (Slot α)) (i : Nat) (s : Slot α) :
    (slots.setIfInBounds i s).countP Slot.inUse ≤
      slots.countP Slot.inUse + if (slotAt slots i).inUse then 0 else 1 := by
  rw [Array.setIfInBounds_def]
  split
  · rename_i hi
    have hslot : slotAt slots i = slots[i] := by
      simp [slotAt, Array.getD_eq_getD_getElem?, hi]
    have hpos : slots[i].inUse = true → 0 < slots.countP Slot.inUse := fun huse =>
      Array.countP_pos_iff.mpr ⟨slots[i], Array.getElem_mem hi, huse⟩
    have hone : (if s.inUse = true then 1 else 0) ≤ 1 := by split <;> omega
    rw [Array.countP_set hi, hslot]
    split
    · rename_i huse
      have := hpos huse
      omega
    · omega
  · exact Nat.le_add_right _ _

/-- An entry takes at most one more slot. -/
theorem countP_receive_le : (t.receive k v).slots.countP Slot.inUse ≤ t.slots.countP Slot.inUse + 1 := by
  have hle := countP_set_le t.slots (findSlot t.slots k) (.taken k v)
  have hone : (if (slotAt t.slots (findSlot t.slots k)).inUse then 0 else 1) ≤ 1 := by split <;> omega
  exact Nat.le_trans hle (Nat.add_le_add_left hone _)

/-- Entries received one after the other are all counted, and the capacity stays. -/
theorem foldl_receive_load (es : List (Key × α)) : ∀ u : Table α,
    let t := es.foldl (fun u e => u.receive e.1 e.2) u
    t.capacity = u.capacity ∧ t.used = u.used + es.length ∧
      t.slots.countP Slot.inUse ≤ u.slots.countP Slot.inUse + es.length := by
  induction es with
  | nil => exact fun u => ⟨rfl, rfl, Nat.le_refl _⟩
  | cons e es ih =>
    intro u
    obtain ⟨hcapacity, hused, hcount⟩ := ih (u.receive e.1 e.2)
    have hone := countP_receive_le (t := u) (k := e.1) (v := e.2)
    have hsame : (u.receive e.1 e.2).capacity = u.capacity := by simp [receive, capacity]
    have hnext : (u.receive e.1 e.2).used = u.used + 1 := rfl
    rw [List.foldl_cons, List.length_cons]
    refine ⟨hcapacity.trans hsame, ?_, ?_⟩ <;> dsimp only at * <;> omega

/-- **`t.filled es`** — the table that `t` grows to, after it received the entries `es`. -/
def filled (t : Table α) (es : List (Key × α)) : Table α :=
  es.foldl (fun u e => u.receive e.1 e.2) (vacant t.nextCapacity)

/-- All its entries received, a table has grown. -/
theorem filled_toList (t : Table α) : t.filled t.toList = t.resized t.nextCapacity :=
  (resized_eq ..).symm

/-- A table that is filled anew has no tombstones. -/
theorem filled_load (t : Table α) (es : List (Key × α)) : (t.filled es).capacity = t.nextCapacity ∧
    (t.filled es).used = es.length ∧ (t.filled es).slots.countP Slot.inUse ≤ es.length := by
  obtain ⟨hcapacity, hused, hcount⟩ := foldl_receive_load es (vacant t.nextCapacity)
  have hnone : (vacant t.nextCapacity : Table α).slots.countP Slot.inUse = 0 := by
    simp [vacant, Array.countP_replicate, Slot.inUse]
  rw [hnone, Nat.zero_add] at hcount
  exact ⟨hcapacity.trans (capacity_vacant _), hused.trans (Nat.zero_add _), hcount⟩

namespace Loaded

variable (ht : t.Loaded)
include ht

theorem nextCapacity : 8 ≤ t.nextCapacity ∧ ∃ e, t.nextCapacity = 2 ^ e := by
  have hnext : t.nextCapacity = max (2 * t.capacity) 8 := rfl
  refine ⟨by omega, ?_⟩
  rcases ht.capacity with hzero | ⟨hle, e, he⟩
  · exact ⟨3, by omega⟩
  · exact ⟨e + 1, by rw [Nat.pow_succ]; omega⟩

/-- More entries than are counted there are not. -/
theorem length_toList_le : t.toList.length ≤ t.used := by
  refine Nat.le_trans ?_ ht.counted
  rw [← Array.countP_toList, toList, List.length_filterMap_eq_countP]
  refine List.countP_mono_left fun s _ hs => ?_
  cases s with
  | vacant => cases hs
  | _ => rfl

/-- There is room for one more entry where room is made. -/
theorem withRoom : t.withRoom.Loaded ∧ 4 * (t.withRoom.used + 1) ≤ 3 * t.withRoom.capacity := by
  unfold Table.withRoom
  split
  · obtain ⟨hcapacity, hused, hcount⟩ := t.filled_load t.toList
    have hlength := ht.length_toList_le
    have hlight := ht.light
    have hnext : t.nextCapacity = max (2 * t.capacity) 8 := rfl
    -- what was erased is not counted any more, and the capacity doubled
    rw [← filled_toList]
    refine ⟨⟨.inr ?_, ?_, ?_⟩, ?_⟩
    · rw [hcapacity]
      exact ht.nextCapacity
    · rwa [hused]
    · omega
    · omega
  · exact ⟨ht, by omega⟩

/-- **`set`** — storing keeps the load. -/
theorem set (k : Key) (v : α) : (t.set k v).Loaded := by
  obtain ⟨hroom, hlight⟩ := ht.withRoom
  have hcount := countP_set_le t.withRoom.slots (findSlot t.withRoom.slots k) (.taken k v)
  have hcounted := hroom.counted
  have hcapacity : (t.set k v).capacity = t.withRoom.capacity := capacity_place
  have hslots : (t.set k v).slots =
      t.withRoom.slots.setIfInBounds (findSlot t.withRoom.slots k) (.taken k v) := rfl
  have hused : (t.set k v).used = t.withRoom.used +
      if (slotAt t.withRoom.slots (findSlot t.withRoom.slots k)).inUse then 0 else 1 := by
    unfold Table.set Table.place
    dsimp only
    rw [← slotAt]
    cases slotAt t.withRoom.slots (findSlot t.withRoom.slots k) <;> rfl
  -- the slot is counted now exactly if it was not in use before
  refine ⟨hcapacity ▸ hroom.capacity, ?_, ?_⟩
  · rw [hslots, hused]
    omega
  · rw [hcapacity, hused]
    split <;> omega

/-- **`retain`** — an erased slot stays counted. -/
theorem retain (p : Key → Bool) : (t.retain p).Loaded := by
  have hcapacity : (t.retain p).capacity = t.capacity := by simp [Table.capacity, Table.retain]
  refine ⟨hcapacity ▸ ht.capacity, ?_, hcapacity ▸ ht.light⟩
  refine Nat.le_trans (Nat.le_of_eq ?_) ht.counted
  unfold Table.retain
  rw [Array.countP_map]
  refine congrArg (t.slots.countP ·) (funext fun s => ?_)
  have huse := Slot.inUse_retain p s
  cases s <;> exact huse

/-- **`erase`** — so does the slot of one key. -/
theorem erase (k : Key) : (t.erase k).2.Loaded := by
  unfold Table.erase
  split
  · exact ht
  · dsimp only
    rw [← slotAt]
    split
    · rename_i k' v' hslot
      have hcount := countP_set_le t.slots (findSlot t.slots k) .erased
      have hcapacity : (Table.mk t.used (t.slots.setIfInBounds (findSlot t.slots k) .erased)).capacity =
          t.capacity := by simp [Table.capacity]
      rw [hslot] at hcount
      exact ⟨hcapacity ▸ ht.capacity, Nat.le_trans hcount ht.counted, hcapacity ▸ ht.light⟩
    · exact ht

/-- **`addAll`** — storing the entries of another table keeps the load. -/
theorem addAll (u : Table α) : (t.addAll u).Loaded := by
  have hfold : ∀ (es : List (Key × α)) (t : Table α), t.Loaded →
      (es.foldl (fun u e => u.set e.1 e.2) t).Loaded := by
    intro es
    induction es with
    | nil => exact fun t ht => ht
    | cons e es ih => exact fun t ht => ih _ (ht.set e.1 e.2)
  rw [addAll_eq]
  exact hfold _ t ht

/-- **`withRoom_eq`** — compared as doubles, the load makes the same tables grow. -/
theorem withRoom_eq (hbound : t.capacity < 2 ^ 53) : t.withRoom =
    if t.capacity.toUInt64.toFloat * 0.75 < (t.used + 1).toUInt64.toFloat then t.resized t.nextCapacity
    else t := by
  have hlight := ht.light
  have hiff : 3 * t.capacity < 4 * (t.used + 1) ↔
      t.capacity.toUInt64.toFloat * 0.75 < (t.used + 1).toUInt64.toFloat := by
    rcases ht.capacity with hzero | ⟨hle, e, he⟩
    · have hused : t.used = 0 := by omega
      rw [hzero, hused]
      exact iff_of_true (by decide) (by decide +kernel)
    · obtain ⟨k, rfl⟩ : ∃ k, e = 2 + k :=
        ⟨e - 2, (Nat.add_sub_cancel' (Nat.le_of_lt
          ((Nat.pow_lt_pow_iff_right (by decide)).mp (show 2 ^ 2 < 2 ^ e by omega)))).symm⟩
      have hk : 2 + k < 53 := (Nat.pow_lt_pow_iff_right (by decide)).mp (he ▸ hbound)
      rw [Nat.pow_add] at he
      have hpos := Nat.two_pow_pos k
      rw [he, Number.toFloat_three_quarters k (by omega),
        Number.toFloat_lt_iff (by omega) (by omega) (by omega) (by omega)]
      omega
  unfold Table.withRoom
  simp only [hiff]

/-- A table with slots has more of them than are in use. -/
theorem countP_lt (hpos : 0 < t.capacity) : t.slots.countP Slot.inUse < t.slots.size := by
  have hcounted := ht.counted
  have hlight := ht.light
  unfold Table.capacity at hpos hlight
  omega

/-- **`exists_vacant`** — a table with slots has a vacant one. -/
theorem exists_vacant (hpos : 0 < t.capacity) : ∃ j < t.capacity, t.slots[j]? = some .vacant := by
  obtain ⟨w, hw, hvacant⟩ := Table.exists_vacant (ht.countP_lt hpos) 0
  have hj : probe t.slots.size 0 w < t.slots.size := probe_lt hpos
  refine ⟨_, hj, ?_⟩
  rw [slotAt, Array.getD_eq_getD_getElem?, Array.getElem?_eq_getElem hj] at hvacant
  rw [Array.getElem?_eq_getElem hj]
  exact congrArg some hvacant

end Loaded

/-! ## Whatever is done to tables -/

/-- **`t.Searched slots`** — `slots` are searched when `t` is used: its own, if it has any, and those
that are being filled when it grows. -/
inductive Searched (t : Table α) : Array (Slot α) → Prop
  | own (hpos : 0 < t.capacity) : t.Searched t.slots
  | filling {es : List (Key × α)} (hes : es <+: t.toList) : t.Searched (t.filled es).slots

/-- A vacant slot is left, and every search that goes around comes to it. -/
theorem Loaded.searchesEnd (ht : t.Loaded) (h : t.Searched slots) : SearchesEnd slots := by
  cases h with
  | own hpos =>
    have hsize : ∃ e, t.slots.size = 2 ^ e :=
      (ht.capacity.resolve_left (Nat.ne_of_gt hpos)).2
    obtain ⟨e, he⟩ := hsize
    exact Table.searchesEnd he (ht.countP_lt hpos)
  | @filling es hes =>
    obtain ⟨hcapacity, -, hcount⟩ := t.filled_load es
    obtain ⟨hle, e, he⟩ := ht.nextCapacity
    have hlength := Nat.le_trans hes.length_le ht.length_toList_le
    have hlight := ht.light
    have hnext : t.nextCapacity = max (2 * t.capacity) 8 := rfl
    refine Table.searchesEnd (hcapacity.trans he) (Nat.lt_of_le_of_lt hcount ?_)
    show es.length < (t.filled es).capacity
    omega

/-- A change of one of some numbered tables. The keys come with any hashes. -/
inductive Change (α : Type) where
  | set (table : Nat) (key : Key) (value : α)
  | erase (table : Nat) (key : Key)
  | retain (table : Nat) (p : Key → Bool)
  | addAll (source target : Nat)
  | clone (source target : Nat)

namespace Change

/-- The tables after a change. -/
def apply (ts : Nat → Table α) : Change α → Nat → Table α
  | .set i k v => Function.update ts i ((ts i).set k v)
  | .erase i k => Function.update ts i ((ts i).erase k).2
  | .retain i p => Function.update ts i ((ts i).retain p)
  | .addAll i j => Function.update ts j ((ts j).addAll (ts i))
  | .clone i j => Function.update ts j (ts i)

variable {ts : Nat → Table α}

theorem loaded_update (hts : ∀ i, (ts i).Loaded) (ht : t.Loaded) (i j : Nat) :
    (Function.update ts i t j).Loaded := by
  by_cases hj : j = i
  · subst hj
    rwa [Function.update_self]
  · rw [Function.update_of_ne hj]
    exact hts j

/-- By the kinds of changes. -/
theorem loaded_apply (hts : ∀ i, (ts i).Loaded) (c : Change α) : ∀ i, (apply ts c i).Loaded := by
  cases c with
  | set i k v => exact loaded_update hts ((hts i).set k v) i
  | erase i k => exact loaded_update hts ((hts i).erase k) i
  | retain i p => exact loaded_update hts ((hts i).retain p) i
  | addAll i j => exact loaded_update hts ((hts j).addAll (ts i)) j
  | clone i j => exact loaded_update hts (hts i) j

/-- By induction on the changes. -/
theorem loaded_foldl (cs : List (Change α)) : ∀ {ts : Nat → Table α}, (∀ i, (ts i).Loaded) →
    ∀ i, (cs.foldl apply ts i).Loaded := by
  induction cs with
  | nil => exact fun hts => hts
  | cons c cs ih => exact fun hts => ih (loaded_apply hts c)

/-- **`probing_ends`** — whatever was done to some tables that were empty, the capacity of each is none
or a power of two that is at least eight, the slots in use are at most those counted, and these at most
three quarters of all, where the load is compared as doubles. So a table with slots has a vacant one, and
every search through its slots, or through those it is moved to, ends after at most as many looks as
there are slots. -/
theorem probing_ends (cs : List (Change α)) (i : Nat) :
    let t := cs.foldl apply (fun _ => Table.empty) i
    (t.capacity = 0 ∨ 8 ≤ t.capacity ∧ ∃ e, t.capacity = 2 ^ e) ∧
      t.slots.countP Slot.inUse ≤ t.used ∧ 4 * t.used ≤ 3 * t.capacity ∧
      (t.capacity < 2 ^ 53 → t.withRoom =
        if t.capacity.toUInt64.toFloat * 0.75 < (t.used + 1).toUInt64.toFloat
        then t.resized t.nextCapacity else t) ∧
      (0 < t.capacity → ∃ j < t.capacity, t.slots[j]? = some .vacant) ∧
      ∀ slots, t.Searched slots → SearchesEnd slots := by
  have ht := loaded_foldl cs (fun _ => loaded_empty (α := α)) i
  exact ⟨ht.capacity, ht.counted, ht.light, ht.withRoom_eq, ht.exists_vacant,
    fun slots => ht.searchesEnd⟩

/-- One reference is stored with two hashes, one of the two entries is erased, and what is left is added
to a copy of the table. -/
theorem probing_ends_twoHashes :
    let cs : List (Change Nat) := [.set 0 ⟨⟨1⟩, 0⟩ 5, .set 0 ⟨⟨1⟩, 3⟩ 6, .erase 0 ⟨⟨1⟩, 0⟩, .clone 0 1,
      .addAll 0 1]
    let t := cs.foldl apply (fun _ => Table.empty) 1
    (0 < t.capacity ∧ t.capacity < 2 ^ 53) ∧ t.slots.countP Slot.inUse = 2 ∧
      (∃ j < t.capacity, t.slots[j]? = some .vacant) ∧ SearchesEnd t.slots := by
  intro cs t
  obtain ⟨-, -, -, -, hvacant, hsearches⟩ := probing_ends cs 1
  have hcapacity : 0 < t.capacity ∧ t.capacity < 2 ^ 53 := by decide +kernel
  exact ⟨hcapacity, by decide +kernel, hvacant hcapacity.1, hsearches _ (.own hcapacity.1)⟩

end Change

end ScriptMachine.Table
