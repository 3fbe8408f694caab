import Mathlib
import ScriptMachine.Proofs.Mapping
import ScriptMachine.Proofs.Dict.Probing

/-!
# ScriptMachine.Proofs.Dict.Refinement — dictionaries behave like finite maps

A *valid* dictionary is arranged, counts its entries and has a slot that is not full; the number of its
slots is a power of two. `Represents` adds which map it stands for. Growing and shrinking are one
lemma: the entries are placed one after the other into vacant slots that are more than they are.

What commands answer is compared with maps as for tables. Beside it stands that every loop of an
insertion or a removal ends, whatever was done before.

`dicts_refine_maps` is the result: a command is one operation or question about numbered dictionaries,
`perform_represents` says that one command is answered as maps answer it and leaves dictionaries that
stand for the maps after it, and the induction is on the list of commands. `Represents.insert`,
`Represents.remove` and `Represents.updateValues` are the operations, and each rests on the lemma of
the same name about arranged slots.

Insertion grows by the number of entries, not by the number of slots in use, so erased slots can take
all the room that is left. That is why ending has to be claimed at all (`InsertEnds`, `RemoveEnds`),
and the reason is that a slot is always left that is not full. How long a loop takes is not claimed.

A dictionary whose keys agree with those of another one up to related values is `Within` it. For two of
the same size this is symmetric, which comparing dictionaries relies on.
-/

namespace ScriptMachine.Dict

open Table (probe)

variable {α : Type} {d : Dict α} {m : Mapping String α} {slots : Array (Slot α)}
  {rest : List (Slot α)} {key : String} {hash : UInt32} {v : α} {i n : Nat}

/-! ## Moving the entries to other slots -/

/-- The step of a resize: what is in a slot is placed. -/
def carry (slots : Array (Slot α)) (s : Slot α) : Array (Slot α) :=
  match s with
  | .full key hash v => place slots key hash v
  | _ => slots

/-- **`LoopsEnd rest slots`** — as the entries of some slots are placed one after the other, looking for
an open slot ends each time. -/
def LoopsEnd : List (Slot α) → Array (Slot α) → Prop
  | [], _ => True
  | s :: rest, slots =>
    (∀ key hash v, s = .full key hash v → Settles slots (hash.toNat % slots.size)
      (openSlotFrom slots (hash.toNat % slots.size) slots.size)) ∧ LoopsEnd rest (carry slots s)

/-- A dict is resized by carrying its slots into vacant ones, one after the other. -/
theorem resized_eq (d : Dict α) (capacity : Nat) : d.resized capacity =
    ⟨d.size, d.slots.toList.foldl carry (Array.replicate (max capacity minCapacity) .vacant)⟩ := by
  unfold resized
  rw [← Array.foldl_toList]
  rfl

/-- Slots to be carried over: their hashes are right, and no key is there twice or placed already. -/
structure Fresh (rest : List (Slot α)) (slots : Array (Slot α)) : Prop where
  hashed : ∀ key hash v, Slot.full key hash v ∈ rest → hash = hashKey key
  once : ((rest.filterMap Slot.item?).map Prod.fst).Nodup
  new : ∀ e ∈ rest.filterMap Slot.item?, ∀ v, ¬ Stored slots e.1 v

/-- **`Carries rest slots`** — carrying some slots over ends, and adds their entries and no other. -/
structure Carries (rest : List (Slot α)) (slots : Array (Slot α)) : Prop where
  ends : LoopsEnd rest slots
  arranged : Arranged (rest.foldl carry slots)
  size_eq : (rest.foldl carry slots).size = slots.size
  countP_eq : (rest.foldl carry slots).countP Slot.isFull =
    slots.countP Slot.isFull + rest.countP Slot.isFull
  stored : ∀ key v, Stored (rest.foldl carry slots) key v ↔
    Stored slots key v ∨ (key, v) ∈ rest.filterMap Slot.item?

/-- A slot without an entry brings nothing. -/
theorem carry_past {s : Slot α} (hitem : s.item? = none) (hskip : carry slots s = slots)
    (ih : Fresh rest slots → slots.countP Slot.isFull + rest.countP Slot.isFull < slots.size →
      Carries rest slots)
    (hfresh : Fresh (s :: rest) slots)
    (hroom : slots.countP Slot.isFull + (s :: rest).countP Slot.isFull < slots.size) :
    Carries (s :: rest) slots := by
  have hnot : s.isFull = false := by
    cases s with
    | full => cases hitem
    | _ => rfl
  have hitems : (s :: rest).filterMap Slot.item? = rest.filterMap Slot.item? :=
    List.filterMap_cons_none hitem
  have hcount : (s :: rest).countP Slot.isFull = rest.countP Slot.isFull :=
    List.countP_cons_of_neg (by simp [hnot])
  rw [hcount] at hroom
  obtain ⟨hends, harr, hsize, hcount', hstored⟩ := ih
    ⟨fun k h w hmem => hfresh.hashed k h w (List.mem_cons_of_mem _ hmem), hitems ▸ hfresh.once,
      hitems ▸ hfresh.new⟩ hroom
  refine ⟨⟨fun _ _ _ heq => ?_, hskip.symm ▸ hends⟩, ?_, ?_, ?_, fun key v => ?_⟩
  · rw [heq] at hitem
    cases hitem
  all_goals rw [List.foldl_cons, hskip]
  · exact harr
  · exact hsize
  · rw [hcount', hcount]
  · rw [hstored, hitems]

/-- **`Arranged.foldl_carry`** — placing entries one after the other where there is room for all. -/
theorem Arranged.foldl_carry (rest : List (Slot α)) : ∀ {slots : Array (Slot α)}, Arranged slots →
    Fresh rest slots → slots.countP Slot.isFull + rest.countP Slot.isFull < slots.size →
      Carries rest slots := by
  induction rest with
  | nil =>
    intro slots hs _ _
    exact ⟨trivial, hs, rfl, by simp, fun key v => by simp⟩
  | cons s rest ih =>
    intro slots hs hfresh hroom
    cases s with
    | full key hash v =>
      obtain rfl := hfresh.hashed key hash v List.mem_cons_self
      rw [List.countP_cons_of_pos (by rfl)] at hroom
      have honce := hfresh.once
      rw [List.filterMap_cons_some (by rfl), List.map_cons, List.nodup_cons] at honce
      -- the first entry is placed, and the keys of the others are still new
      obtain ⟨harr, hcount, hstored⟩ := hs.place (v := v) (by omega)
        (hfresh.new (key, v) (by rw [List.filterMap_cons_some (by rfl)]; exact List.mem_cons_self))
      have hfresh' : Fresh rest (Dict.place slots key (hashKey key) v) := by
        refine ⟨fun k h w hmem => hfresh.hashed k h w (List.mem_cons_of_mem _ hmem), honce.2,
          fun e he w hw => ?_⟩
        rcases (hstored e.1 w).mp hw with ⟨heq, -⟩ | hw
        · exact honce.1 (heq ▸ List.mem_map_of_mem he)
        · refine hfresh.new e ?_ w hw
          rw [List.filterMap_cons_some (by rfl)]
          exact List.mem_cons_of_mem _ he
      obtain ⟨hends, harr', hsize, hcount', hstored'⟩ :=
        ih harr hfresh' (by rw [hcount, size_place]; omega)
      refine ⟨⟨fun _ _ _ heq => ?_, hends⟩, harr', hsize.trans size_place, ?_, fun k w => ?_⟩
      · obtain ⟨-, rfl, -⟩ := Slot.full.inj heq
        exact settles (by omega) _
      · rw [List.foldl_cons, List.countP_cons_of_pos (by rfl)]
        refine hcount'.trans ?_
        rw [hcount]
        omega
      · rw [List.foldl_cons, List.filterMap_cons_some (by rfl), List.mem_cons]
        refine (hstored' k w).trans ?_
        rw [hstored, Prod.mk.injEq, or_comm (a := k = key ∧ w = v), or_assoc]
    | vacant => exact carry_past rfl rfl (fun h => ih hs h) hfresh hroom
    | erased => exact carry_past rfl rfl (fun h => ih hs h) hfresh hroom

/-! ## Valid dictionaries -/

/-- **`d.Valid`** — the slots are arranged, the entries are counted, a slot is not full, and the number
of slots is a power of two, eight at least. -/
structure Valid (d : Dict α) : Prop where
  arranged : Arranged d.slots
  counted : d.size = d.slots.countP Slot.isFull
  room : d.size < d.capacity
  power : ∃ n, 3 ≤ n ∧ d.capacity = 2 ^ n

/-- **`d.Represents m`** — the dictionary has the entries of the map, and nothing else. -/
structure Represents (d : Dict α) (m : Mapping String α) : Prop where
  valid : d.Valid
  stored : ∀ key v, Stored d.slots key v ↔ m key = some v

theorem Valid.eight_le (hd : d.Valid) : 8 ≤ d.capacity := by
  obtain ⟨n, hn, hcap⟩ := hd.power
  rw [hcap]
  exact (Nat.pow_le_pow_right (Nat.zero_lt_two) hn : 2 ^ 3 ≤ 2 ^ n)

/-- Entries further on in the slots have other keys. -/
theorem Valid.nodup_keys (hd : d.Valid) : (d.toList.map Prod.fst).Nodup := by
  unfold toList
  refine List.Pairwise.map (R := fun e e' => e.1 ≠ e'.1) _ (fun _ _ h => h) ?_
  refine List.Pairwise.filterMap (R := fun s s' => ∀ e ∈ s.item?, ∀ e' ∈ s'.item?, e.1 ≠ e'.1) _
    (fun s s' h e he e' he' => h e he e' he') ?_
  rw [List.pairwise_iff_getElem]
  intro i j hi hj hij e he e' he' hkey
  have hslot : ∀ {i : Nat} (hi : i < d.slots.toList.length) {e : String × α},
      d.slots.toList[i].item? = some e → ∃ hash, slotAt d.slots i = .full e.1 hash e.2 := by
    intro i hi e he
    rw [Array.length_toList] at hi
    rw [Array.getElem_toList, ← slotAt_of_lt hi] at he
    cases hs : slotAt d.slots i with
    | full key hash v =>
      rw [hs] at he
      obtain rfl := Option.some.inj he
      exact ⟨hash, rfl⟩
    | _ => rw [hs] at he; cases he
  obtain ⟨hash, h₁⟩ := hslot hi he
  obtain ⟨hash', h₂⟩ := hslot hj he'
  exact Nat.ne_of_lt hij (hd.arranged.distinct i j e.1 _ _ _ _ h₁ (hkey ▸ h₂))

theorem Arranged.fresh (hd : d.Valid) (n : Nat) :
    Fresh d.slots.toList (Array.replicate n (.vacant : Slot α)) := by
  refine ⟨fun key hash v hmem => ?_, hd.nodup_keys, fun e _ v hv => ?_⟩
  · obtain ⟨i, hi⟩ := Array.mem_iff_getElem?.mp (Array.mem_toList_iff.mp hmem)
    exact hd.arranged.hashed i key hash v (slotAt_eq_full.mpr hi)
  · obtain ⟨i, hash, hi⟩ := hv
    rw [slotAt_eq_full, Array.getElem?_replicate] at hi
    split at hi <;> cases hi

/-- **`Resizes d capacity`** — every loop ends as the entries are moved to so many slots. -/
def Resizes (d : Dict α) (capacity : Nat) : Prop :=
  LoopsEnd d.slots.toList (Array.replicate (max capacity minCapacity) .vacant)

/-- **`Represents.resized`** — a dictionary that is moved to enough slots has the same entries. -/
theorem Represents.resized (hd : d.Represents m) (capacity : Nat) (hfit : d.size < capacity)
    (hpower : ∃ n, 3 ≤ n ∧ capacity = 2 ^ n) :
    d.Resizes capacity ∧ (d.resized capacity).Represents m ∧
      (d.resized capacity).capacity = capacity := by
  have hmax : max capacity minCapacity = capacity := by
    obtain ⟨n, hn, rfl⟩ := hpower
    exact max_eq_left (Nat.pow_le_pow_right (by omega) hn : 2 ^ 3 ≤ 2 ^ n)
  have hnone : (Array.replicate capacity (.vacant : Slot α)).countP Slot.isFull = 0 := by
    simp [Array.countP_replicate, Slot.isFull]
  obtain ⟨hends, harr, hsize, hcount, hstored⟩ := Arranged.foldl_carry d.slots.toList
    (arranged_vacant capacity) (Arranged.fresh hd.valid capacity) (by
      rw [hnone, Array.countP_toList, ← hd.valid.counted, Array.size_replicate]
      omega)
  rw [Array.size_replicate] at hsize
  rw [hnone, Array.countP_toList, Nat.zero_add, ← hd.valid.counted] at hcount
  unfold Resizes
  rw [resized_eq, hmax]
  refine ⟨hends, ⟨⟨harr, hcount.symm, ?_, ?_⟩, fun key v => ?_⟩, hsize⟩
  · exact Nat.lt_of_lt_of_eq hfit hsize.symm
  · obtain ⟨n, hn, hcap⟩ := hpower
    exact ⟨n, hn, hsize.trans hcap⟩
  · refine (hstored key v).trans ?_
    rw [or_iff_right, ← hd.stored, ← mem_toList (e := (key, v))]
    · rfl
    · rintro ⟨i, hash, hi⟩
      rw [slotAt_eq_full, Array.getElem?_replicate] at hi
      split at hi <;> cases hi

/-- The empty dict has no entries. -/
theorem represents_empty : (empty : Dict α).Represents .empty := by
  refine ⟨⟨arranged_vacant _, ?_, ?_, 3, Nat.le_refl 3, ?_⟩, fun key v => ?_⟩
  · simp [empty, Array.countP_replicate, Slot.isFull]
  · show 0 < (Array.replicate minCapacity (.vacant : Slot α)).size
    rw [Array.size_replicate]
    decide
  · show (Array.replicate minCapacity (.vacant : Slot α)).size = _
    rw [Array.size_replicate]
    rfl
  · rw [← mem_toList (e := (key, v))]
    simp [empty, toList, minCapacity, List.replicate, Slot.item?, Mapping.empty]

/-! ## Looking up -/

/-- **`locate?_eq_some`** — a key is located at the slot that stores it. -/
theorem Valid.locate?_eq_some (hd : d.Valid) :
    d.locate? key = some i ↔ ∃ v, slotAt d.slots i = .full key (hashKey key) v := by
  have hhome : (hashKey key).toNat % d.capacity = probe d.slots.size (hashKey key) 0 := by
    simp [probe, capacity]
  unfold locate?
  dsimp only
  rw [hhome, capacity]
  constructor
  · exact full_of_locateFrom
  · rintro ⟨v, hi⟩
    obtain ⟨w, hw, rfl, hway⟩ := hd.arranged.reached _ _ _ _ hi
    cases hloc : locateFrom d.slots key (hashKey key) (probe d.slots.size (hashKey key) 0)
      d.slots.size with
    | none =>
      exact absurd hi (locateFrom_eq_none (Nat.zero_add _) hloc (Nat.zero_le w) hw hway)
    | some j =>
      obtain ⟨v', hj⟩ := full_of_locateFrom hloc
      rw [hd.arranged.distinct _ _ _ _ _ _ _ hj hi]

/-- The search for a key comes to nothing exactly when the map does not have it. -/
theorem Represents.locate?_eq_none (hd : d.Represents m) : d.locate? key = none ↔ m key = none := by
  rw [Option.eq_none_iff_forall_ne_some, Option.eq_none_iff_forall_ne_some]
  constructor
  · intro hnone v hv
    obtain ⟨i, hash, hi⟩ := (hd.stored key v).mpr hv
    obtain rfl := hd.valid.arranged.hashed i key hash v hi
    exact hnone i (hd.valid.locate?_eq_some.mpr ⟨v, hi⟩)
  · intro hnone i hi
    obtain ⟨v, hv⟩ := hd.valid.locate?_eq_some.mp hi
    exact hnone v ((hd.stored key v).mp ⟨i, _, hv⟩)

/-- **`Valid.get?_eq_some`** — a lookup finds exactly the entry of the key. -/
theorem Valid.get?_eq_some (hd : d.Valid) : d.get? key = some v ↔ (key, v) ∈ d.toList := by
  rw [mem_toList]
  constructor
  · intro hv
    unfold Dict.get? at hv
    split at hv
    · rename_i i hloc
      obtain ⟨w, hi⟩ := hd.locate?_eq_some.mp hloc
      change (slotAt d.slots i).item?.map _ = _ at hv
      rw [hi] at hv
      obtain rfl := Option.some.inj hv
      exact ⟨i, _, hi⟩
    · cases hv
  · rintro ⟨i, hash, hi⟩
    obtain rfl := hd.arranged.hashed i key hash v hi
    unfold Dict.get?
    rw [hd.locate?_eq_some.mpr ⟨v, hi⟩]
    show (slotAt d.slots i).item?.map _ = _
    rw [hi]
    rfl

theorem Represents.get? (hd : d.Represents m) (key : String) : d.get? key = m key :=
  Option.ext fun v => by rw [hd.valid.get?_eq_some, mem_toList, hd.stored]

/-- A valid dictionary stands for its own lookups. -/
theorem Valid.represents (hd : d.Valid) : d.Represents d.get? :=
  ⟨hd, fun key v => by rw [← mem_toList (e := (key, v)), hd.get?_eq_some]⟩

theorem Represents.contains (hd : d.Represents m) (key : String) :
    d.contains key = (m key).isSome := by
  unfold Dict.contains
  cases hloc : d.locate? key with
  | none => rw [hd.locate?_eq_none.mp hloc]; rfl
  | some i =>
    obtain ⟨v, hi⟩ := hd.valid.locate?_eq_some.mp hloc
    rw [(hd.stored key v).mp ⟨i, _, hi⟩]
    rfl

theorem Represents.lists (hd : d.Represents m) : m.Lists d.toList :=
  ⟨hd.valid.nodup_keys, fun key v => by rw [mem_toList, hd.stored]⟩

theorem Valid.lists_get? (hd : d.Valid) : Mapping.Lists d.get? (d.keys.zip d.values) := by
  have hzip : d.keys.zip d.values = d.toList := by simp [keys, values, List.zip_map']
  exact hzip ▸ hd.represents.lists

theorem Valid.length_toList (hd : d.Valid) : d.toList.length = d.size := by
  rw [hd.counted, ← Array.countP_toList, toList, List.length_filterMap_eq_countP]
  refine List.countP_congr fun s _ => ?_
  cases s <;> simp [Slot.item?, Slot.isFull]

/-- Whether a dict is empty is told by its count. -/
theorem Represents.isEmpty (hd : d.Represents m) : d.isEmpty = true ↔ ∀ key, m key = none := by
  unfold Dict.isEmpty
  rw [beq_iff_eq, ← hd.valid.length_toList, List.length_eq_zero_iff, List.eq_nil_iff_forall_not_mem]
  constructor
  · intro hnone key
    by_contra hsome
    obtain ⟨v, hv⟩ := Option.ne_none_iff_exists'.mp hsome
    exact hnone (key, v) ((hd.lists.mem key v).mpr hv)
  · intro hnone e he
    have hv := (hd.lists.mem e.1 e.2).mp he
    rw [hnone] at hv
    cases hv

/-! ## Inserting -/

/-- Sixty percent of the slots are not full: one more entry leaves a slot. -/
theorem room_of_load {size capacity : Nat} (hcap : 8 ≤ capacity)
    (hload : ¬ 60 ≤ size * 100 / capacity) : size + 1 < capacity := by
  have hlt : size * 100 < 60 * capacity := (Nat.div_lt_iff_lt_mul (by omega)).mp (by omega)
  omega

/-- **`Represents.withRoom`** — growing keeps the entries and makes room for one more. -/
theorem Represents.withRoom (hd : d.Represents m) :
    (60 ≤ d.size * 100 / d.capacity → d.Resizes (2 * d.capacity)) ∧ d.withRoom.Represents m ∧
      d.withRoom.size + 1 < d.withRoom.capacity := by
  have hroom := hd.valid.room
  obtain ⟨n, hn, hcap⟩ := hd.valid.power
  obtain ⟨hends, hgrown, hcapacity⟩ := hd.resized (2 * d.capacity) (by omega)
    ⟨n + 1, by omega, by rw [hcap, Nat.pow_succ, Nat.mul_comm]⟩
  refine ⟨fun _ => hends, ?_⟩
  unfold Dict.withRoom
  split
  · refine ⟨hgrown, ?_⟩
    rw [hcapacity, resized_eq]
    dsimp only
    have := hd.valid.eight_le
    omega
  · rename_i hload
    exact ⟨hd, room_of_load hd.valid.eight_le hload⟩

/-- **`InsertEnds d key`** — every loop of an insertion under the key ends. -/
def InsertEnds (d : Dict α) (key : String) : Prop :=
  (60 ≤ d.size * 100 / d.capacity → d.Resizes (2 * d.capacity)) ∧
    (d.withRoom.locate? key = none →
      Settles d.withRoom.slots ((hashKey key).toNat % d.withRoom.capacity)
        (openSlotFrom d.withRoom.slots ((hashKey key).toNat % d.withRoom.capacity)
          d.withRoom.capacity))

theorem Represents.insertEnds (hd : d.Represents m) (key : String) : d.InsertEnds key := by
  obtain ⟨hends, hroomy, hroom⟩ := hd.withRoom
  exact ⟨hends, fun _ => settles (hroomy.valid.counted ▸ Nat.lt_of_succ_lt hroom) _⟩

/-- **`Represents.insert`** — inserting does to the map what its name says. -/
theorem Represents.insert (hd : d.Represents m) (key : String) (v : α) :
    (d.insert key v).Represents (m.insert key v) := by
  obtain ⟨-, hroomy, hroom⟩ := hd.withRoom
  have hcount := hroomy.valid.counted
  unfold Dict.insert
  dsimp only
  split
  · rename_i i hloc
    obtain ⟨w, hi⟩ := hroomy.valid.locate?_eq_some.mp hloc
    obtain ⟨harr, hcount', hstored⟩ := hroomy.valid.arranged.overwrite hi v
    refine ⟨⟨harr, hcount.trans hcount'.symm, ?_, ?_⟩, fun k w => ?_⟩
    · simpa [capacity] using Nat.lt_of_succ_lt hroom
    · simpa [capacity] using hroomy.valid.power
    · rw [hstored, hroomy.stored, Mapping.insert_eq_some, eq_comm (a := w)]
  · rename_i hloc
    have hnone := hroomy.locate?_eq_none.mp hloc
    have hnew : ∀ w, ¬ Stored d.withRoom.slots key w := fun w hw => by
      rw [hroomy.stored, hnone] at hw
      cases hw
    obtain ⟨harr, hcount', hstored⟩ := hroomy.valid.arranged.place (v := v)
      (by rw [← hcount]; exact Nat.lt_of_succ_lt hroom) hnew
    refine ⟨⟨harr, by rw [hcount', hcount], ?_, ?_⟩, fun k w => ?_⟩
    · simpa [capacity, size_place] using hroom
    · simpa [capacity, size_place] using hroomy.valid.power
    · rw [hstored, hroomy.stored, Mapping.insert_eq_some, eq_comm (a := w)]
      refine or_congr_right (iff_and_self.mpr fun hw heq => ?_)
      rw [heq, hnone] at hw
      cases hw

/-- By induction on the entries, one insertion at a time. -/
theorem Represents.foldl_insert (entries : List (String × α)) :
    ∀ {d : Dict α} {m : Mapping String α}, d.Represents m →
      (entries.foldl (fun d e => d.insert e.1 e.2) d).Represents
        (entries.foldl (fun m e => m.insert e.1 e.2) m) := by
  induction entries with
  | nil => exact fun hd => hd
  | cons e entries ih => exact fun hd => ih (hd.insert e.1 e.2)

/-- **`represents_ofList`** — a dictionary that is built from entries with distinct keys has them. -/
theorem valid_ofList (entries : List (String × α)) : (ofList entries).Valid :=
  (Represents.foldl_insert entries represents_empty).valid

/-- A dict that is made from a list has the entries of the list. -/
theorem represents_ofList {entries : List (String × α)} (honce : (entries.map Prod.fst).Nodup) :
    (ofList entries).Represents (.ofList entries) := by
  have hfold := Represents.foldl_insert entries represents_empty
  have hmap : entries.foldl (fun m e => m.insert e.1 e.2) .empty = Mapping.ofList entries := by
    rw [(Mapping.lists_ofList honce).foldl_insert]
    funext key
    simp [Mapping.overlay, Mapping.empty]
  rwa [hmap] at hfold

theorem lists_ofList {entries : List (String × α)} (honce : (entries.map Prod.fst).Nodup) :
    Mapping.Lists (ofList entries).get? entries := by
  rw [funext (represents_ofList honce).get?]
  exact Mapping.lists_ofList honce

/-! ## Removing -/

/-- Thirty-five percent of the slots are full at most: the entries fit into half as many. -/
theorem fits_half {size n : Nat} (hn : 3 ≤ n) (hslack : size * 100 / 2 ^ (n + 1) ≤ 35) :
    size < 2 ^ n := by
  have height : 8 ≤ 2 ^ n := (Nat.pow_le_pow_right (by omega) hn : 2 ^ 3 ≤ 2 ^ n)
  have hlt : size * 100 < 36 * 2 ^ (n + 1) :=
    (Nat.div_lt_iff_lt_mul (Nat.two_pow_pos _)).mp (by omega)
  rw [Nat.pow_succ] at hlt
  omega

/-- When a dictionary shrinks after a removal. -/
def Slack (d : Dict α) : Prop :=
  d.capacity ≠ minCapacity ∧ d.size * 100 / d.capacity ≤ 35

/-- A dict that is at most thirty-five percent full is halved, and its entries stay. -/
theorem Represents.withoutSlack (hd : d.Represents m) :
    (d.Slack → d.Resizes (d.capacity / 2)) ∧ d.withoutSlack.Represents m := by
  have hshrunk : d.Slack → d.Resizes (d.capacity / 2) ∧ (d.resized (d.capacity / 2)).Represents m := by
    rintro ⟨hmin, hslack⟩
    obtain ⟨n, hn, hcap⟩ := hd.valid.power
    -- eight slots are the least, so that there are sixteen at least
    have hne : n ≠ 3 := by
      rintro rfl
      exact hmin hcap
    obtain ⟨n, rfl⟩ : ∃ k, n = k + 1 := ⟨n - 1, by omega⟩
    have hhalf : d.capacity / 2 = 2 ^ n := by
      rw [hcap, Nat.pow_succ, Nat.mul_div_cancel _ (by omega)]
    rw [hcap] at hslack
    obtain ⟨hends, hrep, -⟩ := hd.resized (d.capacity / 2)
      (hhalf ▸ fits_half (by omega) hslack) ⟨n, by omega, hhalf⟩
    exact ⟨hends, hrep⟩
  refine ⟨fun h => (hshrunk h).1, ?_⟩
  unfold Dict.withoutSlack
  split
  · rename_i h
    exact (hshrunk h).2
  · exact hd

/-- The dictionary with the entry of a slot erased, before it may shrink. -/
def erased (d : Dict α) (i : Nat) : Dict α :=
  ⟨d.size - 1, d.slots.setIfInBounds i .erased⟩

/-- **`RemoveEnds d key`** — every loop of a removal of the key ends. -/
def RemoveEnds (d : Dict α) (key : String) : Prop :=
  ∀ i, d.locate? key = some i → (d.erased i).Slack → (d.erased i).Resizes (d.capacity / 2)

/-- A tombstone takes the place of the entry, so the others are found as before. -/
theorem Represents.erased (hd : d.Represents m) (hloc : d.locate? key = some i) :
    (d.erased i).Represents (m.erase key) ∧ (d.erased i).capacity = d.capacity := by
  have hcapacity : (d.erased i).capacity = d.capacity := by simp [Dict.erased, capacity]
  obtain ⟨v, hi⟩ := hd.valid.locate?_eq_some.mp hloc
  obtain ⟨harr, hcount, hstored⟩ := hd.valid.arranged.erase hi
  refine ⟨⟨⟨harr, ?_, ?_, hcapacity ▸ hd.valid.power⟩, fun k w => ?_⟩, hcapacity⟩
  · rw [Dict.erased, hd.valid.counted]
    exact hcount.symm
  · rw [hcapacity]
    exact Nat.lt_of_le_of_lt (Nat.sub_le d.size 1) hd.valid.room
  · refine (hstored k w).trans ?_
    rw [hd.stored, Mapping.erase, Mapping.keep_eq_some, decide_eq_true_iff]

/-- **`Represents.remove`** — removing ends, answers the value the key had, and does to the map what its
name says. -/
theorem Represents.remove (hd : d.Represents m) (key : String) :
    d.RemoveEnds key ∧ (d.remove key).1 = m key ∧ (d.remove key).2.Represents (m.erase key) := by
  have hends : d.RemoveEnds key := by
    intro i hloc
    obtain ⟨hrep, hcapacity⟩ := hd.erased hloc
    exact hcapacity ▸ hrep.withoutSlack.1
  refine ⟨hends, ?_⟩
  unfold Dict.remove
  split
  · rename_i hloc
    have hnone := hd.locate?_eq_none.mp hloc
    have hsame : m.erase key = m := by
      refine Mapping.ext fun k v => ?_
      rw [Mapping.erase, Mapping.keep_eq_some]
      refine and_iff_right_of_imp fun hk => decide_eq_true fun heq => ?_
      rw [heq, hnone] at hk
      cases hk
    rw [hsame]
    exact ⟨hnone.symm, hd⟩
  · rename_i i hloc
    refine ⟨?_, (hd.erased hloc).1.withoutSlack.2⟩
    have hget := hd.get? key
    unfold Dict.get? at hget
    rwa [hloc] at hget

/-! ## Replacing values -/

/-- Only the values change, so the entries stay in their slots. -/
theorem slotAt_updateValues {f : String → α → α} : slotAt (d.updateValues f).slots i =
    match slotAt d.slots i with
    | .full key hash v => .full key hash (f key v)
    | s => s := by
  unfold updateValues slotAt
  rw [Array.getD_eq_getD_getElem?, Array.getD_eq_getD_getElem?, Array.getElem?_map]
  cases d.slots[i]? with
  | none => rfl
  | some s => cases s <;> rfl

theorem slotAt_updateValues_eq_full {f : String → α → α} :
    slotAt (d.updateValues f).slots i = .full key hash v ↔
      ∃ w, slotAt d.slots i = .full key hash w ∧ f key w = v := by
  rw [slotAt_updateValues]
  cases slotAt d.slots i with
  | full key' hash' w' =>
    simp only [Slot.full.injEq]
    constructor
    · rintro ⟨rfl, rfl, rfl⟩
      exact ⟨w', ⟨rfl, rfl, rfl⟩, rfl⟩
    · rintro ⟨w, ⟨rfl, rfl, rfl⟩, rfl⟩
      exact ⟨rfl, rfl, rfl⟩
  | _ => simp

theorem inUse_updateValues {f : String → α → α} :
    (slotAt (d.updateValues f).slots i).inUse = (slotAt d.slots i).inUse := by
  rw [slotAt_updateValues]
  cases slotAt d.slots i <;> rfl

/-- **`Represents.updateValues`** — replacing values keeps the keys where they are. -/
theorem Represents.updateValues (hd : d.Represents m) (f : String → α → α) :
    (d.updateValues f).Represents (m.mapValues f) := by
  have hcapacity : (d.updateValues f).slots.size = d.slots.size := by simp [Dict.updateValues]
  refine ⟨⟨⟨fun i key hash v h => ?_, fun i key hash v h => ?_,
    fun i j key h₁ v₁ h₂ v₂ hi hj => ?_⟩, ?_, ?_, ?_⟩, fun key v => ?_⟩
  · obtain ⟨w, hi, -⟩ := slotAt_updateValues_eq_full.mp h
    exact hd.valid.arranged.hashed i key hash w hi
  · obtain ⟨w, hi, -⟩ := slotAt_updateValues_eq_full.mp h
    obtain ⟨n, hn, heq, hway⟩ := hd.valid.arranged.reached i key hash w hi
    rw [hcapacity]
    exact ⟨n, hn, heq, fun e he => inUse_updateValues.trans (hway e he)⟩
  · obtain ⟨w, hi, -⟩ := slotAt_updateValues_eq_full.mp hi
    obtain ⟨w', hj, -⟩ := slotAt_updateValues_eq_full.mp hj
    exact hd.valid.arranged.distinct i j key _ _ _ _ hi hj
  · unfold Dict.updateValues
    rw [Array.countP_map, hd.valid.counted]
    refine congrArg (d.slots.countP ·) (funext fun s => ?_)
    cases s <;> rfl
  · rw [capacity, hcapacity]
    exact hd.valid.room
  · rw [capacity, hcapacity]
    exact hd.valid.power
  · unfold Stored Mapping.mapValues
    simp only [slotAt_updateValues_eq_full, Option.map_eq_some_iff, ← hd.stored]
    constructor
    · rintro ⟨i, hash, w, hi, hw⟩
      exact ⟨w, ⟨i, hash, hi⟩, hw⟩
    · rintro ⟨w, ⟨i, hash, hi⟩, hw⟩
      exact ⟨i, hash, w, hi, hw⟩

/-! ## One dictionary within another -/

section Within

variable {β : Type} {d' : Dict β} {R : α → β → Prop}

/-- **`d.Within d' R`** — every key of the one is in the other, with a related value. -/
def Within (d : Dict α) (d' : Dict β) (R : α → β → Prop) : Prop :=
  ∀ k v, (k, v) ∈ d.toList → ∃ w, d'.get? k = some w ∧ R v w

theorem mem_keys : key ∈ d.keys ↔ ∃ v, (key, v) ∈ d.toList := by
  simp [keys]

/-- The keys that are listed are those with a value. -/
theorem Valid.isSome_get? (hd : d.Valid) : (d.get? key).isSome ↔ key ∈ d.keys := by
  rw [mem_keys, Option.isSome_iff_exists]
  exact exists_congr fun v => hd.get?_eq_some

/-- Dictionaries with the same keys have one size. -/
theorem Valid.size_eq (hd : d.Valid) (hd' : d'.Valid)
    (hkeys : ∀ key, (d.get? key).isSome = (d'.get? key).isSome) : d.size = d'.size := by
  have hperm : d.keys.Perm d'.keys :=
    (List.perm_ext_iff_of_nodup hd.nodup_keys hd'.nodup_keys).mpr fun key =>
      (hd.isSome_get?.symm.trans (hkeys key ▸ Iff.rfl)).trans hd'.isSome_get?
  have hlength := hperm.length_eq
  rwa [keys, keys, List.length_map, List.length_map, hd.length_toList, hd'.length_toList] at hlength

/-- Distinct keys that are among as many others are all of them. -/
theorem Within.keys_perm (hd : d.Valid) (hd' : d'.Valid) (hsize : d.size = d'.size)
    (hw : d.Within d' R) : d.keys.Perm d'.keys := by
  have hsub : d.keys ⊆ d'.keys := fun k hk => by
    obtain ⟨v, hv⟩ := mem_keys.mp hk
    obtain ⟨w, hget, -⟩ := hw k v hv
    exact mem_keys.mpr ⟨w, hd'.get?_eq_some.mp hget⟩
  refine (hd.nodup_keys.subperm hsub).perm_of_length_le ?_
  unfold keys
  rw [List.length_map, List.length_map, hd.length_toList, hd'.length_toList, hsize]

/-- **`Within.symm`** — of two dictionaries of one size, each is within the other if one is. -/
theorem Within.symm (hd : d.Valid) (hd' : d'.Valid) (hsize : d.size = d'.size)
    (hw : d.Within d' R) : d'.Within d fun w v => R v w := by
  intro k w hmem
  obtain ⟨v, hv⟩ := mem_keys.mp ((hw.keys_perm hd hd' hsize).mem_iff.mpr (mem_keys.mpr ⟨w, hmem⟩))
  obtain ⟨w', hw', hR⟩ := hw k v hv
  obtain rfl := Option.some.inj (hw'.symm.trans (hd'.get?_eq_some.mpr hmem))
  exact ⟨v, hd.get?_eq_some.mpr hv, hR⟩

theorem Within.mono {R' : α → β → Prop} (hw : d.Within d' R) (hR : ∀ v w, R v w → R' v w) :
    d.Within d' R' := fun k v hv =>
  (hw k v hv).imp fun _ h => ⟨h.1, hR _ _ h.2⟩

end Within

/-! ## Loops that end -/

/-- **`d.Sturdy`** — the number of slots is a power of two, eight at least; some slot is not full; and
every loop of an insertion or a removal ends. -/
structure Sturdy (d : Dict α) : Prop where
  power : ∃ n, d.capacity = 2 ^ n
  eight_le : 8 ≤ d.capacity
  notFull : ∃ s ∈ d.slots, s.isFull = false
  insertEnds : ∀ key, d.InsertEnds key
  removeEnds : ∀ key, d.RemoveEnds key

/-- A dict that represents a map has room for the next search and for the next entry. -/
theorem Represents.sturdy (hd : d.Represents m) : d.Sturdy where
  power := hd.valid.power.imp fun _ h => h.2
  eight_le := hd.valid.eight_le
  notFull := by
    obtain ⟨w, -, hopen⟩ := exists_open (hd.valid.counted ▸ hd.valid.room) 0
    have hlt : probe d.slots.size 0 w < d.slots.size :=
      Table.probe_lt (Nat.lt_of_lt_of_le (by decide) hd.valid.eight_le)
    rw [slotAt_of_lt hlt] at hopen
    exact ⟨_, Array.getElem_mem hlt, hopen⟩
  insertEnds key := hd.insertEnds key
  removeEnds key := (hd.remove key).1

/-! ## Commands -/

/-- What can be done to some numbered dictionaries, and asked about them. -/
inductive Command (α : Type) where
  | insert (dict : Nat) (key : String) (value : α)
  | get (dict : Nat) (key : String)
  | contains (dict : Nat) (key : String)
  | remove (dict : Nat) (key : String)
  | clone (source target : Nat)
  | updateValues (dict : Nat) (f : String → α → α)
  | size (dict : Nat)
  | isEmpty (dict : Nat)
  | enumerate (dict : Nat)

/-- An answer; an enumeration answers the entries, the keys, the values and the keys by their number. -/
inductive Answer (α : Type) where
  | done
  | truth (b : Bool)
  | value (v : Option α)
  | count (n : Nat)
  | enumeration (entries : List (String × α)) (keys : List String) (values : List α)
      (keyAt : Nat → Option String) (n : Nat)

namespace Command

/-- **`c.perform ds`** — what a command answers, and the dictionaries after it. -/
def perform (c : Command α) (ds : Nat → Dict α) : Answer α × (Nat → Dict α) :=
  match c with
  | .insert i key v => (.done, Function.update ds i ((ds i).insert key v))
  | .get i key => (.value ((ds i).get? key), ds)
  | .contains i key => (.truth ((ds i).contains key), ds)
  | .remove i key =>
    let (removed, d) := (ds i).remove key
    (.value removed, Function.update ds i d)
  | .clone i j => (.done, Function.update ds j (ds i))
  | .updateValues i f => (.done, Function.update ds i ((ds i).updateValues f))
  | .size i => (.count (ds i).size, ds)
  | .isEmpty i => (.truth (ds i).isEmpty, ds)
  | .enumerate i =>
    let d := ds i
    (.enumeration d.toList d.keys d.values d.keyAt? d.size, ds)

/-- What the same command does to maps. -/
def effect (c : Command α) (ms : Nat → Mapping String α) : Nat → Mapping String α :=
  match c with
  | .insert i key v => Function.update ms i ((ms i).insert key v)
  | .remove i key => Function.update ms i ((ms i).erase key)
  | .clone i j => Function.update ms j (ms i)
  | .updateValues i f => Function.update ms i ((ms i).mapValues f)
  | _ => ms

/-- **`c.Admits ms a`** — `a` is a right answer to the command when it is about these maps. -/
def Admits (c : Command α) (ms : Nat → Mapping String α) (a : Answer α) : Prop :=
  match c, a with
  | .insert .., .done => True
  | .get i key, .value v => v = ms i key
  | .contains i key, .truth b => b = (ms i key).isSome
  | .remove i key, .value v => v = ms i key
  | .clone .., .done => True
  | .updateValues .., .done => True
  | .size i, .count n => (ms i).HasSize n
  | .isEmpty i, .truth b => b = true ↔ ∀ key, ms i key = none
  | .enumerate i, .enumeration entries keys values keyAt n =>
    (ms i).Lists entries ∧ keys = entries.map Prod.fst ∧ values = entries.map Prod.snd ∧
      entries.length = n ∧ (∀ j, keyAt j = keys[j]?) ∧ keyAt n = none
  | _, _ => False

variable {ds : Nat → Dict α} {ms : Nat → Mapping String α}

/-- One command is answered rightly, and the dictionaries stand for the maps after it. -/
theorem perform_represents (c : Command α) (hds : ∀ i, (ds i).Represents (ms i)) :
    c.Admits ms (c.perform ds).1 ∧ ∀ i, ((c.perform ds).2 i).Represents (c.effect ms i) := by
  cases c with
  | insert i key v => exact ⟨trivial, stands_update Represents hds ((hds i).insert key v)⟩
  | get i key => exact ⟨(hds i).get? key, hds⟩
  | contains i key => exact ⟨(hds i).contains key, hds⟩
  | remove i key =>
    obtain ⟨-, hremoved, hd⟩ := (hds i).remove key
    exact ⟨hremoved, stands_update Represents hds hd⟩
  | clone i j => exact ⟨trivial, stands_update Represents hds (hds i)⟩
  | updateValues i f => exact ⟨trivial, stands_update Represents hds ((hds i).updateValues f)⟩
  | size i =>
    refine ⟨?_, hds⟩
    show (ms i).HasSize (ds i).size
    rw [← (hds i).valid.length_toList]
    exact (hds i).lists.hasSize
  | isEmpty i => exact ⟨(hds i).isEmpty, hds⟩
  | enumerate i =>
    have hlength := (hds i).valid.length_toList
    refine ⟨⟨(hds i).lists, rfl, rfl, hlength, fun _ => rfl, ?_⟩, hds⟩
    show (ds i).keys[(ds i).size]? = none
    rw [List.getElem?_eq_none_iff, keys, List.length_map, hlength]

/-- **`dicts_refine_maps`** — dictionaries that start without entries answer every command as maps do
that start without entries; and whatever was done to them, they are sturdy. -/
theorem dicts_refine_maps (cs : List (Command α)) :
    Agree perform effect Admits cs (fun _ => Dict.empty) (fun _ => Mapping.empty) ∧
      ∀ i, (performAll perform cs (fun _ => Dict.empty) i).Sturdy := by
  let stands (ds : Nat → Dict α) (ms : Nat → Mapping String α) := ∀ i, (ds i).Represents (ms i)
  have hstep : ∀ (c : Command α) ds ms, stands ds ms →
      c.Admits ms (c.perform ds).1 ∧ stands (c.perform ds).2 (c.effect ms) :=
    fun c _ _ => c.perform_represents
  have hempty : ∀ _ : Nat, (Dict.empty : Dict α).Represents Mapping.empty :=
    fun _ => represents_empty
  refine ⟨agree_of_step stands hstep cs hempty, fun i => ?_⟩
  obtain ⟨ms, hds⟩ := performAll_of_step stands (fun c ds ms h => (hstep c ds ms h).2) cs hempty
  exact (hds i).sturdy

end Command

end ScriptMachine.Dict
