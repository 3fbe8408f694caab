import Mathlib
import ScriptMachine.Proofs.Mapping
import ScriptMachine.Proofs.Table.Probing

/-!
# ScriptMachine.Proofs.Table.Refinement — tables behave like finite maps

`Represents hash m` says which map a table stands for when `hash` gives the hash of every reference.
Each operation on the table does to the map what its name says, and each question about the table has
the answer that the map gives. Commands put both together: whatever is done to some tables, what they
answer is what maps answer to which the same is done.

`tables_refine_maps` is the result. `perform_represents` is its step, with one case for each command, and
the induction is on the list of commands; a command may read one table and change another, so what is
kept is about all of them. Iterating is a question like any other: a walk from the first slot on meets
the entries in the order of the slots, each once (`walk_zero`), and of that order nothing else is
claimed.
-/

namespace ScriptMachine.Table

variable {α : Type} {t u : Table α} {m m' : Mapping Ref α} {hash : Ref → UInt32} {k : Key} {v : α}
  {ref : Ref} {e : Key × α}

/-- The key of a reference. -/
def keyOf (hash : Ref → UInt32) (ref : Ref) : Key :=
  ⟨ref, hash ref⟩

/-- **`t.Represents hash m`** — the table has the entries of the map, and nothing else. -/
structure Represents (t : Table α) (hash : Ref → UInt32) (m : Mapping Ref α) : Prop where
  valid : t.Valid
  mem : ∀ k v, (k, v) ∈ t.toList ↔ k = keyOf hash k.ref ∧ m k.ref = some v

namespace Represents

variable (ht : t.Represents hash m)
include ht

theorem mem_keyOf : (keyOf hash ref, v) ∈ t.toList ↔ m ref = some v := by
  rw [ht.mem]
  exact and_iff_right rfl

theorem agrees (ref : Ref) : t.Agrees (keyOf hash ref) := by
  intro e he href
  rw [((ht.mem e.1 e.2).mp he).1, href]
  rfl

/-- The entries of the table, by reference, are those of the map. -/
theorem lists : m.Lists (t.toList.map fun e => (e.1.ref, e.2)) where
  once := by
    rw [List.map_map]
    exact ht.valid.nodup_refs
  mem r v := by
    rw [← ht.mem_keyOf]
    constructor
    · intro hmem
      obtain ⟨e, he, heq⟩ := List.mem_map.mp hmem
      have hk := ((ht.mem e.1 e.2).mp he).1
      obtain ⟨rfl, rfl⟩ := Prod.mk.inj heq
      rwa [← hk]
    · intro hmem
      exact List.mem_map.mpr ⟨_, hmem, rfl⟩

/-! ## Questions -/

theorem get? (ref : Ref) : t.get? (keyOf hash ref) = m ref :=
  Option.ext fun v => by rw [ht.valid.get?_eq_some (ht.agrees ref), ht.mem_keyOf]

theorem contains (ref : Ref) : t.contains (keyOf hash ref) = (m ref).isSome := by
  rw [Table.contains, ht.get?]

omit ht in
/-- The size is counted slot by slot. -/
theorem size_eq (t : Table α) : t.size = t.toList.length := by
  have hfold : ∀ (slots : List (Slot α)) (n : Nat),
      slots.foldl (fun n s => if s.item?.isSome then n + 1 else n) n =
        n + (slots.filterMap Slot.item?).length := by
    intro slots
    induction slots with
    | nil => intro n; rfl
    | cons s slots ih =>
      intro n
      rw [List.foldl_cons, ih]
      cases hs : s.item? with
      | none => rw [List.filterMap_cons_none hs]; rfl
      | some e =>
        rw [List.filterMap_cons_some hs, List.length_cons, Option.isSome_some, if_pos rfl]
        omega
  unfold size toList
  rw [← Array.foldl_toList, hfold, Nat.zero_add]

omit ht in
theorem isEmpty_iff (t : Table α) : t.isEmpty = true ↔ t.toList = [] := by
  unfold isEmpty toList
  rw [Array.all_eq_true_iff_forall_mem, List.filterMap_eq_nil_iff]
  simp only [Option.isNone_iff_eq_none, Array.mem_toList_iff]

theorem hasSize : m.HasSize t.size := by
  rw [size_eq, ← List.length_map (fun e : Key × α => (e.1.ref, e.2))]
  exact ht.lists.hasSize

/-- A table is empty when the map that it represents is. -/
theorem isEmpty : t.isEmpty = true ↔ ∀ ref, m ref = none := by
  rw [isEmpty_iff, List.eq_nil_iff_forall_not_mem]
  constructor
  · intro hnone ref
    by_contra hsome
    obtain ⟨v, hv⟩ := Option.ne_none_iff_exists'.mp hsome
    exact hnone _ (ht.mem_keyOf.mpr hv)
  · intro hnone e he
    have hv := ((ht.mem e.1 e.2).mp he).2
    rw [hnone] at hv
    cases hv

/-- **`findKey?`** — a key is found if and only if one is stored that has the hash and passes the test. -/
theorem findKey? (h : UInt32) (p : Ref → Bool) :
    match t.findKey? h p with
    | some r => (m r).isSome = true ∧ hash r = h ∧ p r = true
    | none => ∀ r, (m r).isSome = true → hash r = h → p r = false := by
  split
  · rename_i r hfind
    obtain ⟨hp, v, hmem⟩ := findKey?_eq_some hfind
    obtain ⟨hk, hv⟩ := (ht.mem _ _).mp hmem
    exact ⟨Option.isSome_of_eq_some hv, (congrArg Key.hash hk).symm, hp⟩
  · rename_i hfind
    intro r hr hh
    obtain ⟨v, hv⟩ := Option.isSome_iff_exists.mp hr
    exact ht.valid.findKey?_eq_none hfind (ht.mem_keyOf.mpr hv) hh

/-! ## Changes -/

/-- Setting an entry is inserting it into the map. -/
theorem set (ref : Ref) (v : α) :
    (t.set (keyOf hash ref) v).Represents hash (m.insert ref v) := by
  obtain ⟨hvalid, hmem⟩ := ht.valid.set (v := v) (ht.agrees ref)
  refine ⟨hvalid, fun k w => ?_⟩
  rw [hmem, ht.mem, Mapping.insert_eq_some]
  constructor
  · rintro (heq | ⟨⟨hk, hw⟩, hne⟩)
    · obtain ⟨rfl, rfl⟩ := Prod.mk.inj heq
      exact ⟨rfl, .inl ⟨rfl, rfl⟩⟩
    · exact ⟨hk, .inr ⟨fun href => hne (hk.trans (congrArg (keyOf hash) href)), hw⟩⟩
  · rintro ⟨hk, ⟨href, rfl⟩ | ⟨hne, hw⟩⟩
    · exact .inl (by rw [hk, href])
    · exact .inr ⟨⟨hk, hw⟩, fun heq => hne (congrArg Key.ref heq)⟩

theorem retain (p : Key → Bool) :
    (t.retain p).Represents hash (m.keep fun ref => p (keyOf hash ref)) := by
  refine ⟨ht.valid.retain t p, fun k w => ?_⟩
  rw [mem_toList_retain, ht.mem, Mapping.keep_eq_some]
  constructor
  · rintro ⟨⟨hk, hw⟩, hp⟩
    exact ⟨hk, hk ▸ hp, hw⟩
  · rintro ⟨hk, hp, hw⟩
    exact ⟨⟨hk, hw⟩, hk ▸ hp⟩

end Represents

/-- The table without entries stands for the map without entries. -/
theorem represents_empty (hash : Ref → UInt32) : (empty : Table α).Represents hash .empty :=
  ⟨valid_empty, fun k v => by simp [Mapping.empty]⟩

/-! ## What is found on the way -/

theorem Valid.toList_of_unused (ht : t.Valid) (hused : t.used = 0) : t.toList = [] := by
  have hlength := length_toList_le ht
  rw [hused] at hlength
  exact List.eq_nil_of_length_eq_zero (Nat.le_zero.mp hlength)

/-- Where probing for a key ends there is its entry, or none. -/
theorem item?_findSlot (k : Key) (hused : t.used ≠ 0) :
    (slotAt t.slots (findSlot t.slots k)).item?.map Prod.snd = t.get? k := by
  unfold Table.get?
  rw [if_neg hused]
  rfl

/-- **`isNew`** — storing tells whether the key was new. -/
theorem Represents.isNew (ht : t.Represents hash m) (ref : Ref) (v : α) :
    (t.set' (keyOf hash ref) v).1 = (m ref).isNone := by
  obtain ⟨hvalid, -, hmem⟩ := ht.valid.withRoom
  have hroom : t.withRoom.Represents hash m :=
    ⟨hvalid, fun k v => by rw [hmem, ht.mem]⟩
  show t.withRoom.isNew (keyOf hash ref) = _
  rw [← hroom.get?]
  unfold Table.isNew
  change (slotAt _ _).item?.isNone = _
  by_cases hused : t.withRoom.used = 0
  · have hnil := hvalid.toList_of_unused hused
    have hnone : ∀ i, (slotAt t.withRoom.slots i).item? = none := by
      intro i
      cases hslot : slotAt t.withRoom.slots i with
      | taken k v =>
        have hmem := mem_of_slotAt hslot
        rw [hnil] at hmem
        cases hmem
      | _ => rfl
    rw [hnone, Table.get?, if_pos hused]
    rfl
  · rw [← item?_findSlot _ hused, Option.isNone_map]

/-! ## Erasing one entry -/

/-- Erasing a key is keeping all other keys. -/
theorem Valid.slots_erase (ht : t.Valid) (hk : t.Agrees k) {i : Nat}
    (hslot : slotAt t.slots i = .taken k v) :
    t.slots.setIfInBounds i .erased = (t.retain (· ≠ k)).slots := by
  have hi : i < t.slots.size := by
    by_contra hge
    rw [slotAt, Array.getD_eq_getD_getElem?, Array.getElem?_eq_none (Nat.le_of_not_lt hge)] at hslot
    cases hslot
  refine Array.ext (by simp [Table.retain]) fun j hj _ => ?_
  rw [Array.size_setIfInBounds] at hj
  simp only [Table.retain, Array.getElem_map, Array.getElem_setIfInBounds hj]
  have hget : slotAt t.slots j = t.slots[j] := by
    simp [slotAt, Array.getD_eq_getD_getElem?, hj]
  by_cases hij : i = j
  · subst hij
    rw [if_pos rfl, ← hget, hslot]
    simp
  · rw [if_neg hij]
    cases hs : t.slots[j] with
    | taken k' v' =>
      have hne : k' ≠ k := by
        rintro rfl
        exact hij (ht.distinct _ _ _ _ _ _ hslot (hget.trans hs) rfl)
      simp [hne]
    | _ => rfl

/-- **`erase`** — erasing a key erases its entry and tells whether there was one. -/
theorem Represents.erase (ht : t.Represents hash m) (ref : Ref) :
    (t.erase (keyOf hash ref)).1 = (m ref).isSome ∧
      (t.erase (keyOf hash ref)).2.Represents hash (m.erase ref) := by
  have hretain : (t.retain (· ≠ keyOf hash ref)).Represents hash (m.erase ref) := by
    have hkeep : m.erase ref = m.keep fun r => decide (keyOf hash r ≠ keyOf hash ref) := by
      refine congrArg m.keep (funext fun r => decide_eq_decide.mpr (not_congr ⟨?_, ?_⟩))
      · exact fun h => congrArg (keyOf hash) h
      · exact fun h => congrArg Key.ref h
    rw [hkeep]
    exact ht.retain _
  -- nothing is stored under the key
  have hnone : m ref = none → t.Represents hash (m.erase ref) := by
    intro hm
    have hsame : m.erase ref = m := by
      refine Mapping.ext fun r v => ?_
      rw [Mapping.erase, Mapping.keep_eq_some]
      refine and_iff_right_of_imp fun hr => decide_eq_true fun heq => ?_
      rw [heq, hm] at hr
      cases hr
    rwa [hsame]
  unfold Table.erase
  by_cases hused : t.used = 0
  · have hm : m ref = none := by rw [← ht.get?, Table.get?, if_pos hused]
    rw [if_pos hused, hm]
    exact ⟨rfl, hnone hm⟩
  · rw [if_neg hused]
    have hitem := item?_findSlot (keyOf hash ref) hused
    have hlands := ht.valid.lands (t := t) (by
      have : t.slots.countP Slot.inUse ≤ t.slots.size := Array.countP_le_size
      have := ht.valid.counted
      unfold capacity
      omega) (keyOf hash ref)
    rw [ht.get?] at hitem
    dsimp only
    rw [← slotAt]
    generalize findSlot t.slots (keyOf hash ref) = i at hitem hlands
    cases hlands with
    | found hclear hslot href =>
      have hk := ht.agrees ref _ (mem_of_slotAt hslot) href
      dsimp only at hk
      subst hk
      rw [hslot] at hitem
      rw [hslot, ← hitem]
      refine ⟨rfl, ?_⟩
      rw [ht.valid.slots_erase (ht.agrees ref) hslot]
      exact hretain
    | opened hd hclear hvacant he hslot =>
      rw [hslot] at hitem
      cases hs : slotAt t.slots _ with
      | taken k v =>
        rw [hs] at hslot
        cases hslot
      | _ => exact ⟨by rw [← hitem]; rfl, hnone hitem.symm⟩

/-! ## Storing the entries of another table -/

theorem addAll_eq (t source : Table α) :
    t.addAll source = source.toList.foldl (fun u e => u.set e.1 e.2) t := by
  unfold addAll toList
  rw [← Array.foldl_toList, List.foldl_filterMap]
  congr
  funext u s
  cases s <;> rfl

/-- The entries of the source win over those that are there. -/
theorem Represents.addAll (ht : t.Represents hash m) (hu : u.Represents hash m') :
    (t.addAll u).Represents hash (m.overlay m') := by
  have hfold : ∀ es : List (Key × α), (∀ e ∈ es, e.1 = keyOf hash e.1.ref) →
      ∀ {t : Table α} {m : Mapping Ref α}, t.Represents hash m →
        (es.foldl (fun u e => u.set e.1 e.2) t).Represents hash
          ((es.map fun e => (e.1.ref, e.2)).foldl (fun m e => m.insert e.1 e.2) m) := by
    intro es
    induction es with
    | nil => exact fun _ _ _ ht => ht
    | cons e es ih =>
      intro hkeys t m ht
      refine ih (fun e he => hkeys e (List.mem_cons_of_mem _ he)) ?_
      have hset := ht.set e.1.ref e.2
      rwa [← hkeys e List.mem_cons_self] at hset
  rw [addAll_eq, ← hu.lists.foldl_insert]
  exact hfold _ (fun e he => ((hu.mem e.1 e.2).mp he).1) ht

/-! ## Walking through a table -/

/-- The cursor moves on, and stays within the table. -/
theorem next?_lt {cursor cursor' : Nat} (h : t.next? cursor = some (cursor', k, v)) :
    cursor < cursor' ∧ cursor' ≤ t.capacity := by
  unfold next? at h
  obtain ⟨i, hi, hitem⟩ := List.exists_of_findSome?_eq_some h
  obtain ⟨e, -, heq⟩ := Option.map_eq_some_iff.mp hitem
  have hc : i + 1 = cursor' := congrArg (fun x : Nat × Key × α => x.1) heq
  have hrange := List.mem_range'_1.mp hi
  omega

/-- What the cursor stops at is an entry. -/
theorem mem_of_next? {cursor cursor' : Nat} (h : t.next? cursor = some (cursor', k, v)) :
    (k, v) ∈ t.toList := by
  unfold next? at h
  obtain ⟨i, -, hitem⟩ := List.exists_of_findSome?_eq_some h
  change Option.map _ (slotAt t.slots i).item? = _ at hitem
  cases hslot : slotAt t.slots i with
  | taken k' v' =>
    rw [hslot] at hitem
    obtain ⟨-, rfl, rfl⟩ : _ ∧ k' = k ∧ v' = v := by simpa [Slot.item?] using hitem
    exact mem_of_slotAt hslot
  | _ => rw [hslot] at hitem; cases hitem

/-- The entries from a cursor on, each found from where the one before left off. -/
def walk (t : Table α) (cursor : Nat) : List (Key × α) :=
  match _h : t.next? cursor with
  | none => []
  | some (cursor', k, v) => (k, v) :: t.walk cursor'
termination_by t.capacity - cursor
decreasing_by
  have := next?_lt _h
  omega

theorem next?_of_le {cursor : Nat} (h : t.capacity ≤ cursor) : t.next? cursor = none := by
  unfold next?
  rw [Nat.sub_eq_zero_of_le h]
  rfl

theorem next?_of_lt {cursor : Nat} (h : cursor < t.capacity) : t.next? cursor =
    match (slotAt t.slots cursor).item? with
    | some (k, v) => some (cursor + 1, k, v)
    | none => t.next? (cursor + 1) := by
  unfold next?
  rw [show t.capacity - cursor = t.capacity - (cursor + 1) + 1 by omega, List.range'_succ,
    List.findSome?_cons]
  unfold slotAt
  cases (t.slots.getD cursor .vacant).item? <;> rfl

theorem walk_eq (t : Table α) (cursor : Nat) : t.walk cursor =
    match t.next? cursor with
    | none => []
    | some (cursor', k, v) => (k, v) :: t.walk cursor' := by
  rw [walk]
  split <;> rename_i h <;> rw [h]

/-- A walk lists the entries from the cursor on, slot by slot. -/
theorem walk_eq_drop (t : Table α) (cursor : Nat) :
    t.walk cursor = (t.slots.toList.drop cursor).filterMap Slot.item? := by
  induction hn : t.capacity - cursor generalizing cursor with
  | zero =>
    have hle : t.capacity ≤ cursor := by omega
    rw [walk_eq, next?_of_le hle, List.drop_of_length_le (by simpa [capacity] using hle)]
    rfl
  | succ n ih =>
    have hlt : cursor < t.slots.toList.length := by
      rw [Array.length_toList]
      show cursor < t.capacity
      omega
    have hslot : slotAt t.slots cursor = t.slots.toList[cursor] := by
      rw [Array.length_toList] at hlt
      simp [slotAt, Array.getD_eq_getD_getElem?, hlt]
    rw [walk_eq, next?_of_lt (by omega), List.drop_eq_getElem_cons hlt, ← hslot]
    cases hitem : (slotAt t.slots cursor).item? with
    | none => rw [List.filterMap_cons_none hitem, ← ih (cursor + 1) (by omega), walk_eq]
    | some e => rw [List.filterMap_cons_some hitem, ← ih (cursor + 1) (by omega)]

/-- **`walk_zero`** — a walk from the first slot on meets every entry, in the order of the slots. -/
theorem walk_zero (t : Table α) : t.walk 0 = t.toList := by
  rw [walk_eq_drop, List.drop_zero]
  rfl

/-! ## Commands -/

/-- What can be done to some numbered tables, and asked about them. -/
inductive Command (α : Type) where
  | set (table : Nat) (ref : Ref) (value : α)
  | get (table : Nat) (ref : Ref)
  | contains (table : Nat) (ref : Ref)
  | erase (table : Nat) (ref : Ref)
  | find (table : Nat) (hash : UInt32) (p : Ref → Bool)
  | retain (table : Nat) (p : Key → Bool)
  | addAll (source target : Nat)
  | clone (source target : Nat)
  | next (table cursor : Nat)
  | iterate (table : Nat)
  | size (table : Nat)
  | isEmpty (table : Nat)

/-- An answer; an iteration answers what a walk and what the list of entries show. -/
inductive Answer (α : Type) where
  | done
  | truth (b : Bool)
  | value (v : Option α)
  | found (ref : Option Ref)
  | next (entry : Option (Nat × Key × α))
  | entries (walked listed : List (Key × α))
  | count (n : Nat)

namespace Command

/-- **`c.perform hash ts`** — what a command answers, and the tables after it. -/
def perform (hash : Ref → UInt32) (c : Command α) (ts : Nat → Table α) :
    Answer α × (Nat → Table α) :=
  match c with
  | .set i ref v =>
    let (isNew, t) := (ts i).set' (keyOf hash ref) v
    (.truth isNew, Function.update ts i t)
  | .get i ref => (.value ((ts i).get? (keyOf hash ref)), ts)
  | .contains i ref => (.truth ((ts i).contains (keyOf hash ref)), ts)
  | .erase i ref =>
    let (erased, t) := (ts i).erase (keyOf hash ref)
    (.truth erased, Function.update ts i t)
  | .find i h p => (.found ((ts i).findKey? h p), ts)
  | .retain i p => (.done, Function.update ts i ((ts i).retain p))
  | .addAll i j => (.done, Function.update ts j ((ts j).addAll (ts i)))
  | .clone i j => (.done, Function.update ts j (ts i))
  | .next i cursor => (.next ((ts i).next? cursor), ts)
  | .iterate i => (.entries ((ts i).walk 0) (ts i).toList, ts)
  | .size i => (.count (ts i).size, ts)
  | .isEmpty i => (.truth (ts i).isEmpty, ts)

/-- What the same command does to maps. -/
def effect (hash : Ref → UInt32) (c : Command α) (ms : Nat → Mapping Ref α) :
    Nat → Mapping Ref α :=
  match c with
  | .set i ref v => Function.update ms i ((ms i).insert ref v)
  | .erase i ref => Function.update ms i ((ms i).erase ref)
  | .retain i p => Function.update ms i ((ms i).keep fun ref => p (keyOf hash ref))
  | .addAll i j => Function.update ms j ((ms j).overlay (ms i))
  | .clone i j => Function.update ms j (ms i)
  | _ => ms

/-- **`c.Admits hash ms a`** — `a` is a right answer to the command when it is about these maps. -/
def Admits (hash : Ref → UInt32) (c : Command α) (ms : Nat → Mapping Ref α) (a : Answer α) : Prop :=
  match c, a with
  | .set i ref _, .truth isNew => isNew = (ms i ref).isNone
  | .get i ref, .value v => v = ms i ref
  | .contains i ref, .truth b => b = (ms i ref).isSome
  | .erase i ref, .truth b => b = (ms i ref).isSome
  | .find i h p, .found (some ref) => (ms i ref).isSome = true ∧ hash ref = h ∧ p ref = true
  | .find i h p, .found none => ∀ ref, (ms i ref).isSome = true → hash ref = h → p ref = false
  | .retain .., .done => True
  | .addAll .., .done => True
  | .clone .., .done => True
  | .next i cursor, .next entry => ∀ cursor' k v, entry = some (cursor', k, v) →
      cursor < cursor' ∧ k = keyOf hash k.ref ∧ ms i k.ref = some v
  | .iterate i, .entries walked listed => walked = listed ∧
      (∀ e ∈ walked, e.1 = keyOf hash e.1.ref) ∧
      (ms i).Lists (walked.map fun e => (e.1.ref, e.2))
  | .size i, .count n => (ms i).HasSize n
  | .isEmpty i, .truth b => b = true ↔ ∀ ref, ms i ref = none
  | _, _ => False

variable {ts : Nat → Table α} {ms : Nat → Mapping Ref α}

theorem represents_update (hts : ∀ i, (ts i).Represents hash (ms i)) {i : Nat}
    (ht : t.Represents hash m) :
    ∀ j, (Function.update ts i t j).Represents hash (Function.update ms i m j) :=
  stands_update (fun (t : Table α) m => t.Represents hash m) hts ht

/-- One command is answered rightly, and the tables stand for the maps after it. -/
theorem perform_represents (c : Command α) (hts : ∀ i, (ts i).Represents hash (ms i)) :
    c.Admits hash ms (c.perform hash ts).1 ∧
      ∀ i, ((c.perform hash ts).2 i).Represents hash (c.effect hash ms i) := by
  cases c with
  | set i ref v =>
    exact ⟨((hts i).isNew ref v), represents_update hts ((hts i).set ref v)⟩
  | get i ref => exact ⟨(hts i).get? ref, hts⟩
  | contains i ref => exact ⟨(hts i).contains ref, hts⟩
  | erase i ref =>
    obtain ⟨herased, ht⟩ := (hts i).erase ref
    exact ⟨herased, represents_update hts ht⟩
  | find i h p =>
    refine ⟨?_, hts⟩
    have hfind := (hts i).findKey? h p
    show Admits hash _ ms (.found ((ts i).findKey? h p))
    split at hfind <;> rename_i heq <;> rw [heq] <;> exact hfind
  | retain i p => exact ⟨trivial, represents_update hts ((hts i).retain p)⟩
  | addAll i j => exact ⟨trivial, represents_update hts ((hts j).addAll (hts i))⟩
  | clone i j => exact ⟨trivial, represents_update hts (hts i)⟩
  | next i cursor =>
    refine ⟨fun cursor' k v heq => ⟨(next?_lt heq).1, ?_⟩, hts⟩
    exact ((hts i).mem k v).mp (mem_of_next? heq)
  | iterate i =>
    refine ⟨⟨walk_zero _, fun e he => ?_, ?_⟩, hts⟩
    · rw [walk_zero] at he
      exact (((hts i).mem e.1 e.2).mp he).1
    · rw [walk_zero]
      exact (hts i).lists
  | size i => exact ⟨(hts i).hasSize, hts⟩
  | isEmpty i => exact ⟨(hts i).isEmpty, hts⟩

/-- **`tables_refine_maps`** — tables that start without entries answer every command as maps do that
start without entries, however many references share a hash. -/
theorem tables_refine_maps (hash : Ref → UInt32) (cs : List (Command α)) :
    Agree (perform hash) (effect hash) (Admits hash) cs (fun _ => Table.empty)
      (fun _ => Mapping.empty) :=
  agree_of_step (fun ts ms => ∀ i, (ts i).Represents hash (ms i))
    (fun c _ _ => c.perform_represents) cs fun _ => represents_empty hash

end Command

end ScriptMachine.Table
