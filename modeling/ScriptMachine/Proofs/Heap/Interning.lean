import Mathlib
import ScriptMachine.Proofs.Heap.Representation

/-!
# ScriptMachine.Proofs.Heap.Interning — the intern table and the live strings

As long as strings are made by interning alone, the intern table lists exactly the live strings, each
with the hash of its text, and no text is there twice. Interning therefore finds a text that is live,
and a reference to it stays good until a collection frees it.

`Interned` is the invariant: each operation keeps it, and a collection does because it removes from the
table the entries of the strings it frees. `Built.representation` joins it with the agreement of slots,
free list and counts, for every heap that came about by operations from outside, and adds that
interning a text twice gives one reference as long as its string is live (`WhileLive`). After it has
been freed, interning the same text may give another reference, and nothing is claimed of the old one.

The operations are those from outside. Direct allocation of a string would leave the table behind; so
`NoString` excludes it, and the machine never does it.
-/

namespace ScriptMachine.Heap

variable {h h' : Heap} {r r' : Ref} {s : String} {hash : UInt32} {roots : List Ref}

/-- **`Interned`** — the intern table lists the live strings, and their texts are distinct. -/
structure Interned (h : Heap) : Prop where
  valid : h.strings.Valid
  stored : ∀ e ∈ h.strings.toList, ∃ s, h.get? e.1.ref = some (.string s e.1.hash)
  listed : ∀ r s hash, h.get? r = some (.string s hash) →
    hash = hashText s ∧ (⟨r, hash⟩, ()) ∈ h.strings.toList
  single : ∀ r r' s hash hash', h.get? r = some (.string s hash) →
    h.get? r' = some (.string s hash') → r = r'

theorem new_interned (config : HeapConfig) : (new config).Interned := by
  have hget : ∀ r, (new config).get? r = none := fun r => by simp [get?_of_cells, new]
  refine ⟨Table.valid_empty, (fun e he => by cases he), fun r s hash hr => ?_,
    fun r r' s hash hash' hr => ?_⟩
  all_goals
    rw [hget] at hr
    cases hr

/-- Only the strings of a heap matter, and its table. -/
theorem Interned.congr (hi : h.Interned) (hstrings : h'.strings = h.strings)
    (hget : ∀ r s hash, h'.get? r = some (.string s hash) ↔ h.get? r = some (.string s hash)) :
    h'.Interned where
  valid := hstrings ▸ hi.valid
  stored e he :=
    let ⟨s, hs⟩ := hi.stored e (hstrings ▸ he)
    ⟨s, (hget ..).mpr hs⟩
  listed r s hash hr := hstrings ▸ hi.listed r s hash ((hget ..).mp hr)
  single r r' s hash hash' hr hr' := hi.single r r' s hash hash' ((hget ..).mp hr) ((hget ..).mp hr')

/-- An object that is no string takes a slot. -/
theorem Interned.alloc {o : Obj} (hi : h.Interned) (ht : h.Tidy) (ho : NoString o) :
    (h.alloc o).2.Interned := by
  refine hi.congr (by unfold Heap.alloc; split <;> rfl) fun r s hash => ?_
  rw [ht.get?_alloc]
  split
  · rename_i heq
    subst heq
    rw [ht.get?_alloc_fst]
    refine ⟨fun hs => ?_, nofun⟩
    rw [Option.some.inj hs] at ho
    exact absurd rfl ho
  · rfl

/-- A text that interning does not find is not there. -/
theorem Interned.not_live (hi : h.Interned) (hnone : h.interned? s (hashText s) = none)
    (hr : h.get? r = some (.string s hash)) : False := by
  obtain ⟨rfl, hmem⟩ := hi.listed r s hash hr
  have htest := hi.valid.findKey?_eq_none hnone hmem rfl
  simp [hr] at htest

/-- The heap in which a new text has been interned. -/
theorem get?_intern_of_none (ht : h.Tidy) (hnone : h.interned? s (hashText s) = none) (r : Ref) :
    (h.intern s).2.get? r =
      if r = (h.intern s).1 then some (.string s (hashText s)) else h.get? r := by
  rw [intern_of_none hnone]
  exact ht.get?_alloc (.string s (hashText s)) r

/-- A text that is new is entered under its hash. -/
theorem strings_intern_of_none (hnone : h.interned? s (hashText s) = none) :
    (h.intern s).2.strings = h.strings.set ⟨(h.intern s).1, hashText s⟩ () := by
  rw [intern_of_none hnone]
  show (h.alloc _).2.strings.set _ _ = _
  have hstrings : (h.alloc (.string s (hashText s))).2.strings = h.strings := by
    unfold Heap.alloc
    split <;> rfl
  rw [hstrings]

/-- By whether the text is there already. The lookup answers with a live object of that very text,
as the table holds nothing else. -/
theorem Interned.intern (hi : h.Interned) (ht : h.Tidy) (s : String) : (h.intern s).2.Interned := by
  cases hfound : h.interned? s (hashText s) with
  | some r =>
    rw [intern_of_some hfound]
    exact hi
  | none =>
    have hget := get?_intern_of_none ht hfound
    have hfresh : h.get? (h.intern s).1 = none := by
      rw [intern_of_none hfound]
      exact ht.get?_alloc_fst _
    -- the new string is in a slot that no entry refers to
    have hagrees : h.strings.Agrees ⟨(h.intern s).1, hashText s⟩ := by
      intro e he href
      obtain ⟨t, hstored⟩ := hi.stored e he
      rw [href, hfresh] at hstored
      cases hstored
    obtain ⟨hvalid, hmem⟩ := hi.valid.set (v := ()) hagrees
    rw [← strings_intern_of_none hfound] at hvalid hmem
    refine ⟨hvalid, fun e he => ?_, fun r t hash hr => ?_, fun r r' t hash hash' hr hr' => ?_⟩
    · rcases (hmem e).mp he with rfl | ⟨he, hne⟩
      · exact ⟨s, by rw [hget, if_pos rfl]⟩
      · obtain ⟨t, hstored⟩ := hi.stored e he
        refine ⟨t, ?_⟩
        rw [hget, if_neg, hstored]
        intro heq
        rw [heq, hfresh] at hstored
        cases hstored
    · rw [hget] at hr
      split at hr
      · rename_i heq
        subst heq
        obtain ⟨rfl, rfl⟩ := Obj.string.inj (Option.some.inj hr)
        exact ⟨rfl, (hmem _).mpr (.inl rfl)⟩
      · rename_i hne
        obtain ⟨hhash, hlisted⟩ := hi.listed r t hash hr
        exact ⟨hhash, (hmem _).mpr (.inr ⟨hlisted, fun heq => hne (congrArg Key.ref heq)⟩)⟩
    · rw [hget] at hr hr'
      -- a text that was not found is not the text of another string
      split at hr <;> split at hr'
      · rename_i heq heq'
        rw [heq, heq']
      · obtain ⟨rfl, -⟩ := Obj.string.inj (Option.some.inj hr)
        exact (hi.not_live hfound hr').elim
      · obtain ⟨rfl, -⟩ := Obj.string.inj (Option.some.inj hr')
        exact (hi.not_live hfound hr).elim
      · exact hi.single r r' t hash hash' hr hr'

/-- Objects change that are no strings, before and after. -/
theorem get?_modify_string {f : Obj → Obj}
    (hf : ∀ o, h.get? r = some o → NoString o ∧ NoString (f o)) :
    (h.modify r f).get? r' = some (.string s hash) ↔ h.get? r' = some (.string s hash) := by
  rw [get?_modify]
  split
  · rename_i heq
    subst heq
    cases ho : h.get? r' with
    | none => simp
    | some o =>
      obtain ⟨hold, hnew⟩ := hf o ho
      constructor
      · intro hs
        rw [Option.some.inj hs] at hnew
        exact absurd rfl hnew
      · intro hs
        rw [Option.some.inj hs] at hold
        exact absurd rfl hold
  · rfl

/-- The entries of the table after a collection: those whose string was marked. -/
theorem mem_strings_collect {e : Key × Unit} : e ∈ (h.collect roots).2.strings.toList ↔
    e ∈ h.strings.toList ∧ isMarkedIn (markFrom h.cells roots) e.1.ref = true :=
  Table.mem_toList_retain h.strings fun k => isMarkedIn (markFrom h.cells roots) k.ref

/-- A collection takes the texts that it frees out of the table. -/
theorem Interned.collect (hi : h.Interned) (roots : List Ref) : (h.collect roots).2.Interned := by
  have hget := get?_collect_eq h roots
  have hlive : ∀ {r o}, (h.collect roots).2.get? r = some o →
      isMarkedIn (markFrom h.cells roots) r = true ∧ h.get? r = some o := by
    intro r o ho
    rw [hget] at ho
    split at ho
    · exact ⟨‹_›, ho⟩
    · cases ho
  refine ⟨hi.valid.retain _ _, fun e he => ?_, fun r s hash hr => ?_,
    fun r r' s hash hash' hr hr' => hi.single r r' s hash hash' (hlive hr).2 (hlive hr').2⟩
  · obtain ⟨he, hmarked⟩ := mem_strings_collect.mp he
    obtain ⟨s, hs⟩ := hi.stored e he
    exact ⟨s, by rw [hget, if_pos hmarked, hs]⟩
  · obtain ⟨hmarked, hr⟩ := hlive hr
    obtain ⟨hhash, hlisted⟩ := hi.listed r s hash hr
    exact ⟨hhash, mem_strings_collect.mpr ⟨hlisted, hmarked⟩⟩

/-- By the kinds of operations. -/
theorem Interned.change (hi : h.Interned) (ht : h.Tidy) (hc : Change NoString h h') :
    h'.Interned := by
  cases hc with
  | alloc ho => exact hi.alloc ht ho
  | intern s => exact hi.intern ht s
  | mutate r hf => exact hi.congr rfl fun r' s hash => get?_modify_string hf
  | pause => exact hi.congr rfl fun _ _ _ => .rfl
  | resume => exact hi.congr rfl fun _ _ _ => .rfl
  | collect roots => exact hi.collect roots

/-- **`Built.interned`** — the table of a heap lists its strings, whatever is done to it. -/
theorem Built.interned (hb : Built NoString h) : h.Interned :=
  (hb.induction (P := fun h => h.Orderly ∧ h.Interned)
    (fun config => ⟨new_orderly config, new_interned config⟩)
    fun _ _ ⟨ho, hi⟩ hc => ⟨ho.change hc, hi.change ho.tidy hc⟩).2

/-- A text that is live is interned by finding it. -/
theorem Interned.intern_of_live (hi : h.Interned) (hr : h.text? r = some s) :
    h.intern s = (r, h) := by
  obtain ⟨hash, hget⟩ := text?_eq_some.mp hr
  cases hfound : h.interned? s (hashText s) with
  | none => exact (hi.not_live hfound hget).elim
  | some r' =>
    obtain ⟨hash', hget'⟩ := text?_eq_some.mp (text?_interned hfound)
    rw [intern_of_some hfound, hi.single r r' s hash hash' hget hget']

/-- A string keeps its text as long as its slot is taken. -/
theorem Change.text? (hc : Change NoString h h') (ht : h.Tidy) (hr : h.text? r = some s)
    (hlive : h'.contains r = true) : h'.text? r = some s := by
  obtain ⟨hash, hget⟩ := text?_eq_some.mp hr
  cases hc with
  | alloc ho => exact (ht.keeps_alloc _).text? hr
  | intern t => exact (ht.intern t).2.1.text? hr
  | mutate r' hf => exact text?_eq_some.mpr ⟨hash, (get?_modify_string hf).mpr hget⟩
  | pause => exact hr
  | resume => exact hr
  | collect roots =>
    refine text?_eq_some.mpr ⟨hash, ?_⟩
    have hsome : ((h.collect roots).2.get? r).isSome = true := by
      rw [get?_eq, Option.isSome_map]
      exact hlive
    rw [get?_collect_eq] at hsome ⊢
    split at hsome
    · rw [if_pos ‹_›, hget]
    · cases hsome

/-- **`WhileLive r h h'`** — operations lead from one heap to the other, and the slot of `r` is taken
all along. -/
def WhileLive (r : Ref) : Heap → Heap → Prop :=
  Relation.ReflTransGen fun h h' => Change NoString h h' ∧ h'.contains r = true

/-- By induction on the operations, for as long as the text is not freed. -/
theorem Interned.whileLive (hi : h.Interned) (ho : h.Orderly) (hr : h.text? r = some s)
    (hrun : WhileLive r h h') : h'.Interned ∧ h'.Orderly ∧ h'.text? r = some s := by
  induction hrun with
  | refl => exact ⟨hi, ho, hr⟩
  | tail _ hc ih =>
    obtain ⟨hi, ho, hr⟩ := ih
    exact ⟨hi.change ho.tidy hc.1, ho.change hc.1, hc.1.text? ho.tidy hr hc.2⟩

/-- **`Representation`** — how the parts of a heap belong together. -/
structure Representation (h : Heap) : Prop where
  /-- the free list names exactly the vacant slots, each once -/
  free : h.free.Nodup ∧ ∀ i : Nat, i ∈ h.free ↔ h.cells[i]? = some none
  /-- as many objects are live as slots are taken, and as were allocated and not freed -/
  live : h.live = h.occupied ∧ h.freed ≤ h.allocated ∧ h.live = h.allocated - h.freed
  unmarked : ∀ r c, h.cell? r = some c → c.marked = false
  /-- the intern table has exactly the live strings as keys, each once and with its hash -/
  keys : (h.strings.toList.map (·.1)).Nodup ∧ ∀ k, k ∈ h.strings.toList.map (·.1) ↔
    ∃ s, k.hash = hashText s ∧ h.get? k.ref = some (.string s (hashText s))
  hashed : ∀ r s hash, h.get? r = some (.string s hash) → hash = hashText s
  distinct : ∀ r r' s, h.text? r = some s → h.text? r' = some s → r = r'
  /-- interning gives a live string with the text, the same one as long as that stays live -/
  intern : ∀ s, (h.intern s).2.text? (h.intern s).1 = some s ∧
    ∀ h', WhileLive (h.intern s).1 (h.intern s).2 h' → h'.intern s = ((h.intern s).1, h')

/-- **`Built.representation`** — whatever is done to a heap whose strings are made by interning, its
parts belong together. -/
theorem Built.representation (hb : Built NoString h) : h.Representation := by
  have ho := hb.orderly
  have hi := hb.interned
  refine ⟨⟨ho.tidy.distinct, fun i => ⟨ho.tidy.vacant i, ho.complete i⟩⟩, ⟨ho.live, ?_⟩,
    fun r c hc => ?_, ⟨?_, fun k => ?_⟩, fun r s hash hr => (hi.listed r s hash hr).1,
    fun r r' s hr hr' => ?_, fun s => ⟨(ho.tidy.intern s).2.2, fun h' hrun => ?_⟩⟩
  · rw [ho.live, ← ho.counted]
    omega
  · unfold cell? at hc
    rw [Array.getD_eq_getD_getElem?] at hc
    cases hcell : h.cells[r.index]? with
    | none => simp [hcell] at hc
    | some x =>
      rw [hcell] at hc
      obtain rfl : x = some c := hc
      exact ho.unmarked r.index c hcell
  · refine List.Nodup.of_map Key.ref ?_
    rw [List.map_map]
    exact hi.valid.nodup_refs
  · constructor
    · intro hk
      obtain ⟨e, he, rfl⟩ := List.mem_map.mp hk
      obtain ⟨s, hs⟩ := hi.stored e he
      obtain ⟨hhash, -⟩ := hi.listed _ _ _ hs
      exact ⟨s, hhash, hhash ▸ hs⟩
    · rintro ⟨s, hhash, hs⟩
      refine List.mem_map.mpr ⟨_, (hi.listed _ _ _ hs).2, ?_⟩
      rw [← hhash]
  · obtain ⟨hash, hget⟩ := text?_eq_some.mp hr
    obtain ⟨hash', hget'⟩ := text?_eq_some.mp hr'
    exact hi.single r r' s hash hash' hget hget'
  · obtain ⟨hi', -, hr⟩ := (hi.intern ho.tidy s).whileLive (ho.intern s) (ho.tidy.intern s).2.2 hrun
    exact hi'.intern_of_live hr

/-- A text, a list that grows and a text that is freed: the slots of the last two are vacant. -/
theorem representation_after_collection :
    let kept := (new {}).intern "kept"
    let list := kept.2.alloc (.list #[])
    let grown := list.2.modify list.1 fun _ => .list #[.none]
    let full := (grown.pause.intern "freed").2.resume
    Built NoString (full.collect [kept.1]).2 ∧ (full.collect [kept.1]).2.Representation := by
  intro kept list grown full
  have hkept : Built NoString kept.2 := .step ⟨{}, .refl⟩ (.intern (new {}) "kept")
  have hlist : Built NoString list.2 := hkept.step (.alloc _ nofun)
  have hempty : list.2.get? list.1 = some (.list #[]) := hkept.orderly.tidy.get?_alloc_self _
  have hgrown : Built NoString grown := by
    refine hlist.step (.mutate list.2 list.1 fun o ho => ⟨?_, nofun⟩)
    rw [← Option.some.inj (hempty.symm.trans ho)]
    exact nofun
  have hbuilt : Built NoString (full.collect [kept.1]).2 :=
    .step (.step (.step (.step hgrown (.pause _)) (.intern _ "freed")) (.resume _)) (.collect _ _)
  exact ⟨hbuilt, hbuilt.representation⟩

end ScriptMachine.Heap
