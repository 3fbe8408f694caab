import Mathlib
import ScriptMachine.Proofs.Related

/-!
# ScriptMachine.Proofs.Mapping — finite maps

What a table or a dictionary stands for: each key has a value or none. The operations are given key by
key, so nothing here knows of slots, hashes or an order. `Lists` says that a list enumerates a map,
every entry once; its length is the size of the map.

`Agree` compares a container with a map over a whole sequence of commands, answer by answer.

Both containers of the machine are proved against this one notion, the table of names by
`tables_refine_maps` and the dictionary by `dicts_refine_maps`, and both use `agree_of_step`: a relation
between a container and a map that each command keeps, and under which each command is answered rightly,
is enough for every sequence of commands.

A map here is a function, so it may have infinitely many keys; `Lists` and `HasSize` say when it does not.
The order in which a container shows its entries is no part of a map.
-/

namespace ScriptMachine

/-- **`Mapping κ α`** — a map from keys to values; a key without a value is absent. -/
def Mapping (κ α : Type) := κ → Option α

namespace Mapping

variable {κ α : Type} {m : Mapping κ α} {k k' : κ} {v : α} {es : List (κ × α)}

/-- The map without entries. -/
def empty : Mapping κ α :=
  fun _ => none

/-- The map with another value for a key. -/
def insert [DecidableEq κ] (m : Mapping κ α) (k : κ) (v : α) : Mapping κ α :=
  fun k' => if k' = k then some v else m k'

/-- The map with the entries whose keys satisfy `p`. -/
def keep (m : Mapping κ α) (p : κ → Bool) : Mapping κ α :=
  fun k => if p k then m k else none

/-- The map without an entry for a key. -/
def erase [DecidableEq κ] (m : Mapping κ α) (k : κ) : Mapping κ α :=
  m.keep (· ≠ k)

/-- The map with the entries of another put over its own. -/
def overlay (m upper : Mapping κ α) : Mapping κ α :=
  fun k => (upper k).or (m k)

/-- The map with every value replaced by its image. -/
def mapValues (m : Mapping κ α) (f : κ → α → α) : Mapping κ α :=
  fun k => (m k).map (f k)

/-- **`m.Lists es`** — the list has every entry of the map once. -/
structure Lists (m : Mapping κ α) (es : List (κ × α)) : Prop where
  once : (es.map Prod.fst).Nodup
  mem : ∀ k v, (k, v) ∈ es ↔ m k = some v

/-- **`m.HasSize n`** — the map has so many entries. -/
def HasSize (m : Mapping κ α) (n : Nat) : Prop :=
  ∃ es, m.Lists es ∧ es.length = n

theorem Lists.hasSize (hl : m.Lists es) : m.HasSize es.length :=
  ⟨es, hl, rfl⟩

/-- A map is what it has under its keys. -/
theorem ext {m' : Mapping κ α} (h : ∀ k v, m k = some v ↔ m' k = some v) : m = m' :=
  funext fun k => Option.ext fun v => h k v

theorem insert_eq_some [DecidableEq κ] {w : α} :
    m.insert k v k' = some w ↔ k' = k ∧ v = w ∨ k' ≠ k ∧ m k' = some w := by
  unfold insert
  split <;> simp_all

theorem keep_eq_some {p : κ → Bool} : m.keep p k = some v ↔ p k = true ∧ m k = some v := by
  unfold keep
  split <;> simp_all

/-- Entries put in one after the other: the last one of a key counts. -/
theorem foldl_insert [DecidableEq κ] (es : List (κ × α)) (honce : (es.map Prod.fst).Nodup) :
    ∀ m : Mapping κ α, es.foldl (fun m e => m.insert e.1 e.2) m k =
      ((es.find? fun e => e.1 = k).map Prod.snd).or (m k) := by
  induction es with
  | nil => intro m; rfl
  | cons e es ih =>
    intro m
    obtain ⟨hnot, honce⟩ := List.nodup_cons.mp honce
    rw [List.foldl_cons, ih honce, List.find?_cons]
    by_cases he : e.1 = k
    · have hnone : es.find? (fun e => decide (e.1 = k)) = none := by
        refine List.find?_eq_none.mpr fun e' he' heq => hnot ?_
        rw [he, ← of_decide_eq_true heq]
        exact List.mem_map_of_mem he'
      simp [hnone, he, insert]
    · simp [he, insert, Ne.symm he]

/-- To look a key up in the list of entries is to look it up in the map. -/
theorem Lists.find? [DecidableEq κ] (hl : m.Lists es) (k : κ) :
    (es.find? fun e => e.1 = k).map Prod.snd = m k := by
  cases hfind : es.find? fun e => decide (e.1 = k) with
  | some e =>
    have hk : e.1 = k := by simpa using List.find?_some hfind
    exact ((hl.mem k e.2).mp (hk ▸ List.mem_of_find?_eq_some hfind)).symm
  | none =>
    cases hv : m k with
    | none => rfl
    | some v => simpa using List.find?_eq_none.mp hfind _ ((hl.mem k v).mpr hv)

/-- Maps that have related values in turn at the same keys have related values at every key. -/
theorem Lists.rel [DecidableEq κ] {β : Type} {R : α → β → Prop} {m' : Mapping κ β} {ks : List κ}
    {vs : List α} {ws : List β} (hl : m.Lists (ks.zip vs)) (hl' : m'.Lists (ks.zip ws))
    (hR : List.Forall₂ R vs ws) (k : κ) : Option.Rel R (m k) (m' k) := by
  rw [← hl.find? k, ← hl'.find? k]
  have hkeys : List.Forall₂ (· = ·) ks ks := List.forall₂_same.mpr fun _ _ => rfl
  exact (find?_rel (forall₂_zip hkeys hR) fun e e' he => by rw [he.1]).map fun e e' he => he.2

/-- **`ofList es`** — the map of some entries; of several for one key the first counts. -/
def ofList [DecidableEq κ] (es : List (κ × α)) : Mapping κ α :=
  fun k => (es.find? fun e => e.1 = k).map Prod.snd

/-- Keys must not be repeated, or a later entry would hide an earlier one. -/
theorem lists_ofList [DecidableEq κ] (honce : (es.map Prod.fst).Nodup) : (ofList es).Lists es := by
  refine ⟨honce, fun k v => ?_⟩
  induction es with
  | nil => simp [ofList]
  | cons e es ih =>
    obtain ⟨hnot, honce⟩ := List.nodup_cons.mp honce
    have ih := ih honce
    unfold ofList at ih ⊢
    by_cases he : e.1 = k
    · have hnone : (k, v) ∉ es := fun hmem => hnot (he ▸ List.mem_map_of_mem hmem)
      simp [he, hnone, Prod.ext_iff, eq_comm]
    · simp [he, ih, Prod.ext_iff, Ne.symm he]

/-- Putting all entries of a map in puts the map over. -/
theorem Lists.foldl_insert [DecidableEq κ] {upper : Mapping κ α} (hl : upper.Lists es) :
    es.foldl (fun m e => m.insert e.1 e.2) m = m.overlay upper := by
  funext k
  rw [Mapping.foldl_insert es hl.once, hl.find?]
  rfl

end Mapping

/-! ## Commands to a container and to what it stands for -/

section Driven

variable {κ σ μ ρ : Type} {perform : κ → σ → ρ × σ} {effect : κ → μ → μ} {admits : κ → μ → ρ → Prop}

/-- **`Agree perform effect admits cs s m`** — when the commands are carried out on the container and on
what it stands for, the answer of the container is right each time. -/
def Agree (perform : κ → σ → ρ × σ) (effect : κ → μ → μ) (admits : κ → μ → ρ → Prop) :
    List κ → σ → μ → Prop
  | [], _, _ => True
  | c :: cs, s, m =>
    admits c m (perform c s).1 ∧ Agree perform effect admits cs (perform c s).2 (effect c m)

/-- The container after some commands. -/
def performAll (perform : κ → σ → ρ × σ) (cs : List κ) (s : σ) : σ :=
  cs.foldl (fun s c => (perform c s).2) s

/-- A relation that every command keeps, and in which it is answered rightly, is enough. -/
theorem agree_of_step (stands : σ → μ → Prop) (hstep : ∀ c s m, stands s m →
    admits c m (perform c s).1 ∧ stands (perform c s).2 (effect c m)) (cs : List κ) :
    ∀ {s : σ} {m : μ}, stands s m → Agree perform effect admits cs s m := by
  induction cs with
  | nil => exact fun _ => trivial
  | cons c cs ih =>
    intro s m hs
    obtain ⟨hadmits, hafter⟩ := hstep c s m hs
    exact ⟨hadmits, ih hafter⟩

/-- By induction on the commands, from the step. -/
theorem performAll_of_step (stands : σ → μ → Prop)
    (hstep : ∀ c s m, stands s m → stands (perform c s).2 (effect c m)) (cs : List κ) : ∀ {s : σ} {m : μ}, stands s m → ∃ m', stands (performAll perform cs s) m' := by
  induction cs with
  | nil => exact fun hs => ⟨_, hs⟩
  | cons c cs ih => exact fun hs => ih (hstep c _ _ hs)

/-- Of several containers one is replaced, and what it stands for. -/
theorem stands_update (stands : σ → μ → Prop) {ss : Nat → σ} {ms : Nat → μ} {s : σ} {m : μ}
    (hss : ∀ i, stands (ss i) (ms i)) {i : Nat} (hs : stands s m) :
    ∀ j, stands (Function.update ss i s j) (Function.update ms i m j) := by
  intro j
  by_cases hj : j = i
  · subst hj
    rwa [Function.update_self, Function.update_self]
  · rw [Function.update_of_ne hj, Function.update_of_ne hj]
    exact hss j

end Driven

end ScriptMachine
