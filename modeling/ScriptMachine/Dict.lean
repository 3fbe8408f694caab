import ScriptMachine.Hash

/-!
# ScriptMachine.Dict — dictionaries with text keys

A dictionary maps texts to values of a type `α`, by open addressing on the key's hash. It starts
with eight slots, doubles when at least sixty percent of them are full before an insertion, and
halves when a removal leaves at most thirty-five percent full, but never below eight. Iteration is
in slot order.
-/

namespace ScriptMachine

/-- A slot of a dictionary. -/
inductive Dict.Slot (α : Type) where
  | vacant
  | erased
  | full (key : String) (hash : UInt32) (value : α)
deriving Repr, Inhabited

/-- A dictionary; `size` counts the full slots. -/
structure Dict (α : Type) where
  size : Nat
  slots : Array (Dict.Slot α)
deriving Repr

namespace Dict

variable {α : Type}

/-- The least number of slots. -/
def minCapacity : Nat := 8

/-- The dictionary without entries. -/
def empty : Dict α :=
  ⟨0, Array.replicate minCapacity .vacant⟩

instance : Inhabited (Dict α) :=
  ⟨empty⟩

/-- Are there no entries? -/
def isEmpty (d : Dict α) : Bool :=
  d.size == 0

/-- How many slots there are. -/
def capacity (d : Dict α) : Nat :=
  d.slots.size

/-- The entry of a slot. -/
def Slot.item? : Slot α → Option (String × α)
  | .full k _ v => some (k, v)
  | _ => none

/-- The entries in slot order. -/
def toList (d : Dict α) : List (String × α) :=
  d.slots.toList.filterMap Slot.item?

/-- The keys in slot order. -/
def keys (d : Dict α) : List String :=
  d.toList.map (·.1)

/-- The values in slot order. -/
def values (d : Dict α) : List α :=
  d.toList.map (·.2)

/-- The `n`-th key in slot order. -/
def keyAt? (d : Dict α) (n : Nat) : Option String :=
  d.keys[n]?

/-- Probes from `index` for the slot of `key`, at most `fuel` slots; a vacant slot ends the search.
-/
def locateFrom (slots : Array (Slot α)) (key : String) (hash : UInt32) (index : Nat) :
    Nat → Option Nat
  | 0 => none
  | fuel + 1 =>
    match slots.getD index .vacant with
    | .vacant => none
    | .erased => locateFrom slots key hash ((index + 1) % slots.size) fuel
    | .full k h _ =>
      if h = hash && k = key then some index
      else locateFrom slots key hash ((index + 1) % slots.size) fuel

/-- The slot of a key. -/
def locate? (d : Dict α) (key : String) : Option Nat :=
  let hash := hashKey key
  locateFrom d.slots key hash (hash.toNat % d.capacity) d.capacity

/-- The value stored under a key. -/
def get? (d : Dict α) (key : String) : Option α :=
  match d.locate? key with
  | some i => (d.slots.getD i .vacant).item?.map (·.2)
  | none => none

/-- Is there an entry for the key? -/
def contains (d : Dict α) (key : String) : Bool :=
  (d.locate? key).isSome

/-- The first slot from `index` on that is not full, among at most `fuel` slots. -/
def openSlotFrom (slots : Array (Slot α)) (index : Nat) : Nat → Nat
  | 0 => index
  | fuel + 1 =>
    match slots.getD index .vacant with
    | .full .. => openSlotFrom slots ((index + 1) % slots.size) fuel
    | _ => index

/-- Puts an entry into the first open slot from its home. -/
def place (slots : Array (Slot α)) (key : String) (hash : UInt32) (value : α) : Array (Slot α) :=
  let home := hash.toNat % slots.size
  slots.setIfInBounds (openSlotFrom slots home slots.size) (.full key hash value)

/-- The entries moved, in slot order, to an array of `capacity` slots. -/
def resized (d : Dict α) (capacity : Nat) : Dict α :=
  ⟨d.size, d.slots.foldl
    (fun slots s =>
      match s with
      | .full k h v => place slots k h v
      | _ => slots)
    (Array.replicate (max capacity minCapacity) .vacant)⟩

/-- The dictionary with twice the slots when at least sixty percent are full. -/
def withRoom (d : Dict α) : Dict α :=
  if 60 ≤ d.size * 100 / d.capacity then d.resized (2 * d.capacity) else d

/-- **`insert d key value`** — `d` with the value stored under the key. -/
def insert (d : Dict α) (key : String) (value : α) : Dict α :=
  let d := d.withRoom
  let hash := hashKey key
  match d.locate? key with
  | some i => ⟨d.size, d.slots.setIfInBounds i (.full key hash value)⟩
  | none => ⟨d.size + 1, place d.slots key hash value⟩

/-- The dictionary with half the slots when at most thirty-five percent are full. -/
def withoutSlack (d : Dict α) : Dict α :=
  if d.capacity ≠ minCapacity ∧ d.size * 100 / d.capacity ≤ 35 then d.resized (d.capacity / 2)
  else d

/-- **`remove d key`** — the value stored under the key, and `d` without it. -/
def remove (d : Dict α) (key : String) : Option α × Dict α :=
  match d.locate? key with
  | none => (none, d)
  | some i =>
    let removed := (d.slots.getD i .vacant).item?.map (·.2)
    (removed, withoutSlack ⟨d.size - 1, d.slots.setIfInBounds i .erased⟩)

/-- The dictionary with these entries, put in one after the other. -/
def ofList (entries : List (String × α)) : Dict α :=
  entries.foldl (fun d (k, v) => d.insert k v) empty

/-- Every value replaced by what `f` makes of it and its key. -/
def updateValues (f : String → α → α) (d : Dict α) : Dict α :=
  ⟨d.size, d.slots.map fun s =>
    match s with
    | .full k h v => .full k h (f k v)
    | s => s⟩

/-- Every value replaced by its image. -/
def mapValues (f : α → α) (d : Dict α) : Dict α :=
  d.updateValues fun _ => f

end Dict

end ScriptMachine
