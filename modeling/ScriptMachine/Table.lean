import ScriptMachine.Value

/-!
# ScriptMachine.Table — open addressing by interned strings

A table maps references of interned strings to values of a type `α`. The hash travels with the key,
and keys are compared as references. Slots are visited linearly from the hash modulo the capacity; a
deleted entry leaves an erased slot behind, which later probes pass over and later insertions reuse.
The capacity is zero or a power of two at least eight, and doubles before more than three quarters
of the slots would be used. Iteration is in slot order.
-/

namespace ScriptMachine

/-- A string key with its hash. -/
structure Key where
  ref : Ref
  hash : UInt32
deriving Repr, DecidableEq, Inhabited

/-- A slot of a table. -/
inductive Table.Slot (α : Type) where
  | vacant
  | erased
  | taken (key : Key) (value : α)
deriving Repr, Inhabited

/-- A table; `used` counts the slots that are not vacant. Two entries of one reference, which only
different hashes allow, still count as two after they were moved to the same slot. -/
structure Table (α : Type) where
  used : Nat
  slots : Array (Table.Slot α)
deriving Repr

namespace Table

variable {α : Type}

/-- The table without slots. -/
def empty : Table α :=
  ⟨0, #[]⟩

instance : Inhabited (Table α) :=
  ⟨empty⟩

/-- The least capacity of a table that holds anything. -/
def minCapacity : Nat := 8

/-- How many slots there are. -/
def capacity (t : Table α) : Nat :=
  t.slots.size

/-- The entry of a slot. -/
def Slot.item? : Slot α → Option (Key × α)
  | .taken k v => some (k, v)
  | _ => none

/-- The entries in slot order. -/
def toList (t : Table α) : List (Key × α) :=
  t.slots.toList.filterMap Slot.item?

/-- How many entries there are. -/
def size (t : Table α) : Nat :=
  t.slots.foldl (fun n s => if s.item?.isSome then n + 1 else n) 0

/-- Are there no entries? -/
def isEmpty (t : Table α) : Bool :=
  t.slots.all (·.item?.isNone)

/-- Where probing for a hash starts. -/
def home (slots : Array (Slot α)) (hash : UInt32) : Nat :=
  hash.toNat % slots.size

/-- Probes from `index` for the slot of `ref`: its own slot, else the first erased slot that was
passed (`grave`), else the vacant slot that ended the search. At most `fuel` slots are visited. -/
def findSlotFrom (slots : Array (Slot α)) (ref : Ref) (grave : Option Nat) (index : Nat) : Nat → Nat
  | 0 => grave.getD index
  | fuel + 1 =>
    match slots.getD index .vacant with
    | .vacant => grave.getD index
    | .erased => findSlotFrom slots ref (grave.or (some index)) ((index + 1) % slots.size) fuel
    | .taken k _ =>
      if k.ref = ref then index else findSlotFrom slots ref grave ((index + 1) % slots.size) fuel

/-- The slot where `key` is, or where it would be put. -/
def findSlot (slots : Array (Slot α)) (key : Key) : Nat :=
  findSlotFrom slots key.ref none (home slots key.hash) slots.size

/-- The value stored under a key. -/
def get? (t : Table α) (key : Key) : Option α :=
  if t.used = 0 then none
  else (t.slots.getD (findSlot t.slots key) .vacant).item?.map (·.2)

/-- Is there an entry for the key? -/
def contains (t : Table α) (key : Key) : Bool :=
  (t.get? key).isSome

/-- Puts an entry into a slot array with room, counting the slots taken anew. -/
def place (t : Table α) (key : Key) (value : α) : Table α :=
  let i := findSlot t.slots key
  let used :=
    match t.slots.getD i .vacant with
    | .vacant => t.used + 1
    | _ => t.used
  ⟨used, t.slots.setIfInBounds i (.taken key value)⟩

/-- A table of vacant slots. -/
def vacant (capacity : Nat) : Table α :=
  ⟨0, Array.replicate capacity .vacant⟩

/-- Moves an entry into the table. It counts even where it takes the slot of another entry. -/
def receive (t : Table α) (key : Key) (value : α) : Table α :=
  ⟨t.used + 1, t.slots.setIfInBounds (findSlot t.slots key) (.taken key value)⟩

/-- The entries moved, in slot order, to `capacity` vacant slots; erased slots are dropped. -/
def resized (t : Table α) (capacity : Nat) : Table α :=
  t.slots.foldl
    (fun u s =>
      match s with
      | .taken k v => u.receive k v
      | _ => u)
    (vacant capacity)

/-- The capacity that a table grows to. -/
def nextCapacity (t : Table α) : Nat :=
  max (2 * t.capacity) minCapacity

/-- The table with room for one more entry. -/
def withRoom (t : Table α) : Table α :=
  if 3 * t.capacity < 4 * (t.used + 1) then t.resized t.nextCapacity else t

/-- Is the key absent from the slots, as a put into them would find? -/
def isNew (t : Table α) (key : Key) : Bool :=
  (t.slots.getD (findSlot t.slots key) .vacant).item?.isNone

/-- **`set t key value`** — `t` with the value stored under the key. -/
def set (t : Table α) (key : Key) (value : α) : Table α :=
  t.withRoom.place key value

/-- `set`, together with whether the key was new. -/
def set' (t : Table α) (key : Key) (value : α) : Bool × Table α :=
  let t := t.withRoom
  (t.isNew key, t.place key value)

/-- `t` without the entry of the key, and whether there was one. -/
def erase (t : Table α) (key : Key) : Bool × Table α :=
  if t.used = 0 then (false, t)
  else
    let i := findSlot t.slots key
    match t.slots.getD i .vacant with
    | .taken _ _ => (true, ⟨t.used, t.slots.setIfInBounds i .erased⟩)
    | _ => (false, t)

/-- Every entry of `source` stored into `t`. -/
def addAll (t source : Table α) : Table α :=
  source.slots.foldl
    (fun u s =>
      match s with
      | .taken k v => u.set k v
      | _ => u)
    t

/-- Probes from `index` for a key with this hash that satisfies `p`. -/
def findKeyFrom (slots : Array (Slot α)) (hash : UInt32) (p : Ref → Bool) (index : Nat) :
    Nat → Option Ref
  | 0 => none
  | fuel + 1 =>
    match slots.getD index .vacant with
    | .vacant => none
    | .erased => findKeyFrom slots hash p ((index + 1) % slots.size) fuel
    | .taken k _ =>
      if k.hash = hash && p k.ref then some k.ref
      else findKeyFrom slots hash p ((index + 1) % slots.size) fuel

/-- A stored key with this hash that satisfies `p`. -/
def findKey? (t : Table α) (hash : UInt32) (p : Ref → Bool) : Option Ref :=
  if t.used = 0 then none else findKeyFrom t.slots hash p (home t.slots hash) t.capacity

/-- The first entry at or after slot `cursor`, and the cursor to go on from. -/
def next? (t : Table α) (cursor : Nat) : Option (Nat × Key × α) :=
  ((List.range' cursor (t.capacity - cursor)).findSome? fun i =>
    (t.slots.getD i .vacant).item?.map fun (k, v) => (i + 1, k, v))

/-- Erases every entry whose key fails `p`. -/
def retain (t : Table α) (p : Key → Bool) : Table α :=
  ⟨t.used, t.slots.map fun s =>
    match s with
    | .taken k v => if p k then .taken k v else .erased
    | s => s⟩

end Table

end ScriptMachine
