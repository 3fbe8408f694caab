import ScriptMachine.Object

/-!
# ScriptMachine.Heap — the object store

Objects live in numbered slots; a freed slot is reused, the latest freed first. Every string is
interned: the intern table holds each live string once, so equal texts have equal references. The
heap counts what it allocates and says when a collection is due, but never collects by itself.
-/

namespace ScriptMachine

/-- When collections are due, and whether they are logged. -/
structure HeapConfig where
  threshold : Nat := 1048576
  growth : Float := 2.0
  log : Bool := false
deriving Inhabited

/-- An occupied slot: the object, its mark during a collection, and the bytes it is charged with. -/
structure Cell where
  obj : Obj
  marked : Bool
  bytes : Nat
deriving Inhabited

/-- The object store. -/
structure Heap where
  cells : Array (Option Cell)
  free : List Nat
  strings : Table Unit
  bytes : Nat
  nextCollection : Nat
  pauses : Nat
  config : HeapConfig
  collections : Nat
  allocated : Nat
  freed : Nat
deriving Inhabited

namespace Heap

/-- A heap without objects. -/
def new (config : HeapConfig) : Heap :=
  { cells := #[], free := [], strings := Table.empty, bytes := 0,
    nextCollection := config.threshold, pauses := 0, config, collections := 0, allocated := 0,
    freed := 0 }

/-! ## Access -/

/-- The cell of a reference. -/
def cell? (h : Heap) (r : Ref) : Option Cell :=
  h.cells.getD r.index none

/-- The object a reference stands for. -/
def get? (h : Heap) (r : Ref) : Option Obj :=
  match h.cells.getD r.index none with
  | some c => some c.obj
  | none => none

/-- Is the slot of the reference occupied? -/
def contains (h : Heap) (r : Ref) : Bool :=
  (h.cell? r).isSome

/-- Changes the object of an occupied slot. -/
def modify (h : Heap) (r : Ref) (f : Obj → Obj) : Heap :=
  { h with cells := h.cells.modify r.index fun c =>
      match c with
      | some c => some { c with obj := f c.obj }
      | none => none }

/-- The text of a string object. -/
def text? (h : Heap) (r : Ref) : Option String :=
  match h.get? r with
  | some (.string s _) => some s
  | _ => none

/-- The text of a string value. -/
def textOf? (h : Heap) : Value → Option String
  | .obj r => h.text? r
  | _ => none

/-- The table key of a string object. -/
def key? (h : Heap) (r : Ref) : Option Key :=
  match h.get? r with
  | some (.string _ hash) => some ⟨r, hash⟩
  | _ => none

/-- The text of a name; empty when the reference is no string. -/
def name (h : Heap) (r : Ref) : String :=
  (h.text? r).getD ""

/-- A compiled function. -/
def prototype? (h : Heap) (r : Ref) : Option Prototype :=
  match h.get? r with
  | some (.prototype p) => some p
  | _ => none

/-- A closure. -/
def closure? (h : Heap) (r : Ref) : Option Closure :=
  match h.get? r with
  | some (.closure c) => some c
  | _ => none

/-- A captured variable. -/
def upvalue? (h : Heap) (r : Ref) : Option Upvalue :=
  match h.get? r with
  | some (.upvalue u) => some u
  | _ => none

/-- A class. -/
def class? (h : Heap) (r : Ref) : Option ClassObj :=
  match h.get? r with
  | some (.classObj c) => some c
  | _ => none

/-- An instance. -/
def instance? (h : Heap) (r : Ref) : Option InstanceObj :=
  match h.get? r with
  | some (.instanceObj i) => some i
  | _ => none

/-- A package. -/
def package? (h : Heap) (r : Ref) : Option Package :=
  match h.get? r with
  | some (.package p) => some p
  | _ => none

/-- A task handle. -/
def task? (h : Heap) (r : Ref) : Option TaskHandle :=
  match h.get? r with
  | some (.task t) => some t
  | _ => none

/-- The class a value refers to. -/
def classOf? (h : Heap) : Value → Option Ref
  | .obj r => if (h.class? r).isSome then some r else none
  | _ => none

/-- The items of a list value. -/
def listOf? (h : Heap) : Value → Option (Array Value)
  | .obj r =>
    match h.get? r with
    | some (.list items) => some items
    | _ => none
  | _ => none

/-- The number a value stands for: itself, or what an enumeration member carries. -/
def numeric? (h : Heap) : Value → Option Float
  | .number n => some n
  | .obj r =>
    match h.get? r with
    | some (.enumMember m) => m.value.number?
    | _ => none
  | _ => none

/-- The name `type` reports for a value. -/
def typeName (h : Heap) : Value → String
  | .none => "null"
  | .bool _ => "bool"
  | .number _ => "num"
  | .obj r => ((h.get? r).map Obj.typeName).getD ""

/-! ## Allocation -/

/-- **`alloc h o`** — a reference to a slot that now holds `o`. -/
def alloc (h : Heap) (o : Obj) : Ref × Heap :=
  let bytes := o.byteSize
  let cell : Cell := ⟨o, false, bytes⟩
  match h.free with
  | i :: free =>
    (⟨i⟩, { h with
      cells := h.cells.setIfInBounds i (some cell)
      free
      bytes := h.bytes + bytes
      allocated := h.allocated + 1 })
  | [] =>
    (⟨h.cells.size⟩, { h with
      cells := h.cells.push (some cell)
      bytes := h.bytes + bytes
      allocated := h.allocated + 1 })

/-- The live string with this text. -/
def interned? (h : Heap) (s : String) (hash : UInt32) : Option Ref :=
  h.strings.findKey? hash fun r =>
    match h.get? r with
    | some (.string t _) => t == s
    | _ => false

/-- **`intern h s`** — the one string object with the text `s`. -/
def intern (h : Heap) (s : String) : Ref × Heap :=
  let hash := hashText s
  match h.interned? s hash with
  | some r => (r, h)
  | none =>
    let (r, h) := h.alloc (.string s hash)
    (r, { h with strings := h.strings.set ⟨r, hash⟩ () })

/-! ## Counting and pausing -/

/-- How many slots are occupied. -/
def live (h : Heap) : Nat :=
  h.cells.size - h.free.length

/-- Is a collection due? -/
def shouldCollect (h : Heap) : Bool :=
  h.pauses == 0 && h.nextCollection < h.bytes

/-- Enters a region in which no collection is due; regions nest. -/
def pause (h : Heap) : Heap :=
  { h with pauses := h.pauses + 1 }

/-- Leaves such a region. -/
def resume (h : Heap) : Heap :=
  { h with pauses := h.pauses - 1 }

/-- The references of the occupied slots, ascending. -/
def liveRefs (h : Heap) : List Ref :=
  ((List.range h.cells.size).map Ref.mk).filter h.contains

end Heap

end ScriptMachine
