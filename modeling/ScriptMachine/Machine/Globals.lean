import ScriptMachine.Machine.Stack

/-!
# ScriptMachine.Machine.Globals — what a bare name means

A name that is no local variable is looked up where the running code stands: among the fields of the
receiver, the statics of its class and of the classes above, the symbols of the package and of those
around it, and last among the globals. Reading a name looks for its value (`lookup?`), assigning one
looks for the table that holds it (`binding?`).
-/

namespace ScriptMachine

namespace Heap

/-- A class and the classes above it, at most so many. -/
def ancestryFrom (h : Heap) : Nat → Option Ref → List (Ref × ClassObj)
  | 0, _ | _, none => []
  | fuel + 1, some r =>
    match h.class? r with
    | some c => (r, c) :: h.ancestryFrom fuel c.superclass
    | none => []

/-- A class and the classes above it. -/
def ancestry (h : Heap) (r : Ref) : List (Ref × ClassObj) :=
  h.ancestryFrom h.cells.size (some r)

/-- The method of a class with a name, its own or inherited. -/
def method? (h : Heap) (classRef : Ref) (k : Key) : Option Ref :=
  (h.ancestry classRef).findSome? fun (_, c) => (c.methods.get? k).bind Value.ref?

/-- The nearest class that has a static with this name. -/
def staticOwner? (h : Heap) (classRef : Ref) (k : Key) : Option Ref :=
  ((h.ancestry classRef).find? fun (_, c) => c.statics.contains k).map (·.1)

/-- The static of a class with a name. -/
def static? (h : Heap) (classRef : Ref) (k : Key) : Option Value :=
  (h.ancestry classRef).findSome? fun (_, c) => c.statics.get? k

/-- Does the ancestry of a class end after at most so many classes? -/
def ancestryEndsWithin (h : Heap) : Nat → Option Ref → Bool
  | _, none => true
  | 0, some _ => false
  | fuel + 1, some r =>
    match h.class? r with
    | some c => h.ancestryEndsWithin fuel c.superclass
    | none => true

/-- Does the ancestry of a class end? If it does, it has at most one class for every cell. -/
def ancestryEnds (h : Heap) (r : Ref) : Bool :=
  h.ancestryEndsWithin h.cells.size (some r)

/-- A package and the packages around it, at most so many. -/
def packagesFrom (h : Heap) : Nat → Option Ref → List (Ref × Package)
  | 0, _ | _, none => []
  | fuel + 1, some r =>
    match h.package? r with
    | some p => (r, p) :: h.packagesFrom fuel p.parent
    | none => []

/-- A package and the packages around it. -/
def packages (h : Heap) (r : Option Ref) : List (Ref × Package) :=
  h.packagesFrom h.cells.size r

end Heap

/-- Where a bare name is bound. -/
inductive Binding where
  | field (target : Ref)
  | static (owner : Ref)
  | symbol (package : Ref)
  | global
deriving Repr, DecidableEq

namespace Machine

/-- The receiver of the running method, when it is an instance. -/
def receiver? (m : Machine) : Option (Ref × InstanceObj) :=
  match m.fiber.frames with
  | [] => none
  | f :: _ =>
    match m.fiber.stack[f.base]? with
    | some (.obj r) => (m.heap.instance? r).map fun i => (r, i)
    | _ => none

/-- The package of the running code. -/
def currentPackage (m : Machine) : Option Ref :=
  m.fiber.frames.head?.bind (·.package)

/-- The value a name has for the receiver. -/
def receiverValue? (m : Machine) (k : Key) : Option Value :=
  match m.receiver? with
  | none => none
  | some (_, i) => (i.fields.get? k).or (m.heap.static? i.classRef k)

/-- The value a name has in the packages. -/
def packageValue? (m : Machine) (k : Key) : Option Value :=
  (m.heap.packages m.currentPackage).findSome? fun (_, p) => p.symbols.get? k

/-- **`lookup? m k`** — the value that the running code finds for a name. -/
def lookup? (m : Machine) (k : Key) : Option Value :=
  (m.receiverValue? k).or <| (m.packageValue? k).or <| m.globals.get? k

/-- Where the receiver binds a name. -/
def receiverBinding? (m : Machine) (k : Key) : Option Binding :=
  match m.receiver? with
  | none => none
  | some (r, i) =>
    if i.fields.contains k then some (.field r)
    else (m.heap.staticOwner? i.classRef k).map .static

/-- Where the packages bind a name. -/
def packageBinding? (m : Machine) (k : Key) : Option Binding :=
  match m.currentPackage with
  | none => none
  | some p =>
    let holds := fun (q : Ref × Package) => q.2.symbols.contains k
    ((m.heap.packages (some p)).find? holds).map fun (r, _) => .symbol r

/-- **`binding? m k`** — where the running code finds a name. -/
def binding? (m : Machine) (k : Key) : Option Binding :=
  (m.receiverBinding? k).or <| (m.packageBinding? k).or <|
    if m.globals.contains k then some .global else none

/-- The machine with another value bound. -/
def rebind (m : Machine) (k : Key) (v : Value) : Binding → Machine
  | .field r => { m with heap := m.heap.modify r fun o =>
      match o with
      | .instanceObj i => .instanceObj { i with fields := i.fields.set k v }
      | o => o }
  | .static r => { m with heap := m.heap.modify r fun o =>
      match o with
      | .classObj c => .classObj { c with statics := c.statics.set k v }
      | o => o }
  | .symbol r => { m with heap := m.heap.modify r fun o =>
      match o with
      | .package p => .package { p with symbols := p.symbols.set k v }
      | o => o }
  | .global => { m with globals := m.globals.set k v }

end Machine

namespace Exec

/-- What a search from a class upwards has found. One that finds nothing ends only if the ancestry of
the class does. -/
def searched {α : Type} (classRef : Ref) (found : Option α) : Exec (Option α) := do
  if found.isNone && !(← get).heap.ancestryEnds classRef then throw .endless
  return found

/-- Searches the class of the receiver for a name that is none of its fields. -/
def searchReceiver (k : Key) : Exec Unit := do
  let m ← get
  match m.receiver? with
  | some (_, i) =>
    if i.fields.contains k then pure ()
    else discard (searched i.classRef (m.heap.staticOwner? i.classRef k))
  | none => pure ()

/-- The value of a bare name, if it has one. The name of the call arguments makes a new list. -/
def readGlobal? (name : Ref) : Exec (Option Value) := do
  if name = (← get).names.args then
    some <$> allocValue (.list (← frame).args)
  else
    let k ← key name
    searchReceiver k
    return (← get).lookup? k

/-- The value of a bare name. -/
def getGlobal (name : Ref) : Exec Value := do
  match ← readGlobal? name with
  | some v => return v
  | none => throw (.undefinedVariable (← nameText name))

/-- Assigns a bare name where it is bound. -/
def setGlobal (name : Ref) (v : Value) : Exec Unit := do
  let k ← key name
  searchReceiver k
  match (← get).binding? k with
  | some b => modify (·.rebind k v b)
  | none => throw (.undefinedVariable (← nameText name))

/-- Sets a symbol of a package. -/
def setSymbol (package : Ref) (k : Key) (v : Value) : Exec Unit :=
  modify (·.rebind k v (.symbol package))

/-- Defines a name in the package of the running code, or globally. -/
def define (k : Key) (v : Value) : Exec Unit := do
  match (← frame).package with
  | some p => setSymbol p k v
  | none => setGlobalTable k v

end Exec

end ScriptMachine
