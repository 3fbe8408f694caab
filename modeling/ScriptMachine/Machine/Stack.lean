import ScriptMachine.Machine.State

/-!
# ScriptMachine.Machine.Stack — operands, frames and the heap in machine steps
-/

namespace ScriptMachine.Exec

/-- Demands a value that compiled code always provides. -/
def need {α : Type} : Option α → Exec α
  | some a => pure a
  | none => throw .stuck

/-- Changes the running fiber. -/
@[inline]
def modifyFiber (f : Fiber → Fiber) : Exec Unit :=
  modify fun m => { m with fiber := f m.fiber }

/-- Changes the operand stack. -/
@[inline]
def modifyStack (f : Array Value → Array Value) : Exec Unit :=
  modifyFiber fun t => { t with stack := f t.stack }

/-- Changes the heap. -/
@[inline]
def modifyHeap (f : Heap → Heap) : Exec Unit :=
  modify fun m => { m with heap := f m.heap }

/-- Reads the heap. -/
@[inline]
def heap : Exec Heap :=
  return (← get).heap

/-- Pushes a value. -/
def push (v : Value) : Exec Unit :=
  modifyStack (·.push v)

/-- How many values are on the stack. -/
def height : Exec Nat :=
  return (← get).fiber.stack.size

/-- The value at a stack index. -/
def stackAt (index : Nat) : Exec Value := do
  need (← get).fiber.stack[index]?

/-- The value so far below the top. -/
def peek (distance : Nat) : Exec Value := do
  let stack := (← get).fiber.stack
  if distance < stack.size then need stack[stack.size - 1 - distance]? else throw .stuck

/-- Takes the top value. -/
def pop : Exec Value := do
  let v ← peek 0
  modifyStack (·.pop)
  return v

/-- Drops the values above a height. -/
def truncate (height : Nat) : Exec Unit :=
  modifyStack (·.shrink height)

/-- Drops so many values. -/
def drop (count : Nat) : Exec Unit :=
  modifyStack fun s => s.shrink (s.size - count)

/-- Replaces so many values by one. -/
def replaceTop (count : Nat) (v : Value) : Exec Unit := do
  drop count
  push v

/-- Writes a stack slot. -/
def setStackAt (index : Nat) (v : Value) : Exec Unit :=
  modifyStack (·.setIfInBounds index v)

/-- The top values from a height on. -/
def valuesFrom (height : Nat) : Exec (Array Value) := do
  let stack := (← get).fiber.stack
  return stack.extract height stack.size

/-- The innermost activation. -/
def frame : Exec Frame := do
  match (← get).fiber.frames with
  | f :: _ => return f
  | [] => throw .stuck

/-- Changes where the innermost activation goes on. -/
def modifyIp (f : Nat → Nat) : Exec Unit :=
  modifyFiber fun t =>
    match t.frames with
    | g :: rest => { t with frames := { g with ip := f g.ip } :: rest }
    | [] => t

/-- Allocates an object. -/
def alloc (o : Obj) : Exec Ref :=
  modifyGet fun m =>
    let (r, heap) := m.heap.alloc o
    (r, { m with heap })

/-- Allocates an object, as a value. -/
def allocValue (o : Obj) : Exec Value :=
  return .obj (← alloc o)

/-- The string object of a text. -/
def intern (s : String) : Exec Ref :=
  modifyGet fun m =>
    let (r, heap) := m.heap.intern s
    (r, { m with heap })

/-- The string value of a text. -/
def internValue (s : String) : Exec Value :=
  return .obj (← intern s)

/-- The table key of a name. -/
def key (name : Ref) : Exec Key := do
  need ((← get).heap.key? name)

/-- The text of a name. -/
def nameText (name : Ref) : Exec String :=
  return (← get).heap.name name

/-- A constant of the running function. -/
def constant (index : Nat) : Exec Value := do
  need ((← frame).chunk.constant? index)

/-- A name constant of the running function. -/
def nameConstant (index : Nat) : Exec Ref := do
  match ← constant index with
  | .obj r => return r
  | _ => throw .stuck

/-- Sets a global. -/
def setGlobalTable (k : Key) (v : Value) : Exec Unit :=
  modify fun m => { m with globals := m.globals.set k v }

/-- Appends to the output. -/
def write (s : String) : Exec Unit :=
  modify fun m => { m with stdout := m.stdout ++ s }

/-- Appends to the error output. -/
def writeError (s : String) : Exec Unit :=
  modify fun m => { m with stderr := m.stderr ++ s }

end ScriptMachine.Exec
