import ScriptMachine.Machine.Stack

/-!
# ScriptMachine.Machine.Upvalues — captured variables

A captured variable is a cell of the heap. While the variable is in scope the cell is *open*: it
names a stack slot of the task that declared it, and that fiber lists it, at most one per slot.
Leaving the scope, in whatever way, closes the cell: it takes the value over.
-/

namespace ScriptMachine

namespace Fiber

/-- The open cells at or above a slot, and those below it. -/
def splitOpen (t : Fiber) (slot : Nat) : List (Nat × Ref) × List (Nat × Ref) :=
  t.openUpvalues.span fun (s, _) => slot ≤ s

/-- Moves the values of some open cells from the stack into the cells. -/
def closeCells (stack : Array Value) (cells : List (Nat × Ref)) (h : Heap) : Heap :=
  cells.foldl
    (fun h (slot, cell) => h.modify cell fun _ => .upvalue (.closed (stack.getD slot .none)))
    h

/-- Closes every open cell at or above a slot. -/
def closeUpvalues (t : Fiber) (slot : Nat) (h : Heap) : Fiber × Heap :=
  match t.openUpvalues with
  | [] => (t, h)
  | _ =>
    let (closing, rest) := t.splitOpen slot
    ({ t with openUpvalues := rest }, closeCells t.stack closing h)

/-- Drops the whole execution state; captured variables survive in their cells. -/
def reset (t : Fiber) (h : Heap) : Fiber × Heap :=
  let (t, h) := t.closeUpvalues 0 h
  ({ t with stack := #[], frames := [], handlers := [], state := .ready }, h)

end Fiber

namespace Exec

/-- Closes the open cells of the running fiber at or above a slot. -/
def closeUpvalues (slot : Nat) : Exec Unit :=
  modify fun m =>
    let (fiber, heap) := m.fiber.closeUpvalues slot m.heap
    { m with fiber, heap }

/-- The open cells with one more, kept in descending order of slots. -/
def insertOpen (slot : Nat) (cell : Ref) : List (Nat × Ref) → List (Nat × Ref)
  | [] => [(slot, cell)]
  | (s, c) :: rest =>
    if s < slot then (slot, cell) :: (s, c) :: rest else (s, c) :: insertOpen slot cell rest

/-- The open cell of a stack slot of the running fiber. -/
def captureSlot (slot : Nat) : Exec Ref := do
  let t := (← get).fiber
  match t.openUpvalues.lookup slot with
  | some cell => return cell
  | none =>
    let cell ← alloc (.upvalue (.onStack t.id slot))
    modifyFiber fun t => { t with openUpvalues := insertOpen slot cell t.openUpvalues }
    return cell

/-- The running or waiting fiber of a task. -/
def fiberOf? (m : Machine) (task : Nat) : Option Fiber :=
  if m.fiber.id = task then some m.fiber else m.queue.find? fun t => t.id = task

/-- The value of a captured variable. -/
def readUpvalue (cell : Ref) : Exec Value := do
  let m ← get
  match ← need (m.heap.upvalue? cell) with
  | .closed v => return v
  | .onStack task slot => return ((fiberOf? m task).bind fun t => t.stack[slot]?).getD .none

/-- Assigns a captured variable. -/
def writeUpvalue (cell : Ref) (v : Value) : Exec Unit := do
  let u ← need ((← get).heap.upvalue? cell)
  match u with
  | .closed _ => modifyHeap (·.modify cell fun _ => .upvalue (.closed v))
  | .onStack task slot =>
    if (← get).fiber.id = task then setStackAt slot v
    else
      modify fun m => { m with queue := m.queue.map fun t =>
        if t.id = task then { t with stack := t.stack.setIfInBounds slot v } else t }

end Exec

end ScriptMachine
