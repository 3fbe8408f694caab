import ScriptMachine.Machine.Upvalues
import ScriptMachine.Machine.Globals

/-!
# ScriptMachine.Machine.Calls — activations

A call finds the callee and its arguments on top of the stack. Missing arguments become nothing,
extra ones are dropped; functions that read `args` keep them all. Returning closes what the
activation captured, removes its handlers and leaves the result in place of the callee.
-/

namespace ScriptMachine

namespace Heap

/-- Changes the handle of a task. -/
def modifyHandle (h : Heap) (handle : Ref) (f : TaskHandle → TaskHandle) : Heap :=
  h.modify handle fun o =>
    match o with
    | .task t => .task (f t)
    | o => o

end Heap

namespace Fiber

/-- A fiber that waits for a task goes on. -/
def wake (task : Nat) (t : Fiber) : Fiber :=
  if t.state = .parked task then { t with state := .ready } else t

end Fiber

namespace Machine

/-- Everything that waits for a task goes on. -/
def wakeWaiters (m : Machine) (task : Nat) : Machine :=
  { m with queue := m.queue.map (Fiber.wake task), fiber := m.fiber.wake task }

/-- A task has ended: its handle says how and with which result, and its waiters go on. -/
def endTask (m : Machine) (id : Nat) (handle : Ref) (status : TaskStatus) (result : Value) :
    Machine :=
  let heap := m.heap.modifyHandle handle fun t => { t with status, result }
  let mainResult := if id = mainTask then some result else m.mainResult
  { m with heap, mainResult }.wakeWaiters id

/-- The running task has ended with a result. -/
def finishTask (m : Machine) (result : Value) : Machine :=
  m.endTask m.fiber.id m.fiber.handle .finished result

end Machine

namespace Exec

/-- Does the code start by loading the call arguments? -/
def readsArgs (c : Chunk) : Bool :=
  c.code[0]? == some Operation.getGlobal.code

/-- Refuses one more activation when there are as many as allowed. -/
def guardDepth : Exec Unit := do
  let m ← get
  if m.config.maxFrames ≤ m.fiber.frames.length then throw .stackOverflow

/-- Enters an activation. -/
def enter (f : Frame) : Exec Unit :=
  modifyFiber fun t => { t with frames := f :: t.frames }

/-- Exactly `arity` arguments from `first` on. -/
def fitArguments (first arity : Nat) (stack : Array Value) : Array Value :=
  let given := stack.size - first
  if given < arity then stack ++ Array.replicate (arity - given) .none
  else stack.shrink (first + arity)

/-- Calls a closure whose callee slot and `argc` arguments are on the stack. -/
def callClosure (closure : Ref) (argc : Nat) : Exec Unit := do
  guardDepth
  let c ← need ((← get).heap.closure? closure)
  let p ← need ((← get).heap.prototype? c.prototype)
  let first := (← height) - argc
  let args ← if readsArgs p.chunk then valuesFrom first else pure #[]
  modifyStack (fitArguments first p.arity)
  enter { closure, chunk := p.chunk, ip := 0, base := first - 1, package := c.package,
          kind := .function, args }

/-- The cell of a variable that a closure made by an activation captures. -/
def captureCell (f : Frame) (c : Capture) : Exec Ref := do
  if c.isLocal then captureSlot (f.base + c.index)
  else
    let enclosing ← need ((← get).heap.closure? f.closure)
    need enclosing.upvalues[c.index]?

/-- Makes a closure over the running activation's variables. -/
def makeClosure (prototype : Ref) (captures : List Capture) : Exec Unit := do
  let f ← frame
  let upvalues ← captures.mapM (captureCell f)
  push (← allocValue (.closure ⟨prototype, upvalues.toArray, f.package⟩))

/-- Returns from the running activation. -/
def returnFromFrame : Exec Unit := do
  let result ← pop
  let f ← frame
  modifyFiber fun t => { t with frames := t.frames.tail }
  closeUpvalues f.base
  modifyFiber fun t =>
    let depth := t.frames.length
    { t with handlers := t.handlers.dropWhile fun h => depth < h.depth }
  truncate f.base
  if (← get).fiber.isDone then modify (·.finishTask result)
  else
    match f.kind with
    | .function => push result
    | .package true => push (f.package.elim .none .obj)
    | .package false => pure ()

end Exec

end ScriptMachine
