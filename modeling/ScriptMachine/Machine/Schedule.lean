import ScriptMachine.Machine.Builtins
import ScriptMachine.Machine.Calls

/-!
# ScriptMachine.Machine.Schedule — tasks and who runs next

Tasks take turns. `Machine.schedule` hands the machine to the first waiting fiber that can run, in
the order of the queue; the fiber that ran before goes to the end. When only sleeping fibers are
left time passes until the first of them is due. When all that is left waits for other tasks there
is a deadlock, which the main task gets to know if it is still alive.
-/

namespace ScriptMachine

namespace Fiber

/-- Ends the sleep of a fiber: the time it slept replaces the top of its stack. -/
def awaken (t : Fiber) (clock since : Nat) : Fiber :=
  let slept := Value.number (Exec.seconds (clock - since))
  { t with state := .ready, stack := t.stack.setIfInBounds (t.stack.size - 1) slept }

/-- The fiber ready to run, if it can run now. -/
def runnable? (t : Fiber) (clock : Nat) : Option Fiber :=
  match t.state with
  | .ready => some t
  | .sleeping since deadline => if deadline ≤ clock then some (t.awaken clock since) else none
  | .parked _ => none

/-- When a sleeping fiber is due. -/
def deadline? (t : Fiber) : Option Nat :=
  match t.state with
  | .sleeping _ deadline => some deadline
  | _ => none

end Fiber

/-- The first fiber that can run, with those passed over and those not reached. -/
def pickRunnable (clock : Nat) : List Fiber → Option (List Fiber × Fiber × List Fiber)
  | [] => none
  | t :: rest =>
    match t.runnable? clock with
    | some ready => some ([], ready, rest)
    | none =>
      (pickRunnable clock rest).map fun (passed, ready, after) => (t :: passed, ready, after)

/-- The earliest deadline of some fibers. -/
def earliest? (fibers : List Fiber) : Option Nat :=
  (fibers.filterMap Fiber.deadline?).min?

/-- How long an instruction takes, in nanoseconds. -/
def stepTime : Nat := 100

/-- How much later than asked a sleeper wakes, in nanoseconds. -/
def wakeDelay : Nat := 60000

/-- What the scheduler found. -/
inductive Turn where
  | run
  | finished
  | deadlock
deriving Repr, DecidableEq, Inhabited

namespace Machine

/-- The fibers that still have something to run: the running one first. -/
def alive (m : Machine) : List Fiber :=
  if m.fiber.isDone then m.queue else m.fiber :: m.queue

/-- Hands the machine over; the fiber that ran before goes behind `rest` unless it is done. -/
def switchTo (m : Machine) (next : Fiber) (rest : List Fiber) : Machine :=
  let queue := if m.fiber.isDone then rest else rest ++ [m.fiber]
  { m with fiber := next, queue }

/-- The machine with a fiber that can run now, if there is one. -/
def turn? (m : Machine) : Option Machine :=
  match pickRunnable m.clock m.queue with
  | some (passed, next, after) => some (m.switchTo next (after ++ passed))
  | none =>
    if m.fiber.isDone then none
    else (m.fiber.runnable? m.clock).map fun fiber => { m with fiber }

/-- The machine with the fiber that gets to know of a deadlock: the main task if it is alive, else
the first in the queue. -/
def deadlocked (m : Machine) : Machine :=
  let m :=
    if m.fiber.id = mainTask && !m.fiber.isDone then m
    else
      let index := (m.queue.findIdx? fun t => t.id = mainTask).getD 0
      match m.queue[index]? with
      | some next => m.switchTo next (m.queue.eraseIdx index)
      | none => m
  { m with fiber := { m.fiber with state := .ready } }

/-- The machine so many nanoseconds later. -/
def elapse (m : Machine) (nanoseconds : Nat) : Machine :=
  { m with clock := m.clock + nanoseconds }

/-- **`schedule m`** — who runs next; looking for it takes as long as an instruction. -/
def schedule (m : Machine) : Turn × Machine :=
  let m := m.elapse stepTime
  match m.turn? with
  | some m => (.run, m)
  | none =>
    match earliest? m.alive with
    | some deadline =>
      let m := m.elapse (deadline - m.clock + wakeDelay)
      (.run, m.turn?.getD m)
    | none => if m.alive.isEmpty then (.finished, m) else (.deadlock, m.deadlocked)

/-- The heap after a fiber was dropped. -/
def dropFiber (h : Heap) (t : Fiber) : Heap :=
  (t.reset h).2.modifyHandle t.handle fun handle => { handle with status := .aborted }

/-- Drops every waiting fiber; what it captured survives. -/
def dropOthers (m : Machine) : Machine :=
  { m with heap := m.queue.foldl dropFiber m.heap, queue := [] }

/-- Drops what the running fiber holds. -/
def resetFiber (m : Machine) : Machine :=
  let (fiber, heap) := m.fiber.reset m.heap
  { m with fiber, heap }

end Machine

namespace Exec

/-- Starts a task on a closure and answers its handle. Ids are given out in order and never a second
time; the machine is stuck when the last one has been given. -/
def spawn (closure : Ref) : Exec Ref := do
  let id := (← get).lastTask + 1
  if taskIds ≤ id then throw .stuck
  modify fun m => { m with lastTask := id }
  let name ← intern ("task-" ++ toString id)
  let handle ← alloc (.task { name, id, status := .running, result := .none })
  let c ← need ((← get).heap.closure? closure)
  let p ← need ((← get).heap.prototype? c.prototype)
  let first : Frame :=
    { closure, chunk := p.chunk, ip := 0, base := 0, package := c.package, kind := .function,
      args := #[] }
  let t := { Fiber.new id handle with stack := #[.obj closure], frames := [first] }
  modify fun m => { m with queue := m.queue ++ [t] }
  return handle

/-- Ends another task at once; its handlers never run. A task that has ended stays as it is. -/
def abort (handle : Ref) : Exec Unit := do
  let target ← need ((← get).heap.task? handle)
  let id := target.id
  if id = (← get).fiber.id then throw .abortsItself
  match (← get).queue.find? fun t => t.id = id with
  | none => pure ()
  | some t =>
    modify fun m => { m with
      queue := m.queue.eraseP fun t => t.id = id
      heap := (t.reset m.heap).2 }
    modify (·.endTask id handle .aborted .none)

/-- Replaces the task on top by its result; parks before this instruction while it runs. -/
def awaitTask : Exec Unit := do
  match ← peek 0 with
  | .obj r =>
    match (← get).heap.task? r with
    | none => throw .notAwaitable
    | some target =>
      match target.status with
      | .running =>
        if target.id = (← get).fiber.id then throw .awaitsItself
        else
          modifyFiber fun t => { t with state := .parked target.id }
          modifyIp (· - 1)
      | .finished => replaceTop 1 target.result
      | .aborted => replaceTop 1 .none
  | _ => throw .notAwaitable

end Exec

end ScriptMachine
