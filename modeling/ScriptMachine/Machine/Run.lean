import ScriptMachine.Machine.Step

/-!
# ScriptMachine.Machine.Run — running to the end

The loop runs the current fiber an instruction at a time, collects garbage before an instruction
when that is due, and lets the scheduler choose after every hundred instructions and whenever the
fiber cannot go on. Errors go to the innermost handler of the fiber; without one the task ends, and
the main task's end with an error is the end of the run. The loop is the only place that needs fuel.
-/

namespace ScriptMachine

/-- The source line an activation is at: that of the instruction it executed last. -/
def Frame.line (f : Frame) : Nat :=
  f.chunk.lineAt (f.ip - 1)

namespace Machine

/-! ## Errors -/

/-- The line of a stack trace for an activation. -/
def traceLine (m : Machine) (f : Frame) (message : String) : String :=
  let prototype := (m.heap.closure? f.closure).bind fun c => m.heap.prototype? c.prototype
  let line := toString f.line
  match prototype.bind Prototype.name with
  | some name =>
    let package := (f.package.bind m.heap.package?).elim "" fun p => m.heap.name p.name ++ "."
    "[line " ++ line ++ "] in " ++ package ++ m.heap.name name ++ "(): " ++ message
  | none =>
    let path := ((prototype.bind Prototype.path).map m.heap.name).getD "script"
    "[line " ++ line ++ "] in " ++ path ++ ": " ++ message

/-- Does an activation run the body of a file? -/
def isScript (m : Machine) (f : Frame) : Bool :=
  (((m.heap.closure? f.closure).bind fun c => m.heap.prototype? c.prototype).bind
    Prototype.name).isNone

/-- The activations a stack trace shows: the innermost ones up to the body of a file. -/
def tracedFrames (m : Machine) : List Frame → List Frame
  | [] => []
  | f :: rest => if m.isScript f then [f] else f :: m.tracedFrames rest

/-- **`stackTrace m message`** — where the running task is, innermost first. -/
def stackTrace (m : Machine) (message : String) : List String :=
  let name := ((m.heap.task? m.fiber.handle).map fun t => m.heap.name t.name).getD ""
  (m.tracedFrames m.fiber.frames).map (m.traceLine · message) ++ ["Task[" ++ name ++ "]"]

/-- The error of the running task, as it stands when nothing handles it. -/
def runtimeError (m : Machine) (message : String) : RuntimeError :=
  ⟨message, m.fiber.frames.head?.map Frame.line, m.stackTrace message⟩

/-- Stops every task. -/
def abandon (m : Machine) : Machine :=
  let m := m.dropOthers.resetFiber
  if m.fiber.id = mainTask then
    { m with heap := m.heap.modifyHandle m.mainHandle fun t => { t with status := .aborted } }
  else m

/-- The innermost activations dropped until so many are left. -/
def keepFrames (frames : List Frame) (depth : Nat) : List Frame :=
  frames.drop (frames.length - depth)

/-- Goes on at a handler, with the message on the stack. -/
def unwindTo (m : Machine) (handler : Handler) (message : String) : Machine :=
  let (fiber, heap) := m.fiber.closeUpvalues handler.height m.heap
  let (text, heap) := heap.intern message
  let frames :=
    match keepFrames fiber.frames handler.depth with
    | f :: rest => { f with ip := handler.target } :: rest
    | [] => []
  { m with
    heap
    fiber := { fiber with frames, stack := (fiber.stack.shrink handler.height).push (.obj text) } }

/-- **`raise m fault`** — routes an error; an outcome when it ends the run. -/
def raise (m : Machine) (fault : Fault) : Option Outcome × Machine :=
  match fault with
  | .uncompilable errors => (some (.compileErrors errors), m.abandon)
  | .stuck => (some .stuck, m)
  | .endless => (some .unfinished, m)
  | _ =>
    let message := fault.message
    match m.fiber.handlers with
    | handler :: rest =>
      let m := { m with fiber := { m.fiber with handlers := rest } }
      (none, m.unwindTo handler message)
    | [] =>
      let e := m.runtimeError message
      if m.fiber.id = mainTask then (some (.runtimeError e), m.abandon)
      else
        let m := { m with stderr := m.stderr ++ e.text ++ "\n" }
        (none, m.resetFiber.finishTask .none)

/-! ## The loop -/

/-- The trace of the next instruction: the stack of the activation, then the instruction. -/
def traceText (m : Machine) : String :=
  match m.fiber.frames with
  | [] => ""
  | f :: _ =>
    let values := (m.fiber.stack.extract f.base m.fiber.stack.size).toList
    let shown := String.join (values.map fun v => "[ " ++ m.heap.showValue true v ++ " ]")
    "          " ++ shown ++ "\n" ++ (f.chunk.listInstruction m.heap f.ip).1 ++ "\n"

/-- What happens before an instruction: a collection when it is due, and the trace. -/
def prepare (m : Machine) : Machine :=
  let m := if m.heap.shouldCollect then m.collectGarbage.2 else m
  if m.config.trace then { m with stderr := m.stderr ++ m.traceText } else m

/-- How many instructions a task runs before others get their turn. -/
def quantum : Nat := 100

/-- Is it time to look who runs next? -/
def mustYield (m : Machine) (budget : Nat) : Bool :=
  m.fiber.isDone || m.fiber.state != .ready || budget == 0

/-- The result of a run that has come to its end. -/
def takeResult (m : Machine) : Outcome × Machine :=
  (.value (m.mainResult.getD .none), { m with mainResult := none })

/-- **`loop fuel budget m`** — runs until all tasks have ended or an error ends the run. -/
def loop : (fuel budget : Nat) → Machine → Outcome × Machine
  | 0, _, m => (.unfinished, m)
  | fuel + 1, budget, m =>
    if m.mustYield budget then
      match m.schedule with
      | (.run, m) => loop fuel quantum m
      | (.finished, m) => m.takeResult
      | (.deadlock, m) =>
        match m.raise .deadlock with
        | (some outcome, m) => (outcome, m)
        | (none, m) => loop fuel quantum m
    else
      match Exec.step.run m.prepare with
      | .ok _ m => loop fuel (budget - 1) m
      | .error fault m =>
        match m.raise fault with
        | (some outcome, m) => (outcome, m)
        | (none, m) => loop fuel (budget - 1) m

end Machine

end ScriptMachine
