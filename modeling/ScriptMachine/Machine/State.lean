import ScriptMachine.Files
import ScriptMachine.Heap.Collection
import ScriptMachine.Heap.Equality
import ScriptMachine.Listing
import ScriptMachine.Machine.Fault

/-!
# ScriptMachine.Machine.State — the state of a run

A *fiber* is the execution state of one task: its operand stack, its activations (innermost first),
the captured variables that still live on its stack (highest slot first) and its installed handlers
(innermost first). The machine runs one fiber at a time; the others wait in a queue. All the machine
knows of the world outside is part of its state: files, arguments, the time in nanoseconds, a source
of random numbers, and the two output texts.
-/

namespace ScriptMachine

/-- What an activation runs: a function, or the body of a file. A required file leaves its package
as a value, an imported one leaves nothing. -/
inductive FrameKind where
  | function
  | package (required : Bool)
deriving Repr, DecidableEq, Inhabited

/-- An activation. `base` is the stack index of slot zero; `args` are the arguments as passed, kept
only for functions that read them. -/
structure Frame where
  closure : Ref
  chunk : Chunk
  ip : Nat
  base : Nat
  package : Option Ref
  kind : FrameKind
  args : Array Value
deriving Inhabited

/-- An installed handler: how many activations and stack values there were, and where to go on. -/
structure Handler where
  depth : Nat
  height : Nat
  target : Nat
deriving Repr, DecidableEq, Inhabited

/-- Whether a fiber can run. -/
inductive FiberState where
  | ready
  | sleeping (since deadline : Nat)
  | parked (task : Nat)
deriving Repr, DecidableEq, Inhabited

/-- The execution state of one task. -/
structure Fiber where
  id : Nat
  handle : Ref
  stack : Array Value
  frames : List Frame
  openUpvalues : List (Nat × Ref)
  handlers : List Handler
  state : FiberState
deriving Inhabited

/-- A fiber without activations. -/
def Fiber.new (id : Nat) (handle : Ref) : Fiber :=
  { id, handle, stack := #[], frames := [], openUpvalues := [], handlers := [], state := .ready }

/-- Has the fiber nothing left to run? -/
def Fiber.isDone (f : Fiber) : Bool :=
  f.frames.isEmpty

/-- The strings the machine looks up by reference. -/
structure Names where
  init : Ref
  args : Ref
  answer : Ref
  name : Ref
deriving Repr, DecidableEq, Inhabited

/-- How a machine runs. -/
structure Config where
  heap : HeapConfig := {}
  searchPaths : List String := []
  trace : Bool := false
  maxFrames : Nat := 64
deriving Inhabited

/-- The state of a run. -/
structure Machine where
  heap : Heap
  globals : Table Value
  extensions : List (String × Table Value)
  fiber : Fiber
  queue : List Fiber
  lastTask : Nat
  mainResult : Option Value
  mainHandle : Ref
  names : Names
  config : Config
  scriptArgs : List String
  clock : Nat
  seed : UInt64
  files : Files
  loads : List String
  stdout : String
  stderr : String
deriving Inhabited

/-- The id of the task a script starts on. -/
def mainTask : Nat := 0

/-- How many ids there are for tasks: an id is a word of 32 bits. -/
def taskIds : Nat := UInt32.size

/-- Machine steps: a fault leaves the state it arose in. -/
abbrev Exec := EStateM Fault Machine

/-- An uncaught error of a script: its message, the source line of the innermost activation, and a
trace line for every activation, innermost first, ending with the task. -/
structure RuntimeError where
  message : String
  line : Option Nat
  trace : List String
deriving Repr, DecidableEq, Inhabited

/-- The whole trace as one text. -/
def RuntimeError.text (e : RuntimeError) : String :=
  String.intercalate "\n" e.trace

/-- How a run ends. -/
inductive Outcome where
  | value (v : Value)
  | compileErrors (errors : Array CompileError)
  | runtimeError (e : RuntimeError)
  | stuck
  | unfinished
deriving Inhabited

end ScriptMachine
