import ScriptMachine.Machine.Run

/-!
# ScriptMachine.Machine — the machine as other programs use it

A new machine knows the builtins. `interpret` runs a source text on it, and what one text defines
the next ones see. Everything else here prepares runs or looks at what they left.
-/

namespace ScriptMachine.Machine

/-- Defines a global. -/
def defineGlobal (m : Machine) (name : String) (v : Value) : Machine :=
  let (r, heap) := m.heap.intern name
  match heap.key? r with
  | some k => { m with heap, globals := m.globals.set k v }
  | none => { m with heap }

/-- Defines a native function as a global. -/
def defineNative (m : Machine) (name : String) (body : NativeBody) : Machine :=
  let (r, heap) := m.heap.alloc (.native ⟨name, body⟩)
  { m with heap }.defineGlobal name (.obj r)

/-- The global with a name; looking for it makes the name a string of the heap. -/
def global (m : Machine) (name : String) : Option Value × Machine :=
  let (r, heap) := m.heap.intern name
  ((heap.key? r).bind m.globals.get?, { m with heap })

/-- The machine before the builtins are defined. -/
def bare (config : Config) (files : Files) : Machine :=
  let heap := Heap.new config.heap
  let (init, heap) := heap.intern "init"
  let (args, heap) := heap.intern "__args__"
  let (answer, heap) := heap.intern "__ans__"
  let (name, heap) := heap.intern "__name__"
  let (taskName, heap) := heap.intern "default"
  let (mainHandle, heap) := heap.alloc
    (.task { name := taskName, id := mainTask, status := .finished, result := .none })
  { heap, globals := .empty, extensions := [], fiber := .new mainTask mainHandle, queue := [],
    lastTask := mainTask, mainResult := none, mainHandle, names := ⟨init, args, answer, name⟩,
    config, scriptArgs := [], clock := 0, seed := 0x9e3779b97f4a7c15, files, loads := [],
    stdout := "", stderr := "" }

/-- **`new config files`** — a machine that has not run anything. -/
def new (config : Config) (files : Files) : Machine :=
  Builtin.all.foldl (fun m (name, b) => m.defineNative name (.builtin b)) (bare config files)

/-- Sets the arguments the following runs see. -/
def loadArgs (m : Machine) (args : List String) : Machine :=
  { m with scriptArgs := args }

/-- Adds a directory in which imports look for files. -/
def addPath (m : Machine) (dir : String) : Machine :=
  { m with config := { m.config with searchPaths := m.config.searchPaths ++ [dir] } }

/-- The string values of some texts, in order. -/
def internAll (heap : Heap) (texts : List String) : Array Value × Heap :=
  texts.foldl
    (fun (values, heap) s =>
      let (r, heap) := heap.intern s
      (values.push (.obj r), heap))
    (#[], heap)

/-- Drops what an earlier run left, and prepares the main task for the next. -/
def restart (m : Machine) : Machine :=
  let m := m.dropOthers.resetFiber
  { m with
    heap := m.heap.modifyHandle m.mainHandle fun t => { t with status := .running, result := .none }
    fiber := .new mainTask m.mainHandle
    mainResult := none }

/-- The machine about to run a closure on the main task. -/
def startMain (m : Machine) (closure : Ref) (chunk : Chunk) : Machine :=
  let m := m.restart
  let (args, heap) := internAll m.heap m.scriptArgs
  let (list, heap) := heap.alloc (.list args)
  let m := { m with heap }.defineGlobal "args" (.obj list)
  let first : Frame :=
    { closure, chunk, ip := 0, base := 0, package := none, kind := .function, args }
  { m with fiber := { m.fiber with stack := #[.obj closure], frames := [first] } }

/-- The machine about to run a compiled script. -/
def load (m : Machine) (script : Ref) (path : String) : Machine :=
  let (closure, heap) := m.heap.alloc (.closure ⟨script, #[], none⟩)
  let (pathRef, heap) := heap.intern path
  let chunk := ((heap.prototype? script).map Prototype.chunk).getD .empty
  { m with heap }.defineGlobal "__name__" (.obj pathRef) |>.startMain closure chunk

/-- **`interpret fuel m source path`** — compiles and runs a source text, for at most `fuel` turns
of the loop. The value is that of a `return` outside functions, or nothing. -/
def interpret (fuel : Nat) (m : Machine) (source path : String) : Outcome × Machine :=
  let (result, heap) := compile m.heap source path
  let m := { m with heap }
  match result with
  | .ok script => loop fuel quantum (m.load script path)
  | .error errors => (.compileErrors errors, m)

/-- The listing of a source text, or its errors. -/
def disassemble (m : Machine) (source path : String) :
    Except (Array CompileError) String × Machine :=
  let (result, heap) := compile m.heap source path
  (result.map (heap.listing path), { m with heap })

/-- The output so far, and the machine with none. -/
def takeOutput (m : Machine) : String × String × Machine :=
  (m.stdout, m.stderr, { m with stdout := "", stderr := "" })

end ScriptMachine.Machine
