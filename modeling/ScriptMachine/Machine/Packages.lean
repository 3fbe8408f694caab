import ScriptMachine.Compiler
import ScriptMachine.Machine.Calls

/-!
# ScriptMachine.Machine.Packages — running other files

An import runs a file in a new package and binds the package where the import stands, before the
file runs; `as default` runs it in the current package instead. A require also runs a file in a new
package, and leaves that package as its value.
-/

namespace ScriptMachine.Exec

/-- The ending of source files. -/
def sourceEnding : String := ".cube"

/-- The places a file is looked for: its path, then below each search path. -/
def candidates (path : String) (searchPaths : List String) : List String :=
  path :: searchPaths.map fun dir => Path.join dir path

/-- The text of the first candidate that can be read. -/
def firstReadable? (files : Files) : List String → Option (String × String)
  | [] => none
  | path :: rest =>
    match files.read path with
    | .ok text => some (text, path)
    | .error _ => firstReadable? files rest

/-- The text of a file and the path it was found at. -/
def loadSource (path : String) : Exec (String × String) := do
  let m ← get
  let places := candidates path m.config.searchPaths
  modify fun m => { m with loads := m.loads ++ places }
  match firstReadable? m.files places with
  | some found => return found
  | none => throw (.cannotLoad path)

/-- A package without symbols. -/
def newPackage (name : String) (parent : Option Ref) : Exec Ref := do
  let name ← intern name
  alloc (.package { name, symbols := .empty, parent })

/-- Compiles a text into a script function. -/
def compileSource (source path : String) : Exec Ref := do
  match ← modifyGet fun m =>
    let (result, heap) := compile m.heap source path
    (result, { m with heap }) with
  | .ok script => return script
  | .error errors => throw (.uncompilable errors)

/-- Enters the body of a file. -/
def enterFile (source path : String) (package : Option Ref) (required : Bool) : Exec Unit := do
  guardDepth
  let prototype ← compileSource source path
  let p ← need ((← get).heap.prototype? prototype)
  let closure ← alloc (.closure ⟨prototype, #[], package⟩)
  push (.obj closure)
  enter { closure, chunk := p.chunk, ip := 0, base := (← height) - 1, package,
          kind := .package required, args := #[] }

/-- The name an import binds its package to; none for the current package. -/
def packageName? (h : Heap) (given : Value) (path : String) : Option String :=
  match h.textOf? given with
  | some "default" => none
  | some name => some name
  | none => some (Path.stem path)

/-- Runs the file below the alias on top. -/
def importFile : Exec Unit := do
  let given ← pop
  match (← get).heap.textOf? (← pop) with
  | none => throw .importPathNotString
  | some path =>
    let name? := packageName? (← heap) given path
    let (source, found) ← loadSource path
    let current := (← frame).package
    match name? with
    | none => enterFile source found current false
    | some name =>
      let package ← newPackage name current
      define (← key (← intern name)) (.obj package)
      enterFile source found (some package) false

/-- Runs the file on top, with the ending of source files if it has none. -/
def requireFile : Exec Unit := do
  match (← get).heap.textOf? (← pop) with
  | none => throw .requirePathNotString
  | some path =>
    let path := if path.endsWith sourceEnding then path else path ++ sourceEnding
    let (source, found) ← loadSource path
    let package ← newPackage (Path.stem path) (← frame).package
    enterFile source found (some package) true

end ScriptMachine.Exec
