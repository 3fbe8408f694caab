import ScriptMachine.CommandLine
import ScriptMachine.Diagnostic
import ScriptMachine.Machine

/-!
# ScriptMachine.Program — the program as a function

What the command does, as a function of its arguments, the files and the lines of its input: an exit
status and the two output texts. Without a script and without code it reads lines, runs each on the
same machine and shows the value of a line that is an expression.
-/

namespace ScriptMachine.Program

open CommandLine (Options Refusal)

/-- What a finished program leaves. -/
structure Result where
  status : Nat
  stdout : String
  stderr : String
deriving Repr, DecidableEq, Inhabited

/-- How the program is run: how many turns of the machine's loop at most, and whether error reports
are coloured. -/
structure Setup where
  fuel : Nat
  colored : Bool
deriving Repr, DecidableEq, Inhabited

/-- The exit status when the input cannot be read. -/
def inputFailure : Nat := 74

/-- The exit status of an outcome. -/
def status : Outcome → Nat
  | .value _ => 0
  | .compileErrors _ => 65
  | .runtimeError _ => 70
  | .stuck | .unfinished => 101

/-- The machine's configuration. -/
def configOf (o : Options) : Config :=
  let heap : HeapConfig := { log := o.logCollections }
  { heap := { heap with threshold := o.threshold.getD heap.threshold }
    searchPaths := o.searchPaths
    trace := o.trace }

/-- The machine with more error output. -/
def complain (m : Machine) (text : String) : Machine :=
  { m with stderr := m.stderr ++ text }

/-- The machine with a value printed on a line. -/
def printValue (m : Machine) (v : Value) : Machine :=
  if v.isNone then m else { m with stdout := m.stdout ++ m.heap.display v ++ "\n" }

/-- The machine with the errors of an outcome reported. -/
def report (setup : Setup) (o : Options) (path source : String) (outcome : Outcome) (m : Machine) :
    Machine :=
  complain m <| String.join <| (Diagnostic.ofOutcome outcome).map fun d =>
    let d := d.inFile path source
    if o.json then d.json ++ "\n" else d.render setup.colored

/-- Runs a source text, after its listing if that is wanted. -/
def runText (setup : Setup) (o : Options) (source path : String) (showResult : Bool) (m : Machine) :
    Nat × Machine :=
  let run (m : Machine) : Nat × Machine :=
    let (outcome, m) := m.interpret setup.fuel source path
    let m :=
      match outcome with
      | .value v => if showResult then printValue m v else m
      | _ => report setup o path source outcome m
    (status outcome, m)
  if o.disassemble then
    match m.disassemble source path with
    | (.ok listing, m) => run (complain m listing)
    | (.error errors, m) =>
      let outcome := Outcome.compileErrors errors
      (status outcome, report setup o path source outcome m)
  else run m

/-- The name of the global that holds the latest answer. -/
def answerName : String := "__ans__"

/-- Runs a line of input and shows its answer. -/
def runLine (setup : Setup) (o : Options) (line : String) (m : Machine) : Machine :=
  if (Text.trim line).isEmpty then m
  else
    let m := m.defineGlobal answerName .none
    let (outcome, m) := m.interpret setup.fuel line "repl"
    match outcome with
    | .value _ =>
      let (answer, m) := m.global answerName
      printValue m (answer.getD .none)
    | _ => report setup o "repl" line outcome m

/-- The complaint about input that is no text. -/
def unreadableInput : String :=
  "Could not read input: " ++ FileError.notText.message ++ "\n"

/-- Runs lines of input, up to one that is no text. -/
def runLines (setup : Setup) (o : Options) : List (Option String) → Machine → Nat × Machine
  | [], m => (0, m)
  | none :: _, m => (inputFailure, complain m unreadableInput)
  | some line :: rest, m => runLines setup o rest (runLine setup o line m)

/-- The directory in which the imports of a script are looked for. -/
def scriptDirectory (file : String) : String :=
  let dir := Path.parent file
  if dir.isEmpty then "." else dir

/-- Runs a script file. -/
def runFile (setup : Setup) (o : Options) (file : String) (m : Machine) : Nat × Machine :=
  match m.files.read file with
  | .error e =>
    (inputFailure,
      complain m ("Could not open file \"" ++ file ++ "\": " ++ e.message ++ "\n"))
  | .ok source =>
    runText setup o source file false ((m.addPath (scriptDirectory file)).loadArgs o.args)

/-- Runs what the options say. -/
def runOptions (setup : Setup) (o : Options) (input : List (Option String)) (m : Machine) :
    Nat × Machine :=
  match o.code, o.file with
  | some code, _ => runText setup o code "<eval>" true (m.loadArgs (o.file.toList ++ o.args))
  | none, some file => runFile setup o file m
  | none, none => runLines setup o input m

/-- What the program answers to arguments without options. -/
def refused : Refusal → Result
  | .help => ⟨0, CommandLine.helpText, ""⟩
  | .version => ⟨0, CommandLine.versionText, ""⟩
  | e => ⟨2, "", "error: " ++ e.message ++ "\n\nFor more information, try '--help'.\n"⟩

/-- **`run setup args files input`** — what the program does. -/
def run (setup : Setup) (args : List String) (files : Files) (input : List (Option String)) :
    Result :=
  match CommandLine.parse args with
  | .error e => refused e
  | .ok o =>
    let (code, m) := runOptions setup o input (Machine.new (configOf o) files)
    ⟨code, m.stdout, m.stderr⟩

/-! ## Input -/

/-- A line of input: its text without the carriage return of a line ending, if it is text. -/
def decodeLine (ended : Bool) (bytes : List UInt8) : Option String :=
  let bytes :=
    match ended, bytes.reverse with
    | true, 13 :: rest => rest.reverse
    | _, _ => bytes
  String.fromUTF8? ⟨bytes.toArray⟩

/-- The lines of some bytes; `line` holds the open line backwards. -/
def linesFrom (line : List UInt8) : List UInt8 → List (Option String)
  | [] => if line.isEmpty then [] else [decodeLine false line.reverse]
  | b :: rest =>
    if b = 10 then decodeLine true line.reverse :: linesFrom [] rest else linesFrom (b :: line) rest

/-- **`inputLines bytes`** — the lines of the input; `none` for one that is no text. -/
def inputLines (bytes : List UInt8) : List (Option String) :=
  linesFrom [] bytes

end ScriptMachine.Program
