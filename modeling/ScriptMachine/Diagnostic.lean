import ScriptMachine.Machine.State
import ScriptMachine.Text.Lines
import ScriptMachine.Text.Quoted

/-!
# ScriptMachine.Diagnostic — errors as they are reported

A diagnostic is an error with what is known about its place. It is written for people, with the
source line it points at and with colours if wanted, or as one line of JSON whose keys are sorted
and which leaves out what is not known.
-/

namespace ScriptMachine

/-- When an error arose. -/
inductive Phase where
  | compile
  | runtime
deriving Repr, DecidableEq, Inhabited

/-- The name of a phase. -/
def Phase.name : Phase → String
  | .compile => "compile"
  | .runtime => "runtime"

/-- An error with what is known about its place. -/
structure Diagnostic where
  phase : Phase
  message : String
  line : Option Nat := none
  location : String := ""
  path : Option String := none
  notes : List String := []
  source : Option String := none
deriving Repr, DecidableEq, Inhabited

namespace Diagnostic

/-- The diagnostic of a compile error. -/
def ofCompileError (e : CompileError) : Diagnostic :=
  { phase := .compile, message := e.message, line := some e.line,
    location := Text.trim e.place.text }

/-- The diagnostic of a runtime error; its notes are the trace. -/
def ofRuntimeError (e : RuntimeError) : Diagnostic :=
  { phase := .runtime, message := e.message, line := e.line, notes := e.trace }

/-- The diagnostics of the errors a run ended with. -/
def ofOutcome : Outcome → List Diagnostic
  | .compileErrors errors => errors.toList.map ofCompileError
  | .runtimeError e => [ofRuntimeError e]
  | _ => []

/-- The diagnostic with the path and the text of the file it is about. -/
def inFile (d : Diagnostic) (path source : String) : Diagnostic :=
  { d with path := some path, source := some source }

/-! ## For people -/

/-- Puts a text in a terminal style, if styles are wanted. -/
def styled (colored : Bool) (style text : String) : String :=
  if colored then "\x1b[" ++ style ++ "m" ++ text ++ "\x1b[0m" else text

/-- The message with its place. -/
def headline (d : Diagnostic) : String :=
  if d.location.isEmpty then d.message else d.message ++ " (" ++ d.location ++ ")"

/-- The source line a diagnostic points at, between two bars. -/
def excerpt (colored : Bool) (source : String) (line : Nat) : String :=
  let number := toString line
  let bar := styled colored "36" "|"
  let pad := String.ofList (List.replicate number.length ' ')
  pad ++ " " ++ bar ++ "\n"
    ++ styled colored "36" number ++ " " ++ bar ++ " " ++ Text.lineText source line ++ "\n"
    ++ pad ++ " " ++ bar ++ "\n"

/-- Where a diagnostic points. -/
def pointer (colored : Bool) (d : Diagnostic) : String :=
  match d.line with
  | none => ""
  | some line =>
    "  " ++ styled colored "36" "-->" ++ " "
      ++ d.path.getD "<input>" ++ ":" ++ toString line ++ "\n"
      ++ d.source.elim "" fun source => excerpt colored source line

/-- **`render colored d`** — a diagnostic for people. -/
def render (colored : Bool) (d : Diagnostic) : String :=
  styled colored "1;31" (d.phase.name ++ " error") ++ ": " ++ styled colored "1" d.headline ++ "\n"
    ++ d.pointer colored
    ++ String.join (d.notes.map fun note => "  " ++ styled colored "2" "=" ++ " " ++ note ++ "\n")

/-! ## For programs -/

/-- The known parts of a diagnostic, by their keys in ascending order. -/
def fields (d : Diagnostic) : List (String × String) :=
  (d.line.map fun n => ("line", toString n)).toList
    ++ (if d.location.isEmpty then [] else [("location", Text.quoted d.location)])
    ++ [("message", Text.quoted d.message),
        ("notes", "[" ++ String.intercalate "," (d.notes.map Text.quoted) ++ "]")]
    ++ (d.path.map fun p => ("path", Text.quoted p)).toList
    ++ [("phase", Text.quoted d.phase.name), ("severity", Text.quoted "error")]

/-- **`json d`** — a diagnostic as a JSON object on one line. -/
def json (d : Diagnostic) : String :=
  "\x7b" ++ String.intercalate "," (d.fields.map fun (k, v) => Text.quoted k ++ ":" ++ v) ++ "\x7d"

end Diagnostic

end ScriptMachine
