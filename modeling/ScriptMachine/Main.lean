import ScriptMachine.Program

/-!
# ScriptMachine.Main — the command

Everything is decided by `Program`; here files and input are read and the output is written. The
machine sees files as a function, so a run that asks for a file not read yet is repeated once the
file is known.
-/

namespace ScriptMachine.Command

/-- The files read so far. -/
abbrev KnownFiles := List (String × Except FileError String)

/-- What the machine sees of the files read so far. -/
def KnownFiles.files (known : KnownFiles) : Files :=
  ⟨fun path => (known.lookup path).getD (.error .notFound)⟩

/-- The number of a system error, which some calls report negated. -/
def errorNumber (code : UInt32) : UInt32 :=
  if code < 0x80000000 then code else 0 - code

/-- Why the system could not read a file. -/
def fileErrorOf : IO.Error → FileError
  | .inappropriateType _ code _ =>
    if errorNumber code = 20 then .notDirectory else .isDirectory
  | .permissionDenied .. => .accessDenied
  | _ => .notFound

/-- Reads a file. -/
def readSource (path : String) : IO (Except FileError String) := do
  try
    let bytes ← IO.FS.readBinFile path
    match String.fromUTF8? bytes with
    | some text => return .ok text
    | none => return .error .notText
  catch e => return .error (fileErrorOf e)

/-- Repeats a run until every file it asks for is known. -/
partial def withFiles (run : Files → Nat × Machine) (known : KnownFiles) :
    IO (Nat × Machine × KnownFiles) := do
  let (code, m) := run known.files
  let missing := m.loads.eraseDups.filter fun path => (known.lookup path).isNone
  if missing.isEmpty then return (code, m, known)
  else
    let read ← missing.mapM fun path => return (path, ← readSource path)
    withFiles run (known ++ read)

/-- Writes the output of a machine, which then has none. -/
def writeOutput (m : Machine) : IO Machine := do
  let (out, err, m) := m.takeOutput
  let stdout ← IO.getStdout
  stdout.putStr out
  stdout.flush
  let stderr ← IO.getStderr
  stderr.putStr err
  stderr.flush
  return m

/-- The bytes of the input up to the end of a line. -/
partial def readLine (input : IO.FS.Stream) (line : ByteArray) : IO ByteArray := do
  let b ← input.read 1
  if b.isEmpty then return line
  else if b.get! 0 = 10 then return line ++ b
  else readLine input (line ++ b)

/-- Runs the lines of the input as they come. -/
partial def serveLines (setup : Program.Setup) (o : CommandLine.Options) (m : Machine)
    (known : KnownFiles) : IO UInt32 := do
  let line ← readLine (← IO.getStdin) ByteArray.empty
  if line.isEmpty then return 0
  else
    let run (files : Files) : Nat × Machine :=
      Program.runLines setup o (Program.inputLines line.toList) { m with files }
    let (code, m, known) ← withFiles run known
    let m ← writeOutput m
    if code = 0 then serveLines setup o m known else return UInt32.ofNat code

/-- Runs what the options say. -/
def runCommand (setup : Program.Setup) (o : CommandLine.Options) : IO UInt32 := do
  match o.code, o.file with
  | none, none => serveLines setup o (Machine.new (Program.configOf o) default) []
  | _, _ =>
    let known ← o.file.toList.mapM fun path => return (path, ← readSource path)
    let run (files : Files) : Nat × Machine :=
      Program.runOptions setup o [] (Machine.new (Program.configOf o) files)
    let (code, m, _) ← withFiles run known
    discard (writeOutput m)
    return UInt32.ofNat code

end ScriptMachine.Command

open ScriptMachine in
/-- The command. -/
def main (args : List String) : IO UInt32 := do
  let colored := (← IO.getEnv "NO_COLOR").isNone && (← (← IO.getStderr).isTty)
  match CommandLine.parse args with
  | .ok o => Command.runCommand { fuel := Nat.pow 2 62, colored } o
  | .error e =>
    let r := Program.refused e
    (← IO.getStdout).putStr r.stdout
    (← IO.getStderr).putStr r.stderr
    return UInt32.ofNat r.status
