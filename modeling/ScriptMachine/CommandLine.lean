/-!
# ScriptMachine.CommandLine — what the arguments ask for

The first plain argument is the script, the ones after it are the script's own. Options are
recognized until the first of the script's arguments, or until `--`. Before the script is named an
unknown option is an error; afterwards it is the first of the script's arguments.
-/

namespace ScriptMachine.CommandLine

/-- What to run, and how. -/
structure Options where
  file : Option String := none
  args : List String := []
  code : Option String := none
  json : Bool := false
  disassemble : Bool := false
  trace : Bool := false
  logCollections : Bool := false
  threshold : Option Nat := none
  searchPaths : List String := []
deriving Repr, DecidableEq, Inhabited

/-- The options without a value. -/
inductive Switch where
  | json | disassemble | trace | logCollections | help | version
deriving Repr, DecidableEq, Inhabited

/-- The options with a value. -/
inductive Setting where
  | code | threshold | searchPath
deriving Repr, DecidableEq, Inhabited

/-- An option. -/
inductive Flag where
  | switch (s : Switch)
  | setting (s : Setting)
deriving Repr, DecidableEq, Inhabited

/-- The option with a long name. -/
def Flag.ofLong? : String → Option Flag
  | "json" => some (.switch .json)
  | "disassemble" => some (.switch .disassemble)
  | "trace" => some (.switch .trace)
  | "gc-log" => some (.switch .logCollections)
  | "help" => some (.switch .help)
  | "version" => some (.switch .version)
  | "eval" => some (.setting .code)
  | "gc-threshold" => some (.setting .threshold)
  | "include" => some (.setting .searchPath)
  | _ => none

/-- The option with a short name. -/
def Flag.ofShort? : Char → Option Flag
  | 'h' => some (.switch .help)
  | 'V' => some (.switch .version)
  | 'e' => some (.setting .code)
  | 'I' => some (.setting .searchPath)
  | _ => none

/-- Why no options come out: a text was asked for, or the arguments are wrong. -/
inductive Refusal where
  | help
  | version
  | unexpected (arg : String)
  | repeated (arg : String)
  | valueMissing
  | valueUnneeded (arg : String)
  | valueInvalid (value : String)
deriving Repr, DecidableEq, Inhabited

/-- What is known after some arguments: the options, the setting that waits for its value, and
whether all that follows is plain. -/
structure Progress where
  options : Options := {}
  waiting : Option Setting := none
  plainOnly : Bool := false
deriving Repr, DecidableEq, Inhabited

/-- A number of bytes. -/
def byteCount? (s : String) : Option Nat :=
  let digits :=
    match s.toList with
    | '+' :: rest => rest
    | cs => cs
  if digits.isEmpty || !digits.all Char.isDigit then none
  else
    let n := digits.foldl (fun n c => 10 * n + (c.toNat - '0'.toNat)) 0
    if n < Nat.pow 2 64 then some n else none

/-- The options with a setting; all but search paths are set once. -/
def Options.set (o : Options) (s : Setting) (value : String) : Except Refusal Options :=
  match s with
  | .code =>
    if o.code.isSome then .error (.repeated "--eval") else .ok { o with code := some value }
  | .threshold =>
    match byteCount? value with
    | none => .error (.valueInvalid value)
    | some n =>
      if o.threshold.isSome then .error (.repeated "--gc-threshold")
      else .ok { o with threshold := some n }
  | .searchPath =>
    if value.isEmpty then .error (.valueInvalid value)
    else .ok { o with searchPaths := o.searchPaths ++ [value] }

/-- The options with a switch on, which must not be on yet. -/
def Options.turnOn (o : Options) (s : Switch) : Except Refusal Options :=
  match s with
  | .help => .error .help
  | .version => .error .version
  | .json => if o.json then .error (.repeated "--json") else .ok { o with json := true }
  | .disassemble =>
    if o.disassemble then .error (.repeated "--disassemble") else .ok { o with disassemble := true }
  | .trace => if o.trace then .error (.repeated "--trace") else .ok { o with trace := true }
  | .logCollections =>
    if o.logCollections then .error (.repeated "--gc-log")
    else .ok { o with logCollections := true }

namespace Progress

/-- Refuses to go on while a setting waits for its value. -/
def settled (p : Progress) : Except Refusal Progress :=
  if p.waiting.isSome then .error .valueMissing else .ok p

/-- A plain argument: the script, or one of its arguments, after which all are plain. -/
def plain (p : Progress) (arg : String) : Except Refusal Progress :=
  match p.options.file with
  | none =>
    if arg.isEmpty then .error (.valueInvalid arg)
    else .ok { p with options := { p.options with file := some arg } }
  | some _ =>
    .ok { p with options := { p.options with args := p.options.args ++ [arg] }, plainOnly := true }

/-- A setting gets its value. -/
def give (p : Progress) (s : Setting) (value : String) : Except Refusal Progress := do
  return { p with options := ← p.options.set s value, waiting := none }

/-- An argument that is no option: the value a setting waits for, or a plain argument. -/
def value (p : Progress) (arg : String) : Except Refusal Progress :=
  match p.waiting with
  | some s => p.give s arg
  | none => p.plain arg

/-- An option, with the value attached to it. -/
def flag (p : Progress) (arg : String) (attached : Option String) : Flag → Except Refusal Progress
  | .switch s => do
    let p ← p.settled
    if attached.isSome then throw (.valueUnneeded arg)
    return { p with options := ← p.options.turnOn s }
  | .setting s => do
    let p ← p.settled
    match attached with
    | some v => p.give s v
    | none => return { p with waiting := some s }

/-- An argument that starts with two hyphens. -/
def long (p : Progress) (arg : String) : Except Refusal Progress :=
  let (name, rest) := (arg.toList.drop 2).span (· != '=')
  let attached := if rest.isEmpty then none else some (String.ofList (rest.drop 1))
  match Flag.ofLong? (String.ofList name) with
  | some f => p.flag arg attached f
  | none =>
    if p.options.file.isSome && !name.isEmpty then p.value arg else .error (.unexpected arg)

/-- A value attached to a short option, without its equals sign. -/
def attachedValue (rest : List Char) : Option String :=
  match rest with
  | [] => none
  | '=' :: value => some (String.ofList value)
  | value => some (String.ofList value)

/-- Short options in one argument; the rest of it is the value of the first that takes one. -/
def cluster (p : Progress) (arg : String) : List Char → Except Refusal Progress
  | [] => .ok p
  | c :: rest =>
    match Flag.ofShort? c with
    | none => .error (.unexpected arg)
    | some (.switch s) => do cluster (← p.flag arg none (.switch s)) arg rest
    | some (.setting s) => p.flag arg (attachedValue rest) (.setting s)

/-- An argument that starts with one hyphen. After the script it is an option only if every letter
is one. -/
def short (p : Progress) (arg : String) : Except Refusal Progress :=
  let letters := arg.toList.drop 1
  if p.options.file.isSome && letters.any fun c => (Flag.ofShort? c).isNone then p.value arg
  else p.cluster arg letters

/-- One argument further. -/
def step (p : Progress) (arg : String) : Except Refusal Progress :=
  if p.plainOnly then p.plain arg
  else
    match arg.toList with
    | ['-', '-'] => do return { (← p.settled) with plainOnly := true }
    | '-' :: '-' :: _ => p.long arg
    | '-' :: _ :: _ => p.short arg
    | _ => p.value arg

end Progress

/-- **`parse args`** — the options of some arguments, or why there are none. -/
def parse (args : List String) : Except Refusal Options := do
  let p ← args.foldlM Progress.step {}
  return (← p.settled).options

/-- The version line. -/
def versionText : String := "cube 0.1.0\n"

/-- The help text. -/
def helpText : String :=
  "Run cube scripts, or start a REPL when no script is given\n\n"
    ++ "Usage: cube [OPTIONS] [FILE] [ARGS]...\n\n"
    ++ "Options:\n"
    ++ "  -e, --eval <CODE>           Run CODE instead of a file and print its result\n"
    ++ "      --json                  Report errors as JSON lines on stderr\n"
    ++ "      --disassemble           Print the compiled bytecode to stderr before running\n"
    ++ "      --trace                 Print each executed instruction and the stack to stderr\n"
    ++ "      --gc-log                Print a line to stderr for every garbage collection\n"
    ++ "      --gc-threshold <BYTES>  Bytes allocated before the first collection\n"
    ++ "  -I, --include <DIR>         Extra directory searched by `import` and `require`\n"
    ++ "  -h, --help                  Print help\n"
    ++ "  -V, --version               Print version\n"

/-- What is wrong with the arguments. -/
def Refusal.message : Refusal → String
  | .help | .version => ""
  | .unexpected arg => "unexpected argument '" ++ arg ++ "' found"
  | .repeated arg => "the argument '" ++ arg ++ "' cannot be used multiple times"
  | .valueMissing => "a value is required but none was supplied"
  | .valueUnneeded arg => "unexpected value in '" ++ arg ++ "'"
  | .valueInvalid v => "invalid value '" ++ v ++ "'"

end ScriptMachine.CommandLine
