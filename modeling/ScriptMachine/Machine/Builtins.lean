import ScriptMachine.Machine.Roots
import ScriptMachine.Text.Blank

/-!
# ScriptMachine.Machine.Builtins — the functions every program starts with

A builtin gets its arguments as a list; missing ones count as nothing. The time is the machine's
clock, and random numbers come from its seed.
-/

namespace ScriptMachine

namespace Builtin

/-- The builtins in the order in which they are defined, with their names. -/
def all : List (String × Builtin) :=
  [("print", .print), ("println", .println), ("len", .len), ("type", .type), ("str", .str),
   ("num", .num), ("int", .int), ("bool", .bool), ("clock", .clock), ("time", .time),
   ("wait", .wait), ("throw", .throw), ("gc", .gc), ("memory", .memory), ("rand", .rand),
   ("floor", .floor), ("ceil", .ceil), ("round", .round), ("sqrt", .sqrt), ("abs", .abs)]

end Builtin

namespace Exec

/-- The `i`-th argument. -/
def argument (args : Array Value) (i : Nat) : Value :=
  args.getD i .none

/-- The `i`-th argument as a number, for the function named. -/
def numberArgument (args : Array Value) (i : Nat) (function : String) : Exec Float := do
  match (← get).heap.numeric? (argument args i) with
  | some n => return n
  | none => throw (.expectsNumber function)

/-- The `i`-th argument as a text, for the function named. -/
def stringArgument (args : Array Value) (i : Nat) (function : String) : Exec String := do
  match (← get).heap.textOf? (argument args i) with
  | some s => return s
  | none => throw (.expectsString function)

/-- The texts of the arguments, one after the other. -/
def joined (args : Array Value) : Exec String :=
  return String.join (args.toList.map (← get).heap.display)

/-! ## Time and chance -/

/-- Nanoseconds as seconds. -/
def seconds (nanoseconds : Nat) : Float :=
  Float.ofNat nanoseconds / 1e9

/-- Seconds as nanoseconds; less than nothing, and no number at all, is nothing. -/
def nanoseconds (s : Float) : Nat :=
  if 0 < s then (Number.toIndex (s * 1e9 + 0.5)) else 0

/-- When the machine's clock started, in seconds of the calendar. -/
def epoch : Float := 1.75e9

/-- The next random word. -/
def randomWord : Exec UInt64 :=
  modifyGet fun m =>
    let seed : UInt64 := m.seed * 6364136223846793005 + 1442695040888963407
    let word : UInt64 := (seed ^^^ (seed >>> 33)) * 0xff51afd7ed558ccd
    (word ^^^ (word >>> 33), { m with seed })

/-- A random integer among the `count` from `low` on. -/
def randomFrom (low : Int) (count : Nat) : Exec Value := do
  return .number (Number.ofInteger (low + ((← randomWord).toNat % count : Nat)))

/-- A random number: a fraction, an integer below a bound, or one between two bounds. -/
def random (args : Array Value) : Exec Value := do
  match args.size with
  | 0 => return .number (Float.ofNat ((← randomWord) >>> 11).toNat / 9007199254740992.0)
  | 1 =>
    let n := Number.toInt64 (← numberArgument args 0 "rand")
    if n ≤ 0 then throw .boundNotPositive
    randomFrom 0 n.toNat
  | _ =>
    let a := Number.toInt64 (← numberArgument args 0 "rand")
    let b := Number.toInt64 (← numberArgument args 1 "rand")
    if b < a then throw .emptyRange
    randomFrom a (b - a + 1).toNat

/-- Puts the running fiber to sleep. When it wakes, the top of its stack becomes the time it slept.
-/
def sleep (s : Float) : Exec Unit :=
  modify fun m =>
    let deadline := m.clock + nanoseconds s
    { m with fiber := { m.fiber with state := .sleeping m.clock deadline } }

/-! ## Conversions -/

/-- How many elements, entries or characters a value has. -/
def lengthOf (v : Value) : Exec Nat := do
  match v with
  | .obj r =>
    match (← get).heap.get? r with
    | some (.list items) => return items.size
    | some (.dict d) => return d.size
    | some (.string s _) => return s.length
    | _ => throw .noLength
  | _ => throw .noLength

/-- A value as a number. -/
def toNumber (v : Value) : Exec Float := do
  let h ← heap
  match h.numeric? v, v with
  | some n, _ => return n
  | none, .bool b => return if b then 1 else 0
  | none, _ =>
    let text := h.display v
    match Decimal.read? (Text.trim text) with
    | some n => return n
    | none => throw (.notNumeral text)

/-! ## The builtins -/

/-- A function of one number. -/
def ofNumber (function : String) (f : Float → Float) (args : Array Value) : Exec Value := do
  return .number (f (← numberArgument args 0 function))

/-- **`runBuiltin b args`** — the result of a builtin. -/
def runBuiltin (b : Builtin) (args : Array Value) : Exec Value :=
  match b with
  | .print => do
    write (← joined args)
    return .none
  | .println => do
    write ((← joined args) ++ "\n")
    return .none
  | .len => do return .number (Float.ofNat (← lengthOf (argument args 0)))
  | .type => do internValue ((← get).heap.typeName (argument args 0))
  | .str => do internValue ((← get).heap.display (argument args 0))
  | .num => do return .number (← toNumber (argument args 0))
  | .int => do return .number (Number.integerPart (← toNumber (argument args 0)))
  | .bool => return .bool !(argument args 0).isFalsey
  | .clock => do return .number (seconds (← get).clock)
  | .time => do return .number (epoch + seconds (← get).clock)
  | .wait => do
    sleep (← numberArgument args 0 "wait")
    return .number 0
  | .throw => do throw (.raised (← joined args))
  | .gc => do
    let freed ← modifyGet Machine.collectGarbage
    return .number (Float.ofNat freed)
  | .memory => do return .number (Float.ofNat (← get).heap.bytes)
  | .rand => random args
  | .floor => ofNumber "floor" Float.floor args
  | .ceil => ofNumber "ceil" Float.ceil args
  | .round => ofNumber "round" Float.round args
  | .sqrt => ofNumber "sqrt" Float.sqrt args
  | .abs => ofNumber "abs" Float.abs args

/-- The result of a native function. -/
def runNative (n : Native) (args : Array Value) : Exec Value := do
  match n.body with
  | .builtin b => runBuiltin b args
  | .host f =>
    match f (← get).heap.display args.toList with
    | .ok v => return v
    | .error message => throw (.raised message)

end Exec

end ScriptMachine
