import ScriptMachine.Heap.Display

/-!
# ScriptMachine.Listing — listings of compiled code

A listing shows one instruction a line: its offset, its source line (a bar when the line is that of
the byte before), the operation and its operands. Offsets follow the same decoding as execution.
-/

namespace ScriptMachine

/-- A natural number in at least `width` columns, filled on the left. -/
def padLeft (fill : Char) (width : Nat) (n : Nat) : String :=
  let ds := Nat.toDigits 10 n
  String.ofList (List.replicate (width - ds.length) fill ++ ds)

/-- A text in at least `width` columns, filled on the right. -/
def padRight (width : Nat) (s : String) : String :=
  s ++ String.ofList (List.replicate (width - s.length) ' ')

namespace Chunk

/-- How many variables the function constant with an index captures. -/
def captureCount (c : Chunk) (h : Heap) (index : Nat) : Nat :=
  match c.constant? index with
  | some (.obj r) => ((h.prototype? r).map Prototype.captureCount).getD 0
  | _ => 0

/-- The instruction at an offset. -/
def instruction? (c : Chunk) (h : Heap) (offset : Nat) : Option Instruction :=
  Instruction.decode? c.code (c.captureCount h) offset

/-- The offset and line columns. -/
def margin (c : Chunk) (offset : Nat) : String :=
  let line := c.lineAt offset
  if 0 < offset && c.lineAt (offset - 1) == line then padLeft '0' 4 offset ++ "    | "
  else padLeft '0' 4 offset ++ " " ++ padLeft ' ' 4 line ++ " "

/-- A constant operand: its index and its text. -/
def constantText (c : Chunk) (h : Heap) (index : Nat) : String :=
  padLeft ' ' 4 index ++ " " ++ ((c.constant? index).map (h.showValue true)).getD "?"

/-- A captured variable on a line of its own. -/
def captureText (offset : Nat) (v : Capture) : String :=
  "\n" ++ padLeft '0' 4 offset ++ "      |   " ++ (if v.isLocal then "local " else "upvalue ")
    ++ toString v.index

/-- Where a branch goes: `tryBegin` shows its handler, `tryEnd` where it continues. -/
def target (offset : Nat) (i : Instruction) : Nat :=
  if i.op = .loop then offset + 3 - i.first else offset + 3 + i.first

/-- The operation and its operands. -/
def instructionText (c : Chunk) (h : Heap) (offset : Nat) (i : Instruction) : String :=
  let named (rest : String) : String := padRight 24 i.op.name ++ " " ++ rest
  match i.op with
  | .constant | .getGlobal | .defineGlobal | .defineGlobalForced | .setGlobal | .getProperty
  | .getPropertyNoPop | .setProperty | .getSuper | .classDef | .method | .enumDef =>
    named (c.constantText h i.first)
  | .getLocal | .setLocal | .getUpvalue | .setUpvalue | .concat
  | .add | .subtract | .multiply | .divide | .modulo | .power | .range | .call =>
    named (padLeft ' ' 4 i.first)
  | .jump | .jumpIfFalse | .tryBegin | .tryEnd | .loop =>
    named (padLeft ' ' 4 offset ++ " -> " ++ toString (target offset i))
  | .invoke | .superInvoke =>
    named (c.constantText h i.second) ++ " (" ++ toString i.first ++ " args)"
  | .member => named (c.constantText h i.first) ++ (if i.second == 1 then " static" else "")
  | .isType => (if i.first == 1 then "!" else "") ++ named (c.constantText h i.second)
  | .extend =>
    ((c.constant? i.first).map (h.showValue false)).getD "" ++ "."
      ++ named (c.constantText h i.second)
  | .closure =>
    named (c.constantText h i.first)
      ++ String.join (i.captures.mapIdx fun k v => captureText (offset + 3 + 3 * k) v)
  | op => op.name

/-- The line of a listing for the instruction at an offset, and the offset of the next one. -/
def listInstruction (c : Chunk) (h : Heap) (offset : Nat) : String × Nat :=
  match c.instruction? h offset with
  | some i => (c.margin offset ++ c.instructionText h offset i, offset + i.width)
  | none => (c.margin offset ++ "UNKNOWN", offset + 1)

/-- The lines of a listing from an offset on, at most `fuel` of them. -/
def listFrom (c : Chunk) (h : Heap) (fuel : Nat) (offset : Nat) (out : String) : String :=
  match fuel with
  | 0 => out
  | fuel + 1 =>
    if offset < c.size then
      let (line, next) := c.listInstruction h offset
      c.listFrom h fuel next (out ++ line ++ "\n")
    else out

/-- **`listing c h name`** — the listing of a chunk under a heading. -/
def listing (c : Chunk) (h : Heap) (name : String) : String :=
  c.listFrom h c.size 0 ("== " ++ name ++ " ==\n")

end Chunk

namespace Heap

/-- The functions among the constants of a function. -/
def nestedFunctions (h : Heap) (p : Prototype) : List Ref :=
  p.chunk.constants.toList.filterMap fun v =>
    match v with
    | .obj r => if (h.prototype? r).isSome then some r else none
    | _ => none

/-- The functions still to list and those nested in them, each before those nested in it. -/
def functionsFrom (h : Heap) (fuel : Nat) (pending : List Ref) (done : List Ref) : List Ref :=
  match fuel, pending with
  | fuel + 1, r :: rest =>
    match h.prototype? r with
    | some p => functionsFrom h fuel (h.nestedFunctions p ++ rest) (r :: done)
    | none => functionsFrom h fuel rest done
  | _, _ => done.reverse

/-- A function and every function nested in it, in the order of their constants. -/
def functionsOf (h : Heap) (script : Ref) : List Ref :=
  h.functionsFrom (h.cells.size + 1) [script] []

/-- **`listing h path script`** — the listing of a script and of every function nested in it. -/
def listing (h : Heap) (path : String) (script : Ref) : String :=
  String.join ((h.functionsOf script).map fun r =>
    match h.prototype? r with
    | some p => p.chunk.listing h ((p.name.map h.name).getD path)
    | none => "")

end Heap

end ScriptMachine
