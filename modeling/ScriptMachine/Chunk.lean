import ScriptMachine.Bisect
import ScriptMachine.Instruction

/-!
# ScriptMachine.Chunk — code, constants and lines of one function

A chunk is what a function compiles to: its code bytes, the constants the code refers to by index,
and the source line of every byte, kept as runs `(first offset, line)`. Three more notes tell what the
code was written for, and nothing that runs depends on them: how many locals are declared where an
instruction starts, in which slot a handler finds its error, and which instructions the bytes were
meant to be. In these the operands are whole numbers: a byte or two of the code may not hold all of
such a number.
-/

namespace ScriptMachine

/-- The compiled form of a function body. `scopes` has the offset of each instruction and the number
of locals declared there; `catches` has the offset where each handler starts and the slot of its
error variable; `meant` has each instruction with its offset, as it was before it became bytes. -/
structure Chunk where
  code : Array UInt8
  constants : Array Value
  lines : Array (Nat × Nat)
  scopes : Array (Nat × Nat)
  catches : Array (Nat × Nat)
  meant : Array (Nat × Instruction)
deriving Inhabited

namespace Chunk

/-- The chunk without code. -/
def empty : Chunk :=
  ⟨#[], #[], #[], #[], #[], #[]⟩

/-- Constant indices are two bytes wide. -/
def maxConstants : Nat := 65536

/-- How many code bytes there are. -/
def size (c : Chunk) : Nat :=
  c.code.size

/-- The line runs after one more byte at `offset`: a run is opened only when the line changes. -/
def linesWith (lines : Array (Nat × Nat)) (offset line : Nat) : Array (Nat × Nat) :=
  match lines.back? with
  | some (_, last) => if last = line then lines else lines.push (offset, line)
  | none => lines.push (offset, line)

/-- One more code byte, from a source line. -/
def write (c : Chunk) (byte : UInt8) (line : Nat) : Chunk :=
  let lines := linesWith c.lines c.code.size line
  { c with lines, code := c.code.push byte }

/-- The bytes of an instruction, from a source line. -/
def emit (c : Chunk) (i : Instruction) (line : Nat) : Chunk :=
  i.encode.foldl (fun c b => c.write b line) c

/-- The next instruction stands where so many locals are declared. -/
def noteScope (c : Chunk) (locals : Nat) : Chunk :=
  { c with scopes := c.scopes.push (c.size, locals) }

/-- A handler starts here, with its error in a slot. -/
def noteCatch (c : Chunk) (slot : Nat) : Chunk :=
  { c with catches := c.catches.push (c.size, slot) }

/-- The next instruction is meant to be this one. -/
def noteMeant (c : Chunk) (i : Instruction) : Chunk :=
  { c with meant := c.meant.push (c.size, i) }

/-- The jump whose operand is at `place` is meant to go so far. -/
def noteDistance (c : Chunk) (place distance : Nat) : Chunk :=
  { c with
    meant := match Bisect.search Prod.fst c.meant (place - 1) with
      | .present i => c.meant.modify i fun e => (e.1, { e.2 with first := distance })
      | .absent _ => c.meant }

/-- Is the index space of the constants exhausted? -/
def isFull (c : Chunk) : Bool :=
  maxConstants ≤ c.constants.size

/-- One more constant. -/
def pushConstant (c : Chunk) (v : Value) : Chunk :=
  { c with constants := c.constants.push v }

/-- One more constant and its index, or `none` when the index space is exhausted. -/
def addConstant? (c : Chunk) (v : Value) : Option (Nat × Chunk) :=
  if c.isFull then none else some (c.constants.size, c.pushConstant v)

/-- Some bytes written over others from an offset on. -/
def overwrite (code : Array UInt8) (offset : Nat) : List UInt8 → Array UInt8
  | [] => code
  | b :: bytes => overwrite (code.setIfInBounds offset b) (offset + 1) bytes

/-- Overwrites code bytes from an offset on; the lines stay. -/
def patch (c : Chunk) (offset : Nat) (bytes : List UInt8) : Chunk :=
  { c with code := overwrite c.code offset bytes }

/-- What is meant to stand at an offset in place of a load. -/
def blanks (offset : Nat) : Array (Nat × Instruction) :=
  #[(offset, .make .pushNull 0 0), (offset + 1, .make .nop 0 0), (offset + 2, .make .nop 0 0)]

/-- The load at an offset is blanked out: it loads nothing. -/
def blank (c : Chunk) (offset : Nat) : Chunk :=
  let meant := c.meant.flatMap fun e => if e.1 = offset then blanks offset else #[e]
  { c with meant }.patch offset [Operation.pushNull.code, Operation.nop.code, Operation.nop.code]

/-- The line of the run that holds an offset: of the one that starts there, else of the one before
the place where a run that starts there would be. -/
def lineIn (lines : Array (Nat × Nat)) (offset : Nat) : Nat :=
  match Bisect.search Prod.fst lines offset with
  | .present i => lines[i].2
  | .absent ⟨0, _⟩ => 0
  | .absent ⟨i + 1, h⟩ =>
    have hi : i < lines.size := Nat.lt_of_succ_lt_succ h
    lines[i].2

/-- The source line of the byte at an offset. -/
def lineAt (c : Chunk) (offset : Nat) : Nat :=
  lineIn c.lines offset

/-- How many locals are declared at an offset: as many as at the last instruction that starts at or
before it. -/
def scopeAt (c : Chunk) (offset : Nat) : Nat :=
  match c.scopes.findRev? (fun (start, _) => start ≤ offset) with
  | some (_, locals) => locals
  | none => 0

/-- The constant with an index. -/
def constant? (c : Chunk) (index : Nat) : Option Value :=
  c.constants[index]?

end Chunk

end ScriptMachine
