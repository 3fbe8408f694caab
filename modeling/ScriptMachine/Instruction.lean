import ScriptMachine.Value

/-!
# ScriptMachine.Instruction — the instruction set and its byte encoding

An instruction is an operation with up to two operands; building a closure also lists the variables
it captures. The *shape* of an operation fixes the operands and their widths (one byte, or two bytes
most significant first), and both directions of the encoding, the machine and the listings read it
from here: `encode` writes the bytes, `decode?` reads them back, `width` is how many there are.
-/

namespace ScriptMachine

/-- The operations, in the order of their byte codes. -/
inductive Operation where
  | constant | pushNull | pushTrue | pushFalse | concat | range | pop | replPop | getLocal
  | setLocal | getGlobal | defineGlobal | defineGlobalForced | setGlobal | getUpvalue | setUpvalue
  | getProperty | getPropertyNoPop | setProperty | getSuper | equal | greater | less | add
  | subtract | multiply | divide | modulo | power | inc | dec | shiftLeft | shiftRight
  | bitwiseAnd | bitwiseOr | contains | isType | not | negate | jump | jumpIfFalse | loop | dup
  | importFile | requireFile | newList | addList | newDict | addDict | subscript | subscriptAssign
  | call | invoke | superInvoke | closure | closeUpvalue | ret | classDef | inherit | method
  | member | extend | enumDef | spawn | awaitTask | abortTask | tryBegin | tryEnd | nop
deriving Repr, DecidableEq, Inhabited

/-- How the operands of an operation are laid out. -/
inductive Shape where
  | plain
  | byte
  | word
  | byteWord
  | wordByte
  | twoWords
  | captures
deriving Repr, DecidableEq

namespace Operation

/-- The operations by byte code. -/
def all : Array Operation :=
  #[
    .constant, .pushNull, .pushTrue, .pushFalse, .concat, .range, .pop, .replPop, .getLocal,
    .setLocal, .getGlobal, .defineGlobal, .defineGlobalForced, .setGlobal, .getUpvalue,
    .setUpvalue, .getProperty, .getPropertyNoPop, .setProperty, .getSuper, .equal, .greater,
    .less, .add, .subtract, .multiply, .divide, .modulo, .power, .inc, .dec, .shiftLeft,
    .shiftRight, .bitwiseAnd, .bitwiseOr, .contains, .isType, .not, .negate, .jump, .jumpIfFalse,
    .loop, .dup, .importFile, .requireFile, .newList, .addList, .newDict, .addDict, .subscript,
    .subscriptAssign, .call, .invoke, .superInvoke, .closure, .closeUpvalue, .ret, .classDef,
    .inherit, .method, .member, .extend, .enumDef, .spawn, .awaitTask, .abortTask, .tryBegin,
    .tryEnd, .nop]

/-- The byte code of an operation. -/
def code (op : Operation) : UInt8 :=
  UInt8.ofNat op.ctorIdx

/-- The operation with a byte code. -/
def ofCode? (b : UInt8) : Option Operation :=
  all[b.toNat]?

/-- The name of an operation in listings. -/
def name : Operation → String
  | .constant => "CONSTANT"
  | .pushNull => "NULL"
  | .pushTrue => "TRUE"
  | .pushFalse => "FALSE"
  | .concat => "STRING"
  | .range => "EXPAND"
  | .pop => "POP"
  | .replPop => "REPL_POP"
  | .getLocal => "GET_LOCAL"
  | .setLocal => "SET_LOCAL"
  | .getGlobal => "GET_GLOBAL"
  | .defineGlobal => "DEFINE_GLOBAL"
  | .defineGlobalForced => "DEFINE_GLOBAL_FORCED"
  | .setGlobal => "SET_GLOBAL"
  | .getUpvalue => "GET_UPVALUE"
  | .setUpvalue => "SET_UPVALUE"
  | .getProperty => "GET_PROPERTY"
  | .getPropertyNoPop => "GET_PROPERTY_NO_POP"
  | .setProperty => "SET_PROPERTY"
  | .getSuper => "GET_SUPER"
  | .equal => "EQUAL"
  | .greater => "GREATER"
  | .less => "LESS"
  | .add => "ADD"
  | .subtract => "SUBTRACT"
  | .multiply => "MULTIPLY"
  | .divide => "DIVIDE"
  | .modulo => "MOD"
  | .power => "POW"
  | .inc => "INC"
  | .dec => "DEC"
  | .shiftLeft => "SHIFT_LEFT"
  | .shiftRight => "SHIFT_RIGHT"
  | .bitwiseAnd => "BITWISE_AND"
  | .bitwiseOr => "BITWISE_OR"
  | .contains => "IN"
  | .isType => "IS"
  | .not => "NOT"
  | .negate => "NEGATE"
  | .jump => "JUMP"
  | .jumpIfFalse => "JUMP_IF_FALSE"
  | .loop => "LOOP"
  | .dup => "DUP"
  | .importFile => "IMPORT"
  | .requireFile => "REQUIRE"
  | .newList => "NEW_LIST"
  | .addList => "ADD_LIST"
  | .newDict => "NEW_DICT"
  | .addDict => "ADD_DICT"
  | .subscript => "SUBSCRIPT"
  | .subscriptAssign => "SUBSCRIPT_ASSIGN"
  | .call => "CALL"
  | .invoke => "INVOKE"
  | .superInvoke => "SUPER"
  | .closure => "CLOSURE"
  | .closeUpvalue => "CLOSE_UPVALUE"
  | .ret => "RETURN"
  | .classDef => "CLASS"
  | .inherit => "INHERIT"
  | .method => "METHOD"
  | .member => "PROPERTY"
  | .extend => "EXTENSION"
  | .enumDef => "ENUM"
  | .spawn => "ASYNC"
  | .awaitTask => "AWAIT"
  | .abortTask => "ABORT"
  | .tryBegin => "TRY"
  | .tryEnd => "CLOSE_TRY"
  | .nop => "NOP"

/-- The operand layout of an operation. -/
def shape : Operation → Shape
  | .constant | .concat | .getLocal | .setLocal | .getGlobal | .defineGlobal | .defineGlobalForced
  | .setGlobal | .getUpvalue | .setUpvalue | .getProperty | .getPropertyNoPop | .setProperty
  | .getSuper | .jump | .jumpIfFalse | .loop | .classDef | .method | .enumDef | .tryBegin
  | .tryEnd => .word
  | .range | .add | .subtract | .multiply | .divide | .modulo | .power | .call => .byte
  | .invoke | .superInvoke | .isType => .byteWord
  | .member => .wordByte
  | .extend => .twoWords
  | .closure => .captures
  | _ => .plain

end Operation

/-- A captured variable: a slot of the enclosing activation, or one of its own captures. -/
structure Capture where
  isLocal : Bool
  index : Nat
deriving Repr, DecidableEq, Inhabited

/-- An instruction. An operand that the shape of the operation lacks is zero. -/
structure Instruction where
  op : Operation
  first : Nat
  second : Nat
  captures : List Capture
deriving Repr, DecidableEq, Inhabited

namespace Instruction

/-- The instruction of an operation with its operands. -/
def make (op : Operation) (first second : Nat) : Instruction :=
  ⟨op, first, second, []⟩

/-- How many bytes an operand layout takes, the operation byte included. -/
def shapeWidth : Shape → Nat
  | .plain => 1
  | .byte => 2
  | .word | .captures => 3
  | .byteWord | .wordByte => 4
  | .twoWords => 5

/-- How many bytes the instruction takes. -/
def width (i : Instruction) : Nat :=
  shapeWidth i.op.shape + 3 * i.captures.length

/-- The two bytes of an operand, most significant first. -/
def wordBytes (n : Nat) : List UInt8 :=
  [UInt8.ofNat (n / 256), UInt8.ofNat n]

/-- The three bytes of a captured variable. -/
def captureBytes (c : Capture) : List UInt8 :=
  (if c.isLocal then 1 else 0) :: wordBytes c.index

/-- The bytes of the operands. -/
def operandBytes (i : Instruction) : List UInt8 :=
  match i.op.shape with
  | .plain => []
  | .byte => [UInt8.ofNat i.first]
  | .word => wordBytes i.first
  | .byteWord => UInt8.ofNat i.first :: wordBytes i.second
  | .wordByte => wordBytes i.first ++ [UInt8.ofNat i.second]
  | .twoWords => wordBytes i.first ++ wordBytes i.second
  | .captures => wordBytes i.first ++ i.captures.flatMap captureBytes

/-- **`encode i`** — the bytes of an instruction. -/
def encode (i : Instruction) : List UInt8 :=
  i.op.code :: i.operandBytes

/-- The byte at an offset; zero past the end. -/
def byteAt (code : Array UInt8) (offset : Nat) : Nat :=
  (code.getD offset 0).toNat

/-- The two-byte number at an offset. -/
def wordAt (code : Array UInt8) (offset : Nat) : Nat :=
  byteAt code offset * 256 + byteAt code (offset + 1)

/-- The captured variables listed from an offset on. -/
def capturesAt (code : Array UInt8) (offset : Nat) (count : Nat) : List Capture :=
  (List.range count).map fun k =>
    ⟨byteAt code (offset + 3 * k) == 1, wordAt code (offset + 3 * k + 1)⟩

/-- **`decode? code captureCount offset`** — the instruction at an offset; `captureCount` tells how
many variables the function with a constant index captures. `none` for an unknown byte code. -/
def decode? (code : Array UInt8) (captureCount : Nat → Nat) (offset : Nat) : Option Instruction :=
  match Operation.ofCode? (code.getD offset 255) with
  | none => none
  | some op => some <|
    match op.shape with
    | .plain => make op 0 0
    | .byte => make op (byteAt code (offset + 1)) 0
    | .word => make op (wordAt code (offset + 1)) 0
    | .byteWord => make op (byteAt code (offset + 1)) (wordAt code (offset + 2))
    | .wordByte => make op (wordAt code (offset + 1)) (byteAt code (offset + 3))
    | .twoWords => make op (wordAt code (offset + 1)) (wordAt code (offset + 3))
    | .captures =>
      let index := wordAt code (offset + 1)
      ⟨op, index, 0, capturesAt code (offset + 3) (captureCount index)⟩

end Instruction

end ScriptMachine
