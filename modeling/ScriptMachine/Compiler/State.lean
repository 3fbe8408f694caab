import ScriptMachine.Image
import ScriptMachine.Token.Lexer
import Std.Data.TreeMap

/-!
# ScriptMachine.Compiler.State — what the compiler carries along

The compiler goes through the tokens once and writes instructions as it recognizes them. Its state
is the token stream, the image made so far, the functions being compiled (innermost first), the
classes around the current place, the documentation comments and the errors. After an error nothing
more is reported until the compiler has found a place to go on from.
-/

namespace ScriptMachine

/-- Where a compile error points. -/
inductive ErrorPlace where
  | lexeme (text : String)
  | atEnd
  | unplaced
deriving Repr, DecidableEq, Inhabited

/-- The place as it stands in a message, with its leading blank. -/
def ErrorPlace.text : ErrorPlace → String
  | .lexeme t => " at '" ++ t ++ "'"
  | .atEnd => " at end"
  | .unplaced => ""

/-- An error in a source text. -/
structure CompileError where
  line : Nat
  place : ErrorPlace
  message : String
deriving Repr, DecidableEq, Inhabited

/-- The error as one line. -/
def CompileError.text (e : CompileError) : String :=
  "[line " ++ toString e.line ++ "] Error" ++ e.place.text ++ ": " ++ e.message

namespace Compiler

/-- What kind of function is being compiled. -/
inductive FunctionKind where
  | script
  | function
  | method
  | constructor
  | static
  | extension
deriving Repr, DecidableEq, Inhabited

/-- Has a function of this kind its receiver in slot zero? -/
def FunctionKind.hasReceiver : FunctionKind → Bool
  | .method | .constructor | .extension => true
  | _ => false

/-- A local variable; its depth is `none` while its first value is being compiled. -/
structure Local where
  name : String
  depth : Option Nat
  captured : Bool
deriving Repr, DecidableEq, Inhabited

/-- A loop around the current place, and the jumps that leave it. -/
structure Loop where
  start : Nat
  scopeDepth : Nat
  tryDepth : Nat
  breaks : Array Nat
deriving Repr, DecidableEq, Inhabited

/-- A function being compiled. -/
structure FunctionState where
  kind : FunctionKind
  name : Option String
  arity : Nat
  chunk : Chunk
  locals : Array Local
  captures : Array Capture
  scopeDepth : Nat
  loops : List Loop
  tryDepth : Nat
  argsPrologue : Option Nat
  argsUsed : Bool
  nameConstants : Std.TreeMap String Nat
  statements : List Landmark
  closures : List Landmark

instance : Inhabited FunctionState :=
  ⟨⟨.script, none, 0, Chunk.empty, #[], #[], 0, [], 0, none, false, ∅, [], []⟩⟩

/-- A function without code; slot zero is the receiver, if there is one. -/
def FunctionState.start (kind : FunctionKind) (name : Option String) : FunctionState :=
  let receiver := if kind.hasReceiver then "this" else ""
  { kind, name, arity := 0, chunk := Chunk.empty, locals := #[⟨receiver, some 0, false⟩],
    captures := #[], scopeDepth := 0, loops := [], tryDepth := 0, argsPrologue := none,
    argsUsed := false, nameConstants := ∅, statements := [], closures := [] }

/-- The compiler's state. `classes` tells of each class around the current place whether it has a
superclass; `budget` bounds the passes of any loop of the grammar, and `taken` counts the tokens
taken from the stream. `broken` is set by a step that would read or write out of range, take more
from a number than there is, or go on without end. -/
structure State where
  rest : List Token
  current : Token
  previous : Token
  image : Image
  path : Ref
  function : FunctionState
  enclosing : List FunctionState
  classes : List Bool
  docs : Array Documentation
  pendingDocs : Nat
  errors : Array CompileError
  panicking : Bool
  budget : Nat
  taken : Nat := 0
  broken : Bool := false
deriving Inhabited

end Compiler

/-- Compilation steps. -/
abbrev Compile := StateM Compiler.State

namespace Compiler

/-! ## What steps rely on -/

/-- The state is broken from here on unless `p` holds, which the next step relies on. -/
def demand (p : Prop) [Decidable p] : Compile Unit :=
  modify fun s => { s with broken := s.broken || !decide p }

/-- The end of a budget: what it was to bound would go on. -/
def exhausted : Compile Unit :=
  demand False

/-! ## Errors -/

/-- Records an error at a token, unless one is already being recovered from. -/
def State.errorAt (s : State) (t : Token) (message : String) : State :=
  if s.panicking then s
  else
    let place :=
      match t.kind with
      | .endOfText => .atEnd
      | k => if k.complaint?.isSome then .unplaced else .lexeme t.text
    { s with panicking := true, errors := s.errors.push ⟨t.line, place, message⟩ }

/-- An error at the token just consumed. -/
def error (message : String) : Compile Unit :=
  modify fun s => s.errorAt s.previous message

/-- An error at the token that comes next. -/
def errorAtCurrent (message : String) : Compile Unit :=
  modify fun s => s.errorAt s.current message

/-! ## Tokens -/

/-- The documentation comments that wait for a declaration get its line. -/
def State.settleDocs (s : State) (line : Nat) : State :=
  let first := s.docs.size - s.pendingDocs
  { s with
    docs := s.docs.mapIdx fun i d => if first ≤ i then { d with line } else d
    pendingDocs := 0
    broken := s.broken || !decide (s.pendingDocs ≤ s.docs.size) }

/-- Goes to the first token that is neither a complaint nor a comment, recording both. -/
def State.advanceIn (s : State) : List Token → State
  | [] => { s with rest := [] }
  | t :: rest =>
    let s := { s with current := t, taken := s.taken + 1 }
    match t.kind.complaint? with
    | some message => (s.errorAt t message).advanceIn rest
    | none =>
      if t.kind = .doc then
        let doc : Documentation := ⟨s.docs.size, t.line, documentationText t.text⟩
        { s with docs := s.docs.push doc, pendingDocs := s.pendingDocs + 1 }.advanceIn rest
      else
        let s := if s.pendingDocs = 0 then s else s.settleDocs t.line
        { s with rest }

/-- Consumes the current token. -/
def advance : Compile Unit :=
  modify fun s =>
    let rest := s.rest
    { s with previous := s.current }.advanceIn rest

/-- Is the current token of this kind? -/
def check (k : TokenKind) : Compile Bool :=
  return (← get).current.kind == k

/-- Is the text used up? -/
def atEnd : Compile Bool :=
  check .endOfText

/-- Consumes the current token if it is of this kind. -/
def accept (k : TokenKind) : Compile Bool := do
  if ← check k then
    advance
    return true
  else return false

/-- Consumes the current token if it is of one of these kinds. -/
def acceptAny : List TokenKind → Compile Bool
  | [] => return false
  | k :: ks => do
    if ← accept k then return true else acceptAny ks

/-- Consumes a token of this kind, or complains. -/
def expect (k : TokenKind) (message : String) : Compile Unit := do
  if ← check k then advance else errorAtCurrent message

/-- The kind of the current token. -/
def currentKind : Compile TokenKind :=
  return (← get).current.kind

/-- The kind of the token just consumed. -/
def previousKind : Compile TokenKind :=
  return (← get).previous.kind

/-- The text of the token just consumed. -/
def previousText : Compile String :=
  return (← get).previous.text

/-- The kind of the token after the current one, comments not counted. -/
def followingKind : Compile TokenKind :=
  return (((← get).rest.find? fun t => t.kind != .doc).map (·.kind)).getD .endOfText

/-- How many tokens have been taken from the stream. -/
def tokensTaken : Compile Nat :=
  return (← get).taken

/-- A pass of a loop consumes a token: more have been taken than before. -/
def demandProgress (before : Nat) : Compile Unit := do
  demand (before < (← tokensTaken))

/-- Runs `body` while it answers `true`, at most so many times; each time it consumes a token. -/
def repeatWhile (body : Compile Bool) : Nat → Compile Unit
  | 0 => exhausted
  | fuel + 1 => do
    let before ← tokensTaken
    if ← body then
      demandProgress before
      repeatWhile body fuel

/-- Runs `body` while it answers `true`. -/
def loop (body : Compile Bool) : Compile Unit := do
  repeatWhile body (← get).budget

/-- Does a token of this kind start something to go on from after an error? -/
def startsDeclaration : TokenKind → Bool
  | .kwClass | .kwEnum | .kwFunc | .kwStatic | .kwVar | .kwGlobal | .kwFor | .kwIf | .kwWhile
  | .kwReturn | .kwImport | .kwBreak | .kwAbort | .kwTry | .kwCatch | .kwPass => true
  | _ => false

/-- Skips tokens until a place to go on from: after a semicolon, or before a declaration. -/
def synchronize : Compile Unit := do
  modify fun s => { s with panicking := false }
  loop do
    if ← atEnd then return false
    if (← previousKind) == .semicolon then return false
    if startsDeclaration (← currentKind) then return false
    advance
    return true

/-! ## Emission -/

/-- Changes the function being compiled. -/
@[inline]
def modifyFunction (f : FunctionState → FunctionState) : Compile Unit :=
  modify fun s => { s with function := f s.function }

/-- Changes the code of the function being compiled. -/
@[inline]
def modifyChunk (f : Chunk → Chunk) : Compile Unit :=
  modifyFunction fun fs => { fs with chunk := f fs.chunk }

/-- Writes an instruction, which is meant to be `meant`, with the line of the token just consumed. -/
def emitAs (meant i : Instruction) : Compile Unit := do
  let line := (← get).previous.line
  modifyFunction fun fs =>
    { fs with chunk := ((fs.chunk.noteScope fs.locals.size).noteMeant meant).emit i line }

/-- Writes an instruction. -/
def emitInstruction (i : Instruction) : Compile Unit :=
  emitAs i i

/-- Writes an operation with its operands. -/
def emit (op : Operation) (first second : Nat := 0) : Compile Unit :=
  emitInstruction (.make op first second)

/-- How much code there is. -/
def codeSize : Compile Nat :=
  return (← get).function.chunk.size

/-- The return at the end of a function: constructors answer their receiver. -/
def emitReturn : Compile Unit := do
  if (← get).function.kind = .constructor then emit .getLocal 0 else emit .pushNull
  emit .ret

/-- The index of a new constant. -/
def makeConstant (v : Value) : Compile Nat := do
  let index := (← get).function.chunk.constants.size
  if (← get).function.chunk.isFull then error "Too many constants in one chunk."
  else modifyChunk (·.pushConstant v)
  return index

/-- Writes the load of a new constant. -/
def emitConstant (v : Value) : Compile Unit := do
  emit .constant (← makeConstant v)

/-- One more item of the image. -/
def addItem (item : Item) : Compile Ref :=
  modifyGet fun s => (⟨s.image.size⟩, { s with image := s.image.push item })

/-- The string object of a text. -/
def intern (text : String) : Compile Ref :=
  addItem (.text text)

/-- The constant index of a name, one per function. -/
def nameConstant (name : String) : Compile Nat := do
  let r ← intern name
  match (← get).function.nameConstants[name]? with
  | some index => return index
  | none =>
    let index ← makeConstant (.obj r)
    modifyFunction fun fs => { fs with nameConstants := fs.nameConstants.insert name index }
    return index

/-- Writes a jump whose distance is not known yet; answers where it is to be filled in. -/
def emitJump (op : Operation) : Compile Nat := do
  emit op 0xffff
  let size ← codeSize
  demand (2 ≤ size)
  return size - 2

/-- Makes the jump filled in at `offset` lead to the end of the code. -/
def patchJump (offset : Nat) : Compile Unit := do
  let size ← codeSize
  demand (offset + 2 ≤ size)
  let distance := size - offset - 2
  modifyChunk (·.noteDistance offset distance)
  if 0xffff < distance then error "Too much code to jump over."
  else modifyChunk fun c => c.patch offset (Instruction.wordBytes distance)

/-- Writes a jump back to `start`. -/
def emitLoop (start : Nat) : Compile Unit := do
  let size ← codeSize
  demand (start ≤ size + 1)
  let distance := size + 1 - start + 2
  if 0xffff < distance then error "Loop body too large."
  emit .loop distance

/-! ## Scopes and variables -/

/-- Most locals, and most captures, of one function. -/
def maxSlots : Nat := 65536

/-- Opens a scope. -/
def beginScope : Compile Unit :=
  modifyFunction fun fs => { fs with scopeDepth := fs.scopeDepth + 1 }

/-- Does a local end with the scopes deeper than `depth`? -/
def Local.isDeeperThan (depth : Nat) (l : Local) : Bool :=
  match l.depth with
  | some d => depth < d
  | none => true

/-- How a local leaves the stack. -/
def Local.discard (l : Local) : Operation :=
  if l.captured then .closeUpvalue else .pop

/-- The locals deeper than `depth`, innermost first. -/
def localsBeyond (depth : Nat) (locals : Array Local) : List Local :=
  locals.toList.reverse.takeWhile (·.isDeeperThan depth)

/-- Writes how the locals deeper than `depth` leave the stack. -/
def discardLocals (depth : Nat) : Compile Unit := do
  (localsBeyond depth (← get).function.locals).forM fun l => emit l.discard

/-- Closes a scope: its locals leave the stack. -/
def endScope : Compile Unit := do
  let scopes := (← get).function.scopeDepth
  demand (0 < scopes)
  let depth := scopes - 1
  modifyFunction fun fs => { fs with scopeDepth := depth }
  let leaving := localsBeyond depth (← get).function.locals
  leaving.forM fun l => emit l.discard
  modifyFunction fun fs => { fs with locals := fs.locals.shrink (fs.locals.size - leaving.length) }

/-- Adds a local that has no value yet. -/
def addLocal (name : String) : Compile Unit := do
  if maxSlots ≤ (← get).function.locals.size then error "Too many local variables in function."
  else modifyFunction fun fs => { fs with locals := fs.locals.push ⟨name, none, false⟩ }

/-- The latest local has its value from here on. -/
def markReady : Compile Unit :=
  modifyFunction fun fs =>
    if fs.scopeDepth = 0 then fs
    else
      let depth := fs.scopeDepth
      let last := fs.locals.size - 1
      { fs with locals := fs.locals.modify last fun l => { l with depth := some depth } }

/-- Adds a local whose value is already on the stack; answers its slot. -/
def addReadyLocal (name : String) : Compile Nat := do
  addLocal name
  markReady
  let count := (← get).function.locals.size
  demand (0 < count)
  return count - 1

/-- Declares a variable in the current scope; outside of all scopes it is global. -/
def declareVariable (name : String) : Compile Unit := do
  let fs := (← get).function
  if fs.scopeDepth ≠ 0 then
    if (localsBeyond (fs.scopeDepth - 1) fs.locals).any (·.name == name) then
      error "Variable with this name already declared in this scope."
    addLocal name

/-- Skips a type annotation. -/
def skipTypeAnnotation : Compile Unit := do
  if ← accept .colon then
    unless ← accept .kwFunc do
      expect .identifier "Only variable types allowed"

/-- A variable name in a declaration; answers the constant of its name if it is global. -/
def parseVariable (message : String) : Compile Nat := do
  expect .identifier message
  let name ← previousText
  skipTypeAnnotation
  declareVariable name
  if 0 < (← get).function.scopeDepth then return 0
  nameConstant name

/-- The declared variable takes the value on top of the stack. -/
def defineVariable (global : Nat) : Compile Unit := do
  if 0 < (← get).function.scopeDepth then markReady else emit .defineGlobal global

/-- The function so many levels out from the innermost one. -/
def State.functionAt (s : State) : Nat → FunctionState
  | 0 => s.function
  | depth + 1 => s.enclosing.getD depth default

/-- Changes the function so many levels out. -/
def modifyFunctionAt (depth : Nat) (f : FunctionState → FunctionState) : Compile Unit :=
  match depth with
  | 0 => modifyFunction f
  | depth + 1 => modify fun s => { s with enclosing := s.enclosing.modify depth f }

/-- The slot of the latest local with a name. -/
def latestLocal? (locals : Array Local) (name : String) : Option Nat :=
  (locals.toList.reverse.findIdx? (·.name == name)).map (locals.size - 1 - ·)

/-- The slot of a local of the function so many levels out. -/
def resolveLocal (depth : Nat) (name : String) : Compile (Option Nat) := do
  let s ← get
  demand (depth ≤ s.enclosing.length)
  let locals := (s.functionAt depth).locals
  match latestLocal? locals name with
  | none => return none
  | some slot =>
    demand (slot < locals.size)
    if name == "args" then
      modifyFunctionAt depth fun fs => { fs with argsUsed := true }
    if ((locals[slot]?).bind (·.depth)).isNone then
      error "Cannot read local variable in its own initializer."
    return some slot

/-- The index of a captured variable of the function so many levels out. -/
def addCapture (depth : Nat) (capture : Capture) : Compile Nat := do
  let s ← get
  demand (depth ≤ s.enclosing.length)
  let captures := (s.functionAt depth).captures
  match captures.findIdx? (· == capture) with
  | some index => return index
  | none =>
    if maxSlots ≤ captures.size then error "Too many closure variables in function."
    else modifyFunctionAt depth fun fs => { fs with captures := fs.captures.push capture }
    return captures.size

/-- The capture through which the function `depth` levels out, with `levels` functions around it,
reaches a variable of one of those. -/
def resolveCapture (name : String) (depth : Nat) : (levels : Nat) → Compile (Option Nat)
  | 0 => return none
  | levels + 1 => do
    match ← resolveLocal (depth + 1) name with
    | some slot =>
      modifyFunctionAt (depth + 1) fun fs =>
        { fs with locals := fs.locals.modify slot fun l => { l with captured := true } }
      return some (← addCapture depth ⟨true, slot⟩)
    | none =>
      match ← resolveCapture name (depth + 1) levels with
      | some index => return some (← addCapture depth ⟨false, index⟩)
      | none => return none

/-- How a variable is read and written: the two operations and their operand. -/
structure Access where
  get : Operation
  set : Operation
  operand : Nat
deriving Repr, DecidableEq

/-- A name is a local, else captured from an enclosing function, else global. -/
def resolveVariable (name : String) : Compile Access := do
  match ← resolveLocal 0 name with
  | some slot => return ⟨.getLocal, .setLocal, slot⟩
  | none =>
    match ← resolveCapture name 0 (← get).enclosing.length with
    | some index => return ⟨.getUpvalue, .setUpvalue, index⟩
    | none => return ⟨.getGlobal, .setGlobal, ← nameConstant name⟩

/-! ## Functions -/

/-- The global through which a function fetches its call arguments. -/
def argsName : String := "__args__"

/-- Most parameters and most arguments. -/
def maxArguments : Nat := 255

/-- Writes a call with so many arguments, of which no more are passed than can be. -/
def emitCall (op : Operation) (count : Nat) (second : Nat) : Compile Unit :=
  emitAs (.make op count second) (.make op (min count maxArguments) second)

/-- Starts a function nested in the current one. -/
def pushFunction (kind : FunctionKind) (name : Option String) : Compile Unit :=
  modify fun s =>
    { s with function := .start kind name, enclosing := s.function :: s.enclosing }

/-- Declares the local `args` and loads it. -/
def emitArgsPrologue : Compile Unit := do
  let _ ← addReadyLocal "args"
  modifyFunction fun fs => { fs with argsPrologue := some fs.chunk.size }
  emit .getGlobal (← nameConstant argsName)

/-- The code of a finished function: an unused load of `args` is blanked out. -/
def FunctionState.finalChunk (fs : FunctionState) : Chunk :=
  match fs.argsPrologue with
  | some offset =>
    if fs.argsUsed then fs.chunk else fs.chunk.blank offset
  | none => fs.chunk

/-- The place the code of a function has reached. -/
def FunctionState.landmark (fs : FunctionState) : Landmark :=
  ⟨fs.chunk.size, fs.locals.size⟩

/-- Finishes the innermost function and writes the instruction that closes it over its captures in
the enclosing one. -/
def endFunction : Compile Unit := do
  emitReturn
  let s ← get
  let finished := s.function
  demand (s.enclosing ≠ [] ∧ ∀ offset ∈ finished.argsPrologue, offset + 3 ≤ finished.chunk.size)
  modify fun s =>
    match s.enclosing with
    | outer :: enclosing => { s with function := outer, enclosing }
    | [] => { s with function := .start .script none }
  let name ←
    match finished.name with
    | some n => some <$> intern n
    | none => pure none
  let r ← addItem <| .function
    { arity := finished.arity
      captureCount := finished.captures.size
      isStatic := finished.kind = .static
      name
      path := some (← get).path
      chunk := finished.finalChunk
      docs := #[] }
    finished.statements finished.closures
  let constant ← makeConstant (.obj r)
  modifyFunction fun fs => { fs with closures := fs.landmark :: fs.closures }
  emitInstruction ⟨.closure, constant, 0, finished.captures.toList⟩

end Compiler

end ScriptMachine
