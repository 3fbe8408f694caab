import ScriptMachine.Compiler.Expression

/-!
# ScriptMachine.Compiler.Statement — declarations and statements
-/

namespace ScriptMachine.Compiler

/-! ## Declarations -/

/-- The value after an equals sign, or nothing. -/
def optionalValue (self : Recur) : Compile Unit := do
  if ← accept .equal then self.expression else emit .pushNull

/-- Variables separated by commas. -/
def varDeclaration (self : Recur) : Compile Unit := do
  loop do
    let global ← parseVariable "Expect variable name."
    optionalValue self
    defineVariable global
    accept .comma
  let _ ← accept .semicolon

/-- Variables of the global table, wherever they are declared. -/
def globalDeclaration (self : Recur) : Compile Unit := do
  expect .kwVar "Only global variable declaration is valid."
  loop do
    expect .identifier "Expect variable name."
    let global ← nameConstant (← previousText)
    skipTypeAnnotation
    optionalValue self
    emit .defineGlobalForced global
    accept .comma
  let _ ← accept .semicolon

/-- A method added to a type. -/
def extensionDeclaration (self : Recur) (type : String) : Compile Unit := do
  let typeName ← nameConstant type
  expect .identifier "Expect function name"
  let method ← previousText
  let methodName ← nameConstant method
  functionBody self .extension method
  emit .extend typeName methodName

/-- A function bound to a variable, which it can refer to. -/
def namedFunction (self : Recur) (name : String) : Compile Unit := do
  declareVariable name
  let global ← if 0 < (← get).function.scopeDepth then pure 0 else nameConstant name
  markReady
  functionBody self .function name
  defineVariable global

/-- A named function, or a method added to a type. -/
def funcDeclaration (self : Recur) : Compile Unit := do
  if ← acceptAny [.identifier, .kwFunc, .kwClass, .kwEnum] then
    let name ← previousText
    if ← accept .dot then extensionDeclaration self name
    else if (← previousKind) = .identifier then namedFunction self name
    else error "Expect function name."
  else errorAtCurrent "Expect function name or type."

/-- A property. Its owner is already on the stack, and is there again if another one follows. -/
def property (self : Recur) (isStatic : Bool) (owner : String) : Compile Bool := do
  expect .identifier "Expect variable name."
  let name ← nameConstant (← previousText)
  skipTypeAnnotation
  optionalValue self
  emit .member name (if isStatic then 1 else 0)
  if ← accept .comma then
    namedVariable self owner false
    return true
  else return false

/-- Properties separated by commas. The owner of the first one is already on the stack. -/
def properties (self : Recur) (isStatic : Bool) (owner : String) : Compile Unit := do
  loop (property self isStatic owner)
  let _ ← accept .semicolon

/-- Can this token name a method? -/
def namesMethod : TokenKind → Bool
  | .identifier | .plus | .minus | .star | .slash | .percent | .pow | .bang => true
  | _ => false

/-- The name of a method: an identifier, an operator, or a subscript. -/
def methodName? : Compile (Option String) := do
  if ← accept .leftBracket then
    if ← accept .rightBracket then return some "[]"
    if ← accept .equal then
      if ← accept .rightBracket then return some "[=]"
    return none
  else if namesMethod (← currentKind) then
    advance
    return some (← previousText)
  else return none

/-- A method. The class is already on the stack. -/
def method (self : Recur) (isStatic : Bool) : Compile Unit := do
  expect .kwFunc "Expect a function declaration."
  match ← methodName? with
  | none => errorAtCurrent "Expect method name."
  | some name =>
    let constant ← nameConstant name
    let kind : FunctionKind :=
      if name = "init" then .constructor else if isStatic then .static else .method
    functionBody self kind name
    emit .method constant

/-- A member of a class. The class is already on the stack. -/
def classMember (self : Recur) (className : String) : Compile Unit := do
  let isStatic ← accept .kwStatic
  if ← check .kwFunc then method self isStatic
  else if ← accept .kwVar then properties self isStatic className
  else errorAtCurrent "Only variables and functions allowed inside a class."

/-- Skips to the closing brace while an error is being recovered from. -/
def skipToClosingBrace : Compile Unit := do
  if (← get).panicking then
    loop do
      if (← check .rightBrace) || (← atEnd) then return false
      advance
      return true

/-- The members between braces, each with its owner on the stack. -/
def members (self : Recur) (owner : String) (compileMember : Compile Unit) : Compile Unit :=
  loop do
    if (← check .rightBrace) || (← atEnd) then return false
    namedVariable self owner false
    compileMember
    skipToClosingBrace
    return true

/-- Replaces what is known of the innermost class. -/
def setHasSuperclass : Compile Unit :=
  modify fun s => { s with classes := true :: s.classes.tail }

/-- The superclass of a class, as the local `super`. -/
def superclassClause (self : Recur) (className : String) : Compile Unit := do
  expect .identifier "Expect superclass name."
  let superclass ← previousText
  if superclass = className then error "A class cannot inherit from itself."
  beginScope
  namedVariable self superclass false
  let _ ← addReadyLocal "super"
  namedVariable self className false
  emit .inherit
  setHasSuperclass

/-- Makes a type, and the variable it is bound to. -/
def declareType (op : Operation) (name : String) : Compile Unit := do
  let constant ← nameConstant name
  declareVariable name
  emit op constant
  defineVariable constant

/-- The members of a class between braces. -/
def classBody (self : Recur) (className : String) : Compile Unit := do
  expect .leftBrace "Expect '\x7b' before class body."
  members self className (classMember self className)
  expect .rightBrace "Expect '\x7d' after class body."

/-- A class. -/
def classDeclaration (self : Recur) : Compile Unit := do
  expect .identifier "Expect class name."
  let className ← previousText
  declareType .classDef className
  modify fun s => { s with classes := false :: s.classes }
  if ← accept .colon then
    superclassClause self className
    classBody self className
    endScope
  else classBody self className
  demand ((← get).classes ≠ [])
  modify fun s => { s with classes := s.classes.tail }

/-- An enumeration. -/
def enumDeclaration (self : Recur) : Compile Unit := do
  expect .identifier "Expect enum name."
  let enumName ← previousText
  declareType .enumDef enumName
  expect .leftBrace "Expect '\x7b' before enum body."
  members self enumName (properties self false enumName)
  expect .rightBrace "Expect '\x7d' after enum body."

/-! ## Control flow -/

/-- A condition in parentheses. -/
def condition (self : Recur) : Compile Unit := do
  self.expression
  expect .rightParen "Expect ')' after condition."

/-- A conditional statement. -/
def ifStatement (self : Recur) : Compile Unit := do
  expect .leftParen "Expect '(' after 'if'."
  condition self
  let toElse ← emitJump .jumpIfFalse
  emit .pop
  self.statement
  let toEnd ← emitJump .jump
  patchJump toElse
  emit .pop
  if ← accept .kwElse then self.statement
  patchJump toEnd

/-- A return, with or without a value. -/
def returnStatement (self : Recur) : Compile Unit := do
  if ← accept .semicolon then emitReturn
  else if (← check .rightBrace) || (← atEnd) then emitReturn
  else
    if (← get).function.kind = .constructor then
      error "Cannot return a value from an initializer."
    self.expression
    let _ ← accept .semicolon
    emit .ret

/-- Enters a loop whose passes start at `start`. -/
def beginLoop (start : Nat) : Compile Unit :=
  modifyFunction fun fs =>
    { fs with loops := ⟨start, fs.scopeDepth, fs.tryDepth, #[]⟩ :: fs.loops }

/-- Leaves the innermost loop: what breaks out of it goes on here. -/
def endLoop : Compile Unit := do
  match (← get).function.loops with
  | [] => pure ()
  | l :: outer =>
    modifyFunction fun fs => { fs with loops := outer }
    l.breaks.toList.forM patchJump

/-- Changes the innermost loop. -/
def modifyLoop (f : Loop → Loop) : Compile Unit :=
  modifyFunction fun fs => { fs with loops := fs.loops.modifyHead f }

/-- Writes what leaving the body of the innermost loop takes: its locals leave the stack and its
handlers are closed. Answers that loop. -/
def leaveLoopBody? : Compile (Option Loop) := do
  match (← get).function.loops with
  | [] => return none
  | l :: _ =>
    discardLocals l.scopeDepth
    let handlers := (← get).function.tryDepth - l.tryDepth
    (List.replicate handlers ()).forM fun _ => emit .tryEnd 0
    return some l

/-- Leaves the innermost loop. -/
def breakStatement : Compile Unit := do
  let _ ← accept .semicolon
  match ← leaveLoopBody? with
  | none => error "Cannot use 'break' outside of a loop."
  | some _ =>
    let jump ← emitJump .jump
    modifyLoop fun l => { l with breaks := l.breaks.push jump }

/-- Goes to the next pass of the innermost loop. -/
def continueStatement : Compile Unit := do
  let _ ← accept .semicolon
  match ← leaveLoopBody? with
  | none => error "Cannot use 'continue' outside of a loop."
  | some l => emitLoop l.start

/-- The end of a loop with a condition: back to `start`, and past it when the condition fails. -/
def closeLoop (start exit : Nat) : Compile Unit := do
  emitLoop start
  patchJump exit
  emit .pop
  endLoop

/-- A loop that tests before each pass. -/
def whileStatement (self : Recur) : Compile Unit := do
  let start ← codeSize
  beginLoop start
  expect .leftParen "Expect '(' after 'while'."
  condition self
  let exit ← emitJump .jumpIfFalse
  emit .pop
  self.statement
  closeLoop start exit

/-- A loop that tests after each pass. -/
def doWhileStatement (self : Recur) : Compile Unit := do
  let start ← codeSize
  beginLoop start
  self.statement
  expect .kwWhile "Expected 'while' after 'do' body."
  expect .leftParen "Expect '(' after 'while'."
  condition self
  let _ ← accept .semicolon
  let exit ← emitJump .jumpIfFalse
  emit .pop
  closeLoop start exit

/-- A loop over a sequence, from the sequence on. The sequence and the position are hidden locals;
the item is assigned before each pass. -/
def forInLoop (self : Recur) (item : String) (index : Option String) : Compile Unit := do
  self.expression
  let sequence ← addReadyLocal "(sequence)"
  emitConstant (.number 0)
  let position ← addReadyLocal (index.getD "(index)")
  emit .pushNull
  let itemSlot ← addReadyLocal item
  expect .rightParen "Expect ')' after for clauses."
  let toTest ← emitJump .jump
  let increment ← codeSize
  beginLoop increment
  emit .getLocal position
  emit .inc
  emit .setLocal position
  emit .pop
  patchJump toTest
  emit .getLocal position
  emit .getGlobal (← nameConstant "len")
  emit .getLocal sequence
  emit .call 1
  emit .less
  let exit ← emitJump .jumpIfFalse
  emit .pop
  emit .getLocal sequence
  emit .getLocal position
  emit .subscript
  emit .setLocal itemSlot
  emit .pop
  self.statement
  closeLoop increment exit
  endScope

/-- A failed test goes on here, without its value. -/
def landFailed : Option Nat → Compile Unit
  | some jump => do
    patchJump jump
    emit .pop
  | none => pure ()

/-- The condition of a loop with clauses, if there is one. Answers the jump for when it fails. -/
def loopCondition (self : Recur) : Compile (Option Nat) := do
  if ← accept .semicolon then return none
  else
    self.expression
    expect .semicolon "Expect ';' after loop condition."
    let exit ← emitJump .jumpIfFalse
    emit .pop
    return some exit

/-- The increment of a loop with clauses, if there is one. Answers where to go on after a pass. -/
def loopIncrement (self : Recur) (test : Nat) : Compile Nat := do
  if ← accept .rightParen then return test
  else
    let toBody ← emitJump .jump
    let increment ← codeSize
    self.expression
    emit .pop
    expect .rightParen "Expect ')' after for clauses."
    emitLoop test
    modifyLoop fun l => { l with start := increment }
    patchJump toBody
    return increment

/-- A loop with clauses, from its condition on. -/
def forClauses (self : Recur) : Compile Unit := do
  let test ← codeSize
  beginLoop test
  let exit? ← loopCondition self
  let start ← loopIncrement self test
  self.statement
  emitLoop start
  landFailed exit?
  endLoop
  endScope

/-- The name for the positions of a loop over a sequence, if there is one. -/
def indexName : Compile (Option String) := do
  if ← accept .comma then
    expect .identifier "Expected a index name."
    return some (← previousText)
  else return none

/-- A loop over a sequence, or with clauses. -/
def forStatement (self : Recur) : Compile Unit := do
  beginScope
  expect .leftParen "Expect '(' after 'for'."
  if ← accept .semicolon then forClauses self
  else if ← accept .kwVar then
    expect .identifier "Expect variable name."
    let name ← previousText
    skipTypeAnnotation
    let index ← indexName
    if ← accept .kwIn then forInLoop self name index
    else
      if index.isSome then error "Expect 'in' after index name."
      declareVariable name
      optionalValue self
      markReady
      expect .semicolon "Expect ';' after variable declaration."
      forClauses self
  else
    self.expression
    emit .pop
    expect .semicolon "Expect ';' after loop initializer."
    forClauses self

/-- Where a switch is among its arms. -/
inductive SwitchPhase where
  | beforeCases
  | inCase
  | afterDefault
deriving Repr, DecidableEq

/-- The arms of a switch so far: the jumps to its end, and the jump over the open arm. -/
structure SwitchState where
  phase : SwitchPhase
  ends : Array Nat
  skip : Option Nat

/-- Ends the open arm: it jumps to the end, and a failed test goes on here. -/
def closeArm (s : SwitchState) : Compile SwitchState := do
  if s.phase = .beforeCases then return s
  endScope
  let toEnd ← emitJump .jump
  landFailed s.skip
  return { s with ends := s.ends.push toEnd, skip := none }

/-- The head of an arm whose keyword has been consumed. -/
def openArm (self : Recur) (subject : Nat) (s : SwitchState) : Compile SwitchState := do
  let isCase := (← previousKind) = .kwCase
  if s.phase = .afterDefault then
    error "Cannot have another case or default after the default case."
  let s ← closeArm s
  if isCase then
    emit .getLocal subject
    self.expression
    expect .colon "Expect ':' after case value."
    emit .equal
    let skip ← emitJump .jumpIfFalse
    emit .pop
    beginScope
    return { s with phase := .inCase, skip := some skip }
  else
    expect .colon "Expect ':' after default."
    beginScope
    return { s with phase := .afterDefault, skip := none }

/-- The arms of a switch through its closing brace. -/
def switchArms (self : Recur) (subject : Nat) (s : SwitchState) : Nat → Compile SwitchState
  | 0 => do
    exhausted
    return s
  | fuel + 1 => do
    let before ← tokensTaken
    if ← accept .rightBrace then return s
    else if ← atEnd then
      errorAtCurrent "Expect '\x7d' after switch cases."
      return s
    else if ← acceptAny [.kwCase, .kwDefault] then
      let s ← openArm self subject s
      demandProgress before
      switchArms self subject s fuel
    else
      if s.phase = .beforeCases then
        errorAtCurrent "Cannot have statements before any case."
      self.declaration
      demandProgress before
      switchArms self subject s fuel

/-- Ends the last arm of a switch. Answers the jumps to the end. -/
def closeLastArm (s : SwitchState) : Compile (Array Nat) := do
  if s.phase ≠ .beforeCases then endScope
  match s.skip with
  | some skip =>
    let toEnd ← emitJump .jump
    landFailed (some skip)
    return s.ends.push toEnd
  | none => return s.ends

/-- A switch; its arms do not fall through. -/
def switchStatement (self : Recur) : Compile Unit := do
  expect .leftParen "Expect '(' after 'switch'."
  self.expression
  expect .rightParen "Expect ')' after value."
  expect .leftBrace "Expect '\x7b' before switch cases."
  beginScope
  let subject ← addReadyLocal "(switch)"
  let s ← switchArms self subject ⟨.beforeCases, #[], none⟩ (← get).budget
  let ends ← closeLastArm s
  ends.toList.forM patchJump
  endScope

/-- The local that a handler starting here finds its error in. -/
def errorVariable (name : String) : Compile Unit := do
  let slot ← addReadyLocal name
  modifyChunk fun c => c.noteCatch slot

/-- The handler of a statement, if one is written: the message is a local of it. -/
def catchClause (self : Recur) : Compile Unit := do
  if ← accept .kwCatch then
    if ← accept .leftParen then
      expect .identifier "Expect error variable name."
      errorVariable (← previousText)
      expect .rightParen "Expect ')' after catch variable."
    else errorVariable "(error)"
    self.statement
  else errorVariable "(error)"

/-- A statement with a handler, which runs in the same activation with the message as a local. -/
def tryStatement (self : Recur) : Compile Unit := do
  let toHandler ← emitJump .tryBegin
  modifyFunction fun fs => { fs with tryDepth := fs.tryDepth + 1 }
  self.statement
  demand (0 < (← get).function.tryDepth)
  modifyFunction fun fs => { fs with tryDepth := fs.tryDepth - 1 }
  let toEnd ← emitJump .tryEnd
  patchJump toHandler
  beginScope
  catchClause self
  endScope
  patchJump toEnd

/-! ## Files -/

/-- The extension of source files. -/
def sourceExtension : String := ".cube"

/-- Further parts of a path, each after a slash. -/
def pathParts (path : String) : Nat → Compile String
  | 0 => do
    exhausted
    return path
  | fuel + 1 => do
    let before ← tokensTaken
    if ← accept .slash then
      expect .identifier "Expect an identifier after slash in import."
      demandProgress before
      pathParts (path ++ "/" ++ (← previousText)) fuel
    else return path

/-- The file an import names: a path of identifiers, or a string. -/
def importPath : Compile String := do
  if ← accept .identifier then
    let path ← pathParts (← previousText) (← get).budget
    return path ++ sourceExtension
  else
    expect .string "Expect string after import."
    return String.ofList ((← previousText).toList.drop 1).dropLast

/-- The name that the package of an import is bound to, if one is given. -/
def importName : Compile Unit := do
  if ← accept .kwAs then
    if ← acceptAny [.identifier, .kwDefault] then
      emitConstant (.obj (← intern (← previousText)))
    else errorAtCurrent "Expect identifier after as."
  else emit .pushNull

/-- An import, with the name its package is bound to. -/
def importStatement : Compile Unit := do
  emitConstant (.obj (← intern (← importPath)))
  importName
  let _ ← accept .semicolon
  emit .importFile

/-! ## Statements -/

/-- An expression for its effect; at the top of a script its value is kept as the latest answer. -/
def expressionStatement (self : Recur) : Compile Unit := do
  self.expression
  let _ ← accept .semicolon
  let fs := (← get).function
  if fs.kind = .script ∧ fs.scopeDepth = 0 then emit .replPop else emit .pop

/-- Ends another task. -/
def abortStatement (self : Recur) : Compile Unit := do
  self.expression
  let _ ← accept .semicolon
  emit .abortTask

/-- The empty statement. -/
def passStatement : Compile Unit := do
  emit .nop
  let _ ← accept .semicolon

/-- A block in a scope of its own. -/
def scopedBlock (self : Recur) : Compile Unit := do
  advance
  beginScope
  block self
  endScope

/-- A block, or an expression: a brace before a string opens a dictionary. -/
def blockOrExpression (self : Recur) : Compile Unit := do
  if (← check .leftBrace) && (← followingKind) != .string then scopedBlock self
  else expressionStatement self

/-- A statement. -/
def statement (self : Recur) : Compile Unit := do
  match ← currentKind with
  | .kwFor => advance; forStatement self
  | .kwIf => advance; ifStatement self
  | .kwReturn => advance; returnStatement self
  | .kwImport => advance; importStatement
  | .kwAbort => advance; abortStatement self
  | .kwBreak => advance; breakStatement
  | .kwContinue => advance; continueStatement
  | .kwWhile => advance; whileStatement self
  | .kwDo => advance; doWhileStatement self
  | .kwSwitch => advance; switchStatement self
  | .kwTry => advance; tryStatement self
  | .kwPass => advance; passStatement
  | _ => blockOrExpression self

/-- A declaration or statement. -/
def declarationOrStatement (self : Recur) : Compile Unit := do
  match ← currentKind with
  | .kwClass => advance; classDeclaration self
  | .kwEnum => advance; enumDeclaration self
  | .kwFunc => advance; funcDeclaration self
  | .kwGlobal => advance; globalDeclaration self
  | .kwVar => advance; varDeclaration self
  | _ => statement self

/-- A declaration or statement; afterwards errors are recovered from. Before the end of the text it
consumes a token. -/
def declaration (self : Recur) : Compile Unit := do
  let ended ← atEnd
  let before ← tokensTaken
  declarationOrStatement self
  if (← get).panicking then synchronize
  demand (ended ∨ before < (← tokensTaken))

end ScriptMachine.Compiler
