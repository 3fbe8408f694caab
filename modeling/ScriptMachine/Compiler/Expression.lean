import ScriptMachine.Compiler.Grammar
import ScriptMachine.Number.Decimal

/-!
# ScriptMachine.Compiler.Expression — expressions

Expressions are compiled by precedence: a token opens an expression, and operators that bind at
least as tightly as asked continue it. The right side of `and` and `or` reaches to the end of the
chain; its jumps are kept in a list of open levels and filled in as the levels end, so a long chain
needs no recursion.
-/

namespace ScriptMachine.Compiler

/-! ## Variables -/

/-- The operation that steps a variable and the one that undoes it, for a step token. -/
def stepOperations (k : TokenKind) : Operation × Operation :=
  if k = .inc then (.inc, .subtract) else (.dec, .add)

/-- Is the current token a step? -/
def checkStep : Compile Bool := do
  return (← check .inc) || (← check .dec)

/-- Leaves the value a stepped place had before. -/
def emitUndo (undo : Operation) : Compile Unit := do
  emitConstant (.number 1)
  emit undo

/-- The operation of the compound assignment at the current token, where one is allowed. -/
def compoundAt (canAssign : Bool) : Compile (Option Operation) := do
  if canAssign then return compoundOperation? (← currentKind) else return none

/-- A variable: read, assigned, or stepped. -/
def namedVariable (self : Recur) (name : String) (canAssign : Bool) : Compile Unit := do
  let a ← resolveVariable name
  match ← compoundAt canAssign with
  | some op =>
    advance
    emit a.get a.operand
    self.expression
    emit op
    emit a.set a.operand
  | none =>
    if (← pure canAssign) && (← check .equal) then
      advance
      self.expression
      emit a.set a.operand
    else if ← checkStep then
      let (step, undo) := stepOperations (← currentKind)
      advance
      emit a.get a.operand
      emit step
      emit a.set a.operand
      emitUndo undo
    else emit a.get a.operand

/-- A step before a variable or one of its properties. -/
def leadingStep : Compile Unit := do
  let (step, _) := stepOperations (← previousKind)
  expect .identifier "Expected variable"
  let a ← resolveVariable (← previousText)
  emit a.get a.operand
  if ← accept .dot then
    expect .identifier "Expect property name after '.'."
    let property ← nameConstant (← previousText)
    emit .getPropertyNoPop property
    emit step
    emit .setProperty property
  else
    emit step
    emit a.set a.operand

/-! ## Calls and properties -/

/-- Arguments through the closing parenthesis; answers how many. -/
def argumentList (self : Recur) : Compile Nat := do
  let budget := (← get).budget
  let count ←
    if ← check .rightParen then pure 0
    else arguments budget 0
  expect .rightParen "Expect ')' after arguments."
  return count
where
  /-- Arguments after the first `count`. -/
  arguments : Nat → Nat → Compile Nat
    | 0, count => do
      exhausted
      return count
    | fuel + 1, count => do
      let before ← tokensTaken
      self.expression
      if count = maxArguments then error "Cannot have more than 255 arguments."
      if ← accept .comma then
        demandProgress before
        arguments fuel (count + 1)
      else return count + 1

/-- A property: read, assigned, called, or stepped. -/
def dot (self : Recur) (canAssign : Bool) : Compile Unit := do
  expect .identifier "Expect property name after '.'."
  let name ← nameConstant (← previousText)
  match ← compoundAt canAssign with
  | some op =>
    advance
    emit .getPropertyNoPop name
    self.expression
    emit op
    emit .setProperty name
  | none =>
    if (← pure canAssign) && (← check .equal) then
      advance
      self.expression
      emit .setProperty name
    else if ← accept .leftParen then
      let count ← argumentList self
      emitCall .invoke count name
    else if ← checkStep then
      let (step, undo) := stepOperations (← currentKind)
      advance
      emit .getPropertyNoPop name
      emit step
      emit .setProperty name
      emitUndo undo
    else emit .getProperty name

/-! ## Operators -/

/-- A sign or negation. -/
def unary (self : Recur) : Compile Unit := do
  let op := if (← previousKind) = .minus then .negate else .not
  self.atLeast .unary
  emit op

/-- A binary operator; its right side binds tighter. -/
def binary (self : Recur) : Compile Unit := do
  let token ← previousKind
  self.atLeast (continuationPrecedence token).next
  match binaryOperation? token with
  | some (op, elementwise, negated) =>
    emit op elementwise
    if negated then emit .not
  | none => pure ()

/-- A range, with a step between its ends if there are three parts. -/
def range (self : Recur) : Compile Unit := do
  let first ← previousKind
  self.atLeast .unary
  let last ←
    if ← acceptAny [.expandIn, .expandEx] then do
      let second ← previousKind
      self.atLeast .unary
      pure second
    else do
      emit .pushNull
      pure first
  emit .range (if last = .expandEx then 1 else 0)

/-- Can this token name a type? -/
def namesType : TokenKind → Bool
  | .identifier | .kwNull | .kwFunc | .kwClass | .kwEnum => true
  | _ => false

/-- A type test. -/
def typeTest : Compile Unit := do
  let negated ← accept .bang
  if namesType (← currentKind) then
    advance
    let type ← nameConstant (← previousText)
    emit .isType (if negated then 1 else 0) type
  else errorAtCurrent "Expected type name after 'is'."

/-! ## Literals -/

/-- The number of a token. -/
def numberOf? (t : Token) : Option Float :=
  match t.kind with
  | .kwNan => some (Float.ofBits 0x7ff8000000000000)
  | .kwInf => some (Float.ofBits 0x7ff0000000000000)
  | _ =>
    match t.text.toList with
    | '0' :: 'x' :: hex => Decimal.readHex? hex
    | _ => Decimal.read? t.text

/-- A number. -/
def number : Compile Unit := do
  match numberOf? (← get).previous with
  | some n => emitConstant (.number n)
  | none => error "Invalid number."

/-- Is the text a name? -/
def isIdentifier (name : List Char) : Bool :=
  match name with
  | c :: cs => Lexer.isWordStart c && cs.all Lexer.isWordPart
  | [] => false

/-- A part of a string literal. -/
inductive StringPart where
  | text (s : String)
  | variable (name : String)
deriving Repr, DecidableEq

/-- What the character after a backslash stands for. -/
def escaped : Char → List Char
  | 'n' => ['\n']
  | 'r' => ['\r']
  | 't' => ['\t']
  | 'b' => ['\x08']
  | 'v' => ['\x0b']
  | '$' => ['$']
  | '\\' => ['\\']
  | c => ['\\', c]

/-- The parts with the open text, held backwards, as one more part unless it is empty. -/
def closeText (parts : List StringPart) (text : List Char) : List StringPart :=
  if text.isEmpty then parts else .text (String.ofList text.reverse) :: parts

/-- How far a string literal has been read. -/
inductive StringMode where
  | plain
  | escape
  | dollar
  | name (sofar : List Char)
deriving Repr, DecidableEq

/-- The parts of a string literal, latest first, up to its end or its first fault. `text` is the
open text backwards. -/
def stringPartsFrom (parts : List StringPart) (text : List Char) (mode : StringMode) :
    List Char → List StringPart × List Char × Option String
  | [] =>
    match mode with
    | .plain => (parts, text, none)
    | .escape => (parts, '\\' :: text, none)
    | .dollar => (parts, '$' :: text, none)
    | .name _ => (parts, text, some "Invalid identifier end in string.")
  | c :: cs =>
    match mode with
    | .escape => stringPartsFrom parts ((escaped c).reverse ++ text) .plain cs
    | .dollar =>
      if c == '\x7b' then stringPartsFrom parts text (.name []) cs
      else if c == '\\' then stringPartsFrom parts ('$' :: text) .escape cs
      else if c == '$' then stringPartsFrom parts ('$' :: text) .dollar cs
      else stringPartsFrom parts (c :: '$' :: text) .plain cs
    | .name sofar =>
      if c == '\x7d' then
        if isIdentifier sofar.reverse then
          let name := String.ofList sofar.reverse
          stringPartsFrom (.variable name :: closeText parts text) [] .plain cs
        else (parts, text, some "Invalid identifier in string.")
      else stringPartsFrom parts text (.name (c :: sofar)) cs
    | .plain =>
      if c == '\\' then stringPartsFrom parts text .escape cs
      else if c == '$' then stringPartsFrom parts text .dollar cs
      else stringPartsFrom parts (c :: text) .plain cs

/-- Writes the load of one part of a string literal. -/
def emitPart (self : Recur) : StringPart → Compile Unit
  | .text s => do emitConstant (.obj (← intern s))
  | .variable name => namedVariable self name false

/-- Is this a text between quotes? -/
def isQuoted : List Char → Bool
  | q :: c :: cs => Lexer.isQuote q && Lexer.isQuote ((c :: cs).getLast (List.cons_ne_nil c cs))
  | _ => false

/-- A string literal; its parts are joined when it is evaluated. -/
def string (self : Recur) : Compile Unit := do
  let literal := (← previousText).toList
  demand (isQuoted literal)
  let body := (literal.drop 1).dropLast
  let (parts, text, fault) := stringPartsFrom [] [] .plain body
  if parts.isEmpty && fault.isNone then
    emitConstant (.obj (← intern (String.ofList text.reverse)))
  else
    parts.reverse.forM (emitPart self)
    match fault with
    | some message => error message
    | none =>
      unless text.isEmpty do
        emitPart self (.text (String.ofList text.reverse))
      let count := (closeText parts text).length
      if 0xffff < count then error "Too many interpolations in string."
      else emit .concat count

/-- The items of a list through its closing bracket. -/
def listLiteral (self : Recur) : Compile Unit := do
  emit .newList
  loop do
    if (← check .rightBracket) || (← atEnd) then return false
    self.expression
    emit .addList
    accept .comma
  expect .rightBracket "Expected closing ']'"

/-- The entries of a dictionary through its closing brace. -/
def dictLiteral (self : Recur) : Compile Unit := do
  emit .newDict
  loop do
    if (← check .rightBrace) || (← atEnd) then return false
    self.atLeast .unary
    expect .colon "Expected ':'"
    self.expression
    emit .addDict
    accept .comma
  expect .rightBrace "Expected closing '\x7d'"

/-- A truth value or nothing. -/
def literal : Compile Unit := do
  match ← previousKind with
  | .kwFalse => emit .pushFalse
  | .kwTrue => emit .pushTrue
  | _ => emit .pushNull

/-! ## Functions and classes -/

/-- Declarations through the closing brace. -/
def block (self : Recur) : Compile Unit := do
  loop do
    if (← check .rightBrace) || (← atEnd) then return false
    self.declaration
    return true
  expect .rightBrace "Expect '\x7d' after block."

/-- Parameters up to the closing parenthesis. -/
def parameters : Compile Unit := do
  unless ← check .rightParen do
    loop do
      modifyFunction fun fs => { fs with arity := fs.arity + 1 }
      if maxArguments < (← get).function.arity then
        errorAtCurrent "Cannot have more than 255 parameters."
      defineVariable (← parseVariable "Expect parameter name.")
      accept .comma

/-- A function from its parameter list on; its body is a block or a single expression. -/
def functionBody (self : Recur) (kind : FunctionKind) (name : String) : Compile Unit := do
  pushFunction kind (some name)
  beginScope
  expect .leftParen "Expect '(' after function name."
  parameters
  expect .rightParen "Expect ')' after parameters."
  emitArgsPrologue
  if ← accept .equal then
    unless ← accept .greater do
      errorAtCurrent "Only scoped '\x7b\x7d' and short '=>' functions allowed."
    self.expression
    let _ ← accept .semicolon
    emit .ret
  else
    expect .leftBrace "Expect '\x7b' before function body."
    block self
  endFunction

/-- Complains unless there is a class around, and it has a superclass. -/
def checkSuperclass : Compile Unit := do
  match (← get).classes with
  | [] => error "Cannot use 'super' outside of a class."
  | false :: _ => error "Cannot use 'super' in a class with no superclass."
  | true :: _ => pure ()

/-- A method or property of the superclass. -/
def superAccess (self : Recur) : Compile Unit := do
  checkSuperclass
  expect .dot "Expect '.' after 'super'."
  expect .identifier "Expect superclass method name."
  let name ← nameConstant (← previousText)
  namedVariable self "this" false
  if ← accept .leftParen then
    let count ← argumentList self
    namedVariable self "super" false
    emitCall .superInvoke count name
  else
    namedVariable self "super" false
    emit .getSuper name

/-- The kind of the nearest function around the current place that settles what `this` means. -/
def State.receiverKind? (s : State) : Option FunctionKind :=
  ((s.function :: s.enclosing).map (·.kind)).find? fun k => k.hasReceiver || k = .static

/-- The receiver. -/
def thisAccess (self : Recur) : Compile Unit := do
  let s ← get
  match s.receiverKind? with
  | some .static => error "Cannot use 'this' inside a static method."
  | some .extension => namedVariable self "this" false
  | _ =>
    if s.classes.isEmpty then error "Cannot use 'this' outside of a class."
    else namedVariable self "this" false

/-- A call run as a task: the call is wrapped in a function without parameters. -/
def spawnCall (self : Recur) : Compile Unit := do
  expect .identifier "Expect a function call in async."
  let callee ← previousText
  pushFunction .function (some callee)
  beginScope
  namedVariable self callee false
  expect .leftParen "Expect a function call in async."
  let count ← argumentList self
  emitCall .call count 0
  emit .ret
  endFunction
  emit .spawn

/-- A file loaded as a value. -/
def requireCall (self : Recur) : Compile Unit := do
  expect .leftParen "In 'require' a package name must be passed between parentheses."
  if (← argumentList self) ≠ 1 then error "Required accepts only one parameter."
  emit .requireFile

/-! ## The precedence loop -/

/-- What the token just consumed opens. -/
def compileOpening (self : Recur) (canAssign : Bool) : Opening → Compile Unit
  | .grouping => do
    self.expression
    expect .rightParen "Expect ')' after expression."
  | .dict => dictLiteral self
  | .list => listLiteral self
  | .unary => unary self
  | .step => leadingStep
  | .variable => do namedVariable self (← previousText) canAssign
  | .string => string self
  | .number => number
  | .literal => literal
  | .static => error "Cannot use 'static' outside of a class."
  | .lambda => functionBody self .function "lambda"
  | .super => superAccess self
  | .this => thisAccess self
  | .require => requireCall self
  | .async => spawnCall self
  | .await => do
    self.atLeast .unary
    emit .awaitTask

/-- Consumes a token and what it opens; `false` when it opens nothing. -/
def operand (self : Recur) (canAssign : Bool) : Compile Bool := do
  advance
  match opening? (← previousKind) with
  | some o =>
    compileOpening self canAssign o
    return true
  | none =>
    error "Expect expression."
    return false

/-- What the token just consumed continues, the short-circuit operators aside. -/
def compileContinuation (self : Recur) (canAssign : Bool) : Continuation → Compile Unit
  | .call => do
    let count ← argumentList self
    emitCall .call count 0
  | .subscript => do
    self.expression
    expect .rightBracket "Expected closing ']'"
    if (← pure canAssign) && (← check .equal) then
      advance
      self.expression
      emit .subscriptAssign
    else emit .subscript
  | .dot => dot self canAssign
  | .range => range self
  | .binary => binary self
  | .is => typeTest
  | .and | .or => pure ()

/-- The right side of a short-circuit operator that is still open: the precedence it is read with,
and the jump over it. -/
structure OpenLevel where
  precedence : Precedence
  jump : Nat
deriving Repr, DecidableEq

/-- The jump over the right side of `and`: taken when the left side is falsey. -/
def openAnd : Compile OpenLevel := do
  let jump ← emitJump .jumpIfFalse
  emit .pop
  return ⟨.and, jump⟩

/-- The jump over the right side of `or`: taken when the left side is truthy. -/
def openOr : Compile OpenLevel := do
  let toRight ← emitJump .jumpIfFalse
  let jump ← emitJump .jump
  patchJump toRight
  emit .pop
  return ⟨.or, jump⟩

/-- The levels once a right side has been opened: its first operand is read; without one the level
ends at once. -/
def enterLevel (self : Recur) (levels : List OpenLevel) (level : OpenLevel) :
    Compile (List OpenLevel) := do
  if ← operand self false then return level :: levels
  patchJump level.jump
  return levels

/-- One operator further: `levels` are the open right sides, innermost first. Without an operator
that binds tightly enough the innermost one ends; `none` once the expression has ended. -/
def continueOnce (self : Recur) (least : Precedence) (canAssign : Bool) (levels : List OpenLevel) :
    Compile (Option (List OpenLevel)) := do
  let bound := (levels.head?.map (·.precedence)).getD least
  match (continuation? (← currentKind)).filter fun (_, p) => bound.rank ≤ p.rank with
  | some (rule, _) =>
    advance
    match rule with
    | .and => some <$> enterLevel self levels (← openAnd)
    | .or => some <$> enterLevel self levels (← openOr)
    | rule =>
      compileContinuation self (canAssign && levels.isEmpty) rule
      return some levels
  | none =>
    match levels with
    | level :: outer =>
      patchJump level.jump
      return some outer
    | [] => return none

/-- Continues an expression while its operators bind tightly enough. Each time a token is consumed or
a right side ends. -/
def continueExpression (self : Recur) (least : Precedence) (canAssign : Bool)
    (levels : List OpenLevel) : Nat → Compile Unit
  | 0 => exhausted
  | fuel + 1 => do
    let before ← tokensTaken
    match ← continueOnce self least canAssign levels with
    | some levels' =>
      demand (before < (← tokensTaken) ∨ levels'.length < levels.length)
      continueExpression self least canAssign levels' fuel
    | none => pure ()

/-- An expression with operators of at least this precedence. -/
def expressionAtLeast (self : Recur) (least : Precedence) : Compile Unit := do
  let canAssign := least.rank ≤ Precedence.assignment.rank
  if ← operand self canAssign then
    continueExpression self least canAssign [] (← get).budget
    if canAssign then
      if ← accept .equal then error "Invalid assignment target."

end ScriptMachine.Compiler
