import ScriptMachine.Compiler.State

/-!
# ScriptMachine.Compiler.Grammar — precedences and the recursive goals

The grammar is recursive in three goals: an expression of at least some precedence, a declaration
and a statement. Every production is a plain definition over a `Recur`, which stands for compiling a
goal; the knot is tied once for all of them.
-/

namespace ScriptMachine.Compiler

/-- How tightly an operator binds. -/
inductive Precedence where
  | none
  | assignment
  | or
  | and
  | equality
  | comparison
  | term
  | factor
  | unary
  | call
  | primary
deriving Repr, DecidableEq, Inhabited

namespace Precedence

/-- The rank of a precedence. -/
def rank (p : Precedence) : Nat :=
  p.ctorIdx

/-- The next tighter precedence. -/
def next : Precedence → Precedence
  | .none => .assignment
  | .assignment => .or
  | .or => .and
  | .and => .equality
  | .equality => .comparison
  | .comparison => .term
  | .term => .factor
  | .factor => .unary
  | .unary => .call
  | .call | .primary => .primary

end Precedence

/-- What the grammar recurs on. -/
inductive Goal where
  | expression (least : Precedence)
  | declaration
  | statement
deriving Repr, DecidableEq

/-- Compilation of a goal. -/
abbrev Recur := Goal → Compile Unit

namespace Recur

/-- An expression with operators of at least this precedence. -/
def atLeast (self : Recur) (p : Precedence) : Compile Unit :=
  self (.expression p)

/-- An expression. -/
def expression (self : Recur) : Compile Unit :=
  self.atLeast .assignment

/-- A declaration or statement. -/
def declaration (self : Recur) : Compile Unit :=
  self .declaration

/-- A statement. -/
def statement (self : Recur) : Compile Unit :=
  self .statement

end Recur

/-- How a token starts an expression. -/
inductive Opening where
  | grouping | dict | list | unary | step | variable | string | number | literal | static | lambda
  | super | this | require | async | await
deriving Repr, DecidableEq

/-- How a token continues an expression. -/
inductive Continuation where
  | call | subscript | dot | range | binary | and | or | is
deriving Repr, DecidableEq

/-- How a token starts an expression, if it does. -/
def opening? : TokenKind → Option Opening
  | .leftParen => some .grouping
  | .leftBrace => some .dict
  | .leftBracket => some .list
  | .minus | .bang => some .unary
  | .inc | .dec => some .step
  | .identifier => some .variable
  | .string => some .string
  | .number | .kwNan | .kwInf => some .number
  | .kwFalse | .kwTrue | .kwNull => some .literal
  | .kwStatic => some .static
  | .lambda => some .lambda
  | .kwSuper => some .super
  | .kwThis => some .this
  | .kwRequire => some .require
  | .kwAsync => some .async
  | .kwAwait => some .await
  | _ => none

/-- How a token continues an expression, and how tightly, if it does. -/
def continuation? : TokenKind → Option (Continuation × Precedence)
  | .leftParen => some (.call, .call)
  | .leftBracket => some (.subscript, .call)
  | .dot => some (.dot, .call)
  | .expandIn | .expandEx => some (.range, .factor)
  | .minus | .plus | .dotPlus | .dotMinus | .dotStar | .dotSlash | .dotPow | .dotPercent | .kwIn =>
    some (.binary, .term)
  | .slash | .star | .percent | .pow => some (.binary, .factor)
  | .bangEqual | .equalEqual | .shiftLeft | .shiftRight | .bitAnd | .bitOr =>
    some (.binary, .equality)
  | .greater | .greaterEqual | .less | .lessEqual => some (.binary, .comparison)
  | .and => some (.and, .and)
  | .or => some (.or, .or)
  | .kwIs => some (.is, .term)
  | _ => none

/-- How tightly a token continues an expression; `none` if it does not. -/
def continuationPrecedence (k : TokenKind) : Precedence :=
  match continuation? k with
  | some (_, p) => p
  | none => .none

/-- The operation of a compound assignment. -/
def compoundOperation? : TokenKind → Option Operation
  | .plusEqual => some .add
  | .minusEqual => some .subtract
  | .starEqual => some .multiply
  | .slashEqual => some .divide
  | .percentEqual => some .modulo
  | .powEqual => some .power
  | _ => none

/-- The instructions of a binary operator: the operation, its elementwise flag, and whether the
result is negated. -/
def binaryOperation? : TokenKind → Option (Operation × Nat × Bool)
  | .bangEqual => some (.equal, 0, true)
  | .equalEqual => some (.equal, 0, false)
  | .greater => some (.greater, 0, false)
  | .greaterEqual => some (.less, 0, true)
  | .less => some (.less, 0, false)
  | .lessEqual => some (.greater, 0, true)
  | .shiftLeft => some (.shiftLeft, 0, false)
  | .shiftRight => some (.shiftRight, 0, false)
  | .bitAnd => some (.bitwiseAnd, 0, false)
  | .bitOr => some (.bitwiseOr, 0, false)
  | .kwIn => some (.contains, 0, false)
  | .plus => some (.add, 0, false)
  | .minus => some (.subtract, 0, false)
  | .star => some (.multiply, 0, false)
  | .slash => some (.divide, 0, false)
  | .percent => some (.modulo, 0, false)
  | .pow => some (.power, 0, false)
  | .dotPlus => some (.add, 1, false)
  | .dotMinus => some (.subtract, 1, false)
  | .dotStar => some (.multiply, 1, false)
  | .dotSlash => some (.divide, 1, false)
  | .dotPercent => some (.modulo, 1, false)
  | .dotPow => some (.power, 1, false)
  | _ => none

end ScriptMachine.Compiler
