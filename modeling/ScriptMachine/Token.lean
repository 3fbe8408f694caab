/-!
# ScriptMachine.Token — the tokens of the script language

A token is a kind, its text, the byte span of that text and the line it starts on. Two kinds stand
for input that is no token (an unexpected character, a string that is never closed) and one for the
end of the text.
-/

namespace ScriptMachine

/-- The kinds of tokens. -/
inductive TokenKind where
  | leftParen | rightParen | leftBrace | rightBrace | leftBracket | rightBracket | comma | dot
  | semicolon | colon | lambda | minus | minusEqual | dec | plus | plusEqual | inc | slash
  | slashEqual | star | starEqual | percent | percentEqual | pow | powEqual | dotPlus | dotMinus
  | dotStar | dotSlash | dotPercent | dotPow | expandIn | expandEx | bang | bangEqual | equal
  | equalEqual | greater | greaterEqual | less | lessEqual | shiftLeft | shiftRight | bitAnd
  | bitOr | and | or | identifier | string | number | doc | kwAbort | kwAs | kwAsync | kwAwait
  | kwBreak | kwCase | kwCatch | kwClass | kwContinue | kwDefault | kwDo | kwElse | kwEnum
  | kwFalse | kwFor | kwFunc | kwGlobal | kwIf | kwImport | kwIn | kwInf | kwIs | kwNan | kwNull
  | kwPass | kwRequire | kwReturn | kwStatic | kwSuper | kwSwitch | kwThis | kwTrue | kwTry
  | kwVar | kwWhile | unexpectedCharacter | unterminatedString | endOfText
deriving Repr, DecidableEq, Inhabited

namespace TokenKind

/-- The name of a kind in token listings. -/
def label : TokenKind → String
  | .leftParen => "LeftParen"
  | .rightParen => "RightParen"
  | .leftBrace => "LeftBrace"
  | .rightBrace => "RightBrace"
  | .leftBracket => "LeftBracket"
  | .rightBracket => "RightBracket"
  | .comma => "Comma"
  | .dot => "Dot"
  | .semicolon => "Semicolon"
  | .colon => "Colon"
  | .lambda => "Lambda"
  | .minus => "Minus"
  | .minusEqual => "MinusEqual"
  | .dec => "Dec"
  | .plus => "Plus"
  | .plusEqual => "PlusEqual"
  | .inc => "Inc"
  | .slash => "Slash"
  | .slashEqual => "SlashEqual"
  | .star => "Star"
  | .starEqual => "StarEqual"
  | .percent => "Percent"
  | .percentEqual => "PercentEqual"
  | .pow => "Pow"
  | .powEqual => "PowEqual"
  | .dotPlus => "DotPlus"
  | .dotMinus => "DotMinus"
  | .dotStar => "DotStar"
  | .dotSlash => "DotSlash"
  | .dotPercent => "DotPercent"
  | .dotPow => "DotPow"
  | .expandIn => "ExpandIn"
  | .expandEx => "ExpandEx"
  | .bang => "Bang"
  | .bangEqual => "BangEqual"
  | .equal => "Equal"
  | .equalEqual => "EqualEqual"
  | .greater => "Greater"
  | .greaterEqual => "GreaterEqual"
  | .less => "Less"
  | .lessEqual => "LessEqual"
  | .shiftLeft => "ShiftLeft"
  | .shiftRight => "ShiftRight"
  | .bitAnd => "BitAnd"
  | .bitOr => "BitOr"
  | .and => "And"
  | .or => "Or"
  | .identifier => "Identifier"
  | .string => "String"
  | .number => "Number"
  | .doc => "Doc"
  | .kwAbort => "Abort"
  | .kwAs => "As"
  | .kwAsync => "Async"
  | .kwAwait => "Await"
  | .kwBreak => "Break"
  | .kwCase => "Case"
  | .kwCatch => "Catch"
  | .kwClass => "Class"
  | .kwContinue => "Continue"
  | .kwDefault => "Default"
  | .kwDo => "Do"
  | .kwElse => "Else"
  | .kwEnum => "Enum"
  | .kwFalse => "False"
  | .kwFor => "For"
  | .kwFunc => "Func"
  | .kwGlobal => "Global"
  | .kwIf => "If"
  | .kwImport => "Import"
  | .kwIn => "In"
  | .kwInf => "Inf"
  | .kwIs => "Is"
  | .kwNan => "Nan"
  | .kwNull => "Null"
  | .kwPass => "Pass"
  | .kwRequire => "Require"
  | .kwReturn => "Return"
  | .kwStatic => "Static"
  | .kwSuper => "Super"
  | .kwSwitch => "Switch"
  | .kwThis => "This"
  | .kwTrue => "True"
  | .kwTry => "Try"
  | .kwVar => "Var"
  | .kwWhile => "While"
  | .unexpectedCharacter | .unterminatedString => "Error"
  | .endOfText => "Eof"

/-- The complaint about input that is no token. -/
def complaint? : TokenKind → Option String
  | .unexpectedCharacter => some "Unexpected character."
  | .unterminatedString => some "Unterminated string."
  | _ => none

/-- The reserved words. -/
def keywords : List (String × TokenKind) :=
  [
    ("abort", .kwAbort), ("as", .kwAs), ("async", .kwAsync), ("await", .kwAwait),
    ("break", .kwBreak), ("case", .kwCase), ("catch", .kwCatch), ("class", .kwClass),
    ("continue", .kwContinue), ("default", .kwDefault), ("do", .kwDo), ("else", .kwElse),
    ("enum", .kwEnum), ("false", .kwFalse), ("for", .kwFor), ("func", .kwFunc),
    ("global", .kwGlobal), ("if", .kwIf), ("import", .kwImport), ("in", .kwIn), ("inf", .kwInf),
    ("is", .kwIs), ("nan", .kwNan), ("null", .kwNull), ("pass", .kwPass),
    ("require", .kwRequire), ("return", .kwReturn), ("static", .kwStatic), ("super", .kwSuper),
    ("switch", .kwSwitch), ("this", .kwThis), ("true", .kwTrue), ("try", .kwTry),
    ("var", .kwVar), ("while", .kwWhile), ("not", .bang), ("and", .and), ("or", .or)]

/-- The kind of a word: a reserved word, or an identifier. -/
def ofWord (w : String) : TokenKind :=
  (keywords.lookup w).getD .identifier

end TokenKind

/-- A token with its place in the source. -/
structure Token where
  kind : TokenKind
  text : String
  start : Nat
  stop : Nat
  line : Nat
deriving Repr, DecidableEq, Inhabited

end ScriptMachine
