import ScriptMachine.Token
import ScriptMachine.Text.Blank

/-!
# ScriptMachine.Token.Lexer — splitting a text into tokens

At every position the longest possible piece is taken: a gap (blanks, a comment, an interpreter
line), a token, or a single character that starts neither. A recognizer only says how many
characters beyond the first belong to the piece, so the text is consumed strictly and every lexeme
is literally a part of it.

A block comment runs to the first closing mark; one that starts with a star is a comment only when
it consists of stars. Comments marked with a question mark document the declaration they precede
and are tokens.
-/

namespace ScriptMachine

/-- What the longest piece at a position is. -/
inductive Piece where
  | gap
  | token (kind : TokenKind)
deriving Repr, DecidableEq

namespace Lexer

/-- How many characters at the front satisfy `p`, counted on from `n`. -/
def countWhile (p : Char → Bool) (n : Nat) : List Char → Nat
  | [] => n
  | c :: cs => if p c then countWhile p (n + 1) cs else n

/-- How many characters there are through the first closing comment mark, counted on from `n`. -/
def throughClose? (n : Nat) : List Char → Option Nat
  | '*' :: '/' :: _ => some (n + 2)
  | _ :: cs => throughClose? (n + 1) cs
  | [] => none

/-- Characters between tokens. -/
def isGap (c : Char) : Bool :=
  c == ' ' || c == '\t' || c == '\r' || c == '\n' || c == '\x0c'

/-- The first character of a word. -/
def isWordStart (c : Char) : Bool :=
  c.isAlpha || c == '_'

/-- The further characters of a word. -/
def isWordPart (c : Char) : Bool :=
  c.isAlphanum || c == '_'

/-- The marks around a string. -/
def isQuote (c : Char) : Bool :=
  c == '"' || c == '\''

/-- A hexadecimal digit. -/
def isHexDigit (c : Char) : Bool :=
  c.isDigit || ('a' ≤ c && c ≤ 'f') || ('A' ≤ c && c ≤ 'F')

/-- Digits after a mark: the count through the last digit when there is one, else `n`. -/
def withDigits (n : Nat) (skip : Nat) (cs : List Char) : Nat :=
  let digits := countWhile Char.isDigit 0 (cs.drop skip)
  if digits = 0 then n else n + skip + digits

/-- A fraction part after `n` characters: a point and at least one digit. -/
def withFraction (n : Nat) (cs : List Char) : Nat :=
  match cs.drop n with
  | '.' :: _ => withDigits n 1 (cs.drop n)
  | _ => n

/-- An exponent part after `n` characters: `e`, an optional sign and at least one digit. -/
def withExponent (n : Nat) (cs : List Char) : Nat :=
  match cs.drop n with
  | e :: sign :: _ =>
    if e == 'e' || e == 'E' then
      withDigits n (if sign == '+' || sign == '-' then 2 else 1) (cs.drop n)
    else n
  | _ => n

/-- How many characters of a number follow its first digit `c`. -/
def numberLength (c : Char) (cs : List Char) : Nat :=
  let decimal := withExponent (withFraction (countWhile Char.isDigit 0 cs) cs) cs
  match c, cs with
  | '0', 'x' :: hex =>
    let digits := countWhile isHexDigit 0 hex
    if digits = 0 then decimal else digits + 1
  | _, _ => decimal

/-- A string opened by `quote`: through the closing quote, or to the end of the text. -/
def quoted (quote : Char) (cs : List Char) : Piece × Nat :=
  let n := countWhile (· != quote) 0 cs
  match cs.drop n with
  | [] => (.token .unterminatedString, n)
  | _ => (.token .string, n + 1)

/-- A comment, or `none` when the characters after the slash open none. -/
def comment? : List Char → Option (Piece × Nat)
  | '/' :: '?' :: cs => some (.token .doc, countWhile (· != '\n') 2 cs)
  | '/' :: cs => some (.gap, countWhile (· != '\n') 1 cs)
  | '*' :: '?' :: cs => (throughClose? 2 cs).map (.token .doc, ·)
  | '*' :: '*' :: cs =>
    let stars := countWhile (· == '*') 2 cs
    match cs.drop (stars - 2) with
    | '/' :: _ => some (.gap, stars + 1)
    | _ => none
  | '*' :: cs => (throughClose? 1 cs).map (.gap, ·)
  | _ => none

/-- The longest punctuation mark that starts with `c`. -/
def punctuation? (c : Char) (cs : List Char) : Option (TokenKind × Nat) :=
  match c, cs with
  | '(', _ => some (.leftParen, 0)
  | ')', _ => some (.rightParen, 0)
  | '\x7b', _ => some (.leftBrace, 0)
  | '\x7d', _ => some (.rightBrace, 0)
  | '[', _ => some (.leftBracket, 0)
  | ']', _ => some (.rightBracket, 0)
  | ',', _ => some (.comma, 0)
  | ';', _ => some (.semicolon, 0)
  | ':', _ => some (.colon, 0)
  | '@', _ => some (.lambda, 0)
  | '-', '=' :: _ => some (.minusEqual, 1)
  | '-', '-' :: _ => some (.dec, 1)
  | '-', _ => some (.minus, 0)
  | '+', '=' :: _ => some (.plusEqual, 1)
  | '+', '+' :: _ => some (.inc, 1)
  | '+', _ => some (.plus, 0)
  | '/', '=' :: _ => some (.slashEqual, 1)
  | '/', _ => some (.slash, 0)
  | '*', '=' :: _ => some (.starEqual, 1)
  | '*', _ => some (.star, 0)
  | '%', '=' :: _ => some (.percentEqual, 1)
  | '%', _ => some (.percent, 0)
  | '^', '=' :: _ => some (.powEqual, 1)
  | '^', _ => some (.pow, 0)
  | '.', '.' :: '.' :: _ => some (.expandEx, 2)
  | '.', '.' :: _ => some (.expandIn, 1)
  | '.', '+' :: _ => some (.dotPlus, 1)
  | '.', '-' :: _ => some (.dotMinus, 1)
  | '.', '*' :: _ => some (.dotStar, 1)
  | '.', '/' :: _ => some (.dotSlash, 1)
  | '.', '%' :: _ => some (.dotPercent, 1)
  | '.', '^' :: _ => some (.dotPow, 1)
  | '.', _ => some (.dot, 0)
  | '!', '=' :: _ => some (.bangEqual, 1)
  | '!', _ => some (.bang, 0)
  | '=', '=' :: _ => some (.equalEqual, 1)
  | '=', _ => some (.equal, 0)
  | '>', '=' :: _ => some (.greaterEqual, 1)
  | '>', '>' :: _ => some (.shiftRight, 1)
  | '>', _ => some (.greater, 0)
  | '<', '=' :: _ => some (.lessEqual, 1)
  | '<', '<' :: _ => some (.shiftLeft, 1)
  | '<', _ => some (.less, 0)
  | '&', '&' :: _ => some (.and, 1)
  | '&', _ => some (.bitAnd, 0)
  | '|', '|' :: _ => some (.or, 1)
  | '|', _ => some (.bitOr, 0)
  | _, _ => none

/-- **`piece c cs`** — the longest piece of `c :: cs`, and how many characters of `cs` it takes. -/
def piece (c : Char) (cs : List Char) : Piece × Nat :=
  if isGap c then (.gap, countWhile isGap 0 cs)
  else if isWordStart c then
    let n := countWhile isWordPart 0 cs
    (.token (TokenKind.ofWord (String.ofList (c :: cs.take n))), n)
  else if c.isDigit then (.token .number, numberLength c cs)
  else if isQuote c then quoted c cs
  else
    match (if c == '/' then comment? cs else none) with
    | some found => found
    | none =>
      match punctuation? c cs with
      | some (kind, n) => (.token kind, n)
      | none =>
        match c, cs with
        | '#', '!' :: rest => (.gap, countWhile (· != '\n') 1 rest)
        | _, _ => (.token .unexpectedCharacter, 0)

/-- The bytes of some characters. -/
def byteLength (cs : List Char) : Nat :=
  cs.foldl (fun n c => n + c.utf8Size) 0

/-- The newlines among some characters. -/
def newlines (cs : List Char) : Nat :=
  cs.countP (· == '\n')

/-- The tokens of characters that begin at byte `offset` of line `line`, after those of `done`. -/
def tokensFrom (done : Array Token) (offset line : Nat) : List Char → Array Token
  | [] => done.push ⟨.endOfText, "", offset, offset, line⟩
  | c :: cs =>
    let (found, n) := piece c cs
    let lexeme := c :: cs.take n
    let stop := offset + byteLength lexeme
    let done :=
      match found with
      | .gap => done
      | .token kind => done.push ⟨kind, String.ofList lexeme, offset, stop, line⟩
    tokensFrom done stop (line + newlines lexeme) (cs.drop n)
termination_by cs => cs.length
decreasing_by simp only [List.length_drop, List.length_cons]; omega

end Lexer

/-- **`tokenize s`** — the tokens of `s`, in order; the last one marks the end of the text. -/
def tokenize (s : String) : Array Token :=
  Lexer.tokensFrom #[] 0 1 s.toList

/-- The text of a documentation comment without its marks and the blanks around it. -/
def documentationText (comment : String) : String :=
  let body :=
    match comment.toList with
    | '/' :: '/' :: '?' :: rest => rest
    | cs@('/' :: '*' :: '?' :: rest) =>
      match rest.reverse with
      | '/' :: '*' :: tser => tser.reverse
      | _ => cs
    | cs => cs
  Text.trim (String.ofList body)

end ScriptMachine
