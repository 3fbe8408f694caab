import Mathlib
import ScriptMachine.Proofs.Tokens.Stream

/-!
# ScriptMachine.Proofs.Tokens.Rules — the patterns of the tokens

The lexical grammar as a table. A pattern is a language over characters, built from sets of
characters and fixed words by joining, choice and repetition; a rule says what a text that matches a
pattern is: a gap, or a token of some kind. The table knows nothing of how a piece is found, and its
patterns overlap: `Longest` says which word at the front of a text, and which reading of that word,
is meant.

The patterns are Mathlib's languages, so `*`, `+` and `∗` are joining, choice and repetition. Below the
table are the few lemmas that take words of a pattern apart, and the agreement of the sets of characters
with the tests that the lexer makes. That a longest word is wanted, and that a reserved word is no
identifier, is said by `Longest` and `Preferred`, which leave nothing else to choose.
-/

namespace ScriptMachine.Lexer

open scoped Computability

/-! ## Patterns -/

/-- The words of one character, which is in `s`. -/
def one (s : Set Char) : Language Char :=
  {w | ∃ c ∈ s, w = [c]}

/-- The word `w` alone. -/
def literal (w : String) : Language Char :=
  {v | v = w.toList}

/-- Nothing, or a word of `l`. -/
def optional (l : Language Char) : Language Char :=
  1 + l

/-- Words of `l` one after another, at least one. -/
def repeated (l : Language Char) : Language Char :=
  l * l∗

/-- Characters between tokens. -/
def blanks : Set Char :=
  {' ', '\t', '\r', '\n', '\x0c'}

def letters : Set Char :=
  Set.Icc 'a' 'z' ∪ Set.Icc 'A' 'Z'

def decimalDigits : Set Char :=
  Set.Icc '0' '9'

def hexDigits : Set Char :=
  decimalDigits ∪ Set.Icc 'a' 'f' ∪ Set.Icc 'A' 'F'

/-- Anything up to the end of the line. -/
def line : Language Char :=
  (one {'\n'}ᶜ)∗

/-- What a block comment holds: characters other than stars, and stars that no slash follows. -/
def commentBody : Language Char :=
  (one {'*'}ᶜ + repeated (one {'*'}) * one {'*', '/'}ᶜ)∗

/-- The end of a block comment. -/
def commentEnd : Language Char :=
  repeated (one {'*'}) * literal "/"

/-- What follows the opening of a block comment. -/
def commentTail : Language Char :=
  commentBody * commentEnd

def interpreterLine : Language Char :=
  literal "#!" * line

def lineComment : Language Char :=
  literal "//" * optional (one {'?', '\n'}ᶜ * line)

def blockComment : Language Char :=
  literal "/*" * (optional (one {'?', '*'}ᶜ * commentBody) * commentEnd)

def lineDoc : Language Char :=
  literal "//?" * line

def blockDoc : Language Char :=
  literal "/*?" * commentTail

def word : Language Char :=
  one (letters ∪ {'_'}) * (one (letters ∪ decimalDigits ∪ {'_'}))∗

/-- A string that is never closed. -/
def openString (quote : Char) : Language Char :=
  one {quote} * (one {quote}ᶜ)∗

def closedString (quote : Char) : Language Char :=
  openString quote * one {quote}

def digits : Language Char :=
  repeated (one decimalDigits)

def fraction : Language Char :=
  one {'.'} * digits

def exponent : Language Char :=
  one {'e', 'E'} * (optional (one {'+', '-'}) * digits)

def decimal : Language Char :=
  digits * (optional fraction * optional exponent)

def hexadecimal : Language Char :=
  literal "0x" * repeated (one hexDigits)

/-! ## Rules -/

/-- The punctuation marks; a mark comes before the marks it starts with. -/
def marks : List (String × TokenKind) :=
  [
    ("(", .leftParen), (")", .rightParen), ("\x7b", .leftBrace), ("\x7d", .rightBrace),
    ("[", .leftBracket), ("]", .rightBracket), (",", .comma), (";", .semicolon), (":", .colon),
    ("@", .lambda), ("-=", .minusEqual), ("--", .dec), ("-", .minus), ("+=", .plusEqual),
    ("++", .inc), ("+", .plus), ("/=", .slashEqual), ("/", .slash), ("*=", .starEqual),
    ("*", .star), ("%=", .percentEqual), ("%", .percent), ("^=", .powEqual), ("^", .pow),
    ("...", .expandEx), ("..", .expandIn), (".+", .dotPlus), (".-", .dotMinus), (".*", .dotStar),
    ("./", .dotSlash), (".%", .dotPercent), (".^", .dotPow), (".", .dot), ("!=", .bangEqual),
    ("!", .bang), ("==", .equalEqual), ("=", .equal), (">=", .greaterEqual), (">>", .shiftRight),
    (">", .greater), ("<=", .lessEqual), ("<<", .shiftLeft), ("<", .less), ("&&", .and),
    ("&", .bitAnd), ("||", .or), ("|", .bitOr)]

/-- The rule of a fixed word. -/
def fixed (entry : String × TokenKind) : Piece × Language Char :=
  (.token entry.2, literal entry.1)

/-- What separates tokens. -/
def skips : List (Language Char) :=
  [repeated (one blanks), interpreterLine, lineComment, blockComment]

/-- The tokens whose text is not fixed. -/
def shapes : List (TokenKind × Language Char) :=
  [(.identifier, word), (.string, closedString '"'), (.string, closedString '\''),
    (.unterminatedString, openString '"'), (.unterminatedString, openString '\''),
    (.number, decimal), (.number, hexadecimal), (.doc, lineDoc), (.doc, blockDoc)]

/-- **`rules`** — every pattern, with what a word that matches it is. -/
def rules : List (Piece × Language Char) :=
  skips.map (.gap, ·) ++ (marks ++ TokenKind.keywords).map fixed ++
    shapes.map fun (kind, l) => (.token kind, l)

/-- A word that two rules match is read by the one of a reserved word, not as an identifier. -/
def Preferred (found other : Piece) : Prop :=
  other = found ∨ other = .token .identifier ∧ ∃ entry ∈ TokenKind.keywords, found = .token entry.2

/-- **`Read found w`** — some rule reads the word `w` as `found`. -/
def Read (found : Piece) (w : List Char) : Prop :=
  ∃ l, (found, l) ∈ rules ∧ w ∈ l

/-- **`Longest found w rest`** — `w` is the longest word at the front of `w ++ rest` that matches a
rule, and `found` is how the rules read it. -/
structure Longest (found : Piece) (w rest : List Char) : Prop where
  matched : Read found w
  longest : ∀ rule ∈ rules, ∀ v ∈ rule.2, v <+: w ++ rest → v.length ≤ w.length
  preferred : ∀ rule ∈ rules, w ∈ rule.2 → Preferred found rule.1

/-- No rule matches at the front of `text`. -/
def Unmatched (text : List Char) : Prop :=
  ∀ rule ∈ rules, ∀ v ∈ rule.2, ¬v <+: text

/-! ## Words of a pattern -/

variable {s : Set Char} {l m : Language Char} {c : Char} {v w : List Char}

theorem mem_literal {text : String} : w ∈ literal text ↔ w = text.toList :=
  Iff.rfl

theorem mem_optional : w ∈ optional l ↔ w = [] ∨ w ∈ l := by
  rw [optional, Language.mem_add, Language.mem_one]

theorem append_mem_mul (hv : v ∈ l) (hw : w ∈ m) : v ++ w ∈ l * m :=
  Language.append_mem_mul hv hw

/-- A word of one character and the rest. -/
theorem mem_one_mul : w ∈ one s * l ↔ ∃ c ∈ s, ∃ v ∈ l, w = c :: v := by
  rw [Language.mem_mul]
  constructor
  · rintro ⟨_, ⟨c, hc, rfl⟩, v, hv, rfl⟩
    exact ⟨c, hc, v, hv, rfl⟩
  · rintro ⟨c, hc, v, hv, rfl⟩
    exact ⟨[c], ⟨c, hc, rfl⟩, v, hv, rfl⟩

theorem mem_literal_mul {text : String} : w ∈ literal text * l ↔ ∃ v ∈ l, w = text.toList ++ v := by
  rw [Language.mem_mul]
  constructor
  · rintro ⟨_, rfl, v, hv, rfl⟩
    exact ⟨v, hv, rfl⟩
  · rintro ⟨v, hv, rfl⟩
    exact ⟨_, rfl, v, hv, rfl⟩

/-- Any number of characters of a class. -/
theorem mem_star_one : w ∈ (one s)∗ ↔ ∀ c ∈ w, c ∈ s := by
  constructor
  · intro h
    obtain ⟨words, rfl, hwords⟩ := Language.mem_kstar.mp h
    intro c hc
    obtain ⟨v, hv, hcv⟩ := List.mem_flatten.mp hc
    obtain ⟨d, hd, rfl⟩ := hwords v hv
    rwa [List.mem_singleton.mp hcv]
  · intro h
    refine Language.mem_kstar.mpr ⟨w.map ([·]), (List.flatMap_singleton' w).symm, ?_⟩
    intro v hv
    obtain ⟨c, hc, rfl⟩ := List.mem_map.mp hv
    exact ⟨c, h c hc, rfl⟩

/-- At least one character of a class. -/
theorem mem_repeated_one : w ∈ repeated (one s) ↔ w ≠ [] ∧ ∀ c ∈ w, c ∈ s := by
  rw [repeated, mem_one_mul]
  constructor
  · rintro ⟨c, hc, v, hv, rfl⟩
    exact ⟨List.cons_ne_nil c v, List.forall_mem_cons.mpr ⟨hc, mem_star_one.mp hv⟩⟩
  · rintro ⟨hne, h⟩
    obtain ⟨c, v, rfl⟩ := List.exists_cons_of_ne_nil hne
    obtain ⟨hc, hv⟩ := List.forall_mem_cons.mp h
    exact ⟨c, hc, v, mem_star_one.mpr hv, rfl⟩

/-! ## Characters

The sets of the patterns and the tests of the lexer agree. -/

theorem isGap_iff : isGap c = true ↔ c ∈ blanks := by
  simp [isGap, blanks, or_assoc]

theorem isDigit_iff : c.isDigit = true ↔ c ∈ decimalDigits := by
  simp [Char.isDigit, decimalDigits, Char.le_def, UInt32.le_iff_toNat_le]

theorem isWordStart_iff : isWordStart c = true ↔ c ∈ letters ∪ {'_'} := by
  simp [isWordStart, Char.isAlpha, Char.isUpper, Char.isLower, letters, Char.le_def,
    UInt32.le_iff_toNat_le, or_comm]

theorem isWordPart_iff : isWordPart c = true ↔ c ∈ letters ∪ decimalDigits ∪ {'_'} := by
  simp [isWordPart, Char.isAlphanum, Char.isAlpha, Char.isUpper, Char.isLower, Char.isDigit, letters,
    decimalDigits, Char.le_def, UInt32.le_iff_toNat_le, or_comm]

theorem isHexDigit_iff : isHexDigit c = true ↔ c ∈ hexDigits := by
  simp [isHexDigit, hexDigits, isDigit_iff, or_assoc]

end ScriptMachine.Lexer
