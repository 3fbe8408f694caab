import ScriptMachine.Bisect
import ScriptMachine.Text.Blank

/-!
# ScriptMachine.Text.Lines — byte offsets and lines

A source text is addressed by UTF-8 byte offsets, and reports speak of one-based lines. A line ends
at its newline, which belongs to it; the text of a line is shown without its terminator.
-/

namespace ScriptMachine.Text

/-! ## Slices -/

/-- The characters from a byte offset on; `none` when it is inside a character or beyond the end. -/
def dropBytes? : List Char → Nat → Option (List Char)
  | cs, 0 => some cs
  | [], _ + 1 => none
  | c :: cs, n + 1 => if c.utf8Size ≤ n + 1 then dropBytes? cs (n + 1 - c.utf8Size) else none

/-- The first so many bytes of some characters, after those of `done`, which are backwards; `none` when
a character would be cut or there are too few. -/
def takeBytes? (done : List Char) : List Char → Nat → Option (List Char)
  | _, 0 => some done.reverse
  | [], _ + 1 => none
  | c :: cs, n + 1 =>
    if c.utf8Size ≤ n + 1 then takeBytes? (c :: done) cs (n + 1 - c.utf8Size) else none

/-- **`slice? cs start stop`** — the characters between two byte offsets; `none` unless both are between
characters and in order. -/
def slice? (cs : List Char) (start stop : Nat) : Option (List Char) :=
  if start ≤ stop then (dropBytes? cs start).bind (takeBytes? [] · (stop - start)) else none

/-! ## Lines -/

/-- The byte that ends a line. -/
def newline : UInt8 := 10

/-- The byte offsets at which the lines of a text start, ascending; the first line starts at zero.
-/
structure LineMap where
  starts : Array Nat
deriving Repr, DecidableEq

namespace LineMap

/-- The start of the line after a byte at an offset, if the byte ends a line. -/
def startAfter? : UInt8 × Nat → Option Nat
  | (b, offset) => if b = newline then some (offset + 1) else none

/-- The line map of a text: another line starts after each newline. -/
def ofText (s : String) : LineMap :=
  ⟨#[0] ++ s.toUTF8.data.zipIdx.filterMap startAfter?⟩

/-- The one-based line that holds a byte offset. -/
def line (m : LineMap) (offset : Nat) : Nat :=
  match Bisect.search id m.starts offset with
  | .present i => i + 1
  | .absent i => i

/-- How many lines the text has. -/
def count (m : LineMap) : Nat :=
  m.starts.size

/-- The text of a one-based line without its terminator, empty when there is no such line; `none` when
the starts are not between characters of the text. -/
def text? (m : LineMap) (s : String) (line : Nat) : Option String :=
  match line with
  | 0 => some ""
  | n + 1 =>
    match m.starts[n]? with
    | none => some ""
    | some start =>
      let stop := m.starts[n + 1]?.getD s.utf8ByteSize
      (slice? s.toList start stop).map fun cs =>
        String.ofList (dropEndWhile (· == '\r') (dropEndWhile (· == '\n') cs))

end LineMap

/-- **`lineText s line`** — the text of a one-based line of `s`. -/
def lineText (s : String) (line : Nat) : String :=
  ((LineMap.ofText s).text? s line).getD ""

end ScriptMachine.Text
