/-!
# ScriptMachine.Text.Blank — white space and trimming

The blank characters are those with the White_Space property. Trimming removes them at both ends;
`words` are the maximal runs without them.
-/

namespace ScriptMachine.Text

/-- Has the character the White_Space property? -/
def isBlank (c : Char) : Bool :=
  let n := c.toNat
  (0x9 ≤ n && n ≤ 0xd) || n == 0x20 || n == 0x85 || n == 0xa0 || n == 0x1680
    || (0x2000 ≤ n && n ≤ 0x200a) || n == 0x2028 || n == 0x2029 || n == 0x202f || n == 0x205f
    || n == 0x3000

/-- Removes the blanks at the front. -/
def trimFront (cs : List Char) : List Char :=
  cs.dropWhile isBlank

/-- Removes the characters at the end that satisfy `p`. -/
def dropEndWhile (p : Char → Bool) (cs : List Char) : List Char :=
  (cs.reverse.dropWhile p).reverse

/-- **`trim s`** — `s` without the blanks at its ends. -/
def trim (s : String) : String :=
  String.ofList (dropEndWhile isBlank (trimFront s.toList))

/-- The maximal runs of characters without blanks, in order; `run` holds the open one backwards. -/
def wordsFrom (run : List Char) : List Char → List String
  | [] => if run.isEmpty then [] else [String.ofList run.reverse]
  | c :: rest =>
    if isBlank c then
      if run.isEmpty then wordsFrom [] rest
      else String.ofList run.reverse :: wordsFrom [] rest
    else wordsFrom (c :: run) rest

/-- **`words s`** — the texts between the blanks of `s`. -/
def words (s : String) : List String :=
  wordsFrom [] s.toList

end ScriptMachine.Text
