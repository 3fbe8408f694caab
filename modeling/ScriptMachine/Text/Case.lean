import ScriptMachine.Text.CaseTable

/-!
# ScriptMachine.Text.Case — upper and lower case of texts

Case conversion is character by character, with two refinements: a character may map to several
(`ß` to `SS`), and a capital sigma is written `ς` in lower case exactly when it ends a word, that is
when a cased character comes before it and none after it, looking through ignorable characters.
-/

namespace ScriptMachine.Text

/-- Membership in a class given by its ascending boundaries. -/
def inBounds (bounds : Array Nat) (c : Char) : Bool :=
  bounds.countP (· ≤ c.toNat) % 2 == 1

/-- The offset of the run that holds code point `n`, if one does. -/
def runOffset? (runs : Array (Nat × Nat × Nat × Int)) (n : Nat) : Option Int :=
  (runs.find? fun (first, last, stride, _) =>
    first ≤ n && n ≤ last && (n - first) % stride == 0).map
    fun (_, _, _, offset) => offset

/-- A character mapped by a table of runs and one of expansions. -/
def mapByTable (runs : Array (Nat × Nat × Nat × Int)) (expansions : Array (Nat × List Nat))
    (c : Char) : List Char :=
  match runOffset? runs c.toNat with
  | some offset => [Char.ofNat ((c.toNat : Int) + offset).toNat]
  | none =>
    match expansions.find? fun (n, _) => n == c.toNat with
    | some (_, ns) => ns.map Char.ofNat
    | none => [c]

/-- The upper case of one character. -/
def upperChar (c : Char) : List Char :=
  if c.toNat < 0x80 then [c.toUpper]
  else mapByTable CaseTable.upperRuns CaseTable.upperExpansions c

/-- The lower case of one character, outside the rule for sigma. -/
def lowerChar (c : Char) : List Char :=
  if c.toNat < 0x80 then [c.toLower]
  else mapByTable CaseTable.lowerRuns CaseTable.lowerExpansions c

/-- Is the first character that is not ignorable a cased one? -/
def meetsCased (cs : List Char) : Bool :=
  match cs.dropWhile (inBounds CaseTable.ignorableBounds) with
  | [] => false
  | c :: _ => inBounds CaseTable.casedBounds c

/-- Lower case of the characters after `before`, which is held nearest first. -/
def lowerAfter (before : List Char) : List Char → List Char
  | [] => []
  | c :: rest =>
    let mapped :=
      if c == 'Σ' then [if meetsCased before && !meetsCased rest then 'ς' else 'σ']
      else lowerChar c
    mapped ++ lowerAfter (c :: before) rest

/-- **`upper s`** — `s` in upper case. -/
def upper (s : String) : String :=
  String.ofList (s.toList.flatMap upperChar)

/-- **`lower s`** — `s` in lower case. -/
def lower (s : String) : String :=
  String.ofList (lowerAfter [] s.toList)

end ScriptMachine.Text
