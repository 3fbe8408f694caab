/-!
# ScriptMachine.Text.Search — finding, splitting and replacing

Occurrences of a needle are looked for from the left and do not overlap. An empty needle occurs
before every character and at the end.
-/

namespace ScriptMachine.Text

/-- What follows `needle` when the characters start with it. -/
def afterNeedle? : List Char → List Char → Option (List Char)
  | [], cs => some cs
  | _ :: _, [] => none
  | n :: ns, c :: cs => if n == c then afterNeedle? ns cs else none

/-- How many characters come before the first occurrence of `needle`. -/
def indexOf? (needle : List Char) : List Char → Option Nat
  | [] => if needle.isEmpty then some 0 else none
  | c :: cs =>
    if (afterNeedle? needle (c :: cs)).isSome then some 0
    else (indexOf? needle cs).map (· + 1)

/-- Does `s` contain `needle`? -/
def contains (s needle : String) : Bool :=
  (indexOf? needle.toList s.toList).isSome

/-- Does `s` end with `suffix`? -/
def endsWith (s suffix : String) : Bool :=
  (afterNeedle? suffix.toList.reverse s.toList.reverse).isSome

/-- Does `s` start with `start`? -/
def startsWith (s start : String) : Bool :=
  (afterNeedle? start.toList s.toList).isSome

/-- The parts of the characters between the occurrences of a needle of length `width + 1`. `skip`
characters of an occurrence are still to be passed over; `part` holds the open part backwards. -/
def partsFrom (needle : List Char) (width : Nat) (skip : Nat) (part : List Char) :
    List Char → List (List Char)
  | [] => [part.reverse]
  | c :: cs =>
    match skip with
    | skip + 1 => partsFrom needle width skip part cs
    | 0 =>
      if (afterNeedle? needle (c :: cs)).isSome then
        part.reverse :: partsFrom needle width width [] cs
      else partsFrom needle width 0 (c :: part) cs

/-- The texts between the occurrences of a non-empty separator; its characters when it is empty. -/
def splitOn (s separator : String) : List String :=
  match separator.toList with
  | [] => s.toList.map String.singleton
  | needle@(_ :: rest) => (partsFrom needle rest.length 0 [] s.toList).map String.ofList

/-- `s` with every occurrence of `needle` replaced. -/
def replace (s needle replacement : String) : String :=
  match needle.toList with
  | [] => replacement ++ String.join (s.toList.map fun c => String.singleton c ++ replacement)
  | _ => String.intercalate replacement (splitOn s needle)

end ScriptMachine.Text
