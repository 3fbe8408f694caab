import ScriptMachine.Machine.Calls
import ScriptMachine.Machine.Methods
import ScriptMachine.Number.Range

/-!
# ScriptMachine.Machine.Operators — arithmetic, comparison, ranges, membership and subscripts

An operator finds its operands on top of the stack and replaces them by its result. Numbers and
enumeration members that carry one come first; then strings and lists; an instance can define a
method with the operator's symbol, which is then called in place. A failing operator leaves the
stack to the handler.
-/

namespace ScriptMachine

/-- The arithmetic operators. -/
inductive Arithmetic where
  | add | subtract | multiply | divide | modulo | power
deriving Repr, DecidableEq, Inhabited

namespace Arithmetic

/-- The name of the method that overloads an operator. -/
def symbol : Arithmetic → String
  | .add => "+"
  | .subtract => "-"
  | .multiply => "*"
  | .divide => "/"
  | .modulo => "%"
  | .power => "^"

/-- What an operator does to numbers. -/
def apply : Arithmetic → Float → Float → Float
  | .add, x, y => x + y
  | .subtract, x, y => x - y
  | .multiply, x, y => x * y
  | .divide, x, y => x / y
  | .modulo, x, y => Number.remainder x y
  | .power, x, y => Float.pow x y

/-- What an operator asks of its operands. -/
def complaint : Arithmetic → Fault
  | .add => .operandsNotAddable
  | _ => .operandsNotNumbers

end Arithmetic

/-- The operators on the bits of integers. -/
inductive Bitwise where
  | shiftLeft | shiftRight | and | or
deriving Repr, DecidableEq, Inhabited

/-- What an operator does to signed words; a shift takes the low six bits of its distance. -/
def Bitwise.apply : Bitwise → Int64 → Int64 → Int64
  | .shiftLeft, a, b => a <<< b
  | .shiftRight, a, b => a >>> b
  | .and, a, b => a &&& b
  | .or, a, b => a ||| b

/-- The two comparisons the machine knows. -/
inductive Comparison where
  | less | greater
deriving Repr, DecidableEq, Inhabited

namespace Comparison

/-- A comparison of numbers. -/
def ofNumbers : Comparison → Float → Float → Bool
  | .less, x, y => x < y
  | .greater, x, y => y < x

/-- A comparison of texts, by code points. -/
def ofTexts : Comparison → String → String → Bool
  | .less, x, y => x < y
  | .greater, x, y => y < x

end Comparison

namespace Exec

/-- The signed word of a number. -/
def word (x : Float) : Int64 :=
  Int64.ofInt (Number.toInt64 x)

/-- The method an instance defines for an operator symbol. -/
def operatorMethod? (target : Value) (symbol : String) : Exec (Option Ref) := do
  match target with
  | .obj r =>
    match (← get).heap.instance? r with
    | some i =>
      let classRef := i.classRef
      let k ← key (← intern symbol)
      searched classRef ((← get).heap.method? classRef k)
    | none => return none
  | _ => return none

/-- Calls the method an instance defines for an operator symbol, or fails. -/
def overloaded (target : Value) (symbol : String) (argc : Nat) (otherwise : Fault) : Exec Unit := do
  match ← operatorMethod? target symbol with
  | some method => callClosure method argc
  | none => throw otherwise

/-- Joins the top values into one string. -/
def concatPieces (count : Nat) : Exec Unit := do
  let first := (← height) - count
  let text ← joined (← valuesFrom first)
  truncate first
  push (← internValue text)

/-! ## Arithmetic -/

/-- The number a value stands for, or a complaint about the operands. -/
def operand (h : Heap) (v : Value) : Except Fault Float :=
  match h.numeric? v with
  | some x => .ok x
  | none => .error .operandsNotNumbers

/-- Applies an operator to the elements of lists: pairwise to two lists of one length, or each
element against one number. -/
def elementwiseItems (h : Heap) (op : Arithmetic) (a b : Value) : Except Fault (Array Value) := do
  match h.listOf? a, h.listOf? b with
  | some l, some r =>
    if l.size ≠ r.size then throw .lengthsDiffer
    (l.zip r).mapM fun (x, y) => return .number (op.apply (← operand h x) (← operand h y))
  | some l, none =>
    let y ← operand h b
    l.mapM fun x => return .number (op.apply (← operand h x) y)
  | none, some r =>
    let x ← operand h a
    r.mapM fun y => return .number (op.apply x (← operand h y))
  | none, none => throw .noListOperand

/-- An arithmetic operator on the elements of lists. -/
def elementwise (op : Arithmetic) : Exec Unit := do
  let a ← peek 1
  let b ← peek 0
  match elementwiseItems (← heap) op a b with
  | .ok items => do
    drop 2
    push (← allocValue (.list items))
  | .error e => throw e

/-- The sum of values that are not both numbers: texts and lists are put together. -/
def addition (a b : Value) : Exec Unit := do
  let h ← heap
  if (h.textOf? a).isSome || (h.textOf? b).isSome then
    let text := h.display a ++ h.display b
    drop 2
    push (← internValue text)
  else
    match h.listOf? a, h.listOf? b with
    | some l, some r =>
      drop 2
      push (← allocValue (.list (l ++ r)))
    | _, _ => overloaded a "+" 1 .operandsNotAddable

/-- An arithmetic operator. -/
def arithmetic (op : Arithmetic) : Exec Unit := do
  let a ← peek 1
  let b ← peek 0
  let h ← heap
  match h.numeric? a, h.numeric? b with
  | some x, some y => replaceTop 2 (.number (op.apply x y))
  | _, _ =>
    match op with
    | .add => addition a b
    | _ => overloaded a op.symbol 1 op.complaint

/-- A comparison: of two numbers, or of two texts. -/
def compare (o : Comparison) : Exec Unit := do
  let a ← peek 1
  let b ← peek 0
  let h ← heap
  match h.numeric? a, h.numeric? b with
  | some x, some y => replaceTop 2 (.bool (o.ofNumbers x y))
  | _, _ =>
    match h.textOf? a, h.textOf? b with
    | some x, some y => replaceTop 2 (.bool (o.ofTexts x y))
    | _, _ => throw .operandsNotNumbers

/-- An operator on the bits of integers. -/
def bitwise (op : Bitwise) : Exec Unit := do
  let a ← peek 1
  let b ← peek 0
  let h ← heap
  match h.numeric? a, h.numeric? b with
  | some x, some y =>
    replaceTop 2 (.number (Number.ofInteger (op.apply (word x) (word y)).toInt))
  | _, _ => throw .operandsNotNumbers

/-- Adds to the number on top. -/
def increase (delta : Float) : Exec Unit := do
  match (← get).heap.numeric? (← peek 0) with
  | some x => replaceTop 1 (.number (x + delta))
  | none => throw .operandNotNumber

/-- The negation of a truth value. -/
def negateTruth : Exec Unit := do
  let v ← peek 0
  match ← operatorMethod? v "!" with
  | some method => callClosure method 0
  | none => replaceTop 1 (.bool v.isFalsey)

/-- The negation of a number. -/
def negate : Exec Unit := do
  let v ← peek 0
  match (← get).heap.numeric? v with
  | some x => replaceTop 1 (.number (-x))
  | none => overloaded v "-" 0 .operandNotNumber

/-- Are the two values on top equal? -/
def equality : Exec Unit := do
  let b ← pop
  let a ← pop
  push (.bool ((← get).heap.equal a b))

/-! ## Ranges -/

/-- An end of a range: a number, or a text of one character. -/
def endpoint? (h : Heap) (v : Value) : Option (Float × Bool) :=
  match h.numeric? v with
  | some x => some (x, false)
  | none =>
    match h.textOf? v with
    | some s =>
      match s.toList with
      | [c] => some (Float.ofNat c.toNat, true)
      | _ => none
    | none => none

/-- The step of a range: the one given, or one towards the stop. -/
def stepOf (h : Heap) (given : Option Value) (start stop : Float) : Except Fault Float :=
  match given with
  | some v =>
    match h.numeric? v with
    | some x => if x == 0 then .error .zeroStep else .ok x
    | none => .error .notExpandable
  | none => .ok (if stop < start then -1 else 1)

/-- The items of a range of numbers or characters. -/
def rangeItems (characters : Bool) (numbers : Array Float) : Exec (Array Value) := do
  if characters then
    let texts := numbers.toList.map fun x => String.singleton (Char.ofNat (Number.toCodePoint x))
    return (← texts.mapM internValue).toArray
  else return numbers.map .number

/-- Replaces start, second and third by the list of a range. Without a third the second is the stop,
else the second is the step and the third the stop. -/
def expand (exclusive : Bool) : Exec Unit := do
  let third ← pop
  let second ← pop
  let first ← pop
  let (given, last) := if third.isNone then (none, second) else (some second, third)
  let h ← heap
  match endpoint? h first, endpoint? h last with
  | some (start, characters), some (stop, _) =>
    match stepOf h given start stop with
    | .error e => throw e
    | .ok step =>
      let r : Range := { step, stop, exclusive, characters }
      match r.numbers? start with
      | none => throw .endless
      | some numbers => push (← allocValue (.list (← rangeItems characters numbers)))
  | _, _ => throw .notExpandable

/-! ## Membership and types -/

/-- Does a container have an item? -/
def member? (h : Heap) (item : Value) : Value → Option Bool
  | .obj r =>
    match h.get? r with
    | some (.list items) => some (items.any fun v => h.equal v item)
    | some (.dict d) => some ((h.textOf? item).any d.contains)
    | some (.string s _) => some ((h.textOf? item).any (Text.contains s))
    | _ => none
  | _ => none

/-- Is the item below the container on top in it? -/
def membership : Exec Unit := do
  let container ← pop
  let item ← pop
  match member? (← heap) item container with
  | some found => push (.bool found)
  | none => throw .notContainer

/-- Is the value of a type: does `type` report the name, is it the name of a class the value is an
instance of, or of the enumeration it is a member of? -/
def isType (h : Heap) (v : Value) (name : String) : Bool :=
  h.typeName v == name ||
    match v with
    | .obj r =>
      match h.get? r with
      | some (.instanceObj i) => (h.ancestry i.classRef).any fun (_, c) => h.name c.name == name
      | some (.enumMember m) =>
        match h.get? m.owner with
        | some (.enumeration e) => h.name e.name == name
        | _ => false
      | some (.native _) | some (.boundMethod _) => name == "func"
      | _ => false
    | _ => false

/-- Tests the type of a value; for an instance that is a search through the ancestry of its class. -/
def testType (v : Value) (name : String) : Exec Bool := do
  let h ← heap
  let found := isType h v name
  match v with
  | .obj r =>
    match h.instance? r with
    | some i => discard (searched i.classRef (if found then some r else none))
    | none => pure ()
  | _ => pure ()
  return found

/-! ## Subscripts -/

/-- The position an index means among so many; negative ones count from the end. -/
def position? (index : Float) (size : Nat) : Option Nat :=
  let i := Number.toInt64 index
  let i := if i < 0 then i + size else i
  if 0 ≤ i ∧ i < size then some i.toNat else none

/-- The position a value means among so many. -/
def positionOf? (h : Heap) (size : Nat) (v : Value) : Option Nat :=
  (h.numeric? v).bind fun x => position? x size

/-- The characters of a text at the positions that an index or a list of them means. -/
def pickedText? (h : Heap) (s : String) (index : Value) : Option String :=
  let chars := s.toList.toArray
  let pick (v : Value) : Option Char := (positionOf? h chars.size v).bind fun i => chars[i]?
  match h.listOf? index with
  | some indices => (indices.toList.mapM pick).map String.ofList
  | none => (pick index).map String.singleton

/-- What a subscript finds: a value, a new list or a new text. -/
def subscripted (h : Heap) (o : Obj) (index : Value) :
    Except Fault (Value ⊕ Array Value ⊕ String) :=
  match o with
  | .list items =>
    match h.numeric? index, h.listOf? index with
    | some x, _ =>
      match (position? x items.size).bind fun i => items[i]? with
      | some v => .ok (.inl v)
      | none => .error .listIndexOutOfBounds
    | none, some indices =>
      match indices.mapM fun v => (positionOf? h items.size v).bind fun i => items[i]? with
      | some picked => .ok (.inr (.inl picked))
      | none => .error .listIndexOutOfBounds
    | none, none => .error .listIndexNotNumber
  | .string s _ =>
    match pickedText? h s index with
    | some t => .ok (.inr (.inr t))
    | none => .error .stringIndexOutOfBounds
  | .dict d =>
    match h.textOf? index, h.numeric? index with
    | some k, _ => .ok (.inl ((d.get? k).getD .none))
    | none, some x =>
      match d.keyAt? (Number.toIndex x) with
      | some k => .ok (.inr (.inr k))
      | none => .error .dictIndexOutOfBounds
    | none, none => .error .dictKeyNotString
  | _ => .error .notIndexable

/-- Replaces a container and an index by what the container has there. -/
def subscript : Exec Unit := do
  let container ← peek 1
  let index ← peek 0
  match container with
  | .obj r =>
    let h ← heap
    match h.get? r with
    | some (.instanceObj _) => overloaded container "[]" 1 .notIndexable
    | some o =>
      match subscripted h o index with
      | .ok (.inl v) => replaceTop 2 v
      | .ok (.inr (.inl items)) => replaceTop 2 (← allocValue (.list items))
      | .ok (.inr (.inr text)) => replaceTop 2 (← internValue text)
      | .error e => throw e
    | none => throw .stuck
  | _ => throw .notIndexable

/-- Replaces a container, an index and a value by the value, which is put there. -/
def subscriptAssign : Exec Unit := do
  let container ← peek 2
  let index ← peek 1
  let value ← peek 0
  match container with
  | .obj r =>
    let h ← heap
    match h.get? r with
    | some (.list items) =>
      let size := items.size
      match h.numeric? index with
      | none => throw .listIndexNotNumber
      | some x =>
        match position? x size with
        | none => throw .listIndexOutOfBounds
        | some i =>
          modifyList r fun items => items.setIfInBounds i value
          replaceTop 3 value
    | some (.dict _) =>
      match h.textOf? index with
      | some k =>
        modifyDict r fun d => d.insert k value
        replaceTop 3 value
      | none => throw .dictKeyNotString
    | some (.instanceObj _) => overloaded container "[=]" 2 .notIndexable
    | some (.string ..) => throw .stringsImmutable
    | _ => throw .notIndexable
  | _ => throw .notIndexable

end Exec

end ScriptMachine
