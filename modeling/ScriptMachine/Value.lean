/-!
# ScriptMachine.Value — script values

A value is nothing, a truth value, a number, or a reference to an object of the heap.
-/

namespace ScriptMachine

/-- A reference to a heap object: the index of its slot. -/
structure Ref where
  index : Nat
deriving Repr, DecidableEq, Hashable, Inhabited

/-- A script value. -/
inductive Value where
  | none
  | bool (b : Bool)
  | number (n : Float)
  | obj (r : Ref)
deriving Repr, Inhabited

namespace Value

/-- Nothing and false are falsey; every other value is truthy. -/
def isFalsey : Value → Bool
  | .none | .bool false => true
  | _ => false

/-- Is the value nothing? -/
def isNone : Value → Bool
  | .none => true
  | _ => false

/-- The number a value is. -/
def number? : Value → Option Float
  | .number n => some n
  | _ => Option.none

/-- The object a value refers to. -/
def ref? : Value → Option Ref
  | .obj r => some r
  | _ => Option.none

end Value

end ScriptMachine
