import ScriptMachine.Heap
import ScriptMachine.Number.Decimal

/-!
# ScriptMachine.Heap.Display — how values are shown

A value is shown as a text. Strings inside containers are put in single quotes, on request also at
the top. Containers are shown down to a fixed depth; what lies deeper is an ellipsis, so that cyclic
containers have a text too.
-/

namespace ScriptMachine

/-- How far printing, equality and deep copies descend into nested containers. -/
def maxDepth : Nat := 32

namespace Heap

/-- The name of a compiled function; scripts have none. -/
def prototypeName (h : Heap) (p : Prototype) (fallback : String) : String :=
  (p.name.map h.name).getD fallback

/-- A kind and a name in angle brackets. -/
def tagged (kind name : String) : String :=
  "<" ++ kind ++ " " ++ name ++ ">"

/-- The text of a function. -/
def functionText (h : Heap) (p : Prototype) : String :=
  tagged "func" (h.prototypeName p "script")

/-- The text of a bound method. -/
def boundText (h : Heap) (b : BoundMethod) : String :=
  match (h.closure? b.method).bind fun c => h.prototype? c.prototype with
  | some p =>
    tagged (if p.isStatic then "static method" else "bound method") (h.prototypeName p "")
  | none => tagged "bound method" ""

/-- The text of a value with `levels` container levels left; strings are quoted iff `quoted`. -/
def showAt (h : Heap) : (levels : Nat) → (quoted : Bool) → Value → String
  | _, _, .none => "null"
  | _, _, .bool b => if b then "true" else "false"
  | _, _, .number n => Number.text n
  | 0, _, .obj _ => "..."
  | levels + 1, quoted, .obj r =>
    match h.get? r with
    | none => ""
    | some (.string s _) => if quoted then "'" ++ s ++ "'" else s
    | some (.prototype p) => h.functionText p
    | some (.closure c) => ((h.prototype? c.prototype).map h.functionText).getD ""
    | some (.upvalue _) => "upvalue"
    | some (.classObj c) => tagged "class" (h.name c.name)
    | some (.instanceObj i) =>
      tagged (((h.class? i.classRef).map fun c => h.name c.name).getD "") "instance"
    | some (.boundMethod b) => h.boundText b
    | some (.list items) =>
      "[" ++ String.intercalate ", " (items.toList.map (h.showAt levels true)) ++ "]"
    | some (.dict d) =>
      let entries := d.toList.map fun (k, v) => "\"" ++ k ++ "\": " ++ h.showAt levels true v
      "\x7b" ++ String.intercalate ", " entries ++ "\x7d"
    | some (.enumeration e) => tagged "enum" (h.name e.name)
    | some (.enumMember m) => h.showAt levels quoted m.value
    | some (.package p) => tagged "package" (h.name p.name)
    | some (.native n) => tagged "native func" n.name
    | some (.task t) => tagged "task" (h.name t.name)

/-- **`showValue h quoted v`** — the text of a value. -/
def showValue (h : Heap) (quoted : Bool) (v : Value) : String :=
  h.showAt (maxDepth + 1) quoted v

/-- The text of a value in output and concatenation. -/
def display (h : Heap) (v : Value) : String :=
  h.showValue false v

end Heap

end ScriptMachine
