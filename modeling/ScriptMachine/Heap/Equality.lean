import ScriptMachine.Heap.Display

/-!
# ScriptMachine.Heap.Equality — equality of script values

Numbers compare as numbers, and a number equals an enumeration member that carries it. Objects are
equal when they are the same object; lists and dictionaries also when they have equal contents, down
to the depth limit. Strings are interned, so the same text is the same object.
-/

namespace ScriptMachine.Heap

/-- Does the object of a reference carry this number as an enumeration member? -/
def carries (h : Heap) (r : Ref) (n : Float) : Bool :=
  match h.get? r with
  | some (.enumMember m) =>
    match m.value with
    | .number k => k == n
    | _ => false
  | _ => false

/-- Equality with `levels` container levels left. -/
def equalAt (h : Heap) : (levels : Nat) → Value → Value → Bool
  | _, .none, .none => true
  | _, .bool x, .bool y => x == y
  | _, .number x, .number y => x == y
  | _, .number n, .obj r => h.carries r n
  | _, .obj r, .number n => h.carries r n
  | 0, .obj x, .obj y => x == y
  | levels + 1, .obj x, .obj y =>
    x == y ||
    match h.get? x, h.get? y with
    | some (.list l), some (.list r) =>
      l.size == r.size && (l.toList.zip r.toList).all fun (a, b) => h.equalAt levels a b
    | some (.dict l), some (.dict r) =>
      l.size == r.size && l.toList.all fun (k, v) =>
        match r.get? k with
        | some o => h.equalAt levels v o
        | none => false
    | _, _ => false
  | _, _, _ => false

/-- **`equal h a b`** — script equality. -/
def equal (h : Heap) (a b : Value) : Bool :=
  h.equalAt (maxDepth + 1) a b

end ScriptMachine.Heap
