import ScriptMachine.Machine.Builtins
import ScriptMachine.Text.Case
import ScriptMachine.Text.Search

/-!
# ScriptMachine.Machine.Methods — the methods of lists, dictionaries and strings
-/

namespace ScriptMachine.Exec

/-- Changes a list. -/
def modifyList (r : Ref) (f : Array Value → Array Value) : Exec Unit :=
  modifyHeap (·.modify r fun o =>
    match o with
    | .list items => .list (f items)
    | o => o)

/-- Changes a dictionary. -/
def modifyDict (r : Ref) (f : Dict Value → Dict Value) : Exec Unit :=
  modifyHeap (·.modify r fun o =>
    match o with
    | .dict d => .dict (f d)
    | o => o)

/-- Copies lists and dictionaries with `levels` levels left; what lies deeper is shared. -/
def deepCopy : (levels : Nat) → Value → Exec Value
  | levels + 1, .obj r => do
    match (← get).heap.get? r with
    | some (.list items) =>
      let copied ← items.toList.mapM (deepCopy levels)
      allocValue (.list copied.toArray)
    | some (.dict d) =>
      let copied ← d.values.mapM (deepCopy levels)
      allocValue (.dict (Dict.ofList (d.keys.zip copied)))
    | _ => return .obj r
  | _, v => return v

/-- The `i`-th argument as an index of a list of `size` items; negative ones count from the end. -/
def indexArgument (args : Array Value) (i size : Nat) (allowEnd : Bool) (function : String) :
    Exec Nat := do
  let n := Number.toInt64 (← numberArgument args i function)
  let n := if n < 0 then n + size else n
  let limit : Int := if allowEnd then size else (size : Int) - 1
  if n < 0 ∨ limit < n then throw .listIndexOutOfBounds
  return n.toNat

/-- The items of a list. -/
def listItems (r : Ref) : Exec (Array Value) := do
  need ((← get).heap.listOf? (.obj r))

/-- The dictionary of a reference. -/
def dictOf (r : Ref) : Exec (Dict Value) := do
  match (← get).heap.get? r with
  | some (.dict d) => return d
  | _ => throw .stuck

/-- The `i`-th argument as an index of a list. -/
def listIndex (r : Ref) (args : Array Value) (i : Nat) (allowEnd : Bool) (function : String) :
    Exec Nat := do
  indexArgument args i (← listItems r).size allowEnd function

/-- The string values of some texts, as a list. -/
def internList (texts : List String) : Exec Value := do
  allocValue (.list (← texts.mapM internValue).toArray)

/-- A method of a list. -/
def listMethod (r : Ref) (name : String) (args : Array Value) : Exec Value :=
  match name with
  | "push" | "add" => do
    modifyList r (· ++ args)
    return .obj r
  | "pop" => do
    match (← listItems r).back? with
    | some v =>
      modifyList r (·.pop)
      return v
    | none => throw .popFromEmpty
  | "insert" => do
    let i ← listIndex r args 0 true name
    modifyList r (·.insertIdxIfInBounds i (argument args 1))
    return .obj r
  | "remove" => do
    let i ← listIndex r args 0 false name
    let v ← need (← listItems r)[i]?
    modifyList r (·.eraseIdxIfInBounds i)
    return v
  | "contains" => do
    let items ← listItems r
    let h ← heap
    return .bool (items.any fun v => h.equal v (argument args 0))
  | "index" => do
    let items ← listItems r
    let h ← heap
    match items.findIdx? fun v => h.equal v (argument args 0) with
    | some i => return .number (Float.ofNat i)
    | none => return .number (-1)
  | "copy" => do allocValue (.list (← listItems r))
  | "deepCopy" => deepCopy (maxDepth + 1) (.obj r)
  | "join" => do
    let separator ←
      match argument args 0 with
      | .none => pure ""
      | _ => stringArgument args 0 name
    let items ← listItems r
    let h ← heap
    internValue (String.intercalate separator (items.toList.map h.display))
  | "swap" => do
    let i ← listIndex r args 0 false name
    let j ← listIndex r args 1 false name
    modifyList r (·.swapIfInBounds i j)
    return .obj r
  | "clear" => do
    modifyList r fun _ => #[]
    return .obj r
  | _ => throw (.noSuchMethod "List" name)

/-- A method of a dictionary. -/
def dictMethod (r : Ref) (name : String) (args : Array Value) : Exec Value :=
  match name with
  | "get" => do
    let k ← stringArgument args 0 name
    return ((← dictOf r).get? k).getD (argument args 1)
  | "keys" => do internList (← dictOf r).keys
  | "values" => do allocValue (.list (← dictOf r).values.toArray)
  | "remove" => do
    let k ← stringArgument args 0 name
    let removed := (← dictOf r).get? k
    modifyDict r fun d => (d.remove k).2
    return removed.getD .none
  | "exists" => do
    let k ← stringArgument args 0 name
    return .bool ((← dictOf r).contains k)
  | "copy" => do allocValue (.dict (← dictOf r))
  | "deepCopy" => deepCopy (maxDepth + 1) (.obj r)
  | _ => throw (.noSuchMethod "Dict" name)

/-- A method of a string. -/
def stringMethod (s : String) (name : String) (args : Array Value) : Exec Value :=
  match name with
  | "upper" => internValue (Text.upper s)
  | "lower" => internValue (Text.lower s)
  | "trim" => internValue (Text.trim s)
  | "replace" => do
    let needle ← stringArgument args 0 name
    let replacement ← stringArgument args 1 name
    internValue (Text.replace s needle replacement)
  | "split" =>
    match argument args 0 with
    | .none => internList (Text.words s)
    | _ => do internList (Text.splitOn s (← stringArgument args 0 name))
  | "contains" => do return .bool (Text.contains s (← stringArgument args 0 name))
  | "startsWith" => do return .bool (Text.startsWith s (← stringArgument args 0 name))
  | "endsWith" => do return .bool (Text.endsWith s (← stringArgument args 0 name))
  | "find" => do
    match Text.indexOf? (← stringArgument args 0 name).toList s.toList with
    | some i => return .number (Float.ofNat i)
    | none => return .number (-1)
  | _ => throw (.noSuchMethod "String" name)

/-- The result of a built-in method; other objects have none. -/
def runMethod (r : Ref) (name : String) (args : Array Value) : Exec Value := do
  match (← get).heap.get? r with
  | some (.list _) => listMethod r name args
  | some (.dict _) => dictMethod r name args
  | some (.string s _) => stringMethod s name args
  | _ => throw .noMethods

end ScriptMachine.Exec
