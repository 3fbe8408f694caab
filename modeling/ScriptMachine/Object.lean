import ScriptMachine.Chunk
import ScriptMachine.Dict
import ScriptMachine.Table

/-!
# ScriptMachine.Object — the kinds of heap objects

Everything that is not a plain value lives in the heap as one of these objects. Objects refer to
each other only by reference, so cycles need no care here. `Obj.references` lists what an object
keeps alive and is the only thing the collector knows about it.
-/

namespace ScriptMachine

/-- A documentation comment with the line of the declaration it precedes. -/
structure Documentation where
  id : Nat
  line : Nat
  text : String
deriving Repr, DecidableEq, Inhabited

/-- A compiled function, before it is closed over its captures. -/
structure Prototype where
  arity : Nat
  captureCount : Nat
  isStatic : Bool
  name : Option Ref
  path : Option Ref
  chunk : Chunk
  docs : Array Documentation
deriving Inhabited

/-- A function value. -/
structure Closure where
  prototype : Ref
  upvalues : Array Ref
  package : Option Ref
deriving Inhabited

/-- A captured variable: still a stack slot of the task that declared it, or moved to this cell. -/
inductive Upvalue where
  | onStack (task : Nat) (slot : Nat)
  | closed (value : Value)
deriving Inhabited

/-- A class. Fields are the defaults a new instance starts with. -/
structure ClassObj where
  name : Ref
  superclass : Option Ref
  methods : Table Value
  fields : Table Value
  statics : Table Value
  package : Option Ref
deriving Inhabited

/-- An instance of a class. -/
structure InstanceObj where
  classRef : Ref
  fields : Table Value
deriving Inhabited

/-- A method taken off its receiver. -/
structure BoundMethod where
  receiver : Value
  method : Ref
deriving Inhabited

/-- An enumeration; `last` is the value of the latest member. -/
structure Enumeration where
  name : Ref
  members : Table Value
  last : Value
deriving Inhabited

/-- A member of an enumeration. -/
structure EnumMember where
  owner : Ref
  name : Ref
  value : Value
deriving Inhabited

/-- The names a source file defines. -/
structure Package where
  name : Ref
  symbols : Table Value
  parent : Option Ref
deriving Inhabited

/-- The functions every program starts with. -/
inductive Builtin where
  | print | println | len | type | str | num | int | bool | clock | time | wait | throw | gc
  | memory | rand | floor | ceil | round | sqrt | abs
deriving Repr, DecidableEq, Inhabited

/-- A function supplied by the embedding program. It sees how values are shown and its arguments,
and answers with a value or raises a message. -/
abbrev HostFunction := (Value → String) → List Value → Except String Value

/-- What a native function does. -/
inductive NativeBody where
  | builtin (b : Builtin)
  | host (f : HostFunction)

instance : Inhabited NativeBody :=
  ⟨.builtin .print⟩

/-- A native function. -/
structure Native where
  name : String
  body : NativeBody
deriving Inhabited

/-- Where a task stands. -/
inductive TaskStatus where
  | running
  | finished
  | aborted
deriving Repr, DecidableEq, Inhabited

/-- What scripts hold of a task. -/
structure TaskHandle where
  name : Ref
  id : Nat
  status : TaskStatus
  result : Value
deriving Inhabited

/-- A heap object. -/
inductive Obj where
  | string (text : String) (hash : UInt32)
  | prototype (p : Prototype)
  | closure (c : Closure)
  | upvalue (u : Upvalue)
  | classObj (c : ClassObj)
  | instanceObj (i : InstanceObj)
  | boundMethod (b : BoundMethod)
  | list (items : Array Value)
  | dict (d : Dict Value)
  | enumeration (e : Enumeration)
  | enumMember (m : EnumMember)
  | package (p : Package)
  | native (n : Native)
  | task (t : TaskHandle)
deriving Inhabited

/-- The references a table holds: its keys and its values. -/
def Table.references (t : Table Value) : List Ref :=
  t.toList.flatMap fun (k, v) => k.ref :: v.ref?.toList

namespace Obj

/-- **`references o`** — what `o` keeps alive. -/
def references : Obj → List Ref
  | .string .. | .native _ => []
  | .prototype p =>
    p.name.toList ++ p.path.toList ++ p.chunk.constants.toList.filterMap Value.ref?
  | .closure c => c.prototype :: (c.upvalues.toList ++ c.package.toList)
  | .upvalue (.closed v) => v.ref?.toList
  | .upvalue (.onStack ..) => []
  | .classObj c =>
    c.name :: (c.superclass.toList ++ c.package.toList ++ c.methods.references
      ++ c.fields.references ++ c.statics.references)
  | .instanceObj i => i.classRef :: i.fields.references
  | .boundMethod b => b.method :: b.receiver.ref?.toList
  | .list items => items.toList.filterMap Value.ref?
  | .dict d => d.values.filterMap Value.ref?
  | .enumeration e => e.name :: (e.members.references ++ e.last.ref?.toList)
  | .enumMember m => m.owner :: m.name :: m.value.ref?.toList
  | .package p => p.name :: (p.parent.toList ++ p.symbols.references)
  | .task t => t.name :: t.result.ref?.toList

/-- The bytes an object is charged with: a fixed part and its contents. -/
def byteSize (o : Obj) : Nat :=
  let contents :=
    match o with
    | .string s _ => s.utf8ByteSize
    | .prototype p =>
      p.chunk.code.size + 16 * p.chunk.constants.size + 16 * p.chunk.lines.size + 32 * p.docs.size
    | .closure c => 4 * c.upvalues.size
    | .classObj c => 32 * (c.methods.capacity + c.fields.capacity + c.statics.capacity)
    | .instanceObj i => 32 * i.fields.capacity
    | .list items => 16 * items.size
    | .dict d => 40 * d.capacity + d.keys.foldl (fun n k => n + k.utf8ByteSize) 0
    | .enumeration e => 32 * e.members.capacity
    | .package p => 32 * p.symbols.capacity
    | .native n => n.name.utf8ByteSize
    | .upvalue _ | .boundMethod _ | .enumMember _ | .task _ => 0
  120 + contents

/-- The name `type` reports for an object and `is` tests against. -/
def typeName : Obj → String
  | .string .. => "str"
  | .prototype _ | .closure _ => "func"
  | .upvalue _ => "upvalue"
  | .classObj _ => "class"
  | .instanceObj _ => "instance"
  | .boundMethod _ => "method"
  | .list _ => "list"
  | .dict _ => "dict"
  | .enumeration _ => "enum"
  | .enumMember _ => "enumvalue"
  | .package _ => "package"
  | .native _ => "native"
  | .task _ => "task"

end Obj

end ScriptMachine
