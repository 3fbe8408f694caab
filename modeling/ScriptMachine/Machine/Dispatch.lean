import ScriptMachine.Machine.Operators

/-!
# ScriptMachine.Machine.Dispatch — callees, methods and properties

What can be called: closures, native functions, classes (which makes an instance) and bound methods.
A method call on an instance prefers extensions of the type `instance`, then methods of the class
and the classes above, then fields; on a class methods, then statics, then extensions; on a package
its symbols; on everything else extensions, then the built-in methods.
-/

namespace ScriptMachine

namespace Machine

/-- The extension a type has under a name. -/
def extension? (m : Machine) (type : String) (k : Key) : Option Ref :=
  match m.extensions.lookup type with
  | some t => (t.get? k).bind Value.ref?
  | none => none

end Machine

namespace Exec

/-! ## Calls -/

/-- Calls a native function; its result replaces the callee and the arguments. -/
def callNative (n : Native) (argc : Nat) : Exec Unit := do
  let first := (← height) - argc
  let result ← runNative n (← valuesFrom first)
  truncate (first - 1)
  push result

/-- Makes an instance in the callee slot, and calls its initialiser if there is one. -/
def instantiate (classRef : Ref) (argc : Nat) : Exec Unit := do
  let c ← need ((← get).heap.class? classRef)
  let target ← alloc (.instanceObj ⟨classRef, c.fields⟩)
  setStackAt ((← height) - argc - 1) (.obj target)
  let m ← get
  match ← searched classRef (m.heap.method? classRef (← key m.names.init)) with
  | some init => callClosure init argc
  | none => if argc ≠ 0 then throw (.unexpectedArguments argc)

/-- Calls a value whose slot and arguments are on the stack. -/
def callValue (callee : Value) (argc : Nat) : Exec Unit := do
  match callee with
  | .obj r =>
    match (← get).heap.get? r with
    | some (.closure _) => callClosure r argc
    | some (.native n) => callNative n argc
    | some (.classObj _) => instantiate r argc
    | some (.boundMethod b) =>
      setStackAt ((← height) - argc - 1) b.receiver
      callClosure b.method argc
    | _ => throw .notCallable
  | _ => throw .notCallable

/-- Puts a value in the callee slot and calls it. -/
def callInstead (v : Value) (argc : Nat) : Exec Unit := do
  setStackAt ((← height) - argc - 1) v
  callValue v argc

/-! ## Methods -/

/-- The complaint about a property that does not exist. -/
def noProperty {α : Type} (name : Ref) : Exec α := do
  throw (.undefinedProperty (← nameText name))

/-- The extension the type of a value has under a name. -/
def extension? (target : Value) (name : Ref) : Exec (Option Ref) := do
  let k ← key name
  let m ← get
  return m.extension? (m.heap.typeName target) k

/-- A method call on a class. -/
def invokeOnClass (classRef name : Ref) (argc : Nat) : Exec Unit := do
  let k ← key name
  let h ← heap
  match ← searched classRef (h.method? classRef k), h.static? classRef k with
  | some method, _ => callClosure method argc
  | none, some v => callInstead v argc
  | none, none =>
    match ← extension? (.obj classRef) name with
    | some method => callClosure method argc
    | none => noProperty name

/-- A method call on a package. -/
def invokeOnPackage (p : Package) (name : Ref) (argc : Nat) : Exec Unit := do
  match p.symbols.get? (← key name) with
  | some v => callInstead v argc
  | none => noProperty name

/-- A method call on an instance. -/
def invokeOnInstance (target name : Ref) (argc : Nat) : Exec Unit := do
  match ← extension? (.obj target) name with
  | some method => callClosure method argc
  | none =>
    let k ← key name
    let h ← heap
    let i ← need (h.instance? target)
    match ← searched i.classRef (h.method? i.classRef k), i.fields.get? k with
    | some method, _ => callClosure method argc
    | none, some field => callInstead field argc
    | none, none => noProperty name

/-- A method call on any other value. -/
def invokeBuiltin (target : Value) (name : Ref) (argc : Nat) : Exec Unit := do
  match ← extension? target name with
  | some method => callClosure method argc
  | none =>
    match target with
    | .obj r =>
      let slot := (← height) - argc - 1
      let result ← runMethod r (← nameText name) (← valuesFrom (slot + 1))
      truncate slot
      push result
    | _ => throw .noMethods

/-- A method call on the value below the arguments. -/
def invoke (name : Ref) (argc : Nat) : Exec Unit := do
  let target ← peek argc
  match target with
  | .obj r =>
    match (← get).heap.get? r with
    | some (.classObj _) => invokeOnClass r name argc
    | some (.package p) => invokeOnPackage p name argc
    | some (.instanceObj _) => invokeOnInstance r name argc
    | _ => invokeBuiltin target name argc
  | _ => invokeBuiltin target name argc

/-- The method a superclass has under a name. -/
def superMethod (superclass : Value) (name : Ref) : Exec Ref := do
  match (← get).heap.classOf? superclass with
  | none => throw .superclassNotClass
  | some classRef =>
    match ← searched classRef ((← get).heap.method? classRef (← key name)) with
    | some method => return method
    | none => noProperty name

/-- Calls a method of the superclass on the receiver below the arguments. -/
def invokeSuper (superclass : Value) (name : Ref) (argc : Nat) : Exec Unit := do
  callClosure (← superMethod superclass name) argc

/-- A method together with its receiver. -/
def bindMethod (target : Value) (method : Ref) : Exec Value :=
  allocValue (.boundMethod ⟨target, method⟩)

/-! ## Properties -/

/-- The property of an instance: a field, a method or a static of its class. -/
def instanceProperty (r : Ref) (i : InstanceObj) (name : Ref) : Exec Value := do
  let k ← key name
  match i.fields.get? k with
  | some v => return v
  | none =>
    let h ← heap
    match ← searched i.classRef (h.method? i.classRef k), h.static? i.classRef k with
    | some method, _ => bindMethod (.obj r) method
    | none, some v => return v
    | none, none => noProperty name

/-- The property of a class: a static or a method. -/
def classProperty (r name : Ref) : Exec Value := do
  let k ← key name
  let h ← heap
  match ← searched r (h.static? r k), h.method? r k with
  | some v, _ => return v
  | none, some method => return .obj method
  | none, none => noProperty name

/-- The property of a task. -/
def taskProperty (t : TaskHandle) (name : Ref) : Exec Value := do
  match ← nameText name with
  | "name" => return .obj t.name
  | "id" => return .number (Float.ofNat t.id)
  | "done" => return .bool (t.status != .running)
  | "result" => return t.result
  | _ => noProperty name

/-- The property of an enumeration member. -/
def memberProperty (m : EnumMember) (name : Ref) : Exec Value := do
  match ← nameText name with
  | "name" => return .obj m.name
  | "value" => return m.value
  | _ => noProperty name

/-- An item of a table as a property. -/
def tableProperty (t : Table Value) (name : Ref) : Exec Value := do
  match t.get? (← key name) with
  | some v => return v
  | none => noProperty name

/-- The property of a value. -/
def getProperty (target : Value) (name : Ref) : Exec Value := do
  match target with
  | .obj r =>
    match (← get).heap.get? r with
    | some (.instanceObj i) => instanceProperty r i name
    | some (.classObj _) => classProperty r name
    | some (.enumeration e) => tableProperty e.members name
    | some (.enumMember m) => memberProperty m name
    | some (.package p) => tableProperty p.symbols name
    | some (.task t) => taskProperty t name
    | _ => throw .noProperties
  | _ => throw .noProperties

/-- Can properties of an object be assigned? -/
def hasFields : Obj → Bool
  | .instanceObj _ | .classObj _ | .package _ => true
  | _ => false

/-- An object with a property set. -/
def withProperty (k : Key) (v : Value) : Obj → Obj
  | .instanceObj i => .instanceObj { i with fields := i.fields.set k v }
  | .classObj c => .classObj { c with statics := c.statics.set k v }
  | .package p => .package { p with symbols := p.symbols.set k v }
  | o => o

/-- Sets the property of a value. -/
def setProperty (target : Value) (name : Ref) (v : Value) : Exec Unit := do
  match target with
  | .obj r =>
    let k ← key name
    if ((← get).heap.get? r).any hasFields then modifyHeap (·.modify r (withProperty k v))
    else throw .noFields
  | _ => throw .noFields

end Exec

end ScriptMachine
