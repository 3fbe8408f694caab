import ScriptMachine.Machine.Dispatch

/-!
# ScriptMachine.Machine.Declarations — classes, enumerations and extensions

Declarations run like other code: a class starts empty and is filled member by member. A subclass
starts with copies of the fields and statics of its superclass and finds methods through it.
-/

namespace ScriptMachine.Exec

/-- A class without members. -/
def newClass (name : Ref) : Exec Unit := do
  let package := (← frame).package
  push (← allocValue (.classObj
    { name, superclass := none, methods := .empty, fields := .empty, statics := .empty, package }))

/-- An enumeration without members. -/
def newEnumeration (name : Ref) : Exec Unit := do
  push (← allocValue (.enumeration { name, members := .empty, last := .none }))

/-- Changes a class. -/
def modifyClass (r : Ref) (f : ClassObj → ClassObj) : Exec Unit :=
  modifyHeap (·.modify r fun o =>
    match o with
    | .classObj c => .classObj (f c)
    | o => o)

/-- Makes the class on top a subclass of the one below, which stays. -/
def inherit : Exec Unit := do
  let subclass ← pop
  match (← get).heap.classOf? (← peek 0) with
  | none => throw .superclassNotClass
  | some superclass =>
    let child ← need ((← get).heap.classOf? subclass)
    let parent ← need ((← get).heap.class? superclass)
    modifyClass child fun c =>
      { c with
        superclass := some superclass
        fields := c.fields.addAll parent.fields
        statics := c.statics.addAll parent.statics }

/-- Gives the class below the top a method. -/
def defineMethod (name : Ref) : Exec Unit := do
  let method ← pop
  let owner ← pop
  let k ← key name
  match (← get).heap.classOf? owner with
  | some r => modifyClass r fun c => { c with methods := c.methods.set k method }
  | none => pure ()

/-- The value of a new enumeration member: the one given, or the next number. -/
def memberValue? (given last : Value) : Option Value :=
  match given, last with
  | .none, .none => some (.number 0)
  | .none, .number n => some (.number (n + 1))
  | .none, _ => none
  | v, _ => some v

/-- Gives an enumeration a member. -/
def defineMember (owner name : Ref) (given last : Value) : Exec Unit := do
  match memberValue? given last with
  | none => throw (.enumValueMissing (← nameText name))
  | some value =>
    let k ← key name
    let member ← alloc (.enumMember ⟨owner, name, value⟩)
    modifyHeap (·.modify owner fun o =>
      match o with
      | .enumeration e =>
        .enumeration { e with members := e.members.set k (.obj member), last := value }
      | o => o)

/-- Gives the class or enumeration below the top a field, a static or a member. -/
def defineProperty (name : Ref) (isStatic : Bool) : Exec Unit := do
  let value ← pop
  match ← pop with
  | .obj owner =>
    match (← get).heap.get? owner with
    | some (.classObj _) =>
      let k ← key name
      modifyClass owner fun c =>
        if isStatic then { c with statics := c.statics.set k value }
        else { c with fields := c.fields.set k value }
    | some (.enumeration e) => defineMember owner name value e.last
    | _ => throw .stuck
  | _ => throw .stuck

/-- The types whose values can be given methods. -/
def extensibleTypes : List String :=
  ["null", "bool", "num", "str", "func", "class", "instance", "method", "list", "dict", "enum",
   "enumvalue", "package", "native", "task"]

/-- Extension tables with one more method. -/
def extended (type : String) (k : Key) (method : Value) :
    List (String × Table Value) → List (String × Table Value)
  | [] => [(type, Table.empty.set k method)]
  | (t, methods) :: rest =>
    if t = type then (t, methods.set k method) :: rest
    else (t, methods) :: extended type k method rest

/-- Gives a built-in type, or the class that a type name means, the method on top. -/
def defineExtension (type name : Ref) : Exec Unit := do
  let method ← pop
  let k ← key name
  let typeText ← nameText type
  if typeText ∈ extensibleTypes then
    modify fun m => { m with extensions := extended typeText k method m.extensions }
  else
    match ← readGlobal? type with
    | none => throw (.unknownType typeText)
    | some v =>
      match (← get).heap.classOf? v with
      | some r => modifyClass r fun c => { c with methods := c.methods.set k method }
      | none => throw (.cannotExtend typeText)

end ScriptMachine.Exec
