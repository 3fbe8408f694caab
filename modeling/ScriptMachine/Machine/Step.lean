import ScriptMachine.Machine.Declarations
import ScriptMachine.Machine.Packages
import ScriptMachine.Machine.Schedule

/-!
# ScriptMachine.Machine.Step — one instruction

`step` decodes the instruction at the innermost activation, moves past it and executes it. Branches
count from there. Decoding is the one the listings use.
-/

namespace ScriptMachine.Exec

/-- The cell of a captured variable of the running closure. -/
def upvalueCell (index : Nat) : Exec Ref := do
  let c ← need ((← get).heap.closure? (← frame).closure)
  need c.upvalues[index]?

/-- Takes the top value as the latest answer, outside packages. -/
def keepAnswer : Exec Unit := do
  let v ← pop
  if (← frame).package.isNone then setGlobalTable (← key (← get).names.answer) v

/-- Adds the top value to the list below. No other object can take it. -/
def addItem : Exec Unit := do
  let item ← pop
  match ← peek 0 with
  | .obj r =>
    match (← heap).get? r with
    | some (.list _) => modifyList r (·.push item)
    | _ => throw .stuck
  | _ => pure ()

/-- Adds a key and the value on top to the dictionary below. No other object can take them. -/
def addEntry : Exec Unit := do
  let item ← pop
  match (← get).heap.textOf? (← pop) with
  | none => throw .dictKeyNotString
  | some k =>
    match ← peek 0 with
    | .obj r =>
      match (← heap).get? r with
      | some (.dict _) => modifyDict r (·.insert k item)
      | _ => throw .stuck
    | _ => pure ()

/-- Leaves the scope of the captured variable on top. -/
def closeTop : Exec Unit := do
  closeUpvalues ((← height) - 1)
  discard pop

/-- Starts a task on the closure on top. -/
def spawnTop : Exec Unit := do
  match ← pop with
  | .obj closure => push (.obj (← spawn closure))
  | _ => throw .stuck

/-- Ends the task on top. -/
def abortTop : Exec Unit := do
  match ← pop with
  | .obj r => if ((← get).heap.task? r).isSome then abort r else throw .notAbortable
  | _ => throw .notAbortable

/-- Installs a handler that starts so far ahead. -/
def installHandler (offset : Nat) : Exec Unit := do
  let target := (← frame).ip + offset
  modifyFiber fun t =>
    { t with handlers := ⟨t.frames.length, t.stack.size, target⟩ :: t.handlers }

/-- Removes the innermost handler and goes on so far ahead. -/
def removeHandler (offset : Nat) : Exec Unit := do
  modifyFiber fun t => { t with handlers := t.handlers.tail }
  modifyIp (· + offset)

/-- An arithmetic instruction; its operand tells whether it works on elements. -/
def arithmeticStep (op : Arithmetic) (i : Instruction) : Exec Unit :=
  if i.first == 1 then elementwise op else arithmetic op

/-- **`execute i`** — what an instruction does, once the activation has moved past it. -/
def execute (i : Instruction) : Exec Unit :=
  match i.op with
  | .constant => do push (← constant i.first)
  | .pushNull => push .none
  | .pushTrue => push (.bool true)
  | .pushFalse => push (.bool false)
  | .concat => concatPieces i.first
  | .range => expand (i.first == 1)
  | .pop => discard pop
  | .replPop => keepAnswer
  | .getLocal => do push (← stackAt ((← frame).base + i.first))
  | .setLocal => do setStackAt ((← frame).base + i.first) (← peek 0)
  | .getGlobal => do push (← getGlobal (← nameConstant i.first))
  | .defineGlobal => do
    let name ← nameConstant i.first
    let v ← pop
    define (← key name) v
  | .defineGlobalForced => do
    let name ← nameConstant i.first
    let v ← pop
    setGlobalTable (← key name) v
  | .setGlobal => do setGlobal (← nameConstant i.first) (← peek 0)
  | .getUpvalue => do push (← readUpvalue (← upvalueCell i.first))
  | .setUpvalue => do writeUpvalue (← upvalueCell i.first) (← peek 0)
  | .getProperty => do
    let v ← getProperty (← peek 0) (← nameConstant i.first)
    replaceTop 1 v
  | .getPropertyNoPop => do push (← getProperty (← peek 0) (← nameConstant i.first))
  | .setProperty => do
    let v ← peek 0
    setProperty (← peek 1) (← nameConstant i.first) v
    replaceTop 2 v
  | .getSuper => do
    let superclass ← pop
    let target ← pop
    let method ← superMethod superclass (← nameConstant i.first)
    push (← bindMethod target method)
  | .equal => equality
  | .greater => compare .greater
  | .less => compare .less
  | .add => arithmeticStep .add i
  | .subtract => arithmeticStep .subtract i
  | .multiply => arithmeticStep .multiply i
  | .divide => arithmeticStep .divide i
  | .modulo => arithmeticStep .modulo i
  | .power => arithmeticStep .power i
  | .inc => increase 1
  | .dec => increase (-1)
  | .shiftLeft => bitwise .shiftLeft
  | .shiftRight => bitwise .shiftRight
  | .bitwiseAnd => bitwise .and
  | .bitwiseOr => bitwise .or
  | .contains => membership
  | .isType => do
    let name ← nameText (← nameConstant i.second)
    let v ← pop
    push (.bool ((← testType v name) != (i.first == 1)))
  | .not => negateTruth
  | .negate => negate
  | .jump => modifyIp (· + i.first)
  | .jumpIfFalse => do if (← peek 0).isFalsey then modifyIp (· + i.first)
  | .loop => modifyIp (· - i.first)
  | .dup => do push (← peek 0)
  | .importFile => importFile
  | .requireFile => requireFile
  | .newList => do push (← allocValue (.list #[]))
  | .addList => addItem
  | .newDict => do push (← allocValue (.dict .empty))
  | .addDict => addEntry
  | .subscript => subscript
  | .subscriptAssign => subscriptAssign
  | .call => do callValue (← peek i.first) i.first
  | .invoke => do invoke (← nameConstant i.second) i.first
  | .superInvoke => do
    let name ← nameConstant i.second
    let superclass ← pop
    invokeSuper superclass name i.first
  | .closure => do makeClosure (← nameConstant i.first) i.captures
  | .closeUpvalue => closeTop
  | .ret => returnFromFrame
  | .classDef => do newClass (← nameConstant i.first)
  | .inherit => inherit
  | .method => do defineMethod (← nameConstant i.first)
  | .member => do defineProperty (← nameConstant i.first) (i.second == 1)
  | .extend => do defineExtension (← nameConstant i.first) (← nameConstant i.second)
  | .enumDef => do newEnumeration (← nameConstant i.first)
  | .spawn => spawnTop
  | .awaitTask => awaitTask
  | .abortTask => abortTop
  | .tryBegin => installHandler i.first
  | .tryEnd => removeHandler i.first
  | .nop => pure ()

/-- **`step`** — executes the next instruction of the running fiber. -/
def step : Exec Unit := do
  let f ← frame
  match f.chunk.instruction? (← heap) f.ip with
  | some i =>
    modify (·.elapse stepTime)
    modifyIp (· + i.width)
    execute i
  | none =>
    modifyIp (· + 1)
    throw (.unknownOperation (Instruction.byteAt f.chunk.code f.ip))

end ScriptMachine.Exec
