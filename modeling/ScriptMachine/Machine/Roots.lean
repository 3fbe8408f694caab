import ScriptMachine.Machine.Stack

/-!
# ScriptMachine.Machine.Roots — what a collection starts from

The roots are the globals and extensions with their names, everything the fibers hold, the names the
machine looks up, the handle of the main task and its result.
-/

namespace ScriptMachine

namespace Frame

/-- The references an activation holds. -/
def roots (f : Frame) : List Ref :=
  f.closure :: (f.package.toList ++ f.args.toList.filterMap Value.ref?)

end Frame

namespace Fiber

/-- The references a fiber holds. -/
def roots (t : Fiber) : List Ref :=
  t.handle :: (t.stack.toList.filterMap Value.ref? ++ t.frames.flatMap Frame.roots
    ++ t.openUpvalues.map (·.2))

end Fiber

namespace Machine

/-- **`roots m`** — everything the machine holds. -/
def roots (m : Machine) : List Ref :=
  m.globals.references ++ m.extensions.flatMap (fun (_, t) => t.references)
    ++ m.fiber.roots ++ m.queue.flatMap Fiber.roots
    ++ [m.names.init, m.names.args, m.names.answer, m.names.name, m.mainHandle]
    ++ (m.mainResult.bind Value.ref?).toList

/-- **`collectGarbage m`** — a full collection; answers how many objects were freed. -/
def collectGarbage (m : Machine) : Nat × Machine :=
  let (report, heap) := m.heap.collect m.roots
  let stderr := if m.config.heap.log then m.stderr ++ report.log else m.stderr
  (report.freed, { m with heap, stderr })

end Machine

end ScriptMachine
