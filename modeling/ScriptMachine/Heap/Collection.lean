import ScriptMachine.Heap
import ScriptMachine.Number.Decimal

/-!
# ScriptMachine.Heap.Collection — mark and sweep

A collection marks every object reachable from the roots, drops the unmarked strings from the intern
table, frees the unmarked objects and clears the marks. Survivors keep their slots and contents and
are charged anew, since they may have grown.

Marking follows a work list. It ends because each step either marks an object, so that fewer are
unmarked, or shortens the list.
-/

namespace ScriptMachine

/-- Is this an occupied slot without a mark? -/
def Cell.isUnmarked : Option Cell → Bool
  | some c => !c.marked
  | none => false

namespace Heap

/-- Marks what is reachable from a work list. -/
def markFrom (cells : Array (Option Cell)) (work : List Ref) : Array (Option Cell) :=
  match work with
  | [] => cells
  | r :: rest =>
    if h : r.index < cells.size then
      match hc : cells[r.index] with
      | none => markFrom cells rest
      | some c =>
        if hm : c.marked then markFrom cells rest
        else
          markFrom (cells.set r.index (some { c with marked := true })) (c.obj.references ++ rest)
    else markFrom cells rest
termination_by (cells.countP Cell.isUnmarked, work.length)
decreasing_by
  · exact Prod.Lex.right _ (by simp)
  · exact Prod.Lex.right _ (by simp)
  · apply Prod.Lex.left
    have hu : Cell.isUnmarked cells[r.index] = true := by simp [hc, Cell.isUnmarked, hm]
    have hpos : 0 < cells.countP Cell.isUnmarked :=
      Array.countP_pos_iff.mpr ⟨cells[r.index], Array.getElem_mem h, hu⟩
    have hn : Cell.isUnmarked (some { c with marked := true }) = false := rfl
    rw [Array.countP_set h, hu, hn]
    simp only [if_true, Bool.false_eq_true, if_false]
    omega
  · exact Prod.Lex.right _ (by simp)

/-- A slot after the sweep: survivors lose their mark and are charged anew. -/
def sweptCell : Option Cell → Option Cell
  | some c => if c.marked then some { c with marked := false, bytes := c.obj.byteSize } else none
  | none => none

/-- Is the object of a slot marked? -/
def isMarkedIn (cells : Array (Option Cell)) (r : Ref) : Bool :=
  match cells.getD r.index none with
  | some c => c.marked
  | none => false

/-- Is the object of a reference marked? -/
def isMarked (h : Heap) (r : Ref) : Bool :=
  isMarkedIn h.cells r

/-- The slots a sweep frees, ascending. -/
def doomed (cells : Array (Option Cell)) : List Nat :=
  (List.range cells.size).filter fun i => Cell.isUnmarked (cells.getD i none)

/-- The bytes all objects are charged with. -/
def chargedBytes (cells : Array (Option Cell)) : Nat :=
  cells.foldl (fun n c => match c with | some c => n + c.bytes | none => n) 0

/-- What a collection did. -/
structure Report where
  number : Nat
  liveBefore : Nat
  bytesBefore : Nat
  freed : Nat
  bytesAfter : Nat
  nextCollection : Nat
deriving Repr, DecidableEq, Inhabited

/-- **`collect h roots`** — frees every object that is not reachable from the roots. -/
def collect (h : Heap) (roots : List Ref) : Report × Heap :=
  let liveBefore := h.live
  let bytesBefore := h.bytes
  let marked := markFrom h.cells roots
  let strings := h.strings.retain fun k => isMarkedIn marked k.ref
  let dead := doomed marked
  let cells := marked.map sweptCell
  let bytes := chargedBytes cells
  let nextCollection := Number.toIndex (Float.ofNat bytes * h.config.growth)
  ({ number := h.collections + 1, liveBefore, bytesBefore, freed := dead.length,
     bytesAfter := bytes, nextCollection },
   { h with
     cells
     free := dead.reverse ++ h.free
     strings
     bytes
     nextCollection
     collections := h.collections + 1
     freed := h.freed + dead.length })

/-- The log lines of a collection. -/
def Report.log (r : Report) : String :=
  s!"[GC] Starting collection #{r.number}, {r.liveBefore} live objects, {r.bytesBefore} bytes\n"
    ++ s!"[GC] Collection complete, freed {r.freed} objects, "
    ++ s!"{r.bytesBefore} -> {r.bytesAfter} bytes, next at {r.nextCollection}\n"

end Heap

end ScriptMachine
