import ScriptMachine.Heap

/-!
# ScriptMachine.Image — compiled texts on their way to the heap

The compiler does not touch the heap. It lists what the heap is to hold, in the order in which it
comes up: names and other texts, and compiled functions. Such a list is an *image*; a reference
inside it is the index of an earlier item. `Image.load` puts the items into a heap one after the
other and replaces these indices by the references the items got there.
-/

namespace ScriptMachine

/-- A place in the code of a function, and how many locals are declared there. -/
structure Landmark where
  offset : Nat
  locals : Nat
deriving Repr, DecidableEq, Inhabited

/-- An item of an image. A function comes with the places where its statements start and those
where it makes closures; they stay behind when it is loaded. -/
inductive Item where
  | text (s : String)
  | function (p : Prototype) (statements closures : List Landmark)
deriving Inhabited

/-- What a text was compiled to. -/
abbrev Image := Array Item

/-- A reference to an item, once the items are at `refs`. -/
def Ref.relocate (refs : Array Ref) (r : Ref) : Ref :=
  refs.getD r.index r

/-- A constant, once the items are at `refs`. -/
def Value.relocate (refs : Array Ref) : Value → Value
  | .obj r => .obj (r.relocate refs)
  | v => v

/-- A function, once the items are at `refs`. -/
def Prototype.relocate (refs : Array Ref) (p : Prototype) : Prototype :=
  { p with
    name := p.name.map (Ref.relocate refs)
    path := p.path.map (Ref.relocate refs)
    chunk := { p.chunk with constants := p.chunk.constants.map (Value.relocate refs) } }

namespace Image

/-- Puts one more item into the heap; `refs` are the references of those before it. -/
def place (refs : Array Ref) (h : Heap) : Item → Array Ref × Heap
  | .text s =>
    let (r, h) := h.intern s
    (refs.push r, h)
  | .function p _ _ =>
    let (r, h) := h.alloc (.prototype (p.relocate refs))
    (refs.push r, h)

/-- **`load image h`** — the references of the items, and the heap that holds them. -/
def load (image : Image) (h : Heap) : Array Ref × Heap :=
  image.foldl (fun (refs, h) item => place refs h item) (#[], h)

end Image

end ScriptMachine
