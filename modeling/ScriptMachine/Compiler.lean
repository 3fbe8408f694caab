import ScriptMachine.Compiler.Statement

/-!
# ScriptMachine.Compiler — from a source text to a function

`translate` compiles a text to an image, and `compile` loads that image: it answers the script as a
function object of the heap, or the errors of the text. Every
nesting of goals consumes a token within a bounded number of levels, so the depth that the tokens
allow is never used up.
-/

namespace ScriptMachine

namespace Compiler

/-- A statement starts here. -/
def beginStatement : Compile Unit :=
  modifyFunction fun fs => { fs with statements := fs.landmark :: fs.statements }

/-- Compiles a goal, with at most so many goals nested in it. -/
def goal : Nat → Recur
  | 0, _ => exhausted
  | depth + 1, g =>
    match g with
    | .expression least => expressionAtLeast (goal depth) least
    | .declaration => do beginStatement; declaration (goal depth)
    | .statement => do beginStatement; statement (goal depth)

/-- The state before the first token. -/
def State.start (source path : String) : State :=
  let tokens := tokenize source
  let last : Token := tokens.back?.getD default
  { rest := tokens.toList, current := last, previous := last, image := #[.text path], path := ⟨0⟩,
    function := .start .script none, enclosing := [], classes := [], docs := #[],
    pendingDocs := 0, errors := #[], panicking := false, budget := 2 * tokens.size + 4,
    broken := tokens.isEmpty }

/-- Declarations to the end of the text. -/
def script (self : Recur) : Compile Unit := do
  advance
  loop do
    if ← atEnd then return false
    self.declaration
    return true
  emitReturn

/-- The script function, once everything is compiled without an error. -/
def State.finish (s : State) : Except (Array CompileError) Ref × Image :=
  if s.errors.isEmpty then
    let script : Prototype :=
      { arity := 0, captureCount := 0, isStatic := false, name := none, path := some s.path,
        chunk := s.function.chunk, docs := s.docs }
    (.ok ⟨s.image.size⟩, s.image.push (.function script s.function.statements s.function.closures))
  else (.error s.errors, s.image)

/-- **`translate source path`** — the script function of a source text as an item of an image, or
the errors of the text; the image is made in either case. -/
def translate (source path : String) : Except (Array CompileError) Ref × Image :=
  let start := State.start source path
  let (_, s) := (script (goal (4 * start.budget))).run start
  s.finish

end Compiler

/-- **`compile heap source path`** — the script function of a source text, or its errors. No
collection is due meanwhile. -/
def compile (heap : Heap) (source path : String) : Except (Array CompileError) Ref × Heap :=
  let (result, image) := Compiler.translate source path
  let (refs, heap) := image.load heap.pause
  (result.map (Ref.relocate refs), heap.resume)

end ScriptMachine
