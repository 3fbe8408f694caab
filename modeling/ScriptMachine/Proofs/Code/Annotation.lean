import ScriptMachine.Proofs.Code.Discipline

/-!
# ScriptMachine.Proofs.Code.Annotation — what code was written for

Disciplined code treats the stack well, but that alone does not say that it does what its text
means. A chunk notes how many locals are declared at each instruction and in which slot each handler
finds its error, and each instruction as it was before it became bytes. `Annotates` ties these notes to
the situations of a listing: its instructions are those that were meant, only slots of declared locals
are ever shared, no handler is there outside the body of its statement, and an instruction that can
fail has all the handlers of the statements in whose bodies it stands.

The body of a statement with a handler is the stretch of code between the instruction that installs
the handler and the place where the handler starts.

The notes are kept for these statements and are never read by the machine. `Annotates.of_notes` says that
nothing else about a chunk matters to them, so loading an image and replacing its references leaves them
true.
-/

namespace ScriptMachine

/-- **`Encloses listing isOpen x guards`** — the guards are those of the statements in whose bodies
the offset `x` lies, innermost first. The end of a body may be open: then it contains all code that
follows. -/
structure Encloses (listing : List Placed) (isOpen : Nat → Prop) (x : Nat) (guards : List Guard) :
    Prop where
  inner : guards.Pairwise fun g outer => outer.operand < g.operand
  mem : ∀ g, g ∈ guards ↔ ∃ b ∈ listing, b.instr.op = .tryBegin ∧
    g = ⟨b.offset + 1, b.situation.height⟩ ∧ b.offset < x ∧
      (isOpen (b.offset + 1) ∨ x < b.offset + 3 + b.instr.first)

/-- **`Annotates pool chunk listing`** — the notes of a chunk tell the truth about its code, and only
functions without parameters are run as tasks. -/
structure Annotates (pool : Pool) (chunk : Chunk) (listing : List Placed) : Prop where
  meant : chunk.meant.toList = instructionsOf listing
  declared : ∀ q ∈ listing, ∀ j, q.situation.mayBeOpen j → j < chunk.scopeAt q.offset
  nested : ∀ q ∈ listing, q.instr.op.mayRaise = true →
    Encloses listing (fun _ => False) q.offset q.situation.handlers
  within : ∀ q ∈ listing, ∃ guards, Encloses listing (fun _ => False) q.offset guards ∧
    q.situation.handlers ⊆ guards
  caught : ∀ b ∈ listing, b.instr.op = .tryBegin →
    (b.offset + 3 + b.instr.first, b.situation.height) ∈ chunk.catches
  spawned : ∀ q ∈ listing, q.instr.op = .spawn → ∃ b ∈ listing,
    b.offset + b.instr.width = q.offset ∧ b.instr.op = .closure ∧ pool.isThunk b.instr.first

/-- Two chunks are annotated alike. -/
structure Chunk.SameNotes (c d : Chunk) : Prop where
  scopes : d.scopes = c.scopes
  catches : d.catches = c.catches
  meant : d.meant = c.meant

/-- Only the notes of a chunk matter. -/
theorem Annotates.of_notes {pool pool' : Pool} {chunk chunk' : Chunk}
    {listing : List Placed} (h : Annotates pool chunk listing) (hnotes : chunk.SameNotes chunk')
    (hpool : pool.Extends pool') : Annotates pool' chunk' listing where
  meant := hnotes.meant ▸ h.meant
  declared q hq j hj := by
    have := h.declared q hq j hj
    rwa [Chunk.scopeAt, ← hnotes.scopes] at this
  nested := h.nested
  within := h.within
  caught b hb hop := hnotes.catches ▸ h.caught b hb hop
  spawned q hq hop := by
    obtain ⟨b, hb, hend, hclosure, hk⟩ := h.spawned q hq hop
    exact ⟨b, hb, hend, hclosure, hpool.isThunk _ hk⟩

end ScriptMachine
