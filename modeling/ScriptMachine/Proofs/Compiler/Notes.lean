import ScriptMachine.Proofs.Bisect
import ScriptMachine.Proofs.Code.Annotation
import ScriptMachine.Proofs.Compiler.Assembly

/-!
# ScriptMachine.Proofs.Compiler.Notes — notes of code that is still being written

`Noted` is what `Annotates` says of finished code, as far as it can be said while branches are open.
The body of a statement with a handler has no end before the branch to the handler is filled in, so
all code that follows belongs to it. When the branch is filled in, the body is what stands there by
then, and the note about the error variable of the handler is still to be made.

The operations on a chunk that write code are `emit`, for one instruction, and `patch`, which fills a
distance in. Each has one lemma here, `Noted.emit` and `Noted.patch`, and a third, `Noted.blank`, is
about the load at the start of a function that fetches its arguments as a list: it is replaced when the
function turns out not to use them. `Noted.annotates` closes the account: without an open branch the
notes are about finished code.

What an instruction was meant to do is noted together with it, before its operand is cut down to the
bytes there are for it. Of a branch nothing is known when it is written, so its note is completed when
its distance is: `Chunk.meant_noteDistance` finds the instruction by its offset, which is possible
because offsets ascend (`Contiguous.ascending`).
-/

namespace ScriptMachine

/-- Is the branch with its operand at `place` still open? -/
def IsOpen (claims : List Claim) (place : Nat) : Prop :=
  ∃ c ∈ claims, c.place = place

/-- **`Noted`** — the notes of a chunk agree with the listing of its code so far. The end of the code
is in the bodies of the statements that `bodies` guard; `landing` is the slot in which the handler
that starts there will find its error, if one starts there. -/
structure Noted (pool : Pool) (isOpen : Nat → Prop) (bodies : List Guard) (landing : Option Nat)
    (chunk : Chunk) (listing : List Placed) : Prop where
  meant : chunk.meant.toList = instructionsOf listing
  declared : ∀ q ∈ listing, ∀ j, q.situation.mayBeOpen j → j < chunk.scopeAt q.offset
  noted : ∀ e ∈ chunk.scopes, ∃ q ∈ listing, q.offset = e.1
  nested : ∀ q ∈ listing, q.instr.op.mayRaise = true →
    Encloses listing isOpen q.offset q.situation.handlers
  within : ∀ q ∈ listing, ∃ guards, Encloses listing isOpen q.offset guards ∧
    q.situation.handlers ⊆ guards
  here : Encloses listing isOpen chunk.code.size bodies
  caught : ∀ b ∈ listing, b.instr.op = .tryBegin → isOpen (b.offset + 1) ∨
    b.offset + 3 + b.instr.first ≤ chunk.code.size ∧
      ((b.offset + 3 + b.instr.first, b.situation.height) ∈ chunk.catches ∨
        b.offset + 3 + b.instr.first = chunk.code.size ∧ landing = some b.situation.height)
  spawned : ∀ q ∈ listing, q.instr.op = .spawn → ∃ b ∈ listing,
    b.offset + b.instr.width = q.offset ∧ b.instr.op = .closure ∧ pool.isThunk b.instr.first

variable {pool pool' : Pool} {isOpen isOpen' : Nat → Prop} {bodies guards : List Guard}
  {landing : Option Nat} {chunk chunk' : Chunk} {listing : List Placed} {claims new : List Claim}

/-- Only which branches are open matters. -/
theorem Encloses.of_open {x : Nat} (h : Encloses listing isOpen x guards)
    (hopen : ∀ a, isOpen a ↔ isOpen' a) : Encloses listing isOpen' x guards := by
  have heq : isOpen = isOpen' := funext fun a => propext (hopen a)
  exact heq ▸ h

/-- What the notes say depends on the notes, the length of the code and which branches are open. -/
theorem Noted.of_same (h : Noted pool isOpen bodies landing chunk listing)
    (hnotes : chunk.SameNotes chunk') (hsize : chunk'.code.size = chunk.code.size)
    (hopen : ∀ a, isOpen a ↔ isOpen' a) (hpool : pool.Extends pool') :
    Noted pool' isOpen' bodies landing chunk' listing where
  meant := hnotes.meant ▸ h.meant
  declared q hq j hj := by
    have := h.declared q hq j hj
    rwa [Chunk.scopeAt, ← hnotes.scopes] at this
  noted := hnotes.scopes ▸ h.noted
  nested q hq hop := (h.nested q hq hop).of_open hopen
  within q hq := by
    obtain ⟨guards, hencloses, hsub⟩ := h.within q hq
    exact ⟨guards, hencloses.of_open hopen, hsub⟩
  here := hsize ▸ h.here.of_open hopen
  caught b hb hop := by
    rw [hsize, hnotes.catches, ← hopen]
    exact h.caught b hb hop
  spawned q hq hop := by
    obtain ⟨b, hb, hend, hclosure, hk⟩ := h.spawned q hq hop
    exact ⟨b, hb, hend, hclosure, hpool.isThunk _ hk⟩

/-- There is nothing to note about no code. -/
theorem Noted.empty (hscopes : chunk.scopes = #[]) (hmeant : chunk.meant = #[]) :
    Noted pool isOpen [] none chunk [] where
  meant := by simp [hmeant, instructionsOf]
  declared := by simp
  noted := by simp [hscopes]
  nested := by simp
  within := by simp
  here := ⟨.nil, by simp⟩
  caught := by simp
  spawned := by simp

/-! ## One more instruction -/

theorem Chunk.scopes_emit (c : Chunk) (i : Instruction) (line : Nat) :
    (c.emit i line).scopes = c.scopes := by
  unfold Chunk.emit
  induction i.encode generalizing c with
  | nil => rfl
  | cons b bytes ih => exact ih (c.write b line)

theorem Chunk.catches_emit (c : Chunk) (i : Instruction) (line : Nat) :
    (c.emit i line).catches = c.catches := by
  unfold Chunk.emit
  induction i.encode generalizing c with
  | nil => rfl
  | cons b bytes ih => exact ih (c.write b line)

theorem Chunk.meant_emit (c : Chunk) (i : Instruction) (line : Nat) :
    (c.emit i line).meant = c.meant := by
  unfold Chunk.emit
  induction i.encode generalizing c with
  | nil => rfl
  | cons b bytes ih => exact ih (c.write b line)

/-- A note is for the code from here on. -/
theorem Chunk.scopeAt_noteScope (c : Chunk) (locals offset : Nat) :
    (c.noteScope locals).scopeAt offset =
      if c.code.size ≤ offset then locals else c.scopeAt offset := by
  unfold scopeAt noteScope
  by_cases h : c.code.size ≤ offset
  · rw [Array.findRev?_push_of_pos (by exact decide_eq_true h), if_pos h]
  · rw [Array.findRev?_push_of_neg (by exact fun hd => h (of_decide_eq_true hd)), if_neg h]

theorem Chunk.scopeAt_noteMeant (c : Chunk) (i : Instruction) (offset : Nat) :
    (c.noteMeant i).scopeAt offset = c.scopeAt offset :=
  rfl

/-- Between two instructions nothing is noted. -/
theorem Chunk.scopeAt_congr {c : Chunk} {x y : Nat}
    (h : ∀ e ∈ c.scopes, e.1 ≤ x ↔ e.1 ≤ y) : c.scopeAt x = c.scopeAt y := by
  have hfind : c.scopes.findRev? (fun e => e.1 ≤ x) = c.scopes.findRev? (fun e => e.1 ≤ y) := by
    rw [Array.findRev?_eq_find?_reverse, Array.findRev?_eq_find?_reverse, ← Array.find?_toList,
      ← Array.find?_toList]
    refine List.find?_congr fun e he => ?_
    exact decide_eq_decide.mpr (h e (by simpa using he))
  unfold scopeAt
  congr 1

section Emit

variable {i : Instruction} {s : Situation} {locals line : Nat}

/-- The bodies around an instruction that stands before the new one. -/
theorem Encloses.emit {x size : Nat} (h : Encloses listing (IsOpen claims) x guards)
    (hx : x ≤ size) (hlt : ∀ b ∈ listing, b.offset < size)
    (hnew : ∀ c ∈ new, c.place = size + 1) :
    Encloses (listing ++ [⟨size, i, s⟩]) (IsOpen (new ++ claims)) x guards := by
  refine ⟨h.inner, fun g => ?_⟩
  rw [h.mem]
  constructor
  · rintro ⟨b, hb, hop, hg, hbx, hin⟩
    refine ⟨b, List.mem_append_left _ hb, hop, hg, hbx, hin.imp_left ?_⟩
    rintro ⟨c, hc, hplace⟩
    exact ⟨c, List.mem_append_right _ hc, hplace⟩
  · rintro ⟨b, hb, hop, hg, hbx, hin⟩
    rcases List.mem_append.mp hb with hb | hb
    · refine ⟨b, hb, hop, hg, hbx, hin.imp_left ?_⟩
      rintro ⟨c, hc, hplace⟩
      rcases List.mem_append.mp hc with hc | hc
      · have := hnew c hc
        have := hlt b hb
        omega
      · exact ⟨c, hc, hplace⟩
    · obtain rfl := List.mem_singleton.mp hb
      exact absurd hbx (Nat.not_lt.mpr hx)

/-- The bodies around the end of the code, after one more instruction. -/
theorem Noted.here_emit {width : Nat} (h : Noted pool (IsOpen claims) bodies none chunk listing)
    (hlt : ∀ b ∈ listing, b.offset < chunk.code.size) (hpos : 0 < width)
    (hnew : ∀ c ∈ new, c.place = chunk.code.size + 1) (htry : i.op = .tryBegin → new ≠ []) :
    Encloses (listing ++ [⟨chunk.code.size, i, s⟩]) (IsOpen (new ++ claims))
      (chunk.code.size + width)
      (if i.op = .tryBegin then ⟨chunk.code.size + 1, s.height⟩ :: bodies else bodies) := by
  -- what stood before is in an open body or in none
  have hold : ∀ b ∈ listing, b.instr.op = .tryBegin →
      (IsOpen (new ++ claims) (b.offset + 1) ∨ chunk.code.size + width < b.offset + 3 + b.instr.first ↔
        IsOpen claims (b.offset + 1) ∨ chunk.code.size < b.offset + 3 + b.instr.first) := by
    intro b hb hop
    constructor
    · rintro (⟨c, hc, hplace⟩ | hin)
      · rcases List.mem_append.mp hc with hc | hc
        · have := hnew c hc
          have := hlt b hb
          omega
        · exact .inl ⟨c, hc, hplace⟩
      · exact .inr (by omega)
    · rintro (⟨c, hc, hplace⟩ | hin)
      · exact .inl ⟨c, List.mem_append_right _ hc, hplace⟩
      · rcases h.caught b hb hop with ⟨c, hc, hplace⟩ | ⟨hle, -⟩
        · exact .inl ⟨c, List.mem_append_right _ hc, hplace⟩
        · omega
  have hmem : ∀ g, g ∈ bodies ↔ ∃ b ∈ listing, b.instr.op = .tryBegin ∧
      g = ⟨b.offset + 1, b.situation.height⟩ ∧ b.offset < chunk.code.size + width ∧
      (IsOpen (new ++ claims) (b.offset + 1) ∨
        chunk.code.size + width < b.offset + 3 + b.instr.first) := by
    intro g
    rw [h.here.mem]
    refine exists_congr fun b => and_congr_right fun hb => and_congr_right fun hop =>
      and_congr_right fun _ => and_congr ?_ (hold b hb hop).symm
    have := hlt b hb
    constructor <;> intro <;> omega
  split
  · rename_i hop
    refine ⟨List.pairwise_cons.mpr ⟨fun g hg => ?_, h.here.inner⟩, fun g => ?_⟩
    · obtain ⟨b, hb, -, rfl, hbx, -⟩ := (h.here.mem g).mp hg
      exact Nat.succ_lt_succ hbx
    · rw [List.mem_cons, hmem]
      constructor
      · rintro (rfl | ⟨b, hb, hrest⟩)
        · obtain ⟨c, hc⟩ := List.exists_mem_of_ne_nil _ (htry hop)
          exact ⟨_, List.mem_append_right _ (List.mem_singleton.mpr rfl), hop, rfl,
            Nat.lt_add_of_pos_right hpos, .inl ⟨c, List.mem_append_left _ hc, hnew c hc⟩⟩
        · exact ⟨b, List.mem_append_left _ hb, hrest⟩
      · rintro ⟨b, hb, hrest⟩
        rcases List.mem_append.mp hb with hb | hb
        · exact .inr ⟨b, hb, hrest⟩
        · obtain rfl := List.mem_singleton.mp hb
          exact .inl hrest.2.1
  · rename_i hop
    refine ⟨h.here.inner, fun g => ?_⟩
    rw [hmem]
    constructor
    · rintro ⟨b, hb, hrest⟩
      exact ⟨b, List.mem_append_left _ hb, hrest⟩
    · rintro ⟨b, hb, hbop, hrest⟩
      rcases List.mem_append.mp hb with hb | hb
      · exact ⟨b, hb, hbop, hrest⟩
      · obtain rfl := List.mem_singleton.mp hb
        exact absurd hbop hop

/-- **`Noted.emit`** — one more instruction, noted as it is and with the locals that are declared
there. -/
theorem Noted.emit (h : Noted pool (IsOpen claims) bodies none chunk listing)
    (hcode : chunk.code.toList = codeOf listing) (hcontiguous : Contiguous 0 listing)
    (hrange : i.InRange) (hnew : ∀ c ∈ new, c.place = chunk.code.size + 1)
    (hdeclared : ∀ j, s.mayBeOpen j → j < locals)
    (hraise : i.op.mayRaise = true → s.handlers = bodies) (hwithin : s.handlers ⊆ bodies)
    (htry : i.op = .tryBegin → new ≠ [])
    (hspawn : i.op = .spawn → ∃ b ∈ listing, b.offset + b.instr.width = chunk.code.size ∧
      b.instr.op = .closure ∧ pool.isThunk b.instr.first) :
    Noted pool (IsOpen (new ++ claims))
      (if i.op = .tryBegin then ⟨chunk.code.size + 1, s.height⟩ :: bodies else bodies) none
      (((chunk.noteScope locals).noteMeant i).emit i line)
      (listing ++ [⟨chunk.code.size, i, s⟩]) := by
  have hsize : chunk.code.size = (codeOf listing).length := by rw [← hcode, Array.length_toList]
  have hlt : ∀ b ∈ listing, b.offset < chunk.code.size := by
    intro b hb
    have hend := hcontiguous.end_le b hb
    have hpos := b.instr.width_pos
    omega
  have hcode' : (((chunk.noteScope locals).noteMeant i).emit i line).code.size =
      chunk.code.size + i.width :=
    Chunk.size_emit hrange ..
  have hpos := i.width_pos
  have hlast : (⟨chunk.code.size, i, s⟩ : Placed) ∈ listing ++ [⟨chunk.code.size, i, s⟩] :=
    List.mem_append_right _ (List.mem_singleton.mpr rfl)
  constructor
  case meant =>
    rw [Chunk.meant_emit, instructionsOf, List.map_append, ← instructionsOf, ← h.meant]
    exact Array.toList_push ..
  case declared =>
    intro q hq j hj
    -- the note of the new instruction is for its own offset and those behind it
    rw [Chunk.scopeAt, Chunk.scopes_emit, ← Chunk.scopeAt, Chunk.scopeAt_noteMeant,
      Chunk.scopeAt_noteScope]
    rcases List.mem_append.mp hq with hq | hq
    · rw [if_neg (Nat.not_le.mpr (hlt q hq))]
      exact h.declared q hq j hj
    · obtain rfl := List.mem_singleton.mp hq
      rw [if_pos (Nat.le_refl _)]
      exact hdeclared j hj
  case noted =>
    intro e he
    rw [Chunk.scopes_emit] at he
    rcases Array.mem_push.mp he with he | rfl
    · obtain ⟨q, hq, heq⟩ := h.noted e he
      exact ⟨q, List.mem_append_left _ hq, heq⟩
    · exact ⟨_, hlast, rfl⟩
  case nested =>
    intro q hq hop
    rcases List.mem_append.mp hq with hq | hq
    · exact (h.nested q hq hop).emit (Nat.le_of_lt (hlt q hq)) hlt hnew
    · obtain rfl := List.mem_singleton.mp hq
      rw [show Situation.handlers s = bodies from hraise hop]
      exact h.here.emit (Nat.le_refl _) hlt hnew
  case within =>
    intro q hq
    rcases List.mem_append.mp hq with hq | hq
    · obtain ⟨guards, hencloses, hsub⟩ := h.within q hq
      exact ⟨guards, hencloses.emit (Nat.le_of_lt (hlt q hq)) hlt hnew, hsub⟩
    · obtain rfl := List.mem_singleton.mp hq
      exact ⟨bodies, h.here.emit (Nat.le_refl _) hlt hnew, hwithin⟩
  case here =>
    rw [hcode']
    exact h.here_emit hlt hpos hnew htry
  case caught =>
    intro b hb hop
    rw [hcode', Chunk.catches_emit]
    rcases List.mem_append.mp hb with hb | hb
    · rcases h.caught b hb hop with ⟨c, hc, hplace⟩ | ⟨hle, hnote | ⟨-, hland⟩⟩
      · exact .inl ⟨c, List.mem_append_right _ hc, hplace⟩
      · exact .inr ⟨Nat.le_add_right_of_le hle, .inl hnote⟩
      · cases hland
    · obtain rfl := List.mem_singleton.mp hb
      -- the way to a new handler is an open branch
      obtain ⟨c, hc⟩ := List.exists_mem_of_ne_nil _ (htry hop)
      exact .inl ⟨c, List.mem_append_left _ hc, hnew c hc⟩
  case spawned =>
    intro q hq hop
    rcases List.mem_append.mp hq with hq | hq
    · obtain ⟨b, hb, hrest⟩ := h.spawned q hq hop
      exact ⟨b, List.mem_append_left _ hb, hrest⟩
    · obtain rfl := List.mem_singleton.mp hq
      obtain ⟨b, hb, hrest⟩ := hspawn hop
      exact ⟨b, List.mem_append_left _ hb, hrest⟩

end Emit

/-! ## Filling in a branch -/

section Patch

variable {listing' : List Placed} {before after : List Claim} {c : Claim} {distance : Nat}
  {bodies' : List Guard} {landing' : Option Nat}

/-- The instruction of a listing after a branch has been filled in. -/
def Placed.aimedAt (place distance : Nat) (q : Placed) : Placed :=
  if q.offset + 1 = place then q.aim distance else q

theorem Placed.aimedAt_offset (place distance : Nat) (q : Placed) :
    (q.aimedAt place distance).offset = q.offset := by
  unfold aimedAt
  split <;> rfl

theorem Placed.aimedAt_situation (place distance : Nat) (q : Placed) :
    (q.aimedAt place distance).situation = q.situation := by
  unfold aimedAt
  split <;> rfl

theorem Placed.aimedAt_op (place distance : Nat) (q : Placed) :
    (q.aimedAt place distance).instr.op = q.instr.op := by
  unfold aimedAt
  split <;> rfl

/-- The branch is told from the other instructions by its place. -/
theorem Aimed.eq_map {place : Nat} (ha : Aimed place distance listing listing')
    (hcontiguous : Contiguous 0 listing) : listing' = listing.map (Placed.aimedAt place distance) := by
  obtain ⟨l₁, b, l₂, hplace, -, rfl, rfl⟩ := ha
  have hstay : ∀ q ∈ l₁ ++ l₂, q.aimedAt place distance = q := by
    intro q hq
    refine if_neg fun heq => ?_
    have hmem : q ∈ l₁ ++ b :: l₂ := by
      rcases List.mem_append.mp hq with hq | hq <;> simp [hq]
    have hqb : q = b := hcontiguous.offset_inj hmem (by simp) (by omega)
    -- two instructions of the listing are never the same
    obtain ⟨h₁, hb, -, h₂⟩ := contiguous_append.mp hcontiguous
    have hpos := b.instr.width_pos
    rcases List.mem_append.mp hq with hq | hq
    · have hend := h₁.end_le q hq
      rw [hqb] at hend
      omega
    · have hstart := h₂.le_offset q hq
      rw [hqb] at hstart
      omega
  rw [List.map_append, List.map_cons, List.map_congr_left fun q hq => hstay q (by simp [hq]),
    List.map_id', List.map_congr_left fun q hq => hstay q (by simp [hq]), List.map_id',
    Placed.aimedAt, if_pos hplace]

/-- The claim that is met is no longer open, and the others are. -/
theorem isOpen_middle (hdistinct : ((before ++ c :: after).map Claim.place).Nodup) (a : Nat) :
    IsOpen (before ++ after) a ↔ IsOpen (before ++ c :: after) a ∧ a ≠ c.place := by
  have hothers : ∀ d ∈ before ++ after, d.place ≠ c.place := by
    intro d hd heq
    rw [List.map_append, List.map_cons] at hdistinct
    have hnodup := List.nodup_cons.mp (List.perm_middle.nodup_iff.mp hdistinct)
    rw [← List.map_append] at hnodup
    exact hnodup.1 (heq ▸ List.mem_map_of_mem hd)
  constructor
  · rintro ⟨d, hd, rfl⟩
    refine ⟨⟨d, ?_, rfl⟩, hothers d hd⟩
    rcases List.mem_append.mp hd with hd | hd <;> simp [hd]
  · rintro ⟨⟨d, hd, rfl⟩, hne⟩
    refine ⟨d, ?_, rfl⟩
    have hdc : d ≠ c := fun heq => hne (heq ▸ rfl)
    simpa [hdc] using hd

/-- The bodies around an offset when a branch has been filled in: within the code nothing has
changed, at its end the body of the branch is over. -/
theorem Encloses.patch {x : Nat}
    (h : Encloses listing (IsOpen (before ++ c :: after)) x guards)
    (hdistinct : ((before ++ c :: after).map Claim.place).Nodup) (hinner : bodies'.Sublist guards)
    (hmem : ∀ g, g ∈ bodies' ↔ g ∈ guards ∧ (g.operand = c.place → x < c.place + 2 + distance)) :
    Encloses (listing.map (Placed.aimedAt c.place distance)) (IsOpen (before ++ after)) x bodies' := by
  refine ⟨h.inner.sublist hinner, fun g => ?_⟩
  rw [hmem, h.mem]
  constructor
  · rintro ⟨⟨b, hb, hop, rfl, hx, hin⟩, hplace⟩
    refine ⟨_, List.mem_map_of_mem hb, by rwa [Placed.aimedAt_op], ?_, ?_, ?_⟩
    · rw [Placed.aimedAt_offset, Placed.aimedAt_situation]
    · rwa [Placed.aimedAt_offset]
    · rw [Placed.aimedAt_offset, isOpen_middle hdistinct]
      by_cases heq : b.offset + 1 = c.place
      · have := hplace heq
        right
        rw [Placed.aimedAt, if_pos heq]
        simp only [Placed.aim]
        omega
      · rw [Placed.aimedAt, if_neg heq]
        exact hin.imp_left fun hopen => ⟨hopen, heq⟩
  · rintro ⟨q, hq, hop, rfl, hx, hin⟩
    obtain ⟨b, hb, rfl⟩ := List.mem_map.mp hq
    rw [Placed.aimedAt_op] at hop
    rw [Placed.aimedAt_offset, isOpen_middle hdistinct] at hin
    rw [Placed.aimedAt_offset] at hx ⊢
    rw [Placed.aimedAt_situation]
    by_cases heq : b.offset + 1 = c.place
    · rw [Placed.aimedAt, if_pos heq] at hin
      refine ⟨⟨b, hb, hop, rfl, hx, .inl ⟨c, by simp, heq.symm⟩⟩, fun _ => ?_⟩
      rcases hin with ⟨-, hne⟩ | hin
      · exact absurd heq hne
      · simp only [Placed.aim] at hin
        omega
    · rw [Placed.aimedAt, if_neg heq] at hin
      exact ⟨⟨b, hb, hop, rfl, hx, hin.imp_left fun hopen => hopen.1⟩, fun h => absurd h heq⟩

/-- The offsets of the instructions ascend. -/
theorem Contiguous.ascending {start : Nat} {l : List Placed} (h : Contiguous start l) :
    ((instructionsOf l).map Prod.fst).Pairwise (· < ·) := by
  induction l generalizing start with
  | nil => exact .nil
  | cons q l ih =>
    obtain ⟨hq, -, hl⟩ := h
    refine .cons (fun x hx => ?_) (ih hl)
    obtain ⟨e, he, rfl⟩ := List.mem_map.mp hx
    obtain ⟨r, hr, hoffset, -⟩ := mem_instructionsOf.mp he
    have hstart := hl.le_offset r hr
    have hpos := q.instr.width_pos
    show q.offset < e.1
    omega

/-- The distance is noted with the instruction in front of the operand, and with no other. -/
theorem Chunk.meant_noteDistance {c : Chunk} {place : Nat} (distance : Nat)
    (hasc : Bisect.Ascending Prod.fst c.meant) (hmem : ∃ e ∈ c.meant, e.1 + 1 = place) :
    (c.noteDistance place distance).meant =
      c.meant.map fun e => if e.1 + 1 = place then (e.1, { e.2 with first := distance }) else e := by
  obtain ⟨e, he, rfl⟩ := hmem
  obtain ⟨j, hj, rfl⟩ := Array.mem_iff_getElem.mp he
  have hsearch : Bisect.search Prod.fst c.meant (c.meant[j].1 + 1 - 1) = .present ⟨j, hj⟩ :=
    Bisect.search_getElem hasc hj
  simp only [noteDistance, hsearch]
  refine Array.ext (by simp) fun i hi hi' => ?_
  rw [Array.getElem_modify, Array.getElem_map]
  rcases Nat.lt_trichotomy j i with hlt | rfl | hlt
  · have := hasc.lt hlt (by simpa using hi)
    rw [if_neg (Nat.ne_of_lt hlt), if_neg (by omega)]
  · rw [if_pos rfl, if_pos rfl]
  · have := hasc.lt hlt hj
    rw [if_neg (Nat.ne_of_gt hlt), if_neg (by omega)]

/-- The instructions of a listing after a branch has been filled in. -/
theorem instructionsOf_aimedAt (place distance : Nat) (l : List Placed) :
    instructionsOf (l.map (Placed.aimedAt place distance)) =
      (instructionsOf l).map fun e =>
        if e.1 + 1 = place then (e.1, { e.2 with first := distance }) else e := by
  simp only [instructionsOf, List.map_map]
  refine List.map_congr_left fun q _ => ?_
  simp only [Function.comp, Placed.aimedAt]
  split <;> rfl

/-- **`Noted.patch`** — a branch is filled in. If it is the way to a handler, the body ends here and
the handler starts here. -/
theorem Noted.patch (chunk' : Chunk)
    (h : Noted pool (IsOpen (before ++ c :: after)) bodies none chunk listing)
    (hdistinct : ((before ++ c :: after).map Claim.place).Nodup)
    (hcontiguous : Contiguous 0 listing) (hcode : chunk.code.toList = codeOf listing)
    (ha : Aimed c.place distance listing listing') (hd : c.place + 2 + distance = chunk.code.size)
    (hnotes : (chunk.noteDistance c.place distance).SameNotes chunk')
    (hsize : chunk'.code.size = chunk.code.size) (hinner : bodies'.Sublist bodies)
    (hbodies : ∀ g, g ∈ bodies' ↔ g ∈ bodies ∧ g.operand ≠ c.place)
    (hlanding : ∀ b ∈ listing, b.offset + 1 = c.place → b.instr.op = .tryBegin →
      landing' = some b.situation.height) :
    Noted pool (IsOpen (before ++ after)) bodies' landing' chunk' listing' := by
  obtain ⟨branch, hbranch, hplace, hop⟩ :
      ∃ b ∈ listing, b.offset + 1 = c.place ∧ b.instr.op.isForward = true := by
    obtain ⟨l₁, b, l₂, hplace, hop, rfl, -⟩ := ha
    exact ⟨b, by simp, hplace, hop⟩
  have hforward : ∀ b ∈ listing, b.offset + 1 = c.place → b.instr.op.isForward = true := by
    intro q hq heq
    obtain rfl := hcontiguous.offset_inj hq hbranch (by omega)
    exact hop
  -- from here on the new listing is the old one, with one instruction aimed ahead
  obtain rfl := ha.eq_map hcontiguous
  have hlt : ∀ b ∈ listing, b.offset < chunk.code.size := by
    intro b hb
    have hend := hcontiguous.end_le b hb
    have hpos := b.instr.width_pos
    rw [← hcode, Array.length_toList] at hend
    omega
  have hscopes : chunk'.scopes = chunk.scopes := hnotes.scopes
  have hcatches : chunk'.catches = chunk.catches := hnotes.catches
  constructor
  case meant =>
    -- the note is found by its offset, so the offsets have to ascend
    rw [hnotes.meant, instructionsOf_aimedAt, ← h.meant, Chunk.meant_noteDistance]
    · exact Array.toList_map
    · rw [Bisect.Ascending, h.meant]
      exact hcontiguous.ascending
    · refine ⟨(branch.offset, branch.instr), ?_, hplace⟩
      rw [← Array.mem_toList_iff, h.meant]
      exact mem_instructionsOf.mpr ⟨branch, hbranch, rfl, rfl⟩
  case declared =>
    intro q hq j hj
    obtain ⟨b, hb, rfl⟩ := List.mem_map.mp hq
    rw [Placed.aimedAt_situation] at hj
    have := h.declared b hb j hj
    rwa [Placed.aimedAt_offset, Chunk.scopeAt, hscopes]
  case noted =>
    intro e he
    obtain ⟨b, hb, heq⟩ := h.noted e (hscopes ▸ he)
    exact ⟨_, List.mem_map_of_mem hb, (Placed.aimedAt_offset ..).trans heq⟩
  case nested =>
    intro q hq hop
    obtain ⟨b, hb, rfl⟩ := List.mem_map.mp hq
    rw [Placed.aimedAt_op] at hop
    rw [Placed.aimedAt_offset, Placed.aimedAt_situation]
    refine (h.nested b hb hop).patch hdistinct (.refl _) fun g => ?_
    have := hlt b hb
    exact ⟨fun hg => ⟨hg, fun _ => by omega⟩, And.left⟩
  case within =>
    intro q hq
    obtain ⟨b, hb, rfl⟩ := List.mem_map.mp hq
    rw [Placed.aimedAt_offset, Placed.aimedAt_situation]
    obtain ⟨guards, hencloses, hsub⟩ := h.within b hb
    refine ⟨guards, hencloses.patch hdistinct (.refl _) fun g => ?_, hsub⟩
    have := hlt b hb
    exact ⟨fun hg => ⟨hg, fun _ => by omega⟩, And.left⟩
  case here =>
    rw [hsize]
    refine h.here.patch hdistinct hinner fun g => (hbodies g).trans ?_
    -- at the end of the code the body of the branch is over, if it is the way to a handler
    refine and_congr_right fun _ => ⟨fun hne heq => absurd heq hne, fun hlt heq => ?_⟩
    have := hlt heq
    omega
  case caught =>
    intro q hq hop
    obtain ⟨b, hb, rfl⟩ := List.mem_map.mp hq
    rw [Placed.aimedAt_op] at hop
    rw [Placed.aimedAt_offset, Placed.aimedAt_situation, isOpen_middle hdistinct, hsize, hcatches]
    -- the branch that is filled in leads here now, and any other one is as it was
    by_cases heq : b.offset + 1 = c.place
    · rw [Placed.aimedAt, if_pos heq]
      simp only [Placed.aim]
      exact .inr ⟨by omega, .inr ⟨by omega, hlanding b hb heq hop⟩⟩
    · rw [Placed.aimedAt, if_neg heq]
      rcases h.caught b hb hop with hopen | ⟨hle, hnote | ⟨-, hland⟩⟩
      · exact .inl ⟨hopen, heq⟩
      · exact .inr ⟨hle, .inl hnote⟩
      · cases hland
  case spawned =>
    intro q hq hop
    obtain ⟨b, hb, rfl⟩ := List.mem_map.mp hq
    rw [Placed.aimedAt_op] at hop
    obtain ⟨d, hd, hend, hclosure, hthunk⟩ := h.spawned b hb hop
    have hstay : d.aimedAt c.place distance = d := by
      -- the closure in front of a spawn is no branch
      refine if_neg fun heq => ?_
      have := hforward d hd heq
      rw [hclosure] at this
      cases this
    refine ⟨d, hstay ▸ List.mem_map_of_mem hd, ?_, hclosure, hthunk⟩
    rw [Placed.aimedAt_offset]
    exact hend

end Patch

/-- The handler that starts at the end of the code declares its error variable. -/
theorem Noted.catch {slot : Nat} (h : Noted pool isOpen bodies (some slot) chunk listing) :
    Noted pool isOpen bodies none (chunk.noteCatch slot) listing where
  meant := h.meant
  declared := h.declared
  noted := h.noted
  nested := h.nested
  within := h.within
  here := h.here
  caught b hb hop := by
    refine (h.caught b hb hop).imp_right fun ⟨hle, hnote⟩ => ⟨hle, .inl (Array.mem_push.mpr ?_)⟩
    rcases hnote with hnote | ⟨heq, hland⟩
    · exact .inl hnote
    · refine .inr (Prod.ext heq ?_)
      exact (Option.some.inj hland).symm
  spawned := h.spawned

/-! ## Finished code -/

/-- Without an open branch the notes are about finished code. -/
theorem Noted.annotates (h : Noted pool (IsOpen []) bodies none chunk listing) :
    Annotates pool chunk listing where
  meant := h.meant
  declared := h.declared
  nested q hq hop := (h.nested q hq hop).of_open fun a => by simp [IsOpen]
  within q hq := by
    obtain ⟨guards, hencloses, hsub⟩ := h.within q hq
    exact ⟨guards, hencloses.of_open fun a => by simp [IsOpen], hsub⟩
  caught b hb hop := by
    rcases h.caught b hb hop with ⟨c, hc, -⟩ | ⟨-, hnote | ⟨-, hland⟩⟩
    · cases hc
    · exact hnote
    · cases hland
  spawned := h.spawned

section Blank

variable {q : Placed} {rest : List Placed}

/-- What is neither a push nor an empty instruction stands behind those that replace the load. -/
theorem mem_blanked_append {p : Placed} (hp : p ∈ blanked q.situation ++ rest)
    (hop : p.instr.op ≠ .pushNull ∧ p.instr.op ≠ .nop) : p ∈ rest := by
  rcases List.mem_append.mp hp with hp | hp
  · simp only [blanked, List.mem_cons, List.not_mem_nil, or_false] at hp
    rcases hp with rfl | rfl | rfl <;> simp [Instruction.make] at hop
  · exact hp

/-- The bodies around an offset do not depend on the load at the start. -/
theorem Encloses.blank {x : Nat} (h : Encloses (q :: rest) isOpen x guards)
    (hop : q.instr.op ≠ .tryBegin) : Encloses (blanked q.situation ++ rest) isOpen x guards := by
  refine ⟨h.inner, fun g => ?_⟩
  rw [h.mem]
  constructor
  · rintro ⟨b, hb, hb', hrest⟩
    rcases List.mem_cons.mp hb with rfl | hb
    · exact absurd hb' hop
    · exact ⟨b, List.mem_append_right _ hb, hb', hrest⟩
  · rintro ⟨b, hb, hb', hrest⟩
    exact ⟨b, List.mem_cons_of_mem _ (mem_blanked_append hb (by simp [hb'])), hb', hrest⟩

/-- The instructions of a listing when the load of a global at the start has been replaced. -/
theorem instructionsOf_blanked (hq : q.offset = 0) (hrest : ∀ p ∈ rest, 3 ≤ p.offset) :
    instructionsOf (blanked q.situation ++ rest) =
      (instructionsOf (q :: rest)).flatMap fun e =>
        if e.1 = 0 then (Chunk.blanks 0).toList else [e] := by
  have hstay : (instructionsOf rest).flatMap (fun e =>
      if e.1 = 0 then (Chunk.blanks 0).toList else [e]) = instructionsOf rest := by
    rw [List.flatMap_congr (g := fun e => [e]) fun e he => ?_, List.flatMap_singleton']
    obtain ⟨p, hp, hoffset, -⟩ := mem_instructionsOf.mp he
    have := hrest p hp
    exact if_neg (by omega)
  rw [show instructionsOf (q :: rest) = (q.offset, q.instr) :: instructionsOf rest from rfl,
    List.flatMap_cons, hstay, if_pos hq, instructionsOf, List.map_append]
  rfl

/-- **`Noted.blank`** — notes stay true when the load of a global at the start is replaced. -/
theorem Noted.blank (h : Noted pool isOpen bodies landing chunk (q :: rest))
    (hcontiguous : Contiguous 0 (q :: rest)) (hop : q.instr.op = .getGlobal)
    (hwidth : q.instr.width = 3) (hhandlers : q.situation.handlers = []) :
    Noted pool isOpen bodies landing (chunk.blank 0) (blanked q.situation ++ rest) := by
  obtain ⟨hq, -, hrest⟩ := hcontiguous
  rw [hwidth] at hrest
  have hle : ∀ p ∈ rest, 3 ≤ p.offset := hrest.le_offset
  have hne : q.instr.op ≠ .tryBegin := by rw [hop]; decide
  -- the three instructions in place of the load: none raises to a handler, and none spawns
  have hmem : ∀ p ∈ blanked q.situation, p.offset < 3 ∧ p.situation.handlers = [] ∧
      p.instr.op ≠ .tryBegin ∧ p.instr.op ≠ .spawn ∧
      ∀ j, p.situation.mayBeOpen j → q.situation.mayBeOpen j := by
    intro p hp
    simp only [blanked, List.mem_cons, List.not_mem_nil, or_false] at hp
    rcases hp with rfl | rfl | rfl <;>
      simp [Instruction.make, Situation.next, hhandlers] <;> tauto
  -- no body begins so early, as a body starts behind the instruction that installs its handler
  have hnone : ∀ x < 3, Encloses (blanked q.situation ++ rest) isOpen x [] := by
    intro x hx
    refine ⟨.nil, fun g => ⟨by simp, ?_⟩⟩
    rintro ⟨b, hb, hbop, -, hbx, -⟩
    have := hle b (mem_blanked_append hb (by simp [hbop]))
    omega
  have hscopes : (chunk.blank 0).scopes = chunk.scopes := rfl
  have hcatches : (chunk.blank 0).catches = chunk.catches := rfl
  have hsize : (chunk.blank 0).code.size = chunk.code.size := Chunk.size_overwrite ..
  constructor
  case meant =>
    rw [instructionsOf_blanked hq hle, ← h.meant]
    show (chunk.meant.flatMap _).toList = _
    rw [Array.toList_flatMap]
    refine List.flatMap_congr fun e _ => ?_
    split <;> rfl
  case declared =>
    intro p hp j hj
    rw [Chunk.scopeAt, hscopes, ← Chunk.scopeAt]
    rcases List.mem_append.mp hp with hp | hp
    · obtain ⟨hlt, -, -, -, hopen⟩ := hmem p hp
      have hdeclared := h.declared q List.mem_cons_self j (hopen j hj)
      -- no instruction is noted between the first one and the fourth byte
      rw [Chunk.scopeAt_congr (y := q.offset) fun e he => ?_]
      · exact hdeclared
      · obtain ⟨r, hr, hre⟩ := h.noted e he
        rcases List.mem_cons.mp hr with rfl | hr
        · omega
        · have := hle r hr
          omega
    · exact h.declared p (List.mem_cons_of_mem _ hp) j hj
  case noted =>
    intro e he
    obtain ⟨r, hr, hre⟩ := h.noted e (hscopes ▸ he)
    obtain ⟨p, hp, hpo, -⟩ := mem_blanked hq hr
    exact ⟨p, hp, hpo.trans hre⟩
  case nested =>
    intro p hp hraise
    rcases List.mem_append.mp hp with hp | hp
    · obtain ⟨hlt, hnil, -⟩ := hmem p hp
      rw [hnil]
      exact hnone _ hlt
    · exact (h.nested p (List.mem_cons_of_mem _ hp) hraise).blank hne
  case within =>
    intro p hp
    rcases List.mem_append.mp hp with hp | hp
    · obtain ⟨hlt, hnil, -⟩ := hmem p hp
      exact ⟨[], hnone _ hlt, by rw [hnil]; exact List.Subset.refl _⟩
    · obtain ⟨guards, hencloses, hsub⟩ := h.within p (List.mem_cons_of_mem _ hp)
      exact ⟨guards, hencloses.blank hne, hsub⟩
  case here =>
    rw [hsize]
    exact h.here.blank hne
  case caught =>
    intro b hb hbop
    rw [hsize, hcatches]
    rcases List.mem_append.mp hb with hb | hb
    · exact absurd hbop (hmem b hb).2.2.1
    · exact h.caught b (List.mem_cons_of_mem _ hb) hbop
  case spawned =>
    intro p hp hspawn
    rcases List.mem_append.mp hp with hp | hp
    · exact absurd hspawn (hmem p hp).2.2.2.1
    · obtain ⟨b, hb, hend, hclosure, hthunk⟩ := h.spawned p (List.mem_cons_of_mem _ hp) hspawn
      rcases List.mem_cons.mp hb with rfl | hb
      · -- the closure in front of a spawn is not the load that is replaced
        rw [hop] at hclosure
        cases hclosure
      · exact ⟨b, List.mem_append_right _ hb, hend, hclosure, hthunk⟩

end Blank

end ScriptMachine
