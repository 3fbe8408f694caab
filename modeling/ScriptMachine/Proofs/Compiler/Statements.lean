import ScriptMachine.Proofs.Compiler.Declarations

/-!
# ScriptMachine.Proofs.Compiler.Statements — statements leave the stack as it is

A statement ends with the view it started with, whichever way control can take through it: out of a
loop, around an arm of a switch, into a handler.

The views in between are what the proofs are about, and each statement has its own: a loop knows the
situation that its jumps out of it expect (`View.looped`, `View.left`), a switch the jumps that its arms
leave open (`View.ended`, `View.armed`), and a statement with a handler the way to it
(`View.handling`, `View.landed`). A triple from one view to the next is given for every step that opens
or closes one of them, and the statement is their composition; what follows a jump that is always taken
is reached from nowhere, so its view may be chosen.

`declaration_spec` is the main result: a declaration or statement leaves the stack with one slot more
for each local it declares. It is assembled from one lemma per production under the assumption that
nested goals do their part (`Serves`), which is discharged where the budget is counted.
-/

namespace ScriptMachine.Compiler

variable {tip : Tip} {v w : View} {vs : List View} {n m k : Nat} {s : State} {self : Recur} {K : Prop}

/-! ## Branches -/

/-- A condition in parentheses leaves one value. -/
theorem condition_spec (h : Serves self n K) (hv : v.Ready) (hK : v.known → K) :
    Triple (Inv .plain (v :: vs) n) (condition self) fun _ => Inv .plain (v.up 1 :: vs) n :=
  .bind (h.value (k := 0) hv hK) fun _ => expect_spec

/-- The test of a statement: what comes next runs when it holds, with a branch open for when it does
not. -/
theorem test_spec (hv : v.Ready) :
    Triple (Inv .plain (v.up 1 :: vs) n) (emitJump .jumpIfFalse) fun r =>
      Inv .plain ((v.hole ((v.up 1).claim r)).up 1 :: vs) n :=
  emitJumpIfFalse_spec (hv.up 1) (Nat.lt_succ_of_le hv.values)

theorem pop_spec (hv : v.Ready) :
    Triple (Inv .plain (v.up (k + 1) :: vs) n) (emit .pop) fun _ => Inv .plain (v.up k :: vs) n :=
  emit_plain hv rfl (Nat.le_add_left ..)

/-- A branch may be left open from anywhere, if it does not count on more locals than there are. -/
theorem Outline.Settled.hole (hv : v.Settled) {c : Claim} (hc : c.limit ≤ v.env.length) :
    (v.hole c).Settled :=
  ⟨hv.toReady.hole hc, hv.level, hv.awaiting, hv.finished⟩

theorem Outline.Settled.opened (hv : v.Settled) {cs : List Claim}
    (hcs : ∀ c ∈ cs, c.limit ≤ v.env.length) : (v.opened cs).Settled :=
  { hv.toReady.opened hcs with level := hv.level, awaiting := hv.awaiting, finished := hv.finished }

/-- Both ways through an `if` drop the condition, and they meet with the stack as it was. -/
theorem ifStatement_spec (h : Serves self n K) (hv : v.Settled) (hK : v.known → K) :
    Triple (Inv .plain (v :: vs) n) (ifStatement self) fun _ => Inv .plain (v :: vs) n := by
  have hpositive : 0 < v.height := Nat.lt_of_lt_of_le hv.receiver hv.values
  have hlevel : v.env.length ≤ v.height := hv.values
  refine .bind expect_spec fun _ => .bind (condition_spec h hv.toReady hK) fun _ => ?_
  refine .bind (test_spec hv.toReady) fun toElse => ?_
  have hw : (v.hole ((v.up 1).claim toElse)).Settled := hv.hole (Nat.le_refl _)
  refine .bind (pop_spec (k := 0) hw.toReady) fun _ => .bind (h.statement hw hK) fun _ => ?_
  refine .bind (emitJump_spec hw.guarded hpositive (.inl (Nat.le_refl _)) (List.Subset.refl _)
    (v.height + 1) v.handlers) fun toEnd => ?_
  refine .bind (patchJump_previous (v := v.up 1) (c := (v.up 1).claim toElse) (d := v.claim toEnd)
    rfl rfl (Nat.le_succ_of_le hlevel) hv.building_subset hv.lexical) fun _ => ?_
  have hend : (v.hole (v.claim toEnd)).Settled := hv.hole (Nat.le_refl _)
  refine .bind (pop_spec (v := v.hole (v.claim toEnd)) (k := 0) hend.toReady) fun _ => ?_
  refine .bind accept_spec fun _ => .when (fun _ => h.statement hend hK) (fun _ s hs => hs) ?_
  exact patchJump_last (v := v) (c := v.claim toEnd) rfl rfl hlevel hv.building_subset hv.lexical

/-- A return in the middle of a function: what follows is not reached from it. -/
theorem emitReturn_resume (hv : v.Ready) :
    Triple (Inv .plain (v :: vs) n) emitReturn fun _ => Inv .plain (v :: vs) n :=
  (emitReturn_spec hv).post fun _ _ hs => hs.weaken fun _ _ ht => ht.revive v.height v.handlers

/-- After a return the code goes on with the stack that it found, although it is never reached from
there. -/
theorem returnStatement_spec (h : Serves self n K) (hv : v.Ready) (hK : v.known → K) :
    Triple (Inv .plain (v :: vs) n) (returnStatement self) fun _ => Inv .plain (v :: vs) n := by
  refine .bind accept_spec fun _ => .ite (fun _ => emitReturn_resume hv) fun _ => ?_
  refine .bind check_skip fun _ => .bind atEnd_skip fun _ => .ite (fun _ => emitReturn_resume hv)
    fun _ => .get fun s₀ => .when (fun _ => ?_) (fun _ s hs => hs.1) ?_
  · exact (error_spec.pre fun s hs => hs.1).post fun _ _ h => h.elim
  · refine .bind (h.value (k := 0) hv hK) fun _ => .bind accept_spec fun _ => ?_
    exact emitReturnValue_spec hv v.height

/-! ## Loops -/

/-- The view in a loop that starts at the tip. -/
def View.looped (v : View) (start : Nat) : View :=
  { v with
    loops := ⟨start, v.depth, v.height, v.handlers⟩ :: v.loops
    points := ⟨start, v.height, v.handlers, v.height, []⟩ :: v.points }

theorem Outline.Usable.loopBase_le (hv : v.Usable) : loopBase v.loops ≤ v.env.length :=
  hv.base_le

/-- Within a loop all that was settled stays so: the loop keeps the locals and the handlers that it
found as the floor for `break` and `continue`. -/
theorem Outline.Settled.looped (hv : v.Settled) {start : Nat} : (v.looped start).Settled where
  receiver := hv.receiver
  height := hv.height
  depths := hv.depths
  guards := hv.guards
  holes := hv.holes
  building := hv.building
  tries := hv.tries
  lexical := hv.lexical
  values := hv.values
  level := hv.level
  awaiting := hv.awaiting
  finished := hv.finished
  loops := by
    have hlevel := hv.level
    have hreceiver := hv.receiver
    have hbase := hv.loopBase_le
    -- in each field the new loop comes first, and starts at the tip
    constructor
    case positive =>
      intro l hl
      rcases List.mem_cons.mp hl with rfl | hl
      · show 0 < v.height
        omega
      · exact hv.loops.positive l hl
    case base =>
      intro l hl
      rcases List.mem_cons.mp hl with rfl | hl
      · exact Nat.le_of_eq hlevel
      · exact hv.loops.base l hl
    case scopeDepth =>
      intro l hl
      rcases List.mem_cons.mp hl with rfl | hl
      · exact Nat.le_refl _
      · exact hv.loops.scopeDepth l hl
    case outside =>
      intro l hl d hd
      rcases List.mem_cons.mp hl with rfl | hl
      · exact hv.depths d (List.mem_of_mem_take hd)
      · exact hv.loops.outside l hl d hd
    case inside =>
      intro l hl d hd
      rcases List.mem_cons.mp hl with rfl | hl
      · rw [show (LoopView.mk start v.depth v.height v.handlers).base = v.env.length from hlevel,
          show (v.looped start).env = v.env from rfl, List.drop_length] at hd
        cases hd
      · exact hv.loops.inside l hl d hd
    case handlers =>
      intro l hl
      rcases List.mem_cons.mp hl with rfl | hl
      · exact List.suffix_refl _
      · exact hv.loops.handlers l hl
    case start =>
      intro l hl
      rcases List.mem_cons.mp hl with rfl | hl
      · exact List.mem_cons_self
      · exact List.mem_cons_of_mem _ (hv.loops.start l hl)
    case limits =>
      intro p hp
      show p.limit ≤ v.height
      rcases List.mem_cons.mp hp with rfl | hp
      · exact Nat.le_refl _
      · have := hv.loops.limits p hp
        omega
    case nested =>
      refine List.pairwise_cons.mpr ⟨fun l hl => ?_, hv.loops.nested⟩
      rw [show (LoopView.mk start v.depth v.height v.handlers).base = v.env.length from hlevel]
      exact hv.loops.base l hl

theorem codeSize_spec {P : State → Prop} :
    Triple P codeSize fun r s => P s ∧ r = s.function.chunk.size :=
  .reads fun _ => rfl

/-- A loop starts where the code ends by then. -/
theorem beginLoop_spec {start : Nat} (hv : v.Settled) :
    Triple (fun s => Inv .plain (v :: vs) n s ∧ start = s.function.chunk.size) (beginLoop start)
      fun _ => Inv .plain (v.looped start :: vs) n := by
  refine .modify (fun _ => rfl) ?_
  rintro s ⟨hs, rfl⟩
  exact hs.update_head (hs.head.begin_loop hv.level hv.tries hv.finished) rfl

/-- **`endLoop_spec`** — the jumps out of a loop lead to its end. -/
theorem endLoop_spec (hv : v.Settled) {l : LoopView} {points : List Claim}
    (hbase : l.base = v.height) (hhandlers : l.handlers = v.handlers)
    (hpoints : ∀ p ∈ v.points, p ∈ points) :
    Triple (Inv .plain ({ v with loops := l :: v.loops, points } :: vs) n) endLoop fun _ =>
      Inv .plain (v :: vs) n := by
  refine .get fun s₀ => ?_
  split
  · rename_i hloops
    refine .pure ?_
    rintro s ⟨hs, rfl⟩
    obtain ⟨loop, loops, heq, -⟩ := hs.head.loops_cons rfl
    rw [hloops] at heq
    cases heq
  · rename_i loop loops hloops
    refine .bind (Q := fun _ => Inv .plain
      (v.opened (loop.breaks.toList.map l.claim) :: vs) n) (.modify (fun _ => rfl) ?_) fun _ => ?_
    · rintro s ⟨hs, rfl⟩
      refine hs.update_head (hs.head.end_loop rfl hloops ?_ ?_) rfl
      · rw [hbase, hv.level]
        exact hv.loopBase_le
      · exact fun p hp => ⟨hpoints p hp, hv.loops.limits p hp⟩
    · refine Triple.forM (I := fun places => Inv .plain (v.opened (places.map l.claim) :: vs) n) ?_ _
      intro place places
      exact patchJump_last (v := v.opened (places.map l.claim)) (c := l.claim place) hbase hhandlers
        (Nat.le_of_eq hbase) hv.building_subset hv.lexical

/-- The view on the way out of a loop: the locals of its body are gone and its handlers removed. -/
def View.left (v : View) (l : LoopView) : View :=
  { v with height := l.base, handlers := l.handlers }

theorem View.guarded_left (hv : v.Settled) {l : LoopView} (hl : l ∈ v.loops) :
    (v.left l).Guarded := by
  have hsuffix : l.handlers <:+ v.handlers := hv.loops.handlers l hl
  refine ⟨fun h outer hh => (hv.guards h outer ?_).1, hv.lexical.2,
    fun _ hg => hv.guarded.within (hsuffix.subset hg), hv.building_all⟩
  rw [show l.handlers = h :: outer from hh] at hsuffix
  exact hsuffix

/-- The handlers installed in the body of a loop are removed one after the other. -/
theorem closeHandlers_spec {l : LoopView} (hpositive : 0 < l.base) (hlanding : v.landing = none)
    (hfinished : v.building = []) (units : List Unit) :
    Triple (fun s => ∃ inner : List Guard,
        (inner.length = units.length ∧ inner ++ l.handlers ⊆ v.bodies) ∧ Inv .plain ({ v with height := l.base, handlers := inner ++ l.handlers } :: vs) n s)
      (units.forM fun _ => emit .tryEnd 0) fun _ => Inv .plain (v.left l :: vs) n := by
  refine Triple.post (Triple.forM (I := fun units s => ∃ inner : List Guard,
    (inner.length = units.length ∧ inner ++ l.handlers ⊆ v.bodies) ∧
      Inv .plain ({ v with height := l.base, handlers := inner ++ l.handlers } :: vs) n s) ?_ units) ?_
  · intro x units
    refine .exists_pre fun inner => ?_
    cases inner with
    | nil =>
      refine emitInstruction_spec fun s hs => ?_
      cases hs.1.1
    | cons h inner =>
      let u : View := { v.know (inner.length = units.length ∧
        (h :: inner) ++ l.handlers ⊆ v.bodies) with
        height := l.base, handlers := (h :: inner) ++ l.handlers }
      refine Triple.post (Triple.pre (P := Inv .plain (u :: vs) n) (emitClose_spec hpositive hlanding hfinished rfl
        fun hknown => hknown.2.2) fun s hs => ?_) fun _ s hs => ⟨inner, ⟨hs.known.2.1, ?_⟩, ?_⟩
      · exact hs.2.know ⟨Nat.succ.inj hs.1.1, hs.1.2⟩
      · exact fun _ hg => hs.known.2.2 (List.mem_cons_of_mem h hg)
      · exact hs.forget ⟨rfl, fun _ h => h, fun _ h => h, Nat.le_refl _, fun hknown => hknown.1⟩
  · rintro _ s ⟨inner, ⟨hlength, -⟩, hs⟩
    obtain rfl : inner = [] := List.length_eq_zero_iff.mp hlength
    exact hs

/-- Outside of loops there is nothing to leave. -/
theorem leaveLoopBody_none (hv : v.loops = []) :
    Triple (Inv .plain (v :: vs) n) leaveLoopBody? fun r s => r = none ∧ Inv .plain (v :: vs) n s := by
  refine .get fun s₀ => ?_
  split
  · exact .pure fun s hs => ⟨rfl, hs.1⟩
  · rename_i loop loops hloops
    have hdirty : ∀ {α : Type} (l : List α) (op : α → Operation),
        Triple (fun _ => False) (l.forM fun x => emit (op x)) fun _ _ => False := fun l op =>
      Triple.forM (I := fun _ _ => False) (fun x xs => emitInstruction_spec fun _ h => h) l
    refine .bind (Q := fun _ _ => False) (.bind (Q := fun _ _ => False) ?_ fun _ => hdirty _ _) fun _ => ?_
    · intro s hs hclean
      obtain ⟨hinv, rfl⟩ := hs hclean
      have hmatches := hinv.head.loops
      rw [hv, hloops] at hmatches
      cases hmatches
    · exact .bind (.skip fun _ => rfl) fun _ => .bind (hdirty _ fun _ => .tryEnd) fun _ =>
        .pure fun _ h => h.elim

/-- Within a loop its locals leave the stack and its handlers are closed. -/
theorem leaveLoopBody_some (hv : v.Settled) {l : LoopView} {outer : List LoopView}
    (hl : v.loops = l :: outer) :
    Triple (Inv .plain (v :: vs) n) leaveLoopBody? fun r s => ∃ loop, r = some loop ∧
      Inv .plain ((v.left l).know (loop.start = l.start) :: vs) n s := by
  have hmem : l ∈ v.loops := by simp [hl]
  refine .get fun s₀ => ?_
  split
  · -- there is a loop in the view, so there is one in the state
    rename_i hloops
    refine .pure ?_
    rintro s ⟨hs, rfl⟩
    obtain ⟨loop, loops, heq, -⟩ := hs.head.loops_cons hl
    rw [hloops] at heq
    cases heq
  · rename_i loop loops hloops
    refine .bind (Triple.pre (P := Inv .plain (v.know (l.Matches loop) :: vs) n)
      (discardLocals_spec (v := v.know (l.Matches loop)) hv hl fun hknown => hknown.2.scopeDepth) ?_)
      fun _ => .get fun s₁ => ?_
    · rintro s ⟨hs, rfl⟩
      obtain ⟨loop', loops', heq, hmatch, -⟩ := hs.head.loops_cons hl
      rw [hloops] at heq
      obtain ⟨rfl, -⟩ := List.cons.inj heq
      exact hs.know hmatch
    · refine .bind (Q := fun _ => Inv .plain ((v.know (l.Matches loop)).left l :: vs) n)
        (Triple.pre (closeHandlers_spec (v := v.know (l.Matches loop)) (hv.loops.positive l hmem)
          hv.lexical.2 hv.finished _) ?_) fun _ => .pure fun s hs => ⟨loop, rfl, ?_⟩
      · rintro s ⟨hs, rfl⟩
        -- the handlers of the body are those in front of the handlers around the loop
        obtain ⟨inner, hinner⟩ := hv.loops.handlers l hmem
        refine ⟨inner, ⟨?_, ?_⟩, ?_⟩
        · have hlength := congrArg List.length hinner
          rw [List.length_append] at hlength
          rw [List.length_replicate, hs.head.tries, hs.known.2.tryDepth,
            show ((v.know (l.Matches loop)).atHeight l.base).tries = v.tries from rfl, hv.tries]
          omega
        · rw [hinner]
          exact hv.guarded.within
        · rw [hinner]
          exact hs
      · exact hs.forget ⟨rfl, fun _ h => h, fun _ h => h, Nat.le_refl _, fun hknown =>
          ⟨hknown.1, hknown.2.start⟩⟩

/-- **`breakStatement_spec`** — a jump out of the innermost loop; what follows is not reached from
it. -/
theorem breakStatement_spec (hv : v.Settled) :
    Triple (Inv .plain (v :: vs) n) breakStatement fun _ => Inv .plain (v :: vs) n := by
  refine .bind accept_spec fun _ => ?_
  cases hl : v.loops with
  | nil =>
    refine .bind (leaveLoopBody_none hl) fun r => ?_
    cases r with
    | none => exact (error_spec.pre fun s hs => hs.2).post fun _ _ h => h.elim
    | some loop =>
      refine .bind (Q := fun _ _ => False) ?_ fun _ => .modify (fun _ => rfl) fun _ h => h.elim
      refine .bind (emitInstruction_spec (Q := fun _ _ => False) ?_) fun _ =>
        .bind (.skip fun _ => rfl) fun _ => .bind .demanded fun _ => .pure fun _ h => h
      rintro s ⟨hr, -⟩
      cases hr
  | cons l outer =>
    have hmem : l ∈ v.loops := by simp [hl]
    refine .bind (leaveLoopBody_some hv hl) fun r => .exists_pre fun loop => ?_
    cases r with
    | none =>
      refine (error_dirty.post fun _ _ h => h.elim).pre ?_
      rintro s ⟨hr, -⟩
      cases hr
    | some loop' =>
      have hjump : Triple (Inv .plain (v.left l :: vs) n) (emitJump .jump) fun r =>
          Inv .plain (v.hole (l.claim r) :: vs) n :=
        emitJump_spec (View.guarded_left hv hmem) (hv.loops.positive l hmem)
          (.inr (Nat.le_refl _)) (List.nil_subset _) v.height v.handlers
      refine .bind (hjump.pre fun s hs => hs.2.forget .know) fun jump => ?_
      exact modifyFunction_spec (fun image fs ht => ht.push_break hl) fun _ => rfl

/-- The jump drops the locals of the body; what follows it is compiled as if they were still there. -/
theorem continueStatement_spec (hv : v.Settled) :
    Triple (Inv .plain (v :: vs) n) continueStatement fun _ => Inv .plain (v :: vs) n := by
  refine .bind accept_spec fun _ => ?_
  cases hl : v.loops with
  | nil =>
    refine .bind (leaveLoopBody_none hl) fun r => ?_
    cases r with
    | none => exact (error_spec.pre fun s hs => hs.2).post fun _ _ h => h.elim
    | some loop =>
      refine (emitLoop_dirty.post fun _ _ h => h.elim).pre ?_
      rintro s ⟨hr, -⟩
      cases hr
  | cons l outer =>
    have hmem : l ∈ v.loops := by simp [hl]
    refine .bind (leaveLoopBody_some hv hl) fun r => .exists_pre fun loop => ?_
    cases r with
    | none =>
      refine (error_dirty.post fun _ _ h => h.elim).pre ?_
      rintro s ⟨hr, -⟩
      cases hr
    | some loop' =>
      have hloop : Triple (Inv .plain ((v.left l).know (loop'.start = l.start) :: vs) n)
          (emitLoop loop'.start) fun _ => Inv .plain (v.know (loop'.start = l.start) :: vs) n :=
        emitLoop_spec (v := (v.left l).know (loop'.start = l.start))
          (p := ⟨l.start, l.base, l.handlers, l.base, []⟩)
          (View.guarded_left (v := v.know (loop'.start = l.start)) hv hmem) (hv.loops.positive l hmem)
          (hv.loops.start l hmem) (fun hknown => hknown.2) rfl rfl (Nat.le_refl _) rfl v.height v.handlers
      refine (hloop.pre ?_).post fun _ s hs => hs.forget .know
      rintro s ⟨hr, hs⟩
      obtain rfl := Option.some.inj hr
      exact hs

/-- The end of a loop whose test has a branch open to behind it. -/
theorem closeLoop_spec {start exit : Nat} (hv : v.Settled) :
    Triple (Inv .plain ((v.looped start).hole ((v.up 1).claim exit) :: vs) n) (closeLoop start exit)
      fun _ => Inv .plain (v :: vs) n := by
  have hpositive : 0 < v.height := Nat.lt_of_lt_of_le hv.receiver hv.values
  have hw : ((v.looped start).hole ((v.up 1).claim exit)).Settled := hv.looped.hole (Nat.le_refl _)
  refine .bind (emitLoop_spec (p := ⟨start, v.height, v.handlers, v.height, []⟩) hw.guarded hpositive
    List.mem_cons_self (fun _ => rfl) rfl rfl (Nat.le_refl _) rfl (v.height + 1) v.handlers) fun _ => ?_
  refine .bind (patchJump_last (v := (v.looped start).up 1) (c := (v.up 1).claim exit) rfl rfl
    (Nat.le_succ_of_le hv.values) hv.building_subset hv.lexical) fun _ => ?_
  refine .bind (pop_spec (v := v.looped start) (k := 0) hv.looped.toReady) fun _ => ?_
  exact endLoop_spec hv rfl rfl fun p hp => List.mem_cons_of_mem _ hp

/-- A `while` loop leaves the stack as it found it, whichever way it ends. -/
theorem whileStatement_spec (h : Serves self n K) (hv : v.Settled) (hK : v.known → K) :
    Triple (Inv .plain (v :: vs) n) (whileStatement self) fun _ => Inv .plain (v :: vs) n := by
  refine .bind codeSize_spec fun start => .bind (beginLoop_spec hv) fun _ => ?_
  have hw : (v.looped start).Settled := hv.looped
  refine .bind expect_spec fun _ => .bind (condition_spec h hw.toReady hK) fun _ => ?_
  refine .bind (test_spec hw.toReady) fun exit => ?_
  have hbody : ((v.looped start).hole ((v.up 1).claim exit)).Settled := hw.hole (Nat.le_refl _)
  refine .bind (pop_spec (k := 0) hbody.toReady) fun _ => .bind (h.statement hbody hK) fun _ => ?_
  exact closeLoop_spec hv

/-- A `do` loop leaves the stack as it found it; the condition is dropped on both ways. -/
theorem doWhileStatement_spec (h : Serves self n K) (hv : v.Settled) (hK : v.known → K) :
    Triple (Inv .plain (v :: vs) n) (doWhileStatement self) fun _ => Inv .plain (v :: vs) n := by
  refine .bind codeSize_spec fun start => .bind (beginLoop_spec hv) fun _ => ?_
  have hw : (v.looped start).Settled := hv.looped
  refine .bind (h.statement hw hK) fun _ => .bind expect_spec fun _ => .bind expect_spec fun _ => ?_
  refine .bind (condition_spec h hw.toReady hK) fun _ => .bind accept_spec fun _ => ?_
  refine .bind (test_spec hw.toReady) fun exit => ?_
  have hbody : ((v.looped start).hole ((v.up 1).claim exit)).Settled := hw.hole (Nat.le_refl _)
  exact .bind (pop_spec (k := 0) hbody.toReady) fun _ => closeLoop_spec hv

/-! ### Over a sequence -/

/-- There are never more locals than there are slots. -/
theorem Inv.slots (h : Inv tip (v :: vs) n s) : v.env.length ≤ maxSlots := by
  have hslots := h.head.slots
  rw [h.head.locals_size] at hslots
  omega

/-- An operation on a local that is known to have a slot. -/
theorem View.finds_slot {op : Operation} {slot : Nat} (hop : op = .getLocal ∨ op = .setLocal)
    (hslot : slot < v.env.length ∧ slot < maxSlots) : v.Finds op slot 0 := by
  rcases hop with rfl | rfl
  all_goals
    refine ⟨⟨hslot.2, rfl, rfl⟩, ?_, fun _ => hslot.1, fun h => by cases h⟩
    simp [Instruction.make, Instruction.names]

theorem getLocal_spec {slot : Nat} (hv : v.Ready)
    (hslot : v.known → slot < v.env.length ∧ slot < maxSlots) :
    Triple (Inv .plain (v.up k :: vs) n) (emit .getLocal slot) fun _ =>
      Inv .plain (v.up (k + 1) :: vs) n :=
  emit_spec hv rfl (fun hknown => View.finds_slot (.inl rfl) (hslot hknown)) (Nat.zero_le _)

theorem setLocal_spec {slot : Nat} (hv : v.Ready)
    (hslot : v.known → slot < v.env.length ∧ slot < maxSlots) :
    Triple (Inv .plain (v.up (k + 1) :: vs) n) (emit .setLocal slot) fun _ =>
      Inv .plain (v.up (k + 1) :: vs) n :=
  emit_spec hv rfl (fun hknown => View.finds_slot (.inr rfl) (hslot hknown))
    (Nat.le_add_left 1 k)

/-- A value becomes a local, in a slot that is there. -/
theorem bindLocal_spec {name : String} (hv : v.awaiting = false) (hdepth : v.depth ≠ 0) :
    Triple (Inv tip (v.up 1 :: vs) n) (addReadyLocal name) fun slot =>
      Inv tip ((v.grow 1).know (slot < v.env.length + 1 ∧ slot < maxSlots) :: vs) n := by
  refine (addReadyLocal_spec (v := v.up 1) hv hdepth).post fun slot s hs => ?_
  obtain ⟨-, rfl⟩ := hs.known
  have hslots : (v.env ++ [v.depth]).length ≤ maxSlots := hs.slots
  rw [List.length_append, List.length_singleton] at hslots
  exact Inv.know (v := v.grow 1) (hs.forget .know) ⟨Nat.lt_succ_self _, hslots⟩

/-- The view with one local more, in the slot that the compiler names. -/
def View.bindTo (v : View) (slot : Nat) : View :=
  (v.grow 1).know (slot < v.env.length + 1 ∧ slot < maxSlots)

theorem View.length_bindTo {slot : Nat} : (v.bindTo slot).env.length = v.env.length + 1 := by
  simp [View.bindTo, View.know, View.grow]

/-- The head of a loop over a sequence: the next position, and whether there is an item at it. -/
theorem forInLoop_spec {item : String} {index : Option String} (h : Serves self n K)
    (hv : v.Settled) (hK : v.known → K) :
    Triple (Inv .plain (v.inner :: vs) n) (forInLoop self item index) fun _ =>
      Inv .plain (v :: vs) n := by
  have hinner := hv.inner
  have hroom := hv.roomy_inner
  have hdepth : v.inner.depth ≠ 0 := Nat.succ_ne_zero _
  refine .bind (h.value (k := 0) hinner.toReady hK) fun _ => ?_
  refine .bind (bindLocal_spec hinner.awaiting hdepth) fun sequence => ?_
  have h₁ : (v.inner.bindTo sequence).Settled := hinner.grow hroom 1
  refine .bind (emitNumber_spec (v := v.inner.bindTo sequence) (k := 0) h₁.toReady) fun _ => ?_
  refine .bind (bindLocal_spec h₁.awaiting hdepth) fun position => ?_
  have h₂ : ((v.inner.bindTo sequence).bindTo position).Settled := h₁.grow hroom 1
  refine .bind (emit_plain (v := (v.inner.bindTo sequence).bindTo position) (k := 0) h₂.toReady rfl
    (Nat.zero_le _)) fun _ => ?_
  refine .bind (bindLocal_spec h₂.awaiting hdepth) fun itemSlot => ?_
  let u := ((v.inner.bindTo sequence).bindTo position).bindTo itemSlot
  have hu : u.Settled := h₂.grow hroom 1
  have hpositive : 0 < u.height := Nat.lt_of_lt_of_le hu.receiver hu.values
  have hslots : u.known → (sequence < u.env.length ∧ sequence < maxSlots) ∧
      (position < u.env.length ∧ position < maxSlots) ∧ itemSlot < u.env.length ∧ itemSlot < maxSlots := by
    rintro ⟨⟨⟨-, hsequence⟩, hposition⟩, hitem⟩
    simp only [View.length_bindTo] at hposition hitem
    rw [View.length_bindTo, View.length_bindTo, View.length_bindTo]
    omega
  refine .bind expect_spec fun _ => ?_
  refine .bind (emitJump_spec (v := u) hu.guarded hpositive (.inl (Nat.le_refl _))
    (List.Subset.refl _) u.height u.handlers) fun toTest => .bind codeSize_spec fun increment => ?_
  have hhole : (u.hole (u.claim toTest)).Settled := hu.hole (Nat.le_refl _)
  refine .bind (beginLoop_spec (v := u.hole (u.claim toTest)) hhole) fun _ => ?_
  -- the next position
  have hnext : ((u.hole (u.claim toTest)).looped increment).Settled := hhole.looped
  refine .bind (getLocal_spec (k := 0) hnext.toReady fun hknown => (hslots hknown).2.1) fun _ => ?_
  refine .bind (emit_plain (k := 1) hnext.toReady rfl (Nat.le_refl _)) fun _ => ?_
  refine .bind (setLocal_spec (k := 0) hnext.toReady fun hknown => (hslots hknown).2.1) fun _ => ?_
  refine .bind (pop_spec (k := 0) hnext.toReady) fun _ => ?_
  refine .bind (patchJump_last (v := u.looped increment) (c := u.claim toTest) rfl rfl hu.values
    hu.building_subset hu.lexical) fun _ => ?_
  -- is there an item at it?
  have htest : (u.looped increment).Settled := hu.looped
  refine .bind (getLocal_spec (k := 0) htest.toReady fun hknown => (hslots hknown).2.1) fun _ => ?_
  refine .bind nameConstant_spec fun g => ?_
  have hnamed : ((u.looped increment).name g).Ready := htest.toReady.name
  refine .bind (emitNamed_spec (v := (u.looped increment).name g) (k := 1) hnamed rfl View.name_known
    (Nat.zero_le _)) fun _ => ?_
  refine .bind (getLocal_spec (k := 2) hnamed fun hknown => (hslots hknown.1).1) fun _ => ?_
  refine .bind (emit_spec (k := 3) hnamed rfl (fun _ => ?_) (by decide)) fun _ => ?_
  · exact ⟨by decide, by simp [Instruction.make, Instruction.names], by simp [Operation.usesSlot],
      by simp [Operation.usesCapture]⟩
  refine .bind (emit_plain (k := 2) hnamed rfl (by decide)) fun _ => ?_
  refine .bind (Triple.pre (test_spec htest.toReady) fun s hs => hs.forget View.Weaker.name.up)
    fun exit => ?_
  -- one pass
  have hbody : ((u.looped increment).hole ((u.up 1).claim exit)).Settled := htest.hole (Nat.le_refl _)
  refine .bind (pop_spec (k := 0) hbody.toReady) fun _ => ?_
  refine .bind (getLocal_spec (k := 0) hbody.toReady fun hknown => (hslots hknown).1) fun _ => ?_
  refine .bind (getLocal_spec (k := 1) hbody.toReady fun hknown => (hslots hknown).2.1) fun _ => ?_
  refine .bind (emit_plain (k := 2) hbody.toReady rfl (by decide)) fun _ => ?_
  refine .bind (setLocal_spec (k := 0) hbody.toReady fun hknown => (hslots hknown).2.2) fun _ => ?_
  refine .bind (pop_spec (k := 0) hbody.toReady) fun _ => ?_
  refine .bind (h.statement hbody fun hknown => hK hknown.1.1.1) fun _ => ?_
  refine .bind (closeLoop_spec hu) fun _ => ?_
  refine Triple.pre (P := Inv .plain (v.inner.grow 3 :: vs) n) (endScope_spec hv 3) fun s hs => ?_
  refine hs.forget ⟨?_, fun _ hp => hp, fun _ hk => hk, Nat.le_refl _, fun hknown => hknown.1.1.1⟩
  have hgrow : (v.inner.grow 3).toOutline = (((v.inner.grow 1).grow 1).grow 1).toOutline := by
    rw [View.grow_grow, View.grow_grow]
  exact hgrow

/-! ### With clauses -/

/-- The view in which the tip can be jumped back to. -/
def View.mark (v : View) (place : Nat) : View :=
  { v with points := ⟨place, v.height, v.handlers, v.base, []⟩ :: v.points }

/-- A place to come back to may be marked anywhere. -/
theorem Outline.Settled.mark (hv : v.Settled) {place : Nat} : (v.mark place).Settled :=
  { hv with
    loops :=
      { hv.loops with
        start := fun l hl => List.mem_cons_of_mem _ (hv.loops.start l hl)
        limits := by
          intro p hp
          rcases List.mem_cons.mp hp with rfl | hp
          · exact Nat.le_refl _
          · exact hv.loops.limits p hp } }

/-- A place that has been marked is one to which a loop can jump back. -/
theorem markPoint_spec (hv : v.Settled) :
    Triple (Inv .plain (v :: vs) n) codeSize fun r => Inv .plain (v.mark r :: vs) n := by
  refine codeSize_spec.post ?_
  rintro _ s ⟨hs, rfl⟩
  exact hs.update_head (hs.head.mark_point (Nat.le_refl _) (Nat.le_trans hv.base_le hv.values)
    hv.finished) rfl

/-- A failed test goes on at the tip, behind whatever else is open. -/
theorem landFailed_spec {jump : Option Nat} (before : List Claim)
    (hv : (v.opened before).Settled) :
    Triple (Inv .plain (((v.opened (jump.toList.map (v.up 1).claim)).opened before).up
        jump.toList.length :: vs) n) (landFailed jump) fun _ =>
      Inv .plain (v.opened before :: vs) n := by
  cases jump with
  | none => exact .pure fun s hs => hs
  | some jump =>
    refine .bind (patchJump_spec (v := v.up 1) before (c := (v.up 1).claim jump) rfl rfl
      (Nat.le_succ_of_le hv.values) hv.building_subset hv.lexical) fun _ => ?_
    exact pop_spec (v := v.opened before) (k := 0) hv.toReady

theorem View.limit_claims {f : Nat → Claim} (hf : ∀ place, (f place).limit ≤ v.env.length)
    (places : List Nat) : ∀ c ∈ places.map f, c.limit ≤ v.env.length := by
  intro c hc
  obtain ⟨place, -, rfl⟩ := List.mem_map.mp hc
  exact hf place

/-- A `for` loop may have no condition; then no branch is left open. -/
theorem loopCondition_spec (h : Serves self n K) (hv : v.Settled) (hK : v.known → K) :
    Triple (Inv .plain (v :: vs) n) (loopCondition self) fun exit? =>
      Inv .plain (v.opened (exit?.toList.map (v.up 1).claim) :: vs) n := by
  refine .bind accept_spec fun _ => .ite (fun _ => .pure fun s hs => hs) fun _ => ?_
  refine .bind (h.value (k := 0) hv.toReady hK) fun _ => .bind expect_spec fun _ => ?_
  refine .bind (test_spec hv.toReady) fun exit => ?_
  have hexit : (v.hole ((v.up 1).claim exit)).Settled := hv.hole (Nat.le_refl _)
  exact .bind (pop_spec (k := 0) hexit.toReady) fun _ => .pure fun s hs => hs

/-- The view in a loop with clauses, whose passes go on at `start` and then test at `test`. -/
def View.clauses (v : View) (test start : Nat) (exits : List Claim) : View :=
  ((v.looped start).mark test).opened exits

/-- The increment is compiled before the body and run after it: a branch goes around it, and a jump
leads from it back to the test. -/
theorem loopIncrement_spec {test : Nat} {exits : List Claim} (h : Serves self n K) (hv : v.Settled)
    (hK : v.known → K) (hexits : ∀ c ∈ exits, c.limit ≤ v.env.length) :
    Triple (Inv .plain ((v.looped test).opened exits :: vs) n) (loopIncrement self test) fun start =>
      Inv .plain (v.clauses test start exits :: vs) n := by
  have hw : ((v.looped test).opened exits).Settled := hv.looped.opened hexits
  have hpositive : 0 < v.height := Nat.lt_of_lt_of_le hv.receiver hv.values
  refine .bind accept_spec fun _ => .ite (fun _ => .pure fun s hs => ?_) fun _ => ?_
  · refine hs.forget ⟨rfl, ?_, fun _ hk => hk, Nat.le_refl _, id⟩
    intro p hp
    rcases List.mem_cons.mp hp with rfl | hp
    · exact List.mem_cons_self
    · exact hp
  refine .bind (emitJump_spec hw.guarded hpositive (.inl (Nat.le_refl _)) (List.Subset.refl _) v.height
    v.handlers) fun toBody => ?_
  have hbody : (((v.looped test).opened exits).hole (v.claim toBody)).Settled := hw.hole (Nat.le_refl _)
  refine .bind (markPoint_spec (v := ((v.looped test).opened exits).hole (v.claim toBody)) hbody)
    fun increment => ?_
  have hmarked : ((((v.looped test).opened exits).hole (v.claim toBody)).mark increment).Settled :=
    hbody.mark
  refine .bind (h.value (k := 0) hmarked.toReady hK) fun _ => ?_
  refine .bind (pop_spec (k := 0) hmarked.toReady) fun _ => .bind expect_spec fun _ => ?_
  refine .bind (emitLoop_spec (p := ⟨test, v.height, v.handlers, v.height, []⟩) hmarked.guarded
    hpositive (List.mem_cons_of_mem _ List.mem_cons_self) (fun _ => rfl) rfl rfl (Nat.le_refl _) rfl
    v.height v.handlers) fun _ => ?_
  refine .bind (modifyFunction_spec (fun image fs ht => Tracks.restart_loop (l := ⟨test, v.depth,
    v.height, v.handlers⟩) ht rfl) fun _ => rfl) fun _ => ?_
  have hpatch : Triple (Inv .plain ((v.clauses test increment exits).hole (v.claim toBody) :: vs) n)
      (patchJump toBody) fun _ => Inv .plain (v.clauses test increment exits :: vs) n :=
    patchJump_last (c := v.claim toBody) rfl rfl hv.values hv.building_subset hv.lexical
  refine .bind (hpatch.pre fun s hs => hs.forget ⟨rfl, ?_, fun _ hk => hk, Nat.le_refl _, id⟩)
    fun _ => .pure fun s hs => hs
  exact fun p hp => (List.Perm.swap _ _ v.points).subset hp

/-- The clauses after the first one and the body; the scope of the first one ends here. -/
theorem forClauses_spec (h : Serves self n K) (hv : v.Settled) (hK : v.known → K) :
    Triple (Inv .plain (v.inner.grow k :: vs) n) (forClauses self) fun _ =>
      Inv .plain (v :: vs) n := by
  let u := v.inner.grow k
  have hu : u.Settled := hv.inner.grow hv.roomy_inner k
  have hpositive : 0 < u.height := Nat.lt_of_lt_of_le hu.receiver hu.values
  refine .bind codeSize_spec fun test => .bind (beginLoop_spec hu) fun _ => ?_
  refine .bind (loopCondition_spec h hu.looped hK) fun exit? => ?_
  have hexits : ∀ c ∈ exit?.toList.map (u.up 1).claim, c.limit ≤ u.env.length :=
    View.limit_claims (v := u) (fun _ => Nat.le_refl _) _
  refine .bind (loopIncrement_spec h hu hK hexits) fun start => ?_
  have hw : (u.clauses test start (exit?.toList.map (u.up 1).claim)).Settled :=
    hu.looped.mark.opened hexits
  refine .bind (h.statement hw hK) fun _ => ?_
  refine .bind (emitLoop_spec (p := ⟨start, u.height, u.handlers, u.height, []⟩) hw.guarded hpositive
    (List.mem_cons_of_mem _ List.mem_cons_self) (fun _ => rfl) rfl rfl (Nat.le_refl _) rfl
    (u.height + exit?.toList.length) u.handlers) fun _ => ?_
  refine .bind (landFailed_spec (v := (u.looped start).mark test) [] hu.looped.mark) fun _ => ?_
  refine .bind (endLoop_spec hu rfl rfl fun p hp => ?_) fun _ => endScope_spec hv k
  exact List.mem_cons_of_mem _ (List.mem_cons_of_mem _ hp)

theorem indexName_spec : Triple (Inv tip vs n) indexName fun _ => Inv tip vs n :=
  .bind accept_spec fun _ => .ite
    (fun _ => .bind expect_spec fun _ => .bind previousText_skip fun _ => .pure fun _ hs => hs)
    fun _ => .pure fun _ hs => hs

/-- A `for` loop of either kind leaves the stack as it found it. -/
theorem forStatement_spec (h : Serves self n K) (hv : v.Settled) (hK : v.known → K) :
    Triple (Inv .plain (v :: vs) n) (forStatement self) fun _ => Inv .plain (v :: vs) n := by
  have hinner := hv.inner
  have hdepth : v.inner.depth ≠ 0 := Nat.succ_ne_zero _
  have hclauses : Triple (Inv .plain (v.inner :: vs) n) (forClauses self) fun _ =>
      Inv .plain (v :: vs) n := by
    rw [← View.grow_zero (v := v.inner)]
    exact forClauses_spec h hv hK
  refine .bind beginScope_spec fun _ => .bind expect_spec fun _ => .bind accept_spec fun _ => ?_
  refine .ite (fun _ => hclauses) fun _ => .bind accept_spec fun _ => .ite (fun _ => ?_) fun _ => ?_
  · refine .bind expect_spec fun _ => .bind previousText_skip fun name => ?_
    refine .bind skipTypeAnnotation_spec fun _ => .bind indexName_spec fun index => ?_
    refine .bind accept_spec fun _ => .ite (fun _ => forInLoop_spec h hv hK) fun _ => ?_
    refine .when (fun _ => error_spec.post fun _ _ h => h.elim) (fun _ s hs => hs) ?_
    have hdeclared : Triple (Inv .plain (v.inner :: vs) n) (declareVariable name) fun _ =>
        Inv .plain (v.inner.await :: vs) n := by
      rw [← show v.inner.declaring = v.inner.await from if_neg hdepth]
      exact declareVariable_spec hinner.awaiting
    have hawait : v.inner.await.Ready := { hinner.toReady with }
    refine .bind hdeclared fun _ => .bind (optionalValue_spec (k := 0) h hawait hK) fun _ => ?_
    refine .bind (markReady_spec (v := v.inner.up 1) hinner.awaiting hdepth) fun _ => ?_
    exact .bind expect_spec fun _ => forClauses_spec (k := 1) h hv hK
  · refine .bind (h.value (k := 0) hinner.toReady hK) fun _ => ?_
    refine .bind (pop_spec (k := 0) hinner.toReady) fun _ => .bind expect_spec fun _ => hclauses

/-! ## Switches -/

/-- The view with jumps to the end of a switch open. -/
def View.ended (v : View) (ends : Array Nat) : View :=
  v.opened (ends.toList.reverse.map v.claim)

theorem View.ended_push {ends : Array Nat} {toEnd : Nat} :
    v.ended (ends.push toEnd) = (v.ended ends).hole (v.claim toEnd) := by
  rw [View.ended, Array.toList_push, List.reverse_append]
  rfl

/-- The ends of the arms of a `switch` are open branches that count on no local of it. -/
theorem Outline.Settled.ended (hv : v.Settled) {ends : Array Nat} : (v.ended ends).Settled :=
  hv.opened (View.limit_claims (fun _ => Nat.le_refl _) _)

/-- The view around an arm of a switch. -/
def View.armed (v : View) (s : SwitchState) : View :=
  (v.ended s.ends).opened (s.skip.toList.map (v.up 1).claim)

theorem Outline.Settled.armed (hv : v.Settled) {s : SwitchState} : (v.armed s).Settled :=
  hv.ended.opened (View.limit_claims (v := v) (fun _ => Nat.le_refl _) _)

/-- Among the arms of a switch: an open arm is a scope, with the locals declared in it so far. -/
def InArms (v : View) (vs : List View) (n : Nat) (arms : SwitchState) (s : State) : Prop :=
  if arms.phase = .beforeCases then Inv .plain ((v.ended arms.ends).know (arms.skip = none) :: vs) n s
  else ∃ k, Inv .plain ((v.armed arms).inner.grow k :: vs) n s

/-- Before the first arm no failed test is still to land. -/
theorem InArms.before {arms : SwitchState} (h : InArms v vs n arms s)
    (hphase : arms.phase = .beforeCases) :
    arms.skip = none ∧ Inv .plain (v.ended arms.ends :: vs) n s := by
  rw [InArms, if_pos hphase] at h
  exact ⟨h.known.2, h.forget .know⟩

/-- Within an arm any number of locals may have been declared. -/
theorem InArms.inside {arms : SwitchState} (h : InArms v vs n arms s)
    (hphase : arms.phase ≠ .beforeCases) :
    ∃ k, Inv .plain ((v.armed arms).inner.grow k :: vs) n s := by
  rwa [InArms, if_neg hphase] at h

/-- The head of an arm opens a scope. -/
theorem InArms.start {arms : SwitchState} (hphase : arms.phase ≠ .beforeCases)
    (h : Inv .plain ((v.armed arms).inner :: vs) n s) : InArms v vs n arms s := by
  rw [InArms, if_neg hphase]
  exact ⟨0, by rwa [View.grow_zero]⟩

/-- What goes on with any view goes on among the arms of a switch. -/
theorem InArms.lift {α : Type} {c : Compile α} {arms : SwitchState}
    (h : ∀ w, Triple (Inv .plain (w :: vs) n) c fun _ => Inv .plain (w :: vs) n) :
    Triple (InArms v vs n arms) c fun _ => InArms v vs n arms := by
  unfold InArms
  split
  · exact h _
  · exact .exists_pre fun k => (h _).post fun _ s hs => ⟨k, hs⟩

/-- A jump to the end of a switch, and behind it the way on when the test of the arm fails. -/
theorem leaveArm_spec {arms : SwitchState} (hv : v.Settled) :
    Triple (Inv .plain (v.armed arms :: vs) n) (emitJump .jump) fun toEnd =>
      Inv .plain (((v.armed arms).opened [v.claim toEnd]).up arms.skip.toList.length :: vs) n :=
  emitJump_spec hv.armed.guarded (Nat.lt_of_lt_of_le hv.receiver hv.values) (.inl (Nat.le_refl _))
    (List.Subset.refl _) (v.height + arms.skip.toList.length) v.handlers

/-- A failed test goes on behind the arm, without its value. -/
theorem landArm_spec {arms : SwitchState} {toEnd : Nat} (hv : v.Settled) :
    Triple (Inv .plain (((v.armed arms).opened [v.claim toEnd]).up arms.skip.toList.length :: vs) n)
      (landFailed arms.skip) fun _ => Inv .plain (v.ended (arms.ends.push toEnd) :: vs) n := by
  rw [View.ended_push]
  exact landFailed_spec (v := v.ended arms.ends) [v.claim toEnd] (hv.ended.hole (Nat.le_refl _))

/-- The end of an arm is a branch to the end of the `switch`; before the first arm nothing is
written. -/
theorem closeArm_spec {arms : SwitchState} (hv : v.Settled) :
    Triple (InArms v vs n arms) (closeArm arms) fun arms' s =>
      arms'.skip = none ∧ Inv .plain (v.ended arms'.ends :: vs) n s := by
  refine .ite (fun hphase => .pure fun s hs => hs.before hphase) fun hphase => ?_
  refine Triple.pre (.exists_pre fun k => ?_) fun s hs => hs.inside hphase
  refine .bind (endScope_spec hv.armed k) fun _ => .bind (leaveArm_spec hv) fun toEnd => ?_
  exact .bind (landArm_spec hv) fun _ => .pure fun s hs => ⟨rfl, hs⟩

/-- The arm before is closed first. A case compares the subject, and either kind of arm opens a
scope. -/
theorem openArm_spec {arms : SwitchState} {subject : Nat} (h : Serves self n K) (hv : v.Settled)
    (hK : v.known → K) (hslot : v.known → subject < v.env.length ∧ subject < maxSlots) :
    Triple (InArms v vs n arms) (openArm self subject arms) fun arms' => InArms v vs n arms' := by
  refine .bind previousKind_skip fun kind => .when (fun hphase => ?_) (fun _ s hs => hs) ?_
  · refine Triple.pre (.exists_pre fun k => error_spec.post fun _ _ h => h.elim) fun s hs =>
      hs.inside ?_
    rw [hphase]
    decide
  refine .bind (closeArm_spec hv) fun arms' => ?_
  have hended : (v.ended arms'.ends).Settled := hv.ended
  refine .ite (fun _ => ?_) fun _ => ?_
  · refine .bind (Triple.pre (getLocal_spec (k := 0) hended.toReady hslot) fun s hs => hs.2) fun _ => ?_
    refine .bind (h.value (k := 1) hended.toReady hK) fun _ => .bind expect_spec fun _ => ?_
    refine .bind (emit_plain (k := 2) hended.toReady rfl (by decide)) fun _ => ?_
    refine .bind (test_spec hended.toReady) fun skip => ?_
    have hskip : ((v.ended arms'.ends).hole ((v.up 1).claim skip)).Settled :=
      hended.hole (Nat.le_refl _)
    refine .bind (pop_spec (k := 0) hskip.toReady) fun _ => .bind beginScope_spec fun _ => ?_
    exact .pure fun s hs => InArms.start (by simp) hs
  · refine .bind (Triple.pre expect_spec fun s hs => hs.2) fun _ => .bind beginScope_spec fun _ => ?_
    exact .pure fun s hs => InArms.start (by simp) hs

/-- By induction on the fuel: one arm after the other, each as the one before left the stack. -/
theorem switchArms_spec {subject : Nat} (h : Serves self n K) (hv : v.Settled)
    (hK : v.known → K) (hslot : v.known → subject < v.env.length ∧ subject < maxSlots) (fuel : Nat) :
    ∀ arms, Triple (InArms v vs n arms) (switchArms self subject arms fuel) fun arms' =>
      InArms v vs n arms' := by
  induction fuel with
  | zero => exact fun arms => .bind .exhausted fun _ => .pure fun s hs => hs
  | succ fuel ih =>
    intro arms
    refine .bind .tokensTaken fun _ => .bind (InArms.lift fun _ => accept_spec) fun _ =>
      .ite (fun _ => .pure fun s hs => hs) fun _ => ?_
    refine .bind atEnd_skip fun _ => .ite (fun _ => ?_) fun _ => ?_
    · exact .bind (InArms.lift fun _ => errorAtCurrent_spec.post fun _ _ h => h.elim) fun _ =>
        .pure fun s hs => hs
    refine .bind (InArms.lift fun _ => acceptAny_spec) fun _ => .ite (fun _ => ?_) fun _ => ?_
    · exact .bind (openArm_spec h hv hK hslot) fun arms => .bind .demandProgress fun _ => ih arms
    let w := ((v.armed arms).know (arms.phase ≠ .beforeCases)).inner
    have hw : w.Settled := hv.armed.inner
    have hroom : w.Roomy := hv.armed.roomy_inner
    refine .when (M := fun s => ∃ k, Inv .plain (w.grow k :: vs) n s) (fun hphase => ?_)
      (fun hphase s hs => ?_) ?_
    · exact Triple.pre (errorAtCurrent_spec.post fun _ _ h => h.elim) fun s hs => (hs.before hphase).2
    · obtain ⟨k, hs⟩ := hs.inside hphase
      exact ⟨k, Inv.know hs hphase⟩
    · refine .bind (.exists_pre fun k => ?_) fun _ => .bind .demandProgress fun _ => ih arms
      refine (h.declaration (hw.grow hroom k) hroom fun hknown => hK hknown.1).post ?_
      rintro _ s ⟨j, hs⟩
      rw [View.grow_grow] at hs
      rw [InArms, if_neg hs.known.2]
      exact ⟨k + j, Inv.forget (v := ((v.armed arms).inner.grow (k + j)).know _) hs .know⟩

/-- If the last arm has a test, a jump goes around where it lands when it fails. -/
theorem closeLastArm_spec {arms : SwitchState} (hv : v.Settled) :
    Triple (InArms v vs n arms) (closeLastArm arms) fun ends =>
      Inv .plain (v.ended ends :: vs) n := by
  unfold closeLastArm
  refine .when (M := Inv .plain (v.armed arms :: vs) n) (fun hphase => ?_) (fun hphase s hs => ?_) ?_
  · exact Triple.pre (.exists_pre fun k => endScope_spec hv.armed k) fun s hs => hs.inside hphase
  · obtain ⟨hskip, hs⟩ := hs.before (Decidable.not_not.mp hphase)
    rw [View.armed, hskip]
    exact hs
  · split
    · rename_i skip hskip
      refine .bind (leaveArm_spec hv) fun toEnd => .bind ?_ fun _ => .pure fun s hs => hs
      rw [← hskip]
      exact landArm_spec hv
    · rename_i hskip
      refine .pure fun s hs => ?_
      rwa [View.armed, hskip] at hs

/-- All jumps to the end of a switch land there. -/
theorem patchEnds_spec (hv : v.Settled) (ends : List Nat) :
    Triple (Inv .plain (v.opened (ends.reverse.map v.claim) :: vs) n) (ends.forM patchJump) fun _ =>
      Inv .plain (v :: vs) n := by
  refine Triple.forM (I := fun ends => Inv .plain (v.opened (ends.reverse.map v.claim) :: vs) n)
    (fun toEnd ends => ?_) ends
  have hsplit : v.opened ((toEnd :: ends).reverse.map v.claim) =
      { v with holes := ends.reverse.map v.claim ++ v.claim toEnd :: v.holes } := by
    simp [View.opened]
  rw [hsplit]
  exact patchJump_spec (v := v) (ends.reverse.map v.claim) (c := v.claim toEnd) rfl rfl hv.values
    hv.building_subset hv.lexical

/-- All arms of a `switch` meet at its end with the stack as it was. -/
theorem switchStatement_spec (h : Serves self n K) (hv : v.Settled) (hK : v.known → K) :
    Triple (Inv .plain (v :: vs) n) (switchStatement self) fun _ => Inv .plain (v :: vs) n := by
  have hinner := hv.inner
  have hroom := hv.roomy_inner
  refine .bind expect_spec fun _ => .bind (h.value (k := 0) hv.toReady hK) fun _ => ?_
  refine .bind expect_spec fun _ => .bind expect_spec fun _ => .bind beginScope_spec fun _ => ?_
  refine .bind (bindLocal_spec (v := v.inner) hinner.awaiting (Nat.succ_ne_zero _)) fun subject => ?_
  let u := v.inner.bindTo subject
  have hu : u.Settled := hinner.grow hroom 1
  refine .bind (.skip fun _ => rfl) fun s₀ => ?_
  refine .bind (Q := InArms u vs n) (Triple.pre
    (switchArms_spec (v := u) h hu (fun hknown => hK hknown.1) ?_ _ _) fun s hs => ?_) fun arms => ?_
  · intro hknown
    rw [View.length_bindTo]
    exact hknown.2
  · rw [InArms, if_pos rfl]
    exact Inv.know (v := u) hs rfl
  refine .bind (closeLastArm_spec hu) fun ends => .bind (patchEnds_spec hu ends.toList) fun _ => ?_
  exact Triple.pre (endScope_spec hv 1) fun s hs => hs.forget .know

/-! ## Handlers -/

/-- The view in a statement that has a handler. -/
def View.handling (v : View) (toHandler : Nat) : View :=
  { v.hole (Guard.claim ⟨toHandler, v.height⟩ v.handlers) with
    handlers := ⟨toHandler, v.height⟩ :: v.handlers
    bodies := ⟨toHandler, v.height⟩ :: v.bodies
    tries := v.tries + 1 }

/-- Within a body with a handler, the handler counts on the locals that are declared by then. -/
theorem Outline.Settled.handling (hv : v.Settled) {toHandler : Nat} :
    (v.handling toHandler).Settled where
  receiver := hv.receiver
  height := hv.height
  depths := hv.depths
  guards h outer hh := by
    rcases List.suffix_cons_iff.mp hh with heq | hh
    · obtain ⟨rfl, rfl⟩ := List.cons.inj heq
      exact ⟨List.mem_cons_self, Nat.le_of_eq hv.level, Nat.le_refl _⟩
    · obtain ⟨hmem, hguard⟩ := hv.guards h outer hh
      exact ⟨List.mem_cons_of_mem _ hmem, hguard⟩
  holes c hc := by
    rcases List.mem_cons.mp hc with rfl | hc
    · exact Nat.le_of_eq hv.level
    · exact hv.holes c hc
  building := hv.building
  tries := congrArg (· + 1) hv.tries
  lexical := ⟨congrArg _ hv.lexical.1, hv.lexical.2⟩
  loops :=
    { hv.loops with
      handlers := fun l hl => (hv.loops.handlers l hl).trans (List.suffix_cons _ _) }
  values := hv.values
  level := hv.level
  awaiting := hv.awaiting
  finished := hv.finished

/-- Another count of the statements with handlers around. -/
theorem modifyTries_spec {f : Nat → Nat} :
    Triple (Inv tip (v :: vs) n) (modifyFunction fun fs => { fs with tryDepth := f fs.tryDepth })
      fun _ => Inv tip ({ v with tries := f v.tries } :: vs) n :=
  modifyFunction_spec (fun _ _ ht =>
    { ht with
      tries := congrArg f ht.tries
      written := fun F hF => (ht.written F hF).imp fun _ hw => ⟨hw.1, hw.2, hw.3, hw.4, hw.5, hw.6⟩ }) fun _ => rfl

/-- The view where a handler starts that finds its error on top of the stack. -/
def View.landed (v : View) : View :=
  { v.up 1 with landing := some v.height }

/-- The error becomes a local of the handler, in the slot where it is found. -/
theorem errorVariable_spec {name : String} (hv : v.Settled) :
    Triple (Inv .plain (v.inner.landed :: vs) n) (errorVariable name) fun _ =>
      Inv .plain (v.inner.grow 1 :: vs) n := by
  have hinner := hv.inner
  refine .bind (addReadyLocal_spec (v := v.inner.landed) hinner.awaiting (Nat.succ_ne_zero _))
    fun slot => modifyFunction_spec (fun image fs ht => ?_) fun _ => rfl
  have hslot : slot = v.inner.height := by
    rw [hinner.level]
    exact ht.known.2
  subst hslot
  have hnoted := ht.note_catch rfl
  have hview : (v.inner.grow 1 : View) =
      { v.inner.landed.bound.know (v.inner.height = v.inner.landed.env.length) with
        landing := none, known := v.known } := by
    rw [← show (v.inner.grow 1).landing = none from hv.lexical.2]
    rfl
  rw [hview]
  exact hnoted.forget (fun _ h => h) (Nat.le_refl _) (fun _ h => h) fun hknown => hknown.1

/-- A handler finds the error on the stack, and it is the first local of its scope. -/
theorem catchClause_spec (h : Serves self n K) (hv : v.Settled) (hK : v.known → K) :
    Triple (Inv .plain (v.inner.landed :: vs) n) (catchClause self) fun _ =>
      Inv .plain (v.inner.grow 1 :: vs) n := by
  have hinner := hv.inner
  have hlocal : ∀ name, Triple (Inv .plain (v.inner.landed :: vs) n) (errorVariable name) fun _ =>
      Inv .plain (v.inner.grow 1 :: vs) n := fun name => errorVariable_spec hv
  have hbody : Triple (Inv .plain (v.inner.grow 1 :: vs) n) self.statement fun _ =>
      Inv .plain (v.inner.grow 1 :: vs) n := h.statement (hinner.grow hv.roomy_inner 1) hK
  refine .bind accept_spec fun _ => .ite (fun _ => ?_) fun _ => hlocal _
  refine .bind accept_spec fun _ => .ite (fun _ => ?_) fun _ => .bind (hlocal _) fun _ => hbody
  refine .bind expect_spec fun _ => .bind previousText_skip fun name => .bind (hlocal name) fun _ => ?_
  exact .bind expect_spec fun _ => hbody

/-- **`tryStatement_spec`** — what is raised in the statement gets to its handler at the height of
the stack before it, with the message on top. -/
theorem tryStatement_spec (h : Serves self n K) (hv : v.Settled) (hK : v.known → K) :
    Triple (Inv .plain (v :: vs) n) (tryStatement self) fun _ => Inv .plain (v :: vs) n := by
  have hpositive : 0 < v.height := Nat.lt_of_lt_of_le hv.receiver hv.values
  refine .bind (emitTry_spec hv.toReady) fun toHandler => ?_
  have hw : (v.handling toHandler).Settled := hv.handling
  refine .bind (modifyTries_spec (f := (· + 1))) fun _ => .bind (h.statement hw hK) fun _ => ?_
  refine .bind get_skip fun _ => .bind .demanded fun _ => ?_
  refine .bind (modifyTries_spec (f := (· - 1))) fun _ => ?_
  have hguarded : View.Guarded { v.handling toHandler with tries := v.tries } :=
    ⟨hw.guarded.claim, hw.guarded.landing, hw.guarded.within, hw.guarded.building⟩
  refine .bind (emitTryEnd_spec hguarded hpositive rfl (v.height + 1) v.handlers) fun toEnd => ?_
  have hend : (v.hole (v.claim toEnd)).Settled := hv.hole (Nat.le_refl _)
  have hland : Triple (Inv .plain ({ ((v.up 1).hole (Guard.claim ⟨toHandler, v.height⟩ v.handlers)).hole
      (v.claim toEnd) with bodies := ⟨toHandler, v.height⟩ :: v.bodies } :: vs) n) (patchJump toHandler)
      fun _ => Inv .plain ((v.hole (v.claim toEnd)).landed :: vs) n := by
    rw [show ({ ((v.up 1).hole (Guard.claim ⟨toHandler, v.height⟩ v.handlers)).hole (v.claim toEnd) with
        bodies := ⟨toHandler, v.height⟩ :: v.bodies } : View) =
        { (v.landed.hole (Guard.claim ⟨toHandler, v.height⟩ v.handlers)).hole (v.claim toEnd) with
          bodies := ⟨toHandler, v.height⟩ :: v.bodies, landing := none } by rw [← hv.lexical.2]; rfl]
    exact patchHandler_spec (v := v.landed) rfl hv.finished rfl
  refine .bind hland fun _ => .bind beginScope_spec fun _ => ?_
  refine .bind (catchClause_spec h hend hK) fun _ => .bind (endScope_spec hend 1) fun _ => ?_
  exact patchJump_last (v := v) (c := v.claim toEnd) rfl rfl hv.values hv.building_subset hv.lexical

/-! ## Files -/

/-- A path is read from the tokens, and no code is written for it. -/
theorem pathParts_spec (fuel : Nat) :
    ∀ path, Triple (Inv tip vs n) (pathParts path fuel) fun _ => Inv tip vs n := by
  induction fuel with
  | zero => exact fun path => .bind .exhausted fun _ => .pure fun s hs => hs
  | succ fuel ih =>
    intro path
    refine .bind .tokensTaken fun _ => .bind accept_spec fun _ => .ite (fun _ => ?_) fun _ => ?_
    · exact .bind expect_spec fun _ => .bind .demandProgress fun _ => .bind previousText_skip fun _ => ih _
    · exact .pure fun s hs => hs

theorem importPath_spec : Triple (Inv tip vs n) importPath fun _ => Inv tip vs n := by
  refine .bind accept_spec fun _ => .ite (fun _ => ?_) fun _ => ?_
  · refine .bind previousText_skip fun _ => .bind (.skip fun _ => rfl) fun _ => ?_
    exact .bind (pathParts_spec _ _) fun _ => .pure fun s hs => hs
  · exact .bind expect_spec fun _ => .bind previousText_skip fun _ => .pure fun s hs => hs

/-- An import pushes the path and the name, and the instruction takes both. -/
theorem importStatement_spec (hv : v.Ready) :
    Triple (Inv .plain (v :: vs) n) importStatement fun _ => Inv .plain (v :: vs) n := by
  refine .bind importPath_spec fun path => ?_
  refine .bind intern_spec fun r => .bind (emitText_spec (k := 0) hv) fun _ => ?_
  have hname : Triple (Inv .plain (v.up 1 :: vs) n) importName fun _ => Inv .plain (v.up 2 :: vs) n := by
    refine .bind accept_spec fun _ => .ite (fun _ => ?_) fun _ => emit_plain hv rfl (by decide)
    refine .bind acceptAny_spec fun _ => .ite (fun _ => ?_) fun _ => ?_
    · exact .bind previousText_skip fun _ => .bind intern_spec fun _ => emitText_spec hv
    · exact errorAtCurrent_spec.post fun _ _ h => h.elim
  refine .bind hname fun _ => .bind accept_spec fun _ => ?_
  exact emit_plain (k := 2) hv rfl (by decide)

/-! ## Statements -/

/-- Every expression can be compiled, with `n` tokens left. -/
def ServesExpressions (self : Recur) (n : Nat) (K : Prop) : Prop :=
  ∀ {v : View} {vs : List View}, v.Ready → (v.known → K) →
    Triple (Inv .plain (v :: vs) n) self.expression fun _ => Inv .plain (v.up 1 :: vs) n

/-- The value of an expression is dropped or kept as the answer. -/
theorem expressionStatement_spec (h : ServesExpressions self n K) (hv : v.Ready) (hK : v.known → K) :
    Triple (Inv .plain (v :: vs) n) (expressionStatement self) fun _ => Inv .plain (v :: vs) n := by
  refine .bind (h hv hK) fun _ => .bind accept_spec fun _ => .get fun s₀ => .ite (fun _ => ?_) fun _ => ?_
  · exact Triple.pre (emit_plain (k := 1) hv rfl (by decide)) fun s hs => hs.1
  · exact Triple.pre (emit_plain (k := 1) hv rfl (by decide)) fun s hs => hs.1

theorem abortStatement_spec (h : Serves self n K) (hv : v.Ready) (hK : v.known → K) :
    Triple (Inv .plain (v :: vs) n) (abortStatement self) fun _ => Inv .plain (v :: vs) n := by
  refine .bind (h.value (k := 0) hv hK) fun _ => .bind accept_spec fun _ => ?_
  exact emit_plain (k := 1) hv rfl (by decide)

theorem passStatement_spec (hv : v.Ready) :
    Triple (Inv .plain (v :: vs) n) passStatement fun _ => Inv .plain (v :: vs) n :=
  .bind (emit_plain (k := 0) hv rfl (by decide)) fun _ => .bind accept_spec fun _ => .pure fun s hs => hs

/-- With fewer tokens left than `n` there are at most `n` left. -/
theorem Inv.back (h : Inv tip (v.know (1 ≤ n) :: vs) (n - 1) s) : Inv tip (v :: vs) n s :=
  (h.mono fun _ => Nat.sub_le n 1).forget .know

/-- What follows a keyword has one token less left. -/
theorem keyword_spec {t : TokenKind} {c : Compile Unit} {Q : State → Prop} (ht : t ≠ .endOfText)
    (h : Triple (Inv .plain (v.know (1 ≤ n) :: vs) (n - 1)) c fun _ => Q) :
    Triple (fun s => Inv .plain (v :: vs) n s ∧ t = s.current.kind) (do advance; c) fun _ => Q := by
  refine .bind (Triple.pre (advance_consumes ht) fun s hs => ⟨hs.1, hs.2.symm⟩) fun _ => ?_
  exact h.pre fun s hs => hs.1

/-- A block takes its locals with it. -/
theorem scopedBlock_spec (h : Serves self (n - 1) (K ∧ n - 1 < n)) (hv : v.Settled)
    (hK : v.known → K) :
    Triple (fun s => Inv .plain (v :: vs) n s ∧ .leftBrace = s.current.kind) (scopedBlock self) fun _ =>
      Inv .plain (v :: vs) n := by
  refine keyword_spec (by decide) (.bind beginScope_spec fun _ => ?_)
  have hw : (v.know (1 ≤ n)).Settled := hv
  have hknown : (v.know (1 ≤ n)).known → K ∧ n - 1 < n := fun hknown =>
    ⟨hK hknown.1, Nat.sub_lt hknown.2 Nat.one_pos⟩
  refine .bind (block_spec h hw.inner hw.roomy_inner hknown) fun _ => .exists_pre fun k => ?_
  exact (endScope_spec hw k).post fun _ s hs => hs.back

/-- A brace opens a block, unless a text follows: then it opens a dictionary. -/
theorem blockOrExpression_spec (he : ServesExpressions self n K)
    (h : Serves self (n - 1) (K ∧ n - 1 < n)) (hv : v.Settled) (hK : v.known → K) :
    Triple (Inv .plain (v :: vs) n) (blockOrExpression self) fun _ => Inv .plain (v :: vs) n := by
  refine .bind check_spec fun b => .bind followingKind_skip fun t => .ite (fun hb => ?_) fun _ => ?_
  · refine Triple.pre (scopedBlock_spec h hv hK) fun s hs => ⟨hs.1, ?_⟩
    rw [Bool.and_eq_true, hs.2, beq_iff_eq] at hb
    exact hb.1.symm
  · exact Triple.pre (expressionStatement_spec he hv.toReady hK) fun s hs => hs.1

/-- A statement leaves the stack as it found it. The kinds of statements are told apart by their
first token. -/
theorem statement_spec (he : ServesExpressions self n K) (h : ∀ m, Serves self m (K ∧ m < n))
    (hv : v.Settled) (hK : v.known → K) :
    Triple (Inv .plain (v :: vs) n) (statement self) fun _ => Inv .plain (v :: vs) n := by
  have hself := h (n - 1)
  have hw : (v.know (1 ≤ n)).Settled := hv
  have hknown : (v.know (1 ≤ n)).known → K ∧ n - 1 < n := fun hknown =>
    ⟨hK hknown.1, Nat.sub_lt hknown.2 Nat.one_pos⟩
  -- the keyword is consumed, so that the rest has fewer tokens
  have hrest : ∀ {t : TokenKind} {c : Compile Unit}, t ≠ .endOfText →
      Triple (Inv .plain (v.know (1 ≤ n) :: vs) (n - 1)) c (fun _ =>
        Inv .plain (v.know (1 ≤ n) :: vs) (n - 1)) →
      Triple (fun s => Inv .plain (v :: vs) n s ∧ t = s.current.kind) (do advance; c) fun _ =>
        Inv .plain (v :: vs) n :=
    fun ht hc => keyword_spec ht (hc.post fun _ s hs => hs.back)
  refine .bind currentKind_spec fun t => ?_
  split
  · exact hrest (by decide) (forStatement_spec hself hw hknown)
  · exact hrest (by decide) (ifStatement_spec hself hw hknown)
  · exact hrest (by decide) (returnStatement_spec hself hw.toReady hknown)
  · exact hrest (by decide) (importStatement_spec hw.toReady)
  · exact hrest (by decide) (abortStatement_spec hself hw.toReady hknown)
  · exact hrest (by decide) (breakStatement_spec hw)
  · exact hrest (by decide) (continueStatement_spec hw)
  · exact hrest (by decide) (whileStatement_spec hself hw hknown)
  · exact hrest (by decide) (doWhileStatement_spec hself hw hknown)
  · exact hrest (by decide) (switchStatement_spec hself hw hknown)
  · exact hrest (by decide) (tryStatement_spec hself hw hknown)
  · exact hrest (by decide) (passStatement_spec hw.toReady)
  · exact Triple.pre (blockOrExpression_spec he hself hv hK) fun s hs => hs.1

/-- A declaration may add locals, and nothing else stays on the stack. -/
theorem declarationOrStatement_spec (he : ServesExpressions self n K)
    (h : ∀ m, Serves self m (K ∧ m < n)) (hv : v.Settled) (hroom : v.Roomy) (hK : v.known → K) :
    Triple (Inv .plain (v :: vs) n) (declarationOrStatement self) fun _ s =>
      ∃ k, Inv .plain (v.grow k :: vs) n s := by
  let w := v.know (1 ≤ n)
  have hw : w.Settled := hv
  have hself : ∀ m, Serves self m ((K ∧ 1 ≤ n) ∧ m ≤ n - 1) := fun m =>
    (h m).weaken fun hm => ⟨hm.1.1, by omega⟩
  have hnext : Serves self (n - 1) (K ∧ 1 ≤ n) := (hself (n - 1)).weaken fun hn => ⟨hn, Nat.le_refl _⟩
  have hknown : w.known → K ∧ 1 ≤ n := fun hknown => ⟨hK hknown.1, hknown.2⟩
  have hrest : ∀ {t : TokenKind} {c : Compile Unit}, t ≠ .endOfText →
      Triple (Inv .plain (w :: vs) (n - 1)) c (fun _ s =>
        ∃ k, Inv .plain (w.grow k :: vs) (n - 1) s) →
      Triple (fun s => Inv .plain (v :: vs) n s ∧ t = s.current.kind) (do advance; c) fun _ s =>
        ∃ k, Inv .plain (v.grow k :: vs) n s :=
    fun ht hc => keyword_spec ht (hc.post fun _ s hs => hs.imp fun _ hs => Inv.back hs)
  -- a type is one local more, or none at the top of a script
  have hdefined : ∀ s, Inv .plain (w.defined :: vs) (n - 1) s →
      ∃ k, Inv .plain (w.grow k :: vs) (n - 1) s := by
    intro s hs
    obtain ⟨k, hk⟩ := View.grow_defined (v := w) (i := 0)
    rw [View.grow_zero] at hk
    exact ⟨k, hk ▸ hs⟩
  have hsame : ∀ s, Inv .plain (v :: vs) n s → ∃ k, Inv .plain (v.grow k :: vs) n s :=
    fun s hs => ⟨0, by rwa [View.grow_zero]⟩
  refine .bind currentKind_spec fun t => ?_
  split
  · exact hrest (by decide)
      ((classDeclaration_spec hself hw hroom hknown).post fun _ s hs => hdefined s hs)
  · exact hrest (by decide)
      ((enumDeclaration_spec hself hw hroom hknown).post fun _ s hs => hdefined s hs)
  · exact hrest (by decide) (funcDeclaration_spec hnext hw hroom hknown)
  · refine hrest (by decide) ((globalDeclaration_spec hnext hw.toReady hknown).post fun _ s hs => ?_)
    exact ⟨0, by rwa [View.grow_zero]⟩
  · exact hrest (by decide) (varDeclaration_spec hnext hw hroom hknown)
  · exact Triple.pre ((statement_spec he h hv hK).post fun _ s hs => hsame s hs) fun s hs => hs.1

/-- Recovery from an error is not needed while there is none. -/
theorem synchronize_dirty : Triple (fun _ => False) synchronize fun _ _ => False := by
  refine .bind (.modify (fun _ => rfl) fun _ h => h) fun _ => loop_spec ?_
  refine .bind atEnd_skip fun _ => .ite (fun _ => .pure fun _ h => h) fun _ => ?_
  refine .bind previousKind_skip fun _ => .ite (fun _ => .pure fun _ h => h) fun _ => ?_
  refine .bind currentKind_skip fun _ => .ite (fun _ => .pure fun _ h => h) fun _ => ?_
  exact .bind advance_dirty fun _ => .pure fun _ h => h

/-- **`declaration_spec`** — a declaration or statement leaves the stack with one slot more for each
local it declares. -/
theorem declaration_spec (he : ServesExpressions self n K) (h : ∀ m, Serves self m (K ∧ m < n))
    (hv : v.Settled) (hroom : v.Roomy) (hK : v.known → K) :
    Triple (Inv .plain (v :: vs) n) (declaration self) fun _ s =>
      ∃ k, Inv .plain (v.grow k :: vs) n s := by
  refine .bind atEnd_skip fun _ => .bind .tokensTaken fun _ => ?_
  refine .bind (declarationOrStatement_spec he h hv hroom hK) fun _ => .get fun s₀ => ?_
  refine .when (M := fun s => ∃ k, Inv .plain (v.grow k :: vs) n s) (fun hpanicking => ?_)
    (fun _ s hs => hs.1) (.bind .tokensTaken fun _ => .demanded)
  refine (synchronize_dirty.post fun _ _ h => h.elim).pre ?_
  rintro s ⟨⟨k, hs⟩, rfl⟩
  have hcalm := hs.calm
  rw [hpanicking] at hcalm
  cases hcalm

end ScriptMachine.Compiler
