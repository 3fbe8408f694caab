import ScriptMachine.Proofs.Compiler.Phrases

/-!
# ScriptMachine.Proofs.Compiler.Clauses — declarations and statements in any state

A production of a declaration or statement leaves the compiler as it found it too: the scopes, loops,
handlers and classes it opens are closed again, and the jumps it fills in later are within the code.
A member of a class or enumeration that consumes nothing records an error, and the way to the closing
brace is skipped then; so every pass over members consumes a token.

Most statements are steady for the plain reason that their parts are, and are put together from them
with `Steady.bind`, `Steady.ite` and their like. The others open something: a loop, a scope, a class, an
arm of a switch. There the stance changes on the way (`deeper`, `looping`, `classed`), and the proof
follows the stance until it is the first one again.

A pass of a loop has to consume a token. Where the pass is a declaration that holds because a declaration
which consumes nothing is followed by recovery, which does. The passes that end in an error are exempt
(`Alerts`): they are the last ones.
-/

namespace ScriptMachine.Compiler

variable {α β : Type} {o : Stance} {s : State} {n m : Nat} {self : Recur}

/-! ## Declarations -/

@[grind ←]
theorem optionalValue_steady (h : Delivers self n) : Steady n (optionalValue self) :=
  .bind accept_steady fun _ => .ite (expression_steady h) emit_steady

@[grind ←]
theorem varDeclaration_steady (h : Delivers self n) : Steady n (varDeclaration self) := by
  refine .bind (loop_steady ?_) fun _ => .bind accept_steady fun _ => .pure _
  grind

@[grind ←]
theorem globalDeclaration_steady (h : Delivers self n) : Steady n (globalDeclaration self) := by
  refine .bind expect_steady fun _ => .bind (loop_steady ?_) fun _ => .bind accept_steady fun _ => .pure _
  grind

@[grind ←]
theorem extensionDeclaration_steady (h : Delivers self n) (type : String) :
    Steady n (extensionDeclaration self type) := by
  unfold extensionDeclaration
  refine .bind nameConstant_steady fun _ => .bind expect_steady fun _ => ?_
  refine .bind previousText_steady fun _ => .bind nameConstant_steady fun _ => ?_
  exact .bind (functionBody_steady h _ _) fun _ => emit_steady

@[grind ←]
theorem namedFunction_steady (h : Delivers self n) (name : String) :
    Steady n (namedFunction self name) := by
  unfold namedFunction
  refine .bind declareVariable_steady fun _ => .bind .get fun _ => ?_
  refine .join (.pure _) nameConstant_steady fun _ => .bind markReady_steady fun _ => ?_
  exact .bind (functionBody_steady h _ _) fun _ => defineVariable_steady

/-- The name decides between a function, an extension and an error. -/
@[grind ←]
theorem funcDeclaration_steady (h : Delivers self n) : Steady n (funcDeclaration self) := by
  unfold funcDeclaration
  refine .bind acceptAny_steady fun _ => .ite ?_ errorAtCurrent_steady
  refine .bind previousText_steady fun _ => .bind accept_steady fun _ => ?_
  refine .ite (extensionDeclaration_steady h _) ?_
  exact .bind previousKind_steady fun _ => .ite (namedFunction_steady h _) error_steady

/-! ## Members -/

/-- After a comma another property follows; a property that consumes nothing is an error. -/
theorem property_does (h : Delivers self n) (ho : o.mark.left ≤ n) (isStatic : Bool) (owner : String) :
    Does o.At (property self isStatic owner) fun again s =>
      if again = true then o.Past s else o.alarmed.At s := by
  refine .bind (expect_alerts (by decide) o ho) fun _ => previousText_steady.andThen ho fun name => ?_
  refine nameConstant_steady.andThen ho fun constant => skipTypeAnnotation_steady.andThen ho fun _ => ?_
  refine (optionalValue_steady h).andThen ho fun _ => emit_steady.andThen ho fun _ => ?_
  refine .bind (consumes_accept (by decide) o.alarmed ho) fun again => .ite (fun hagain => ?_) fun _ => ?_
  · refine .bind ((Does.beyond (o := o) ho fun k hk =>
      (namedVariable_steady h owner false).mono (Nat.le_of_lt hk)).pre fun s hs => ?_) fun _ =>
        .pure fun s hs => hs
    exact ⟨hs.1.of_alarmed, hs.2 hagain⟩
  · exact .pure fun s hs => hs.1

/-- A property without a name is an error, so a list of them takes a token or leaves an error. -/
theorem properties_alerts (h : Delivers self n) (isStatic : Bool) (owner : String) :
    Alerts n (properties self isStatic owner) := by
  refine fun o ho => .bind (loop_does carries_alarmed (fun o ho => ?_) ho) fun _ => ?_
  · exact property_does h ho isStatic owner
  · exact Steady.bind accept_steady (fun _ => .pure _) o.alarmed ho

@[grind ←]
theorem methodName?_steady : Steady n methodName? := by
  unfold methodName?
  grind

/-- Without its keyword a method is an error. -/
theorem method_alerts (h : Delivers self n) (isStatic : Bool) : Alerts n (method self isStatic) := by
  refine .bind (expect_alerts (by decide)) fun _ => .bind methodName?_steady fun name => ?_
  cases name with
  | none => exact errorAtCurrent_steady
  | some name => grind

/-- What is neither a method nor a property is an error. -/
theorem classMember_alerts (h : Delivers self n) (className : String) :
    Alerts n (classMember self className) := by
  refine .after accept_steady fun isStatic => .after check_steady fun isMethod => ?_
  split
  · exact method_alerts h isStatic
  · refine .after accept_steady fun isProperty => ?_
    split
    · exact properties_alerts h isStatic className
    · exact errorAtCurrent_alerts

/-- A token has been consumed unless the one at the mark closes the members or ends the text. -/
def Stance.Skipped (o : Stance) (s : State) : Prop :=
  o.At s ∧ (o.mark.token.kind ≠ .rightBrace → o.mark.token.kind ≠ .endOfText →
    s.rest.length < o.mark.left)

/-- Skipping carries over to an earlier mark, as the tokens taken in between count, too. -/
theorem carries_skipped : Carries Stance.Skipped := by
  intro o s s' hs hs'
  refine ⟨hs.trans hs'.1, fun hbrace hend => ?_⟩
  rcases hs.since with hlt | ⟨hlength, hcurrent, -⟩
  · exact Nat.lt_of_le_of_lt hs'.1.since.left_le hlt
  · have hkind : s.current.kind = o.mark.token.kind := congrArg Token.kind hcurrent
    have hlt := hs'.2 (fun h => hbrace (hkind.symm.trans h)) fun h => hend (hkind.symm.trans h)
    exact hlength ▸ hlt

/-- While an error is being recovered from, the way to the closing brace is skipped. -/
theorem skipToClosingBrace_does (hbrace : o.mark.token.kind ≠ .rightBrace)
    (hend : o.mark.token.kind ≠ .endOfText) :
    Does o.alarmed.At skipToClosingBrace fun _ => o.Past := by
  refine .get fun s₀ => .ite (fun hpanicking => ?_) fun hpanicking => ?_
  · refine Does.post (Does.pre (P := o.At) (loop_does carries_skipped (fun o ho => ?_)
      (Nat.le_refl _)) fun s hs => hs.1.of_alarmed) fun _ s hs => ⟨hs.1, hs.2 hbrace hend⟩
    refine .bind check_reads fun closed => .bind check_reads fun ended => ?_
    refine .ite (fun hclosed => .pure ?_) fun hopen => ?_
    · rintro s ⟨⟨hs, rfl⟩, rfl⟩
      rw [if_neg Bool.false_ne_true]
      refine ⟨hs, fun hbrace hend => ?_⟩
      rcases hs.since with hlt | ⟨-, hcurrent, -⟩
      · exact hlt
      · simp [hcurrent, hbrace, hend] at hclosed
    · refine .bind (Q := fun _ => o.Past) ?_ fun _ => .pure fun s hs => hs
      rintro s ⟨⟨hs, rfl⟩, rfl⟩
      refine ⟨hs.consume.1, hs.consume.2.2 fun hkind => hopen ?_⟩
      simp [hkind]
  · refine .pure ?_
    rintro s ⟨hs, rfl⟩
    refine ⟨hs.of_alarmed, hs.since.resolve_right fun hsame => hpanicking (hsame.2.2 rfl)⟩

/-- The loop over the members ends, as each one takes a token or leaves an error behind, after which
all is skipped up to the brace. -/
theorem members_steady (h : Delivers self n) (owner : String) {compileMember : Compile Unit}
    (hmember : Alerts n compileMember) : Steady n (members self owner compileMember) := by
  refine loop_steady (untilClosed_consumes fun o ho => ?_)
  rintro s ⟨hs, hbrace, hend⟩
  have hle : s.rest.length ≤ n := Nat.le_trans hs.since.left_le ho
  have hpass : Does (o.remark s.mark).At
      (do namedVariable self owner false; compileMember; skipToClosingBrace) fun _ =>
        (o.remark s.mark).Past :=
    (namedVariable_steady h owner false).andThen hle fun _ =>
      .bind (hmember _ hle) fun _ => skipToClosingBrace_does hbrace hend
  have hpast := hs.past (hpass s hs.remark)
  exact ⟨hpast.1, fun _ => hpast.2⟩

/-! ## Classes -/

@[grind ←]
theorem declareType_steady {op : Operation} {name : String} : Steady n (declareType op name) := by
  unfold declareType
  refine .bind nameConstant_steady fun _ => .bind declareVariable_steady fun _ => ?_
  exact .bind emit_steady fun _ => defineVariable_steady

@[grind ←]
theorem classBody_steady (h : Delivers self n) (className : String) :
    Steady n (classBody self className) :=
  .bind expect_steady fun _ =>
    .bind (members_steady h className (classMember_alerts h className)) fun _ => expect_steady

/-- The clause opens the scope of `super`, in a class. -/
theorem superclassClause_does (h : Delivers self n) (ho : o.mark.left ≤ n) (className : String) :
    Does o.classed.At (superclassClause self className) fun _ => o.classed.deeper.At := by
  have hrest : ∀ superclass, Does o.classed.At
      (do
        beginScope
        namedVariable self superclass false
        let _ ← addReadyLocal "super"
        namedVariable self className false
        emit .inherit
        setHasSuperclass) fun _ => o.classed.deeper.At := by
    refine fun superclass => .bind beginScope_does fun _ => ?_
    refine (namedVariable_steady h superclass false).andThen ho fun _ => ?_
    refine addReadyLocal_steady.andThen ho fun _ => ?_
    refine (namedVariable_steady h className false).andThen ho fun _ => emit_steady.andThen ho fun _ => ?_
    refine .modify fun s hs => { hs with classes := ?_ }
    have : s.classes.length = o.classes + 1 := hs.classes
    simp [this, Stance.deeper, Stance.classed]
  refine expect_steady.andThen ho fun _ => previousText_steady.andThen ho fun superclass => ?_
  split
  · exact error_steady.andThen ho fun _ => hrest superclass
  · exact hrest superclass

/-- The class is entered before its body and left after it, so the classes around are the same. -/
@[grind ←]
theorem classDeclaration_steady (h : Delivers self n) : Steady n (classDeclaration self) := by
  intro o ho
  have hend : Does o.classed.At
      (do
        demand ((← get).classes ≠ [])
        modify fun s => { s with classes := s.classes.tail }) fun _ => o.At := by
    refine .get fun s₀ => .bind (.demand (P := fun s => o.classed.At s ∧ s = s₀) ?_) fun _ => .modify ?_
    · rintro s ⟨hs, rfl⟩ hnil
      have := hs.classes
      rw [hnil] at this
      cases this
    · rintro s ⟨hs, -⟩
      exact { hs with classes := by simp [hs.classes, Stance.classed] }
  refine expect_steady.andThen ho fun _ => previousText_steady.andThen ho fun className => ?_
  refine declareType_steady.andThen ho fun _ => ?_
  refine .bind (Q := fun _ => o.classed.At) (.modify fun s hs => ?_) fun _ => ?_
  · exact { hs with classes := congrArg (· + 1) hs.classes }
  refine accept_steady.andThen ho fun inherits => .ite (fun _ => ?_) fun _ => ?_
  · refine .bind (superclassClause_does h ho className) fun _ => ?_
    exact (classBody_steady h className).andThen ho fun _ => .bind endScope_does fun _ => hend
  · exact (classBody_steady h className).andThen ho fun _ => hend

@[grind ←]
theorem enumDeclaration_steady (h : Delivers self n) : Steady n (enumDeclaration self) := by
  refine .bind expect_steady fun _ => .bind previousText_steady fun enumName => ?_
  refine .bind declareType_steady fun _ => .bind expect_steady fun _ => ?_
  exact .bind (members_steady h enumName (properties_alerts h false enumName)) fun _ => expect_steady

/-! ## Control flow -/

@[grind ←]
theorem condition_steady (h : Delivers self n) : Steady n (condition self) :=
  .bind (expression_steady h) fun _ => expect_steady

/-- Both branches are filled in at places that exist by then. -/
@[grind ←]
theorem ifStatement_steady (h : Delivers self n) : Steady n (ifStatement self) := by
  intro o ho
  refine expect_steady.andThen ho fun _ => (condition_steady h).andThen ho fun _ => ?_
  refine .bind (emitJump_does rfl) fun toElse => emit_steady.andThen ho fun _ => ?_
  refine (statement_steady h).andThen ho fun _ => .bind (emitJump_does rfl) fun toEnd => ?_
  have hend : Does ((o.reach (toElse + 2)).reach (toEnd + 2)).At (patchJump toEnd) fun _ => o.At :=
    (patchJump_does (Nat.le_max_right ..)).post fun _ s hs => hs.of_reach.of_reach
  refine .bind (patchJump_does ?_) fun _ => emit_steady.andThen ho fun _ => ?_
  · exact Nat.le_trans (Nat.le_max_right ..) (Nat.le_max_left ..)
  refine accept_steady.andThen ho fun hasElse => .ite (fun _ => ?_) fun _ => hend
  exact (statement_steady h).andThen ho fun _ => hend

@[grind ←]
theorem returnStatement_steady (h : Delivers self n) : Steady n (returnStatement self) := by
  unfold returnStatement
  refine .bind accept_steady fun _ => .ite emitReturn_steady ?_
  refine .bind check_steady fun _ => .bind atEnd_steady fun _ => .ite emitReturn_steady ?_
  refine .bind .get fun _ => .when error_steady fun _ => .bind (expression_steady h) fun _ => ?_
  exact .bind accept_steady fun _ => emit_steady

/-! ## Loops -/

/-- A loop within the code: it starts there, and what breaks out of it is there. -/
def Loop.Within (l : Loop) (k : Nat) : Prop :=
  l.start ≤ k ∧ ∀ b ∈ l.breaks, b + 2 ≤ k

theorem FunctionState.On.within {fs : FunctionState} {p : Footing} (h : fs.On p) :
    ∀ l ∈ fs.loops, l.Within fs.chunk.size :=
  fun l hl => ⟨h.starts l hl, h.breaks l hl⟩

/-- A function with other loops. -/
theorem FunctionState.On.relooped {fs : FunctionState} {p : Footing} (h : fs.On p) {loops : List Loop}
    (hloops : ∀ l ∈ loops, l.Within fs.chunk.size) :
    FunctionState.On { fs with loops } { p with loops := loops.length } :=
  { h with
    loops := rfl
    starts := fun l hl => (hloops l hl).1
    breaks := fun l hl => (hloops l hl).2 }

/-- A loop starts within the code that there is. -/
theorem beginLoop_does {start : Nat} (hstart : start ≤ o.inner.size) :
    Does o.At (beginLoop start) fun _ => o.looping.At := by
  refine modifyFunction_does (p := o.inner) (fun fs hfs => ?_) rfl
  have hloops : ∀ l ∈ (⟨start, fs.scopeDepth, fs.tryDepth, #[]⟩ :: fs.loops : List Loop),
      l.Within fs.chunk.size :=
    List.forall_mem_cons.mpr ⟨⟨Nat.le_trans hstart hfs.size, by simp⟩, hfs.within⟩
  have hon := hfs.relooped hloops
  rw [List.length_cons, hfs.loops] at hon
  exact hon

/-- **`endLoop_does`** — in a loop there is one to leave, and what breaks out of it is within the
code. -/
theorem endLoop_does : Does o.looping.At endLoop fun _ => o.At := by
  refine .get fun s₀ => ?_
  split
  · rename_i hnil
    rintro s ⟨hs, rfl⟩
    have := hs.inner.loops
    rw [hnil] at this
    cases this
  · rename_i l outer hcons
    rintro s ⟨hs, rfl⟩
    have hlength : outer.length = o.inner.loops := by
      have := hs.inner.loops
      rw [hcons] at this
      exact Nat.succ.inj this
    have hall := hcons ▸ hs.inner.within
    obtain ⟨hl, houter⟩ := List.forall_mem_cons.mp hall
    have hfs := (hs.inner.relooped houter).reached (Nat.le_refl s.function.chunk.size)
    rw [hlength] at hfs
    have hleft : (o.reach s.function.chunk.size).At
        { s with function := { s.function with loops := outer } } :=
      hs.function hfs
    have hpatch : Does (o.reach s.function.chunk.size).At (l.breaks.toList.forM patchJump)
        fun _ => (o.reach s.function.chunk.size).At :=
      .forM fun b hb => patchJump_does (Nat.le_trans (hl.2 b (Array.mem_toList_iff.mp hb))
        (Nat.le_max_right ..))
    exact (hpatch _ hleft).of_reach

/-- A change to the innermost loop may only name places within the code. -/
theorem modifyLoop_does {f : Loop → Loop} (hf : ∀ l k, o.inner.size ≤ k → l.Within k → (f l).Within k) :
    Does o.At (modifyLoop f) fun _ => o.At := by
  refine modifyFunction_does (p := o.inner) (fun fs hfs => ?_) rfl
  have hloops : ∀ l ∈ fs.loops.modifyHead f, l.Within fs.chunk.size := by
    cases hloops : fs.loops with
    | nil => simp
    | cons l outer =>
      obtain ⟨hl, houter⟩ := List.forall_mem_cons.mp (hloops ▸ hfs.within)
      exact List.forall_mem_cons.mpr ⟨hf l _ hfs.size hl, houter⟩
  have hon := hfs.relooped hloops
  rw [List.length_modifyHead, hfs.loops] at hon
  exact hon

/-- The innermost loop starts within the code. -/
theorem leaveLoopBody?_does : Does o.At leaveLoopBody? fun l? s =>
    ∃ k, (o.reach k).At s ∧ ∀ l, l? = some l → l.start ≤ k := by
  refine .get fun s₀ => ?_
  split
  · exact .pure fun s hs => ⟨0, hs.1.reached (Nat.zero_le _), nofun⟩
  · rename_i l _ hcons
    refine Does.pre (P := (o.reach l.start).At) ?_ ?_
    · refine .bind discardLocals_steady.keep fun _ => .get fun s => ?_
      refine .bind (.pre (Steady.keep (.forM (fun _ => emit_steady) _)) fun _ hs => hs.1) fun _ => ?_
      exact .pure fun s hs => ⟨l.start, hs, fun l' hl' => by cases hl'; exact Nat.le_refl _⟩
    · rintro s ⟨hs, rfl⟩
      exact hs.reached (hs.inner.starts l (hcons ▸ List.mem_cons_self))

/-- The branch is left to the loop around, or there is none and it is an error. -/
@[grind ←]
theorem breakStatement_steady : Steady n breakStatement := by
  refine .bind accept_steady fun _ o ho => .bind leaveLoopBody?_does fun l? => .ofExists fun k => ?_
  refine Does.pre (P := o.At) ?_ fun s hs => hs.1.of_reach
  cases l? with
  | none => exact error_steady.keep
  | some l =>
    refine .bind (emitJump_does rfl) fun jump => .post (modifyLoop_does ?_) fun _ s hs => hs.of_reach
    refine fun l k hk hl => ⟨hl.1, fun b hb => ?_⟩
    rcases Array.mem_push.mp hb with hb | rfl
    · exact hl.2 b hb
    · exact Nat.le_trans (Nat.le_max_right ..) hk

@[grind ←]
theorem continueStatement_steady : Steady n continueStatement := by
  refine .bind accept_steady fun _ o ho => .bind leaveLoopBody?_does fun l? => .ofExists fun k => ?_
  cases l? with
  | none => exact error_steady.keep.pre fun s hs => hs.1.of_reach
  | some l =>
    rintro s ⟨hs, hstart⟩
    exact (emitLoop_does (Nat.le_trans (hstart l rfl) (Nat.le_max_right ..)) s hs).of_reach

theorem closeLoop_does {start exit : Nat} (hstart : start ≤ o.inner.size)
    (hexit : exit + 2 ≤ o.inner.size) : Does o.looping.At (closeLoop start exit) fun _ => o.At := by
  refine .bind (emitLoop_does hstart) fun _ => .bind (patchJump_does hexit) fun _ => ?_
  exact .bind emit_steady.keep fun _ => endLoop_does

/-- The jump back leads to the test, and the way out to the end. -/
@[grind ←]
theorem whileStatement_steady (h : Delivers self n) : Steady n (whileStatement self) := by
  refine fun o ho => .bind codeSize_does fun start => .bind (beginLoop_does (Nat.le_max_right ..)) fun _ => ?_
  refine expect_steady.andThen ho fun _ => (condition_steady h).andThen ho fun _ => ?_
  refine .bind (emitJump_does rfl) fun exit => emit_steady.andThen ho fun _ => ?_
  refine (statement_steady h).andThen ho fun _ => ?_
  refine Does.post (closeLoop_does (o := (o.reach start).reach (exit + 2)) ?_ (Nat.le_max_right ..))
    fun _ s hs => hs.of_reach.of_reach
  exact Nat.le_trans (Nat.le_max_right ..) (Nat.le_max_left ..)

/-- The jump back leads to the body. -/
@[grind ←]
theorem doWhileStatement_steady (h : Delivers self n) : Steady n (doWhileStatement self) := by
  refine fun o ho => .bind codeSize_does fun start => .bind (beginLoop_does (Nat.le_max_right ..)) fun _ => ?_
  refine (statement_steady h).andThen ho fun _ => expect_steady.andThen ho fun _ => ?_
  refine expect_steady.andThen ho fun _ => (condition_steady h).andThen ho fun _ => ?_
  refine accept_steady.andThen ho fun _ => .bind (emitJump_does rfl) fun exit => ?_
  refine emit_steady.andThen ho fun _ => ?_
  refine Does.post (closeLoop_does (o := (o.reach start).reach (exit + 2)) ?_ (Nat.le_max_right ..))
    fun _ s hs => hs.of_reach.of_reach
  exact Nat.le_trans (Nat.le_max_right ..) (Nat.le_max_left ..)

/-- The loop ends the scope of its hidden locals. -/
theorem forInLoop_does (h : Delivers self n) (ho : o.mark.left ≤ n) (item : String)
    (index : Option String) : Does o.deeper.At (forInLoop self item index) fun _ => o.At := by
  refine (expression_steady h).andThen ho fun _ => addReadyLocal_steady.andThen ho fun sequence => ?_
  refine emitConstant_steady.andThen ho fun _ => addReadyLocal_steady.andThen ho fun position => ?_
  refine emit_steady.andThen ho fun _ => addReadyLocal_steady.andThen ho fun itemSlot => ?_
  refine expect_steady.andThen ho fun _ => .bind (emitJump_does rfl) fun toTest => ?_
  refine .bind codeSize_does fun increment => .bind (beginLoop_does (Nat.le_max_right ..)) fun _ => ?_
  refine emit_steady.andThen ho fun _ => emit_steady.andThen ho fun _ => emit_steady.andThen ho fun _ => ?_
  refine emit_steady.andThen ho fun _ => .bind (patchJump_does ?_) fun _ => ?_
  · exact Nat.le_trans (Nat.le_max_right ..) (Nat.le_max_left ..)
  refine emit_steady.andThen ho fun _ => nameConstant_steady.andThen ho fun length => ?_
  refine emit_steady.andThen ho fun _ => emit_steady.andThen ho fun _ => emit_steady.andThen ho fun _ => ?_
  refine emit_steady.andThen ho fun _ => .bind (emitJump_does rfl) fun exit => ?_
  refine emit_steady.andThen ho fun _ => emit_steady.andThen ho fun _ => emit_steady.andThen ho fun _ => ?_
  refine emit_steady.andThen ho fun _ => emit_steady.andThen ho fun _ => emit_steady.andThen ho fun _ => ?_
  refine (statement_steady h).andThen ho fun _ => ?_
  refine .bind (closeLoop_does
    (o := ((o.deeper.reach (toTest + 2)).reach increment).reach (exit + 2)) ?_ (Nat.le_max_right ..)) fun _ => ?_
  · exact Nat.le_trans (Nat.le_max_right ..) (Nat.le_max_left ..)
  · exact endScope_does.pre fun s hs => hs.of_reach.of_reach.of_reach

/-- A failed test goes on within the code. -/
theorem landFailed_does {jump? : Option Nat} (hjump : ∀ jump, jump? = some jump → jump + 2 ≤ o.inner.size) :
    Does o.At (landFailed jump?) fun _ => o.At := by
  cases jump? with
  | none => exact .pure fun _ hs => hs
  | some jump => exact .bind (patchJump_does (hjump jump rfl)) fun _ => emit_steady.keep

/-- The way out of the loop, if there is a condition, is a branch that has been written. -/
theorem loopCondition_does (h : Delivers self n) (ho : o.mark.left ≤ n) :
    Does o.At (loopCondition self) fun exit? s =>
      ∃ k, (o.reach k).At s ∧ ∀ exit, exit? = some exit → exit + 2 ≤ k := by
  refine accept_steady.andThen ho fun b => .ite (fun _ => ?_) fun _ => ?_
  · exact .pure fun s hs => ⟨0, hs.reached (Nat.zero_le _), nofun⟩
  · refine (expression_steady h).andThen ho fun _ => expect_steady.andThen ho fun _ => ?_
    refine .bind (emitJump_does rfl) fun exit => emit_steady.andThen ho fun _ => .pure fun s hs => ?_
    exact ⟨exit + 2, hs, fun _ heq => by cases heq; exact Nat.le_refl _⟩

/-- The loop goes on at its increment, or at its test. -/
theorem loopIncrement_does (h : Delivers self n) (ho : o.mark.left ≤ n) {test : Nat}
    (htest : test ≤ o.inner.size) :
    Does o.At (loopIncrement self test) fun start s => (o.reach start).At s := by
  refine accept_steady.andThen ho fun b => .ite (fun _ => ?_) fun _ => ?_
  · exact .pure fun s hs => hs.reached (Nat.le_trans htest hs.inner.size)
  · refine .bind (emitJump_does rfl) fun toBody => .bind codeSize_does fun increment => ?_
    refine (expression_steady h).andThen ho fun _ => emit_steady.andThen ho fun _ => ?_
    refine expect_steady.andThen ho fun _ => .bind (emitLoop_does ?_) fun _ => ?_
    · exact Nat.le_trans htest (Nat.le_trans (Nat.le_max_left ..) (Nat.le_max_left ..))
    refine .bind (modifyLoop_does fun l k hk hl => ⟨?_, hl.2⟩) fun _ => ?_
    · exact Nat.le_trans (Nat.le_max_right ..) hk
    refine .bind (patchJump_does ?_) fun _ => .pure fun s hs => ?_
    · exact Nat.le_trans (Nat.le_max_right ..) (Nat.le_max_left ..)
    · rw [Stance.reach_reach] at hs
      exact hs.reach_of_le (Nat.le_max_right ..)

/-- The loop ends the scope that its first clause is in. -/
theorem forClauses_does (h : Delivers self n) (ho : o.mark.left ≤ n) :
    Does o.deeper.At (forClauses self) fun _ => o.At := by
  refine .bind codeSize_does fun test => .bind (beginLoop_does (Nat.le_max_right ..)) fun _ => ?_
  refine .bind (loopCondition_does h ho) fun exit? => .ofExists fun k => ?_
  rintro s ⟨hs, hexit⟩
  have hrest : Does ((o.deeper.reach test).looping.reach k).At
      (do
        let start ← loopIncrement self test
        self.statement
        emitLoop start
        landFailed exit?
        endLoop
        endScope) fun _ => o.At := by
    refine .bind (loopIncrement_does (o := (o.deeper.reach test).looping.reach k) h ho ?_) fun start => ?_
    · exact Nat.le_trans (Nat.le_max_right ..) (Nat.le_max_left ..)
    refine (statement_steady h).andThen ho fun _ => ?_
    refine .bind (emitLoop_does (Nat.le_max_right ..)) fun _ => .bind (landFailed_does ?_) fun _ => ?_
    · exact fun exit heq => Nat.le_trans (hexit exit heq)
        (Nat.le_trans (Nat.le_max_right ..) (Nat.le_max_left ..))
    refine .bind (endLoop_does (o := ((o.deeper.reach test).reach k).reach start)) fun _ => ?_
    exact endScope_does.pre fun s hs => hs.of_reach.of_reach.of_reach
  exact hrest s hs

@[grind ←]
theorem indexName_steady : Steady n indexName := by
  unfold indexName
  refine .bind accept_steady fun _ => .ite ?_ (.pure _)
  exact .bind expect_steady fun _ => .bind previousText_steady fun _ => .pure _

/-- The kinds of loops are told apart by what follows the parenthesis and the name. -/
@[grind ←]
theorem forStatement_steady (h : Delivers self n) : Steady n (forStatement self) := by
  refine fun o ho => .bind beginScope_does fun _ => expect_steady.andThen ho fun _ => ?_
  refine accept_steady.andThen ho fun b => .ite (fun _ => forClauses_does h ho) fun _ => ?_
  refine accept_steady.andThen ho fun b => .ite (fun _ => ?_) fun _ => ?_
  · refine expect_steady.andThen ho fun _ => previousText_steady.andThen ho fun name => ?_
    refine skipTypeAnnotation_steady.andThen ho fun _ => indexName_steady.andThen ho fun index => ?_
    refine accept_steady.andThen ho fun b => .ite (fun _ => forInLoop_does h ho name index) fun _ => ?_
    have hclauses : Does o.deeper.At
        (do
          declareVariable name
          optionalValue self
          markReady
          expect .semicolon "Expect ';' after variable declaration."
          forClauses self) fun _ => o.At :=
      declareVariable_steady.andThen ho fun _ => (optionalValue_steady h).andThen ho fun _ =>
        markReady_steady.andThen ho fun _ => expect_steady.andThen ho fun _ => forClauses_does h ho
    split
    · exact error_steady.andThen ho fun _ => hclauses
    · exact hclauses
  · refine (expression_steady h).andThen ho fun _ => emit_steady.andThen ho fun _ => ?_
    exact expect_steady.andThen ho fun _ => forClauses_does h ho

/-! ## Switches -/

/-- The jumps of the arms so far lie within the code. -/
def SwitchState.Within (arms : SwitchState) (k : Nat) : Prop :=
  (∀ place ∈ arms.ends, place + 2 ≤ k) ∧ ∀ skip, arms.skip = some skip → skip + 2 ≤ k

/-- The stance in the scope of an arm, unless there is none yet. -/
def Stance.armed (o : Stance) (arms : SwitchState) : Stance :=
  if arms.phase = .beforeCases then o else o.deeper

/-- Among the arms of a switch, with the jumps of those so far. -/
def Stance.Among (o : Stance) (arms : SwitchState) (s : State) : Prop :=
  ∃ k, ((o.reach k).armed arms).At s ∧ arms.Within (o.reach k).inner.size

theorem Stance.mark_armed (arms : SwitchState) : (o.armed arms).mark = o.mark := by
  unfold Stance.armed
  split <;> rfl

theorem Stance.total_armed (arms : SwitchState) : (o.armed arms).total = o.total := by
  unfold Stance.armed
  split <;> rfl

theorem Stance.remark_armed (arms : SwitchState) (m : Mark) :
    (o.armed arms).remark m = (o.remark m).armed arms := by
  unfold Stance.armed
  split <;> rfl

/-- With its jumps in the code, an open arm is one of the stances among the arms. -/
theorem Stance.At.among {arms : SwitchState} (h : (o.armed arms).At s)
    (harms : arms.Within o.inner.size) : o.Among arms s := by
  have hreach : o.reach 0 = o := by simp [Stance.reach]
  exact ⟨0, hreach.symm ▸ h, hreach.symm ▸ harms⟩

theorem Stance.Among.since {arms : SwitchState} (h : o.Among arms s) : o.mark.Since s := by
  obtain ⟨k, hs, -⟩ := h
  have := hs.since
  rwa [Stance.mark_armed] at this

/-- What is among the arms as seen from a later mark is so from an earlier one. -/
theorem Stance.Among.trans {arms : SwitchState} {s' : State} (h : o.mark.Since s)
    (h' : (o.remark s.mark).Among arms s') : o.Among arms s' := by
  obtain ⟨k, hs, harms⟩ := h'
  have hs' : (((o.reach k).armed arms).remark s.mark).At s' := by
    rw [Stance.remark_armed]
    exact hs
  have hsince : ((o.reach k).armed arms).mark.Since s := by rwa [Stance.mark_armed]
  exact ⟨k, { hs' with since := hsince.trans hs'.since }, harms⟩

theorem Stance.Among.of_reach {k : Nat} {arms : SwitchState} (h : (o.reach k).Among arms s) :
    o.Among arms s := by
  obtain ⟨k', hs, harms⟩ := h
  rw [Stance.reach_reach] at hs harms
  exact ⟨_, hs, harms⟩

/-- The branch at the end of an arm is one more that waits for the end of the `switch`. -/
theorem closeArm_does {arms : SwitchState} (harms : arms.Within o.inner.size) :
    Does (o.armed arms).At (closeArm arms) fun arms' s =>
      ∃ k, (o.reach k).At s ∧ arms'.Within (o.reach k).inner.size := by
  refine .ite (fun hphase => .pure fun s hs => ?_) fun hphase => ?_
  · rw [Stance.armed, if_pos hphase] at hs
    exact ⟨0, hs.reached (Nat.zero_le _), by simpa [Stance.reach] using harms⟩
  · rw [Stance.armed, if_neg hphase]
    refine .bind endScope_does fun _ => .bind (emitJump_does rfl) fun toEnd => ?_
    refine .bind (landFailed_does fun skip hskip => ?_) fun _ =>
      .pure fun s hs => ⟨toEnd + 2, hs, ?_, fun _ hnone =>
        absurd hnone.symm (Option.some_ne_none _)⟩
    · exact Nat.le_trans (harms.2 skip hskip) (Nat.le_max_left ..)
    · intro place hplace
      rcases Array.mem_push.mp hplace with hplace | rfl
      · exact Nat.le_trans (harms.1 place hplace) (Nat.le_max_left ..)
      · exact Nat.le_max_right ..

/-- An arm is opened in a scope of its own. -/
theorem openArm_does (h : Delivers self n) (ho : o.mark.left ≤ n) (subject : Nat)
    {arms : SwitchState} (harms : arms.Within o.inner.size) :
    Does (o.armed arms).At (openArm self subject arms) fun arms' => o.Among arms' := by
  refine .bind previousKind_reads fun kind => Does.pre (P := (o.armed arms).At) ?_ fun s hs => hs.1
  refine .when (M := (o.armed arms).At) (fun _ => error_steady.keep) (fun _ _ hs => hs) ?_
  refine .bind (closeArm_does harms) fun arms' => .ofExists fun k => ?_
  rintro s ⟨hs, harms'⟩
  refine Does.ite (fun _ => ?_) (fun _ => ?_) s hs (Q := fun arms'' => o.Among arms'')
  · refine emit_steady.andThen ho fun _ => (expression_steady h).andThen ho fun _ => ?_
    refine expect_steady.andThen ho fun _ => emit_steady.andThen ho fun _ => ?_
    refine .bind (emitJump_does rfl) fun skip => emit_steady.andThen ho fun _ => ?_
    refine .bind beginScope_does fun _ => .pure fun s hs => ⟨max k (skip + 2), ?_, ?_, ?_⟩
    · rw [Stance.reach_reach] at hs
      exact hs
    · refine fun place hplace => Nat.le_trans (harms'.1 place hplace) ?_
      exact max_le_max (Nat.le_refl _) (Nat.le_max_left ..)
    · rintro _ ⟨⟩
      exact Nat.le_trans (Nat.le_max_right k _) (Nat.le_max_right ..)
  · refine expect_steady.andThen ho fun _ => .bind beginScope_does fun _ => .pure fun s hs => ?_
    exact ⟨k, hs, harms'.1, nofun⟩

/-- Each arm and each declaration in one is a token at least, so the arms end before the budget. -/
theorem switchArms_does (h : Delivers self n) (subject fuel : Nat) : ∀ (o : Stance) (arms : SwitchState),
    o.mark.left ≤ n → o.mark.left < fuel → arms.Within o.inner.size →
      Does (fun s => (o.armed arms).At s ∧ s.rest.length = o.mark.left)
        (switchArms self subject arms fuel) fun arms' => o.Among arms' := by
  induction fuel with
  | zero => exact fun o arms _ hfuel => absurd hfuel (Nat.not_lt_zero _)
  | succ fuel ih =>
    intro o arms ho hfuel harms
    have harmed : (o.armed arms).mark.left ≤ n := by rwa [Stance.mark_armed]
    refine .bind (Q := fun before s => (o.armed arms).At s ∧ before + o.mark.left = o.total) ?_
      fun before => .fact fun hbefore => ?_
    · rintro s ⟨hs, hlength⟩
      have := hs.total
      rw [Stance.total_armed] at this
      exact ⟨hs, hlength ▸ this⟩
    -- a pass that has consumed a token leaves less to do, and the rest follows by induction
    have hagain : ∀ arms', Does (fun s => o.Among arms' s ∧ s.rest.length < o.mark.left)
        (do
          demandProgress before
          switchArms self subject arms' fuel) fun arms'' => o.Among arms'' := by
      rintro arms' s ⟨⟨k, hs, hwithin⟩, hlt⟩
      have hmark : ((o.reach k).armed arms').mark = o.mark := Stance.mark_armed arms'
      have htotal : ((o.reach k).armed arms').total = o.total := Stance.total_armed arms'
      have hprogress := demandProgress_past (o := (o.reach k).armed arms') (by rwa [hmark, htotal]) s
        ⟨hs, by rwa [hmark]⟩
      have hsince : o.mark.Since (demandProgress before s).2 := hmark ▸ hprogress.1.since
      have hremark := hprogress.1.remark
      rw [Stance.remark_armed] at hremark
      refine .of_reach (k := k) (.trans hsince
        (ih ((o.reach k).remark (demandProgress before s).2.mark) arms' ?_ ?_ hwithin _ ⟨hremark, rfl⟩))
      · exact Nat.le_trans hsince.left_le ho
      · have := hprogress.2
        rw [hmark] at this
        exact Nat.lt_of_lt_of_le this (Nat.le_of_lt_succ hfuel)
    refine accept_steady.andThen harmed fun closed => .ite (fun _ => ?_) fun _ => ?_
    · exact .pure fun s hs => hs.among harms
    refine .bind check_reads fun ended => .ite (fun _ => ?_) fun hended => ?_
    · refine Does.pre (P := (o.armed arms).At) ?_ fun s hs => hs.1
      exact errorAtCurrent_steady.andThen harmed fun _ => .pure fun s hs => hs.among harms
    refine .bind (.and (.pre (consumes_acceptAny (by decide) (o.armed arms) harmed) fun s hs => hs.1)
      acceptAny_declines) fun isArm => .ite (fun hisArm => ?_) fun hisArm => ?_
    · -- the head of an arm is a token
      refine .bind (Q := fun arms' s => o.Among arms' s ∧ s.rest.length < o.mark.left) ?_ hagain
      rintro s ⟨⟨hs, hlt⟩, -⟩
      have hremark := hs.remark
      rw [Stance.remark_armed] at hremark
      have hsince : o.mark.Since s := Stance.mark_armed arms ▸ hs.since
      have hle := Nat.le_trans hsince.left_le ho
      have hopened := openArm_does (o := o.remark s.mark) h hle subject harms s hremark
      refine ⟨.trans hsince hopened, Nat.lt_of_le_of_lt hopened.since.left_le ?_⟩
      have := hlt hisArm
      rwa [Stance.mark_armed] at this
    · -- a declaration before the end of the text is a token at least
      have hpast : Does (fun s => (o.armed arms).At s ∧ s.current.kind ≠ .endOfText) self.declaration
          fun _ s => o.Among arms s ∧ s.rest.length < o.mark.left := by
        refine (h.declaration _ harmed).post fun _ s hs => ⟨hs.1.among harms, ?_⟩
        have := hs.2
        rwa [Stance.mark_armed] at this
      refine .when (M := fun s => (o.armed arms).At s ∧ s.current.kind ≠ .endOfText)
        (fun _ s hs => ?_) (fun _ s hs => ?_) (.bind hpast fun _ => hagain arms)
      all_goals
        obtain ⟨hs', hkind⟩ := hs.2 (Bool.eq_false_iff.mpr hisArm)
        have hne : s.current.kind ≠ .endOfText := by simpa [hkind] using hended
      · exact ⟨errorAtCurrent_steady.keep s hs', by rwa [current_errorAtCurrent]⟩
      · exact ⟨hs', hne⟩

/-- What is left open by the last arm is ended. -/
theorem closeLastArm_does (arms : SwitchState) :
    Does (o.Among arms) (closeLastArm arms) fun ends s =>
      ∃ k, (o.reach k).At s ∧ ∀ place ∈ ends, place + 2 ≤ (o.reach k).inner.size := by
  refine .ofExists fun k => .fact fun harms => ?_
  unfold closeLastArm
  refine .when (M := (o.reach k).At) (fun hphase => ?_) (fun hphase s hs => ?_) ?_
  · rw [Stance.armed, if_neg hphase]
    exact endScope_does
  · rw [Stance.armed, if_pos (not_not.mp hphase)] at hs
    exact hs
  · split
    · rename_i skip hskip
      refine .bind (emitJump_does rfl) fun toEnd => .bind (landFailed_does ?_) fun _ => .pure fun s hs => ?_
      · rintro _ ⟨⟩
        exact Nat.le_trans (harms.2 skip hskip) (Nat.le_max_left ..)
      · rw [Stance.reach_reach] at hs
        refine ⟨_, hs, fun place hplace => ?_⟩
        rcases Array.mem_push.mp hplace with hplace | rfl
        · exact Nat.le_trans (harms.1 place hplace) (max_le_max (Nat.le_refl _) (Nat.le_max_left ..))
        · exact Nat.le_trans (Nat.le_max_right k _) (Nat.le_max_right ..)
    · exact .pure fun s hs => ⟨k, hs, harms.1⟩

/-- All branches that wait for the end are filled in there. -/
@[grind ←]
theorem switchStatement_steady (h : Delivers self n) : Steady n (switchStatement self) := by
  refine fun o ho => expect_steady.andThen ho fun _ => (expression_steady h).andThen ho fun _ => ?_
  refine expect_steady.andThen ho fun _ => expect_steady.andThen ho fun _ => ?_
  refine .bind beginScope_does fun _ => addReadyLocal_steady.andThen ho fun subject => ?_
  refine .get fun s₀ => .bind (Q := fun arms => o.deeper.Among arms) ?_ fun arms => ?_
  · rintro s ⟨hs, rfl⟩
    have hle := Nat.le_trans hs.since.left_le ho
    have hfuel : s.rest.length < s.budget := by
      have := hs.budget
      omega
    have hnone : SwitchState.Within ⟨.beforeCases, #[], none⟩ o.deeper.inner.size := ⟨by simp, nofun⟩
    exact .trans hs.since (switchArms_does h subject s.budget (o.deeper.remark s.mark) _ hle hfuel hnone s
      ⟨hs.remark, rfl⟩)
  refine .bind (closeLastArm_does arms) fun ends => .ofExists fun k => .fact fun hends => ?_
  refine .bind (.forM fun place hplace => patchJump_does (hends place (Array.mem_toList_iff.mp hplace)))
    fun _ => endScope_does.pre fun s hs => hs.of_reach

/-! ## Handlers -/

@[grind ←]
theorem errorVariable_steady {name : String} : Steady n (errorVariable name) :=
  .bind addReadyLocal_steady fun _ => modifyChunk_steady fun _ => Nat.le_refl _

@[grind ←]
theorem catchClause_steady (h : Delivers self n) : Steady n (catchClause self) := by
  unfold catchClause
  refine .bind accept_steady fun _ => .ite ?_ errorVariable_steady
  refine .bind accept_steady fun _ => .ite ?_ ?_
  · refine .bind expect_steady fun _ => .bind previousText_steady fun _ => ?_
    exact .bind errorVariable_steady fun _ => .bind expect_steady fun _ => statement_steady h
  · exact .bind errorVariable_steady fun _ => statement_steady h

/-- The handler is open in the statement, and closed after it. -/
@[grind ←]
theorem tryStatement_steady (h : Delivers self n) : Steady n (tryStatement self) := by
  refine fun o ho => .bind (emitJump_does rfl) fun toHandler => ?_
  have henter : Does (o.reach (toHandler + 2)).At
      (modifyFunction fun fs => { fs with tryDepth := fs.tryDepth + 1 })
      fun _ => (o.reach (toHandler + 2)).handling.At :=
    modifyFunction_does (p := (o.reach (toHandler + 2)).inner)
      (fun fs hfs => { hfs with tries := congrArg (· + 1) hfs.tries }) rfl
  have hleave : Does (o.reach (toHandler + 2)).handling.At
      (modifyFunction fun fs => { fs with tryDepth := fs.tryDepth - 1 })
      fun _ => (o.reach (toHandler + 2)).At :=
    modifyFunction_does (p := (o.reach (toHandler + 2)).handling.inner)
      (fun fs hfs => { hfs with tries := by rw [hfs.tries]; rfl }) rfl
  refine .bind henter fun _ => (statement_steady h).andThen ho fun _ => ?_
  refine .get fun s₀ => .bind (.demand (P := fun s => (o.reach (toHandler + 2)).handling.At s ∧ s = s₀) ?_)
    fun _ => ?_
  · rintro s ⟨hs, rfl⟩
    rw [hs.inner.tries]
    exact Nat.succ_pos _
  refine .bind (hleave.pre fun s hs => hs.1) fun _ => .bind (emitJump_does rfl) fun toEnd => ?_
  refine .bind (patchJump_does ?_) fun _ => .bind beginScope_does fun _ => ?_
  · exact Nat.le_trans (Nat.le_max_right ..) (Nat.le_max_left ..)
  refine (catchClause_steady h).andThen ho fun _ => .bind endScope_does fun _ => ?_
  exact (patchJump_does (Nat.le_max_right ..)).post fun _ s hs => hs.of_reach.of_reach

/-! ## Files -/

/-- Each part of a path is a token at least. -/
theorem pathParts_does (fuel : Nat) : ∀ (o : Stance) (path : String), o.mark.left < fuel →
    Does (fun s => o.At s ∧ s.rest.length = o.mark.left) (pathParts path fuel) fun _ => o.At := by
  induction fuel with
  | zero => exact fun o path hfuel => absurd hfuel (Nat.not_lt_zero _)
  | succ fuel ih =>
    intro o path hfuel
    refine .bind (Q := fun before s => o.At s ∧ before + o.mark.left = o.total) ?_
      fun before => .fact fun hbefore => ?_
    · rintro s ⟨hs, hlength⟩
      exact ⟨hs, hlength ▸ hs.total⟩
    refine .bind (consumes_accept (by decide) o (Nat.le_refl _)) fun again => .ite (fun hagain => ?_)
      fun _ => .pure fun s hs => hs.1
    have hpart : Does o.Past
        (do
          expect .identifier "Expect an identifier after slash in import."
          demandProgress before) fun _ => o.Past :=
      .bind (Steady.beyond fun _ => expect_steady) fun _ => demandProgress_past hbefore
    refine .bind ((Steady.beyond fun _ => expect_steady).pre fun s hs => ⟨hs.1, hs.2 hagain⟩) fun _ => ?_
    refine .bind (demandProgress_past hbefore) fun _ => .bind (Steady.beyond fun _ => previousText_steady)
      fun text => ?_
    rintro s ⟨hs, hlt⟩
    exact hs.trans (ih (o.remark s.mark) _ (Nat.lt_of_lt_of_le hlt (Nat.le_of_lt_succ hfuel)) s ⟨hs.remark, rfl⟩)

@[grind ←]
theorem importPath_steady : Steady n importPath := by
  refine .bind accept_steady fun b => ?_
  split
  · refine .bind previousText_steady fun first => .here fun o s₀ hs₀ hleft ho => ?_
    have hfuel : o.mark.left < s₀.budget := by
      have := hs₀.budget
      omega
    exact .bind (pathParts_does _ o first hfuel) fun _ => .pure fun _ hs => hs
  · exact .bind expect_steady fun _ => .bind previousText_steady fun _ => .pure _

@[grind ←]
theorem importName_steady : Steady n importName := by
  unfold importName
  refine .bind accept_steady fun _ => .ite ?_ emit_steady
  refine .bind acceptAny_steady fun _ => .ite ?_ errorAtCurrent_steady
  exact .bind previousText_steady fun _ => .bind intern_steady fun _ => emitConstant_steady

@[grind ←]
theorem importStatement_steady : Steady n importStatement := by
  unfold importStatement
  refine .bind importPath_steady fun _ => .bind intern_steady fun _ => ?_
  refine .bind emitConstant_steady fun _ => .bind importName_steady fun _ => ?_
  exact .bind accept_steady fun _ => emit_steady

/-! ## Statements -/

/-- **`Moves n c`** — `c` is steady, and before the end of the text it consumes a token. -/
structure Moves (n : Nat) (c : Compile α) : Prop where
  steady : Steady n c
  advances : Advances n c

/-- The first part takes a token, so the rest may stand still. -/
theorem Moves.bind {c : Compile α} {f : α → Compile β} (hc : Moves n c) (hf : ∀ a, Steady n (f a)) :
    Moves n (c >>= f) where
  steady := .bind hc.steady hf
  advances o ho := .bind (hc.advances o ho) fun a =>
    Does.beyond ho fun _ hk => (hf a).mono (Nat.le_of_lt hk)

/-- A token of a known kind that is consumed first: what follows has fewer tokens. -/
theorem keyword_does {k : TokenKind} (hk : k ≠ .endOfText) {c : Compile Unit}
    (hc : ∀ j < n, Steady j c) (ho : o.mark.left ≤ n) :
    Does (fun s => o.At s ∧ k = s.current.kind) (do advance; c)
      fun _ s => o.At s ∧ (k ≠ .endOfText → s.rest.length < o.mark.left) := by
  refine .bind ((advance_past hk).pre fun s hs => ⟨hs.1, hs.2.symm⟩) fun _ => ?_
  exact ((Does.beyond ho hc).pre fun s hs => hs.1).post fun _ s hs => ⟨hs.1, fun _ => hs.2⟩

/-- A step, from what it does for each kind of the current token. -/
theorem Moves.ofKind {c : Compile Unit}
    (h : ∀ kind (o : Stance), o.mark.left ≤ n → Does (fun s => o.At s ∧ kind = s.current.kind) c
      fun _ s => o.At s ∧ (kind ≠ .endOfText → s.rest.length < o.mark.left)) : Moves n c where
  steady o ho s hs := (h s.current.kind o ho s ⟨hs, rfl⟩).1
  advances o ho s hs :=
    have hgo := h s.current.kind o ho s ⟨hs.1, rfl⟩
    ⟨hgo.1, hgo.2 hs.2⟩

/-- When the token at hand is known, it has been taken, unless it ends the text. -/
theorem Moves.does {c : Compile Unit} (h : Moves n c) (ho : o.mark.left ≤ n) {kind : TokenKind} :
    Does (fun s => o.At s ∧ kind = s.current.kind) c
      fun _ s => o.At s ∧ (kind ≠ .endOfText → s.rest.length < o.mark.left) := by
  rintro s ⟨hs, rfl⟩
  exact ⟨h.steady o ho s hs, fun hkind => (h.advances o ho s ⟨hs, hkind⟩).2⟩

theorem expressionStatement_moves (h : Expresses self n) : Moves n (expressionStatement self) := by
  refine .bind ⟨h.steady _, h.advances _⟩ fun _ => .bind accept_steady fun _ => .bind .get fun s => ?_
  dsimp only
  split <;> exact emit_steady

@[grind ←]
theorem abortStatement_steady (h : Delivers self n) : Steady n (abortStatement self) :=
  .bind (expression_steady h) fun _ => .bind accept_steady fun _ => emit_steady

@[grind ←]
theorem passStatement_steady : Steady n passStatement :=
  .bind emit_steady fun _ => .bind accept_steady fun _ => .pure _

theorem scope_steady (h : Delivers self n) : Steady n (do beginScope; block self; endScope) :=
  fun _ ho => .bind beginScope_does fun _ => (block_steady h).andThen ho fun _ => endScope_does

/-- A block starts with a brace, an expression with a token of its own. -/
theorem blockOrExpression_moves (hself : Expresses self n) (h : ∀ k < n, Delivers self k) :
    Moves n (blockOrExpression self) := by
  refine .ofKind fun kind o ho => .bind check_reads fun opens => ?_
  refine .bind (Q := fun _ s => (o.At s ∧ kind = s.current.kind) ∧ opens = (s.current.kind == .leftBrace))
    (fun s hs => hs) fun following => .ite (fun hblock => ?_) fun _ => ?_
  · refine Does.post (Does.pre (keyword_does (k := .leftBrace) (by decide)
      (fun k hk => scope_steady (h k hk)) ho) ?_) fun _ s hs => ⟨hs.1, fun _ => hs.2 (by decide)⟩
    rintro s ⟨⟨hs, -⟩, rfl⟩
    rw [Bool.and_eq_true] at hblock
    exact ⟨hs, (beq_iff_eq.mp hblock.1).symm⟩
  · exact ((expressionStatement_moves hself).does ho).pre fun s hs => hs.1

/-- A statement takes at least one token. This is what makes the compiler come to an end. -/
theorem statement_moves (hself : Expresses self n) (h : ∀ k < n, Delivers self k) :
    Moves n (statement self) := by
  refine .ofKind fun kind o ho => .bind (Q := fun k s => (o.At s ∧ k = s.current.kind) ∧ k = kind)
    (fun s hs => ⟨⟨hs.1, rfl⟩, hs.2.symm⟩) fun k => .fact ?_
  rintro rfl
  split
  case h_13 => exact (blockOrExpression_moves hself h).does ho
  all_goals
    refine keyword_does (by decide) (fun k hk => ?_) ho
    have := h k hk
    grind

/-- So does a declaration, by the keyword that starts it. -/
theorem declarationOrStatement_moves (hself : Expresses self n) (h : ∀ k < n, Delivers self k) :
    Moves n (declarationOrStatement self) := by
  refine .ofKind fun kind o ho => .bind (Q := fun k s => (o.At s ∧ k = s.current.kind) ∧ k = kind)
    (fun s hs => ⟨⟨hs.1, rfl⟩, hs.2.symm⟩) fun k => .fact ?_
  rintro rfl
  split
  case h_6 => exact (statement_moves hself h).does ho
  all_goals
    refine keyword_does (by decide) (fun k hk => ?_) ho
    have := h k hk
    grind

/-- Skipping to a place to go on from. -/
theorem synchronize_does : Does o.Past synchronize fun _ => o.Past := by
  refine .bind (Q := fun _ => o.Past) (.modify fun s hs => ?_) fun _ => ?_
  · exact ⟨{ hs.1 with since := .inl hs.2 }, hs.2⟩
  refine Steady.beyond fun k => loop_steady fun o ho => ?_
  refine .bind check_reads fun ended => .ite (fun _ => .pure fun s hs => ⟨hs.1, nofun⟩) fun hended => ?_
  refine Does.pre (P := fun s => o.At s ∧ s.current.kind ≠ .endOfText) ?_ fun s hs =>
    ⟨hs.1, fun hkind => hended (hs.2.trans (beq_iff_eq.mpr hkind))⟩
  refine .bind previousKind_reads fun previous => .ite (fun _ => .pure fun s hs => ⟨hs.1.1, nofun⟩) fun _ => ?_
  refine .bind currentKind_reads fun kind => .ite (fun _ => .pure fun s hs => ⟨hs.1.1.1, nofun⟩) fun _ => ?_
  refine .bind (Q := fun _ => o.Past) ?_ fun _ => .pure fun s hs => ⟨hs.1, fun _ => hs.2⟩
  rintro s ⟨⟨⟨hs, hkind⟩, -⟩, -⟩
  exact ⟨hs.consume.1, hs.consume.2.2 hkind⟩

/-- **`declaration_advances`** — before the end of the text a declaration consumes a token, and errors
in it are recovered from. -/
theorem declaration_advances (hself : Expresses self n) (h : ∀ k < n, Delivers self k) :
    Advances n (declaration self) := by
  rintro o ho s ⟨hs, hkind⟩
  have hle := Nat.le_trans hs.since.left_le ho
  refine hs.past ?_
  refine Does.bind (P := fun s' => s' = s) (Q := fun _ s' => s' = s) (fun _ hs => hs) (fun ended => ?_) s rfl
    (R := fun _ => (o.remark s.mark).Past)
  refine .bind (Q := fun before s' => s' = s ∧ before = s.taken) ?_ fun before => .fact ?_
  · rintro _ rfl
    exact ⟨rfl, rfl⟩
  rintro rfl
  refine .bind (Q := fun _ => (o.remark s.mark).Past) ?_ fun _ => .get fun s₁ => ?_
  · rintro _ rfl
    exact (declarationOrStatement_moves hself h).advances _ hle _ ⟨hs.remark, hkind⟩
  refine .when (M := (o.remark s.mark).Past) (fun _ => synchronize_does.pre fun s hs => hs.1)
    (fun _ s hs => hs.1) ?_
  refine .bind (Q := fun taken s' => (o.remark s.mark).Past s' ∧ taken = s'.taken) (.reads fun _ => rfl)
    fun taken => (Does.demand ?_).post fun _ s hs => hs.1
  rintro s' ⟨⟨hs', hlt⟩, rfl⟩
  have htotal := hs.total
  have htotal' : s'.taken + s'.rest.length = o.total := hs'.total
  have hlt' : s'.rest.length < s.rest.length := hlt
  exact .inr (by omega)

end ScriptMachine.Compiler
