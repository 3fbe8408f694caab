import ScriptMachine.Proofs.Compiler.Balance

/-!
# ScriptMachine.Proofs.Compiler.Phrases — expressions in any state

Every production of an expression leaves the compiler as it found it, but for the tokens it consumes:
what it opens it closes, on every way through it, with errors or without. The operators after an
operand take two passes for each token at most, one that consumes it and one that ends the right side
it opens, so the budget for them does not run out.

`expressionAtLeast_steady` is the main result, and `Expresses` is what it assumes of nested goals. The
productions come before it in the order in which they use each other, each as a composition of steady
steps; where a step opens something, the stance in between says what is open, and the step that closes
it takes the stance back.

The loop over operators is the one place where steadiness alone does not do. `Stance.Awaits` says that
the right sides that are still open have their jumps within the code, `continueWith_does` that an
operator opens one more at most, and `continueExpression_does` counts the passes.
-/

namespace ScriptMachine.Compiler

variable {α β : Type} {o : Stance} {s : State} {n m : Nat} {self : Recur}

/-- **`Expresses goals n`** — what compiling an expression does with at most `n` tokens left. -/
structure Expresses (goals : Recur) (n : Nat) : Prop where
  steady : ∀ p, Steady n (goals (.expression p))
  advances : ∀ p, Advances n (goals (.expression p))

/-- **`Delivers goals n`** — what compiling any goal does with at most `n` tokens left. -/
structure Delivers (goals : Recur) (n : Nat) : Prop extends Expresses goals n where
  statement : Steady n (goals .statement)
  declaration : Advances n (goals .declaration)

@[grind ←]
theorem atLeast_steady (h : Delivers self n) (p : Precedence) : Steady n (self.atLeast p) :=
  h.steady p

@[grind ←]
theorem expression_steady (h : Delivers self n) : Steady n self.expression :=
  h.steady _

@[grind ←]
theorem statement_steady (h : Delivers self n) : Steady n self.statement :=
  h.statement

/-! ## Passes of loops -/

/-- What comes first may take tokens or none; the rest says whether there is another round. -/
@[grind ←]
theorem Consumes.bind {c : Compile α} {f : α → Compile Bool} (hc : Steady n c)
    (hf : ∀ a, Consumes n (f a)) : Consumes n (c >>= f) :=
  fun o ho => .bind (hc o ho) fun a => hf a o ho

@[grind ←]
theorem Consumes.stop : Consumes n (Pure.pure false) :=
  fun _ _ => .pure fun _ hs => ⟨hs, nofun⟩

attribute [grind ←] consumes_accept

/-- An alert that was given in the first part is not taken back in the second. -/
theorem Alerts.bind {c : Compile α} {f : α → Compile β} (hc : Alerts n c)
    (hf : ∀ a, Steady n (f a)) : Alerts n (c >>= f) :=
  fun o ho => .bind (hc o ho) fun a => hf a o.alarmed ho

theorem Alerts.after {c : Compile α} {f : α → Compile β} (hc : Steady n c)
    (hf : ∀ a, Alerts n (f a)) : Alerts n (c >>= f) :=
  fun o ho => .bind (hc o ho) fun a => hf a o ho

@[grind ←]
theorem parseVariable_steady {message : String} : Steady n (parseVariable message) :=
  parseVariable_alerts.steady

/-! ## Expressions -/

@[grind ←]
theorem checkStep_steady : Steady n checkStep :=
  .bind check_steady fun _ => .bind check_steady fun _ => .pure _

@[grind ←]
theorem emitUndo_steady {undo : Operation} : Steady n (emitUndo undo) :=
  .bind emitConstant_steady fun _ => emit_steady

@[grind ←]
theorem compoundAt_steady {canAssign : Bool} : Steady n (compoundAt canAssign) := by
  unfold compoundAt
  refine .ite ?_ (.pure _)
  exact .bind currentKind_steady fun _ => .pure _

/-- The name has been read; an assignment compiles one expression more. -/
@[grind ←]
theorem namedVariable_steady (h : Delivers self n) (name : String) (canAssign : Bool) :
    Steady n (namedVariable self name canAssign) := by
  unfold namedVariable
  refine .bind resolveVariable_steady fun _ => .bind compoundAt_steady fun _ => ?_
  split
  · refine .bind advance_steady fun _ => .bind emit_steady fun _ => ?_
    exact .bind (expression_steady h) fun _ => .bind emit_steady fun _ => emit_steady
  · refine .bind (.pure _) fun _ => .bind check_steady fun _ => .ite ?_ ?_
    · exact .bind advance_steady fun _ => .bind (expression_steady h) fun _ => emit_steady
    · refine .bind checkStep_steady fun _ => .ite ?_ emit_steady
      refine .bind currentKind_steady fun _ => ?_
      split
      refine .bind advance_steady fun _ => .bind emit_steady fun _ => .bind emit_steady fun _ => ?_
      exact .bind emit_steady fun _ => emitUndo_steady

/-- A step is followed by a name, and nothing else is compiled. -/
@[grind ←]
theorem leadingStep_steady : Steady n leadingStep := by
  unfold leadingStep
  refine .bind previousKind_steady fun _ => ?_
  split
  refine .bind expect_steady fun _ => .bind previousText_steady fun _ => ?_
  refine .bind resolveVariable_steady fun _ => .bind emit_steady fun _ => ?_
  refine .bind accept_steady fun _ => .ite ?_ ?_
  · refine .bind expect_steady fun _ => .bind previousText_steady fun _ => ?_
    refine .bind nameConstant_steady fun _ => .bind emit_steady fun _ => ?_
    exact .bind emit_steady fun _ => emit_steady
  · exact .bind emit_steady fun _ => emit_steady

/-- Each argument but the last is followed by a comma. -/
theorem arguments_does (h : Delivers self n) (fuel : Nat) : ∀ (o : Stance) count,
    o.mark.left ≤ n → o.mark.left < fuel →
      Does (fun s => o.At s ∧ s.rest.length = o.mark.left) (argumentList.arguments self fuel count)
        fun _ => o.At := by
  induction fuel with
  | zero => exact fun o count _ hfuel => absurd hfuel (Nat.not_lt_zero _)
  | succ fuel ih =>
    intro o count ho hfuel
    refine .bind (Q := fun before s => o.At s ∧ before + o.mark.left = o.total) ?_ fun before => ?_
    · rintro s ⟨hs, hlength⟩
      exact ⟨hs, hlength ▸ hs.total⟩
    refine .bind (Q := fun _ s => o.At s ∧ before + o.mark.left = o.total)
      (fun s hs => ⟨h.steady _ o ho s hs.1, hs.2⟩) fun _ => ?_
    refine .when (M := fun s => o.At s ∧ before + o.mark.left = o.total)
      (fun _ s hs => ⟨error_steady.keep s hs.1, hs.2⟩) (fun _ s hs => hs) ?_
    refine .bind (Q := fun again s => (o.At s ∧ (again = true → s.rest.length < o.mark.left)) ∧
      before + o.mark.left = o.total)
      (fun s hs => ⟨consumes_accept (by decide) o ho s hs.1, hs.2⟩) fun again => .ite (fun hagain => ?_)
      fun _ => .pure fun s hs => hs.1.1
    rintro s ⟨hs, hbefore⟩
    have hpast := demandProgress_past hbefore s ⟨hs.1, hs.2 hagain⟩
    have hlt := Nat.lt_of_lt_of_le hpast.2 (Nat.le_of_lt_succ hfuel)
    exact hpast.1.trans (ih _ (count + 1) (Nat.le_trans (Nat.le_of_lt hpast.2) ho) hlt _
      ⟨hpast.1.remark, rfl⟩)

/-- A step that starts by reading the state, with the mark where it is made. -/
theorem Steady.here {f : State → Compile α}
    (h : ∀ (o : Stance) s₀, o.At s₀ → o.mark.left = s₀.rest.length → o.mark.left ≤ n →
      Does (fun s => o.At s ∧ s.rest.length = o.mark.left) (f s₀) fun _ => o.At) :
    Steady n (MonadState.get >>= f) := by
  intro o ho s hs
  exact hs.trans (h _ s hs.remark rfl (Nat.le_trans hs.since.left_le ho) s ⟨hs.remark, rfl⟩)

/-- There is one expression after each comma, so each round takes a token. -/
@[grind ←]
theorem argumentList_steady (h : Delivers self n) : Steady n (argumentList self) := by
  refine .here fun o s₀ hs₀ hleft ho => .bind (check_reads (k := .rightParen)) fun b => ?_
  have hclose : ∀ count : Nat, Does o.At
      (do expect .rightParen "Expect ')' after arguments."; return count) fun _ => o.At :=
    fun count => Steady.bind expect_steady (fun _ => .pure _) o ho
  have hfuel : o.mark.left < s₀.budget := by
    have := hs₀.budget
    omega
  dsimp only
  split
  · exact Does.pre (hclose 0) fun s hs => hs.1.1
  · exact .bind ((arguments_does h _ o 0 ho hfuel).pre fun s hs => hs.1) hclose

@[grind ←]
theorem dot_steady (h : Delivers self n) (canAssign : Bool) : Steady n (dot self canAssign) := by
  unfold dot
  refine .bind expect_steady fun _ => .bind previousText_steady fun _ => ?_
  refine .bind nameConstant_steady fun _ => .bind compoundAt_steady fun _ => ?_
  split
  · refine .bind advance_steady fun _ => .bind emit_steady fun _ => ?_
    exact .bind (expression_steady h) fun _ => .bind emit_steady fun _ => emit_steady
  · refine .bind (.pure _) fun _ => .bind check_steady fun _ => .ite ?_ ?_
    · exact .bind advance_steady fun _ => .bind (expression_steady h) fun _ => emit_steady
    · refine .bind accept_steady fun _ => .ite ?_ ?_
      · exact .bind (argumentList_steady h) fun _ => emitCall_steady
      · refine .bind checkStep_steady fun _ => .ite ?_ emit_steady
        refine .bind currentKind_steady fun _ => ?_
        split
        refine .bind advance_steady fun _ => .bind emit_steady fun _ => ?_
        exact .bind emit_steady fun _ => .bind emit_steady fun _ => emitUndo_steady

@[grind ←]
theorem unary_steady (h : Delivers self n) : Steady n (unary self) :=
  .bind previousKind_steady fun _ => .bind (atLeast_steady h _) fun _ => emit_steady

@[grind ←]
theorem binary_steady (h : Delivers self n) : Steady n (binary self) := by
  unfold binary
  refine .bind previousKind_steady fun _ => .bind (atLeast_steady h _) fun _ => ?_
  split
  · exact .bind emit_steady fun _ => .ite emit_steady (.pure _)
  · exact .pure _

@[grind ←]
theorem range_steady (h : Delivers self n) : Steady n (range self) := by
  unfold range
  refine .bind previousKind_steady fun _ => .bind (atLeast_steady h _) fun _ => ?_
  refine .bind acceptAny_steady fun _ => .ite ?_ ?_
  · refine .bind previousKind_steady fun _ => .bind (atLeast_steady h _) fun _ => ?_
    exact .bind (.pure _) fun _ => emit_steady
  · exact .bind emit_steady fun _ => .bind (.pure _) fun _ => emit_steady

@[grind ←]
theorem typeTest_steady : Steady n typeTest := by
  unfold typeTest
  refine .bind accept_steady fun _ => .bind currentKind_steady fun _ => ?_
  refine .ite ?_ errorAtCurrent_steady
  refine .bind advance_steady fun _ => .bind previousText_steady fun _ => ?_
  exact .bind nameConstant_steady fun _ => emit_steady

@[grind ←]
theorem number_steady : Steady n number := by
  unfold number
  refine .bind .get fun _ => ?_
  split
  · exact emitConstant_steady
  · exact error_steady

@[grind ←]
theorem emitPart_steady (h : Delivers self n) (part : StringPart) :
    Steady n (emitPart self part) := by
  unfold emitPart
  split
  · exact .bind intern_steady fun _ => emitConstant_steady
  · exact namedVariable_steady h _ _

/-- A string literal has its marks, which its body is between. -/
theorem string_does (h : Delivers self n) (ho : o.mark.left ≤ n) :
    Does (fun s => o.At s ∧ s.previous.kind = .string) (string self) fun _ => o.At := by
  refine .bind (Q := fun text s => o.At s ∧ isQuoted text.toList = true) ?_ fun text => ?_
  · rintro s ⟨hs, hkind⟩
    exact ⟨hs, hs.quoted s.previous (by simp) hkind⟩
  refine .bind (.demand fun s hs => hs.2) fun _ => Does.pre (P := o.At) ?_ fun s hs => hs.1
  refine Steady.keep (.mono ?_ ho)
  grind

@[grind ←]
theorem listLiteral_steady (h : Delivers self n) : Steady n (listLiteral self) := by
  refine .bind emit_steady fun _ => .bind (loop_steady ?_) fun _ => expect_steady
  refine .bind check_steady fun _ => .bind atEnd_steady fun _ => ?_
  split
  · exact .stop
  · exact .bind (expression_steady h) fun _ => .bind emit_steady fun _ => consumes_accept (by decide)

@[grind ←]
theorem dictLiteral_steady (h : Delivers self n) : Steady n (dictLiteral self) := by
  refine .bind emit_steady fun _ => .bind (loop_steady ?_) fun _ => expect_steady
  refine .bind check_steady fun _ => .bind atEnd_steady fun _ => ?_
  split
  · exact .stop
  · refine .bind (atLeast_steady h _) fun _ => .bind expect_steady fun _ => ?_
    refine .bind (expression_steady h) fun _ => .bind emit_steady fun _ => ?_
    exact consumes_accept (by decide)

@[grind ←]
theorem literal_steady : Steady n literal := by
  unfold literal
  refine .bind previousKind_steady fun _ => ?_
  split
  · exact emit_steady
  · exact emit_steady
  · exact emit_steady

/-! ## Functions -/

/-- A steady step and what follows it. -/
theorem Steady.andThen {c : Compile α} {f : α → Compile β} {Q : β → State → Prop} (hc : Steady n c)
    (ho : o.mark.left ≤ n) (hf : ∀ a, Does o.At (f a) Q) : Does o.At (c >>= f) Q :=
  .bind (hc o ho) hf

/-- A loop over what stands before a closing mark: each pass starts before it and before the end of
the text. -/
theorem untilClosed_consumes {k : TokenKind} {c : Compile Bool}
    (h : ∀ o : Stance, o.mark.left ≤ n →
      Does (fun s => o.At s ∧ s.current.kind ≠ k ∧ s.current.kind ≠ .endOfText) c
        fun again s => o.At s ∧ (again = true → s.rest.length < o.mark.left)) :
    Consumes n (do
      if (← check k) || (← atEnd) then return false
      c) := by
  refine fun o ho => .bind check_reads fun closed => .bind check_reads fun ended => ?_
  refine .ite (fun _ => .pure fun s hs => ⟨hs.1.1, nofun⟩) fun hopen => (h o ho).pre fun s hs => ?_
  obtain ⟨⟨hs, rfl⟩, rfl⟩ := hs
  simpa [hs] using hopen

@[grind ←]
theorem block_steady (h : Delivers self n) : Steady n (block self) := by
  refine .bind (loop_steady (untilClosed_consumes fun o ho => ?_)) fun _ => expect_steady
  refine .bind ((h.declaration o ho).pre fun s hs => ⟨hs.1, hs.2.2⟩) fun _ => .pure fun s hs => ?_
  exact ⟨hs.1, fun _ => hs.2⟩

/-- The parameters are read until there is no comma. -/
@[grind ←]
theorem parameters_steady : Steady n parameters := by
  have hcount : Steady n (modifyFunction fun fs => { fs with arity := fs.arity + 1 }) :=
    modifyFunction_steady fun _ _ h => { h with }
  have hpass : Consumes n (do
      modifyFunction fun fs => { fs with arity := fs.arity + 1 }
      if maxArguments < (← get).function.arity then
        errorAtCurrent "Cannot have more than 255 parameters."
      defineVariable (← parseVariable "Expect parameter name.")
      accept .comma) := by
    grind
  exact .bind check_steady fun b => by
    cases b
    · exact loop_steady hpass
    · exact .pure _

/-- A function is left as it was entered, and the function around it goes on. -/
@[grind ←]
theorem functionBody_steady (h : Delivers self n) (kind : FunctionKind) (name : String) :
    Steady n (functionBody self kind name) := by
  intro o ho
  refine .bind pushFunction_does fun _ => .bind beginScope_does fun _ => ?_
  refine expect_steady.andThen ho fun _ => parameters_steady.andThen ho fun _ => ?_
  refine expect_steady.andThen ho fun _ => .bind emitArgsPrologue_does fun _ => .ofExists fun k => ?_
  have hend : Does ((o.nested kind).deeper.loading k).At endFunction fun _ => o.At := by
    refine endFunction_does fun k' hk' => ?_
    obtain rfl : k' = k := Option.some.inj hk'.symm
    exact Nat.le_max_right ..
  refine accept_steady.andThen ho fun b => .ite (fun _ => ?_) fun _ => ?_
  · refine accept_steady.andThen ho fun b => ?_
    have hresult : Does ((o.nested kind).deeper.loading k).At
        (do self.expression; let _ ← accept .semicolon; emit .ret; endFunction) fun _ => o.At :=
      (expression_steady h).andThen ho fun _ => accept_steady.andThen ho fun _ =>
        emit_steady.andThen ho fun _ => hend
    split
    · exact hresult
    · exact errorAtCurrent_steady.andThen ho fun _ => hresult
  · exact expect_steady.andThen ho fun _ => (block_steady h).andThen ho fun _ => hend

@[grind ←]
theorem checkSuperclass_steady : Steady n checkSuperclass := by
  unfold checkSuperclass
  refine .bind .get fun _ => ?_
  split
  · exact error_steady
  · exact error_steady
  · exact .pure _

@[grind ←]
theorem superAccess_steady (h : Delivers self n) : Steady n (superAccess self) := by
  unfold superAccess
  refine .bind checkSuperclass_steady fun _ => .bind expect_steady fun _ => ?_
  refine .bind expect_steady fun _ => .bind previousText_steady fun _ => ?_
  refine .bind nameConstant_steady fun _ => .bind (namedVariable_steady h _ _) fun _ => ?_
  refine .bind accept_steady fun _ => .ite ?_ ?_
  · refine .bind (argumentList_steady h) fun _ => .bind (namedVariable_steady h _ _) fun _ => ?_
    exact emitCall_steady
  · exact .bind (namedVariable_steady h _ _) fun _ => emit_steady

@[grind ←]
theorem thisAccess_steady (h : Delivers self n) : Steady n (thisAccess self) := by
  unfold thisAccess
  refine .bind .get fun _ => ?_
  split
  · exact error_steady
  · exact namedVariable_steady h _ _
  · exact .ite error_steady (namedVariable_steady h _ _)

@[grind ←]
theorem spawnCall_steady (h : Delivers self n) : Steady n (spawnCall self) := by
  intro o ho
  refine expect_steady.andThen ho fun _ => previousText_steady.andThen ho fun callee => ?_
  refine .bind pushFunction_does fun _ => .bind beginScope_does fun _ => ?_
  refine (namedVariable_steady h callee false).andThen ho fun _ => expect_steady.andThen ho fun _ => ?_
  refine (argumentList_steady h).andThen ho fun count => emitCall_steady.andThen ho fun _ => ?_
  exact emit_steady.andThen ho fun _ => .bind (endFunction_does nofun) fun _ => emit_steady o ho

@[grind ←]
theorem requireCall_steady (h : Delivers self n) : Steady n (requireCall self) := by
  unfold requireCall
  refine .bind expect_steady fun _ => .bind (argumentList_steady h) fun _ => ?_
  exact .when error_steady fun _ => emit_steady

/-! ## Operators -/

theorem eq_string_of_opening? {k : TokenKind} (hk : opening? k = some .string) : k = .string := by
  unfold opening? at hk
  split at hk <;> simp_all

/-- By the kinds of openings, each put together from its parts. -/
theorem compileOpening_does (h : Delivers self n) (ho : o.mark.left ≤ n) (canAssign : Bool)
    (opening : Opening) :
    Does (fun s => o.At s ∧ opening? s.previous.kind = some opening)
      (compileOpening self canAssign opening) fun _ => o.At := by
  cases opening with
  | string => exact (string_does h ho).pre fun s hs => ⟨hs.1, eq_string_of_opening? hs.2⟩
  | _ =>
    refine Does.pre (P := o.At) (Steady.keep (.mono ?_ ho)) fun s hs => hs.1
    unfold compileOpening
    grind

/-- After a token has been consumed, a step that relies on more than the stance. -/
theorem Does.later {c : Compile α} {R : State → Prop} (ho : o.mark.left ≤ n)
    (h : ∀ k < n, ∀ o : Stance, o.mark.left ≤ k → Does (fun s => o.At s ∧ R s) c fun _ => o.At) :
    Does (fun s => o.Past s ∧ R s) c fun _ => o.Past := by
  rintro s ⟨hs, hr⟩
  have hlt : s.rest.length < n := Nat.lt_of_lt_of_le hs.2 ho
  exact hs.trans (h _ hlt _ (Nat.le_refl _) s ⟨hs.1.remark, hr⟩)

/-- Before the end of the text an operand is a token at least. -/
theorem operand_advances (h : ∀ k < n, Delivers self k) (canAssign : Bool) :
    Advances n (operand self canAssign) := by
  intro o ho
  refine .bind (Q := fun _ => o.Past) ?_ fun _ => .bind previousKind_reads fun kind => ?_
  · rintro s ⟨hs, hkind⟩
    exact ⟨hs.consume.1, hs.consume.2.2 hkind⟩
  · split
    · rename_i opening hopening
      refine .bind (.pre (.later ho fun k hk o ho => ?_) fun s hs => ⟨hs.1, hs.2 ▸ hopening⟩)
        fun _ => .pure fun _ hs => hs
      exact compileOpening_does (h k hk) ho canAssign opening
    · exact .bind ((Steady.beyond fun _ => error_steady).pre fun s hs => hs.1) fun _ => .pure fun _ hs => hs

/-- The mark of the end opens nothing. -/
theorem operand_steady (h : ∀ k < n, Delivers self k) (canAssign : Bool) :
    Steady n (operand self canAssign) := by
  intro o ho s hs
  by_cases hkind : s.current.kind = .endOfText
  · refine Does.bind (Q := fun _ s => o.At s ∧ s.previous.kind = .endOfText) (P := (· = s)) ?_
      (fun _ => .bind previousKind_reads fun kind => ?_) s rfl (R := fun _ => o.At)
    · rintro _ rfl
      exact ⟨hs.consume.1, hs.consume.2.1 ▸ hkind⟩
    · rintro s' ⟨⟨hs', hkind'⟩, rfl⟩
      have hopening : opening? s'.previous.kind = none := by rw [hkind']; rfl
      rw [hopening]
      exact (Steady.bind error_steady fun _ => .pure false) o (Nat.le_refl _) s' hs'
  · exact (operand_advances h canAssign o ho s ⟨hs, hkind⟩).1

/-- By the kinds of continuations, each put together from its parts. -/
@[grind ←]
theorem compileContinuation_steady (h : Delivers self n) (canAssign : Bool) (rule : Continuation) :
    Steady n (compileContinuation self canAssign rule) := by
  unfold compileContinuation
  split
  · exact .bind (argumentList_steady h) fun _ => emitCall_steady
  · refine .bind (expression_steady h) fun _ => .bind expect_steady fun _ => ?_
    refine .bind (.pure _) fun _ => .bind check_steady fun _ => .ite ?_ emit_steady
    exact .bind advance_steady fun _ => .bind (expression_steady h) fun _ => emit_steady
  · exact dot_steady h _
  · exact range_steady h
  · exact binary_steady h
  · exact typeTest_steady
  · exact .pure _
  · exact .pure _

/-- The jumps over the right sides that are still open lie within the code. -/
def Stance.Awaits (o : Stance) (levels : List OpenLevel) (s : State) : Prop :=
  ∃ k, (o.reach k).At s ∧ ∀ l ∈ levels, l.jump + 2 ≤ max o.inner.size k

theorem Stance.At.awaits {levels : List OpenLevel} (h : o.At s)
    (hlevels : ∀ l ∈ levels, l.jump + 2 ≤ o.inner.size) : o.Awaits levels s :=
  ⟨0, h.reached (Nat.zero_le _), fun l hl => Nat.le_trans (hlevels l hl) (Nat.le_max_left ..)⟩

theorem openAnd_does : Does o.At openAnd fun level => (o.reach (level.jump + 2)).At :=
  .bind (emitJump_does rfl) fun _ => .bind emit_steady.keep fun _ => .pure fun _ hs => hs

/-- The branch around the right operand is written by now, and so is its operand. -/
theorem openOr_does : Does o.At openOr fun level => (o.reach (level.jump + 2)).At := by
  refine .bind (emitJump_does rfl) fun toRight => .bind (emitJump_does rfl) fun jump => ?_
  refine .bind (patchJump_does ?_) fun _ => .bind emit_steady.keep fun _ => .pure fun s hs => ?_
  · exact Nat.le_trans (Nat.le_max_right ..) (Nat.le_max_left ..)
  · rw [Stance.reach_reach] at hs
    exact hs.reach_of_le (Nat.le_max_right ..)

/-- A right side that has been opened is awaited, unless it has no operand. -/
theorem enterLevel_does (h : ∀ k < n, Delivers self k) (ho : o.mark.left ≤ n)
    {levels : List OpenLevel} (hlevels : ∀ l ∈ levels, l.jump + 2 ≤ o.inner.size)
    {opening : Compile OpenLevel}
    (hopening : Does o.At opening fun level => (o.reach (level.jump + 2)).At) :
    Does o.At (do some <$> enterLevel self levels (← opening)) fun next s =>
      ∃ levels', next = some levels' ∧ o.Awaits levels' s ∧ levels'.length ≤ levels.length + 1 := by
  refine .bind hopening fun level => .map ?_
  refine (operand_steady h false).andThen ho fun found => .ite (fun _ => ?_) fun _ => ?_
  · refine .pure fun s hs => ⟨level :: levels, rfl, ⟨_, hs, ?_⟩, Nat.le_refl _⟩
    refine List.forall_mem_cons.mpr ⟨Nat.le_max_right .., fun l hl => ?_⟩
    exact Nat.le_trans (hlevels l hl) (Nat.le_max_left ..)
  · refine .bind (patchJump_does (Nat.le_max_right ..)) fun _ => .pure fun s hs => ?_
    exact ⟨levels, rfl, hs.of_reach.awaits hlevels, Nat.le_succ _⟩

theorem Stance.Awaits.trans {levels : List OpenLevel} {s' : State} (h : o.At s)
    (h' : (o.remark s.mark).Awaits levels s') : o.Awaits levels s' :=
  h'.imp fun _ hk => ⟨{ hk.1 with since := h.since.trans hk.1.since }, hk.2⟩

/-- What an operator does with the open right sides: there is at most one more of them. -/
theorem continueWith_does (h : ∀ k ≤ n, Delivers self k) (ho : o.mark.left ≤ n)
    {levels : List OpenLevel} (hlevels : ∀ l ∈ levels, l.jump + 2 ≤ o.inner.size)
    (canAssign : Bool) (rule : Continuation) :
    Does o.At
      (match rule with
      | .and => do some <$> enterLevel self levels (← openAnd)
      | .or => do some <$> enterLevel self levels (← openOr)
      | rule => do
        compileContinuation self canAssign rule
        return some levels) fun next s =>
      ∃ levels', next = some levels' ∧ o.Awaits levels' s ∧ levels'.length ≤ levels.length + 1 := by
  have hbelow : ∀ k < n, Delivers self k := fun k hk => h k (Nat.le_of_lt hk)
  have hrule : ∀ rule, Does o.At (do compileContinuation self canAssign rule; return some levels)
      fun next s => ∃ levels', next = some levels' ∧ o.Awaits levels' s ∧
        levels'.length ≤ levels.length + 1 := fun rule => by
    refine (compileContinuation_steady (h n (Nat.le_refl n)) canAssign rule).andThen ho fun _ => ?_
    exact .pure fun s hs => ⟨levels, rfl, hs.awaits hlevels, Nat.le_succ _⟩
  cases rule with
  | and => exact enterLevel_does hbelow ho hlevels openAnd_does
  | or => exact enterLevel_does hbelow ho hlevels openOr_does
  | _ => exact hrule _

/-- Each time a token has been consumed, or a right side has ended. -/
theorem continueOnce_does (h : ∀ k < n, Delivers self k) (ho : o.mark.left ≤ n)
    {levels : List OpenLevel} (hlevels : ∀ l ∈ levels, l.jump + 2 ≤ o.inner.size)
    (least : Precedence) (canAssign : Bool) :
    Does o.At (continueOnce self least canAssign levels) fun next s =>
      next = none ∧ o.At s ∨ ∃ levels', next = some levels' ∧ o.Awaits levels' s ∧
        (s.rest.length < o.mark.left ∧ levels'.length ≤ levels.length + 1 ∨
          levels'.length < levels.length) := by
  refine .bind currentKind_reads fun kind => ?_
  split
  · rename_i rule _ hrule
    have hkind : kind ≠ .endOfText := by
      rintro rfl
      simp [continuation?] at hrule
    refine .bind ((advance_past hkind).pre fun s hs => ⟨hs.1, hs.2.symm⟩) fun _ => ?_
    rintro s ⟨hs, -⟩
    have hlt : s.rest.length < n := Nat.lt_of_lt_of_le hs.2 ho
    obtain ⟨levels', hnext, hat, hlength⟩ := continueWith_does (o := o.remark s.mark)
      (fun k hk => h k (Nat.lt_of_le_of_lt hk hlt)) (Nat.le_refl _) hlevels _ rule s hs.1.remark
    refine .inr ⟨levels', hnext, .trans hs.1 hat, .inl ⟨?_, hlength⟩⟩
    obtain ⟨k, hat, -⟩ := hat
    exact Nat.lt_of_le_of_lt hat.since.left_le hs.2
  · refine Does.pre (P := o.At) ?_ fun s hs => hs.1
    cases levels with
    | nil => exact .pure fun s hs => .inl ⟨rfl, hs⟩
    | cons level outer =>
      obtain ⟨hlevel, houter⟩ := List.forall_mem_cons.mp hlevels
      refine .bind (patchJump_does hlevel) fun _ => .pure fun s hs => .inr ?_
      exact ⟨outer, rfl, hs.awaits houter, .inr (Nat.lt_succ_self _)⟩

/-- An operator may open a right side, which takes one more pass to end; so two passes for each token,
and one for each open right side, are enough. -/
theorem continueExpression_does (h : ∀ k < n, Delivers self k) (least : Precedence)
    (canAssign : Bool) (fuel : Nat) : ∀ (o : Stance) (levels : List OpenLevel), o.mark.left ≤ n →
      2 * o.mark.left + levels.length < fuel → (∀ l ∈ levels, l.jump + 2 ≤ o.inner.size) →
        Does (fun s => o.At s ∧ s.rest.length = o.mark.left)
          (continueExpression self least canAssign levels fuel) fun _ => o.At := by
  induction fuel with
  | zero => exact fun o levels _ hfuel => absurd hfuel (Nat.not_lt_zero _)
  | succ fuel ih =>
    intro o levels ho hfuel hlevels
    refine .bind (Q := fun before s => o.At s ∧ before + o.mark.left = o.total) ?_ fun before => ?_
    · rintro s ⟨hs, hlength⟩
      exact ⟨hs, hlength ▸ hs.total⟩
    rintro s ⟨hs, hbefore⟩
    refine Does.bind (continueOnce_does h ho hlevels least canAssign) (fun next => ?_) s hs
      (R := fun _ => o.At)
    rintro s (⟨rfl, hs⟩ | ⟨levels', rfl, ⟨k, hat, hjumps⟩, hless⟩)
    · exact hs
    refine Does.bind (P := fun s' => s' = s) (Q := fun taken s' => s' = s ∧ taken = s.taken)
      (by rintro _ rfl; exact ⟨rfl, rfl⟩) (fun taken => .bind (.demand ?_) fun _ => ?_) s rfl
      (R := fun _ => o.At)
    · rintro _ ⟨rfl, rfl⟩
      have := hat.total
      have htotal : (o.reach k).total = o.total := rfl
      omega
    · rintro s ⟨rfl, -⟩
      have hle : s.rest.length ≤ o.mark.left := hat.since.left_le
      refine Stance.At.of_reach (k := k) (hat.trans ?_)
      exact ih ((o.reach k).remark s.mark) levels' (Nat.le_trans hle ho)
        (by show 2 * s.rest.length + levels'.length < fuel; omega) hjumps _ ⟨hat.remark, rfl⟩

/-- The operators after an operand, and the complaint about an assignment to them. -/
theorem continued_steady (h : ∀ k < n, Delivers self k) (least : Precedence) :
    Steady n (do
      continueExpression self least (least.rank ≤ Precedence.assignment.rank) [] (← get).budget
      if least.rank ≤ Precedence.assignment.rank then
        if ← accept .equal then error "Invalid assignment target.") := by
  refine .here fun o s₀ hs₀ hleft ho => ?_
  have hfuel : 2 * o.mark.left + ([] : List OpenLevel).length < s₀.budget := by
    have := hs₀.budget
    rw [List.length_nil]
    omega
  refine .bind (continueExpression_does h least _ _ o [] ho hfuel nofun) fun _ => ?_
  refine Steady.keep ?_
  grind

/-- An expression takes at least one token, even where that token cannot open one. -/
theorem expressionAtLeast_advances (h : ∀ k < n, Delivers self k) (least : Precedence) :
    Advances n (expressionAtLeast self least) := by
  intro o ho
  refine .bind (operand_advances h _ o ho) fun found => .ite (fun _ => ?_) fun _ => .pure fun _ hs => hs
  exact Does.beyond ho fun k hk => continued_steady (fun j hj => h j (Nat.lt_trans hj hk)) _

@[grind ←]
theorem expressionAtLeast_steady (h : ∀ k < n, Delivers self k) (least : Precedence) :
    Steady n (expressionAtLeast self least) := by
  refine .bind (operand_steady h _) fun found => ?_
  split
  · exact continued_steady h _
  · exact .pure _

end ScriptMachine.Compiler
