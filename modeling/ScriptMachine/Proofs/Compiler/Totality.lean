import ScriptMachine.Proofs.Compiler.Clauses
import ScriptMachine.Proofs.Tokens.Stream

/-!
# ScriptMachine.Proofs.Compiler.Totality — the compiler comes to its end, whatever the text

The productions are put together. A goal is nested at most two deep before a token is consumed, and
every pass of a loop consumes one, so no budget runs out. The script ends as it started: not broken,
in no function, class, scope, loop or handler but its own.

`goal_delivers` is the induction, over the depth that is left: with depth enough for the tokens that are
left, every goal does what its production promises. Goals go at most two deep without a token, so two
levels of depth for each token are enough. That each pass of a loop consumes a token, or ends it, is
shown production by production in the modules before, together with the stance it leaves.

`compile_settles` states the result for any text without an assumption: the compiler comes to its end
unbroken, at the mark of the end, with everything closed that was opened, and the answer is code if and
only if no error was recorded. Whether that code is any good is no part of it: that is shown of accepted
texts alone, by triples that a recorded error satisfies trivially, while here errors do not matter.

How long compiling takes is not claimed either. The budget bounds the number of goals and passes, not the
work in one of them, such as looking a name up.
-/

namespace ScriptMachine.Compiler

variable {o : Stance} {s : State} {n : Nat}

/-- The note that a statement begins keeps any stance. -/
@[grind ←]
theorem beginStatement_steady : Steady n beginStatement :=
  modifyFunction_steady fun _ _ h => { h with }

/-- **`goal_delivers`** — with depth enough for the tokens that are left, every goal does what its
production promises. -/
theorem goal_delivers (depth : Nat) : ∀ n,
    (2 * n + 1 ≤ depth → Expresses (goal depth) n) ∧ (2 * n + 2 ≤ depth → Delivers (goal depth) n) := by
  induction depth with
  | zero => exact fun n => ⟨fun h => absurd h (by omega), fun h => absurd h (by omega)⟩
  | succ depth ih =>
    intro n
    have hnested : 2 * n + 1 ≤ depth + 1 → ∀ k < n, Delivers (goal depth) k := fun h k hk =>
      (ih k).2 (by omega)
    have hexpresses : 2 * n + 1 ≤ depth + 1 → Expresses (goal (depth + 1)) n := fun h =>
      ⟨expressionAtLeast_steady (hnested h), expressionAtLeast_advances (hnested h)⟩
    refine ⟨hexpresses, fun h => ?_⟩
    have hself : Expresses (goal depth) n := (ih n).1 (by omega)
    have hbelow := hnested (by omega)
    refine { hexpresses (by omega) with statement := ?_, declaration := ?_ }
    · exact .bind beginStatement_steady fun _ => (statement_moves hself hbelow).steady
    · intro o ho
      refine .bind (Q := fun _ s => o.At s ∧ s.current.kind ≠ .endOfText) ?_ fun _ =>
        declaration_advances hself hbelow o ho
      exact fun s hs => ⟨beginStatement_steady.keep s hs.1, hs.2⟩

/-! ## The script -/

/-- How the compiler stands before the first token, and after the last one. -/
def Stance.script (total : Nat) (mark : Mark) : Stance :=
  { inner := ⟨.script, 0, 0, 0, none, 0, []⟩, outer := [], classes := 0, total, mark }

/-- The text of a string token is a quoted one, which is what its literal relies on. -/
theorem quoted_of_mem_tokenize {source : String} : ∀ t ∈ (tokenize source).toList, Token.Quoted t := by
  rw [Lexer.toList_tokenize]
  refine Lexer.forall_stream (fun _ _ h => by cases h) (fun offset line c cs t ht hkind => ?_) 0 1 _
  cases hpiece : (Lexer.piece c cs).1 with
  | gap => simp [hpiece, Lexer.tokenOf] at ht
  | token kind =>
    obtain rfl : t = _ := by simpa [hpiece, Lexer.tokenOf] using ht
    obtain ⟨hquote, body, hfront⟩ := Lexer.front_of_string (hpiece.trans (congrArg _ hkind))
    rw [hfront]
    cases body with
    | nil => simp [isQuoted, hquote]
    | cons b body => simp [isQuoted, hquote]

/-- The compiler starts at the beginning of the text, in the script's function. -/
theorem start_at (source path : String) :
    (Stance.script (tokenize source).size (State.start source path).mark).At (State.start source path) := by
  obtain ⟨init, last, htokens, hlast⟩ := Lexer.exists_stream_eq_concat 0 1 source.toList
  rw [← Lexer.toList_tokenize] at htokens
  have hback : (tokenize source).back? = some last := by
    rw [← Array.getLast?_toList, htokens, List.getLast?_concat]
  have hsize : (tokenize source).toList.length = (tokenize source).size := Array.length_toList
  have hmem : last ∈ (tokenize source).toList := by simp [htokens]
  exact {
    whole := by
      show (tokenize source).isEmpty = false
      rw [Array.isEmpty_eq_false_iff, Ne, ← Array.toList_eq_nil_iff, htokens]
      simp
    inner := ⟨rfl, rfl, rfl, rfl, rfl, Nat.zero_le _, by simp [State.start, FunctionState.start],
      by simp [State.start, FunctionState.start], List.nil_prefix⟩
    outer := .nil
    classes := rfl
    total := by simp [State.start, Stance.script]
    budget := by
      show 2 * (tokenize source).toList.length + 2 ≤ 2 * (tokenize source).size + 4
      omega
    last := by simpa [State.start, htokens] using hlast
    quoted := by
      simp only [State.start, hback, Option.getD_some, List.forall_mem_cons]
      exact ⟨quoted_of_mem_tokenize last hmem, quoted_of_mem_tokenize last hmem, quoted_of_mem_tokenize⟩
    docs := Nat.zero_le _
    since := Mark.since_self _ }

/-- At the end of the text. -/
def Stance.Ended (o : Stance) (s : State) : Prop :=
  o.At s ∧ s.current.kind = .endOfText

/-- That the text has ended is not lost by a report. -/
theorem carries_ended : Carries Stance.Ended :=
  fun _ _ _ hs hs' => ⟨hs.trans hs'.1, hs'.2⟩

theorem current_emitReturn (s : State) : (emitReturn s).2.current = s.current := by
  unfold emitReturn
  show ((if s.function.kind = .constructor then _ else _ : Compile Unit) s).2.current = s.current
  split <;> rfl

/-- The script is compiled to the end of its text. -/
theorem script_does {self : Recur} (h : Delivers self n) (ho : o.mark.left ≤ n) :
    Does o.At (script self) fun _ => o.Ended := by
  refine advance_steady.andThen ho fun _ => .bind (loop_does carries_ended (fun o ho => ?_) ho) fun _ => ?_
  · refine .bind check_reads fun ended => .ite (fun hended => .pure fun s hs => ?_) fun hended => ?_
    · exact ⟨hs.1, beq_iff_eq.mp (hs.2.symm.trans hended)⟩
    · refine .bind ((h.declaration o ho).pre fun s hs => ⟨hs.1, fun hkind => hended ?_⟩) fun _ =>
        .pure fun s hs => hs
      exact hs.2.trans (beq_iff_eq.mpr hkind)
  · exact fun s hs => ⟨emitReturn_steady.keep s hs.1, (congrArg Token.kind (current_emitReturn s)).trans hs.2⟩

/-- The state after the last token of a text. -/
def State.final (source path : String) : State :=
  (script (goal (4 * (State.start source path).budget)) (State.start source path)).2

/-- The script is read to its end, since each turn of its loop takes a token or ends it. -/
theorem final_ended (source path : String) :
    (Stance.script (tokenize source).size (State.start source path).mark).Ended
      (State.final source path) := by
  have hdepth : 2 * (tokenize source).size + 2 ≤ 4 * (State.start source path).budget := by
    show 2 * (tokenize source).size + 2 ≤ 4 * (2 * (tokenize source).size + 4)
    omega
  refine script_does ((goal_delivers _ _).2 hdepth) ?_ _ (start_at source path)
  exact Nat.le_of_eq Array.length_toList

/-- With no errors the result is the script's function, which is the last item of the image. -/
theorem finish_of_isEmpty {s : State} (h : s.errors = #[]) : s.finish.1 = .ok ⟨s.image.size⟩ := by
  simp [State.finish, h]

/-- With errors the result is the errors. -/
theorem finish_of_ne_empty {s : State} (h : s.errors ≠ #[]) : s.finish.1 = .error s.errors := by
  simp [State.finish, h]

/-- The result of compiling is settled by the errors that were recorded. -/
theorem compile_fst (heap : Heap) (source path : String) :
    (State.final source path).errors = #[] ∧ (∃ script, (compile heap source path).1 = .ok script) ∨
      (State.final source path).errors ≠ #[] ∧
        (compile heap source path).1 = .error (State.final source path).errors := by
  have hcompile : (compile heap source path).1 =
      (State.final source path).finish.1.map (Ref.relocate
        ((State.final source path).finish.2.load heap.pause).1) :=
    rfl
  rw [hcompile]
  by_cases h : (State.final source path).errors = #[]
  · rw [finish_of_isEmpty h]
    exact .inl ⟨h, _, rfl⟩
  · rw [finish_of_ne_empty h]
    exact .inr ⟨h, rfl⟩

/-- **`compile_settles`** — the compiler comes to the end of every text. Until then nothing is read,
cut out, filled in or taken away out of range, every declaration and every pass of a loop consumes a
token, and no budget runs out, for the state would be broken; every token stands in the text between
its two ends. Functions, classes, scopes, handlers and loops are balanced at the end. The result is a
script if no error was recorded, and otherwise the errors that were. -/
theorem compile_settles (heap : Heap) (source path : String) :
    let s := State.final source path
    s.broken = false ∧ s.current.kind = .endOfText ∧
    (∀ t ∈ (tokenize source).toList, ∃ before after,
      source.toList = before ++ t.text.toList ++ after ∧ t.start = Lexer.byteLength before ∧
        t.stop = t.start + Lexer.byteLength t.text.toList) ∧
    (s.function.kind = .script ∧ s.enclosing = [] ∧ s.classes = [] ∧ s.function.scopeDepth = 0 ∧
      s.function.tryDepth = 0 ∧ s.function.loops = []) ∧
    ((∃ script, (compile heap source path).1 = .ok script) ↔ s.errors = #[]) ∧
    ∀ errors, (compile heap source path).1 = .error errors → errors = s.errors ∧ errors ≠ #[] := by
  intro s
  obtain ⟨hs, hcurrent⟩ : (Stance.script _ _).Ended s := final_ended source path
  have hspans := Lexer.exists_of_mem_stream 0 1 source.toList
  simp only [Nat.zero_add] at hspans
  have hbalanced : s.function.kind = .script ∧ s.enclosing = [] ∧ s.classes = [] ∧
      s.function.scopeDepth = 0 ∧ s.function.tryDepth = 0 ∧ s.function.loops = [] :=
    ⟨hs.inner.kind, List.forall₂_nil_right_iff.mp hs.outer, List.length_eq_zero_iff.mp hs.classes,
      hs.inner.scopes, hs.inner.tries, List.length_eq_zero_iff.mp hs.inner.loops⟩
  refine ⟨hs.whole, hcurrent, hspans, hbalanced, ?_⟩
  rcases compile_fst heap source path with ⟨hempty, script, hok⟩ | ⟨hne, herror⟩
  · refine ⟨⟨fun _ => hempty, fun _ => ⟨script, hok⟩⟩, fun errors herrors => ?_⟩
    rw [hok] at herrors
    cases herrors
  · refine ⟨⟨fun ⟨script, hok⟩ => ?_, fun hempty => absurd hempty hne⟩, fun errors herrors => ?_⟩
    · rw [herror] at hok
      cases hok
    · obtain rfl := Except.error.inj (herror.symm.trans herrors)
      exact ⟨rfl, hne⟩

end ScriptMachine.Compiler
