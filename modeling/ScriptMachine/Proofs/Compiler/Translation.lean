import ScriptMachine.Proofs.Compiler.Statements
import ScriptMachine.Proofs.Compiler.Totality

/-!
# ScriptMachine.Proofs.Compiler.Translation — accepted texts have disciplined code

The productions are put together. A goal is nested at most two deep before a token is consumed, so
the depth that `translate` starts with is never used up while there is no error: every goal does what
its production promises. At the end of an accepted text every function of the image is disciplined.

`goal_serves` is the induction over the depth that is left, with one case for each goal, and
`translate_sound` applies it to the loop over the declarations of a script. What an error leaves behind
is not described: a triple is about runs on which none was recorded, and the only thing that is used of
the others is that an error stays.
-/

namespace ScriptMachine.Compiler

variable {v : View} {vs : List View} {n : Nat} {s : State}

/-- The note of a statement is made where nothing is pending on the stack. -/
theorem beginStatement_spec (hv : v.Settled) :
    Triple (Inv .plain (v :: vs) n) beginStatement fun _ => Inv .plain (v :: vs) n := by
  refine modifyFunction_spec (fun image fs ht => ht.mark_statement ?_) fun _ => rfl
  rw [ht.locals_size, hv.awaiting, hv.level]
  rfl

/-- **`goal_serves`** — with depth enough for the tokens that are left, every goal does what its
production promises. -/
theorem goal_serves (depth : Nat) : ∀ n,
    (∀ {v : View} {vs : List View} (least : Precedence), v.Ready → (v.known → 2 * n + 1 ≤ depth) →
      Triple (Inv .plain (v :: vs) n) (goal depth (.expression least)) fun _ =>
        Inv .plain (v.up 1 :: vs) n) ∧
    Serves (goal depth) n (2 * n + 2 ≤ depth) := by
  induction depth with
  | zero =>
    exact fun n => ⟨fun _ _ _ => .exhausted, fun _ _ _ => .exhausted, fun _ _ => .exhausted,
      fun _ _ _ => .exhausted⟩
  | succ depth ih =>
    intro n
    have hself : ∀ m, Serves (goal depth) m (2 * n + 1 ≤ depth + 1 ∧ m < n) := fun m =>
      (ih m).2.weaken fun hm => by omega
    have hexpression : ∀ {v : View} {vs : List View} (least : Precedence), v.Ready →
        (v.known → 2 * n + 1 ≤ depth + 1) →
        Triple (Inv .plain (v :: vs) n) (goal (depth + 1) (.expression least)) fun _ =>
          Inv .plain (v.up 1 :: vs) n :=
      fun least hv hK => expressionAtLeast_spec hself hv hK
    have hvalues : ServesExpressions (goal depth) n (2 * n + 2 ≤ depth + 1) := fun hv hK =>
      (ih n).1 .assignment hv fun hknown => Nat.le_of_succ_le_succ (hK hknown)
    have hnested : ∀ m, Serves (goal depth) m (2 * n + 2 ≤ depth + 1 ∧ m < n) := fun m =>
      (ih m).2.weaken fun hm => by omega
    refine ⟨hexpression, fun least hv hK => ?_, fun hv hK => ?_, fun hv hroom hK => ?_⟩
    · exact hexpression least hv fun hknown => Nat.le_of_succ_le (hK hknown)
    · exact .bind (beginStatement_spec hv) fun _ => statement_spec hvalues hnested hv hK
    · exact .bind (beginStatement_spec hv) fun _ => declaration_spec hvalues hnested hv hroom hK

/-! ## The script -/

/-- The view of the script before its first declaration. -/
def View.script : View :=
  .initial True

/-- The invariant holds before the first token. -/
theorem start_inv (source path : String) :
    Inv .plain [View.script] (tokenize source).size (State.start source path) where
  calm := rfl
  functions := ⟨(Tracks.initial trivial .script none).start rfl, rfl, trivial⟩
  image := by
    intro k p statements closures hitem
    cases k with
    | zero => cases hitem
    | succ k => simp [State.start] at hitem
  path := ⟨path, rfl⟩
  last := by
    obtain ⟨init, last, htokens, hlast⟩ := Lexer.exists_stream_eq_concat 0 1 source.toList
    rw [← Lexer.toList_tokenize] at htokens
    simpa [State.start, htokens] using hlast
  rest := Nat.le_of_eq (Array.length_toList ..)
  budget := by
    show 2 * (tokenize source).toList.length + 1 ≤ 2 * (tokenize source).size + 4
    rw [Array.length_toList]
    omega

/-- The script's declarations keep it, each with a stack that has settled again. -/
theorem script_spec {self : Recur} {K : Prop} (h : Serves self n K) (hK : K) :
    Triple (Inv .plain [View.script] n) (script self) fun _ s =>
      ∃ k, Inv .closed [(View.script.grow k).up 1] n s := by
  have hv : View.script.Settled := .initial True
  have hroom : View.script.Roomy := fun l hl => by cases hl
  refine .bind advance_spec fun _ => ?_
  refine Triple.pre (P := fun s => ∃ k, Inv .plain [View.script.grow k] n s) ?_ fun s hs => ⟨0, ?_⟩
  · refine .bind (loop_spec ?_) fun _ => .exists_pre fun k => ?_
    · refine .bind atEnd_skip fun _ => .ite (fun _ => .pure fun s hs => hs) fun _ => ?_
      refine .exists_pre fun k => .bind (h.declaration (hv.grow hroom k) hroom fun _ => hK) fun _ => ?_
      refine .pure ?_
      rintro s ⟨j, hs⟩
      rw [View.grow_grow] at hs
      exact ⟨k + j, hs⟩
    · exact (emitReturn_spec (hv.grow hroom k).toReady).post fun _ s hs => ⟨k, hs⟩
  · rwa [View.grow_zero]

/-- The script is disciplined, and everything it refers to is in the image. -/
theorem Inv.script_sound {k : Nat} (h : Inv .closed [(View.script.grow k).up 1] n s) :
    SoundItem s.image s.image.size
      { arity := 0, captureCount := 0, isStatic := false, name := none, path := some s.path,
        chunk := s.function.chunk, docs := s.docs } s.function.statements s.function.closures where
  constants := h.head.constants
  refs := h.head.refs
  name := by simp
  path r hr := by
    obtain rfl := Option.some.inj hr
    exact ⟨h.path.lt, h.path⟩
  disciplined := by
    have hchunk : s.function.finalChunk = s.function.chunk := by
      unfold FunctionState.finalChunk
      rw [show s.function.argsPrologue = none from h.head.prologue]
    have henclosing : s.enclosing = [] := List.length_eq_zero_iff.mp (Nat.succ.inj h.length_functions)
    have hcaptures : s.function.captures = #[] := by
      have hlinks := h.functions.2.1
      rwa [henclosing] at hlinks
    have hdisciplined := h.head.disciplined rfl rfl rfl rfl
    rw [hchunk, hcaptures, show s.function.arity = 0 from h.head.arity] at hdisciplined
    exact hdisciplined

/-- **`translate_sound`** — every function of an accepted text is disciplined, and the script is
one of them. -/
theorem translate_sound {source path : String} {r : Ref} {image : Image}
    (h : translate source path = (.ok r, image)) :
    SoundImage image ∧ ∃ p statements closures,
      image[r.index]? = some (.function p statements closures) ∧ p.arity = 0 ∧ p.captureCount = 0 := by
  let start := State.start source path
  let s := (script (goal (4 * start.budget)) start).2
  have hfinish : s.finish = (.ok r, image) := h
  unfold State.finish at hfinish
  split at hfinish
  · rename_i hempty
    have hclean : s.Clean := Prod.ext (Array.isEmpty_iff.mp hempty) (final_ended source path).1.whole
    have hdepth : 2 * (tokenize source).size + 2 ≤ 4 * start.budget := by
      show 2 * (tokenize source).size + 2 ≤ 4 * (2 * (tokenize source).size + 4)
      omega
    obtain ⟨k, hs⟩ := script_spec (goal_serves (4 * start.budget) _).2 hdepth start
      (fun _ => start_inv source path) hclean
    obtain ⟨hr, rfl⟩ := Prod.mk.inj hfinish
    obtain rfl := Except.ok.inj hr
    refine ⟨hs.image.push fun p statements closures hitem => ?_, _, _, _, Array.getElem?_push_size,
      rfl, rfl⟩
    obtain ⟨rfl, rfl, rfl⟩ := Item.function.inj hitem
    exact hs.script_sound
  · cases (Prod.mk.inj hfinish).1

end ScriptMachine.Compiler
