import Mathlib
import ScriptMachine.Compiler
import ScriptMachine.Proofs.Code.Encoding

/-!
# ScriptMachine.Proofs.Compiler.Stance — what every step finds and leaves, errors or not

The compiler goes on after an error, so what its steps rely on has to hold of every text, accepted or
not. A `Stance` says how the compiler stands: of each function being compiled, how many scopes,
handlers and loops are open and how much code there is at least; how many classes there are around;
and how far the tokens had been consumed at some earlier point, the mark. `o.At s` says that the
state `s` stands like that, that it is not broken, and that its tokens still end with the mark of the
end.

Nearly every step is *steady*: it leads from a stance back to the same stance, whatever tokens it
consumes. The few that are not come in pairs, and a production closes what it opens.

`Does P c Q` is plain partial correctness, for every state and not only for those without errors, and
comes with the same rules as the triples of accepted texts. `Steady` is the special case that nearly all
steps are in, and has rules of its own for putting steps together, so that a production that only calls
steady steps needs no stance at all.

Loops are where progress is needed. `Advances`, `Consumes` and `Alerts` are the three ways to make
some: a token is consumed, a token is consumed if the answer is yes, an error is recorded unless a token
is consumed. `loop_does` turns them into the end of the loop before its budget does.
-/

namespace ScriptMachine.Compiler

/-! ## Steps in any state -/

section Does

variable {α β : Type} {P P' : State → Prop} {Q Q' : α → State → Prop} {R : β → State → Prop}
  {c d : Compile α} {f : α → Compile β}

/-- **`Does P c Q`** — from a state in which `P` holds, `c` leads to one in which `Q` holds. -/
def Does (P : State → Prop) (c : Compile α) (Q : α → State → Prop) : Prop :=
  ∀ s, P s → Q (c s).1 (c s).2

namespace Does

theorem pre (h : Does P c Q) (hP : ∀ s, P' s → P s) : Does P' c Q :=
  fun s hs => h s (hP s hs)

theorem post (h : Does P c Q) (hQ : ∀ a s, Q a s → Q' a s) : Does P c Q' :=
  fun s hs => hQ _ _ (h s hs)

theorem pure {a : α} (h : ∀ s, P s → Q a s) : Does P (Pure.pure a) Q :=
  h

theorem bind (h : Does P c Q) (hf : ∀ a, Does (Q a) (f a) R) : Does P (c >>= f) R :=
  fun s hs => hf _ _ (h s hs)

theorem map {g : α → β} (h : Does P c fun a => R (g a)) : Does P (g <$> c) R :=
  h

theorem and {Q' : α → State → Prop} (h : Does P c Q) (h' : Does P c Q') :
    Does P c fun a s => Q a s ∧ Q' a s :=
  fun s hs => ⟨h s hs, h' s hs⟩

/-- What is known whatever the state. -/
theorem fact {p : Prop} (h : p → Does P c Q) : Does (fun s => P s ∧ p) c Q :=
  fun s hs => h hs.2 s hs.1

theorem ite {p : Prop} [Decidable p] (h : p → Does P c Q) (h' : ¬ p → Does P d Q) :
    Does P (if p then c else d) Q := by
  split
  · exact h ‹_›
  · exact h' ‹_›

/-- A step that is made under a condition, and what follows it either way. -/
theorem when {p : Prop} [Decidable p] {M : State → Prop} {c : Compile PUnit}
    {f : PUnit → Compile β} (h : p → Does P c fun _ => M) (h' : ¬ p → ∀ s, P s → M s)
    (hf : Does M (f ⟨⟩) R) : Does P (if p then c >>= f else f ⟨⟩) R :=
  ite (fun hp => bind (h hp) fun _ => hf) fun hp => hf.pre (h' hp)

/-- Reading the state: what is read is the state itself. -/
theorem get {f : State → Compile β} (h : ∀ s₀, Does (fun s => P s ∧ s = s₀) (f s₀) R) :
    Does P (get >>= f) R :=
  fun s hs => h s s ⟨hs, rfl⟩

/-- A step that only reads. -/
theorem reads {g : State → α} (h : ∀ s, c s = (g s, s)) : Does P c fun a s => P s ∧ a = g s := by
  intro s hs
  rw [h s]
  exact ⟨hs, rfl⟩

/-- A step that does the same for every value that the state may have settled. -/
theorem ofExists {ι : Sort*} {P : ι → State → Prop} (h : ∀ i, Does (P i) c Q) :
    Does (fun s => ∃ i, P i s) c Q :=
  fun s ⟨i, hs⟩ => h i s hs

theorem modify {g : State → State} {Q : Unit → State → Prop} (h : ∀ s, P s → Q () (g s)) :
    Does P (modify g) Q :=
  h

/-- What a step relies on is there. -/
theorem demand {p : Prop} [Decidable p] (hp : ∀ s, P s → p) : Does P (demand p) fun _ => P := by
  intro s hs
  have hsame : Compiler.demand p s = ((), { s with broken := s.broken || !decide p }) := rfl
  rw [hsame]
  simpa [hp s hs] using hs

theorem forM {ι : Type} {g : ι → Compile PUnit} {l : List ι}
    (h : ∀ x ∈ l, Does P (g x) fun _ => P) : Does P (l.forM g) fun _ => P := by
  induction l with
  | nil => exact pure fun _ hs => hs
  | cons x l ih =>
    exact bind (h x List.mem_cons_self) fun _ => ih fun y hy => h y (List.mem_cons_of_mem x hy)

end Does

end Does

/-! ## Stances -/

/-- How a function being compiled stands: its kind, its open scopes, handlers and loops, where it
loads its arguments if it does, how much code it has at least, and its first captures. -/
structure Footing where
  kind : FunctionKind
  scopes : Nat
  tries : Nat
  loops : Nat
  prologue : Option Nat
  size : Nat
  captures : List Capture

/-- **`fs.On p`** — the function stands as `p` tells. Jumps that are to be made, or filled in, later
are within its code. -/
structure FunctionState.On (fs : FunctionState) (p : Footing) : Prop where
  kind : fs.kind = p.kind
  scopes : fs.scopeDepth = p.scopes
  tries : fs.tryDepth = p.tries
  loops : fs.loops.length = p.loops
  prologue : fs.argsPrologue = p.prologue
  size : p.size ≤ fs.chunk.size
  starts : ∀ l ∈ fs.loops, l.start ≤ fs.chunk.size
  breaks : ∀ l ∈ fs.loops, ∀ b ∈ l.breaks, b + 2 ≤ fs.chunk.size
  captures : p.captures <+: fs.captures.toList

/-- A point the tokens have come to: how many are left, which one is current, and whether an error is
being recovered from. -/
structure Mark where
  left : Nat
  token : Token
  panicking : Bool

/-- The point a state has come to. -/
def State.mark (s : State) : Mark :=
  ⟨s.rest.length, s.current, s.panicking⟩

/-- Since the mark a token has been consumed, or the tokens are as they were and an error that was
being recovered from still is. -/
def Mark.Since (m : Mark) (s : State) : Prop :=
  s.rest.length < m.left ∨
    s.rest.length = m.left ∧ s.current = m.token ∧ (m.panicking = true → s.panicking = true)

/-- How the compiler stands: the function being compiled and those around it, how many classes are
around, how many tokens there are in all, and a mark. -/
structure Stance where
  inner : Footing
  outer : List Footing
  classes : Nat
  total : Nat
  mark : Mark

/-- A string token has its marks. -/
def Token.Quoted (t : Token) : Prop :=
  t.kind = .string → isQuoted t.text.toList = true

namespace Stance

/-- **`o.At s`** — the state `s` stands as `o` tells, and is not broken. -/
structure At (o : Stance) (s : State) : Prop where
  whole : s.broken = false
  inner : s.function.On o.inner
  outer : List.Forall₂ FunctionState.On s.enclosing o.outer
  classes : s.classes.length = o.classes
  total : s.taken + s.rest.length = o.total
  budget : 2 * s.rest.length + 2 ≤ s.budget
  last : (s.rest.getLastD s.current).kind = .endOfText
  quoted : ∀ t ∈ s.previous :: s.current :: s.rest, Token.Quoted t
  docs : s.pendingDocs ≤ s.docs.size
  since : o.mark.Since s

/-- The state stands as `o` tells, and a token has been consumed since the mark. -/
def Past (o : Stance) (s : State) : Prop :=
  o.At s ∧ s.rest.length < o.mark.left

/-- The stance with another mark. -/
def remark (o : Stance) (m : Mark) : Stance :=
  { o with mark := m }

/-- The stance with an error recorded at the mark. -/
def alarmed (o : Stance) : Stance :=
  { o with mark := { o.mark with panicking := true } }

/-- The stance with code up to `n` at least. -/
def reach (o : Stance) (n : Nat) : Stance :=
  { o with inner := { o.inner with size := max o.inner.size n } }

/-- The stance in one more scope. -/
def deeper (o : Stance) : Stance :=
  { o with inner := { o.inner with scopes := o.inner.scopes + 1 } }

/-- The stance in one more loop. -/
def looping (o : Stance) : Stance :=
  { o with inner := { o.inner with loops := o.inner.loops + 1 } }

/-- The stance in a statement with a handler. -/
def handling (o : Stance) : Stance :=
  { o with inner := { o.inner with tries := o.inner.tries + 1 } }

/-- The stance in one more class. -/
def classed (o : Stance) : Stance :=
  { o with classes := o.classes + 1 }

/-- The stance at the start of a function nested in the current one. -/
def nested (o : Stance) (kind : FunctionKind) : Stance :=
  { o with inner := ⟨kind, 0, 0, 0, none, 0, []⟩, outer := o.inner :: o.outer }

/-- The stance of a function that loads its arguments at `k`. -/
def loading (o : Stance) (k : Nat) : Stance :=
  { o with inner := { o.inner with prologue := some k, size := max o.inner.size (k + 3) } }

end Stance

variable {α β : Type} {o : Stance} {s s' : State} {n m : Nat} {fs : FunctionState} {p : Footing}

/-! ## Marks -/

theorem Mark.since_self (s : State) : s.mark.Since s :=
  .inr ⟨rfl, rfl, id⟩

/-- Tokens are never given back. -/
theorem Mark.Since.left_le {m : Mark} (h : m.Since s) : s.rest.length ≤ m.left :=
  h.elim Nat.le_of_lt fun h => Nat.le_of_eq h.1

theorem Mark.Since.trans {m : Mark} (h : m.Since s) (h' : s.mark.Since s') : m.Since s' := by
  rcases h' with hlt | ⟨hlength, hcurrent, hpanicking⟩
  · exact .inl (Nat.lt_of_lt_of_le hlt h.left_le)
  · rcases h with hlt | ⟨hlength', hcurrent', hpanicking'⟩
    · exact .inl (hlength.trans_lt hlt)
    · exact .inr ⟨hlength.trans hlength', hcurrent.trans hcurrent', hpanicking ∘ hpanicking'⟩

theorem Stance.At.remark (h : o.At s) : (o.remark s.mark).At s :=
  { h with since := Mark.since_self s }

/-- Where a later mark leads, an earlier one leads as well. -/
theorem Stance.At.trans (h : o.At s) (h' : (o.remark s.mark).At s') : o.At s' :=
  { h' with since := h.since.trans h'.since }

/-- A token that was taken before the later mark has been taken. -/
theorem Stance.Past.trans (h : o.Past s) (h' : (o.remark s.mark).At s') : o.Past s' :=
  ⟨h.1.trans h', Nat.lt_of_le_of_lt h'.since.left_le h.2⟩

/-- And so has one that was taken after it. -/
theorem Stance.At.past (h : o.At s) (h' : (o.remark s.mark).Past s') : o.Past s' :=
  ⟨h.trans h'.1, Nat.lt_of_lt_of_le h'.2 h.since.left_le⟩

/-- Past the mark an error that was recorded there does not matter. -/
theorem Stance.Past.alarmed (h : o.Past s) : o.alarmed.At s :=
  { h.1 with since := .inl h.2 }

/-- Errors do not move the compiler. -/
theorem Stance.At.of_alarmed (h : o.alarmed.At s) : o.At s :=
  { h with since := h.since.imp id fun ⟨hlength, hcurrent, hpanicking⟩ =>
      ⟨hlength, hcurrent, fun _ => hpanicking rfl⟩ }

/-! ## Steady steps -/

/-- **`Steady n c`** — with at most `n` tokens left at the mark, `c` leads from any stance back to it. -/
def Steady (n : Nat) (c : Compile α) : Prop :=
  ∀ o : Stance, o.mark.left ≤ n → Does o.At c fun _ => o.At

/-- **`Advances n c`** — before the end of the text `c` consumes a token. -/
def Advances (n : Nat) (c : Compile α) : Prop :=
  ∀ o : Stance, o.mark.left ≤ n →
    Does (fun s => o.At s ∧ s.current.kind ≠ .endOfText) c fun _ => o.Past

/-- **`Consumes n c`** — when `c` answers `true` it has consumed a token. -/
def Consumes (n : Nat) (c : Compile Bool) : Prop :=
  ∀ o : Stance, o.mark.left ≤ n →
    Does o.At c fun again s => o.At s ∧ (again = true → s.rest.length < o.mark.left)

/-- **`Alerts n c`** — unless `c` has consumed a token, it has recorded an error. -/
def Alerts (n : Nat) (c : Compile α) : Prop :=
  ∀ o : Stance, o.mark.left ≤ n → Does o.At c fun _ => o.alarmed.At

theorem Steady.keep {c : Compile α} (h : Steady o.mark.left c) : Does o.At c fun _ => o.At :=
  h o (Nat.le_refl _)

theorem Steady.mono {c : Compile α} (h : Steady n c) (hm : m ≤ n) : Steady m c :=
  fun o ho => h o (Nat.le_trans ho hm)

@[grind ←]
theorem Steady.pure (a : α) : Steady n (Pure.pure a : Compile α) :=
  fun _ _ => .pure fun _ hs => hs

/-- Steady parts make a steady whole. The second one starts where the first one ended, with no more
tokens left. -/
@[grind ←]
theorem Steady.bind {c : Compile α} {f : α → Compile β} (hc : Steady n c)
    (hf : ∀ a, Steady n (f a)) : Steady n (c >>= f) :=
  fun o ho => .bind (hc o ho) fun a => hf a o ho

/-- One of two steps. -/
theorem Steady.ite {p : Prop} [Decidable p] {c d : Compile α} (hc : Steady n c) (hd : Steady n d) :
    Steady n (if p then c else d) := by
  split
  · exact hc
  · exact hd

/-- One of two steps, and what follows either. -/
theorem Steady.join {p : Prop} [Decidable p] {c d : Compile α} {f : α → Compile β} (hc : Steady n c)
    (hd : Steady n d) (hf : ∀ a, Steady n (f a)) : Steady n (if p then c >>= f else d >>= f) :=
  .ite (.bind hc hf) (.bind hd hf)

/-- A step that is made under a condition, and what follows it either way. -/
theorem Steady.when {p : Prop} [Decidable p] {c : Compile PUnit} {f : PUnit → Compile β}
    (hc : Steady n c) (hf : ∀ u, Steady n (f u)) : Steady n (if p then c >>= f else f ⟨⟩) :=
  .ite (.bind hc hf) (hf ⟨⟩)

@[grind ←]
theorem Steady.map {c : Compile α} (g : α → β) (hc : Steady n c) : Steady n (g <$> c) :=
  fun o ho => .map (hc o ho)

@[grind ←]
theorem Steady.get : Steady n get :=
  fun _ _ _ hs => hs

@[grind ←]
theorem Steady.forM {ι : Type} {g : ι → Compile PUnit} (h : ∀ x, Steady n (g x)) (l : List ι) :
    Steady n (l.forM g) :=
  fun o ho => .forM fun x _ => h x o ho

/-- What changes nothing is steady. -/
theorem Steady.of_reads {c : Compile α} (h : ∀ s, (c s).2 = s) : Steady n c :=
  fun _ _ s hs => (h s).symm ▸ hs

@[grind ←]
theorem Alerts.steady {c : Compile α} (h : Alerts n c) : Steady n c :=
  fun o ho => (h o ho).post fun _ _ hs => hs.of_alarmed

/-- After a token has been consumed, a step is made with fewer tokens left. -/
theorem Does.beyond {c : Compile α} (ho : o.mark.left ≤ n) (h : ∀ k < n, Steady k c) :
    Does o.Past c fun _ => o.Past := by
  intro s hs
  have hlt : s.rest.length < n := Nat.lt_of_lt_of_le hs.2 ho
  exact hs.trans (h _ hlt _ (Nat.le_refl _) s hs.1.remark)

/-- Steps that only concern what is around the mark do the same past it. -/
theorem Steady.beyond {c : Compile α} (h : ∀ k, Steady k c) : Does o.Past c fun _ => o.Past :=
  Does.beyond (Nat.le_refl _) fun k _ => h k

/-! ## Errors and tokens -/

/-- Reporting an error changes the errors at most, and leaves an error to be recovered from. -/
theorem exists_errorAt (s : State) (t : Token) (message : String) :
    ∃ errors, s.errorAt t message = { s with errors, panicking := true } := by
  unfold State.errorAt
  split
  · rename_i hpanicking
    exact ⟨s.errors, by rw [← hpanicking]⟩
  · exact ⟨_, rfl⟩

theorem Stance.At.alarm (h : o.At s) (errors : Array CompileError) :
    o.alarmed.At { s with errors, panicking := true } :=
  { h with since := h.since.imp id fun ⟨hlength, hcurrent, _⟩ => ⟨hlength, hcurrent, fun _ => rfl⟩ }

/-- An error is recorded or has been recorded before; in both cases the compiler is recovering from
then on. -/
theorem errorAt_alerts {place : State → Token} {message : String} :
    Alerts n (modify fun s => s.errorAt (place s) message) := by
  refine fun o _ => .modify fun s hs => ?_
  obtain ⟨errors, heq⟩ := exists_errorAt s (place s) message
  rw [heq]
  exact hs.alarm errors

theorem error_alerts {message : String} : Alerts n (error message) :=
  errorAt_alerts

@[grind ←]
theorem error_steady {message : String} : Steady n (error message) :=
  error_alerts.steady

theorem errorAtCurrent_alerts {message : String} : Alerts n (errorAtCurrent message) :=
  errorAt_alerts

@[grind ←]
theorem errorAtCurrent_steady {message : String} : Steady n (errorAtCurrent message) :=
  errorAtCurrent_alerts.steady

theorem current_errorAtCurrent (message : String) (s : State) :
    (errorAtCurrent message s).2.current = s.current := by
  obtain ⟨errors, heq⟩ := exists_errorAt s s.current message
  show (s.errorAt s.current message).current = s.current
  rw [heq]

/-- What going on in `tokens` does: nothing but tokens, comments and errors change, and the tokens
that are left end with the mark of the end. -/
structure Advanced (s : State) (tokens : List Token) (s' : State) : Prop where
  function : s'.function = s.function
  enclosing : s'.enclosing = s.enclosing
  classes : s'.classes = s.classes
  budget : s'.budget = s.budget
  previous : s'.previous = s.previous
  docs : s.pendingDocs ≤ s.docs.size → s'.broken = s.broken ∧ s'.pendingDocs ≤ s'.docs.size
  total : s'.taken + s'.rest.length = s.taken + tokens.length
  among : ∀ t ∈ s'.current :: s'.rest, t ∈ s.current :: tokens
  stays : tokens = [] → s'.current = s.current ∧ s'.rest = [] ∧ s'.panicking = s.panicking
  moves : ∀ t, tokens ≠ [] → (tokens.getLastD t).kind = .endOfText →
    s'.rest.length < tokens.length ∧ (s'.rest.getLastD s'.current).kind = .endOfText

/-- A token that is passed over, from what is done with those after it. -/
theorem Advanced.pass {t : Token} {rest : List Token} {s₁ : State} (ht : t.kind ≠ .endOfText)
    (h : Advanced s₁ rest s') (hcurrent : s₁.current = t) (htaken : s₁.taken = s.taken + 1)
    (hfunction : s₁.function = s.function) (henclosing : s₁.enclosing = s.enclosing)
    (hclasses : s₁.classes = s.classes) (hbudget : s₁.budget = s.budget)
    (hprevious : s₁.previous = s.previous) (hbroken : s₁.broken = s.broken)
    (hdocs : s.pendingDocs ≤ s.docs.size → s₁.pendingDocs ≤ s₁.docs.size) :
    Advanced s (t :: rest) s' where
  function := h.function.trans hfunction
  enclosing := h.enclosing.trans henclosing
  classes := h.classes.trans hclasses
  budget := h.budget.trans hbudget
  previous := h.previous.trans hprevious
  docs hs := ⟨(h.docs (hdocs hs)).1.trans hbroken, (h.docs (hdocs hs)).2⟩
  total := by
    rw [h.total, htaken, List.length_cons]
    omega
  among u hu := List.mem_cons_of_mem _ (hcurrent ▸ h.among u hu)
  stays hnil := by cases hnil
  moves u _ hlast := by
    rw [List.getLastD_cons] at hlast
    have hrest : rest ≠ [] := by
      rintro rfl
      exact ht hlast
    obtain ⟨hlt, hend⟩ := h.moves t hrest hlast
    exact ⟨Nat.lt_succ_of_lt hlt, hend⟩

/-- By induction on the tokens: errors are reported and documentation is kept, and both are passed
over. -/
theorem advanced_advanceIn (tokens : List Token) (s : State) :
    Advanced s tokens (s.advanceIn tokens) := by
  induction tokens generalizing s with
  | nil =>
    exact ⟨rfl, rfl, rfl, rfl, rfl, fun h => ⟨rfl, h⟩, rfl, fun t ht => ht, fun _ => ⟨rfl, rfl, rfl⟩,
      fun _ h => absurd rfl h⟩
  | cons t rest ih =>
    unfold State.advanceIn
    dsimp only
    split
    · rename_i message hcomplaint
      have ht : t.kind ≠ .endOfText := fun h => by simp [h, TokenKind.complaint?] at hcomplaint
      obtain ⟨errors, heq⟩ := exists_errorAt { s with current := t, taken := s.taken + 1 } t message
      rw [heq]
      exact (ih _).pass ht rfl rfl rfl rfl rfl rfl rfl rfl id
    · split
      · rename_i hdoc
        refine (ih _).pass (by simp [hdoc]) rfl rfl rfl rfl rfl rfl rfl rfl fun h => ?_
        simpa using h
      · have hstop : ∀ u, (List.getLastD (t :: rest) u).kind = .endOfText →
            rest.length < (t :: rest).length ∧ (rest.getLastD t).kind = .endOfText :=
          fun u hu => ⟨Nat.lt_succ_self _, by rwa [List.getLastD_cons] at hu⟩
        have htotal : s.taken + 1 + rest.length = s.taken + (t :: rest).length := by
          rw [List.length_cons]
          omega
        have hamong : ∀ u ∈ t :: rest, u ∈ s.current :: t :: rest :=
          fun u hu => List.mem_cons_of_mem _ hu
        split
        · exact ⟨rfl, rfl, rfl, rfl, rfl, fun h => ⟨rfl, h⟩, htotal, hamong, nofun,
            fun u _ => hstop u⟩
        · refine ⟨rfl, rfl, rfl, rfl, rfl, fun h => ?_, htotal, hamong, nofun, fun u _ => hstop u⟩
          exact ⟨by simp [State.settleDocs, h], Nat.zero_le _⟩

/-- Consuming a token: before the end of the text one less is left. -/
theorem Stance.At.consume (h : o.At s) : o.At (advance s).2 ∧
    (advance s).2.previous = s.current ∧
      (s.current.kind ≠ .endOfText → (advance s).2.rest.length < o.mark.left) := by
  have hadv : Advanced { s with previous := s.current } s.rest (advance s).2 :=
    advanced_advanceIn s.rest _
  have hquoted : ∀ t ∈ (advance s).2.previous :: (advance s).2.current :: (advance s).2.rest,
      Token.Quoted t := by
    intro t ht
    rcases List.mem_cons.mp ht with rfl | ht
    · rw [hadv.previous]
      exact h.quoted _ (by simp)
    · exact h.quoted t (List.mem_cons_of_mem _ (hadv.among t ht))
  obtain ⟨hbroken, hdocs⟩ := hadv.docs h.docs
  -- all of the stance but what concerns the tokens that are left
  have hkeeps (hle : (advance s).2.rest.length ≤ s.rest.length)
      (hlast : ((advance s).2.rest.getLastD (advance s).2.current).kind = .endOfText)
      (hsince : o.mark.Since (advance s).2) : o.At (advance s).2 :=
    { whole := hbroken.trans h.whole
      inner := hadv.function.symm ▸ h.inner
      outer := hadv.enclosing.symm ▸ h.outer
      classes := hadv.classes.symm ▸ h.classes
      total := hadv.total.trans h.total
      budget := by
        have := h.budget
        rw [hadv.budget]
        dsimp only
        omega
      last := hlast
      quoted := hquoted
      docs := hdocs
      since := hsince }
  by_cases hnil : s.rest = []
  · -- the mark of the end is not consumed
    obtain ⟨hcurrent, hrest, hpanicking⟩ := hadv.stays hnil
    have hend : s.current.kind = .endOfText := by
      have := h.last
      rwa [hnil] at this
    have hlast : ((advance s).2.rest.getLastD (advance s).2.current).kind = .endOfText := by
      rw [hrest, hcurrent]
      exact hend
    refine ⟨hkeeps (by simp [hrest]) hlast (h.since.trans ?_), hadv.previous, fun hne => absurd hend hne⟩
    exact .inr ⟨by simp [State.mark, hrest, hnil], hcurrent, fun hp => hpanicking.trans hp⟩
  · obtain ⟨hlt, hlast⟩ := hadv.moves _ hnil h.last
    have hpast : (advance s).2.rest.length < o.mark.left := Nat.lt_of_lt_of_le hlt h.since.left_le
    exact ⟨hkeeps (Nat.le_of_lt hlt) hlast (.inl hpast), hadv.previous, fun _ => hpast⟩

@[grind ←]
theorem advance_steady : Steady n advance :=
  fun _ _ _ hs => hs.consume.1

/-- Consuming a token that is not the mark of the end. -/
theorem advance_past {k : TokenKind} (hk : k ≠ .endOfText) :
    Does (fun s => o.At s ∧ s.current.kind = k) advance fun _ s =>
      o.Past s ∧ s.previous.kind = k := by
  rintro s ⟨hs, hkind⟩
  obtain ⟨hat, hprevious, hpast⟩ := hs.consume
  exact ⟨⟨hat, hpast (hkind ▸ hk)⟩, hprevious ▸ hkind⟩

theorem check_reads {P : State → Prop} {k : TokenKind} :
    Does P (check k) fun b s => P s ∧ b = (s.current.kind == k) :=
  .reads fun _ => rfl

theorem currentKind_reads {P : State → Prop} :
    Does P currentKind fun k s => P s ∧ k = s.current.kind :=
  .reads fun _ => rfl

theorem previousKind_reads {P : State → Prop} :
    Does P previousKind fun k s => P s ∧ k = s.previous.kind :=
  .reads fun _ => rfl

@[grind ←]
theorem check_steady {k : TokenKind} : Steady n (check k) :=
  .of_reads fun _ => rfl

@[grind ←]
theorem atEnd_steady : Steady n atEnd :=
  .of_reads fun _ => rfl

@[grind ←]
theorem currentKind_steady : Steady n currentKind :=
  .of_reads fun _ => rfl

@[grind ←]
theorem previousKind_steady : Steady n previousKind :=
  .of_reads fun _ => rfl

@[grind ←]
theorem previousText_steady : Steady n previousText :=
  .of_reads fun _ => rfl

/-- A token that is accepted is consumed. -/
theorem consumes_accept {k : TokenKind} (hk : k ≠ .endOfText) : Consumes n (accept k) := by
  refine fun o _ => .bind check_reads fun b => .ite (fun hb => ?_) fun _ => ?_
  · refine .bind ((advance_past hk).pre fun s hs => ⟨hs.1, ?_⟩) fun _ =>
      .pure fun s hs => ⟨hs.1.1, fun _ => hs.1.2⟩
    exact beq_iff_eq.mp (hs.2.symm.trans hb)
  · exact .pure fun s hs => ⟨hs.1, nofun⟩

@[grind ←]
theorem accept_steady {k : TokenKind} : Steady n (accept k) :=
  .bind check_steady fun b => by
    cases b
    · exact .pure _
    · exact .bind advance_steady fun _ => .pure _

/-- The end of the text is not among the tokens, so what was accepted was taken. -/
theorem consumes_acceptAny {ks : List TokenKind} (hks : .endOfText ∉ ks) :
    Consumes n (acceptAny ks) := by
  induction ks with
  | nil => exact fun o _ => .pure fun s hs => ⟨hs, nofun⟩
  | cons k ks ih =>
    rw [List.mem_cons, not_or] at hks
    refine fun o ho => .bind (consumes_accept (Ne.symm hks.1) o ho) fun b => .ite (fun hb => ?_) fun _ => ?_
    · exact .pure fun s hs => ⟨hs.1, fun _ => hs.2 hb⟩
    · exact (ih hks.2 o ho).pre fun s hs => hs.1

@[grind ←]
theorem acceptAny_steady {ks : List TokenKind} : Steady n (acceptAny ks) := by
  induction ks with
  | nil => exact .pure _
  | cons k ks ih =>
    refine .bind accept_steady fun b => ?_
    cases b
    · exact ih
    · exact .pure _

/-- A token that is not accepted is left as it is, and everything else too. -/
theorem accept_declines {P : State → Prop} {k : TokenKind} :
    Does P (accept k) fun b s => b = false → P s := by
  refine .bind check_reads fun b => .ite (fun _ => ?_) fun _ => ?_
  · exact .bind (Q := fun _ _ => True) (fun _ _ => trivial) fun _ => .pure fun _ _ => nofun
  · exact .pure fun s hs _ => hs.1

/-- Nothing has changed when none of the tokens was there. -/
theorem acceptAny_declines {P : State → Prop} {ks : List TokenKind} :
    Does P (acceptAny ks) fun b s => b = false → P s := by
  induction ks with
  | nil => exact .pure fun s hs _ => hs
  | cons k ks ih =>
    refine .bind accept_declines fun b => .ite (fun _ => .pure fun _ _ => nofun) fun hb => ?_
    exact ih.pre fun s hs => hs (Bool.eq_false_iff.mpr hb)

/-- Without the token it expects a step complains. -/
theorem expect_alerts {k : TokenKind} (hk : k ≠ .endOfText) {message : String} :
    Alerts n (expect k message) := by
  refine fun o ho => .bind check_reads fun b => .ite (fun hb => ?_) fun _ => ?_
  · refine ((advance_past hk).pre fun s hs => ⟨hs.1, ?_⟩).post fun _ s hs => hs.1.alarmed
    exact beq_iff_eq.mp (hs.2.symm.trans hb)
  · exact (errorAtCurrent_alerts o ho).pre fun s hs => hs.1

@[grind ←]
theorem expect_steady {k : TokenKind} {message : String} : Steady n (expect k message) :=
  .bind check_steady fun b => by
    cases b
    · exact errorAtCurrent_steady
    · exact advance_steady

/-! ## Loops -/

/-- A pass of a loop that goes on has consumed a token, so the demand for it is met. -/
theorem demandProgress_past {before : Nat} (hbefore : before + o.mark.left = o.total) :
    Does o.Past (demandProgress before) fun _ => o.Past := by
  refine .bind (Q := fun taken s => o.Past s ∧ taken = s.taken) (.reads fun _ => rfl) fun taken => ?_
  refine (Does.demand ?_).post fun _ s hs => hs.1
  rintro s ⟨⟨hs, hlt⟩, rfl⟩
  have := hs.total
  omega

/-- A property of the states after a stance that carries over from a later mark to an earlier one. -/
def Carries (E : Stance → State → Prop) : Prop :=
  ∀ o s s', o.At s → E (o.remark s.mark) s' → E o s'

/-- **`loop_does`** — a loop whose passes consume a token each, or end it with `E`, ends with `E`
before its budget does. -/
theorem loop_does {body : Compile Bool} {E : Stance → State → Prop} (hE : Carries E)
    (h : ∀ o : Stance, o.mark.left ≤ n →
      Does o.At body fun again s => if again = true then o.Past s else E o s)
    (ho : o.mark.left ≤ n) : Does o.At (loop body) fun _ => E o := by
  have hpasses : ∀ fuel (o : Stance), o.mark.left ≤ n → o.mark.left < fuel → ∀ s,
      s.rest.length = o.mark.left → o.At s → E o (repeatWhile body fuel s).2 := by
    intro fuel
    induction fuel with
    | zero => exact fun o _ h => absurd h (Nat.not_lt_zero _)
    | succ fuel ih =>
      intro o ho hfuel s hlength hs
      have hbefore : s.taken + o.mark.left = o.total := by rw [← hlength]; exact hs.total
      refine Does.bind (Q := fun before s' => o.At s' ∧ before = s.taken) (P := fun s' => o.At s' ∧ s' = s)
        ?_ (fun before => ?_) s ⟨hs, rfl⟩ (R := fun _ => E o)
      · rintro _ ⟨hs, rfl⟩
        exact ⟨hs, rfl⟩
      refine .bind (Q := fun again s' => (if again = true then o.Past s' else E o s') ∧ before = s.taken)
        (fun s' hs' => ⟨h o ho s' hs'.1, hs'.2⟩) fun again => ?_
      refine .ite (fun hagain => ?_) fun hagain => .pure fun s' hs' => ?_
      · rintro s' ⟨hs', rfl⟩
        rw [if_pos hagain] at hs'
        refine Does.bind (demandProgress_past hbefore) (fun _ s'' hs'' => ?_) s' hs' (R := fun _ => E o)
        refine hE o s'' _ hs''.1 (ih (o.remark s''.mark) ?_ ?_ s'' rfl hs''.1.remark)
        · exact Nat.le_trans (Nat.le_of_lt hs''.2) ho
        · exact Nat.lt_of_lt_of_le hs''.2 (Nat.le_of_lt_succ hfuel)
      · rw [if_neg hagain] at hs'
        exact hs'.1
  intro s hs
  refine hE o s _ hs (hpasses s.budget (o.remark s.mark) ?_ ?_ s rfl hs.remark)
  · exact Nat.le_trans hs.since.left_le ho
  · have := hs.budget
    show s.rest.length < s.budget
    omega

theorem carries_at : Carries Stance.At :=
  fun _ _ _ hs hs' => hs.trans hs'

theorem carries_alarmed : Carries fun o => o.alarmed.At := by
  intro o s s' hs hs'
  have hat := hs.trans hs'.of_alarmed
  refine { hat with since := ?_ }
  rcases hs'.since with hlt | ⟨hlength, hcurrent, hpanicking⟩
  · exact .inl (Nat.lt_of_lt_of_le hlt hs.since.left_le)
  · rcases hs.since with hlt | ⟨hlength', hcurrent', -⟩
    · exact .inl (hlength.trans_lt hlt)
    · exact .inr ⟨hlength.trans hlength', hcurrent.trans hcurrent', hpanicking⟩

/-- A loop whose passes take tokens ends, and leads back to its stance. -/
@[grind ←]
theorem loop_steady {body : Compile Bool} (h : Consumes n body) : Steady n (loop body) := by
  refine fun o ho => loop_does carries_at (fun o ho => (h o ho).post fun again s hs => ?_) ho
  split
  · exact ⟨hs.1, hs.2 ‹_›⟩
  · exact hs.1

end ScriptMachine.Compiler
