import Mathlib
import ScriptMachine.Compiler

/-!
# ScriptMachine.Proofs.Compiler.Triple — reasoning about compilation steps

A text is accepted when no error has been recorded at its end, and an error once recorded stays.
So a step has to be right only as long as there is no error: `Triple P c Q` says that `Q` holds after
`c` unless an error is recorded by then, provided `P` holds before it unless an error was already
recorded. A step that starts with an error on record ends with one: that is what the triple of a
false precondition says, and it comes along with every other triple. A broken state counts as one
with an error; that no text leads to one is shown apart from all this.

The rules follow the way steps are put together: one after the other, under a condition, for each item
of a list, in a loop with a budget. A production is proved by the rules for its shape from the triples
of its steps, and its proof reads like its text. `Triple.exists_pre` introduces what only the
precondition knows of, and `Triple.reads` and `Triple.get` are for steps that look at the state.

Nothing is said of steps that do not come to an end: every step does, since loops have a budget. Running
out of it breaks the state, which a triple excuses, as it does an error.
-/

namespace ScriptMachine.Compiler

/-- What is on record: the errors of the text, and whether the state is broken. -/
def State.record (s : State) : Array CompileError × Bool :=
  (s.errors, s.broken)

/-- No error has been recorded, and the state is not broken. -/
def State.Clean (s : State) : Prop :=
  s.record = (#[], false)

/-- **`Triple P c Q`** — from `P`, if there is no error yet, to `Q`, if there is still none. -/
def Triple {α : Type} (P : State → Prop) (c : Compile α) (Q : α → State → Prop) : Prop :=
  ∀ s, (s.Clean → P s) → (c s).2.Clean → Q (c s).1 (c s).2

/-- A demand that is met changes nothing. -/
theorem demand_of {p : Prop} [Decidable p] (hp : p) (s : State) : demand p s = ((), s) := by
  show ((), { s with broken := s.broken || !decide p }) = ((), s)
  simp [hp]

namespace Triple

variable {α β : Type} {P P' : State → Prop} {Q Q' : α → State → Prop} {R : β → State → Prop}
  {c d : Compile α} {f : α → Compile β}

theorem pre (h : Triple P c Q) (hP : ∀ s, P' s → P s) : Triple P' c Q :=
  fun s hs => h s fun hclean => hP s (hs hclean)

theorem post (h : Triple P c Q) (hQ : ∀ a s, Q a s → Q' a s) : Triple P c Q' :=
  fun s hs hclean => hQ _ _ (h s hs hclean)

theorem pure {a : α} (h : ∀ s, P s → Q a s) : Triple P (Pure.pure a) Q :=
  fun s hs hclean => h s (hs hclean)

theorem bind (h : Triple P c Q) (hf : ∀ a, Triple (Q a) (f a) R) : Triple P (c >>= f) R :=
  fun s hs hclean => hf _ _ (h s hs) hclean

/-- A step whose result has a property in every state. -/
theorem bind_of {p : α → Prop} (hp : ∀ s, p (c s).1) (h : Triple P c Q)
    (hf : ∀ a, p a → Triple (Q a) (f a) R) : Triple P (c >>= f) R :=
  fun s hs hclean => hf _ (hp s) _ (h s hs) hclean

theorem map {g : α → β} (h : Triple P c fun a s => R (g a) s) : Triple P (g <$> c) R :=
  fun s hs hclean => h s hs hclean

theorem ite {p : Prop} [Decidable p] (h : p → Triple P c Q) (h' : ¬ p → Triple P d Q) :
    Triple P (if p then c else d) Q := by
  split
  · exact h ‹_›
  · exact h' ‹_›

/-- A step that is made under a condition, and what follows it either way. -/
theorem when {p : Prop} [Decidable p] {M : State → Prop} {c : Compile PUnit} {f : PUnit → Compile β}
    (h : p → Triple P c fun _ => M) (h' : ¬ p → ∀ s, P s → M s) (hf : Triple M (f ⟨⟩) R) :
    Triple P (if p then c >>= f else f ⟨⟩) R :=
  ite (fun hp => bind (h hp) fun _ => hf) fun hp => hf.pre (h' hp)

/-- An early return: either the guard holds and the rest follows at once, or `c` establishes what
the rest needs. -/
theorem otherwise {p : Prop} [Decidable p] {M : State → Prop} {c : Compile PUnit} {f : PUnit → Compile β}
    (h : ¬ p → Triple P c fun _ => M) (h' : p → ∀ s, P s → M s) (hf : Triple M (f ⟨⟩) R) :
    Triple P (if p then f ⟨⟩ else c >>= f) R :=
  ite (fun hp => hf.pre (h' hp)) fun hp => bind (h hp) fun _ => hf

/-- The precondition may fix something that is not known. -/
theorem exists_pre {ι : Type} [Nonempty ι] {p : ι → State → Prop}
    (h : ∀ i, Triple (p i) c Q) : Triple (fun s => ∃ i, p i s) c Q := by
  intro s hs hclean
  by_cases hclean' : s.Clean
  · obtain ⟨i, hi⟩ := hs hclean'
    exact h i s (fun _ => hi) hclean
  · exact h (Classical.choice ‹Nonempty ι›) s (fun h => (hclean' h).elim) hclean

/-- A step that only changes the state, and records no error. -/
theorem modify {g : State → State} {Q : Unit → State → Prop}
    (hclean : ∀ s, (g s).record = s.record) (h : ∀ s, P s → Q () (g s)) :
    Triple P (modify g) Q :=
  fun s hs hclean' => h s (hs ((hclean s).symm.trans hclean'))

/-- A step that changes the state and has a result, and records no error. -/
theorem modifyGet {g : State → α × State} (hclean : ∀ s, (g s).2.record = s.record)
    (h : ∀ s, P s → Q (g s).1 (g s).2) : Triple P (modifyGet g) Q :=
  fun s hs hclean' => h s (hs ((hclean s).symm.trans hclean'))

/-- A step that only reads. -/
theorem reads {g : State → α} (h : ∀ s, c s = (g s, s)) :
    Triple P c fun a s => P s ∧ a = g s := by
  intro s hs hclean
  rw [h s] at hclean ⊢
  exact ⟨hs hclean, rfl⟩

theorem skip (h : ∀ s, (c s).2 = s) : Triple P c fun _ => P := by
  intro s hs hclean
  rw [h s] at hclean ⊢
  exact hs hclean

/-- Reading the state: what is read is the state itself. -/
theorem get {f : State → Compile β}
    (h : ∀ s₀, Triple (fun s => P s ∧ s = s₀) (f s₀) R) : Triple P (get >>= f) R :=
  bind (Q := fun a s => P s ∧ s = a) (fun _ hs hclean => ⟨hs hclean, rfl⟩) h

/-- A step for each item of a list, with an assertion for what is left of it. -/
theorem forM {ι : Type} {g : ι → Compile PUnit} {I : List ι → State → Prop}
    (h : ∀ x xs, Triple (I (x :: xs)) (g x) fun _ => I xs) :
    ∀ l, Triple (I l) (l.forM g) fun _ => I []
  | [] => pure fun _ hs => hs
  | x :: xs => bind (h x xs) fun _ => forM h xs

/-- What comes after a demand can rely on it: the state is as it was. -/
theorem demand {p : Prop} [Decidable p] : Triple P (demand p) fun _ s => P s ∧ p := by
  intro s hs hclean
  have hbroken : (s.broken || !decide p) = false := congrArg Prod.snd hclean
  have hp : p := by simpa using (Bool.or_eq_false_iff.mp hbroken).2
  rw [demand_of hp] at hclean ⊢
  exact ⟨hs hclean, hp⟩

/-- A demand that is met leaves the state as it is, and one that is not met leaves no state to speak
of. -/
theorem demanded {p : Prop} [Decidable p] : Triple P (Compiler.demand p) fun _ => P :=
  demand.post fun _ _ h => h.1

theorem exhausted {Q : Unit → State → Prop} : Triple P exhausted Q :=
  demand.post fun _ _ h => h.2.elim

theorem tokensTaken : Triple P tokensTaken fun _ => P :=
  skip fun _ => rfl

theorem demandProgress {before : Nat} : Triple P (demandProgress before) fun _ => P :=
  bind tokensTaken fun _ => demanded

/-- A loop, with an assertion that each pass keeps. -/
theorem repeatWhile {b : Compile Bool} {I : State → Prop} {Q : Unit → State → Prop}
    (h : Triple I b fun again s => if again then I s else Q () s) :
    ∀ k, Triple I (repeatWhile b k) Q
  | 0 => exhausted
  | k + 1 =>
    bind tokensTaken fun _ => bind h fun again =>
      match again with
      | true => bind demandProgress fun _ => (repeatWhile h k).pre fun s hs => by simpa using hs
      | false => pure fun s hs => by simpa using hs

/-- The rule of a loop: its body keeps the invariant as long as it asks for another pass, and
establishes the result when it does not. -/
theorem loop {b : Compile Bool} {I : State → Prop} {Q : Unit → State → Prop}
    (h : Triple I b fun again s => if again then I s else Q () s) : Triple I (loop b) Q :=
  bind (skip fun _ => rfl) fun _ => repeatWhile h _

end Triple

end ScriptMachine.Compiler
