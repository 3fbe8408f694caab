import ScriptMachine.Proofs.Compiler.Scopes

/-!
# ScriptMachine.Proofs.Compiler.Expressions — expressions leave one value

Every production of the grammar is compiled with a `Recur` for the goals it contains. `Serves` says
what the productions count on: an expression leaves one value more on the stack, a statement leaves
the view as it is, a declaration adds locals. Here this is shown of the expressions, given that it
holds of the goals they contain.

Goals only nest as deeply as there are tokens. The bound on the tokens that are left, and whatever
follows from it, is part of what the view knows; `K` stands for it.

The specifications are triples over `Inv`, so each says what happens as long as there is no error. An
expression leaves exactly one value more than there was (`View.up`); its operands may be anything that the
grammar allows, and the induction over the grammar is put off: a production is proved from the assumption
`Serves` about the goals it recurs on, with fewer tokens left.

A literal of a collection is the one expression that leaves something unfinished on the stack while its
items are compiled. The view remembers where (`building`), and no item can assign or capture the slot.
-/

namespace ScriptMachine.Compiler

variable {tip : Tip} {v w : View} {vs : List View} {n m k : Nat} {s : State} {self : Recur} {K : Prop}

/-- **`Serves goals n K`** — what compiling a goal does, with at most `n` tokens left and as long as
`K` is known. -/
structure Serves (goals : Recur) (n : Nat) (K : Prop) : Prop where
  expression : ∀ {v : View} {vs : List View} (least : Precedence), v.Ready → (v.known → K) →
    Triple (Inv .plain (v :: vs) n) (goals (.expression least)) fun _ =>
      Inv .plain (v.up 1 :: vs) n
  statement : ∀ {v : View} {vs : List View}, v.Settled → (v.known → K) →
    Triple (Inv .plain (v :: vs) n) (goals .statement) fun _ => Inv .plain (v :: vs) n
  declaration : ∀ {v : View} {vs : List View}, v.Settled → v.Roomy → (v.known → K) →
    Triple (Inv .plain (v :: vs) n) (goals .declaration) fun _ s =>
      ∃ k, Inv .plain (v.grow k :: vs) n s

/-- What serves under a condition serves under a stronger one. -/
theorem Serves.weaken {K' : Prop} (h : Serves self n K) (hK : K' → K) : Serves self n K' where
  expression least hv hknown := h.expression least hv fun hk => hK (hknown hk)
  statement hv hknown := h.statement hv fun hk => hK (hknown hk)
  declaration hv hroom hknown := h.declaration hv hroom fun hk => hK (hknown hk)

theorem Serves.atLeast (h : Serves self n K) (hv : v.Ready) (hK : v.known → K) (p : Precedence) :
    Triple (Inv .plain (v.up k :: vs) n) (self.atLeast p) fun _ =>
      Inv .plain (v.up (k + 1) :: vs) n :=
  h.expression p (hv.up k) hK

/-- An expression leaves one value above those that are there. -/
theorem Serves.value (h : Serves self n K) (hv : v.Ready) (hK : v.known → K) :
    Triple (Inv .plain (v.up k :: vs) n) self.expression fun _ =>
      Inv .plain (v.up (k + 1) :: vs) n :=
  h.atLeast hv hK .assignment

/-- What was found out on the way may be forgotten at the end. -/
theorem Triple.forgetting {α : Type} {P : State → Prop} {c : Compile α} (hv : v.Weaker w)
    (h : Triple P c fun _ => Inv tip (v.up k :: vs) n) : Triple P c fun _ => Inv tip (w.up k :: vs) n :=
  h.post fun _ _ hs => hs.forget hv.up

/-! ## Variables -/

/-- What a step does is undone by the opposite operation. -/
theorem stepOperations_eq (t : TokenKind) :
    stepOperations t = (.inc, .subtract) ∨ stepOperations t = (.dec, .add) := by
  unfold stepOperations
  split
  · exact .inl rfl
  · exact .inr rfl

theorem checkStep_skip {P : State → Prop} : Triple P checkStep fun _ => P :=
  .skip fun _ => rfl

/-- To undo a step takes a one, and leaves as much as there was. -/
theorem emitUndo_spec {undo : Operation} (hundo : undo = .subtract ∨ undo = .add) (hv : v.Ready) :
    Triple (Inv .plain (v.up (k + 1) :: vs) n) (emitUndo undo) fun _ =>
      Inv .plain (v.up (k + 1) :: vs) n := by
  refine .bind (emitNumber_spec hv) fun _ => ?_
  rcases hundo with rfl | rfl
  · exact emit_plain hv rfl (Nat.le_add_left 2 k)
  · exact emit_plain hv rfl (Nat.le_add_left 2 k)

/-- The operation of a compound assignment takes two values and leaves one. -/
theorem compound_spec {t : TokenKind} {op : Operation} (h : compoundOperation? t = some op)
    (hv : v.Ready) :
    Triple (Inv .plain (v.up (k + 2) :: vs) n) (emit op) fun _ =>
      Inv .plain (v.up (k + 1) :: vs) n := by
  have hop : isPlain op = true ∧ (Instruction.make op 0 0).effect = ⟨2, 2, 1⟩ := by
    revert h
    cases t <;> simp only [compoundOperation?, Option.some.injEq, reduceCtorEq, false_implies] <;>
      rintro rfl <;> exact ⟨rfl, rfl⟩
  have hspec : Triple (Inv .plain (v.up (k + 2) :: vs) n) (emit op) _ :=
    emit_plain hv hop.1 (by rw [hop.2]; exact Nat.le_add_left ..)
  rw [hop.2] at hspec
  exact hspec

theorem compoundAt_skip {P : State → Prop} {canAssign : Bool} :
    Triple P (compoundAt canAssign) fun _ => P := by
  cases canAssign
  · exact .pure fun _ hs => hs
  · exact .skip fun _ => rfl

/-- Only the operations of compound assignments are found. -/
theorem compoundAt_some {canAssign : Bool} (s : State) :
    ∀ op ∈ (compoundAt canAssign s).1, ∃ t, compoundOperation? t = some op := by
  intro op hop
  cases canAssign with
  | false => cases hop
  | true => exact ⟨_, hop⟩

/-- A variable is read, assigned, or read and changed; one value is left in each case. -/
theorem namedVariable_spec {name : String} {canAssign : Bool} (h : Serves self n K) (hv : v.Ready)
    (hK : v.known → K) :
    Triple (Inv .plain (v :: vs) n) (namedVariable self name canAssign) fun _ =>
      Inv .plain (v.up 1 :: vs) n := by
  refine .bind_of (resolveVariable_isVariable name) resolveVariable_spec fun a ha => ?_
  have hK' : (v.reach a).known → K := fun hknown => hK hknown.1
  refine .forgetting (v := v.reach a) .reach ?_
  refine .bind_of (p := fun r => ∀ op ∈ r, ∃ t, compoundOperation? t = some op) compoundAt_some
    compoundAt_skip fun r hr => ?_
  cases r with
  | some op =>
    obtain ⟨t, ht⟩ := hr op rfl
    refine .bind advance_spec fun _ => .bind (emitGet_spec (k := 0) ha hv) fun _ => ?_
    refine .bind (h.value hv.reach hK') fun _ => .bind (compound_spec ht hv.reach) fun _ => ?_
    exact emitSet_spec ha hv
  | none =>
    refine .bind (.skip fun _ => rfl) fun _ => .bind check_skip fun _ => ?_
    refine .ite (fun _ => ?_) fun _ => ?_
    · refine .bind advance_spec fun _ => .bind (h.value (k := 0) hv.reach hK') fun _ => ?_
      exact emitSet_spec ha hv
    · refine .bind checkStep_skip fun _ => .ite (fun _ => ?_) fun _ => emitGet_spec (k := 0) ha hv
      refine .bind currentKind_skip fun t => ?_
      rcases stepOperations_eq t with ht | ht <;> rw [ht]
      · refine .bind advance_spec fun _ => .bind (emitGet_spec (k := 0) ha hv) fun _ => ?_
        refine .bind (emit_plain hv.reach rfl (Nat.le_refl _)) fun _ => ?_
        exact .bind (emitSet_spec ha hv) fun _ => emitUndo_spec (k := 0) (.inl rfl) hv.reach
      · refine .bind advance_spec fun _ => .bind (emitGet_spec (k := 0) ha hv) fun _ => ?_
        refine .bind (emit_plain hv.reach rfl (Nat.le_refl _)) fun _ => ?_
        exact .bind (emitSet_spec ha hv) fun _ => emitUndo_spec (k := 0) (.inr rfl) hv.reach

/-- Operations whose only operand is a name. -/
def isNamed : Operation → Bool
  | .getGlobal | .defineGlobal | .defineGlobalForced | .setGlobal | .getProperty
  | .getPropertyNoPop | .setProperty | .getSuper | .classDef | .enumDef => true
  | _ => false

theorem Outline.Ready.name {g : Nat} (hv : v.Ready) : (v.name g).Ready :=
  hv

/-- **`emitNamed_spec`** — an operation on a name that has been looked up. -/
theorem emitNamed_spec {op : Operation} {g : Nat} (hv : v.Ready) (hop : isNamed op = true)
    (hg : v.known → g < 65536 ∧ g ∈ v.names)
    (hk : (Instruction.make op g 0).effect.reads ≤ k) :
    Triple (Inv .plain (v.up k :: vs) n) (emit op g) fun _ =>
      Inv .plain (v.up (k - (Instruction.make op g 0).effect.takes +
        (Instruction.make op g 0).effect.leaves) :: vs) n := by
  refine emit_spec hv ?_ (fun hknown => ⟨?_, ?_, ?_, ?_⟩) hk
  · revert hop
    cases op <;> simp [isNamed] <;> rfl
  · have := hg hknown
    revert hop
    cases op <;> simp_all [isNamed, Instruction.make, Instruction.InRange, Operation.shape]
  · have := hg hknown
    revert hop
    cases op <;> simp_all [isNamed, Instruction.make, Instruction.names]
  · revert hop
    cases op <;> simp [isNamed, Operation.usesSlot]
  · revert hop
    cases op <;> simp [isNamed, Operation.usesCapture]

theorem View.name_known {g : Nat} : (v.name g).known → g < 65536 ∧ g ∈ (v.name g).names :=
  fun hknown => ⟨hknown.2, List.mem_cons_self⟩

/-- A step in front of a variable leaves its new value. -/
theorem leadingStep_spec (hv : v.Ready) :
    Triple (Inv .plain (v :: vs) n) leadingStep fun _ => Inv .plain (v.up 1 :: vs) n := by
  refine .bind previousKind_skip fun t => ?_
  have hstep : isPlain (stepOperations t).1 = true ∧
      (Instruction.make (stepOperations t).1 0 0).effect = ⟨1, 1, 1⟩ := by
    rcases stepOperations_eq t with ht | ht <;> rw [ht] <;> exact ⟨rfl, rfl⟩
  have hemit : ∀ {w : View}, w.Ready → ∀ k, Triple (Inv .plain (w.up (k + 1) :: vs) n)
      (emit (stepOperations t).1) fun _ => Inv .plain (w.up (k + 1) :: vs) n := by
    intro w hw k
    have hspec : Triple (Inv .plain (w.up (k + 1) :: vs) n) (emit (stepOperations t).1) _ :=
      emit_plain hw hstep.1 (by rw [hstep.2]; exact Nat.le_add_left ..)
    rw [hstep.2] at hspec
    exact hspec
  refine .bind expect_spec fun _ => .bind previousText_skip fun name => ?_
  refine .bind_of (resolveVariable_isVariable name) resolveVariable_spec fun a ha => ?_
  refine .bind (emitGet_spec (k := 0) ha hv) fun _ => ?_
  refine .forgetting (v := v.reach a) .reach ?_
  refine .bind accept_spec fun _ => .ite (fun _ => ?_) fun _ => ?_
  · refine .bind expect_spec fun _ => .bind previousText_skip fun property => ?_
    refine .bind nameConstant_spec fun g => ?_
    refine .forgetting (v := (v.reach a).name g) .name ?_
    have hw : ((v.reach a).name g).Ready := hv
    refine .bind (emitNamed_spec hw rfl View.name_known (Nat.le_refl 1)) fun _ => ?_
    exact .bind (hemit hw 1) fun _ => emitNamed_spec hw rfl View.name_known (Nat.le_refl 2)
  · exact .bind (hemit hv.reach 0) fun _ => emitSet_spec ha hv

/-! ## Calls and properties -/

/-- The view with so many arguments on the stack. -/
def View.arguments (v : View) (count : Nat) : View :=
  (v.know (count ≤ maxArguments)).up count

theorem View.arguments_up {i j count : Nat} :
    ((v.up i).arguments count).up j = (v.up (i + j)).arguments count := by
  simp only [View.arguments, View.up, View.atHeight, View.know, Nat.add_assoc, Nat.add_comm count j]

/-- By induction on the fuel: one value for each argument. -/
theorem arguments_spec (h : Serves self n K) (hv : v.Ready) (hK : v.known → K) (fuel : Nat) :
    ∀ count, Triple (Inv .plain (v.arguments count :: vs) n)
      (argumentList.arguments self fuel count) fun c => Inv .plain (v.arguments c :: vs) n := by
  induction fuel with
  | zero => exact fun count => .bind .exhausted fun _ => .pure fun s hs => hs
  | succ fuel ih =>
    intro count
    refine .bind .tokensTaken fun _ =>
      .bind (h.value (v := v.know (count ≤ maxArguments)) hv fun hknown => hK hknown.1) fun _ => ?_
    refine .when (M := Inv .plain (v.arguments (count + 1) :: vs) n) (fun _ => ?_)
      (fun hcount s hs => ?_) ?_
    · exact error_spec.post fun _ _ h => h.elim
    · refine hs.weaken fun _ _ ht => ht.forget (fun _ h => h) (Nat.le_refl _) (fun _ h => h) ?_
      exact fun hknown => ⟨hknown.1, Nat.lt_of_le_of_ne hknown.2 hcount⟩
    · refine .bind accept_spec fun again => .ite (fun _ => ?_) fun _ => ?_
      · exact .bind .demandProgress fun _ => ih (count + 1)
      · exact .pure fun s hs => hs

/-- The count is the number of values that are on the stack for the call. -/
theorem argumentList_spec (h : Serves self n K) (hv : v.Ready) (hK : v.known → K) :
    Triple (Inv .plain (v :: vs) n) (argumentList self) fun c =>
      Inv .plain (v.arguments c :: vs) n := by
  have hafter : ∀ count, Triple (Inv .plain (v.arguments count :: vs) n)
      (do
        expect .rightParen "Expect ')' after arguments."
        return count) fun c => Inv .plain (v.arguments c :: vs) n :=
    fun count => .bind expect_spec fun _ => .pure fun s hs => hs
  have hstart : ∀ s, Inv .plain (v :: vs) n s → Inv .plain (v.arguments 0 :: vs) n s :=
    fun s hs => hs.know (Nat.zero_le _)
  refine .get fun s₀ => .bind check_skip fun b => .ite (fun _ => ?_) fun _ => ?_
  · exact .bind (.pure fun s hs => hstart s hs.1) hafter
  · exact .bind ((arguments_spec h hv hK _ 0).pre fun s hs => hstart s hs.1) hafter

/-- A call with no more arguments than can be passed is written as it is meant. -/
theorem emitCall_eq {op : Operation} {count second : Nat} (h : count ≤ maxArguments) :
    emitCall op count second = emit op count second := by
  rw [emitCall, Nat.min_eq_left h]
  rfl

/-- An operation that takes arguments, counted by its first operand, from the stack. With too many of
them an error has been reported. -/
theorem emitCall_spec {op : Operation} {count second : Nat} (hv : v.Ready)
    (hop : isOrdinary op = true) (h : v.known → count ≤ maxArguments → v.Finds op count second)
    (heffect : (Instruction.make op count second).effect = ⟨count + k, count + k, 1⟩) :
    Triple (Inv .plain ((v.up k).arguments count :: vs) n) (emitCall op count second) fun _ =>
      Inv .plain (v.up 1 :: vs) n := by
  by_cases hfits : count ≤ maxArguments
  case neg => exact fun s hs hclean => absurd (hs hclean).known.2 hfits
  rw [emitCall_eq hfits]
  have hspec : Triple (Inv .plain ((v.know (count ≤ maxArguments)).up (count + k) :: vs) n)
      (emit op count second) _ :=
    emit_spec (v := v.know (count ≤ maxArguments)) hv hop (fun hknown => ?_)
      (Nat.le_of_eq (by rw [heffect]))
  · rw [heffect] at hspec
    refine (hspec.post fun _ s hs => ?_).pre fun s hs => ?_
    · simp only [Nat.sub_self, Nat.zero_add] at hs
      exact hs.forget (View.Weaker.know (v := v)).up
    · have hview : (v.up k).arguments count =
          (v.know (count ≤ maxArguments)).up (count + k) := by
        simp only [View.arguments, View.up, View.atHeight, View.know, Nat.add_assoc,
          Nat.add_comm k count]
      rw [← hview]
      exact hs
  · obtain ⟨hrange, hnames, hslot, hcapture⟩ := h hknown.1 hknown.2
    exact ⟨hrange, hnames, hslot, hcapture⟩

/-- What stands in front of the dot is replaced by the property, by what is assigned to it, or by
the result of the call. -/
theorem dot_spec {canAssign : Bool} (h : Serves self n K) (hv : v.Ready) (hK : v.known → K) :
    Triple (Inv .plain (v.up 1 :: vs) n) (dot self canAssign) fun _ =>
      Inv .plain (v.up 1 :: vs) n := by
  refine .bind expect_spec fun _ => .bind previousText_skip fun name => ?_
  refine .bind nameConstant_spec fun g => ?_
  have hw : (v.name g).Ready := hv
  have hK' : (v.name g).known → K := fun hknown => hK hknown.1
  refine .forgetting (v := v.name g) .name ?_
  refine .bind_of (p := fun r => ∀ op ∈ r, ∃ t, compoundOperation? t = some op) compoundAt_some
    compoundAt_skip fun r hr => ?_
  cases r with
  | some op =>
    -- a compound assignment reads the member first
    obtain ⟨t, ht⟩ := hr op rfl
    refine .bind advance_spec fun _ => ?_
    refine .bind (emitNamed_spec hw rfl View.name_known (Nat.le_refl 1)) fun _ => ?_
    refine .bind (h.value hw hK') fun _ => .bind (compound_spec ht hw) fun _ => ?_
    exact emitNamed_spec hw rfl View.name_known (Nat.le_refl 2)
  | none =>
    -- an assignment, a method call, a step or a plain read
    refine .bind (.skip fun _ => rfl) fun _ => .bind check_skip fun _ => ?_
    refine .ite (fun _ => ?_) fun _ => .bind accept_spec fun _ => .ite (fun _ => ?_) fun _ => ?_
    · refine .bind advance_spec fun _ => .bind (h.value hw hK') fun _ => ?_
      exact emitNamed_spec hw rfl View.name_known (Nat.le_refl 2)
    · refine .bind (argumentList_spec h (hw.up 1) hK') fun count => ?_
      refine emitCall_spec hw rfl (fun hknown hcount => ⟨⟨?_, hknown.2, rfl⟩, ?_, ?_, ?_⟩) rfl
      · exact Nat.lt_of_le_of_lt hcount (by decide)
      · simp [Instruction.make, Instruction.names, View.name]
      · simp [Operation.usesSlot]
      · simp [Operation.usesCapture]
    · refine .bind checkStep_skip fun _ => .ite (fun _ => ?_) fun _ => ?_
      · refine .bind currentKind_skip fun t => ?_
        rcases stepOperations_eq t with ht | ht <;> rw [ht]
        all_goals
          refine .bind advance_spec fun _ => ?_
          refine .bind (emitNamed_spec hw rfl View.name_known (Nat.le_refl 1)) fun _ => ?_
          refine .bind (emit_plain hw rfl (Nat.le_succ 1)) fun _ => ?_
          refine .bind (emitNamed_spec hw rfl View.name_known (Nat.le_refl 2)) fun _ => ?_
        · exact emitUndo_spec (k := 0) (.inl rfl) hw
        · exact emitUndo_spec (k := 0) (.inr rfl) hw
      · exact emitNamed_spec hw rfl View.name_known (Nat.le_refl 1)

/-! ## Operators -/

/-- A prefix operator takes its operand and leaves one value. -/
theorem unary_spec (h : Serves self n K) (hv : v.Ready) (hK : v.known → K) :
    Triple (Inv .plain (v :: vs) n) (unary self) fun _ => Inv .plain (v.up 1 :: vs) n := by
  refine .bind previousKind_skip fun t => .bind (h.atLeast (k := 0) hv hK _) fun _ => ?_
  split
  · exact emit_plain hv rfl (Nat.le_refl 1)
  · exact emit_plain hv rfl (Nat.le_refl 1)

/-- The operation of a binary operator takes two values and leaves one. -/
theorem binaryOperation_spec {t : TokenKind} {op : Operation} {elementwise : Nat} {negated : Bool}
    (h : binaryOperation? t = some (op, elementwise, negated)) (hv : v.Ready) :
    Triple (Inv .plain (v.up 2 :: vs) n) (emit op elementwise) fun _ =>
      Inv .plain (v.up 1 :: vs) n := by
  have hop : isOrdinary op = true ∧ (Instruction.make op elementwise 0).InRange ∧
      (Instruction.make op elementwise 0).names = [] ∧ op.usesSlot = false ∧
      op.usesCapture = false ∧ (Instruction.make op elementwise 0).effect = ⟨2, 2, 1⟩ := by
    revert h
    cases t <;> simp only [binaryOperation?, Option.some.injEq, Prod.mk.injEq, reduceCtorEq,
      false_implies] <;> rintro ⟨rfl, rfl, rfl⟩ <;> decide
  obtain ⟨hordinary, hrange, hnames, hslot, hcapture, heffect⟩ := hop
  have hspec : Triple (Inv .plain (v.up 2 :: vs) n) (emit op elementwise) _ :=
    emit_spec hv hordinary (fun _ => ⟨hrange, by simp [hnames], by simp [hslot],
      by simp [hcapture]⟩) (Nat.le_of_eq (by rw [heffect]))
  rw [heffect] at hspec
  exact hspec

/-- A token that continues an expression as a binary operator has an operation. -/
theorem binaryOperation_of_continuation {t : TokenKind} {p : Precedence}
    (h : continuation? t = some (.binary, p)) : binaryOperation? t ≠ none := by
  revert h
  cases t <;> simp [continuation?, binaryOperation?]

/-- The left operand is there already; the right one is compiled, and the operator leaves one value
for both. -/
theorem binary_spec (h : Serves self n K) (hv : v.Ready) (hK : v.known → K) :
    Triple (fun s => Inv .plain (v.up 1 :: vs) n s ∧
      ∃ p, continuation? s.previous.kind = some (.binary, p)) (binary self) fun _ =>
      Inv .plain (v.up 1 :: vs) n := by
  refine .bind previousKind_spec fun t => ?_
  have hw : (v.know (∃ p, continuation? t = some (.binary, p))).Ready := hv
  refine .bind (Triple.pre (P := Inv .plain (View.up _ 1 :: vs) n)
    (h.atLeast hw (fun hknown => hK hknown.1) _) ?_) fun _ => ?_
  · rintro s ⟨⟨hs, hp⟩, rfl⟩
    exact hs.know hp
  · refine .forgetting (v := v.know (∃ p, continuation? t = some (.binary, p))) .know ?_
    split
    · rename_i op elementwise negated ht
      refine .bind (binaryOperation_spec ht hw) fun _ => .ite (fun _ => ?_) fun _ => ?_
      · exact emit_plain hw rfl (Nat.le_refl 1)
      · exact .pure fun s hs => hs
    · rename_i ht
      refine .pure fun s hs => ?_
      obtain ⟨p, hp⟩ := hs.known.2
      exact absurd ht (binaryOperation_of_continuation hp)

/-- The three ends of a range are on the stack when it is expanded; one that is left out is pushed
as nothing. -/
theorem range_spec (h : Serves self n K) (hv : v.Ready) (hK : v.known → K) :
    Triple (Inv .plain (v.up 1 :: vs) n) (range self) fun _ => Inv .plain (v.up 1 :: vs) n := by
  have hafter : ∀ last : TokenKind, Triple (Inv .plain (v.up 3 :: vs) n)
      (emit .range (if last = .expandEx then 1 else 0)) fun _ => Inv .plain (v.up 1 :: vs) n := by
    intro last
    split
    · exact emit_spec hv rfl (fun _ => ⟨by decide, by simp [Instruction.make, Instruction.names],
        by simp [Operation.usesSlot], by simp [Operation.usesCapture]⟩) (Nat.le_refl 3)
    · exact emit_plain hv rfl (Nat.le_refl 3)
  refine .bind previousKind_skip fun first => .bind (h.atLeast hv hK _) fun _ => ?_
  refine .bind acceptAny_spec fun _ => .ite (fun _ => ?_) fun _ => ?_
  · refine .bind previousKind_skip fun second => .bind (h.atLeast hv hK _) fun _ => ?_
    exact .bind (.pure fun s hs => hs) hafter
  · refine .bind (emit_plain (k := 2) hv rfl (Nat.zero_le _)) fun _ => ?_
    exact .bind (.pure fun s hs => hs) hafter

/-- The name of the type is a constant, so the value tested is the only operand. -/
theorem typeTest_spec (hv : v.Ready) :
    Triple (Inv .plain (v.up 1 :: vs) n) typeTest fun _ => Inv .plain (v.up 1 :: vs) n := by
  refine .bind accept_spec fun negated => .bind currentKind_skip fun t => .ite (fun _ => ?_) fun _ => ?_
  · refine .bind advance_spec fun _ => .bind previousText_skip fun type => ?_
    refine .bind nameConstant_spec fun g => ?_
    refine .forgetting (v := v.name g) .name ?_
    refine emit_spec (k := 1) hv.name rfl (fun hknown => ⟨?_, ?_, ?_, ?_⟩) (Nat.le_refl 1)
    · exact ⟨show (if negated = true then 1 else 0) < 256 by split <;> decide, hknown.2, rfl⟩
    · simp [Instruction.make, Instruction.names, View.name]
    · simp [Operation.usesSlot]
    · simp [Operation.usesCapture]
  · exact errorAtCurrent_spec.post fun _ _ h => h.elim

/-! ## Literals -/

theorem number_spec (hv : v.Ready) :
    Triple (Inv .plain (v :: vs) n) number fun _ => Inv .plain (v.up 1 :: vs) n := by
  refine .get fun s₀ => ?_
  split
  · exact (emitNumber_spec (k := 0) hv).pre fun s hs => hs.1
  · exact (error_spec.pre fun s hs => hs.1).post fun _ _ h => h.elim

theorem emitInterned_spec {text : String} (hv : v.Ready) :
    Triple (Inv .plain (v.up k :: vs) n) (do emitConstant (.obj (← intern text))) fun _ =>
      Inv .plain (v.up (k + 1) :: vs) n :=
  .bind intern_spec fun _ => emitText_spec hv

theorem emitPart_spec (h : Serves self n K) (hv : v.Ready) (hK : v.known → K) (part : StringPart) :
    Triple (Inv .plain (v.up k :: vs) n) (emitPart self part) fun _ =>
      Inv .plain (v.up (k + 1) :: vs) n := by
  cases part with
  | text t => exact emitInterned_spec hv
  | «variable» name => exact namedVariable_spec h (hv.up k) hK

/-- By induction on the parts: one value for each. -/
theorem emitParts_spec (h : Serves self n K) (hv : v.Ready) (hK : v.known → K)
    (parts : List StringPart) : ∀ k, Triple (Inv .plain (v.up k :: vs) n)
      (parts.forM (emitPart self)) fun _ => Inv .plain (v.up (k + parts.length) :: vs) n := by
  induction parts with
  | nil => exact fun k => .pure fun s hs => hs
  | cons part parts ih =>
    intro k
    refine .bind (emitPart_spec h hv hK part) fun _ => (ih (k + 1)).post fun _ s hs => ?_
    rw [List.length_cons, Nat.add_comm parts.length 1, ← Nat.add_assoc]
    exact hs

/-- The text that was read last is a part of its own, unless it is empty. -/
theorem length_closeText (parts : List StringPart) (text : List Char) :
    (closeText parts text).length = parts.length + if text.isEmpty then 0 else 1 := by
  unfold closeText
  split <;> rfl

/-- A text leaves one value: a constant, or its parts joined. -/
theorem string_spec (h : Serves self n K) (hv : v.Ready) (hK : v.known → K) :
    Triple (Inv .plain (v :: vs) n) (string self) fun _ => Inv .plain (v.up 1 :: vs) n := by
  refine .bind previousText_skip fun t => .bind .demanded fun _ => ?_
  dsimp only
  generalize stringPartsFrom [] [] .plain (t.toList.drop 1).dropLast = read
  obtain ⟨parts, text, fault⟩ := read
  dsimp only
  refine .ite (fun _ => emitInterned_spec (k := 0) hv) fun _ => ?_
  refine .bind (emitParts_spec h hv hK parts.reverse 0) fun _ => ?_
  rw [List.length_reverse, Nat.zero_add]
  cases fault with
  | some message => exact error_spec.post fun _ _ h => h.elim
  | none =>
    -- the text after the last variable counts as a part unless it is empty
    have hconcat : Triple (Inv .plain (v.up (closeText parts text).length :: vs) n)
        (if 0xffff < (closeText parts text).length then error "Too many interpolations in string."
          else emit .concat (closeText parts text).length) fun _ =>
        Inv .plain (v.up 1 :: vs) n := by
      refine .ite (fun _ => error_spec.post fun _ _ h => h.elim) fun hlength => ?_
      have hspec : Triple (Inv .plain (v.up (closeText parts text).length :: vs) n)
          (emit .concat (closeText parts text).length) _ :=
        emit_spec hv rfl (fun _ => ⟨⟨show (closeText parts text).length < 65536 by omega, rfl, rfl⟩,
          by simp [Instruction.make, Instruction.names], by simp [Operation.usesSlot],
          by simp [Operation.usesCapture]⟩) (Nat.le_refl _)
      refine hspec.post fun _ s hs => ?_
      simpa [Instruction.make, Instruction.effect] using hs
    rw [length_closeText] at hconcat ⊢
    refine .ite (fun htext => ?_) fun htext => ?_
    · rw [if_pos htext] at hconcat ⊢
      exact hconcat
    · rw [if_neg htext] at hconcat ⊢
      exact .bind (emitPart_spec h hv hK _) fun _ => hconcat

/-- A loop whose passes and end leave the same view. -/
theorem loop_spec {P : State → Prop} {body : Compile Bool} (h : Triple P body fun _ => P) :
    Triple P (loop body) fun _ => P :=
  .loop (h.post fun again s hs => by cases again <;> exact hs)

/-- The view while a literal adds to the collection that it has made. -/
def View.filling (v : View) (c : Collection) : View :=
  { v.up 1 with building := (v.height, c) :: v.building }

/-- While a literal is filled, its collection stands on top and is neither shared nor assigned to. -/
theorem Outline.Ready.filling (hv : v.Ready) (c : Collection) : (v.filling c).Ready where
  receiver := hv.receiver
  height := (hv.up 1).height
  depths := hv.depths
  guards := (hv.up 1).guards
  holes := hv.holes
  building e he := by
    rcases List.mem_cons.mp he with rfl | he
    · exact ⟨hv.values, Nat.lt_succ_self _⟩
    · exact (hv.up 1).building e he
  tries := hv.tries
  lexical := hv.lexical
  loops := hv.loops
  values := (hv.up 1).values

/-- A collection is made, and the literal begins to add to it. -/
theorem emitMake_spec {op : Operation} {c : Collection} (hv : v.Ready) (hop : op.makes = some c) :
    Triple (Inv .plain (v :: vs) n) (emit op) fun _ => Inv .plain (v.filling c :: vs) n := by
  have hops : op = .newList ∨ op = .newDict := by
    revert hop
    cases op <;> simp [Operation.makes]
  have heffect : (Instruction.make op 0 0).effect = ⟨0, 0, 1⟩ := by
    rcases hops with rfl | rfl <;> rfl
  have hordinary : isOrdinary op = true := by
    rcases hops with rfl | rfl <;> rfl
  have hpositive : 0 < v.height := Nat.lt_of_lt_of_le hv.receiver hv.values
  have haccepts : v.Accepts (.make op 0 0) := by
    constructor
    case kept =>
      rw [heffect]
      exact fun e he => (hv.building e he).2
    all_goals
      rcases hops with rfl | rfl <;> simp [Instruction.make, Instruction.names, Instruction.InRange,
        Operation.shape, Operation.usesSlot, Operation.usesCapture, Instruction.effect, hpositive]
  have hshape : op.falls = true ∧ op.isForward = false ∧ op ≠ .closure ∧ op ≠ .spawn := by
    rcases hops with rfl | rfl <;> decide
  refine Triple.post (falling_of ((v.height, c) :: v.building) hv.toUsable hshape.1
    hshape.2.1 hshape.2.2.1 (fun h => absurd h hshape.2.2.2) (fun _ e he => ?_)
    (fun s hs => ⟨hs, haccepts.admits hv.toUsable hordinary hs.head _⟩) (.inl rfl)) fun _ s hs => ?_
  · rw [heffect]
    rcases List.mem_cons.mp he with rfl | he
    · exact .inr ⟨hop, rfl⟩
    · exact .inl ⟨he, (hv.building e he).2⟩
  · rw [heffect] at hs
    exact hs

/-- The topmost values are added to the collection below them. -/
theorem emitFill_spec {op : Operation} {c : Collection} {k : Nat} (hv : v.Ready)
    (hop : op.fills = some c) (heffect : (Instruction.make op 0 0).effect = ⟨k + 1, k, 0⟩) :
    Triple (Inv .plain ((v.filling c).up k :: vs) n) (emit op) fun _ =>
      Inv .plain (v.filling c :: vs) n := by
  have hops : op = .addList ∨ op = .addDict := by
    revert hop
    cases op <;> simp [Operation.fills]
  have hw := (hv.filling c).up k
  have hadmits : ∀ s, Inv .plain ((v.filling c).up k :: vs) n s →
      Admits s.image ((v.filling c).up k) s.function false (.make op 0 0) := by
    intro s hs
    constructor
    case reads =>
      rw [heffect]
      have := hv.receiver
      have := hv.values
      show k + 1 < v.height + 1 + k
      omega
    case taken =>
      intro _ j hj _
      refine hs.head.free_above (Nat.le_trans (hv.filling c).values ?_)
      rw [heffect] at hj
      exact Nat.le_trans (Nat.le_of_eq (Nat.add_sub_cancel ..).symm) hj
    case fills =>
      intro k' hk'
      obtain rfl : c = k' := Option.some.inj (hop.symm.trans hk')
      -- the collection is in the slot right below what is taken
      have hslot : v.height + 1 + k - k - 1 = v.height := by omega
      rw [heffect]
      exact List.mem_cons.mpr (.inl (congrArg (·, c) hslot))
    case held => exact hw.guarded.held hs.head
    case guarded =>
      intro _ h hh
      have := ((hv.up 1).head_guard (h := h) hh).2
      rw [heffect]
      exact Nat.add_le_add_right this k
    case lexical => exact fun _ => hv.lexical.1.symm
    case within => exact hv.guarded.within
    all_goals
      rcases hops with rfl | rfl <;> simp [Instruction.make, Instruction.names, Instruction.InRange,
        Operation.shape, Operation.usesSlot, Operation.usesCapture, Operation.needsFresh]
  have hshape : op.falls = true ∧ op.isForward = false ∧ op ≠ .closure ∧ op ≠ .spawn := by
    rcases hops with rfl | rfl <;> decide
  refine Triple.post (falling_spec hw.toUsable hshape.1 hshape.2.1 hshape.2.2.1
    (fun h => absurd h hshape.2.2.2) (fun _ e he => ?_) (fun s hs => ⟨hs, hadmits s hs⟩) (.inl rfl))
    fun _ s hs => ?_
  · rw [heffect]
    refine Nat.lt_of_lt_of_le ((hv.filling c).building e he).2 ?_
    exact Nat.le_of_eq (Nat.add_sub_cancel ..).symm
  · have hheight : v.height + 1 + k - k + 0 = v.height + 1 := by omega
    rw [heffect] at hs
    have hview : ((v.filling c).up k).atHeight (v.height + 1 + k - k + 0) = v.filling c := by
      rw [hheight]
      rfl
    exact hview ▸ hs

/-- A literal that has been read to its end leaves a value like others. -/
theorem expectClose_spec {k : TokenKind} {message : String} {c : Collection} :
    Triple (Inv .plain (v.filling c :: vs) n) (expect k message) fun _ =>
      Inv .plain (v.up 1 :: vs) n :=
  expect_spec.post fun _ _ hs => hs.weaken fun _ _ ht =>
    ht.release v.building (List.subset_cons_self ..)

/-- The list is made first, and each item goes into it. -/
theorem listLiteral_spec (h : Serves self n K) (hv : v.Ready) (hK : v.known → K) :
    Triple (Inv .plain (v :: vs) n) (listLiteral self) fun _ => Inv .plain (v.up 1 :: vs) n := by
  refine .bind (emitMake_spec (c := .list) hv rfl) fun _ => ?_
  refine .bind (loop_spec ?_) fun _ => expectClose_spec
  refine .bind check_skip fun _ => .bind atEnd_skip fun _ => .ite (fun _ => ?_) fun _ => ?_
  · exact .pure fun s hs => hs
  · refine .bind (h.value (k := 0) (hv.filling .list) hK) fun _ => ?_
    exact .bind (emitFill_spec (k := 1) hv rfl rfl) fun _ => accept_spec

/-- The dictionary is made first, and each entry goes into it. -/
theorem dictLiteral_spec (h : Serves self n K) (hv : v.Ready) (hK : v.known → K) :
    Triple (Inv .plain (v :: vs) n) (dictLiteral self) fun _ => Inv .plain (v.up 1 :: vs) n := by
  refine .bind (emitMake_spec (c := .dict) hv rfl) fun _ => ?_
  refine .bind (loop_spec ?_) fun _ => expectClose_spec
  refine .bind check_skip fun _ => .bind atEnd_skip fun _ => .ite (fun _ => ?_) fun _ => ?_
  · exact .pure fun s hs => hs
  · refine .bind (h.atLeast (k := 0) (hv.filling .dict) hK _) fun _ => .bind expect_spec fun _ => ?_
    refine .bind (h.value (k := 1) (hv.filling .dict) hK) fun _ => ?_
    exact .bind (emitFill_spec (k := 2) hv rfl rfl) fun _ => accept_spec

/-- One of the four values that have a name of their own. -/
theorem literal_spec (hv : v.Ready) :
    Triple (Inv .plain (v :: vs) n) literal fun _ => Inv .plain (v.up 1 :: vs) n := by
  refine .bind previousKind_skip fun t => ?_
  split
  · exact emit_plain (k := 0) hv rfl (Nat.zero_le _)
  · exact emit_plain (k := 0) hv rfl (Nat.zero_le _)
  · exact emit_plain (k := 0) hv rfl (Nat.zero_le _)

/-! ## Functions and classes -/

/-- Declarations in a block add locals. -/
theorem block_spec (h : Serves self n K) (hv : v.Settled) (hroom : v.Roomy) (hK : v.known → K) :
    Triple (Inv .plain (v :: vs) n) (block self) fun _ s =>
      ∃ k, Inv .plain (v.grow k :: vs) n s := by
  refine .bind (Q := fun _ s => ∃ k, Inv .plain (v.grow k :: vs) n s) ?_ fun _ =>
    .exists_pre fun k => expect_spec.post fun _ s hs => ⟨k, hs⟩
  refine Triple.pre (loop_spec (P := fun s => ∃ k, Inv .plain (v.grow k :: vs) n s)
    (.exists_pre fun k => ?_)) fun s hs => ⟨0, by rwa [View.grow_zero]⟩
  refine .bind check_skip fun _ => .bind atEnd_skip fun _ => .ite (fun _ => ?_) fun _ => ?_
  · exact .pure fun s hs => ⟨k, hs⟩
  · refine .bind (h.declaration (hv.grow hroom k) hroom hK) fun _ => .pure ?_
    rintro s ⟨j, hs⟩
    exact ⟨k + j, View.grow_grow ▸ hs⟩

/-- **`functionBody_spec`** — a function leaves its closure; nothing else has a reference to it
unless it captures the slot that it is going to fill. -/
theorem functionBody_spec {kind : FunctionKind} {name : String} (h : Serves self n K)
    (hv : v.Usable) (hpositive : 0 < v.height) (hK : v.known → K)
    (htip : tip = .plain ∨ tip = .fresh ∧ v.env.length ≤ v.height) :
    Triple (Inv .plain (v :: vs) n) (functionBody self kind name) fun _ =>
      Inv tip (v.up 1 :: vs) n := by
  refine .bind pushFunction_spec fun _ => .bind beginScope_spec fun _ => ?_
  refine .bind expect_spec fun _ => .bind parameters_spec fun _ => .exists_pre fun count => ?_
  refine .bind expect_spec fun _ => .bind emitArgsPrologue_spec fun _ => ?_
  obtain ⟨hbody, hroom⟩ := Outline.Settled.body v.known count
  have hend : ∀ k, Triple (Inv .plain ((View.body v.known count).grow k :: v :: vs) n) endFunction
      fun _ => Inv tip (v.up 1 :: vs) n := fun k =>
    endFunction_spec (hbody.grow hroom k).toReady rfl rfl rfl hv hpositive
      (htip.imp_right fun ht => ⟨.inl ht.1, ht.2⟩) (by rcases htip with rfl | ⟨rfl, -⟩ <;> simp)
  refine .bind accept_spec fun _ => .ite (fun _ => ?_) fun _ => ?_
  · refine .bind accept_spec fun _ => .otherwise (fun _ => ?_) (fun _ s hs => hs) ?_
    · exact errorAtCurrent_spec.post fun _ _ h => h.elim
    · refine .bind (h.value (k := 0) hbody.toReady hK) fun _ => .bind accept_spec fun _ => ?_
      refine .bind (emitReturnValue_spec hbody.toReady (View.body v.known count).height) fun _ =>
        (hend 0).pre fun s hs => ?_
      rw [View.grow_zero]
      exact hs
  · refine .bind expect_spec fun _ => .bind (block_spec h hbody hroom hK) fun _ => ?_
    exact .exists_pre hend

/-- Whether `super` is allowed is looked up, and no code is written. -/
theorem checkSuperclass_spec :
    Triple (Inv tip vs n) checkSuperclass fun _ => Inv tip vs n := by
  refine .get fun s₀ => ?_
  split
  · exact (error_spec.pre fun s hs => hs.1).post fun _ _ h => h.elim
  · exact (error_spec.pre fun s hs => hs.1).post fun _ _ h => h.elim
  · exact .pure fun s hs => hs.1

/-- The receiver and the superclass are on the stack when the method is read or called. -/
theorem superAccess_spec (h : Serves self n K) (hv : v.Ready) (hK : v.known → K) :
    Triple (Inv .plain (v :: vs) n) (superAccess self) fun _ => Inv .plain (v.up 1 :: vs) n := by
  refine .bind checkSuperclass_spec fun _ => ?_
  refine .bind expect_spec fun _ => .bind expect_spec fun _ => .bind previousText_skip fun _ => ?_
  refine .bind nameConstant_spec fun g => ?_
  have hw : (v.name g).Ready := hv
  have hK' : (v.name g).known → K := fun hknown => hK hknown.1
  refine .forgetting (v := v.name g) .name ?_
  refine .bind (namedVariable_spec h hw hK') fun _ => .bind accept_spec fun _ => ?_
  refine .ite (fun _ => ?_) fun _ => ?_
  · refine .bind (argumentList_spec h (hw.up 1) hK') fun count => ?_
    refine .bind (namedVariable_spec h ((hw.up 1).up count) fun hknown => hK' hknown.1) fun _ => ?_
    rw [View.arguments_up]
    refine emitCall_spec hw rfl (fun hknown hcount => ⟨⟨?_, hknown.2, rfl⟩, ?_, ?_, ?_⟩) rfl
    · exact Nat.lt_of_le_of_lt hcount (by decide)
    · simp [Instruction.make, Instruction.names, View.name]
    · simp [Operation.usesSlot]
    · simp [Operation.usesCapture]
  · refine .bind (namedVariable_spec h (hw.up 1) hK') fun _ => ?_
    exact emitNamed_spec (v := v.name g) (k := 2) hw rfl View.name_known (Nat.le_refl 2)

/-- The receiver is a variable like any other, where there is one. -/
theorem thisAccess_spec (h : Serves self n K) (hv : v.Ready) (hK : v.known → K) :
    Triple (Inv .plain (v :: vs) n) (thisAccess self) fun _ => Inv .plain (v.up 1 :: vs) n := by
  refine .get fun s₀ => ?_
  have herror : ∀ message, Triple (fun s => Inv .plain (v :: vs) n s ∧ s = s₀) (error message) fun _ =>
      Inv .plain (v.up 1 :: vs) n := fun message =>
    (error_spec.pre fun s hs => hs.1).post fun _ _ h => h.elim
  split
  · exact herror _
  · exact (namedVariable_spec h hv hK).pre fun s hs => hs.1
  · refine .ite (fun _ => herror _) fun _ => ?_
    exact (namedVariable_spec h hv hK).pre fun s hs => hs.1

/-- A call takes its arguments and the callee. -/
theorem callOperation_spec {count : Nat} (hv : v.Ready) :
    Triple (Inv .plain ((v.up 1).arguments count :: vs) n) (emitCall .call count 0) fun _ =>
      Inv .plain (v.up 1 :: vs) n := by
  refine emitCall_spec hv rfl (fun _ hcount => ⟨⟨?_, rfl, rfl⟩, ?_, ?_, ?_⟩) rfl
  · exact Nat.lt_of_le_of_lt hcount (by decide)
  · simp [Instruction.make, Instruction.names]
  · simp [Operation.usesSlot]
  · simp [Operation.usesCapture]

/-- What is spawned is a closure without parameters, made right before. -/
theorem spawnCall_spec (h : Serves self n K) (hv : v.Ready) (hK : v.known → K) :
    Triple (Inv .plain (v :: vs) n) (spawnCall self) fun _ => Inv .plain (v.up 1 :: vs) n := by
  have hw : (View.initial v.known).inner.Settled := (Outline.Settled.initial v.known).inner
  have hpositive : 0 < v.height := Nat.lt_of_lt_of_le hv.receiver hv.values
  refine .bind expect_spec fun _ => .bind previousText_skip fun callee => ?_
  refine .bind (pushFunction_spec.post fun _ s hs => hs.weaken fun _ _ ht => ht.start rfl) fun _ => ?_
  refine .bind beginScope_spec fun _ => .bind (namedVariable_spec h hw.toReady hK) fun _ => ?_
  refine .bind expect_spec fun _ => .bind (argumentList_spec h (hw.toReady.up 1) hK) fun count => ?_
  refine .bind (callOperation_spec hw.toReady) fun _ => ?_
  refine .bind (emitReturnValue_spec hw.toReady (View.initial v.known).inner.height) fun _ => ?_
  refine .bind (Q := fun _ => Inv .thunk (v.up 1 :: vs) n) (endFunction_spec hw.toReady rfl rfl rfl
    hv.toUsable hpositive (.inr ⟨.inr rfl, hv.values⟩) fun _ => rfl) fun _ => ?_
  refine emitFresh_spec hv rfl rfl (fun _ => rfl) (fun _ => ⟨by decide, ?_, ?_, ?_⟩) (Nat.le_refl 1)
  · simp [Instruction.make, Instruction.names]
  · simp [Operation.usesSlot]
  · simp [Operation.usesCapture]

theorem requireCall_spec (h : Serves self n K) (hv : v.Ready) (hK : v.known → K) :
    Triple (Inv .plain (v :: vs) n) (requireCall self) fun _ => Inv .plain (v.up 1 :: vs) n := by
  refine .bind expect_spec fun _ => .bind (argumentList_spec h hv hK) fun count => ?_
  refine .when (M := Inv .plain (v.up 1 :: vs) n) (fun _ => ?_) (fun hcount s hs => ?_) ?_
  · exact error_spec.post fun _ _ h => h.elim
  · obtain rfl : count = 1 := Decidable.not_not.mp hcount
    exact hs.forget (View.Weaker.know (v := v)).up
  · exact emit_plain hv rfl (Nat.le_refl 1)

/-! ## The precedence loop -/

/-- Whatever an expression starts with leaves one value. -/
theorem compileOpening_spec {canAssign : Bool} (h : Serves self n K) (hv : v.Ready)
    (hK : v.known → K) (o : Opening) :
    Triple (Inv .plain (v :: vs) n) (compileOpening self canAssign o) fun _ =>
      Inv .plain (v.up 1 :: vs) n := by
  have hpositive : 0 < v.height := Nat.lt_of_lt_of_le hv.receiver hv.values
  cases o with
  | grouping => exact .bind (h.value (k := 0) hv hK) fun _ => expect_spec
  | dict => exact dictLiteral_spec h hv hK
  | list => exact listLiteral_spec h hv hK
  | unary => exact unary_spec h hv hK
  | step => exact leadingStep_spec hv
  | «variable» => exact .bind previousText_skip fun _ => namedVariable_spec h hv hK
  | string => exact string_spec h hv hK
  | number => exact number_spec hv
  | literal => exact literal_spec hv
  | static => exact error_spec.post fun _ _ h => h.elim
  | lambda => exact functionBody_spec h hv.toUsable hpositive hK (.inl rfl)
  | super => exact superAccess_spec h hv hK
  | this => exact thisAccess_spec h hv hK
  | require => exact requireCall_spec h hv hK
  | async => exact spawnCall_spec h hv hK
  | await =>
    exact .bind (h.atLeast (k := 0) hv hK _) fun _ => emit_plain hv rfl (Nat.le_refl 1)

/-- Consuming a token and what it opens takes at least one token. -/
theorem operand_spec {canAssign : Bool} (h : ∀ m, Serves self m (K ∧ m < n)) (hv : v.Ready)
    (hK : v.known → K) :
    Triple (Inv .plain (v :: vs) n) (operand self canAssign) fun b s =>
      b = true ∧ Inv .plain ((v.know (1 ≤ n)).up 1 :: vs) (n - 1) s := by
  have hK' : (v.know (1 ≤ n)).known → K ∧ n - 1 < n := fun hknown => by
    have := hknown.2
    exact ⟨hK hknown.1, by omega⟩
  refine .bind advance_spec' fun _ => .bind previousKind_spec fun t => ?_
  split
  · rename_i o ho
    refine .bind (Triple.pre (compileOpening_spec (v := v.know (1 ≤ n)) (h (n - 1)) hv hK' o) ?_)
      fun _ => .pure fun s hs => ⟨rfl, hs⟩
    rintro s ⟨⟨-, hs⟩, rfl⟩
    obtain ⟨hn, hs⟩ := hs (by rintro hend; rw [hend] at ho; cases ho)
    exact hs.know hn
  · exact .bind (error_spec.pre fun s hs => hs.1.1) fun _ => .pure fun _ h => h.elim

/-- Whatever goes on with an expression takes the value before it and leaves one. -/
theorem compileContinuation_spec {canAssign : Bool} (h : Serves self n K) (hv : v.Ready)
    (hK : v.known → K) (rule : Continuation) :
    Triple (fun s => Inv .plain (v.up 1 :: vs) n s ∧
      ∃ p, continuation? s.previous.kind = some (rule, p)) (compileContinuation self canAssign rule)
      fun _ => Inv .plain (v.up 1 :: vs) n := by
  cases rule with
  | call =>
    refine Triple.pre (P := Inv .plain (v.up 1 :: vs) n) ?_ fun s hs => hs.1
    exact .bind (argumentList_spec h (hv.up 1) hK) fun count => callOperation_spec hv
  | subscript =>
    refine Triple.pre (P := Inv .plain (v.up 1 :: vs) n) ?_ fun s hs => hs.1
    refine .bind (h.value hv hK) fun _ => .bind expect_spec fun _ => .bind (.skip fun _ => rfl) fun _ => ?_
    refine .bind check_skip fun _ => .ite (fun _ => ?_) fun _ => ?_
    · refine .bind advance_spec fun _ => .bind (h.value hv hK) fun _ => ?_
      exact emit_plain hv rfl (Nat.le_refl 3)
    · exact emit_plain hv rfl (Nat.le_refl 2)
  | dot => exact (dot_spec h hv hK).pre fun s hs => hs.1
  | range => exact (range_spec h hv hK).pre fun s hs => hs.1
  | binary => exact binary_spec h hv hK
  | is => exact (typeTest_spec hv).pre fun s hs => hs.1
  | and => exact .pure fun s hs => hs.1
  | or => exact .pure fun s hs => hs.1

/-- The view behind a short-circuit operator: a branch over its right side is open. -/
theorem openAnd_spec (hv : v.Ready) :
    Triple (Inv .plain (v.up 1 :: vs) n) openAnd fun level =>
      Inv .plain (v.hole ((v.up 1).claim level.jump) :: vs) n := by
  have hvalues := hv.values
  refine .bind (emitJumpIfFalse_spec (hv.up 1) (Nat.lt_succ_of_le hvalues)) fun jump => ?_
  refine .bind (emit_plain (v := v.hole ((v.up 1).claim jump)) (k := 1)
    (hv.hole (Nat.le_refl _)) rfl (Nat.le_refl 1)) fun _ => ?_
  exact .pure fun s hs => hs

/-- The way around the right operand of `or` is left open; the left one is dropped on the other way. -/
theorem openOr_spec (hv : v.Ready) :
    Triple (Inv .plain (v.up 1 :: vs) n) openOr fun level =>
      Inv .plain (v.hole ((v.up 1).claim level.jump) :: vs) n := by
  have hvalues := hv.values
  have hlimit : v.env.length ≤ v.height + 1 := Nat.le_succ_of_le hvalues
  refine .bind (emitJumpIfFalse_spec (hv.up 1) (Nat.lt_succ_of_le hvalues)) fun toRight => ?_
  have hw : ((v.up 1).hole ((v.up 1).claim toRight)).Ready := (hv.up 1).hole (Nat.le_refl _)
  refine .bind (emitJump_spec hw.guarded (Nat.succ_pos _) (.inl (Nat.le_refl _))
    (List.Subset.refl _) (v.height + 1) v.handlers) fun jump => ?_
  refine .bind (patchJump_previous (v := v.up 1) (c := (v.up 1).claim toRight)
    (d := (v.up 1).claim jump) rfl rfl hlimit (List.Subset.refl _) hv.lexical) fun _ => ?_
  refine .bind (emit_plain (v := v.hole ((v.up 1).claim jump)) (k := 1)
    (hv.hole (Nat.le_refl _)) rfl (Nat.le_refl 1)) fun _ => ?_
  exact .pure fun s hs => hs

/-- The view between the operators of an expression: the branches of the open right sides are open,
and `fuel` is enough for the `m` tokens that are left of `n`. -/
def View.chain (v : View) (n m fuel : Nat) (levels : List OpenLevel) : View :=
  (v.know (m < n ∧ 2 * m + levels.length < fuel)).opened
    (levels.map fun l => (v.up 1).claim l.jump)

theorem Outline.Ready.chain (hv : v.Ready) {fuel : Nat} {levels : List OpenLevel} :
    (v.chain n m fuel levels).Ready := by
  refine Outline.Ready.opened (v := v.know _) hv fun c hc => ?_
  obtain ⟨l, -, rfl⟩ := List.mem_map.mp hc
  exact Nat.le_refl _

/-- What holds between two operators. -/
def Chained (v : View) (vs : List View) (n fuel : Nat) (levels : List OpenLevel) (s : State) : Prop :=
  ∃ m, Inv .plain ((v.chain n m fuel levels).up 1 :: vs) m s

/-- The right operand is compiled from its first token on; without one the level ends at once. -/
theorem enterLevel_spec {levels : List OpenLevel} {level : OpenLevel} {fuel : Nat}
    (h : ∀ m, Serves self m (K ∧ m < n)) (hv : v.Ready) (hK : v.known → K) :
    Triple (Inv .plain ((v.know (m < n ∧ 2 * m + levels.length + 1 < fuel)).opened
        ((level :: levels).map fun l => (v.up 1).claim l.jump) :: vs) m)
      (enterLevel self levels level) fun r => Chained v vs n fuel r := by
  have hw : ((v.know (m < n ∧ 2 * m + levels.length + 1 < fuel)).opened
      ((level :: levels).map fun l => (v.up 1).claim l.jump)).Ready := by
    refine Outline.Ready.opened (v := v.know _) hv fun c hc => ?_
    obtain ⟨l, -, rfl⟩ := List.mem_map.mp hc
    exact Nat.le_refl _
  have hserves : ∀ i, Serves self i ((K ∧ m < n) ∧ i < m) := fun i =>
    (h i).weaken fun hi => ⟨hi.1.1, Nat.lt_trans hi.2 hi.1.2⟩
  refine .bind (operand_spec hserves hw fun hknown => ⟨hK hknown.1, hknown.2.1⟩) fun b => ?_
  cases b with
  | true =>
    refine .pure ?_
    rintro s ⟨-, hs⟩
    refine ⟨m - 1, hs.forget ⟨rfl, fun _ h => h, fun _ h => h, Nat.le_refl _, ?_⟩⟩
    rintro ⟨⟨hknown, hmn, hfuel⟩, hm⟩
    refine ⟨hknown, by omega, ?_⟩
    rw [List.length_cons]
    omega
  | false =>
    refine .bind (patchJump_dirty.pre fun s hs => ?_) fun _ => .pure fun _ h => h.elim
    cases hs.1

/-- **`continueOnce_spec`** — one operator further: either tokens are used up, or a right side is
closed. -/
theorem continueOnce_spec {least : Precedence} {canAssign : Bool} {levels : List OpenLevel}
    {fuel : Nat} (h : ∀ m, Serves self m (K ∧ m < n)) (hv : v.Ready) (hK : v.known → K) :
    Triple (Chained v vs n (fuel + 1) levels) (continueOnce self least canAssign levels) fun r s =>
      match r with
      | some levels => Chained v vs n fuel levels s
      | none => Inv .plain (v.up 1 :: vs) n s := by
  refine .exists_pre fun m => .bind currentKind_spec fun t => ?_
  have hw : (v.chain n m (fuel + 1) levels).Ready := hv.chain
  dsimp only
  split
  · rename_i rule p hrule
    have hcontinuation : continuation? t = some (rule, p) := (Option.filter_eq_some_iff.mp hrule).1
    have hend : t ≠ .endOfText := by
      rintro rfl
      cases hcontinuation
    -- one token less is left, so there is fuel for one more open right side
    let w := (v.know (m - 1 < n ∧ 2 * (m - 1) + levels.length + 1 < fuel)).opened
      (levels.map fun l => (v.up 1).claim l.jump)
    have hw : w.Ready := hw
    refine .bind (Q := fun _ s => Inv .plain (w.up 1 :: vs) (m - 1) s ∧ s.previous.kind = t)
      (Triple.post ((advance_consumes hend).pre fun s hs => ⟨hs.1, hs.2.symm⟩) ?_) fun _ => ?_
    · rintro _ s ⟨hs, hkind⟩
      refine ⟨hs.forget ⟨rfl, fun _ h => h, fun _ h => h, Nat.le_refl _, ?_⟩, hkind⟩
      rintro ⟨⟨hknown, hmn, hfuel⟩, hm⟩
      exact ⟨hknown, by omega, by omega⟩
    have hother : ∀ canAssign, Triple
        (fun s => Inv .plain (w.up 1 :: vs) (m - 1) s ∧ s.previous.kind = t)
        (do
          compileContinuation self canAssign rule
          return some levels) fun r s =>
        match r with
        | some levels => Chained v vs n fuel levels s
        | none => Inv .plain (v.up 1 :: vs) n s := by
      intro canAssign
      refine .bind (Q := fun _ => Inv .plain (w.up 1 :: vs) (m - 1))
        (Triple.pre (compileContinuation_spec (h (m - 1)) hw (fun hknown =>
          ⟨hK hknown.1, hknown.2.1⟩) rule) ?_) fun _ => .pure fun s hs => ?_
      · rintro s ⟨hs, hkind⟩
        exact ⟨hs, p, hkind ▸ hcontinuation⟩
      · refine ⟨m - 1, hs.forget ⟨rfl, fun _ h => h, fun _ h => h, Nat.le_refl _, ?_⟩⟩
        rintro ⟨hknown, hmn, hfuel⟩
        exact ⟨hknown, hmn, by omega⟩
    cases rule with
    | and =>
      refine .bind (Triple.pre (openAnd_spec hw) fun s hs => hs.1) fun level => .map ?_
      exact enterLevel_spec h hv hK
    | or =>
      refine .bind (Triple.pre (openOr_spec hw) fun s hs => hs.1) fun level => .map ?_
      exact enterLevel_spec h hv hK
    | call => exact hother _
    | subscript => exact hother _
    | dot => exact hother _
    | range => exact hother _
    | binary => exact hother _
    | is => exact hother _
  · cases levels with
    | nil =>
      refine .pure fun s hs => ?_
      have hs : Inv .plain ((v.know (m < n ∧ 2 * m + 0 < fuel + 1)).up 1 :: vs) m s := hs.1
      exact (hs.mono fun hknown => Nat.le_of_lt hknown.2.1).forget (View.Weaker.know (v := v)).up
    | cons level outer =>
      have hlimit : v.env.length ≤ v.height + 1 := Nat.le_succ_of_le hv.values
      let w := (v.know (m < n ∧ 2 * m + (level :: outer).length < fuel + 1)).opened
        (outer.map fun l => (v.up 1).claim l.jump)
      refine .bind (Q := fun _ => Inv .plain (w.up 1 :: vs) m) (Triple.pre (patchJump_last
        (c := (v.up 1).claim level.jump) rfl rfl hlimit (List.Subset.refl _) hv.lexical) fun s hs => hs.1) fun _ =>
        .pure fun s hs => ?_
      refine ⟨m, hs.forget ⟨rfl, fun _ h => h, fun _ h => h, Nat.le_refl _, ?_⟩⟩
      rintro ⟨hknown, hmn, hfuel⟩
      rw [List.length_cons] at hfuel
      exact ⟨hknown, hmn, by omega⟩

/-- By induction on the fuel: each round goes on with the expression or closes its levels. -/
theorem continueExpression_spec {least : Precedence} {canAssign : Bool}
    (h : ∀ m, Serves self m (K ∧ m < n)) (hv : v.Ready) (hK : v.known → K) (fuel : Nat) :
    ∀ levels, Triple (Chained v vs n fuel levels)
      (continueExpression self least canAssign levels fuel) fun _ =>
      Inv .plain (v.up 1 :: vs) n := by
  induction fuel with
  | zero =>
    exact fun levels => .exhausted
  | succ fuel ih =>
    intro levels
    refine .bind .tokensTaken fun _ => .bind (continueOnce_spec h hv hK) fun r => ?_
    cases r with
    | some levels => exact .bind .tokensTaken fun _ => .bind .demanded fun _ => ih levels
    | none => exact .pure fun s hs => hs

/-- **`expressionAtLeast_spec`** — an expression leaves one value, if the goals it contains do with
the fewer tokens that are left for them. -/
theorem expressionAtLeast_spec {least : Precedence} (h : ∀ m, Serves self m (K ∧ m < n))
    (hv : v.Ready) (hK : v.known → K) :
    Triple (Inv .plain (v :: vs) n) (expressionAtLeast self least) fun _ =>
      Inv .plain (v.up 1 :: vs) n := by
  refine .bind (operand_spec h hv hK) fun b => ?_
  cases b with
  | false => exact .pure fun s hs => absurd hs.1 (by simp)
  | true =>
    refine .get fun s₀ => .bind (Q := fun _ => Inv .plain (v.up 1 :: vs) n)
      ((continueExpression_spec h hv hK s₀.budget []).pre ?_) fun _ => ?_
    · rintro s ⟨⟨-, hs⟩, rfl⟩
      have hbudget := hs.budget
      have hrest := hs.rest
      have hn : 1 ≤ n := hs.known.2
      refine ⟨s.rest.length, ?_⟩
      have hexact : Inv .plain ((v.know (1 ≤ n)).up 1 :: vs) s.rest.length s :=
        { hs with rest := Nat.le_refl _ }
      refine hexact.forget ⟨rfl, fun _ h => h, fun _ h => h, Nat.le_refl _, ?_⟩
      refine fun hknown => ⟨hknown.1, by omega, ?_⟩
      rw [List.length_nil]
      omega
    · refine .ite (fun _ => ?_) fun _ => .pure fun s hs => hs
      refine .bind accept_spec fun _ => .ite (fun _ => ?_) fun _ => .pure fun s hs => hs
      exact error_spec.post fun _ _ h => h.elim

end ScriptMachine.Compiler
