import ScriptMachine.Proofs.Compiler.Resolution

/-!
# ScriptMachine.Proofs.Compiler.Precedence — operators group as their precedence says

An expression of literals, variables, prefix operators and binary operators is a tree. It is written
with parentheses where the precedences ask for them, or around every operator, and either way it is
compiled to the same code: that of its nodes in postorder.

The precedence loop reads the left spine of a tree: it starts with an operand, and each pass adds an
operator and its right side. So the induction over a written tree says how far the loop has come after
it, whatever comes next, as long as that does not bind more tightly than the tree is written.

`expression_postorder` puts this together for the two ways of writing at once: `Writes p t w` holds of
any tokens that have at least the parentheses that are needed, `writes_write` and `writes_writeFull` are
its extremes, and `Writes.reads` is the induction. That no error is recorded on the way needs that every
name of the expression can be read and that there is room for its constants and captures: `Clear` is
that claim, kept by composition. `initializer_reads_itself` shows that reading a variable in its own
initializer is an error, so it cannot be left out.

Only the operators of the binary rule are in a tree. `and` and `or` leave jumps between their operands,
and ranges, tests of a type, calls and accesses to members have rules of their own: nothing is claimed of
the order in which their parts stand in the code.
-/

namespace ScriptMachine

/-- What the compiler reads of a token: its kind, and the text of names and numbers. -/
abbrev Lexeme := TokenKind × String

def Token.lexeme (t : Token) : Lexeme :=
  (t.kind, if t.kind = .identifier ∨ t.kind = .number then t.text else "")

/-- A token that is neither a comment nor a complaint. -/
def Token.Plain (t : Token) : Prop :=
  t.kind ≠ .doc ∧ t.kind.complaint? = none

namespace Compiler

/-! ## Trees -/

/-- The text of a number, with its value. -/
structure Numeral where
  text : String
  value : Float
  reads : numberOf? ⟨.number, text, 0, 0, 0⟩ = some value

/-- A literal or a variable. -/
inductive Leaf where
  | numeral (n : Numeral)
  | nan
  | inf
  | true
  | false
  | null
  | name (text : String)

/-- The prefix operators. -/
inductive Sign where
  | minus
  | bang

/-- The operators of the binary rule. -/
abbrev BinaryOperator :=
  { k : TokenKind // (continuation? k).map Prod.fst = some .binary }

/-- An expression. -/
inductive Tree where
  | leaf (l : Leaf)
  | sign (op : Sign) (operand : Tree)
  | binary (op : BinaryOperator) (left right : Tree)

def Leaf.lexeme : Leaf → Lexeme
  | .numeral n => (.number, n.text)
  | .nan => (.kwNan, "")
  | .inf => (.kwInf, "")
  | .true => (.kwTrue, "")
  | .false => (.kwFalse, "")
  | .null => (.kwNull, "")
  | .name text => (.identifier, text)

def Sign.kind : Sign → TokenKind
  | .minus => .minus
  | .bang => .bang

def BinaryOperator.precedence (op : BinaryOperator) : Precedence :=
  continuationPrecedence op.1

namespace Tree

def parenthesized (w : List Lexeme) : List Lexeme :=
  (.leftParen, "") :: w ++ [(.rightParen, "")]

/-- The expression with parentheses where they are needed: an operator that binds less tightly than
`least` needs them. Operators of one precedence group to the left. -/
def write (least : Precedence) : Tree → List Lexeme
  | .leaf l => [l.lexeme]
  | .sign op operand => (op.kind, "") :: operand.write .unary
  | .binary op left right =>
    let w := left.write op.precedence ++ (op.1, "") :: right.write op.precedence.next
    if least.rank ≤ op.precedence.rank then w else parenthesized w

/-- The expression with parentheses around every operator. -/
def writeFull : Tree → List Lexeme
  | .leaf l => [l.lexeme]
  | .sign op operand => parenthesized ((op.kind, "") :: operand.writeFull)
  | .binary op left right => parenthesized (left.writeFull ++ (op.1, "") :: right.writeFull)

end Tree

/-! ## Code -/

/-- What stands in the code for a part of an expression. -/
inductive Node where
  | leaf (l : Leaf)
  | sign (op : Sign)
  | binary (op : BinaryOperator)

/-- The parts of an expression, operands before their operator and from left to right. -/
def Tree.postorder : Tree → List Node
  | .leaf l => [.leaf l]
  | .sign op operand => operand.postorder ++ [.sign op]
  | .binary op left right => left.postorder ++ right.postorder ++ [.binary op]

/-- Loads a literal or a variable. -/
def Leaf.emit : Leaf → Compile Unit
  | .numeral n => emitConstant (.number n.value)
  | .nan => emitConstant (.number (Float.ofBits 0x7ff8000000000000))
  | .inf => emitConstant (.number (Float.ofBits 0x7ff0000000000000))
  | .true => Compiler.emit .pushTrue
  | .false => Compiler.emit .pushFalse
  | .null => Compiler.emit .pushNull
  | .name text => do
    let a ← resolveVariable text
    Compiler.emit a.get a.operand

def Sign.operation : Sign → Operation
  | .minus => .negate
  | .bang => .not

/-- Writes the code of one part. Three comparisons are written as the negation of another one. -/
def Node.emit : Node → Compile Unit
  | .leaf l => l.emit
  | .sign op => Compiler.emit op.operation
  | .binary op =>
    match binaryOperation? op.1 with
    | some (operation, elementwise, negated) => do
      Compiler.emit operation elementwise
      if negated then Compiler.emit .not
    | none => pure ()

/-- Writes the code of an expression. -/
def Tree.emit (t : Tree) : Compile Unit :=
  t.postorder.forM Node.emit

theorem Leaf.emit_silent (l : Leaf) : Silent l.emit := by
  cases l <;> unfold Leaf.emit <;> grind

/-- Writing the code of a part does not look at the tokens. -/
theorem Node.emit_silent (node : Node) : Silent node.emit := by
  cases node with
  | leaf l => exact l.emit_silent
  | sign op => exact Compiler.emit_silent ..
  | binary op =>
    unfold Node.emit
    dsimp only
    grind

theorem Tree.emit_silent (t : Tree) : Silent t.emit :=
  .forM Node.emit_silent _

/-- One part after another. -/
theorem forM_append_snd {ι : Type} (f : ι → Compile PUnit) (l l' : List ι) (s : State) :
    ((l ++ l').forM f s).2 = (l'.forM f (l.forM f s).2).2 := by
  induction l generalizing s with
  | nil => rfl
  | cons x l ih => exact ih _

/-- The code of a prefix operator comes after that of its operand. -/
theorem emit_sign (op : Sign) (operand : Tree) (s : State) :
    ((Tree.sign op operand).emit s).2 = ((Node.sign op).emit (operand.emit s).2).2 :=
  forM_append_snd ..

/-- The code of an infix operator comes after those of both operands. -/
theorem emit_binary (op : BinaryOperator) (left right : Tree) (s : State) :
    ((Tree.binary op left right).emit s).2 =
      ((Node.binary op).emit (right.emit (left.emit s).2).2).2 :=
  (forM_append_snd ..).trans (congrArg (fun s => ((Node.binary op).emit s).2) (forM_append_snd ..))

/-! ## Tokens -/

/-- **`s.Faces ts tail`** — the current token and those after it are `ts`, and then come those of
`tail`, with budget enough for all of them. -/
structure State.Faces (s : State) (ts tail : List Token) : Prop where
  tokens : s.current :: s.rest = ts ++ tail
  plain : ∀ t ∈ ts, t.Plain
  settled : s.pendingDocs = 0
  budget : 2 * s.rest.length + 2 ≤ s.budget

variable {s s' : State} {t u : Token} {ts w more tail : List Token} {self : Recur}

/-- Facing some tokens depends on the tokens of the state only. -/
theorem State.Faces.same (h : s.Faces ts tail) (h' : s.SameTokens s') : s'.Faces ts tail where
  tokens := by rw [h'.current, h'.rest, h.tokens]
  plain := h.plain
  settled := h'.pendingDocs.trans h.settled
  budget := by
    rw [h'.rest, h'.budget]
    exact h.budget

theorem State.Faces.current (h : s.Faces (t :: ts) tail) : s.current = t :=
  (List.cons.inj h.tokens).1

/-- Consuming a token changes nothing but the tokens. -/
theorem State.Faces.advance (h : s.Faces (t :: u :: ts) tail) :
    (advance s).2.Faces (u :: ts) tail ∧ (advance s).2.previous = t ∧
      (advance s).2.unplaced = s.unplaced ∧ (advance s).2.taken = s.taken + 1 ∧
      (advance s).2.budget = s.budget := by
  obtain ⟨hcurrent, (hrest : s.rest = u :: (ts ++ tail))⟩ := List.cons.inj h.tokens
  obtain ⟨hdoc, hcomplaint⟩ := h.plain u (by simp)
  have heq : (Compiler.advance s).2 =
      { s with previous := t, current := u, taken := s.taken + 1, rest := ts ++ tail } := by
    show State.advanceIn { s with previous := s.current } s.rest = _
    rw [hrest, State.advanceIn, hcurrent]
    simp [hcomplaint, hdoc, h.settled]
  have hbudget := h.budget
  rw [hrest, List.length_cons] at hbudget
  rw [heq]
  exact ⟨⟨rfl, fun v hv => h.plain v (List.mem_cons_of_mem _ hv), h.settled, by dsimp only; omega⟩,
    rfl, rfl, rfl, rfl⟩

/-! ## Written trees -/

/-- **`Writes p t w`** — the tokens `w` write the expression `t` where operators have to bind at least
as tightly as `p`. Parentheses may stand around any part. -/
inductive Writes : Precedence → Tree → List Token → Prop
  | leaf {p : Precedence} {l : Leaf} {t : Token} (ht : t.lexeme = l.lexeme) : Writes p (.leaf l) [t]
  | sign {p : Precedence} {op : Sign} {operand : Tree} {t : Token} {w : List Token}
      (ht : t.kind = op.kind) (hw : Writes .unary operand w) : Writes p (.sign op operand) (t :: w)
  | binary {p : Precedence} {op : BinaryOperator} {left right : Tree} {t : Token} {w w' : List Token}
      (hp : p.rank ≤ op.precedence.rank) (hw : Writes op.precedence left w) (ht : t.kind = op.1)
      (hw' : Writes op.precedence.next right w') : Writes p (.binary op left right) (w ++ t :: w')
  | parens {p : Precedence} {tree : Tree} {t t' : Token} {w : List Token} (ht : t.kind = .leftParen)
      (hw : Writes .assignment tree w) (ht' : t'.kind = .rightParen) : Writes p tree (t :: (w ++ [t']))

/-- **`Follows n k`** — a token of kind `k` after an expression does not continue it more tightly than
rank `n`, nor as tightly as a call, and neither assigns nor steps what stands before it. -/
structure Follows (n : Nat) (k : TokenKind) : Prop where
  limit : ∀ rule p, continuation? k = some (rule, p) → p.rank < n ∧ p.rank < Precedence.unary.rank
  compound : compoundOperation? k = none
  assigns : k ≠ .equal
  steps : k ≠ .inc ∧ k ≠ .dec

/-- What does not continue an expression does not continue it more tightly either. -/
theorem Follows.mono {n m : Nat} {k : TokenKind} (h : Follows n k) (hm : n ≤ m) : Follows m k :=
  { h with limit := fun rule p hk => ⟨Nat.lt_of_lt_of_le (h.limit rule p hk).1 hm, (h.limit rule p hk).2⟩ }

theorem Follows.unary {n : Nat} {k : TokenKind} (h : Follows n k) : Follows Precedence.unary.rank k :=
  { h with limit := fun rule p hk => ⟨(h.limit rule p hk).2, (h.limit rule p hk).2⟩ }

/-- Nothing continues an expression over a closing parenthesis. -/
theorem follows_rightParen (n : Nat) : Follows n .rightParen :=
  ⟨nofun, rfl, by decide, by decide⟩

/-- The binary operators bind less tightly than the prefix ones, and are no assignments or steps. -/
theorem binary_kinds (k : TokenKind) : (continuation? k).map Prod.fst = some .binary →
    continuation? k = some (.binary, continuationPrecedence k) ∧
      (continuationPrecedence k).next.rank = (continuationPrecedence k).rank + 1 ∧
      (continuationPrecedence k).rank < Precedence.unary.rank ∧
      Precedence.assignment.rank ≤ (continuationPrecedence k).rank ∧
      compoundOperation? k = none ∧ k ≠ .equal ∧ k ≠ .inc ∧ k ≠ .dec := by
  cases k <;> decide

namespace BinaryOperator

variable (op : BinaryOperator)

theorem continuation?_eq : continuation? op.1 = some (.binary, op.precedence) :=
  (binary_kinds op.1 op.2).1

theorem rank_next : op.precedence.next.rank = op.precedence.rank + 1 :=
  (binary_kinds op.1 op.2).2.1

/-- An operator does not continue its own right operand: operators of one precedence group to the
left. -/
theorem follows : Follows (op.precedence.rank + 1) op.1 := by
  obtain ⟨hcontinuation, -, hunary, -, hcompound, hequal, hsteps⟩ := binary_kinds op.1 op.2
  refine ⟨fun rule p hp => ?_, hcompound, hequal, hsteps⟩
  cases hcontinuation.symm.trans hp
  exact ⟨Nat.lt_succ_self _, hunary⟩

end BinaryOperator

/-! ## Reading what is written -/

/-- **`Arrived s e ts tail s'`** — from `s` the compiler has come to `s'`, which is `e` but for places, and
faces `ts` and then `tail` now. -/
structure Arrived (s e : State) (ts tail : List Token) (s' : State) : Prop where
  faces : s'.Faces ts tail
  same : s'.unplaced = e.unplaced
  budget : s'.budget = s.budget
  taken : s.taken ≤ s'.taken

variable {e e' : State}

/-- Consuming a token is the first step of an arrival. -/
theorem Arrived.advance (h : s.Faces (t :: u :: ts) tail) : Arrived s s (u :: ts) tail (advance s).2 := by
  obtain ⟨hfaces, -, hsame, htaken, hbudget⟩ := h.advance
  exact ⟨hfaces, hsame, hbudget, htaken ▸ Nat.le_succ _⟩

/-- After a silent step that comes next. -/
theorem Arrived.silent {c : Compile PUnit} (h : Arrived s e ts tail s') (hc : Silent c) :
    Arrived s (c e).2 ts tail (c s').2 where
  faces := h.faces.same (hc.tokens s')
  same := (hc.congr h.same).2
  budget := (hc.tokens s').budget.trans h.budget
  taken := by
    rw [(hc.tokens s').taken]
    exact h.taken

/-- Going on from where one has come to. -/
theorem Arrived.trans {c : Compile PUnit} {s'' : State} (h : Arrived s e ts tail s') (hc : Silent c)
    (h' : Arrived s' (c s').2 more tail s'') : Arrived s (c e).2 more tail s'' where
  faces := h'.faces
  same := h'.same.trans (hc.congr h.same).2
  budget := h'.budget.trans h.budget
  taken := Nat.le_trans h.taken h'.taken

/-- No compound assignment is read where the token after the name is none. -/
theorem compoundAt_run {n : Nat} (h : Follows n s.current.kind) (canAssign : Bool) :
    compoundAt canAssign s = (none, s) := by
  cases canAssign with
  | false => rfl
  | true =>
    show (compoundOperation? s.current.kind, s) = (none, s)
    rw [h.compound]

theorem check_run (k : TokenKind) (s : State) : check k s = (s.current.kind == k, s) :=
  rfl

/-- Nor is a step. -/
theorem checkStep_run {n : Nat} (h : Follows n s.current.kind) : checkStep s = (false, s) := by
  show ((s.current.kind == .inc || s.current.kind == .dec), s) = (false, s)
  simp [h.steps]

theorem accept_run {k : TokenKind} (h : s.current.kind ≠ k) : accept k s = (false, s) := by
  unfold accept
  rw [bind_run, check_run, beq_false_of_ne h]
  rfl

/-- A variable that is neither assigned nor stepped is read. -/
theorem namedVariable_run (hs : s.Faces (t :: ts) tail) {n : Nat} (ht : Follows n t.kind) (name : String)
    (canAssign : Bool) :
    namedVariable self name canAssign s = (Leaf.name name).emit s := by
  have hkind : (resolveVariable name s).2.current.kind = t.kind := by
    rw [((resolveVariable_silent name).tokens s).current, hs.current]
  have hfollows : Follows n (resolveVariable name s).2.current.kind := hkind.symm ▸ ht
  unfold namedVariable
  rw [bind_run, bind_run, compoundAt_run hfollows]
  dsimp only
  have hequal : ((resolveVariable name s).2.current.kind == .equal) = false :=
    beq_false_of_ne hfollows.assigns
  have hassign : (Pure.pure canAssign : Compile Bool) (resolveVariable name s).2 =
      (canAssign, (resolveVariable name s).2) := rfl
  rw [bind_run, hassign, bind_run, check_run, hequal, Bool.and_false, if_neg Bool.false_ne_true, bind_run,
    checkStep_run hfollows]
  rfl

/-- What a token that has been consumed opens. -/
theorem operand_run {canAssign : Bool} {opening : Opening}
    (h : opening? (advance s).2.previous.kind = some opening) :
    operand self canAssign s = (true, (compileOpening self canAssign opening (advance s).2).2) := by
  have hkind : previousKind (advance s).2 = ((advance s).2.previous.kind, (advance s).2) := rfl
  unfold operand
  rw [bind_run, bind_run, hkind]
  dsimp only
  rw [h]
  rfl

/-- A token that has the lexeme of a leaf has its kind, and its text where the compiler reads the
text. -/
theorem lexeme_eq {t : Token} {l : Leaf} (h : t.lexeme = l.lexeme) :
    t.kind = l.lexeme.1 ∧ ((t.kind = .identifier ∨ t.kind = .number) → t.text = l.lexeme.2) := by
  rw [← h]
  exact ⟨rfl, fun hkind => (if_pos hkind).symm⟩

/-- The number of a token is that of its text. -/
theorem Numeral.numberOf? (n : Numeral) (hkind : t.kind = .number) (htext : t.text = n.text) :
    Compiler.numberOf? t = some n.value := by
  have hreads := n.reads
  unfold Compiler.numberOf? at hreads ⊢
  rw [hkind, htext]
  exact hreads

def Leaf.opening : Leaf → Opening
  | .numeral _ | .nan | .inf => .number
  | .true | .false | .null => .literal
  | .name _ => .variable

theorem Leaf.opening?_eq (l : Leaf) : opening? l.lexeme.1 = some l.opening := by
  cases l <;> rfl

theorem number_run {n : Float} (h : numberOf? s.previous = some n) :
    number s = emitConstant (.number n) s := by
  have hget : ∀ f : State → Compile Unit, (get >>= f) s = f s s := fun _ => rfl
  unfold number
  rw [hget, h]

/-- A leaf is compiled to its code. -/
theorem compileOpening_leaf {l : Leaf} (hs : s.Faces (u :: more) tail) {n : Nat} (hu : Follows n u.kind)
    (ht : s.previous.lexeme = l.lexeme) (canAssign : Bool) :
    compileOpening self canAssign l.opening s = l.emit s := by
  obtain ⟨hkind, htext⟩ := lexeme_eq ht
  cases l with
  | numeral m => exact number_run (m.numberOf? hkind (htext (.inr hkind)))
  | name name =>
    have hname : previousText s = (name, s) := by
      show (s.previous.text, s) = (name, s)
      rw [htext (.inl hkind)]
      rfl
    unfold Leaf.opening compileOpening
    dsimp only
    rw [bind_run, hname]
    exact namedVariable_run hs hu name canAssign
  | nan | inf =>
    refine number_run ?_
    unfold Compiler.numberOf?
    rw [hkind]
    rfl
  | true | false | null =>
    have hprevious : previousKind s = (s.previous.kind, s) := rfl
    unfold Leaf.opening compileOpening literal
    dsimp only
    rw [bind_run, hprevious, hkind]
    rfl

/-! ## The precedence loop -/

variable {least : Precedence} {canAssign : Bool}

/-- What does not bind tightly enough ends the expression. -/
theorem continueOnce_ends
    (h : ∀ rule p, continuation? s.current.kind = some (rule, p) → p.rank < least.rank) :
    continueOnce self least canAssign [] s = (none, s) := by
  let bound := (([] : List OpenLevel).head?.map (·.precedence)).getD least
  have hkind : currentKind s = (s.current.kind, s) := rfl
  have hnone : (continuation? s.current.kind).filter (fun r => bound.rank ≤ r.2.rank) = none := by
    cases hrule : continuation? s.current.kind with
    | none => rfl
    | some r =>
      have hfalse : decide (bound.rank ≤ r.2.rank) = false :=
        decide_eq_false (Nat.not_le.mpr (h r.1 r.2 hrule))
      rw [Option.filter_some, hfalse, if_neg Bool.false_ne_true]
  unfold continueOnce
  rw [bind_run, hkind]
  dsimp only
  rw [hnone]
  rfl

/-- A binary operator that binds tightly enough is read with its right side. -/
theorem continueOnce_binary {op : BinaryOperator} (hop : s.current.kind = op.1)
    (hleast : least.rank ≤ op.precedence.rank) :
    continueOnce self least canAssign [] s = (some [], (binary self (advance s).2).2) := by
  let bound := (([] : List OpenLevel).head?.map (·.precedence)).getD least
  have hkind : currentKind s = (s.current.kind, s) := rfl
  have hsome : (continuation? s.current.kind).filter (fun r => bound.rank ≤ r.2.rank) =
      some (.binary, op.precedence) := by
    rw [hop, op.continuation?_eq]
    have htrue : decide (bound.rank ≤ op.precedence.rank) = true := decide_eq_true hleast
    rw [Option.filter_some, htrue, if_pos rfl]
  unfold continueOnce
  rw [bind_run, hkind]
  dsimp only
  rw [hsome]
  rfl

/-- The loop over continuations ends where a pass finds none. -/
theorem continueExpression_ends {levels : List OpenLevel} {fuel : Nat}
    (h : continueOnce self least canAssign levels s = (none, s')) :
    continueExpression self least canAssign levels (fuel + 1) s = ((), s') := by
  have htaken : tokensTaken s = (s.taken, s) := rfl
  unfold continueExpression
  rw [bind_run, htaken, bind_run, h]
  rfl

/-- A pass that finds one is followed by another, since it took a token or closed a level. -/
theorem continueExpression_goes {levels levels' : List OpenLevel} {fuel : Nat}
    (h : continueOnce self least canAssign levels s = (some levels', s'))
    (hprogress : s.taken < s'.taken ∨ levels'.length < levels.length) :
    continueExpression self least canAssign levels (fuel + 1) s =
      continueExpression self least canAssign levels' fuel s' := by
  have htaken : ∀ s : State, tokensTaken s = (s.taken, s) := fun _ => rfl
  have hdemand : demand (s.taken < s'.taken ∨ levels'.length < levels.length) s' = ((), s') := by
    show ((), { s' with broken := s'.broken || !decide _ }) = ((), s')
    simp [hprogress]
  rw [continueExpression, bind_run, htaken, bind_run, h]
  dsimp only
  rw [bind_run, htaken, bind_run, hdemand]

/-- An infix operator reads its right operand one precedence higher, and writes its own code after
it. -/
theorem binary_run {op : BinaryOperator} (h : s.previous.kind = op.1) :
    (binary self s).2 = ((Node.binary op).emit (self.atLeast op.precedence.next s).2).2 := by
  have hkind : previousKind s = (s.previous.kind, s) := rfl
  unfold binary
  rw [bind_run, hkind, h]
  rfl

/-- A prefix operator reads its operand at its own precedence. -/
theorem unary_run {op : Sign} (h : s.previous.kind = op.kind) :
    (unary self s).2 = ((Node.sign op).emit (self.atLeast .unary s).2).2 := by
  have hkind : previousKind s = (s.previous.kind, s) := rfl
  unfold unary
  rw [bind_run, hkind, h]
  cases op <;> rfl

/-- A token that is expected is consumed, with nothing reported. -/
theorem expect_run {k : TokenKind} {message : String} (h : s.current.kind = k) :
    (expect k message s).2 = (advance s).2 := by
  unfold expect
  rw [bind_run, check_run, h, beq_self_eq_true]
  rfl

/-- **`Reads p tree w`** — reading `w` where operators have to bind at least as tightly as `p` compiles
`tree`: after its first operand the loop comes, in so many passes, to where `w` ends. -/
def Reads (p : Precedence) (tree : Tree) (w : List Token) : Prop :=
  ∀ (depth : Nat) (least : Precedence) (canAssign : Bool) (s : State) (u : Token)
      (more tail : List Token),
    w.length ≤ depth + 1 → least.rank ≤ p.rank → Follows (p.rank + 1) u.kind →
    s.Faces (w ++ u :: more) tail → ∃ s₀ s₁ passes,
      operand (goal depth) canAssign s = (true, s₀) ∧ s₀.budget = s.budget ∧ passes < w.length ∧
      (∀ fuel, continueExpression (goal depth) least canAssign [] (fuel + passes) s₀ =
        continueExpression (goal depth) least canAssign [] fuel s₁) ∧
      Arrived s (tree.emit s).2 (u :: more) tail s₁

/-- An expression that is read to its end. -/
theorem Reads.expression {p : Precedence} {tree : Tree} (h : Reads p tree w) {depth : Nat}
    (hdepth : w.length ≤ depth) (hu : Follows p.rank u.kind) (hs : s.Faces (w ++ u :: more) tail) :
    ∃ s₁, goal depth (.expression p) s = ((), s₁) ∧ Arrived s (tree.emit s).2 (u :: more) tail s₁ := by
  cases depth with
  | zero =>
    -- there is no expression without a token
    obtain ⟨_, _, passes, -, -, hpasses, -⟩ := h 0 p (p.rank ≤ Precedence.assignment.rank) s u more tail
      (Nat.le_succ_of_le hdepth) (Nat.le_refl _) (hu.mono (Nat.le_succ _)) hs
    omega
  | succ depth =>
    obtain ⟨s₀, s₁, passes, hoperand, hbudget, hpasses, hloop, harrived⟩ :=
      h depth p (p.rank ≤ Precedence.assignment.rank) s u more tail hdepth (Nat.le_refl _)
        (hu.mono (Nat.le_succ _)) hs
    refine ⟨s₁, ?_, harrived⟩
    have hcurrent : s₁.current = u := harrived.faces.current
    -- the budget counts the tokens that are left, and each pass has consumed one
    have hfuel : ∃ fuel, s₀.budget = fuel + 1 + passes := by
      have hlength := congrArg List.length hs.tokens
      have := hs.budget
      simp only [List.length_cons, List.length_append] at hlength
      exact ⟨s₀.budget - 1 - passes, by omega⟩
    obtain ⟨fuel, hfuel⟩ := hfuel
    have hend : continueExpression (goal depth) p (p.rank ≤ Precedence.assignment.rank) [] s₀.budget s₀ =
        ((), s₁) := by
      rw [hfuel, hloop]
      refine continueExpression_ends (continueOnce_ends fun rule q hq => ?_)
      rw [hcurrent] at hq
      exact (hu.limit rule q hq).1
    have hget : ∀ f : State → Compile Unit, (get >>= f) s₀ = f s₀ s₀ := fun _ => rfl
    show expressionAtLeast (goal depth) p s = ((), s₁)
    unfold expressionAtLeast
    rw [bind_run, hoperand]
    dsimp only
    rw [if_pos rfl, hget, bind_run, hend]
    split
    · rw [bind_run, accept_run (hcurrent ▸ hu.assigns)]
      rfl
    · rfl

theorem Writes.length_pos {p : Precedence} {tree : Tree} (h : Writes p tree w) : 0 < w.length := by
  cases h <;> simp

/-- After a token that opens what a silent step finishes. -/
theorem reads_opening {p : Precedence} {tree : Tree} {opening : Opening}
    (hopening : opening? t.kind = some opening)
    (hrun : ∀ (depth : Nat) (canAssign : Bool) (s s' : State) (u : Token) (more tail : List Token),
      w.length ≤ depth → Follows (p.rank + 1) u.kind → Arrived s s (w ++ u :: more) tail s' →
      s'.previous = t →
        Arrived s (tree.emit s).2 (u :: more) tail
          (compileOpening (goal depth) canAssign opening s').2) :
    Reads p tree (t :: w) := by
  intro depth least canAssign s u more tail hdepth _ hu hs
  obtain ⟨v, vs, hvs⟩ : ∃ v vs, w ++ u :: more = v :: vs :=
    List.exists_cons_of_ne_nil (by simp)
  have hs' : s.Faces (t :: v :: vs) tail := hvs ▸ hs
  have hprevious : (advance s).2.previous = t := hs'.advance.2.1
  have harrived := hrun depth canAssign s (advance s).2 u more tail (Nat.le_of_succ_le_succ hdepth) hu
    (hvs ▸ Arrived.advance hs') hprevious
  exact ⟨_, _, 0, operand_run (hprevious ▸ hopening), harrived.budget, Nat.succ_pos _, fun _ => rfl,
    harrived⟩

/-- **What is written is read.** -/
theorem Writes.reads {p : Precedence} {tree : Tree} (h : Writes p tree w) : Reads p tree w := by
  induction h with
  | @leaf p l t ht =>
    refine reads_opening ((congrArg opening? (lexeme_eq ht).1).trans l.opening?_eq)
      fun depth canAssign s s' u more tail _ hu harrived hprevious => ?_
    rw [compileOpening_leaf harrived.faces hu (hprevious ▸ ht)]
    exact harrived.silent l.emit_silent
  | @sign p op operand t w ht _ ih =>
    have hopening : opening? t.kind = some .unary := by
      rw [ht]
      cases op <;> rfl
    refine reads_opening hopening fun depth canAssign s s' u more tail hdepth hu harrived hprevious => ?_
    obtain ⟨s₁, hrun, harrived'⟩ := ih.expression hdepth hu.unary harrived.faces
    show Arrived s _ _ _ (unary (goal depth) s').2
    rw [unary_run (hprevious ▸ ht), emit_sign]
    have hoperand : (goal depth).atLeast .unary s' = ((), s₁) := hrun
    rw [hoperand]
    exact (harrived.trans operand.emit_silent harrived').silent (Node.emit_silent _)
  | @parens p tree t t' w ht _ ht' ih =>
    have hopening : opening? t.kind = some .grouping := congrArg opening? ht
    refine reads_opening hopening fun depth canAssign s s' u more tail hdepth hu harrived hprevious => ?_
    have hfaces : s'.Faces (w ++ t' :: u :: more) tail := by simpa using harrived.faces
    have hlength : w.length ≤ depth := by
      rw [List.length_append] at hdepth
      omega
    obtain ⟨s₁, hrun, harrived'⟩ := ih.expression hlength (ht' ▸ follows_rightParen _) hfaces
    have hinner : (goal depth).expression s' = ((), s₁) := hrun
    have hclose : (compileOpening (goal depth) canAssign .grouping s').2 = (advance s₁).2 := by
      unfold compileOpening
      dsimp only
      rw [bind_run, hinner]
      exact expect_run (harrived'.faces.current ▸ ht')
    rw [hclose]
    exact (harrived.trans tree.emit_silent harrived').trans (.pure ()) (.advance harrived'.faces)
  | @binary p op left right t w w' hp hw ht _ ihl ihr =>
    intro depth least canAssign s u more tail hdepth hleast hu hs
    rw [List.length_append, List.length_cons] at hdepth
    have hpos := hw.length_pos
    have hs' : s.Faces (w ++ t :: (w' ++ u :: more)) tail := by simpa using hs
    -- the loop has come behind the left operand, and faces the operator
    obtain ⟨s₀, s₁, passes, hoperand, hbudget, hpasses, hloop, hleft⟩ :=
      ihl depth least canAssign s t (w' ++ u :: more) tail (by omega) (Nat.le_trans hleast hp)
        (ht ▸ op.follows) hs'
    obtain ⟨v, vs, hvs⟩ : ∃ v vs, w' ++ u :: more = v :: vs :=
      List.exists_cons_of_ne_nil (by simp)
    have hfaces : s₁.Faces (t :: v :: vs) tail := hvs ▸ hleft.faces
    have hprevious : (advance s₁).2.previous = t := hfaces.advance.2.1
    -- one token further, and the right operand is read to its end
    have hstep := hleft.trans (.pure ()) (hvs ▸ Arrived.advance hfaces)
    have hfollows : Follows op.precedence.next.rank u.kind :=
      hu.mono (by rw [op.rank_next]; omega)
    have hlength : w'.length ≤ depth := by omega
    obtain ⟨s₂, hrun, hright⟩ := ihr.expression hlength hfollows hstep.faces
    have hwhole : Arrived s ((Tree.binary op left right).emit s).2 (u :: more) tail
        ((Node.binary op).emit s₂).2 := by
      rw [emit_binary]
      exact (hstep.trans right.emit_silent hright).silent (Node.emit_silent _)
    have hbinary : (Compiler.binary (goal depth) (advance s₁).2).2 = ((Node.binary op).emit s₂).2 := by
      rw [binary_run (hprevious ▸ ht)]
      exact congrArg (fun r => ((Node.binary op).emit r.2).2) hrun
    -- so one pass more of the loop reads the operator with its right operand
    have honce : continueOnce (goal depth) least canAssign [] s₁ =
        (some [], ((Node.binary op).emit s₂).2) := by
      rw [continueOnce_binary (hfaces.current ▸ ht) (Nat.le_trans hleast hp), hbinary]
    have hprogress : s₁.taken < ((Node.binary op).emit s₂).2.taken := by
      have hadvance : (advance s₁).2.taken = s₁.taken + 1 := hfaces.advance.2.2.2.1
      have hsame := ((Node.emit_silent (.binary op)).tokens s₂).taken
      have := hright.taken
      omega
    refine ⟨s₀, _, passes + 1, hoperand, hbudget, ?_, fun fuel => ?_, hwhole⟩
    · rw [List.length_append, List.length_cons]
      omega
    · rw [show fuel + (passes + 1) = fuel + 1 + passes by omega, hloop,
        continueExpression_goes honce (.inl hprogress)]

/-! ## Forms of writing -/

theorem kind_of_lexeme {k : TokenKind} {text : String} (h : t.lexeme = (k, text)) : t.kind = k :=
  congrArg Prod.fst h

/-- Tokens with a parenthesized text are the parentheses, around tokens with the text between them. -/
theorem exists_of_parenthesized {l : List Lexeme} (h : w.map Token.lexeme = Tree.parenthesized l) :
    ∃ t v t', w = t :: (v ++ [t']) ∧ t.kind = .leftParen ∧ v.map Token.lexeme = l ∧
      t'.kind = .rightParen := by
  obtain ⟨t, w', rfl, ht, hw'⟩ := List.map_eq_cons_iff.mp h
  obtain ⟨v, v', rfl, hv, hv'⟩ := List.map_eq_append_iff.mp hw'
  obtain ⟨t', rfl, ht'⟩ := List.map_eq_singleton_iff.mp hv'
  exact ⟨t, v, t', rfl, kind_of_lexeme ht, hv, kind_of_lexeme ht'⟩

/-- Tokens with a text around an operator fall into those before it, the operator, and those after
it. -/
theorem exists_of_binary {l l' : List Lexeme} {k : TokenKind}
    (h : w.map Token.lexeme = l ++ (k, "") :: l') :
    ∃ v t v', w = v ++ t :: v' ∧ v.map Token.lexeme = l ∧ t.kind = k ∧ v'.map Token.lexeme = l' := by
  obtain ⟨v, v', rfl, hv, hv'⟩ := List.map_eq_append_iff.mp h
  obtain ⟨t, v', rfl, ht, hv'⟩ := List.map_eq_cons_iff.mp hv'
  exact ⟨v, t, v', rfl, hv, kind_of_lexeme ht, hv'⟩

/-- Any binary operator can stand between parentheses. -/
theorem BinaryOperator.assignment_le (op : BinaryOperator) :
    Precedence.assignment.rank ≤ op.precedence.rank :=
  (binary_kinds op.1 op.2).2.2.2.1

/-- The form with as few parentheses as there can be. -/
theorem writes_write {tree : Tree} : ∀ {p : Precedence} {w : List Token},
    w.map Token.lexeme = tree.write p → Writes p tree w := by
  induction tree with
  | leaf l =>
    intro p w h
    obtain ⟨t, rfl, ht⟩ := List.map_eq_singleton_iff.mp h
    exact .leaf ht
  | sign op operand ih =>
    intro p w h
    obtain ⟨t, w', rfl, ht, hw'⟩ := List.map_eq_cons_iff.mp h
    exact .sign (kind_of_lexeme ht) (ih hw')
  | binary op left right ihl ihr =>
    intro p w h
    unfold Tree.write at h
    dsimp only at h
    split at h
    · obtain ⟨v, t, v', rfl, hv, ht, hv'⟩ := exists_of_binary h
      exact .binary ‹_› (ihl hv) ht (ihr hv')
    · obtain ⟨t, v, t', rfl, ht, hv, ht'⟩ := exists_of_parenthesized h
      obtain ⟨v, t, v', rfl, hv, hop, hv'⟩ := exists_of_binary hv
      exact .parens ht (.binary op.assignment_le (ihl hv) hop (ihr hv')) ht'

/-- The form with parentheses around every operator. -/
theorem writes_writeFull {tree : Tree} : ∀ {p : Precedence} {w : List Token},
    w.map Token.lexeme = tree.writeFull → Writes p tree w := by
  induction tree with
  | leaf l =>
    intro p w h
    obtain ⟨t, rfl, ht⟩ := List.map_eq_singleton_iff.mp h
    exact .leaf ht
  | sign op operand ih =>
    intro p w h
    obtain ⟨t, v, t', rfl, ht, hv, ht'⟩ := exists_of_parenthesized h
    obtain ⟨t, v, rfl, hop, hv⟩ := List.map_eq_cons_iff.mp hv
    exact .parens ht (.sign (kind_of_lexeme hop) (ih hv)) ht'
  | binary op left right ihl ihr =>
    intro p w h
    obtain ⟨t, v, t', rfl, ht, hv, ht'⟩ := exists_of_parenthesized h
    obtain ⟨v, t, v', rfl, hv, hop, hv'⟩ := exists_of_binary hv
    exact .parens ht (.binary op.assignment_le (ihl hv) hop (ihr hv')) ht'

/-! ## Instructions -/

/-- The instruction that loads a literal or a variable. -/
def Leaf.instruction (s : State) : Leaf → Instruction
  | .numeral n => .make .constant (makeConstant (.number n.value) s).1 0
  | .nan => .make .constant (makeConstant (.number (Float.ofBits 0x7ff8000000000000)) s).1 0
  | .inf => .make .constant (makeConstant (.number (Float.ofBits 0x7ff0000000000000)) s).1 0
  | .true => .make .pushTrue 0 0
  | .false => .make .pushFalse 0 0
  | .null => .make .pushNull 0 0
  | .name text => .make (resolveVariable text s).1.get (resolveVariable text s).1.operand 0

/-- The instructions of one part of an expression. -/
def Node.instructions (s : State) : Node → List Instruction
  | .leaf l => [l.instruction s]
  | .sign op => [.make op.operation 0 0]
  | .binary op =>
    match binaryOperation? op.1 with
    | some (operation, elementwise, negated) =>
      .make operation elementwise 0 :: if negated then [.make .not 0 0] else []
    | none => []

/-- The instructions of some parts one after another. -/
def instructionsFrom (s : State) : List Node → List Instruction
  | [] => []
  | node :: nodes => node.instructions s ++ instructionsFrom (node.emit s).2 nodes

/-- The instructions of an expression: those of its parts in postorder. -/
def Tree.instructions (s : State) (t : Tree) : List Instruction :=
  instructionsFrom s t.postorder

theorem code_emitConstant (v : Value) (s : State) :
    (emitConstant v s).2.function.chunk.code.toList =
      s.function.chunk.code.toList ++ (Instruction.make .constant (makeConstant v s).1 0).encode := by
  have hcode : (makeConstant v s).2.function.chunk.code = s.function.chunk.code :=
    ((makeConstant_adding v s).functions 0).code
  unfold emitConstant
  rw [bind_run, code_emitted, hcode]

/-- A leaf is one instruction. -/
theorem Leaf.code_emit (l : Leaf) (s : State) :
    (l.emit s).2.function.chunk.code.toList =
      s.function.chunk.code.toList ++ (l.instruction s).encode := by
  cases l with
  | numeral | nan | inf => exact code_emitConstant ..
  | true | false | null => exact code_emitted ..
  | name text =>
    have hcode : (resolveVariable text s).2.function.chunk.code = s.function.chunk.code :=
      ((resolveVariable_adding text s).functions 0).code
    unfold Leaf.emit
    dsimp only
    rw [bind_run, code_emitted, hcode]
    rfl

/-- A part of an expression is one instruction, or two where a comparison is the negation of another
one. -/
theorem Node.code_emit (node : Node) (s : State) :
    (node.emit s).2.function.chunk.code.toList =
      s.function.chunk.code.toList ++ (node.instructions s).flatMap Instruction.encode := by
  cases node with
  | leaf l =>
    rw [Node.instructions, List.flatMap_singleton]
    exact l.code_emit s
  | sign op =>
    rw [Node.instructions, List.flatMap_singleton]
    exact code_emitted op.operation 0 0 s
  | binary op =>
    unfold Node.emit Node.instructions
    dsimp only
    rcases binaryOperation? op.1 with _ | ⟨operation, elementwise, negated⟩
    · simp [Pure.pure, StateT.pure]
    · dsimp only
      rw [bind_run]
      cases negated with
      | true =>
        rw [if_pos rfl, if_pos rfl, code_emitted, code_emitted]
        simp
      | false =>
        rw [if_neg Bool.false_ne_true, if_neg Bool.false_ne_true, List.flatMap_singleton]
        exact code_emitted operation elementwise 0 s

/-- The code of some parts is that of each, in the state that the parts before it leave. By
induction on the parts. -/
theorem code_forM_emit (nodes : List Node) (s : State) :
    (nodes.forM Node.emit s).2.function.chunk.code.toList =
      s.function.chunk.code.toList ++ (instructionsFrom s nodes).flatMap Instruction.encode := by
  induction nodes generalizing s with
  | nil => simp [instructionsFrom, Pure.pure, StateT.pure]
  | cons node nodes ih =>
    show (nodes.forM Node.emit (node.emit s).2).2.function.chunk.code.toList = _
    rw [ih, node.code_emit, instructionsFrom, List.flatMap_append, List.append_assoc]

/-! ## No errors -/

/-- The expression mentions a variable. -/
def Tree.Mentions (tree : Tree) (name : String) : Prop :=
  .leaf (.name name) ∈ tree.postorder

/-- **`Clear N c`** — where the names of `N` can be read they still can after `c`, and if there is still
room for constants and captures then, there was before, and no error has been recorded. -/
structure Clear {α : Type} (N : String → Prop) (c : Compile α) : Prop where
  readable : ∀ s : State, (∀ name, N name → s.Readable name) → ∀ name, N name → (c s).2.Readable name
  room : ∀ s : State, (∀ name, N name → s.Readable name) → (c s).2.Spare →
    s.Spare ∧ (c s).2.errors = s.errors

variable {N : String → Prop} {α β : Type}

theorem Clear.pure (a : α) : Clear N (Pure.pure a : Compile α) :=
  ⟨fun _ hread => hread, fun _ _ hspare => ⟨hspare, rfl⟩⟩

/-- Two steps that record no error record none one after the other; the names stay readable between
them. -/
theorem Clear.bind {c : Compile α} {f : α → Compile β} (hc : Clear N c) (hf : ∀ a, Clear N (f a)) :
    Clear N (c >>= f) where
  readable s hread := (hf _).readable _ (hc.readable s hread)
  room s hread hspare := by
    obtain ⟨hspare', herrors'⟩ := (hf _).room _ (hc.readable s hread) hspare
    obtain ⟨hspare'', herrors⟩ := hc.room s hread hspare'
    exact ⟨hspare'', herrors'.trans herrors⟩

theorem Clear.forM {ι : Type} {g : ι → Compile PUnit} {l : List ι} (h : ∀ x ∈ l, Clear N (g x)) :
    Clear N (l.forM g) := by
  induction l with
  | nil => exact .pure _
  | cons x l ih =>
    exact .bind (h x List.mem_cons_self) fun _ => ih fun y hy => h y (List.mem_cons_of_mem x hy)

/-- What adds to constants and captures only is clear if it records no error while there is room. -/
theorem Clear.of_adding {c : Compile α} (hc : Adding c)
    (herrors : ∀ s : State, (∀ name, N name → s.Readable name) → (c s).2.Spare →
      (c s).2.errors = s.errors) : Clear N c :=
  ⟨fun s hread name hname => (hc s).readable (hread name hname),
    fun s hread hspare => ⟨(hc s).spare hspare, herrors s hread hspare⟩⟩

theorem emit_clear (op : Operation) (first second : Nat) : Clear N (emit op first second) :=
  ⟨fun _ hread name hname => readable_emit (hread name hname),
    fun _ _ hspare => ⟨spare_of_emit hspare, rfl⟩⟩

theorem emitConstant_clear (v : Value) : Clear N (emitConstant v) := by
  refine .bind (.of_adding (makeConstant_adding v) fun s _ hspare => ?_) fun _ => emit_clear ..
  exact errors_makeConstant ((makeConstant_adding v s).spare hspare).constants

/-- Writing a part records no error, where the variable it may load can be read. -/
theorem Node.emit_clear (node : Node) (h : ∀ name, node = .leaf (.name name) → N name) :
    Clear N node.emit := by
  cases node with
  | leaf l =>
    cases l with
    | numeral | nan | inf => exact emitConstant_clear _
    | true | false | null => exact Compiler.emit_clear ..
    | name text =>
      refine .bind (.of_adding (resolveVariable_adding text) fun s hread => ?_) fun _ =>
        Compiler.emit_clear ..
      exact errors_resolveVariable (hread text (h text rfl))
  | sign op => exact Compiler.emit_clear ..
  | binary op =>
    unfold Node.emit
    dsimp only
    split
    · refine .bind (Compiler.emit_clear ..) fun _ => ?_
      split
      · exact Compiler.emit_clear ..
      · exact .pure _
    · exact .pure _

/-- **An expression of names that can be read is compiled without an error**, if there is room for its
constants and captures. -/
theorem Tree.emit_clear (tree : Tree) : Clear tree.Mentions tree.emit := by
  refine .forM fun node hnode => node.emit_clear ?_
  rintro name rfl
  exact hnode

/-! ## Precedence -/

/-- **`Ends k`** — a token of kind `k` cannot continue an expression: it is no operator, and neither
assigns nor steps what stands before it. -/
structure Ends (k : TokenKind) : Prop where
  operator : continuation? k = none
  compound : compoundOperation? k = none
  assigns : k ≠ .equal
  steps : k ≠ .inc ∧ k ≠ .dec

theorem Ends.follows {k : TokenKind} (h : Ends k) (n : Nat) : Follows n k :=
  { h with limit := fun rule p hk => by simp [h.operator] at hk }

theorem spare_unplaced : s.unplaced.Spare ↔ s.Spare := by
  have hcaptures : ∀ d, (s.unplaced.functionAt d).captures = (s.functionAt d).captures :=
    captures_functionAt_unplaced s
  exact ⟨fun h => ⟨h.constants, fun d => hcaptures d ▸ h.captures d⟩,
    fun h => ⟨h.constants, fun d => (hcaptures d).symm ▸ h.captures d⟩⟩

/-- The state after an expression. -/
def State.expressed (s : State) (depth : Nat) : State :=
  (goal depth (.expression .assignment) s).2

/-- A written expression is read to its end, and leaves what its code in postorder leaves. -/
theorem Writes.run {tree : Tree} (hw : Writes .assignment tree w) {depth : Nat}
    (hdepth : w.length ≤ depth) (hu : Ends u.kind) (hs : s.Faces (w ++ [u]) tail) :
    (s.expressed depth).current = u ∧ (s.expressed depth).rest = tail ∧
      (s.expressed depth).unplaced = (tree.emit s).2.unplaced := by
  obtain ⟨s', hrun, harrived⟩ := hw.reads.expression hdepth (hu.follows _) hs
  unfold State.expressed
  rw [hrun]
  exact ⟨harrived.faces.current, (List.cons.inj harrived.faces.tokens).2, harrived.same⟩

/-- **Operators group as their precedence says.** An expression that is written with parentheses only
where precedences ask for them is read up to the token that ends it; its code is that of its parts in
postorder; and but for places, what is left is the same as when it is written with parentheses around
every operator. No error is recorded as long as there is room for constants and captures and each
variable has its value. -/
theorem expression_postorder {tree : Tree} {depth : Nat}
    (hw : w.map Token.lexeme = tree.write .assignment) (hdepth : w.length ≤ depth)
    (hu : Ends u.kind) (hs : s.Faces (w ++ [u]) tail) :
    (s.expressed depth).current = u ∧ (s.expressed depth).rest = tail ∧
      (s.expressed depth).function.chunk.code.toList =
        s.function.chunk.code.toList ++ (tree.instructions s).flatMap Instruction.encode ∧
      ((s.expressed depth).Spare → (∀ name, tree.Mentions name → s.Readable name) →
        (s.expressed depth).errors.size = s.errors.size) ∧
      ∀ (w' tail' : List Token) (u' : Token) (s' : State) (depth' : Nat),
        w'.map Token.lexeme = tree.writeFull → w'.length ≤ depth' → Ends u'.kind →
          s'.Faces (w' ++ [u']) tail' → s'.unplaced = s.unplaced →
            (s'.expressed depth').unplaced = (s.expressed depth).unplaced := by
  obtain ⟨hcurrent, hrest, hsame⟩ := (writes_write hw).run hdepth hu hs
  refine ⟨hcurrent, hrest, ?_, fun hspare hread => ?_, fun w' tail' u' s' depth' hw' hdepth' hu' hs' h => ?_⟩
  · have hcode := congrArg (fun s : State => s.function.chunk.code.toList) hsame
    exact hcode.trans (code_forM_emit tree.postorder s)
  · have hspare' : (tree.emit s).2.Spare := spare_unplaced.mp (hsame ▸ spare_unplaced.mpr hspare)
    have herrors := (tree.emit_clear.room s hread hspare').2
    have hsize := congrArg (fun s : State => s.errors.size) hsame
    simpa [State.unplaced, herrors] using hsize
  · obtain ⟨-, -, hsame'⟩ := (writes_writeFull hw').run hdepth' hu' hs'
    exact hsame'.trans ((tree.emit_silent.congr h).2.trans hsame.symm)

/-- In the body of a function with some locals, before some tokens. -/
def State.facing (locals : List Local) (t : Token) (rest : List Token) : State :=
  { (default : State) with
    function := { FunctionState.start .function none with locals := locals.toArray, scopeDepth := 1 }
    current := t, rest, budget := 2 * rest.length + 2 }

/-- `a - b * c` subtracts a product. -/
theorem expression_postorder_difference :
    let s := State.facing [⟨"", some 0, false⟩, ⟨"a", some 1, false⟩, ⟨"b", some 1, false⟩, ⟨"c", some 1, false⟩]
      ⟨.identifier, "a", 0, 1, 1⟩
      [⟨.minus, "-", 2, 3, 1⟩, ⟨.identifier, "b", 4, 5, 1⟩, ⟨.star, "*", 6, 7, 1⟩,
        ⟨.identifier, "c", 8, 9, 1⟩, ⟨.semicolon, ";", 9, 10, 1⟩]
    (s.expressed 5).current = ⟨.semicolon, ";", 9, 10, 1⟩ ∧
      (s.expressed 5).function.chunk.code.toList =
        [Instruction.make .getLocal 1 0, .make .getLocal 2 0, .make .getLocal 3 0, .make .multiply 0 0,
          .make .subtract 0 0].flatMap Instruction.encode := by
  intro s
  let tree : Tree := .binary ⟨.minus, rfl⟩ (.leaf (.name "a"))
    (.binary ⟨.star, rfl⟩ (.leaf (.name "b")) (.leaf (.name "c")))
  have hw : [(⟨.identifier, "a", 0, 1, 1⟩ : Token), ⟨.minus, "-", 2, 3, 1⟩, ⟨.identifier, "b", 4, 5, 1⟩,
      ⟨.star, "*", 6, 7, 1⟩, ⟨.identifier, "c", 8, 9, 1⟩].map Token.lexeme = tree.write .assignment := by
    decide
  have hs : s.Faces ([⟨.identifier, "a", 0, 1, 1⟩, ⟨.minus, "-", 2, 3, 1⟩, ⟨.identifier, "b", 4, 5, 1⟩,
      ⟨.star, "*", 6, 7, 1⟩, ⟨.identifier, "c", 8, 9, 1⟩] ++ [⟨.semicolon, ";", 9, 10, 1⟩]) [] :=
    ⟨rfl, by simp [Token.Plain, TokenKind.complaint?], rfl, by decide⟩
  have hend : Ends .semicolon := ⟨rfl, rfl, by decide, by decide⟩
  obtain ⟨hcurrent, -, hcode, -⟩ := expression_postorder hw (Nat.le_refl 5) hend hs
  refine ⟨hcurrent, hcode.trans ?_⟩
  rfl

/-- In `{ var x = x; }` the initializer reads the variable that it is for. -/
theorem initializer_reads_itself :
    let t : Token := ⟨.identifier, "x", 10, 11, 1⟩
    let u : Token := ⟨.semicolon, ";", 11, 12, 1⟩
    let s := State.facing [⟨"", some 0, false⟩, ⟨"x", none, false⟩] t [u]
    [t].map Token.lexeme = (Tree.leaf (.name "x")).write .assignment ∧ Ends u.kind ∧
      s.Faces ([t] ++ [u]) [] ∧ (s.expressed 1).function.chunk.constants.size = 0 ∧
      (s.expressed 1).errors =
        #[⟨1, .lexeme "x", "Cannot read local variable in its own initializer."⟩] ∧ s.errors = #[] := by
  intro t u s
  refine ⟨by decide, ⟨rfl, rfl, by decide, by decide⟩,
    ⟨rfl, by simp [t, u, Token.Plain, TokenKind.complaint?], rfl, by decide⟩, ?_, ?_, rfl⟩
  · rfl
  · rfl

end Compiler

end ScriptMachine
