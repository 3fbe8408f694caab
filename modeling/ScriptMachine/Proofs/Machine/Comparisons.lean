import Mathlib
import ScriptMachine.Proofs.Compiler.Precedence
import ScriptMachine.Proofs.Heap.Relations
import ScriptMachine.Proofs.Machine.Control

/-!
# ScriptMachine.Proofs.Machine.Comparisons — comparisons as they are compiled and executed

There are instructions for `<`, `>` and `==`. The other three comparisons are compiled to one of these
and a negation, so what they find is what `Heap.holds` says of them, and the laws of `Heap.Coherent` are
laws of the compiled operators.

The machine may stop between an instruction and the negation behind it, run other tasks and collect
garbage. Nothing of that matters, as the negation of a truth value looks at the stack of its own fiber
only: `Machine.Calculates` asks nothing else of the machine that goes on.

The result is `comparisons_coherent`. `Compiled` ties an operator to the code that the compiler writes for
it and `Yields` ties that code to what the machine finds, for any operands on any stack; both have one
answer only, so that a law about answers is a law about the operators. `comparisons_unlike_numbers` shows
what fails where a value is not a number, and that is by design.

Operators that a class defines are called instead, and nothing is claimed of what they answer.
-/

namespace ScriptMachine

variable {h : Heap} {m m' : Machine} {a b : Value} {v w : Bool} {below : Array Value}

namespace Relational

/-- The token that stands for the operator. -/
def kind : Relational → TokenKind
  | .less => .less
  | .lessEqual => .lessEqual
  | .greater => .greater
  | .greaterEqual => .greaterEqual
  | .equal => .equalEqual
  | .notEqual => .bangEqual

/-- The operator of the binary rule. -/
def operator (o : Relational) : Compiler.BinaryOperator :=
  ⟨o.kind, by cases o <;> rfl⟩

/-- The instruction that compares. -/
def operation : Relational → Operation
  | .less | .greaterEqual => .less
  | .greater | .lessEqual => .greater
  | .equal | .notEqual => .equal

/-- Is what the instruction finds denied? -/
def negated : Relational → Bool
  | .less | .greater | .equal => false
  | .lessEqual | .greaterEqual | .notEqual => true

/-- The instructions of the operator. -/
def instructions (o : Relational) : List Instruction :=
  .make o.operation 0 0 :: if o.negated then [.make .not 0 0] else []

/-- The code of the operator. -/
def code (o : Relational) : List UInt8 :=
  o.instructions.flatMap Instruction.encode

end Relational

/-- What an instruction that orders values finds. -/
def Comparison.relational : Comparison → Relational
  | .less => .less
  | .greater => .greater

/-! ## As compiled -/

/-- **`o.Compiled`** — the rule for binary operators reads the right operand of `o` and then writes
the code of `o`. -/
def Relational.Compiled (o : Relational) : Prop :=
  ∀ (self : Compiler.Recur) (s : Compiler.State), s.previous.kind = o.kind →
    (Compiler.binary self s).2.function.chunk.code.toList =
      (self.atLeast o.operator.precedence.next s).2.function.chunk.code.toList ++ o.code

/-- Each of the six comparisons has code of its own. -/
theorem Relational.compiled (o : Relational) : o.Compiled := by
  intro self s hkind
  have hprevious : s.previous.kind = o.operator.1 := hkind
  have hoperation : Compiler.binaryOperation? o.operator.1 = some (o.operation, 0, o.negated) := by
    cases o <;> rfl
  have hcode := (Compiler.Node.binary o.operator).code_emit
    (self.atLeast o.operator.precedence.next s).2
  rw [Compiler.binary_run hprevious, hcode]
  simp only [Compiler.Node.instructions, hoperation]
  rfl

/-! ## As executed -/

/-- **`m.Calculates n t`** — the running fiber executes `n` instructions that change nothing but itself
and the clock, and is `t` then, whatever becomes of the rest of the machine between two of them. -/
def Machine.Calculates (m : Machine) (n : Nat) (t : Fiber) : Prop :=
  match n with
  | 0 => m.fiber = t
  | n + 1 => ∃ t', Exec.step m = .ok () { m.elapse stepTime with fiber := t' } ∧
      ∀ m' : Machine, m'.fiber = t' → m'.Calculates n t

/-- A calculation has one end. -/
theorem Machine.Calculates.unique {n : Nat} {t t' : Fiber} (ht : m.Calculates n t)
    (ht' : m.Calculates n t') : t = t' := by
  induction n generalizing m with
  | zero => exact ht.symm.trans ht'
  | succ n ih =>
    obtain ⟨t₁, hstep, hrest⟩ := ht
    obtain ⟨t₂, hstep', hrest'⟩ := ht'
    obtain rfl : t₁ = t₂ := by
      rw [hstep] at hstep'
      injection hstep' with _ hmachine
      exact congrArg Machine.fiber hmachine
    exact ih (m := { m with fiber := t₁ }) (hrest _ rfl) (hrest' _ rfl)

/-- **`f.Faces code`** — the activation is about to execute the code. -/
def Frame.Faces (f : Frame) (code : List UInt8) : Prop :=
  ∃ before after, f.chunk.code.toList = before ++ code ++ after ∧ f.ip = before.length

/-- **`o.Yields h a b v`** — wherever the code of `o` is executed with the operands `a` and `b` on top of
the stack, in a machine with the heap `h`, it replaces them by the truth value `v`. -/
def Relational.Yields (o : Relational) (h : Heap) (a b : Value) (v : Bool) : Prop :=
  ∀ (m : Machine) (f : Frame) (frames : List Frame) (below : Array Value),
    m.heap = h → m.fiber.frames = f :: frames → f.Faces o.code →
    m.fiber.stack = (below.push a).push b →
    m.Calculates o.instructions.length { m.fiber with
      frames := { f with ip := f.ip + o.code.length } :: frames
      stack := below.push (.bool v) }

namespace Exec

/-- The machine with another stack. -/
abbrev withStack (m : Machine) (stack : Array Value) : Machine :=
  { m with fiber := { m.fiber with stack } }

theorem peek_left (hs : m.fiber.stack = (below.push a).push b) : peek 1 m = .ok a m := by
  refine peek_eq ?_ ?_ <;> simp [hs, Array.getElem_push]

theorem peek_right (hs : m.fiber.stack = (below.push a).push b) : peek 0 m = .ok b m := by
  refine peek_eq ?_ ?_ <;> simp [hs, Array.getElem_push]

/-- A comparison of two values that can be compared takes them and pushes the answer. -/
theorem compare_eq (hs : m.fiber.stack = (below.push a).push b) (hab : m.heap.Orderable a b)
    (o : Comparison) : compare o m =
      .ok () (withStack m (below.push (.bool (m.heap.holds o.relational a b)))) := by
  have hreplace : ∀ v, replaceTop 2 v m = .ok () (withStack m (below.push v)) := fun v => by
    show EStateM.Result.ok () _ = _
    simp [hs, withStack]
  unfold compare
  rw [bind_ok (peek_left hs), bind_ok (peek_right hs), bind_ok (heap_eq m)]
  rcases hab with ⟨x, y, ha, hb⟩ | ⟨s, t, ha, hb⟩
  · rw [ha, hb]
    dsimp only
    rw [hreplace]
    cases o <;>
      simp [Comparison.relational, Heap.holds, Comparison.ofNumbers, Heap.precedes_of_numeric? ha hb,
        Heap.precedes_of_numeric? hb ha]
  · rw [Heap.numeric?_of_textOf? ha, ha, hb]
    dsimp only
    rw [hreplace]
    cases o <;>
      simp [Comparison.relational, Heap.holds, Comparison.ofTexts, Heap.precedes_of_textOf? ha hb,
        Heap.precedes_of_textOf? hb ha]

/-- An equality takes any two values, and pushes the answer. -/
theorem equality_eq (hs : m.fiber.stack = (below.push a).push b) :
    equality m = .ok () (withStack m (below.push (.bool (m.heap.equal a b)))) := by
  have hs' : m.popped.fiber.stack = below.push a := by simp [Machine.popped, hs]
  have hb : m.fiber.stack[m.fiber.stack.size - 1]? = some b := by
    simp [hs, Array.getElem_push]
  have ha : m.popped.fiber.stack[m.popped.fiber.stack.size - 1]? = some a := by simp [hs']
  unfold equality
  rw [bind_ok (pop_eq hb), bind_ok (pop_eq ha), get_bind]
  show EStateM.Result.ok () _ = _
  simp [Machine.popped, hs, withStack]

/-- The negation of a truth value does not look at the heap. -/
theorem negateTruth_eq (hs : m.fiber.stack = below.push (.bool v)) :
    negateTruth m = .ok () (withStack m (below.push (.bool !v))) := by
  have hpeek : peek 0 m = .ok (.bool v) m := by
    refine peek_eq ?_ ?_ <;> simp [hs]
  unfold negateTruth
  rw [bind_ok hpeek]
  show EStateM.Result.ok () _ = _
  cases v <;> simp [hs, withStack, Value.isFalsey]

/-- **`compares`** — the instruction of an operator finds what the operator says, or its denial. -/
theorem compares (hs : m.fiber.stack = (below.push a).push b) (hab : m.heap.Orderable a b)
    (o : Relational) : execute (.make o.operation 0 0) m =
      .ok () (withStack m (below.push (.bool (m.heap.holds o a b != o.negated)))) := by
  have hless := compare_eq hs hab .less
  have hgreater := compare_eq hs hab .greater
  have hequal := equality_eq hs
  cases o <;> simpa [Comparison.relational, Relational.operation, Relational.negated, Heap.holds, execute, Instruction.make]

/-- The instruction at the head of some code is decoded and executed. -/
theorem step_faces {f : Frame} {frames : List Frame} {i : Instruction} {code : List UInt8}
    (hf : m.fiber.frames = f :: frames) (hi : i.InRange) (hop : i.op ≠ .closure)
    (hcode : f.Faces (i.encode ++ code)) :
    step m = execute i (m.past f frames i) ∧ Frame.Faces { f with ip := f.ip + i.width } code := by
  obtain ⟨before, after, hcode, hip⟩ := hcode
  refine ⟨step_of_instruction? hf ?_, before ++ i.encode, after, by simp [hcode], ?_⟩
  · rw [hip]
    exact Instruction.decode?_encode (r := code ++ after) hi (fun heq => absurd heq hop)
      (by simp [hcode])
  · simp [hip, Instruction.length_encode hi]

end Exec

open Exec in
/-- **`yields`** — the code of an operator yields what the operator says. -/
theorem Relational.yields (o : Relational) (hab : h.Orderable a b) :
    o.Yields h a b (h.holds o a b) := by
  rintro m f frames below rfl hf hfaces hs
  have hin : (Instruction.make o.operation 0 0).InRange := by cases o <;> decide
  have hop : o.operation ≠ .closure := by cases o <;> decide
  have hwidth : (Instruction.make o.operation 0 0).width = 1 := by cases o <;> rfl
  obtain ⟨hstep, hrest⟩ := step_faces hf hin hop hfaces
  rw [hwidth] at hrest
  rw [compares (m := m.past f frames _) hs hab o] at hstep
  cases hnegated : o.negated with
  | false =>
    have hcode : o.code.length = 1 := by cases o <;> first | rfl | cases hnegated
    rw [hcode, Relational.instructions, hnegated]
    rw [hnegated, Bool.bne_false, Machine.past, hwidth] at hstep
    exact ⟨_, hstep, fun m' hm' => hm'⟩
  | true =>
    have hcode : o.code.length = 2 := by cases o <;> first | rfl | cases hnegated
    rw [hcode, Relational.instructions, hnegated]
    rw [hnegated, Bool.bne_true, Machine.past, hwidth] at hstep
    refine ⟨_, hstep, fun m' hm' => ?_⟩
    -- the negation finds the truth value where the comparison has left it
    have hnot : Frame.Faces { f with ip := f.ip + 1 } ((Instruction.make .not 0 0).encode ++ []) := by
      rw [hnegated] at hrest
      exact hrest
    obtain ⟨hstep', -⟩ := step_faces (m := m') (by rw [hm']) (by decide) (by decide) hnot
    have hstack : (m'.past { f with ip := f.ip + 1 } frames (.make .not 0 0)).fiber.stack =
        below.push (.bool !m.heap.holds o a b) := by
      show m'.fiber.stack = _
      rw [hm']
      rfl
    have hdeny := negateTruth_eq hstack
    rw [Bool.not_not] at hdeny
    refine ⟨_, hstep'.trans hdeny, fun m'' hm'' => hm''.trans ?_⟩
    simp only [Machine.past, hm']
    rfl

/-- An operator yields one truth value. -/
theorem Relational.Yields.unique {o : Relational} (hv : o.Yields h a b v) (hw : o.Yields h a b w) :
    v = w := by
  let f : Frame := { (default : Frame) with
    chunk := { (default : Chunk) with code := o.code.toArray }, ip := 0 }
  let m : Machine := { (default : Machine) with
    heap := h
    fiber := { (default : Fiber) with stack := (#[].push a).push b, frames := [f] } }
  have hf : f.Faces o.code := ⟨[], [], by simp [f], rfl⟩
  have hsame := (hv m f [] #[] rfl rfl hf rfl).unique (hw m f [] #[] rfl rfl hf rfl)
  simpa using congrArg Fiber.stack hsame

/-- **`comparisons_coherent`** — the code that is compiled for a comparison of two values that can be
ordered yields one truth value, wherever it is executed. The truth values of the six comparisons depend
on each other, and on the numbers that the values stand for, as `Heap.Coherent` says. -/
theorem Relational.comparisons_coherent (hi : h.Interned) (hab : h.Orderable a b) :
    (∀ o : Relational, o.Compiled ∧ ∀ v, o.Yields h a b v ↔ v = h.holds o a b) ∧ h.Coherent a b := by
  refine ⟨fun o => ⟨o.compiled, fun v => ⟨fun hv => hv.unique (o.yields hab), ?_⟩⟩, hi.coheres hab⟩
  rintro rfl
  exact o.yields hab

/-- A member that carries two, and three. -/
theorem Relational.comparisons_coherent_member :
    let text := (Heap.new {}).intern "X"
    let enumeration := text.2.alloc (.enumeration ⟨text.1, .empty, .none⟩)
    let member := enumeration.2.alloc (.enumMember ⟨enumeration.1, text.1, .number 2⟩)
    let h := member.2
    let a : Value := .obj member.1
    h.Interned ∧ h.Orderable a (.number 3) ∧
    ((∀ o : Relational, o.Compiled ∧
        ∀ v, o.Yields h a (.number 3) v ↔ v = h.holds o a (.number 3)) ∧
      h.Coherent a (.number 3)) ∧
    (∀ v, Relational.lessEqual.Yields h a (.number 3) v ↔ v = true) := by
  intro text enumeration member h a
  have htext : text.2.Interned := (Heap.new_interned {}).intern (Heap.new_tidy {}) "X"
  have htidy : text.2.Tidy := ((Heap.new_tidy {}).intern "X").1
  have hinterned : h.Interned := (htext.alloc htidy (by nofun)).alloc (htidy.alloc _) (by nofun)
  have horderable : h.Orderable a (.number 3) := .inl ⟨2, 3, rfl, rfl⟩
  have hcoherent := Relational.comparisons_coherent hinterned horderable
  have hle : h.holds .lessEqual a (.number 3) = true := by decide +kernel
  exact ⟨hinterned, horderable, hcoherent, hle ▸ (hcoherent.1 .lessEqual).2⟩

/-- One is `<=` to what is not a number, though neither less nor equal. A member that carries no number
equals itself, and two members of different enumerations that carry two do not equal each other. -/
theorem Relational.comparisons_unlike_numbers :
    let text := (Heap.new {}).intern "X"
    let first := text.2.alloc (.enumeration ⟨text.1, .empty, .none⟩)
    let second := first.2.alloc (.enumeration ⟨text.1, .empty, .none⟩)
    let two := second.2.alloc (.enumMember ⟨first.1, text.1, .number 2⟩)
    let alsoTwo := two.2.alloc (.enumMember ⟨second.1, text.1, .number 2⟩)
    let odd := alsoTwo.2.alloc (.enumMember ⟨second.1, text.1, .number Float.nan⟩)
    let h := odd.2
    h.Interned ∧
    (h.Orderable (.number 1) (.number Float.nan) ∧
      Relational.lessEqual.Compiled ∧ Relational.less.Compiled ∧ Relational.equal.Compiled ∧
      Relational.lessEqual.Yields h (.number 1) (.number Float.nan) true ∧
      Relational.less.Yields h (.number 1) (.number Float.nan) false ∧
      Relational.equal.Yields h (.number 1) (.number Float.nan) false) ∧
    (h.numeric? (.obj odd.1) = some Float.nan ∧
      Relational.equal.Yields h (.obj odd.1) (.obj odd.1) true ∧
      Relational.equal.Yields h (.number Float.nan) (.number Float.nan) false) ∧
    h.numeric? (.obj two.1) = some 2 ∧ h.numeric? (.obj alsoTwo.1) = some 2 ∧
      Relational.equal.Yields h (.obj two.1) (.obj alsoTwo.1) false ∧
      Relational.equal.Yields h (.number 2) (.number 2) true := by
  intro text first second two alsoTwo odd h
  have htext : text.2.Interned := (Heap.new_interned {}).intern (Heap.new_tidy {}) "X"
  have htidy : text.2.Tidy := ((Heap.new_tidy {}).intern "X").1
  have hsecond : second.2.Interned := (htext.alloc htidy (by nofun)).alloc (htidy.alloc _) (by nofun)
  have htidy' : second.2.Tidy := (htidy.alloc _).alloc _
  have hinterned : h.Interned :=
    ((hsecond.alloc htidy' (by nofun)).alloc (htidy'.alloc _) (by nofun)).alloc
      ((htidy'.alloc _).alloc _) (by nofun)
  have hyields : ∀ (o : Relational) (a b : Value) (x y : Float) (v : Bool),
      h.numeric? a = some x → h.numeric? b = some y → h.holds o a b = v → o.Yields h a b v :=
    fun o a b x y v ha hb hv => hv ▸ o.yields (.inl ⟨x, y, ha, hb⟩)
  refine ⟨hinterned, ⟨.inl ⟨1, Float.nan, rfl, rfl⟩, Relational.compiled _, Relational.compiled _,
    Relational.compiled _, ?_, ?_, ?_⟩, ⟨rfl, ?_, ?_⟩, rfl, rfl, ?_, ?_⟩
  all_goals exact hyields _ _ _ _ _ _ rfl rfl (by decide +kernel)

end ScriptMachine
