import ScriptMachine.Image
import ScriptMachine.Proofs.Code.Encoding

/-!
# ScriptMachine.Proofs.Code.Discipline — how compiled code treats the stack

A *situation* is what is known of an activation before one of its instructions: how high its part of
the stack is, which handlers it has installed, which of its slots a closure may still be sharing,
whether the value on top is a closure that nothing else can reach, and in which slots there is a
collection that a literal is still adding to. `Leads` says in which situations an
instruction can be left and where to: to the next instruction, back, ahead over a distance, or to the
innermost handler. A listing of code is *disciplined* when every instruction suits its situation and all
ways out of it agree with the situations they lead to.

Nothing here mentions the machine or the compiler. The compiler writes disciplined code, and the
machine keeps to the situations of such code. So `Disciplined` is all that the one has to show and all
that the other may use, and the effects in the table `effect` are trusted by neither: the compiler
computes with them, and the machine is shown to execute each instruction with exactly that effect.

Two things about situations are not obvious from their fields. A slot that a closure may share is only an
upper bound, which is why `Flows` lets more slots be shared where ways meet. A collection, on the
contrary, is something an instruction may count on: where ways meet, `Flows` keeps only what both have,
and what a handler restores goes on with no literal at all.

Growing is the other half of the module. While code is being written its constants, its closures and the
list of its statements grow, and `Disciplined.extend` says that a listing keeps to the discipline when
they do. What happens when a branch is filled in is left to the module that fills it in.
-/

namespace ScriptMachine

/-! ## Effects -/

/-- What an instruction does to the stack of its activation: how many values it looks at, counted
from the top, how many of them it takes, and how many it leaves instead. -/
structure Effect where
  reads : Nat
  takes : Nat
  leaves : Nat
deriving Repr, DecidableEq

/-- What a literal puts together on the stack, one item after the other. -/
inductive Collection where
  | list
  | dict
deriving Repr, DecidableEq

namespace Operation

/-- Can the instruction after this operation be executed next? -/
def falls : Operation → Bool
  | .jump | .loop | .ret | .tryEnd => false
  | _ => true

/-- Does the operand of the operation say how far ahead control can go on? -/
def isForward : Operation → Bool
  | .jump | .jumpIfFalse | .tryBegin | .tryEnd => true
  | _ => false

/-- Can the operation fail? Leaving a scope, a handler or a loop cannot. -/
def mayRaise : Operation → Bool
  | .pop | .closeUpvalue | .jump | .loop | .tryEnd => false
  | _ => true

/-- Does the operation read or write a slot of its activation? -/
def usesSlot : Operation → Bool
  | .getLocal | .setLocal => true
  | _ => false

/-- Does the operation read or write a captured variable? -/
def usesCapture : Operation → Bool
  | .getUpvalue | .setUpvalue => true
  | _ => false

/-- Does the operation need a closure on top that nothing else can reach? -/
def needsFresh : Operation → Bool
  | .method | .extend | .spawn => true
  | _ => false

/-- Does the operation close the cells of the slots it takes? -/
def closesTaken : Operation → Bool
  | .closeUpvalue => true
  | _ => false

/-- The collection that the operation makes. -/
def makes : Operation → Option Collection
  | .newList => some .list
  | .newDict => some .dict
  | _ => none

/-- The collection that the operation adds to: it is the value below those that are taken. -/
def fills : Operation → Option Collection
  | .addList => some .list
  | .addDict => some .dict
  | _ => none

end Operation

namespace Instruction

/-- **`i.effect`** — the effect of an instruction. A call is counted with the value that the called
activation leaves when it returns. -/
def effect (i : Instruction) : Effect :=
  match i.op with
  | .constant | .pushNull | .pushTrue | .pushFalse | .getLocal | .getGlobal | .getUpvalue
  | .newList | .newDict | .classDef | .enumDef | .closure => ⟨0, 0, 1⟩
  | .jump | .loop | .tryBegin | .tryEnd | .nop => ⟨0, 0, 0⟩
  | .setLocal | .setGlobal | .setUpvalue | .jumpIfFalse => ⟨1, 0, 0⟩
  | .dup | .getPropertyNoPop => ⟨1, 0, 1⟩
  | .pop | .replPop | .defineGlobal | .defineGlobalForced | .closeUpvalue | .abortTask | .extend
  | .ret => ⟨1, 1, 0⟩
  | .getProperty | .inc | .dec | .not | .negate | .isType | .awaitTask | .requireFile
  | .spawn => ⟨1, 1, 1⟩
  | .inherit | .addList => ⟨2, 1, 0⟩
  | .method | .member | .importFile => ⟨2, 2, 0⟩
  | .setProperty | .getSuper | .equal | .greater | .less | .add | .subtract | .multiply | .divide
  | .modulo | .power | .shiftLeft | .shiftRight | .bitwiseAnd | .bitwiseOr | .contains
  | .subscript => ⟨2, 2, 1⟩
  | .addDict => ⟨3, 2, 0⟩
  | .range | .subscriptAssign => ⟨3, 3, 1⟩
  | .concat => ⟨i.first, i.first, 1⟩
  | .call | .invoke => ⟨i.first + 1, i.first + 1, 1⟩
  | .superInvoke => ⟨i.first + 2, i.first + 2, 1⟩

/-- What an instruction takes it has read. -/
theorem takes_le_reads (i : Instruction) : i.effect.takes ≤ i.effect.reads := by
  unfold effect
  cases i.op <;> simp

/-- The operands that are constant indices of names. -/
def names (i : Instruction) : List Nat :=
  match i.op with
  | .getGlobal | .defineGlobal | .defineGlobalForced | .setGlobal | .getProperty
  | .getPropertyNoPop | .setProperty | .getSuper | .classDef | .method | .enumDef
  | .member => [i.first]
  | .invoke | .superInvoke | .isType => [i.second]
  | .extend => [i.first, i.second]
  | _ => []

end Instruction

section Forward

variable {i : Instruction} (hop : i.op.isForward = true)
include hop

/-- The operations whose operand is a distance ahead. -/
theorem Instruction.op_of_forward :
    i.op = .jump ∨ i.op = .jumpIfFalse ∨ i.op = .tryBegin ∨ i.op = .tryEnd := by
  revert hop
  cases i.op <;> simp [Operation.isForward]

/-- The only operand of a forward branch is its distance. -/
theorem Instruction.inRange_forward_iff :
    i.InRange ↔ i.first < 65536 ∧ i.second = 0 ∧ i.captures = [] := by
  unfold InRange
  rcases op_of_forward hop with h | h | h | h <;> simp only [h, Operation.shape]

end Forward

/-! ## Situations -/

/-- An installed handler: where in the code the distance to it stands, and the height it
restores. -/
structure Guard where
  operand : Nat
  height : Nat
deriving Repr, DecidableEq

/-- **`Situation`** — what is known of an activation before an instruction. -/
structure Situation where
  height : Nat
  handlers : List Guard
  mayBeOpen : Nat → Prop
  fresh : Bool
  holds : Nat → Collection → Prop

namespace Situation

/-- What holds of `s` may be taken for `t`: equal heights and handlers, every slot that is shared
in `s` may be shared in `t`, and `t` counts on a fresh closure and on collections only if `s` has
them. -/
structure Flows (s t : Situation) : Prop where
  height : s.height = t.height
  handlers : s.handlers = t.handlers
  mayBeOpen : ∀ j, s.mayBeOpen j → t.mayBeOpen j
  fresh : t.fresh = true → s.fresh = true
  holds : ∀ j k, t.holds j k → s.holds j k

theorem Flows.refl (s : Situation) : s.Flows s :=
  ⟨rfl, rfl, fun _ h => h, id, fun _ _ h => h⟩

theorem Flows.trans {s t u : Situation} (h : s.Flows t) (h' : t.Flows u) : s.Flows u :=
  ⟨h.height.trans h'.height, h.handlers.trans h'.handlers,
    fun j hj => h'.mayBeOpen j (h.mayBeOpen j hj), fun hu => h.fresh (h'.fresh hu),
    fun j k hk => h.holds j k (h'.holds j k hk)⟩

/-- The situation in which a function with so many parameters starts: its callee or receiver and
its arguments are on the stack. -/
def entry (arity : Nat) : Situation :=
  ⟨1 + arity, [], fun _ => False, false, fun _ _ => False⟩

/-- The situation after an instruction at `o`, when the next one follows. -/
def next (s : Situation) (o : Nat) (i : Instruction) : Situation where
  height := s.height - i.effect.takes + i.effect.leaves
  handlers := if i.op = .tryBegin then ⟨o + 1, s.height⟩ :: s.handlers else s.handlers
  mayBeOpen j :=
    (s.mayBeOpen j ∨ ⟨true, j⟩ ∈ i.captures) ∧ j < s.height - i.effect.takes + i.effect.leaves
  fresh := decide (i.op = .closure ∧ ∀ c ∈ i.captures, c.isLocal = true → c.index < s.height)
  holds j k := s.holds j k ∧ j < s.height - i.effect.takes ∨ i.op.makes = some k ∧ j = s.height

/-- The situation after a branch. A handler finds the error on the stack. -/
def branch (s : Situation) (op : Operation) : Situation :=
  match op with
  | .tryBegin => { s with height := s.height + 1, fresh := false }
  | .tryEnd => { s with handlers := s.handlers.tail, fresh := false }
  | _ => { s with fresh := false }

/-- The situation in a handler that restores a height, with `outer` as the handlers around it. No
literal goes on there. -/
def escape (s : Situation) (height : Nat) (outer : List Guard) : Situation :=
  ⟨height + 1, outer, fun j => s.mayBeOpen j ∧ j < height, false, fun _ _ => False⟩

end Situation

/-! ## Ways out of an instruction -/

/-- Where control can go: to an offset, or as far ahead as the operand at some place says. -/
inductive Exit where
  | direct (offset : Nat)
  | through (operand : Nat)
deriving Repr, DecidableEq

/-- **`Leads o i s e t`** — the instruction `i` at `o`, in situation `s`, can be left through `e`,
and the situation is `t` then. -/
inductive Leads (o : Nat) (i : Instruction) (s : Situation) : Exit → Situation → Prop
  | fall (h : i.op.falls = true) : Leads o i s (.direct (o + i.width)) (s.next o i)
  | back (h : i.op = .loop) : Leads o i s (.direct (o + 3 - i.first)) (s.branch i.op)
  | ahead (h : i.op.isForward = true) : Leads o i s (.through (o + 1)) (s.branch i.op)
  | raise {handler : Guard} {outer : List Guard} (h : i.op.mayRaise = true)
      (hs : s.handlers = handler :: outer) :
      Leads o i s (.through handler.operand) (s.escape handler.height outer)

/-! ## Constants -/

/-- What the constants of a function are, by index, and how many variables it captures. A thunk is
a function without parameters. -/
structure Pool where
  size : Nat
  isName : Nat → Prop
  isFunction : (index captures : Nat) → Prop
  isThunk : Nat → Prop
  captures : Nat

/-- Everything one pool has, the other has too. -/
structure Pool.Extends (p q : Pool) : Prop where
  size : p.size ≤ q.size
  isName : ∀ k, p.isName k → q.isName k
  isFunction : ∀ k n, p.isFunction k n → q.isFunction k n
  isThunk : ∀ k, p.isThunk k → q.isThunk k
  captures : p.captures ≤ q.captures

/-- **`i.Suits pool o s`** — the instruction can be executed at `o` in situation `s`. -/
structure Instruction.Suits (pool : Pool) (o : Nat) (s : Situation) (i : Instruction) : Prop where
  inRange : i.InRange
  /-- constants are there, and of the kind that is needed -/
  constant : i.op = .constant → i.first < pool.size
  names : ∀ k ∈ i.names, pool.isName k
  function : i.op = .closure → pool.isFunction i.first i.captures.length
  /-- variables are there -/
  slot : i.op.usesSlot = true → i.first < s.height
  capture : i.op.usesCapture = true → i.first < pool.captures
  captured : ∀ c ∈ i.captures, if c.isLocal then c.index ≤ s.height else c.index < pool.captures
  /-- values are there, and those that are taken are not shared -/
  reads : i.effect.reads < s.height
  shared : ∀ j, s.mayBeOpen j → j < s.height
  taken : i.op.closesTaken = false → ∀ j, s.height - i.effect.takes ≤ j → ¬ s.mayBeOpen j
  fresh : i.op.needsFresh = true → s.fresh = true
  /-- collections are on the stack, in slots that are neither shared nor assigned to -/
  fills : ∀ k, i.op.fills = some k → s.holds (s.height - i.effect.takes - 1) k
  held : ∀ j k, s.holds j k → j < s.height ∧ ¬ s.mayBeOpen j
  assigned : i.op = .setLocal → ∀ k, ¬ s.holds i.first k
  /-- handlers are there, and what they restore is still on the stack -/
  guarded : i.op.mayRaise = true → ∀ h ∈ s.handlers.head?, h.height + i.effect.takes ≤ s.height
  closing : i.op = .tryEnd → s.handlers ≠ []
  /-- a jump back stays within the code -/
  back : i.op = .loop → i.first ≤ o + 3

/-- More constants and more captured variables do no harm. -/
theorem Instruction.Suits.extend {p q : Pool} {o : Nat} {s : Situation} {i : Instruction}
    (h : i.Suits p o s) (hpq : p.Extends q) : i.Suits q o s where
  inRange := h.inRange
  constant hc := Nat.lt_of_lt_of_le (h.constant hc) hpq.size
  names k hk := hpq.isName k (h.names k hk)
  function hf := hpq.isFunction _ _ (h.function hf)
  slot := h.slot
  capture hc := Nat.lt_of_lt_of_le (h.capture hc) hpq.captures
  captured c hc := by
    have hcaptured := h.captured c hc
    cases hl : c.isLocal <;> simp only [hl] at hcaptured ⊢
    · exact Nat.lt_of_lt_of_le hcaptured hpq.captures
    · exact hcaptured
  reads := h.reads
  shared := h.shared
  taken := h.taken
  fresh := h.fresh
  fills := h.fills
  held := h.held
  assigned := h.assigned
  guarded := h.guarded
  closing := h.closing
  back := h.back

/-! ## Listings -/

/-- An instruction with its place in the code and the situation before it. -/
structure Placed where
  offset : Nat
  instr : Instruction
  situation : Situation

/-- The code of a listing. -/
def codeOf (listing : List Placed) : List UInt8 :=
  listing.flatMap fun q => q.instr.encode

@[simp]
theorem codeOf_append (l₁ l₂ : List Placed) : codeOf (l₁ ++ l₂) = codeOf l₁ ++ codeOf l₂ :=
  List.flatMap_append ..

@[simp]
theorem codeOf_cons (q : Placed) (l : List Placed) : codeOf (q :: l) = q.instr.encode ++ codeOf l :=
  List.flatMap_cons ..

/-- A listing, without its situations. -/
def instructionsOf (listing : List Placed) : List (Nat × Instruction) :=
  listing.map fun q => (q.offset, q.instr)

theorem mem_instructionsOf {listing : List Placed} {q : Nat × Instruction} :
    q ∈ instructionsOf listing ↔ ∃ r ∈ listing, r.offset = q.1 ∧ r.instr = q.2 := by
  simp [instructionsOf, Prod.ext_iff]

/-- The instructions follow each other without a gap from an offset on. -/
def Contiguous : Nat → List Placed → Prop
  | _, [] => True
  | o, q :: rest => q.offset = o ∧ q.instr.InRange ∧ Contiguous (o + q.instr.width) rest

/-- Code that follows starts where the code before it ends. -/
theorem contiguous_append {o : Nat} {l₁ l₂ : List Placed} :
    Contiguous o (l₁ ++ l₂) ↔ Contiguous o l₁ ∧ Contiguous (o + (codeOf l₁).length) l₂ := by
  induction l₁ generalizing o with
  | nil => simp [Contiguous, codeOf]
  | cons q l₁ ih =>
    simp only [List.cons_append, Contiguous, ih, codeOf_cons, List.length_append]
    constructor
    · rintro ⟨ho, hr, h₁, h₂⟩
      rw [Instruction.length_encode hr, ← Nat.add_assoc]
      exact ⟨⟨ho, hr, h₁⟩, h₂⟩
    · rintro ⟨⟨ho, hr, h₁⟩, h₂⟩
      rw [Instruction.length_encode hr, ← Nat.add_assoc] at h₂
      exact ⟨ho, hr, h₁, h₂⟩

/-- The instructions after an offset start at or after it. -/
theorem Contiguous.le_offset {o : Nat} {l : List Placed} (h : Contiguous o l) :
    ∀ q ∈ l, o ≤ q.offset := by
  induction l generalizing o with
  | nil => simp
  | cons p l ih =>
    obtain ⟨hp, -, hl⟩ := h
    intro q hq
    rcases List.mem_cons.mp hq with rfl | hq
    · exact Nat.le_of_eq hp.symm
    · exact Nat.le_trans (Nat.le_add_right ..) (ih hl q hq)

/-- Every instruction of a listing ends within its code. -/
theorem Contiguous.end_le {o : Nat} {l : List Placed} (h : Contiguous o l) :
    ∀ q ∈ l, q.offset + q.instr.width ≤ o + (codeOf l).length := by
  induction l generalizing o with
  | nil => simp
  | cons p l ih =>
    obtain ⟨hp, hr, hl⟩ := h
    intro q hq
    rw [codeOf_cons, List.length_append, Instruction.length_encode hr]
    rcases List.mem_cons.mp hq with rfl | hq
    · omega
    · have := ih hl q hq
      omega

/-- An instruction stands where its predecessors end. -/
theorem Contiguous.offset_eq {o : Nat} {l₁ l₂ : List Placed} {q : Placed}
    (h : Contiguous o (l₁ ++ q :: l₂)) : q.offset = o + (codeOf l₁).length :=
  (contiguous_append.mp h).2.1

/-- No two instructions of a listing stand at the same place. -/
theorem Contiguous.offset_inj {o : Nat} {l : List Placed} (h : Contiguous o l) {p q : Placed}
    (hp : p ∈ l) (hq : q ∈ l) (heq : p.offset = q.offset) : p = q := by
  induction l generalizing o with
  | nil => simp at hp
  | cons r l ih =>
    obtain ⟨hr, -, hl⟩ := h
    have hpos := r.instr.width_pos
    rcases List.mem_cons.mp hp with hpr | hp'
    · rcases List.mem_cons.mp hq with hqr | hq'
      · rw [hpr, hqr]
      · have := hl.le_offset q hq'
        rw [← heq, hpr] at this
        omega
    · rcases List.mem_cons.mp hq with hqr | hq'
      · have := hl.le_offset p hp'
        rw [heq, hqr] at this
        omega
      · exact ih hl hp' hq'

/-- In a listing, `e` goes to an instruction whose situation agrees with `t`. -/
def Reaches (listing : List Placed) (t : Situation) : Exit → Prop
  | .direct o => ∃ q ∈ listing, q.offset = o ∧ t.Flows q.situation
  | .through a =>
    ∃ b ∈ listing, b.offset + 1 = a ∧ b.instr.op.isForward = true ∧
      ∃ q ∈ listing, q.offset = a + 2 + b.instr.first ∧ t.Flows q.situation

/-- **`Disciplined pool arity code statements closures listing`** — the code is that of the listing,
it ends with a return, and every way through it agrees with the situations in the listing. The
landmarks tell how many locals are declared where statements start and where closures are made. -/
structure Disciplined (pool : Pool) (arity : Nat) (code : Array UInt8)
    (statements closures : List Landmark) (listing : List Placed) : Prop where
  code_eq : code.toList = codeOf listing
  contiguous : Contiguous 0 listing
  suits : ∀ q ∈ listing, q.instr.Suits pool q.offset q.situation
  entry : Reaches listing (.entry arity) (.direct 0)
  exits : ∀ q ∈ listing, ∀ e t, Leads q.offset q.instr q.situation e t → Reaches listing t e
  last : ∃ q ∈ listing.getLast?, q.instr.op = .ret
  statements : ∀ l ∈ statements, ∃ q ∈ listing, q.offset = l.offset ∧ q.situation.height = l.locals
  closures : ∀ q ∈ listing, q.instr.op = .closure →
    ∃ l ∈ closures, l.offset = q.offset ∧
      ∀ c ∈ q.instr.captures, c.isLocal = true → c.index < l.locals

/-- Code stays disciplined when constants are added. -/
theorem Disciplined.extend {p q : Pool} {arity : Nat} {code : Array UInt8}
    {statements closures : List Landmark} {listing : List Placed}
    (h : Disciplined p arity code statements closures listing) (hpq : p.Extends q) :
    Disciplined q arity code statements closures listing :=
  { h with suits := fun r hr => (h.suits r hr).extend hpq }

end ScriptMachine
