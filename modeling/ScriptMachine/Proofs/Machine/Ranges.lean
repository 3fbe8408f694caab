import Mathlib
import ScriptMachine.Proofs.Machine.Control
import ScriptMachine.Proofs.Number.Ranges

/-!
# ScriptMachine.Proofs.Machine.Ranges — what becomes of a range of the script

The machine takes the two ends and the step from the stack. It refuses what is neither a number nor a
character, and a step of zero. Everything else is a range, and its items are listed, if it ends: not to
end takes a step that is lost on one of the numbers of the range.

`expand_ends` is an equivalence for each of the cases, and `expand_ends_lostStep` is a range that does not
end although its step is not zero. That is a defect of the loop, which refuses a step of zero for just
this reason. The machine here notices such a range instead of running on, and the numbers of all others
are those of the plain loop (`Range.numbers?_eq_some_iff`).
-/

namespace ScriptMachine

variable {m : Machine} {h : Heap} {first second third : Value} {below : Array Value} {r : Range}
  {start stop step : Float} {given : Option Value} {exclusive : Bool}

/-- The range of three values, with its first number, or why they have none. -/
def Heap.range (h : Heap) (exclusive : Bool) (first second third : Value) :
    Except Fault (Range × Float) :=
  let (given, last) := if third.isNone then (none, second) else (some second, third)
  match Exec.endpoint? h first, Exec.endpoint? h last with
  | some (start, characters), some (stop, _) =>
    match Exec.stepOf h given start stop with
    | .error e => .error e
    | .ok step => .ok ({ step, stop, exclusive, characters }, start)
  | _, _ => .error .notExpandable

/-- **`h.ListsRange r items numbers`** — the items are those of the numbers of a range: the numbers, or
the texts of the characters that they count. -/
def Heap.ListsRange (h : Heap) (r : Range) (items : Array Value) (numbers : Array Float) : Prop :=
  List.Forall₂ (fun v x => if r.characters then
      h.textOf? v = some (String.singleton (Char.ofNat (Number.toCodePoint x)))
    else v = .number x) items.toList numbers.toList

/-- Items stay what they are when there are more objects. -/
theorem Heap.ListsRange.of_keeps {h' : Heap} {items : Array Value} {numbers : Array Float}
    (hl : h.ListsRange r items numbers) (hkeeps : h.Keeps h') : h'.ListsRange r items numbers := by
  refine List.Forall₂.imp (fun v x hv => ?_) hl
  split at hv
  · rename_i hcharacters
    rw [if_pos hcharacters]
    cases v with
    | obj ref => exact hkeeps.text? hv
    | _ => cases hv
  · rename_i hnumbers
    rw [if_neg hnumbers, hv]

namespace Exec

/-- A step of zero is refused, and none that is taken is zero. -/
theorem stepOf_ne_zero (hstep : stepOf h given start stop = .ok step) : (step == 0) = false := by
  have hunits : ((-1 : Float) == 0) = false ∧ ((1 : Float) == 0) = false := by decide +kernel
  unfold stepOf at hstep
  split at hstep
  · split at hstep
    · split at hstep
      · cases hstep
      · rename_i hne
        obtain rfl := Except.ok.inj hstep
        exact Bool.eq_false_iff.mpr hne
    · cases hstep
  · obtain rfl := Except.ok.inj hstep
    split
    · exact hunits.1
    · exact hunits.2

/-- No range has a step of zero. -/
theorem range_step_ne_zero (hrange : h.range exclusive first second third = .ok (r, start)) :
    (r.step == 0) = false := by
  unfold Heap.range at hrange
  dsimp only at hrange
  split at hrange
  · split at hrange
    · cases hrange
    · rename_i hstep
      obtain ⟨rfl, -⟩ := Prod.mk.inj (Except.ok.inj hrange)
      exact stepOf_ne_zero hstep
  · cases hrange

/-! ## Evaluation -/

/-- What becomes of the three operands of a range. -/
theorem expand_eq (hs : m.fiber.stack = ((below.push first).push second).push third) :
    expand exclusive m = match m.heap.range exclusive first second third with
    | .error e => .error e m.popped.popped.popped
    | .ok (r, start) => match r.numbers? start with
      | none => .error .endless m.popped.popped.popped
      | some numbers =>
        (do push (← allocValue (.list (← rangeItems r.characters numbers))) : Exec Unit)
          m.popped.popped.popped := by
  obtain ⟨hthird, hs⟩ := pop_push hs
  obtain ⟨hsecond, hs⟩ := pop_push hs
  obtain ⟨hfirst, -⟩ := pop_push hs
  unfold expand Heap.range
  rw [bind_ok hthird, bind_ok hsecond, bind_ok hfirst]
  generalize (if third.isNone then (none, second) else (some second, third)) = operands
  obtain ⟨given, last⟩ := operands
  have hheap : m.popped.popped.popped.heap = m.heap := rfl
  dsimp only
  rw [bind_ok (heap_eq _), hheap]
  rcases endpoint? m.heap first with _ | ⟨start, characters⟩
  · rfl
  rcases endpoint? m.heap last with _ | ⟨stop, _⟩
  · rfl
  dsimp only
  cases stepOf m.heap given start stop with
  | error e => rfl
  | ok step =>
    dsimp only
    cases Range.numbers? _ start <;> rfl

/-- Texts are interned one after the other, and each is there in the end. -/
theorem mapM_internValue (ht : m.heap.Tidy) (texts : List String) : ∃ vs m',
    texts.mapM internValue m = .ok vs m' ∧ m'.heap.Tidy ∧ m.heap.Keeps m'.heap ∧
      m'.fiber = m.fiber ∧ List.Forall₂ (fun v s => m'.heap.textOf? v = some s) vs texts := by
  induction texts generalizing m with
  | nil => exact ⟨[], m, rfl, ht, .refl _, rfl, .nil⟩
  | cons s texts ih =>
    obtain ⟨htidy, hkeeps, htext⟩ := ht.intern s
    obtain ⟨vs, m', hrun, htidy', hkeeps', hfiber, hvs⟩ :=
      ih (m := { m with heap := (m.heap.intern s).2 }) htidy
    refine ⟨.obj (m.heap.intern s).1 :: vs, m', ?_, htidy', hkeeps.trans hkeeps', hfiber,
      .cons (hkeeps'.text? htext) hvs⟩
    have hfirst : internValue s m =
        .ok (.obj (m.heap.intern s).1) { m with heap := (m.heap.intern s).2 } := rfl
    rw [List.mapM_cons, bind_ok hfirst, bind_ok hrun]
    rfl

theorem rangeItems_lists (ht : m.heap.Tidy) (r : Range) (numbers : Array Float) : ∃ items m',
    rangeItems r.characters numbers m = .ok items m' ∧ m'.heap.Tidy ∧ m'.fiber = m.fiber ∧
      m'.heap.ListsRange r items numbers := by
  unfold rangeItems Heap.ListsRange
  cases r.characters with
  | false =>
    refine ⟨numbers.map .number, m, rfl, ht, rfl, ?_⟩
    simp [List.forall₂_map_left_iff]
  | true =>
    obtain ⟨vs, m', hrun, htidy, -, hfiber, hvs⟩ := mapM_internValue ht
      (numbers.toList.map fun x => String.singleton (Char.ofNat (Number.toCodePoint x)))
    refine ⟨vs.toArray, m', ?_, htidy, hfiber, ?_⟩
    · exact bind_ok hrun
    · simpa [List.forall₂_map_right_iff] using hvs

/-- **`expand_ends`** — three operands that have no range are refused. If they have one, it ends unless
its step is lost on one of its numbers; and when it has ended, the list of its items is on the stack. -/
theorem expand_ends (ht : m.heap.Tidy)
    (hs : m.fiber.stack = ((below.push first).push second).push third) :
    (∀ e, m.heap.range exclusive first second third = .error e →
      ∃ m', expand exclusive m = .error e m') ∧
    ∀ r start, m.heap.range exclusive first second third = .ok (r, start) →
      ((∃ rounds numbers, r.walk rounds start #[] = some numbers) ↔ ¬ r.Sticks start) ∧
      ∀ numbers, r.walk Range.limit start #[] = some numbers → ∃ list items m',
        expand exclusive m = .ok () m' ∧ m'.fiber.stack = below.push (.obj list) ∧
        m'.heap.get? list = some (.list items) ∧ m'.heap.ListsRange r items numbers := by
  refine ⟨fun e hrange => ⟨_, by rw [expand_eq hs, hrange]⟩, fun r start hrange =>
    ⟨Range.walk_ends_iff (range_step_ne_zero hrange), fun numbers hwalk => ?_⟩⟩
  obtain ⟨items, m', hrun, htidy, hfiber, hitems⟩ :=
    rangeItems_lists (m := m.popped.popped.popped) ht r numbers
  have hstack : m'.fiber.stack = below := by
    rw [hfiber, (pop_push (pop_push (pop_push hs).2).2).2]
  rw [expand_eq hs, hrange]
  dsimp only
  rw [Range.numbers?_eq_some_iff.mpr hwalk]
  refine ⟨(m'.heap.alloc (.list items)).1, items, _, (bind_ok hrun).trans rfl, ?_,
    htidy.get?_alloc_self _, hitems.of_keeps (htidy.keeps_alloc _)⟩
  rw [← hstack]
  rfl

/-- From two to the power of 53 a range by one goes nowhere. -/
theorem expand_ends_lostStep :
    let first : Float := 9007199254740992
    let stop : Float := 9007199254740994
    let m : Machine := { (default : Machine) with
      heap := .new {}
      fiber := { Fiber.new mainTask default with stack := #[.number first, .number stop, .none] } }
    let r : Range := { step := 1, stop, exclusive := false, characters := false }
    m.heap.Tidy ∧ m.heap.range false (.number first) (.number stop) .none = .ok (r, first) ∧
      ¬ ∃ rounds numbers, r.walk rounds first #[] = some numbers := by
  intro first stop m r
  have hrange : m.heap.range false (.number first) (.number stop) .none = .ok (r, first) := by
    have hstep : stepOf m.heap none first stop = .ok 1 := by
      unfold stepOf
      rw [if_neg (by decide +kernel)]
    show (match stepOf m.heap none first stop with
      | .error e => Except.error e
      | .ok step => Except.ok ({ r with step }, first)) = _
    rw [hstep]
  have hs : m.fiber.stack = (((#[] : Array Value).push _).push _).push _ := rfl
  have hends := ((expand_ends (Heap.new_tidy {}) hs).2 r first hrange).1
  refine ⟨Heap.new_tidy {}, hrange, fun hwalk => hends.mp hwalk (.here ?_ ?_ ?_)⟩ <;> decide +kernel

end Exec

end ScriptMachine
