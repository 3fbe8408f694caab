import ScriptMachine.Proofs.Compiler.Lexical
import ScriptMachine.Proofs.Machine.Histories

/-!
# ScriptMachine.Proofs.Machine.Closures — a captured variable is the one its name means

The instruction that makes a closure collects a cell for each capture: for a local of the activation
that executes it the open cell of its slot, for a capture of its function the cell that its closure
has. So when closures are made one inside the other, as their functions are nested in the text, the
cell that a closure has for a capture is that of the variable which the capture leads to.

The main statement, `variables_lexical`, follows a name all the way. The compiler resolves it to a
capture, the captures lead outward to a local (`Resolution`), they keep doing so while the rest of the
text is compiled, and the function is closed over them in their order (`Lexical`). What is added here is
the machine: `Machine.Makes` is one execution of the instruction, and `Nested` is a tower of them, as
high as the functions are nested. The induction of `Nested.upvalue` is on the tower.

`Nested` ties closures to the functions of a state of the compiler by their captures only. That a closure
runs the code compiled for its function is not said again: the instruction names its prototype by a
constant, and loading an image keeps constants, which is proved with the loading of images.
-/

namespace ScriptMachine

open Compiler (State)
open Machine (rehearse reachable_rehearse honest_rehearse)

variable {m m' : Machine} {s : State} {f : Frame} {i : Instruction} {c c₀ : Closure} {d k e slot : Nat}
  {captures : List Capture}

/-- **`m.Makes f captures m' c`** — in a reachable machine the activation `f` makes the closure `c`, by an
instruction with some captures. -/
structure Machine.Makes (m : Machine) (f : Frame) (captures : List Capture) (m' : Machine)
    (c : Closure) : Prop where
  reachable : m.Reachable
  ready : m.Ready
  honest : m.heap.Honest
  running : ∃ frames, m.fiber.frames = f :: frames
  next : ∃ i, f.chunk.instruction? m.heap f.ip = some i ∧ i.op = .closure ∧ i.captures = captures
  step : Exec.step m = .ok () m'
  pushed : ∃ r, m'.fiber.stack = m.fiber.stack.push (.obj r) ∧ m'.heap.closure? r = some c

/-- A new closure leaves the cells and the closures there are. -/
theorem Machine.Collects.obtains_withClosure (hm : m.Collects) {cap : Capture} {r : Ref}
    (h : m.Obtains f cap r) : (m.withClosure c).Obtains f cap r := by
  have hkeeps := hm.healthy.sound.tidy.keeps_alloc (.closure c)
  unfold Machine.Obtains at h ⊢
  split
  · rename_i hlocal
    rw [if_pos hlocal] at h
    exact h
  · rename_i hlocal
    rw [if_neg hlocal] at h
    obtain ⟨enclosing, hclosure, hindex⟩ := h
    exact ⟨enclosing, hkeeps.evolves.closure? hclosure, hindex⟩

/-- **A closure is made over cells for all its captures**, in whatever reachable machine. -/
theorem Machine.Reachable.makes {frames : List Frame} (hm : m.Reachable) (hready : m.Ready)
    (hhonest : m.heap.Honest) (hframes : m.fiber.frames = f :: frames)
    (hi : f.chunk.instruction? m.heap f.ip = some i) (hop : i.op = .closure) :
    ∃ m' c, m.Makes f i.captures m' c ∧ List.Forall₂ (m'.Obtains f) i.captures c.upvalues.toList := by
  obtain ⟨a, rest, q, hs⟩ := hm.valid.stepping hready hhonest
  obtain rfl := hs.next_inj ⟨f, frames, hframes, hi⟩
  obtain ⟨rfl, -⟩ := List.cons.inj (hframes.symm.trans hs.poised.frames)
  obtain ⟨r, rs, m₁, -, hcollects, hk, hrs, hexec, -, (_ : Law (fun _ => False) _ _)⟩ := hs.makes hop
  have htidy := hcollects.healthy.sound.tidy
  have hfiber : m₁.fiber = { (Stepping.inside m a rest q).fiber with
      openUpvalues := m₁.fiber.openUpvalues } := by rw [hk.machine]
  have hstack : m₁.fiber.stack = m.fiber.stack := by rw [hfiber]; rfl
  let c : Closure := ⟨r, rs.toArray, a.frame.package⟩
  refine ⟨m₁.withClosure c, c, ⟨hm, hready, hhonest, ⟨frames, hframes⟩, ⟨q.instr, hi, hop, rfl⟩,
    (Exec.step_eq hs.poised).trans hexec, (m₁.heap.alloc (.closure c)).1, ?_, ?_⟩, ?_⟩
  · exact congrArg (Array.push · _) hstack
  · exact Heap.closure?_eq_some.mpr (htidy.get?_alloc_self _)
  · exact hrs.imp fun _ _ h => hcollects.obtains_withClosure h

/-- Whatever closure is made, it has the cells. -/
theorem Machine.Makes.cells (h : m.Makes f captures m' c) :
    List.Forall₂ (m'.Obtains f) captures c.upvalues.toList := by
  obtain ⟨hm, hready, hhonest, ⟨frames, hframes⟩, ⟨i, hi, hop, rfl⟩, hstep, r, hstack, hclosure⟩ := h
  obtain ⟨m₁, c₁, ⟨-, -, -, -, -, hstep₁, r₁, hstack₁, hclosure₁⟩, hcells⟩ :=
    hm.makes hready hhonest hframes hi hop
  obtain rfl : m₁ = m' := (EStateM.Result.ok.inj (hstep₁.symm.trans hstep)).2
  obtain rfl : r = r₁ := by simpa [Array.push_eq_push] using hstack.symm.trans hstack₁
  obtain rfl : c = c₁ := Option.some.inj (hclosure.symm.trans hclosure₁)
  exact hcells

/-- **`Nested s d c cell`** — `c` is a closure of the function `d` levels out, made inside closures of the
functions around that one, where `cell e slot` is the cell of the variable in a slot of the activation
of the function `e` levels out. A function without captures can be anywhere. -/
inductive Nested (s : State) : Nat → Closure → (Nat → Nat → Ref) → Prop
  | outermost {d : Nat} {c : Closure} {cell : Nat → Nat → Ref}
      (hnone : (s.functionAt d).captures = #[]) : Nested s d c cell
  | inner {m m' : Machine} {f : Frame} {d : Nat} {c c₀ : Closure} {cell cell' : Nat → Nat → Ref}
      (hm : m.Makes f (s.functionAt d).captures.toList m' c)
      (henclosing : m'.heap.closure? f.closure = some c₀) (h₀ : Nested s (d + 1) c₀ cell)
      (hcells : ∀ slot r, (f.base + slot, r) ∈ m'.fiber.openUpvalues → cell' (d + 1) slot = r)
      (hout : ∀ e slot, d + 1 < e → cell' e slot = cell e slot) : Nested s d c cell'

/-- **A closure has the cells of the variables that its captures lead to.** The induction is on how the
closures are nested. -/
theorem Nested.upvalue {cell : Nat → Nat → Ref} (h : Nested s d c cell)
    (hl : s.Leads d k e slot) : c.upvalues[k]? = some (cell e slot) := by
  induction h generalizing k with
  | outermost hnone => cases hl <;> simp_all
  | @inner m m' f d c c₀ cell cell' hm henclosing _ hcells hout ih =>
    have hcell : ∀ cap, (s.functionAt d).captures[k]? = some cap →
        ∃ r, c.upvalues[k]? = some r ∧ m'.Obtains f cap r := by
      intro cap hcap
      rw [← Array.getElem?_toList] at hcap
      obtain ⟨hlt, rfl⟩ := List.getElem?_eq_some_iff.mp hcap
      have hlt' := hm.cells.length_eq ▸ hlt
      refine ⟨c.upvalues.toList[k], ?_, hm.cells.get hlt hlt'⟩
      rw [← Array.getElem?_toList, List.getElem?_eq_getElem hlt']
    cases hl with
    | here hcap =>
      obtain ⟨r, hr, hobtains⟩ := hcell _ hcap
      rw [hr, hcells slot r hobtains]
    | further hcap hl =>
      obtain ⟨r, hr, hobtains⟩ := hcell _ hcap
      obtain ⟨c₁, hc₁, hj⟩ := hobtains
      obtain rfl := Option.some.inj (hc₁.symm.trans henclosing)
      rw [hr, ← hj, ih hl, hout _ _ hl.lt]

/-! ## Closures that are made in a rehearsal -/

deriving instance DecidableEq for Closure

/-- The closure on top of the stack. -/
def Machine.made? (m : Machine) : Option Closure :=
  (m.fiber.stack.back?.bind Value.ref?).bind m.heap.closure?

/-- The closure of the activation that executes the next instruction, as it is afterwards. -/
def Machine.enclosing? (m : Machine) : Option Closure :=
  m.fiber.frames.head?.bind fun f => m.successor.heap.closure? f.closure

/-- The captures of the next instruction. -/
def Machine.captures? (m : Machine) : Option (List Capture) :=
  m.next?.map (·.captures)

/-- The closure that a step makes is what is on the stack after it. -/
theorem Machine.Makes.made (h : m.Makes f captures m' c) : m'.made? = some c := by
  obtain ⟨r, hstack, hclosure⟩ := h.pushed
  unfold Machine.made?
  rw [hstack, Array.back?_push]
  exact hclosure

/-- A closure is made by the activation on top. -/
theorem Machine.Makes.of_performs {task : Nat} (hm : m.Reachable) (hhonest : m.heap.Honest)
    (h : m.Performs task .closure) (hcaptures : m.captures? = some captures)
    (henclosing : m.enclosing? = some c₀) :
    ∃ f c, m.Makes f captures m.successor c ∧ m.successor.heap.closure? f.closure = some c₀ := by
  obtain ⟨i, hnext, hop⟩ := h.next
  obtain rfl : i.captures = captures := by
    simpa [Machine.captures?, next_iff.mp hnext] using hcaptures
  obtain ⟨f, frames, hframes, hi⟩ := hnext
  obtain ⟨m₁, c, hmakes, -⟩ := hm.makes h.ready hhonest hframes hi hop
  obtain rfl : m₁ = m.successor := (EStateM.Result.ok.inj (hmakes.step.symm.trans h.step)).2
  exact ⟨f, c, hmakes, by simpa [Machine.enclosing?, hframes] using henclosing⟩

/-! ## Lexical scope -/

namespace Compiler

/-- A name that is resolved to a capture denotes the local that the capture leads to, also later. -/
theorem leads_of_resolves {name : String} {s₁ s' : State} {a : Access}
    (h : Resolves s name a s₁) (hupvalue : a.get = .getUpvalue) (hnearest : s.Nearest name 0 e slot)
    (hlater : ∀ d, (s₁.functionAt d).captures.toList <+: (s'.functionAt d).captures.toList) :
    s'.Leads 0 a.operand e slot ∨ s₁.Overfull := by
  cases h with
  | here => cases hupvalue
  | nowhere => cases hupvalue
  | around _ hfound hreaches =>
    obtain ⟨rfl, rfl⟩ := hfound.unique hnearest
    exact hreaches.imp (fun hleads => hleads.1.mono hlater) id

/-- **Variables are lexical.** A name is resolved to the last local of the name in the function being
compiled, or to a capture that leads to the last local of the name in the nearest function around, or
to a global. Captures keep what they lead to while names are resolved and whatever else is compiled,
and two names share a capture only if they denote the same local. A function is closed over just its
captures; and a closure has for each capture the cell of the variable that the capture leads to, in the
activation that made the closure or in one that this was made in. -/
theorem variables_lexical (s : State) :
    (∀ name, Resolves s name (resolveVariable name s).1 (resolveVariable name s).2 ∧
      ∀ d k e slot, s.Leads d k e slot → (resolveVariable name s).2.Leads d k e slot) ∧
    (∀ (o : Stance) (goals : Goal) (depth : Nat), o.At s → 2 * s.rest.length + 2 ≤ depth →
      (goals = .declaration → s.current.kind ≠ .endOfText) →
        ∀ d k e slot, s.Leads d k e slot → (goal depth goals s).2.Leads d k e slot) ∧
    (∀ name name' s' e slot e' slot', s.Nearest name 0 e slot → s'.Nearest name' 0 e' slot' →
      (resolveVariable name s).1.get = .getUpvalue →
      (resolveVariable name' s').1 = (resolveVariable name s).1 →
      (∀ d, ((resolveVariable name s).2.functionAt d).captures.toList <+:
        (s'.functionAt d).captures.toList) →
        e = e' ∧ slot = slot' ∨
          (resolveVariable name s).2.Overfull ∨ (resolveVariable name' s').2.Overfull) ∧
    (∀ outer rest, s.enclosing = outer :: rest → ∃ constant,
      (endFunction s).2.function.chunk.code.toList = outer.chunk.code.toList ++
        (⟨.closure, constant, 0, s.function.captures.toList⟩ : Instruction).encode ∧
      (outer.chunk.isFull = false → ∃ r p statements closures,
        (endFunction s).2.function.chunk.constants[constant]? = some (.obj r) ∧
        (endFunction s).2.image[r.index]? = some (.function p statements closures) ∧
        p.captureCount = s.function.captures.size)) ∧
    (∀ (m : Machine) f frames i, m.Reachable → m.Ready → m.heap.Honest →
      m.fiber.frames = f :: frames → f.chunk.instruction? m.heap f.ip = some i → i.op = .closure →
        ∃ m' c, m.Makes f i.captures m' c ∧
          List.Forall₂ (m'.Obtains f) i.captures c.upvalues.toList) ∧
    ∀ d c cell, Nested s d c cell →
      ∀ k e slot, s.Leads d k e slot → c.upvalues[k]? = some (cell e slot) := by
  refine ⟨fun name => ⟨resolveVariable_resolves name s, fun d k e slot hl => ?_⟩,
    fun o goals depth ho hdepth hgoal d k e slot hl => hl.mono (captures_goal ho hdepth hgoal),
    fun name name' s' e slot e' slot' hnearest hnearest' hupvalue hsame hlater => ?_,
    fun outer rest => endFunction_closes, fun m f frames i hm hready hhonest hframes hi hop =>
      hm.makes hready hhonest hframes hi hop, fun d c cell h k e slot hl => h.upvalue hl⟩
  · exact (resolveVariable_adding name s).leads hl
  · -- both names lead along the captures of the later state, and a capture leads to one local
    have hadds := resolveVariable_adding name' s'
    have hfirst := leads_of_resolves (resolveVariable_resolves name s) hupvalue hnearest
      fun d => (hlater d).trans (hadds.functions d).captures
    have hsecond := leads_of_resolves (resolveVariable_resolves name' s') (hsame ▸ hupvalue) hnearest'
      fun _ => List.prefix_rfl
    rw [hsame] at hsecond
    rcases hfirst with hleads | hfull
    · rcases hsecond with hleads' | hfull
      · exact .inl (hleads.unique hleads')
      · exact .inr (.inr hfull)
    · exact .inr (.inl hfull)

/-- The innermost of three functions has a variable of the outermost. -/
def nestedFunctions : String :=
  "@() \x7b var x; @() \x7b @() \x7b x; \x7d; \x7d(); \x7d();"

/-- The compiler goes into a function without a name, as far as its first statement. -/
def enterFunction : Compile Unit := do
  beginStatement
  advance
  pushFunction .function (some "lambda")
  beginScope
  expect .leftParen "Expect '(' after function name."
  parameters
  expect .rightParen "Expect ')' after parameters."
  emitArgsPrologue
  expect .leftBrace "Expect '\x7b' before function body."

/-- The compiler in the innermost function, where it is about to meet the name. -/
def innermost : State :=
  ((do advance; enterFunction; goal 8 .declaration; enterFunction; enterFunction).run
    (.start nestedFunctions "main")).2

theorem nearest_innermost : innermost.Nearest "x" 0 2 2 := by
  have hfound : innermost.enclosing.length = 3 ∧
      latestLocal? (innermost.functionAt 1).locals "x" = none ∧
      latestLocal? (innermost.functionAt 2).locals "x" = some 2 := by
    decide +kernel
  obtain ⟨hlength, hnone, hsome⟩ := hfound
  refine ⟨by decide, by omega, declares_of_latestLocal? hsome, fun i hi hi' j => ?_⟩
  obtain rfl : i = 1 := by omega
  exact not_declares_of_latestLocal? hnone

/-- The name adds a capture to the innermost function and one to the function around it. -/
theorem captures_innermost :
    ((resolveVariable "x" innermost).2.functionAt 0).captures = #[⟨false, 0⟩] ∧
      ((resolveVariable "x" innermost).2.functionAt 1).captures = #[⟨true, 2⟩] ∧
      ((resolveVariable "x" innermost).2.functionAt 2).captures = #[] := by
  decide +kernel

/-- The functions are closed over these captures, one inside the other. The variable is in the slot 3 of
the stack, which is the slot 2 of the outermost function, and the innermost closure has its cell. -/
theorem variables_lexical_nestedFunctions :
    innermost.Nearest "x" 0 2 2 ∧ (resolveVariable "x" innermost).2.Leads 0 0 2 2 ∧
      ∃ c r, (rehearse nestedFunctions 12).made? = some c ∧
        (3, r) ∈ (rehearse nestedFunctions 12).fiber.openUpvalues ∧
        Nested (resolveVariable "x" innermost).2 0 c (fun _ _ => r) ∧ c.upvalues[0]? = some r := by
  obtain ⟨hinner, hmiddle, houter⟩ := captures_innermost
  have hleads : (resolveVariable "x" innermost).2.Leads 0 0 2 2 :=
    .further (by rw [hinner]; rfl) (.here (by rw [hmiddle]; rfl))
  have hfacts : ((rehearse nestedFunctions 6).Performs mainTask .closure ∧
        (rehearse nestedFunctions 6).captures? = some [⟨true, 2⟩] ∧
        (rehearse nestedFunctions 6).enclosing?.isSome = true) ∧
      ((rehearse nestedFunctions 11).Performs mainTask .closure ∧
        (rehearse nestedFunctions 11).captures? = some [⟨false, 0⟩] ∧
        (rehearse nestedFunctions 11).enclosing? = (rehearse nestedFunctions 7).made?) ∧
      (rehearse nestedFunctions 7).fiber.openUpvalues =
        (rehearse nestedFunctions 12).fiber.openUpvalues ∧
      (rehearse nestedFunctions 12).fiber.openUpvalues.map (·.1) = [3] := by
    decide +kernel
  obtain ⟨⟨hmiddle₁, hcaptures₁, henclosing₁⟩, ⟨hinner₂, hcaptures₂, henclosing₂⟩, hopen, hslots⟩ :=
    hfacts
  obtain ⟨⟨_, r⟩, hr, rfl⟩ := List.map_eq_singleton_iff.mp hslots
  obtain ⟨c₀, hc₀⟩ := Option.isSome_iff_exists.mp henclosing₁
  obtain ⟨f₁, c₁, hmakes₁, hf₁⟩ :=
    Machine.Makes.of_performs (reachable_rehearse _ _) (honest_rehearse _ _) hmiddle₁ hcaptures₁ hc₀
  obtain ⟨f₂, c₂, hmakes₂, hf₂⟩ :=
    Machine.Makes.of_performs (reachable_rehearse _ _) (honest_rehearse _ _) hinner₂ hcaptures₂
      (henclosing₂.trans hmakes₁.made)
  -- In both activations it is the one variable that has an open cell.
  have hcell : ∀ {slot : Nat} {r' : Ref},
      (slot, r') ∈ (rehearse nestedFunctions 12).fiber.openUpvalues → r = r' := by
    intro slot r' hmem
    rw [hr, List.mem_singleton] at hmem
    exact (congrArg Prod.snd hmem).symm
  have hnested₁ : Nested (resolveVariable "x" innermost).2 1 c₁ fun _ _ => r := by
    have houtermost : Nested (resolveVariable "x" innermost).2 2 c₀ fun _ _ => r :=
      .outermost houter
    refine .inner (m := rehearse nestedFunctions 6) ?_ hf₁ houtermost
      (fun slot r' hmem => hcell (hopen ▸ hmem)) fun _ _ _ => rfl
    rw [hmiddle]
    exact hmakes₁
  have hnested₂ : Nested (resolveVariable "x" innermost).2 0 c₂ fun _ _ => r := by
    refine .inner (m := rehearse nestedFunctions 11) ?_ hf₂ hnested₁
      (fun slot r' hmem => hcell hmem) fun _ _ _ => rfl
    rw [hinner]
    exact hmakes₂
  obtain ⟨-, -, -, -, -, hupvalue⟩ := variables_lexical (resolveVariable "x" innermost).2
  exact ⟨nearest_innermost, hleads, c₂, r, hmakes₂.made, by simp [hr], hnested₂,
    hupvalue 0 c₂ _ hnested₂ 0 2 2 hleads⟩

end Compiler

end ScriptMachine
