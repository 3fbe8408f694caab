import ScriptMachine.Proofs.Compiler.Notes
import ScriptMachine.Proofs.Compiler.Triple

/-!
# ScriptMachine.Proofs.Compiler.Invariant — what the compiler keeps true of a function

A `View` says how far the compilation of a function has come: which locals there are, how high the
stack is at the end of the code, which handlers are installed and which loops are open there, which
branches still wait for their target. `Tracks` ties a view to the state of a function: the code is
assembled, with the claims and the tip that the view tells.

Which slots may be shared at the head of a loop is not known before the end of the loop, because
its body can still capture a variable declared outside. The code is therefore assembled for every
answer `F` that covers what has been captured so far; leaving the loop picks the right one.

There is one lemma for each way in which the compiler touches a function: an instruction at the end of
the code (`Tracks.emit_falling`, `emit_branch`, `emit_back`, `emit_return`), a branch filled in
(`Tracks.patch`), a local declared, readied or dropped, a loop begun and ended, a constant added. They
all go through `Tracks.emit` or `WrittenAs.weaken`, where the listing is extended or taken for another
one.

`Tracks.disciplined` is what it is for: when a function has returned and no branch is open, its code is
disciplined. Nothing is said about which code is written, only that it treats the stack well; that it
does what the text means is proved for some forms of text elsewhere (`Precedence`, `Loads`, `Resolution`).
-/

namespace ScriptMachine.Compiler

/-- Everything one array has is at the same index of the other. -/
def Extended {α : Type} (a b : Array α) : Prop :=
  ∀ (k : Nat) (x : α), a[k]? = some x → b[k]? = some x

theorem Extended.refl {α : Type} (a : Array α) : Extended a a :=
  fun _ _ h => h

theorem Extended.push {α : Type} (a : Array α) (x : α) : Extended a (a.push x) := by
  intro k y h
  have hk : k < a.size := (Array.getElem?_eq_some_iff.mp h).1
  rw [Array.getElem?_push_lt hk]
  simpa [Array.getElem?_eq_getElem hk] using h

theorem Extended.size_le {α : Type} {a b : Array α} (h : Extended a b) : a.size ≤ b.size := by
  by_contra hlt
  have hb : b.size < a.size := Nat.lt_of_not_le hlt
  have := h b.size a[b.size] (Array.getElem?_eq_getElem hb)
  simp at this

/-- The constants of a function and its captures, over an image. -/
def pool (image : Image) (constants : Array Value) (captures : Nat) : Pool where
  size := constants.size
  isName k := ∃ r t, constants[k]? = some (.obj r) ∧ image[r.index]? = some (.text t)
  isFunction k n := ∃ r p statements closures, constants[k]? = some (.obj r) ∧
    image[r.index]? = some (.function p statements closures) ∧ p.captureCount = n
  isThunk k := ∃ r p statements closures, constants[k]? = some (.obj r) ∧
    image[r.index]? = some (.function p statements closures) ∧ p.arity = 0
  captures := captures

/-- Constants that are added, and variables that are captured, leave those that were there. -/
theorem pool_extends {image image' : Image} {constants constants' : Array Value} {m n : Nat}
    (hi : Extended image image') (hc : Extended constants constants') (hn : m ≤ n) :
    (pool image constants m).Extends (pool image' constants' n) where
  size := hc.size_le
  isName := by
    rintro k ⟨r, t, hr, ht⟩
    exact ⟨r, t, hc _ _ hr, hi _ _ ht⟩
  isFunction := by
    rintro k n ⟨r, p, statements, closures, hr, hp, hn⟩
    exact ⟨r, p, statements, closures, hc _ _ hr, hi _ _ hp, hn⟩
  isThunk := by
    rintro k ⟨r, p, statements, closures, hr, hp, hn⟩
    exact ⟨r, p, statements, closures, hc _ _ hr, hi _ _ hp, hn⟩
  captures := hn

namespace FunctionState

/-- Is the local in a slot captured by a closure? -/
def Flagged (fs : FunctionState) (j : Nat) : Prop :=
  ∃ l ∈ fs.locals[j]?, l.captured = true

/-- The constants of the function so far. -/
def pool (image : Image) (fs : FunctionState) : Pool :=
  Compiler.pool image fs.chunk.constants fs.captures.size

end FunctionState

/-! ## Views -/

/-- A loop as a view sees it: where its passes start, and the height and handlers there. -/
structure LoopView where
  start : Nat
  scopeDepth : Nat
  base : Nat
  handlers : List Guard

/-- What waits at a jump out of a loop. -/
def LoopView.claim (l : LoopView) (place : Nat) : Claim :=
  ⟨place, l.base, l.handlers, l.base, []⟩

/-- A loop of the compiler, seen as `l`. -/
structure LoopView.Matches (l : LoopView) (loop : Loop) : Prop where
  start : loop.start = l.start
  scopeDepth : loop.scopeDepth = l.scopeDepth
  tryDepth : loop.tryDepth = l.handlers.length

/-- The height at which the innermost of some loops starts. -/
def loopBase : List LoopView → Nat
  | [] => 0
  | l :: _ => l.base

/-- The claims of the jumps out of some loops. -/
def breakClaims : List LoopView → List Loop → List Claim
  | l :: ls, loop :: loops => loop.breaks.toList.map l.claim ++ breakClaims ls loops
  | _, _ => []

/-- The shape of a function as far as it is compiled. `env` are the scope depths of the locals that
have a value, one more is `awaiting` its first one; `bodies` are the statements with handlers in
whose bodies the end of the code is, and `landing` is the slot of the error if a handler starts
there; `building` are the collections that literals are still adding to; `holes` are the open branches
other than those out of loops; `points` are places to jump back to; `entry` is how many arguments the
code counts on. -/
structure Outline where
  env : List Nat
  awaiting : Bool
  depth : Nat
  height : Nat
  tries : Nat
  handlers : List Guard
  bodies : List Guard
  landing : Option Nat
  building : List (Nat × Collection)
  loops : List LoopView
  holes : List Claim
  points : List Claim
  arity : Nat
  entry : Nat
  prologue : Bool

/-- What is raised at the end of the code gets to the statements in whose bodies it is, and no handler
starts there. -/
def Outline.Lexical (v : Outline) : Prop :=
  v.bodies = v.handlers ∧ v.landing = none

/-- **`View`** — how far the compilation of a function has come: its outline, the constants known to
be names, how many captures it has at least, and whatever else has been found out. -/
structure View extends Outline where
  names : List Nat
  captures : Nat
  known : Prop

/-- What the end of the code is like: nothing special, a closure was just made, possibly of a function
without parameters, there is no code yet, or the function has just returned. -/
inductive Tip where
  | plain
  | fresh
  | thunk
  | bare
  | closed
deriving DecidableEq

/-- Was a closure just made? -/
def Tip.isFresh : Tip → Bool
  | .fresh | .thunk => true
  | _ => false

namespace View

/-- Slots below it may be shared or not according to the loop around. -/
def base (v : View) : Nat :=
  loopBase v.loops

/-- All open branches of a function. -/
def claims (v : View) (fs : FunctionState) : List Claim :=
  v.holes ++ breakClaims v.loops fs.loops

/-- The slots that may be shared. -/
def shared (v : View) (fs : FunctionState) (F : Nat → Prop) (j : Nat) : Prop :=
  if j < v.base then F j else fs.Flagged j

/-- The situation at the end of the code. -/
def situation (v : View) (cap : Nat → Prop) (fresh : Bool) : Situation :=
  ⟨v.height, v.handlers, fun j => cap j ∧ j < v.height, fresh, fun j k => (j, k) ∈ v.building⟩

end View

/-- The situation at the end of the code, unless control cannot get there. -/
def Tip.situation (tip : Tip) (v : View) (cap : Nat → Prop) : Option Situation :=
  match tip with
  | .plain | .bare => some (v.situation cap false)
  | .fresh | .thunk => some (v.situation cap true)
  | .closed => none

/-- **`WrittenAs`** — the code of a function is that of a listing, as its view tells; `F` says which
slots below the innermost loop may be shared. -/
structure WrittenAs (image : Image) (tip : Tip) (v : View) (fs : FunctionState) (F : Nat → Prop)
    (listing : List Placed) : Prop where
  assembled : Assembled (fs.pool image) (v.claims fs) (v.shared fs F) v.entry fs.chunk.code
    fs.statements fs.closures (tip.situation v (v.shared fs F)) listing
  points : ∀ p ∈ v.points, Lands (v.claims fs) (v.shared fs F) listing
    (tip.situation v (v.shared fs F)) (p.situation (v.shared fs F)) (.direct p.place)
  prologue : v.prologue = true → tip ≠ .bare →
    (listing.map (·.instr.op)).head? = some .getGlobal
  last : tip = .closed → (listing.map (·.instr.op)).getLast? = some .ret
  notes : Noted (fs.pool image) (IsOpen (v.claims fs)) v.bodies v.landing fs.chunk listing
  made : tip = .thunk → ∃ b ∈ listing, b.offset + b.instr.width = fs.chunk.code.size ∧
    b.instr.op = .closure ∧ (fs.pool image).isThunk b.instr.first

/-- **`Tracks`** — the state of a function is as its view tells. -/
structure Tracks (image : Image) (tip : Tip) (v : View) (fs : FunctionState) : Prop where
  known : v.known
  depth : fs.scopeDepth = v.depth
  tries : fs.tryDepth = v.tries
  arity : fs.arity = v.arity
  depths : fs.locals.toList.map (·.depth) =
    v.env.map some ++ (if v.awaiting then [none] else [])
  slots : fs.locals.size ≤ maxSlots
  flagged : ∀ j, fs.Flagged j → j < v.env.length
  base : v.base ≤ v.env.length
  loops : List.Forall₂ LoopView.Matches v.loops fs.loops
  limits : ∀ p ∈ v.points, p.limit ≤ v.base
  names : ∀ k ∈ v.names, (fs.pool image).isName k
  nameConstants : ∀ (t : String) (k : Nat), fs.nameConstants[t]? = some k → (fs.pool image).isName k
  constants : fs.chunk.constants.size ≤ Chunk.maxConstants
  refs : ∀ r, Value.obj r ∈ fs.chunk.constants → r.index < image.size
  captures : v.captures ≤ fs.captures.size
  captureCount : fs.captures.size ≤ maxSlots
  prologue : fs.argsPrologue = if v.prologue then some 0 else none
  bare : tip = .bare → fs.chunk.code = #[] ∧ fs.statements = []
  written : ∀ F : Nat → Prop, (∀ j < v.base, fs.Flagged j → F j) →
    ∃ listing, WrittenAs image tip v fs F listing

section Tracks

variable {image image' : Image} {tip tip' : Tip} {v v' : View} {fs fs' : FunctionState}

/-- There is a slot for each local, but for one that waits for its value. -/
theorem Tracks.locals_size (h : Tracks image tip v fs) :
    fs.locals.size = v.env.length + if v.awaiting then 1 else 0 := by
  have := congrArg List.length h.depths
  rw [List.length_map, Array.length_toList, List.length_append, List.length_map] at this
  rw [this]
  cases v.awaiting <;> rfl

/-- Everything that may be shared is the slot of a local. -/
theorem Tracks.shared_lt (h : Tracks image tip v fs) {F : Nat → Prop} {j : Nat}
    (hj : v.shared fs F j) : j < v.env.length := by
  unfold View.shared at hj
  split at hj
  · exact Nat.lt_of_lt_of_le ‹_› h.base
  · exact h.flagged j hj

theorem View.shared_of_lt {F : Nat → Prop} {j : Nat} (hj : j < v.base) : v.shared fs F j ↔ F j := by
  rw [View.shared, if_pos hj]

theorem View.shared_of_le {F : Nat → Prop} {j : Nat} (hj : v.base ≤ j) :
    v.shared fs F j ↔ fs.Flagged j := by
  rw [View.shared, if_neg (Nat.not_lt.mpr hj)]

/-- A local that is captured is shared, wherever the claims about the loop around put it. -/
theorem View.shared_of_flagged {F : Nat → Prop} (hF : ∀ j < v.base, fs.Flagged j → F j) {j : Nat}
    (hj : fs.Flagged j) : v.shared fs F j := by
  unfold View.shared
  split
  · exact hF j ‹_› hj
  · exact hj

/-! ## Changes that leave the code alone -/

theorem Lands.weaken_left {claims : List Claim} {cap : Nat → Prop} {listing : List Placed}
    {tip : Option Situation} {t t' : Situation} {e : Exit}
    (h : Lands claims cap listing tip t e) (ht : t'.Flows t) :
    Lands claims cap listing tip t' e := by
  cases e with
  | direct o =>
    obtain ⟨s, hs, hflows⟩ := h
    exact ⟨s, hs, ht.trans hflows⟩
  | through a =>
    rcases h with ⟨c, hc, ha, hflows⟩ | ⟨hopen, b, hb, ha, hop, s, hs, hflows⟩
    · exact .inl ⟨c, hc, ha, ht.trans hflows⟩
    · exact .inr ⟨hopen, b, hb, ha, hop, s, hs, ht.trans hflows⟩

/-- **`WrittenAs.weaken`** — code stays as it is told by a view while constants are added, slots are
shared, and the tip is weakened. -/
theorem WrittenAs.weaken {F F' : Nat → Prop} {listing : List Placed}
    (h : WrittenAs image tip v fs F listing)
    (hcode : fs'.chunk.code = fs.chunk.code ∧ fs.chunk.SameNotes fs'.chunk)
    (hbodies : v'.bodies = v.bodies ∧ v'.landing = v.landing)
    (hstatements : fs'.statements = fs.statements)
    (hclosures : ∀ l ∈ fs.closures, l ∈ fs'.closures)
    (hpool : (fs.pool image).Extends (fs'.pool image'))
    (hentry : v'.entry = v.entry) (hclaims : (v.claims fs).Perm (v'.claims fs'))
    (hshared : ∀ c ∈ v.claims fs, ∀ j < c.limit, v.shared fs F j → v'.shared fs' F' j)
    (hpoints : ∀ p ∈ v'.points, p ∈ v.points ∧
      ∀ j < p.limit, v'.shared fs' F' j → v.shared fs F j)
    (htip : ∀ s, tip.situation v (v.shared fs F) = some s →
      ∃ s', tip'.situation v' (v'.shared fs' F') = some s' ∧ s.Flows s')
    (hprologue : v'.prologue = true → tip' ≠ .bare → v.prologue = true ∧ tip ≠ .bare)
    (hlast : tip' = .closed → tip = .closed) (hmade : tip' = .thunk → tip = .thunk) :
    WrittenAs image' tip' v' fs' F' listing := by
  have hassembled := (h.assembled.weaken hpool hshared hclosures htip).perm hclaims
  refine
    { assembled := by rw [hentry, hcode.1, hstatements]; exact hassembled
      points := ?_
      prologue := fun hp ht => h.prologue (hprologue hp ht).1 (hprologue hp ht).2
      last := fun ht => h.last (hlast ht)
      notes := ?_
      made := fun ht => ?_ }
  · intro p hp
    obtain ⟨hp, hlimit⟩ := hpoints p hp
    obtain ⟨s, hs, hflows⟩ := h.points p hp
    obtain ⟨s', hs', hflows'⟩ := hs.weaken htip
    exact ⟨s', hs', ((Claim.situation_mono hlimit).trans hflows).trans hflows'⟩
  · rw [hbodies.1, hbodies.2]
    refine h.notes.of_same hcode.2 (congrArg Array.size hcode.1) (fun a => ?_) hpool
    exact exists_congr fun c => and_congr_left fun _ => hclaims.mem_iff
  · obtain ⟨b, hb, hend, hop, hthunk⟩ := h.made (hmade ht)
    exact ⟨b, hb, by rw [hcode.1]; exact hend, hop, hpool.isThunk _ hthunk⟩

/-! ## One more instruction -/

/-- **`Admits`** — an instruction can go to the end of the code of a function; `fresh` tells whether
a closure was just made. -/
structure Admits (image : Image) (v : View) (fs : FunctionState) (fresh : Bool) (i : Instruction) :
    Prop where
  inRange : i.InRange
  constant : i.op = .constant → i.first < fs.chunk.constants.size
  names : ∀ k ∈ i.names, (fs.pool image).isName k
  function : i.op = .closure → (fs.pool image).isFunction i.first i.captures.length
  slot : i.op.usesSlot = true → i.first < v.height
  capture : i.op.usesCapture = true → i.first < fs.captures.size
  captured : ∀ c ∈ i.captures, if c.isLocal then c.index ≤ v.height else c.index < fs.captures.size
  reads : i.effect.reads < v.height
  taken : i.op.closesTaken = false →
    ∀ j, v.height - i.effect.takes ≤ j → j < v.height → v.base ≤ j ∧ ¬ fs.Flagged j
  fresh : i.op.needsFresh = true → fresh = true
  fills : ∀ k, i.op.fills = some k → (v.height - i.effect.takes - 1, k) ∈ v.building
  held : ∀ e ∈ v.building, e.1 < v.height ∧ v.base ≤ e.1 ∧ ¬ fs.Flagged e.1
  assigned : i.op = .setLocal → ∀ e ∈ v.building, i.first ≠ e.1
  guarded : i.op.mayRaise = true → ∀ h ∈ v.handlers.head?, h.height + i.effect.takes ≤ v.height
  closing : i.op = .tryEnd → v.handlers ≠ []
  back : i.op = .loop → i.first ≤ fs.chunk.code.size + 3
  lexical : i.op.mayRaise = true → v.handlers = v.bodies
  within : v.handlers ⊆ v.bodies

/-- What the compiler admits can be executed in the situation that it has reached. -/
theorem Admits.suits {fresh : Bool} {i : Instruction} (h : Admits image v fs fresh i)
    (F : Nat → Prop) :
    i.Suits (fs.pool image) fs.chunk.code.size (v.situation (v.shared fs F) fresh) where
  inRange := h.inRange
  constant := h.constant
  names := h.names
  function := h.function
  slot := h.slot
  capture := h.capture
  captured := h.captured
  reads := h.reads
  shared _ hj := hj.2
  taken hop j hj hopen := by
    obtain ⟨hbase, hflagged⟩ := h.taken hop j hj hopen.2
    have := hopen.1
    rw [View.shared, if_neg (Nat.not_lt.mpr hbase)] at this
    exact hflagged this
  fresh := h.fresh
  fills := h.fills
  held j k hk := by
    obtain ⟨hlt, hbase, hflagged⟩ := h.held _ hk
    exact ⟨hlt, fun hopen => hflagged ((View.shared_of_le hbase).mp hopen.1)⟩
  assigned hop k hk := h.assigned hop _ hk rfl
  guarded := h.guarded
  closing := h.closing
  back := h.back

/-- The function with one more instruction. -/
def FunctionState.emit (fs : FunctionState) (i : Instruction) (line : Nat) : FunctionState :=
  { fs with chunk := ((fs.chunk.noteScope fs.locals.size).noteMeant i).emit i line }

theorem FunctionState.pool_emit (fs : FunctionState) (i : Instruction) (line : Nat) :
    (fs.emit i line).pool image = fs.pool image := by
  simp [FunctionState.pool, FunctionState.emit, Chunk.noteScope, Chunk.noteMeant]

/-- The view with another tip, and some open branches more. -/
def View.tipped (v : View) (height : Nat) (handlers bodies : List Guard)
    (building : List (Nat × Collection)) (new : List Claim) : View :=
  { v with height, handlers, bodies, building, holes := new ++ v.holes }

/-- **`Tracks.emit`** — an instruction that the function admits goes to the end of its code, if the
ways out of it lead where they should. -/
theorem Tracks.emit {fresh : Bool} {i : Instruction} {line height : Nat}
    {handlers bodies : List Guard} {building : List (Nat × Collection)} {new : List Claim}
    (h : Tracks image tip v fs) (htip : ∀ cap, tip.situation v cap = some (v.situation cap fresh))
    (hi : Admits image v fs fresh i) (hlanding : v.landing = none)
    (hbodies : bodies =
      if i.op = .tryBegin then ⟨fs.chunk.code.size + 1, v.height⟩ :: v.bodies else v.bodies)
    (htry : i.op = .tryBegin → new ≠ []) (hspawn : i.op = .spawn → tip = .thunk)
    (hthunk : tip' = .thunk → i.op = .closure ∧ (fs.pool image).isThunk i.first)
    (hnew : ∀ c ∈ new, c.place = fs.chunk.code.size + 1) (hlength : new.length ≤ 1)
    (hforward : new ≠ [] → i.op.isForward = true)
    (hclosure : i.op = .closure → ∃ l ∈ fs.closures, l.offset = fs.chunk.code.size ∧
      ∀ c ∈ i.captures, c.isLocal = true → c.index < l.locals)
    (hprologue : tip = .bare → v.prologue = true → i.op = .getGlobal)
    (hbare : tip' ≠ .bare) (hlast : tip' = .closed → i.op = .ret)
    (hexits : ∀ F listing, (∀ j < v.base, fs.Flagged j → F j) → WrittenAs image tip v fs F listing →
      ∀ e t, Leads fs.chunk.code.size i (v.situation (v.shared fs F) fresh) e t →
        Lands (new ++ v.claims fs) (v.shared fs F)
          (listing ++ [⟨fs.chunk.code.size, i, v.situation (v.shared fs F) fresh⟩])
          (tip'.situation (v.tipped height handlers bodies building new) (v.shared fs F)) t e) :
    Tracks image tip' (v.tipped height handlers bodies building new) (fs.emit i line) := by
  refine
    { h with
      names := ?_
      nameConstants := ?_
      constants := ?_
      refs := ?_
      bare := fun ht => absurd ht hbare
      written := ?_ }
  · rw [FunctionState.pool_emit]
    exact h.names
  · rw [FunctionState.pool_emit]
    exact h.nameConstants
  · rw [FunctionState.emit, Chunk.constants_emit]
    exact h.constants
  · rw [FunctionState.emit, Chunk.constants_emit]
    exact h.refs
  · -- only the code has changed; what is left is its listing, with one instruction more at the end
    intro F hF
    obtain ⟨listing, hw⟩ := h.written F hF
    have hassembled := hw.assembled
    rw [htip] at hassembled
    have hsize : fs.chunk.code.size = (codeOf listing).length := by
      rw [← hassembled.code_eq, Array.length_toList]
    have hclaims : (v.tipped height handlers bodies building new).claims (fs.emit i line) = new ++ v.claims fs :=
      List.append_assoc ..
    refine ⟨listing ++ [⟨fs.chunk.code.size, i, v.situation (v.shared fs F) fresh⟩],
      ?_, ?_, ?_, ?_, ?_, ?_⟩
    · rw [FunctionState.pool_emit, hclaims]
      exact hassembled.emit (Chunk.toList_emit ..) (hi.suits F) hnew hlength hforward hclosure
        (hexits F listing hF hw)
    · intro p hp
      have hp := hw.points p hp
      rw [htip] at hp
      rw [hclaims, hsize]
      exact hp.emit hassembled.contiguous (by rw [← hsize]; exact hnew)
    · intro hp _
      rw [List.map_append]
      by_cases ht : tip = .bare
      · -- the first instruction of a function that loads its arguments
        have hnil : listing = [] := by
          have hcode := hassembled.code_eq
          rw [(h.bare ht).1] at hcode
          cases listing with
          | nil => rfl
          | cons q l => simp [codeOf, Instruction.encode] at hcode
        simp [hnil, hprologue ht hp]
      · rw [List.head?_append, hw.prologue hp ht]
        rfl
    · intro ht
      -- the end is closed only by a return
      simp [hlast ht]
    · rw [FunctionState.pool_emit, hclaims]
      show Noted (fs.pool image) _ bodies v.landing
        (((fs.chunk.noteScope fs.locals.size).noteMeant i).emit i line) _
      rw [hbodies, hlanding]
      refine Noted.emit (s := v.situation (v.shared fs F) fresh) (hlanding ▸ hw.notes)
        hassembled.code_eq hassembled.contiguous hi.inRange hnew (fun j hj => ?_) hi.lexical hi.within
        htry fun hop => hw.made (hspawn hop)
      -- only locals are ever shared
      have := h.shared_lt hj.1
      have := h.locals_size
      omega
    · intro ht
      rw [FunctionState.pool_emit]
      refine ⟨_, List.mem_append_right _ (List.mem_singleton.mpr rfl), ?_, (hthunk ht).1, (hthunk ht).2⟩
      show fs.chunk.code.size + i.width =
        (((fs.chunk.noteScope fs.locals.size).noteMeant i).emit i line).code.size
      rw [Chunk.size_emit hi.inRange]
      rfl

/-- The innermost handler of a view is one of its open branches, no handler starts here, and all of
them are there because of the bodies around. Collections that are being built are on the stack, above
the variables. -/
structure View.Guarded (v : View) : Prop where
  claim : ∀ h outer, v.handlers = h :: outer → h.claim outer ∈ v.holes
  landing : v.landing = none
  within : v.handlers ⊆ v.bodies
  building : ∀ e ∈ v.building, v.env.length ≤ e.1 ∧ e.1 < v.height

/-- What is raised at the tip gets to the innermost handler. -/
theorem View.Guarded.lands (hv : v.Guarded) {h : Guard} {outer : List Guard}
    (hh : v.handlers = h :: outer) (new : List Claim) (cap : Nat → Prop) (listing : List Placed)
    (tip : Option Situation) (fresh : Bool) :
    Lands (new ++ v.claims fs) cap listing tip ((v.situation cap fresh).escape h.height outer)
      (.through h.operand) := by
  refine .inl ⟨h.claim outer, ?_, rfl, rfl, rfl, ?_, id, nofun⟩
  · exact List.mem_append_right _ (List.mem_append_left _ (hv.claim h outer hh))
  · rintro j ⟨⟨hj, -⟩, hlt⟩
    exact ⟨hj, hlt⟩

/-- At a tip that can be reached the situation is that of the view. -/
theorem Tip.situation_eq (htip : tip ≠ .closed) (cap : Nat → Prop) :
    tip.situation v cap = some (v.situation cap tip.isFresh) := by
  cases tip <;> first | rfl | exact absurd rfl htip

section Kinds

variable {i : Instruction} {line : Nat}

/-- An instruction that the next one follows. It takes none of the collections that are still being
built, and may have made another. -/
theorem Tracks.emit_falling (h : Tracks image tip v fs) (building : List (Nat × Collection))
    (htip : tip ≠ .closed)
    (hi : Admits image v fs tip.isFresh i) (hguarded : v.Guarded)
    (hfalls : i.op.falls = true) (hforward : i.op.isForward = false)
    (hspawn : i.op = .spawn → tip = .thunk)
    (hflagged : ∀ c ∈ i.captures, c.isLocal = true → fs.Flagged c.index)
    (hclosure : i.op = .closure → ∃ l ∈ fs.closures, l.offset = fs.chunk.code.size ∧
      ∀ c ∈ i.captures, c.isLocal = true → c.index < l.locals)
    (hprologue : tip = .bare → v.prologue = true → i.op = .getGlobal)
    (hbuilding : ∀ e ∈ building, e ∈ v.building ∧ e.1 < v.height - i.effect.takes ∨
      i.op.makes = some e.2 ∧ e.1 = v.height)
    (htip' : tip' = .plain ∨ (tip' = .fresh ∨ tip' = .thunk ∧ (fs.pool image).isThunk i.first) ∧
      i.op = .closure ∧ ∀ c ∈ i.captures, c.isLocal = true → c.index < v.height) :
    Tracks image tip'
      (v.tipped (v.height - i.effect.takes + i.effect.leaves) v.handlers v.bodies building [])
      (fs.emit i line) := by
  have hopen' : tip' ≠ .closed ∧ tip' ≠ .bare := by
    rcases htip' with rfl | ⟨rfl | ⟨rfl, -⟩, -⟩ <;> simp
  have htry : i.op ≠ .tryBegin := by
    intro hop
    rw [hop] at hforward
    cases hforward
  have hthunk : tip' = .thunk → i.op = .closure ∧ (fs.pool image).isThunk i.first := by
    rintro rfl
    rcases htip' with h | ⟨h | ⟨-, hthunk⟩, hop, -⟩
    · cases h
    · cases h
    · exact ⟨hop, hthunk⟩
  refine h.emit (Tip.situation_eq htip) hi hguarded.landing (if_neg htry).symm
    (fun hop => absurd hop htry) hspawn hthunk (by simp) (by simp) (by simp) hclosure hprologue
    hopen'.2 (fun ht => absurd ht hopen'.1) ?_
  intro F listing hF hw e t he
  have hassembled := hw.assembled
  cases he with
  | fall =>
    refine ⟨_, .inr ⟨?_, Tip.situation_eq hopen'.1 _⟩, rfl, ?_, ?_, ?_, fun j k => hbuilding (j, k)⟩
    · rw [codeOf_append, List.length_append, ← hassembled.code_eq, Array.length_toList]
      simp [codeOf, Instruction.length_encode hi.inRange]
    · simp [Situation.next, View.situation, View.tipped, htry]
    · rintro j ⟨⟨hj, -⟩ | hj, hlt⟩
      · exact ⟨hj, hlt⟩
      · exact ⟨View.shared_of_flagged hF (hflagged _ hj rfl), hlt⟩
    · intro hfresh
      rcases htip' with rfl | ⟨-, hop, hcaptures⟩
      · cases hfresh
      · exact decide_eq_true ⟨hop, hcaptures⟩
  | back hop =>
    rw [hop] at hfalls
    cases hfalls
  | ahead hop =>
    rw [hforward] at hop
    cases hop
  | raise _ hs => exact hguarded.lands hs ..

/-- A branch ahead whose target is still open. After one that is always taken the tip may be
anything. -/
theorem Tracks.emit_branch {c : Claim} {height : Nat} {handlers bodies : List Guard}
    (h : Tracks image tip v fs) (htip : tip ≠ .closed)
    (hi : Admits image v fs tip.isFresh i) (hguarded : v.Guarded)
    (hbodies : bodies =
      if i.op = .tryBegin then ⟨fs.chunk.code.size + 1, v.height⟩ :: v.bodies else v.bodies)
    (hforward : i.op.isForward = true) (hc : c.place = fs.chunk.code.size + 1)
    (hbare : tip ≠ .bare)
    (hbranch : ∀ cap : Nat → Prop, (∀ j, cap j → j < v.env.length) →
      ((v.situation cap tip.isFresh).branch i.op).Flows (c.situation cap))
    (hfalls : i.op.falls = true → height = v.height ∧ handlers =
      if i.op = .tryBegin then ⟨fs.chunk.code.size + 1, v.height⟩ :: v.handlers else v.handlers) :
    Tracks image .plain (v.tipped height handlers bodies v.building [c]) (fs.emit i line) := by
  have heffect : i.effect.takes = 0 ∧ i.effect.leaves = 0 := by
    unfold Instruction.effect
    rcases Instruction.op_of_forward hforward with hop | hop | hop | hop <;> simp [hop]
  have hcaptures := ((Instruction.inRange_forward_iff hforward).mp hi.inRange).2.2
  refine h.emit (Tip.situation_eq htip) hi hguarded.landing hbodies (by simp) ?_ (by simp)
    (by simpa using hc) (by simp) (fun _ => hforward) ?_ (fun ht => absurd ht hbare) (by simp)
    (by simp) ?_
  · intro hop
    rw [hop] at hforward
    cases hforward
  · intro hop
    rw [hop] at hforward
    cases hforward
  -- the ways out: on to the next instruction, to the open branch, or to the handler
  intro F listing hF hw e t he
  have hassembled := hw.assembled
  cases he with
  | fall hop =>
    obtain ⟨hheight, hhandlers⟩ := hfalls hop
    refine ⟨_, .inr ⟨?_, rfl⟩, ?_, ?_, ?_, ?_, fun j k hk => .inl ⟨hk, ?_⟩⟩
    · rw [codeOf_append, List.length_append, ← hassembled.code_eq, Array.length_toList]
      simp [codeOf, Instruction.length_encode hi.inRange]
    · simp [Situation.next, View.situation, View.tipped, heffect, hheight]
    · rw [Situation.next, View.situation, View.tipped, hhandlers, View.situation]
    · rintro j ⟨⟨hj, hlt⟩ | hj, -⟩
      · exact ⟨hj, by simpa [View.tipped, hheight] using hlt⟩
      · rw [hcaptures] at hj
        simp at hj
    · intro hfresh
      cases hfresh
    · rw [heffect.1]
      exact (hi.held (j, k) hk).1
  | back hop =>
    rw [hop] at hforward
    cases hforward
  | ahead => exact .inl ⟨c, by simp, hc, hbranch _ fun j hj => h.shared_lt hj⟩
  | raise _ hs => exact hguarded.lands hs ..

/-- A jump back to a place of known height. The tip after it may be anything. -/
theorem Tracks.emit_back {p : Claim} {height : Nat} {handlers : List Guard}
    (h : Tracks image .plain v fs) (hi : Admits image v fs false i)
    (hguarded : v.Guarded) (hop : i.op = .loop) (hp : p ∈ v.points)
    (hplace : p.place = fs.chunk.code.size + 3 - i.first)
    (hheight : p.height = v.height) (hhandlers : p.handlers = v.handlers)
    (hlimit : v.height ≤ p.limit) (hbuilding : p.building = []) :
    Tracks image .plain (v.tipped height handlers v.bodies v.building []) (fs.emit i line) := by
  refine h.emit (fun _ => rfl) hi hguarded.landing (by simp [hop]) (by simp [hop]) (by simp [hop])
    (by simp) (by simp) (by simp) (by simp) (by simp [hop]) (by simp) (by simp) (by simp) ?_
  intro F listing hF hw e t he
  have hassembled := hw.assembled
  cases he with
  | fall hfalls =>
    rw [hop] at hfalls
    cases hfalls
  | back =>
    have hsize : fs.chunk.code.size = (codeOf listing).length := by
      rw [← hassembled.code_eq, Array.length_toList]
    refine Lands.weaken_left (t := p.situation (v.shared fs F)) ?_ ⟨?_, ?_, ?_, ?_, ?_⟩
    · rw [← hplace, hsize]
      exact (hw.points p hp).emit hassembled.contiguous (by simp)
    · simp [hop, Situation.branch, View.situation, Claim.situation, hheight]
    · simp [hop, Situation.branch, View.situation, Claim.situation, hhandlers]
    · intro j hj
      rw [hop] at hj
      exact ⟨hj.1, Nat.lt_of_lt_of_le hj.2 hlimit⟩
    · intro hfresh
      cases hfresh
    · intro j k hk
      have hk : (j, k) ∈ p.building := hk
      simp [hbuilding] at hk
  | ahead hforward =>
    rw [hop] at hforward
    cases hforward
  | raise _ hs => exact hguarded.lands hs ..

/-- A handler is removed and the next instruction follows. -/
theorem Tracks.emit_close (h : Tracks image .plain v fs) (hi : Admits image v fs false i)
    (hlanding : v.landing = none) (hop : i.op = .tryEnd) (hfirst : i.first = 0) :
    Tracks image .plain (v.tipped v.height v.handlers.tail v.bodies v.building []) (fs.emit i line) := by
  have hforward : i.op.isForward = true := by rw [hop]; rfl
  refine h.emit (fun _ => rfl) hi hlanding (by simp [hop]) (by simp [hop]) (by simp [hop]) (by simp)
    (by simp) (by simp) (by simp) (by simp [hop]) (by simp) (by simp) (by simp) ?_
  intro F listing hF hw e t he
  have hassembled := hw.assembled
  cases he with
  | fall hfalls =>
    rw [hop] at hfalls
    cases hfalls
  | back hback =>
    rw [hop] at hback
    cases hback
  | ahead =>
    refine .inr ⟨?_, _, List.mem_append_right _ (List.mem_singleton.mpr rfl), rfl, hforward, _,
      .inr ⟨?_, rfl⟩, ?_⟩
    · intro c hc
      obtain ⟨b, hb, hplace, -⟩ := hassembled.placed c hc
      have hend := hassembled.contiguous.end_le b hb
      have hpos := b.instr.width_pos
      rw [← hassembled.code_eq, Array.length_toList] at hend
      omega
    · rw [codeOf_append, List.length_append, ← hassembled.code_eq, Array.length_toList]
      simp [codeOf, Instruction.encode_forward hforward, Instruction.length_wordBytes, hfirst]
    · rw [hop]
      exact ⟨rfl, rfl, fun j hj => hj, id, fun _ _ hk => hk⟩
  | raise hraise =>
    rw [hop] at hraise
    cases hraise

/-- A return. The tip after it cannot be reached. -/
theorem Tracks.emit_return (h : Tracks image .plain v fs) (hi : Admits image v fs false i)
    (hguarded : v.Guarded) (hop : i.op = .ret) :
    Tracks image .closed v (fs.emit i line) := by
  show Tracks image .closed (v.tipped v.height v.handlers v.bodies v.building []) (fs.emit i line)
  refine h.emit (fun _ => rfl) hi hguarded.landing (by simp [hop]) (by simp [hop]) (by simp [hop])
    (by simp) (by simp) (by simp) (by simp) (by simp [hop]) (by simp) (by simp) (fun _ => hop) ?_
  intro F listing hF hw e t he
  cases he with
  | fall hfalls =>
    rw [hop] at hfalls
    cases hfalls
  | back hback =>
    rw [hop] at hback
    cases hback
  | ahead hforward =>
    rw [hop] at hforward
    cases hforward
  | raise _ hs => exact hguarded.lands hs ..

end Kinds

/-! ## Filling in a branch -/

section Patch

variable {before after : List Claim} {c : Claim} {distance : Nat} {bodies : List Guard}

/-- The function with the branch whose operand is at `place` filled in. -/
def FunctionState.aim (fs : FunctionState) (place distance : Nat) : FunctionState :=
  { fs with
    chunk := (fs.chunk.noteDistance place distance).patch place (Instruction.wordBytes distance) }

/-- An open branch that expects the situation at the tip is filled in; `bodies` are those around the
tip before. -/
theorem Tracks.patch_of
    (h : Tracks image .plain { v with holes := before ++ c :: after, bodies, landing := none } fs)
    (hheight : c.height = v.height) (hhandlers : c.handlers = v.handlers)
    (hlimit : c.limit ≤ v.height) (hbuilding : v.building ⊆ c.building) (hd : distance = fs.chunk.code.size - c.place - 2)
    (hrange : distance < 65536) (hinner : v.bodies.Sublist bodies)
    (hbodies : ∀ F listing,
      WrittenAs image .plain { v with holes := before ++ c :: after, bodies, landing := none } fs F
        listing → ∀ g, g ∈ v.bodies ↔ g ∈ bodies ∧ g.operand ≠ c.place)
    (hlanding : ∀ F listing,
      WrittenAs image .plain { v with holes := before ++ c :: after, bodies, landing := none } fs F
        listing → ∀ b ∈ listing, b.offset + 1 = c.place → b.instr.op = .tryBegin →
        v.landing = some b.situation.height) :
    Tracks image .plain { v with holes := before ++ after }
      (fs.aim c.place distance) := by
  refine { h with bare := by simp, written := ?_ }
  intro F hF
  obtain ⟨listing, hw⟩ := h.written F hF
  have hassembled := hw.assembled
  have hclaims :
      { v with holes := before ++ c :: after, bodies, landing := none }.claims fs =
        before ++ c :: (after ++ breakClaims v.loops fs.loops) := by
    simp [View.claims]
  rw [hclaims] at hassembled
  -- the operand of a branch stands within the code
  have hplace : c.place + 2 ≤ fs.chunk.code.size := by
    obtain ⟨b, hb, hplace, hop⟩ := hassembled.placed c (by simp)
    have hend := hassembled.contiguous.end_le b hb
    have hlength := Instruction.length_encode (hassembled.suits b hb).inRange
    rw [Instruction.encode_forward hop, List.length_cons, Instruction.length_wordBytes] at hlength
    rw [← hassembled.code_eq, Array.length_toList] at hend
    omega
  have hend : c.place + 2 + distance = fs.chunk.code.size := by omega
  obtain ⟨listing', hassembled', haimed, hlands⟩ := hassembled.patch
    ⟨hheight, hhandlers, fun j hj => ⟨hj.1, Nat.lt_of_lt_of_le hj.2 hlimit⟩, id,
      fun _ _ hk => hbuilding hk⟩ hend hrange
  have hclaims' : { v with holes := before ++ after }.claims fs =
      before ++ (after ++ breakClaims v.loops fs.loops) := by
    simp [View.claims]
  refine ⟨listing', ?_, ?_, ?_, by simp, ?_, by simp⟩
  · exact hclaims' ▸ hassembled'
  · intro p hp
    have := hlands _ _ (hclaims ▸ hw.points p hp)
    exact hclaims' ▸ this
  · intro hp ht
    rw [haimed.map_op]
    exact hw.prologue hp ht
  · have hsize : (fs.aim c.place distance).chunk.code.size = fs.chunk.code.size :=
      Chunk.size_overwrite ..
    have hnotes := hw.notes
    rw [hclaims] at hnotes
    have hpatched := hnotes.patch (fs.aim c.place distance).chunk hassembled.distinct
      hassembled.contiguous hassembled.code_eq haimed hend ⟨rfl, rfl, rfl⟩ hsize hinner
      (hbodies F listing hw) (hlanding F listing hw)
    rw [show View.claims { v with holes := before ++ after } (fs.aim c.place distance) = _ from hclaims']
    exact hpatched

/-- **`Tracks.patch`** — an open branch that expects the situation at the tip is filled in. It is not
the way to a handler: the tip would be in its body, and what is raised there does not get to it. -/
theorem Tracks.patch (h : Tracks image .plain { v with holes := before ++ c :: after } fs)
    (hheight : c.height = v.height) (hhandlers : c.handlers = v.handlers)
    (hlimit : c.limit ≤ v.height) (hbuilding : v.building ⊆ c.building) (hlexical : v.Lexical)
    (hd : distance = fs.chunk.code.size - c.place - 2) (hrange : distance < 65536) :
    Tracks image .plain { v with holes := before ++ after }
      (fs.aim c.place distance) := by
  obtain ⟨hbodies, hlanding⟩ := hlexical
  have hview : ({ v with holes := before ++ c :: after } : View) =
      { v with holes := before ++ c :: after, bodies := v.bodies, landing := none } := by
    rw [← hlanding]
  rw [hview] at h
  -- a way to a handler would enclose the tip, so its own body would be among the handlers there
  have hplain : ∀ F listing, WrittenAs image .plain
      { v with holes := before ++ c :: after, bodies := v.bodies, landing := none } fs F listing →
      ∀ b ∈ listing, b.offset + 1 = c.place → b.instr.op ≠ .tryBegin := by
    intro F listing hw b hb hplace hop
    have hmem : c ∈ before ++ c :: after ++ breakClaims v.loops fs.loops := by simp
    have hflows := hw.assembled.branch_flows hmem hb hplace (by rw [hop]; rfl)
    have hsame : b.situation.handlers = v.bodies := by
      have := hflows.handlers
      rw [hop] at this
      exact this.trans (hhandlers.trans hbodies.symm)
    have hend := hw.assembled.contiguous.end_le b hb
    have hpos := b.instr.width_pos
    rw [← hw.assembled.code_eq, Array.length_toList] at hend
    have hguard : (⟨b.offset + 1, b.situation.height⟩ : Guard) ∈ v.bodies :=
      (hw.notes.here.mem _).mpr ⟨b, hb, hop, rfl, by omega, .inl ⟨c, hmem, hplace.symm⟩⟩
    rw [← hsame, (hw.notes.nested b hb (by rw [hop]; rfl)).mem] at hguard
    obtain ⟨b', -, -, heq, hlt, -⟩ := hguard
    have := congrArg Guard.operand heq
    simp only at this
    omega
  refine h.patch_of hheight hhandlers hlimit hbuilding hd hrange (.refl _) (fun F listing hw g => ?_)
    fun F listing hw b hb hplace hop => absurd hop (hplain F listing hw b hb hplace)
  refine ⟨fun hg => ⟨hg, fun heq => ?_⟩, And.left⟩
  obtain ⟨b, hb, hop, rfl, -⟩ := (hw.notes.here.mem g).mp hg
  exact hplain F listing hw b hb heq hop

/-- **`Tracks.patch_handler`** — the way to the innermost handler is filled in: the body ends here and
the handler starts. -/
theorem Tracks.patch_handler (before : List Claim) {height : Nat}
    (h : Tracks image .plain
      { v with holes := before ++ c :: after, bodies := ⟨c.place, height⟩ :: v.bodies, landing := none }
      fs)
    (hheight : c.height = v.height) (hhandlers : c.handlers = v.handlers)
    (hlimit : c.limit ≤ v.height) (hbuilding : v.building ⊆ c.building)
    (hlanding : v.landing = some height)
    (hd : distance = fs.chunk.code.size - c.place - 2) (hrange : distance < 65536) :
    Tracks image .plain { v with holes := before ++ after }
      (fs.aim c.place distance) := by
  refine h.patch_of hheight hhandlers hlimit hbuilding hd hrange (List.sublist_cons_self ..)
    (fun F listing hw g => ?_) fun F listing hw b hb hplace hop => ?_
  · have houter := (List.pairwise_cons.mp hw.notes.here.inner).1
    rw [List.mem_cons]
    constructor
    · exact fun hg => ⟨.inr hg, Nat.ne_of_lt (houter g hg)⟩
    · rintro ⟨rfl | hg, hne⟩
      · exact absurd rfl hne
      · exact hg
  · have hmem : c ∈ before ++ c :: after ++ breakClaims v.loops fs.loops := by simp
    have hend := hw.assembled.contiguous.end_le b hb
    have hpos := b.instr.width_pos
    rw [← hw.assembled.code_eq, Array.length_toList] at hend
    have hguard := (hw.notes.here.mem ⟨b.offset + 1, b.situation.height⟩).mpr
      ⟨b, hb, hop, rfl, by omega, .inl ⟨c, hmem, hplace.symm⟩⟩
    rcases List.mem_cons.mp hguard with heq | hguard
    · exact hlanding.trans (congrArg some (congrArg Guard.height heq).symm)
    · have := (List.pairwise_cons.mp hw.notes.here.inner).1 _ hguard
      simp only at this
      omega

/-- The handler that starts at the tip declares its error variable. -/
theorem Tracks.note_catch {slot : Nat} (h : Tracks image tip v fs) (hlanding : v.landing = some slot) :
    Tracks image tip { v with landing := none } { fs with chunk := fs.chunk.noteCatch slot } := by
  refine { h with written := fun F hF => ?_ }
  obtain ⟨listing, hw⟩ := h.written F hF
  exact ⟨listing, hw.1, hw.2, hw.3, hw.4, (hlanding ▸ hw.notes).catch, hw.6⟩

end Patch

/-! ## Constants, names and captures -/

/-- A larger image has all that the function refers to. -/
theorem Tracks.extend_image (h : Tracks image tip v fs) (hi : Extended image image') :
    Tracks image' tip v fs := by
  have hpool : (fs.pool image).Extends (fs.pool image') :=
    pool_extends hi (.refl _) (Nat.le_refl _)
  refine
    { h with
      names := fun k hk => hpool.isName k (h.names k hk)
      nameConstants := fun t k hk => hpool.isName k (h.nameConstants t k hk)
      refs := fun r hr => Nat.lt_of_lt_of_le (h.refs r hr) hi.size_le
      written := fun F hF => ?_ }
  obtain ⟨listing, hw⟩ := h.written F hF
  exact ⟨listing, hw.weaken ⟨rfl, ⟨rfl, rfl, rfl⟩⟩ ⟨rfl, rfl⟩ rfl (fun _ hl => hl) hpool rfl (.refl _) (fun _ _ _ _ hj => hj)
    (fun p hp => ⟨hp, fun _ _ hj => hj⟩) (fun s hs => ⟨s, hs, .refl _⟩) (fun hp ht => ⟨hp, ht⟩) id id⟩

/-- Constants are only added, so every index stays right. -/
theorem Tracks.push_constant (h : Tracks image tip v fs) (x : Value)
    (hx : fs.chunk.constants.size < Chunk.maxConstants)
    (hr : ∀ r, x = .obj r → r.index < image.size) :
    Tracks image tip v { fs with chunk := fs.chunk.pushConstant x } := by
  have hpool : (fs.pool image).Extends
      (FunctionState.pool image { fs with chunk := fs.chunk.pushConstant x }) :=
    pool_extends (.refl _) (Extended.push _ x) (Nat.le_refl _)
  refine
    { h with
      names := fun k hk => hpool.isName k (h.names k hk)
      nameConstants := fun t k hk => hpool.isName k (h.nameConstants t k hk)
      constants := by simpa [Chunk.pushConstant] using Nat.succ_le_of_lt hx
      refs := fun r hmem => by
        rcases Array.mem_push.mp hmem with hmem | rfl
        · exact h.refs r hmem
        · exact hr r rfl
      written := fun F hF => ?_ }
  obtain ⟨listing, hw⟩ := h.written F hF
  exact ⟨listing, hw.weaken ⟨rfl, ⟨rfl, rfl, rfl⟩⟩ ⟨rfl, rfl⟩ rfl (fun _ hl => hl) hpool rfl (.refl _) (fun _ _ _ _ hj => hj)
    (fun p hp => ⟨hp, fun _ _ hj => hj⟩) (fun s hs => ⟨s, hs, .refl _⟩) (fun hp ht => ⟨hp, ht⟩) id id⟩

/-- Captured variables are only added, too. -/
theorem Tracks.push_capture (h : Tracks image tip v fs) (c : Capture)
    (hc : fs.captures.size < maxSlots) :
    Tracks image tip v { fs with captures := fs.captures.push c } := by
  have hpool : (fs.pool image).Extends
      (FunctionState.pool image { fs with captures := fs.captures.push c }) :=
    pool_extends (.refl _) (.refl _) (by simp)
  refine
    { h with
      names := fun k hk => hpool.isName k (h.names k hk)
      nameConstants := fun t k hk => hpool.isName k (h.nameConstants t k hk)
      captures := Nat.le_trans h.captures (by simp)
      captureCount := by simpa using Nat.succ_le_of_lt hc
      written := fun F hF => ?_ }
  obtain ⟨listing, hw⟩ := h.written F hF
  exact ⟨listing, hw.weaken ⟨rfl, ⟨rfl, rfl, rfl⟩⟩ ⟨rfl, rfl⟩ rfl (fun _ hl => hl) hpool rfl (.refl _) (fun _ _ _ _ hj => hj)
    (fun p hp => ⟨hp, fun _ _ hj => hj⟩) (fun s hs => ⟨s, hs, .refl _⟩) (fun hp ht => ⟨hp, ht⟩) id id⟩

/-- A name is remembered with the constant that holds it. -/
theorem Tracks.insert_name (h : Tracks image tip v fs) {t : String} {k : Nat}
    (hk : (fs.pool image).isName k) :
    Tracks image tip v { fs with nameConstants := fs.nameConstants.insert t k } := by
  refine
    { h with
      nameConstants := ?_
      written := fun F hF => (h.written F hF).imp fun _ hw => ⟨hw.1, hw.2, hw.3, hw.4, hw.5, hw.6⟩ }
  intro t' k' hk'
  rw [Std.TreeMap.getElem?_insert] at hk'
  split at hk'
  · exact Option.some.inj hk' ▸ hk
  · exact h.nameConstants t' k' hk'

/-! ## Knowing more and less -/

/-- The view when one thing more is known. -/
def View.know (v : View) (p : Prop) : View :=
  { v with known := v.known ∧ p }

theorem Tracks.know (h : Tracks image tip v fs) {p : Prop} (hp : v.known → p) :
    Tracks image tip (v.know p) fs :=
  { h with
    known := ⟨h.known, hp h.known⟩
    written := fun F hF => (h.written F hF).imp fun _ hw => ⟨hw.1, hw.2, hw.3, hw.4, hw.5, hw.6⟩ }

/-- Names, captured variables and places to come back to may be forgotten. -/
theorem Tracks.forget (h : Tracks image tip v fs) {names : List Nat} {captures : Nat}
    {points : List Claim} {known : Prop} (hnames : ∀ k ∈ names, k ∈ v.names)
    (hcaptures : captures ≤ v.captures) (hpoints : ∀ p ∈ points, p ∈ v.points)
    (hknown : v.known → known) : Tracks image tip { v with names, captures, points, known } fs :=
  { h with
    known := hknown h.known
    names := fun k hk => h.names k (hnames k hk)
    captures := Nat.le_trans hcaptures h.captures
    limits := fun p hp => h.limits p (hpoints p hp)
    written := fun F hF => (h.written F hF).imp fun _ hw =>
      ⟨hw.1, fun p hp => hw.2 p (hpoints p hp), hw.3, hw.4, hw.5, hw.6⟩ }

/-- A collection is finished: from here on it is a value like others. -/
theorem Tracks.release (h : Tracks image .plain v fs) (building : List (Nat × Collection))
    (hbuilding : building ⊆ v.building) : Tracks image .plain { v with building } fs := by
  refine { h with bare := by simp, written := fun F hF => ?_ }
  obtain ⟨listing, hw⟩ := h.written F hF
  refine ⟨listing, hw.weaken ⟨rfl, ⟨rfl, rfl, rfl⟩⟩ ⟨rfl, rfl⟩ rfl (fun _ hl => hl) ?_ rfl (.refl _)
    (fun _ _ _ _ hj => hj) (fun p hp => ⟨hp, fun _ _ hj => hj⟩) ?_ (fun hp ht => ⟨hp, ht⟩) id id⟩
  · exact pool_extends (.refl _) (.refl _) (Nat.le_refl _)
  · intro s hs
    obtain rfl := Option.some.inj hs
    exact ⟨_, rfl, rfl, rfl, fun _ hj => hj, id, fun _ _ hk => hbuilding hk⟩

/-- What follows a return is not reached by falling through, so it may be in any situation. -/
theorem Tracks.revive (h : Tracks image .closed v fs) (height : Nat) (handlers : List Guard) :
    Tracks image .plain { v with height, handlers } fs := by
  refine { h with bare := by simp, written := fun F hF => ?_ }
  obtain ⟨listing, hw⟩ := h.written F hF
  refine ⟨listing, hw.weaken ⟨rfl, ⟨rfl, rfl, rfl⟩⟩ ⟨rfl, rfl⟩ rfl (fun _ hl => hl) ?_ rfl (.refl _)
    (fun _ _ _ _ hj => hj) (fun p hp => ⟨hp, fun _ _ hj => hj⟩) ?_ (fun hp _ => ⟨hp, by simp⟩)
    (by simp) (by simp)⟩
  · exact pool_extends (.refl _) (.refl _) (Nat.le_refl _)
  · intro s hs
    cases hs

/-- A function that does not load its arguments need not be known to have no code. -/
theorem Tracks.start (h : Tracks image .bare v fs) (hv : v.prologue = false) :
    Tracks image .plain v fs :=
  { h with
    bare := by simp
    written := fun F hF => (h.written F hF).imp fun _ hw =>
      ⟨hw.1, hw.2, fun hp => absurd hp (by simp [hv]), by simp, hw.5, by simp⟩ }

/-! ## Locals -/

/-- **`Tracks.relocal`** — other locals, as long as what has been captured stays so wherever it
matters. -/
theorem Tracks.relocal {locals : Array Local} {env : List Nat} {awaiting : Bool}
    (h : Tracks image tip v fs)
    (hdepths : locals.toList.map (·.depth) =
      env.map some ++ (if awaiting then [none] else []))
    (hslots : locals.size ≤ maxSlots) (hbase : v.base ≤ env.length)
    (hflagged : ∀ j, FunctionState.Flagged { fs with locals } j → j < env.length)
    (hkeep : ∀ j, fs.Flagged j → (j < v.base ∨ j < v.height ∨ ∃ c ∈ v.claims fs, j < c.limit) →
      FunctionState.Flagged { fs with locals } j) :
    Tracks image tip { v with env, awaiting } { fs with locals } := by
  refine
    { h with
      depths := hdepths
      slots := hslots
      flagged := hflagged
      base := hbase
      written := fun F hF => ?_ }
  obtain ⟨listing, hw⟩ := h.written F fun j hj hf => hF j hj (hkeep j hf (.inl hj))
  -- what is shared where it matters is shared still
  have hshared : ∀ j, v.shared fs F j → (j < v.height ∨ ∃ c ∈ v.claims fs, j < c.limit) →
      View.shared { v with env, awaiting } { fs with locals } F j := by
    intro j hj hin
    rcases Nat.lt_or_ge j v.base with hlt | hle
    · exact (View.shared_of_lt hlt).mpr ((View.shared_of_lt hlt).mp hj)
    · exact (View.shared_of_le hle).mpr (hkeep j ((View.shared_of_le hle).mp hj) (.inr hin))
  refine ⟨listing, hw.weaken ⟨rfl, ⟨rfl, rfl, rfl⟩⟩ ⟨rfl, rfl⟩ rfl (fun _ hl => hl) ?_ rfl (.refl _) ?_ ?_ ?_
    (fun hp ht => ⟨hp, ht⟩) id id⟩
  · exact pool_extends (.refl _) (.refl _) (Nat.le_refl _)
  · exact fun c hc j hj hs => hshared j hs (.inr ⟨c, hc, hj⟩)
  · intro p hp
    refine ⟨hp, fun j hj hs => ?_⟩
    have hlt : j < v.base := Nat.lt_of_lt_of_le hj (h.limits p hp)
    exact (View.shared_of_lt hlt).mpr ((View.shared_of_lt hlt).mp hs)
  · intro s hs
    have hflows : ∀ fresh, (v.situation (v.shared fs F) fresh).Flows
        (View.situation { v with env, awaiting }
          (View.shared { v with env, awaiting } { fs with locals } F) fresh) :=
      fun fresh => ⟨rfl, rfl, fun j hj => ⟨hshared j hj.1 (.inl hj.2), hj.2⟩, id, fun _ _ hk => hk⟩
    cases tip <;> first | (obtain rfl := Option.some.inj hs; exact ⟨_, rfl, hflows _⟩) | cases hs

/-- A local without a value. -/
theorem Tracks.add_local (h : Tracks image tip v fs) (name : String) (hv : v.awaiting = false)
    (hsize : fs.locals.size < maxSlots) :
    Tracks image tip { v with awaiting := true }
      { fs with locals := fs.locals.push ⟨name, none, false⟩ } := by
  have hflagged : ∀ j, FunctionState.Flagged
      { fs with locals := fs.locals.push ⟨name, none, false⟩ } j ↔ fs.Flagged j := by
    intro j
    simp only [FunctionState.Flagged, Array.getElem?_push]
    split
    · simp_all
    · rfl
  refine h.relocal ?_ ?_ h.base ?_ ?_
  · have := h.depths
    rw [hv] at this
    simp_all
  · simpa using Nat.succ_le_of_lt hsize
  · exact fun j hj => h.flagged j ((hflagged j).mp hj)
  · exact fun j hj _ => (hflagged j).mpr hj

/-- That a local gets its depth does not show in which locals are captured. -/
theorem flagged_modify_depth {last : Nat} {d : Option Nat} (j : Nat) :
    FunctionState.Flagged
      { fs with locals := fs.locals.modify last (fun l => { l with depth := d }) } j ↔
      fs.Flagged j := by
  unfold FunctionState.Flagged
  rw [Array.getElem?_modify]
  split
  · cases fs.locals[j]? <;> simp
  · rfl

theorem modify_concat {α : Type} (l : List α) (x : α) (f : α → α) :
    (l ++ [x]).modify l.length f = l ++ [f x] := by
  induction l with
  | nil => rfl
  | cons y l ih => simpa using ih

/-- The local that awaits its value has it. -/
theorem Tracks.ready (h : Tracks image tip v fs) (hv : v.awaiting = true) :
    Tracks image tip { v with env := v.env ++ [v.depth], awaiting := false }
      { fs with
        locals := fs.locals.modify (fs.locals.size - 1)
          (fun l => { l with depth := some fs.scopeDepth }) } := by
  have hsize : fs.locals.size = v.env.length + 1 := by
    rw [h.locals_size, hv]
    rfl
  have hdepths := h.depths
  rw [hv] at hdepths
  refine h.relocal ?_ (by simpa using h.slots) ?_ ?_ ?_
  · obtain ⟨init, l, hinit⟩ := Array.exists_push_of_size_eq_add_one hsize
    rw [hinit, Array.toList_push, List.map_append] at hdepths
    obtain ⟨hdepths, -⟩ := List.append_inj' hdepths rfl
    rw [Array.toList_modify, hinit, Array.toList_push, Array.size_push, Nat.add_sub_cancel,
      ← Array.length_toList, modify_concat, List.map_append, hdepths, h.depth]
    simp
  · rw [List.length_append]
    exact Nat.le_trans h.base (Nat.le_add_right ..)
  · intro j hj
    rw [List.length_append]
    exact Nat.lt_of_lt_of_le (h.flagged j ((flagged_modify_depth j).mp hj)) (Nat.le_add_right ..)
  · exact fun j hj _ => (flagged_modify_depth j).mpr hj

/-- The last local had its value already. -/
theorem Tracks.ready_again {env : List Nat} (h : Tracks image tip v fs)
    (hv : v.awaiting = false) (henv : v.env = env ++ [v.depth]) :
    Tracks image tip v
      { fs with
        locals := fs.locals.modify (fs.locals.size - 1)
          (fun l => { l with depth := some fs.scopeDepth }) } := by
  have hsize : fs.locals.size = env.length + 1 := by
    rw [h.locals_size, hv, henv]
    simp
  have hdepths := h.depths
  refine h.relocal (v := v) ?_ (by simpa using h.slots) h.base ?_ ?_
  · obtain ⟨init, l, hinit⟩ := Array.exists_push_of_size_eq_add_one hsize
    rw [hinit, Array.toList_push, List.map_append, hv, henv, List.map_append,
      if_neg (by simp), List.append_nil] at hdepths
    obtain ⟨hdepths, -⟩ := List.append_inj' hdepths rfl
    rw [Array.toList_modify, hinit, Array.toList_push, Array.size_push, Nat.add_sub_cancel,
      ← Array.length_toList, modify_concat, List.map_append, hdepths, h.depth, henv, hv]
    simp
  · exact fun j hj => h.flagged j ((flagged_modify_depth j).mp hj)
  · exact fun j hj _ => (flagged_modify_depth j).mpr hj

/-- The last locals go, once their slots have been left. -/
theorem Tracks.shrink {env gone : List Nat} (h : Tracks image tip v fs)
    (hv : v.awaiting = false) (henv : v.env = env ++ gone) (hbase : v.base ≤ env.length)
    (hheight : v.height ≤ env.length) (hlimits : ∀ c ∈ v.claims fs, c.limit ≤ env.length) :
    Tracks image tip { v with env }
      { fs with locals := fs.locals.shrink (fs.locals.size - gone.length) } := by
  have hsize : fs.locals.size - gone.length = env.length := by
    rw [h.locals_size, hv, henv]
    simp
  have hflagged : ∀ j, FunctionState.Flagged { fs with locals := fs.locals.shrink env.length } j ↔
      fs.Flagged j ∧ j < env.length := by
    intro j
    simp only [FunctionState.Flagged, ← Array.getElem?_toList, Array.toList_shrink,
      List.getElem?_take]
    split
    · simp_all
    · simp_all
  rw [hsize]
  refine h.relocal (v := v) ?_ ?_ hbase ?_ ?_
  · have hdepths := h.depths
    rw [hv, henv] at hdepths
    rw [Array.toList_shrink, List.map_take, hdepths, hv]
    simp
  · rw [Array.size_shrink]
    exact Nat.le_trans (Nat.min_le_right ..) h.slots
  · exact fun j hj => ((hflagged j).mp hj).2
  · intro j hj hin
    refine (hflagged j).mpr ⟨hj, ?_⟩
    rcases hin with hin | hin | ⟨c, hc, hin⟩
    · omega
    · omega
    · have := hlimits c hc
      omega

/-- A local is captured. -/
theorem Tracks.flag (h : Tracks image tip v fs) {slot : Nat} (hslot : slot < v.env.length) :
    Tracks image tip v
      { fs with locals := fs.locals.modify slot (fun l => { l with captured := true }) } := by
  refine h.relocal (v := v) ?_ (by simpa using h.slots) h.base ?_ ?_
  · rw [← h.depths]
    refine List.ext_getElem? fun j => ?_
    simp only [List.getElem?_map, Array.getElem?_toList, Array.getElem?_modify]
    split
    · cases fs.locals[j]? <;> simp
    · rfl
  · rintro j ⟨l, hl, hcaptured⟩
    rw [Array.getElem?_modify] at hl
    split at hl
    · rename_i heq
      exact heq ▸ hslot
    · exact h.flagged j ⟨l, hl, hcaptured⟩
  · rintro j ⟨l, hl, hcaptured⟩ -
    unfold FunctionState.Flagged
    rw [Array.getElem?_modify]
    split
    · exact ⟨{ l with captured := true }, by simp_all, rfl⟩
    · exact ⟨l, hl, hcaptured⟩

/-! ## Loops -/

/-- The innermost loop of the view is the innermost loop of the compiler. -/
theorem Tracks.loops_cons {l : LoopView} {outer : List LoopView} (h : Tracks image tip v fs)
    (hv : v.loops = l :: outer) :
    ∃ loop loops, fs.loops = loop :: loops ∧ l.Matches loop ∧
      List.Forall₂ LoopView.Matches outer loops := by
  have hloops := h.loops
  rw [hv] at hloops
  cases hl : fs.loops with
  | nil =>
    rw [hl] at hloops
    cases hloops
  | cons loop loops =>
    rw [hl] at hloops
    cases hloops with
    | cons hmatch hrest => exact ⟨loop, loops, rfl, hmatch, hrest⟩

/-- A place to jump back to within the innermost loop. -/
theorem Tracks.mark_point (h : Tracks image .plain v fs) {limit : Nat} (hbase : limit ≤ v.base)
    (hheight : limit ≤ v.height) (hbuilding : v.building = []) :
    Tracks image .plain
      { v with points := ⟨fs.chunk.code.size, v.height, v.handlers, limit, []⟩ :: v.points } fs := by
  refine { h with limits := ?_, written := fun F hF => ?_ }
  · intro p hp
    rcases List.mem_cons.mp hp with rfl | hp
    · exact hbase
    · exact h.limits p hp
  · obtain ⟨listing, hw⟩ := h.written F hF
    refine ⟨listing, hw.assembled, ?_, hw.prologue, hw.last, hw.notes, hw.made⟩
    intro p hp
    rcases List.mem_cons.mp hp with rfl | hp
    · refine ⟨_, .inr ⟨?_, rfl⟩, rfl, rfl, ?_, id, fun _ _ hk => hbuilding ▸ hk⟩
      · rw [← hw.assembled.code_eq, Array.length_toList]
      · exact fun j hj => ⟨hj.1, Nat.lt_of_lt_of_le hj.2 hheight⟩
    · exact hw.points p hp

/-- **`Tracks.begin_loop`** — a loop starts at the tip. From here on any slot below may be shared,
if only it is one that has been captured already. -/
theorem Tracks.begin_loop (h : Tracks image .plain v fs) (hheight : v.height = v.env.length)
    (htries : v.tries = v.handlers.length) (hbuilding : v.building = []) :
    Tracks image .plain
      { v with
        loops := ⟨fs.chunk.code.size, v.depth, v.height, v.handlers⟩ :: v.loops
        points := ⟨fs.chunk.code.size, v.height, v.handlers, v.height, []⟩ :: v.points }
      { fs with loops := ⟨fs.chunk.code.size, fs.scopeDepth, fs.tryDepth, #[]⟩ :: fs.loops } := by
  have hbase := h.base
  refine
    { h with
      base := Nat.le_of_eq hheight
      loops := .cons ⟨rfl, h.depth, h.tries.trans htries⟩ h.loops
      limits := ?_
      bare := by simp
      written := fun F hF => ?_ }
  · intro p hp
    rcases List.mem_cons.mp hp with rfl | hp
    · exact Nat.le_refl _
    · have := h.limits p hp
      show p.limit ≤ v.height
      omega
  obtain ⟨listing, hw⟩ := h.written F fun j hj hf => hF j (show j < v.height by omega) hf
  have hshared : ∀ j, v.shared fs F j → View.shared
      { v with
        loops := ⟨fs.chunk.code.size, v.depth, v.height, v.handlers⟩ :: v.loops
        points := ⟨fs.chunk.code.size, v.height, v.handlers, v.height, []⟩ :: v.points }
      { fs with loops := ⟨fs.chunk.code.size, fs.scopeDepth, fs.tryDepth, #[]⟩ :: fs.loops } F
      j := by
    intro j hj
    have hlt : j < v.height := hheight ▸ h.shared_lt hj
    refine (View.shared_of_lt hlt).mpr ?_
    rcases Nat.lt_or_ge j v.base with hb | hb
    · exact (View.shared_of_lt hb).mp hj
    · exact hF j hlt ((View.shared_of_le hb).mp hj)
  -- first without the new place, then with it
  have hw' : WrittenAs image .plain
      { v with loops := ⟨fs.chunk.code.size, v.depth, v.height, v.handlers⟩ :: v.loops }
      { fs with loops := ⟨fs.chunk.code.size, fs.scopeDepth, fs.tryDepth, #[]⟩ :: fs.loops } F
      listing := by
    refine hw.weaken ⟨rfl, ⟨rfl, rfl, rfl⟩⟩ ⟨rfl, rfl⟩ rfl (fun _ hl => hl) ?_ rfl (.refl _) (fun _ _ j _ hj => hshared j hj) ?_
      ?_ (fun hp ht => ⟨hp, ht⟩) id id
    · exact pool_extends (.refl _) (.refl _) (Nat.le_refl _)
    · refine fun p hp => ⟨hp, fun j hj hs => ?_⟩
      have hb : j < v.base := Nat.lt_of_lt_of_le hj (h.limits p hp)
      exact (View.shared_of_lt hb).mpr ((View.shared_of_lt (show j < v.height by omega)).mp hs)
    · intro s hs
      obtain rfl := Option.some.inj hs
      exact ⟨_, rfl, rfl, rfl, fun j hj => ⟨hshared j hj.1, hj.2⟩, id, fun _ _ hk => hk⟩
  refine ⟨listing, hw'.assembled, ?_, hw'.prologue, hw'.last, hw'.notes, hw'.made⟩
  intro p hp
  rcases List.mem_cons.mp hp with rfl | hp
  · refine ⟨_, .inr ⟨?_, rfl⟩, rfl, rfl, fun j hj => hj, id, fun _ _ hk => hbuilding ▸ hk⟩
    rw [← hw.assembled.code_eq, Array.length_toList]
  · exact hw'.points p hp

/-- **`Tracks.end_loop`** — the jumps out of the innermost loop become open branches like others.
What may be shared below the loop is what has been captured by now. -/
theorem Tracks.end_loop {l : LoopView} {outer : List LoopView} {loop : Loop} {loops : List Loop}
    {points : List Claim}
    (h : Tracks image .plain v fs) (hv : v.loops = l :: outer) (hfs : fs.loops = loop :: loops)
    (hbase : loopBase outer ≤ l.base)
    (hpoints : ∀ p ∈ points, p ∈ v.points ∧ p.limit ≤ loopBase outer) :
    Tracks image .plain
      { v with loops := outer, holes := loop.breaks.toList.map l.claim ++ v.holes, points }
      { fs with loops } := by
  have hvbase : v.base = l.base := by rw [View.base, hv, loopBase]
  obtain ⟨loop', loops', hfs', -, hrest⟩ := h.loops_cons hv
  obtain ⟨rfl, rfl⟩ := List.cons.inj (hfs.symm.trans hfs')
  refine
    { h with
      base := Nat.le_trans (Nat.le_trans hbase (Nat.le_of_eq hvbase.symm)) h.base
      loops := hrest
      limits := fun p hp => (hpoints p hp).2
      bare := by simp
      written := fun F hF => ?_ }
  -- below the outer loop the answer is given, between the two it is what has been captured
  obtain ⟨listing, hw⟩ := h.written
    (fun j => if j < loopBase outer then F j else fs.Flagged j) (by
      intro j hj hf
      split
      · exact hF j ‹_› hf
      · exact hf)
  have hshared : ∀ j, v.shared fs
      (fun j => if j < loopBase outer then F j else fs.Flagged j) j ↔
      View.shared { v with loops := outer, holes := loop.breaks.toList.map l.claim ++ v.holes, points }
        { fs with loops } F j := by
    intro j
    rcases Nat.lt_or_ge j v.base with hb | hb
    · exact View.shared_of_lt hb
    · exact (View.shared_of_le hb).trans (View.shared_of_le (show loopBase outer ≤ j by omega)).symm
  refine ⟨listing, hw.weaken ⟨rfl, ⟨rfl, rfl, rfl⟩⟩ ⟨rfl, rfl⟩ rfl (fun _ hl => hl) ?_ rfl ?_ (fun _ _ j _ => (hshared j).mp) ?_ ?_
    (fun hp ht => ⟨hp, ht⟩) id id⟩
  · exact pool_extends (.refl _) (.refl _) (Nat.le_refl _)
  · unfold View.claims
    rw [hv, hfs, breakClaims, ← List.append_assoc]
    exact List.perm_append_comm.append_right _
  · exact fun p hp => ⟨(hpoints p hp).1, fun j _ => (hshared j).mpr⟩
  · intro s hs
    obtain rfl := Option.some.inj hs
    exact ⟨_, rfl, rfl, rfl, fun j hj => ⟨(hshared j).mp hj.1, hj.2⟩, id, fun _ _ hk => hk⟩

/-- An open branch becomes a jump out of the innermost loop. -/
theorem Tracks.push_break {l : LoopView} {outer : List LoopView} {place : Nat} {holes : List Claim}
    (h : Tracks image tip { v with holes := l.claim place :: holes } fs)
    (hv : v.loops = l :: outer) :
    Tracks image tip { v with holes }
      { fs with loops := fs.loops.modifyHead (fun l => { l with breaks := l.breaks.push place }) } := by
  obtain ⟨loop, loops, hfs, hmatch, hrest⟩ := h.loops_cons hv
  rw [hfs]
  refine
    { h with
      loops := ?_
      written := fun F hF => ?_ }
  · rw [show Outline.loops { v with holes } = l :: outer from hv]
    exact .cons ⟨hmatch.1, hmatch.2, hmatch.3⟩ hrest
  · obtain ⟨listing, hw⟩ := h.written F hF
    refine ⟨listing, hw.weaken ⟨rfl, ⟨rfl, rfl, rfl⟩⟩ ⟨rfl, rfl⟩ rfl (fun _ hl => hl) ?_ rfl ?_ (fun _ _ _ _ hj => hj)
      (fun p hp => ⟨hp, fun _ _ hj => hj⟩) (fun s hs => ⟨s, hs, .refl _⟩) (fun hp ht => ⟨hp, ht⟩) id id⟩
    · exact pool_extends (.refl _) (.refl _) (Nat.le_refl _)
    · unfold View.claims
      rw [hv, hfs]
      simp only [breakClaims, List.modifyHead_cons, Array.toList_push, List.map_append,
        List.map_cons, List.map_nil, List.cons_append, List.append_assoc, List.nil_append]
      have hperm : ((holes ++ loop.breaks.toList.map l.claim) ++
          l.claim place :: breakClaims outer loops).Perm
          (l.claim place :: ((holes ++ loop.breaks.toList.map l.claim) ++ breakClaims outer loops)) :=
        List.perm_middle
      simpa using hperm.symm

/-- The passes of the innermost loop start elsewhere. -/
theorem Tracks.restart_loop {l : LoopView} {outer : List LoopView} {start : Nat}
    (h : Tracks image tip v fs) (hv : v.loops = l :: outer) :
    Tracks image tip { v with loops := { l with start } :: outer }
      { fs with loops := fs.loops.modifyHead (fun l => { l with start }) } := by
  obtain ⟨loop, loops, hfs, hmatch, hrest⟩ := h.loops_cons hv
  have hbase : View.base { v with loops := { l with start } :: outer } = v.base := by
    rw [View.base, View.base, hv]
    rfl
  have hclaims : View.claims { v with loops := { l with start } :: outer }
      { fs with loops := (loop :: loops).modifyHead (fun l => { l with start }) } = v.claims fs := by
    rw [View.claims, View.claims, hv, hfs]
    rfl
  rw [hfs]
  refine
    { h with
      base := hbase ▸ h.base
      loops := .cons ⟨rfl, hmatch.2, hmatch.3⟩ hrest
      limits := fun p hp => hbase ▸ h.limits p hp
      written := fun F hF => ?_ }
  obtain ⟨listing, hw⟩ := h.written F (hbase ▸ hF)
  have hshared : View.shared { v with loops := { l with start } :: outer }
      { fs with loops := (loop :: loops).modifyHead (fun l => { l with start }) } F =
      v.shared fs F := by
    funext j
    rw [View.shared, View.shared, hbase]
    rfl
  refine ⟨listing, ?_, ?_, hw.prologue, hw.last, ?_, hw.made⟩
  · rw [hclaims, hshared]
    exact hw.assembled
  · rw [hclaims, hshared]
    exact hw.points
  · rw [hclaims]
    exact hw.notes

/-! ## Statements, arguments, and the two ends of a function -/

/-- A statement starts at the tip. -/
theorem Tracks.mark_statement (h : Tracks image .plain v fs) (hv : v.height = fs.locals.size) :
    Tracks image .plain v { fs with statements := fs.landmark :: fs.statements } := by
  refine { h with bare := by simp, written := fun F hF => ?_ }
  obtain ⟨listing, hw⟩ := h.written F hF
  refine ⟨listing, ?_, hw.points, hw.prologue, hw.last, hw.notes, hw.made⟩
  have hlandmark : fs.landmark = ⟨fs.chunk.code.size, v.height⟩ := by
    rw [hv]
    rfl
  rw [hlandmark]
  exact hw.assembled.mark

/-- A closure is marked where it is made, with the locals that are declared there. -/
theorem Tracks.mark_closure (h : Tracks image tip v fs) :
    Tracks image tip v { fs with closures := fs.landmark :: fs.closures } := by
  refine { h with written := fun F hF => ?_ }
  obtain ⟨listing, hw⟩ := h.written F hF
  refine ⟨listing, hw.weaken ⟨rfl, ⟨rfl, rfl, rfl⟩⟩ ⟨rfl, rfl⟩ rfl (fun _ hl => List.mem_cons_of_mem _ hl) ?_ rfl (.refl _)
    (fun _ _ _ _ hj => hj) (fun p hp => ⟨hp, fun _ _ hj => hj⟩) (fun s hs => ⟨s, hs, .refl _⟩)
    (fun hp ht => ⟨hp, ht⟩) id id⟩
  exact pool_extends (.refl _) (.refl _) (Nat.le_refl _)

/-- How a function is seen before it has any code: its callee or receiver is in slot zero. -/
def View.initial (known : Prop) : View where
  env := [0]
  awaiting := false
  depth := 0
  height := 1
  tries := 0
  handlers := []
  bodies := []
  landing := none
  building := []
  loops := []
  holes := []
  points := []
  names := []
  captures := 0
  arity := 0
  entry := 0
  prologue := false
  known := known

/-- A function starts with its callee or receiver in slot 0, and with nothing else. -/
theorem Tracks.initial {known : Prop} (hknown : known) (kind : FunctionKind)
    (name : Option String) :
    Tracks image .bare (.initial known) (.start kind name) where
  known := hknown
  depth := rfl
  tries := rfl
  arity := rfl
  depths := rfl
  slots := show 1 ≤ maxSlots by decide
  flagged := by
    rintro j ⟨l, hl, hcaptured⟩
    cases j with
    | zero => exact Nat.one_pos
    | succ j => simp [FunctionState.start] at hl
  base := Nat.zero_le _
  loops := .nil
  limits := by simp [View.initial]
  names := by simp [View.initial]
  nameConstants := by simp [FunctionState.start]
  constants := Nat.zero_le _
  refs := by simp [FunctionState.start, Chunk.empty]
  captures := Nat.zero_le _
  captureCount := Nat.zero_le _
  prologue := rfl
  bare := fun _ => ⟨rfl, rfl⟩
  written := fun F _ => by
    -- the listing of no code, which is entered at its end
    refine ⟨[], ?_, by simp [View.initial], by simp, by simp, Noted.empty rfl rfl, by simp⟩
    exact
      { code_eq := rfl
        contiguous := trivial
        suits := by simp
        entry := ⟨_, .inr ⟨rfl, rfl⟩, rfl, rfl, by simp [Situation.entry], id,
          by simp [View.situation, View.initial]⟩
        exits := by simp
        placed := by simp [View.initial, View.claims, breakClaims]
        distinct := by simp [View.initial, View.claims, breakClaims]
        statements := by simp [FunctionState.start]
        closures := by simp }

/-- A function without code can be given one more argument. -/
theorem Tracks.add_argument (h : Tracks image .bare v fs) (hv : v.points = []) :
    Tracks image .bare
      { v with arity := v.arity + 1, entry := v.entry + 1, height := v.height + 1 }
      { fs with arity := fs.arity + 1 } := by
  obtain ⟨hcode, hstatements⟩ := h.bare rfl
  refine
    { h with
      arity := congrArg (· + 1) h.arity
      written := fun F hF => ?_ }
  obtain ⟨listing, hw⟩ := h.written F hF
  -- there is no code yet, so only where the function is entered changes
  obtain rfl : listing = [] := by
    have := hw.assembled.code_eq
    rw [hcode] at this
    cases listing with
    | nil => rfl
    | cons q l => simp [codeOf, Instruction.encode] at this
  obtain ⟨s, hs, hflows⟩ := hw.assembled.entry
  obtain rfl : v.situation (v.shared fs F) false = s := by
    rcases hs with ⟨q, hq, -⟩ | ⟨-, hs⟩
    · simp at hq
    · exact Option.some.inj hs
  refine ⟨[], ?_, ?_, by simp, by simp, hw.notes, by simp⟩
  · exact
      { code_eq := hw.assembled.code_eq
        contiguous := trivial
        suits := by simp
        entry := ⟨_, .inr ⟨rfl, rfl⟩, by
          have := hflows.height
          simp only [Situation.entry, View.situation] at this ⊢
          omega, hflows.handlers, by simp [Situation.entry], id, hflows.holds⟩
        exits := by simp
        placed := fun c hc => hw.assembled.placed c hc
        distinct := hw.assembled.distinct
        statements := by
          intro l hl
          rw [show FunctionState.statements { fs with arity := fs.arity + 1 } = [] from hstatements]
            at hl
          simp at hl
        closures := by simp }
  · intro p hp
    rw [show Outline.points { v with arity := _, entry := _, height := _ } = [] from hv] at hp
    simp at hp

/-- Where the arguments are loaded is told before the load is written. -/
theorem Tracks.begin_prologue (h : Tracks image .bare v fs) :
    Tracks image .bare { v with prologue := true }
      { fs with argsPrologue := some fs.chunk.size } :=
  { h with
    prologue := by
      have hsize : fs.chunk.size = 0 := congrArg Array.size (h.bare rfl).1
      rw [hsize]
      rfl
    written := fun F hF => (h.written F hF).imp fun _ hw =>
      ⟨hw.1, hw.2, fun _ ht => absurd rfl ht, hw.4, hw.5, hw.6⟩ }

theorem pool_finalChunk : pool image fs.finalChunk.constants fs.captures.size = fs.pool image := by
  unfold FunctionState.finalChunk FunctionState.pool
  split
  · split <;> rfl
  · rfl

/-- **`Tracks.disciplined`** — a function that has just returned, without an open branch, is
disciplined, and its notes are true; so it is when the load of its arguments is blanked out. -/
theorem Tracks.disciplined (h : Tracks image .closed v fs) (hholes : v.holes = [])
    (hloops : v.loops = []) (hentry : v.entry = v.arity) (hlanding : v.landing = none) :
    ∃ listing, Disciplined (pool image fs.finalChunk.constants fs.captures.size) fs.arity
        fs.finalChunk.code fs.statements fs.closures listing ∧
      Annotates (pool image fs.finalChunk.constants fs.captures.size) fs.finalChunk listing := by
  obtain ⟨listing, hw⟩ := h.written (fun _ => True) fun _ _ _ => trivial
  have hassembled := hw.assembled
  have hnotes := hw.notes
  -- nothing is open any more: no branch, no loop and no handler
  have hclaims : v.claims fs = [] := by
    rw [View.claims, hholes, hloops]
    rfl
  rw [hclaims, hentry, ← h.arity] at hassembled
  rw [hclaims, hlanding] at hnotes
  have hlast : ∃ q ∈ listing.getLast?, q.instr.op = .ret := by
    have := hw.last rfl
    rw [List.getLast?_map] at this
    simpa using this
  have hdisciplined := hassembled.disciplined hlast
  rw [pool_finalChunk]
  unfold FunctionState.finalChunk
  rw [h.prologue]
  cases hp : v.prologue with
  | false => exact ⟨listing, hdisciplined, hnotes.annotates⟩
  | true =>
    simp only [if_true]
    split
    · exact ⟨listing, hdisciplined, hnotes.annotates⟩
    · -- the load of the arguments is the first instruction, and blanked out if they are not used
      have hhead := hw.prologue hp (by simp)
      cases listing with
      | nil => simp at hhead
      | cons q rest =>
        have hop : q.instr.op = .getGlobal := by simpa using hhead
        refine ⟨_, hdisciplined.blank hop, Noted.annotates
          (hnotes.blank hdisciplined.contiguous hop ?_ ?_)⟩
        · have hrange := (hdisciplined.suits q List.mem_cons_self).inRange
          rw [Instruction.width, hrange.captures_eq_nil (by rw [hop]; decide), hop]
          rfl
        · obtain ⟨p, hp, ho, hflows⟩ := hdisciplined.entry
          obtain rfl : p = q := hdisciplined.contiguous.offset_inj hp List.mem_cons_self
            (ho.trans hdisciplined.contiguous.1.symm)
          exact hflows.handlers.symm

end Tracks

end ScriptMachine.Compiler
