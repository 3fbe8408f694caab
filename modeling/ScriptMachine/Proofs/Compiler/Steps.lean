import ScriptMachine.Proofs.Compiler.Invariant

/-!
# ScriptMachine.Proofs.Compiler.Steps — what the steps of the compiler keep true

`Inv tip vs n` says of a state of the compiler that every function being compiled is as its view in
`vs` tells, innermost first, that every function already in the image is disciplined, and that at
most `n` tokens are left. This module gives each step that the productions of the grammar are made
of its triple: tokens, instructions, branches, constants, scopes, variables and functions.

A view tells of a function what its text so far has settled: its locals with their scopes, its loops and
handlers, and which branches are open with the situations they expect where they lead. From `Inv` and
the listing of a function its code is disciplined up to the open branches, so each triple here has two
halves: the instruction that is written suits the situation at the tip, and the situation it leaves is
that of the new view.

`patchJump_spec` is the one step that reaches back. An open branch expects some situation, the code has
come to it, and filling the distance in closes the branch, so nothing that was written in between has
to be looked at again. A jump back goes to a place whose situation was noted when the code stood there
(`emitLoop_spec`). Behind a jump or a return nothing is known to follow, and the next view is free.

What the productions make of these steps, and that every statement leaves the stack as it found it, is
for the modules above; neither is anything said here of a text with errors.
-/

namespace ScriptMachine.Compiler

/-! ## The invariant -/

/-- A variable of a function that functions nested in it can capture. -/
def FunctionState.Offers (fs : FunctionState) (c : Capture) : Prop :=
  if c.isLocal then fs.Flagged c.index else c.index < fs.captures.size

/-- The captures of a function are variables of the function around it. -/
def Links (fs : FunctionState) : List FunctionState → Prop
  | [] => fs.captures = #[]
  | outer :: _ => ∀ c ∈ fs.captures, outer.Offers c

/-- Which variables a function captures is all that its parents see of it. -/
theorem Links.congr {fs fs' : FunctionState} {rest : List FunctionState} (h : Links fs rest)
    (hcaptures : fs'.captures = fs.captures) : Links fs' rest := by
  cases rest with
  | nil => exact hcaptures.trans h
  | cons outer rest =>
    intro c hc
    rw [hcaptures] at hc
    exact h c hc

/-- Each function is as its view tells; only the innermost one has a special tip. -/
def Tracked (image : Image) : Tip → List View → List FunctionState → Prop
  | tip, v :: vs, fs :: rest => Tracks image tip v fs ∧ Links fs rest ∧ Tracked image .plain vs rest
  | _, [], [] => True
  | _, _, _ => False

/-- A reference to a text of an image. -/
def IsText (image : Image) (r : Ref) : Prop :=
  ∃ t, image[r.index]? = some (.text t)

/-- **`SoundItem`** — a function at index `k` of an image refers to earlier items only, its name and
path are texts, and it is disciplined with true notes. -/
structure SoundItem (image : Image) (k : Nat) (p : Prototype) (statements closures : List Landmark) :
    Prop where
  constants : p.chunk.constants.size ≤ Chunk.maxConstants
  refs : ∀ r, Value.obj r ∈ p.chunk.constants → r.index < k
  name : ∀ r ∈ p.name, r.index < k ∧ IsText image r
  path : ∀ r ∈ p.path, r.index < k ∧ IsText image r
  disciplined : ∃ listing, Disciplined (pool image p.chunk.constants p.captureCount) p.arity
      p.chunk.code statements closures listing ∧
    Annotates (pool image p.chunk.constants p.captureCount) p.chunk listing

/-- Every function of an image is sound. -/
def SoundImage (image : Image) : Prop :=
  ∀ (k : Nat) (p : Prototype) (statements closures : List Landmark),
    image[k]? = some (.function p statements closures) → SoundItem image k p statements closures

/-- **`Inv tip vs n s`** — what holds of a state of the compiler. -/
structure Inv (tip : Tip) (vs : List View) (n : Nat) (s : State) : Prop where
  calm : s.panicking = false
  functions : Tracked s.image tip vs (s.function :: s.enclosing)
  image : SoundImage s.image
  path : IsText s.image s.path
  last : (s.rest.getLastD s.current).kind = .endOfText
  rest : s.rest.length ≤ n
  budget : 2 * s.rest.length + 1 ≤ s.budget

section Image

variable {image image' : Image}

theorem IsText.extend {r : Ref} (h : IsText image r) (hi : Extended image image') :
    IsText image' r :=
  h.imp fun _ ht => hi _ _ ht

/-- A sound function stays so in a larger image. -/
theorem SoundItem.extend {k : Nat} {p : Prototype} {statements closures : List Landmark}
    (h : SoundItem image k p statements closures) (hi : Extended image image') :
    SoundItem image' k p statements closures where
  constants := h.constants
  refs := h.refs
  name r hr := ⟨(h.name r hr).1, (h.name r hr).2.extend hi⟩
  path r hr := ⟨(h.path r hr).1, (h.path r hr).2.extend hi⟩
  disciplined := h.disciplined.imp fun _ hl =>
    ⟨hl.1.extend (pool_extends hi (.refl _) (Nat.le_refl _)),
      hl.2.of_notes ⟨rfl, rfl, rfl⟩ (pool_extends hi (.refl _) (Nat.le_refl _))⟩

/-- An image stays sound when a text or a sound function is added. -/
theorem SoundImage.push (h : SoundImage image) {item : Item}
    (hitem : ∀ p statements closures, item = .function p statements closures →
      SoundItem image image.size p statements closures) : SoundImage (image.push item) := by
  intro k p statements closures hk
  rw [Array.getElem?_push] at hk
  split at hk
  · subst k
    exact (hitem p statements closures (Option.some.inj hk)).extend (Extended.push _ _)
  · exact (h k p statements closures hk).extend (Extended.push _ _)

theorem Tracked.extend_image {tip : Tip} {vs : List View} {fss : List FunctionState}
    (h : Tracked image tip vs fss) (hi : Extended image image') : Tracked image' tip vs fss := by
  induction vs generalizing tip fss with
  | nil => cases fss <;> exact h
  | cons v vs ih =>
    cases fss with
    | nil => exact h
    | cons fs rest => exact ⟨h.1.extend_image hi, h.2.1, ih h.2.2⟩

end Image

variable {tip tip' : Tip} {v v' : View} {vs vs' : List View} {n m : Nat} {s : State}

/-- The first view is that of the function being compiled. -/
theorem Inv.head (h : Inv tip (v :: vs) n s) : Tracks s.image tip v s.function :=
  h.functions.1

/-- The innermost function changes, its captures aside. -/
theorem Inv.update_head (h : Inv tip (v :: vs) n s) {fs : FunctionState}
    (hfs : Tracks s.image tip' v' fs) (hcaptures : fs.captures = s.function.captures) :
    Inv tip' (v' :: vs) n { s with function := fs } where
  calm := h.calm
  functions := ⟨hfs, h.functions.2.1.congr hcaptures, h.functions.2.2⟩
  image := h.image
  path := h.path
  last := h.last
  rest := h.rest
  budget := h.budget

/-- A step on the innermost function. -/
theorem modifyFunction_spec {f : FunctionState → FunctionState}
    (hf : ∀ image fs, Tracks image tip v fs → Tracks image tip' v' (f fs))
    (hcaptures : ∀ fs, (f fs).captures = fs.captures) :
    Triple (Inv tip (v :: vs) n) (modifyFunction f) fun _ => Inv tip' (v' :: vs) n :=
  .modify (fun _ => rfl) fun s hs => hs.update_head (hf _ _ hs.head) (hcaptures s.function)

/-- The view of the innermost function is weakened. -/
theorem Inv.weaken (h : Inv tip (v :: vs) n s)
    (hv : ∀ image fs, Tracks image tip v fs → Tracks image tip' v' fs) :
    Inv tip' (v' :: vs) n s :=
  h.update_head (hv _ _ h.head) rfl

theorem Inv.known (h : Inv tip (v :: vs) n s) : v.known :=
  h.head.known

/-- More tokens may be left. -/
theorem Inv.mono (h : Inv tip (v :: vs) m s) (hm : v.known → m ≤ n) : Inv tip (v :: vs) n s :=
  { h with rest := Nat.le_trans h.rest (hm h.known) }

theorem Inv.know (h : Inv tip (v :: vs) n s) {p : Prop} (hp : p) : Inv tip (v.know p :: vs) n s :=
  h.weaken fun _ _ ht => ht.know fun _ => hp

/-! ## Errors and tokens -/

/-- Only the tokens, the comments and the errors differ. -/
structure SameCode (s s' : State) : Prop where
  function : s'.function = s.function
  enclosing : s'.enclosing = s.enclosing
  image : s'.image = s.image
  path : s'.path = s.path
  budget : s'.budget = s.budget
  panicking : s'.panicking = s.panicking
  previous : s'.previous = s.previous

/-- What is read ahead may change, as long as the text still has its end and no more tokens are
left. -/
theorem Inv.congr {s' : State} (h : Inv tip vs n s) (hs : SameCode s s')
    (hlast : (s'.rest.getLastD s'.current).kind = .endOfText)
    (hle : s'.rest.length ≤ s.rest.length) (hrest : s'.rest.length ≤ m) : Inv tip vs m s' where
  calm := hs.panicking.trans h.calm
  functions := by
    rw [hs.function, hs.enclosing, hs.image]
    exact h.functions
  image := hs.image ▸ h.image
  path := by
    rw [hs.image, hs.path]
    exact h.path
  last := hlast
  rest := hrest
  budget := by
    have := h.budget
    rw [hs.budget]
    omega

/-- An error that leaves a clean state was not recorded, as one had been recorded before. -/
theorem clean_of_errorAt {t : Token} {message : String} (h : (s.errorAt t message).Clean) :
    s.Clean ∧ s.errorAt t message = s := by
  unfold State.errorAt at h ⊢
  split at h
  · exact ⟨h, if_pos ‹_›⟩
  · simp [State.Clean, State.record] at h

/-- After an error that is reported there is nothing to show. -/
theorem errorAt_calm {place : State → Token} {message : String} :
    Triple (fun s => s.panicking = false) (modify fun s => s.errorAt (place s) message)
      fun _ _ => False := by
  intro s hs hclean
  have hclean : (s.errorAt (place s) message).Clean := hclean
  obtain ⟨hs', heq⟩ := clean_of_errorAt hclean
  rw [State.errorAt, hs hs'] at hclean
  simp [State.Clean, State.record] at hclean

/-- An error is never part of a compile that goes well. -/
theorem errorAt_spec {place : State → Token} {message : String} :
    Triple (Inv tip vs n) (modify fun s => s.errorAt (place s) message) fun _ _ => False :=
  errorAt_calm.pre fun _ hs => hs.calm

theorem error_spec {message : String} :
    Triple (Inv tip vs n) (error message) fun _ _ => False :=
  errorAt_spec

/-- Errors stay. -/
theorem error_dirty {message : String} : Triple (fun _ => False) (error message) fun _ _ => False :=
  fun _ hs hclean => hs (clean_of_errorAt hclean).1

theorem errorAtCurrent_spec {message : String} :
    Triple (Inv tip vs n) (errorAtCurrent message) fun _ _ => False :=
  errorAt_spec

/-- Going to the next token leaves everything else alone, unless it records an error. -/
theorem clean_of_advanceIn {l : List Token} (h : (s.advanceIn l).Clean) :
    s.Clean ∧ SameCode s (s.advanceIn l) := by
  induction l generalizing s with
  | nil => exact ⟨h, ⟨rfl, rfl, rfl, rfl, rfl, rfl, rfl⟩⟩
  | cons t rest ih =>
    unfold State.advanceIn at h ⊢
    dsimp only at h ⊢
    split at h
    · obtain ⟨hclean, hsame⟩ := ih h
      obtain ⟨hclean, heq⟩ := clean_of_errorAt hclean
      rw [heq] at hsame
      refine ⟨hclean, ?_⟩
      simp only [*]
      exact ⟨hsame.1, hsame.2, hsame.3, hsame.4, hsame.5, hsame.6, hsame.7⟩
    · split at h
      · obtain ⟨hclean, hsame⟩ := ih h
        refine ⟨hclean, ?_⟩
        simp only [*, if_true]
        exact ⟨hsame.1, hsame.2, hsame.3, hsame.4, hsame.5, hsame.6, hsame.7⟩
      · simp only [*, if_false]
        split at h <;> simp_all [State.settleDocs, State.Clean, State.record] <;>
          exact ⟨rfl, rfl, rfl, rfl, rfl, rfl, rfl⟩

/-- The tokens that are left end with the mark of the end, and there are fewer of them. -/
theorem rest_advanceIn {l : List Token} {t : Token} (hl : l ≠ [])
    (hlast : (l.getLastD t).kind = .endOfText) :
    ((s.advanceIn l).rest.getLastD (s.advanceIn l).current).kind = .endOfText ∧
      (s.advanceIn l).rest.length < l.length := by
  induction l generalizing s t with
  | nil => exact absurd rfl hl
  | cons u rest ih =>
    have hskip : u.kind ≠ .endOfText → rest ≠ [] := by
      rintro hu rfl
      exact hu hlast
    have hlast' : (rest.getLastD u).kind = .endOfText := by
      rw [List.getLastD_cons] at hlast
      exact hlast
    unfold State.advanceIn
    dsimp only
    split
    · rename_i hcomplaint
      have hu : u.kind ≠ .endOfText := by
        intro hu
        rw [hu] at hcomplaint
        cases hcomplaint
      obtain ⟨hend, hlt⟩ := ih (hskip hu) hlast'
      exact ⟨hend, Nat.lt_succ_of_lt hlt⟩
    · split
      · rename_i hdoc
        obtain ⟨hend, hlt⟩ := ih (hskip (by rw [hdoc]; decide)) hlast'
        exact ⟨hend, Nat.lt_succ_of_lt hlt⟩
      · split
        · exact ⟨hlast', Nat.lt_succ_self _⟩
        · exact ⟨hlast', Nat.lt_succ_self _⟩

/-- What consuming a token does: one token less is left, unless it was the mark of the end. -/
theorem advance_spec' :
    Triple (Inv tip vs n) advance fun _ s =>
      Inv tip vs n s ∧ (s.previous.kind ≠ .endOfText → 1 ≤ n ∧ Inv tip vs (n - 1) s) := by
  intro s hs hclean
  have heq : advance s = ((), { s with previous := s.current }.advanceIn s.rest) := rfl
  rw [heq] at hclean ⊢
  dsimp only at hclean ⊢
  obtain ⟨hclean, hsame⟩ := clean_of_advanceIn hclean
  have hinv := hs hclean
  have hinv' : Inv tip vs n { s with previous := s.current } :=
    ⟨hinv.1, hinv.2, hinv.3, hinv.4, hinv.5, hinv.6, hinv.7⟩
  have hlast := hinv.last
  have hrest := hinv.rest
  by_cases hnil : s.rest = []
  · have hstays : { s with previous := s.current }.advanceIn s.rest =
        { s with previous := s.current, rest := [] } := by
      rw [hnil]
      rfl
    rw [hnil] at hlast
    rw [hstays] at hsame ⊢
    refine ⟨hinv'.congr hsame hlast (Nat.zero_le _) (Nat.zero_le _), fun hne => absurd ?_ hne⟩
    exact hlast
  · obtain ⟨hend, hlt⟩ := rest_advanceIn (s := { s with previous := s.current }) hnil hlast
    refine ⟨hinv'.congr hsame hend (Nat.le_of_lt hlt) (by omega), fun _ => ⟨by omega, ?_⟩⟩
    exact hinv'.congr hsame hend (Nat.le_of_lt hlt) (by omega)

theorem advance_dirty : Triple (fun _ => False) advance fun _ _ => False :=
  fun _ hs hclean => hs (clean_of_advanceIn hclean).1

theorem advance_spec : Triple (Inv tip vs n) advance fun _ => Inv tip vs n :=
  advance_spec'.post fun _ _ h => h.1

/-- Consuming a token that is not the mark of the end. -/
theorem advance_consumes {t : TokenKind} (ht : t ≠ .endOfText) :
    Triple (fun s => Inv tip (v :: vs) n s ∧ s.current.kind = t) advance fun _ s =>
      Inv tip (v.know (1 ≤ n) :: vs) (n - 1) s ∧ s.previous.kind = t := by
  intro s hs hclean
  have hclean' : ({ s with previous := s.current }.advanceIn s.rest).Clean := hclean
  obtain ⟨hclean', hsame⟩ := clean_of_advanceIn hclean'
  obtain ⟨hinv, hkind⟩ := hs hclean'
  have hprevious : (advance s).2.previous.kind = t := by
    rw [← hkind]
    exact congrArg Token.kind hsame.previous
  obtain ⟨-, hnext⟩ := advance_spec' s (fun _ => hinv) hclean
  obtain ⟨hn, hinv'⟩ := hnext (by rw [hprevious]; exact ht)
  exact ⟨hinv'.know hn, hprevious⟩

section Reading

variable {P : State → Prop}

theorem check_spec {k : TokenKind} :
    Triple P (check k) fun b s => P s ∧ b = (s.current.kind == k) :=
  .reads fun _ => rfl

theorem currentKind_spec : Triple P currentKind fun k s => P s ∧ k = s.current.kind :=
  .reads fun _ => rfl

theorem previousKind_spec : Triple P previousKind fun k s => P s ∧ k = s.previous.kind :=
  .reads fun _ => rfl

theorem check_skip {k : TokenKind} : Triple P (check k) fun _ => P :=
  .skip fun _ => rfl

theorem atEnd_skip : Triple P atEnd fun _ => P :=
  .skip fun _ => rfl

theorem currentKind_skip : Triple P currentKind fun _ => P :=
  .skip fun _ => rfl

theorem previousKind_skip : Triple P previousKind fun _ => P :=
  .skip fun _ => rfl

theorem previousText_skip : Triple P previousText fun _ => P :=
  .skip fun _ => rfl

theorem followingKind_skip : Triple P followingKind fun _ => P :=
  .skip fun _ => rfl

theorem get_skip : Triple P get fun _ => P :=
  .skip fun _ => rfl

end Reading

/-- A token that is accepted has been taken, so that fewer are left. -/
theorem accept_consumes {k : TokenKind} (hk : k ≠ .endOfText) :
    Triple (Inv tip (v :: vs) n) (accept k) fun b s =>
      if b then Inv tip (v.know (1 ≤ n) :: vs) (n - 1) s else Inv tip (v :: vs) n s := by
  refine .bind check_spec fun b => ?_
  cases b with
  | true =>
    refine .bind ((advance_consumes hk).pre fun s hs => ⟨hs.1, by simpa using hs.2.symm⟩) fun _ => ?_
    exact .pure fun s hs => hs.1
  | false => exact .pure fun s hs => hs.1

theorem accept_spec {k : TokenKind} : Triple (Inv tip vs n) (accept k) fun _ => Inv tip vs n := by
  refine .bind check_skip fun b => ?_
  cases b with
  | true => exact .bind advance_spec fun _ => .pure fun _ hs => hs
  | false => exact .pure fun _ hs => hs

theorem acceptAny_spec {ks : List TokenKind} :
    Triple (Inv tip vs n) (acceptAny ks) fun _ => Inv tip vs n := by
  induction ks with
  | nil => exact .pure fun _ hs => hs
  | cons k ks ih =>
    refine .bind accept_spec fun b => ?_
    cases b with
    | true => exact .pure fun _ hs => hs
    | false => exact ih

theorem expect_spec {k : TokenKind} {message : String} :
    Triple (Inv tip vs n) (expect k message) fun _ => Inv tip vs n := by
  refine .bind check_skip fun b => .ite (fun _ => advance_spec) fun _ => ?_
  exact errorAtCurrent_spec.post fun _ _ h => h.elim

theorem skipTypeAnnotation_spec :
    Triple (Inv tip vs n) skipTypeAnnotation fun _ => Inv tip vs n := by
  refine .bind accept_spec fun b => .ite (fun _ => ?_) fun _ => .pure fun _ hs => hs
  refine .bind accept_spec fun b => ?_
  exact .ite (fun _ => .pure fun _ hs => hs) fun _ => expect_spec

/-! ## Views that code can be added to -/

/-- The loops around a place: each starts at a place to jump back to, the locals of its body are exactly
those of deeper scopes, and it is around the loops before it. -/
structure LoopsOk (env : List Nat) (depth : Nat) (handlers : List Guard) (points : List Claim)
    (loops : List LoopView) : Prop where
  positive : ∀ l ∈ loops, 0 < l.base
  base : ∀ l ∈ loops, l.base ≤ env.length
  scopeDepth : ∀ l ∈ loops, l.scopeDepth ≤ depth
  outside : ∀ l ∈ loops, ∀ d ∈ env.take l.base, d ≤ l.scopeDepth
  inside : ∀ l ∈ loops, ∀ d ∈ env.drop l.base, l.scopeDepth < d
  handlers : ∀ l ∈ loops, l.handlers <:+ handlers
  start : ∀ l ∈ loops, ⟨l.start, l.base, l.handlers, l.base, []⟩ ∈ points
  limits : ∀ p ∈ points, p.limit ≤ loopBase loops
  nested : loops.Pairwise fun l outer => outer.base ≤ l.base

namespace Outline

/-- **`v.Usable`** — closures can be made at the tip: at most the slot of a local that has been
declared just now is missing. -/
structure Usable (v : Outline) : Prop where
  receiver : 0 < v.env.length
  height : v.env.length ≤ v.height + 1
  depths : ∀ d ∈ v.env, d ≤ v.depth
  guards : ∀ h outer, (h :: outer) <:+ v.handlers →
    h.claim outer ∈ v.holes ∧ h.height ≤ v.env.length ∧ h.height ≤ v.height
  holes : ∀ c ∈ v.holes, c.limit ≤ v.env.length
  building : ∀ e ∈ v.building, v.env.length ≤ e.1 ∧ e.1 < v.height
  tries : v.tries = v.handlers.length
  lexical : v.Lexical
  loops : LoopsOk v.env v.depth v.handlers v.points v.loops

/-- **`v.Ready`** — every local has its value: expressions can be compiled. -/
structure Ready (v : Outline) : Prop extends Usable v where
  values : v.env.length ≤ v.height

/-- **`v.Settled`** — nothing but the locals is on the stack: statements can be compiled. -/
structure Settled (v : Outline) : Prop extends Ready v where
  level : v.height = v.env.length
  awaiting : v.awaiting = false
  finished : v.building = []

/-- No literal is unfinished. -/
theorem Settled.building_all (hv : v.Settled) {P : Nat × Collection → Prop} :
    ∀ e ∈ v.building, P e := by
  simp [hv.finished]

theorem Settled.building_subset (hv : v.Settled) {l : List (Nat × Collection)} : v.building ⊆ l :=
  hv.building_all

/-- Locals can be declared: the scope is deeper than any loop around. -/
def Roomy (v : Outline) : Prop :=
  ∀ l ∈ v.loops, l.scopeDepth < v.depth

end Outline

/-- What a handler restores is on the stack. -/
theorem Outline.Usable.guarded (hv : v.Usable) : v.Guarded :=
  ⟨fun h outer hh => (hv.guards h outer (hh ▸ List.suffix_refl _)).1, hv.lexical.2,
    hv.lexical.1 ▸ List.Subset.refl _, hv.building⟩

/-- The view at another height. -/
def View.atHeight (v : View) (height : Nat) : View :=
  { v with height }

/-- The view after so many values have been pushed. -/
def View.up (v : View) (k : Nat) : View :=
  v.atHeight (v.height + k)

/-- The height may be any that covers the locals and what is being built. -/
theorem Outline.Ready.atHeight (hv : v.Ready) {height : Nat} (h : v.env.length ≤ height)
    (hbuilding : ∀ e ∈ v.building, e.1 < height) : (v.atHeight height).Ready where
  receiver := hv.receiver
  height := Nat.le_succ_of_le h
  depths := hv.depths
  guards h' outer hh := by
    obtain ⟨hmem, henv, -⟩ := hv.guards h' outer hh
    exact ⟨hmem, henv, Nat.le_trans henv h⟩
  holes := hv.holes
  building e he := ⟨(hv.building e he).1, hbuilding e he⟩
  tries := hv.tries
  lexical := hv.lexical
  loops := hv.loops
  values := h

theorem Outline.Ready.up (hv : v.Ready) (k : Nat) : (v.up k).Ready :=
  hv.atHeight (Nat.le_trans hv.values (Nat.le_add_right ..)) fun e he =>
    Nat.lt_of_lt_of_le (hv.building e he).2 (Nat.le_add_right ..)

/-! ## Instructions -/

/-- Operations that need nothing but values, names and variables, and go on to the next one. -/
def isOrdinary (op : Operation) : Bool :=
  op.falls && !op.isForward && !op.needsFresh && !op.closesTaken && op.fills.isNone &&
    op != .constant && op != .closure

/-- **`v.Accepts i`** — an ordinary instruction finds at the tip what it needs. -/
structure View.Accepts (v : View) (i : Instruction) : Prop where
  inRange : i.InRange
  names : ∀ k ∈ i.names, k ∈ v.names
  slot : i.op.usesSlot = true → i.first < v.height
  capture : i.op.usesCapture = true → i.first < v.captures
  reads : i.effect.reads < v.height
  takes : i.effect.takes = 0 ∨ v.env.length + i.effect.takes ≤ v.height
  kept : ∀ e ∈ v.building, e.1 < v.height - i.effect.takes
  assigned : i.op = .setLocal → ∀ e ∈ v.building, i.first ≠ e.1

theorem emitInstruction_spec {P : State → Prop} {Q : Unit → State → Prop} {i : Instruction}
    (h : ∀ s, P s → Q () { s with function := s.function.emit i s.previous.line }) :
    Triple P (emitInstruction i) Q :=
  fun s hs hclean => h s (hs hclean)

/-- Above the locals nothing is shared. -/
theorem Tracks.free_above {image : Image} {fs : FunctionState} (h : Tracks image tip v fs) {j : Nat}
    (hj : v.env.length ≤ j) : v.base ≤ j ∧ ¬ fs.Flagged j :=
  ⟨Nat.le_trans h.base hj, fun hf => absurd (h.flagged j hf) (Nat.not_lt.mpr hj)⟩

theorem Outline.Usable.head_guard (hv : v.Usable) {h : Guard} (hh : h ∈ v.handlers.head?) :
    h.height ≤ v.env.length ∧ h.height ≤ v.height := by
  cases hl : v.handlers with
  | nil => simp [hl] at hh
  | cons h' outer =>
    obtain rfl : h' = h := by simpa [hl] using hh
    exact (hv.guards h' outer (hl ▸ List.suffix_refl _)).2

/-- Collections that are being built are no variables. -/
theorem View.Guarded.held {image : Image} {fs : FunctionState} (hv : v.Guarded)
    (ht : Tracks image tip v fs) :
    ∀ e ∈ v.building, e.1 < v.height ∧ v.base ≤ e.1 ∧ ¬ fs.Flagged e.1 := fun e he =>
  ⟨(hv.building e he).2, ht.free_above (hv.building e he).1⟩

/-- What an ordinary instruction finds at the tip of a view, it finds in the function. -/
theorem View.Accepts.admits {image : Image} {fs : FunctionState} {i : Instruction}
    (h : v.Accepts i) (hv : v.Usable) (hop : isOrdinary i.op = true)
    (ht : Tracks image tip v fs) (fresh : Bool) : Admits image v fs fresh i := by
  simp only [isOrdinary, Bool.and_eq_true, Bool.not_eq_true', bne_iff_ne] at hop
  obtain ⟨⟨⟨⟨⟨⟨hfalls, hforward⟩, hfresh⟩, -⟩, hfills⟩, hconstant⟩, hclosure⟩ := hop
  have hcaptures := h.inRange.captures_eq_nil hclosure
  refine
    { inRange := h.inRange
      constant := fun hc => absurd hc hconstant
      names := fun k hk => ht.names k (h.names k hk)
      function := fun hf => absurd hf hclosure
      slot := h.slot
      capture := fun hc => Nat.lt_of_lt_of_le (h.capture hc) ht.captures
      captured := by simp [hcaptures]
      reads := h.reads
      taken := ?_
      fresh := fun hn => by rw [hfresh] at hn; cases hn
      fills := fun k hk => by rw [hk] at hfills; cases hfills
      held := hv.guarded.held ht
      assigned := h.assigned
      guarded := ?_
      closing := fun hc => by rw [hc] at hfalls; cases hfalls
      back := fun hb => by rw [hb] at hfalls; cases hfalls
      lexical := fun _ => hv.lexical.1.symm
      within := hv.guarded.within }
  · intro _ j hj hlt
    rcases h.takes with h0 | hle
    · omega
    · exact ht.free_above (by omega)
  · intro _ h' hh
    have := hv.head_guard hh
    rcases h.takes with h0 | hle <;> omega

/-- An instruction that the next one follows, a closure aside, goes to the end of the code; `building`
are the collections that are being built then. -/
theorem falling_of {P : State → Prop} {i : Instruction} (building : List (Nat × Collection))
    (hv : v.Usable)
    (hfalls : i.op.falls = true) (hforward : i.op.isForward = false) (hclosure : i.op ≠ .closure)
    (hspawn : i.op = .spawn → tip = .thunk)
    (hbuilding : v.known → ∀ e ∈ building, e ∈ v.building ∧ e.1 < v.height - i.effect.takes ∨
      i.op.makes = some e.2 ∧ e.1 = v.height)
    (hP : ∀ s, P s → Inv tip (v :: vs) n s ∧ Admits s.image v s.function tip.isFresh i)
    (htip : tip = .plain ∨ tip.isFresh = true) :
    Triple P (emitInstruction i) fun _ =>
      Inv .plain ({ v with building }.atHeight (v.height - i.effect.takes + i.effect.leaves) :: vs)
        n := by
  refine emitInstruction_spec fun s hs => ?_
  obtain ⟨hinv, hadmits⟩ := hP s hs
  have hcaptures := hadmits.inRange.captures_eq_nil hclosure
  have hopen : tip ≠ .closed ∧ tip ≠ .bare := by
    rcases htip with rfl | htip
    · simp
    · constructor <;> rintro rfl <;> cases htip
  exact hinv.update_head (hinv.head.emit_falling building hopen.1 hadmits hv.guarded hfalls hforward hspawn
    (by simp [hcaptures]) (fun hc => absurd hc hclosure) (fun ht => absurd ht hopen.2)
    (hbuilding hinv.known) (.inl rfl)) rfl

/-- The collections that are being built stay below what the instruction takes. -/
theorem falling_spec {P : State → Prop} {i : Instruction} (hv : v.Usable)
    (hfalls : i.op.falls = true) (hforward : i.op.isForward = false) (hclosure : i.op ≠ .closure)
    (hspawn : i.op = .spawn → tip = .thunk)
    (hkept : v.known → ∀ e ∈ v.building, e.1 < v.height - i.effect.takes)
    (hP : ∀ s, P s → Inv tip (v :: vs) n s ∧ Admits s.image v s.function tip.isFresh i)
    (htip : tip = .plain ∨ tip.isFresh = true) :
    Triple P (emitInstruction i) fun _ =>
      Inv .plain (v.atHeight (v.height - i.effect.takes + i.effect.leaves) :: vs) n :=
  falling_of v.building hv hfalls hforward hclosure hspawn (fun hknown e he => .inl ⟨he, hkept hknown e he⟩) hP
    htip

/-- An ordinary instruction goes to the end of the code. -/
theorem ordinary_spec {i : Instruction} (hv : v.Usable) (hop : isOrdinary i.op = true)
    (hi : v.known → v.Accepts i) :
    Triple (Inv .plain (v :: vs) n) (emitInstruction i) fun _ =>
      Inv .plain (v.atHeight (v.height - i.effect.takes + i.effect.leaves) :: vs) n := by
  have hop' := hop
  simp only [isOrdinary, Bool.and_eq_true, Bool.not_eq_true', bne_iff_ne] at hop'
  have hspawn : i.op ≠ .spawn := by
    intro hspawn
    rw [hspawn] at hop
    cases hop
  exact falling_spec hv hop'.1.1.1.1.1.1 hop'.1.1.1.1.1.2 hop'.2 (fun h => absurd h hspawn)
    (fun hknown => (hi hknown).kept) (fun s hs => ⟨hs, (hi hs.known).admits hv hop hs.head _⟩) (.inl rfl)

/-- **`v.Finds op first second`** — the operands of an operation fit, and the names and variables
they mean are there. -/
structure View.Finds (v : View) (op : Operation) (first second : Nat) : Prop where
  inRange : (Instruction.make op first second).InRange
  names : ∀ k ∈ (Instruction.make op first second).names, k ∈ v.names
  slot : op.usesSlot = true → first < v.env.length
  capture : op.usesCapture = true → first < v.captures

/-- **`emit_spec`** — an operation that works on the topmost `k` values. -/
theorem emit_spec {op : Operation} {first second k : Nat} (hv : v.Ready)
    (hop : isOrdinary op = true) (h : v.known → v.Finds op first second)
    (hk : (Instruction.make op first second).effect.reads ≤ k) :
    Triple (Inv .plain (v.up k :: vs) n) (emit op first second) fun _ =>
      Inv .plain (v.up (k - (Instruction.make op first second).effect.takes +
        (Instruction.make op first second).effect.leaves) :: vs) n := by
  have htakes := (Instruction.make op first second).takes_le_reads
  have hreceiver := hv.receiver
  have hvalues := hv.values
  have haccepts : (v.up k).known → (v.up k).Accepts (.make op first second) := by
    intro hknown
    obtain ⟨hrange, hnames, hslot, hcapture⟩ := h hknown
    refine ⟨hrange, hnames, ?_, hcapture, ?_, .inr ?_, fun e he => ?_, fun hset e he heq => ?_⟩
    · intro hu
      exact Nat.lt_of_lt_of_le (hslot hu) (Nat.le_trans hvalues (Nat.le_add_right ..))
    · show _ < v.height + k
      omega
    · show v.env.length + _ ≤ v.height + k
      omega
    · have hlt := (hv.building e he).2
      show e.1 < v.height + k - _
      omega
    · -- a variable is assigned to
      have hlt := hslot (show op.usesSlot = true by rw [show op = .setLocal from hset]; rfl)
      have hle := (hv.building e he).1
      change first = e.1 at heq
      omega
  refine (ordinary_spec (hv.up k).toUsable hop haccepts).post fun _ s hs => ?_
  -- the view counts from the locals, the effect from the top
  have hheight : (v.up k).height - (Instruction.make op first second).effect.takes +
      (Instruction.make op first second).effect.leaves =
      v.height + (k - (Instruction.make op first second).effect.takes +
        (Instruction.make op first second).effect.leaves) := by
    show v.height + k - _ + _ = _
    omega
  rw [hheight] at hs
  exact hs

/-- Operations without operands that need nothing but values. -/
def isPlain (op : Operation) : Bool :=
  isOrdinary op && decide (Instruction.make op 0 0).InRange &&
    (Instruction.make op 0 0).names.isEmpty && !op.usesSlot && !op.usesCapture

/-- An operation without operands that takes what is there and leaves what it says. -/
theorem emit_plain {op : Operation} {k : Nat} (hv : v.Ready) (hop : isPlain op = true)
    (hk : (Instruction.make op 0 0).effect.reads ≤ k) :
    Triple (Inv .plain (v.up k :: vs) n) (emit op) fun _ =>
      Inv .plain (v.up (k - (Instruction.make op 0 0).effect.takes +
        (Instruction.make op 0 0).effect.leaves) :: vs) n := by
  simp only [isPlain, Bool.and_eq_true, decide_eq_true_eq, List.isEmpty_iff, Bool.not_eq_true']
    at hop
  obtain ⟨⟨⟨⟨hordinary, hrange⟩, hnames⟩, hslot⟩, hcapture⟩ := hop
  refine emit_spec hv hordinary (fun _ => ⟨hrange, by simp [hnames], ?_, ?_⟩) hk
  · simp [hslot]
  · simp [hcapture]

/-! ## Knowing less -/

/-- **`v.Weaker v'`** — `v'` is `v` with less known about it. -/
structure View.Weaker (v v' : View) : Prop where
  outline : v'.toOutline = { v.toOutline with points := v'.points }
  points : ∀ p ∈ v'.points, p ∈ v.points
  names : ∀ k ∈ v'.names, k ∈ v.names
  captures : v'.captures ≤ v.captures
  known : v.known → v'.known

/-- What a weaker view says holds as well. -/
theorem Inv.forget (h : Inv tip (v :: vs) n s) (hv : v.Weaker v') : Inv tip (v' :: vs) n s := by
  refine h.weaken fun _ _ ht => ?_
  have := ht.forget hv.names hv.captures hv.points hv.known
  have heq : v' = { v with
      points := v'.points, names := v'.names, captures := v'.captures, known := v'.known } :=
    congrArg (fun o => View.mk o v'.names v'.captures v'.known) hv.outline
  rw [heq]
  exact this

theorem View.Weaker.know {p : Prop} : (v.know p).Weaker v :=
  ⟨rfl, fun _ h => h, fun _ h => h, Nat.le_refl _, fun h => h.1⟩

theorem View.Weaker.up {k : Nat} (h : v.Weaker v') : (v.up k).Weaker (v'.up k) := by
  refine ⟨?_, h.points, h.names, h.captures, h.known⟩
  have := h.outline
  simp only [View.up, View.atHeight]
  rw [this]

theorem View.Weaker.trans {v'' : View} (h : v.Weaker v') (h' : v'.Weaker v'') : v.Weaker v'' := by
  refine ⟨?_, fun p hp => h.points p (h'.points p hp), fun k hk => h.names k (h'.names k hk),
    Nat.le_trans h'.captures h.captures, fun hk => h'.known (h.known hk)⟩
  rw [h'.outline, h.outline]

/-! ## Constants -/

/-- A text may be added to the image at any time. -/
theorem Inv.add_text (h : Inv tip vs n s) (text : String) :
    Inv tip vs n { s with image := s.image.push (.text text) } ∧
      IsText (s.image.push (.text text)) ⟨s.image.size⟩ := by
  have hi : Extended s.image (s.image.push (.text text)) := Extended.push _ _
  refine ⟨?_, text, by simp⟩
  exact
    { calm := h.calm
      functions := h.functions.extend_image hi
      image := h.image.push (fun _ _ _ hf => by cases hf)
      path := h.path.extend hi
      last := h.last
      rest := h.rest
      budget := h.budget }

theorem intern_spec {text : String} :
    Triple (Inv tip vs n) (intern text) fun r s => Inv tip vs n s ∧ IsText s.image r :=
  .modifyGet (fun _ => rfl) fun _ hs => hs.add_text text

theorem IsText.lt {image : Image} {r : Ref} (h : IsText image r) : r.index < image.size := by
  obtain ⟨t, ht⟩ := h
  exact (Array.getElem?_eq_some_iff.mp ht).1

/-- A new constant; what does not depend on the constants stays known. -/
theorem makeConstant_spec {x : Value} {φ : State → Prop}
    (hφ : ∀ s, φ s → ∀ r, x = .obj r → r.index < s.image.size)
    (hkeep : ∀ s chunk, φ s → φ { s with function := { s.function with chunk } }) :
    Triple (fun s => Inv tip (v :: vs) n s ∧ φ s) (makeConstant x) fun k s =>
      Inv tip (v :: vs) n s ∧ φ s ∧ s.function.chunk.constants[k]? = some x := by
  refine .get fun s₀ => .get fun s₁ => .ite (fun _ => ?_) fun hfull => ?_
  · refine .bind (error_spec.pre fun s hs => hs.1.1.1) fun _ => .pure fun _ h => h.elim
  · refine .bind (.modify (Q := fun _ s => Inv tip (v :: vs) n s ∧ φ s ∧
      s.function.chunk.constants[s₀.function.chunk.constants.size]? = some x) (fun _ => rfl) ?_)
      fun _ => .pure fun _ h => h
    rintro s ⟨⟨⟨hs, hφs⟩, rfl⟩, rfl⟩
    have hsize : s.function.chunk.constants.size < Chunk.maxConstants := by
      simpa [Chunk.isFull] using hfull
    refine ⟨hs.update_head (hs.head.push_constant x hsize (hφ _ hφs)) rfl, hkeep _ _ hφs, ?_⟩
    simp [Chunk.pushConstant]

/-- The load of a new constant. -/
theorem emitConstant_spec {x : Value} {φ : Image → Prop} {k : Nat} (hv : v.Ready)
    (hφ : ∀ image, φ image → ∀ r, x = .obj r → r.index < image.size) :
    Triple (fun s => Inv .plain (v.up k :: vs) n s ∧ φ s.image) (emitConstant x) fun _ =>
      Inv .plain (v.up (k + 1) :: vs) n := by
  refine .bind (makeConstant_spec (φ := fun s => φ s.image) (fun s => hφ s.image)
    fun _ _ h => h) fun index => ?_
  refine falling_spec (hv.up k).toUsable rfl rfl (by simp [Instruction.make])
    (by simp [Instruction.make]) (fun _ e he => ((hv.up k).building e he).2)
    (fun s hs => ⟨(hs.1 : Inv .plain (v.up k :: vs) n s), ?_⟩) (.inl rfl)
  obtain ⟨hs, -, hconstant⟩ := hs
  have hlt : index < s.function.chunk.constants.size := (Array.getElem?_eq_some_iff.mp hconstant).1
  have hmax : index < 65536 := Nat.lt_of_lt_of_le hlt hs.head.constants
  have hreceiver := hv.receiver
  have hvalues := (hv.up k).values
  have hguard : ∀ h ∈ v.handlers.head?, h.height ≤ v.height + k := fun h hh =>
    ((hv.up k).head_guard hh).2
  have hheight : 0 < v.height + k := Nat.lt_of_lt_of_le hreceiver hvalues
  have hlexical := hv.lexical.1
  have hheld := (hv.up k).guarded.held hs.head
  constructor
  case held => exact hheld
  all_goals
    clear hheld
    simp_all [Instruction.make, Instruction.InRange, Operation.shape, Instruction.names,
      Instruction.effect, Operation.usesSlot, Operation.usesCapture, Operation.needsFresh,
      Operation.fills, View.up, View.atHeight]

theorem emitNumber_spec {x : Float} {k : Nat} (hv : v.Ready) :
    Triple (Inv .plain (v.up k :: vs) n) (emitConstant (.number x)) fun _ =>
      Inv .plain (v.up (k + 1) :: vs) n :=
  (emitConstant_spec (φ := fun _ => True) hv fun _ _ _ h => by cases h).pre fun _ hs => ⟨hs, trivial⟩

/-- A text that is in the image is pushed as a constant. -/
theorem emitText_spec {r : Ref} {k : Nat} (hv : v.Ready) :
    Triple (fun s => Inv .plain (v.up k :: vs) n s ∧ IsText s.image r) (emitConstant (.obj r))
      fun _ => Inv .plain (v.up (k + 1) :: vs) n :=
  emitConstant_spec (φ := fun image => IsText image r) hv fun _ ht r' hr => by
    cases hr
    exact ht.lt

/-- The view when a constant is known to be a name. -/
def View.name (v : View) (k : Nat) : View :=
  { v with names := k :: v.names, known := v.known ∧ k < 65536 }

theorem View.Weaker.name {k : Nat} : (v.name k).Weaker v :=
  ⟨rfl, fun _ h => h, fun _ h => List.mem_cons_of_mem _ h, Nat.le_refl _, fun h => h.1⟩

/-- A name constant has an index of two bytes. -/
theorem Tracks.name_lt {image : Image} {fs : FunctionState} (h : Tracks image tip v fs) {k : Nat}
    (hk : (fs.pool image).isName k) : k < 65536 := by
  obtain ⟨r, t, hr, -⟩ := hk
  exact Nat.lt_of_lt_of_le (Array.getElem?_eq_some_iff.mp hr).1 h.constants

/-- That a constant is a name may be noted in the view. -/
theorem Inv.name {k : Nat} (h : Inv tip (v :: vs) n s)
    (hk : (s.function.pool s.image).isName k) : Inv tip (v.name k :: vs) n s := by
  refine h.update_head ?_ rfl
  refine
    { h.head with
      known := ⟨h.head.known, h.head.name_lt hk⟩
      names := ?_
      written := fun F hF => (h.head.written F hF).imp fun _ hw => ⟨hw.1, hw.2, hw.3, hw.4, hw.5, hw.6⟩ }
  intro k' hk'
  rcases List.mem_cons.mp hk' with rfl | hk'
  · exact hk
  · exact h.head.names k' hk'

/-- The constant of a name. -/
theorem nameConstant_spec {text : String} :
    Triple (Inv tip (v :: vs) n) (nameConstant text) fun k => Inv tip (v.name k :: vs) n := by
  refine .bind intern_spec fun r => .get fun s₀ => ?_
  split
  · rename_i index hindex
    refine .pure ?_
    rintro s ⟨⟨hs, -⟩, rfl⟩
    exact hs.name (hs.head.nameConstants text index hindex)
  · refine .bind ((makeConstant_spec (φ := fun s => IsText s.image r) ?_ fun _ _ h => h).pre
      fun s hs => hs.1) fun index => ?_
    · intro _ ht r' hr
      cases hr
      exact ht.lt
    · refine .bind (.modify (Q := fun _ => Inv tip (v.name index :: vs) n) (fun _ => rfl) ?_)
        fun _ => .pure fun _ hs => hs
      rintro s ⟨hs, ⟨t, ht⟩, hconstant⟩
      have hname : (s.function.pool s.image).isName index := ⟨r, t, hconstant, ht⟩
      exact (hs.name hname).update_head ((hs.name hname).head.insert_name hname) rfl

/-! ## Branches -/

/-- The view with one more open branch. -/
def View.hole (v : View) (c : Claim) : View :=
  { v with holes := c :: v.holes }

/-- What a branch to a place like the tip will find. -/
def View.claim (v : View) (place : Nat) : Claim :=
  ⟨place, v.height, v.handlers, v.env.length, v.building⟩

/-- The view with more open branches. -/
def View.opened (v : View) (cs : List Claim) : View :=
  { v with holes := cs ++ v.holes }

/-- Branches may be left open, if they do not count on more locals than there are. -/
theorem Outline.Ready.opened (hv : v.Ready) {cs : List Claim} (hcs : ∀ c ∈ cs, c.limit ≤ v.env.length) :
    (v.opened cs).Ready where
  receiver := hv.receiver
  height := hv.height
  depths := hv.depths
  guards h outer hh := by
    obtain ⟨hmem, hrest⟩ := hv.guards h outer hh
    exact ⟨List.mem_append_right _ hmem, hrest⟩
  holes c hc := by
    rcases List.mem_append.mp hc with hc | hc
    · exact hcs c hc
    · exact hv.holes c hc
  building := hv.building
  tries := hv.tries
  lexical := hv.lexical
  loops := hv.loops
  values := hv.values

theorem Outline.Ready.hole (hv : v.Ready) {c : Claim} (hc : c.limit ≤ v.env.length) :
    (v.hole c).Ready :=
  show (v.opened [c]).Ready from hv.opened (by simpa using hc)

/-- A forward branch takes three bytes. -/
theorem size_emit_forward {fs : FunctionState} {op : Operation} {d line : Nat}
    (hop : op.isForward = true) :
    (fs.emit (.make op d 0) line).chunk.code.size = fs.chunk.code.size + 3 := by
  rw [← Array.length_toList, FunctionState.emit, Chunk.toList_emit, List.length_append,
    Instruction.encode_forward (i := .make op d 0) hop, Array.length_toList]
  rfl

/-- A branch ahead, from what it does to the function. -/
theorem emitJump_of {op : Operation} {w : Nat → View} (hop : op.isForward = true)
    (h : ∀ image fs line, Tracks image .plain v fs →
      Tracks image .plain (w (fs.chunk.code.size + 1)) (fs.emit (.make op 0xffff 0) line)) :
    Triple (Inv .plain (v :: vs) n) (emitJump op) fun r => Inv .plain (w r :: vs) n := by
  refine .bind (Q := fun _ s => Inv .plain (w (s.function.chunk.size - 2) :: vs) n s)
    (emitInstruction_spec fun s hs => ?_) fun _ => ?_
  · have hsize : (s.function.emit (.make op 0xffff 0) s.previous.line).chunk.size - 2 =
        s.function.chunk.code.size + 1 := by
      rw [Chunk.size, size_emit_forward hop]
      rfl
    rw [hsize]
    exact hs.update_head (h _ _ _ hs.head) rfl
  · refine .bind (.reads (g := fun s => s.function.chunk.size) fun _ => rfl) fun size =>
      .bind .demanded fun _ => .pure ?_
    rintro s ⟨hs, rfl⟩
    exact hs

/-- A branch suits wherever what it reads is on the stack. -/
theorem admits_branch {image : Image} {fs : FunctionState} {op : Operation}
    (hheld : ∀ e ∈ v.building, e.1 < v.height ∧ v.base ≤ e.1 ∧ ¬ fs.Flagged e.1)
    (hguard : op.mayRaise = true → ∀ h ∈ v.handlers.head?, h.height ≤ v.height)
    (hop : op.isForward = true) (hreads : (Instruction.make op 0xffff 0).effect.reads < v.height)
    (hclosing : op = .tryEnd → v.handlers ≠ [])
    (hlexical : op.mayRaise = true → v.handlers = v.bodies) (hwithin : v.handlers ⊆ v.bodies) :
    Admits image v fs false (.make op 0xffff 0) := by
  have htakes : (Instruction.make op 0xffff 0).effect.takes = 0 := by
    revert hop
    cases op <;> simp [Operation.isForward, Instruction.make, Instruction.effect]
  refine
    { inRange := (Instruction.inRange_forward_iff hop).mpr ⟨show 65535 < 65536 by decide, rfl, rfl⟩
      constant := ?_
      names := by rw [Instruction.names_forward hop]; simp
      function := ?_
      slot := ?_
      capture := ?_
      captured := by simp [Instruction.make]
      reads := hreads
      taken := fun _ j hj hlt => by omega
      fresh := ?_
      fills := ?_
      held := hheld
      assigned := ?_
      guarded := fun hr h hh => by rw [htakes]; exact hguard hr h hh
      closing := hclosing
      back := ?_
      lexical := hlexical
      within := hwithin } <;> revert hop <;> simp only [Instruction.make] <;> cases op <;>
    simp [Operation.isForward, Operation.usesSlot, Operation.usesCapture, Operation.needsFresh,
      Operation.fills]

/-- A branch that is taken when the value on top is falsey. -/
theorem emitJumpIfFalse_spec (hv : v.Ready) (hheight : v.env.length < v.height) :
    Triple (Inv .plain (v :: vs) n) (emitJump .jumpIfFalse) fun r =>
      Inv .plain (v.hole (v.claim r) :: vs) n := by
  have hreceiver := hv.receiver
  refine emitJump_of rfl fun image fs line ht => ?_
  refine ht.emit_branch (by simp) (admits_branch (hv.guarded.held ht) (fun _ h hh => (hv.head_guard hh).2) rfl ?_ (by simp)
    (fun _ => hv.lexical.1.symm) hv.guarded.within) hv.guarded rfl rfl rfl (by simp) ?_ fun _ =>
    ⟨rfl, rfl⟩
  · show 1 < v.height
    omega
  · exact fun cap hcap => ⟨rfl, rfl, fun j hj => ⟨hj.1, hcap j hj.1⟩, id, fun _ _ hk => hk⟩

/-- A jump ahead. What follows it may be in any situation. -/
theorem emitJump_spec {limit : Nat} {building : List (Nat × Collection)} (hv : v.Guarded)
    (hpositive : 0 < v.height) (hlimit : v.env.length ≤ limit ∨ v.height ≤ limit)
    (hbuilding : building ⊆ v.building) (height : Nat) (handlers : List Guard) :
    Triple (Inv .plain (v :: vs) n) (emitJump .jump) fun r =>
      Inv .plain ({ v.hole ⟨r, v.height, v.handlers, limit, building⟩ with height, handlers } :: vs)
        n := by
  refine emitJump_of rfl fun image fs line ht => ?_
  refine ht.emit_branch (by simp) (admits_branch (hv.held ht) (fun h => absurd h (by decide)) rfl hpositive (by simp)
    (fun h => absurd h (by decide)) hv.within) hv rfl rfl rfl (by simp) ?_ fun hf =>
    absurd hf (by decide)
  refine fun cap hcap => ⟨rfl, rfl, fun j hj => ⟨hj.1, ?_⟩, id, fun _ _ hk => hbuilding hk⟩
  rcases hlimit with hle | hle
  · exact Nat.lt_of_lt_of_le (hcap j hj.1) hle
  · exact Nat.lt_of_lt_of_le hj.2 hle

/-- A handler is installed. -/
theorem emitTry_spec (hv : v.Ready) :
    Triple (Inv .plain (v :: vs) n) (emitJump .tryBegin) fun r =>
      Inv .plain ({ v.hole (Guard.claim ⟨r, v.height⟩ v.handlers) with
        handlers := ⟨r, v.height⟩ :: v.handlers
        bodies := ⟨r, v.height⟩ :: v.bodies } :: vs) n := by
  have hreceiver := hv.receiver
  have hvalues := hv.values
  refine emitJump_of rfl fun image fs line ht => ?_
  refine ht.emit_branch (by simp) (admits_branch (hv.guarded.held ht) (fun _ h hh => (hv.head_guard hh).2) rfl ?_ (by simp)
    (fun _ => hv.lexical.1.symm) hv.guarded.within) hv.guarded rfl rfl rfl (by simp) ?_ fun _ =>
    ⟨rfl, rfl⟩
  · show 0 < v.height
    omega
  · exact fun cap _ => ⟨rfl, rfl, fun j hj => hj, id, nofun⟩

/-- A handler is removed, and control goes on ahead. What follows may be in any situation. -/
theorem emitTryEnd_spec {h : Guard} {outer : List Guard} (hv : v.Guarded) (hpositive : 0 < v.height)
    (hh : v.handlers = h :: outer) (height : Nat) (handlers : List Guard) :
    Triple (Inv .plain (v :: vs) n) (emitJump .tryEnd) fun r =>
      Inv .plain ({ v.hole ⟨r, v.height, outer, v.env.length, v.building⟩ with height, handlers } ::
        vs) n := by
  refine emitJump_of rfl fun image fs line ht => ?_
  refine ht.emit_branch (by simp) (admits_branch (hv.held ht) (fun h => absurd h (by decide)) rfl hpositive
    (by simp [hh]) (fun h => absurd h (by decide)) hv.within) hv rfl rfl rfl (by simp) ?_ fun hf =>
    absurd hf (by decide)
  · refine fun cap hcap => ⟨rfl, ?_, fun j hj => ⟨hj.1, hcap j hj.1⟩, id, fun _ _ hk => hk⟩
    simp [Instruction.make, Situation.branch, View.situation, hh, Claim.situation]

/-- Filling in a branch, from what it does to the function. -/
theorem patchJump_of {place : Nat} (h : ∀ image fs distance, Tracks image .plain v fs →
      distance = fs.chunk.code.size - place - 2 → distance < 65536 →
      Tracks image .plain v' (fs.aim place distance)) :
    Triple (Inv .plain (v :: vs) n) (patchJump place) fun _ => Inv .plain (v' :: vs) n := by
  refine .bind (.reads (g := fun s => s.function.chunk.size) fun _ => rfl) fun size => ?_
  -- a distance that does not fit its operand is reported
  refine .bind .demanded fun _ => .bind (Q := fun _ s' => ∃ s, Inv .plain (v :: vs) n s ∧
      size = s.function.chunk.size ∧ s' = { s with function := { s.function with
        chunk := s.function.chunk.noteDistance place (size - place - 2) } })
    (.modify (fun _ => rfl) fun s hs => ⟨s, hs.1, hs.2, rfl⟩) fun _ => .ite (fun _ => ?_) fun hlt => ?_
  · refine (errorAt_calm.pre ?_).post fun _ _ h => h.elim
    rintro _ ⟨s, hs, -, rfl⟩
    exact hs.calm
  · refine .modify (fun _ => rfl) ?_
    rintro _ ⟨s, hs, rfl, rfl⟩
    refine hs.update_head (h _ _ _ hs.head rfl ?_) rfl
    exact Nat.lt_of_not_le fun hle => hlt (Nat.lt_of_lt_of_le (by decide) hle)

/-- **`patchJump_spec`** — an open branch that expects the situation at the tip is filled in. -/
theorem patchJump_spec (before : List Claim) {after : List Claim} {c : Claim} (hheight : c.height = v.height)
    (hhandlers : c.handlers = v.handlers) (hlimit : c.limit ≤ v.height)
    (hbuilding : v.building ⊆ c.building) (hlexical : v.Lexical) :
    Triple (Inv .plain ({ v with holes := before ++ c :: after } :: vs) n) (patchJump c.place)
      fun _ => Inv .plain ({ v with holes := before ++ after } :: vs) n :=
  patchJump_of fun _ _ _ ht => ht.patch hheight hhandlers hlimit hbuilding hlexical

/-- Errors stay while a branch is filled in. -/
theorem patchJump_dirty {place : Nat} :
    Triple (fun _ => False) (patchJump place) fun _ _ => False := by
  refine .bind (.skip fun _ => rfl) fun size => .bind .demanded fun _ => ?_
  refine .bind (.modify (fun _ => rfl) fun _ h => h) fun _ => .ite (fun _ => error_dirty) fun _ => ?_
  exact .modify (fun _ => rfl) fun _ h => h

/-- The open branch that came last is filled in. -/
theorem patchJump_last {c : Claim} (hheight : c.height = v.height) (hhandlers : c.handlers = v.handlers)
    (hlimit : c.limit ≤ v.height) (hbuilding : v.building ⊆ c.building) (hlexical : v.Lexical) :
    Triple (Inv .plain (v.hole c :: vs) n) (patchJump c.place) fun _ => Inv .plain (v :: vs) n :=
  patchJump_spec [] hheight hhandlers hlimit hbuilding hlexical

/-- The open branch before the one that came last is filled in. -/
theorem patchJump_previous {c d : Claim} (hheight : c.height = v.height)
    (hhandlers : c.handlers = v.handlers) (hlimit : c.limit ≤ v.height)
    (hbuilding : v.building ⊆ c.building) (hlexical : v.Lexical) :
    Triple (Inv .plain ((v.hole c).hole d :: vs) n) (patchJump c.place) fun _ =>
      Inv .plain (v.hole d :: vs) n :=
  patchJump_spec [d] hheight hhandlers hlimit hbuilding hlexical

/-- The way to the handler of a statement is filled in where the handler starts. -/
theorem patchHandler_spec {place height : Nat} {d : Claim} (hheight : v.height = height + 1)
    (hbuilding : v.building = []) (hlanding : v.landing = some height) :
    Triple (Inv .plain ({ (v.hole (Guard.claim ⟨place, height⟩ v.handlers)).hole d with
        bodies := ⟨place, height⟩ :: v.bodies, landing := none } :: vs) n) (patchJump place) fun _ =>
      Inv .plain (v.hole d :: vs) n :=
  patchJump_of fun _ _ _ ht hd hrange => Tracks.patch_handler [d]
    (c := Guard.claim ⟨place, height⟩ v.handlers) ht hheight.symm rfl
    (hheight ▸ Nat.le_succ _) (fun _ he => absurd (hbuilding ▸ he) List.not_mem_nil) hlanding hd hrange

/-- A place to come back to is within the code. -/
theorem WrittenAs.point_le {image : Image} {fs : FunctionState} {F : Nat → Prop}
    {listing : List Placed} (h : WrittenAs image tip v fs F listing) {p : Claim}
    (hp : p ∈ v.points) : p.place ≤ fs.chunk.code.size := by
  obtain ⟨s, hs, -⟩ := h.points p hp
  have hsize : fs.chunk.code.size = (codeOf listing).length := by
    rw [← h.assembled.code_eq, Array.length_toList]
  rcases hs with ⟨q, hq, hplace, -⟩ | ⟨hplace, -⟩
  · have := h.assembled.contiguous.end_le q hq
    omega
  · omega

/-- A jump back to a place of known situation. What follows it may be in any situation. -/
theorem emitLoop_spec {p : Claim} {start : Nat} (hv : v.Guarded) (hpositive : 0 < v.height)
    (hp : p ∈ v.points) (hstart : v.known → start = p.place) (hheight : p.height = v.height) (hhandlers : p.handlers = v.handlers)
    (hlimit : v.height ≤ p.limit) (hbuilding : p.building = []) (height : Nat)
    (handlers : List Guard) :
    Triple (Inv .plain (v :: vs) n) (emitLoop start) fun _ =>
      Inv .plain ({ v with height, handlers } :: vs) n := by
  refine .bind (.reads (g := fun s => s.function.chunk.size) fun _ => rfl) fun size => ?_
  refine .bind .demanded fun _ => .ite (fun _ => ?_) fun hlt => emitInstruction_spec ?_
  · refine .bind (error_spec.pre fun _ hs => hs.1) fun _ => ?_
    exact emitInstruction_spec fun _ h => h.elim
  · rintro s ⟨hs, rfl⟩
    obtain rfl := hstart hs.known
    -- the place is in the code, so the distance back is no less than the instruction is wide
    have hle : p.place ≤ s.function.chunk.size := by
      obtain ⟨listing, hw⟩ := hs.head.written (fun _ => True) fun _ _ _ => trivial
      exact hw.point_le hp
    have hdistance : s.function.chunk.size + 1 - p.place + 2 = s.function.chunk.code.size + 3 -
        p.place := by
      have : s.function.chunk.size = s.function.chunk.code.size := rfl
      omega
    have hadmits : Admits s.image v s.function false
        (.make .loop (s.function.chunk.size + 1 - p.place + 2) 0) := by
      have hwithin := hv.within
      have hheld := hv.held hs.head
      constructor
      case held => exact hheld
      all_goals
        clear hheld
        simp_all [Instruction.make, Instruction.InRange, Operation.shape, Instruction.names,
          Instruction.effect, Operation.usesSlot, Operation.usesCapture, Operation.needsFresh,
          Operation.fills, Operation.mayRaise]
      omega
    refine hs.update_head (hs.head.emit_back hadmits hv rfl hp ?_ hheight hhandlers hlimit hbuilding)
      rfl
    simp only [Instruction.make]
    have : s.function.chunk.size = s.function.chunk.code.size := rfl
    omega

theorem emitLoop_dirty {start : Nat} : Triple (fun _ => False) (emitLoop start) fun _ _ => False :=
  .bind (.skip fun _ => rfl) fun _ => .bind .demanded fun _ =>
    .when (fun _ => error_dirty) (fun _ _ h => h) (emitInstruction_spec fun _ h => h)

/-- A handler is removed on the way out of a loop. -/
theorem emitClose_spec {h : Guard} {outer : List Guard} (hpositive : 0 < v.height)
    (hlanding : v.landing = none) (hbuilding : v.building = []) (hh : v.handlers = h :: outer)
    (hwithin : v.known → v.handlers ⊆ v.bodies) :
    Triple (Inv .plain (v :: vs) n) (emit .tryEnd 0) fun _ =>
      Inv .plain ({ v with handlers := outer } :: vs) n := by
  refine emitInstruction_spec fun s hs => ?_
  have hwithin := hwithin hs.known
  have hadmits : Admits s.image v s.function false (.make .tryEnd 0 0) := by
    constructor <;> simp_all [Instruction.make, Instruction.InRange, Operation.shape,
      Instruction.names, Instruction.effect, Operation.usesSlot, Operation.usesCapture,
      Operation.needsFresh, Operation.fills, Operation.mayRaise]
  have hclosed : Tracks s.image .plain (v.tipped v.height v.handlers.tail v.bodies v.building [])
      (s.function.emit (.make .tryEnd 0 0) s.previous.line) :=
    hs.head.emit_close hadmits hlanding rfl rfl
  rw [hh] at hclosed
  exact hs.update_head hclosed rfl

/-- A return: nothing is known to follow. -/
theorem emitRet_spec {k : Nat} (hv : v.Ready) :
    Triple (Inv .plain (v.up (k + 1) :: vs) n) (emit .ret) fun _ =>
      Inv .closed (v.up (k + 1) :: vs) n := by
  refine emitInstruction_spec fun s hs => ?_
  have hreceiver := hv.receiver
  have hvalues := hv.values
  have hguard : ∀ h ∈ v.handlers.head?, h.height ≤ v.height := fun h hh => (hv.head_guard hh).2
  have hlexical := hv.lexical.1
  have hfree := fun j => hs.head.free_above (j := j)
  have hadmits : Admits s.image (v.up (k + 1)) s.function false (.make .ret 0 0) := by
    constructor
    case held => exact (hv.up (k + 1)).guarded.held hs.head
    all_goals
      simp_all [Instruction.make, Instruction.InRange, Operation.shape, Instruction.names,
        Instruction.effect, Operation.usesSlot, Operation.usesCapture, Operation.needsFresh,
        Operation.closesTaken, Operation.fills, Operation.mayRaise, View.up, View.atHeight]
    · omega
    · -- the value that is returned is above all variables
      intro j hj hlt
      exact hfree j (by omega)
    · intro h hh
      have := hguard h hh
      omega
  exact hs.update_head (hs.head.emit_return hadmits (hv.up _).guarded rfl) rfl

/-- A return in the middle of a function: what follows it may be in any situation. -/
theorem emitReturnValue_spec {k : Nat} (hv : v.Ready) (height : Nat) :
    Triple (Inv .plain (v.up (k + 1) :: vs) n) (emit .ret) fun _ =>
      Inv .plain (v.atHeight height :: vs) n :=
  (emitRet_spec hv).post fun _ _ hs => hs.weaken fun _ _ ht => ht.revive height v.handlers

/-- A constructor returns its receiver and any other function nothing. What follows is not reached
from here. -/
theorem emitReturn_spec (hv : v.Ready) :
    Triple (Inv .plain (v :: vs) n) emitReturn fun _ => Inv .closed (v.up 1 :: vs) n := by
  refine .get fun s₀ => ?_
  refine .ite (fun _ => .bind (Q := fun _ => Inv .plain (v.up 1 :: vs) n) ?_ fun _ => ?_)
    fun _ => .bind (Q := fun _ => Inv .plain (v.up 1 :: vs) n) ?_ fun _ => ?_
  · refine Triple.pre (emit_spec (k := 0) hv rfl (fun _ => ⟨by decide, ?_, ?_, ?_⟩)
      (by decide)) fun s hs => hs.1
    · simp [Instruction.make, Instruction.names]
    · exact fun _ => hv.receiver
    · exact fun h => absurd h (by decide)
  · exact emitRet_spec (k := 0) hv
  · exact Triple.pre (emit_plain (k := 0) hv rfl (by decide)) fun s hs => hs.1
  · exact emitRet_spec (k := 0) hv

end ScriptMachine.Compiler
