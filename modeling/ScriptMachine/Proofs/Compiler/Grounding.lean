import ScriptMachine.Proofs.Compiler.Loading

/-!
# ScriptMachine.Proofs.Compiler.Grounding — what any text is compiled to

A text that is not accepted leaves an image too, and that image is loaded like any other. Nothing is
known of its code, but its references are in order: a function refers to items that stand before it,
and its name and its path are texts. That holds of every state of the compiler, with errors or
without, since a reference to an item is only ever written after the item. Each production of the
grammar keeps it for the plain reason that its steps do.

So the module follows the grammar. `Keeps c` is closed under the ways in which productions are put
together: one step after the other (`Keeps.bind`), a choice (`Keeps.ite`), a step made under a condition
(`Keeps.when`, `Keeps.unless`) or one of two (`Keeps.join`) before the rest. Only four steps need more
than that, since they write a reference and have to know that its item is there: a text as a constant
(`keeps_emitText`), a name (`keeps_nameConstant`), an imported path and the end of a function
(`keeps_endFunction`). The main statement is `translate_grounded`.

It is not shown here that the code of a refused text is well formed, and it need not be: nothing runs it.
The listings of accepted texts are another matter, and have an invariant of their own (`Invariant`).
-/

namespace ScriptMachine

/-- Is the item of an image at a reference a text? -/
def Image.IsText (image : Image) (r : Ref) : Prop :=
  ∃ t, image[r.index]? = some (.text t)

/-- **`image.Grounds k p`** — the function at `k` refers to items before it; its name and its path
are texts. -/
structure Image.Grounds (image : Image) (k : Nat) (p : Prototype) : Prop where
  below : p.RefersBelow k
  name : ∀ r ∈ p.name, image.IsText r
  path : ∀ r ∈ p.path, image.IsText r

/-- Every function of an image is grounded in it. -/
def Image.Grounded (image : Image) : Prop :=
  ∀ (k : Nat) (p : Prototype) (statements closures : List Landmark),
    image[k]? = some (.function p statements closures) → image.Grounds k p

theorem Image.Grounded.refersBack {image : Image} (h : image.Grounded) : image.RefersBack :=
  fun k p statements closures hk => (h k p statements closures hk).below

theorem Image.IsText.lt {image : Image} {r : Ref} (h : image.IsText r) : r.index < image.size :=
  let ⟨_, ht⟩ := h
  (Array.getElem?_eq_some_iff.mp ht).1

theorem Image.IsText.push {image : Image} {r : Ref} (h : image.IsText r) (item : Item) :
    Image.IsText (image.push item) r := by
  obtain ⟨t, ht⟩ := h
  have hlt := (Array.getElem?_eq_some_iff.mp ht).1
  refine ⟨t, ?_⟩
  rw [Array.getElem?_push_lt hlt, ← ht, Array.getElem?_eq_getElem hlt]

theorem Image.Grounds.push {image : Image} {k : Nat} {p : Prototype} (h : image.Grounds k p)
    (item : Item) : Image.Grounds (image.push item) k p :=
  ⟨h.below, fun r hr => (h.name r hr).push item, fun r hr => (h.path r hr).push item⟩

theorem Image.Grounded.push {image : Image} (h : image.Grounded) {item : Item}
    (hitem : ∀ p statements closures, item = .function p statements closures →
      image.Grounds image.size p) : Image.Grounded (image.push item) := by
  intro k p statements closures hk
  rw [Array.getElem?_push] at hk
  split at hk
  · rename_i hlast
    rw [hlast]
    exact (hitem p statements closures (Option.some.inj hk)).push item
  · exact (h k p statements closures hk).push item

namespace Compiler

variable {α β : Type} {self : Recur} {s : State}

/-- The constants of a function being compiled refer to items that are there. -/
def FunctionState.RefersInto (fs : FunctionState) (image : Image) : Prop :=
  ∀ r, Value.obj r ∈ fs.chunk.constants → r.index < image.size

/-- **`s.Grounded`** — the references of everything compiled so far are in order. -/
structure State.Grounded (s : State) : Prop where
  image : s.image.Grounded
  path : s.image.IsText s.path
  function : s.function.RefersInto s.image
  enclosing : ∀ fs ∈ s.enclosing, fs.RefersInto s.image

theorem FunctionState.RefersInto.push {fs : FunctionState} {image : Image}
    (h : fs.RefersInto image) (item : Item) : fs.RefersInto (image.push item) := by
  intro r hr
  rw [Array.size_push]
  exact Nat.lt_succ_of_lt (h r hr)

theorem FunctionState.RefersInto.of_constants {fs fs' : FunctionState} {image : Image}
    (h : fs.RefersInto image) (heq : fs'.chunk.constants = fs.chunk.constants) :
    fs'.RefersInto image := fun r hr => h r (heq ▸ hr)

theorem refersInto_start (kind : FunctionKind) (name : Option String) (image : Image) :
    (FunctionState.start kind name).RefersInto image := by
  intro r hr
  simp [FunctionState.start, Chunk.empty] at hr

/-! ## Steps -/

/-- **`Keeps c`** — the step leaves the references in order. -/
structure Keeps (c : Compile α) : Prop where
  grounded : ∀ s, s.Grounded → (c s).2.Grounded

theorem Keeps.pure (a : α) : Keeps (Pure.pure a : Compile α) :=
  ⟨fun _ hs => hs⟩

theorem Keeps.bind {c : Compile α} {f : α → Compile β} (hc : Keeps c) (hf : ∀ a, Keeps (f a)) :
    Keeps (c >>= f) :=
  ⟨fun s hs => (hf _).grounded _ (hc.grounded s hs)⟩

/-- A step whose result can be relied on. -/
theorem Keeps.bind_of {c : Compile α} {f : α → Compile β} {p : α → State → Prop}
    (hc : ∀ s, s.Grounded → (c s).2.Grounded ∧ p (c s).1 (c s).2)
    (hf : ∀ a s, s.Grounded → p a s → (f a s).2.Grounded) : Keeps (c >>= f) :=
  ⟨fun s hs => hf _ _ (hc s hs).1 (hc s hs).2⟩

/-- One of two steps. -/
theorem Keeps.ite {p : Prop} [Decidable p] {c d : Compile α} (hc : Keeps c) (hd : Keeps d) :
    Keeps (if p then c else d) := by
  split
  · exact hc
  · exact hd

/-- One of two steps, and what follows either. -/
theorem Keeps.join {p : Prop} [Decidable p] {c d : Compile α} {f : α → Compile β} (hc : Keeps c)
    (hd : Keeps d) (hf : ∀ a, Keeps (f a)) : Keeps (if p then c >>= f else d >>= f) :=
  .ite (.bind hc hf) (.bind hd hf)

/-- A step that is made under a condition, and what follows it either way. -/
theorem Keeps.when {p : Prop} [Decidable p] {c : Compile PUnit} {f : PUnit → Compile β}
    (hc : Keeps c) (hf : ∀ u, Keeps (f u)) : Keeps (if p then c >>= f else f ⟨⟩) :=
  .ite (.bind hc hf) (hf ⟨⟩)

theorem Keeps.unless {p : Prop} [Decidable p] {c : Compile PUnit} {f : PUnit → Compile β}
    (hc : Keeps c) (hf : ∀ u, Keeps (f u)) : Keeps (if p then f ⟨⟩ else c >>= f) :=
  .ite (hf ⟨⟩) (.bind hc hf)

theorem Keeps.map {c : Compile α} (g : α → β) (hc : Keeps c) : Keeps (g <$> c) :=
  ⟨fun s hs => hc.grounded s hs⟩

theorem Keeps.get : Keeps get :=
  ⟨fun _ hs => hs⟩

/-- A step that touches neither the image nor any constant. -/
theorem Keeps.modify {g : State → State} (himage : ∀ s, (g s).image = s.image)
    (hpath : ∀ s, (g s).path = s.path)
    (hfunction : ∀ s, (g s).function.chunk.constants = s.function.chunk.constants)
    (henclosing : ∀ s, (g s).enclosing = s.enclosing) : Keeps (modify g) := by
  refine ⟨fun s hs => ⟨?_, ?_, ?_, ?_⟩⟩
  · show (g s).image.Grounded
    rw [himage]
    exact hs.image
  · show (g s).image.IsText (g s).path
    rw [himage, hpath]
    exact hs.path
  · show (g s).function.RefersInto (g s).image
    rw [himage]
    exact hs.function.of_constants (hfunction s)
  · show ∀ fs ∈ (g s).enclosing, fs.RefersInto (g s).image
    rw [himage, henclosing]
    exact hs.enclosing

theorem keeps_forM {ι : Type} {g : ι → Compile PUnit} (h : ∀ x, Keeps (g x)) (l : List ι) :
    Keeps (l.forM g) := by
  induction l with
  | nil => exact .pure ()
  | cons x l ih => exact .bind (h x) fun _ => ih

theorem keeps_demand (p : Prop) [Decidable p] : Keeps (demand p) :=
  .modify (fun _ => rfl) (fun _ => rfl) (fun _ => rfl) fun _ => rfl

theorem keeps_exhausted : Keeps exhausted :=
  keeps_demand False

theorem keeps_tokensTaken : Keeps tokensTaken :=
  .bind .get fun _ => .pure _

theorem keeps_demandProgress (before : Nat) : Keeps (demandProgress before) :=
  .bind keeps_tokensTaken fun _ => keeps_demand _

theorem keeps_repeatWhile {b : Compile Bool} (h : Keeps b) (n : Nat) : Keeps (repeatWhile b n) := by
  induction n with
  | zero => exact keeps_exhausted
  | succ n ih =>
    unfold repeatWhile
    refine .bind keeps_tokensTaken fun _ => .bind h fun _ => .ite ?_ (.pure _)
    exact .bind (keeps_demandProgress _) fun _ => ih

theorem keeps_loop {b : Compile Bool} (h : Keeps b) : Keeps (loop b) :=
  .bind .get fun _ => keeps_repeatWhile h _

/-! ## Tokens -/

/-- Errors do not touch what was compiled. -/
theorem errorAt_same (s : State) (t : Token) (message : String) :
    (s.errorAt t message).image = s.image ∧ (s.errorAt t message).path = s.path ∧
      (s.errorAt t message).function = s.function ∧
      (s.errorAt t message).enclosing = s.enclosing := by
  unfold State.errorAt
  split <;> exact ⟨rfl, rfl, rfl, rfl⟩

/-- Tokens do not touch what was compiled. -/
theorem advanceIn_same (tokens : List Token) (s : State) :
    (s.advanceIn tokens).image = s.image ∧ (s.advanceIn tokens).path = s.path ∧
      (s.advanceIn tokens).function = s.function ∧
      (s.advanceIn tokens).enclosing = s.enclosing := by
  induction tokens generalizing s with
  | nil => exact ⟨rfl, rfl, rfl, rfl⟩
  | cons t rest ih =>
    unfold State.advanceIn
    dsimp only
    split
    · rename_i message _
      obtain ⟨h₁, h₂, h₃, h₄⟩ := errorAt_same { s with current := t, taken := s.taken + 1 } t message
      obtain ⟨h₁', h₂', h₃', h₄'⟩ :=
        ih (State.errorAt { s with current := t, taken := s.taken + 1 } t message)
      exact ⟨h₁'.trans h₁, h₂'.trans h₂, h₃'.trans h₃, h₄'.trans h₄⟩
    · split
      · exact ih _
      · split <;> exact ⟨rfl, rfl, rfl, rfl⟩

theorem keeps_error (message : String) : Keeps (error message) :=
  .modify (fun s => (errorAt_same s ..).1) (fun s => (errorAt_same s ..).2.1)
    (fun s => by rw [(errorAt_same s ..).2.2.1]) (fun s => (errorAt_same s ..).2.2.2)

theorem keeps_errorAtCurrent (message : String) : Keeps (errorAtCurrent message) :=
  .modify (fun s => (errorAt_same s ..).1) (fun s => (errorAt_same s ..).2.1)
    (fun s => by rw [(errorAt_same s ..).2.2.1]) (fun s => (errorAt_same s ..).2.2.2)

theorem keeps_advance : Keeps advance :=
  .modify (fun s => (advanceIn_same _ { s with previous := s.current }).1)
    (fun s => (advanceIn_same _ { s with previous := s.current }).2.1)
    (fun s => by rw [(advanceIn_same _ { s with previous := s.current }).2.2.1])
    (fun s => (advanceIn_same _ { s with previous := s.current }).2.2.2)

theorem keeps_check (k : TokenKind) : Keeps (check k) :=
  .bind .get fun _ => .pure _

theorem keeps_atEnd : Keeps atEnd :=
  keeps_check _

theorem keeps_accept (k : TokenKind) : Keeps (accept k) := by
  unfold accept
  refine .bind (keeps_check _) fun _ => .ite ?_ (.pure _)
  exact .bind keeps_advance fun _ => .pure _

theorem keeps_acceptAny (ks : List TokenKind) : Keeps (acceptAny ks) := by
  induction ks with
  | nil => exact .pure false
  | cons k ks ih =>
    unfold acceptAny
    exact .bind (keeps_accept k) fun _ => .ite (.pure true) ih

theorem keeps_expect (k : TokenKind) (message : String) : Keeps (expect k message) :=
  .bind (keeps_check _) fun _ => .ite keeps_advance (keeps_errorAtCurrent _)

theorem keeps_currentKind : Keeps currentKind :=
  .bind .get fun _ => .pure _

theorem keeps_previousKind : Keeps previousKind :=
  .bind .get fun _ => .pure _

theorem keeps_previousText : Keeps previousText :=
  .bind .get fun _ => .pure _

theorem keeps_followingKind : Keeps followingKind :=
  .bind .get fun _ => .pure _

theorem keeps_synchronize : Keeps synchronize := by
  unfold synchronize
  refine .bind (.modify (fun _ => rfl) (fun _ => rfl) (fun _ => rfl) fun _ => rfl) fun _ => ?_
  refine keeps_loop ?_
  refine .bind keeps_atEnd fun _ => .ite (.pure _) ?_
  refine .bind keeps_previousKind fun _ => .ite (.pure _) ?_
  refine .bind keeps_currentKind fun _ => .ite (.pure _) ?_
  exact .bind keeps_advance fun _ => .pure _

/-! ## Emission -/

/-- A change to the function being compiled that leaves its constants. -/
theorem keeps_modifyFunction {f : FunctionState → FunctionState}
    (h : ∀ fs, (f fs).chunk.constants = fs.chunk.constants) : Keeps (modifyFunction f) :=
  .modify (fun _ => rfl) (fun _ => rfl) (fun s => h s.function) (fun _ => rfl)

theorem constants_emit (c : Chunk) (i : Instruction) (line : Nat) :
    (c.emit i line).constants = c.constants := by
  unfold Chunk.emit
  induction i.encode generalizing c with
  | nil => rfl
  | cons b bytes ih => exact ih (c.write b line)

theorem keeps_emitAs (meant i : Instruction) : Keeps (emitAs meant i) :=
  .bind .get fun _ => keeps_modifyFunction fun _ => constants_emit ..

theorem keeps_emitInstruction (i : Instruction) : Keeps (emitInstruction i) :=
  keeps_emitAs i i

theorem keeps_emitCall (op : Operation) (count second : Nat) : Keeps (emitCall op count second) :=
  keeps_emitAs ..

theorem keeps_emit (op : Operation) (first second : Nat) : Keeps (emit op first second) :=
  keeps_emitInstruction _

/-- A constant that refers to an item which is there. -/
theorem keeps_makeConstant {v : Value} (h : ∀ r, v = .obj r → r.index < s.image.size)
    (hs : s.Grounded) : (makeConstant v s).2.Grounded := by
  unfold makeConstant
  show ((if s.function.chunk.isFull then _ else _ : Compile Nat) s).2.Grounded
  split
  · exact (keeps_error _).grounded s hs
  · refine ⟨hs.image, hs.path, fun r hr => ?_, hs.enclosing⟩
    rcases Array.mem_push.mp hr with hr | hr
    · exact hs.function r hr
    · exact h r hr.symm

/-- What follows a constant that refers to an item which is there. -/
theorem keeps_reference {r : Ref} {f : Nat → Compile β} (hf : ∀ index, Keeps (f index))
    (hs : s.Grounded) (hr : r.index < s.image.size) :
    ((makeConstant (.obj r) >>= f) s).2.Grounded :=
  (hf _).grounded _ (keeps_makeConstant (fun _ h => Value.obj.inj h ▸ hr) hs)

theorem keeps_makeConstant_number (n : Float) : Keeps (makeConstant (.number n)) :=
  ⟨fun _ hs => keeps_makeConstant nofun hs⟩

theorem keeps_emitConstant_number (n : Float) : Keeps (emitConstant (.number n)) :=
  .bind (keeps_makeConstant_number n) fun _ => keeps_emit ..

/-- One more item of the image. -/
theorem State.Grounded.addItem {item : Item} (hs : s.Grounded)
    (hitem : ∀ p statements closures, item = .function p statements closures →
      s.image.Grounds s.image.size p) : (Compiler.addItem item s).2.Grounded where
  image := hs.image.push hitem
  path := hs.path.push item
  function := hs.function.push item
  enclosing fs hfs := (hs.enclosing fs hfs).push item

theorem State.Grounded.intern (hs : s.Grounded) (text : String) :
    (Compiler.intern text s).2.Grounded :=
  hs.addItem fun _ _ _ h => by cases h

/-- The text that was interned last is an item of the image. -/
theorem isText_intern (s : State) (text : String) :
    (Compiler.intern text s).2.image.IsText (Compiler.intern text s).1 :=
  ⟨text, Array.getElem?_push_size⟩

theorem keeps_emitText (text : String) :
    Keeps (intern text >>= fun r => emitConstant (.obj r)) := by
  refine ⟨fun s hs => ?_⟩
  exact keeps_reference (fun _ => keeps_emit ..) (hs.intern text) (isText_intern s text).lt

theorem keeps_nameConstant (name : String) : Keeps (nameConstant name) := by
  refine .bind_of (p := fun r s => r.index < s.image.size)
    (fun s hs => ⟨hs.intern name, (isText_intern s name).lt⟩) fun r s hs hr => ?_
  have hget : ∀ f : State → Compile Nat, (get >>= f) s = f s s := fun _ => rfl
  rw [hget]
  cases hfound : s.function.nameConstants[name]? with
  | some index => exact hs
  | none =>
    refine keeps_reference (fun index => .bind (keeps_modifyFunction ?_) fun _ => .pure _) hs hr
    exact fun _ => rfl

theorem keeps_codeSize : Keeps codeSize :=
  .bind .get fun _ => .pure _

theorem keeps_emitReturn : Keeps emitReturn :=
  .bind .get fun _ => .join (keeps_emit ..) (keeps_emit ..) fun _ => keeps_emit ..

theorem keeps_emitJump (op : Operation) : Keeps (emitJump op) := by
  unfold emitJump
  refine .bind (keeps_emit ..) fun _ => .bind keeps_codeSize fun _ => ?_
  exact .bind (keeps_demand _) fun _ => .pure _

theorem keeps_patchJump (offset : Nat) : Keeps (patchJump offset) := by
  unfold patchJump
  refine .bind keeps_codeSize fun _ => .bind (keeps_demand _) fun _ => ?_
  refine .bind (keeps_modifyFunction fun _ => rfl) fun _ => ?_
  split
  · exact keeps_error _
  · exact keeps_modifyFunction fun _ => rfl

theorem keeps_emitLoop (start : Nat) : Keeps (emitLoop start) := by
  unfold emitLoop
  refine .bind keeps_codeSize fun _ => .bind (keeps_demand _) fun _ => ?_
  exact .when (keeps_error _) fun _ => keeps_emit ..

theorem keeps_beginScope : Keeps beginScope :=
  keeps_modifyFunction fun _ => rfl

theorem keeps_discardLocals (depth : Nat) : Keeps (discardLocals depth) :=
  .bind .get fun _ => keeps_forM (fun _ => keeps_emit ..) _

theorem keeps_endScope : Keeps endScope := by
  unfold endScope
  refine .bind .get fun _ => .bind (keeps_demand _) fun _ => ?_
  refine .bind (keeps_modifyFunction fun _ => rfl) fun _ => .bind .get fun _ => ?_
  exact .bind (keeps_forM (fun _ => keeps_emit ..) _) fun _ => keeps_modifyFunction fun _ => rfl

theorem keeps_addLocal (name : String) : Keeps (addLocal name) :=
  .bind .get fun _ => .ite (keeps_error _) (keeps_modifyFunction fun _ => rfl)

theorem keeps_markReady : Keeps markReady := by
  refine keeps_modifyFunction fun fs => ?_
  split <;> rfl

theorem keeps_addReadyLocal (name : String) : Keeps (addReadyLocal name) := by
  unfold addReadyLocal
  refine .bind (keeps_addLocal _) fun _ => .bind keeps_markReady fun _ => .bind .get fun _ => ?_
  exact .bind (keeps_demand _) fun _ => .pure _

theorem keeps_declareVariable (name : String) : Keeps (declareVariable name) := by
  unfold declareVariable
  refine .bind .get fun _ => .ite ?_ (.pure _)
  exact .when (keeps_error _) fun _ => keeps_addLocal _

theorem keeps_skipTypeAnnotation : Keeps skipTypeAnnotation := by
  unfold skipTypeAnnotation
  refine .bind (keeps_accept _) fun _ => .ite ?_ (.pure _)
  exact .bind (keeps_accept _) fun _ => .ite (.pure _) (keeps_expect ..)

theorem keeps_parseVariable (message : String) : Keeps (parseVariable message) := by
  unfold parseVariable
  refine .bind (keeps_expect ..) fun _ => .bind keeps_previousText fun _ => ?_
  refine .bind keeps_skipTypeAnnotation fun _ => .bind (keeps_declareVariable _) fun _ => ?_
  exact .bind .get fun _ => .ite (.pure _) (keeps_nameConstant _)

theorem keeps_defineVariable (global : Nat) : Keeps (defineVariable global) :=
  .bind .get fun _ => .ite keeps_markReady (keeps_emit ..)

/-! ## Variables and functions -/

/-- A function further out may be changed, if its constants stay. -/
theorem keeps_modifyFunctionAt {f : FunctionState → FunctionState} (depth : Nat)
    (h : ∀ fs, (f fs).chunk.constants = fs.chunk.constants) : Keeps (modifyFunctionAt depth f) := by
  cases depth with
  | zero => exact keeps_modifyFunction h
  | succ depth =>
    refine ⟨fun s hs => ⟨hs.image, hs.path, hs.function, fun fs hfs => ?_⟩⟩
    obtain ⟨i, hi⟩ := List.mem_iff_getElem?.mp hfs
    change (s.enclosing.modify depth f)[i]? = some fs at hi
    rw [List.getElem?_modify] at hi
    obtain ⟨g, hg, rfl⟩ := Option.map_eq_some_iff.mp hi
    have hg' := hs.enclosing g (List.mem_of_getElem? hg)
    split
    · exact hg'.of_constants (h g)
    · exact hg'

theorem keeps_resolveLocal (depth : Nat) (name : String) : Keeps (resolveLocal depth name) := by
  unfold resolveLocal
  refine .bind .get fun s => .bind (keeps_demand _) fun _ => ?_
  dsimp only
  split
  · exact .pure none
  · refine .bind (keeps_demand _) fun _ => .when (keeps_modifyFunctionAt _ fun _ => rfl) fun _ => ?_
    exact .when (keeps_error _) fun _ => .pure _

theorem keeps_addCapture (depth : Nat) (capture : Capture) : Keeps (addCapture depth capture) := by
  unfold addCapture
  refine .bind .get fun s => .bind (keeps_demand _) fun _ => ?_
  dsimp only
  split
  · exact .pure _
  · exact .join (keeps_error _) (keeps_modifyFunctionAt _ fun _ => rfl) fun _ => .pure _

/-- A capture is passed on from level to level. By induction on the levels. -/
theorem keeps_resolveCapture (name : String) (depth levels : Nat) :
    Keeps (resolveCapture name depth levels) := by
  induction levels generalizing depth with
  | zero => exact .pure none
  | succ levels ih =>
    unfold resolveCapture
    refine .bind (keeps_resolveLocal ..) fun found => ?_
    split
    · refine .bind (keeps_modifyFunctionAt _ fun _ => rfl) fun _ => ?_
      exact .bind (keeps_addCapture ..) fun _ => .pure _
    · refine .bind (ih _) fun found => ?_
      split
      · exact .bind (keeps_addCapture ..) fun _ => .pure _
      · exact .pure none

theorem keeps_resolveVariable (name : String) : Keeps (resolveVariable name) := by
  unfold resolveVariable
  refine .bind (keeps_resolveLocal ..) fun _ => ?_
  split
  · exact .pure _
  · refine .bind .get fun _ => .bind (keeps_resolveCapture ..) fun _ => ?_
    split
    · exact .pure _
    · exact .bind (keeps_nameConstant _) fun _ => .pure _

theorem keeps_pushFunction (kind : FunctionKind) (name : Option String) :
    Keeps (pushFunction kind name) := by
  refine ⟨fun s hs => ⟨hs.image, hs.path, refersInto_start _ _ _, fun fs hfs => ?_⟩⟩
  rcases List.mem_cons.mp hfs with rfl | hfs
  · exact hs.function
  · exact hs.enclosing fs hfs

theorem keeps_emitArgsPrologue : Keeps emitArgsPrologue := by
  unfold emitArgsPrologue
  refine .bind (keeps_addReadyLocal _) fun _ => ?_
  refine .bind (keeps_modifyFunction fun _ => rfl) fun _ => .bind (keeps_nameConstant _) fun _ => ?_
  exact keeps_emit ..

/-- The state in which a function has been taken off, before it becomes an item. -/
def State.popFunction (s : State) : State :=
  match s.enclosing with
  | outer :: enclosing => { s with function := outer, enclosing }
  | [] => { s with function := .start .script none }

theorem State.Grounded.popFunction (hs : s.Grounded) : s.popFunction.Grounded := by
  unfold State.popFunction
  split
  · rename_i outer enclosing heq
    have henclosing := hs.enclosing
    rw [heq] at henclosing
    exact ⟨hs.image, hs.path, henclosing outer List.mem_cons_self,
      fun fs hfs => henclosing fs (List.mem_cons_of_mem _ hfs)⟩
  · exact ⟨hs.image, hs.path, refersInto_start _ _ _, hs.enclosing⟩

/-- A finished function becomes an item, and a closure over it is made. -/
theorem keeps_closeOver {p : Prototype} {statements closures : List Landmark}
    {captures : List Capture} (hs : s.Grounded) (hp : s.image.Grounds s.image.size p) :
    ((do
      let r ← addItem (.function p statements closures)
      let constant ← makeConstant (.obj r)
      modifyFunction fun fs => { fs with closures := fs.landmark :: fs.closures }
      emitInstruction ⟨.closure, constant, 0, captures⟩ : Compile Unit) s).2.Grounded := by
  have hs' : (addItem (.function p statements closures) s).2.Grounded :=
    hs.addItem fun _ _ _ h => (Item.function.inj h).1 ▸ hp
  have hlt : s.image.size < (addItem (.function p statements closures) s).2.image.size := by
    show s.image.size < (s.image.push _).size
    simp
  have hrest (index : Nat) : Keeps (do
      modifyFunction fun fs => { fs with closures := fs.landmark :: fs.closures }
      emitInstruction ⟨.closure, index, 0, captures⟩) :=
    .bind (keeps_modifyFunction fun _ => rfl) fun _ => keeps_emitInstruction _
  exact keeps_reference hrest hs' hlt

/-- A finished function refers to what stands before it: the constants of its code, its path, and its
name if it has one. -/
theorem keeps_closeFunction {fs : FunctionState} {name : Option Ref} (hs : s.Grounded)
    (hconstants : ∀ r, Value.obj r ∈ fs.finalChunk.constants → r.index < s.image.size)
    (hname : ∀ r ∈ name, s.image.IsText r) :
    ((do
      let path := (← get).path
      let r ← addItem <| .function
        { arity := fs.arity
          captureCount := fs.captures.size
          isStatic := fs.kind = .static
          name
          path := some path
          chunk := fs.finalChunk
          docs := #[] }
        fs.statements fs.closures
      let constant ← makeConstant (.obj r)
      modifyFunction fun fs => { fs with closures := fs.landmark :: fs.closures }
      emitInstruction ⟨.closure, constant, 0, fs.captures.toList⟩ : Compile Unit) s).2.Grounded := by
  refine keeps_closeOver hs ⟨⟨hconstants, fun r hr => (hname r hr).lt, fun r hr => ?_⟩, hname, ?_⟩
  · obtain rfl := Option.some.inj hr
    exact hs.path.lt
  · intro r hr
    obtain rfl := Option.some.inj hr
    exact hs.path

/-- The function is taken off first. Its name, if there is one, becomes an item before it does. -/
theorem keeps_endFunction : Keeps endFunction := by
  refine .bind keeps_emitReturn fun _ => ⟨fun s hs => ?_⟩
  have hpop (broken : Bool) : (State.popFunction { s with broken }).Grounded :=
    State.Grounded.popFunction ⟨hs.image, hs.path, hs.function, hs.enclosing⟩
  have hbelow (broken : Bool) : ∀ r, Value.obj r ∈ s.function.finalChunk.constants →
      r.index < (State.popFunction { s with broken }).image.size := by
    have himage : (State.popFunction { s with broken }).image = s.image := by
      unfold State.popFunction
      split <;> rfl
    rw [constants_finalChunk, himage]
    exact hs.function
  have hget : ∀ f : State → Compile Unit, (get >>= f) s = f s s := fun _ => rfl
  have hdemand : ∀ (p : Prop) [Decidable p], ∃ broken, ∀ f : Unit → Compile Unit,
      (demand p >>= f) s = f () { s with broken } :=
    fun _ _ => ⟨_, fun _ => rfl⟩
  have hmodify : ∀ (g : State → State) (f : Unit → Compile Unit) (t : State),
      (modify g >>= f) t = f () (g t) :=
    fun _ _ _ => rfl
  obtain ⟨broken, hdemand⟩ := hdemand (s.enclosing ≠ [] ∧
    ∀ offset ∈ s.function.argsPrologue, offset + 3 ≤ s.function.chunk.size)
  rw [hget]
  dsimp only
  rw [hdemand, hmodify]
  cases s.function.name with
  | some n =>
    refine keeps_closeFunction ((hpop broken).intern n) (fun r hr => ?_) fun r hr => ?_
    · show r.index < (Array.push (State.popFunction { s with broken }).image _).size
      rw [Array.size_push]
      exact Nat.lt_succ_of_lt (hbelow broken r hr)
    · obtain rfl := Option.some.inj hr
      exact isText_intern ..
  | none => exact keeps_closeFunction (hpop _) (hbelow _) (by simp)

/-! ## Productions -/

/-- Every goal keeps the references in order. -/
structure KeepsAll (self : Recur) : Prop where
  keeps : ∀ g, Keeps (self g)

theorem keeps_atLeast (h : KeepsAll self) (p : Precedence) : Keeps (self.atLeast p) :=
  KeepsAll.keeps h _

theorem keeps_expression (h : KeepsAll self) : Keeps self.expression :=
  KeepsAll.keeps h _

theorem keeps_declaration (h : KeepsAll self) : Keeps self.declaration :=
  KeepsAll.keeps h _

theorem keeps_statement (h : KeepsAll self) : Keeps self.statement :=
  KeepsAll.keeps h _

/-! ### Expressions -/

theorem keeps_checkStep : Keeps checkStep :=
  .bind (keeps_check _) fun _ => .bind (keeps_check _) fun _ => .pure _

theorem keeps_emitUndo (undo : Operation) : Keeps (emitUndo undo) :=
  .bind (keeps_emitConstant_number _) fun _ => keeps_emit ..

theorem keeps_compoundAt (canAssign : Bool) : Keeps (compoundAt canAssign) := by
  unfold compoundAt
  refine .ite ?_ (.pure _)
  exact .bind keeps_currentKind fun _ => .pure _

theorem keeps_namedVariable (h : KeepsAll self) (name : String) (canAssign : Bool) :
    Keeps (namedVariable self name canAssign) := by
  unfold namedVariable
  refine .bind (keeps_resolveVariable _) fun _ => .bind (keeps_compoundAt _) fun _ => ?_
  split
  · refine .bind keeps_advance fun _ => .bind (keeps_emit ..) fun _ => ?_
    exact .bind (keeps_expression h) fun _ => .bind (keeps_emit ..) fun _ => keeps_emit ..
  · refine .bind (.pure _) fun _ => .bind (keeps_check _) fun _ => .ite ?_ ?_
    · exact .bind keeps_advance fun _ => .bind (keeps_expression h) fun _ => keeps_emit ..
    · refine .bind keeps_checkStep fun _ => .ite ?_ (keeps_emit ..)
      refine .bind keeps_currentKind fun _ => ?_
      split
      refine .bind keeps_advance fun _ => .bind (keeps_emit ..) fun _ => ?_
      exact .bind (keeps_emit ..) fun _ => .bind (keeps_emit ..) fun _ => keeps_emitUndo _

theorem keeps_leadingStep : Keeps leadingStep := by
  unfold leadingStep
  refine .bind keeps_previousKind fun _ => ?_
  split
  refine .bind (keeps_expect ..) fun _ => .bind keeps_previousText fun _ => ?_
  refine .bind (keeps_resolveVariable _) fun _ => .bind (keeps_emit ..) fun _ => ?_
  refine .bind (keeps_accept _) fun _ => .ite ?_ ?_
  · refine .bind (keeps_expect ..) fun _ => .bind keeps_previousText fun _ => ?_
    refine .bind (keeps_nameConstant _) fun _ => .bind (keeps_emit ..) fun _ => ?_
    exact .bind (keeps_emit ..) fun _ => keeps_emit ..
  · exact .bind (keeps_emit ..) fun _ => keeps_emit ..

theorem keeps_arguments (h : KeepsAll self) (fuel count : Nat) :
    Keeps (argumentList.arguments self fuel count) := by
  induction fuel generalizing count with
  | zero => exact .bind keeps_exhausted fun _ => .pure count
  | succ fuel ih =>
    unfold argumentList.arguments
    refine .bind keeps_tokensTaken fun _ => .bind (keeps_expression h) fun _ => ?_
    refine .when (keeps_error _) fun _ => .bind (keeps_accept _) fun _ => .ite ?_ (.pure _)
    exact .bind (keeps_demandProgress _) fun _ => ih _

theorem keeps_argumentList (h : KeepsAll self) : Keeps (argumentList self) := by
  unfold argumentList
  refine .bind .get fun _ => .bind (keeps_check _) fun _ => ?_
  exact .join (.pure _) (keeps_arguments h ..) fun _ => .bind (keeps_expect ..) fun _ => .pure _

theorem keeps_dot (h : KeepsAll self) (canAssign : Bool) : Keeps (dot self canAssign) := by
  unfold dot
  refine .bind (keeps_expect ..) fun _ => .bind keeps_previousText fun _ => ?_
  refine .bind (keeps_nameConstant _) fun _ => .bind (keeps_compoundAt _) fun _ => ?_
  split
  · refine .bind keeps_advance fun _ => .bind (keeps_emit ..) fun _ => ?_
    exact .bind (keeps_expression h) fun _ => .bind (keeps_emit ..) fun _ => keeps_emit ..
  · refine .bind (.pure _) fun _ => .bind (keeps_check _) fun _ => .ite ?_ ?_
    · exact .bind keeps_advance fun _ => .bind (keeps_expression h) fun _ => keeps_emit ..
    · refine .bind (keeps_accept _) fun _ => .ite ?_ ?_
      · exact .bind (keeps_argumentList h) fun _ => keeps_emitCall ..
      · refine .bind keeps_checkStep fun _ => .ite ?_ (keeps_emit ..)
        refine .bind keeps_currentKind fun _ => ?_
        split
        refine .bind keeps_advance fun _ => .bind (keeps_emit ..) fun _ => ?_
        exact .bind (keeps_emit ..) fun _ => .bind (keeps_emit ..) fun _ => keeps_emitUndo _

theorem keeps_unary (h : KeepsAll self) : Keeps (unary self) :=
  .bind keeps_previousKind fun _ => .bind (keeps_atLeast h _) fun _ => keeps_emit ..

theorem keeps_binary (h : KeepsAll self) : Keeps (binary self) := by
  unfold binary
  refine .bind keeps_previousKind fun _ => .bind (keeps_atLeast h _) fun _ => ?_
  split
  · exact .bind (keeps_emit ..) fun _ => .ite (keeps_emit ..) (.pure _)
  · exact .pure _

theorem keeps_range (h : KeepsAll self) : Keeps (range self) := by
  unfold range
  refine .bind keeps_previousKind fun _ => .bind (keeps_atLeast h _) fun _ => ?_
  refine .bind (keeps_acceptAny _) fun _ => .ite ?_ ?_
  · refine .bind keeps_previousKind fun _ => .bind (keeps_atLeast h _) fun _ => ?_
    exact .bind (.pure _) fun _ => keeps_emit ..
  · exact .bind (keeps_emit ..) fun _ => .bind (.pure _) fun _ => keeps_emit ..

theorem keeps_typeTest : Keeps typeTest := by
  unfold typeTest
  refine .bind (keeps_accept _) fun _ => .bind keeps_currentKind fun _ => ?_
  refine .ite ?_ (keeps_errorAtCurrent _)
  refine .bind keeps_advance fun _ => .bind keeps_previousText fun _ => ?_
  exact .bind (keeps_nameConstant _) fun _ => keeps_emit ..

theorem keeps_number : Keeps number := by
  unfold number
  refine .bind .get fun _ => ?_
  split
  · exact keeps_emitConstant_number _
  · exact keeps_error _

theorem keeps_emitPart (h : KeepsAll self) (part : StringPart) : Keeps (emitPart self part) := by
  unfold emitPart
  split
  · exact keeps_emitText _
  · exact keeps_namedVariable h ..

theorem keeps_string (h : KeepsAll self) : Keeps (string self) := by
  unfold string
  refine .bind keeps_previousText fun _ => .bind (keeps_demand _) fun _ => ?_
  dsimp only
  refine .ite (keeps_emitText _) ?_
  refine .bind (keeps_forM (keeps_emitPart h) _) fun _ => ?_
  split
  · exact keeps_error _
  · exact .unless (keeps_emitPart h _) fun _ => .ite (keeps_error _) (keeps_emit ..)

theorem keeps_listLiteral (h : KeepsAll self) : Keeps (listLiteral self) := by
  unfold listLiteral
  refine .bind (keeps_emit ..) fun _ => .bind (keeps_loop ?_) fun _ => ?_
  · refine .bind (keeps_check _) fun _ => .bind keeps_atEnd fun _ => .ite (.pure _) ?_
    exact .bind (keeps_expression h) fun _ => .bind (keeps_emit ..) fun _ => keeps_accept _
  · exact keeps_expect ..

theorem keeps_dictLiteral (h : KeepsAll self) : Keeps (dictLiteral self) := by
  unfold dictLiteral
  refine .bind (keeps_emit ..) fun _ => .bind (keeps_loop ?_) fun _ => ?_
  · refine .bind (keeps_check _) fun _ => .bind keeps_atEnd fun _ => .ite (.pure _) ?_
    refine .bind (keeps_atLeast h _) fun _ => .bind (keeps_expect ..) fun _ => ?_
    exact .bind (keeps_expression h) fun _ => .bind (keeps_emit ..) fun _ => keeps_accept _
  · exact keeps_expect ..

theorem keeps_literal : Keeps literal := by
  unfold literal
  refine .bind keeps_previousKind fun _ => ?_
  split
  · exact keeps_emit ..
  · exact keeps_emit ..
  · exact keeps_emit ..

theorem keeps_block (h : KeepsAll self) : Keeps (block self) := by
  unfold block
  refine .bind (keeps_loop ?_) fun _ => ?_
  · refine .bind (keeps_check _) fun _ => .bind keeps_atEnd fun _ => .ite (.pure _) ?_
    exact .bind (keeps_declaration h) fun _ => .pure _
  · exact keeps_expect ..

theorem keeps_parameters : Keeps parameters := by
  unfold parameters
  refine .bind (keeps_check _) fun _ => .ite (.pure _) ?_
  refine keeps_loop ?_
  refine .bind (keeps_modifyFunction fun _ => rfl) fun _ => .bind .get fun _ => ?_
  refine .when (keeps_errorAtCurrent _) fun _ => .bind (keeps_parseVariable _) fun _ => ?_
  exact .bind (keeps_defineVariable _) fun _ => keeps_accept _

theorem keeps_functionBody (h : KeepsAll self) (kind : FunctionKind) (name : String) :
    Keeps (functionBody self kind name) := by
  unfold functionBody
  refine .bind (keeps_pushFunction ..) fun _ => .bind keeps_beginScope fun _ => ?_
  refine .bind (keeps_expect ..) fun _ => .bind keeps_parameters fun _ => ?_
  refine .bind (keeps_expect ..) fun _ => .bind keeps_emitArgsPrologue fun _ => ?_
  refine .bind (keeps_accept _) fun _ => .ite ?_ ?_
  · refine .bind (keeps_accept _) fun _ => .unless (keeps_errorAtCurrent _) fun _ => ?_
    refine .bind (keeps_expression h) fun _ => .bind (keeps_accept _) fun _ => ?_
    exact .bind (keeps_emit ..) fun _ => keeps_endFunction
  · exact .bind (keeps_expect ..) fun _ => .bind (keeps_block h) fun _ => keeps_endFunction

theorem keeps_checkSuperclass : Keeps checkSuperclass := by
  unfold checkSuperclass
  refine .bind .get fun _ => ?_
  split
  · exact keeps_error _
  · exact keeps_error _
  · exact .pure _

theorem keeps_superAccess (h : KeepsAll self) : Keeps (superAccess self) := by
  unfold superAccess
  refine .bind keeps_checkSuperclass fun _ => .bind (keeps_expect ..) fun _ => ?_
  refine .bind (keeps_expect ..) fun _ => .bind keeps_previousText fun _ => ?_
  refine .bind (keeps_nameConstant _) fun _ => .bind (keeps_namedVariable h ..) fun _ => ?_
  refine .bind (keeps_accept _) fun _ => .ite ?_ ?_
  · refine .bind (keeps_argumentList h) fun _ => .bind (keeps_namedVariable h ..) fun _ => ?_
    exact keeps_emitCall ..
  · exact .bind (keeps_namedVariable h ..) fun _ => keeps_emit ..

theorem keeps_thisAccess (h : KeepsAll self) : Keeps (thisAccess self) := by
  unfold thisAccess
  refine .bind .get fun _ => ?_
  split
  · exact keeps_error _
  · exact keeps_namedVariable h ..
  · exact .ite (keeps_error _) (keeps_namedVariable h ..)

theorem keeps_spawnCall (h : KeepsAll self) : Keeps (spawnCall self) := by
  unfold spawnCall
  refine .bind (keeps_expect ..) fun _ => .bind keeps_previousText fun _ => ?_
  refine .bind (keeps_pushFunction ..) fun _ => .bind keeps_beginScope fun _ => ?_
  refine .bind (keeps_namedVariable h ..) fun _ => .bind (keeps_expect ..) fun _ => ?_
  refine .bind (keeps_argumentList h) fun _ => .bind (keeps_emitCall ..) fun _ => ?_
  exact .bind (keeps_emit ..) fun _ => .bind keeps_endFunction fun _ => keeps_emit ..

theorem keeps_requireCall (h : KeepsAll self) : Keeps (requireCall self) := by
  unfold requireCall
  refine .bind (keeps_expect ..) fun _ => .bind (keeps_argumentList h) fun _ => ?_
  exact .when (keeps_error _) fun _ => keeps_emit ..

/-- One case for each way in which an expression begins. -/
theorem keeps_compileOpening (h : KeepsAll self) (canAssign : Bool) (o : Opening) :
    Keeps (compileOpening self canAssign o) := by
  unfold compileOpening
  split
  · exact .bind (keeps_expression h) fun _ => keeps_expect ..
  · exact keeps_dictLiteral h
  · exact keeps_listLiteral h
  · exact keeps_unary h
  · exact keeps_leadingStep
  · exact .bind keeps_previousText fun _ => keeps_namedVariable h ..
  · exact keeps_string h
  · exact keeps_number
  · exact keeps_literal
  · exact keeps_error _
  · exact keeps_functionBody h ..
  · exact keeps_superAccess h
  · exact keeps_thisAccess h
  · exact keeps_requireCall h
  · exact keeps_spawnCall h
  · exact .bind (keeps_atLeast h _) fun _ => keeps_emit ..

theorem keeps_operand (h : KeepsAll self) (canAssign : Bool) : Keeps (operand self canAssign) := by
  unfold operand
  refine .bind keeps_advance fun _ => .bind keeps_previousKind fun _ => ?_
  split
  · exact .bind (keeps_compileOpening h ..) fun _ => .pure _
  · exact .bind (keeps_error _) fun _ => .pure _

theorem keeps_compileContinuation (h : KeepsAll self) (canAssign : Bool) (c : Continuation) :
    Keeps (compileContinuation self canAssign c) := by
  unfold compileContinuation
  split
  · exact .bind (keeps_argumentList h) fun _ => keeps_emitCall ..
  · refine .bind (keeps_expression h) fun _ => .bind (keeps_expect ..) fun _ => ?_
    refine .bind (.pure _) fun _ => .bind (keeps_check _) fun _ => .ite ?_ (keeps_emit ..)
    exact .bind keeps_advance fun _ => .bind (keeps_expression h) fun _ => keeps_emit ..
  · exact keeps_dot h _
  · exact keeps_range h
  · exact keeps_binary h
  · exact keeps_typeTest
  · exact .pure _
  · exact .pure _

theorem keeps_openAnd : Keeps openAnd :=
  .bind (keeps_emitJump _) fun _ => .bind (keeps_emit ..) fun _ => .pure _

theorem keeps_openOr : Keeps openOr := by
  unfold openOr
  refine .bind (keeps_emitJump _) fun _ => .bind (keeps_emitJump _) fun _ => ?_
  exact .bind (keeps_patchJump _) fun _ => .bind (keeps_emit ..) fun _ => .pure _

theorem keeps_enterLevel (h : KeepsAll self) (levels : List OpenLevel) (level : OpenLevel) :
    Keeps (enterLevel self levels level) := by
  unfold enterLevel
  refine .bind (keeps_operand h _) fun _ => .ite (.pure _) ?_
  exact .bind (keeps_patchJump _) fun _ => .pure _

/-- A pass opens a level, compiles a continuation or closes a level. -/
theorem keeps_continueOnce (h : KeepsAll self) (least : Precedence) (canAssign : Bool) (levels : List OpenLevel) :
    Keeps (continueOnce self least canAssign levels) := by
  unfold continueOnce
  refine .bind keeps_currentKind fun _ => ?_
  split
  · refine .bind keeps_advance fun _ => ?_
    split
    · exact .bind keeps_openAnd fun _ => .map _ (keeps_enterLevel h ..)
    · exact .bind keeps_openOr fun _ => .map _ (keeps_enterLevel h ..)
    · exact .bind (keeps_compileContinuation h ..) fun _ => .pure _
  · split
    · exact .bind (keeps_patchJump _) fun _ => .pure _
    · exact .pure _

/-! ### Declarations -/

theorem keeps_optionalValue (h : KeepsAll self) : Keeps (optionalValue self) :=
  .bind (keeps_accept _) fun _ => .ite (keeps_expression h) (keeps_emit ..)

theorem keeps_varDeclaration (h : KeepsAll self) : Keeps (varDeclaration self) := by
  unfold varDeclaration
  refine .bind (keeps_loop ?_) fun _ => ?_
  · refine .bind (keeps_parseVariable _) fun _ => .bind (keeps_optionalValue h) fun _ => ?_
    exact .bind (keeps_defineVariable _) fun _ => keeps_accept _
  · exact .bind (keeps_accept _) fun _ => .pure _

theorem keeps_globalDeclaration (h : KeepsAll self) : Keeps (globalDeclaration self) := by
  unfold globalDeclaration
  refine .bind (keeps_expect ..) fun _ => .bind (keeps_loop ?_) fun _ => ?_
  · refine .bind (keeps_expect ..) fun _ => .bind keeps_previousText fun _ => ?_
    refine .bind (keeps_nameConstant _) fun _ => .bind keeps_skipTypeAnnotation fun _ => ?_
    exact .bind (keeps_optionalValue h) fun _ => .bind (keeps_emit ..) fun _ => keeps_accept _
  · exact .bind (keeps_accept _) fun _ => .pure _

theorem keeps_extensionDeclaration (h : KeepsAll self) (type : String) :
    Keeps (extensionDeclaration self type) := by
  unfold extensionDeclaration
  refine .bind (keeps_nameConstant _) fun _ => .bind (keeps_expect ..) fun _ => ?_
  refine .bind keeps_previousText fun _ => .bind (keeps_nameConstant _) fun _ => ?_
  exact .bind (keeps_functionBody h ..) fun _ => keeps_emit ..

theorem keeps_namedFunction (h : KeepsAll self) (name : String) :
    Keeps (namedFunction self name) := by
  unfold namedFunction
  refine .bind (keeps_declareVariable _) fun _ => .bind .get fun _ => ?_
  refine .join (.pure _) (keeps_nameConstant _) fun _ => .bind keeps_markReady fun _ => ?_
  exact .bind (keeps_functionBody h ..) fun _ => keeps_defineVariable _

theorem keeps_funcDeclaration (h : KeepsAll self) : Keeps (funcDeclaration self) := by
  unfold funcDeclaration
  refine .bind (keeps_acceptAny _) fun _ => .ite ?_ (keeps_errorAtCurrent _)
  refine .bind keeps_previousText fun _ => .bind (keeps_accept _) fun _ => ?_
  refine .ite (keeps_extensionDeclaration h _) ?_
  exact .bind keeps_previousKind fun _ => .ite (keeps_namedFunction h _) (keeps_error _)

theorem keeps_property (h : KeepsAll self) (isStatic : Bool) (owner : String) :
    Keeps (property self isStatic owner) := by
  unfold property
  refine .bind (keeps_expect ..) fun _ => .bind keeps_previousText fun _ => ?_
  refine .bind (keeps_nameConstant _) fun _ => .bind keeps_skipTypeAnnotation fun _ => ?_
  refine .bind (keeps_optionalValue h) fun _ => .bind (keeps_emit ..) fun _ => ?_
  refine .bind (keeps_accept _) fun _ => .ite ?_ (.pure _)
  exact .bind (keeps_namedVariable h ..) fun _ => .pure _

theorem keeps_properties (h : KeepsAll self) (isStatic : Bool) (owner : String) :
    Keeps (properties self isStatic owner) :=
  .bind (keeps_loop (keeps_property h ..)) fun _ => .bind (keeps_accept _) fun _ => .pure _

theorem keeps_methodName : Keeps methodName? := by
  unfold methodName?
  refine .bind (keeps_accept _) fun _ => .ite ?_ ?_
  · refine .bind (keeps_accept _) fun _ => .ite (.pure _) ?_
    refine .bind (keeps_accept _) fun _ => .ite ?_ (.pure _)
    exact .bind (keeps_accept _) fun _ => .ite (.pure _) (.pure _)
  · refine .bind keeps_currentKind fun _ => .ite ?_ (.pure _)
    exact .bind keeps_advance fun _ => .bind keeps_previousText fun _ => .pure _

theorem keeps_method (h : KeepsAll self) (isStatic : Bool) : Keeps (method self isStatic) := by
  unfold method
  refine .bind (keeps_expect ..) fun _ => .bind keeps_methodName fun _ => ?_
  split
  · exact keeps_errorAtCurrent _
  · refine .bind (keeps_nameConstant _) fun _ => .bind (keeps_functionBody h ..) fun _ => ?_
    exact keeps_emit ..

theorem keeps_classMember (h : KeepsAll self) (className : String) :
    Keeps (classMember self className) := by
  unfold classMember
  refine .bind (keeps_accept _) fun _ => .bind (keeps_check _) fun _ => .ite (keeps_method h _) ?_
  exact .bind (keeps_accept _) fun _ => .ite (keeps_properties h ..) (keeps_errorAtCurrent _)

theorem keeps_skipToClosingBrace : Keeps skipToClosingBrace := by
  unfold skipToClosingBrace
  refine .bind .get fun _ => .ite ?_ (.pure _)
  refine keeps_loop ?_
  refine .bind (keeps_check _) fun _ => .bind keeps_atEnd fun _ => .ite (.pure _) ?_
  exact .bind keeps_advance fun _ => .pure _

theorem keeps_members (h : KeepsAll self) (owner : String) {c : Compile Unit} (hc : Keeps c) :
    Keeps (members self owner c) := by
  unfold members
  refine keeps_loop ?_
  refine .bind (keeps_check _) fun _ => .bind keeps_atEnd fun _ => .ite (.pure _) ?_
  refine .bind (keeps_namedVariable h ..) fun _ => .bind hc fun _ => ?_
  exact .bind keeps_skipToClosingBrace fun _ => .pure _

theorem keeps_setHasSuperclass : Keeps setHasSuperclass :=
  .modify (fun _ => rfl) (fun _ => rfl) (fun _ => rfl) fun _ => rfl

theorem keeps_superclassClause (h : KeepsAll self) (className : String) :
    Keeps (superclassClause self className) := by
  unfold superclassClause
  refine .bind (keeps_expect ..) fun _ => .bind keeps_previousText fun _ => ?_
  refine .when (keeps_error _) fun _ => .bind keeps_beginScope fun _ => ?_
  refine .bind (keeps_namedVariable h ..) fun _ => .bind (keeps_addReadyLocal _) fun _ => ?_
  refine .bind (keeps_namedVariable h ..) fun _ => .bind (keeps_emit ..) fun _ => ?_
  exact keeps_setHasSuperclass

theorem keeps_declareType (op : Operation) (name : String) : Keeps (declareType op name) := by
  unfold declareType
  refine .bind (keeps_nameConstant _) fun _ => .bind (keeps_declareVariable _) fun _ => ?_
  exact .bind (keeps_emit ..) fun _ => keeps_defineVariable _

theorem keeps_classBody (h : KeepsAll self) (className : String) :
    Keeps (classBody self className) := by
  unfold classBody
  refine .bind (keeps_expect ..) fun _ => ?_
  exact .bind (keeps_members h _ (keeps_classMember h _)) fun _ => keeps_expect ..

theorem keeps_classDeclaration (h : KeepsAll self) : Keeps (classDeclaration self) := by
  have hclasses (g : List Bool → List Bool) :
      Keeps (modify fun s => { s with classes := g s.classes }) :=
    .modify (fun _ => rfl) (fun _ => rfl) (fun _ => rfl) fun _ => rfl
  unfold classDeclaration
  refine .bind (keeps_expect ..) fun _ => .bind keeps_previousText fun _ => ?_
  refine .bind (keeps_declareType ..) fun _ => .bind (hclasses (false :: ·)) fun _ => ?_
  refine .bind (keeps_accept _) fun _ => .ite ?_ ?_
  · refine .bind (keeps_superclassClause h _) fun _ => .bind (keeps_classBody h _) fun _ => ?_
    refine .bind keeps_endScope fun _ => .bind .get fun _ => .bind (keeps_demand _) fun _ => ?_
    exact hclasses List.tail
  · refine .bind (keeps_classBody h _) fun _ => .bind .get fun _ => ?_
    exact .bind (keeps_demand _) fun _ => hclasses List.tail

theorem keeps_enumDeclaration (h : KeepsAll self) : Keeps (enumDeclaration self) := by
  unfold enumDeclaration
  refine .bind (keeps_expect ..) fun _ => .bind keeps_previousText fun _ => ?_
  refine .bind (keeps_declareType ..) fun _ => .bind (keeps_expect ..) fun _ => ?_
  exact .bind (keeps_members h _ (keeps_properties h ..)) fun _ => keeps_expect ..

/-! ### Statements -/

theorem keeps_condition (h : KeepsAll self) : Keeps (condition self) :=
  .bind (keeps_expression h) fun _ => keeps_expect ..

theorem keeps_ifStatement (h : KeepsAll self) : Keeps (ifStatement self) := by
  unfold ifStatement
  refine .bind (keeps_expect ..) fun _ => .bind (keeps_condition h) fun _ => ?_
  refine .bind (keeps_emitJump _) fun _ => .bind (keeps_emit ..) fun _ => ?_
  refine .bind (keeps_statement h) fun _ => .bind (keeps_emitJump _) fun _ => ?_
  refine .bind (keeps_patchJump _) fun _ => .bind (keeps_emit ..) fun _ => ?_
  exact .bind (keeps_accept _) fun _ => .when (keeps_statement h) fun _ => keeps_patchJump _

theorem keeps_returnStatement (h : KeepsAll self) : Keeps (returnStatement self) := by
  unfold returnStatement
  refine .bind (keeps_accept _) fun _ => .ite keeps_emitReturn ?_
  refine .bind (keeps_check _) fun _ => .bind keeps_atEnd fun _ => .ite keeps_emitReturn ?_
  refine .bind .get fun _ => .when (keeps_error _) fun _ => .bind (keeps_expression h) fun _ => ?_
  exact .bind (keeps_accept _) fun _ => keeps_emit ..

theorem keeps_beginLoop (start : Nat) : Keeps (beginLoop start) :=
  keeps_modifyFunction fun _ => rfl

theorem keeps_endLoop : Keeps endLoop := by
  unfold endLoop
  refine .bind .get fun _ => ?_
  split
  · exact .pure _
  · refine .bind (keeps_modifyFunction fun _ => rfl) fun _ => ?_
    exact keeps_forM keeps_patchJump _

theorem keeps_modifyLoop (f : Loop → Loop) : Keeps (modifyLoop f) :=
  keeps_modifyFunction fun _ => rfl

theorem keeps_leaveLoopBody : Keeps leaveLoopBody? := by
  unfold leaveLoopBody?
  refine .bind .get fun _ => ?_
  split
  · exact .pure _
  · refine .bind (keeps_discardLocals _) fun _ => .bind .get fun _ => ?_
    exact .bind (keeps_forM (fun _ => keeps_emit ..) _) fun _ => .pure _

theorem keeps_breakStatement : Keeps breakStatement := by
  unfold breakStatement
  refine .bind (keeps_accept _) fun _ => .bind keeps_leaveLoopBody fun _ => ?_
  split
  · exact keeps_error _
  · exact .bind (keeps_emitJump _) fun _ => keeps_modifyLoop _

theorem keeps_continueStatement : Keeps continueStatement := by
  unfold continueStatement
  refine .bind (keeps_accept _) fun _ => .bind keeps_leaveLoopBody fun _ => ?_
  split
  · exact keeps_error _
  · exact keeps_emitLoop _

theorem keeps_closeLoop (start exit : Nat) : Keeps (closeLoop start exit) := by
  unfold closeLoop
  refine .bind (keeps_emitLoop _) fun _ => .bind (keeps_patchJump _) fun _ => ?_
  exact .bind (keeps_emit ..) fun _ => keeps_endLoop

theorem keeps_whileStatement (h : KeepsAll self) : Keeps (whileStatement self) := by
  unfold whileStatement
  refine .bind keeps_codeSize fun _ => .bind (keeps_beginLoop _) fun _ => ?_
  refine .bind (keeps_expect ..) fun _ => .bind (keeps_condition h) fun _ => ?_
  refine .bind (keeps_emitJump _) fun _ => .bind (keeps_emit ..) fun _ => ?_
  exact .bind (keeps_statement h) fun _ => keeps_closeLoop ..

theorem keeps_doWhileStatement (h : KeepsAll self) : Keeps (doWhileStatement self) := by
  unfold doWhileStatement
  refine .bind keeps_codeSize fun _ => .bind (keeps_beginLoop _) fun _ => ?_
  refine .bind (keeps_statement h) fun _ => .bind (keeps_expect ..) fun _ => ?_
  refine .bind (keeps_expect ..) fun _ => .bind (keeps_condition h) fun _ => ?_
  refine .bind (keeps_accept _) fun _ => .bind (keeps_emitJump _) fun _ => ?_
  exact .bind (keeps_emit ..) fun _ => keeps_closeLoop ..

theorem keeps_forInLoop (h : KeepsAll self) (item : String) (index : Option String) :
    Keeps (forInLoop self item index) := by
  unfold forInLoop
  refine .bind (keeps_expression h) fun _ => .bind (keeps_addReadyLocal _) fun _ => ?_
  refine .bind (keeps_emitConstant_number _) fun _ => .bind (keeps_addReadyLocal _) fun _ => ?_
  refine .bind (keeps_emit ..) fun _ => .bind (keeps_addReadyLocal _) fun _ => ?_
  refine .bind (keeps_expect ..) fun _ => .bind (keeps_emitJump _) fun _ => ?_
  refine .bind keeps_codeSize fun _ => .bind (keeps_beginLoop _) fun _ => ?_
  refine .bind (keeps_emit ..) fun _ => .bind (keeps_emit ..) fun _ => ?_
  refine .bind (keeps_emit ..) fun _ => .bind (keeps_emit ..) fun _ => ?_
  refine .bind (keeps_patchJump _) fun _ => .bind (keeps_emit ..) fun _ => ?_
  refine .bind (keeps_nameConstant _) fun _ => .bind (keeps_emit ..) fun _ => ?_
  refine .bind (keeps_emit ..) fun _ => .bind (keeps_emit ..) fun _ => ?_
  refine .bind (keeps_emit ..) fun _ => .bind (keeps_emitJump _) fun _ => ?_
  refine .bind (keeps_emit ..) fun _ => .bind (keeps_emit ..) fun _ => ?_
  refine .bind (keeps_emit ..) fun _ => .bind (keeps_emit ..) fun _ => ?_
  refine .bind (keeps_emit ..) fun _ => .bind (keeps_emit ..) fun _ => ?_
  exact .bind (keeps_statement h) fun _ => .bind (keeps_closeLoop ..) fun _ => keeps_endScope

theorem keeps_landFailed (o : Option Nat) : Keeps (landFailed o) := by
  unfold landFailed
  split
  · exact .bind (keeps_patchJump _) fun _ => keeps_emit ..
  · exact .pure _

theorem keeps_loopCondition (h : KeepsAll self) : Keeps (loopCondition self) := by
  unfold loopCondition
  refine .bind (keeps_accept _) fun _ => .ite (.pure _) ?_
  refine .bind (keeps_expression h) fun _ => .bind (keeps_expect ..) fun _ => ?_
  exact .bind (keeps_emitJump _) fun _ => .bind (keeps_emit ..) fun _ => .pure _

theorem keeps_loopIncrement (h : KeepsAll self) (test : Nat) : Keeps (loopIncrement self test) := by
  unfold loopIncrement
  refine .bind (keeps_accept _) fun _ => .ite (.pure _) ?_
  refine .bind (keeps_emitJump _) fun _ => .bind keeps_codeSize fun _ => ?_
  refine .bind (keeps_expression h) fun _ => .bind (keeps_emit ..) fun _ => ?_
  refine .bind (keeps_expect ..) fun _ => .bind (keeps_emitLoop _) fun _ => ?_
  exact .bind (keeps_modifyLoop _) fun _ => .bind (keeps_patchJump _) fun _ => .pure _

theorem keeps_forClauses (h : KeepsAll self) : Keeps (forClauses self) := by
  unfold forClauses
  refine .bind keeps_codeSize fun _ => .bind (keeps_beginLoop _) fun _ => ?_
  refine .bind (keeps_loopCondition h) fun _ => .bind (keeps_loopIncrement h _) fun _ => ?_
  refine .bind (keeps_statement h) fun _ => .bind (keeps_emitLoop _) fun _ => ?_
  exact .bind (keeps_landFailed _) fun _ => .bind keeps_endLoop fun _ => keeps_endScope

theorem keeps_indexName : Keeps indexName := by
  unfold indexName
  refine .bind (keeps_accept _) fun _ => .ite ?_ (.pure _)
  exact .bind (keeps_expect ..) fun _ => .bind keeps_previousText fun _ => .pure _

theorem keeps_forStatement (h : KeepsAll self) : Keeps (forStatement self) := by
  unfold forStatement
  refine .bind keeps_beginScope fun _ => .bind (keeps_expect ..) fun _ => ?_
  refine .bind (keeps_accept _) fun _ => .ite (keeps_forClauses h) ?_
  refine .bind (keeps_accept _) fun _ => .ite ?_ ?_
  · refine .bind (keeps_expect ..) fun _ => .bind keeps_previousText fun _ => ?_
    refine .bind keeps_skipTypeAnnotation fun _ => .bind keeps_indexName fun _ => ?_
    refine .bind (keeps_accept _) fun _ => .ite (keeps_forInLoop h ..) ?_
    refine .when (keeps_error _) fun _ => .bind (keeps_declareVariable _) fun _ => ?_
    refine .bind (keeps_optionalValue h) fun _ => .bind keeps_markReady fun _ => ?_
    exact .bind (keeps_expect ..) fun _ => keeps_forClauses h
  · refine .bind (keeps_expression h) fun _ => .bind (keeps_emit ..) fun _ => ?_
    exact .bind (keeps_expect ..) fun _ => keeps_forClauses h

theorem keeps_closeArm (s : SwitchState) : Keeps (closeArm s) := by
  unfold closeArm
  refine .ite (.pure _) ?_
  refine .bind keeps_endScope fun _ => .bind (keeps_emitJump _) fun _ => ?_
  exact .bind (keeps_landFailed _) fun _ => .pure _

theorem keeps_openArm (h : KeepsAll self) (subject : Nat) (s : SwitchState) :
    Keeps (openArm self subject s) := by
  unfold openArm
  refine .bind keeps_previousKind fun _ => .when (keeps_error _) fun _ => ?_
  refine .bind (keeps_closeArm _) fun _ => .ite ?_ ?_
  · refine .bind (keeps_emit ..) fun _ => .bind (keeps_expression h) fun _ => ?_
    refine .bind (keeps_expect ..) fun _ => .bind (keeps_emit ..) fun _ => ?_
    refine .bind (keeps_emitJump _) fun _ => .bind (keeps_emit ..) fun _ => ?_
    exact .bind keeps_beginScope fun _ => .pure _
  · exact .bind (keeps_expect ..) fun _ => .bind keeps_beginScope fun _ => .pure _

/-- The arms one after another. By induction on how many there may be. -/
theorem keeps_switchArms (h : KeepsAll self) (subject : Nat) (s : SwitchState) (n : Nat) :
    Keeps (switchArms self subject s n) := by
  induction n generalizing s with
  | zero => exact .bind keeps_exhausted fun _ => .pure s
  | succ n ih =>
    unfold switchArms
    refine .bind keeps_tokensTaken fun _ => .bind (keeps_accept _) fun _ => .ite (.pure _) ?_
    refine .bind keeps_atEnd fun _ => .ite ?_ ?_
    · exact .bind (keeps_errorAtCurrent _) fun _ => .pure _
    · refine .bind (keeps_acceptAny _) fun _ => .ite ?_ ?_
      · exact .bind (keeps_openArm h ..) fun _ => .bind (keeps_demandProgress _) fun _ => ih _
      · refine .when (keeps_errorAtCurrent _) fun _ => .bind (keeps_declaration h) fun _ => ?_
        exact .bind (keeps_demandProgress _) fun _ => ih _

theorem keeps_closeLastArm (s : SwitchState) : Keeps (closeLastArm s) := by
  unfold closeLastArm
  refine .when keeps_endScope fun _ => ?_
  split
  · exact .bind (keeps_emitJump _) fun _ => .bind (keeps_landFailed _) fun _ => .pure _
  · exact .pure _

theorem keeps_switchStatement (h : KeepsAll self) : Keeps (switchStatement self) := by
  unfold switchStatement
  refine .bind (keeps_expect ..) fun _ => .bind (keeps_expression h) fun _ => ?_
  refine .bind (keeps_expect ..) fun _ => .bind (keeps_expect ..) fun _ => ?_
  refine .bind keeps_beginScope fun _ => .bind (keeps_addReadyLocal _) fun _ => ?_
  refine .bind .get fun _ => .bind (keeps_switchArms h ..) fun _ => ?_
  refine .bind (keeps_closeLastArm _) fun _ => ?_
  exact .bind (keeps_forM keeps_patchJump _) fun _ => keeps_endScope

theorem keeps_errorVariable (name : String) : Keeps (errorVariable name) :=
  .bind (keeps_addReadyLocal name) fun _ => keeps_modifyFunction fun _ => rfl

theorem keeps_catchClause (h : KeepsAll self) : Keeps (catchClause self) := by
  unfold catchClause
  refine .bind (keeps_accept _) fun _ => .ite ?_ (keeps_errorVariable _)
  refine .bind (keeps_accept _) fun _ => .ite ?_ ?_
  · refine .bind (keeps_expect ..) fun _ => .bind keeps_previousText fun _ => ?_
    exact .bind (keeps_errorVariable _) fun _ => .bind (keeps_expect ..) fun _ => keeps_statement h
  · exact .bind (keeps_errorVariable _) fun _ => keeps_statement h

theorem keeps_tryStatement (h : KeepsAll self) : Keeps (tryStatement self) := by
  unfold tryStatement
  refine .bind (keeps_emitJump _) fun _ => .bind (keeps_modifyFunction fun _ => rfl) fun _ => ?_
  refine .bind (keeps_statement h) fun _ => .bind .get fun _ => .bind (keeps_demand _) fun _ => ?_
  refine .bind (keeps_modifyFunction fun _ => rfl) fun _ => .bind (keeps_emitJump _) fun _ => ?_
  refine .bind (keeps_patchJump _) fun _ => .bind keeps_beginScope fun _ => ?_
  exact .bind (keeps_catchClause h) fun _ => .bind keeps_endScope fun _ => keeps_patchJump _

theorem keeps_pathParts (path : String) (n : Nat) : Keeps (pathParts path n) := by
  induction n generalizing path with
  | zero => exact .bind keeps_exhausted fun _ => .pure path
  | succ n ih =>
    unfold pathParts
    refine .bind keeps_tokensTaken fun _ => .bind (keeps_accept _) fun _ => .ite ?_ (.pure _)
    refine .bind (keeps_expect ..) fun _ => .bind (keeps_demandProgress _) fun _ => ?_
    exact .bind keeps_previousText fun _ => ih _

theorem keeps_importPath : Keeps importPath := by
  unfold importPath
  refine .bind (keeps_accept _) fun _ => .ite ?_ ?_
  · refine .bind keeps_previousText fun _ => .bind .get fun _ => ?_
    exact .bind (keeps_pathParts ..) fun _ => .pure _
  · exact .bind (keeps_expect ..) fun _ => .bind keeps_previousText fun _ => .pure _

theorem keeps_importName : Keeps importName := by
  unfold importName
  refine .bind (keeps_accept _) fun _ => .ite ?_ (keeps_emit ..)
  refine .bind (keeps_acceptAny _) fun _ => .ite ?_ (keeps_errorAtCurrent _)
  exact .bind keeps_previousText fun _ => keeps_emitText _

theorem keeps_importStatement : Keeps importStatement := by
  unfold importStatement
  refine .bind keeps_importPath fun path => ?_
  rw [← bind_assoc]
  refine .bind (keeps_emitText path) fun _ => .bind keeps_importName fun _ => ?_
  exact .bind (keeps_accept _) fun _ => keeps_emit ..

theorem keeps_expressionStatement (h : KeepsAll self) : Keeps (expressionStatement self) := by
  unfold expressionStatement
  refine .bind (keeps_expression h) fun _ => .bind (keeps_accept _) fun _ => .bind .get fun _ => ?_
  exact .ite (keeps_emit ..) (keeps_emit ..)

theorem keeps_abortStatement (h : KeepsAll self) : Keeps (abortStatement self) :=
  .bind (keeps_expression h) fun _ => .bind (keeps_accept _) fun _ => keeps_emit ..

theorem keeps_passStatement : Keeps passStatement :=
  .bind (keeps_emit ..) fun _ => .bind (keeps_accept _) fun _ => .pure _

theorem keeps_scopedBlock (h : KeepsAll self) : Keeps (scopedBlock self) := by
  unfold scopedBlock
  refine .bind keeps_advance fun _ => .bind keeps_beginScope fun _ => ?_
  exact .bind (keeps_block h) fun _ => keeps_endScope

theorem keeps_blockOrExpression (h : KeepsAll self) : Keeps (blockOrExpression self) := by
  unfold blockOrExpression
  refine .bind (keeps_check _) fun _ => .bind keeps_followingKind fun _ => ?_
  exact .ite (keeps_scopedBlock h) (keeps_expressionStatement h)

/-- One case for each keyword that begins a statement. -/
theorem keeps_statementBody (h : KeepsAll self) : Keeps (Compiler.statement self) := by
  unfold Compiler.statement
  refine .bind keeps_currentKind fun _ => ?_
  split
  · exact .bind keeps_advance fun _ => keeps_forStatement h
  · exact .bind keeps_advance fun _ => keeps_ifStatement h
  · exact .bind keeps_advance fun _ => keeps_returnStatement h
  · exact .bind keeps_advance fun _ => keeps_importStatement
  · exact .bind keeps_advance fun _ => keeps_abortStatement h
  · exact .bind keeps_advance fun _ => keeps_breakStatement
  · exact .bind keeps_advance fun _ => keeps_continueStatement
  · exact .bind keeps_advance fun _ => keeps_whileStatement h
  · exact .bind keeps_advance fun _ => keeps_doWhileStatement h
  · exact .bind keeps_advance fun _ => keeps_switchStatement h
  · exact .bind keeps_advance fun _ => keeps_tryStatement h
  · exact .bind keeps_advance fun _ => keeps_passStatement
  · exact keeps_blockOrExpression h

theorem keeps_declarationOrStatement (h : KeepsAll self) : Keeps (declarationOrStatement self) := by
  unfold declarationOrStatement
  refine .bind keeps_currentKind fun _ => ?_
  split
  · exact .bind keeps_advance fun _ => keeps_classDeclaration h
  · exact .bind keeps_advance fun _ => keeps_enumDeclaration h
  · exact .bind keeps_advance fun _ => keeps_funcDeclaration h
  · exact .bind keeps_advance fun _ => keeps_globalDeclaration h
  · exact .bind keeps_advance fun _ => keeps_varDeclaration h
  · exact keeps_statementBody h

theorem keeps_declarationBody (h : KeepsAll self) : Keeps (Compiler.declaration self) := by
  unfold Compiler.declaration
  refine .bind keeps_atEnd fun _ => .bind keeps_tokensTaken fun _ => ?_
  refine .bind (keeps_declarationOrStatement h) fun _ => .bind .get fun _ => ?_
  exact .when keeps_synchronize fun _ => .bind keeps_tokensTaken fun _ => keeps_demand _

/-! ### Goals -/

theorem keeps_continueExpression (h : KeepsAll self) (least : Precedence) (canAssign : Bool)
    (levels : List OpenLevel) (n : Nat) :
    Keeps (continueExpression self least canAssign levels n) := by
  induction n generalizing levels with
  | zero => exact keeps_exhausted
  | succ n ih =>
    unfold continueExpression
    refine .bind keeps_tokensTaken fun _ => .bind (keeps_continueOnce h ..) fun _ => ?_
    split
    · refine .bind keeps_tokensTaken fun _ => .bind (keeps_demand _) fun _ => ?_
      exact ih _
    · exact .pure _

theorem keeps_expressionAtLeast (h : KeepsAll self) (least : Precedence) :
    Keeps (expressionAtLeast self least) := by
  unfold expressionAtLeast
  refine .bind (keeps_operand h _) fun _ => .ite ?_ (.pure _)
  refine .bind .get fun _ => .bind (keeps_continueExpression h ..) fun _ => .ite ?_ (.pure _)
  exact .bind (keeps_accept _) fun _ => .ite (keeps_error _) (.pure _)

/-! ## Texts -/

theorem keeps_beginStatement : Keeps beginStatement :=
  keeps_modifyFunction fun _ => rfl

theorem keepsAll_goal (depth : Nat) : KeepsAll (goal depth) := by
  induction depth with
  | zero => exact ⟨fun _ => keeps_exhausted⟩
  | succ depth ih =>
    refine ⟨fun g => ?_⟩
    cases g with
    | expression least => exact keeps_expressionAtLeast ih least
    | declaration => exact .bind keeps_beginStatement fun _ => keeps_declarationBody ih
    | statement => exact .bind keeps_beginStatement fun _ => keeps_statementBody ih

theorem keeps_script (h : KeepsAll self) : Keeps (script self) := by
  unfold script
  refine .bind keeps_advance fun _ => .bind (keeps_loop ?_) fun _ => ?_
  · refine .bind keeps_atEnd fun _ => .ite (.pure _) ?_
    exact .bind (keeps_declaration h) fun _ => .pure _
  · exact keeps_emitReturn

theorem start_grounded (source path : String) : (State.start source path).Grounded where
  image := by
    intro k p statements closures hk
    cases k with
    | zero => cases hk
    | succ k => simp [State.start] at hk
  path := ⟨path, rfl⟩
  function := refersInto_start _ _ _
  enclosing := by simp [State.start]

/-- The script becomes the last item. -/
theorem State.Grounded.finish (hs : s.Grounded) : s.finish.2.Grounded := by
  unfold State.finish
  split
  · refine hs.image.push fun p statements closures hitem => ?_
    obtain ⟨rfl, -, -⟩ := Item.function.inj hitem
    refine ⟨⟨hs.function, by simp, fun r hr => ?_⟩, by simp, fun r hr => ?_⟩
    · obtain rfl := Option.some.inj hr
      exact hs.path.lt
    · obtain rfl := Option.some.inj hr
      exact hs.path
  · exact hs.image

/-- **`translate_grounded`** — whether a text is accepted or not, the functions of its image refer
to items before them, and have texts for their names. -/
theorem translate_grounded (source path : String) : (translate source path).2.Grounded := by
  have hs := (keeps_script (keepsAll_goal (4 * (State.start source path).budget))).grounded _
    (start_grounded source path)
  exact hs.finish

end Compiler

end ScriptMachine
