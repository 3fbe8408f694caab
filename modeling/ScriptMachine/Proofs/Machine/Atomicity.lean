import Mathlib
import ScriptMachine.Machine
import ScriptMachine.Proofs.Machine.Execution

/-!
# ScriptMachine.Proofs.Machine.Atomicity — what an instruction that fails leaves behind

An instruction checks everything before it changes anything that outlives it. What it may do before it
fails is to take operands, to move on and to make new objects: the machine is *spared*. Three
properties of machine operations carry this through the instructions. A `Careful` operation spares the
machine whether it fails or not; a `Certain` one reports no error at all; an `Atomic` one spares the
machine when it fails. What is careful can go before, what is certain can follow, and the result is
atomic.

An import is the exception: it binds the package before the file is compiled.

The rules for putting operations together are few: careful before atomic, certain after it, and a choice
of two. The rest of the module goes through the operations from the small ones to the instruction, and
most lemmas are one such composition. `failed_step_spares` reads the result off for a step, error by
error: globals, extensions, the other fibers and every object that was there are as they were. It is
about errors of the script. An instruction that gets stuck, or that never ends, reports none.

What happens to the error afterwards is a matter of routing, which may well change things: handlers are
removed, cells are closed and tasks end.
-/

namespace ScriptMachine

/-- **`e.Reported`** — the fault is an error of the script. A machine that is stuck, and an
instruction that never ends, report nothing. -/
def Fault.Reported (e : Fault) : Prop :=
  e ≠ .stuck ∧ e ≠ .endless

/-- The activation without the place where it goes on. -/
def Frame.rewound (f : Frame) : Frame :=
  { f with ip := 0 }

/-- **`m.Spares m'`** — the machines differ at most in the operands of the running fiber and the place
where its innermost activation goes on, in objects that are new, and in what counts the time and the
files looked at. -/
structure Machine.Spares (m m' : Machine) : Prop where
  objects : m.heap.Keeps m'.heap
  tidy : m'.heap.Tidy
  frames : m'.fiber.frames.head?.map Frame.rewound = m.fiber.frames.head?.map Frame.rewound
  outer : m'.fiber.frames.tail = m.fiber.frames.tail
  fiber : m'.fiber = { m.fiber with stack := m'.fiber.stack, frames := m'.fiber.frames }
  rest : m' = { m with heap := m'.heap, fiber := m'.fiber, clock := m'.clock, loads := m'.loads }

variable {α β : Type} {m m' m'' : Machine}

namespace Machine.Spares

theorem refl (ht : m.heap.Tidy) : m.Spares m :=
  ⟨.refl _, ht, rfl, rfl, rfl, rfl⟩

theorem trans (h : m.Spares m') (h' : m'.Spares m'') : m.Spares m'' where
  objects := h.objects.trans h'.objects
  tidy := h'.tidy
  frames := h'.frames.trans h.frames
  outer := h'.outer.trans h.outer
  fiber := by
    rw [h'.fiber, h.fiber]
  rest := by
    rw [h'.rest, h.rest]

theorem withStack (ht : m.heap.Tidy) (stack : Array Value) :
    m.Spares { m with fiber := { m.fiber with stack } } :=
  ⟨.refl _, ht, rfl, rfl, rfl, rfl⟩

theorem withHeap {h : Heap} (hk : m.heap.Keeps h) (ht : h.Tidy) : m.Spares { m with heap := h } :=
  ⟨hk, ht, rfl, rfl, rfl, rfl⟩

theorem withLoads (ht : m.heap.Tidy) (loads : List String) : m.Spares { m with loads } :=
  ⟨.refl _, ht, rfl, rfl, rfl, rfl⟩

theorem withClock (ht : m.heap.Tidy) (clock : Nat) : m.Spares { m with clock } :=
  ⟨.refl _, ht, rfl, rfl, rfl, rfl⟩

end Machine.Spares

/-- An image is put into vacant slots. -/
theorem Heap.Tidy.load {h : Heap} (ht : h.Tidy) (image : Image) :
    h.Keeps (image.load h).2 ∧ (image.load h).2.Tidy := by
  unfold Image.load
  refine Array.foldl_induction (fun _ (p : Array Ref × Heap) => h.Keeps p.2 ∧ p.2.Tidy)
    ⟨.refl h, ht⟩ fun i p ⟨hkeeps, htidy⟩ => ?_
  cases image[i] with
  | text s => exact ⟨hkeeps.trans (htidy.intern s).2.1, (htidy.intern s).1⟩
  | function => exact ⟨hkeeps.trans (htidy.keeps_alloc _), htidy.alloc _⟩

/-- What a text is compiled to is new. -/
theorem Heap.Tidy.compile {h : Heap} (ht : h.Tidy) (source path : String) :
    h.Keeps (compile h source path).2 ∧ (compile h source path).2.Tidy := by
  have hpause : h.pause.Tidy := ⟨ht.vacant, ht.distinct⟩
  unfold ScriptMachine.compile
  cases Compiler.translate source path with
  | mk result image =>
    obtain ⟨hkeeps, htidy⟩ := hpause.load image
    exact ⟨fun r o ho => hkeeps r o ho, htidy.vacant, htidy.distinct⟩

namespace Exec

/-- **`x.Careful`** — the machine is spared, with or without an error. -/
def Careful (x : Exec α) : Prop :=
  ∀ m, m.heap.Tidy → x.Meets m (fun _ m' => m.Spares m') fun e m' => e.Reported → m.Spares m'

/-- **`x.Certain`** — no error is reported. -/
def Certain (x : Exec α) : Prop :=
  ∀ m, x.Meets m (fun _ _ => True) fun e _ => ¬e.Reported

/-- **`x.Atomic`** — after an error the machine is spared. -/
def Atomic (x : Exec α) : Prop :=
  ∀ m, m.heap.Tidy → x.Meets m (fun _ _ => True) fun e m' => e.Reported → m.Spares m'

variable {x y : Exec α} {f : α → Exec β}

/-! ## Putting operations together -/

theorem Careful.atomic (hx : Careful x) : Atomic x := fun m ht =>
  (hx m ht).mono (fun _ _ _ => trivial) fun _ _ he => he

theorem Certain.atomic (hx : Certain x) : Atomic x := fun m _ =>
  (hx m).mono (fun _ _ _ => trivial) fun _ _ he hreported => absurd hreported he

theorem Careful.bind (hx : Careful x) (hf : ∀ a, Careful (f a)) : Careful (x >>= f) := by
  intro m ht
  refine .bind ((hx m ht).mono (fun a m' hm => ?_) fun _ _ he => he)
  exact (hf a m' hm.tidy).mono (fun _ _ hm' => hm.trans hm') fun _ _ he h => hm.trans (he h)

theorem Certain.bind (hx : Certain x) (hf : ∀ a, Certain (f a)) : Certain (x >>= f) := fun m =>
  .bind ((hx m).mono (fun a m' _ => hf a m') fun _ _ he => he)

/-- What is careful can go before. -/
theorem Atomic.bind (hx : Careful x) (hf : ∀ a, Atomic (f a)) : Atomic (x >>= f) := by
  intro m ht
  refine .bind ((hx m ht).mono (fun a m' hm => ?_) fun _ _ he => he)
  exact (hf a m' hm.tidy).mono (fun _ _ _ => trivial) fun _ _ he h => hm.trans (he h)

/-- What is certain can follow. -/
theorem Atomic.before (hx : Atomic x) (hf : ∀ a, Certain (f a)) : Atomic (x >>= f) := fun m ht =>
  .bind ((hx m ht).mono (fun a m' _ => (hf a m').mono (fun _ _ _ => trivial)
    fun _ _ he h => absurd h he) fun _ _ he => he)

theorem Careful.ite {c : Prop} [Decidable c] (hx : Careful x) (hy : Careful y) :
    Careful (if c then x else y) := by
  split <;> assumption

theorem Certain.ite {c : Prop} [Decidable c] (hx : Certain x) (hy : Certain y) :
    Certain (if c then x else y) := by
  split <;> assumption

theorem Atomic.ite {c : Prop} [Decidable c] (hx : Atomic x) (hy : Atomic y) :
    Atomic (if c then x else y) := by
  split <;> assumption

theorem careful_pure (a : α) : Careful (pure a) := fun _ ht => .refl ht

theorem careful_throw (e : Fault) : Careful (throw e : Exec α) := fun _ ht _ => .refl ht

theorem careful_get : Careful get := fun _ ht => .refl ht

theorem certain_pure (a : α) : Certain (pure a) := fun _ => trivial

theorem certain_get : Certain get := fun _ => trivial

theorem certain_modify (f : Machine → Machine) : Certain (modify f) := fun _ => trivial

theorem certain_modifyGet (f : Machine → α × Machine) : Certain (modifyGet f) := fun _ => trivial

theorem certain_stuck : Certain (throw .stuck : Exec α) := fun _ h => h.1 rfl

theorem careful_mapM {β : Type} {f : β → Exec α} (hf : ∀ b, Careful (f b)) (bs : List β) :
    Careful (bs.mapM f) := by
  induction bs with
  | nil =>
    rw [List.mapM_nil]
    exact careful_pure []
  | cons b bs ih =>
    rw [List.mapM_cons]
    exact .bind (hf b) fun _ => .bind ih fun _ => careful_pure _

theorem certain_mapM {β : Type} {f : β → Exec α} (hf : ∀ b, Certain (f b)) (bs : List β) :
    Certain (bs.mapM f) := by
  induction bs with
  | nil =>
    rw [List.mapM_nil]
    exact certain_pure []
  | cons b bs ih =>
    rw [List.mapM_cons]
    exact .bind (hf b) fun _ => .bind ih fun _ => certain_pure _

/-! ## Operands, frames and the heap -/

theorem careful_heap : Careful heap := fun _ ht => .refl ht

theorem certain_heap : Certain heap := fun _ => trivial

theorem careful_height : Careful height := fun _ ht => .refl ht

theorem certain_height : Certain height := fun _ => trivial

theorem careful_need (o : Option α) : Careful (need o) := by
  cases o with
  | none => exact careful_throw _
  | some a => exact careful_pure a

theorem certain_need (o : Option α) : Certain (need o) := by
  cases o with
  | none => exact certain_stuck
  | some a => exact certain_pure a

theorem careful_modifyStack (f : Array Value → Array Value) : Careful (modifyStack f) := fun _ ht =>
  .withStack ht _

theorem careful_push (v : Value) : Careful (push v) :=
  careful_modifyStack _

theorem certain_push (v : Value) : Certain (push v) :=
  certain_modify _

theorem careful_stackAt (index : Nat) : Careful (stackAt index) :=
  careful_get.bind fun _ => careful_need _

theorem careful_peek (distance : Nat) : Careful (peek distance) :=
  careful_get.bind fun _ => .ite (careful_need _) (careful_throw _)

theorem certain_peek (distance : Nat) : Certain (peek distance) :=
  certain_get.bind fun _ => .ite (certain_need _) certain_stuck

theorem careful_pop : Careful pop :=
  (careful_peek 0).bind fun v => (careful_modifyStack _).bind fun _ => careful_pure v

theorem certain_pop : Certain pop :=
  (certain_peek 0).bind fun v => (certain_modify _).bind fun _ => certain_pure v

theorem careful_replaceTop (count : Nat) (v : Value) : Careful (replaceTop count v) :=
  (careful_modifyStack _).bind fun _ => careful_push v

theorem certain_replaceTop (count : Nat) (v : Value) : Certain (replaceTop count v) :=
  (certain_modify _).bind fun _ => certain_push v

theorem careful_setStackAt (index : Nat) (v : Value) : Careful (setStackAt index v) :=
  careful_modifyStack _

theorem careful_valuesFrom (height : Nat) : Careful (valuesFrom height) :=
  careful_get.bind fun _ => careful_pure _

theorem careful_frame : Careful frame := by
  refine careful_get.bind fun m => ?_
  cases m.fiber.frames with
  | nil => exact careful_throw _
  | cons f _ => exact careful_pure f

theorem certain_frame : Certain frame := by
  refine certain_get.bind fun m => ?_
  cases m.fiber.frames with
  | nil => exact certain_stuck
  | cons f _ => exact certain_pure f

theorem careful_modifyIp (f : Nat → Nat) : Careful (modifyIp f) := by
  intro m ht
  unfold modifyIp
  show m.Spares { m with fiber := _ }
  cases hframes : m.fiber.frames with
  | nil =>
    simp only [hframes]
    exact .refl ht
  | cons g rest =>
    simp only [hframes]
    exact ⟨.refl _, ht, by simp [hframes, Frame.rewound], by simp [hframes], rfl, rfl⟩

theorem careful_alloc (o : Obj) : Careful (alloc o) := fun _ ht =>
  .withHeap (ht.keeps_alloc o) (ht.alloc o)

theorem careful_allocValue (o : Obj) : Careful (allocValue o) :=
  (careful_alloc o).bind fun _ => careful_pure _

theorem careful_intern (text : String) : Careful (intern text) := fun _ ht =>
  .withHeap (ht.intern text).2.1 (ht.intern text).1

theorem careful_internValue (text : String) : Careful (internValue text) :=
  (careful_intern text).bind fun _ => careful_pure _

theorem careful_key (name : Ref) : Careful (key name) :=
  careful_get.bind fun _ => careful_need _

theorem certain_key (name : Ref) : Certain (key name) :=
  certain_get.bind fun _ => certain_need _

theorem careful_nameText (name : Ref) : Careful (nameText name) :=
  careful_get.bind fun _ => careful_pure _

theorem careful_constant (index : Nat) : Careful (constant index) :=
  careful_frame.bind fun _ => careful_need _

theorem careful_nameConstant (index : Nat) : Careful (nameConstant index) := by
  refine (careful_constant index).bind fun v => ?_
  split
  · exact careful_pure _
  · exact careful_throw _

/-! ## Names -/

theorem careful_searched (classRef : Ref) (found : Option α) : Careful (searched classRef found) :=
  careful_get.bind fun _ => .ite ((careful_throw _).bind fun _ => careful_pure _) (careful_pure _)

theorem careful_searchReceiver (k : Key) : Careful (searchReceiver k) := by
  refine careful_get.bind fun m => ?_
  split
  · exact .ite (careful_pure _) ((careful_searched _ _).bind fun _ => careful_pure _)
  · exact careful_pure _

theorem careful_readGlobal? (name : Ref) : Careful (readGlobal? name) := by
  refine careful_get.bind fun m => .ite ?_ ?_
  · exact careful_frame.bind fun f => (careful_allocValue (.list f.args)).bind fun _ => careful_pure _
  · exact (careful_key name).bind fun k => (careful_searchReceiver k).bind fun _ =>
      careful_get.bind fun _ => careful_pure _

theorem careful_getGlobal (name : Ref) : Careful (getGlobal name) := by
  refine (careful_readGlobal? name).bind fun v => ?_
  split
  · exact careful_pure _
  · exact (careful_nameText name).bind fun _ => careful_throw _

theorem atomic_setGlobal (name : Ref) (v : Value) : Atomic (setGlobal name v) := by
  refine .bind (careful_key name) fun k => .bind (careful_searchReceiver k) fun _ =>
    .bind careful_get fun m => ?_
  split
  · exact (certain_modify _).atomic
  · exact ((careful_nameText name).bind fun _ => careful_throw _).atomic

theorem certain_define (k : Key) (v : Value) : Certain (define k v) := by
  refine certain_frame.bind fun f => ?_
  split <;> exact certain_modify _

/-! ## Captured variables -/

theorem careful_upvalueCell (index : Nat) : Careful (upvalueCell index) :=
  careful_get.bind fun _ => careful_frame.bind fun _ => (careful_need _).bind fun _ => careful_need _

theorem careful_readUpvalue (cell : Ref) : Careful (readUpvalue cell) := by
  refine careful_get.bind fun m => (careful_need _).bind fun u => ?_
  split <;> exact careful_pure _

theorem certain_writeUpvalue (cell : Ref) (v : Value) : Certain (writeUpvalue cell v) := by
  refine certain_get.bind fun m => (certain_need _).bind fun u => ?_
  split
  · exact certain_modify _
  · exact certain_get.bind fun _ => .ite (certain_modify _) (certain_modify _)

theorem certain_captureCell (f : Frame) (c : Capture) : Certain (captureCell f c) := by
  refine .ite (certain_get.bind fun m => ?_) (certain_get.bind fun _ => (certain_need _).bind fun _ =>
    certain_need _)
  dsimp only
  split
  · exact certain_pure _
  · exact (certain_modifyGet _).bind fun cell => (certain_modify _).bind fun _ => certain_pure cell

theorem certain_makeClosure (prototype : Ref) (captures : List Capture) :
    Certain (makeClosure prototype captures) :=
  certain_frame.bind fun f => (certain_mapM (certain_captureCell f) captures).bind fun _ =>
    ((certain_modifyGet _).bind fun _ => certain_pure _).bind fun _ => certain_push _

theorem certain_closeTop : Certain closeTop :=
  certain_height.bind fun _ => (certain_modify _).bind fun _ => certain_pop.bind fun _ => certain_pure _

/-! ## Calls -/

theorem careful_guardDepth : Careful guardDepth :=
  careful_get.bind fun _ => .ite (careful_throw _) (careful_pure _)

theorem atomic_callClosure (closure : Ref) (argc : Nat) : Atomic (callClosure closure argc) := by
  refine .bind careful_guardDepth fun _ => .bind careful_get fun _ => .bind (careful_need _) fun c =>
    .bind careful_get fun _ => .bind (careful_need _) fun p => .bind careful_height fun _ => ?_
  have henter (first : Nat) (f : Frame) : Atomic (do
      modifyStack (fitArguments first p.arity)
      enter f) :=
    .bind (careful_modifyStack _) fun _ => (certain_modify _).atomic
  exact .ite (.bind (careful_valuesFrom _) fun _ => henter _ _)
    (.bind (careful_pure _) fun _ => henter _ _)

theorem certain_returnFromFrame : Certain returnFromFrame := by
  refine certain_pop.bind fun result => certain_frame.bind fun f => (certain_modify _).bind fun _ =>
    (certain_modify _).bind fun _ => (certain_modify _).bind fun _ => (certain_modify _).bind fun _ =>
    certain_get.bind fun _ => .ite (certain_modify _) ?_
  split
  · exact certain_push _
  · exact certain_push _
  · exact certain_pure _

/-! ## Builtins -/

theorem careful_numberArgument (args : Array Value) (i : Nat) (function : String) :
    Careful (numberArgument args i function) := by
  refine careful_get.bind fun m => ?_
  split
  · exact careful_pure _
  · exact careful_throw _

theorem careful_stringArgument (args : Array Value) (i : Nat) (function : String) :
    Careful (stringArgument args i function) := by
  refine careful_get.bind fun m => ?_
  split
  · exact careful_pure _
  · exact careful_throw _

theorem careful_joined (args : Array Value) : Careful (joined args) :=
  careful_get.bind fun _ => careful_pure _

theorem certain_randomFrom (low : Int) (count : Nat) : Certain (randomFrom low count) :=
  (certain_modifyGet _).bind fun _ => certain_pure _

theorem atomic_random (args : Array Value) : Atomic (random args) := by
  unfold random
  split
  · exact ((certain_modifyGet _).bind fun _ => certain_pure _).atomic
  · exact .bind (careful_numberArgument _ _ _) fun _ =>
      .ite (.bind (careful_throw _) fun _ => (certain_randomFrom _ _).atomic)
        (certain_randomFrom _ _).atomic
  · exact .bind (careful_numberArgument _ _ _) fun _ => .bind (careful_numberArgument _ _ _) fun _ =>
      .ite (.bind (careful_throw _) fun _ => (certain_randomFrom _ _).atomic)
        (certain_randomFrom _ _).atomic

theorem careful_lengthOf (v : Value) : Careful (lengthOf v) := by
  unfold lengthOf
  split
  · refine careful_get.bind fun m => ?_
    split
    · exact careful_pure _
    · exact careful_pure _
    · exact careful_pure _
    · exact careful_throw _
  · exact careful_throw _

theorem careful_toNumber (v : Value) : Careful (toNumber v) := by
  refine careful_heap.bind fun h => ?_
  split
  · exact careful_pure _
  · exact careful_pure _
  · dsimp only
    split
    · exact careful_pure _
    · exact careful_throw _

theorem careful_ofNumber (function : String) (f : Float → Float) (args : Array Value) :
    Careful (ofNumber function f args) :=
  (careful_numberArgument _ _ _).bind fun _ => careful_pure _

/-- A builtin looks at its arguments first. What it changes it changes at the end. -/
theorem atomic_runBuiltin (b : Builtin) (args : Array Value) : Atomic (runBuiltin b args) := by
  have hwrite (text : String) (v : Value) : Certain (do write text; return v) :=
    (certain_modify _).bind fun _ => certain_pure _
  cases b
  case print | println => exact .bind (careful_joined args) fun _ => (hwrite _ _).atomic
  case len => exact ((careful_lengthOf _).bind fun _ => careful_pure _).atomic
  case type | str => exact (careful_get.bind fun _ => careful_internValue _).atomic
  case num | int => exact ((careful_toNumber _).bind fun _ => careful_pure _).atomic
  case bool => exact (careful_pure _).atomic
  case clock | time | memory => exact (careful_get.bind fun _ => careful_pure _).atomic
  case wait =>
    exact .bind (careful_numberArgument _ _ _) fun _ =>
      ((certain_modify _).bind fun _ => certain_pure _).atomic
  case throw => exact .bind (careful_joined args) fun _ => (careful_throw _).atomic
  case gc => exact ((certain_modifyGet _).bind fun _ => certain_pure _).atomic
  case rand => exact atomic_random args
  case floor | ceil | round | sqrt | abs => exact (careful_ofNumber _ _ args).atomic

theorem atomic_runNative (n : Native) (args : Array Value) : Atomic (runNative n args) := by
  unfold runNative
  split
  · exact atomic_runBuiltin _ args
  · refine .bind careful_get fun m => ?_
    split
    · exact (careful_pure _).atomic
    · exact (careful_throw _).atomic

/-! ## Methods of lists, dictionaries and strings -/

/-- A copy changes nothing that was there. By induction on the levels. -/
theorem careful_deepCopy (levels : Nat) : ∀ v, Careful (deepCopy levels v) := by
  induction levels with
  | zero => exact fun v => careful_pure v
  | succ levels ih =>
    intro v
    cases v with
    | obj r =>
      refine careful_get.bind fun m => ?_
      split
      · exact (careful_mapM ih _).bind fun _ => careful_allocValue _
      · exact (careful_mapM ih _).bind fun _ => careful_allocValue _
      · exact careful_pure _
    | _ => exact careful_pure _

theorem careful_indexArgument (args : Array Value) (i size : Nat) (allowEnd : Bool)
    (function : String) : Careful (indexArgument args i size allowEnd function) :=
  (careful_numberArgument _ _ _).bind fun _ =>
    .ite ((careful_throw _).bind fun _ => careful_pure _) (careful_pure _)

theorem careful_listItems (r : Ref) : Careful (listItems r) :=
  careful_get.bind fun _ => careful_need _

theorem careful_dictOf (r : Ref) : Careful (dictOf r) := by
  refine careful_get.bind fun m => ?_
  split
  · exact careful_pure _
  · exact careful_throw _

theorem careful_listIndex (r : Ref) (args : Array Value) (i : Nat) (allowEnd : Bool)
    (function : String) : Careful (listIndex r args i allowEnd function) :=
  (careful_listItems r).bind fun _ => careful_indexArgument _ _ _ _ _

theorem careful_internList (texts : List String) : Careful (internList texts) :=
  (careful_mapM careful_internValue texts).bind fun _ => careful_allocValue _

/-- A list is changed last. -/
theorem certain_modifyList (r : Ref) (f : Array Value → Array Value) (v : Value) :
    Certain (do modifyList r f; return v) :=
  (certain_modify _).bind fun _ => certain_pure v

/-- A method of a list checks its arguments before it writes the list. -/
theorem atomic_listMethod (r : Ref) (name : String) (args : Array Value) :
    Atomic (listMethod r name args) := by
  unfold listMethod
  split
  · exact (certain_modifyList _ _ _).atomic
  · exact (certain_modifyList _ _ _).atomic
  · refine .bind (careful_listItems r) fun items => ?_
    split
    · exact (certain_modifyList _ _ _).atomic
    · exact (careful_throw _).atomic
  · exact .bind (careful_listIndex _ _ _ _ _) fun _ => (certain_modifyList _ _ _).atomic
  · exact .bind (careful_listIndex _ _ _ _ _) fun _ => .bind (careful_listItems r) fun _ =>
      .bind (careful_need _) fun _ => (certain_modifyList _ _ _).atomic
  · exact ((careful_listItems r).bind fun _ => careful_heap.bind fun _ => careful_pure _).atomic
  · refine ((careful_listItems r).bind fun _ => careful_heap.bind fun _ => ?_).atomic
    split <;> exact careful_pure _
  · exact ((careful_listItems r).bind fun _ => careful_allocValue _).atomic
  · exact (careful_deepCopy _ _).atomic
  · have hjoin (separator : String) : Careful (do
        let items ← listItems r
        let h ← heap
        internValue (String.intercalate separator (items.toList.map h.display))) :=
      (careful_listItems r).bind fun _ => careful_heap.bind fun _ => careful_internValue _
    dsimp only
    split
    · exact ((careful_pure _).bind hjoin).atomic
    · exact ((careful_stringArgument _ _ _).bind hjoin).atomic
  · exact .bind (careful_listIndex _ _ _ _ _) fun _ => .bind (careful_listIndex _ _ _ _ _) fun _ =>
      (certain_modifyList _ _ _).atomic
  · exact (certain_modifyList _ _ _).atomic
  · exact (careful_throw _).atomic

/-- And so does one of a dict. -/
theorem atomic_dictMethod (r : Ref) (name : String) (args : Array Value) :
    Atomic (dictMethod r name args) := by
  unfold dictMethod
  split
  · exact ((careful_stringArgument _ _ _).bind fun _ => (careful_dictOf r).bind fun _ =>
      careful_pure _).atomic
  · exact ((careful_dictOf r).bind fun _ => careful_internList _).atomic
  · exact ((careful_dictOf r).bind fun _ => careful_allocValue _).atomic
  · exact .bind (careful_stringArgument _ _ _) fun _ => .bind (careful_dictOf r) fun _ =>
      ((certain_modify _).bind fun _ => certain_pure _).atomic
  · exact ((careful_stringArgument _ _ _).bind fun _ => (careful_dictOf r).bind fun _ =>
      careful_pure _).atomic
  · exact ((careful_dictOf r).bind fun _ => careful_allocValue _).atomic
  · exact (careful_deepCopy _ _).atomic
  · exact (careful_throw _).atomic

theorem careful_stringMethod (text name : String) (args : Array Value) :
    Careful (stringMethod text name args) := by
  have harg (i : Nat) : Careful (stringArgument args i name) := careful_stringArgument args i name
  unfold stringMethod
  split
  · exact careful_internValue _
  · exact careful_internValue _
  · exact careful_internValue _
  · exact (harg 0).bind fun _ => (harg 1).bind fun _ => careful_internValue _
  · split
    · exact careful_internList _
    · exact (harg 0).bind fun _ => careful_internList _
  · exact (harg 0).bind fun _ => careful_pure _
  · exact (harg 0).bind fun _ => careful_pure _
  · exact (harg 0).bind fun _ => careful_pure _
  · refine (harg 0).bind fun _ => ?_
    split <;> exact careful_pure _
  · exact careful_throw _

theorem atomic_runMethod (r : Ref) (name : String) (args : Array Value) :
    Atomic (runMethod r name args) := by
  refine .bind careful_get fun m => ?_
  split
  · exact atomic_listMethod r name args
  · exact atomic_dictMethod r name args
  · exact (careful_stringMethod _ name args).atomic
  · exact (careful_throw _).atomic

/-! ## Callees -/

theorem atomic_callNative (n : Native) (argc : Nat) : Atomic (callNative n argc) :=
  .bind careful_height fun _ => .bind (careful_valuesFrom _) fun args =>
    (atomic_runNative n args).before fun _ => (certain_modify _).bind fun _ => certain_push _

theorem atomic_instantiate (classRef : Ref) (argc : Nat) : Atomic (instantiate classRef argc) := by
  refine .bind careful_get fun _ => .bind (careful_need _) fun c => .bind (careful_alloc _) fun _ =>
    .bind careful_height fun _ => .bind (careful_setStackAt _ _) fun _ => .bind careful_get fun m =>
    .bind (careful_key _) fun k => .bind (careful_searched _ _) fun found => ?_
  split
  · exact atomic_callClosure _ argc
  · exact (Careful.ite (careful_throw _) (careful_pure _)).atomic

/-- One case for each kind of callee. -/
theorem atomic_callValue (callee : Value) (argc : Nat) : Atomic (callValue callee argc) := by
  unfold callValue
  split
  · refine .bind careful_get fun m => ?_
    split
    · exact atomic_callClosure _ argc
    · exact atomic_callNative _ argc
    · exact atomic_instantiate _ argc
    · exact .bind careful_height fun _ => .bind (careful_setStackAt _ _) fun _ =>
        atomic_callClosure _ argc
    · exact (careful_throw _).atomic
  · exact (careful_throw _).atomic

theorem atomic_callInstead (v : Value) (argc : Nat) : Atomic (callInstead v argc) :=
  .bind careful_height fun _ => .bind (careful_setStackAt _ _) fun _ => atomic_callValue v argc

/-! ## Methods and properties -/

theorem careful_noProperty (name : Ref) : Careful (noProperty name : Exec α) :=
  (careful_nameText name).bind fun _ => careful_throw _

theorem careful_extension? (target : Value) (name : Ref) : Careful (extension? target name) :=
  (careful_key name).bind fun _ => careful_get.bind fun _ => careful_pure _

theorem atomic_invokeOnClass (classRef name : Ref) (argc : Nat) :
    Atomic (invokeOnClass classRef name argc) := by
  refine .bind (careful_key name) fun k => .bind careful_heap fun h =>
    .bind (careful_searched _ _) fun found => ?_
  split
  · exact atomic_callClosure _ argc
  · exact atomic_callInstead _ argc
  · refine .bind (careful_extension? _ name) fun found => ?_
    split
    · exact atomic_callClosure _ argc
    · exact (careful_noProperty name).atomic

theorem atomic_invokeOnPackage (p : Package) (name : Ref) (argc : Nat) :
    Atomic (invokeOnPackage p name argc) := by
  refine .bind (careful_key name) fun k => ?_
  split
  · exact atomic_callInstead _ argc
  · exact (careful_noProperty name).atomic

theorem atomic_invokeOnInstance (target name : Ref) (argc : Nat) :
    Atomic (invokeOnInstance target name argc) := by
  refine .bind (careful_extension? _ name) fun found => ?_
  split
  · exact atomic_callClosure _ argc
  · refine .bind (careful_key name) fun k => .bind careful_heap fun h => .bind (careful_need _)
      fun i => .bind (careful_searched _ _) fun found => ?_
    split
    · exact atomic_callClosure _ argc
    · exact atomic_callInstead _ argc
    · exact (careful_noProperty name).atomic

theorem atomic_invokeBuiltin (target : Value) (name : Ref) (argc : Nat) :
    Atomic (invokeBuiltin target name argc) := by
  refine .bind (careful_extension? target name) fun found => ?_
  split
  · exact atomic_callClosure _ argc
  · split
    · refine .bind careful_height fun _ => .bind (careful_nameText name) fun text =>
        .bind (careful_valuesFrom _) fun args => ?_
      exact (atomic_runMethod _ text args).before fun _ => (certain_modify _).bind fun _ =>
        certain_push _
    · exact (careful_throw _).atomic

theorem atomic_invoke (name : Ref) (argc : Nat) : Atomic (invoke name argc) := by
  refine .bind (careful_peek argc) fun target => ?_
  split
  · refine .bind careful_get fun m => ?_
    split
    · exact atomic_invokeOnClass _ name argc
    · exact atomic_invokeOnPackage _ name argc
    · exact atomic_invokeOnInstance _ name argc
    · exact atomic_invokeBuiltin _ name argc
  · exact atomic_invokeBuiltin _ name argc

theorem careful_superMethod (superclass : Value) (name : Ref) :
    Careful (superMethod superclass name) := by
  refine careful_get.bind fun m => ?_
  split
  · exact careful_throw _
  · refine careful_get.bind fun m => (careful_key name).bind fun k =>
      (careful_searched _ _).bind fun found => ?_
    split
    · exact careful_pure _
    · exact careful_noProperty name

theorem atomic_invokeSuper (superclass : Value) (name : Ref) (argc : Nat) :
    Atomic (invokeSuper superclass name argc) :=
  .bind (careful_superMethod superclass name) fun _ => atomic_callClosure _ argc

theorem careful_bindMethod (target : Value) (method : Ref) : Careful (bindMethod target method) :=
  careful_allocValue _

theorem careful_instanceProperty (r : Ref) (i : InstanceObj) (name : Ref) :
    Careful (instanceProperty r i name) := by
  refine (careful_key name).bind fun k => ?_
  split
  · exact careful_pure _
  · refine careful_heap.bind fun h => (careful_searched _ _).bind fun found => ?_
    split
    · exact careful_bindMethod _ _
    · exact careful_pure _
    · exact careful_noProperty name

theorem careful_classProperty (r name : Ref) : Careful (classProperty r name) := by
  refine (careful_key name).bind fun k => careful_heap.bind fun h =>
    (careful_searched _ _).bind fun found => ?_
  split
  · exact careful_pure _
  · exact careful_pure _
  · exact careful_noProperty name

theorem careful_taskProperty (t : TaskHandle) (name : Ref) : Careful (taskProperty t name) := by
  refine (careful_nameText name).bind fun text => ?_
  split
  · exact careful_pure _
  · exact careful_pure _
  · exact careful_pure _
  · exact careful_pure _
  · exact careful_noProperty name

theorem careful_memberProperty (e : EnumMember) (name : Ref) : Careful (memberProperty e name) := by
  refine (careful_nameText name).bind fun text => ?_
  split
  · exact careful_pure _
  · exact careful_pure _
  · exact careful_noProperty name

theorem careful_tableProperty (t : Table Value) (name : Ref) : Careful (tableProperty t name) := by
  refine (careful_key name).bind fun k => ?_
  split
  · exact careful_pure _
  · exact careful_noProperty name

theorem careful_getProperty (target : Value) (name : Ref) : Careful (getProperty target name) := by
  unfold getProperty
  split
  · refine careful_get.bind fun m => ?_
    split
    · exact careful_instanceProperty _ _ name
    · exact careful_classProperty _ name
    · exact careful_tableProperty _ name
    · exact careful_memberProperty _ name
    · exact careful_tableProperty _ name
    · exact careful_taskProperty _ name
    · exact careful_throw _
  · exact careful_throw _

theorem atomic_setProperty (target : Value) (name : Ref) (v : Value) :
    Atomic (setProperty target name v) := by
  unfold setProperty
  split
  · exact .bind (careful_key name) fun _ => .bind careful_get fun _ =>
      .ite (certain_modify _).atomic (careful_throw _).atomic
  · exact (careful_throw _).atomic

/-! ## Operators -/

theorem careful_operatorMethod? (target : Value) (symbol : String) :
    Careful (operatorMethod? target symbol) := by
  unfold operatorMethod?
  split
  · refine careful_get.bind fun m => ?_
    split
    · exact (careful_intern symbol).bind fun r => (careful_key r).bind fun _ =>
        careful_get.bind fun _ => careful_searched _ _
    · exact careful_pure _
  · exact careful_pure _

theorem atomic_overloaded (target : Value) (symbol : String) (argc : Nat) (otherwise : Fault) :
    Atomic (overloaded target symbol argc otherwise) := by
  refine .bind (careful_operatorMethod? target symbol) fun found => ?_
  split
  · exact atomic_callClosure _ argc
  · exact (careful_throw _).atomic

theorem careful_concatPieces (count : Nat) : Careful (concatPieces count) :=
  careful_height.bind fun _ => (careful_valuesFrom _).bind fun _ => (careful_joined _).bind fun _ =>
    (careful_modifyStack _).bind fun _ => (careful_internValue _).bind fun _ => careful_push _

theorem careful_elementwise (op : Arithmetic) : Careful (elementwise op) := by
  refine (careful_peek 1).bind fun a => (careful_peek 0).bind fun b => careful_heap.bind fun h => ?_
  split
  · exact (careful_modifyStack _).bind fun _ => (careful_allocValue _).bind fun _ => careful_push _
  · exact careful_throw _

theorem atomic_addition (a b : Value) : Atomic (addition a b) := by
  refine .bind careful_heap fun h => .ite ?_ ?_
  · exact ((careful_modifyStack _).bind fun _ => (careful_internValue _).bind fun _ =>
      careful_push _).atomic
  · split
    · exact ((careful_modifyStack _).bind fun _ => (careful_allocValue _).bind fun _ =>
        careful_push _).atomic
    · exact atomic_overloaded _ _ _ _

theorem atomic_arithmetic (op : Arithmetic) : Atomic (arithmetic op) := by
  refine .bind (careful_peek 1) fun a => .bind (careful_peek 0) fun b => .bind careful_heap fun h => ?_
  split
  · exact (careful_replaceTop _ _).atomic
  · split
    · exact atomic_addition a b
    · exact atomic_overloaded _ _ _ _

theorem careful_compare (o : Comparison) : Careful (compare o) := by
  refine (careful_peek 1).bind fun a => (careful_peek 0).bind fun b => careful_heap.bind fun h => ?_
  split
  · exact careful_replaceTop _ _
  · split
    · exact careful_replaceTop _ _
    · exact careful_throw _

theorem careful_bitwise (op : Bitwise) : Careful (bitwise op) := by
  refine (careful_peek 1).bind fun a => (careful_peek 0).bind fun b => careful_heap.bind fun h => ?_
  split
  · exact careful_replaceTop _ _
  · exact careful_throw _

theorem careful_increase (delta : Float) : Careful (increase delta) := by
  refine careful_get.bind fun m => (careful_peek 0).bind fun v => ?_
  split
  · exact careful_replaceTop _ _
  · exact careful_throw _

theorem atomic_negateTruth : Atomic negateTruth := by
  refine .bind (careful_peek 0) fun v => .bind (careful_operatorMethod? v _) fun found => ?_
  split
  · exact atomic_callClosure _ 0
  · exact (careful_replaceTop _ _).atomic

theorem atomic_negate : Atomic negate := by
  refine .bind (careful_peek 0) fun v => .bind careful_get fun m => ?_
  split
  · exact (careful_replaceTop _ _).atomic
  · exact atomic_overloaded _ _ _ _

theorem careful_equality : Careful equality :=
  careful_pop.bind fun _ => careful_pop.bind fun _ => careful_get.bind fun _ => careful_push _

theorem careful_rangeItems (characters : Bool) (numbers : Array Float) :
    Careful (rangeItems characters numbers) :=
  .ite ((careful_mapM careful_internValue _).bind fun _ => careful_pure _) (careful_pure _)

theorem careful_expand (exclusive : Bool) : Careful (expand exclusive) := by
  refine careful_pop.bind fun third => careful_pop.bind fun second => careful_pop.bind fun first => ?_
  refine careful_heap.bind fun h => ?_
  split
  · split
    · exact careful_throw _
    · dsimp only
      split
      · exact careful_throw _
      · exact (careful_rangeItems _ _).bind fun _ => (careful_allocValue _).bind fun _ => careful_push _
  · exact careful_throw _

theorem careful_membership : Careful membership := by
  refine careful_pop.bind fun container => careful_pop.bind fun item => careful_heap.bind fun h => ?_
  split
  · exact careful_push _
  · exact careful_throw _

theorem careful_testType (v : Value) (name : String) : Careful (testType v name) := by
  refine careful_heap.bind fun h => ?_
  dsimp only
  split
  · split
    · exact ((careful_searched _ _).bind fun _ => careful_pure _).bind fun _ => careful_pure _
    · exact careful_pure _
  · exact careful_pure _

theorem atomic_subscript : Atomic subscript := by
  refine .bind (careful_peek 1) fun container => .bind (careful_peek 0) fun index => ?_
  split
  · refine .bind careful_heap fun h => ?_
    split
    · exact atomic_overloaded _ _ _ _
    · split
      · exact (careful_replaceTop _ _).atomic
      · exact ((careful_allocValue _).bind fun _ => careful_replaceTop _ _).atomic
      · exact ((careful_internValue _).bind fun _ => careful_replaceTop _ _).atomic
      · exact (careful_throw _).atomic
    · exact (careful_throw _).atomic
  · exact (careful_throw _).atomic

/-- The index is checked before the item is written. -/
theorem atomic_subscriptAssign : Atomic subscriptAssign := by
  refine .bind (careful_peek 2) fun container => .bind (careful_peek 1) fun index =>
    .bind (careful_peek 0) fun value => ?_
  split
  · refine .bind careful_heap fun h => ?_
    split
    · dsimp only
      split
      · exact (careful_throw _).atomic
      · split
        · exact (careful_throw _).atomic
        · exact ((certain_modify _).bind fun _ => certain_replaceTop _ _).atomic
    · split
      · exact ((certain_modify _).bind fun _ => certain_replaceTop _ _).atomic
      · exact (careful_throw _).atomic
    · exact atomic_overloaded _ _ _ _
    · exact (careful_throw _).atomic
    · exact (careful_throw _).atomic
  · exact (careful_throw _).atomic

theorem certain_addItem : Certain addItem := by
  refine certain_pop.bind fun item => (certain_peek 0).bind fun v => ?_
  split
  · refine certain_heap.bind fun h => ?_
    split
    · exact certain_modify _
    · exact certain_stuck
  · exact certain_pure _

theorem atomic_addEntry : Atomic addEntry := by
  refine .bind careful_pop fun item => .bind careful_get fun m => .bind careful_pop fun k => ?_
  split
  · exact (careful_throw _).atomic
  · refine .bind (careful_peek 0) fun v => ?_
    split
    · refine .bind careful_heap fun h => ?_
      split
      · exact (certain_modify _).atomic
      · exact (careful_throw _).atomic
    · exact (careful_pure _).atomic

/-! ## Declarations -/

theorem atomic_keepAnswer : Atomic keepAnswer :=
  .bind careful_pop fun _ => .bind careful_frame fun _ => .ite
    (.bind careful_get fun _ => .bind (careful_key _) fun _ => (certain_modify _).atomic)
    (careful_pure _).atomic

theorem careful_newClass (name : Ref) : Careful (newClass name) :=
  careful_frame.bind fun _ => (careful_allocValue _).bind fun _ => careful_push _

theorem careful_newEnumeration (name : Ref) : Careful (newEnumeration name) :=
  (careful_allocValue _).bind fun _ => careful_push _

theorem atomic_inherit : Atomic inherit := by
  refine .bind careful_pop fun subclass => .bind careful_get fun m => .bind (careful_peek 0) fun v => ?_
  split
  · exact (careful_throw _).atomic
  · exact .bind careful_get fun _ => .bind (careful_need _) fun _ => .bind careful_get fun _ =>
      .bind (careful_need _) fun _ => (certain_modify _).atomic

theorem certain_defineMethod (name : Ref) : Certain (defineMethod name) := by
  refine certain_pop.bind fun method => certain_pop.bind fun owner => (certain_key name).bind fun k =>
    certain_get.bind fun m => ?_
  split
  · exact certain_modify _
  · exact certain_pure _

theorem atomic_defineMember (owner name : Ref) (given last : Value) :
    Atomic (defineMember owner name given last) := by
  unfold defineMember
  split
  · exact ((careful_nameText name).bind fun _ => careful_throw _).atomic
  · exact .bind (careful_key name) fun _ => .bind (careful_alloc _) fun _ => (certain_modify _).atomic

theorem atomic_defineProperty (name : Ref) (isStatic : Bool) :
    Atomic (defineProperty name isStatic) := by
  refine .bind careful_pop fun value => .bind careful_pop fun owner => ?_
  split
  · refine .bind careful_get fun m => ?_
    split
    · exact .bind (careful_key name) fun _ => (certain_modify _).atomic
    · exact atomic_defineMember _ name _ _
    · exact (careful_throw _).atomic
  · exact (careful_throw _).atomic

theorem atomic_defineExtension (type name : Ref) : Atomic (defineExtension type name) := by
  refine .bind careful_pop fun method => .bind (careful_key name) fun k =>
    .bind (careful_nameText type) fun text => .ite (certain_modify _).atomic ?_
  refine .bind (careful_readGlobal? type) fun found => ?_
  split
  · exact (careful_throw _).atomic
  · refine .bind careful_get fun m => ?_
    split
    · exact (certain_modify _).atomic
    · exact (careful_throw _).atomic

/-! ## Files -/

theorem careful_loadSource (path : String) : Careful (loadSource path) := by
  refine careful_get.bind fun m => .bind (fun _ ht => .withLoads ht _) fun _ => ?_
  split
  · exact careful_pure _
  · exact careful_throw _

theorem careful_newPackage (name : String) (parent : Option Ref) : Careful (newPackage name parent) :=
  (careful_intern name).bind fun _ => careful_alloc _

theorem careful_compileSource (source path : String) : Careful (compileSource source path) := by
  refine .bind (fun m ht => ?_) fun result => ?_
  · exact .withHeap (ht.compile source path).1 (ht.compile source path).2
  · split
    · exact careful_pure _
    · exact careful_throw _

theorem atomic_enterFile (source path : String) (package : Option Ref) (required : Bool) :
    Atomic (enterFile source path package required) :=
  .bind careful_guardDepth fun _ => .bind (careful_compileSource source path) fun _ =>
    .bind careful_get fun _ => .bind (careful_need _) fun _ => .bind (careful_alloc _) fun _ =>
    .bind (careful_push _) fun _ => .bind careful_height fun _ => (certain_modify _).atomic

theorem atomic_requireFile : Atomic requireFile := by
  refine .bind careful_get fun m => .bind careful_pop fun v => ?_
  split
  · exact (careful_throw _).atomic
  · exact .bind (careful_loadSource _) fun _ => .bind careful_frame fun _ =>
      .bind (careful_newPackage _ _) fun _ => atomic_enterFile _ _ _ _

/-! ## Tasks and handlers -/

theorem certain_spawn (closure : Ref) : Certain (spawn closure) := by
  refine certain_get.bind fun _ => ?_
  extract_lets id starts
  have hstarts (u : Unit) : Certain (starts u) :=
    (certain_modify _).bind fun _ => (certain_modifyGet _).bind fun _ =>
      (certain_modifyGet _).bind fun _ => certain_get.bind fun _ => (certain_need _).bind fun _ =>
      certain_get.bind fun _ => (certain_need _).bind fun _ => (certain_modify _).bind fun _ =>
      certain_pure _
  exact .ite (certain_stuck.bind fun _ => hstarts ()) (hstarts ())

theorem certain_spawnTop : Certain spawnTop := by
  refine certain_pop.bind fun v => ?_
  split
  · exact (certain_spawn _).bind fun _ => certain_push _
  · exact certain_stuck

/-- Only the running task refuses to be aborted, and then nothing has been done. -/
theorem atomic_abort (handle : Ref) : Atomic (abort handle) := by
  have hends (t : Fiber) (id : Nat) : Certain (do
      modify fun m : Machine => { m with
        queue := m.queue.eraseP fun t => t.id = id
        heap := (t.reset m.heap).2 }
      modify fun m : Machine => m.endTask id handle .aborted .none) :=
    (certain_modify _).bind fun _ => certain_modify _
  refine .bind careful_get fun _ => .bind (careful_need _) fun target => .bind careful_get fun m => ?_
  extract_lets finds
  have hfinds (u : Unit) : Certain (finds u) := by
    refine certain_get.bind fun m => ?_
    split
    · exact certain_pure _
    · exact hends _ _
  exact .ite (.bind (careful_throw _) fun _ => (hfinds ()).atomic) (hfinds ()).atomic

theorem atomic_abortTop : Atomic abortTop := by
  refine .bind careful_pop fun v => ?_
  split
  · exact .bind careful_get fun _ => .ite (atomic_abort _) (careful_throw _).atomic
  · exact (careful_throw _).atomic

/-- A refused await leaves the handle on the stack and the task as it was. -/
theorem atomic_awaitTask : Atomic awaitTask := by
  refine .bind (careful_peek 0) fun v => ?_
  split
  · refine .bind careful_get fun m => ?_
    split
    · exact (careful_throw _).atomic
    · split
      · exact .bind careful_get fun _ => .ite (careful_throw _).atomic
          ((certain_modify _).bind fun _ => certain_modify _).atomic
      · exact (careful_replaceTop _ _).atomic
      · exact (careful_replaceTop _ _).atomic
  · exact (careful_throw _).atomic

/-! ## Instructions -/

theorem atomic_arithmeticStep (op : Arithmetic) (i : Instruction) : Atomic (arithmeticStep op i) :=
  .ite (careful_elementwise op).atomic (atomic_arithmetic op)

/-- **`atomic_execute`** — every instruction but an import is atomic. -/
theorem atomic_execute (i : Instruction) (hi : i.op ≠ .importFile) : Atomic (execute i) := by
  obtain ⟨op, first, second, captures⟩ := i
  have hname (n : Nat) : Careful (nameConstant n) := careful_nameConstant n
  -- one case for each operation; its definition tells what goes before and what follows
  cases op
  case constant => exact ((careful_constant first).bind fun _ => careful_push _).atomic
  case pushNull | pushTrue | pushFalse => exact (careful_push _).atomic
  case concat => exact (careful_concatPieces first).atomic
  case range => exact (careful_expand _).atomic
  case pop => exact (careful_pop.bind fun _ => careful_pure _).atomic
  case replPop => exact atomic_keepAnswer
  case getLocal =>
    exact (careful_frame.bind fun _ => (careful_stackAt _).bind fun _ => careful_push _).atomic
  case setLocal =>
    exact (careful_frame.bind fun _ => (careful_peek 0).bind fun _ => careful_setStackAt _ _).atomic
  case getGlobal =>
    exact ((hname first).bind fun r => (careful_getGlobal r).bind fun _ =>
      careful_push _).atomic
  case defineGlobal =>
    exact .bind (hname first) fun _ => .bind careful_pop fun _ =>
      .bind (careful_key _) fun _ => (certain_define _ _).atomic
  case defineGlobalForced =>
    exact .bind (hname first) fun _ => .bind careful_pop fun _ =>
      .bind (careful_key _) fun _ => (certain_modify _).atomic
  case setGlobal =>
    exact .bind (hname first) fun _ => .bind (careful_peek 0) fun _ =>
      atomic_setGlobal _ _
  case getUpvalue =>
    exact ((careful_upvalueCell first).bind fun _ => (careful_readUpvalue _).bind
      fun _ => careful_push _).atomic
  case setUpvalue =>
    exact .bind (careful_upvalueCell first) fun _ => .bind (careful_peek 0) fun _ =>
      (certain_writeUpvalue _ _).atomic
  case getProperty =>
    exact ((careful_peek 0).bind fun _ => (hname first).bind fun _ =>
      (careful_getProperty _ _).bind fun _ => careful_replaceTop _ _).atomic
  case getPropertyNoPop =>
    exact ((careful_peek 0).bind fun _ => (hname first).bind fun _ =>
      (careful_getProperty _ _).bind fun _ => careful_push _).atomic
  case setProperty =>
    exact .bind (careful_peek 0) fun _ => .bind (careful_peek 1) fun _ =>
      .bind (hname first) fun _ => (atomic_setProperty _ _ _).before fun _ => certain_replaceTop _ _
  case getSuper =>
    exact (careful_pop.bind fun _ => careful_pop.bind fun _ => (hname first).bind
      fun _ => (careful_superMethod _ _).bind fun _ => (careful_bindMethod _ _).bind fun _ =>
      careful_push _).atomic
  case equal => exact careful_equality.atomic
  case greater | less => exact (careful_compare _).atomic
  case add | subtract | multiply | divide | modulo | power => exact atomic_arithmeticStep _ _
  case inc | dec => exact (careful_increase _).atomic
  case shiftLeft | shiftRight | bitwiseAnd | bitwiseOr => exact (careful_bitwise _).atomic
  case contains => exact careful_membership.atomic
  case isType =>
    exact ((hname second).bind fun _ => (careful_nameText _).bind fun _ =>
      careful_pop.bind fun _ => (careful_testType _ _).bind fun _ => careful_push _).atomic
  case not => exact atomic_negateTruth
  case negate => exact atomic_negate
  case jump => exact (careful_modifyIp (· + first)).atomic
  case loop => exact (careful_modifyIp (· - first)).atomic
  case jumpIfFalse =>
    exact ((careful_peek 0).bind fun _ =>
      .ite (careful_modifyIp _) (careful_pure _)).atomic
  case dup => exact ((careful_peek 0).bind fun _ => careful_push _).atomic
  case importFile => exact absurd rfl hi
  case requireFile => exact atomic_requireFile
  case newList | newDict => exact ((careful_allocValue _).bind fun _ => careful_push _).atomic
  case addList => exact certain_addItem.atomic
  case addDict => exact atomic_addEntry
  case subscript => exact atomic_subscript
  case subscriptAssign => exact atomic_subscriptAssign
  case call => exact .bind (careful_peek first) fun _ => atomic_callValue _ first
  case invoke => exact .bind (hname second) fun _ => atomic_invoke _ first
  case superInvoke =>
    exact .bind (hname second) fun _ => .bind careful_pop fun _ =>
      atomic_invokeSuper _ _ first
  case closure => exact .bind (hname first) fun _ => (certain_makeClosure _ captures).atomic
  case closeUpvalue => exact certain_closeTop.atomic
  case ret => exact certain_returnFromFrame.atomic
  case classDef => exact ((hname first).bind fun _ => careful_newClass _).atomic
  case inherit => exact atomic_inherit
  case method => exact .bind (hname first) fun _ => (certain_defineMethod _).atomic
  case member => exact .bind (hname first) fun _ => atomic_defineProperty _ _
  case extend =>
    exact .bind (hname first) fun _ => .bind (hname second) fun _ =>
      atomic_defineExtension _ _
  case enumDef => exact ((hname first).bind fun _ => careful_newEnumeration _).atomic
  case spawn => exact certain_spawnTop.atomic
  case awaitTask => exact atomic_awaitTask
  case abortTask => exact atomic_abortTop
  case tryBegin => exact .bind careful_frame fun _ => (certain_modify _).atomic
  case tryEnd => exact ((certain_modify _).bind fun _ => certain_modify _).atomic
  case nop => exact (careful_pure _).atomic

end Exec

namespace Machine

/-- **`failed_step_spares`** — an instruction that ends with an error, unless it is an import, has
changed nothing but operands and the place where the activation goes on: globals, extensions, the other
tasks, handlers and captured variables are as they were, and so is every object that was there. -/
theorem failed_step_spares {e : Fault} (ht : m.heap.Tidy)
    (hnext : ∀ i, m.Next i → i.op ≠ .importFile) (hstep : Exec.step m = .error e m')
    (he : e.Reported) : m.Spares m' := by
  -- the activation moves past the instruction, then the instruction is executed
  have hexec : ∀ i, m.Next i → Exec.Atomic (do
      modify (·.elapse stepTime)
      Exec.modifyIp (· + i.width)
      Exec.execute i) := fun i hi =>
    .bind (fun _ ht => .withClock ht _) fun _ => .bind (Exec.careful_modifyIp (· + i.width)) fun _ =>
      Exec.atomic_execute i (hnext i hi)
  have hunknown (code : Nat) : Exec.Atomic (do
      Exec.modifyIp (· + 1)
      throw (.unknownOperation code) : Exec Unit) :=
    ((Exec.careful_modifyIp (· + 1)).bind fun _ => Exec.careful_throw _).atomic
  have hmeets : Exec.step.Meets m (fun _ _ => True) fun e m' => e.Reported → m.Spares m' := by
    cases hframes : m.fiber.frames with
    | nil =>
      -- no activation, so the machine is stuck
      have hstuck : Exec.frame m = .error .stuck m := by
        unfold Exec.frame
        rw [Exec.get_bind, hframes]
        rfl
      refine .bind ?_
      unfold Exec.Meets
      rw [hstuck]
      exact fun h => absurd rfl h.1
    | cons f rest =>
      unfold Exec.step Exec.Meets
      rw [Exec.bind_ok (Exec.frame_eq hframes), Exec.bind_ok (Exec.heap_eq m)]
      cases hi : f.chunk.instruction? m.heap f.ip with
      | some i => exact hexec i ⟨f, rest, hframes, hi⟩ m ht
      | none => exact hunknown _ m ht
  unfold Exec.Meets at hmeets
  rw [hstep] at hmeets
  exact hmeets he

/-- A machine about to call a class that has no initialiser, with an argument. -/
def strayArgument : Machine :=
  let m := bare {} default
  let (r, heap) := m.heap.alloc (.classObj
    { name := m.names.name, superclass := none, methods := .empty, fields := .empty,
      statics := .empty, package := none })
  let frame : Frame :=
    { closure := r, chunk := { Chunk.empty with code := #[Operation.call.code, 1] }, ip := 0, base := 0,
      package := none, kind := .function, args := #[] }
  { m with heap, fiber := { m.fiber with stack := #[.none, .obj r, .bool true], frames := [frame] } }

theorem failed_step_spares_strayArgument :
    strayArgument.heap.Tidy ∧ (∀ i, strayArgument.Next i → i.op ≠ .importFile) ∧
      ∃ m', Exec.step strayArgument = .error (.unexpectedArguments 1) m' ∧
        strayArgument.Spares m' := by
  have htidy : strayArgument.heap.Tidy := by
    have hinit := ((Heap.new_tidy {}).intern "init").1
    have hargs := (hinit.intern "__args__").1
    have hanswer := (hargs.intern "__ans__").1
    have hname := (hanswer.intern "__name__").1
    have htask := (hname.intern "default").1
    exact (htask.alloc _).alloc _
  have hnext : ∀ i, strayArgument.Next i → i.op ≠ .importFile := by
    rintro i ⟨f, rest, hframes, hi⟩
    obtain ⟨rfl, -⟩ := List.cons.inj hframes
    obtain rfl := Option.some.inj hi
    exact nofun
  exact ⟨htidy, hnext, _, rfl, failed_step_spares htidy hnext rfl ⟨nofun, nofun⟩⟩

end Machine

end ScriptMachine
