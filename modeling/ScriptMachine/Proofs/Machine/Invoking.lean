import Mathlib
import ScriptMachine.Proofs.Machine.Bindings
import ScriptMachine.Proofs.Machine.Control
import ScriptMachine.Proofs.Machine.Upholding
import ScriptMachine.Proofs.Renaming.Stepping

/-!
# ScriptMachine.Proofs.Machine.Invoking — calling a method and calling what reading it gives

A method call on an instance looks the method up and calls it with the receiver in the callee slot; no
bound method is made. Reading the property instead and calling what has been read goes a longer way:
a bound method is allocated and put in the callee slot, and the call takes the receiver out of it
again. Both ways come to the same activation, the same stack and the same error. All that is left of
the longer one is the bound method in the heap, in a slot that was vacant.

The two searches differ in their order: a call prefers extensions and methods to fields, reading
prefers fields and knows statics. They part where one name stands for two of these, and nowhere else.

`methodCalls_agree` compares both ways for instances and for superclasses. `sameButBound_bind` is the step
that matters: to bind a method to the value in the callee slot and to call it there is to call it.
`SameButBound` is the comparison of outcomes, including those with an error, up to one bound method in
the heap. `Unambiguous` is the condition under which the two searches cannot part: the name is neither an
extension nor a static, and not both a field and a method.
-/

namespace ScriptMachine

variable {m : Machine} {b : BoundMethod} {r method name : Ref} {k : Key} {argc : Nat}
  {target v : Value} {i : InstanceObj}

/-! ## One more bound method -/

namespace Heap

variable {h : Heap}

/-- A new bound method stands in no other object's place. -/
theorem Tidy.get?_alloc_boundMethod (ht : h.Tidy) (b : BoundMethod) (r : Ref) :
    (h.alloc (.boundMethod b)).2.get? r = h.get? r ∨
      h.get? r = none ∧ (h.alloc (.boundMethod b)).2.get? r = some (.boundMethod b) := by
  rw [ht.get?_alloc]
  split
  · rename_i hr
    exact .inr ⟨hr ▸ ht.get?_alloc_fst _, rfl⟩
  · exact .inl rfl

/-- A bound method is none of the objects there were, and no closure. -/
theorem Tidy.closure?_alloc_boundMethod (ht : h.Tidy) (b : BoundMethod) (r : Ref) :
    (h.alloc (.boundMethod b)).2.closure? r = h.closure? r := by
  unfold closure?
  rcases ht.get?_alloc_boundMethod b r with hget | ⟨hnone, hsome⟩
  · rw [hget]
  · rw [hnone, hsome]

theorem Tidy.prototype?_alloc_boundMethod (ht : h.Tidy) (b : BoundMethod) (r : Ref) :
    (h.alloc (.boundMethod b)).2.prototype? r = h.prototype? r := by
  unfold prototype?
  rcases ht.get?_alloc_boundMethod b r with hget | ⟨hnone, hsome⟩
  · rw [hget]
  · rw [hnone, hsome]

end Heap

/-- **`m.withBound b`** — the machine with one more bound method in its heap. -/
def Machine.withBound (m : Machine) (b : BoundMethod) : Machine :=
  { m with heap := (m.heap.alloc (.boundMethod b)).2 }

namespace Exec

/-- **`SameButBound target x y`** — the two outcomes are the same, but a method bound to `target` may
have been left in the second heap. -/
inductive SameButBound (target : Value) :
    EStateM.Result Fault Machine Unit → EStateM.Result Fault Machine Unit → Prop
  | same (x : EStateM.Result Fault Machine Unit) : SameButBound target x x
  | ok (m : Machine) (method : Ref) :
    SameButBound target (.ok () m) (.ok () (m.withBound ⟨target, method⟩))
  | error (e : Fault) (m : Machine) (method : Ref) :
    SameButBound target (.error e m) (.error e (m.withBound ⟨target, method⟩))

/-! ## The longer ways -/

/-- **`callProperty name argc`** — reads a property of the value below the arguments, puts what it has
read in the place of that value and calls it. -/
def callProperty (name : Ref) (argc : Nat) : Exec Unit := do
  callInstead (← getProperty (← peek argc) name) argc

/-- **`callBoundSuper superclass name argc`** — binds a method of the superclass to the value below
the arguments, puts the bound method in its place and calls it. -/
def callBoundSuper (superclass : Value) (name : Ref) (argc : Nat) : Exec Unit := do
  let target ← peek argc
  let method ← superMethod superclass name
  callInstead (← bindMethod target method) argc

/-! ## Calls, in one piece -/

theorem need_bind {α β : Type} (o : Option α) (f : α → Exec β) (m : Machine) :
    (need o >>= f) m =
      match o with
      | some a => f a m
      | none => .error .stuck m := by
  cases o <;> rfl

/-- The machine in the activation of a closure. -/
def called (m : Machine) (closure : Ref) (c : Closure) (p : Prototype) (argc : Nat) : Machine :=
  let stack := m.fiber.stack
  let first := stack.size - argc
  let args := if readsArgs p.chunk then stack.extract first stack.size else #[]
  let f : Frame := { closure, chunk := p.chunk, ip := 0, base := first - 1, package := c.package,
                     kind := .function, args }
  { m with fiber := { m.fiber with
      stack := fitArguments first p.arity stack, frames := f :: m.fiber.frames } }

/-- A call of a closure: it fails at the depth limit, and otherwise enters the function with its
arguments fitted. -/
theorem callClosure_eq (m : Machine) (closure : Ref) (argc : Nat) : callClosure closure argc m =
    if m.config.maxFrames ≤ m.fiber.frames.length then .error .stackOverflow m
    else match m.heap.closure? closure with
      | none => .error .stuck m
      | some c => match m.heap.prototype? c.prototype with
        | none => .error .stuck m
        | some p => .ok () (called m closure c p argc) := by
  have hguard : guardDepth m = if m.config.maxFrames ≤ m.fiber.frames.length
      then .error .stackOverflow m else .ok () m := by
    unfold guardDepth
    rw [get_bind]
    split <;> rfl
  unfold callClosure
  split
  · rename_i hdepth
    rw [if_pos hdepth] at hguard
    exact bind_error hguard
  · rename_i hdepth
    rw [if_neg hdepth] at hguard
    rw [bind_ok hguard, get_bind, need_bind]
    cases m.heap.closure? closure with
    | none => rfl
    | some c =>
      dsimp only
      rw [get_bind, need_bind]
      cases m.heap.prototype? c.prototype with
      | none => rfl
      | some p =>
        unfold called
        cases hargs : readsArgs p.chunk <;> simp only [hargs] <;> rfl

/-- A call takes no notice of one more bound method. -/
theorem callClosure_withBound (ht : m.heap.Tidy) (b : BoundMethod) (closure : Ref) (argc : Nat) :
    callClosure closure argc (m.withBound b) =
      match callClosure closure argc m with
      | .ok () m' => .ok () (m'.withBound b)
      | .error e m' => .error e (m'.withBound b) := by
  have hclosure := ht.closure?_alloc_boundMethod b closure
  have hprototype := ht.prototype?_alloc_boundMethod b
  rw [callClosure_eq, callClosure_eq]
  simp only [Machine.withBound, hclosure, hprototype]
  split
  · rfl
  · cases m.heap.closure? closure with
    | none => rfl
    | some c =>
      dsimp only
      cases m.heap.prototype? c.prototype <;> rfl

/-- Calling a closure, before and after a method was bound to the value in the callee slot. -/
theorem sameButBound_callClosure (ht : m.heap.Tidy) (target : Value) (method : Ref) (argc : Nat) :
    SameButBound target (callClosure method argc m)
      (callClosure method argc (m.withBound ⟨target, method⟩)) := by
  rw [callClosure_withBound ht]
  cases callClosure method argc m with
  | ok _ m' => exact .ok m' method
  | error e m' => exact .error e m' method

/-! ## Bound methods -/

theorem peek_callee (htarget : m.operand? argc = some target) : peek argc m = .ok target m := by
  unfold Machine.operand? at htarget
  split at htarget
  · exact peek_eq ‹_› htarget
  · cases htarget

/-- The machine with another value in the callee slot. -/
def withCallee (m : Machine) (v : Value) (argc : Nat) : Machine :=
  { m with fiber := { m.fiber with
      stack := m.fiber.stack.setIfInBounds (m.fiber.stack.size - argc - 1) v } }

theorem withCallee_withCallee (m : Machine) (v w : Value) (argc : Nat) :
    withCallee (withCallee m v argc) w argc = withCallee m w argc := by
  simp [withCallee]

/-- The callee's slot holds the target already. -/
theorem withCallee_self (htarget : m.operand? argc = some target) :
    withCallee m target argc = m := by
  unfold Machine.operand? at htarget
  split at htarget
  · have hslot : m.fiber.stack.size - 1 - argc = m.fiber.stack.size - argc - 1 := by omega
    rw [hslot] at htarget
    obtain ⟨hlt, rfl⟩ := Array.getElem?_eq_some_iff.mp htarget
    unfold withCallee
    rw [Array.setIfInBounds_def, dif_pos hlt, Array.set_getElem_self]
  · cases htarget

theorem callInstead_eq (m : Machine) (v : Value) (argc : Nat) :
    callInstead v argc m = callValue v argc (withCallee m v argc) := rfl

/-- A bound method is called with its receiver in the callee's slot. -/
theorem callValue_boundMethod {bound : Ref} (hb : m.heap.get? bound = some (.boundMethod b)) :
    callValue (.obj bound) argc m = callClosure b.method argc (withCallee m b.receiver argc) := by
  unfold callValue
  dsimp only
  rw [get_bind, hb]
  rfl

theorem bindMethod_eq (m : Machine) (target : Value) (method : Ref) :
    bindMethod target method m = .ok (.obj (m.heap.alloc (.boundMethod ⟨target, method⟩)).1)
      (m.withBound ⟨target, method⟩) := rfl

/-- **`sameButBound_bind`** — to bind a method to the value in the callee slot and to call it there is
to call the method: the value comes back to its slot. -/
theorem sameButBound_bind (ht : m.heap.Tidy) (htarget : m.operand? argc = some target)
    (method : Ref) :
    SameButBound target (callClosure method argc m)
      ((do callInstead (← bindMethod target method) argc) m) := by
  have hget : (m.withBound ⟨target, method⟩).heap.get? _ = some (.boundMethod ⟨target, method⟩) :=
    ht.get?_alloc_self _
  have hbound : withCallee (m.withBound ⟨target, method⟩) target argc =
      m.withBound ⟨target, method⟩ := withCallee_self htarget
  have hget' : (withCallee (m.withBound ⟨target, method⟩)
      (.obj (m.heap.alloc (.boundMethod ⟨target, method⟩)).1) argc).heap.get? _ =
      some (.boundMethod ⟨target, method⟩) := hget
  rw [bind_ok (bindMethod_eq m target method), callInstead_eq, callValue_boundMethod hget',
    withCallee_withCallee, hbound]
  exact sameButBound_callClosure ht target method argc

/-! ## Searches -/

theorem noProperty_eq {α : Type} (m : Machine) (name : Ref) :
    (noProperty name : Exec α) m = .error (.undefinedProperty (m.heap.name name)) m := rfl

/-- Extensions are looked up by the name of the value's type. -/
theorem extension?_eq (hk : m.heap.key? name = some k) :
    extension? v name m = .ok (m.extension? (m.heap.typeName v) k) m := by
  have hkey := key_eq m name
  rw [hk] at hkey
  unfold extension?
  rw [bind_ok hkey]
  rfl

/-- A call of a method on an instance, when no extension has the name. -/
theorem invoke_instance (hr : m.heap.instance? r = some i) (htarget : m.operand? argc = some (.obj r))
    (hk : m.heap.key? name = some k) (hext : m.extension? "instance" k = none) :
    invoke name argc m = (do
      match ← searched i.classRef (m.heap.method? i.classRef k), i.fields.get? k with
      | some method, _ => callClosure method argc
      | none, some field => callInstead field argc
      | none, none => noProperty name) m := by
  have hget : m.heap.get? r = some (.instanceObj i) := Heap.instance?_eq_some.mp hr
  have htype : m.heap.typeName (.obj r) = "instance" := by
    simp [Heap.typeName, hget, Obj.typeName]
  have hkey := key_eq m name
  rw [hk] at hkey
  have hext' := extension?_eq (v := .obj r) hk
  rw [htype, hext] at hext'
  unfold invoke
  rw [bind_ok (peek_callee htarget)]
  dsimp only
  rw [get_bind, hget]
  dsimp only
  unfold invokeOnInstance
  rw [bind_ok hext']
  dsimp only
  have hneed : need (m.heap.instance? r) m = .ok i m := hr ▸ rfl
  rw [bind_ok hkey, bind_ok (heap_eq m)]
  exact bind_ok hneed

/-- A property of an instance. -/
theorem getProperty_instance (hr : m.heap.instance? r = some i) (hk : m.heap.key? name = some k) :
    getProperty (.obj r) name m =
      match i.fields.get? k with
      | some v => .ok v m
      | none => (do
        match ← searched i.classRef (m.heap.method? i.classRef k), m.heap.static? i.classRef k with
        | some method, _ => bindMethod (.obj r) method
        | none, some v => return v
        | none, none => noProperty name) m := by
  have hget : m.heap.get? r = some (.instanceObj i) := Heap.instance?_eq_some.mp hr
  have hkey := key_eq m name
  rw [hk] at hkey
  unfold getProperty
  dsimp only
  rw [get_bind, hget]
  dsimp only
  unfold instanceProperty
  rw [bind_ok hkey]
  cases i.fields.get? k <;> rfl

/-! ## The two ways agree -/

/-- A name that is no string is none of anything. -/
theorem invoke_nameless (hr : m.heap.instance? r = some i) (htarget : m.operand? argc = some (.obj r))
    (hk : m.heap.key? name = none) :
    invoke name argc m = .error .stuck m ∧ callProperty name argc m = .error .stuck m := by
  have hget : m.heap.get? r = some (.instanceObj i) := Heap.instance?_eq_some.mp hr
  have hkey := key_eq m name
  rw [hk] at hkey
  constructor
  · unfold invoke
    rw [bind_ok (peek_callee htarget)]
    dsimp only
    rw [get_bind, hget]
    dsimp only
    unfold invokeOnInstance extension?
    exact bind_error (bind_error hkey)
  · unfold callProperty
    rw [bind_ok (peek_callee htarget)]
    refine bind_error ?_
    unfold getProperty
    dsimp only
    rw [get_bind, hget]
    dsimp only
    unfold instanceProperty
    exact bind_error hkey

/-- **`Unambiguous m i k`** — the name is no extension of instances, no static of the class of the
instance or of those above, and not both a field and a method: where it is a field, looking for a
method of that name comes back with none. -/
structure Unambiguous (m : Machine) (i : InstanceObj) (k : Key) : Prop where
  extension : m.extension? "instance" k = none
  static : m.heap.static? i.classRef k = none
  single : (i.fields.get? k).isSome →
    searched i.classRef (m.heap.method? i.classRef k) m = .ok none m

/-- **`sameButBound_invoke`** — a method call on an instance does what reading the property and calling
it does. -/
theorem sameButBound_invoke (ht : m.heap.Tidy) (hr : m.heap.instance? r = some i)
    (htarget : m.operand? argc = some (.obj r))
    (hname : ∀ k ∈ m.heap.key? name, Unambiguous m i k) :
    SameButBound (.obj r) (invoke name argc m) (callProperty name argc m) := by
  cases hk : m.heap.key? name with
  | none =>
    obtain ⟨hinvoke, hcall⟩ := invoke_nameless hr htarget hk
    rw [hinvoke, hcall]
    exact .same _
  | some k =>
    obtain ⟨hext, hstatic, hsingle⟩ := hname k hk
    have hinvoke := invoke_instance hr htarget hk hext
    have hget := getProperty_instance hr hk
    have hsearched := searched_eq m i.classRef (m.heap.method? i.classRef k)
    rw [hstatic] at hget
    rw [hinvoke]
    unfold callProperty
    rw [bind_ok (peek_callee htarget)]
    cases hfield : i.fields.get? k with
    | some v =>
      -- a field, and so no method: both ways call what the field holds
      rw [hfield] at hget hsingle
      rw [bind_ok hget, bind_ok (hsingle rfl)]
      exact .same _
    | none =>
      rw [hfield] at hget
      dsimp only at hget
      cases hmethod : m.heap.method? i.classRef k with
      | some method =>
        rw [hmethod] at hsearched hget
        rw [bind_ok hsearched] at hget ⊢
        have hbind := sameButBound_bind ht htarget method
        rw [bind_ok (bindMethod_eq ..)] at hbind
        rw [bind_ok (hget.trans (bindMethod_eq ..))]
        exact hbind
      | none =>
        -- nothing of that name: both ways fail alike, if the search ends
        rw [hmethod] at hsearched hget
        cases hends : m.heap.ancestryEnds i.classRef with
        | true =>
          rw [hends] at hsearched
          rw [bind_ok hsearched] at hget ⊢
          rw [bind_error (hget.trans (noProperty_eq m name))]
          exact .same _
        | false =>
          rw [hends] at hsearched
          rw [bind_error hsearched] at hget ⊢
          rw [bind_error hget]
          exact .same _

/-- **`sameButBound_invokeSuper`** — a method call on the superclass does what binding the method and
calling it does. -/
theorem sameButBound_invokeSuper (ht : m.heap.Tidy) (htarget : m.operand? argc = some target)
    (superclass : Value) :
    SameButBound target (invokeSuper superclass name argc m)
      (callBoundSuper superclass name argc m) := by
  unfold invokeSuper callBoundSuper
  rw [bind_ok (peek_callee htarget)]
  cases hsuper : superMethod superclass name m with
  | error e m' =>
    rw [bind_error hsuper, bind_error hsuper]
    exact .same _
  | ok method m' =>
    obtain rfl : m' = m := by
      have hmeets := observes_superMethod superclass name m
      unfold Meets at hmeets
      rwa [hsuper] at hmeets
    rw [bind_ok hsuper, bind_ok hsuper]
    exact sameButBound_bind ht htarget method

/-- **`methodCalls_agree`** — a method call has the outcome of reading the property in place of the
receiver and calling what was read, and so has a call on the superclass. At most the bound method that
was made on the way is left in the heap. The free list of the heap is in order, as it is in every
reachable machine. -/
theorem methodCalls_agree (ht : m.heap.Tidy) (name : Ref) (htarget : m.operand? argc = some target) :
    (∀ r i, target = .obj r → m.heap.instance? r = some i →
      (∀ k ∈ m.heap.key? name, Unambiguous m i k) →
      SameButBound target (invoke name argc m) (callProperty name argc m)) ∧
    ∀ superclass, SameButBound target (invokeSuper superclass name argc m)
      (callBoundSuper superclass name argc m) := by
  refine ⟨?_, sameButBound_invokeSuper ht htarget⟩
  rintro r i rfl hr hname
  exact sameButBound_invoke ht hr htarget hname

/-- An inherited method is called with an argument, on an instance that has a field besides. -/
theorem methodCalls_agree_inherited :
    let text := (Heap.new {}).intern "f"
    let field := text.2.intern "x"
    let k : Key := ⟨text.1, hashText "f"⟩
    let code := field.2.alloc (.prototype
      { (default : Prototype) with arity := 2, chunk := Chunk.empty })
    let closure := code.2.alloc (.closure ⟨code.1, #[], none⟩)
    let above := closure.2.alloc (.classObj
      ⟨text.1, none, Table.empty.set k (.obj closure.1), .empty, .empty, none⟩)
    let below := above.2.alloc (.classObj ⟨text.1, some above.1, .empty, .empty, .empty, none⟩)
    let i : InstanceObj := ⟨below.1, Table.empty.set ⟨field.1, hashText "x"⟩ .none⟩
    let self := below.2.alloc (.instanceObj i)
    let fiber := { Fiber.new 0 ⟨0⟩ with stack := #[.obj self.1, .bool true] }
    let m : Machine := { (default : Machine) with heap := self.2, fiber, config := {} }
    m.heap.Tidy ∧ m.operand? 1 = some (.obj self.1) ∧ m.heap.instance? self.1 = some i ∧
    (∀ k ∈ m.heap.key? text.1, Unambiguous m i k) ∧
    m.heap.method? i.classRef k = some closure.1 ∧
    SameButBound (.obj self.1) (invoke text.1 1 m) (callProperty text.1 1 m) ∧
    SameButBound (.obj self.1) (invokeSuper (.obj above.1) text.1 1 m)
      (callBoundSuper (.obj above.1) text.1 1 m) := by
  intro text field k code closure above below i self fiber m
  have hfield : field.2.Tidy := (((Heap.new_tidy {}).intern "f").1.intern "x").1
  have habove : above.2.Tidy := ((hfield.alloc _).alloc _).alloc _
  have ht : m.heap.Tidy := (habove.alloc _).alloc _
  have hr : m.heap.instance? self.1 = some i := by
    have hbelow : below.2.Tidy := habove.alloc _
    exact Heap.instance?_eq_some.mpr (hbelow.get?_alloc_self _)
  have htarget : m.operand? 1 = some (.obj self.1) := rfl
  have hname : ∀ k ∈ m.heap.key? text.1, Unambiguous m i k := by
    intro k' hk
    have hkey : m.heap.key? text.1 = some k := by decide +kernel
    obtain rfl := Option.some.inj (hkey.symm.trans hk)
    exact ⟨rfl, Option.isNone_iff_eq_none.mp (by decide +kernel),
      fun hfield => absurd hfield (by decide +kernel)⟩
  obtain ⟨hinvoke, hsuper⟩ := methodCalls_agree ht text.1 htarget
  exact ⟨ht, htarget, hr, hname, by decide +kernel, hinvoke _ _ rfl hr hname, hsuper _⟩

end Exec

end ScriptMachine
