import Mathlib
import ScriptMachine.Machine.Declarations
import ScriptMachine.Proofs.Machine.Stepping
import ScriptMachine.Proofs.Renaming.Operators

/-!
# ScriptMachine.Proofs.Renaming.Dispatch — callees, methods and properties on like machines

A method call finds the same method, whatever the ways up through classes are, and a property is that
of the like object. Native functions are reached in one way only: an instruction calls a value that is
one. `Machine.standIn?` says which value a method call takes for a method when there is none, so that
it can be told from the machine alone whether a call measures the heap.

`callValue_agree` and `invoke_agree` are the results, and both have the same condition, that what is
called does not measure the heap. Properties need no condition, since reading one calls nothing. `Reads`
keeps track of operations that only look at the machine, so that the value a call finds can be named
before the call is made.
-/

namespace ScriptMachine

variable {β : Pairing} {m n : Machine} {v w v' w' : Value} {r s r' s' : Ref}

/-! ## What is called -/

/-- The builtin that a value is. -/
def Heap.builtin? (h : Heap) : Value → Option Builtin
  | .obj r =>
    match h.get? r with
    | some (.native ⟨_, .builtin b⟩) => some b
    | _ => none
  | _ => none

/-- **`h.Measures v`** — the value is a builtin that tells how much the heap holds. -/
def Heap.Measures (h : Heap) (v : Value) : Prop :=
  ∃ b, h.builtin? v = some b ∧ b.measuresHeap = true

/-- **`m.standIn? target name`** — the value that a method call calls in the place of a method: a
static of a class, a symbol of a package, a field of an instance. A search that does not end finds
none. -/
def Machine.standIn? (m : Machine) (target : Value) (name : Ref) : Option Value :=
  match target, m.heap.key? name with
  | .obj r, some k =>
    match m.heap.get? r with
    | some (.classObj _) =>
      if (m.heap.method? r k).isSome || !m.heap.ancestryEnds r then none else m.heap.static? r k
    | some (.package p) => p.symbols.get? k
    | some (.instanceObj i) =>
      if (m.extension? (m.heap.typeName target) k).isSome || (m.heap.method? i.classRef k).isSome ||
        !m.heap.ancestryEnds i.classRef then none
      else i.fields.get? k
    | _ => none
  | _, _ => none

namespace Exec

variable {α γ : Type} {S : Pairing → γ → γ → Prop} {x y : Exec α} {f g : α → Exec γ}

/-- **`x.Reads P`** — the computation leaves the machine as it is, and what it answers is `P` of it. -/
def Reads (x : Exec α) (P : Machine → α → Prop) : Prop :=
  ∀ m a m', x m = .ok a m' → m' = m ∧ P m a

/-- What comes after reading starts from the same machine. -/
theorem Steady.reading {R : α → α → Prop} {P : Machine → α → Prop} (hxy : Steady β R x y)
    (hx : x.Reads P) (hm : m.Like β n)
    (hfg : ∀ n' a b, m.Like β n' → R a b → P m a → Agree S β (f a m) (g b n')) :
    Agree S β ((x >>= f) m) ((y >>= g) n) := by
  refine (hxy m n hm).bind fun β' a b m' n' _ hab hm' hok => ?_
  obtain ⟨rfl, hP⟩ := hx m a m' hok
  obtain ⟨rfl, hR⟩ := hab
  exact hfg n' a b hm' hR hP

/-- What a computation does may depend on the machine that it starts from. -/
theorem Agree.of_get {f g : Machine → Exec γ} (h : Agree S β (f m m) (g n n)) :
    Agree S β ((get >>= f) m) ((get >>= g) n) :=
  h

theorem reads_need {o : Option α} : (need o).Reads fun _ a => o = some a := by
  intro m a m' hok
  cases o with
  | some b =>
    cases hok
    exact ⟨rfl, rfl⟩
  | none => cases hok

/-- What is read first may be used for what is read next. -/
theorem Reads.bind {P : Machine → α → Prop} {Q : Machine → γ → Prop} (hx : x.Reads P)
    (hf : ∀ a, (f a).Reads fun m c => P m a → Q m c) : (x >>= f).Reads Q := by
  intro m c m' hok
  change EStateM.bind x f m = _ at hok
  unfold EStateM.bind at hok
  cases hxm : x m with
  | error e m₁ =>
    rw [hxm] at hok
    cases hok
  | ok a m₁ =>
    rw [hxm] at hok
    obtain ⟨rfl, hP⟩ := hx m a m₁ hxm
    obtain ⟨rfl, hQ⟩ := hf a m₁ c m' hok
    exact ⟨rfl, hQ hP⟩

theorem reads_get : (get : Exec Machine).Reads fun m a => a = m := by
  intro m a m' hok
  cases hok
  exact ⟨rfl, rfl⟩

theorem reads_heap : heap.Reads fun m h => h = m.heap := by
  intro m h m' hok
  cases hok
  exact ⟨rfl, rfl⟩

theorem reads_key (name : Ref) : (key name).Reads fun m k => m.heap.key? name = some k :=
  fun m k m' hok => reads_need m k m' hok

/-- A search answers what it was given, unless the classes go round in a circle. -/
theorem reads_searched (classRef : Ref) (found : Option α) :
    (searched classRef found).Reads fun m o =>
      o = found ∧ (found.isSome || m.heap.ancestryEnds classRef) = true := by
  intro m o m' hok
  unfold searched at hok
  rw [get_bind] at hok
  split at hok
  · cases hok
  · rename_i hends
    cases hok
    refine ⟨rfl, rfl, ?_⟩
    cases found <;> simp_all

theorem reads_extension? (target : Value) (name : Ref) : (extension? target name).Reads fun m o =>
    ∃ k, m.heap.key? name = some k ∧ o = m.extension? (m.heap.typeName target) k :=
  (reads_key name).bind fun k => reads_get.bind fun m => by
    rintro m' o _ ⟨⟩
    exact ⟨rfl, fun heq hk => ⟨k, hk, by rw [heq]⟩⟩

/-! ## Calls -/

/-- A builtin that does not measure the heap leaves a like result. -/
theorem Alike.callNative (name : String) {b : Builtin} (hb : b.measuresHeap = false) (argc : Nat) :
    Alike β Done (callNative ⟨name, .builtin b⟩ argc) (callNative ⟨name, .builtin b⟩ argc) := by
  refine Steady.height.same fun height => (Steady.valuesFrom _).bind fun xs ys hxs => ?_
  refine (Alike.runBuiltin hxs hb).bind fun β₁ v w _ hv => ?_
  exact (Steady.truncate _).bind fun _ _ _ => (Steady.push hv).done

/-- The instance is a new pair, and its initialiser is called on it. -/
theorem Alike.instantiate (hr : β.rel r s) (argc : Nat) :
    Alike β Done (instantiate r argc) (instantiate s argc) := by
  refine Steady.get.bind fun m n hm => (Steady.need (hm.heap.class? hr)).bind fun c d hc => ?_
  have hinstance : (Obj.instanceObj ⟨r, c.fields⟩).Like β (.instanceObj ⟨s, d.fields⟩) :=
    .instanceObj ⟨hr, hc.fields⟩
  refine (Alike.alloc hinstance nofun).bind fun β₁ t u hβ htu => Steady.height.same fun height => ?_
  refine (Steady.setStackAt _ (.obj htu)).bind fun _ _ _ => Steady.get.bind fun m n hm => ?_
  refine (Steady.key hm.names.init).bind fun k l hk => ?_
  refine (Steady.searched (hβ _ _ hr) (hm.heap.method? (hβ _ _ hr) hk)).bind fun o o' ho => ?_
  cases ho with
  | some hinit => exact (Steady.callClosure hinit argc).done
  | none =>
    dsimp only
    split
    · exact .throw _
    · exact .pure trivial

/-- **`callValue_agree`** — like callees are called alike, unless they measure the heap. -/
theorem callValue_agree (hm : m.Like β n) (hv : v.Like β w) (argc : Nat) (hb : ¬ m.heap.Measures v) :
    Agree Done β (callValue v argc m) (callValue w argc n) := by
  cases hv with
  | @obj r s hr =>
    obtain ⟨o, o', ho, ho', hlike⟩ := hm.heap.objects r s hr
    refine Agree.of_get ?_
    rw [ho, ho']
    cases hlike with
    | closure => exact (Steady.callClosure hr argc).done m n hm
    | native name b =>
      refine Alike.callNative name (Bool.eq_false_iff.mpr fun hmeasures => hb ⟨b, ?_, hmeasures⟩) argc
        m n hm
      unfold Heap.builtin?
      dsimp only
      rw [ho]
    | classObj => exact Alike.instantiate hr argc m n hm
    | boundMethod hbound =>
      refine (Steady.height.same fun height => ?_ : Alike _ _ _ _) m n hm
      refine (Steady.setStackAt _ hbound.receiver).bind fun _ _ _ => ?_
      exact (Steady.callClosure hbound.method argc).done
    | _ => exact .error le_rfl hm
  | _ => exact .error le_rfl hm

/-- What is called in place must not be a function that measures the heap. -/
theorem callInstead_agree (hm : m.Like β n) (hv : v.Like β w) (argc : Nat)
    (hb : ¬ m.heap.Measures v) : Agree Done β (callInstead v argc m) (callInstead w argc n) := by
  have hstack : { m.fiber with
      stack := m.fiber.stack.setIfInBounds (m.fiber.stack.size - argc - 1) v }.Like β { n.fiber with
      stack := n.fiber.stack.setIfInBounds (n.fiber.stack.size - argc - 1) w } := by
    refine { hm.fiber with stack := ?_ }
    rw [hm.fiber.stack.size_eq]
    exact hm.fiber.stack.setIfInBounds _ hv
  exact callValue_agree (hm.withFiber hstack (hm.cells m.fiber (.inl rfl))) hv argc hb

/-! ## Methods -/

theorem Alike.noProperty {R : Pairing → α → α → Prop} (hr : β.rel r s) :
    Alike β R (noProperty r) (noProperty s) :=
  (Steady.nameText hr).same fun _ => .throw _

/-- Extensions are found by the name of a type and by a key. -/
theorem extension?_like (hm : m.Like β n) (type : String) {k l : Key} (hk : k.Like β l) :
    Option.Rel β.rel (m.extension? type k) (n.extension? type l) := by
  have hlookup : Option.Rel (Table.Like β) (m.extensions.lookup type) (n.extensions.lookup type) := by
    have hext := hm.extensions
    generalize m.extensions = es, n.extensions = fs at hext
    induction hext with
    | nil => exact .none
    | @cons e f es fs hef _ ih =>
      obtain ⟨t, methods⟩ := e
      obtain ⟨t', methods'⟩ := f
      obtain ⟨(rfl : t = t'), htable⟩ := hef
      rw [List.lookup_cons, List.lookup_cons]
      split
      · exact .some htable
      · exact ih
  unfold Machine.extension?
  generalize m.extensions.lookup type = a, n.extensions.lookup type = b at hlookup
  cases hlookup with
  | none => exact .none
  | some ht => exact (ht.get? hk).bind fun _ _ hv => hv.ref?

theorem Steady.extension? (hv : v.Like β w) (hr : β.rel r s) :
    Steady β (Option.Rel β.rel) (extension? v r) (extension? w s) := by
  refine (Steady.key hr).seq fun k l hk => Steady.get.seq fun m n hm => ?_
  rw [hm.heap.typeName_eq hv]
  exact .pure (extension?_like hm _ hk)

/-- A method of the class comes first, then a static that is called in its place, then an extension. -/
theorem invokeOnClass_agree (hm : m.Like β n) {c : ClassObj} (hc : m.heap.get? r = some (.classObj c))
    (hr : β.rel r s) (hr' : β.rel r' s') (argc : Nat)
    (hb : ∀ v, m.standIn? (.obj r) r' = some v → ¬ m.heap.Measures v) :
    Agree Done β (invokeOnClass r r' argc m) (invokeOnClass s s' argc n) := by
  refine (Steady.key hr').reading (reads_key r') hm fun n k l hm hk hkey => ?_
  refine Steady.heap.reading reads_heap hm fun n h h' hm hh heq => ?_
  subst heq
  have hstatic := hh.static? hr hk
  refine (Steady.searched hr (hh.method? hr hk)).reading (reads_searched r _) hm
    fun n' o o' hm' ho hfound => ?_
  generalize hsv : m.heap.static? r k = a, h'.static? s l = b at hstatic
  cases ho with
  | some hmethod => exact (Steady.callClosure hmethod argc).done m n' hm'
  | none =>
    -- a static stands in for the method that was not found
    cases hstatic with
    | some hv =>
      refine callInstead_agree hm' hv argc (hb _ ?_)
      obtain ⟨hmethod, hends⟩ := hfound
      unfold Machine.standIn?
      rw [hkey]
      dsimp only
      rw [hc]
      dsimp only
      rw [← hmethod] at hends ⊢
      rw [hsv, if_neg (by simpa using hends)]
    | none =>
      refine (Steady.bind (.extension? (.obj hr) hr') fun o o' ho => ?_ : Alike _ _ _ _) m n' hm'
      cases ho with
      | some hmethod => exact (Steady.callClosure hmethod argc).done
      | none => exact .noProperty hr'

/-- A symbol of the package is called in its place. -/
theorem invokeOnPackage_agree (hm : m.Like β n) {p q : Package}
    (hp : m.heap.get? r = some (.package p)) (hpq : p.Like β q) (hr' : β.rel r' s') (argc : Nat)
    (hb : ∀ v, m.standIn? (.obj r) r' = some v → ¬ m.heap.Measures v) :
    Agree Done β (invokeOnPackage p r' argc m) (invokeOnPackage q s' argc n) := by
  refine (Steady.key hr').reading (reads_key r') hm fun n k l hm hk hkey => ?_
  have hsymbol := hpq.symbols.get? hk
  generalize hsv : p.symbols.get? k = a, q.symbols.get? l = b at hsymbol
  cases hsymbol with
  | some hv =>
    refine callInstead_agree hm hv argc (hb _ ?_)
    unfold Machine.standIn?
    rw [hkey]
    dsimp only
    rw [hp]
    exact hsv
  | none => exact Alike.noProperty hr' m n hm

/-- The method and the field are looked for on both sides in the same order. -/
theorem invokeOnInstance_agree (hm : m.Like β n) {i : InstanceObj}
    (hi : m.heap.get? r = some (.instanceObj i)) (hr : β.rel r s) (hr' : β.rel r' s') (argc : Nat)
    (hb : ∀ v, m.standIn? (.obj r) r' = some v → ¬ m.heap.Measures v) :
    Agree Done β (invokeOnInstance r r' argc m) (invokeOnInstance s s' argc n) := by
  refine (Steady.extension? (.obj hr) hr').reading (reads_extension? _ r') hm
    fun n o o' hm ho ⟨_, hkey', hext⟩ => ?_
  cases ho with
  | some hmethod => exact (Steady.callClosure hmethod argc).done m n hm
  | none =>
    refine (Steady.key hr').reading (reads_key r') hm fun n k l hm hk hkey => ?_
    obtain rfl := Option.some.inj (hkey'.symm.trans hkey)
    refine Steady.heap.reading reads_heap hm fun n h h' hm hh heq => ?_
    subst heq
    refine (Steady.need (hh.instance? hr)).reading (P := fun _ j => j = i) ?_ hm
      fun n' i' j hm' hij hi' => ?_
    · intro m₁ i' m₂ hok
      obtain ⟨rfl, hfound⟩ := reads_need m₁ i' m₂ hok
      unfold Heap.instance? at hfound
      rw [hi] at hfound
      exact ⟨rfl, (Option.some.inj hfound).symm⟩
    subst hi'
    have hfield := hij.fields.get? hk
    refine (Steady.searched hij.classRef (hh.method? hij.classRef hk)).reading
      (reads_searched _ _) hm' fun n' o o' hm' ho hfound => ?_
    generalize hfv : i'.fields.get? _ = a, j.fields.get? l = b at hfield
    cases ho with
    | some hmethod => exact (Steady.callClosure hmethod argc).done m n' hm'
    | none =>
      -- a field comes last, after extensions and methods
      cases hfield with
      | some hv =>
        refine callInstead_agree hm' hv argc (hb _ ?_)
        obtain ⟨hmethod, hends⟩ := hfound
        unfold Machine.standIn?
        rw [hkey]
        dsimp only
        rw [hi]
        dsimp only
        rw [← hext, ← hmethod] at *
        rw [hfv, if_neg (by simpa using hends)]
      | none => exact Alike.noProperty hr' m n' hm'

theorem Alike.invokeBuiltin (hv : v.Like β w) (hr' : β.rel r' s') (argc : Nat) :
    Alike β Done (invokeBuiltin v r' argc) (invokeBuiltin w s' argc) := by
  refine Steady.bind (.extension? hv hr') fun o o' ho => ?_
  cases ho with
  | some hmethod => exact (Steady.callClosure hmethod argc).done
  | none =>
    cases hv with
    | obj hr =>
      refine Steady.height.same fun height => (Steady.nameText hr').same fun name => ?_
      refine (Steady.valuesFrom _).bind fun xs ys hxs => ?_
      refine (Alike.runMethod hr name hxs).bind fun β₁ v w _ hv => ?_
      exact (Steady.truncate _).bind fun _ _ _ => (Steady.push hv).done
    | _ => exact .throw _

/-- A stack slot that is read. -/
theorem reads_peek (distance : Nat) : (peek distance).Reads fun m v =>
    distance < m.fiber.stack.size ∧
      m.fiber.stack[m.fiber.stack.size - 1 - distance]? = some v := by
  intro m v m' hok
  unfold peek at hok
  rw [get_bind] at hok
  split at hok
  · rename_i hlt
    obtain ⟨rfl, hv⟩ := reads_need m v m' hok
    exact ⟨rfl, hlt, hv⟩
  · cases hok

/-- **`invoke_agree`** — a method call does the same to like machines, unless what it calls in the place
of a method measures the heap. -/
theorem invoke_agree (hm : m.Like β n) (hr' : β.rel r' s') (argc : Nat)
    (hb : ∀ target v, argc < m.fiber.stack.size →
      m.fiber.stack[m.fiber.stack.size - 1 - argc]? = some target →
      m.standIn? target r' = some v → ¬ m.heap.Measures v) :
    Agree Done β (invoke r' argc m) (invoke s' argc n) := by
  refine (Steady.peek argc).reading (reads_peek argc) hm fun n v w hm hv ⟨hlt, hat⟩ => ?_
  have hb' := fun v => hb _ v hlt hat
  cases hv with
  | @obj r s hr =>
    obtain ⟨o, o', ho, ho', hlike⟩ := hm.heap.objects r s hr
    refine Agree.of_get ?_
    rw [ho, ho']
    cases hlike with
    | classObj => exact invokeOnClass_agree hm ho hr hr' argc hb'
    | package hpq => exact invokeOnPackage_agree hm ho hpq hr' argc hb'
    | instanceObj => exact invokeOnInstance_agree hm ho hr hr' argc hb'
    | _ => exact Alike.invokeBuiltin (.obj hr) hr' argc m n hm
  | _ => exact Alike.invokeBuiltin (by constructor) hr' argc m n hm

/-! ## Superclasses and bound methods -/

theorem Steady.superMethod (hv : v.Like β w) (hr : β.rel r s) :
    Steady β β.rel (superMethod v r) (superMethod w s) := by
  refine Steady.get.seq fun m n hm => ?_
  have hclass := hm.heap.classOf? hv
  generalize m.heap.classOf? v = a, n.heap.classOf? w = b at hclass
  cases hclass with
  | none => exact .throw _
  | some hc =>
    refine Steady.get.seq fun m n hm => (Steady.key hr).seq fun k l hk => ?_
    refine (Steady.searched hc (hm.heap.method? hc hk)).seq fun o o' ho => ?_
    cases ho with
    | some hmethod => exact .pure hmethod
    | none => exact .noProperty hr

theorem Alike.invokeSuper (hv : v.Like β w) (hr : β.rel r s) (argc : Nat) :
    Alike β Done (invokeSuper v r argc) (invokeSuper w s argc) :=
  (Steady.superMethod hv hr).bind fun _ _ hmethod => (Steady.callClosure hmethod argc).done

theorem Alike.bindMethod (hv : v.Like β w) (hr : β.rel r s) :
    Alike β Value.Like (bindMethod v r) (bindMethod w s) :=
  .allocValue (.boundMethod ⟨hv, hr⟩) nofun

/-! ## Properties -/

/-- A method is bound when it is read, which adds a pair. -/
theorem Alike.instanceProperty (hr : β.rel r s) {i j : InstanceObj} (hij : i.Like β j)
    (hr' : β.rel r' s') :
    Alike β Value.Like (instanceProperty r i r') (instanceProperty s j s') := by
  refine (Steady.key hr').bind fun k l hk => ?_
  have hfield := hij.fields.get? hk
  generalize i.fields.get? k = a, j.fields.get? l = b at hfield
  cases hfield with
  | some hv => exact .pure hv
  | none =>
    refine Steady.heap.bind fun h h' hh => ?_
    have hstatic := hh.static? hij.classRef hk
    refine (Steady.searched hij.classRef (hh.method? hij.classRef hk)).bind fun o o' ho => ?_
    generalize h.static? _ k = a, h'.static? _ l = b at hstatic
    cases ho with
    | some hmethod => exact .bindMethod (.obj hr) hmethod
    | none =>
      cases hstatic with
      | some hv => exact .pure hv
      | none => exact .noProperty hr'

/-- A static comes before a method, on both sides. -/
theorem Alike.classProperty (hr : β.rel r s) (hr' : β.rel r' s') :
    Alike β Value.Like (classProperty r r') (classProperty s s') := by
  refine (Steady.key hr').bind fun k l hk => Steady.heap.bind fun h h' hh => ?_
  have hmethod := hh.method? hr hk
  refine (Steady.searched hr (hh.static? hr hk)).bind fun o o' ho => ?_
  generalize h.method? r k = a, h'.method? s l = b at hmethod
  cases ho with
  | some hv => exact .pure hv
  | none =>
    cases hmethod with
    | some hm => exact .pure (.obj hm)
    | none => exact .noProperty hr'

theorem Alike.taskProperty {t u : TaskHandle} (ht : t.Like β u) (hr' : β.rel r' s') :
    Alike β Value.Like (taskProperty t r') (taskProperty u s') := by
  refine (Steady.nameText hr').same fun name => ?_
  split
  · exact .pure (.obj ht.name)
  · rw [ht.id]
    exact .pure (.number _)
  · rw [ht.status]
    exact .pure (.bool _)
  · exact .pure ht.result
  · exact .noProperty hr'

theorem Alike.memberProperty {a b : EnumMember} (hab : a.Like β b) (hr' : β.rel r' s') :
    Alike β Value.Like (memberProperty a r') (memberProperty b s') := by
  refine (Steady.nameText hr').same fun name => ?_
  split
  · exact .pure (.obj hab.name)
  · exact .pure hab.value
  · exact .noProperty hr'

theorem Alike.tableProperty {t u : Table Value} (ht : t.Like β u) (hr' : β.rel r' s') :
    Alike β Value.Like (tableProperty t r') (tableProperty u s') := by
  refine (Steady.key hr').bind fun k l hk => ?_
  have hget := ht.get? hk
  generalize t.get? k = a, u.get? l = b at hget
  cases hget with
  | some hv => exact .pure hv
  | none => exact .noProperty hr'

theorem Alike.getProperty (hv : v.Like β w) (hr' : β.rel r' s') :
    Alike β Value.Like (getProperty v r') (getProperty w s') := by
  cases hv with
  | @obj r s hr =>
    refine Steady.get.bind fun m n hm => ?_
    obtain ⟨o, o', ho, ho', hlike⟩ := hm.heap.objects r s hr
    rw [ho, ho']
    cases hlike with
    | instanceObj hij => exact .instanceProperty hr hij hr'
    | classObj => exact .classProperty hr hr'
    | enumeration he => exact .tableProperty he.members hr'
    | enumMember hab => exact .memberProperty hab hr'
    | package hp => exact .tableProperty hp.symbols hr'
    | task ht => exact .taskProperty ht hr'
    | _ => exact .throw _
  | _ => exact .throw _

/-- One case for each kind of target. Fields and statics are written under keys that correspond. -/
theorem Steady.setProperty (hv : v.Like β w) (hr' : β.rel r' s') (hv' : v'.Like β w') :
    Steady β (fun _ _ => True) (setProperty v r' v') (setProperty w s' w') := by
  cases hv with
  | @obj r s hr =>
    refine (Steady.key hr').seq fun k l hk => Steady.get.seq fun m n hm => ?_
    have hfields : (m.heap.get? r).any hasFields = (n.heap.get? s).any hasFields := by
      obtain ⟨o, o', ho, ho', hlike⟩ := hm.heap.objects r s hr
      rw [ho, ho']
      cases hlike <;> rfl
    rw [hfields]
    split
    · refine .modifyHeap hr (fun o o' ho => ?_) fun o => ?_
      · cases ho with
        | instanceObj hi => exact .instanceObj { hi with fields := hi.fields.set hk hv' }
        | classObj hc => exact .classObj { hc with statics := hc.statics.set hk hv' }
        | package hp => exact .package { hp with symbols := hp.symbols.set hk hv' }
        | _ => constructor <;> assumption
      · cases o <;> exact ⟨rfl, fun _ => by trivial⟩
    · exact .throw _
  | _ => exact .throw _

end Exec

end ScriptMachine
