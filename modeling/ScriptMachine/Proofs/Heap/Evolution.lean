import ScriptMachine.Proofs.Heap.Allocation

/-!
# ScriptMachine.Proofs.Heap.Evolution — what stays of an object while it changes

An object keeps its kind as long as it is in its slot, and most of it cannot change at all. `fixed`
is an object without its changing parts. One heap *persists* into another when no slot has come to
hold another object; it *evolves* into it when moreover every object is still there. Collections
persist, everything else evolves. What the rest of the development knows of references (kinds, texts,
compiled code) rests on the fixed parts alone.

Besides these two, three more relations are used. `Abides` is about what only the users of a machine do:
pausing collections and making native functions. `Still` is what most instructions keep: the heap
evolves, and no cell of a variable, no handle and no native function is touched. `Calm` is its
counterpart for a collection: objects may go, and what stays is the same, cells and handles included.
Each operation on a heap has a lemma for the strongest of them that it keeps.

Nothing here says what an object refers to, or that what it refers to is there: that is soundness, and
it is kept along these relations.
-/

namespace ScriptMachine

/-- The kinds of heap objects. -/
inductive Kind where
  | string | prototype | closure | upvalue | classObj | instanceObj | boundMethod | list | dict
  | enumeration | enumMember | package | native | task
deriving Repr, DecidableEq

namespace Obj

/-- The kind of an object. -/
def kind : Obj → Kind
  | .string .. => .string
  | .prototype _ => .prototype
  | .closure _ => .closure
  | .upvalue _ => .upvalue
  | .classObj _ => .classObj
  | .instanceObj _ => .instanceObj
  | .boundMethod _ => .boundMethod
  | .list _ => .list
  | .dict _ => .dict
  | .enumeration _ => .enumeration
  | .enumMember _ => .enumMember
  | .package _ => .package
  | .native _ => .native
  | .task _ => .task

/-- **`fixed o`** — the object without what can change while it stays in its slot. -/
def fixed : Obj → Obj
  | .upvalue _ => .upvalue (.closed .none)
  | .classObj c =>
    .classObj { c with superclass := none, methods := .empty, fields := .empty, statics := .empty }
  | .instanceObj i => .instanceObj { i with fields := .empty }
  | .list _ => .list #[]
  | .dict _ => .dict .empty
  | .enumeration e => .enumeration { e with members := .empty, last := .none }
  | .package p => .package { p with symbols := .empty }
  | .task t => .task { t with status := .running, result := .none }
  | o => o

@[simp]
theorem kind_fixed (o : Obj) : o.fixed.kind = o.kind := by
  cases o <;> rfl

/-- Is the object neither the cell of a variable nor a task handle nor a native function? -/
def isPlain (o : Obj) : Bool :=
  o.kind != .upvalue && o.kind != .task && o.kind != .native

theorem kind_eq_of_fixed {o o' : Obj} (h : o'.fixed = o.fixed) : o'.kind = o.kind := by
  rw [← kind_fixed, h, kind_fixed]

/-- A text is fixed as a whole. -/
theorem eq_string_of_fixed {o : Obj} {s : String} {hash : UInt32}
    (h : o.fixed = (Obj.string s hash).fixed) : o = .string s hash := by
  cases o <;> simp_all [fixed]

/-- And so is a prototype. -/
theorem eq_prototype_of_fixed {o : Obj} {p : Prototype}
    (h : o.fixed = (Obj.prototype p).fixed) : o = .prototype p := by
  cases o <;> simp_all [fixed]

theorem eq_closure_of_fixed {o : Obj} {c : Closure}
    (h : o.fixed = (Obj.closure c).fixed) : o = .closure c := by
  cases o <;> simp_all [fixed]

end Obj

namespace Heap

variable {h h' h'' : Heap} {r r' : Ref} {o o' : Obj}

/-! ## What a reference stands for -/

/-- **`h.Has r k`** — the reference stands for an object of this kind. -/
def Has (h : Heap) (r : Ref) (k : Kind) : Prop :=
  ∃ o, h.get? r = some o ∧ o.kind = k

/-- **`h.Live v`** — if the value refers to an object, the object is there. -/
def Live (h : Heap) (v : Value) : Prop :=
  ∀ r, v = .obj r → ∃ o, h.get? r = some o

@[simp]
theorem live_none : h.Live .none := nofun

@[simp]
theorem live_bool (b : Bool) : h.Live (.bool b) := nofun

@[simp]
theorem live_number (n : Float) : h.Live (.number n) := nofun

theorem live_obj : h.Live (.obj r) ↔ ∃ o, h.get? r = some o :=
  ⟨fun hv => hv r rfl, fun ho _ hr => Value.obj.inj hr ▸ ho⟩

theorem Has.live {k : Kind} (hr : h.Has r k) : h.Live (.obj r) :=
  let ⟨o, ho, _⟩ := hr
  live_obj.mpr ⟨o, ho⟩

theorem closure?_eq_some {c : Closure} : h.closure? r = some c ↔ h.get? r = some (.closure c) := by
  unfold closure?
  split
  · rename_i heq
    simp [heq]
  · rename_i hne
    simp only [reduceCtorEq, false_iff]
    exact hne c

theorem upvalue?_eq_some {u : Upvalue} : h.upvalue? r = some u ↔ h.get? r = some (.upvalue u) := by
  unfold upvalue?
  split
  · rename_i heq
    simp [heq]
  · rename_i hne
    simp only [reduceCtorEq, false_iff]
    exact hne u

theorem class?_eq_some {c : ClassObj} : h.class? r = some c ↔ h.get? r = some (.classObj c) := by
  unfold class?
  split
  · rename_i heq
    simp [heq]
  · rename_i hne
    simp only [reduceCtorEq, false_iff]
    exact hne c

theorem instance?_eq_some {i : InstanceObj} :
    h.instance? r = some i ↔ h.get? r = some (.instanceObj i) := by
  unfold instance?
  split
  · rename_i heq
    simp [heq]
  · rename_i hne
    simp only [reduceCtorEq, false_iff]
    exact hne i

theorem package?_eq_some {p : Package} : h.package? r = some p ↔ h.get? r = some (.package p) := by
  unfold package?
  split
  · rename_i heq
    simp [heq]
  · rename_i hne
    simp only [reduceCtorEq, false_iff]
    exact hne p

theorem task?_eq_some {t : TaskHandle} : h.task? r = some t ↔ h.get? r = some (.task t) := by
  unfold task?
  split
  · rename_i heq
    simp [heq]
  · rename_i hne
    simp only [reduceCtorEq, false_iff]
    exact hne t

/-- The key of a name is the name with the hash that its text object has. -/
theorem key?_eq_some {k : Key} :
    h.key? r = some k ↔ k.ref = r ∧ ∃ s, h.get? r = some (.string s k.hash) := by
  unfold key?
  split
  · rename_i s hash heq
    rw [heq]
    constructor
    · intro hk
      obtain rfl := Option.some.inj hk
      exact ⟨rfl, s, rfl⟩
    · rintro ⟨rfl, t, ht⟩
      obtain ⟨rfl, rfl⟩ := Obj.string.inj (Option.some.inj ht)
      rfl
  · rename_i hne
    simp only [reduceCtorEq, false_iff, not_and, not_exists]
    exact fun _ s => hne s k.hash

theorem has_string : h.Has r .string ↔ ∃ s, h.text? r = some s := by
  constructor
  · rintro ⟨o, ho, hk⟩
    cases o <;> simp_all [Obj.kind, text?]
  · rintro ⟨s, hs⟩
    obtain ⟨hash, ho⟩ := text?_eq_some.mp hs
    exact ⟨_, ho, rfl⟩

theorem has_closure : h.Has r .closure ↔ ∃ c, h.closure? r = some c := by
  constructor
  · rintro ⟨o, ho, hk⟩
    cases o <;> simp_all [Obj.kind, closure?]
  · rintro ⟨c, hc⟩
    exact ⟨_, closure?_eq_some.mp hc, rfl⟩

theorem has_upvalue : h.Has r .upvalue ↔ ∃ u, h.upvalue? r = some u := by
  constructor
  · rintro ⟨o, ho, hk⟩
    cases o <;> simp_all [Obj.kind, upvalue?]
  · rintro ⟨u, hu⟩
    exact ⟨_, upvalue?_eq_some.mp hu, rfl⟩

theorem has_class : h.Has r .classObj ↔ ∃ c, h.class? r = some c := by
  constructor
  · rintro ⟨o, ho, hk⟩
    cases o <;> simp_all [Obj.kind, class?]
  · rintro ⟨c, hc⟩
    exact ⟨_, class?_eq_some.mp hc, rfl⟩

theorem has_task : h.Has r .task ↔ ∃ t, h.task? r = some t := by
  constructor
  · rintro ⟨o, ho, hk⟩
    cases o <;> simp_all [Obj.kind, task?]
  · rintro ⟨t, ht⟩
    exact ⟨_, task?_eq_some.mp ht, rfl⟩

/-! ## Persisting and evolving -/

/-- **`h.Persists h'`** — what is at a slot in both heaps is the same object. -/
def Persists (h h' : Heap) : Prop :=
  ∀ r o o', h.get? r = some o → h'.get? r = some o' → o'.fixed = o.fixed

/-- The objects of some references are still there. -/
def EvolvesOn (h : Heap) (refs : Ref → Prop) (h' : Heap) : Prop :=
  ∀ r, refs r → ∀ o, h.get? r = some o → ∃ o', h'.get? r = some o' ∧ o'.fixed = o.fixed

/-- **`h.Evolves h'`** — every object is still there. -/
def Evolves (h h' : Heap) : Prop :=
  ∀ r o, h.get? r = some o → ∃ o', h'.get? r = some o' ∧ o'.fixed = o.fixed

theorem Evolves.refl (h : Heap) : h.Evolves h :=
  fun _ o ho => ⟨o, ho, rfl⟩

theorem Evolves.trans (hh : h.Evolves h') (hh' : h'.Evolves h'') : h.Evolves h'' := by
  intro r o ho
  obtain ⟨o', ho', hfixed⟩ := hh r o ho
  obtain ⟨o'', ho'', hfixed'⟩ := hh' r o' ho'
  exact ⟨o'', ho'', hfixed'.trans hfixed⟩

theorem Keeps.evolves (hk : h.Keeps h') : h.Evolves h' :=
  fun r o ho => ⟨o, hk r o ho, rfl⟩

theorem Evolves.on (hh : h.Evolves h') (refs : Ref → Prop) : h.EvolvesOn refs h' :=
  fun r _ o ho => hh r o ho

/-- What evolves is neither moved nor lost. -/
theorem Evolves.persists (hh : h.Evolves h') : h.Persists h' := by
  intro r o o' ho ho'
  obtain ⟨o'', ho'', hfixed⟩ := hh r o ho
  obtain rfl := Option.some.inj (ho'.symm.trans ho'')
  exact hfixed

section EvolvesOn

variable {refs : Ref → Prop} (hh : h.EvolvesOn refs h') (hr : refs r)
include hh hr

theorem EvolvesOn.has {k : Kind} (hk : h.Has r k) : h'.Has r k := by
  obtain ⟨o, ho, rfl⟩ := hk
  obtain ⟨o', ho', hfixed⟩ := hh r hr o ho
  exact ⟨o', ho', Obj.kind_eq_of_fixed hfixed⟩

theorem EvolvesOn.live (hv : h.Live (.obj r)) : h'.Live (.obj r) := by
  obtain ⟨o, ho⟩ := live_obj.mp hv
  obtain ⟨o', ho', -⟩ := hh r hr o ho
  exact live_obj.mpr ⟨o', ho'⟩

theorem EvolvesOn.string {s : String} {hash : UInt32} (hs : h.get? r = some (.string s hash)) :
    h'.get? r = some (.string s hash) := by
  obtain ⟨o', ho', hfixed⟩ := hh r hr _ hs
  rw [ho', Obj.eq_string_of_fixed hfixed]

theorem EvolvesOn.prototype? {p : Prototype} (hp : h.prototype? r = some p) :
    h'.prototype? r = some p := by
  obtain ⟨o', ho', hfixed⟩ := hh r hr _ (prototype?_eq_some.mp hp)
  rw [prototype?_eq_some, ho', Obj.eq_prototype_of_fixed hfixed]

theorem EvolvesOn.closure? {c : Closure} (hc : h.closure? r = some c) : h'.closure? r = some c := by
  obtain ⟨o', ho', hfixed⟩ := hh r hr _ (closure?_eq_some.mp hc)
  rw [closure?_eq_some, ho', Obj.eq_closure_of_fixed hfixed]

end EvolvesOn

section Evolves

variable (hh : h.Evolves h')
include hh

theorem Evolves.has {k : Kind} (hk : h.Has r k) : h'.Has r k :=
  (hh.on fun _ => True).has trivial hk

theorem Evolves.live {v : Value} (hv : h.Live v) : h'.Live v := by
  cases v with
  | obj r => exact (hh.on fun _ => True).live trivial hv
  | _ => nofun

theorem Evolves.prototype? {p : Prototype} (hp : h.prototype? r = some p) :
    h'.prototype? r = some p :=
  (hh.on fun _ => True).prototype? trivial hp

theorem Evolves.closure? {c : Closure} (hc : h.closure? r = some c) : h'.closure? r = some c :=
  (hh.on fun _ => True).closure? trivial hc

end Evolves

/-! ## Changing an object -/

/-- A modification is of one object. -/
theorem get?_modify (h : Heap) (r : Ref) (f : Obj → Obj) (r' : Ref) :
    (h.modify r f).get? r' = if r' = r then (h.get? r').map f else h.get? r' := by
  rw [get?_of_cells, get?_of_cells]
  unfold modify
  simp only [Array.getElem?_modify]
  by_cases heq : r' = r
  · subst heq
    rw [if_pos rfl, if_pos rfl]
    rcases h.cells[r'.index]? with _ | _ | c <;> rfl
  · have hne : r.index ≠ r'.index := fun hi => heq (by cases r; cases r'; cases hi; rfl)
    rw [if_neg hne, if_neg heq]

theorem Tidy.modify (ht : h.Tidy) (r : Ref) (f : Obj → Obj) : (h.modify r f).Tidy := by
  refine ⟨fun i hi => ?_, ht.distinct⟩
  show (h.cells.modify _ _)[i]? = some none
  rw [Array.getElem?_modify, ht.vacant i hi]
  split <;> rfl

/-- A modification that spares what is fixed is an evolution. -/
theorem evolves_modify {f : Obj → Obj} (hf : ∀ o, h.get? r = some o → (f o).fixed = o.fixed) :
    h.Evolves (h.modify r f) := by
  intro r' o ho
  rw [get?_modify, ho]
  by_cases heq : r' = r
  · subst heq
    exact ⟨f o, by simp, hf o ho⟩
  · exact ⟨o, by simp [heq], rfl⟩

/-! ## Cells of variables and handles of tasks -/

/-- A native function. -/
def native? (h : Heap) (r : Ref) : Option Native :=
  match h.get? r with
  | some (.native n) => some n
  | _ => none

/-- **`h.Still h'`** — the heap evolves, while no cell of a captured variable, no task handle and no
native function is made or changed; collections are paused as before. -/
structure Still (h h' : Heap) : Prop where
  evolves : h.Evolves h'
  pauses : h'.pauses = h.pauses
  upvalues : ∀ r, h'.upvalue? r = h.upvalue? r
  tasks : ∀ r, h'.task? r = h.task? r
  natives : ∀ r, h'.native? r = h.native? r

theorem Still.refl (h : Heap) : h.Still h :=
  ⟨.refl h, rfl, fun _ => rfl, fun _ => rfl, fun _ => rfl⟩

theorem Still.trans (hs : h.Still h') (hs' : h'.Still h'') : h.Still h'' :=
  ⟨hs.evolves.trans hs'.evolves, hs'.pauses.trans hs.pauses,
    fun r => (hs'.upvalues r).trans (hs.upvalues r),
    fun r => (hs'.tasks r).trans (hs.tasks r), fun r => (hs'.natives r).trans (hs.natives r)⟩

/-- What is seen of an object as a cell, a handle or a native function. -/
theorem views_congr (hr : h'.get? r = h.get? r) :
    h'.upvalue? r = h.upvalue? r ∧ h'.task? r = h.task? r ∧ h'.native? r = h.native? r := by
  unfold upvalue? task? native?
  rw [hr]
  exact ⟨rfl, rfl, rfl⟩

/-- A plain object is seen as none of these. -/
theorem views_of_plain (ho : ∀ o, h.get? r = some o → o.isPlain = true) :
    h.upvalue? r = none ∧ h.task? r = none ∧ h.native? r = none := by
  unfold upvalue? task? native?
  cases hr : h.get? r with
  | none => exact ⟨rfl, rfl, rfl⟩
  | some o => cases o <;> simp_all [Obj.isPlain, Obj.kind]

/-- The heap evolves, and each slot is the same or holds a plain object before and after. -/
theorem Evolves.still (hh : h.Evolves h') (hp : h'.pauses = h.pauses) (hr : ∀ r, h'.get? r = h.get? r ∨
    (∀ o, h.get? r = some o → o.isPlain = true) ∧ ∀ o, h'.get? r = some o → o.isPlain = true) :
    h.Still h' := by
  have hviews : ∀ r, h'.upvalue? r = h.upvalue? r ∧ h'.task? r = h.task? r ∧
      h'.native? r = h.native? r := by
    intro r
    rcases hr r with heq | ⟨hbefore, hafter⟩
    · exact views_congr heq
    · obtain ⟨hu, ht, hn⟩ := views_of_plain hbefore
      obtain ⟨hu', ht', hn'⟩ := views_of_plain hafter
      exact ⟨hu'.trans hu.symm, ht'.trans ht.symm, hn'.trans hn.symm⟩
  exact ⟨hh, hp, fun r => (hviews r).1, fun r => (hviews r).2.1, fun r => (hviews r).2.2⟩

/-- **`h.Abides h'`** — a run pauses no collections and makes no native functions: that is left to
those who use the machine. -/
structure Abides (h h' : Heap) : Prop where
  pauses : h'.pauses = h.pauses
  natives : ∀ r n, h'.native? r = some n → h.native? r = some n

theorem Abides.refl (h : Heap) : h.Abides h :=
  ⟨rfl, fun _ _ hn => hn⟩

theorem Abides.trans (ha : h.Abides h') (ha' : h'.Abides h'') : h.Abides h'' :=
  ⟨ha'.pauses.trans ha.pauses, fun r n hn => ha.natives r n (ha'.natives r n hn)⟩

theorem Still.abides (hs : h.Still h') : h.Abides h' :=
  ⟨hs.pauses, fun r _ hn => hs.natives r ▸ hn⟩

theorem native?_eq_some {n : Native} : h.native? r = some n ↔ h.get? r = some (.native n) := by
  unfold native?
  split <;> simp_all

/-- A heap that evolves without a new native function. -/
theorem Evolves.abides (hh : h.Evolves h') (hp : h'.pauses = h.pauses)
    (hnew : ∀ r o, h.get? r = none → h'.get? r = some o → o.kind ≠ .native) : h.Abides h' := by
  refine ⟨hp, fun r n hn => native?_eq_some.mpr ?_⟩
  have hr' := native?_eq_some.mp hn
  cases hr : h.get? r with
  | none => exact (hnew r _ hr hr' rfl).elim
  | some o =>
    obtain ⟨o', ho', hfixed⟩ := hh r o hr
    obtain rfl := Option.some.inj (ho'.symm.trans hr')
    have hkind := Obj.kind_eq_of_fixed hfixed
    cases o <;> simp_all [Obj.fixed, Obj.kind]

theorem pauses_alloc (h : Heap) (o : Obj) : (h.alloc o).2.pauses = h.pauses := by
  unfold alloc
  split <;> rfl

theorem Tidy.abides_alloc (ht : h.Tidy) (ho : o.kind ≠ .native) : h.Abides (h.alloc o).2 := by
  refine (ht.keeps_alloc o).evolves.abides (h.pauses_alloc o) fun r o' hr ho' => ?_
  rw [ht.get?_alloc] at ho'
  split at ho'
  · obtain rfl := Option.some.inj ho'
    exact ho
  · rw [hr] at ho'
    cases ho'

theorem abides_modify {f : Obj → Obj} (hf : ∀ o, h.get? r = some o → (f o).fixed = o.fixed) :
    h.Abides (h.modify r f) := by
  refine (evolves_modify hf).abides rfl fun r' o hr ho => ?_
  rw [get?_modify, hr] at ho
  split at ho <;> cases ho

/-- A plain object may be added. -/
theorem Tidy.still_alloc (ht : h.Tidy) (hp : o.isPlain = true) : h.Still (h.alloc o).2 := by
  refine (ht.keeps_alloc o).evolves.still (h.pauses_alloc o) fun r => ?_
  rw [ht.get?_alloc]
  by_cases hr : r = (h.alloc o).1
  · refine .inr ⟨?_, ?_⟩
    · rw [hr, ht.get?_alloc_fst]
      nofun
    · rw [if_pos hr]
      rintro _ ⟨⟩
      exact hp
  · exact .inl (if_neg hr)

/-- Plain objects may be modified. -/
theorem still_modify {f : Obj → Obj}
    (hf : ∀ o, h.get? r = some o → f o = o ∨ (f o).fixed = o.fixed ∧ o.isPlain = true) :
    h.Still (h.modify r f) := by
  have hfixed : ∀ o, h.get? r = some o → (f o).fixed = o.fixed := fun o ho =>
    (hf o ho).elim (congrArg Obj.fixed) And.left
  refine (evolves_modify hfixed).still rfl fun r' => ?_
  rw [get?_modify]
  by_cases heq : r' = r
  · subst heq
    rw [if_pos rfl]
    cases ho : h.get? r' with
    | none => exact .inl rfl
    | some o =>
      rcases hf o ho with hsame | ⟨hchanged, hplain⟩
      · exact .inl (congrArg some hsame)
      · refine .inr ⟨?_, ?_⟩
        · rintro _ ⟨⟩
          exact hplain
        · rintro _ ⟨⟩
          rw [Obj.isPlain, Obj.kind_eq_of_fixed hchanged]
          exact hplain
  · exact .inl (if_neg heq)

/-- The heap with other tables and counts, but the same objects. -/
theorem evolves_of_get? (hr : ∀ r, h'.get? r = h.get? r) : h.Evolves h' :=
  fun r o ho => ⟨o, (hr r).trans ho, rfl⟩

theorem Still.of_get? (hr : ∀ r, h'.get? r = h.get? r) (hp : h'.pauses = h.pauses) : h.Still h' :=
  (evolves_of_get? hr).still hp fun r => .inl (hr r)

/-- **`h.Calm h'`** — what is at a slot in both heaps is the same object, and no cell of a captured
variable and no task handle is made or changed. Objects may be gone. -/
structure Calm (h h' : Heap) : Prop where
  persists : h.Persists h'
  abides : h.Abides h'
  upvalues : ∀ r u, h'.upvalue? r = some u → h.upvalue? r = some u
  tasks : ∀ r t, h'.task? r = some t → h.task? r = some t

theorem Still.calm (hs : h.Still h') : h.Calm h' :=
  ⟨hs.evolves.persists, hs.abides, fun r _ hu => hs.upvalues r ▸ hu, fun r _ ht => hs.tasks r ▸ ht⟩

/-- Calm after something still is calm. -/
theorem Still.calm_trans (hs : h.Still h') (hc : h'.Calm h'') : h.Calm h'' where
  persists r o o'' ho ho'' := by
    obtain ⟨o', ho', hfixed⟩ := hs.evolves r o ho
    exact (hc.persists r o' o'' ho' ho'').trans hfixed
  abides := hs.abides.trans hc.abides
  upvalues r u hu := hs.upvalues r ▸ hc.upvalues r u hu
  tasks r t ht := hs.tasks r ▸ hc.tasks r t ht

theorem Tidy.still_intern (ht : h.Tidy) (s : String) : h.Still (h.intern s).2 := by
  cases hr : h.interned? s (hashText s) with
  | some r =>
    rw [intern_of_some hr]
    exact .refl h
  | none =>
    rw [intern_of_none hr]
    exact (ht.still_alloc rfl).trans (.of_get? (fun _ => rfl) rfl)

end Heap

end ScriptMachine
