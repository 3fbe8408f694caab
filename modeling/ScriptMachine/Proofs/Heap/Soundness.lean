import Mathlib
import ScriptMachine.Proofs.Code.Annotation
import ScriptMachine.Proofs.Heap.Contents
import ScriptMachine.Proofs.Heap.Evolution

/-!
# ScriptMachine.Proofs.Heap.Soundness — references that stand for something

An object is *sound* in a heap when everything it refers to is there, and of the right kind wherever
only one kind makes sense. A heap is sound when its objects are. Soundness of an object lasts as long
as what it refers to does: it does not depend on the changing parts of other objects.

Code is a matter of its own. A function is *trusted* when its code is disciplined and its notes are
true, given what its constants stand for, and the same holds of every function among its constants.
A sound heap whose closures are made of trusted functions is *healthy*.

`EvolvesOn.sound` and `Persists.trusts` are what makes these notions usable: an object stays sound as long
as what it refers to stays, and a trusted function stays trusted as long as it is there, so that a step
has to account only for the objects it makes or changes. `Sound.alloc`, `Sound.modify`,
`Healthy.alloc` and `Healthy.modify` are those accounts.

`Honest` is an assumption and not a result. What a host function answers is up to its host, and a host
that makes references up could break any of this.
-/

namespace ScriptMachine

/-! ## Tables -/

/-- **`t.Holds h P`** — the keys of the table are strings of the heap, and its values satisfy `P`. -/
def Table.Holds (t : Table Value) (h : Heap) (P : Value → Prop) : Prop :=
  ∀ e ∈ t.toList, h.Has e.1.ref .string ∧ P e.2

namespace Table

variable {t source : Table Value} {h h' : Heap} {P P' : Value → Prop} {k : Key} {v : Value}

theorem holds_empty : (empty : Table Value).Holds h P := by
  simp [Holds]

theorem Holds.get? (ht : t.Holds h P) (hv : t.get? k = some v) : P v := by
  obtain ⟨k', hk'⟩ := mem_of_get? hv
  exact (ht _ hk').2

/-- An entry is added under the key of a text. -/
theorem Holds.set (ht : t.Holds h P) (hk : h.Has k.ref .string) (hv : P v) :
    (t.set k v).Holds h P := by
  intro e he
  rcases mem_set he with he | rfl
  · exact ht e he
  · exact ⟨hk, hv⟩

theorem Holds.addAll (ht : t.Holds h P) (hs : source.Holds h P) : (t.addAll source).Holds h P := by
  intro e he
  rcases mem_addAll he with he | he
  · exact ht e he
  · exact hs e he

end Table

/-! ## Objects -/

/-- The value is a closure. -/
def Heap.IsMethod (h : Heap) (v : Value) : Prop :=
  ∃ r, v = .obj r ∧ h.Has r .closure

/-- **`o.Sound h`** — what the object refers to is in the heap, and of the kind that its place asks
for. -/
def Obj.Sound (h : Heap) : Obj → Prop
  | .string .. | .native _ | .upvalue (.onStack ..) => True
  | .prototype p =>
    (∀ r ∈ p.name, h.Has r .string) ∧ (∀ r ∈ p.path, h.Has r .string) ∧
      ∀ v ∈ p.chunk.constants, h.Live v
  | .closure c =>
    h.Has c.prototype .prototype ∧ (∀ r ∈ c.upvalues, h.Has r .upvalue) ∧
      ∀ r ∈ c.package, h.Has r .package
  | .upvalue (.closed v) => h.Live v
  | .classObj c =>
    h.Has c.name .string ∧ (∀ r ∈ c.superclass, h.Has r .classObj) ∧
      (∀ r ∈ c.package, h.Has r .package) ∧ c.methods.Holds h h.IsMethod ∧
      c.fields.Holds h h.Live ∧ c.statics.Holds h h.Live
  | .instanceObj i => h.Has i.classRef .classObj ∧ i.fields.Holds h h.Live
  | .boundMethod b => h.Has b.method .closure ∧ h.Live b.receiver
  | .list items => ∀ v ∈ items, h.Live v
  | .dict d => ∀ v ∈ d.values, h.Live v
  | .enumeration e => h.Has e.name .string ∧ e.members.Holds h h.Live ∧ h.Live e.last
  | .enumMember m => h.Has m.owner .enumeration ∧ h.Has m.name .string ∧ h.Live m.value
  | .package p =>
    h.Has p.name .string ∧ (∀ r ∈ p.parent, h.Has r .package) ∧ p.symbols.Holds h h.Live
  | .task t => h.Has t.name .string ∧ h.Live t.result

namespace Heap

variable {h h' h'' : Heap} {r : Ref} {o : Obj} {v : Value}

/-! ## What lasts -/

section EvolvesOn

variable {refs : Ref → Prop} (hh : h.EvolvesOn refs h')
include hh

theorem EvolvesOn.value (hv : h.Live v) (hr : ∀ r, v = .obj r → refs r) : h'.Live v := by
  cases v with
  | obj r => exact hh.live (hr r rfl) hv
  | _ => nofun

theorem EvolvesOn.isMethod (hv : h.IsMethod v) (hr : ∀ r, v = .obj r → refs r) : h'.IsMethod v := by
  obtain ⟨r, rfl, hr'⟩ := hv
  exact ⟨r, rfl, hh.has (hr r rfl) hr'⟩

/-- A table whose references are kept holds what it held. -/
theorem EvolvesOn.holds {t : Table Value} {P P' : Value → Prop} (ht : t.Holds h P)
    (hr : ∀ r ∈ t.references, refs r) (hP : ∀ v, P v → (∀ r, v = .obj r → refs r) → P' v) :
    t.Holds h' P' := by
  intro e he
  obtain ⟨hk, hv⟩ := ht e he
  refine ⟨hh.has (hr _ (Table.mem_references.mpr ⟨e, he, .inl rfl⟩)) hk, hP _ hv fun r hrv => ?_⟩
  exact hr _ (Table.mem_references.mpr ⟨e, he, .inr hrv⟩)

/-- **`EvolvesOn.sound`** — an object stays sound as long as what it refers to stays. -/
theorem EvolvesOn.sound (ho : o.Sound h) (hr : ∀ r ∈ o.references, refs r) : o.Sound h' := by
  have hmem : ∀ {vs : List Value} {v : Value}, v ∈ vs → ∀ r, v = .obj r →
      r ∈ vs.filterMap Value.ref? := fun hv r heq =>
    List.mem_filterMap.mpr ⟨_, hv, by rw [heq]; rfl⟩
  cases o with
  | string | native => trivial
  | prototype p =>
    obtain ⟨hname, hpath, hconstants⟩ := ho
    refine ⟨fun r h => hh.has (hr r ?_) (hname r h), fun r h => hh.has (hr r ?_) (hpath r h),
      fun v h => hh.value (hconstants v h) fun r heq => hr r ?_⟩
    · exact List.mem_append_left _ (List.mem_append_left _ (Option.mem_toList.mpr h))
    · exact List.mem_append_left _ (List.mem_append_right _ (Option.mem_toList.mpr h))
    · exact List.mem_append_right _ (hmem (Array.mem_toList_iff.mpr h) r heq)
  | closure c =>
    obtain ⟨hprototype, hupvalues, hpackage⟩ := ho
    refine ⟨hh.has (hr _ List.mem_cons_self) hprototype,
      fun r h => hh.has (hr r (.tail _ ?_)) (hupvalues r h),
      fun r h => hh.has (hr r (.tail _ ?_)) (hpackage r h)⟩
    · exact List.mem_append_left _ (Array.mem_toList_iff.mpr h)
    · exact List.mem_append_right _ (Option.mem_toList.mpr h)
  | upvalue u =>
    cases u with
    | onStack => trivial
    | closed v => exact hh.value ho fun r heq => hr r (by subst heq; exact List.mem_singleton_self r)
  | classObj c =>
    obtain ⟨hname, hsuper, hpackage, hmethods, hfields, hstatics⟩ := ho
    simp only [Obj.references, List.mem_cons, List.mem_append, Option.mem_toList] at hr
    exact ⟨hh.has (hr _ (.inl rfl)) hname, fun r h => hh.has (hr r (by tauto)) (hsuper r h),
      fun r h => hh.has (hr r (by tauto)) (hpackage r h),
      hh.holds hmethods (fun r h => hr r (by tauto)) fun _ => hh.isMethod,
      hh.holds hfields (fun r h => hr r (by tauto)) fun _ => hh.value,
      hh.holds hstatics (fun r h => hr r (by tauto)) fun _ => hh.value⟩
  | instanceObj i =>
    exact ⟨hh.has (hr _ List.mem_cons_self) ho.1,
      hh.holds ho.2 (fun r h => hr r (.tail _ h)) fun _ => hh.value⟩
  | boundMethod b =>
    exact ⟨hh.has (hr _ List.mem_cons_self) ho.1,
      hh.value ho.2 fun r heq => hr r (.tail _ (by rw [heq]; exact List.mem_singleton_self r))⟩
  | list items =>
    exact fun v h => hh.value (ho v h) fun r heq => hr r (hmem (Array.mem_toList_iff.mpr h) r heq)
  | dict d => exact fun v h => hh.value (ho v h) fun r heq => hr r (hmem h r heq)
  | enumeration e =>
    obtain ⟨hname, hmembers, hlast⟩ := ho
    refine ⟨hh.has (hr _ List.mem_cons_self) hname,
      hh.holds hmembers (fun r h => hr r (.tail _ (List.mem_append_left _ h))) fun _ => hh.value,
      hh.value hlast fun r heq => hr r (.tail _ (List.mem_append_right _ ?_))⟩
    rw [heq]
    exact List.mem_singleton_self r
  | enumMember m =>
    obtain ⟨howner, hname, hvalue⟩ := ho
    refine ⟨hh.has (hr _ List.mem_cons_self) howner, hh.has (hr _ (.tail _ List.mem_cons_self)) hname,
      hh.value hvalue fun r heq => hr r (.tail _ (.tail _ ?_))⟩
    rw [heq]
    exact List.mem_singleton_self r
  | package p =>
    obtain ⟨hname, hparent, hsymbols⟩ := ho
    exact ⟨hh.has (hr _ List.mem_cons_self) hname,
      fun r h => hh.has (hr r (.tail _ (List.mem_append_left _ (Option.mem_toList.mpr h))))
        (hparent r h),
      hh.holds hsymbols (fun r h => hr r (.tail _ (List.mem_append_right _ h))) fun _ => hh.value⟩
  | task t =>
    exact ⟨hh.has (hr _ List.mem_cons_self) ho.1,
      hh.value ho.2 fun r heq => hr r (.tail _ (by rw [heq]; exact List.mem_singleton_self r))⟩

end EvolvesOn

section Evolves

variable (hh : h.Evolves h')
include hh

theorem Evolves.isMethod (hv : h.IsMethod v) : h'.IsMethod v :=
  (hh.on fun _ => True).isMethod hv fun _ _ => trivial

theorem Evolves.obj_sound (ho : o.Sound h) : o.Sound h' :=
  (hh.on fun _ => True).sound ho fun _ _ => trivial

end Evolves

/-! ## Sound heaps -/

/-- **`h.Sound`** — every object is sound, no slot is marked, and the free list is in order. -/
structure Sound (h : Heap) : Prop where
  tidy : h.Tidy
  unmarked : h.Unmarked
  objects : ∀ r o, h.get? r = some o → o.Sound h

theorem Sound.closure {c : Closure} (hs : h.Sound) (hc : h.closure? r = some c) :
    (Obj.closure c).Sound h :=
  hs.objects r _ (closure?_eq_some.mp hc)

theorem Sound.prototype {p : Prototype} (hs : h.Sound) (hp : h.prototype? r = some p) :
    (Obj.prototype p).Sound h :=
  hs.objects r _ (prototype?_eq_some.mp hp)

theorem new_sound (config : HeapConfig) : (new config).Sound :=
  ⟨new_tidy config, new_unmarked config, by simp [new, get?]⟩

/-- A heap with other tables and counts. -/
theorem Sound.of_cells (hs : h.Sound) (hcells : h'.cells = h.cells) (hfree : h'.free = h.free) :
    h'.Sound := by
  have hget : ∀ r, h'.get? r = h.get? r := fun r => by unfold get?; rw [hcells]
  refine ⟨⟨?_, ?_⟩, ?_, fun r o ho => ?_⟩
  · rw [hcells, hfree]
    exact hs.tidy.vacant
  · rw [hfree]
    exact hs.tidy.distinct
  · intro i c hc
    rw [hcells] at hc
    exact hs.unmarked i c hc
  · exact (evolves_of_get? hget).obj_sound (hs.objects r o (hget r ▸ ho))

/-- A sound object may be added. -/
theorem Sound.alloc (hs : h.Sound) (ho : o.Sound h) : (h.alloc o).2.Sound := by
  have hevolves := (hs.tidy.keeps_alloc o).evolves
  refine ⟨hs.tidy.alloc o, hs.unmarked.alloc o, fun r o' ho' => ?_⟩
  rw [hs.tidy.get?_alloc] at ho'
  split at ho'
  · obtain rfl := Option.some.inj ho'
    exact hevolves.obj_sound ho
  · exact hevolves.obj_sound (hs.objects r o' ho')

/-- An object may be modified, if it stays of its kind and sound. -/
theorem Sound.modify {f : Obj → Obj} (hs : h.Sound)
    (hf : ∀ o, h.get? r = some o → (f o).fixed = o.fixed)
    (ho : ∀ o, h.get? r = some o → o.Sound h → (f o).Sound h) : (h.modify r f).Sound := by
  have hevolves : h.Evolves (h.modify r f) := evolves_modify hf
  refine ⟨hs.tidy.modify r f, hs.unmarked.modify r f, fun r' o' ho' => ?_⟩
  rw [get?_modify] at ho'
  split at ho'
  · rename_i heq
    subst heq
    obtain ⟨o, hget, rfl⟩ := Option.map_eq_some_iff.mp ho'
    exact hevolves.obj_sound (ho o hget (hs.objects r' o hget))
  · exact hevolves.obj_sound (hs.objects r' o' ho')

/-! ## Trusted functions -/

/-- What the constants of a function stand for. -/
def pool (h : Heap) (p : Prototype) : Pool where
  size := p.chunk.constants.size
  isName k := ∃ r, p.chunk.constant? k = some (.obj r) ∧ h.Has r .string
  isFunction k n := ∃ r q, p.chunk.constant? k = some (.obj r) ∧ h.prototype? r = some q ∧
    q.captureCount = n
  isThunk k := ∃ r q, p.chunk.constant? k = some (.obj r) ∧ h.prototype? r = some q ∧ q.arity = 0
  captures := p.captureCount

/-- **`h.Lists p listing`** — the code of a function is that of a listing, which is disciplined and
which the notes of the function tell the truth about. -/
structure Lists (h : Heap) (p : Prototype) (listing : List Placed) : Prop where
  disciplined : ∃ statements closures,
    Disciplined (h.pool p) p.arity p.chunk.code statements closures listing
  annotates : Annotates (h.pool p) p.chunk listing

/-- **`h.Trusts r`** — the function at `r` has a listing, and so have the functions among its
constants. -/
inductive Trusts (h : Heap) : Ref → Prop
  | intro {r : Ref} {p : Prototype} {listing : List Placed} (hp : h.prototype? r = some p)
      (hlists : h.Lists p listing)
      (hconstants : ∀ r' q, .obj r' ∈ p.chunk.constants → h.prototype? r' = some q → h.Trusts r') :
      Trusts h r

/-- **`h.Made c`** — the closure is made of a trusted function and has all its captures. -/
def Made (h : Heap) (c : Closure) : Prop :=
  h.Trusts c.prototype ∧ ∀ p, h.prototype? c.prototype = some p → c.upvalues.size = p.captureCount

/-- **`h.Healthy`** — the heap is sound, and its closures are made of trusted functions. -/
structure Healthy (h : Heap) : Prop where
  sound : h.Sound
  made : ∀ r c, h.closure? r = some c → h.Made c

theorem Trusts.prototype (ht : h.Trusts r) :
    ∃ p listing, h.prototype? r = some p ∧ h.Lists p listing := by
  obtain ⟨hp, hlists, -⟩ := ht
  exact ⟨_, _, hp, hlists⟩

/-! ### What lasts of code -/

section Persists

variable (hh : h.Persists h')
include hh

/-- An object that is still there is of the kind that it was. -/
theorem Persists.has {k : Kind} (hk : h.Has r k) (hr : h'.Live (.obj r)) : h'.Has r k := by
  obtain ⟨o, ho, rfl⟩ := hk
  obtain ⟨o', ho'⟩ := live_obj.mp hr
  exact ⟨o', ho', Obj.kind_eq_of_fixed (hh r o o' ho ho')⟩

theorem Persists.prototype? {p : Prototype} (hp : h.prototype? r = some p)
    (hr : h'.Live (.obj r)) : h'.prototype? r = some p := by
  obtain ⟨o', ho'⟩ := live_obj.mp hr
  rw [prototype?_eq_some, ho',
    Obj.eq_prototype_of_fixed (hh r _ o' (prototype?_eq_some.mp hp) ho')]

theorem Persists.closure? {c : Closure} (hc : h.closure? r = some c)
    (hr : h'.Live (.obj r)) : h'.closure? r = some c := by
  obtain ⟨o', ho'⟩ := live_obj.mp hr
  rw [closure?_eq_some, ho', Obj.eq_closure_of_fixed (hh r _ o' (closure?_eq_some.mp hc) ho')]

/-- What is a function now was the same function before, if it was there. -/
theorem Persists.prototype?_back {p : Prototype} (hp : h'.prototype? r = some p)
    (hr : h.Live (.obj r)) : h.prototype? r = some p := by
  obtain ⟨o, ho⟩ := live_obj.mp hr
  rw [prototype?_eq_some, ho,
    Obj.eq_prototype_of_fixed (hh r o _ ho (prototype?_eq_some.mp hp)).symm]

/-- Constants of code that persists are of the kinds that they were. -/
theorem Persists.pool {p : Prototype} (hp : (Obj.prototype p).Sound h') :
    (h.pool p).Extends (h'.pool p) := by
  have hlive : ∀ {k : Nat} {r : Ref}, p.chunk.constant? k = some (.obj r) → h'.Live (.obj r) :=
    fun hk => hp.2.2 _ (Array.mem_of_getElem? hk)
  refine ⟨Nat.le_refl _, ?_, ?_, ?_, Nat.le_refl _⟩
  · rintro k ⟨r, hk, hr⟩
    exact ⟨r, hk, hh.has hr (hlive hk)⟩
  · rintro k n ⟨r, q, hk, hq, hn⟩
    exact ⟨r, q, hk, hh.prototype? hq (hlive hk), hn⟩
  · rintro k ⟨r, q, hk, hq, hn⟩
    exact ⟨r, q, hk, hh.prototype? hq (hlive hk), hn⟩

/-- So its listing is still right. -/
theorem Persists.lists {p : Prototype} {listing : List Placed} (hl : h.Lists p listing)
    (hp : (Obj.prototype p).Sound h') : h'.Lists p listing := by
  obtain ⟨statements, closures, hd⟩ := hl.disciplined
  exact ⟨⟨statements, closures, hd.extend (hh.pool hp)⟩,
    hl.annotates.of_notes ⟨rfl, rfl, rfl⟩ (hh.pool hp)⟩

/-- **`Persists.trusts`** — a trusted function stays trusted as long as it is there. -/
theorem Persists.trusts (hs : h.Sound) (hs' : h'.Sound) (ht : h.Trusts r)
    (hr : h'.Live (.obj r)) : h'.Trusts r := by
  induction ht with
  | intro hp hlists _ ih =>
    have hp' := hh.prototype? hp hr
    have hsound' := hs'.prototype hp'
    refine .intro hp' (hh.lists hlists hsound') fun r' q hr' hq => ?_
    have hlive := hsound'.2.2 _ hr'
    exact ih r' q hr' (hh.prototype?_back hq ((hs.prototype hp).2.2 _ hr')) hlive

/-- A closure that persists has the variables that its function captures. -/
theorem Persists.made {c : Closure} (hs : h.Sound) (hs' : h'.Sound) (hc : h.Made c)
    (hr : h'.Live (.obj c.prototype)) : h'.Made c := by
  refine ⟨hh.trusts hs hs' hc.1 hr, fun p hp => hc.2 p (hh.prototype?_back hp ?_)⟩
  obtain ⟨p, -, hp, -⟩ := hc.1.prototype
  exact live_obj.mpr ⟨_, prototype?_eq_some.mp hp⟩

/-- A sound heap is healthy if its closures could have been made before. -/
theorem Persists.healthy (hs : h.Sound) (hs' : h'.Sound)
    (hback : ∀ r c, h'.closure? r = some c → h.Made c) : h'.Healthy :=
  ⟨hs', fun r c hc => hh.made hs hs' (hback r c hc) (hs'.closure hc).1.live⟩

end Persists

/-! ## Healthy heaps -/

theorem new_healthy (config : HeapConfig) : (new config).Healthy :=
  ⟨new_sound config, by simp [new, closure?, get?]⟩

/-- A closure that is added has to be one that its function can be made into. -/
theorem Healthy.alloc (hh : h.Healthy) (ho : o.Sound h) (hc : ∀ c, o = .closure c → h.Made c) :
    (h.alloc o).2.Healthy := by
  refine (hh.sound.tidy.keeps_alloc o).evolves.persists.healthy hh.sound (hh.sound.alloc ho) ?_
  intro r c hrc
  rw [closure?_eq_some, hh.sound.tidy.get?_alloc] at hrc
  split at hrc
  · exact hc c (Option.some.inj hrc)
  · exact hh.made r c (closure?_eq_some.mpr hrc)

theorem Healthy.of_cells (hh : h.Healthy) (hcells : h'.cells = h.cells) (hfree : h'.free = h.free) :
    h'.Healthy := by
  have hget : ∀ r, h'.get? r = h.get? r := fun r => by unfold get?; rw [hcells]
  refine (evolves_of_get? hget).persists.healthy hh.sound (hh.sound.of_cells hcells hfree) ?_
  intro r c hrc
  rw [closure?_eq_some, hget] at hrc
  exact hh.made r c (closure?_eq_some.mpr hrc)

theorem Healthy.intern (hh : h.Healthy) (s : String) : (h.intern s).2.Healthy := by
  cases hr : h.interned? s (hashText s) with
  | some r =>
    rw [intern_of_some hr]
    exact hh
  | none =>
    rw [intern_of_none hr]
    have halloc : (h.alloc (.string s (hashText s))).2.Healthy := hh.alloc (by trivial) nofun
    exact halloc.of_cells rfl rfl

/-- Closures and prototypes are never modified, so only soundness is at stake. -/
theorem Healthy.modify {f : Obj → Obj} (hh : h.Healthy)
    (hf : ∀ o, h.get? r = some o → (f o).fixed = o.fixed)
    (ho : ∀ o, h.get? r = some o → o.Sound h → (f o).Sound h) : (h.modify r f).Healthy := by
  refine (evolves_modify hf).persists.healthy hh.sound (hh.sound.modify hf ho) ?_
  intro r' c hrc
  rw [closure?_eq_some, get?_modify] at hrc
  split at hrc
  · obtain ⟨o, hget, heq⟩ := Option.map_eq_some_iff.mp hrc
    rename_i hr
    subst hr
    have hfixed := hf o hget
    rw [heq] at hfixed
    rw [Obj.eq_closure_of_fixed hfixed.symm] at hget
    exact hh.made r' c (closure?_eq_some.mpr hget)
  · exact hh.made r' c (closure?_eq_some.mpr hrc)

/-! ## Functions from outside -/

/-- **`h.Honest`** — a host function answers with one of its arguments, with an object that is there,
or with a plain value. -/
def Honest (h : Heap) : Prop :=
  ∀ r n f, h.native? r = some n → n.body = .host f →
    ∀ render args v, f render args = .ok v → v ∈ args ∨ h.Live v

theorem Still.honest (hs : h.Still h') (hh : h.Honest) : h'.Honest := by
  intro r n f hn hf render args v hv
  rw [hs.natives] at hn
  exact (hh r n f hn hf render args v hv).imp id hs.evolves.live

end Heap

end ScriptMachine
