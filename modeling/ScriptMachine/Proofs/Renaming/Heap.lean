import Mathlib
import ScriptMachine.Proofs.Heap.Interning
import ScriptMachine.Proofs.Renaming.Pairing

/-!
# ScriptMachine.Proofs.Renaming.Heap — heaps with the same objects in other slots

Two heaps are alike under a pairing when paired references stand for like objects. Nothing is said of
objects without a partner: each heap can hold garbage the other has lost, and the slots that are free
can be others. So the two give different references when they allocate, and one can make a string anew
where the other still finds it. Each of these operations ends with the heaps alike under a pairing that
has one more pair.

`Like.alloc`, `Like.intern` and `Like.modify` are the three operations, and everything that machines do to
heaps is made of them. Interning is the one where the heaps may go different ways: one has the text and
finds it, the other has collected it and makes it anew. Both have it afterwards, as a pair.
-/

namespace ScriptMachine

variable {β β' : Pairing} {r s : Ref}

/-! ## Objects -/

/-- The same code with constants under other references. -/
structure Chunk.Like (β : Pairing) (c d : Chunk) : Prop where
  code : c.code = d.code
  constants : Aligned (Value.Like β) c.constants d.constants
  lines : c.lines = d.lines
  scopes : c.scopes = d.scopes
  catches : c.catches = d.catches
  meant : c.meant = d.meant

/-- The same function under other references. -/
structure Prototype.Like (β : Pairing) (p q : Prototype) : Prop where
  arity : p.arity = q.arity
  captureCount : p.captureCount = q.captureCount
  isStatic : p.isStatic = q.isStatic
  name : Option.Rel β.rel p.name q.name
  path : Option.Rel β.rel p.path q.path
  chunk : p.chunk.Like β q.chunk
  docs : p.docs = q.docs

/-- The same closure under other references. -/
structure Closure.Like (β : Pairing) (c d : Closure) : Prop where
  prototype : β.rel c.prototype d.prototype
  upvalues : Aligned β.rel c.upvalues d.upvalues
  package : Option.Rel β.rel c.package d.package

/-- The same variable: in the same slot of the same task, or with the same value. -/
inductive Upvalue.Like (β : Pairing) : Upvalue → Upvalue → Prop
  | onStack (task slot : Nat) : Like β (.onStack task slot) (.onStack task slot)
  | closed {v w : Value} (hv : v.Like β w) : Like β (.closed v) (.closed w)

/-- The same class under other references. -/
structure ClassObj.Like (β : Pairing) (c d : ClassObj) : Prop where
  name : β.rel c.name d.name
  superclass : Option.Rel β.rel c.superclass d.superclass
  methods : c.methods.Like β d.methods
  fields : c.fields.Like β d.fields
  statics : c.statics.Like β d.statics
  package : Option.Rel β.rel c.package d.package

/-- The same instance under other references. -/
structure InstanceObj.Like (β : Pairing) (i j : InstanceObj) : Prop where
  classRef : β.rel i.classRef j.classRef
  fields : i.fields.Like β j.fields

/-- The same method of the same receiver. -/
structure BoundMethod.Like (β : Pairing) (b c : BoundMethod) : Prop where
  receiver : b.receiver.Like β c.receiver
  method : β.rel b.method c.method

/-- The same enumeration under other references. -/
structure Enumeration.Like (β : Pairing) (e f : Enumeration) : Prop where
  name : β.rel e.name f.name
  members : e.members.Like β f.members
  last : e.last.Like β f.last

/-- The same member under other references. -/
structure EnumMember.Like (β : Pairing) (m n : EnumMember) : Prop where
  owner : β.rel m.owner n.owner
  name : β.rel m.name n.name
  value : m.value.Like β n.value

/-- The same package under other references. -/
structure Package.Like (β : Pairing) (p q : Package) : Prop where
  name : β.rel p.name q.name
  symbols : p.symbols.Like β q.symbols
  parent : Option.Rel β.rel p.parent q.parent

/-- The same task handle under other references. -/
structure TaskHandle.Like (β : Pairing) (t u : TaskHandle) : Prop where
  name : β.rel t.name u.name
  id : t.id = u.id
  status : t.status = u.status
  result : t.result.Like β u.result

/-- **`o.Like β o'`** — the same object under other references. A native function is one of the
builtins: what an embedding program supplies could tell references apart. -/
inductive Obj.Like (β : Pairing) : Obj → Obj → Prop
  | string (text : String) (hash : UInt32) : Like β (.string text hash) (.string text hash)
  | prototype {p q : Prototype} (h : p.Like β q) : Like β (.prototype p) (.prototype q)
  | closure {c d : Closure} (h : c.Like β d) : Like β (.closure c) (.closure d)
  | upvalue {u u' : Upvalue} (h : u.Like β u') : Like β (.upvalue u) (.upvalue u')
  | classObj {c d : ClassObj} (h : c.Like β d) : Like β (.classObj c) (.classObj d)
  | instanceObj {i j : InstanceObj} (h : i.Like β j) : Like β (.instanceObj i) (.instanceObj j)
  | boundMethod {b c : BoundMethod} (h : b.Like β c) : Like β (.boundMethod b) (.boundMethod c)
  | list {xs ys : Array Value} (h : Aligned (Value.Like β) xs ys) : Like β (.list xs) (.list ys)
  | dict {d e : Dict Value} (h : d.Like β e) : Like β (.dict d) (.dict e)
  | enumeration {e f : Enumeration} (h : e.Like β f) : Like β (.enumeration e) (.enumeration f)
  | enumMember {m n : EnumMember} (h : m.Like β n) : Like β (.enumMember m) (.enumMember n)
  | package {p q : Package} (h : p.Like β q) : Like β (.package p) (.package q)
  | native (name : String) (b : Builtin) :
    Like β (.native ⟨name, .builtin b⟩) (.native ⟨name, .builtin b⟩)
  | task {t u : TaskHandle} (h : t.Like β u) : Like β (.task t) (.task u)

/-- Values that are alike one by one, when the references of the first ones are paired. -/
theorem aligned_transfer {xs ys : Array Value} (h : Aligned (Value.Like β) xs ys)
    (hβ : ∀ r s, r ∈ xs.toList.filterMap Value.ref? → β.rel r s → β'.rel r s) :
    Aligned (Value.Like β') xs ys :=
  h.mono fun v hv _ hvw => hvw.transfer fun r s hr =>
    hβ r s (List.mem_filterMap.mpr ⟨v, Array.mem_toList_iff.mpr hv, hr⟩)

theorem Chunk.Like.transfer {c d : Chunk} (h : c.Like β d)
    (hβ : ∀ r s, r ∈ c.constants.toList.filterMap Value.ref? → β.rel r s → β'.rel r s) :
    c.Like β' d :=
  { h with constants := aligned_transfer h.constants hβ }

namespace Obj

variable {o o' : Obj}

/-- What is alike stays alike when everything it refers to is paired. -/
theorem Like.transfer (h : o.Like β o') (hβ : ∀ r s, r ∈ o.references → β.rel r s → β'.rel r s) :
    o.Like β' o' := by
  have hoption : ∀ {a b : Option Ref}, Option.Rel β.rel a b → (∀ r ∈ a.toList, r ∈ o.references) →
      Option.Rel β'.rel a b := fun h hmem =>
    h.mono fun r hr s => hβ r s (hmem r (Option.mem_toList.mpr hr))
  have hvalue : ∀ {v w : Value}, v.Like β w → (∀ r ∈ v.ref?.toList, r ∈ o.references) →
      v.Like β' w := fun h hmem =>
    h.transfer fun r s hr => hβ r s (hmem r (Option.mem_toList.mpr hr))
  have htable : ∀ {t u : Table Value}, t.Like β u → (∀ r ∈ t.references, r ∈ o.references) →
      t.Like β' u := fun h hmem =>
    h.transfer fun r s hr => hβ r s (hmem r hr)
  -- one case for each kind of object, with what it refers to
  cases h with
  | string => exact .string ..
  | native => exact .native ..
  | prototype h =>
    have hchunk := h.chunk.transfer fun r s hr => hβ r s (List.mem_append_right _ hr)
    refine .prototype { h with
      name := hoption h.name fun r hr => ?_
      path := hoption h.path fun r hr => ?_
      chunk := hchunk }
    · exact List.mem_append_left _ (List.mem_append_left _ hr)
    · exact List.mem_append_left _ (List.mem_append_right _ hr)
  | closure h =>
    refine .closure ⟨hβ _ _ List.mem_cons_self h.prototype,
      h.upvalues.mono fun r hr s => hβ r s ?_, hoption h.package ?_⟩
    all_goals simp only [references, List.mem_cons, List.mem_append]
    · exact .inr (.inl (Array.mem_toList_iff.mpr hr))
    · exact fun r hr => .inr (.inr hr)
  | upvalue h =>
    cases h with
    | onStack => exact .upvalue (.onStack ..)
    | closed hv => exact .upvalue (.closed (hvalue hv fun _ hr => hr))
  | classObj h =>
    refine .classObj ⟨hβ _ _ List.mem_cons_self h.name, hoption h.superclass ?_,
      htable h.methods ?_, htable h.fields ?_, htable h.statics ?_, hoption h.package ?_⟩
    all_goals
      intro r hr
      simp only [references, List.mem_cons, List.mem_append, hr, true_or, or_true]
  | instanceObj h =>
    exact .instanceObj ⟨hβ _ _ List.mem_cons_self h.classRef,
      htable h.fields fun _ hr => List.mem_cons_of_mem _ hr⟩
  | boundMethod h =>
    exact .boundMethod ⟨hvalue h.receiver fun _ hr => List.mem_cons_of_mem _ hr,
      hβ _ _ List.mem_cons_self h.method⟩
  | list h => exact .list (aligned_transfer h hβ)
  | dict h => exact .dict (h.transfer hβ)
  | enumeration h =>
    refine .enumeration ⟨hβ _ _ List.mem_cons_self h.name, htable h.members ?_, hvalue h.last ?_⟩
    all_goals
      intro r hr
      simp only [references, List.mem_cons, List.mem_append, hr, true_or, or_true]
  | enumMember h =>
    refine .enumMember ⟨hβ _ _ List.mem_cons_self h.owner,
      hβ _ _ (List.mem_cons_of_mem _ List.mem_cons_self) h.name, hvalue h.value fun _ hr => ?_⟩
    exact List.mem_cons_of_mem _ (List.mem_cons_of_mem _ hr)
  | package h =>
    refine .package ⟨hβ _ _ List.mem_cons_self h.name, htable h.symbols ?_, hoption h.parent ?_⟩
    all_goals
      intro r hr
      simp only [references, List.mem_cons, List.mem_append, hr, true_or, or_true]
  | task h =>
    exact .task { h with
      name := hβ _ _ List.mem_cons_self h.name
      result := hvalue h.result fun _ hr => List.mem_cons_of_mem _ hr }

theorem Like.mono (h : o.Like β o') (hβ : β ≤ β') : o.Like β' o' :=
  h.transfer fun r s _ => hβ r s

theorem Like.kind_eq (h : o.Like β o') : o.kind = o'.kind := by
  cases h <;> rfl

theorem Like.typeName_eq (h : o.Like β o') : o.typeName = o'.typeName := by
  cases h <;> rfl

/-- Strings are alike only if they are equal. -/
theorem Like.eq_of_string (h : o.Like β o') (hs : o.kind = .string) : o' = o := by
  cases h with
  | string => rfl
  | _ => cases hs

end Obj

/-! ## Heaps -/

namespace Heap

/-- Free list, slots and intern table fit together. -/
structure Neat (h : Heap) : Prop where
  tidy : h.Tidy
  interned : h.Interned

/-- **`h.Like β h'`** — paired references stand for like objects. -/
structure Like (β : Pairing) (h h' : Heap) : Prop where
  objects : ∀ r s, β.rel r s → ∃ o o', h.get? r = some o ∧ h'.get? s = some o' ∧ o.Like β o'
  left : h.Neat
  right : h'.Neat

variable {h h' k k' : Heap} {o o' : Obj} {v w : Value}

/-! ### What a reference stands for -/

section Views

variable (hl : h.Like β h') (hr : β.rel r s)
include hl hr

theorem Like.text?_eq : h.text? r = h'.text? s := by
  obtain ⟨o, o', ho, ho', hlike⟩ := hl.objects r s hr
  unfold Heap.text?
  rw [ho, ho']
  cases hlike <;> rfl

theorem Like.name_eq : h.name r = h'.name s := by
  unfold Heap.name
  rw [hl.text?_eq hr]

/-- The key of a name is its hash with its reference. -/
theorem Like.key? : Option.Rel (Key.Like β) (h.key? r) (h'.key? s) := by
  obtain ⟨o, o', ho, ho', hlike⟩ := hl.objects r s hr
  unfold Heap.key?
  rw [ho, ho']
  cases hlike with
  | string => exact .some ⟨hr, rfl⟩
  | _ => exact .none

theorem Like.prototype? : Option.Rel (Prototype.Like β) (h.prototype? r) (h'.prototype? s) := by
  obtain ⟨o, o', ho, ho', hlike⟩ := hl.objects r s hr
  unfold Heap.prototype?
  rw [ho, ho']
  cases hlike with
  | prototype hp => exact .some hp
  | _ => exact .none

theorem Like.closure? : Option.Rel (Closure.Like β) (h.closure? r) (h'.closure? s) := by
  obtain ⟨o, o', ho, ho', hlike⟩ := hl.objects r s hr
  unfold Heap.closure?
  rw [ho, ho']
  cases hlike with
  | closure hc => exact .some hc
  | _ => exact .none

theorem Like.upvalue? : Option.Rel (Upvalue.Like β) (h.upvalue? r) (h'.upvalue? s) := by
  obtain ⟨o, o', ho, ho', hlike⟩ := hl.objects r s hr
  unfold Heap.upvalue?
  rw [ho, ho']
  cases hlike with
  | upvalue hu => exact .some hu
  | _ => exact .none

theorem Like.class? : Option.Rel (ClassObj.Like β) (h.class? r) (h'.class? s) := by
  obtain ⟨o, o', ho, ho', hlike⟩ := hl.objects r s hr
  unfold Heap.class?
  rw [ho, ho']
  cases hlike with
  | classObj hc => exact .some hc
  | _ => exact .none

theorem Like.instance? : Option.Rel (InstanceObj.Like β) (h.instance? r) (h'.instance? s) := by
  obtain ⟨o, o', ho, ho', hlike⟩ := hl.objects r s hr
  unfold Heap.instance?
  rw [ho, ho']
  cases hlike with
  | instanceObj hi => exact .some hi
  | _ => exact .none

theorem Like.package? : Option.Rel (Package.Like β) (h.package? r) (h'.package? s) := by
  obtain ⟨o, o', ho, ho', hlike⟩ := hl.objects r s hr
  unfold Heap.package?
  rw [ho, ho']
  cases hlike with
  | package hp => exact .some hp
  | _ => exact .none

theorem Like.task? : Option.Rel (TaskHandle.Like β) (h.task? r) (h'.task? s) := by
  obtain ⟨o, o', ho, ho', hlike⟩ := hl.objects r s hr
  unfold Heap.task?
  rw [ho, ho']
  cases hlike with
  | task ht => exact .some ht
  | _ => exact .none

end Views

section Values

variable (hl : h.Like β h') (hv : v.Like β w)
include hl hv

theorem Like.textOf?_eq : h.textOf? v = h'.textOf? w := by
  cases hv with
  | obj hr => exact hl.text?_eq hr
  | _ => rfl

theorem Like.classOf? : Option.Rel β.rel (h.classOf? v) (h'.classOf? w) := by
  cases hv with
  | obj hr =>
    unfold Heap.classOf?
    dsimp only
    rw [(hl.class? hr).isSome_eq]
    split
    · exact .some hr
    · exact .none
  | _ => exact .none

theorem Like.listOf? : Option.Rel (Aligned (Value.Like β)) (h.listOf? v) (h'.listOf? w) := by
  cases hv with
  | obj hr =>
    obtain ⟨o, o', ho, ho', hlike⟩ := hl.objects _ _ hr
    unfold Heap.listOf?
    dsimp only
    rw [ho, ho']
    cases hlike with
    | list hitems => exact .some hitems
    | _ => exact .none
  | _ => exact .none

theorem Like.numeric?_eq : h.numeric? v = h'.numeric? w := by
  cases hv with
  | obj hr =>
    obtain ⟨o, o', ho, ho', hlike⟩ := hl.objects _ _ hr
    unfold Heap.numeric?
    dsimp only
    rw [ho, ho']
    cases hlike with
    | enumMember hm => exact hm.value.number?_eq
    | _ => rfl
  | _ => rfl

theorem Like.typeName_eq : h.typeName v = h'.typeName w := by
  cases hv with
  | obj hr =>
    obtain ⟨o, o', ho, ho', hlike⟩ := hl.objects _ _ hr
    unfold Heap.typeName
    dsimp only
    rw [ho, ho', Option.map_some, Option.map_some, hlike.typeName_eq]
  | _ => rfl

end Values

/-! ### Allocating -/

/-- **`Like.extend`** — the heaps have come to hold two more like objects. -/
theorem Like.extend (hl : h.Like β h') (hk : h.Keeps k) (hk' : h'.Keeps k') (hneat : k.Neat)
    (hneat' : k'.Neat) (hr : ∀ s', β.rel r s' → s' = s) (hs : ∀ r', β.rel r' s → r' = r)
    (ho : k.get? r = some o) (ho' : k'.get? s = some o') (hlike : o.Like β o') :
    ∃ β', β ≤ β' ∧ β'.rel r s ∧ k.Like β' k' := by
  have hle : β ≤ β.extend r s hr hs := fun _ _ => .inl
  refine ⟨β.extend r s hr hs, hle, .inr ⟨rfl, rfl⟩, fun a b hab => ?_, hneat, hneat'⟩
  rcases hab with hab | ⟨rfl, rfl⟩
  · obtain ⟨p, p', hp, hp', hpp'⟩ := hl.objects a b hab
    exact ⟨p, p', hk a p hp, hk' b p' hp', hpp'.mono hle⟩
  · exact ⟨o, o', ho, ho', hlike.mono hle⟩

theorem Neat.alloc (hn : h.Neat) (ho : NoString o) : (h.alloc o).2.Neat :=
  ⟨hn.tidy.alloc o, hn.interned.alloc hn.tidy ho⟩

theorem Neat.intern (hn : h.Neat) (text : String) : (h.intern text).2.Neat :=
  ⟨(hn.tidy.intern text).1, hn.interned.intern hn.tidy text⟩

/-- **`Like.alloc`** — like objects are put into both heaps. -/
theorem Like.alloc (hl : h.Like β h') (hlike : o.Like β o') (ho : NoString o) :
    ∃ β', β ≤ β' ∧ β'.rel (h.alloc o).1 (h'.alloc o').1 ∧
      (h.alloc o).2.Like β' (h'.alloc o').2 := by
  have hn := hl.left.tidy
  have hn' := hl.right.tidy
  have ho' : NoString o' := fun heq => ho (hlike.kind_eq.trans heq)
  refine hl.extend (hn.keeps_alloc o) (hn'.keeps_alloc o') (hl.left.alloc ho) (hl.right.alloc ho')
    (fun s' hs' => ?_) (fun r' hr' => ?_) (hn.get?_alloc_self o) (hn'.get?_alloc_self o') hlike
  -- what a slot that was free has been paired with
  · obtain ⟨p, -, hp, -⟩ := hl.objects _ _ hs'
    rw [hn.get?_alloc_fst o] at hp
    cases hp
  · obtain ⟨-, p, -, hp, -⟩ := hl.objects _ _ hr'
    rw [hn'.get?_alloc_fst o'] at hp
    cases hp

/-- The text that is interned is there afterwards. -/
theorem Neat.get?_intern (hn : h.Neat) (text : String) :
    (h.intern text).2.get? (h.intern text).1 = some (.string text (hashText text)) := by
  obtain ⟨hash, hget⟩ := text?_eq_some.mp (hn.tidy.intern text).2.2
  rw [hget, ((hn.intern text).interned.listed _ _ _ hget).1]

/-- A string of one heap stands for the string with its text. -/
theorem Neat.eq_intern (hn : h.Neat) {text : String} {hash : UInt32}
    (hs : h.get? s = some (.string text hash)) : s = (h.intern text).1 :=
  (hn.intern text).interned.single _ _ _ _ _ ((hn.tidy.intern text).2.1 _ _ hs)
    (hn.get?_intern text)

/-- **`Like.intern`** — both heaps have come to hold a text, whichever of them had it before. -/
theorem Like.intern (hl : h.Like β h') (text : String) :
    ∃ β', β ≤ β' ∧ β'.rel (h.intern text).1 (h'.intern text).1 ∧
      (h.intern text).2.Like β' (h'.intern text).2 := by
  have hkeeps := (hl.left.tidy.intern text).2.1
  have hkeeps' := (hl.right.tidy.intern text).2.1
  have hget := hl.left.get?_intern text
  have hget' := hl.right.get?_intern text
  refine hl.extend hkeeps hkeeps' (hl.left.intern text) (hl.right.intern text) (fun s hs => ?_)
    (fun r hr => ?_) hget hget' (.string ..)
  · obtain ⟨o, o', ho, ho', hlike⟩ := hl.objects _ _ hs
    obtain rfl := Option.some.inj ((hkeeps _ _ ho).symm.trans hget)
    cases hlike with
    | string => exact hl.right.eq_intern ho'
  · obtain ⟨o, o', ho, ho', hlike⟩ := hl.objects _ _ hr
    obtain rfl := Option.some.inj ((hkeeps' _ _ ho').symm.trans hget')
    cases hlike with
    | string => exact hl.left.eq_intern ho

/-! ### Changing -/

/-- **`Tame o f`** — the object keeps its kind, and a string stays as it is. -/
def Tame (o : Obj) (f : Obj → Obj) : Prop :=
  (f o).kind = o.kind ∧ (o.kind = .string → f o = o)

/-- A change that spares texts keeps the table of texts right. -/
theorem Neat.modify (hn : h.Neat) {f : Obj → Obj} (hf : ∀ o, h.get? r = some o → Tame o f) :
    (h.modify r f).Neat := by
  refine ⟨hn.tidy.modify r f, hn.interned.congr rfl fun r' text hash => ?_⟩
  rw [get?_modify]
  split
  · rename_i heq
    subst heq
    cases ho : h.get? r' with
    | none => rfl
    | some o =>
      obtain ⟨hkind, hstays⟩ := hf o ho
      rw [Option.map_some, Option.some.injEq, Option.some.injEq]
      constructor
      · intro heq
        rw [heq] at hkind
        rw [← heq, hstays hkind.symm]
      · intro heq
        subst heq
        exact hstays rfl
  · rfl

/-- **`Like.modify`** — paired objects change alike. -/
theorem Like.modify (hl : h.Like β h') (hr : β.rel r s) {f g : Obj → Obj}
    (hfg : ∀ o o', h.get? r = some o → o.Like β o' → (f o).Like β (g o'))
    (hf : ∀ o, h.get? r = some o → Tame o f) : (h.modify r f).Like β (h'.modify s g) := by
  obtain ⟨o, o', ho, ho', hlike⟩ := hl.objects r s hr
  have hg : ∀ p, h'.get? s = some p → Tame p g := by
    intro p hp
    obtain rfl := Option.some.inj (ho'.symm.trans hp)
    obtain ⟨hkind, hstays⟩ := hf o ho
    have hlike' := hfg o o' ho hlike
    refine ⟨hlike'.kind_eq.symm.trans (hkind.trans hlike.kind_eq), fun hs => ?_⟩
    have hs' : o.kind = .string := hlike.kind_eq.trans hs
    rw [hlike.eq_of_string hs']
    rw [hlike.eq_of_string hs', hstays hs'] at hlike'
    exact hlike'.eq_of_string hs'
  refine ⟨fun a b hab => ?_, hl.left.modify hf, hl.right.modify hg⟩
  rw [get?_modify, get?_modify]
  by_cases heq : a = r
  · rw [if_pos heq, if_pos ((β.eq_iff hab hr).mp heq), heq, (β.eq_iff hab hr).mp heq, ho, ho']
    exact ⟨f o, g o', rfl, rfl, hfg o o' ho hlike⟩
  · rw [if_neg heq, if_neg fun h => heq ((β.eq_iff hab hr).mpr h)]
    exact hl.objects a b hab

end Heap

end ScriptMachine
