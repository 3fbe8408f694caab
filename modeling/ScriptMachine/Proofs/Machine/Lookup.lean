import Mathlib
import ScriptMachine.Machine.Declarations
import ScriptMachine.Machine.Packages
import ScriptMachine.Proofs.Compiler.Trust
import ScriptMachine.Proofs.Heap.Climbing
import ScriptMachine.Proofs.Machine.Natives

/-!
# ScriptMachine.Proofs.Machine.Lookup — names, properties and files in a scene

What is found under a name is there: among the globals, in packages, in instances and classes and the
classes above them, in the extensions of a type. Methods and extensions are closures. Defining
something, importing a file and compiling it leave the scene as it is too.

`getProperty` is the longest of these lookups, as a property may be found in the fields of an instance, in
classes, packages, members of enumerations, tasks and extensions. All lemmas have one form: in a scene,
the operation leads to a later moment of it, and the value it finds is there. What is found, and in
which order things are searched, is not their concern.
-/

namespace ScriptMachine

/-! ## Looking things up in the heap -/

namespace Heap

variable {h : Heap} {r classRef : Ref} {k : Key} {v : Value}

theorem Healthy.classObj {c : ClassObj} (hh : h.Healthy) (hc : h.class? r = some c) :
    (Obj.classObj c).Sound h :=
  hh.sound.objects r _ (class?_eq_some.mp hc)

theorem Healthy.instanceObj {i : InstanceObj} (hh : h.Healthy) (hi : h.instance? r = some i) :
    (Obj.instanceObj i).Sound h :=
  hh.sound.objects r _ (instance?_eq_some.mp hi)

theorem Healthy.package {p : Package} (hh : h.Healthy) (hp : h.package? r = some p) :
    (Obj.package p).Sound h :=
  hh.sound.objects r _ (package?_eq_some.mp hp)

theorem has_of_isMethod (hv : h.IsMethod v) (hr : v.ref? = some r) : h.Has r .closure := by
  obtain ⟨r', rfl, hr'⟩ := hv
  obtain rfl := Option.some.inj hr
  exact hr'

theorem Healthy.method? (hh : h.Healthy) (hr : h.method? classRef k = some r) :
    h.Has r .closure := by
  obtain ⟨e, he, hfound⟩ := List.exists_of_findSome?_eq_some hr
  obtain ⟨v, hv, hvr⟩ := Option.bind_eq_some_iff.mp hfound
  obtain ⟨-, -, -, hmethods, -⟩ := hh.classObj (class?_of_mem_ancestryFrom he)
  exact has_of_isMethod (hmethods.get? hv) hvr

theorem Healthy.static? (hh : h.Healthy) (hv : h.static? classRef k = some v) : h.Live v := by
  obtain ⟨e, he, hfound⟩ := List.exists_of_findSome?_eq_some hv
  obtain ⟨-, -, -, -, -, hstatics⟩ := hh.classObj (class?_of_mem_ancestryFrom he)
  exact hstatics.get? hfound

/-- What has a class has one that is in the heap. -/
theorem class?_of_classOf? (hr : h.classOf? v = some r) : ∃ c, h.class? r = some c := by
  cases v with
  | obj r' =>
    rw [classOf?] at hr
    split at hr
    · rename_i hsome
      obtain rfl := Option.some.inj hr
      exact Option.isSome_iff_exists.mp hsome
    · cases hr
  | _ => cases hr

end Heap

/-! ## Looking things up in the machine -/

namespace Machine

variable {m : Machine} {k : Key} {v : Value}

theorem Sound.extension? (hm : m.Sound) {type : String} {r : Ref}
    (hr : m.extension? type k = some r) : m.heap.Has r .closure := by
  unfold Machine.extension? at hr
  split at hr
  · rename_i t ht
    obtain ⟨v, hv, hvr⟩ := Option.bind_eq_some_iff.mp hr
    have hmem : ∃ e ∈ m.extensions, e.2 = t := by
      obtain ⟨l₁, l₂, heq, -⟩ := List.lookup_eq_some_iff.mp ht
      exact ⟨(type, t), by rw [heq]; simp, rfl⟩
    obtain ⟨e, he, rfl⟩ := hmem
    exact Heap.has_of_isMethod ((hm.extensions e he).get? hv) hvr
  · cases hr

/-- The receiver is read from the first slot of the activation, and it is an instance. -/
theorem instance?_of_receiver? {r : Ref} {i : InstanceObj} (hr : m.receiver? = some (r, i)) :
    m.heap.instance? r = some i := by
  unfold receiver? at hr
  split at hr
  · cases hr
  · split at hr
    · obtain ⟨_, hi, heq⟩ := Option.map_eq_some_iff.mp hr
      obtain ⟨rfl, rfl⟩ := Prod.mk.inj heq
      exact hi
    · cases hr

/-- Whatever scope a name is found in, its value is live. -/
theorem Sound.lookup? (hm : m.Sound) (hv : m.lookup? k = some v) : m.heap.Live v := by
  unfold Machine.lookup? at hv
  rcases Option.or_eq_some_iff.mp hv with hv | ⟨-, hv⟩
  · unfold receiverValue? at hv
    split at hv
    · cases hv
    · rename_i i hi
      rcases Option.or_eq_some_iff.mp hv with hv | ⟨-, hv⟩
      · exact (hm.heap.instanceObj (instance?_of_receiver? hi)).2.get? hv
      · exact hm.heap.static? hv
  · rcases Option.or_eq_some_iff.mp hv with hv | ⟨-, hv⟩
    · obtain ⟨e, he, hv⟩ := List.exists_of_findSome?_eq_some hv
      exact (hm.heap.package (Heap.package?_of_mem_packagesFrom he)).2.2.get? hv
    · exact hm.globals.get? hv

end Machine

variable {s : Scene} {m : Machine} {k : Nat} {Q : Value → Machine → Prop} {f : Frame}
  {rest : List Frame} {name : Ref} {v : Value}

namespace Amid

/-! ## Names -/

/-- A binding is changed where it was found; the machine stays amid the same instruction. -/
theorem rebind {Q : Unit → Machine → Prop} {key : Key} {b : Binding} (hm : Amid s k m)
    (hk : m.heap.Has key.ref .string) (hv : m.heap.Live v)
    (hQ : ∀ m', Amid s k m' → m.heap.Evolves m'.heap → Q () m') :
    Runs s (modify (·.rebind key v b)) m Q := by
  cases b with
  | field r =>
    refine hm.modifyHeap (fun o ho => ?_) (fun o ho hsound => ?_) hQ
    · cases o with
      | instanceObj i => exact .inr ⟨rfl, rfl⟩
      | _ => exact .inl rfl
    · cases o with
      | instanceObj i => exact ⟨hsound.1, hsound.2.set hk hv⟩
      | _ => exact hsound
  | static r =>
    refine hm.modifyHeap (fun o ho => ?_) (fun o ho hsound => ?_) hQ
    · cases o with
      | classObj c => exact .inr ⟨rfl, rfl⟩
      | _ => exact .inl rfl
    · cases o with
      | classObj c =>
        obtain ⟨hname, hsuper, hpackage, hmethods, hfields, hstatics⟩ := hsound
        exact ⟨hname, hsuper, hpackage, hmethods, hfields, hstatics.set hk hv⟩
      | _ => exact hsound
  | symbol r =>
    refine hm.modifyHeap (fun o ho => ?_) (fun o ho hsound => ?_) hQ
    · cases o with
      | package p => exact .inr ⟨rfl, rfl⟩
      | _ => exact .inl rfl
    · cases o with
      | package p => exact ⟨hsound.1, hsound.2.1, hsound.2.2.set hk hv⟩
      | _ => exact hsound
  | global => exact hm.setGlobalTable hk hv fun m' hm' heq => hQ m' hm' (heq ▸ .refl _)

theorem searched {α : Type} {Q : Option α → Machine → Prop} {classRef : Ref} {found : Option α}
    (hm : Amid s k m) (hQ : Q found m) : Runs s (Exec.searched classRef found) m Q :=
  .bind (.get (.ite (fun _ => .bind (hm.throw nofun)) fun _ => .pure hQ))

theorem searchReceiver {Q : Unit → Machine → Prop} {key : Key} (hm : Amid s k m) (hQ : Q () m) :
    Runs s (Exec.searchReceiver key) m Q := by
  refine .bind (.get ?_)
  split
  · exact .ite (fun _ => .pure hQ) fun _ => .map (hm.searched hQ)
  · exact .pure hQ

/-- A global may be missing, but one that is found is live. -/
theorem readGlobal? {Q : Option Value → Machine → Prop} (hm : Amid s k m)
    (hf : s.start.fiber.frames = f :: rest) (hname : m.heap.Has name .string)
    (hQ : ∀ found m', Amid s k m' → m.heap.Evolves m'.heap →
      (∀ v ∈ found, m'.heap.Live v) → Q found m') : Runs s (Exec.readGlobal? name) m Q := by
  refine .bind (.get (.ite (fun _ => ?_) fun _ => ?_))
  · refine .bind (hm.frame hf fun hframe => .map (hm.allocValue rfl hframe.args nofun ?_))
    intro v m' hm' hev hv
    refine hQ _ m' hm' hev fun w hw => ?_
    obtain rfl := Option.some.inj hw
    exact hv
  · refine .bind (hm.key hname fun key _ => .bind (hm.searchReceiver ?_))
    exact .bind (.get (.pure (hQ _ m hm (.refl _) fun v hv => hm.sound.lookup? hv)))

theorem getGlobal (hm : Amid s k m) (hf : s.start.fiber.frames = f :: rest)
    (hname : m.heap.Has name .string) (hQ : Yields s k m Q) : Runs s (Exec.getGlobal name) m Q := by
  refine .bind (hm.readGlobal? hf hname fun found m' hm' hev hfound => ?_)
  cases found with
  | none => exact .bind (nameText fun _ => hm'.throw nofun)
  | some v => exact .pure (hQ v m' hm' hev (hfound v rfl))

theorem setGlobal {Q : Unit → Machine → Prop} (hm : Amid s k m) (hname : m.heap.Has name .string)
    (hv : m.heap.Live v) (hQ : ∀ m', Amid s k m' → m.heap.Evolves m'.heap → Q () m') :
    Runs s (Exec.setGlobal name v) m Q := by
  refine .bind (hm.key hname fun key hkey => .bind (hm.searchReceiver (.bind (.get ?_))))
  split
  · exact hm.rebind hkey hv hQ
  · exact .bind (nameText fun _ => hm.throw nofun)

theorem define {Q : Unit → Machine → Prop} {key : Key} (hm : Amid s k m)
    (hf : s.start.fiber.frames = f :: rest) (hk : m.heap.Has key.ref .string) (hv : m.heap.Live v)
    (hQ : ∀ m', Amid s k m' → m.heap.Evolves m'.heap → Q () m') :
    Runs s (Exec.define key v) m Q := by
  refine .bind (hm.frame hf fun _ => ?_)
  split
  · exact hm.rebind hk hv hQ
  · exact hm.setGlobalTable hk hv fun m' hm' heq => hQ m' hm' (heq ▸ .refl _)

/-! ## Methods -/

theorem noProperty {α : Type} {Q : α → Machine → Prop} (hm : Amid s k m) :
    Runs s (Exec.noProperty name) m Q :=
  .bind (nameText fun _ => hm.throw nofun)

theorem extension? {Q : Option Ref → Machine → Prop} {target : Value} (hm : Amid s k m)
    (hname : m.heap.Has name .string) (hQ : ∀ found, (∀ r ∈ found, m.heap.Has r .closure) →
      Q found m) : Runs s (Exec.extension? target name) m Q :=
  .bind (hm.key hname fun _ _ => .bind (.get (.pure (hQ _ fun _ hr => hm.sound.extension? hr))))

/-- The method is looked for in the superclass and above it. -/
theorem superMethod {Q : Ref → Machine → Prop} {superclass : Value} (hm : Amid s k m)
    (hname : m.heap.Has name .string) (hQ : ∀ r, m.heap.Has r .closure → Q r m) :
    Runs s (Exec.superMethod superclass name) m Q := by
  refine .bind (.get ?_)
  split
  · exact hm.throw nofun
  · refine .bind (.get (.bind (hm.key hname fun key _ => .bind (hm.searched ?_))))
    split
    · rename_i method hmethod
      exact .pure (hQ method (hm.sound.heap.method? hmethod))
    · exact hm.noProperty

theorem bindMethod {target : Value} {method : Ref} (hm : Amid s k m)
    (htarget : m.heap.Live target) (hmethod : m.heap.Has method .closure) (hQ : Yields s k m Q) :
    Runs s (Exec.bindMethod target method) m Q :=
  hm.allocValue rfl ⟨hmethod, htarget⟩ nofun hQ

/-- Interning the symbol may allocate a text, so the heap evolves. -/
theorem operatorMethod? {Q : Option Ref → Machine → Prop} {target : Value} {symbol : String}
    (hm : Amid s k m)
    (hQ : ∀ found m', Amid s k m' → m.heap.Evolves m'.heap →
      (∀ r ∈ found, m'.heap.Has r .closure) → Q found m') :
    Runs s (Exec.operatorMethod? target symbol) m Q := by
  unfold Exec.operatorMethod?
  split
  · refine .bind (.get ?_)
    split
    · refine .bind (hm.intern symbol fun r m' hm' hev hr => .bind (hm'.key hr fun key _ => ?_))
      exact .bind (.get (hm'.searched (hQ _ m' hm' hev fun _ => hm'.sound.heap.method?)))
    · exact .pure (hQ _ m hm (.refl _) nofun)
  · exact .pure (hQ _ m hm (.refl _) nofun)

theorem testType {Q : Bool → Machine → Prop} {text : String} (hm : Amid s k m)
    (hQ : ∀ found, Q found m) : Runs s (Exec.testType v text) m Q := by
  refine .bind (.heap ?_)
  split
  · split
    · exact .bind (.map (hm.searched (.pure (hQ _))))
    · exact .bind (.pure (.pure (hQ _)))
  · exact .bind (.pure (.pure (hQ _)))

/-! ## Properties -/

theorem instanceProperty {r : Ref} {i : InstanceObj} (hm : Amid s k m)
    (hr : m.heap.get? r = some (.instanceObj i)) (hname : m.heap.Has name .string)
    (hQ : Yields s k m Q) : Runs s (Exec.instanceProperty r i name) m Q := by
  have hi : (Obj.instanceObj i).Sound m.heap := hm.sound.heap.sound.objects r _ hr
  refine .bind (hm.key hname fun key _ => ?_)
  split
  · rename_i hv
    exact .pure (hQ _ m hm (.refl _) (hi.2.get? hv))
  · refine .bind (.heap (.bind (hm.searched ?_)))
    split
    · rename_i method _ hmethod
      exact hm.bindMethod (Heap.live_obj.mpr ⟨_, hr⟩) (hm.sound.heap.method? hmethod) hQ
    · rename_i hv
      exact .pure (hQ _ m hm (.refl _) (hm.sound.heap.static? hv))
    · exact hm.noProperty

/-- A static or a method of the class or of those above it; a method is read as the closure that it
is. -/
theorem classProperty {r : Ref} (hm : Amid s k m) (hname : m.heap.Has name .string)
    (hQ : Yields s k m Q) : Runs s (Exec.classProperty r name) m Q := by
  refine .bind (hm.key hname fun key _ => .bind (.heap (.bind (hm.searched ?_))))
  split
  · rename_i hv
    exact .pure (hQ _ m hm (.refl _) (hm.sound.heap.static? hv))
  · rename_i hmethod
    exact .pure (hQ _ m hm (.refl _) (hm.sound.heap.method? hmethod).live)
  · exact hm.noProperty

theorem taskProperty {t : TaskHandle} (hm : Amid s k m) (ht : (Obj.task t).Sound m.heap)
    (hQ : Yields s k m Q) : Runs s (Exec.taskProperty t name) m Q := by
  refine .bind (nameText fun _ => ?_)
  split
  · exact .pure (hQ _ m hm (.refl _) ht.1.live)
  · exact .pure (hQ _ m hm (.refl _) nofun)
  · exact .pure (hQ _ m hm (.refl _) nofun)
  · exact .pure (hQ _ m hm (.refl _) ht.2)
  · exact hm.noProperty

theorem memberProperty {e : EnumMember} (hm : Amid s k m) (he : (Obj.enumMember e).Sound m.heap)
    (hQ : Yields s k m Q) : Runs s (Exec.memberProperty e name) m Q := by
  refine .bind (nameText fun _ => ?_)
  split
  · exact .pure (hQ _ m hm (.refl _) he.2.1.live)
  · exact .pure (hQ _ m hm (.refl _) he.2.2)
  · exact hm.noProperty

theorem tableProperty {t : Table Value} (hm : Amid s k m) (ht : t.Holds m.heap m.heap.Live)
    (hname : m.heap.Has name .string) (hQ : Yields s k m Q) :
    Runs s (Exec.tableProperty t name) m Q := by
  refine .bind (hm.key hname fun key _ => ?_)
  split
  · rename_i hv
    exact .pure (hQ _ m hm (.refl _) (ht.get? hv))
  · exact hm.noProperty

/-- **`getProperty`** — the property of a value is there. -/
theorem getProperty {target : Value} (hm : Amid s k m) (hname : m.heap.Has name .string)
    (hQ : Yields s k m Q) : Runs s (Exec.getProperty target name) m Q := by
  have hsound := hm.sound.heap.sound.objects
  unfold Exec.getProperty
  split
  · rename_i r
    refine .bind (.get ?_)
    split
    · rename_i hr
      exact hm.instanceProperty hr hname hQ
    · exact hm.classProperty hname hQ
    · rename_i hr
      exact hm.tableProperty (hsound _ _ hr).2.1 hname hQ
    · rename_i hr
      exact hm.memberProperty (hsound _ _ hr) hQ
    · rename_i hr
      exact hm.tableProperty (hsound _ _ hr).2.2 hname hQ
    · rename_i hr
      exact hm.taskProperty (hsound _ _ hr) hQ
    · exact hm.throw nofun
  · exact hm.throw nofun

/-- One case for each kind of target. A live value goes into a table of it. -/
theorem setProperty {Q : Unit → Machine → Prop} {target : Value} (hm : Amid s k m)
    (hname : m.heap.Has name .string) (hv : m.heap.Live v)
    (hQ : ∀ m', Amid s k m' → m.heap.Evolves m'.heap → Q () m') :
    Runs s (Exec.setProperty target name v) m Q := by
  unfold Exec.setProperty
  split
  · rename_i r
    refine .bind (hm.key hname fun key hkey => .bind (.get (.ite (fun _ => ?_) fun _ => ?_)))
    · refine hm.modifyHeap (fun o ho => ?_) (fun o ho hsound => ?_) hQ
      · cases o with
        | instanceObj | classObj | package => exact .inr ⟨rfl, rfl⟩
        | _ => exact .inl rfl
      · cases o with
        | instanceObj i => exact ⟨hsound.1, hsound.2.set hkey hv⟩
        | classObj c =>
          obtain ⟨hname, hsuper, hpackage, hmethods, hfields, hstatics⟩ := hsound
          exact ⟨hname, hsuper, hpackage, hmethods, hfields, hstatics.set hkey hv⟩
        | package p => exact ⟨hsound.1, hsound.2.1, hsound.2.2.set hkey hv⟩
        | _ => exact hsound
    · exact hm.throw nofun
  · exact hm.throw nofun

/-! ## Classes and enumerations -/

/-- A class may be changed, if it stays a class whose tables hold live values. -/
theorem modifyClass {Q : Unit → Machine → Prop} {r : Ref} {change : ClassObj → ClassObj}
    (hm : Amid s k m)
    (hfixed : ∀ c, (Obj.classObj (change c)).fixed = (Obj.classObj c).fixed)
    (hsound : ∀ c, m.heap.get? r = some (.classObj c) → (Obj.classObj c).Sound m.heap →
      (Obj.classObj (change c)).Sound m.heap)
    (hQ : ∀ m', Amid s k m' → m.heap.Evolves m'.heap → Q () m') :
    Runs s (Exec.modifyClass r change) m Q := by
  refine hm.modifyHeap (fun o ho => ?_) (fun o ho hs => ?_) hQ
  · cases o with
    | classObj c => exact .inr ⟨hfixed c, rfl⟩
    | _ => exact .inl rfl
  · cases o with
    | classObj c => exact hsound c ho hs
    | _ => exact hs

/-- A class gets a method. -/
theorem addMethod {Q : Unit → Machine → Prop} {r : Ref} {key : Key} {method : Value}
    (hm : Amid s k m) (hk : m.heap.Has key.ref .string) (hmethod : m.heap.IsMethod method)
    (hQ : ∀ m', Amid s k m' → m.heap.Evolves m'.heap → Q () m') :
    Runs s (Exec.modifyClass r fun c => { c with methods := c.methods.set key method }) m Q := by
  refine hm.modifyClass (fun _ => rfl) (fun c _ hsound => ?_) hQ
  obtain ⟨hname, hsuper, hpackage, hmethods, hfields, hstatics⟩ := hsound
  exact ⟨hname, hsuper, hpackage, hmethods.set hk hmethod, hfields, hstatics⟩

/-- Without a given value, a member is numbered after the last one. -/
theorem defineMember {Q : Unit → Machine → Prop} {owner : Ref} {given last : Value}
    (hm : Amid s k m) (howner : m.heap.Has owner .enumeration) (hname : m.heap.Has name .string)
    (hgiven : m.heap.Live given) (hQ : ∀ m', Amid s k m' → m.heap.Evolves m'.heap → Q () m') :
    Runs s (Exec.defineMember owner name given last) m Q := by
  unfold Exec.defineMember
  split
  · exact .bind (nameText fun _ => hm.throw nofun)
  · rename_i value hvalue
    have hlive : m.heap.Live value := by
      unfold Exec.memberValue? at hvalue
      split at hvalue
      · exact Option.some.inj hvalue ▸ Heap.live_number _
      · exact Option.some.inj hvalue ▸ Heap.live_number _
      · cases hvalue
      · exact Option.some.inj hvalue ▸ hgiven
    refine .bind (hm.key hname fun key hkey => .bind (hm.alloc rfl ⟨howner, hname, hlive⟩ nofun ?_))
    intro member m' hm' hev hmember _
    refine hm'.modifyHeap (fun o ho => ?_) (fun o ho hs => ?_) fun m'' hm'' hev' =>
      hQ m'' hm'' (hev.trans hev')
    · cases o with
      | enumeration e => exact .inr ⟨rfl, rfl⟩
      | _ => exact .inl rfl
    · cases o with
      | enumeration e =>
        exact ⟨hs.1, hs.2.1.set (hev.has hkey) (Heap.live_obj.mpr ⟨_, hmember⟩), hev.live hlive⟩
      | _ => exact hs

/-! ## Files -/

theorem newPackage {Q : Ref → Machine → Prop} {text : String} {parent : Option Ref}
    (hm : Amid s k m) (hparent : ∀ r ∈ parent, m.heap.Has r .package)
    (hQ : ∀ r m', Amid s k m' → m.heap.Evolves m'.heap → m'.heap.Has r .package → Q r m') :
    Runs s (Exec.newPackage text parent) m Q := by
  refine .bind (hm.intern text fun r m' hm' hev hr => ?_)
  refine hm'.alloc rfl ⟨hr, fun r h => hev.has (hparent r h), Table.holds_empty⟩ nofun ?_
  intro r m'' hm'' hev' hr' _
  exact hQ r m'' hm'' (hev.trans hev') ⟨_, hr', rfl⟩

/-- Files are read from outside the heap. -/
theorem loadSource {Q : String × String → Machine → Prop} {path : String} (hm : Amid s k m)
    (hQ : ∀ found m', Amid s k m' → m'.heap = m.heap → Q found m') :
    Runs s (Exec.loadSource path) m Q := by
  have hm' : Amid s k { m with loads := m.loads ++ Exec.candidates path m.config.searchPaths } :=
    hm.other hm.sound.globals hm.sound.extensions
  refine .bind (.get (.bind (.modify ?_)))
  split
  · exact .pure (hQ _ _ hm' rfl)
  · exact hm'.throw nofun

/-- Only what the compiler accepts gets into the heap: a function without parameters and without
captured variables. -/
theorem compileSource {Q : Ref → Machine → Prop} {source path : String} (hm : Amid s k m)
    (hQ : ∀ r m' p, Amid s k m' → m.heap.Evolves m'.heap → m'.fiber = m.fiber →
      m'.heap.Trusts r → m'.heap.prototype? r = some p → p.arity = 0 → p.captureCount = 0 →
      Q r m') : Runs s (Exec.compileSource source path) m Q := by
  obtain ⟨hhealthy, hstill⟩ := healthy_compile hm.sound.heap source path
  have hm' := hm.withHeap hstill hhealthy
  refine .bind (.modifyGet ?_)
  generalize hc : compile m.heap source path = compiled at hm' hstill ⊢
  obtain ⟨result, h⟩ := compiled
  cases result with
  | ok r =>
    obtain ⟨htrusts, p, hp, harity, hcaptures⟩ := compile_trusts hm.sound.heap hc
    exact .pure (hQ r _ p hm' hstill.evolves rfl htrusts hp harity hcaptures)
  | error errors => exact hm'.throw nofun

end Amid

end ScriptMachine
