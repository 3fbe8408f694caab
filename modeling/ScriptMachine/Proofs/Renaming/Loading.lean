import Mathlib
import ScriptMachine.Machine.Packages
import ScriptMachine.Proofs.Compiler.Grounding
import ScriptMachine.Proofs.Machine.Atomicity
import ScriptMachine.Proofs.Renaming.Declarations

/-!
# ScriptMachine.Proofs.Renaming.Loading — compiling and running files on like machines

The compiler never looks at the heap: a text has one image, or one list of errors. Loading that image
puts the same items into both heaps, each at a reference of its own, and relocates the functions of the
image accordingly. What a file is found to be and the order in which places are tried depend on nothing
but the files and the configuration.

`compile_like` is the result: a text has the same errors for both machines or is compiled to like
functions. The induction is on the items of the image, and each refers to earlier items only.
-/

namespace ScriptMachine

variable {β : Pairing} {h h' : Heap} {refs refs' : Array Ref} {v w : Value} {r s : Ref}

/-! ## Images -/

/-- References to earlier items are relocated to paired ones. -/
theorem relocate_like (hrefs : Aligned β.rel refs refs') (hr : r.index < refs.size) :
    β.rel (r.relocate refs) (r.relocate refs') := by
  have hitem := hrefs.getElem? r.index
  unfold Ref.relocate
  rw [Array.getD_eq_getD_getElem?, Array.getD_eq_getD_getElem?]
  rw [Array.getElem?_eq_getElem hr] at hitem ⊢
  generalize refs'[r.index]? = b at hitem
  cases hitem with
  | some hrel => exact hrel

/-- Code that is moved into two heaps is alike, if what it refers to was moved before it. -/
theorem Prototype.RefersBelow.relocate_like {p : Prototype} (hp : p.RefersBelow refs.size)
    (hrefs : Aligned β.rel refs refs') : (p.relocate refs).Like β (p.relocate refs') where
  arity := rfl
  captureCount := rfl
  isStatic := rfl
  name := by
    have hname := hp.name
    show Option.Rel _ (p.name.map _) (p.name.map _)
    generalize p.name = o at hname
    cases o with
    | none => exact .none
    | some r => exact .some (ScriptMachine.relocate_like hrefs (hname r rfl))
  path := by
    have hpath := hp.path
    show Option.Rel _ (p.path.map _) (p.path.map _)
    generalize p.path = o at hpath
    cases o with
    | none => exact .none
    | some r => exact .some (ScriptMachine.relocate_like hrefs (hpath r rfl))
  chunk :=
    { code := rfl
      constants := by
        have hsame : Aligned (fun v w => v = w ∧ v ∈ p.chunk.constants) p.chunk.constants
            p.chunk.constants :=
          List.forall₂_same.mpr fun v hv => ⟨rfl, Array.mem_toList_iff.mp hv⟩
        refine hsame.map ?_
        rintro v _ ⟨rfl, hv⟩
        cases v with
        | none => exact .none
        | bool b => exact .bool b
        | number n => exact .number n
        | obj r => exact .obj (ScriptMachine.relocate_like hrefs (hp.constants r hv))
      lines := rfl
      scopes := rfl
      catches := rfl
      meant := rfl }
  docs := rfl

namespace Heap

/-- One more item is loaded into like heaps. -/
theorem Like.place (hl : h.Like β h') (hrefs : Aligned β.rel refs refs') (item : Item)
    (hitem : ∀ p statements closures, item = .function p statements closures →
      p.RefersBelow refs.size) :
    ∃ β', β ≤ β' ∧ Aligned β'.rel (Image.place refs h item).1 (Image.place refs' h' item).1 ∧
      (Image.place refs h item).2.Like β' (Image.place refs' h' item).2 := by
  cases item with
  | text s =>
    obtain ⟨β', hβ, hr, hh⟩ := hl.intern s
    exact ⟨β', hβ, (hrefs.mono fun _ _ _ => hβ _ _).push hr, hh⟩
  | function p statements closures =>
    have hp := (hitem p statements closures rfl).relocate_like hrefs
    obtain ⟨β', hβ, hr, hh⟩ := hl.alloc (.prototype hp) nofun
    exact ⟨β', hβ, (hrefs.mono fun _ _ _ => hβ _ _).push hr, hh⟩

theorem size_place (refs : Array Ref) (h : Heap) (item : Item) :
    (Image.place refs h item).1.size = refs.size + 1 := by
  cases item <;> exact Array.size_push _

/-- The items of an image are loaded one after the other. -/
theorem Like.foldl_place (items : List Item) (hl : h.Like β h') (hrefs : Aligned β.rel refs refs')
    (hback : ∀ (k : Nat) p statements closures, items[k]? = some (.function p statements closures) →
      p.RefersBelow (refs.size + k)) :
    ∃ β', β ≤ β' ∧
      Aligned β'.rel (items.foldl (fun (refs, h) item => Image.place refs h item) (refs, h)).1
        (items.foldl (fun (refs, h) item => Image.place refs h item) (refs', h')).1 ∧
      (items.foldl (fun (refs, h) item => Image.place refs h item) (refs, h)).2.Like β'
        (items.foldl (fun (refs, h) item => Image.place refs h item) (refs', h')).2 := by
  -- on the items: the references found so far are paired, and an item refers to these only
  induction items generalizing β refs refs' h h' with
  | nil => exact ⟨β, le_rfl, hrefs, hl⟩
  | cons item items ih =>
    obtain ⟨β₁, hβ₁, hrefs₁, hl₁⟩ := hl.place hrefs item fun p statements closures heq => by
      simpa using hback 0 p statements closures (by simp [heq])
    obtain ⟨β₂, hβ₂, hrefs₂, hl₂⟩ := ih hl₁ hrefs₁ fun k p statements closures hk => by
      rw [size_place, Nat.add_right_comm, Nat.add_assoc]
      exact hback (k + 1) p statements closures hk
    exact ⟨β₂, hβ₁.trans hβ₂, hrefs₂, hl₂⟩

/-- **`Like.load`** — an image is loaded into like heaps. -/
theorem Like.load {image : Image} (hl : h.Like β h') (hback : image.RefersBack) :
    ∃ β', β ≤ β' ∧ Aligned β'.rel (image.load h).1 (image.load h').1 ∧
      (image.load h).2.Like β' (image.load h').2 := by
  unfold Image.load
  rw [← Array.foldl_toList, ← Array.foldl_toList]
  refine hl.foldl_place image.toList .empty fun k p statements closures hk => ?_
  rw [Array.size_empty, Nat.zero_add]
  exact hback k p statements closures (by rwa [Array.getElem?_toList] at hk)

/-- Only the objects matter, and the intern table. -/
theorem Neat.congr {k : Heap} (hn : h.Neat) (hcells : k.cells = h.cells) (hfree : k.free = h.free)
    (hstrings : k.strings = h.strings) : k.Neat := by
  refine ⟨⟨fun i hi => ?_, hfree ▸ hn.tidy.distinct⟩, hn.interned.congr hstrings fun r s hash => ?_⟩
  · rw [hcells]
    exact hn.tidy.vacant i (hfree ▸ hi)
  · unfold Heap.get?
    rw [hcells]

theorem Like.pause (hl : h.Like β h') : h.pause.Like β h'.pause :=
  ⟨hl.objects, hl.left.congr rfl rfl rfl, hl.right.congr rfl rfl rfl⟩

theorem Like.resume (hl : h.Like β h') : h.resume.Like β h'.resume :=
  ⟨hl.objects, hl.left.congr rfl rfl rfl, hl.right.congr rfl rfl rfl⟩

end Heap

/-! ## Compiling -/

theorem Compiler.State.finish_lt {state : Compiler.State} {r : Ref} {image : Image}
    (h : state.finish = (.ok r, image)) : r.index < image.size := by
  unfold Compiler.State.finish at h
  split at h
  · cases h
    rw [Array.size_push]
    exact Nat.lt_succ_self _
  · cases h

/-- The script function is an item of its image. -/
theorem Compiler.translate_lt {source path : String} {r : Ref} {image : Image}
    (h : Compiler.translate source path = (.ok r, image)) : r.index < image.size :=
  State.finish_lt h

/-- **`compile_like`** — a text is compiled to like functions, or has the same errors. -/
theorem compile_like (hl : h.Like β h') (source path : String) :
    ∃ β', β ≤ β' ∧ ResultLike β'.rel (compile h source path).1 (compile h' source path).1 ∧
      (compile h source path).2.Like β' (compile h' source path).2 := by
  have hgrounded := Compiler.translate_grounded source path
  have hlt := @Compiler.translate_lt source path
  unfold compile
  generalize Compiler.translate source path = compiled at hgrounded hlt ⊢
  obtain ⟨result, image⟩ := compiled
  obtain ⟨β', hβ, hrefs, hloaded⟩ := hl.pause.load hgrounded.refersBack
  refine ⟨β', hβ, ?_, hloaded.resume⟩
  cases result with
  | error errors => exact .error errors
  | ok r =>
    refine .ok (relocate_like hrefs ?_)
    have hsize := (Image.loaded_load hgrounded.refersBack hl.pause.left.tidy).1.size
    rw [hsize]
    exact hlt rfl

namespace Exec

/-! ## Files -/

theorem Steady.loadSource (path : String) :
    Steady β (· = ·) (loadSource path) (loadSource path) := by
  refine Steady.get.seq fun m n hm => ?_
  rw [hm.config.searchPaths, hm.files]
  extract_lets places
  refine Steady.seq (.modify fun m n hm => { hm with loads := ?_ }) fun _ _ _ => ?_
  · exact congrArg (· ++ places) hm.loads
  · split
    · exact .pure rfl
    · exact .throw _

theorem Alike.newPackage (name : String) {o o' : Option Ref} (ho : Option.Rel β.rel o o') :
    Alike β Pairing.rel (newPackage name o) (newPackage name o') := by
  refine (Alike.intern name).bind fun β₁ r s hβ hr => .alloc (.package ⟨hr, .empty, ?_⟩) nofun
  exact ho.mono fun _ _ _ => hβ _ _

/-- The compiler does not see the heap, so it makes the same image for both; the image is moved into
each. -/
theorem Alike.compileSource (source path : String) :
    Alike β Pairing.rel (compileSource source path) (compileSource source path) := by
  refine Alike.bind (R := fun β' => ResultLike β'.rel) (.modifyGet fun m n hm => ?_)
    fun β' a b _ hab => ?_
  · obtain ⟨β', hβ, hresult, hh⟩ := compile_like hm.heap source path
    refine ⟨β', hβ, hresult, hm.grow hβ hh fun r ⟨o, ho, hkind⟩ => ?_⟩
    exact ⟨o, (hm.heap.left.tidy.compile source path).1 r o ho, hkind⟩
  · cases hab with
    | ok hr => exact .pure hr
    | error errors => exact .throw _

theorem Alike.enterFile (source path : String) {o o' : Option Ref} (ho : Option.Rel β.rel o o')
    (required : Bool) :
    Alike β Done (enterFile source path o required) (enterFile source path o' required) := by
  refine Steady.guardDepth.bind fun _ _ _ => (Alike.compileSource source path).bind fun β₁ r s hβ₁ hr => ?_
  refine Steady.get.bind fun m n hm => (Steady.need (hm.heap.prototype? hr)).bind fun p q hp => ?_
  have ho₁ : Option.Rel β₁.rel o o' := ho.mono fun _ _ _ => hβ₁ _ _
  refine (Alike.alloc (.closure ⟨hr, .empty, ho₁⟩) nofun).bind fun β₂ c d hβ₂ hcd => ?_
  refine (Steady.push (.obj hcd)).bind fun _ _ _ => Steady.height.same fun height => ?_
  refine Steady.done (.enter ⟨hcd, hp.chunk.transfer fun _ _ _ => hβ₂ _ _, rfl, rfl, ?_, rfl, .empty⟩)
  exact ho₁.mono fun _ _ _ => hβ₂ _ _

theorem packageName?_eq (hl : h.Like β h') (hv : v.Like β w) (path : String) :
    packageName? h v path = packageName? h' w path := by
  unfold packageName?
  rw [hl.textOf?_eq hv]

/-- The file is found under the same name, and its package is a new pair. -/
theorem Alike.importFile : Alike β Done importFile importFile := by
  refine Steady.pop.bind fun v w hv => Steady.get.bind fun m n hm => ?_
  refine Steady.pop.bind fun v' w' hv' => ?_
  rw [hm.heap.textOf?_eq hv']
  split
  · exact .throw _
  · refine Steady.heap.bind fun h h' hh => ?_
    rw [packageName?_eq hh hv]
    extract_lets name?
    refine (Steady.loadSource _).same fun found => Steady.frame.bind fun f g hf => ?_
    extract_lets current current'
    cases name? with
    | none => exact .enterFile _ _ hf.package false
    | some name =>
      refine (Alike.newPackage name hf.package).bind fun β₁ r s hβ₁ hr => ?_
      refine (Alike.intern name).bind fun β₂ a b hβ₂ hab => (Steady.key hab).bind fun k l hk => ?_
      refine (Steady.define hk (.obj (hβ₂ _ _ hr))).bind fun _ _ _ => ?_
      exact .enterFile _ _ (.some (hβ₂ _ _ hr)) false

theorem Alike.requireFile : Alike β Done requireFile requireFile := by
  refine Steady.get.bind fun m n hm => Steady.pop.bind fun v w hv => ?_
  rw [hm.heap.textOf?_eq hv]
  split
  · exact .throw _
  · extract_lets path
    refine (Steady.loadSource path).same fun found => Steady.frame.bind fun f g hf => ?_
    refine (Alike.newPackage _ hf.package).bind fun β₁ r s _ hr => ?_
    exact .enterFile _ _ (.some hr) true

end Exec

end ScriptMachine
