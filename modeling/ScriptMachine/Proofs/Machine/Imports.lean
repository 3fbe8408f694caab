import Mathlib
import ScriptMachine.Proofs.Machine.Atomicity
import ScriptMachine.Proofs.Machine.Control

/-!
# ScriptMachine.Proofs.Machine.Imports — what an import that fails leaves behind

An import looks for its file first. If its operands are no good or there is no file, it fails and the
machine is spared. A file that is found gets a package, which is bound where the import stands; only then
comes the check whether there is room for one more activation, and only then is the file compiled. When
one of these fails the package stays bound. An import into the package around it has nothing to bind, and
spares the machine whenever it fails.

`failed_import` says all of this of any error of an import, as one choice of two: the machine is spared,
or a package without symbols is bound to the name of the file and nothing else has changed. The order of
the steps is what decides, so the proof follows them one by one. That a name can be bound to the package
of a file which did not compile is a defect; `failed_import_atLimit` is a machine where the package
stays because no activation more is allowed. Imports that succeed are not considered.
-/

namespace ScriptMachine

variable {m m' : Machine} {below : Array Value} {path given : Value} {f : Frame} {rest : List Frame}
  {i : Instruction} {e : Fault} {name : String}

/-- **`m.importedName? path given`** — the name that an import of the path binds. There is none if the
path is no text, if no file is found, or if the file is to run in the package around it. -/
def Machine.importedName? (m : Machine) (path given : Value) : Option String := do
  let text ← m.heap.textOf? path
  let _ ← Exec.firstReadable? m.files (Exec.candidates text m.config.searchPaths)
  Exec.packageName? m.heap given text

/-- Where the running code defines names: in its package, or globally. -/
def Machine.scope (m : Machine) : Binding :=
  match m.fiber.frames.head?.bind Frame.package with
  | some package => .symbol package
  | none => .global

/-- **`m.BindsPackage name m'`** — a new package without symbols is bound to the name where the running
code defines names; apart from that the machine is spared. -/
def Machine.BindsPackage (m : Machine) (name : String) (m' : Machine) : Prop :=
  ∃ m₁ k r p, m.Spares m₁ ∧ m₁.heap.text? k.ref = some name ∧ m.heap.get? r = none ∧
    m₁.heap.get? r = some (.package p) ∧ p.symbols = .empty ∧
    (m₁.rebind k (.obj r) m.scope).Spares m'

namespace Exec

/-- Looking for a file takes note of the places it may be at. -/
theorem loadSource_eq (text : String) (ht : m.heap.Tidy) : ∃ m₁, m.Spares m₁ ∧ m₁.heap = m.heap ∧
    m₁.fiber = m.fiber ∧ loadSource text m =
      match firstReadable? m.files (candidates text m.config.searchPaths) with
      | some found => .ok found m₁
      | none => .error (.cannotLoad text) m₁ := by
  refine ⟨_, .withLoads ht (m.loads ++ candidates text m.config.searchPaths), rfl, rfl, ?_⟩
  unfold loadSource
  rw [get_bind, modify_bind]
  split <;> rename_i hfound <;> rw [hfound] <;> rfl

/-- A file that fails to be entered leaves the machine spared. -/
theorem enterFile_spares {source found : String} {package : Option Ref} {required : Bool}
    (ht : m.heap.Tidy) (henter : enterFile source found package required m = .error e m')
    (he : e.Reported) : m.Spares m' := by
  have hmeets := atomic_enterFile source found package required m ht
  unfold Meets at hmeets
  rw [henter] at hmeets
  exact hmeets he

/-- A package is made before it is bound. -/
theorem newPackage_eq (ht : m.heap.Tidy) (name : String) (parent : Option Ref)
    (x : Ref → Exec Unit) :
    ∃ m₁ k r p, m.Spares m₁ ∧ m₁.fiber = m.fiber ∧ m₁.heap.text? k.ref = some name ∧
      m.heap.get? r = none ∧ m₁.heap.get? r = some (.package p) ∧ p.symbols = .empty ∧
      (do
        let package ← newPackage name parent
        define (← key (← intern name)) (.obj package)
        x package : Exec Unit) m = (do define k (.obj r); x r : Exec Unit) m₁ := by
  obtain ⟨htidy, hkeeps, -⟩ := ht.intern name
  set h := (m.heap.intern name).2
  let p : Package := ⟨(m.heap.intern name).1, .empty, parent⟩
  have htidy' := htidy.alloc (.package p)
  obtain ⟨htidy₁, hkeeps₁, htext⟩ := htidy'.intern name
  have hkeeps' : m.heap.Keeps (h.alloc (.package p)).2 := hkeeps.trans (htidy.keeps_alloc _)
  set m₁ : Machine := { m with heap := ((h.alloc (.package p)).2.intern name).2 } with hm₁
  obtain ⟨hash, hget⟩ := Heap.text?_eq_some.mp htext
  have hkey : key ((h.alloc (.package p)).2.intern name).1 m₁ =
      .ok ⟨((h.alloc (.package p)).2.intern name).1, hash⟩ m₁ := by
    unfold key
    rw [get_bind]
    show need (m₁.heap.key? _) m₁ = _
    rw [Heap.key?, hget]
    rfl
  refine ⟨m₁, ⟨_, hash⟩, (h.alloc (.package p)).1, p, .withHeap (hkeeps'.trans hkeeps₁) htidy₁, rfl,
    htext, ?_, hkeeps₁ _ _ (htidy.get?_alloc_self _), rfl, bind_ok hkey⟩
  -- the slot was vacant when the name was there, so it was before
  cases hbefore : m.heap.get? (h.alloc (.package p)).1 with
  | none => rfl
  | some o =>
    have hvacant := htidy.get?_alloc_fst (.package p)
    rw [hkeeps _ _ hbefore] at hvacant
    cases hvacant

/-- A name is defined where the running code defines names. -/
theorem define_eq (hframes : m.fiber.frames = f :: rest) (k : Key) (v : Value) :
    define k v m = .ok () (m.rebind k v m.scope) := by
  unfold define Machine.scope
  rw [bind_ok (frame_eq hframes), hframes]
  show (match f.package with | some p => setSymbol p k v | none => setGlobalTable k v : Exec Unit) m =
    .ok () (m.rebind k v (match f.package with | some p => .symbol p | none => .global))
  cases f.package <;> rfl

/-- Binding a name takes no slot and frees none. -/
theorem tidy_rebind (ht : m.heap.Tidy) (k : Key) (v : Value) (b : Binding) :
    (m.rebind k v b).heap.Tidy := by
  unfold Machine.rebind
  cases b <;> dsimp only
  case global => exact ht
  all_goals exact ht.modify _ _

/-- **`importFile_fails`** — an import fails without a trace, or a package is bound to its name. -/
theorem importFile_fails (ht : m.heap.Tidy) (hframes : m.fiber.frames = f :: rest)
    (hs : m.fiber.stack = (below.push path).push given) (hfails : importFile m = .error e m')
    (he : e.Reported) : match m.importedName? path given with
    | none => m.Spares m'
    | some name => m.BindsPackage name m' := by
  obtain ⟨hgiven, hs⟩ := pop_push hs
  obtain ⟨hpath, -⟩ := pop_push hs
  have hpopped : m.Spares m.popped.popped := .withStack ht _
  unfold importFile at hfails
  rw [bind_ok hgiven, get_bind, bind_ok hpath, show m.popped.heap = m.heap from rfl] at hfails
  unfold Machine.importedName?
  -- the path is a text, or the import fails with its operands taken
  cases htext : m.heap.textOf? path with
  | none =>
    rw [htext] at hfails
    obtain ⟨-, rfl⟩ := EStateM.Result.error.inj hfails
    exact hpopped
  | some text =>
    rw [htext] at hfails
    dsimp only at hfails
    obtain ⟨m₁, hspares, hheap, hfiber, hload⟩ := loadSource_eq (m := m.popped.popped) text ht
    rw [bind_ok (heap_eq _), show m.popped.popped.heap = m.heap from rfl] at hfails
    change _ = match firstReadable? m.files (candidates text m.config.searchPaths) with
      | some _ => _ | none => _ at hload
    rw [Option.bind_eq_bind, Option.bind_some]
    -- there is a file, or the places it may be at have been noted and nothing else
    cases hfound : firstReadable? m.files (candidates text m.config.searchPaths) with
    | none =>
      rw [hfound] at hload
      rw [bind_error hload] at hfails
      obtain ⟨-, rfl⟩ := EStateM.Result.error.inj hfails
      exact hpopped.trans hspares
    | some source =>
      obtain ⟨source, found⟩ := source
      rw [hfound] at hload
      rw [bind_ok hload] at hfails
      dsimp only at hfails
      rw [bind_ok (frame_eq (hfiber ▸ hframes : m₁.fiber.frames = f :: rest))] at hfails
      rw [Option.bind_eq_bind, Option.bind_some]
      -- without a name nothing is bound, and entering the file is all that can fail
      cases hname : packageName? m.heap given text with
      | none =>
        rw [hname] at hfails
        exact (hpopped.trans hspares).trans (enterFile_spares hspares.tidy hfails he)
      | some name =>
        rw [hname] at hfails
        -- the package is made and bound; what fails from here on leaves it bound
        obtain ⟨m₂, k, r, p, hspares₂, hfiber₂, htext₂, hnew, hpackage, hsymbols, hbinds⟩ :=
          newPackage_eq hspares.tidy name f.package fun r => enterFile source found (some r) false
        have hframes₂ : m₂.fiber.frames = f :: rest := by rw [hfiber₂, hfiber]; exact hframes
        have hscope : m.scope = m₂.scope := by
          unfold Machine.scope
          rw [hframes, hframes₂]
        dsimp only at hfails
        rw [hbinds, bind_ok (define_eq hframes₂ k (.obj r))] at hfails
        refine ⟨m₂, k, r, p, (hpopped.trans hspares).trans hspares₂, htext₂, hheap ▸ hnew, hpackage,
          hsymbols, ?_⟩
        rw [hscope]
        exact enterFile_spares (tidy_rebind hspares₂.tidy k _ _) hfails he

end Exec

namespace Machine

/-- **`failed_import`** — an import that ends with an error, whichever it is, has changed nothing but
operands and the place where the activation goes on, if it binds no name. If it binds one, the new package
is bound to it, and that is all. -/
theorem failed_import (ht : m.heap.Tidy) (hnext : m.Next i) (hop : i.op = .importFile)
    (hs : m.fiber.stack = (below.push path).push given) (hstep : Exec.step m = .error e m')
    (he : e.Reported) : match m.importedName? path given with
    | none => m.Spares m'
    | some name => m.BindsPackage name m' := by
  obtain ⟨f, rest, hframes, hi⟩ := hnext
  rw [Exec.step_of_instruction? hframes hi] at hstep
  unfold Exec.execute at hstep
  rw [hop] at hstep
  have hpast : m.Spares (m.past f rest i) :=
    ⟨.refl _, ht, by rw [hframes]; rfl, by rw [hframes]; rfl, rfl, rfl⟩
  have hfails := Exec.importFile_fails (m := m.past f rest i) ht rfl hs hstep he
  change match m.importedName? path given with | none => _ | some name => _ at hfails
  split at hfails
  · exact hpast.trans hfails
  · rename_i name _
    obtain ⟨m₁, k, r, p, hspares, htext, hnew, hpackage, hsymbols, hrest⟩ := hfails
    have hscope : m.scope = (m.past f rest i).scope := by
      unfold scope
      rw [hframes]
      rfl
    exact ⟨m₁, k, r, p, hpast.trans hspares, htext, hnew, hpackage, hsymbols, hscope ▸ hrest⟩

/-- A machine about to import a file that is there, in the only activation there may be. -/
def atLimit : Machine :=
  let m := bare { maxFrames := 1 } ⟨fun _ => .ok ""⟩
  let (path, heap) := m.heap.intern "lib.cube"
  let (given, heap) := heap.intern "lib"
  let frame : Frame :=
    { closure := path, chunk := { Chunk.empty with code := #[Operation.importFile.code] }, ip := 0,
      base := 0, package := none, kind := .function, args := #[] }
  { m with heap, fiber := { m.fiber with stack := #[.obj path, .obj given], frames := [frame] } }

theorem failed_import_atLimit : atLimit.heap.Tidy ∧
    ∃ m', Exec.step atLimit = .error .stackOverflow m' ∧ atLimit.BindsPackage "lib" m' := by
  have htidy : atLimit.heap.Tidy := by
    have hinit := ((Heap.new_tidy {}).intern "init").1
    have hargs := (hinit.intern "__args__").1
    have hanswer := (hargs.intern "__ans__").1
    have hname := (hanswer.intern "__name__").1
    have htask := (hname.intern "default").1
    have hbare : (bare { maxFrames := 1 } ⟨fun _ => .ok ""⟩).heap.Tidy := htask.alloc _
    exact ((hbare.intern "lib.cube").1.intern "lib").1
  have hnext : atLimit.Next (.make .importFile 0 0) := ⟨_, _, rfl, rfl⟩
  have hs : atLimit.fiber.stack = ((#[] : Array Value).push _).push _ := rfl
  exact ⟨htidy, _, rfl, failed_import htidy hnext rfl hs rfl ⟨nofun, nofun⟩⟩

end Machine

end ScriptMachine
