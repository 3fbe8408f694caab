import Mathlib
import ScriptMachine.Machine
import ScriptMachine.Proofs.Renaming.Collection

/-!
# ScriptMachine.Proofs.Renaming.Starting — new machines and the start of a script

Machines that are new know the same builtins, whenever collections are due. What prepares a script for
its run puts like objects into both heaps: the arguments, the path, the closure of the script.

`like_new` is where the comparison begins. Two new machines are equal but for their policies, though
that is not what is shown: they are alike under the pairing that their own construction gives, which is
the form in which everything else needs it.
-/

namespace ScriptMachine

variable {β : Pairing} {m n : Machine} {h h' : Heap} {v w : Value} {r s : Ref}

/-! ## New heaps -/

/-- The pairing of nothing. -/
def Pairing.nothing : Pairing where
  rel _ _ := False
  unique := ⟨fun _ _ _ h => h.elim, fun _ _ _ h => h.elim⟩

/-- Two empty heaps are alike, whatever their limits are. -/
theorem Heap.like_new (c d : HeapConfig) : (Heap.new c).Like .nothing (Heap.new d) :=
  ⟨fun _ _ hr => hr.elim, ⟨new_tidy c, new_interned c⟩, ⟨new_tidy d, new_interned d⟩⟩

namespace Machine

/-! ## Globals -/

/-- A text has been interned. -/
theorem Like.interns (hm : m.Like β n) (text : String) : ∃ β', β ≤ β' ∧
    β'.rel (m.heap.intern text).1 (n.heap.intern text).1 ∧
    { m with heap := (m.heap.intern text).2 }.Like β' { n with heap := (n.heap.intern text).2 } := by
  obtain ⟨β', hβ, hr, hh⟩ := hm.heap.intern text
  refine ⟨β', hβ, hr, hm.grow hβ hh fun r ⟨o, ho, hkind⟩ => ?_⟩
  exact ⟨o, (hm.heap.left.tidy.intern text).2.1 r o ho, hkind⟩

/-- An object has been allocated. -/
theorem Like.allocates (hm : m.Like β n) {o o' : Obj} (hlike : o.Like β o') (ho : o.kind ≠ .string) :
    ∃ β', β ≤ β' ∧ β'.rel (m.heap.alloc o).1 (n.heap.alloc o').1 ∧
      { m with heap := (m.heap.alloc o).2 }.Like β' { n with heap := (n.heap.alloc o').2 } := by
  obtain ⟨β', hβ, hr, hh⟩ := hm.heap.alloc hlike ho
  refine ⟨β', hβ, hr, hm.grow hβ hh fun r ⟨p, hp, hkind⟩ => ?_⟩
  exact ⟨p, hm.heap.left.tidy.keeps_alloc o r p hp, hkind⟩

/-- The name is interned in both heaps, so more references may correspond than before. -/
theorem Like.defineGlobal (hm : m.Like β n) (name : String) (hv : v.Like β w) :
    ∃ β', β ≤ β' ∧ (m.defineGlobal name v).Like β' (n.defineGlobal name w) := by
  obtain ⟨β', hβ, hr, hm'⟩ := hm.interns name
  have hkey := hm'.heap.key? hr
  refine ⟨β', hβ, ?_⟩
  unfold Machine.defineGlobal
  generalize m.heap.intern name = made, n.heap.intern name = made' at hr hm' hkey ⊢
  obtain ⟨r, h⟩ := made
  obtain ⟨s, h'⟩ := made'
  dsimp only at hkey hm' ⊢
  generalize h.key? r = a, h'.key? s = b at hkey
  cases hkey with
  | none => exact hm'
  | some hk => exact { hm' with globals := hm'.globals.set hk (hv.mono hβ) }

theorem Like.defineBuiltin (hm : m.Like β n) (name : String) (b : Builtin) :
    ∃ β', β ≤ β' ∧
      (m.defineNative name (.builtin b)).Like β' (n.defineNative name (.builtin b)) := by
  obtain ⟨β₁, hβ₁, hr, hm₁⟩ := hm.allocates (.native name b) nofun
  obtain ⟨β₂, hβ₂, hm₂⟩ := hm₁.defineGlobal name (.obj hr)
  exact ⟨β₂, hβ₁.trans hβ₂, hm₂⟩

/-! ## New machines -/

/-- Machines without built-in functions are alike: each of their first objects is a new pair. -/
theorem like_bare {config config' : Config} (hconfig : config.Like config') (files : Files) :
    ∃ β, (bare config files).Like β (bare config' files) := by
  have h₀ := Heap.like_new config.heap config'.heap
  unfold bare
  generalize Heap.new config.heap = a₀, Heap.new config'.heap = b₀ at h₀ ⊢
  dsimp only
  -- five names and the handle of the main task are the first objects
  obtain ⟨β₁, -, hinit, h₁⟩ := h₀.intern "init"
  generalize a₀.intern "init" = a₁, b₀.intern "init" = b₁ at hinit h₁ ⊢
  obtain ⟨β₂, hβ₂, hargs, h₂⟩ := h₁.intern "__args__"
  generalize a₁.2.intern "__args__" = a₂, b₁.2.intern "__args__" = b₂ at hargs h₂ ⊢
  obtain ⟨β₃, hβ₃, hanswer, h₃⟩ := h₂.intern "__ans__"
  generalize a₂.2.intern "__ans__" = a₃, b₂.2.intern "__ans__" = b₃ at hanswer h₃ ⊢
  obtain ⟨β₄, hβ₄, hname, h₄⟩ := h₃.intern "__name__"
  generalize a₃.2.intern "__name__" = a₄, b₃.2.intern "__name__" = b₄ at hname h₄ ⊢
  obtain ⟨β₅, hβ₅, htask, h₅⟩ := h₄.intern "default"
  generalize a₄.2.intern "default" = a₅, b₄.2.intern "default" = b₅ at htask h₅ ⊢
  have hlike : (Obj.task ⟨a₅.1, mainTask, .finished, .none⟩).Like β₅
      (.task ⟨b₅.1, mainTask, .finished, .none⟩) := .task ⟨htask, rfl, rfl, .none⟩
  obtain ⟨β₆, hβ₆, hhandle, h₆⟩ := h₅.alloc hlike nofun
  generalize a₅.2.alloc _ = a₆, b₅.2.alloc _ = b₆ at hhandle h₆ ⊢
  have hβ₄' := hβ₅.trans hβ₆
  have hβ₃' := hβ₄.trans hβ₄'
  have hβ₂' := hβ₃.trans hβ₃'
  have hβ₁' := hβ₂.trans hβ₂'
  exact ⟨β₆,
    { heap := h₆
      globals := .empty
      extensions := .nil
      fiber := ⟨rfl, hhandle, .empty, .nil, .nil, rfl, rfl⟩
      queue := .nil
      lastTask := rfl
      mainResult := .none
      mainHandle := hhandle
      names := ⟨hβ₁' _ _ hinit, hβ₂' _ _ hargs, hβ₃' _ _ hanswer, hβ₄' _ _ hname⟩
      config := hconfig
      scriptArgs := rfl
      clock := rfl
      seed := rfl
      files := rfl
      loads := rfl
      stdout := rfl
      stderr := rfl
      cells := by
        rintro t (rfl | ht) e he
        · cases he
        · cases ht }⟩

/-- **`like_new`** — new machines are alike, whenever their collections are due. -/
theorem like_new {config config' : Config} (hconfig : config.Like config') (files : Files) :
    ∃ β, (new config files).Like β (new config' files) := by
  have hall : ∀ (bs : List (String × Builtin)) {β : Pairing} {m n : Machine}, m.Like β n →
      ∃ β', (bs.foldl (fun m b => m.defineNative b.1 (.builtin b.2)) m).Like β'
        (bs.foldl (fun m b => m.defineNative b.1 (.builtin b.2)) n) := by
    intro bs
    induction bs with
    | nil => exact fun hm => ⟨_, hm⟩
    | cons b bs ih =>
      intro β m n hm
      obtain ⟨β', -, hm'⟩ := hm.defineBuiltin b.1 b.2
      exact ih hm'
  obtain ⟨β, hbare⟩ := like_bare hconfig files
  exact hall Builtin.all hbare

theorem Like.loadArgs (hm : m.Like β n) (args : List String) :
    (m.loadArgs args).Like β (n.loadArgs args) :=
  { hm with scriptArgs := rfl }

/-! ## Scripts -/

/-- By induction on the texts, each of which may add a pair. -/
theorem internAll_like (texts : List String) (hl : h.Like β h') :
    ∃ β', β ≤ β' ∧ Aligned (Value.Like β') (internAll h texts).1 (internAll h' texts).1 ∧
      (internAll h texts).2.Like β' (internAll h' texts).2 ∧ h.Keeps (internAll h texts).2 := by
  have hall : ∀ (texts : List String) {β : Pairing} {h h' : Heap} {xs ys : Array Value},
      h.Like β h' → Aligned (Value.Like β) xs ys →
      let step := fun (p : Array Value × Heap) s => (p.1.push (.obj (p.2.intern s).1), (p.2.intern s).2)
      ∃ β', β ≤ β' ∧
        Aligned (Value.Like β') (texts.foldl step (xs, h)).1 (texts.foldl step (ys, h')).1 ∧
        (texts.foldl step (xs, h)).2.Like β' (texts.foldl step (ys, h')).2 ∧
        h.Keeps (texts.foldl step (xs, h)).2 := by
    intro texts
    induction texts with
    | nil => exact fun hl hxs => ⟨_, le_rfl, hxs, hl, .refl _⟩
    | cons s texts ih =>
      intro β h h' xs ys hl hxs step
      obtain ⟨β₁, hβ₁, hr, hl₁⟩ := hl.intern s
      obtain ⟨β₂, hβ₂, hxs₂, hl₂, hkeeps⟩ := ih hl₁ ((hxs.grow hβ₁).push (.obj hr))
      exact ⟨β₂, hβ₁.trans hβ₂, hxs₂, hl₂, (hl.left.tidy.intern s).2.1.trans hkeeps⟩
  exact hall texts hl .empty

theorem Like.restart (hm : m.Like β n) : m.restart.Like β n.restart := by
  have hdropped := hm.dropOthers.resetFiber
  have hhandle := hdropped.modifyHandle hdropped.mainHandle
    (f := fun t => { t with status := .running, result := .none })
    (g := fun t => { t with status := .running, result := .none })
    fun t u ht => { ht with status := rfl, result := .none }
  have hfiber : (Fiber.new mainTask m.dropOthers.resetFiber.mainHandle).Like β
      (Fiber.new mainTask n.dropOthers.resetFiber.mainHandle) :=
    ⟨rfl, hdropped.mainHandle, .empty, .nil, .nil, rfl, rfl⟩
  exact { hhandle.withFiber hfiber nofun with mainResult := .none }

/-- The main task starts on a like closure; what the machine has besides is as it was. -/
theorem Like.startMain (hm : m.Like β n) (hr : β.rel r s) {c d : Chunk} (hc : c.Like β d) :
    ∃ β', (m.startMain r c).Like β' (n.startMain s d) := by
  have hm := hm.restart
  unfold Machine.startMain
  generalize m.restart = m, n.restart = n at hm ⊢
  dsimp only
  obtain ⟨β₁, hβ₁, hargs, hh₁, hkeeps⟩ := internAll_like m.scriptArgs hm.heap
  have htexts : internAll n.heap n.scriptArgs = internAll n.heap m.scriptArgs := by rw [hm.scriptArgs]
  rw [htexts]
  generalize internAll m.heap m.scriptArgs = made, internAll n.heap m.scriptArgs = made' at *
  obtain ⟨xs, h⟩ := made
  obtain ⟨ys, h'⟩ := made'
  dsimp only at *
  have hm₁ := hm.grow hβ₁ hh₁ fun r ⟨o, ho, hkind⟩ => ⟨o, hkeeps r o ho, hkind⟩
  obtain ⟨β₂, hβ₂, hlist, hm₂⟩ := hm₁.allocates (.list hargs) nofun
  dsimp only at hlist hm₂
  generalize h.alloc (.list xs) = made, h'.alloc (.list ys) = made' at *
  obtain ⟨β₃, hβ₃, hm₃⟩ := hm₂.defineGlobal "args" (.obj hlist)
  generalize Machine.defineGlobal _ "args" (.obj made.1) = m₃,
    Machine.defineGlobal _ "args" (.obj made'.1) = n₃ at hm₃ ⊢
  have hβ₁₃ := hβ₂.trans hβ₃
  have hβ := hβ₁.trans hβ₁₃
  refine ⟨β₃, hm₃.withFiber { hm₃.fiber with stack := ?_, frames := ?_ } hm₃.running.cells⟩
  · exact Aligned.push (R := Value.Like β₃) .empty (.obj (hβ _ _ hr))
  · exact .cons ⟨hβ _ _ hr, hc.transfer fun _ _ _ => hβ _ _, rfl, rfl, .none, rfl,
      hargs.grow hβ₁₃⟩ .nil

theorem Like.load (hm : m.Like β n) (hr : β.rel r s) (path : String) :
    ∃ β', (m.load r path).Like β' (n.load s path) := by
  unfold Machine.load
  have hlike : (Obj.closure ⟨r, #[], none⟩).Like β (.closure ⟨s, #[], none⟩) :=
    .closure ⟨hr, .empty, .none⟩
  obtain ⟨β₁, hβ₁, hclosure, hm₁⟩ := hm.allocates hlike nofun
  obtain ⟨β₂, hβ₂, hpath, hm₂⟩ := hm₁.interns path
  have hβ₁₂ := hβ₁.trans hβ₂
  have hchunk : Chunk.Like β₂ _ _ := ((hm₂.heap.prototype? (hβ₁₂ _ _ hr)).map
    fun _ _ hp => hp.chunk).getD (x := .empty) (y := .empty) ⟨rfl, .empty, rfl, rfl, rfl, rfl⟩
  obtain ⟨β₃, hβ₃, hm₃⟩ := hm₂.defineGlobal "__name__" (.obj hpath)
  exact hm₃.startMain ((hβ₂.trans hβ₃) _ _ hclosure) (hchunk.transfer fun _ _ _ => hβ₃ _ _)

end Machine

end ScriptMachine
