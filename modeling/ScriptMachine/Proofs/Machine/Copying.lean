import Mathlib
import ScriptMachine.Proofs.Heap.Copies
import ScriptMachine.Proofs.Machine.Stepping

/-!
# ScriptMachine.Proofs.Machine.Copying — deep copies of lists and dictionaries

The method that copies deeply ends with a value, whatever the containers refer to, and changes nothing
of the machine but its heap. `Heap.DeepCopy` says what becomes of that.

`copied` is an induction on the levels that are left, with one case for each kind of value; the items of a
container are copied one after the other (`mapM_deepCopy`). Nothing is asked of the value but that it is
there: it may be shared or contain itself, and `deepCopy_faithful_knot` is such a value. Objects that are
no containers are not copied, at any level, and instances are among them.
-/

namespace ScriptMachine.Exec

open Heap (Copies)

variable {levels : Nat} {m : Machine} {r : Ref} {v : Value} {vs : List Value}

theorem allocValue_eq (o : Obj) (m : Machine) : allocValue o m =
    .ok (.obj (m.heap.alloc o).1) { m with heap := (m.heap.alloc o).2 } := rfl

/-- **`Copied levels m v`** — the value is copied, and only the heap of the machine changes. -/
def Copied (levels : Nat) (m : Machine) (v : Value) : Prop :=
  ∃ c h', deepCopy levels v m = .ok c { m with heap := h' } ∧ Copies m.heap h' levels [v] [c]

/-- Values are copied one after the other, each in the heap that the one before has left. -/
theorem mapM_deepCopy (hcopied : ∀ v m, m.heap.Sound → m.heap.DictsValid → m.heap.Live v →
      Copied levels m v) :
    ∀ vs m, m.heap.Sound → m.heap.DictsValid → (∀ v ∈ vs, m.heap.Live v) →
      ∃ cs h', vs.mapM (deepCopy levels) m = .ok cs { m with heap := h' } ∧
        Copies m.heap h' levels vs cs := by
  intro vs
  induction vs with
  | nil => exact fun m hs hd _ => ⟨[], m.heap, rfl, .nil hs hd⟩
  | cons v vs ih =>
    intro m hs hd hvs
    obtain ⟨hv, hvs⟩ := List.forall_mem_cons.mp hvs
    obtain ⟨c, h₁, hhead, hc⟩ := hcopied v m hs hd hv
    obtain ⟨cs, h', htail, hcs⟩ := ih { m with heap := h₁ } hc.sound hc.valid
      fun v hmem => hc.keeps.evolves.live (hvs v hmem)
    refine ⟨c :: cs, h', ?_, hc.cons hs hv hvs hcs⟩
    rw [List.mapM_cons, bind_ok hhead, bind_ok htail]
    rfl

/-- **`copied`** — a value is copied down to any level. -/
theorem copied (levels : Nat) : ∀ v m, m.heap.Sound → m.heap.DictsValid → m.heap.Live v →
    Copied levels m v := by
  induction levels with
  | zero => exact fun v m hs hd hv => ⟨v, m.heap, by cases v <;> rfl, .leaf hs hd hv (.inl rfl)⟩
  | succ levels ih =>
    intro v m hs hd hv
    have hleaf : deepCopy (levels + 1) v m = .ok v m → ¬ m.heap.IsContainer v →
        Copied (levels + 1) m v := fun hrun hnot => ⟨v, m.heap, hrun, .leaf hs hd hv (.inr hnot)⟩
    cases v with
    | obj r =>
      obtain ⟨o, ho⟩ := Heap.live_obj.mp hv
      have hsound := hs.objects r o ho
      cases o with
      | list items =>
        have hitems : ∀ v ∈ items.toList, m.heap.Live v := fun v hmem =>
          hsound v (Array.mem_toList_iff.mp hmem)
        obtain ⟨cs, h₁, hrun, hcs⟩ := mapM_deepCopy ih items.toList m hs hd hitems
        have hlength := hcs.mirrors.length_eq
        have hnode := hcs.node (.list cs.toArray) hs hitems ho rfl rfl
          (Obj.lists_children_list items) ?_ ?_ nofun
        · refine ⟨_, _, ?_, hnode⟩
          rw [deepCopy, get_bind, ho]
          dsimp only
          rw [bind_ok hrun, allocValue_eq]
        · have hlists := Obj.lists_children_list cs.toArray
          rwa [List.size_toArray, ← hlength, Array.length_toList] at hlists
        · intro c hmem
          exact hcs.live hitems c (by simpa using hmem)
      | dict d =>
        obtain ⟨cs, h₁, hrun, hcs⟩ := mapM_deepCopy ih d.values m hs hd hsound
        have hlength : d.toList.length = cs.length := by
          simpa [Dict.values] using hcs.mirrors.length_eq
        have honce : ((d.keys.zip cs).map Prod.fst).Nodup := by
          rw [List.map_fst_zip (by simp [Dict.keys, hlength])]
          exact (hd r d ho).nodup_keys
        have hnode := hcs.node (.dict (.ofList (d.keys.zip cs))) hs hsound ho rfl rfl
          (Obj.lists_children_dict (hd r d ho).lists_get?)
          (Obj.lists_children_dict (Dict.lists_ofList honce)) ?_
          fun e he => Obj.dict.inj he ▸ (Dict.represents_ofList honce).valid
        · refine ⟨_, _, ?_, hnode⟩
          rw [deepCopy, get_bind, ho]
          dsimp only
          rw [bind_ok hrun, allocValue_eq]
        · intro c hmem
          obtain ⟨key, hkey⟩ := Dict.mem_ofList hmem
          exact hcs.live hsound c (List.of_mem_zip hkey).2
      | _ =>
        refine hleaf ?_ (by rw [Heap.isContainer_obj ho]; simp [Obj.isContainer])
        rw [deepCopy, get_bind, ho]
        rfl
    | _ => exact hleaf rfl (by rintro ⟨r, o, hr, -⟩; cases hr)

/-- **`deepCopy_faithful`** — the method that copies deeply answers with a deep copy of its list or
dictionary, and leaves everything else of the machine as it was. -/
theorem deepCopy_faithful (hs : m.heap.Sound) (hd : m.heap.DictsValid)
    (hr : m.heap.IsContainer (.obj r)) (hn : m.heap.NumbersTo (maxDepth + 1) (.obj r))
    (args : Array Value) : ∃ c h', runMethod r "deepCopy" args m = .ok c { m with heap := h' } ∧
      m.heap.DeepCopy h' (.obj r) c := by
  obtain ⟨r', o, heq, ho, hcont⟩ := hr
  obtain rfl := Value.obj.inj heq
  have hv : m.heap.Live (.obj r) := Heap.live_obj.mpr ⟨o, ho⟩
  obtain ⟨c, h', hrun, hc⟩ := copied (maxDepth + 1) (.obj r) m hs hd hv
  have hmethod : runMethod r "deepCopy" args m = deepCopy (maxDepth + 1) (.obj r) m := by
    rw [runMethod, get_bind, ho]
    cases o with
    | list | dict => rfl
    | _ => cases hcont
  exact ⟨c, h', hmethod.trans hrun, hc.deepCopy hs hd hv hn⟩

/-- A list that has itself and a dictionary for items, where the dictionary has the list in turn. -/
theorem deepCopy_faithful_knot :
    let list := (Heap.new {}).alloc (.list #[])
    let dict := list.2.alloc (.dict (Dict.empty.insert "list" (.obj list.1)))
    let knot := dict.2.modify list.1 fun _ => .list #[.obj list.1, .obj dict.1]
    let m : Machine := { (default : Machine) with heap := knot }
    m.heap.Sound ∧ m.heap.DictsValid ∧ m.heap.IsContainer (.obj list.1) ∧
      m.heap.NumbersTo (maxDepth + 1) (.obj list.1) ∧
      ∃ c h', runMethod list.1 "deepCopy" #[] m = .ok c { m with heap := h' } ∧
        m.heap.DeepCopy h' (.obj list.1) c := by
  intro list dict knot m
  have hvalues : ∀ {v}, v ∈ (Dict.empty.insert "list" (Value.obj list.1)).values →
      v = .obj list.1 := fun hv => (Dict.mem_insert hv).resolve_left (by simp)
  have hlist : list.2.get? list.1 = some (.list #[]) := (Heap.new_tidy {}).get?_alloc_self _
  have hs₁ : list.2.Sound := (Heap.new_sound {}).alloc (by simp [Obj.Sound])
  have hs₂ : dict.2.Sound := hs₁.alloc fun v hv => hvalues hv ▸ Heap.live_obj.mpr ⟨_, hlist⟩
  have hdict : dict.2.get? dict.1 = some (.dict _) := hs₁.tidy.get?_alloc_self _
  have hlist₂ : dict.2.get? list.1 = some (.list #[]) := hs₁.tidy.keeps_alloc _ _ _ hlist
  have hs : knot.Sound := by
    refine hs₂.modify (fun o ho => ?_) fun _ _ _ v hv => ?_
    · obtain rfl := Option.some.inj (hlist₂.symm.trans ho)
      rfl
    · have hv : v = .obj list.1 ∨ v = .obj dict.1 := by simpa using hv
      rcases hv with rfl | rfl
      · exact Heap.live_obj.mpr ⟨_, hlist₂⟩
      · exact Heap.live_obj.mpr ⟨_, hdict⟩
  -- these two objects are all there is
  have hobjects : ∀ x o, knot.get? x = some o → o = .list #[.obj list.1, .obj dict.1] ∨
      o = .dict (Dict.empty.insert "list" (.obj list.1)) := by
    intro x o ho
    rw [Heap.get?_modify, hs₁.tidy.get?_alloc, (Heap.new_tidy {}).get?_alloc] at ho
    split at ho
    · obtain ⟨-, -, rfl⟩ := Option.map_eq_some_iff.mp ho
      exact .inl rfl
    · split at ho
      · exact .inr (Option.some.inj ho).symm
      · simp [Heap.new, Heap.get?] at ho
  have hd : knot.DictsValid := by
    intro x d hx
    rcases hobjects x _ hx with heq | heq
    · cases heq
    · exact Obj.dict.inj heq ▸ (Dict.represents_empty.insert _ _).valid
  have hn : knot.NumbersTo (maxDepth + 1) (.obj list.1) := by
    refine Heap.numbersTo_of_child? (by simp) fun v i hnan => ?_
    obtain ⟨x, -, hnan⟩ := Option.bind_eq_some_iff.mp hnan
    obtain ⟨o, ho, hnan⟩ := Option.bind_eq_some_iff.mp hnan
    rcases hobjects x o ho with rfl | rfl
    · cases i with
      | item n =>
        have hmem : Value.number Float.nan ∈ #[Value.obj list.1, .obj dict.1] :=
          Array.mem_of_getElem? hnan
        simp at hmem
      | entry => cases hnan
    · cases i with
      | item => cases hnan
      | entry key => cases hvalues (Dict.mem_of_get? hnan)
  have hknot : knot.get? list.1 = some (.list #[.obj list.1, .obj dict.1]) := by
    rw [Heap.get?_modify, if_pos rfl, hlist₂]
    rfl
  have hr : knot.IsContainer (.obj list.1) := ⟨_, _, rfl, hknot, rfl⟩
  exact ⟨hs, hd, hr, hn, deepCopy_faithful (m := m) hs hd hr hn #[]⟩

end ScriptMachine.Exec
