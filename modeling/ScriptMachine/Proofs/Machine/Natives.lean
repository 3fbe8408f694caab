import Mathlib
import ScriptMachine.Machine.Methods
import ScriptMachine.Proofs.Machine.Scene

/-!
# ScriptMachine.Proofs.Machine.Natives — builtins and built-in methods in a scene

Native functions and the methods of lists, dictionaries and strings compute a value from values. They
leave the scene as it is, except for two builtins: one collects garbage and one puts the fiber to
sleep. Whatever value comes out is there.

There are many builtins and methods and few shapes. Arguments are read and checked, a value is computed,
and a new object is made or a container changed. A lemma for each shape comes first, and `runBuiltin`,
`listMethod`, `dictMethod` and `stringMethod` go through the functions by name with these. What a
function computes is not described here; deep copies have a module of their own.
-/

namespace ScriptMachine

variable {s : Scene} {m : Machine} {k : Nat} {args : Array Value} {Q : Value → Machine → Prop}

/-- A missing argument is nothing, and nothing is live. -/
theorem Exec.live_argument {h : Heap} (hargs : ∀ v ∈ args, h.Live v) (i : Nat) :
    h.Live (argument args i) := by
  unfold argument
  rw [Array.getD_eq_getD_getElem?]
  cases hv : args[i]? with
  | none => exact Heap.live_none
  | some v => exact hargs v (Array.mem_of_getElem? hv)

/-- The items of a list are there. -/
theorem Heap.Healthy.list {h : Heap} {r : Ref} {items : Array Value} (hh : h.Healthy)
    (hr : h.get? r = some (.list items)) : ∀ v ∈ items, h.Live v :=
  hh.sound.objects r _ hr

theorem Heap.Healthy.dict {h : Heap} {r : Ref} {d : Dict Value} (hh : h.Healthy)
    (hr : h.get? r = some (.dict d)) : ∀ v ∈ d.values, h.Live v :=
  hh.sound.objects r _ hr

/-- Steps one after the other, each on an element of a list. -/
theorem Amid.mapM {β : Type} {f : β → Exec Value} {P : Heap → β → Prop}
    (hP : ∀ h h' b, h.Evolves h' → P h b → P h' b)
    (hf : ∀ b m Q, Amid s k m → P m.heap b → Yields s k m Q → Runs s (f b) m Q) (bs : List β) :
    ∀ m {Q : List Value → Machine → Prop}, Amid s k m → (∀ b ∈ bs, P m.heap b) →
      (∀ vs m', Amid s k m' → m.heap.Evolves m'.heap → (∀ v ∈ vs, m'.heap.Live v) → Q vs m') →
      Runs s (bs.mapM f) m Q := by
  induction bs with
  | nil =>
    intro m Q hm _ hQ
    rw [List.mapM_nil]
    exact .pure (hQ [] m hm (.refl _) nofun)
  | cons b bs ih =>
    intro m Q hm hbs hQ
    rw [List.mapM_cons]
    refine .bind (hf b m _ hm (hbs b List.mem_cons_self) fun v m₁ hm₁ hev hv => ?_)
    refine .bind (ih m₁ hm₁ (fun b' hb' => hP _ _ b' hev (hbs b' (List.mem_cons_of_mem _ hb'))) ?_)
    intro vs m₂ hm₂ hev' hvs
    refine .pure (hQ _ m₂ hm₂ (hev.trans hev') fun w hw => ?_)
    rcases List.mem_cons.mp hw with rfl | hw
    · exact hev'.live hv
    · exact hvs w hw

namespace Amid

/-! ## Arguments -/

theorem numberArgument {Q : Float → Machine → Prop} {i : Nat} {function : String}
    (hm : Amid s k m) (hQ : ∀ x, Q x m) : Runs s (Exec.numberArgument args i function) m Q := by
  refine .bind (.get ?_)
  split
  · exact .pure (hQ _)
  · exact hm.throw nofun

theorem stringArgument {Q : String → Machine → Prop} {i : Nat} {function : String}
    (hm : Amid s k m) (hQ : ∀ t, Q t m) : Runs s (Exec.stringArgument args i function) m Q := by
  refine .bind (.get ?_)
  split
  · exact .pure (hQ _)
  · exact hm.throw nofun

theorem joined {Q : String → Machine → Prop} (hQ : ∀ t, Q t m) : Runs s (Exec.joined args) m Q :=
  .bind (.get (.pure (hQ _)))

/-! ## Builtins -/

theorem randomWord {Q : UInt64 → Machine → Prop} (hm : Amid s k m)
    (hQ : ∀ w m', Amid s k m' → m'.heap = m.heap → Q w m') : Runs s Exec.randomWord m Q :=
  hQ _ _ (hm.other hm.sound.globals hm.sound.extensions) rfl

theorem randomFrom {low : Int} {count : Nat} (hm : Amid s k m) (hQ : Yields s k m Q) :
    Runs s (Exec.randomFrom low count) m Q :=
  .bind (hm.randomWord fun _ m' hm' heq => .pure (hQ _ m' hm' (heq ▸ .refl _) nofun))

theorem random (hm : Amid s k m) (hQ : Yields s k m Q) : Runs s (Exec.random args) m Q := by
  unfold Exec.random
  split
  · exact .bind (hm.randomWord fun _ m' hm' heq => .pure (hQ _ m' hm' (heq ▸ .refl _) nofun))
  · refine .bind (hm.numberArgument fun x => .ite (fun _ => ?_) fun _ => ?_)
    · exact .bind (hm.throw nofun)
    · exact hm.randomFrom hQ
  · refine .bind (hm.numberArgument fun x => .bind (hm.numberArgument fun y =>
      .ite (fun _ => ?_) fun _ => ?_))
    · exact .bind (hm.throw nofun)
    · exact hm.randomFrom hQ

theorem lengthOf {Q : Nat → Machine → Prop} {v : Value} (hm : Amid s k m) (hQ : ∀ n, Q n m) :
    Runs s (Exec.lengthOf v) m Q := by
  unfold Exec.lengthOf
  split
  · refine .bind (.get ?_)
    split
    · exact .pure (hQ _)
    · exact .pure (hQ _)
    · exact .pure (hQ _)
    · exact hm.throw nofun
  · exact hm.throw nofun

theorem toNumber {Q : Float → Machine → Prop} {v : Value} (hm : Amid s k m) (hQ : ∀ x, Q x m) :
    Runs s (Exec.toNumber v) m Q := by
  refine .bind (.heap ?_)
  split
  · exact .pure (hQ _)
  · exact .pure (hQ _)
  · dsimp only
    split
    · exact .pure (hQ _)
    · exact hm.throw nofun

theorem ofNumber {function : String} {f : Float → Float} (hm : Amid s k m) (hQ : Yields s k m Q) :
    Runs s (Exec.ofNumber function f args) m Q :=
  .bind (hm.numberArgument fun _ => .pure (hQ _ m hm (.refl _) nofun))

theorem write {Q : Unit → Machine → Prop} {text : String} (hm : Amid s k m)
    (hQ : ∀ m', Amid s k m' → m'.heap = m.heap → Q () m') : Runs s (Exec.write text) m Q :=
  hQ _ (hm.other hm.sound.globals hm.sound.extensions) rfl

/-- **`runBuiltin`** — a builtin that neither collects nor sleeps leaves the scene as it is. -/
theorem runBuiltin {b : Builtin} (hm : Amid s k m) (hgc : b ≠ .gc) (hwait : b ≠ .wait)
    (hQ : Yields s k m Q) : Runs s (Exec.runBuiltin b args) m Q := by
  have hplain : ∀ v, (∀ r, v ≠ .obj r) → Q v m := fun v hv =>
    hQ v m hm (.refl _) fun r hr => absurd hr (hv r)
  unfold Exec.runBuiltin
  split
  · exact .bind (joined fun _ => .bind (hm.write fun m' hm' heq =>
      .pure (hQ _ m' hm' (heq ▸ .refl _) nofun)))
  · exact .bind (joined fun _ => .bind (hm.write fun m' hm' heq =>
      .pure (hQ _ m' hm' (heq ▸ .refl _) nofun)))
  · exact .bind (hm.lengthOf fun _ => .pure (hplain _ nofun))
  · exact .bind (.get (hm.internValue _ hQ))
  · exact .bind (.get (hm.internValue _ hQ))
  · exact .bind (hm.toNumber fun _ => .pure (hplain _ nofun))
  · exact .bind (hm.toNumber fun _ => .pure (hplain _ nofun))
  · exact .pure (hplain _ nofun)
  · exact .bind (.get (.pure (hplain _ nofun)))
  · exact .bind (.get (.pure (hplain _ nofun)))
  · exact absurd rfl hwait
  · exact .bind (joined fun _ => hm.throw nofun)
  · exact absurd rfl hgc
  · exact .bind (.get (.pure (hplain _ nofun)))
  · exact hm.random hQ
  all_goals exact hm.ofNumber hQ

/-- A host function answers with something that is there. -/
theorem runHost {r : Ref} {n : Native} {f : HostFunction} (hm : Amid s k m)
    (hn : m.heap.native? r = some n) (hf : n.body = .host f) (hargs : ∀ v ∈ args, m.heap.Live v)
    (hQ : Yields s k m Q) : Runs s (Exec.runNative n args) m Q := by
  unfold Exec.runNative
  rw [hf]
  refine .bind (.get ?_)
  split
  · rename_i v hv
    refine .pure (hQ v m hm (.refl _) ?_)
    rcases hm.honest r n f hn hf _ _ v hv with hmem | hlive
    · exact hargs v (Array.mem_toList_iff.mp hmem)
    · exact hlive
  · exact hm.throw nofun

/-! ## Lists and dictionaries -/

/-- The items are exchanged for others that are live in the same heap. -/
theorem modifyList {Q : Unit → Machine → Prop} {r : Ref} {f : Array Value → Array Value}
    (hm : Amid s k m)
    (hf : ∀ items, m.heap.get? r = some (.list items) → ∀ v ∈ f items, m.heap.Live v)
    (hQ : ∀ m', Amid s k m' → m.heap.Evolves m'.heap → Q () m') :
    Runs s (Exec.modifyList r f) m Q := by
  refine hm.modifyHeap (fun o ho => ?_) (fun o ho hsound => ?_) hQ
  · cases o with
    | list items => exact .inr ⟨rfl, rfl⟩
    | _ => exact .inl rfl
  · cases o with
    | list items => exact hf items ho
    | _ => exact hsound

theorem modifyDict {Q : Unit → Machine → Prop} {r : Ref} {f : Dict Value → Dict Value}
    (hm : Amid s k m)
    (hf : ∀ d, m.heap.get? r = some (.dict d) → ∀ v ∈ (f d).values, m.heap.Live v)
    (hQ : ∀ m', Amid s k m' → m.heap.Evolves m'.heap → Q () m') :
    Runs s (Exec.modifyDict r f) m Q := by
  refine hm.modifyHeap (fun o ho => ?_) (fun o ho hsound => ?_) hQ
  · cases o with
    | dict d => exact .inr ⟨rfl, rfl⟩
    | _ => exact .inl rfl
  · cases o with
    | dict d => exact hf d ho
    | _ => exact hsound

/-- By induction on the levels. A collection is copied item by item, and each copy is live when the
next one is made. -/
theorem deepCopy (levels : Nat) : ∀ v m Q, Amid s k m → m.heap.Live v → Yields s k m Q →
    Runs s (Exec.deepCopy levels v) m Q := by
  induction levels with
  | zero =>
    intro v m Q hm hv hQ
    rw [Exec.deepCopy]
    · exact .pure (hQ v m hm (.refl _) hv)
    · exact nofun
  | succ levels ih =>
    intro v m Q hm hv hQ
    have hlive : ∀ (h h' : Heap) (v : Value), h.Evolves h' → h.Live v → h'.Live v := fun _ _ _ hev => hev.live
    cases v with
    | obj r =>
      rw [Exec.deepCopy]
      refine .bind (.get ?_)
      split
      · -- the items are copied first, and then the list is made
        rename_i items hr
        refine .bind (Amid.mapM hlive ih items.toList m hm
          (fun v hv => hm.sound.heap.list hr v (Array.mem_toList_iff.mp hv)) ?_)
        intro vs m' hm' hev hvs
        refine hm'.allocValue rfl (fun v hv => hvs v ?_) nofun fun v m'' hm'' hev' =>
          hQ v m'' hm'' (hev.trans hev')
        simpa using hv
      · -- so it is with the values of a dictionary
        rename_i d hr
        refine .bind (Amid.mapM hlive ih d.values m hm (hm.sound.heap.dict hr) ?_)
        intro vs m' hm' hev hvs
        refine hm'.allocValue rfl (fun v hv => ?_) nofun fun v m'' hm'' hev' =>
          hQ v m'' hm'' (hev.trans hev')
        obtain ⟨key, hkey⟩ := Dict.mem_ofList hv
        exact hvs v (List.of_mem_zip hkey).2
      · exact .pure (hQ _ m hm (.refl _) hv)
    | _ =>
      rw [Exec.deepCopy]
      · exact .pure (hQ _ m hm (.refl _) hv)
      · exact nofun

/-- An index that passes is within the list, or at its end where that is allowed. -/
theorem indexArgument {Q : Nat → Machine → Prop} {i size : Nat} {allowEnd : Bool}
    {function : String} (hm : Amid s k m)
    (hQ : ∀ n, (allowEnd = false → n < size) → Q n m) :
    Runs s (Exec.indexArgument args i size allowEnd function) m Q := by
  refine .bind (hm.numberArgument fun x => .ite (fun _ => ?_) fun hbounds => ?_)
  · exact .bind (hm.throw nofun)
  · refine .pure (hQ _ fun hend => ?_)
    simp only [hend, Bool.false_eq_true, if_false, not_or, Int.not_lt] at hbounds
    omega

theorem listItems {Q : Array Value → Machine → Prop} {r : Ref} {items : Array Value}
    (hr : m.heap.get? r = some (.list items)) (hQ : Q items m) :
    Runs s (Exec.listItems r) m Q := by
  refine .bind (.get (.need ?_ hQ))
  simp [Heap.listOf?, hr]

theorem dictOf {Q : Dict Value → Machine → Prop} {r : Ref} {d : Dict Value}
    (hr : m.heap.get? r = some (.dict d)) (hQ : Q d m) : Runs s (Exec.dictOf r) m Q := by
  refine .bind (.get ?_)
  rw [hr]
  exact .pure hQ

theorem listIndex {Q : Nat → Machine → Prop} {r : Ref} {items : Array Value} {i : Nat}
    {allowEnd : Bool} {function : String} (hm : Amid s k m)
    (hr : m.heap.get? r = some (.list items))
    (hQ : ∀ n, (allowEnd = false → n < items.size) → Q n m) :
    Runs s (Exec.listIndex r args i allowEnd function) m Q :=
  .bind (listItems hr (hm.indexArgument hQ))

/-- The texts that are interned first stay live while the others are interned. -/
theorem internAll {Q : List Value → Machine → Prop} (hm : Amid s k m) (texts : List String)
    (hQ : ∀ vs m', Amid s k m' → m.heap.Evolves m'.heap → (∀ v ∈ vs, m'.heap.Live v) → Q vs m') :
    Runs s (texts.mapM Exec.internValue) m Q :=
  Amid.mapM (P := fun _ _ => True) (fun _ _ _ _ _ => trivial)
    (fun t _ _ hm _ hQ => hm.internValue t hQ) texts m hm (fun _ _ => trivial) hQ

theorem internList {texts : List String} (hm : Amid s k m) (hQ : Yields s k m Q) :
    Runs s (Exec.internList texts) m Q :=
  .bind (hm.internAll texts fun _ m' hm' hev hvs =>
    hm'.allocValue rfl (fun v hv => hvs v (by simpa using hv)) nofun fun v m'' hm'' hev' =>
      hQ v m'' hm'' (hev.trans hev'))

/-- **`listMethod`** — a method of a list. -/
theorem listMethod {r : Ref} {items : Array Value} {name : String} (hm : Amid s k m)
    (hr : m.heap.get? r = some (.list items)) (hargs : ∀ v ∈ args, m.heap.Live v)
    (hQ : Yields s k m Q) : Runs s (Exec.listMethod r name args) m Q := by
  have hself : m.heap.Live (.obj r) := Heap.live_obj.mpr ⟨_, hr⟩
  have hitems := hm.sound.heap.list hr
  have hplain : ∀ v, (∀ r, v ≠ .obj r) → Q v m := fun v hv =>
    hQ v m hm (.refl _) fun r hr => absurd hr (hv r)
  -- the list may be read again while it is changed
  have hsame : ∀ items', m.heap.get? r = some (.list items') → items' = items := fun items' h =>
    Obj.list.inj (Option.some.inj (h.symm.trans hr))
  have hreturn : ∀ m', Amid s k m' → m.heap.Evolves m'.heap →
      Runs s (Pure.pure (.obj r)) m' Q := fun m' hm' hev => .pure (hQ _ m' hm' hev (hev.live hself))
  unfold Exec.listMethod
  split
  · refine .bind (hm.modifyList (fun items' h v hv => ?_) hreturn)
    rcases Array.mem_append.mp hv with hv | hv
    · exact hitems v (hsame _ h ▸ hv)
    · exact hargs v hv
  · refine .bind (hm.modifyList (fun items' h v hv => ?_) hreturn)
    rcases Array.mem_append.mp hv with hv | hv
    · exact hitems v (hsame _ h ▸ hv)
    · exact hargs v hv
  · refine .bind (listItems hr ?_)
    split
    · rename_i v hback
      have hv := hitems v (Array.mem_of_back? hback)
      refine .bind (hm.modifyList (fun items' h w hw => ?_) fun m' hm' hev =>
        .pure (hQ v m' hm' hev (hev.live hv)))
      rw [← Array.mem_toList_iff, Array.toList_pop] at hw
      exact hitems w (hsame _ h ▸ Array.mem_toList_iff.mp (List.mem_of_mem_dropLast hw))
    · exact hm.throw nofun
  · refine .bind (hm.listIndex hr fun i _ =>
      .bind (hm.modifyList (fun items' h v hv => ?_) hreturn))
    rw [hsame _ h, Array.insertIdxIfInBounds] at hv
    split at hv
    · rcases Array.mem_insertIdx.mp hv with rfl | hv
      · exact Exec.live_argument hargs 1
      · exact hitems v hv
    · exact hitems v hv
  · refine .bind (hm.listIndex hr fun i hi => .bind (listItems hr ?_))
    have hget := Array.getElem?_eq_getElem (hi rfl)
    refine .bind (.need hget (.bind (hm.modifyList (fun items' h w hw => ?_) fun m' hm' hev =>
      .pure (hQ _ m' hm' hev (hev.live (hitems _ (Array.mem_of_getElem? hget)))))))
    rw [hsame _ h, ← Array.mem_toList_iff, Array.toList_eraseIdxIfInBounds] at hw
    exact hitems w (Array.mem_toList_iff.mp (List.mem_of_mem_eraseIdx hw))
  · exact .bind (listItems hr (.bind (.heap (.pure (hplain _ nofun)))))
  · refine .bind (listItems hr (.bind (.heap ?_)))
    split
    · exact .pure (hplain _ nofun)
    · exact .pure (hplain _ nofun)
  · exact .bind (listItems hr (hm.allocValue rfl hitems nofun hQ))
  · exact deepCopy _ _ m Q hm hself hQ
  · have hjoin : ∀ separator : String, Runs s (do
        let items ← Exec.listItems r
        let h ← Exec.heap
        Exec.internValue (separator.intercalate (items.toList.map h.display))) m Q := fun _ =>
      .bind (listItems hr (.bind (.heap (hm.internValue _ hQ))))
    split
    · exact hjoin ""
    · exact .bind (hm.stringArgument hjoin)
  · refine .bind (hm.listIndex hr fun i _ => .bind (hm.listIndex hr fun j _ =>
      .bind (hm.modifyList (fun items' h v hv => ?_) hreturn)))
    rw [hsame _ h, Array.swapIfInBounds_def] at hv
    split at hv
    · split at hv
      · exact hitems v ((Array.swap_perm _ _).mem_iff.mp hv)
      · exact hitems v hv
    · exact hitems v hv
  · exact .bind (hm.modifyList (fun _ _ => by simp) hreturn)
  · exact hm.throw nofun

/-- **`dictMethod`** — a method of a dictionary. -/
theorem dictMethod {r : Ref} {d : Dict Value} {name : String} (hm : Amid s k m)
    (hr : m.heap.get? r = some (.dict d)) (hargs : ∀ v ∈ args, m.heap.Live v)
    (hQ : Yields s k m Q) : Runs s (Exec.dictMethod r name args) m Q := by
  have hvalues := hm.sound.heap.dict hr
  have hsame : ∀ d', m.heap.get? r = some (.dict d') → d' = d := fun d' h =>
    Obj.dict.inj (Option.some.inj (h.symm.trans hr))
  have hget : ∀ {key default : _}, m.heap.Live default → m.heap.Live ((d.get? key).getD default) := by
    intro key default hdefault
    cases hv : d.get? key with
    | none => exact hdefault
    | some v => exact hvalues v (Dict.mem_of_get? hv)
  unfold Exec.dictMethod
  split
  · exact .bind (hm.stringArgument fun _ => .bind (dictOf hr
      (.pure (hQ _ m hm (.refl _) (hget (Exec.live_argument hargs 1))))))
  · exact .bind (dictOf hr (hm.internList hQ))
  · exact .bind (dictOf hr (hm.allocValue rfl (fun v hv => hvalues v (by simpa using hv)) nofun hQ))
  · refine .bind (hm.stringArgument fun key => .bind (dictOf hr ?_))
    refine .bind (hm.modifyDict (fun d' h v hv => ?_) fun m' hm' hev =>
      .pure (hQ _ m' hm' hev (hev.live (hget Heap.live_none))))
    exact hvalues v (hsame _ h ▸ Dict.mem_remove hv)
  · exact .bind (hm.stringArgument fun _ => .bind (dictOf hr (.pure (hQ _ m hm (.refl _) nofun))))
  · exact .bind (dictOf hr (hm.allocValue rfl hvalues nofun hQ))
  · exact deepCopy _ _ m Q hm (Heap.live_obj.mpr ⟨_, hr⟩) hQ
  · exact hm.throw nofun

/-- **`stringMethod`** — a method of a string. -/
theorem stringMethod {text name : String} (hm : Amid s k m) (hQ : Yields s k m Q) :
    Runs s (Exec.stringMethod text name args) m Q := by
  have hplain : ∀ v, (∀ r, v ≠ .obj r) → Q v m := fun v hv =>
    hQ v m hm (.refl _) fun r hr => absurd hr (hv r)
  unfold Exec.stringMethod
  split
  · exact hm.internValue _ hQ
  · exact hm.internValue _ hQ
  · exact hm.internValue _ hQ
  · exact .bind (hm.stringArgument fun _ => .bind (hm.stringArgument fun _ => hm.internValue _ hQ))
  · split
    · exact hm.internList hQ
    · exact .bind (hm.stringArgument fun _ => hm.internList hQ)
  · exact .bind (hm.stringArgument fun _ => .pure (hplain _ nofun))
  · exact .bind (hm.stringArgument fun _ => .pure (hplain _ nofun))
  · exact .bind (hm.stringArgument fun _ => .pure (hplain _ nofun))
  · refine .bind (hm.stringArgument fun _ => ?_)
    split
    · exact .pure (hplain _ nofun)
    · exact .pure (hplain _ nofun)
  · exact hm.throw nofun

/-- The method is chosen by the kind of the receiver and by its name. -/
theorem runMethod {r : Ref} {name : String} (hm : Amid s k m)
    (hargs : ∀ v ∈ args, m.heap.Live v) (hQ : Yields s k m Q) :
    Runs s (Exec.runMethod r name args) m Q := by
  refine .bind (.get ?_)
  split
  · rename_i hr
    exact hm.listMethod hr hargs hQ
  · rename_i hr
    exact hm.dictMethod hr hargs hQ
  · exact hm.stringMethod hQ
  · exact hm.throw nofun

end Amid

end ScriptMachine
