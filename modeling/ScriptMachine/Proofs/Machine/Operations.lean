import Mathlib
import ScriptMachine.Machine.Step
import ScriptMachine.Proofs.Machine.Calls

/-!
# ScriptMachine.Proofs.Machine.Operations — operators and declarations in a scene

What the operators, the declarations and the other plain instructions do, each as a whole scene: it
takes its operands and leaves its results, enters an activation, or fails.

Each lemma is one instruction, or the part of it that does the work, and its conclusion is that of
`Runs` or `Finishes` in the scene. `Machine.Misfit` lists what an instruction may find that leaves it with
nothing to do, which is not an error of the script: what another task has put in the place of a class,
and a spawn when no id is left. Adding to a list or a dictionary that is no such thing would be another;
`peekFloor` is why it does not happen, since the collection of a literal is where its instruction looks.
-/

namespace ScriptMachine

variable {s : Scene} {m : Machine} {k leaves argc : Nat} {r name : Ref} {v : Value} {f : Frame}
  {rest : List Frame}

/-- **`m.Misfit op`** — there is nothing the instruction can do: it changes a class or an enumeration
that it was given on the stack, and it was given something else; or it starts a task, and every id
has been given to another. -/
def Machine.Misfit (m : Machine) : Operation → Prop
  | .inherit => ∃ v, m.fiber.stack[m.fiber.stack.size - 1]? = some v ∧ m.heap.classOf? v = none
  | .member => ∃ v, m.fiber.stack[m.fiber.stack.size - 2]? = some v ∧
      ∀ r, v = .obj r → ¬ m.heap.Has r .classObj ∧ ¬ m.heap.Has r .enumeration
  | .spawn => taskIds ≤ m.lastTask + 1
  | _ => False

/-! ## Lists computed item by item -/

/-- A computation in two parts comes out well if both parts do. -/
theorem Except.bind_eq_ok {ε α β : Type} {x : Except ε α} {g : α → Except ε β} {b : β}
    (h : (x >>= g) = .ok b) : ∃ a, x = .ok a ∧ g a = .ok b := by
  cases x with
  | error e => cases h
  | ok a => exact ⟨a, rfl, h⟩

/-- A computation in two parts fails in the first part or in the second. -/
theorem Except.bind_eq_error {ε α β : Type} {x : Except ε α} {g : α → Except ε β} {e : ε}
    (h : (x >>= g) = .error e) : x = .error e ∨ ∃ a, x = .ok a ∧ g a = .error e := by
  cases x with
  | error e' => exact .inl (congrArg _ (Except.error.inj h))
  | ok a => exact .inr ⟨a, rfl, h⟩

theorem List.mem_mapM_option {α β : Type} {g : α → Option β} {xs : List α} {ys : List β}
    (h : xs.mapM g = some ys) : ∀ y ∈ ys, ∃ x ∈ xs, g x = some y := by
  induction xs generalizing ys with
  | nil =>
    rw [List.mapM_nil] at h
    obtain rfl := Option.some.inj h
    simp
  | cons x xs ih =>
    rw [List.mapM_cons] at h
    obtain ⟨y, hy, h⟩ := Option.bind_eq_some_iff.mp h
    obtain ⟨zs, hzs, h⟩ := Option.bind_eq_some_iff.mp h
    obtain rfl := Option.some.inj h
    intro w hw
    rcases List.mem_cons.mp hw with rfl | hw
    · exact ⟨x, List.mem_cons_self, hy⟩
    · obtain ⟨x', hx', hw'⟩ := ih hzs w hw
      exact ⟨x', List.mem_cons_of_mem _ hx', hw'⟩

theorem List.mem_mapM_except {ε α β : Type} {g : α → Except ε β} {xs : List α} {ys : List β}
    (h : xs.mapM g = .ok ys) : ∀ y ∈ ys, ∃ x ∈ xs, g x = .ok y := by
  induction xs generalizing ys with
  | nil =>
    rw [List.mapM_nil] at h
    obtain rfl := Except.ok.inj h
    simp
  | cons x xs ih =>
    rw [List.mapM_cons] at h
    obtain ⟨y, hy, h⟩ := Except.bind_eq_ok h
    obtain ⟨zs, hzs, h⟩ := Except.bind_eq_ok h
    obtain rfl := Except.ok.inj h
    intro w hw
    rcases List.mem_cons.mp hw with rfl | hw
    · exact ⟨x, List.mem_cons_self, hy⟩
    · obtain ⟨x', hx', hw'⟩ := ih hzs w hw
      exact ⟨x', List.mem_cons_of_mem _ hx', hw'⟩

theorem List.mapM_eq_error {ε α β : Type} {g : α → Except ε β} {xs : List α} {e : ε}
    (h : xs.mapM g = .error e) : ∃ x ∈ xs, g x = .error e := by
  induction xs with
  | nil => cases h
  | cons x xs ih =>
    rw [List.mapM_cons] at h
    rcases Except.bind_eq_error h with h | ⟨y, -, h⟩
    · exact ⟨x, List.mem_cons_self, h⟩
    · rcases Except.bind_eq_error h with h | ⟨ys, -, h⟩
      · obtain ⟨x', hx', he⟩ := ih h
        exact ⟨x', List.mem_cons_of_mem _ hx', he⟩
      · cases h

theorem Array.mem_mapM_option {α β : Type} {g : α → Option β} {xs : Array α} {ys : Array β}
    (h : xs.mapM g = some ys) : ∀ y ∈ ys, ∃ x ∈ xs, g x = some y := by
  rw [Array.mapM_eq_mapM_toList] at h
  obtain ⟨zs, hzs, rfl⟩ := Option.map_eq_some_iff.mp h
  intro y hy
  obtain ⟨x, hx, hxy⟩ := List.mem_mapM_option hzs y (by simpa using hy)
  exact ⟨x, Array.mem_toList_iff.mp hx, hxy⟩

theorem Array.mem_mapM_except {ε α β : Type} {g : α → Except ε β} {xs : Array α} {ys : Array β}
    (h : xs.mapM g = .ok ys) : ∀ y ∈ ys, ∃ x ∈ xs, g x = .ok y := by
  rw [Array.mapM_eq_mapM_toList] at h
  cases hzs : xs.toList.mapM g with
  | error e => simp [hzs, Functor.map, Except.map] at h
  | ok zs =>
    simp only [hzs, Functor.map, Except.map, Except.ok.injEq] at h
    subst h
    intro y hy
    obtain ⟨x, hx, hxy⟩ := List.mem_mapM_except hzs y (by simpa using hy)
    exact ⟨x, Array.mem_toList_iff.mp hx, hxy⟩

theorem Array.mapM_eq_error {ε α β : Type} {g : α → Except ε β} {xs : Array α} {e : ε}
    (h : xs.mapM g = .error e) : ∃ x, g x = .error e := by
  rw [Array.mapM_eq_mapM_toList] at h
  cases hzs : xs.toList.mapM g with
  | error e' =>
    simp only [hzs, Functor.map, Except.map, Except.error.injEq] at h
    subst h
    obtain ⟨x, -, hx⟩ := List.mapM_eq_error hzs
    exact ⟨x, hx⟩
  | ok zs => simp [hzs, Functor.map, Except.map] at h

theorem Heap.Healthy.live_listOf? {h : Heap} {items : Array Value} (hh : h.Healthy)
    (hv : h.listOf? v = some items) : ∀ w ∈ items, h.Live w := by
  cases v with
  | obj r =>
    rw [listOf?] at hv
    split at hv
    · rename_i items' hitems
      obtain rfl := Option.some.inj hv
      exact hh.list hitems
    · cases hv
  | _ => cases hv

namespace Exec

/-- A value that is read was in the list or the dict, or it is the nothing of a missing key. -/
theorem live_subscripted {h : Heap} {o : Obj} {index : Value} (ho : o.Sound h)
    (hv : subscripted h o index = .ok (.inl v)) : h.Live v := by
  unfold subscripted at hv
  split at hv
  · split at hv
    · split at hv
      · rename_i w hw
        obtain rfl := Sum.inl.inj (Except.ok.inj hv)
        obtain ⟨i, -, hi⟩ := Option.bind_eq_some_iff.mp hw
        exact ho w (Array.mem_of_getElem? hi)
      · cases hv
    · split at hv <;> cases hv
    · cases hv
  · split at hv <;> cases hv
  · split at hv
    · obtain rfl := Sum.inl.inj (Except.ok.inj hv)
      rename_i d _ _ key _
      cases hget : d.get? key with
      | none => exact Heap.live_none
      | some w => exact ho w (Dict.mem_of_get? hget)
    · split at hv <;> cases hv
    · cases hv
  · cases hv

/-- Items that are read all at once were in the list. -/
theorem live_subscripted_items {h : Heap} {o : Obj} {index : Value} {items : Array Value}
    (ho : o.Sound h) (hv : subscripted h o index = .ok (.inr (.inl items))) :
    ∀ v ∈ items, h.Live v := by
  unfold subscripted at hv
  split at hv
  · split at hv
    · split at hv <;> cases hv
    · split at hv
      · rename_i picked hpicked
        obtain rfl := Sum.inl.inj (Sum.inr.inj (Except.ok.inj hv))
        intro v hv
        obtain ⟨x, -, hx⟩ := Array.mem_mapM_option hpicked v hv
        obtain ⟨i, -, hi⟩ := Option.bind_eq_some_iff.mp hx
        exact ho v (Array.mem_of_getElem? hi)
      · cases hv
    · cases hv
  · split at hv <;> cases hv
  · split at hv
    · cases hv
    · split at hv <;> cases hv
    · cases hv
  · cases hv

/-- Numbers are live in every heap, and these operations yield numbers only. -/
theorem live_elementwiseItems {h : Heap} {op : Arithmetic} {a b : Value} {items : Array Value}
    (hitems : elementwiseItems h op a b = .ok items) : ∀ v ∈ items, h.Live v := by
  have hone : ∀ {y : Value} {g : Float → Float} {v : Value},
      (do return .number (g (← operand h y)) : Except Fault Value) = .ok v → h.Live v := by
    intro y g v hv
    obtain ⟨n, -, hn⟩ := Except.bind_eq_ok hv
    exact Except.ok.inj hn ▸ Heap.live_number _
  unfold elementwiseItems at hitems
  split at hitems
  · dsimp only at hitems
    split at hitems
    · cases hitems
    · intro v hv
      obtain ⟨⟨x, y⟩, -, hxy⟩ := Array.mem_mapM_except hitems v hv
      obtain ⟨n, -, hxy⟩ := Except.bind_eq_ok hxy
      exact hone hxy
  · obtain ⟨n, -, hitems⟩ := Except.bind_eq_ok hitems
    intro v hv
    obtain ⟨x, -, hx⟩ := Array.mem_mapM_except hitems v hv
    exact hone (g := fun x => op.apply x n) hx
  · obtain ⟨n, -, hitems⟩ := Except.bind_eq_ok hitems
    intro v hv
    obtain ⟨x, -, hx⟩ := Array.mem_mapM_except hitems v hv
    exact hone hx
  · cases hitems

/-- There is one complaint about an operand. -/
theorem operand_error {h : Heap} {v : Value} {e : Fault} (he : operand h v = .error e) :
    e = .operandsNotNumbers := by
  unfold operand at he
  split at he
  · cases he
  · exact (Except.error.inj he).symm

/-- Elementwise arithmetic may be refused, and it always comes to an end. -/
theorem elementwiseItems_error {h : Heap} {op : Arithmetic} {a b : Value} {e : Fault}
    (he : elementwiseItems h op a b = .error e) : e ≠ .stuck ∧ e ≠ .endless := by
  have hone : ∀ {y : Value} {g : Float → Float},
      (do return .number (g (← operand h y)) : Except Fault Value) = .error e →
        e ≠ .stuck ∧ e ≠ .endless := by
    intro y g hy
    rcases Except.bind_eq_error hy with hy | ⟨n, -, hn⟩
    · exact operand_error hy ▸ ⟨nofun, nofun⟩
    · cases hn
  unfold elementwiseItems at he
  split at he
  · dsimp only at he
    split at he
    · exact Except.error.inj he ▸ ⟨nofun, nofun⟩
    · obtain ⟨⟨x, y⟩, hxy⟩ := Array.mapM_eq_error he
      rcases Except.bind_eq_error hxy with hx | ⟨n, -, hy⟩
      · exact operand_error hx ▸ ⟨nofun, nofun⟩
      · exact hone hy
  · rcases Except.bind_eq_error he with hb | ⟨n, -, he⟩
    · exact operand_error hb ▸ ⟨nofun, nofun⟩
    · obtain ⟨x, hx⟩ := Array.mapM_eq_error he
      exact hone (g := fun x => op.apply x n) hx
  · rcases Except.bind_eq_error he with ha | ⟨n, -, he⟩
    · exact operand_error ha ▸ ⟨nofun, nofun⟩
    · obtain ⟨x, hx⟩ := Array.mapM_eq_error he
      exact hone hx
  · exact Except.error.inj he ▸ ⟨nofun, nofun⟩

/-- A subscript may be refused, and it always comes to an end. -/
theorem subscripted_error {h : Heap} {o : Obj} {index : Value} {e : Fault}
    (he : subscripted h o index = .error e) : e ≠ .stuck ∧ e ≠ .endless := by
  unfold subscripted at he
  split at he
  · split at he
    · split at he <;> cases he
      exact ⟨nofun, nofun⟩
    · split at he <;> cases he
      exact ⟨nofun, nofun⟩
    · cases he
      exact ⟨nofun, nofun⟩
  · split at he <;> cases he
    exact ⟨nofun, nofun⟩
  · split at he
    · cases he
    · split at he <;> cases he
      exact ⟨nofun, nofun⟩
    · cases he
      exact ⟨nofun, nofun⟩
  · cases he
    exact ⟨nofun, nofun⟩

/-- A step is refused for being zero or for being no number; the machine is not stuck. -/
theorem stepOf_error {h : Heap} {given : Option Value} {start stop : Float} {e : Fault}
    (he : stepOf h given start stop = .error e) : e ≠ .stuck := by
  unfold stepOf at he
  split at he
  · split at he
    · split at he <;> cases he
      nofun
    · cases he
      nofun
  · cases he

end Exec

namespace Amid

/-! ## Operators -/

/-- An operator that an instance defines is called on its operands. -/
theorem overloaded {target : Value} {symbol : String} {otherwise : Fault}
    (hm : Amid s (argc + 1) m) (he : otherwise ≠ .stuck) :
    Finishes s 1 (Exec.overloaded target symbol argc otherwise) m := by
  refine .bind (hm.operatorMethod? fun found m' hm' _ hfound => ?_)
  cases found with
  | some method => exact hm'.callClosure (hfound method rfl)
  | none => exact hm'.throw he

theorem concatPieces (hm : Amid s k m) : Finishes s 1 (Exec.concatPieces k) m := by
  refine .bind (.height (.bind (hm.valuesFrom fun vs _ => .bind (joined fun text => ?_))))
  refine .bind (hm.truncate (n := 0) (Nat.zero_le k) (by rw [hm.size]; omega) fun m₁ hm₁ _ => ?_)
  exact .bind (hm₁.internValue text fun v m₂ hm₂ _ hv => hm₂.pushLast hv)

/-- Operands are looked at, and replaced by a new object. -/
theorem replaceByNew {n : Nat} {o : Obj} (hm : Amid s n m) (hplain : o.isPlain = true)
    (ho : o.Sound m.heap) (hc : ∀ c, o ≠ .closure c) :
    Finishes s 1 (do Exec.drop n; Exec.push (← Exec.allocValue o)) m := by
  refine .bind (Amid.drop (k := 0) (by rwa [Nat.zero_add]) fun m₁ hm₁ heq => ?_)
  exact .bind (hm₁.allocValue hplain (heq ▸ ho) (fun c h => absurd h (hc c))
    fun v m₂ hm₂ _ hv => hm₂.pushLast hv)

theorem elementwise {op : Arithmetic} (hm : Amid s 2 m) :
    Finishes s 1 (Exec.elementwise op) m := by
  refine .bind (hm.peek (by omega) fun a _ _ => .bind (hm.peek (by omega) fun b _ _ => ?_))
  refine .bind (.heap ?_)
  split
  · rename_i items hitems
    exact hm.replaceByNew rfl (Exec.live_elementwiseItems hitems) nofun
  · rename_i e he
    exact hm.throw (Exec.elementwiseItems_error he).1

/-- Texts and lists are put together, and all else goes to an overload. -/
theorem addition {a b : Value} (hm : Amid s 2 m) : Finishes s 1 (Exec.addition a b) m := by
  refine .bind (.heap ?_)
  split
  · refine .bind (Amid.drop (k := 0) hm fun m₁ hm₁ _ => ?_)
    exact .bind (hm₁.internValue _ fun v m₂ hm₂ _ hv => hm₂.pushLast hv)
  · split
    · rename_i l r hl hr
      refine hm.replaceByNew rfl (fun v hv => ?_) nofun
      rcases Array.mem_append.mp hv with hv | hv
      · exact hm.sound.heap.live_listOf? hl v hv
      · exact hm.sound.heap.live_listOf? hr v hv
    · exact hm.overloaded nofun

theorem arithmetic {op : Arithmetic} (hm : Amid s 2 m) : Finishes s 1 (Exec.arithmetic op) m := by
  refine .bind (hm.peek (by omega) fun a _ _ => .bind (hm.peek (by omega) fun b _ _ => ?_))
  refine .bind (.heap ?_)
  split
  · exact Amid.replaceLast (k := 0) hm (Heap.live_number _)
  · cases op with
    | add => exact hm.addition
    | _ => exact hm.overloaded nofun

theorem compare {o : Comparison} (hm : Amid s 2 m) : Finishes s 1 (Exec.compare o) m := by
  refine .bind (hm.peek (by omega) fun a _ _ => .bind (hm.peek (by omega) fun b _ _ => ?_))
  refine .bind (.heap ?_)
  split
  · exact Amid.replaceLast (k := 0) hm (Heap.live_bool _)
  · split
    · exact Amid.replaceLast (k := 0) hm (Heap.live_bool _)
    · exact hm.throw nofun

theorem bitwise {op : Bitwise} (hm : Amid s 2 m) : Finishes s 1 (Exec.bitwise op) m := by
  refine .bind (hm.peek (by omega) fun a _ _ => .bind (hm.peek (by omega) fun b _ _ => ?_))
  refine .bind (.heap ?_)
  split
  · exact Amid.replaceLast (k := 0) hm (Heap.live_number _)
  · exact hm.throw nofun

theorem increase {delta : Float} (hm : Amid s 1 m) : Finishes s 1 (Exec.increase delta) m := by
  refine .bind (.get (.bind (hm.peek (by omega) fun v _ _ => ?_)))
  split
  · exact Amid.replaceLast (k := 0) hm (Heap.live_number _)
  · exact hm.throw nofun

theorem negateTruth (hm : Amid s 1 m) : Finishes s 1 Exec.negateTruth m := by
  refine .bind (hm.peek (by omega) fun v _ _ => .bind (hm.operatorMethod? ?_))
  intro found m' hm' _ hfound
  cases found with
  | some method => exact hm'.callClosure (hfound method rfl)
  | none => exact Amid.replaceLast (k := 0) hm' (Heap.live_bool _)

theorem negate (hm : Amid s 1 m) : Finishes s 1 Exec.negate m := by
  refine .bind (hm.peek (by omega) fun v _ _ => .bind (.get ?_))
  split
  · exact Amid.replaceLast (k := 0) hm (Heap.live_number _)
  · exact hm.overloaded nofun

/-- Equality takes any two values and never fails. -/
theorem equality (hm : Amid s 2 m) : Finishes s 1 Exec.equality m := by
  refine .bind (hm.pop fun b m₁ hm₁ _ _ _ _ => .bind (hm₁.pop fun a m₂ hm₂ _ _ _ _ => ?_))
  exact .bind (.get (hm₂.pushLast (Heap.live_bool _)))

/-! ## Ranges, membership and subscripts -/

/-- The items of a range are numbers, or texts that have just been interned. -/
theorem rangeItems {Q : Array Value → Machine → Prop} {characters : Bool} {numbers : Array Float}
    (hm : Amid s k m) (hQ : ∀ vs m', Amid s k m' → (∀ v ∈ vs, m'.heap.Live v) → Q vs m') :
    Runs s (Exec.rangeItems characters numbers) m Q := by
  refine .ite (fun _ => .bind (hm.internAll _ fun vs m' hm' _ hvs => .pure (hQ _ m' hm' ?_)))
    fun _ => .pure (hQ _ m hm fun v hv => ?_)
  · exact fun v hv => hvs v (by simpa using hv)
  · obtain ⟨x, -, rfl⟩ := Array.mem_map.mp hv
    exact Heap.live_number x

/-- The items are numbers or interned texts, so the list that is left is live. -/
theorem expand {exclusive : Bool} (hm : Amid s 3 m) : Finishes s 1 (Exec.expand exclusive) m := by
  refine .bind (hm.pop fun third m₁ hm₁ _ _ _ _ => .bind (hm₁.pop fun second m₂ hm₂ _ _ _ _ =>
    .bind (hm₂.pop fun first m₃ hm₃ _ _ _ _ => ?_)))
  split
  refine .bind (.heap ?_)
  split
  · split
    · rename_i e he
      exact hm₃.throw (Exec.stepOf_error he)
    · dsimp only
      split
      · exact hm₃.throw nofun
      · refine .bind (hm₃.rangeItems fun items m₄ hm₄ hitems => ?_)
        exact .bind (hm₄.allocValue rfl hitems nofun fun v m₅ hm₅ _ hv => hm₅.pushLast hv)
  · exact hm₃.throw nofun

theorem membership (hm : Amid s 2 m) : Finishes s 1 Exec.membership m := by
  refine .bind (hm.pop fun b m₁ hm₁ _ _ _ _ => .bind (hm₁.pop fun a m₂ hm₂ _ _ _ _ => ?_))
  refine .bind (.heap ?_)
  split
  · exact hm₂.pushLast (Heap.live_bool _)
  · exact hm₂.throw nofun

/-- The collection and the index are taken and the item is left; what is left is live in any case. -/
theorem subscript (hm : Amid s 2 m) : Finishes s 1 Exec.subscript m := by
  refine .bind (hm.peek (by omega) fun container hcontainer _ =>
    .bind (hm.peek (by omega) fun index _ _ => ?_))
  split
  · obtain ⟨o, ho⟩ := Heap.live_obj.mp hcontainer
    refine .bind (.heap ?_)
    rw [ho]
    have hsound := hm.sound.heap.sound.objects _ o ho
    split
    · exact hm.overloaded nofun
    · rename_i o' _ heq
      obtain rfl := Option.some.inj heq
      split
      · rename_i v hv
        exact Amid.replaceLast (k := 0) hm (Exec.live_subscripted hsound hv)
      · rename_i items hitems
        refine .bind (hm.allocValue rfl (Exec.live_subscripted_items hsound hitems) nofun ?_)
        exact fun v m₁ hm₁ _ hv => Amid.replaceLast (k := 0) hm₁ hv
      · refine .bind (hm.internValue _ fun v m₁ hm₁ _ hv => ?_)
        exact Amid.replaceLast (k := 0) hm₁ hv
      · rename_i e he
        exact hm.throw (Exec.subscripted_error he).1
    · rename_i heq
      cases heq
  · exact hm.throw nofun

/-- The value stays on top as the result. A container that cannot take it refuses, and nothing is
stuck. -/
theorem subscriptAssign (hm : Amid s 3 m) : Finishes s 1 Exec.subscriptAssign m := by
  refine .bind (hm.peek (by omega) fun container _ _ => .bind (hm.peek (by omega) fun index _ _ =>
    .bind (hm.peek (by omega) fun value hvalue _ => ?_)))
  split
  · rename_i r
    refine .bind (.heap ?_)
    split
    · rename_i items hitems
      dsimp only
      split
      · exact hm.throw nofun
      · split
        · exact hm.throw nofun
        · refine .bind (hm.modifyList (fun items hitems v hv => ?_) fun m₁ hm₁ hev => ?_)
          · rcases Array.mem_or_eq_of_mem_setIfInBounds hv with hv | rfl
            · exact hm.sound.heap.list hitems v hv
            · exact hvalue
          · exact Amid.replaceLast (k := 0) hm₁ (hev.live hvalue)
    · split
      · refine .bind (hm.modifyDict (fun d hd v hv => ?_) fun m₁ hm₁ hev => ?_)
        · rcases Dict.mem_insert hv with hv | rfl
          · exact hm.sound.heap.dict hd v hv
          · exact hvalue
        · exact Amid.replaceLast (k := 0) hm₁ (hev.live hvalue)
      · exact hm.throw nofun
    · exact hm.overloaded nofun
    · exact hm.throw nofun
    · exact hm.throw nofun
  · exact hm.throw nofun

/-! ## Collections -/

/-- The value right below the floor is looked at. -/
theorem peekFloor {Q : Value → Machine → Prop} (hm : Amid s 0 m) (hfloor : 0 < s.floor)
    (hv : s.start.fiber.stack[s.floor - 1]? = some v) (hQ : Q v m) : Runs s (Exec.peek 0) m Q := by
  refine hm.peek (by omega) fun w _ hw => ?_
  have hbelow := hm.below (s.floor - 1) (by omega)
  rw [hm.size] at hw
  obtain rfl : w = v := Option.some.inj (hw.symm.trans (hbelow.trans hv))
  exact hQ

/-- The list is known to stand below the item, as the situation says; only then is the machine not
stuck. -/
theorem addItem (hm : Amid s 1 m) (hfloor : 0 < s.floor)
    (hr : s.start.fiber.stack[s.floor - 1]? = some (.obj r)) (hlist : m.heap.Has r .list) :
    Finishes s 0 Exec.addItem m := by
  obtain ⟨o, ho, hkind⟩ := hlist
  cases o with
  | list items =>
    refine .bind (hm.pop fun item m₁ hm₁ heq hitem _ _ => .bind (hm₁.peekFloor hfloor hr ?_))
    refine .bind (.heap ?_)
    rw [heq, ho]
    refine hm₁.modifyList (fun items hitems v hv => ?_) fun m₂ hm₂ _ => hm₂.done
    rcases Array.mem_push.mp hv with hv | rfl
    · exact hm₁.sound.heap.list hitems v hv
    · exact heq ▸ hitem
  | _ => cases hkind

/-- The dict is known to stand below the key and the value. -/
theorem addEntry (hm : Amid s 2 m) (hfloor : 0 < s.floor)
    (hr : s.start.fiber.stack[s.floor - 1]? = some (.obj r)) (hdict : m.heap.Has r .dict) :
    Finishes s 0 Exec.addEntry m := by
  obtain ⟨o, ho, hkind⟩ := hdict
  cases o with
  | dict d =>
    refine .bind (hm.pop fun item m₁ hm₁ heq₁ hitem _ _ => .bind (.get (.bind (hm₁.pop
      fun key m₂ hm₂ heq₂ _ _ _ => ?_))))
    split
    · exact hm₂.throw nofun
    · refine .bind (hm₂.peekFloor hfloor hr (.bind (.heap ?_)))
      rw [heq₂, heq₁, ho]
      refine hm₂.modifyDict (fun d hd v hv => ?_) fun m₃ hm₃ _ => hm₃.done
      rcases Dict.mem_insert hv with hv | rfl
      · exact hm₂.sound.heap.dict hd v hv
      · rw [heq₂, heq₁]
        exact hitem
  | _ => cases hkind

/-! ## Declarations -/

theorem newClass (hm : Amid s 0 m) (hf : s.start.fiber.frames = f :: rest)
    (hname : m.heap.Has name .string) : Finishes s 1 (Exec.newClass name) m := by
  refine .bind (hm.frame hf fun hframe => .bind (hm.allocValue rfl ?_ nofun fun v m₁ hm₁ _ hv =>
    hm₁.pushLast hv))
  exact ⟨hname, nofun, hframe.package, Table.holds_empty, Table.holds_empty, Table.holds_empty⟩

theorem newEnumeration (hm : Amid s 0 m) (hname : m.heap.Has name .string) :
    Finishes s 1 (Exec.newEnumeration name) m :=
  .bind (hm.allocValue rfl ⟨hname, Table.holds_empty, Heap.live_none⟩ nofun
    fun _ _ hm₁ _ hv => hm₁.pushLast hv)

/-- The subclass is on top, and the superclass below it is only looked at. A top value that is no
class is a misfit, and misfits are excused. -/
theorem inherit (hm : Amid s 1 m) (hfloor : 0 < s.floor)
    (hexcused : m.Misfit .inherit → s.excused) : Finishes s 0 Exec.inherit m := by
  refine .bind (hm.pop fun subclass m₁ hm₁ heq _ htop _ => .bind (.get (.bind (hm₁.peek (by omega)
    fun v _ _ => ?_))))
  split
  · exact hm₁.throw nofun
  · rename_i superclass hsuper
    obtain ⟨parent, hparent⟩ := Heap.class?_of_classOf? hsuper
    refine .bind (.get ?_)
    cases hchild : m₁.heap.classOf? subclass with
    | none => exact .bind (.stuck (hexcused ⟨subclass, htop, heq ▸ hchild⟩))
    | some child =>
      refine .bind (.need rfl (.bind (.get (.bind (.need hparent ?_)))))
      refine hm₁.modifyClass (fun _ => rfl) (fun c _ hsound => ?_) fun m₂ hm₂ _ => hm₂.done
      obtain ⟨hname, -, hpackage, hmethods, hfields, hstatics⟩ := hsound
      obtain ⟨-, -, -, -, hfields', hstatics'⟩ := hm₁.sound.heap.classObj hparent
      refine ⟨hname, fun r hr => ?_, hpackage, hmethods, hfields.addAll hfields',
        hstatics.addAll hstatics'⟩
      obtain rfl := Option.some.inj hr
      exact Heap.has_class.mpr ⟨parent, hparent⟩

/-- The closure on top is known to be a method; the class below takes it into its table. -/
theorem defineMethod (hm : Amid s 2 m) (hname : m.heap.Has name .string)
    (htop : ∀ v, m.fiber.stack[m.fiber.stack.size - 1]? = some v → m.heap.IsMethod v) :
    Finishes s 0 (Exec.defineMethod name) m := by
  refine .bind (hm.pop fun method m₁ hm₁ heq₁ _ hget _ => .bind (hm₁.pop
    fun owner m₂ hm₂ heq₂ _ _ _ => ?_))
  have heq : m₂.heap = m.heap := heq₂.trans heq₁
  refine .bind (hm₂.key (heq ▸ hname) fun key hkey => .bind (.get ?_))
  split
  · exact hm₂.addMethod hkey (heq ▸ htop method hget) fun m₃ hm₃ _ => hm₃.done
  · exact .pure hm₂.done

/-- The owner below the value is a class or an enumeration; where it is neither, the misfit is
excused. -/
theorem defineProperty {isStatic : Bool} (hm : Amid s 2 m) (hname : m.heap.Has name .string)
    (hexcused : m.Misfit .member → s.excused) :
    Finishes s 0 (Exec.defineProperty name isStatic) m := by
  refine .bind (hm.pop fun value m₁ hm₁ heq₁ hvalue _ hpop => .bind (hm₁.pop
    fun owner m₂ hm₂ heq₂ _ hget _ => ?_))
  have howner : m.fiber.stack[m.fiber.stack.size - 2]? = some owner := by
    rw [hpop, Array.size_pop, Array.getElem?_pop, if_pos (by have := hm.size; omega)] at hget
    exact hget
  have heq : m₂.heap = m.heap := heq₂.trans heq₁
  have hvalue₂ : m₂.heap.Live value := heq ▸ hvalue
  split
  · refine .bind (.get ?_)
    split
    · refine .bind (hm₂.key (heq ▸ hname) fun key hkey => ?_)
      refine hm₂.modifyClass (fun c => by split <;> rfl) (fun c _ hsound => ?_)
        fun m₃ hm₃ _ => hm₃.done
      obtain ⟨hname, hsuper, hpackage, hmethods, hfields, hstatics⟩ := hsound
      split
      · exact ⟨hname, hsuper, hpackage, hmethods, hfields, hstatics.set hkey hvalue₂⟩
      · exact ⟨hname, hsuper, hpackage, hmethods, hfields.set hkey hvalue₂, hstatics⟩
    · rename_i e he
      exact hm₂.defineMember ⟨_, he, rfl⟩ (heq ▸ hname) hvalue₂ fun m₃ hm₃ _ => hm₃.done
    · rename_i r hclass henum
      refine .stuck (hexcused ⟨_, howner, ?_⟩)
      rintro _ ⟨⟩
      rw [heq] at hclass henum
      refine ⟨?_, ?_⟩ <;> rintro ⟨o, ho, hkind⟩ <;> cases o <;> cases hkind
      · exact hclass _ ho
      · exact henum _ ho
  · rename_i hnone
    exact .stuck (hexcused ⟨_, howner, fun r hr => (hnone r hr).elim⟩)

/-- An extension adds one method to the table of one type, and the tables hold methods as before. -/
theorem extensions_extended {h : Heap} {type : String} {key : Key} {method : Value}
    {tables : List (String × Table Value)} (ht : ∀ e ∈ tables, e.2.Holds h h.IsMethod)
    (hk : h.Has key.ref .string) (hmethod : h.IsMethod method) :
    ∀ e ∈ Exec.extended type key method tables, e.2.Holds h h.IsMethod := by
  induction tables with
  | nil =>
    intro e he
    obtain rfl := List.mem_singleton.mp he
    exact Table.holds_empty.set hk hmethod
  | cons e₀ tables ih =>
    obtain ⟨t₀, methods⟩ := e₀
    intro e he
    rw [Exec.extended] at he
    split at he
    · rcases List.mem_cons.mp he with rfl | he
      · exact (ht (t₀, methods) List.mem_cons_self).set hk hmethod
      · exact ht e (List.mem_cons_of_mem _ he)
    · rcases List.mem_cons.mp he with rfl | he
      · exact ht _ List.mem_cons_self
      · exact ih (fun e he => ht e (List.mem_cons_of_mem _ he)) e he

/-- The method on top goes to a built-in type, or to the class that the type name means. -/
theorem defineExtension {type : Ref} (hm : Amid s 1 m) (hf : s.start.fiber.frames = f :: rest)
    (htype : m.heap.Has type .string) (hname : m.heap.Has name .string)
    (htop : ∀ v, m.fiber.stack[m.fiber.stack.size - 1]? = some v → m.heap.IsMethod v) :
    Finishes s 0 (Exec.defineExtension type name) m := by
  refine .bind (hm.pop fun method m₁ hm₁ heq _ hget _ => ?_)
  have hmethod : m₁.heap.IsMethod method := heq ▸ htop method hget
  refine .bind (hm₁.key (heq ▸ hname) fun key hkey => .bind (nameText fun text => ?_))
  refine .ite (fun _ => ?_) fun _ => .bind (hm₁.readGlobal? hf (heq ▸ htype) ?_)
  · exact (hm₁.other hm₁.sound.globals
      (extensions_extended hm₁.sound.extensions hkey hmethod)).done
  · intro found m₂ hm₂ hev _
    cases found with
    | none => exact hm₂.throw nofun
    | some v =>
      refine .bind (.get ?_)
      split
      · exact hm₂.addMethod (hev.has hkey) (hev.isMethod hmethod) fun m₃ hm₃ _ => hm₃.done
      · exact hm₂.throw nofun

end Amid

end ScriptMachine
