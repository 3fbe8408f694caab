import Mathlib
import ScriptMachine.Machine.Operators
import ScriptMachine.Proofs.Renaming.Calls
import ScriptMachine.Proofs.Renaming.Natives

/-!
# ScriptMachine.Proofs.Renaming.Operators — operators on like machines

An operator reads its operands off the heap, where like values show the same, and puts a like result in
their place. An operator symbol that no string of the heap spells yet is interned when an instance is
asked for it, so that even an operator which fails can leave both heaps with one more string.

Most operators are `Alike.replaces`: some operands are read and replaced by one value, which is the same
but for references. Where an instance defines the operator its method is called, as any method is.
-/

namespace ScriptMachine

namespace Exec

variable {β : Pairing} {v w v' w' : Value} {r s : Ref}

/-- What is steady and done for its effect. -/
theorem Steady.done {x y : Exec Unit} (hxy : Steady β (fun _ _ => True) x y) : Alike β Done x y :=
  hxy.alike fun _ _ h => h

/-- The top operands are replaced by a value that is yet to be made. -/
theorem Alike.replaces {x y : Exec Value} (hxy : Alike β Value.Like x y) (count : Nat) :
    Alike β Done (x >>= Exec.replaceTop count) (y >>= Exec.replaceTop count) :=
  hxy.bind fun _ _ _ _ hv => (Steady.replaceTop count hv).done

theorem Alike.pushes {x y : Exec Value} (hxy : Alike β Value.Like x y) :
    Alike β Done (x >>= Exec.push) (y >>= Exec.push) :=
  hxy.bind fun _ _ _ _ hv => (Steady.push hv).done

/-! ## Methods for operators -/

/-- Interning the symbol may add a pair. -/
theorem Alike.operatorMethod? (hv : v.Like β w) (symbol : String) :
    Alike β (fun β' => Option.Rel β'.rel) (operatorMethod? v symbol) (operatorMethod? w symbol) := by
  cases hv with
  | obj hr =>
    refine Steady.get.bind fun m n hm => ?_
    have hi := hm.heap.instance? hr
    generalize m.heap.instance? _ = a, n.heap.instance? _ = b at hi
    cases hi with
    | none => exact .pure .none
    | some hi =>
      refine (Alike.intern symbol).bind fun β₁ a b hβ hab => ?_
      refine (Steady.key hab).bind fun k l hk => Steady.get.bind fun m n hm => ?_
      have hc := hβ _ _ hi.classRef
      exact (Steady.searched hc (hm.heap.method? hc hk)).alike fun _ _ h => h
  | _ => exact .pure .none

theorem Alike.overloaded (hv : v.Like β w) (symbol : String) (argc : Nat) (otherwise : Fault) :
    Alike β Done (overloaded v symbol argc otherwise) (overloaded w symbol argc otherwise) := by
  refine (Alike.operatorMethod? hv symbol).bind fun β₁ a b _ hab => ?_
  cases hab with
  | some hr => exact (Steady.callClosure hr argc).done
  | none => exact .throw _

theorem Alike.concatPieces (count : Nat) :
    Alike β Done (concatPieces count) (concatPieces count) := by
  refine Steady.height.same fun height => ?_
  refine (Steady.valuesFrom _).bind fun xs ys hxs => (Steady.joined hxs).same fun text => ?_
  exact (Steady.truncate _).bind fun _ _ _ => (Alike.internValue text).pushes

/-! ## Arithmetic -/

theorem Alike.elementwise (op : Arithmetic) : Alike β Done (elementwise op) (elementwise op) := by
  refine (Steady.peek 1).bind fun a a' ha => (Steady.peek 0).bind fun b b' hb => ?_
  refine Steady.heap.bind fun h h' hh => ?_
  have hitems := elementwiseItems_like hh op ha hb
  generalize elementwiseItems h op a b = x, elementwiseItems h' op a' b' = y at hitems
  cases hitems with
  | ok hxs => exact (Steady.drop 2).bind fun _ _ _ => (Alike.newList hxs).pushes
  | error e => exact .throw e

/-- What is displayed on both sides is the same text. -/
theorem Alike.addition (hv : v.Like β w) (hv' : v'.Like β w') :
    Alike β Done (addition v v') (addition w w') := by
  refine Steady.heap.bind fun h h' hh => ?_
  rw [hh.textOf?_eq hv, hh.textOf?_eq hv', hh.display_eq hv, hh.display_eq hv']
  split
  · exact (Steady.drop 2).bind fun _ _ _ => (Alike.internValue _).pushes
  · have hl := hh.listOf? hv
    have hl' := hh.listOf? hv'
    generalize h.listOf? v = a, h'.listOf? w = b at hl
    generalize h.listOf? v' = a', h'.listOf? w' = b' at hl'
    cases hl with
    | some hxs =>
      cases hl' with
      | some hys =>
        exact (Steady.drop 2).bind fun _ _ _ => (Alike.newList (hxs.append hys)).pushes
      | none => exact .overloaded hv _ _ _
    | none => exact .overloaded hv _ _ _

theorem Alike.arithmetic (op : Arithmetic) : Alike β Done (arithmetic op) (arithmetic op) := by
  refine (Steady.peek 1).bind fun a a' ha => (Steady.peek 0).bind fun b b' hb => ?_
  refine Steady.heap.bind fun h h' hh => ?_
  rw [hh.numeric?_eq ha, hh.numeric?_eq hb]
  split
  · exact (Steady.replaceTop 2 (.number _)).done
  · cases op with
    | add => exact .addition ha hb
    | _ => exact .overloaded ha _ _ _

theorem Alike.compare (o : Comparison) : Alike β Done (compare o) (compare o) := by
  refine (Steady.peek 1).bind fun a a' ha => (Steady.peek 0).bind fun b b' hb => ?_
  refine Steady.heap.bind fun h h' hh => ?_
  rw [hh.numeric?_eq ha, hh.numeric?_eq hb, hh.textOf?_eq ha, hh.textOf?_eq hb]
  split
  · exact (Steady.replaceTop 2 (.bool _)).done
  · split
    · exact (Steady.replaceTop 2 (.bool _)).done
    · exact .throw _

theorem Alike.bitwise (op : Bitwise) : Alike β Done (bitwise op) (bitwise op) := by
  refine (Steady.peek 1).bind fun a a' ha => (Steady.peek 0).bind fun b b' hb => ?_
  refine Steady.heap.bind fun h h' hh => ?_
  rw [hh.numeric?_eq ha, hh.numeric?_eq hb]
  split
  · exact (Steady.replaceTop 2 (.number _)).done
  · exact .throw _

theorem Alike.increase (delta : Float) : Alike β Done (increase delta) (increase delta) := by
  refine Steady.get.bind fun m n hm => (Steady.peek 0).bind fun a a' ha => ?_
  rw [hm.heap.numeric?_eq ha]
  split
  · exact (Steady.replaceTop 1 (.number _)).done
  · exact .throw _

theorem Alike.negateTruth : Alike β Done negateTruth negateTruth := by
  refine (Steady.peek 0).bind fun a a' ha => ?_
  refine (Alike.operatorMethod? ha "!").bind fun β₁ o o' _ ho => ?_
  cases ho with
  | some hr => exact (Steady.callClosure hr 0).done
  | none =>
    rw [ha.isFalsey_eq]
    exact (Steady.replaceTop 1 (.bool _)).done

theorem Alike.negate : Alike β Done negate negate := by
  refine (Steady.peek 0).bind fun a a' ha => Steady.get.bind fun m n hm => ?_
  rw [hm.heap.numeric?_eq ha]
  split
  · exact (Steady.replaceTop 1 (.number _)).done
  · exact .overloaded ha _ _ _

theorem Alike.equality : Alike β Done equality equality := by
  refine Steady.pop.bind fun b b' hb => Steady.pop.bind fun a a' ha => ?_
  refine Steady.get.bind fun m n hm => ?_
  rw [hm.heap.equal_eq ha hb]
  exact (Steady.push (.bool _)).done

/-! ## Ranges -/

theorem Alike.rangeItems (characters : Bool) (numbers : Array Float) :
    Alike β (fun β' => Aligned (Value.Like β')) (rangeItems characters numbers)
      (rangeItems characters numbers) := by
  unfold Exec.rangeItems
  split
  · exact (Alike.internValues _).bind fun _ _ _ _ hxs => .pure hxs
  · refine .pure (Aligned.map (R := (· = ·)) (List.forall₂_same.mpr fun _ _ => rfl) ?_)
    rintro x _ rfl
    exact .number x

/-- A range is computed from numbers, so it ends on both sides or on neither. -/
theorem Alike.expand (exclusive : Bool) : Alike β Done (expand exclusive) (expand exclusive) := by
  refine Steady.pop.bind fun third third' hthird => Steady.pop.bind fun second second' hsecond => ?_
  refine Steady.pop.bind fun first first' hfirst => ?_
  -- which of the two is the step
  have hends : Option.Rel (Value.Like β)
      (if third.isNone then ((none : Option Value), second) else (some second, third)).1
      (if third'.isNone then ((none : Option Value), second') else (some second', third')).1 ∧
      Value.Like β (if third.isNone then ((none : Option Value), second) else (some second, third)).2
      (if third'.isNone then ((none : Option Value), second') else (some second', third')).2 := by
    rw [hthird.isNone_eq]
    split
    · exact ⟨.none, hsecond⟩
    · exact ⟨.some hsecond, hthird⟩
  generalize (if third.isNone then ((none : Option Value), second) else (some second, third)) = e,
    (if third'.isNone then ((none : Option Value), second') else (some second', third')) = e' at hends
  obtain ⟨given, last⟩ := e
  obtain ⟨given', last'⟩ := e'
  obtain ⟨hgiven, hlast⟩ := hends
  refine Steady.heap.bind fun h h' hh => ?_
  rw [endpoint?_eq hh hfirst, endpoint?_eq hh hlast]
  cases endpoint? h' first' with
  | none => exact .throw _
  | some start =>
    cases endpoint? h' last' with
    | none => exact .throw _
    | some stop =>
      dsimp only
      rw [stepOf_eq hh hgiven]
      cases stepOf h' given' start.1 stop.1 with
      | error e => exact .throw e
      | ok step =>
        dsimp only
        split
        · exact .throw _
        · exact (Alike.rangeItems _ _).bind fun β₁ xs ys _ hxs => (Alike.newList hxs).pushes

/-! ## Membership and types -/

theorem Alike.membership : Alike β Done membership membership := by
  refine Steady.pop.bind fun container container' hc => Steady.pop.bind fun item item' hi => ?_
  refine Steady.heap.bind fun h h' hh => ?_
  rw [member?_eq hh hi hc]
  split
  · exact (Steady.push (.bool _)).done
  · exact .throw _

/-- The search that the test makes through the classes ends on both sides or on neither. -/
theorem Steady.testType (hv : v.Like β w) (name : String) :
    Steady β (· = ·) (testType v name) (testType w name) := by
  refine Steady.heap.seq fun h h' hh => ?_
  rw [isType_eq hh hv]
  extract_lets found
  cases hv with
  | obj hr =>
    have hi := hh.instance? hr
    dsimp only
    generalize h.instance? _ = a, h'.instance? _ = b at hi
    cases hi with
    | some hi =>
      refine Steady.seq (R := fun _ _ => True) (Steady.discard (R := Option.Rel β.rel) ?_)
        fun _ _ _ => .pure rfl
      refine .searched hi.classRef ?_
      split
      · exact .some hr
      · exact .none
    | none => exact .pure rfl
  | _ => exact .pure rfl

/-! ## Subscripts -/

theorem Alike.subscript : Alike β Done subscript subscript := by
  refine (Steady.peek 1).bind fun c c' hc => (Steady.peek 0).bind fun i i' hi => ?_
  cases hc with
  | @obj r s hr =>
    refine Steady.heap.bind fun h h' hh => ?_
    obtain ⟨o, o', ho, ho', hlike⟩ := hh.objects r s hr
    have hsub := subscripted_like hh hlike hi
    rw [ho, ho']
    cases hlike with
    | instanceObj => exact .overloaded (.obj hr) _ _ _
    | _ =>
      dsimp only
      generalize subscripted h _ i = x, subscripted h' _ i' = y at hsub
      cases hsub with
      | error e => exact .throw e
      | ok hab =>
        cases hab with
        | value hv => exact (Steady.replaceTop 2 hv).done
        | items hxs => exact (Alike.newList hxs).replaces 2
        | text s => exact (Alike.internValue s).replaces 2
  | _ => exact .throw _

theorem Alike.subscriptAssign : Alike β Done subscriptAssign subscriptAssign := by
  refine (Steady.peek 2).bind fun c c' hc => (Steady.peek 1).bind fun i i' hi => ?_
  refine (Steady.peek 0).bind fun v w hv => ?_
  cases hc with
  | @obj r s hr =>
    refine Steady.heap.bind fun h h' hh => ?_
    obtain ⟨o, o', ho, ho', hlike⟩ := hh.objects r s hr
    rw [ho, ho']
    cases hlike with
    | list hxs =>
      dsimp only
      rw [hh.numeric?_eq hi, hxs.size_eq]
      split
      · exact .throw _
      · split
        · exact .throw _
        · refine (Steady.modifyList hr fun _ _ h => h.setIfInBounds _ hv).bind fun _ _ _ => ?_
          exact (Steady.replaceTop 3 hv).done
    | dict hd =>
      dsimp only
      rw [hh.textOf?_eq hi]
      split
      · refine (Steady.modifyDict hr fun _ _ h => h.insert _ hv).bind fun _ _ _ => ?_
        exact (Steady.replaceTop 3 hv).done
      · exact .throw _
    | instanceObj => exact .overloaded (.obj hr) _ _ _
    | _ => exact .throw _
  | _ => exact .throw _

end Exec

end ScriptMachine
