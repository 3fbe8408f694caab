import Mathlib
import ScriptMachine.Machine.Methods
import ScriptMachine.Proofs.Renaming.Reading
import ScriptMachine.Proofs.Renaming.Stack

/-!
# ScriptMachine.Proofs.Renaming.Natives — builtins and built-in methods on like machines

Like arguments give like results. Two builtins are an exception, because they tell how much the heap
holds: garbage that only one of the heaps still has shows in what they answer. Time and chance are no
exception: like machines have the same clock and the same seed.

`Alike.runBuiltin` has a case for each builtin that does not measure the heap, and the methods of lists,
dictionaries and strings have a lemma for each. Functions of a host are out of scope: what an embedding
program does with references is up to it, and a heap with such functions is like no other one.
-/

namespace ScriptMachine

/-- Does the builtin tell how many objects or bytes the heap holds? -/
def Builtin.measuresHeap : Builtin → Bool
  | .gc | .memory => true
  | _ => false

namespace Exec

variable {β : Pairing} {α γ : Type} {v w : Value} {r s : Ref} {args args' : Array Value}

/-- What answers the same, goes on with the same. -/
theorem Steady.same {S : Pairing → γ → γ → Prop} {x y : Exec α} {f g : α → Exec γ}
    (hxy : Steady β (· = ·) x y) (hfg : ∀ a, Alike β S (f a) (g a)) :
    Alike β S (x >>= f) (y >>= g) :=
  Steady.bind hxy fun a _ hab => hab ▸ hfg a

/-! ## Arguments -/

section Arguments

variable (hargs : Aligned (Value.Like β) args args')
include hargs

theorem argument_like (i : Nat) : (argument args i).Like β (argument args' i) :=
  hargs.getD i .none

theorem Steady.numberArgument (i : Nat) (function : String) :
    Steady β (· = ·) (numberArgument args i function) (numberArgument args' i function) := by
  refine Steady.get.seq fun m n hm => ?_
  rw [hm.heap.numeric?_eq (argument_like hargs i)]
  split
  · exact .pure rfl
  · exact .throw _

theorem Steady.stringArgument (i : Nat) (function : String) :
    Steady β (· = ·) (stringArgument args i function) (stringArgument args' i function) := by
  refine Steady.get.seq fun m n hm => ?_
  rw [hm.heap.textOf?_eq (argument_like hargs i)]
  split
  · exact .pure rfl
  · exact .throw _

theorem Steady.joined : Steady β (· = ·) (joined args) (joined args') :=
  .reads fun _ _ hm =>
    congrArg String.join (forall₂_map_eq hargs fun _ _ hv => hm.heap.display_eq hv)

end Arguments

/-! ## Time and chance -/

/-- The seed is no reference, so it is the same on both sides. -/
theorem Steady.randomWord : Steady β (· = ·) randomWord randomWord :=
  .modifyGet fun m n hm => by
    have hseeded : ∀ seed, { m with seed }.Like β { n with seed } := fun _ => { hm with seed := rfl }
    dsimp only
    rw [hm.seed]
    exact ⟨β, le_rfl, ⟨rfl, rfl⟩, hseeded _⟩

theorem Steady.randomFrom (low : Int) (count : Nat) :
    Steady β (Value.Like β) (randomFrom low count) (randomFrom low count) :=
  Steady.randomWord.same fun _ => .pure ⟨rfl, .number _⟩

theorem Steady.random (hargs : Aligned (Value.Like β) args args') :
    Steady β (Value.Like β) (random args) (random args') := by
  unfold Exec.random
  rw [hargs.size_eq]
  split
  · exact Steady.randomWord.same fun _ => .pure ⟨rfl, .number _⟩
  · refine (Steady.numberArgument hargs 0 "rand").same fun x => ?_
    extract_lets n randomBelow
    split
    · exact Steady.bind (R := fun _ _ => False) (.throw _) fun _ _ => False.elim
    · exact Steady.randomFrom 0 n.toNat
  · refine (Steady.numberArgument hargs 0 "rand").same fun x => ?_
    extract_lets a
    refine (Steady.numberArgument hargs 1 "rand").same fun y => ?_
    extract_lets b randomBetween
    split
    · exact Steady.bind (R := fun _ _ => False) (.throw _) fun _ _ => False.elim
    · exact Steady.randomFrom a _

theorem Steady.sleep (x : Float) : Steady β (fun _ _ => True) (sleep x) (sleep x) :=
  .modify fun m n hm => by
    refine hm.withFiber { hm.fiber with state := ?_ } fun e he => hm.cells m.fiber (.inl rfl) e he
    rw [hm.clock]

/-! ## Conversions -/

theorem Steady.lengthOf (hv : v.Like β w) : Steady β (· = ·) (lengthOf v) (lengthOf w) := by
  cases hv with
  | @obj r s hr =>
    refine Steady.get.seq fun m n hm => ?_
    obtain ⟨o, o', ho, ho', hlike⟩ := hm.heap.objects r s hr
    rw [ho, ho']
    cases hlike with
    | string => exact .pure rfl
    | list hitems => exact .pure hitems.size_eq
    | dict hd => exact .pure hd.size
    | _ => exact .throw _
  | _ => exact .throw _

theorem Steady.toNumber (hv : v.Like β w) : Steady β (· = ·) (toNumber v) (toNumber w) := by
  refine Steady.heap.seq fun h h' hh => ?_
  rw [hh.numeric?_eq hv, hh.display_eq hv]
  generalize h'.numeric? w = x
  cases hv with
  | bool b => cases x <;> exact .pure rfl
  | _ =>
    cases x with
    | some x => exact .pure rfl
    | none =>
      dsimp only
      split
      · exact .pure rfl
      · exact .throw _

/-! ## Builtins -/

theorem Steady.ofNumber (hargs : Aligned (Value.Like β) args args') (function : String)
    (f : Float → Float) :
    Steady β (Value.Like β) (ofNumber function f args) (ofNumber function f args') :=
  (Steady.numberArgument hargs 0 function).same fun _ => .pure ⟨rfl, .number _⟩

/-- **`Alike.runBuiltin`** — a builtin that does not measure the heap gives like results. -/
theorem Alike.runBuiltin (hargs : Aligned (Value.Like β) args args') {b : Builtin}
    (hb : b.measuresHeap = false) :
    Alike β Value.Like (runBuiltin b args) (runBuiltin b args') := by
  have hfirst := argument_like hargs 0
  -- what gives like values without new pairs
  have hsteady : ∀ {x y : Exec Value}, Steady β (Value.Like β) x y → Alike β Value.Like x y :=
    fun hxy => hxy.alike fun _ _ => id
  cases b with
  | print =>
    exact (Steady.joined hargs).same fun text => (Steady.write text).bind fun _ _ _ => .pure .none
  | println =>
    exact (Steady.joined hargs).same fun text => (Steady.write _).bind fun _ _ _ => .pure .none
  | len => exact (Steady.lengthOf hfirst).same fun _ => .pure (.number _)
  | type =>
    refine Steady.get.bind fun m n hm => ?_
    rw [hm.heap.typeName_eq hfirst]
    exact .internValue _
  | str =>
    refine Steady.get.bind fun m n hm => ?_
    rw [hm.heap.display_eq hfirst]
    exact .internValue _
  | num => exact (Steady.toNumber hfirst).same fun _ => .pure (.number _)
  | int => exact (Steady.toNumber hfirst).same fun _ => .pure (.number _)
  | bool =>
    unfold Exec.runBuiltin
    rw [hfirst.isFalsey_eq]
    exact .pure (.bool _)
  | clock =>
    refine Steady.get.bind fun m n hm => ?_
    rw [hm.clock]
    exact .pure (.number _)
  | time =>
    refine Steady.get.bind fun m n hm => ?_
    rw [hm.clock]
    exact .pure (.number _)
  | wait =>
    exact (Steady.numberArgument hargs 0 "wait").same fun x =>
      (Steady.sleep x).bind fun _ _ _ => .pure (.number _)
  | throw => exact (Steady.joined hargs).same fun _ => .throw _
  | gc => cases hb
  | memory => cases hb
  | rand => exact hsteady (.random hargs)
  | floor => exact hsteady (.ofNumber hargs _ _)
  | ceil => exact hsteady (.ofNumber hargs _ _)
  | round => exact hsteady (.ofNumber hargs _ _)
  | sqrt => exact hsteady (.ofNumber hargs _ _)
  | abs => exact hsteady (.ofNumber hargs _ _)

/-! ## Lists and dictionaries -/

theorem Steady.modifyList (hr : β.rel r s) {f g : Array Value → Array Value}
    (hfg : ∀ xs ys, Aligned (Value.Like β) xs ys → Aligned (Value.Like β) (f xs) (g ys)) :
    Steady β (fun _ _ => True) (modifyList r f) (modifyList s g) := by
  refine .modifyHeap hr (fun o o' ho => ?_) fun o => ?_
  · cases ho with
    | list hitems => exact .list (hfg _ _ hitems)
    | _ => constructor <;> assumption
  · cases o <;> exact ⟨rfl, fun _ => by trivial⟩

theorem Steady.modifyDict (hr : β.rel r s) {f g : Dict Value → Dict Value}
    (hfg : ∀ d e, d.Like β e → (f d).Like β (g e)) :
    Steady β (fun _ _ => True) (modifyDict r f) (modifyDict s g) := by
  refine .modifyHeap hr (fun o o' ho => ?_) fun o => ?_
  · cases ho with
    | dict hd => exact .dict (hfg _ _ hd)
    | _ => constructor <;> assumption
  · cases o <;> exact ⟨rfl, fun _ => by trivial⟩

theorem Alike.newList {xs ys : Array Value} (h : Aligned (Value.Like β) xs ys) :
    Alike β Value.Like (Exec.allocValue (.list xs)) (Exec.allocValue (.list ys)) :=
  .allocValue (.list h) nofun

theorem Alike.newDict {d e : Dict Value} (h : d.Like β e) :
    Alike β Value.Like (Exec.allocValue (.dict d)) (Exec.allocValue (.dict e)) :=
  .allocValue (.dict h) nofun

/-- **`Alike.deepCopy`** — copies of like values are alike, down to the same level. -/
theorem Alike.deepCopy (levels : Nat) (hv : v.Like β w) :
    Alike β Value.Like (deepCopy levels v) (deepCopy levels w) := by
  induction levels generalizing β v w with
  | zero => cases hv <;> exact .pure (by constructor <;> assumption)
  | succ levels ih =>
    -- the items are copied one after the other
    have hcopies : ∀ {vs ws : List Value}, List.Forall₂ (Value.Like β) vs ws →
        Alike β (fun β' => List.Forall₂ (Value.Like β')) (vs.mapM (Exec.deepCopy levels))
          (ws.mapM (Exec.deepCopy levels)) := fun h =>
      .mapM (R := Value.Like) (fun hβ h => h.mono hβ) (fun hβ h => h.mono hβ) h
        fun _ _ _ _ hab => ih hab
    cases hv with
    | @obj r s hr =>
      unfold Exec.deepCopy
      refine Steady.get.bind fun m n hm => ?_
      obtain ⟨o, o', ho, ho', hlike⟩ := hm.heap.objects r s hr
      rw [ho, ho']
      cases hlike with
      | list hitems =>
        exact (hcopies hitems).bind fun β' xs ys _ hxs => .newList hxs
      | @dict d e hd =>
        refine (hcopies hd.values).bind fun β' xs ys _ hxs => .newDict (.ofList ?_)
        rw [hd.keys_eq]
        exact forall₂_zip (List.forall₂_same.mpr fun _ _ => rfl) hxs
      | _ => exact .pure (.obj hr)
    | _ => exact .pure (by constructor)

theorem Steady.indexArgument (hargs : Aligned (Value.Like β) args args') (i size : Nat)
    (allowEnd : Bool) (function : String) :
    Steady β (· = ·) (indexArgument args i size allowEnd function)
      (indexArgument args' i size allowEnd function) := by
  refine (Steady.numberArgument hargs i function).same fun x => ?_
  extract_lets n n' limit index
  split
  · exact Steady.bind (R := fun _ _ => False) (.throw _) fun _ _ => False.elim
  · exact .pure ⟨rfl, rfl⟩

theorem Steady.listItems (hr : β.rel r s) :
    Steady β (Aligned (Value.Like β)) (listItems r) (listItems s) :=
  Steady.get.seq fun _ _ hm => .need (hm.heap.listOf? (.obj hr))

theorem Steady.dictOf (hr : β.rel r s) : Steady β (Dict.Like β) (dictOf r) (dictOf s) := by
  refine Steady.get.seq fun m n hm => ?_
  obtain ⟨o, o', ho, ho', hlike⟩ := hm.heap.objects r s hr
  rw [ho, ho']
  cases hlike with
  | dict hd => exact .pure hd
  | _ => exact .throw _

theorem Steady.listIndex (hr : β.rel r s) (hargs : Aligned (Value.Like β) args args') (i : Nat)
    (allowEnd : Bool) (function : String) :
    Steady β (· = ·) (listIndex r args i allowEnd function)
      (listIndex s args' i allowEnd function) :=
  (Steady.listItems hr).seq fun xs ys hxs => by
    rw [hxs.size_eq]
    exact .indexArgument hargs i _ allowEnd function

theorem Alike.internValues (texts : List String) :
    Alike β (fun β' => List.Forall₂ (Value.Like β')) (texts.mapM Exec.internValue)
      (texts.mapM Exec.internValue) :=
  .mapM (R := fun _ => (· = ·)) (fun _ h => h) (fun hβ h => h.mono hβ)
    (List.forall₂_same.mpr fun _ _ => rfl) fun _ _ _ _ h => h ▸ .internValue _

theorem Alike.internList (texts : List String) :
    Alike β Value.Like (internList texts) (internList texts) :=
  (Alike.internValues texts).bind fun _ _ _ _ hxs => .newList hxs

/-! ## Methods -/

/-- By the names of the methods. None of them looks at a reference but to compare it. -/
theorem Alike.listMethod (hr : β.rel r s) (name : String)
    (hargs : Aligned (Value.Like β) args args') :
    Alike β Value.Like (listMethod r name args) (listMethod s name args') := by
  have hfirst := argument_like hargs 0
  unfold Exec.listMethod
  split
  · exact (Steady.modifyList hr fun _ _ h => h.append hargs).bind fun _ _ _ => .pure (.obj hr)
  · exact (Steady.modifyList hr fun _ _ h => h.append hargs).bind fun _ _ _ => .pure (.obj hr)
  · refine (Steady.listItems hr).bind fun xs ys hxs => ?_
    have hlast := hxs.getElem? (xs.size - 1)
    rw [← Array.back?_eq_getElem?, hxs.size_eq, ← Array.back?_eq_getElem?] at hlast
    generalize xs.back? = a, ys.back? = b at hlast
    cases hlast with
    | some hv =>
      exact (Steady.modifyList hr fun _ _ h => h.pop).bind fun _ _ _ => .pure hv
    | none => exact .throw _
  · refine (Steady.listIndex hr hargs 0 true _).same fun i => ?_
    refine (Steady.modifyList hr fun _ _ h => ?_).bind fun _ _ _ => .pure (.obj hr)
    exact h.insertIdxIfInBounds i (argument_like hargs 1)
  · refine (Steady.listIndex hr hargs 0 false _).same fun i => ?_
    refine (Steady.listItems hr).bind fun xs ys hxs => ?_
    refine (Steady.need (hxs.getElem? i)).bind fun v w hv => ?_
    exact (Steady.modifyList hr fun _ _ h => h.eraseIdxIfInBounds i).bind fun _ _ _ => .pure hv
  · refine (Steady.listItems hr).bind fun xs ys hxs => Steady.heap.bind fun h h' hh => ?_
    rw [hxs.any_eq fun _ _ hx => hh.equal_eq hx hfirst]
    exact .pure (.bool _)
  · refine (Steady.listItems hr).bind fun xs ys hxs => Steady.heap.bind fun h h' hh => ?_
    rw [hxs.findIdx?_eq fun _ _ hx => hh.equal_eq hx hfirst]
    split
    · exact .pure (.number _)
    · exact .pure (.number _)
  · exact (Steady.listItems hr).bind fun xs ys hxs => .newList hxs
  · exact .deepCopy _ (.obj hr)
  · -- the separator of "join" may be left out
    have hrest : ∀ separator : String, Alike β Value.Like
        (do
          let items ← Exec.listItems r
          let h ← Exec.heap
          Exec.internValue (String.intercalate separator (items.toList.map h.display)))
        (do
          let items ← Exec.listItems s
          let h ← Exec.heap
          Exec.internValue (String.intercalate separator (items.toList.map h.display))) := by
      intro separator
      refine (Steady.listItems hr).bind fun xs ys hxs => Steady.heap.bind fun h h' hh => ?_
      rw [forall₂_map_eq hxs fun _ _ hv => hh.display_eq hv]
      exact .internValue _
    have hseparator := Steady.stringArgument hargs 0 "join"
    generalize argument args 0 = a, argument args' 0 = b at hfirst
    cases hfirst with
    | none => exact (Steady.pure rfl).same hrest
    | _ => exact hseparator.same hrest
  · refine (Steady.listIndex hr hargs 0 false _).same fun i => ?_
    refine (Steady.listIndex hr hargs 1 false _).same fun j => ?_
    exact (Steady.modifyList hr fun _ _ h => h.swapIfInBounds i j).bind fun _ _ _ => .pure (.obj hr)
  · exact (Steady.modifyList hr fun _ _ _ => .empty).bind fun _ _ _ => .pure (.obj hr)
  · exact .throw _

/-- By the names of the methods. Entries are found by their texts. -/
theorem Alike.dictMethod (hr : β.rel r s) (name : String)
    (hargs : Aligned (Value.Like β) args args') :
    Alike β Value.Like (dictMethod r name args) (dictMethod s name args') := by
  have hkey := fun name => Steady.stringArgument hargs 0 name
  unfold Exec.dictMethod
  split
  · refine (hkey _).same fun k => (Steady.dictOf hr).bind fun d e hd => .pure ?_
    exact (hd.get? k).getD (argument_like hargs 1)
  · refine (Steady.dictOf hr).bind fun d e hd => ?_
    rw [hd.keys_eq]
    exact .internList _
  · exact (Steady.dictOf hr).bind fun d e hd => .newList hd.values
  · refine (hkey _).same fun k => (Steady.dictOf hr).bind fun d e hd => ?_
    refine (Steady.modifyDict hr fun _ _ h => h.remove k).bind fun _ _ _ => .pure ?_
    exact (hd.get? k).getD .none
  · refine (hkey _).same fun k => (Steady.dictOf hr).bind fun d e hd => ?_
    rw [hd.contains_eq]
    exact .pure (.bool _)
  · exact (Steady.dictOf hr).bind fun d e hd => .newDict hd
  · exact .deepCopy _ (.obj hr)
  · exact .throw _

/-- By the names of the methods. The text is the same on both sides; only the results are fresh. -/
theorem Alike.stringMethod (text name : String) (hargs : Aligned (Value.Like β) args args') :
    Alike β Value.Like (stringMethod text name args) (stringMethod text name args') := by
  have hfirst := argument_like hargs 0
  have htext := fun name => Steady.stringArgument hargs 0 name
  unfold Exec.stringMethod
  split
  · exact .internValue _
  · exact .internValue _
  · exact .internValue _
  · refine (htext _).same fun needle => ?_
    exact (Steady.stringArgument hargs 1 _).same fun _ => .internValue _
  · -- without an argument the text is split at blanks
    have hsplit := (htext "split").same (S := Value.Like)
      (f := fun t => Exec.internList (Text.splitOn text t))
      (g := fun t => Exec.internList (Text.splitOn text t)) fun t => .internList _
    generalize argument args 0 = a, argument args' 0 = b at hfirst
    cases hfirst with
    | none => exact .internList _
    | _ => exact hsplit
  · exact (htext _).same fun _ => .pure (.bool _)
  · exact (htext _).same fun _ => .pure (.bool _)
  · exact (htext _).same fun _ => .pure (.bool _)
  · refine (htext _).same fun needle => ?_
    split
    · exact .pure (.number _)
    · exact .pure (.number _)
  · exact .throw _

theorem Alike.runMethod (hr : β.rel r s) (name : String)
    (hargs : Aligned (Value.Like β) args args') :
    Alike β Value.Like (runMethod r name args) (runMethod s name args') := by
  refine Steady.get.bind fun m n hm => ?_
  obtain ⟨o, o', ho, ho', hlike⟩ := hm.heap.objects r s hr
  rw [ho, ho']
  cases hlike with
  | list => exact .listMethod hr name hargs
  | dict => exact .dictMethod hr name hargs
  | string text => exact .stringMethod text name hargs
  | _ => exact .throw _

end Exec

end ScriptMachine
