import Mathlib
import ScriptMachine.Proofs.Renaming.Dispatch

/-!
# ScriptMachine.Proofs.Renaming.Declarations — classes, enumerations and extensions on like machines

A declaration makes an object and fills it member by member; on like machines the members are found
under the same names and have like values.

A class, an enumeration, a member, a method, an extension and a superclass have a lemma each. An
inheriting class copies the tables of the class above it entry by entry, and like tables give like copies.
-/

namespace ScriptMachine.Exec

variable {β : Pairing} {v w v' w' : Value} {r s r' s' : Ref}

theorem Alike.newClass (hr : β.rel r s) : Alike β Done (newClass r) (newClass s) := by
  refine Steady.frame.bind fun f g hf => Alike.pushes (.allocValue (.classObj ?_) nofun)
  exact ⟨hr, .none, .empty, .empty, .empty, hf.package⟩

theorem Alike.newEnumeration (hr : β.rel r s) :
    Alike β Done (newEnumeration r) (newEnumeration s) :=
  Alike.pushes (.allocValue (.enumeration ⟨hr, .empty, .none⟩) nofun)

theorem Steady.modifyClass (hr : β.rel r s) {f g : ClassObj → ClassObj}
    (hfg : ∀ c d, c.Like β d → (f c).Like β (g d)) :
    Steady β (fun _ _ => True) (modifyClass r f) (modifyClass s g) := by
  refine .modifyHeap hr (fun o o' ho => ?_) fun o => ?_
  · cases ho with
    | classObj hc => exact .classObj (hfg _ _ hc)
    | _ => constructor <;> assumption
  · cases o <;> exact ⟨rfl, fun _ => by trivial⟩

/-- The tables of the superclass are taken over slot by slot. -/
theorem Steady.inherit : Steady β (fun _ _ => True) inherit inherit := by
  refine Steady.pop.seq fun v w hv => Steady.get.seq fun m n hm => ?_
  refine (Steady.peek 0).seq fun v' w' hv' => ?_
  have hclass := hm.heap.classOf? hv'
  generalize m.heap.classOf? v' = a, n.heap.classOf? w' = b at hclass
  cases hclass with
  | none => exact .throw _
  | some hsuper =>
    refine Steady.get.seq fun m n hm => (Steady.need (hm.heap.classOf? hv)).seq fun r s hr => ?_
    refine Steady.get.seq fun m n hm => (Steady.need (hm.heap.class? hsuper)).seq fun p q hp => ?_
    exact .modifyClass hr fun c d hc =>
      { hc with
        superclass := .some hsuper
        fields := hc.fields.addAll hp.fields
        statics := hc.statics.addAll hp.statics }

theorem Steady.defineMethod (hr : β.rel r s) :
    Steady β (fun _ _ => True) (defineMethod r) (defineMethod s) := by
  refine Steady.pop.seq fun v w hv => Steady.pop.seq fun v' w' hv' => ?_
  refine (Steady.key hr).seq fun k l hk => Steady.get.seq fun m n hm => ?_
  have hclass := hm.heap.classOf? hv'
  generalize m.heap.classOf? v' = a, n.heap.classOf? w' = b at hclass
  cases hclass with
  | none => exact .pure trivial
  | some hc => exact .modifyClass hc fun c d hc => { hc with methods := hc.methods.set hk hv }

/-- A member without a value of its own is numbered, and numbers are alike. -/
theorem memberValue?_like (hv : v.Like β w) (hv' : v'.Like β w') :
    Option.Rel (Value.Like β) (memberValue? v v') (memberValue? w w') := by
  cases hv with
  | none =>
    cases hv' with
    | none => exact .some (.number _)
    | number => exact .some (.number _)
    | _ => exact .none
  | bool b => exact .some (.bool b)
  | number n => exact .some (.number n)
  | obj hr => exact .some (.obj hr)

theorem Alike.defineMember (hr : β.rel r s) (hr' : β.rel r' s') (hv : v.Like β w)
    (hv' : v'.Like β w') :
    Alike β Done (defineMember r r' v v') (defineMember s s' w w') := by
  have hvalue := memberValue?_like hv hv'
  unfold Exec.defineMember
  generalize memberValue? v v' = a, memberValue? w w' = b at hvalue
  cases hvalue with
  | none => exact (Steady.nameText hr').same fun _ => .throw _
  | some hvalue =>
    refine (Steady.key hr').bind fun k l hk => ?_
    refine (Alike.alloc (.enumMember ⟨hr, hr', hvalue⟩) nofun).bind fun β₁ a b hβ hab => ?_
    refine Steady.done (.modifyHeap (hβ _ _ hr) (fun o o' ho => ?_) fun o => ?_)
    · cases ho with
      | enumeration he =>
        exact .enumeration { he with
          members := he.members.set (hk.mono hβ) (.obj hab)
          last := hvalue.mono hβ }
      | _ => constructor <;> assumption
    · cases o <;> exact ⟨rfl, fun _ => by trivial⟩

/-- A property of an enumeration is a member, which is a new pair. -/
theorem Alike.defineProperty (hr : β.rel r s) (isStatic : Bool) :
    Alike β Done (defineProperty r isStatic) (defineProperty s isStatic) := by
  refine Steady.pop.bind fun v w hv => Steady.pop.bind fun owner owner' howner => ?_
  cases howner with
  | @obj t u ht =>
    refine Steady.get.bind fun m n hm => ?_
    obtain ⟨o, o', ho, ho', hlike⟩ := hm.heap.objects t u ht
    rw [ho, ho']
    cases hlike with
    | classObj =>
      refine (Steady.key hr).bind fun k l hk => Steady.done (.modifyClass ht fun c d hc => ?_)
      split
      · exact { hc with statics := hc.statics.set hk hv }
      · exact { hc with fields := hc.fields.set hk hv }
    | enumeration he => exact .defineMember ht hr hv he.last
    | _ => exact .throw _
  | _ => exact .throw _

/-- Types are told by their names, so the same table is extended. -/
theorem extended_like (type : String) {k l : Key} (hk : k.Like β l) (hv : v.Like β w)
    {es fs : List (String × Table Value)}
    (h : List.Forall₂ (fun e f => e.1 = f.1 ∧ e.2.Like β f.2) es fs) :
    List.Forall₂ (fun e f => e.1 = f.1 ∧ e.2.Like β f.2) (extended type k v es)
      (extended type l w fs) := by
  induction h with
  | nil => exact .cons ⟨rfl, Table.Like.empty.set hk hv⟩ .nil
  | @cons e f es fs hef hrest ih =>
    unfold extended
    rw [hef.1]
    split
    · exact .cons ⟨rfl, hef.2.set hk hv⟩ hrest
    · exact .cons ⟨rfl, hef.2⟩ ih

theorem Alike.defineExtension (hr : β.rel r s) (hr' : β.rel r' s') :
    Alike β Done (defineExtension r r') (defineExtension s s') := by
  refine Steady.pop.bind fun v w hv => (Steady.key hr').bind fun k l hk => ?_
  refine (Steady.nameText hr).same fun type => ?_
  split
  · exact Steady.done (.modify fun m n hm =>
      { hm with extensions := extended_like type hk hv hm.extensions })
  · refine (Alike.readGlobal? hr).bind fun β₁ a b hβ hab => ?_
    cases hab with
    | none => exact .throw _
    | some hab =>
      refine Steady.get.bind fun m n hm => ?_
      have hclass := hm.heap.classOf? hab
      generalize m.heap.classOf? _ = a, n.heap.classOf? _ = b at hclass
      cases hclass with
      | none => exact .throw _
      | some hc =>
        exact Steady.done (.modifyClass hc fun c d hc =>
          { hc with methods := hc.methods.set (hk.mono hβ) (hv.mono hβ) })

end ScriptMachine.Exec
