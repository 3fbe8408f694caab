import Mathlib
import ScriptMachine.Machine.Operators
import ScriptMachine.Proofs.Renaming.Ancestry

/-!
# ScriptMachine.Proofs.Renaming.Reading — what can be read off like heaps

Like values are shown as the same text, are equal to the same values, are of the same types and have
the same items. This is where references could become visible, and they do not: an object is shown by
its contents and names, and references are only ever compared with each other.

`Like.display_eq` and `Like.equal_eq` are inductions on the depth to which values are shown and
compared. A reference is never shown, not even for functions and instances, and is hashed nowhere; were
it otherwise, this is the module that would fail.
-/

namespace ScriptMachine

variable {β : Pairing} {h h' : Heap} {r s : Ref} {v w v' w' : Value}

namespace Heap

/-! ## Texts -/

section Display

variable (hl : h.Like β h')
include hl

theorem Like.prototypeName_eq {p q : Prototype} (hp : p.Like β q) (fallback : String) :
    h.prototypeName p fallback = h'.prototypeName q fallback := by
  unfold prototypeName
  rw [hp.name.eq_of_forall fun _ _ hr => hl.name_eq hr]

theorem Like.functionText_eq {p q : Prototype} (hp : p.Like β q) :
    h.functionText p = h'.functionText q := by
  unfold functionText
  rw [hl.prototypeName_eq hp]

theorem Like.boundText_eq {b c : BoundMethod} (hb : b.Like β c) : h.boundText b = h'.boundText c := by
  have hp := (hl.closure? hb.method).bind fun _ _ hc => hl.prototype? hc.prototype
  unfold boundText
  generalize (h.closure? b.method).bind _ = x, (h'.closure? c.method).bind _ = y at hp
  cases hp with
  | none => rfl
  | some hp =>
    dsimp only
    rw [hp.isStatic, hl.prototypeName_eq hp]

/-- By induction on the levels: no reference is ever shown, so like values look the same. -/
theorem Like.showAt_eq (levels : Nat) (quoted : Bool) (hv : v.Like β w) :
    h.showAt levels quoted v = h'.showAt levels quoted w := by
  induction levels generalizing v w quoted with
  | zero => cases hv <;> rfl
  | succ levels ih =>
    cases hv with
    | none => rfl
    | bool b => rfl
    | number n => rfl
    | @obj r s hr =>
      obtain ⟨o, o', ho, ho', hlike⟩ := hl.objects r s hr
      unfold showAt
      rw [ho, ho']
      -- one case for each kind of object; containers show what they hold, one level further down
      cases hlike with
      | string => rfl
      | prototype hp => exact hl.functionText_eq hp
      | closure hc =>
        dsimp only
        rw [(hl.prototype? hc.prototype).eq_of_forall fun _ _ hp => hl.functionText_eq hp]
      | upvalue => rfl
      | classObj hc =>
        dsimp only
        rw [hl.name_eq hc.name]
      | instanceObj hi =>
        dsimp only
        rw [(hl.class? hi.classRef).eq_of_forall fun _ _ hc => hl.name_eq hc.name]
      | boundMethod hb => exact hl.boundText_eq hb
      | list hitems =>
        dsimp only
        rw [forall₂_map_eq hitems fun _ _ hv => ih true hv]
      | dict hd =>
        dsimp only
        rw [forall₂_map_eq hd.toList fun a b hab => ?_]
        obtain ⟨key, v⟩ := a
        obtain ⟨key', w⟩ := b
        obtain ⟨(rfl : key = key'), hv⟩ := hab
        dsimp only
        rw [ih true hv]
      | enumeration he =>
        dsimp only
        rw [hl.name_eq he.name]
      | enumMember hm => exact ih quoted hm.value
      | package hp =>
        dsimp only
        rw [hl.name_eq hp.name]
      | native => rfl
      | task ht =>
        dsimp only
        rw [hl.name_eq ht.name]

/-- **`Like.display_eq`** — like values are shown as the same text. -/
theorem Like.display_eq (hv : v.Like β w) : h.display v = h'.display w :=
  hl.showAt_eq _ _ hv

/-! ## Equality -/

/-- A member carries a number or it does not, whatever its reference is. -/
theorem Like.carries_eq (hr : β.rel r s) (n : Float) : h.carries r n = h'.carries s n := by
  obtain ⟨o, o', ho, ho', hlike⟩ := hl.objects r s hr
  unfold carries
  rw [ho, ho']
  cases hlike with
  | @enumMember m n hm =>
    dsimp only
    have hvalue := hm.value
    generalize m.value = x, n.value = y at hvalue
    cases hvalue <;> rfl
  | _ => rfl

/-- By induction on the levels. Where identity decides, the pairing is one-to-one. -/
theorem Like.equalAt_eq (levels : Nat) (hv : v.Like β w) (hv' : v'.Like β w') :
    h.equalAt levels v v' = h'.equalAt levels w w' := by
  induction levels generalizing v w v' w' with
  | zero =>
    cases hv with
    | obj hr =>
      cases hv' with
      | obj hr' => exact β.beq_eq hr hr'
      | number n => exact hl.carries_eq hr n
      | _ => rfl
    | number n =>
      cases hv' with
      | obj hr' => exact hl.carries_eq hr' n
      | _ => rfl
    | _ => cases hv' <;> rfl
  | succ levels ih =>
    cases hv with
    | @obj r s hr =>
      cases hv' with
      | @obj r' s' hr' =>
        unfold equalAt
        -- the same object first, then contents
        rw [β.beq_eq hr hr']
        congr 1
        obtain ⟨o, p, ho, hp, hop⟩ := hl.objects r s hr
        obtain ⟨o', p', ho', hp', hop'⟩ := hl.objects r' s' hr'
        rw [ho, hp, ho', hp']
        cases hop with
        | list hitems =>
          cases hop' with
          | list hitems' =>
            dsimp only
            rw [hitems.size_eq, hitems'.size_eq]
            congr 1
            exact forall₂_all_eq (forall₂_zip hitems hitems') fun a b hab => ih hab.1 hab.2
          | _ => rfl
        | dict hd =>
          cases hop' with
          | @dict d d' hd' =>
            dsimp only
            rw [hd.size, hd'.size]
            congr 1
            refine forall₂_all_eq hd.toList fun a b hab => ?_
            obtain ⟨key, x⟩ := a
            obtain ⟨key', y⟩ := b
            obtain ⟨(rfl : key = key'), hxy⟩ := hab
            dsimp only
            -- keys are texts, so both sides look for the same one
            have hget := hd'.get? key
            generalize d.get? key = a, d'.get? key = b at hget
            cases hget with
            | none => rfl
            | some hab => exact ih hxy hab
          | _ => rfl
        | _ => cases hop' <;> rfl
      | number n => exact hl.carries_eq hr n
      | _ => rfl
    | number n =>
      cases hv' with
      | obj hr' => exact hl.carries_eq hr' n
      | _ => rfl
    | _ => cases hv' <;> rfl

/-- **`Like.equal_eq`** — like values are equal to like values. -/
theorem Like.equal_eq (hv : v.Like β w) (hv' : v'.Like β w') : h.equal v v' = h'.equal w w' :=
  hl.equalAt_eq _ hv hv'

end Display

end Heap

/-! ## Operands -/

/-- Like results, or the same error. -/
inductive ResultLike {ε α γ : Type} (R : α → γ → Prop) : Except ε α → Except ε γ → Prop
  | ok {a : α} {b : γ} (hab : R a b) : ResultLike R (.ok a) (.ok b)
  | error (e : ε) : ResultLike R (.error e) (.error e)

/-- Computations that only read are put together as usual. -/
theorem ResultLike.bind {α γ δ ε : Type} {R : α → γ → Prop} {S : δ → ε → Prop}
    {x : Except Fault α} {y : Except Fault γ} {f : α → Except Fault δ} {g : γ → Except Fault ε}
    (h : ResultLike R x y) (hfg : ∀ a b, R a b → ResultLike S (f a) (g b)) :
    ResultLike S (x >>= f) (y >>= g) := by
  cases h with
  | ok hab => exact hfg _ _ hab
  | error e => exact .error e

/-- By induction on the lists: the first element that fails is the same one. -/
theorem resultLike_mapM {α γ δ ε : Type} {R : α → γ → Prop} {S : δ → ε → Prop} {xs : Array α}
    {ys : Array γ} {f : α → Except Fault δ} {g : γ → Except Fault ε} (h : Aligned R xs ys)
    (hfg : ∀ a b, R a b → ResultLike S (f a) (g b)) :
    ResultLike (Aligned S) (xs.mapM f) (ys.mapM g) := by
  have hlist : ResultLike (List.Forall₂ S) (xs.toList.mapM f) (ys.toList.mapM g) := by
    unfold Aligned at h
    generalize xs.toList = l, ys.toList = l' at h
    induction h with
    | nil => exact .ok .nil
    | cons hab _ ih =>
      rw [List.mapM_cons, List.mapM_cons]
      exact (hfg _ _ hab).bind fun _ _ hc => ih.bind fun _ _ hcs => .ok (.cons hc hcs)
  rw [Array.mapM_eq_mapM_toList, Array.mapM_eq_mapM_toList]
  generalize xs.toList.mapM f = x, ys.toList.mapM g = y at hlist
  cases hlist with
  | ok h => exact .ok h
  | error e => exact .error e

theorem optionRel_mapM {α γ δ ε : Type} {R : α → γ → Prop} {S : δ → ε → Prop} {l : List α}
    {l' : List γ} {f : α → Option δ} {g : γ → Option ε} (h : List.Forall₂ R l l')
    (hfg : ∀ a b, R a b → Option.Rel S (f a) (g b)) :
    Option.Rel (List.Forall₂ S) (l.mapM f) (l'.mapM g) := by
  induction h with
  | nil => exact .some .nil
  | cons hab _ ih =>
    rw [List.mapM_cons, List.mapM_cons]
    exact (hfg _ _ hab).bind fun _ _ hc => ih.bind fun _ _ hcs => .some (.cons hc hcs)

namespace Exec

section Operands

variable (hl : h.Like β h')
include hl

theorem operand_like (hv : v.Like β w) : ResultLike (· = ·) (operand h v) (operand h' w) := by
  unfold operand
  rw [hl.numeric?_eq hv]
  split
  · exact .ok rfl
  · exact .error _

/-- By which of the two operands are lists. -/
theorem elementwiseItems_like (op : Arithmetic) (hv : v.Like β w) (hv' : v'.Like β w') :
    ResultLike (Aligned (Value.Like β)) (elementwiseItems h op v v')
      (elementwiseItems h' op w w') := by
  have hlist := hl.listOf? hv
  have hlist' := hl.listOf? hv'
  unfold elementwiseItems
  generalize h.listOf? v = a, h'.listOf? w = b at hlist
  generalize h.listOf? v' = a', h'.listOf? w' = b' at hlist'
  -- two lists, a list and a number, a number and a list, or neither
  cases hlist with
  | @some xs ys hxs =>
    cases hlist' with
    | @some xs' ys' hxs' =>
      dsimp only
      rw [hxs.size_eq, hxs'.size_eq]
      split
      · exact .error _
      · have hzip : Aligned (fun a b => a.1.Like β b.1 ∧ a.2.Like β b.2) (xs.zip xs') (ys.zip ys') := by
          unfold Aligned
          rw [Array.toList_zip, Array.toList_zip]
          exact forall₂_zip hxs hxs'
        refine resultLike_mapM hzip fun a b hab => ?_
        refine (operand_like hl hab.1).bind fun x _ hx => ?_
        refine (operand_like hl hab.2).bind fun y _ hy => ?_
        rw [hx, hy]
        exact .ok (.number _)
    | none =>
      refine (operand_like hl hv').bind fun y _ hy => ?_
      refine resultLike_mapM hxs fun a b hab => ?_
      refine (operand_like hl hab).bind fun x _ hx => ?_
      rw [hx, hy]
      exact .ok (.number _)
  | none =>
    cases hlist' with
    | some hxs' =>
      refine (operand_like hl hv).bind fun x _ hx => ?_
      refine resultLike_mapM hxs' fun a b hab => ?_
      refine (operand_like hl hab).bind fun y _ hy => ?_
      rw [hx, hy]
      exact .ok (.number _)
    | none => exact .error _

theorem endpoint?_eq (hv : v.Like β w) : endpoint? h v = endpoint? h' w := by
  unfold endpoint?
  rw [hl.numeric?_eq hv, hl.textOf?_eq hv]

theorem stepOf_eq {o o' : Option Value} (ho : Option.Rel (Value.Like β) o o') (start stop : Float) :
    stepOf h o start stop = stepOf h' o' start stop := by
  cases ho with
  | none => rfl
  | some hv =>
    unfold stepOf
    dsimp only
    rw [hl.numeric?_eq hv]

/-! ## Membership and types -/

/-- What is in a list, a dict or a text is found by comparing values, and like values compare alike. -/
theorem member?_eq (hv : v.Like β w) (hv' : v'.Like β w') :
    member? h v v' = member? h' w w' := by
  cases hv' with
  | @obj r s hr =>
    obtain ⟨o, o', ho, ho', hlike⟩ := hl.objects r s hr
    unfold member?
    dsimp only
    rw [ho, ho']
    cases hlike with
    | list hitems => exact congrArg some (hitems.any_eq fun _ _ hx => hl.equal_eq hx hv)
    | dict hd =>
      dsimp only
      rw [hl.textOf?_eq hv]
      have hcontains : Dict.contains _ = Dict.contains _ := funext hd.contains_eq
      rw [hcontains]
    | string =>
      dsimp only
      rw [hl.textOf?_eq hv]
    | _ => rfl
  | _ => rfl

/-- Types are told by names, and names are texts. -/
theorem isType_eq (hv : v.Like β w) (name : String) : isType h v name = isType h' w name := by
  unfold isType
  rw [hl.typeName_eq hv]
  congr 1
  cases hv with
  | @obj r s hr =>
    obtain ⟨o, o', ho, ho', hlike⟩ := hl.objects r s hr
    dsimp only
    rw [ho, ho']
    cases hlike with
    | instanceObj hi =>
      exact hl.ancestry_any_eq hi.classRef fun e f he => by rw [hl.name_eq he.2.name]
    | enumMember hm =>
      obtain ⟨o, o', ho, ho', hlike⟩ := hl.objects _ _ hm.owner
      dsimp only
      rw [ho, ho']
      cases hlike with
      | enumeration he =>
        dsimp only
        rw [hl.name_eq he.name]
      | _ => rfl
    | _ => rfl
  | _ => rfl

/-! ## Subscripts -/

theorem positionOf?_eq (size : Nat) (hv : v.Like β w) :
    positionOf? h size v = positionOf? h' size w := by
  unfold positionOf?
  rw [hl.numeric?_eq hv]

theorem pickedText?_eq (text : String) (hv : v.Like β w) :
    pickedText? h text v = pickedText? h' text w := by
  have hpick : ∀ {a b : Value}, a.Like β b →
      ((positionOf? h text.toList.toArray.size a).bind fun i => text.toList.toArray[i]?) =
        (positionOf? h' text.toList.toArray.size b).bind fun i => text.toList.toArray[i]? :=
    fun hab => by rw [positionOf?_eq hl _ hab]
  have hlist := hl.listOf? hv
  unfold pickedText?
  extract_lets chars pick pick'
  generalize h.listOf? v = a, h'.listOf? w = b at hlist
  cases hlist with
  | none =>
    dsimp only
    rw [show pick v = pick' w from hpick hv]
  | some hitems =>
    have hpicked : Option.Rel (List.Forall₂ (· = ·)) (List.mapM pick _) (List.mapM pick' _) :=
      optionRel_mapM hitems fun a b hab => by
        have heq : pick a = pick' b := hpick hab
        rw [heq]
        cases pick' b with
        | none => exact .none
        | some c => exact .some rfl
    refine hpicked.eq_of_forall fun l l' hll => ?_
    rw [List.forall₂_eq_eq_eq] at hll
    rw [hll]

/-- What a subscript finds, under other references. -/
inductive PickedLike (β : Pairing) : Value ⊕ Array Value ⊕ String → Value ⊕ Array Value ⊕ String → Prop
  | value {v w : Value} (hv : v.Like β w) : PickedLike β (.inl v) (.inl w)
  | items {xs ys : Array Value} (hxs : Aligned (Value.Like β) xs ys) :
    PickedLike β (.inr (.inl xs)) (.inr (.inl ys))
  | text (s : String) : PickedLike β (.inr (.inr s)) (.inr (.inr s))

/-- The items at some positions of like lists, if all of them exist. -/
theorem pickedItems_like {xs ys is js : Array Value} (hxs : Aligned (Value.Like β) xs ys)
    (his : Aligned (Value.Like β) is js) :
    Option.Rel (Aligned (Value.Like β))
      (is.mapM fun v => (positionOf? h ys.size v).bind fun i => xs[i]?)
      (js.mapM fun v => (positionOf? h' ys.size v).bind fun i => ys[i]?) := by
  rw [Array.mapM_eq_mapM_toList, Array.mapM_eq_mapM_toList]
  refine Option.Rel.map (optionRel_mapM his fun a b hab => ?_) fun l l' hll => hll
  rw [positionOf?_eq hl _ hab]
  cases positionOf? h' ys.size b with
  | none => exact .none
  | some i => exact hxs.getElem? i

/-- By the kind of the container and by how it is indexed. -/
theorem subscripted_like {o o' : Obj} (ho : o.Like β o') (hv : v.Like β w) :
    ResultLike (PickedLike β) (subscripted h o v) (subscripted h' o' w) := by
  -- a position or a list of positions, in a list or a text, or the key of a dictionary
  cases ho with
  | @list xs ys hxs =>
    have hlist := hl.listOf? hv
    unfold subscripted
    dsimp only
    rw [hl.numeric?_eq hv, hxs.size_eq]
    cases h'.numeric? w with
    | some x =>
      dsimp only
      cases position? x ys.size with
      | none => exact .error _
      | some i =>
        have hitem := hxs.getElem? i
        rw [Option.bind_some, Option.bind_some]
        generalize xs[i]? = a, ys[i]? = b at hitem
        cases hitem with
        | some hab => exact .ok (.value hab)
        | none => exact .error _
    | none =>
      generalize h.listOf? v = a, h'.listOf? w = b at hlist
      cases hlist with
      | none => exact .error _
      | @some is js his =>
        have hpicked := pickedItems_like hl hxs his
        dsimp only
        generalize Array.mapM (m := Option) _ is = a, Array.mapM (m := Option) _ js = b at hpicked
        cases hpicked with
        | some hxs => exact .ok (.items hxs)
        | none => exact .error _
  | string text hash =>
    unfold subscripted
    dsimp only
    rw [pickedText?_eq hl text hv]
    split
    · exact .ok (.text _)
    · exact .error _
  | dict hd =>
    unfold subscripted Dict.keyAt?
    dsimp only
    rw [hl.textOf?_eq hv, hl.numeric?_eq hv, hd.keys_eq]
    cases h'.textOf? w with
    | some key => exact .ok (.value ((hd.get? key).getD .none))
    | none =>
      cases h'.numeric? w with
      | none => exact .error _
      | some x =>
        dsimp only
        split
        · exact .ok (.text _)
        · exact .error _
  | _ => exact .error _

end Operands

end Exec

end ScriptMachine
