import Mathlib
import ScriptMachine.Proofs.Heap.Equality
import ScriptMachine.Proofs.Heap.Positions

/-!
# ScriptMachine.Proofs.Heap.Copies — values copied down to a level

A copy has something at the same positions as the original. Down to the last level that is copied it
has new objects where the original has containers, a new one for each position; everywhere else it has
what the original has. So a container that is shared within the original is copied once for each way
that leads to it, and one that contains itself is unrolled as far as the levels go.

Copying and comparing count levels alike. That is why a value equals its copy: where no level is left to
compare, none was left to copy either, and both sides refer to one object.

`Copies` says this of several values that are copied one after the other. Its lemmas follow the ways in
which copies come about: nothing is copied, one value before others, a value left as it is, and a
container built from the copies of its values.
-/

namespace ScriptMachine.Heap

/-- **`CopyOf h h' levels v c`** — `c` stands in a copy where the original has `v`, when so many levels
are left to copy: a new object for a container, and otherwise the value itself. -/
inductive CopyOf (h h' : Heap) : (levels : Nat) → Value → Value → Prop
  | shared {levels : Nat} {v : Value} (hv : levels = 0 ∨ ¬ h.IsContainer v) :
      CopyOf h h' levels v v
  | fresh {levels : Nat} {r s : Ref} {o o' : Obj} (ho : h.get? r = some o) (hc : o.isContainer = true)
      (hs : h.get? s = none) (ho' : h'.get? s = some o') (hkind : o'.kind = o.kind) :
      CopyOf h h' (levels + 1) (.obj r) (.obj s)

/-- **`Mirrors h h' levels v c`** — at every position, `c` has a copy of what `v` has. -/
def Mirrors (h h' : Heap) (levels : Nat) (v c : Value) : Prop :=
  ∀ p, Option.Rel (CopyOf h h' (levels - p.length)) (h.at? v p) (h'.at? c p)

/-- **`Apart h h' cs`** — a new object is at one position only, in one of the values only. -/
def Apart (h h' : Heap) (cs : List Value) : Prop :=
  ∀ (n n' : Nat) p q c d s, cs[n]? = some c → cs[n']? = some d → h.get? s = none →
    h'.at? c p = some (.obj s) → h'.at? d q = some (.obj s) → n = n' ∧ p = q

/-- **`Copies h h' levels vs cs`** — from `h` to `h'`, the values are copied one after the other. -/
structure Copies (h h' : Heap) (levels : Nat) (vs cs : List Value) : Prop where
  keeps : h.Keeps h'
  sound : h'.Sound
  valid : h'.DictsValid
  mirrors : List.Forall₂ (Mirrors h h' levels) vs cs
  apart : Apart h h' cs

variable {h h₁ h₂ h' : Heap} {levels : Nat} {v w c : Value} {vs cs : List Value} {r s : Ref}
  {o : Obj} {p : List Index}

/-! ## What stands in a copy -/

theorem Keeps.get?_eq_none (hk : h.Keeps h') (hr : h'.get? r = none) : h.get? r = none := by
  cases ho : h.get? r with
  | none => rfl
  | some o => rw [hk r o ho] at hr; cases hr

/-- A copy stays one while the heaps on both sides are only added to. -/
theorem CopyOf.extend (hk : h.Keeps h₁) (hv : h.Live v) (hc : CopyOf h₁ h₂ levels v c)
    (hk' : h₂.Keeps h') : CopyOf h h' levels v c := by
  cases hc with
  | shared hv => exact .shared (hv.imp_right fun hnot hc => hnot (hk.isContainer hc))
  | fresh ho hc hs ho' hkind =>
    obtain ⟨o₀, ho₀⟩ := live_obj.mp hv
    obtain rfl := Option.some.inj ((hk _ _ ho₀).symm.trans ho)
    exact .fresh ho₀ hc (hk.get?_eq_none hs) (hk' _ _ ho') hkind

/-- What a copy has, it has for something of the original. -/
theorem Mirrors.original (hm : Mirrors h h' levels v c) (hw : h'.at? c p = some w) :
    ∃ u, h.at? v p = some u ∧ CopyOf h h' (levels - p.length) u w := by
  have hrel := hm p
  rw [hw] at hrel
  cases hu : h.at? v p with
  | none => rw [hu] at hrel; cases hrel
  | some u =>
    rw [hu] at hrel
    cases hrel with
    | some hcopy => exact ⟨u, rfl, hcopy⟩

/-- The copy of a live value is live. -/
theorem Mirrors.live (hm : Mirrors h h' levels v c) (hk : h.Keeps h') (hv : h.Live v) :
    h'.Live c := by
  obtain ⟨u, hu, hcopy⟩ := hm.original (p := []) rfl
  obtain rfl := Option.some.inj hu
  cases hcopy with
  | shared => exact hk.evolves.live hv
  | fresh _ _ _ ho' => exact live_obj.mpr ⟨_, ho'⟩

/-- An object in a copy that was not in an earlier heap is one that copying made. -/
theorem Mirrors.fresh (hm : Mirrors h₁ h' levels v c) (hs : h.Sound) (hk : h.Keeps h₁)
    (hv : h.Live v) (hnew : h.get? s = none) (hat : h'.at? c p = some (.obj s)) :
    h₁.get? s = none := by
  obtain ⟨u, hu, hcopy⟩ := hm.original hat
  generalize levels - p.length = n at hcopy
  cases hcopy with
  | shared =>
    rw [hk.at? hs hv] at hu
    obtain ⟨o, ho⟩ := live_obj.mp (hs.live_at? hv hu)
    rw [hnew] at ho
    cases ho
  | fresh _ _ hs => exact hs

/-- Objects that are made before a copy or after it change nothing about it. -/
theorem Mirrors.extend (hs : h.Sound) (hv : h.Live v) (hk : h.Keeps h₁)
    (hm : Mirrors h₁ h₂ levels v c) (hs₂ : h₂.Sound) (hc : h₂.Live c) (hk' : h₂.Keeps h') :
    Mirrors h h' levels v c := by
  intro p
  rw [hk'.at? hs₂ hc]
  have hrel := hm p
  rw [hk.at? hs hv] at hrel
  exact hrel.mono fun u hu w hcopy => hcopy.extend hk (hs.live_at? hv hu) hk'

/-- What a copy has at an index is a copy of what the original has there. -/
theorem Mirrors.child (hm : Mirrors h h' (levels + 1) v c) (i : Index) :
    Option.Rel (Mirrors h h' levels) (h.child? v i) (h'.child? c i) := by
  have hstep := hm [i]
  have hbelow : ∀ p, Option.Rel (CopyOf h h' (levels - p.length))
      ((h.child? v i).bind (h.at? · p)) ((h'.child? c i).bind (h'.at? · p)) := fun p => by
    simpa [at?] using hm (i :: p)
  simp only [at?] at hstep
  generalize h.child? v i = a, h'.child? c i = b at hstep hbelow
  cases a <;> cases b
  · exact .none
  · cases hstep
  · cases hstep
  · exact .some hbelow

/-! ## How copies come about -/

/-- The copies of live values are live. -/
theorem Copies.live (hc : Copies h h' levels vs cs) (hvs : ∀ v ∈ vs, h.Live v) :
    ∀ c ∈ cs, h'.Live c := by
  intro c hmem
  obtain ⟨n, hn⟩ := List.mem_iff_getElem?.mp hmem
  have hrel := forall₂_iff_getElem?.mp hc.mirrors n
  rw [hn] at hrel
  generalize hv : vs[n]? = a at hrel
  cases hrel with
  | some hm => exact hm.live hc.keeps (hvs _ (List.mem_of_getElem? hv))

/-- Objects that are made before some copies or after them change nothing about these. -/
theorem Copies.mirrors_extend (hs : h.Sound) (hvs : ∀ v ∈ vs, h.Live v) (hk : h.Keeps h₁)
    (hc : Copies h₁ h₂ levels vs cs) (hk' : h₂.Keeps h') :
    List.Forall₂ (Mirrors h h' levels) vs cs := by
  rw [forall₂_iff_getElem?]
  intro n
  refine (forall₂_iff_getElem?.mp hc.mirrors n).mono fun v hv c hm => ?_
  have hv := hvs v (List.mem_of_getElem? hv)
  have hc' := hm.live hc.keeps (hk.evolves.live hv)
  exact hm.extend hs hv hk hc.sound hc' hk'

theorem Copies.nil (hs : h.Sound) (hd : h.DictsValid) : Copies h h levels [] [] :=
  ⟨.refl h, hs, hd, .nil, by simp [Apart]⟩

/-- A value that is left as it is. -/
theorem Copies.leaf (hs : h.Sound) (hd : h.DictsValid) (hv : h.Live v)
    (hshared : levels = 0 ∨ ¬ h.IsContainer v) : Copies h h levels [v] [v] := by
  refine ⟨.refl h, hs, hd, .cons (fun p => ?_) .nil, ?_⟩
  · cases hw : h.at? v p with
    | none => exact .none
    | some w =>
      refine .some (.shared ?_)
      cases p with
      | nil => exact Option.some.inj hw ▸ hshared
      | cons i p =>
        obtain ⟨u, hu, -⟩ := Option.bind_eq_some_iff.mp hw
        have hzero : levels = 0 := hshared.resolve_right (not_not_intro (isContainer_of_child? hu))
        exact .inl (by omega)
  · intro n n' p q c d s hc _ hnew hp _
    obtain rfl := List.mem_singleton.mp (List.mem_of_getElem? hc)
    obtain ⟨o, ho⟩ := live_obj.mp (hs.live_at? hv hp)
    rw [hnew] at ho
    cases ho

/-- **`Copies.cons`** — a value is copied, and then others are. -/
theorem Copies.cons (hs : h.Sound) (hv : h.Live v) (hvs : ∀ v ∈ vs, h.Live v)
    (hhead : Copies h h₁ levels [v] [c]) (htail : Copies h₁ h' levels vs cs) :
    Copies h h' levels (v :: vs) (c :: cs) := by
  have hlive : h₁.Live c := hhead.live (by simpa using hv) c List.mem_cons_self
  have hhead' := hhead.mirrors_extend hs (by simpa using hv) (.refl h) htail.keeps
  have hrest : ∀ (n : Nat) d, cs[n]? = some d → ∃ w ∈ vs, Mirrors h₁ h' levels w d := fun n d hd => by
    have hrel := forall₂_iff_getElem?.mp htail.mirrors n
    rw [hd] at hrel
    generalize hw : vs[n]? = a at hrel
    cases hrel with
    | some hm => exact ⟨_, List.mem_of_getElem? hw, hm⟩
  -- what is new in the tail came after the head was copied
  have hlater : ∀ (n : Nat) q d s, cs[n]? = some d → h.get? s = none → h'.at? d q = some (.obj s) →
      h₁.get? s = none := fun n q d s hd hnew hq => by
    obtain ⟨w, hw, hm⟩ := hrest n d hd
    exact hm.fresh hs hhead.keeps (hvs w hw) hnew hq
  have hcross : ∀ (n : Nat) p q d s, cs[n]? = some d → h.get? s = none → h'.at? c p = some (.obj s) →
      h'.at? d q ≠ some (.obj s) := fun n p q d s hd hnew hp hq => by
    rw [htail.keeps.at? hhead.sound hlive] at hp
    obtain ⟨o, ho⟩ := live_obj.mp (hhead.sound.live_at? hlive hp)
    rw [hlater n q d s hd hnew hq] at ho
    cases ho
  refine ⟨hhead.keeps.trans htail.keeps, htail.sound, htail.valid,
    .cons (List.forall₂_cons.mp hhead').1 (htail.mirrors_extend hs hvs hhead.keeps (.refl h')), ?_⟩
  intro n n' p q a b s ha hb hnew hp hq
  cases n with
  | zero =>
    obtain rfl := Option.some.inj ha
    cases n' with
    | zero =>
      obtain rfl := Option.some.inj hb
      rw [htail.keeps.at? hhead.sound hlive] at hp hq
      exact hhead.apart 0 0 p q c c s rfl rfl hnew hp hq
    | succ n' => exact absurd hq (hcross n' p q b s hb hnew hp)
  | succ n =>
    cases n' with
    | zero =>
      obtain rfl := Option.some.inj hb
      exact absurd hp (hcross n q p a s ha hnew hq)
    | succ n' =>
      obtain ⟨rfl, rfl⟩ :=
        htail.apart n n' p q a b s ha hb (hlater n p a s ha hnew hp) hp hq
      exact ⟨rfl, rfl⟩

/-- **`Copies.node`** — a container is built from the copies of its values, at the same indices. -/
theorem Copies.node {indices : List Index} (o' : Obj) (hs : h.Sound)
    (hc : Copies h h₁ levels vs cs) (hvs : ∀ v ∈ vs, h.Live v) (ho : h.get? r = some o)
    (hcont : o.isContainer = true) (hkind : o'.kind = o.kind)
    (hl : o.children.Lists (indices.zip vs)) (hl' : o'.children.Lists (indices.zip cs))
    (hsound : o'.Sound h₁) (hvalid : ∀ d, o' = .dict d → d.Valid) :
    Copies h (h₁.alloc o').2 (levels + 1) [.obj r] [.obj (h₁.alloc o').1] := by
  have htidy := hc.sound.tidy
  have hkeeps := htidy.keeps_alloc o'
  have hnew := htidy.get?_alloc_fst o'
  have hself := htidy.get?_alloc_self o'
  have hlive := hc.live hvs
  have hchildren : ∀ i, Option.Rel (Mirrors h (h₁.alloc o').2 levels) (o.children i) (o'.children i) :=
    hl.rel hl' (hc.mirrors_extend hs hvs (.refl h) hkeeps)
  generalize (h₁.alloc o').1 = t at hnew hself
  -- a position in the new container leads on from one of the copies
  have hplace : ∀ {i p u}, (h₁.alloc o').2.at? (.obj t) (i :: p) = some u →
      ∃ (n : Nat) (a : Value), indices[n]? = some i ∧ cs[n]? = some a ∧ h₁.at? a p = some u ∧ h₁.Live u := by
    intro i p u hu
    obtain ⟨a, ha, hu⟩ := Option.bind_eq_some_iff.mp hu
    rw [child?_obj hself, ← hl'.mem] at ha
    obtain ⟨n, hn⟩ := List.mem_iff_getElem?.mp ha
    obtain ⟨hi, ha⟩ := List.getElem?_zip_eq_some.mp hn
    have hla := hlive a (List.mem_of_getElem? ha)
    rw [hkeeps.at? hc.sound hla] at hu
    exact ⟨n, a, hi, ha, hu, hc.sound.live_at? hla hu⟩
  have hbelow : ∀ {i p}, (h₁.alloc o').2.at? (.obj t) (i :: p) ≠ some (.obj t) := fun hp => by
    obtain ⟨-, -, -, -, -, hlt⟩ := hplace hp
    obtain ⟨x, hx⟩ := live_obj.mp hlt
    rw [hnew] at hx
    cases hx
  refine ⟨hc.keeps.trans hkeeps, hc.sound.alloc hsound, hc.valid.alloc htidy hvalid,
    .cons (fun p => ?_) .nil, ?_⟩
  · cases p with
    | nil => exact .some (.fresh ho hcont (hc.keeps.get?_eq_none hnew) hself hkind)
    | cons i p =>
      unfold at?
      rw [child?_obj ho, child?_obj hself, List.length_cons, Nat.add_sub_add_right]
      exact (hchildren i).bind fun v c hm => hm p
  · intro n n' p q a b s ha hb hs hp hq
    obtain ⟨rfl, rfl⟩ : n = 0 ∧ n' = 0 := ⟨by simpa using (List.getElem?_eq_some_iff.mp ha).1,
      by simpa using (List.getElem?_eq_some_iff.mp hb).1⟩
    obtain rfl := Option.some.inj ha
    obtain rfl := Option.some.inj hb
    refine ⟨rfl, ?_⟩
    cases p with
    | nil =>
      obtain rfl := Value.obj.inj (Option.some.inj hp)
      cases q with
      | nil => rfl
      | cons => exact absurd hq hbelow
    | cons i p =>
      cases q with
      | nil =>
        obtain rfl := Value.obj.inj (Option.some.inj hq)
        exact absurd hp hbelow
      | cons j q =>
        obtain ⟨n, a, hi, ha, hp, -⟩ := hplace hp
        obtain ⟨n', b, hj, hb, hq, -⟩ := hplace hq
        obtain ⟨rfl, rfl⟩ := hc.apart n n' p q a b s ha hb hs hp hq
        rw [Option.some.inj (hi.symm.trans hj)]

/-! ## A value and its copy are equal -/

/-- **`h.NumbersTo n v`** — at the first `n` levels of positions, nothing fails to be a number that has
the type of one. -/
def NumbersTo (h : Heap) (n : Nat) (v : Value) : Prop :=
  ∀ p, p.length ≤ n → h.at? v p ≠ some (.number Float.nan)

/-- It is enough that the one number that differs from itself is nowhere in the heap. -/
theorem numbersTo_of_child? (hv : v ≠ .number Float.nan)
    (hchild : ∀ u i, h.child? u i ≠ some (.number Float.nan)) : h.NumbersTo levels v := by
  intro p hp hnan
  induction p generalizing v with
  | nil => exact hv (Option.some.inj hnan)
  | cons i p ih =>
    obtain ⟨u, hu, hnan⟩ := Option.bind_eq_some_iff.mp hnan
    exact ih (fun heq => hchild v i (heq ▸ hu)) (Nat.le_of_succ_le hp) hnan

theorem NumbersTo.child (hn : h.NumbersTo (levels + 1) v) {i : Index} (hw : h.child? v i = some w) :
    h.NumbersTo levels w := by
  intro p hp hnan
  refine hn (i :: p) (Nat.succ_le_succ hp) ?_
  rw [at?, hw]
  exact hnan

/-- Identity comes first, and what is no reference is compared by what it is. -/
theorem equalAt_self (hv : v ≠ .number Float.nan) : h.equalAt levels v v = true := by
  cases v with
  | none | bool => cases levels <;> simp [equalAt]
  | number x =>
    have hx : (x == x) = true := Float.beq_self_iff.mpr fun heq => hv (congrArg Value.number heq)
    cases levels <;> simpa [equalAt] using hx
  | obj r => cases levels <;> simp [equalAt]

/-- **`Mirrors.equalAt`** — what is copied down to some level equals the copy, compared down to the same
level, unless something on the way is not a number. -/
theorem Mirrors.equalAt (hd : h.DictsValid) (hd' : h'.DictsValid) (hk : h.Keeps h') :
    ∀ {levels : Nat} {v c : Value}, Mirrors h h' levels v c → h.NumbersTo levels v →
      h'.equalAt levels v c = true := by
  intro levels
  induction levels with
  | zero =>
    intro v c hm hnumbers
    obtain ⟨u, hu, hcopy⟩ := hm.original (p := []) rfl
    obtain rfl := Option.some.inj hu
    cases hcopy with
    | shared => exact equalAt_self fun heq => hnumbers [] (Nat.le_refl 0) (congrArg some heq)
  | succ levels ih =>
    intro v c hm hnumbers
    obtain ⟨u, hu, hcopy⟩ := hm.original (p := []) rfl
    obtain rfl := Option.some.inj hu
    cases hcopy with
    | shared => exact equalAt_self fun heq => hnumbers [] (Nat.zero_le _) (congrArg some heq)
    | @fresh _ r s o o' ho hc hs ho' hkind =>
      -- what the original has at an index, the copy has too, and one level less is compared
      have hchild : ∀ i, Option.Rel (fun a b => h'.equalAt levels a b = true)
          (o.children i) (o'.children i) := by
        intro i
        have hrel := hm.child i
        rw [child?_obj ho, child?_obj ho'] at hrel
        exact hrel.mono fun a ha b hm => ih hm (hnumbers.child ((child?_obj ho i).trans ha))
      rw [equalAt_obj]
      right
      cases o with
      | list l =>
        cases o' with
        | list l' =>
          refine .inl ⟨l, l', hk r _ ho, ho', forall₂_iff_getElem?.mpr fun n => ?_⟩
          rw [Array.getElem?_toList, Array.getElem?_toList]
          exact hchild (.item n)
        | _ => cases hkind
      | dict e =>
        cases o' with
        | dict e' =>
          have hentry : ∀ k, Option.Rel (fun a b => h'.equalAt levels a b = true)
            (e.get? k) (e'.get? k) := fun k => hchild (.entry k)
          refine .inr ⟨e, e', hk r _ ho, ho',
            (hd r e ho).size_eq (hd' s e' ho') fun k => (hentry k).isSome_eq, ?_⟩
          intro k a hmem
          have hrel := hentry k
          rw [(hd r e ho).get?_eq_some.mpr hmem] at hrel
          generalize e'.get? k = b at hrel
          cases hrel with
          | some hab => exact ⟨_, rfl, hab⟩
        | _ => cases hkind
      | _ => cases hc

/-! ## Copies down to the depth limit -/

/-- **`DeepCopy h h' v c`** — from `h` to `h'`, `v` is copied to `c`. All objects are as they were; the
copy equals the original and has something at the same positions; its containers down to the depth
limit are new, each at one position only; what lies deeper, and what is no container, is what the
original has at the same position. -/
structure DeepCopy (h h' : Heap) (v c : Value) : Prop where
  keeps : h.Keeps h'
  equal : h'.equal v c = true
  places : ∀ p, (h'.at? c p).isSome = (h.at? v p).isSome
  fresh : ∀ p s, p.length ≤ maxDepth → h'.at? c p = some (.obj s) → h'.IsContainer (.obj s) →
    h.get? s = none ∧ ∀ q, h'.at? c q = some (.obj s) → q = p
  shared : ∀ p w, h'.at? c p = some w → maxDepth < p.length ∨ ¬ h'.IsContainer w →
    h.at? v p = some w

/-- **`Copies.deepCopy`** — copying one level more than the depth limit says is a deep copy. -/
theorem Copies.deepCopy (hs : h.Sound) (hd : h.DictsValid) (hv : h.Live v)
    (hn : h.NumbersTo (maxDepth + 1) v) (hc : Copies h h' (maxDepth + 1) [v] [c]) :
    DeepCopy h h' v c := by
  have hm : Mirrors h h' (maxDepth + 1) v c := (List.forall₂_cons.mp hc.mirrors).1
  refine ⟨hc.keeps, hm.equalAt hd hc.valid hc.keeps hn, fun p => (hm p).isSome_eq.symm, ?_, ?_⟩
  · intro p s hp hat hcont
    obtain ⟨u, hu, hcopy⟩ := hm.original hat
    have hnew : h.get? s = none := by
      generalize hlevels : maxDepth + 1 - p.length = n at hcopy
      cases hcopy with
      | shared hshared =>
        obtain ⟨o, ho⟩ := live_obj.mp (hs.live_at? hv hu)
        rcases hshared with hzero | hnot
        · omega
        · rw [isContainer_obj ho] at hnot
          exact absurd ((isContainer_obj (hc.keeps s o ho)).mp hcont) hnot
      | fresh _ _ hs => exact hs
    exact ⟨hnew, fun q hq => (hc.apart 0 0 q p c c s rfl rfl hnew hq hat).2⟩
  · intro p w hat hw
    obtain ⟨u, hu, hcopy⟩ := hm.original hat
    generalize hlevels : maxDepth + 1 - p.length = n at hcopy
    cases hcopy with
    | shared => exact hu
    | fresh ho hcont hs ho' hkind =>
      rcases hw with hdeep | hnot
      · omega
      · exact absurd ((isContainer_obj ho').mpr (Obj.isContainer_of_kind hkind hcont)) hnot

end ScriptMachine.Heap
