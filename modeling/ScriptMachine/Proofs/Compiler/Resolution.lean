import ScriptMachine.Proofs.Compiler.Places
import ScriptMachine.Proofs.Compiler.Scopes

/-!
# ScriptMachine.Proofs.Compiler.Resolution — names mean what the text around them declares

A name is the last local of that name in the function being compiled, else in the nearest function
around that has one, else it is global. A variable of a function around is reached through captures:
each function in between has one, that is either a local of the next function out or one of its
captures. What a capture *leads* to is read off by following these links outward.

Resolving a name changes the functions only by more captures and by marks on captured locals, so what
the captures lead to stays as it is.

`resolveVariable_resolves` is the result: the access a name is resolved to is that of the last local of
the name (`Declares`), of the nearest one around (`Nearest`, with `Leads` from the capture to it), or the
global of the name. `resolveCapture_run` carries it, by induction on how many functions are around: the
capture that the next function out has, or its local, is what a function captures. `State.Adds.leads`
is why a capture stays what it is whatever is resolved later.

A function has room for so many captures and no more. When there are too many an error is recorded and
the text is rejected; `Overfull` is that case, and nothing is claimed of where the capture leads then.
The last section says when a name is resolved without an error.
-/

namespace ScriptMachine.Compiler

variable {s s' s'' : State} {fs fs' : FunctionState} {name : String} {d e k slot : Nat} {c : Capture}

/-! ## The functions around -/

/-- One of the functions changes, if it is there. -/
theorem functionAt_modifyAt (d e : Nat) (f : FunctionState → FunctionState) (s : State) :
    (modifyFunctionAt d f s).2.functionAt e =
      if e = d ∧ d ≤ s.enclosing.length then f (s.functionAt e) else s.functionAt e := by
  cases d with
  | zero =>
    cases e with
    | zero => rfl
    | succ e => rw [if_neg (by simp)]; rfl
  | succ d =>
    cases e with
    | zero => rw [if_neg (by simp)]; rfl
    | succ e =>
      show (s.enclosing.modify d f).getD e default = if _ then f (s.enclosing.getD e default) else
        s.enclosing.getD e default
      rw [List.getD_eq_getElem?_getD, List.getD_eq_getElem?_getD, List.getElem?_modify]
      rcases Nat.lt_or_ge e s.enclosing.length with hlt | hge
      · rw [List.getElem?_eq_getElem hlt]
        by_cases hde : d = e
        · subst hde
          simp [Nat.succ_le_of_lt hlt]
        · have hed : e ≠ d := Ne.symm hde
          simp [hde, hed]
      · rw [List.getElem?_eq_none hge, if_neg (by omega)]
        rfl

theorem length_enclosing_modifyAt (d : Nat) (f : FunctionState → FunctionState) (s : State) :
    (modifyFunctionAt d f s).2.enclosing.length = s.enclosing.length := by
  cases d with
  | zero => rfl
  | succ d => exact List.length_modify ..

/-! ## Latest locals -/

/-- The name of the local in a slot. -/
def FunctionState.nameAt? (fs : FunctionState) (slot : Nat) : Option String :=
  fs.locals[slot]?.map (·.name)

/-- **`fs.Declares name slot`** — in the slot is the last local of the function that has the name. -/
def FunctionState.Declares (fs : FunctionState) (name : String) (slot : Nat) : Prop :=
  fs.nameAt? slot = some name ∧ ∀ j, slot < j → fs.nameAt? j ≠ some name

/-- A name is declared in one slot, the latest that has it. -/
theorem FunctionState.Declares.unique {slot' : Nat} (h : fs.Declares name slot)
    (h' : fs.Declares name slot') : slot = slot' := by
  rcases Nat.lt_trichotomy slot slot' with hlt | heq | hlt
  · exact absurd h'.1 (h.2 slot' hlt)
  · exact heq
  · exact absurd h.1 (h'.2 slot hlt)

theorem FunctionState.nameAt?_of_lt {i : Nat} (hi : i < fs.locals.size) :
    fs.nameAt? i = some (fs.locals[i]).name := by
  unfold FunctionState.nameAt?
  rw [Array.getElem?_eq_getElem hi]
  rfl

theorem FunctionState.Declares.lt (h : fs.Declares name slot) : slot < fs.locals.size := by
  by_contra hge
  have hnone := h.1
  unfold FunctionState.nameAt? at hnone
  rw [Array.getElem?_eq_none (Nat.le_of_not_lt hge)] at hnone
  cases hnone

/-- The slot that is found is that of the last local of the name. -/
theorem declares_of_latestLocal? (h : latestLocal? fs.locals name = some slot) :
    fs.Declares name slot := by
  obtain ⟨i, hi, rfl⟩ := Option.map_eq_some_iff.mp h
  obtain ⟨hlt, hfound, hbefore⟩ := List.findIdx?_eq_some_iff_getElem.mp hi
  have hat : ∀ j (hj : j < fs.locals.toList.reverse.length),
      fs.nameAt? (fs.locals.size - 1 - j) = some (fs.locals.toList.reverse[j]).name := by
    intro j hj
    have hj' : j < fs.locals.size := by simpa using hj
    rw [FunctionState.nameAt?_of_lt (by omega), List.getElem_reverse]
    simp
  refine ⟨?_, fun j hj => ?_⟩
  · rw [hat i hlt, eq_of_beq hfound]
  · rcases Nat.lt_or_ge j fs.locals.size with hj' | hj'
    · have hindex : fs.locals.size - 1 - (fs.locals.size - 1 - j) = j := by omega
      have hlt' : fs.locals.size - 1 - j < fs.locals.toList.reverse.length := by
        rw [List.length_reverse, Array.length_toList]
        omega
      have hname := hat (fs.locals.size - 1 - j) hlt'
      rw [hindex] at hname
      rw [hname]
      intro heq
      exact hbefore _ (by omega) (beq_of_eq (Option.some.inj heq))
    · unfold FunctionState.nameAt?
      rw [Array.getElem?_eq_none hj']
      exact nofun

/-- Without one there is no local of the name. -/
theorem not_declares_of_latestLocal? (h : latestLocal? fs.locals name = none) :
    ¬ fs.Declares name slot := by
  intro hdeclares
  have hnone := List.findIdx?_eq_none_iff.mp (Option.map_eq_none_iff.mp h)
  have hlt := hdeclares.lt
  have hmem : fs.locals[slot] ∈ fs.locals.toList.reverse := by simp
  have hname := hdeclares.1
  rw [FunctionState.nameAt?_of_lt hlt] at hname
  have hne := hnone _ hmem
  rw [Option.some.inj hname, beq_self_eq_true] at hne
  cases hne

/-! ## What resolving a name changes -/

/-- The names and scopes of the locals. -/
def FunctionState.declared (fs : FunctionState) : Array (String × Option Nat) :=
  fs.locals.map fun l => (l.name, l.depth)

/-- **`fs.Adds fs'`** — the function has the same code, but more captures and constants, and marks on
some of its locals. -/
structure FunctionState.Adds (fs fs' : FunctionState) : Prop where
  code : fs'.chunk.code = fs.chunk.code
  captures : fs.captures.toList <+: fs'.captures.toList
  constants : fs.chunk.constants.toList <+: fs'.chunk.constants.toList
  declared : fs'.declared = fs.declared
  marks : ∀ j, fs.Flagged j → fs'.Flagged j

/-- **`s.Adds s'`** — so does each of the functions, and an error that was being recovered from still
is. -/
structure State.Adds (s s' : State) : Prop where
  functions : ∀ d, (s.functionAt d).Adds (s'.functionAt d)
  outer : s'.enclosing.length = s.enclosing.length
  alarmed : s.panicking = true → s'.panicking = true

/-- A change to other fields. -/
theorem FunctionState.Adds.of_same (hcaptures : fs'.captures = fs.captures)
    (hchunk : fs'.chunk = fs.chunk) (hlocals : fs'.locals = fs.locals) : fs.Adds fs' where
  code := hchunk ▸ rfl
  captures := hcaptures ▸ List.prefix_rfl
  constants := hchunk ▸ List.prefix_rfl
  declared := by
    unfold FunctionState.declared
    rw [hlocals]
  marks j h := by
    unfold FunctionState.Flagged
    rw [hlocals]
    exact h

theorem FunctionState.adds_refl (fs : FunctionState) : fs.Adds fs :=
  .of_same rfl rfl rfl

theorem State.adds_refl (s : State) : s.Adds s :=
  ⟨fun _ => FunctionState.adds_refl _, rfl, id⟩

theorem FunctionState.Adds.trans {fs'' : FunctionState} (h : fs.Adds fs') (h' : fs'.Adds fs'') :
    fs.Adds fs'' :=
  ⟨h'.code.trans h.code, h.captures.trans h'.captures, h.constants.trans h'.constants,
    h'.declared.trans h.declared, fun j hj => h'.marks j (h.marks j hj)⟩

theorem State.Adds.trans (h : s.Adds s') (h' : s'.Adds s'') : s.Adds s'' :=
  ⟨fun d => (h.functions d).trans (h'.functions d), h'.outer.trans h.outer,
    fun halarmed => h'.alarmed (h.alarmed halarmed)⟩

/-- Locals keep their names and places. -/
theorem FunctionState.Adds.nameAt? (h : fs.Adds fs') (j : Nat) : fs'.nameAt? j = fs.nameAt? j := by
  have hnames : ∀ fs : FunctionState, fs.nameAt? j = (fs.declared[j]?).map Prod.fst := by
    intro fs
    unfold FunctionState.nameAt? FunctionState.declared
    rw [Array.getElem?_map, Option.map_map]
    rfl
  rw [hnames, hnames, h.declared]

/-- The names are as before, so the last local of a name is. -/
theorem FunctionState.Adds.declares (h : fs.Adds fs') :
    fs'.Declares name slot ↔ fs.Declares name slot := by
  unfold FunctionState.Declares
  simp only [h.nameAt?]

/-- A step that changes the functions in no other way. -/
def Adding {α : Type} (c : Compile α) : Prop :=
  ∀ s : State, s.Adds (c s).2

variable {α β : Type}

@[grind ←]
theorem Adding.pure (a : α) : Adding (Pure.pure a : Compile α) :=
  State.adds_refl

/-- Adding one thing after the other. -/
@[grind ←]
theorem Adding.bind {c : Compile α} {f : α → Compile β} (hc : Adding c) (hf : ∀ a, Adding (f a)) :
    Adding (c >>= f) :=
  fun s => (hc s).trans (hf _ _)

@[grind ←]
theorem Adding.get {f : State → Compile β} (hf : ∀ s, Adding (f s)) :
    Adding (MonadState.get >>= f) :=
  fun s => hf s s

/-- A change to one function that only adds. -/
theorem modifyFunctionAt_adding {f : FunctionState → FunctionState}
    (h : ∀ fs : FunctionState, fs.Adds (f fs)) (d : Nat) : Adding (modifyFunctionAt d f) := by
  refine fun s => ⟨fun e => ?_, length_enclosing_modifyAt d f s, fun halarmed => ?_⟩
  · rw [functionAt_modifyAt]
    split
    · exact h _
    · exact FunctionState.adds_refl _
  · cases d <;> exact halarmed

@[grind ←]
theorem modifyFunction_adding {f : FunctionState → FunctionState}
    (h : ∀ fs : FunctionState, fs.Adds (f fs)) : Adding (modifyFunction f) :=
  modifyFunctionAt_adding h 0

theorem adds_errorAt (s : State) (t : Token) (message : String) : s.Adds (s.errorAt t message) := by
  unfold State.errorAt
  split
  · exact s.adds_refl
  · exact ⟨fun d => by cases d <;> exact FunctionState.adds_refl _, rfl, fun _ => rfl⟩

@[grind ←]
theorem error_adding (message : String) : Adding (error message) :=
  fun s => adds_errorAt s s.previous message

/-- After an error one is being recovered from. -/
theorem panicking_error (message : String) (s : State) : (error message s).2.panicking = true := by
  show (s.errorAt s.previous message).panicking = true
  unfold State.errorAt
  split
  · assumption
  · rfl

@[grind ←]
theorem demand_adding (p : Prop) [Decidable p] : Adding (demand p) :=
  fun _ => ⟨fun d => by cases d <;> exact FunctionState.adds_refl _, rfl, id⟩

/-- As long as there is room a constant gets the next index. -/
theorem makeConstant_eq {v : Value} (h : s.function.chunk.isFull = false) :
    makeConstant v s = (s.function.chunk.constants.size,
      { s with function := { s.function with chunk := s.function.chunk.pushConstant v } }) := by
  show ((if s.function.chunk.isFull then _ else _ : Compile Nat) s) = _
  rw [h, if_neg Bool.false_ne_true]
  rfl

@[grind ←]
theorem makeConstant_adding (v : Value) : Adding (makeConstant v) := by
  refine .get fun s => .get fun _ => ?_
  split
  · exact .bind (error_adding _) fun _ => .pure _
  · refine .bind (modifyFunction_adding fun fs => ?_) fun _ => .pure _
    refine ⟨rfl, List.prefix_rfl, ?_, rfl, fun _ h => h⟩
    show _ <+: (fs.chunk.constants.push v).toList
    rw [Array.toList_push]
    exact List.prefix_append ..

@[grind ←]
theorem addItem_adding (item : Item) : Adding (addItem item) :=
  fun _ => ⟨fun d => by cases d <;> exact FunctionState.adds_refl _, rfl, id⟩

@[grind ←]
theorem nameConstant_adding (name : String) : Adding (nameConstant name) := by
  refine .bind (addItem_adding _) fun r => .get fun s => ?_
  split
  · exact .pure _
  · exact .bind (makeConstant_adding _) fun _ =>
      .bind (modifyFunction_adding fun fs => .of_same rfl rfl rfl) fun _ => .pure _

/-! ## Where captures lead -/

/-- **`s.Leads d k e slot`** — the capture `k` of the function `d` levels out leads, along the captures
of the functions around that one, to the local in `slot` of the function `e` levels out. -/
inductive State.Leads (s : State) : (depth index target slot : Nat) → Prop
  | here {d k slot : Nat} (hc : (s.functionAt d).captures[k]? = some ⟨true, slot⟩) :
      State.Leads s d k (d + 1) slot
  | further {d k j e slot : Nat} (hc : (s.functionAt d).captures[k]? = some ⟨false, j⟩)
      (h : State.Leads s (d + 1) j e slot) : State.Leads s d k e slot

/-- A capture leads to one local. -/
theorem State.Leads.unique {e' slot' : Nat} (h : s.Leads d k e slot) (h' : s.Leads d k e' slot') :
    e = e' ∧ slot = slot' := by
  induction h with
  | here hc =>
    cases h' with
    | here hc' => simp_all
    | further hc' => simp_all
  | further hc _ ih =>
    cases h' with
    | here hc' => simp_all
    | further hc' h' =>
      refine ih ?_
      simp_all

theorem State.Leads.lt (h : s.Leads d k e slot) : d < e := by
  induction h with
  | here => exact Nat.lt_succ_self _
  | further _ _ ih => exact Nat.lt_of_succ_lt ih

/-- Links lead on to where they led as long as captures are only added. -/
theorem State.Leads.mono
    (h : ∀ d, (s.functionAt d).captures.toList <+: (s'.functionAt d).captures.toList)
    (hl : s.Leads d k e slot) : s'.Leads d k e slot := by
  have hcaptures : ∀ {d k : Nat} {c : Capture}, (s.functionAt d).captures[k]? = some c →
      (s'.functionAt d).captures[k]? = some c := by
    intro d k c hc
    obtain ⟨more, hmore⟩ := h d
    rw [← Array.getElem?_toList] at hc ⊢
    rw [← hmore, List.getElem?_append_left (List.getElem?_eq_some_iff.mp hc).1]
    exact hc
  induction hl with
  | here hc => exact .here (hcaptures hc)
  | further hc _ ih => exact .further (hcaptures hc) ih

/-- Captures that are there already lead where they led. -/
theorem State.Adds.leads (h : s.Adds s') (hl : s.Leads d k e slot) : s'.Leads d k e slot :=
  hl.mono fun d => (h.functions d).captures

/-- **`s.Nearest name d e slot`** — of the functions around the one `d` levels out, the nearest that
has a local of the name is `e` levels out, and the last such local is in `slot`. -/
structure State.Nearest (s : State) (name : String) (d e slot : Nat) : Prop where
  outside : d < e
  within : e ≤ s.enclosing.length
  declares : (s.functionAt e).Declares name slot
  between : ∀ i, d < i → i < e → ∀ j, ¬ (s.functionAt i).Declares name j

/-- A name means one variable. -/
theorem State.Nearest.unique {e' slot' : Nat} (h : s.Nearest name d e slot)
    (h' : s.Nearest name d e' slot') : e = e' ∧ slot = slot' := by
  obtain rfl : e = e' := by
    rcases Nat.lt_trichotomy e e' with hlt | heq | hlt
    · exact absurd h.declares (h'.between e h.outside hlt slot)
    · exact heq
    · exact absurd h'.declares (h.between e' h'.outside hlt slot')
  exact ⟨rfl, h.declares.unique h'.declares⟩

/-- What is added does not change what a name means. -/
theorem State.Adds.nearest (h : s.Adds s') : s'.Nearest name d e slot ↔ s.Nearest name d e slot := by
  have hdeclares : ∀ i j, (s'.functionAt i).Declares name j ↔ (s.functionAt i).Declares name j :=
    fun i j => (h.functions i).declares
  constructor
  · rintro ⟨houtside, hwithin, hlocal, hbetween⟩
    exact ⟨houtside, h.outer ▸ hwithin, (hdeclares _ _).mp hlocal,
      fun i hi hi' j hj => hbetween i hi hi' j ((hdeclares _ _).mpr hj)⟩
  · rintro ⟨houtside, hwithin, hlocal, hbetween⟩
    exact ⟨houtside, h.outer.symm ▸ hwithin, (hdeclares _ _).mpr hlocal,
      fun i hi hi' j hj => hbetween i hi hi' j ((hdeclares _ _).mp hj)⟩

/-- **`s.Overfull`** — a function has as many captures as there may be, and an error is being recovered
from. -/
def State.Overfull (s : State) : Prop :=
  s.panicking = true ∧ ∃ d, maxSlots ≤ (s.functionAt d).captures.size

/-- What was too much stays so. -/
theorem State.Adds.overfull (h : s.Adds s') (ho : s.Overfull) : s'.Overfull := by
  obtain ⟨halarmed, d, hd⟩ := ho
  have hsize := (h.functions d).captures.length_le
  rw [Array.length_toList, Array.length_toList] at hsize
  exact ⟨h.alarmed halarmed, d, Nat.le_trans hd hsize⟩

/-! ## Resolving -/

@[grind ←]
theorem resolveLocal_adding (d : Nat) (name : String) : Adding (resolveLocal d name) := by
  refine .get fun s => .bind (demand_adding _) fun _ => ?_
  have huse : Adding (modifyFunctionAt d fun fs => { fs with argsUsed := true }) := by
    refine modifyFunctionAt_adding (fun fs => ?_) d
    exact .of_same rfl rfl rfl
  dsimp only
  grind

/-- The slot is that of the last local of the name. -/
theorem resolveLocal_fst (d : Nat) (name : String) (s : State) :
    (resolveLocal d name s).1 = latestLocal? (s.functionAt d).locals name := by
  have hget : ∀ f : State → Compile (Option Nat), (get >>= f) s = f s s := fun _ => rfl
  unfold resolveLocal
  rw [hget]
  dsimp only
  rw [bind_run]
  cases latestLocal? (s.functionAt d).locals name with
  | none => rfl
  | some slot =>
    dsimp only
    rw [bind_run]
    split <;> split <;> rfl

theorem FunctionState.adds_push_capture (fs : FunctionState) (c : Capture) :
    fs.Adds { fs with captures := fs.captures.push c } :=
  ⟨rfl, by simp, List.prefix_rfl, rfl, fun _ h => h⟩

@[grind ←]
theorem addCapture_adding (d : Nat) (c : Capture) : Adding (addCapture d c) := by
  refine .get fun s => .bind (demand_adding _) fun _ => ?_
  have hpush : Adding (modifyFunctionAt d fun fs => { fs with captures := fs.captures.push c }) :=
    modifyFunctionAt_adding (fun fs => fs.adds_push_capture c) d
  dsimp only
  grind

/-- A function has the capture afterwards. -/
theorem addCapture_run (c : Capture) (hd : d ≤ s.enclosing.length) :
    ((addCapture d c s).2.functionAt d).captures[(addCapture d c s).1]? = some c ∨
      (addCapture d c s).2.Overfull := by
  have hget : ∀ f : State → Compile Nat, (get >>= f) s = f s s := fun _ => rfl
  have hadding := addCapture_adding d c s
  unfold addCapture at hadding ⊢
  rw [hget] at hadding ⊢
  dsimp only at hadding ⊢
  rw [bind_run, demand_of hd] at hadding ⊢
  dsimp only at hadding ⊢
  cases hfound : (s.functionAt d).captures.findIdx? (· == c) with
  | some index =>
    obtain ⟨hlt, heq, -⟩ := Array.findIdx?_eq_some_iff_getElem.mp hfound
    refine .inl ?_
    show (s.functionAt d).captures[index]? = some c
    rw [Array.getElem?_eq_getElem hlt, eq_of_beq heq]
  | none =>
    dsimp only
    rw [hfound] at hadding
    split
    · rename_i hfull
      dsimp only at hadding
      rw [if_pos hfull] at hadding
      refine .inr ⟨panicking_error .., d, ?_⟩
      have hsize := (hadding.functions d).captures.length_le
      rw [Array.length_toList, Array.length_toList] at hsize
      exact Nat.le_trans hfull hsize
    · refine .inl ?_
      show ((modifyFunctionAt d _ s).2.functionAt d).captures[(s.functionAt d).captures.size]? = _
      rw [functionAt_modifyAt, if_pos ⟨rfl, hd⟩]
      exact Array.getElem?_push_size

/-- A mark on a local. -/
theorem FunctionState.adds_mark (fs : FunctionState) (slot : Nat) :
    fs.Adds { fs with locals := fs.locals.modify slot fun l => { l with captured := true } } := by
  refine ⟨rfl, List.prefix_rfl, List.prefix_rfl, ?_, fun j ⟨l, hl, hcaptured⟩ => ?_⟩
  · unfold FunctionState.declared
    refine Array.ext_getElem? fun j => ?_
    rw [Array.getElem?_map, Array.getElem?_map, Array.getElem?_modify]
    split
    · cases fs.locals[j]? <;> rfl
    · rfl
  · unfold FunctionState.Flagged
    dsimp only
    rw [Array.getElem?_modify]
    split
    · exact ⟨_, Option.map_eq_some_iff.mpr ⟨l, hl, rfl⟩, rfl⟩
    · exact ⟨l, hl, hcaptured⟩

/-- **`s.Reaches d k e slot`** — the capture leads to the local, which has its mark; unless there were
too many captures. -/
def State.Reaches (s : State) (d k e slot : Nat) : Prop :=
  s.Leads d k e slot ∧ (s.functionAt e).Flagged slot ∨ s.Overfull

/-- Marks the local in a slot. -/
def mark (d slot : Nat) : Compile Unit :=
  modifyFunctionAt d fun fs =>
    { fs with locals := fs.locals.modify slot fun l => { l with captured := true } }

@[grind ←]
theorem mark_adding (d slot : Nat) : Adding (mark d slot) :=
  modifyFunctionAt_adding (fun fs => fs.adds_mark slot) d

/-- The slot that is captured is marked so. -/
theorem flagged_mark (hd : d ≤ s.enclosing.length) (hslot : slot < (s.functionAt d).locals.size) :
    ((mark d slot s).2.functionAt d).Flagged slot := by
  unfold mark FunctionState.Flagged
  rw [functionAt_modifyAt, if_pos ⟨rfl, hd⟩, Array.getElem?_modify, if_pos rfl,
    Array.getElem?_eq_getElem hslot]
  exact ⟨_, rfl, rfl⟩

/-- A local of the next function out is captured. -/
theorem reaches_local (hd : d < s.enclosing.length)
    (hslot : slot < (s.functionAt (d + 1)).locals.size) :
    (addCapture d ⟨true, slot⟩ (mark (d + 1) slot s).2).2.Reaches d
      (addCapture d ⟨true, slot⟩ (mark (d + 1) slot s).2).1 (d + 1) slot := by
  have hmarked := flagged_mark hd hslot
  have hlength : (mark (d + 1) slot s).2.enclosing.length = s.enclosing.length :=
    (mark_adding (d + 1) slot s).outer
  have hadds := addCapture_adding d ⟨true, slot⟩ (mark (d + 1) slot s).2
  rcases addCapture_run ⟨true, slot⟩ (hlength.symm ▸ hd.le) with hc | hfull
  · exact .inl ⟨.here hc, (hadds.functions _).marks _ hmarked⟩
  · exact .inr hfull

/-- A capture of the next function out is captured. -/
theorem reaches_capture {j : Nat} (hd : d < s.enclosing.length) (hj : s.Reaches (d + 1) j e slot) :
    (addCapture d ⟨false, j⟩ s).2.Reaches d (addCapture d ⟨false, j⟩ s).1 e slot := by
  have hadds := addCapture_adding d ⟨false, j⟩ s
  rcases hj with ⟨hleads, hmarked⟩ | hfull
  · rcases addCapture_run ⟨false, j⟩ hd.le with hc | hfull
    · exact .inl ⟨.further hc (hadds.leads hleads), (hadds.functions _).marks _ hmarked⟩
    · exact .inr hfull
  · exact .inr (hadds.overfull hfull)

/-- By induction on the functions around. -/
@[grind ←]
theorem resolveCapture_adding (name : String) (d levels : Nat) :
    Adding (resolveCapture name d levels) := by
  induction levels generalizing d with
  | zero => exact .pure _
  | succ levels ih =>
    refine .bind (resolveLocal_adding _ _) fun found => ?_
    cases found with
    | some slot => exact .bind (mark_adding _ _) fun _ => .bind (addCapture_adding _ _) fun _ => .pure _
    | none =>
      refine .bind (ih _) fun found => ?_
      cases found with
      | some index => exact .bind (addCapture_adding _ _) fun _ => .pure _
      | none => exact .pure _

@[grind ←]
theorem resolveVariable_adding (name : String) : Adding (resolveVariable name) := by
  refine .bind (resolveLocal_adding _ _) fun found => ?_
  cases found with
  | some slot => exact .pure _
  | none =>
    refine .get fun s => .bind (resolveCapture_adding _ _ _) fun found => ?_
    cases found with
    | some index => exact .pure _
    | none => exact .bind (nameConstant_adding _) fun _ => .pure _

/-- **A captured variable is that of the nearest function around that has one of the name.** The
induction is on how many functions are around: each of those in between adds a link. -/
theorem resolveCapture_run (name : String) (levels : Nat) : ∀ (d : Nat) (s : State),
    d + levels = s.enclosing.length →
      match (resolveCapture name d levels s).1 with
      | none => ∀ e, d < e → e ≤ s.enclosing.length → ∀ j, ¬ (s.functionAt e).Declares name j
      | some k => ∃ e slot, s.Nearest name d e slot ∧
          (resolveCapture name d levels s).2.Reaches d k e slot := by
  induction levels with
  | zero =>
    intro d s hd e he he'
    omega
  | succ levels ih =>
    intro d s hd
    have hfst := resolveLocal_fst (d + 1) name s
    have hadds : s.Adds (resolveLocal (d + 1) name s).2 := resolveLocal_adding (d + 1) name s
    unfold resolveCapture
    rw [bind_run]
    rw [hfst]
    set s₁ := (resolveLocal (d + 1) name s).2
    cases hfound : latestLocal? (s.functionAt (d + 1)).locals name with
    | some slot =>
      -- the next function out has a local of the name
      have hdeclares := declares_of_latestLocal? hfound
      refine ⟨d + 1, slot, ⟨Nat.lt_succ_self d, by omega, hdeclares, fun i hi hi' => by omega⟩,
        reaches_local ?_ ?_⟩
      · rw [hadds.outer]
        omega
      · exact ((hadds.functions _).declares.mpr hdeclares).lt
    | none =>
      -- it has none, and captures the variable in turn if there is one further out
      have hnone : ∀ j, ¬ (s.functionAt (d + 1)).Declares name j :=
        fun j => not_declares_of_latestLocal? hfound
      have hrest := ih (d + 1) s₁ (by rw [hadds.outer]; omega)
      dsimp only
      rw [bind_run]
      cases hcapture : (resolveCapture name (d + 1) levels s₁).1 with
      | some j =>
        rw [hcapture] at hrest
        obtain ⟨e, slot, hnearest, hreaches⟩ := hrest
        have hnearest' := hadds.nearest.mp hnearest
        refine ⟨e, slot, ⟨Nat.lt_of_succ_lt hnearest'.outside, hnearest'.within, hnearest'.declares,
          fun i hi hi' => ?_⟩, reaches_capture ?_ hreaches⟩
        · rcases Nat.lt_or_ge (d + 1) i with hlt | hge
          · exact hnearest'.between i hlt hi'
          · obtain rfl : i = d + 1 := by omega
            exact hnone
        · rw [(resolveCapture_adding name (d + 1) levels s₁).outer, hadds.outer]
          omega
      | none =>
        rw [hcapture] at hrest
        intro e he he' j
        rcases Nat.lt_or_ge (d + 1) e with hlt | hge
        · exact fun hj => hrest e hlt (hadds.outer.symm ▸ he') j
            ((hadds.functions e).declares.mpr hj)
        · obtain rfl : e = d + 1 := by omega
          exact hnone j

/-- **`Resolves s name a s'`** — a name that is met in the state `s` and resolved, which leads to `s'`, is
accessed by `a`: as the last local of the name, or through a capture that leads to the last local of
the name in the nearest function around, or else as the global of the name. -/
inductive Resolves (s : State) (name : String) : Access → State → Prop
  | here {s' : State} {slot : Nat} (h : s.function.Declares name slot) :
      Resolves s name ⟨.getLocal, .setLocal, slot⟩ s'
  | around {s' : State} {k e slot : Nat} (hnone : ∀ j, ¬ s.function.Declares name j)
      (h : s.Nearest name 0 e slot) (hk : s'.Reaches 0 k e slot) :
      Resolves s name ⟨.getUpvalue, .setUpvalue, k⟩ s'
  | nowhere {s' : State} {k : Nat}
      (hnone : ∀ e ≤ s.enclosing.length, ∀ j, ¬ (s.functionAt e).Declares name j)
      (hk : s'.function.nameConstants[name]? = some k) :
      Resolves s name ⟨.getGlobal, .setGlobal, k⟩ s'

/-- The name has its constant afterwards. -/
theorem nameConstant_run (name : String) (s : State) :
    (nameConstant name s).2.function.nameConstants[name]? = some (nameConstant name s).1 := by
  have hget : ∀ (f : State → Compile Nat) (s : State), (get >>= f) s = f s s := fun _ _ => rfl
  unfold nameConstant
  rw [bind_run, hget]
  cases hfound : (intern name s).2.function.nameConstants[name]? with
  | some index => exact hfound
  | none => exact Std.TreeMap.getElem?_insert_self

/-- A local, a captured variable or a global, in this order. -/
theorem resolveVariable_resolves (name : String) (s : State) :
    Resolves s name (resolveVariable name s).1 (resolveVariable name s).2 := by
  have hget : ∀ (f : State → Compile Access) (s : State), (get >>= f) s = f s s := fun _ _ => rfl
  have hadds : s.Adds (resolveLocal 0 name s).2 := resolveLocal_adding 0 name s
  unfold resolveVariable
  rw [bind_run, resolveLocal_fst]
  set s₁ := (resolveLocal 0 name s).2
  cases hfound : latestLocal? (s.functionAt 0).locals name with
  | some slot => exact .here (declares_of_latestLocal? hfound)
  | none =>
    have hnone : ∀ j, ¬ s.function.Declares name j := fun j => not_declares_of_latestLocal? hfound
    have hcapture := resolveCapture_run name s₁.enclosing.length 0 s₁ (Nat.zero_add _)
    dsimp only
    rw [hget, bind_run]
    cases hfst : (resolveCapture name 0 s₁.enclosing.length s₁).1 with
    | some k =>
      rw [hfst] at hcapture
      obtain ⟨e, slot, hnearest, hreaches⟩ := hcapture
      exact .around hnone (hadds.nearest.mp hnearest) hreaches
    | none =>
      rw [hfst] at hcapture
      dsimp only
      rw [bind_run]
      refine .nowhere (fun e he j hj => ?_) (nameConstant_run ..)
      cases e with
      | zero => exact hnone j hj
      | succ e =>
        exact hcapture (e + 1) (Nat.succ_pos e) (hadds.outer.symm ▸ he) j
          ((hadds.functions _).declares.mpr hj)

/-! ## Names that can be read -/

/-- **`s.Spare`** — there may be more constants, and more captures of each function. -/
structure State.Spare (s : State) : Prop where
  constants : s.function.chunk.constants.size < Chunk.maxConstants
  captures : ∀ d, (s.functionAt d).captures.size < maxSlots

/-- **`s.Readable name`** — if the name is that of a local, of the function being compiled or of one
around, then it has its value: its initializer has been compiled. -/
def State.Readable (s : State) (name : String) : Prop :=
  ∀ e slot, (∀ i < e, ∀ j, ¬ (s.functionAt i).Declares name j) →
    (s.functionAt e).Declares name slot → (s.functionAt e).HasValue slot

/-- Room that is left now was left before. -/
theorem State.Adds.spare (h : s.Adds s') (hs : s'.Spare) : s.Spare := by
  have hsize : ∀ {ι : Type} {a b : Array ι}, a.toList <+: b.toList → a.size ≤ b.size :=
    fun hprefix => by simpa using hprefix.length_le
  exact ⟨Nat.lt_of_le_of_lt (hsize (h.functions 0).constants) hs.constants,
    fun d => Nat.lt_of_le_of_lt (hsize (h.functions d).captures) (hs.captures d)⟩

theorem FunctionState.Adds.hasValue (h : fs.Adds fs') : fs'.HasValue slot ↔ fs.HasValue slot := by
  have hvalue : ∀ fs : FunctionState,
      fs.HasValue slot ↔ ∃ p ∈ fs.declared[slot]?, p.2.isSome = true := by
    intro fs
    unfold FunctionState.HasValue FunctionState.declared
    rw [Array.getElem?_map]
    cases fs.locals[slot]? <;> simp
  rw [hvalue, hvalue, h.declared]

theorem State.Adds.readable (h : s.Adds s') (hs : s.Readable name) : s'.Readable name := by
  intro e slot hbefore hdeclares
  refine (h.functions e).hasValue.mpr (hs e slot (fun i hi j hj => ?_) ?_)
  · exact hbefore i hi j ((h.functions i).declares.mpr hj)
  · exact (h.functions e).declares.mp hdeclares

/-! ## An instruction -/

theorem functionAt_emit (op : Operation) (first second : Nat) (s : State) (d : Nat) :
    ((emit op first second s).2.functionAt d).captures = (s.functionAt d).captures ∧
      ((emit op first second s).2.functionAt d).locals = (s.functionAt d).locals := by
  cases d <;> exact ⟨rfl, rfl⟩

theorem constants_emitted (op : Operation) (first second : Nat) (s : State) :
    (emit op first second s).2.function.chunk.constants = s.function.chunk.constants :=
  Chunk.constants_emit ..

theorem code_emitted (op : Operation) (first second : Nat) (s : State) :
    (emit op first second s).2.function.chunk.code.toList =
      s.function.chunk.code.toList ++ (Instruction.make op first second).encode :=
  Chunk.toList_emit ..

theorem spare_of_emit {op : Operation} {first second : Nat} (h : (emit op first second s).2.Spare) :
    s.Spare where
  constants := constants_emitted op first second s ▸ h.constants
  captures d := (functionAt_emit op first second s d).1 ▸ h.captures d

/-- Writing an instruction makes no name unreadable. -/
theorem readable_emit {op : Operation} {first second : Nat} (h : s.Readable name) :
    (emit op first second s).2.Readable name := by
  have hlocals := fun i => (functionAt_emit op first second s i).2
  have hdeclares : ∀ i j, ((emit op first second s).2.functionAt i).Declares name j ↔
      (s.functionAt i).Declares name j := by
    intro i j
    unfold FunctionState.Declares FunctionState.nameAt?
    rw [hlocals]
  intro e slot hbefore hhere
  have hvalue := h e slot (fun i hi j hj => hbefore i hi j ((hdeclares i j).mpr hj))
    ((hdeclares e slot).mp hhere)
  unfold FunctionState.HasValue at hvalue ⊢
  rw [hlocals]
  exact hvalue

/-! ## Resolving without errors -/

theorem errors_modifyAt (d : Nat) (f : FunctionState → FunctionState) (s : State) :
    (modifyFunctionAt d f s).2.errors = s.errors := by
  cases d <;> rfl

/-- A local that has its value is found without complaint. -/
theorem errors_resolveLocal
    (h : ∀ slot, (s.functionAt d).Declares name slot → (s.functionAt d).HasValue slot) :
    (resolveLocal d name s).2.errors = s.errors := by
  have hget : ∀ f : State → Compile (Option Nat), (get >>= f) s = f s s := fun _ => rfl
  unfold resolveLocal
  rw [hget]
  dsimp only
  rw [bind_run]
  cases hfound : latestLocal? (s.functionAt d).locals name with
  | none => rfl
  | some slot =>
    obtain ⟨l, hl, hdepth⟩ := h slot (declares_of_latestLocal? hfound)
    have hvalue : (((s.functionAt d).locals[slot]?).bind (·.depth)).isNone = false := by
      rw [Option.mem_def.mp hl]
      simpa using hdepth
    dsimp only
    rw [bind_run, hvalue]
    split
    · exact errors_modifyAt ..
    · rfl

/-- There is a complaint only when a function captures too many variables. -/
theorem errors_addCapture (h : (s.functionAt d).captures.size < maxSlots) :
    (addCapture d c s).2.errors = s.errors := by
  have hget : ∀ f : State → Compile Nat, (get >>= f) s = f s s := fun _ => rfl
  unfold addCapture
  rw [hget]
  dsimp only
  rw [bind_run]
  cases (s.functionAt d).captures.findIdx? (· == c) with
  | some index => rfl
  | none =>
    dsimp only
    rw [if_neg (Nat.not_le.mpr h)]
    exact errors_modifyAt ..

/-- The errors are the same if the capture has its place, and were before. -/
theorem errors_capture {s₀ : State} (hspare : (addCapture d c s).2.Spare) (h : s.errors = s₀.errors) :
    (addCapture d c s).2.errors = s₀.errors :=
  (errors_addCapture (((addCapture_adding d c s).spare hspare).captures d)).trans h

/-- By induction on the functions around. None of them is full, as there is room in the end. -/
theorem errors_resolveCapture (levels : Nat) : ∀ (d : Nat) (s : State), s.Readable name →
    (∀ i ≤ d, ∀ j, ¬ (s.functionAt i).Declares name j) →
      (resolveCapture name d levels s).2.Spare →
        (resolveCapture name d levels s).2.errors = s.errors := by
  induction levels with
  | zero => exact fun _ _ _ _ _ => rfl
  | succ levels ih =>
    intro d s hread hnone hspare
    have hadds : s.Adds (resolveLocal (d + 1) name s).2 := resolveLocal_adding (d + 1) name s
    have herrors : (resolveLocal (d + 1) name s).2.errors = s.errors :=
      errors_resolveLocal fun slot hslot =>
        hread (d + 1) slot (fun i hi => hnone i (Nat.le_of_lt_succ hi)) hslot
    unfold resolveCapture at hspare ⊢
    rw [bind_run, resolveLocal_fst] at hspare ⊢
    set s₁ := (resolveLocal (d + 1) name s).2
    cases hfound : latestLocal? (s.functionAt (d + 1)).locals name with
    | some slot =>
      rw [hfound] at hspare
      exact errors_capture hspare herrors
    | none =>
      rw [hfound] at hspare
      dsimp only at hspare ⊢
      rw [bind_run] at hspare ⊢
      -- no function up to the next one out declares the name, so the search goes on there
      have hnone' : ∀ i ≤ d + 1, ∀ j, ¬ (s₁.functionAt i).Declares name j := by
        intro i hi j hj
        have hj' := (hadds.functions i).declares.mp hj
        rcases Nat.lt_or_ge d i with hlt | hge
        · obtain rfl : i = d + 1 := by omega
          exact not_declares_of_latestLocal? hfound hj'
        · exact hnone i hge j hj'
      have hrest := ih (d + 1) s₁ (hadds.readable hread) hnone'
      cases hcapture : (resolveCapture name (d + 1) levels s₁).1 with
      | some j =>
        rw [hcapture] at hspare
        exact errors_capture hspare
          ((hrest ((addCapture_adding d ⟨false, j⟩ _).spare hspare)).trans herrors)
      | none =>
        rw [hcapture] at hspare
        exact (hrest hspare).trans herrors

theorem errors_makeConstant {v : Value} (h : s.function.chunk.constants.size < Chunk.maxConstants) :
    (makeConstant v s).2.errors = s.errors := by
  rw [makeConstant_eq (by simpa [Chunk.isFull] using h)]

theorem errors_nameConstant (h : s.function.chunk.constants.size < Chunk.maxConstants) :
    (nameConstant name s).2.errors = s.errors := by
  have hget : ∀ (f : State → Compile Nat) (s : State), (get >>= f) s = f s s := fun _ _ => rfl
  unfold nameConstant
  rw [bind_run, hget]
  cases (intern name s).2.function.nameConstants[name]? with
  | some index => rfl
  | none =>
    have hintern : (intern name s).2.function.chunk.constants.size < Chunk.maxConstants := h
    dsimp only
    rw [bind_run]
    exact errors_makeConstant hintern

/-- A name that can be read is resolved without an error. -/
theorem errors_resolveVariable (h : s.Readable name) (hspare : (resolveVariable name s).2.Spare) :
    (resolveVariable name s).2.errors = s.errors := by
  have hget : ∀ (f : State → Compile Access) (s : State), (get >>= f) s = f s s := fun _ _ => rfl
  have hadds : s.Adds (resolveLocal 0 name s).2 := resolveLocal_adding 0 name s
  have herrors : (resolveLocal 0 name s).2.errors = s.errors :=
    errors_resolveLocal fun slot hslot => h 0 slot (fun i hi => absurd hi (Nat.not_lt_zero i)) hslot
  unfold resolveVariable at hspare ⊢
  rw [bind_run, resolveLocal_fst] at hspare ⊢
  set s₁ := (resolveLocal 0 name s).2
  cases hfound : latestLocal? (s.functionAt 0).locals name with
  | some slot => exact herrors
  | none =>
    rw [hfound] at hspare
    dsimp only at hspare ⊢
    rw [hget, bind_run] at hspare ⊢
    have hnone : ∀ i ≤ 0, ∀ j, ¬ (s₁.functionAt i).Declares name j := by
      intro i hi j hj
      obtain rfl := Nat.le_zero.mp hi
      exact not_declares_of_latestLocal? hfound ((hadds.functions 0).declares.mp hj)
    have hcapture := errors_resolveCapture s₁.enclosing.length 0 s₁ (hadds.readable h) hnone
    cases hfst : (resolveCapture name 0 s₁.enclosing.length s₁).1 with
    | some k =>
      rw [hfst] at hspare
      exact (hcapture hspare).trans herrors
    | none =>
      rw [hfst] at hspare
      dsimp only at hspare ⊢
      rw [bind_run] at hspare ⊢
      have hspare' := (nameConstant_adding name _).spare hspare
      exact (errors_nameConstant hspare'.constants).trans ((hcapture hspare').trans herrors)

end ScriptMachine.Compiler
