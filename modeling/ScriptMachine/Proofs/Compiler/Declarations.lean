import ScriptMachine.Proofs.Compiler.Expressions

/-!
# ScriptMachine.Proofs.Compiler.Declarations — a declaration adds the locals it declares

The productions for variables, functions, classes and enumerations. At the top of a script a
declaration leaves the stack as it is; in a scope it leaves one slot more for each local.

A declaration at the top of a text makes a global and leaves the stack as it was; in a scope it makes a
local, and the stack is higher by one. The two cases run through all proofs here, and `declareType` is the
common part of classes and enumerations. What a class or an enumeration is at run time is settled by the
machine: here it is only a value in a slot with instructions that add to it.

That names of members do not collide is not checked by the compiler and not claimed.
-/

namespace ScriptMachine.Compiler

variable {tip : Tip} {v w : View} {vs : List View} {n m k : Nat} {s : State} {self : Recur} {K : Prop}

/-! ## Declarations -/

/-- A value that is left out is pushed as nothing, so there is one in any case. -/
theorem optionalValue_spec (h : Serves self n K) (hv : v.Ready) (hK : v.known → K) :
    Triple (Inv .plain (v.up k :: vs) n) (optionalValue self) fun _ =>
      Inv .plain (v.up (k + 1) :: vs) n := by
  refine .bind accept_spec fun _ => .ite (fun _ => h.value hv hK) fun _ => ?_
  exact emit_plain hv rfl (Nat.zero_le _)

/-- The view with some locals more or less is grown by some. -/
theorem View.grow_defined {i : Nat} : ∃ j, (v.grow i).defined = v.grow j := by
  unfold View.defined
  split
  · exact ⟨i, rfl⟩
  · exact ⟨i + 1, View.grow_grow⟩

theorem View.declared_known {g : Nat} (hknown : (v.declared g).known) : v.known := by
  unfold View.declared at hknown
  split at hknown
  · exact hknown.1
  · exact hknown

/-- Each name of a declaration is a new local, or a global and no local. -/
theorem varDeclaration_spec (h : Serves self n K) (hv : v.Settled) (hroom : v.Roomy)
    (hK : v.known → K) :
    Triple (Inv .plain (v :: vs) n) (varDeclaration self) fun _ s =>
      ∃ k, Inv .plain (v.grow k :: vs) n s := by
  refine .bind (Q := fun _ s => ∃ k, Inv .plain (v.grow k :: vs) n s) ?_ fun _ =>
    .exists_pre fun k => .bind accept_spec fun _ => .pure fun s hs => ⟨k, hs⟩
  refine Triple.pre (loop_spec (P := fun s => ∃ k, Inv .plain (v.grow k :: vs) n s)
    (.exists_pre fun k => ?_)) fun s hs => ⟨0, by rwa [View.grow_zero]⟩
  have hw := hv.grow hroom k
  refine .bind (parseVariable_spec hw.awaiting) fun g => ?_
  have hK' : ((v.grow k).declared g).known → K := fun hknown =>
    hK (View.declared_known (v := v.grow k) hknown)
  refine .bind (optionalValue_spec (k := 0) h hw.toReady.declared hK') fun _ => ?_
  refine .bind (defineVariable_spec hw) fun _ => accept_spec.post fun _ s hs => ?_
  obtain ⟨j, hj⟩ := View.grow_defined (v := v) (i := k)
  exact ⟨j, hj ▸ hs⟩

/-- A global is defined from the value on the stack. -/
theorem globalDeclaration_spec (h : Serves self n K) (hv : v.Ready) (hK : v.known → K) :
    Triple (Inv .plain (v :: vs) n) (globalDeclaration self) fun _ => Inv .plain (v :: vs) n := by
  refine .bind expect_spec fun _ => .bind (loop_spec ?_) fun _ =>
    .bind accept_spec fun _ => .pure fun s hs => hs
  refine .bind expect_spec fun _ => .bind previousText_skip fun _ => .bind nameConstant_spec fun g => ?_
  refine .bind skipTypeAnnotation_spec fun _ => ?_
  refine .bind (optionalValue_spec (k := 0) h (hv.name) fun hknown => hK hknown.1) fun _ => ?_
  refine .bind (emitNamed_spec (v := v.name g) hv rfl View.name_known (Nat.le_refl 1)) fun _ => ?_
  exact accept_spec.post fun _ s hs => Inv.forget (v := v.name g) hs .name

/-- An extension takes the function that was just made. -/
theorem extensionDeclaration_spec {type : String} (h : Serves self n K) (hv : v.Ready)
    (hK : v.known → K) :
    Triple (Inv .plain (v :: vs) n) (extensionDeclaration self type) fun _ =>
      Inv .plain (v :: vs) n := by
  have hpositive : 0 < v.height := Nat.lt_of_lt_of_le hv.receiver hv.values
  refine .bind nameConstant_spec fun t => .bind expect_spec fun _ => .bind previousText_skip fun _ => ?_
  refine .bind nameConstant_spec fun g => ?_
  have hw : ((v.name t).name g).Ready := hv
  refine .bind (functionBody_spec h hw.toUsable hpositive (fun hknown => hK hknown.1.1)
    (.inr ⟨rfl, hv.values⟩)) fun _ => ?_
  refine Triple.post (emitFresh_spec (k := 1) hw rfl rfl (by simp) (fun hknown =>
    ⟨⟨hknown.1.2, hknown.2, rfl⟩, ?_, ?_, ?_⟩) (Nat.le_refl 1)) fun _ s hs => Inv.forget (v := (v.name t).name g) hs (View.Weaker.name.trans .name)
  · simp [Instruction.make, Instruction.names, View.name]
  · simp [Operation.usesSlot]
  · simp [Operation.usesCapture]

/-- A declared function may be told once more that it has its value. -/
theorem defineVariable_again {g : Nat} (hv : v.awaiting = false) (hdepth : v.depth ≠ 0) :
    Triple (Inv tip (v.bound :: vs) n) (defineVariable g) fun _ => Inv tip (v.bound :: vs) n := by
  refine .get fun s₀ => .ite (fun _ => ?_) fun hpos => ?_
  · exact (markReady_again hv).pre fun _ hs => hs.1
  · refine emitInstruction_spec fun s hs => ?_
    exact absurd ((scopeDepth_pos (v := v.bound) hs).mpr hdepth) hpos

/-- A named function. A local one can refer to itself, so its slot counts before it is filled. -/
theorem namedFunction_spec {name : String} (h : Serves self n K) (hv : v.Settled) (hroom : v.Roomy)
    (hK : v.known → K) :
    Triple (Inv .plain (v :: vs) n) (namedFunction self name) fun _ =>
      Inv .plain (v.defined :: vs) n := by
  have hpositive : 0 < v.height := Nat.lt_of_lt_of_le hv.receiver hv.values
  refine .bind (declareVariable_spec hv.awaiting) fun _ => .get fun s₀ => ?_
  unfold View.declaring
  by_cases hdepth : v.depth = 0
  · have hafter : ∀ g, Triple (Inv .plain (v.name g :: vs) n)
        (do markReady; functionBody self .function name; defineVariable g) fun _ =>
        Inv .plain (v.defined :: vs) n := by
      intro g
      have hw : (v.name g).Ready := hv.toReady
      refine .bind (markReady_global (v := v.name g) hdepth) fun _ => ?_
      refine .bind (functionBody_spec h hw.toUsable hpositive (fun hknown => hK hknown.1) (.inl rfl))
        fun _ => (defineVariable_spec hv).pre fun s hs => ?_
      rw [View.declared, if_pos hdepth]
      exact hs
    simp only [if_pos hdepth]
    refine .ite (fun hpos => .bind (.pure fun s hs => ?_) hafter) fun _ => ?_
    · exact absurd hdepth ((scopeDepth_pos hs).mp hpos)
    · exact .bind (nameConstant_spec.pre fun s hs => hs.1) hafter
  · have hafter : ∀ g, Triple (Inv .plain (v.await :: vs) n)
        (do markReady; functionBody self .function name; defineVariable g) fun _ =>
        Inv .plain (v.defined :: vs) n := by
      intro g
      refine .bind (markReady_spec hv.awaiting hdepth) fun _ => ?_
      refine .bind (functionBody_spec h (hv.bound hroom) hpositive hK (.inl rfl)) fun _ => ?_
      rw [View.defined, if_neg hdepth]
      exact defineVariable_again (v := v.up 1) hv.awaiting hdepth
    simp only [if_neg hdepth]
    refine .ite (fun _ => .bind (.pure fun s hs => hs.1) hafter) fun _ => .bind (Triple.post
      (nameConstant_spec.pre fun s hs => hs.1) fun _ s hs => hs.forget .name) hafter

/-- A function is ready before its body is compiled, so that it can call itself. -/
theorem funcDeclaration_spec (h : Serves self n K) (hv : v.Settled) (hroom : v.Roomy)
    (hK : v.known → K) :
    Triple (Inv .plain (v :: vs) n) (funcDeclaration self) fun _ s =>
      ∃ k, Inv .plain (v.grow k :: vs) n s := by
  refine .bind acceptAny_spec fun _ => .ite (fun _ => ?_) fun _ => ?_
  · refine .bind previousText_skip fun name => .bind accept_spec fun _ => .ite (fun _ => ?_) fun _ => ?_
    · exact (extensionDeclaration_spec h hv.toReady hK).post fun _ s hs =>
        ⟨0, by rwa [View.grow_zero]⟩
    · refine .bind previousKind_skip fun _ => .ite (fun _ => ?_) fun _ => ?_
      · refine (namedFunction_spec h hv hroom hK).post fun _ s hs => ?_
        obtain ⟨j, hj⟩ := View.grow_defined (v := v) (i := 0)
        rw [View.grow_zero] at hj
        exact ⟨j, hj ▸ hs⟩
      · exact error_spec.post fun _ _ h => h.elim
  · exact errorAtCurrent_spec.post fun _ _ h => h.elim

/-! ## Classes and enumerations -/

/-- **`loop_consuming`** — a loop that goes on only after it has used up a token does not end for want
of passes. -/
theorem loop_consuming {body : Compile Bool}
    (h : ∀ m (p : Prop), (p → m ≤ n) → Triple (Inv .plain (w.know p :: vs) m) body fun again s =>
      if again then Inv .plain ((w.know p).know (1 ≤ m) :: vs) (m - 1) s
      else Inv .plain (v :: vs) n s) :
    Triple (Inv .plain (w :: vs) n) (loop body) fun _ => Inv .plain (v :: vs) n := by
  have hpasses : ∀ fuel m, Triple (Inv .plain (w.know (m ≤ n ∧ m < fuel) :: vs) m)
      (repeatWhile body fuel) fun _ => Inv .plain (v :: vs) n := by
    intro fuel
    induction fuel with
    | zero => exact fun m => .exhausted
    | succ fuel ih =>
      intro m
      refine .bind .tokensTaken fun _ => .bind (h m _ fun hp => hp.1) fun again => ?_
      cases again with
      | false => exact .pure fun s hs => by simpa using hs
      | true =>
        refine .bind .demandProgress fun _ => (ih (m - 1)).pre fun s hs => ?_
        rw [if_pos rfl] at hs
        refine hs.forget ⟨rfl, fun _ h => h, fun _ h => h, Nat.le_refl _, ?_⟩
        rintro ⟨⟨hknown, hmn, hfuel⟩, hm⟩
        exact ⟨hknown, by omega, by omega⟩
  refine .get fun s₀ => (hpasses s₀.budget s₀.rest.length).pre ?_
  rintro s ⟨hs, rfl⟩
  have hbudget := hs.budget
  have hexact : Inv .plain (w :: vs) s.rest.length s := { hs with rest := Nat.le_refl _ }
  exact hexact.know ⟨hs.rest, by omega⟩

/-- A property takes its default; the class that is below stays for the next one. -/
theorem property_spec {isStatic : Bool} {owner : String} (h : ∀ m, Serves self m (K ∧ m ≤ n))
    (hv : v.Ready) (hK : v.known → K) :
    Triple (Inv .plain (v.up 1 :: vs) n) (property self isStatic owner) fun again s =>
      if again then Inv .plain ((v.know (1 ≤ n)).up 1 :: vs) (n - 1) s
      else Inv .plain (v :: vs) n s := by
  refine .bind expect_spec fun _ => .bind previousText_skip fun _ => .bind nameConstant_spec fun g => ?_
  refine .bind skipTypeAnnotation_spec fun _ => ?_
  refine .bind (optionalValue_spec (v := v.name g) (k := 1) (h n) hv fun hknown =>
    ⟨hK hknown.1, Nat.le_refl n⟩) fun _ => ?_
  have hemit : Triple (Inv .plain ((v.name g).up 2 :: vs) n)
      (emit .member g (if isStatic = true then 1 else 0)) fun _ => Inv .plain (v :: vs) n := by
    refine Triple.post (emit_spec (v := v.name g) hv rfl (fun hknown => ⟨⟨hknown.2, ?_, rfl⟩, ?_, ?_, ?_⟩)
      (Nat.le_refl 2)) fun _ s hs => Inv.forget (v := v.name g) hs .name
    · show (if isStatic = true then 1 else 0) < 256
      split <;> decide
    · simp [Instruction.make, Instruction.names, View.name]
    · simp [Operation.usesSlot]
    · simp [Operation.usesCapture]
  refine .bind hemit fun _ => .bind (accept_consumes (by decide)) fun again => ?_
  cases again with
  | false => exact .pure fun s hs => by simpa using hs
  | true =>
    refine .bind (Triple.pre (P := Inv .plain (v.know (1 ≤ n) :: vs) (n - 1)) (namedVariable_spec
      (h (n - 1)) hv fun hknown => ⟨hK hknown.1, Nat.sub_le n 1⟩) fun s hs => by simpa using hs)
      fun _ => .pure fun s hs => by simpa using hs

/-- Each property takes the owner that was pushed for it. -/
theorem properties_spec {isStatic : Bool} {owner : String} (h : ∀ m, Serves self m (K ∧ m ≤ n))
    (hv : v.Ready) (hK : v.known → K) :
    Triple (Inv .plain (v.up 1 :: vs) n) (properties self isStatic owner) fun _ =>
      Inv .plain (v :: vs) n := by
  refine .bind (loop_consuming fun m p hp => ?_) fun _ =>
    .bind accept_spec fun _ => .pure fun s hs => hs
  have hserves : ∀ i, Serves self i ((K ∧ m ≤ n) ∧ i ≤ m) := fun i =>
    (h i).weaken fun hi => ⟨hi.1.1, Nat.le_trans hi.2 hi.1.2⟩
  refine (property_spec (v := v.know p) hserves hv fun hknown =>
    ⟨hK hknown.1, hp hknown.2⟩).post fun again s hs => ?_
  cases again with
  | true => exact hs
  | false =>
    have hs : Inv .plain (v.know p :: vs) m s := by simpa using hs
    exact (hs.mono fun hknown => hp hknown.2).forget .know

theorem methodName_spec : Triple (Inv tip vs n) methodName? fun _ => Inv tip vs n := by
  have hdone : ∀ r : Option String, Triple (Inv tip vs n) (pure r) fun _ => Inv tip vs n :=
    fun r => .pure fun s hs => hs
  refine .bind accept_spec fun _ => .ite (fun _ => ?_) fun _ => ?_
  · refine .bind accept_spec fun _ => .ite (fun _ => hdone _) fun _ => ?_
    refine .bind accept_spec fun _ => .ite (fun _ => ?_) fun _ => hdone _
    exact .bind accept_spec fun _ => .ite (fun _ => hdone _) fun _ => hdone _
  · refine .bind currentKind_skip fun _ => .ite (fun _ => ?_) fun _ => hdone _
    exact .bind advance_spec fun _ => .bind previousText_skip fun _ => hdone _

/-- A method is a function that the class below takes. -/
theorem method_spec {isStatic : Bool} (h : Serves self n K) (hv : v.Ready) (hK : v.known → K) :
    Triple (Inv .plain (v.up 1 :: vs) n) (method self isStatic) fun _ =>
      Inv .plain (v :: vs) n := by
  refine .bind expect_spec fun _ => .bind methodName_spec fun name => ?_
  cases name with
  | none => exact errorAtCurrent_spec.post fun _ _ h => h.elim
  | some name =>
    refine .bind nameConstant_spec fun g => ?_
    have hw : ((v.name g).up 1).Ready := hv.up 1
    refine .bind (functionBody_spec h hw.toUsable (Nat.succ_pos _) (fun hknown => hK hknown.1)
      (.inr ⟨rfl, hw.values⟩)) fun _ => ?_
    refine Triple.post (emitFresh_spec (v := v.name g) (k := 2) hv rfl rfl (by simp) (fun hknown =>
      ⟨⟨hknown.2, rfl, rfl⟩, ?_, ?_, ?_⟩) (Nat.le_refl 2)) fun _ s hs =>
      Inv.forget (v := v.name g) hs .name
    · simp [Instruction.make, Instruction.names, View.name]
    · simp [Operation.usesSlot]
    · simp [Operation.usesCapture]

/-- A member takes the class that was pushed for it. -/
theorem classMember_spec {className : String} (h : ∀ m, Serves self m (K ∧ m ≤ n)) (hv : v.Ready)
    (hK : v.known → K) :
    Triple (Inv .plain (v.up 1 :: vs) n) (classMember self className) fun _ =>
      Inv .plain (v :: vs) n := by
  refine .bind accept_spec fun isStatic => .bind check_skip fun _ => .ite (fun _ => ?_) fun _ => ?_
  · exact method_spec (h n) hv fun hknown => ⟨hK hknown, Nat.le_refl n⟩
  · refine .bind accept_spec fun _ => .ite (fun _ => properties_spec h hv hK) fun _ => ?_
    exact errorAtCurrent_spec.post fun _ _ h => h.elim

/-- Nothing is skipped as long as there is no error. -/
theorem skipToClosingBrace_spec :
    Triple (Inv tip vs n) skipToClosingBrace fun _ => Inv tip vs n := by
  refine .get fun s₀ => .ite (fun hpanicking => ?_) fun _ => .pure fun s hs => hs.1
  have hdirty : Triple (fun _ => False) (loop do
      if (← check .rightBrace) || (← atEnd) then return false
      advance
      return true) fun _ _ => False := by
    refine loop_spec (.bind check_skip fun _ => .bind atEnd_skip fun _ => ?_)
    exact .ite (fun _ => .pure fun _ h => h) fun _ => .bind advance_dirty fun _ => .pure fun _ h => h
  refine (hdirty.post fun _ _ h => h.elim).pre ?_
  rintro s ⟨hs, rfl⟩
  have hcalm := hs.calm
  rw [hpanicking] at hcalm
  cases hcalm

/-- Each member finds its owner on top of the stack, and takes it. -/
theorem members_spec {owner : String} {compileMember : Compile Unit} (h : Serves self n K)
    (hv : v.Ready) (hK : v.known → K)
    (hmember : Triple (Inv .plain (v.up 1 :: vs) n) compileMember fun _ => Inv .plain (v :: vs) n) :
    Triple (Inv .plain (v :: vs) n) (members self owner compileMember) fun _ =>
      Inv .plain (v :: vs) n := by
  refine loop_spec (.bind check_skip fun _ => .bind atEnd_skip fun _ => .ite (fun _ => ?_) fun _ => ?_)
  · exact .pure fun s hs => hs
  · refine .bind (namedVariable_spec h hv hK) fun _ => .bind hmember fun _ => ?_
    exact .bind skipToClosingBrace_spec fun _ => .pure fun s hs => hs

/-- Which classes there are does not matter to the code. -/
theorem modifyClasses_spec {f : State → List Bool} :
    Triple (Inv tip vs n) (modify fun s => { s with classes := f s }) fun _ => Inv tip vs n :=
  .modify (fun _ => rfl) fun _ hs => ⟨hs.1, hs.2, hs.3, hs.4, hs.5, hs.6, hs.7⟩

theorem leaveClass_spec :
    Triple (Inv tip vs n) (do
      demand ((← get).classes ≠ [])
      modify fun s => { s with classes := s.classes.tail }) fun _ => Inv tip vs n :=
  .bind get_skip fun _ => .bind .demanded fun _ => modifyClasses_spec

/-- A superclass is a local of a scope around the class. -/
theorem superclassClause_spec {className : String} (h : Serves self n K) (hv : v.Settled)
    (hK : v.known → K) :
    Triple (Inv .plain (v :: vs) n) (superclassClause self className) fun _ =>
      Inv .plain (v.inner.grow 1 :: vs) n := by
  have hw := hv.inner.grow hv.roomy_inner 1
  have hreceiver := hv.receiver
  refine .bind expect_spec fun _ => .bind previousText_skip fun _ => .when (fun _ => ?_)
    (fun _ s hs => hs) ?_
  · exact error_spec.post fun _ _ h => h.elim
  refine .bind beginScope_spec fun _ => .bind (namedVariable_spec h hv.inner.toReady hK) fun _ => ?_
  refine .bind (Triple.post (addReadyLocal_spec (v := v.inner.up 1) hv.awaiting (Nat.succ_ne_zero _))
    fun _ s hs => hs.forget .know) fun _ => ?_
  refine .bind (namedVariable_spec h hw.toReady hK) fun _ => ?_
  refine .bind (ordinary_spec (v := (v.inner.grow 1).up 1) (hw.toReady.up 1).toUsable rfl fun _ =>
    ⟨by decide, ?_, ?_, ?_, ?_, .inr ?_, hw.building_all, fun _ => hw.building_all⟩) fun _ => ?_
  · simp [Instruction.make, Instruction.names]
  · simp [Instruction.make, Operation.usesSlot]
  · simp [Instruction.make, Operation.usesCapture]
  · have hlevel := hv.level
    show 2 < v.height + 1 + 1
    omega
  · exact Nat.succ_le_succ hw.values
  · exact modifyClasses_spec

/-- Code may go on while a declared name waits for its value. -/
theorem Outline.Ready.declaring (hv : v.Ready) : v.declaring.Ready := by
  unfold View.declaring
  split
  · exact hv
  · exact ⟨⟨hv.1.1, hv.1.2, hv.1.3, hv.1.4, hv.1.5, hv.1.6, hv.1.7, hv.1.8, hv.1.9⟩, hv.2⟩

/-- A type is made and bound to its variable. -/
theorem declareType_spec {op : Operation} {name : String} (hv : v.Settled)
    (hop : op = .classDef ∨ op = .enumDef) :
    Triple (Inv .plain (v :: vs) n) (declareType op name) fun _ =>
      Inv .plain (v.defined :: vs) n := by
  refine .bind nameConstant_spec fun g => ?_
  have hw : (v.name g).declaring.Ready := Outline.Ready.declaring (v := v.name g) hv.toReady
  have hg : (v.name g).declaring.known → g < 65536 ∧ g ∈ (v.name g).declaring.names := by
    unfold View.declaring
    split
    · exact View.name_known
    · exact View.name_known
  have hnamed : isNamed op = true ∧ (Instruction.make op g 0).effect = ⟨0, 0, 1⟩ := by
    rcases hop with rfl | rfl <;> exact ⟨rfl, rfl⟩
  have hemit : Triple (Inv .plain ((v.name g).declaring :: vs) n) (emit op g) _ :=
    emitNamed_spec (k := 0) hw hnamed.1 hg (Nat.le_of_eq (by rw [hnamed.2]))
  rw [hnamed.2] at hemit
  refine .bind (declareVariable_spec (v := v.name g) hv.awaiting) fun _ => ?_
  exact .bind (hemit.forgetting .declared) fun _ => defineVariable_spec hv

theorem View.defined_known : v.defined.known = v.known := by
  unfold View.defined
  split <;> rfl

theorem classBody_spec {className : String} (h : ∀ m, Serves self m (K ∧ m ≤ n)) (hv : v.Ready)
    (hK : v.known → K) :
    Triple (Inv .plain (v :: vs) n) (classBody self className) fun _ => Inv .plain (v :: vs) n := by
  refine .bind expect_spec fun _ => .bind ?_ fun _ => expect_spec
  exact members_spec (h n) hv (fun hknown => ⟨hK hknown, Nat.le_refl n⟩) (classMember_spec h hv hK)

/-- A class is bound to its name before its members are compiled. -/
theorem classDeclaration_spec (h : ∀ m, Serves self m (K ∧ m ≤ n)) (hv : v.Settled)
    (hroom : v.Roomy) (hK : v.known → K) :
    Triple (Inv .plain (v :: vs) n) (classDeclaration self) fun _ =>
      Inv .plain (v.defined :: vs) n := by
  obtain ⟨hw, -⟩ := hv.defined hroom
  have hK' : v.defined.known → K := by rwa [View.defined_known]
  refine .bind expect_spec fun _ => .bind previousText_skip fun className => ?_
  refine .bind (declareType_spec hv (.inl rfl)) fun _ => .bind modifyClasses_spec fun _ => ?_
  refine .bind accept_spec fun _ => .ite (fun _ => ?_) fun _ => ?_
  · refine .bind (superclassClause_spec (h n) hw fun hknown => ⟨hK' hknown, Nat.le_refl n⟩) fun _ => ?_
    refine .bind (classBody_spec h (hw.inner.grow hw.roomy_inner 1).toReady hK') fun _ => ?_
    exact .bind (endScope_spec hw 1) fun _ => leaveClass_spec
  · exact .bind (classBody_spec h hw.toReady hK') fun _ => leaveClass_spec

/-- An enumeration is bound first, too; its members are properties. -/
theorem enumDeclaration_spec (h : ∀ m, Serves self m (K ∧ m ≤ n)) (hv : v.Settled)
    (hroom : v.Roomy) (hK : v.known → K) :
    Triple (Inv .plain (v :: vs) n) (enumDeclaration self) fun _ =>
      Inv .plain (v.defined :: vs) n := by
  obtain ⟨hw, -⟩ := hv.defined hroom
  have hK' : v.defined.known → K := by rwa [View.defined_known]
  refine .bind expect_spec fun _ => .bind previousText_skip fun enumName => ?_
  refine .bind (declareType_spec hv (.inr rfl)) fun _ => .bind expect_spec fun _ => ?_
  refine .bind (members_spec (h n) hw.toReady (fun hknown => ⟨hK' hknown, Nat.le_refl n⟩) ?_) fun _ =>
    expect_spec
  exact properties_spec h hw.toReady hK'

end ScriptMachine.Compiler
