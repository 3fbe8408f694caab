import ScriptMachine.Proofs.Compiler.Steps

/-!
# ScriptMachine.Proofs.Compiler.Scopes — scopes, variables and nested functions

The steps that change which variables there are: scopes open and close, locals are declared and get
their values, names are resolved to locals, to captured variables of the functions around, or to
globals, and functions are nested in each other. Closing a scope leaves the view as it was before
the scope was opened, whatever was declared in it.

Three results are used by everything above. `endScope_spec` says that closing a scope undoes opening it,
and it rests on `discard_spec`: locals leave the stack one by one, and those that are shared have their
cells closed. `resolveCapture_spec` follows a name outward, by induction on how many functions are
around, and leaves every function on the way with a capture more. `endFunction_spec` takes a finished
function out of the list of those being compiled, and the function around it makes a closure of it.

A change to a function that is not the innermost one cannot be a step of its own code, so it is shown by
`Tracked.modify` that neither the view of that function nor those nested in it can tell. Which variable
a name means is not a matter of this module: here it only counts that the slot or the capture is there.
-/

namespace ScriptMachine.Compiler

variable {tip tip' : Tip} {v v' w : View} {vs vs' : List View} {n m k : Nat} {s : State}

/-! ## Scopes -/

/-- The view in one more scope. -/
def View.inner (v : View) : View :=
  { v with depth := v.depth + 1 }

/-- The view with so many locals more, each with its value on the stack. -/
def View.grow (v : View) (k : Nat) : View :=
  { v with env := v.env ++ List.replicate k v.depth, height := v.height + k }

@[simp]
theorem View.grow_zero : v.grow 0 = v := by
  simp [View.grow]

theorem View.grow_grow {i j : Nat} : (v.grow i).grow j = v.grow (i + j) := by
  simp [View.grow, Nat.add_assoc, List.replicate_append_replicate]

/-- More locals above those that a loop found change nothing for it. -/
theorem LoopsOk.grow {env : List Nat} {depth : Nat} {handlers : List Guard} {points : List Claim}
    {loops : List LoopView} (h : LoopsOk env depth handlers points loops)
    (hdepth : ∀ l ∈ loops, l.scopeDepth < depth) (k : Nat) :
    LoopsOk (env ++ List.replicate k depth) depth handlers points loops where
  positive := h.positive
  base l hl := by
    rw [List.length_append]
    exact Nat.le_trans (h.base l hl) (Nat.le_add_right ..)
  scopeDepth := h.scopeDepth
  outside l hl := by
    rw [List.take_append_of_le_length (h.base l hl)]
    exact h.outside l hl
  inside l hl d hd := by
    rw [List.drop_append_of_le_length (h.base l hl), List.mem_append] at hd
    rcases hd with hd | hd
    · exact h.inside l hl d hd
    · rw [(List.mem_replicate.mp hd).2]
      exact hdepth l hl
  handlers := h.handlers
  start := h.start
  limits := h.limits
  nested := h.nested

/-- A scope starts with the locals that are there. -/
theorem Outline.Usable.inner (hv : v.Usable) : v.inner.Usable where
  receiver := hv.receiver
  height := hv.height
  depths d hd := Nat.le_succ_of_le (hv.depths d hd)
  guards := hv.guards
  holes := hv.holes
  building := hv.building
  tries := hv.tries
  lexical := hv.lexical
  loops :=
    { hv.loops with scopeDepth := fun l hl => Nat.le_succ_of_le (hv.loops.scopeDepth l hl) }

theorem Outline.Ready.inner (hv : v.Ready) : v.inner.Ready :=
  ⟨hv.toUsable.inner, hv.values⟩

theorem Outline.Settled.inner (hv : v.Settled) : v.inner.Settled :=
  ⟨hv.toReady.inner, hv.level, hv.awaiting, hv.finished⟩

theorem Outline.Usable.roomy_inner (hv : v.Usable) : v.inner.Roomy :=
  fun l hl => Nat.lt_succ_of_le (hv.loops.scopeDepth l hl)

/-- Locals may be added while nothing is being built on top of them. -/
theorem Outline.Ready.grow (hv : v.Ready) (hfinished : v.building = []) (hroom : v.Roomy) (k : Nat) :
    (v.grow k).Ready where
  receiver := by
    have := hv.receiver
    simp only [View.grow, List.length_append]
    omega
  height := by
    have := hv.values
    simp only [View.grow, List.length_append, List.length_replicate]
    omega
  depths d hd := by
    rcases List.mem_append.mp hd with hd | hd
    · exact hv.depths d hd
    · exact Nat.le_of_eq (List.mem_replicate.mp hd).2
  guards h outer hh := by
    obtain ⟨hmem, henv, hheight⟩ := hv.guards h outer hh
    simp only [View.grow, List.length_append]
    exact ⟨hmem, by omega, by omega⟩
  holes c hc := by
    have := hv.holes c hc
    simp only [View.grow, List.length_append]
    omega
  building := by simp [View.grow, hfinished]
  tries := hv.tries
  lexical := hv.lexical
  loops := hv.loops.grow hroom k
  values := by
    have := hv.values
    simp only [View.grow, List.length_append, List.length_replicate]
    omega

theorem Outline.Settled.grow (hv : v.Settled) (hroom : v.Roomy) (k : Nat) :
    (v.grow k).Settled where
  toReady := hv.toReady.grow hv.finished hroom k
  level := by
    have := hv.level
    simp only [View.grow, List.length_append, List.length_replicate]
    omega
  awaiting := hv.awaiting
  finished := hv.finished

/-- How deep the scopes are does not show in the code. -/
theorem Tracks.rescope {image : Image} {fs : FunctionState} (h : Tracks image tip v fs)
    (depth : Nat) : Tracks image tip { v with depth } { fs with scopeDepth := depth } :=
  { h with
    depth := rfl
    written := fun F hF => (h.written F hF).imp fun _ hw => ⟨hw.1, hw.2, hw.3, hw.4, hw.5, hw.6⟩ }

theorem beginScope_spec :
    Triple (Inv tip (v :: vs) n) beginScope fun _ => Inv tip (v.inner :: vs) n :=
  modifyFunction_spec (fun _ fs h => by rw [h.depth]; exact h.rescope _) fun _ => rfl

/-- The locals of the scopes beyond a depth are the last ones. -/
theorem localsBeyond_eq {image : Image} {fs : FunctionState} {env gone : List Nat} {depth : Nat}
    (h : Tracks image tip v fs) (hv : v.awaiting = false) (henv : v.env = env ++ gone)
    (houter : ∀ d ∈ env, d ≤ depth) (hinner : ∀ d ∈ gone, depth < d) :
    localsBeyond depth fs.locals = (fs.locals.toList.drop env.length).reverse := by
  have hdepths := h.depths
  rw [hv, henv, if_neg (by simp), List.append_nil, List.map_append] at hdepths
  have htake : (fs.locals.toList.take env.length).map (·.depth) = env.map some := by
    rw [List.map_take, hdepths, List.take_left' (by simp)]
  have hdrop : (fs.locals.toList.drop env.length).map (·.depth) = gone.map some := by
    rw [List.map_drop, hdepths, List.drop_left' (by simp)]
  -- seen from the end, the locals of the inner scopes come first
  have hstay : ∀ l ∈ (fs.locals.toList.take env.length).reverse, l.isDeeperThan depth = false := by
    intro l hl
    have hmem : l.depth ∈ env.map some :=
      htake ▸ List.mem_map_of_mem (List.mem_reverse.mp hl)
    obtain ⟨d, hd, hdl⟩ := List.mem_map.mp hmem
    have := houter d hd
    simp only [Local.isDeeperThan, ← hdl]
    simpa using this
  have hleave : ∀ l ∈ (fs.locals.toList.drop env.length).reverse, l.isDeeperThan depth = true := by
    intro l hl
    have hmem : l.depth ∈ gone.map some :=
      hdrop ▸ List.mem_map_of_mem (List.mem_reverse.mp hl)
    obtain ⟨d, hd, hdl⟩ := List.mem_map.mp hmem
    have := hinner d hd
    simp only [Local.isDeeperThan, ← hdl]
    simpa using this
  have hnil : (fs.locals.toList.take env.length).reverse.takeWhile (·.isDeeperThan depth) = [] := by
    cases hl : (fs.locals.toList.take env.length).reverse with
    | nil => rfl
    | cons l rest =>
      have := hstay l (by simp [hl])
      simp [this]
  unfold localsBeyond
  rw [← List.take_append_drop env.length fs.locals.toList, List.reverse_append,
    List.takeWhile_append_of_pos hleave, hnil, List.append_nil, List.take_append_drop]

/-- What is left of the locals that leave the stack: they are in the slots from `m` on. -/
def Leaving (m : Nat) (l : List Local) (locals : Array Local) : Prop :=
  ∃ kept, kept.length = m ∧ kept ++ l.reverse <+: locals.toList

/-- The local that is dropped first is the last of those that are left. -/
theorem Leaving.cons {x : Local} {l : List Local} {locals : Array Local}
    (h : Leaving m (x :: l) locals) : locals[m + l.length]? = some x ∧ Leaving m l locals := by
  obtain ⟨kept, hm, hprefix⟩ := h
  rw [List.reverse_cons, ← List.append_assoc] at hprefix
  refine ⟨?_, kept, hm, (List.prefix_append _ _).trans hprefix⟩
  obtain ⟨rest, hrest⟩ := hprefix
  rw [← Array.getElem?_toList, ← hrest]
  simp [hm]

/-- **`discard_spec`** — locals leave the stack, those that are shared with their cells closed. -/
theorem discard_spec (hv : v.Guarded) (hfinished : v.building = []) (hbase : v.base ≤ m) (hm : 0 < m)
    (l : List Local) :
    Triple (fun s => Inv .plain (v.atHeight (m + l.length) :: vs) n s ∧
        Leaving m l s.function.locals)
      (l.forM fun x => emit x.discard) fun _ => Inv .plain (v.atHeight m :: vs) n := by
  refine (Triple.forM (I := fun l s => Inv .plain (v.atHeight (m + l.length) :: vs) n s ∧
    Leaving m l s.function.locals) ?_ l).post fun _ _ hs => hs.1
  intro x l
  refine emitInstruction_spec fun s hs => ?_
  obtain ⟨hs, hleaving⟩ := hs
  obtain ⟨hx, hleaving⟩ := hleaving.cons
  -- a slot that is taken without closing its cell is shared with nobody
  have hfree : x.captured = false → ¬ s.function.Flagged (m + l.length) := by
    rintro hcaptured ⟨y, hy, hflag⟩
    obtain rfl : x = y := by simpa [hx] using hy
    rw [hcaptured] at hflag
    cases hflag
  have hop : (x.discard = .pop ∧ x.captured = false) ∨ x.discard = .closeUpvalue := by
    unfold Local.discard
    cases x.captured <;> simp
  have heffect : (Instruction.make x.discard 0 0).effect = ⟨1, 1, 0⟩ := by
    rcases hop with ⟨hop, -⟩ | hop <;> rw [hop] <;> rfl
  have hadmits : Admits s.image (v.atHeight (m + (x :: l).length)) s.function false
      (.make x.discard 0 0) := by
    constructor
    case reads =>
      rw [heffect]
      simp only [View.atHeight, List.length_cons]
      omega
    case taken =>
      intro hcloses j hj hlt
      rw [heffect] at hj
      simp only [View.atHeight, List.length_cons] at hj hlt
      rcases hop with ⟨-, hcaptured⟩ | hop
      · obtain rfl : j = m + l.length := by omega
        exact ⟨show v.base ≤ _ by omega, hfree hcaptured⟩
      · simp [Instruction.make, hop, Operation.closesTaken] at hcloses
    case within => exact hv.within
    case held => simp [View.atHeight, hfinished]
    all_goals
      rcases hop with ⟨hop, -⟩ | hop <;> simp [Instruction.make, hop, Operation.usesSlot,
        Operation.usesCapture, Operation.needsFresh, Operation.fills, Operation.mayRaise,
        Instruction.names, Instruction.InRange, Operation.shape]
  -- neither way to discard a local moves control or makes anything
  have hshape : x.discard.falls = true ∧ (x.discard.isForward = false ∧ x.discard ≠ .spawn) ∧
      x.discard ≠ .closure := by
    rcases hop with ⟨hop, -⟩ | hop <;> rw [hop] <;> decide
  have hstep : Tracks s.image .plain _ (s.function.emit (.make x.discard 0 0) s.previous.line) :=
    hs.head.emit_falling v.building (by simp) hadmits
      ⟨hv.claim, hv.landing, hv.within, by simp [View.atHeight, hfinished]⟩ hshape.1 hshape.2.1.1
      (fun h => absurd h hshape.2.1.2) (by simp [Instruction.make])
      (fun h => absurd h hshape.2.2) (by simp) (by simp [hfinished]) (.inl rfl)
  rw [heffect] at hstep
  exact ⟨hs.update_head hstep rfl, hleaving⟩

/-- No open branch counts on slots beyond the locals. -/
theorem Outline.Usable.limits (hv : v.Usable) {fs : FunctionState} :
    ∀ c ∈ v.claims fs, c.limit ≤ v.env.length := by
  have hbreaks : ∀ (ls : List LoopView) (loops : List Loop), (∀ l ∈ ls, l.base ≤ v.env.length) →
      ∀ c ∈ breakClaims ls loops, c.limit ≤ v.env.length := by
    intro ls
    induction ls with
    | nil => simp [breakClaims]
    | cons l ls ih =>
      intro loops hls c hc
      cases loops with
      | nil => simp [breakClaims] at hc
      | cons loop loops =>
        rcases List.mem_append.mp hc with hc | hc
        · obtain ⟨place, -, rfl⟩ := List.mem_map.mp hc
          exact hls l List.mem_cons_self
        · exact ih loops (fun l hl => hls l (List.mem_cons_of_mem _ hl)) c hc
  intro c hc
  rcases List.mem_append.mp hc with hc | hc
  · exact hv.holes c hc
  · exact hbreaks v.loops fs.loops hv.loops.base c hc

/-- The innermost loop does not count on more locals than there are. -/
theorem Outline.Usable.base_le (hv : v.Usable) : v.base ≤ v.env.length := by
  unfold View.base
  cases hl : v.loops with
  | nil => exact Nat.zero_le _
  | cons l outer => exact hv.loops.base l (by simp [hl])

/-- The view while the locals of a scope leave the stack. -/
def View.leaving (v : View) (k : Nat) (p : Prop) : View :=
  { v.know p with env := v.env ++ List.replicate k (v.depth + 1), height := v.height + k }

/-- **`endScope_spec`** — closing a scope undoes opening it and whatever was declared in it. -/
theorem endScope_spec (hv : v.Settled) (k : Nat) :
    Triple (Inv .plain (v.inner.grow k :: vs) n) endScope fun _ => Inv .plain (v :: vs) n := by
  have hlevel := hv.level
  refine .get fun s₀ => .bind .demanded fun _ => ?_
  refine .bind (Q := fun _ => Inv .plain
    (v.leaving k (s₀.function.scopeDepth - 1 = v.depth) :: vs) n) (.modify (fun _ => rfl) ?_) fun _ =>
    .get fun s₁ => ?_
  · rintro s ⟨hs, rfl⟩
    have hdepth : s.function.scopeDepth - 1 = v.depth := by
      rw [hs.head.depth]
      rfl
    have hscoped : Tracks s.image .plain (v.leaving k (s.function.scopeDepth - 1 = v.depth))
        { s.function with scopeDepth := s.function.scopeDepth - 1 } := by
      rw [hdepth]
      exact (hs.head.rescope _).know fun _ => rfl
    exact hs.update_head hscoped rfl
  -- from here on it is known how many locals leave
  generalize hl : localsBeyond (s₀.function.scopeDepth - 1) s₁.function.locals = leaving
  refine .bind (Q := fun _ => Inv .plain
    ((v.leaving k (leaving.length = k)).atHeight v.env.length :: vs) n) ?_ fun _ =>
    modifyFunction_spec ?_ fun _ => rfl
  · refine (discard_spec (v := v.leaving k (leaving.length = k))
      ⟨hv.guarded.claim, hv.guarded.landing, hv.guarded.within, hv.building_all⟩ hv.finished hv.base_le
      hv.receiver leaving).pre ?_
    rintro s ⟨hs, rfl⟩
    have hlocals : leaving = (s.function.locals.toList.drop v.env.length).reverse := by
      rw [← hl, show s₀.function.scopeDepth - 1 = v.depth from hs.known.2]
      refine localsBeyond_eq hs.head hv.awaiting rfl hv.depths fun d hd => ?_
      rw [(List.mem_replicate.mp hd).2]
      exact Nat.lt_succ_self _
    have hsize : s.function.locals.size = v.env.length + k := by
      rw [hs.head.locals_size, show (v.leaving k _).awaiting = false from hv.awaiting]
      simp [View.leaving]
    have hlength : leaving.length = k := by
      rw [hlocals, List.length_reverse, List.length_drop, Array.length_toList, hsize]
      omega
    refine ⟨?_, s.function.locals.toList.take v.env.length, ?_, ?_⟩
    · rw [show v.env.length + leaving.length = v.height + k by omega]
      exact hs.weaken fun _ _ ht => ht.forget (fun _ h => h) (Nat.le_refl _) (fun _ h => h)
        fun hknown => ⟨hknown.1, hlength⟩
    · simp [hsize]
    · refine ⟨[], ?_⟩
      rw [hlocals, List.reverse_reverse, List.take_append_drop, List.append_nil]
  · intro image fs ht
    have hlength : leaving.length = k := ht.known.2
    have henv : (v.leaving k (leaving.length = k)).env =
        v.env ++ List.replicate k (v.depth + 1) := rfl
    have hshrunk := ht.shrink hv.awaiting henv hv.base_le (Nat.le_refl _) hv.limits
    rw [List.length_replicate, ← hlength] at hshrunk
    have hview : v = { v.leaving k (leaving.length = k) with
        env := v.env, height := v.env.length, known := v.known } := by
      rw [← hlevel]
      rfl
    rw [hview]
    exact hshrunk.forget (fun _ h => h) (Nat.le_refl _) (fun _ h => h) fun hknown => hknown.1

/-- The locals of the body of the innermost loop leave the stack on the way out of it. -/
theorem discardLocals_spec (hv : v.Settled) {l : LoopView} {outer : List LoopView} {depth : Nat}
    (hl : v.loops = l :: outer) (hdepth : v.known → depth = l.scopeDepth) :
    Triple (Inv .plain (v :: vs) n) (discardLocals depth) fun _ =>
      Inv .plain (v.atHeight l.base :: vs) n := by
  have hmem : l ∈ v.loops := by simp [hl]
  have hbase : l.base ≤ v.env.length := hv.loops.base l hmem
  refine .get fun s₀ => (discard_spec hv.guarded hv.finished (m := l.base) ?_ (hv.loops.positive l hmem) _).pre ?_
  · rw [View.base, hl]
    exact Nat.le_refl _
  rintro s ⟨hs, rfl⟩
  have henv : v.env = v.env.take l.base ++ v.env.drop l.base := (List.take_append_drop ..).symm
  have hlocals : localsBeyond depth s.function.locals =
      (s.function.locals.toList.drop l.base).reverse := by
    rw [localsBeyond_eq hs.head hv.awaiting henv]
    · rw [List.length_take, Nat.min_eq_left hbase]
    · rw [hdepth hs.known]
      exact hv.loops.outside l hmem
    · rw [hdepth hs.known]
      exact hv.loops.inside l hmem
  have hsize : s.function.locals.size = v.env.length := by
    rw [hs.head.locals_size, hv.awaiting]
    rfl
  refine ⟨?_, s.function.locals.toList.take l.base, ?_, ?_⟩
  · have hheight : l.base + (localsBeyond depth s.function.locals).length = v.height := by
      rw [hlocals, List.length_reverse, List.length_drop, Array.length_toList, hsize, hv.level]
      omega
    rw [hheight]
    exact hs
  · rw [List.length_take, Array.length_toList, hsize]
    exact Nat.min_eq_left hbase
  · refine ⟨[], ?_⟩
    rw [hlocals, List.reverse_reverse, List.take_append_drop, List.append_nil]

/-! ## Locals -/

/-- The view with one more local, wherever its value is. -/
def View.bound (v : View) : View :=
  { v with env := v.env ++ [v.depth] }

/-- The view while a local awaits its first value. -/
def View.await (v : View) : View :=
  { v with awaiting := true }

/-- A value on top that is bound to a name is one more local. -/
theorem Outline.Settled.bound (hv : v.Settled) (hroom : v.Roomy) : v.bound.Usable where
  receiver := by simp [View.bound]
  height := by
    have := hv.values
    simp only [View.bound, List.length_append, List.length_singleton]
    omega
  depths := (hv.grow hroom 1).depths
  guards h outer hh := by
    obtain ⟨hmem, henv, hheight⟩ := hv.guards h outer hh
    simp only [View.bound, List.length_append]
    exact ⟨hmem, by omega, hheight⟩
  holes := (hv.grow hroom 1).holes
  building := hv.building_all
  tries := hv.tries
  lexical := hv.lexical
  loops := hv.loops.grow hroom 1

/-- A local without a value is noted and has no slot yet. -/
theorem addLocal_spec {name : String} (hv : v.awaiting = false) :
    Triple (Inv tip (v :: vs) n) (addLocal name) fun _ => Inv tip (v.await :: vs) n := by
  refine .get fun s₀ => .ite (fun _ => ?_) fun hsize => .modify (fun _ => rfl) ?_
  · exact (error_spec.pre fun _ hs => hs.1).post fun _ _ h => h.elim
  · rintro s ⟨hs, rfl⟩
    exact hs.update_head (hs.head.add_local name hv (Nat.lt_of_not_le hsize)) rfl

/-- The value on top becomes that of the local that waits for one. -/
theorem markReady_spec (hv : v.awaiting = false) (hdepth : v.depth ≠ 0) :
    Triple (Inv tip (v.await :: vs) n) markReady fun _ => Inv tip (v.bound :: vs) n := by
  refine modifyFunction_spec (fun image fs ht => ?_) fun fs => by dsimp only; split <;> rfl
  have hview : v.bound = { v.await with env := v.env ++ [v.depth], awaiting := false } := by
    rw [← hv]
    rfl
  rw [if_neg (by rw [ht.depth]; exact hdepth), hview]
  exact ht.ready rfl

/-- A local that has its value may be told so once more. -/
theorem markReady_again (hv : v.awaiting = false) :
    Triple (Inv tip (v.bound :: vs) n) markReady fun _ => Inv tip (v.bound :: vs) n := by
  refine modifyFunction_spec (fun image fs ht => ?_) fun fs => by dsimp only; split <;> rfl
  split
  · exact ht
  · exact ht.ready_again hv rfl

/-- Outside of all scopes there is nothing to do. -/
theorem markReady_global (hdepth : v.depth = 0) :
    Triple (Inv tip (v :: vs) n) markReady fun _ => Inv tip (v :: vs) n := by
  refine modifyFunction_spec (fun image fs ht => ?_) fun fs => by dsimp only; split <;> rfl
  rw [if_pos (by rw [ht.depth]; exact hdepth)]
  exact ht

/-- A local for a value that is on the stack; its slot is told. -/
theorem addReadyLocal_spec {name : String} (hv : v.awaiting = false) (hdepth : v.depth ≠ 0) :
    Triple (Inv tip (v :: vs) n) (addReadyLocal name) fun r =>
      Inv tip (v.bound.know (r = v.env.length) :: vs) n := by
  refine .bind (addLocal_spec hv) fun _ => .bind (markReady_spec hv hdepth) fun _ => ?_
  refine .get fun s₀ => .bind .demanded fun _ => .pure ?_
  rintro s ⟨hs, rfl⟩
  refine hs.know ?_
  rw [hs.head.locals_size, show v.bound.awaiting = false from hv]
  simp [View.bound]

/-! ## Declarations -/

/-- The view after a variable has been declared: outside of all scopes it is global. -/
def View.declaring (v : View) : View :=
  if v.depth = 0 then v else v.await

/-- The view after a declared variable has got its value. -/
def View.defined (v : View) : View :=
  if v.depth = 0 then v else v.grow 1

/-- In a scope a declaration waits for its value, and outside of scopes nothing is noted. -/
theorem declareVariable_spec {name : String} (hv : v.awaiting = false) :
    Triple (Inv tip (v :: vs) n) (declareVariable name) fun _ => Inv tip (v.declaring :: vs) n := by
  refine .get fun s₀ => .ite (fun hdepth => ?_) fun hdepth => .pure ?_
  · refine .when (M := Inv tip (v.know (v.depth ≠ 0) :: vs) n) (fun _ => ?_) (fun _ => ?_)
      ((addLocal_spec (v := v.know (v.depth ≠ 0)) hv).post fun _ s hs => ?_)
    · exact (error_spec.pre fun _ hs => hs.1).post fun _ _ h => h.elim
    · rintro s ⟨hs, rfl⟩
      exact hs.know (hs.head.depth ▸ hdepth)
    · rw [View.declaring, if_neg hs.known.2]
      exact hs.forget (.know (v := v.await))
  · rintro s ⟨hs, rfl⟩
    have hzero : v.depth = 0 := by
      rw [← hs.head.depth]
      exact Decidable.not_not.mp hdepth
    rw [View.declaring, if_pos hzero]
    exact hs

/-- The view after a variable has been declared, with the constant of its name if it is global. -/
def View.declared (v : View) (global : Nat) : View :=
  if v.depth = 0 then v.name global else v.await

/-- Whether there is a scope is told by the view. -/
theorem scopeDepth_pos {s₀ : State} (h : Inv tip (v :: vs) n s ∧ s = s₀) :
    0 < s₀.function.scopeDepth ↔ v.depth ≠ 0 := by
  rw [← h.2, h.1.head.depth]
  exact Nat.pos_iff_ne_zero

/-- A global is known by the constant that holds its name. -/
theorem parseVariable_spec {message : String} (hv : v.awaiting = false) :
    Triple (Inv tip (v :: vs) n) (parseVariable message) fun g =>
      Inv tip (v.declared g :: vs) n := by
  refine .bind expect_spec fun _ => .bind previousText_skip fun name => ?_
  refine .bind skipTypeAnnotation_spec fun _ => .bind (declareVariable_spec hv) fun _ => ?_
  unfold View.declaring View.declared
  by_cases hdepth : v.depth = 0
  · simp only [if_pos hdepth]
    refine .get fun s₀ => .ite (fun hpos => .pure fun s hs => ?_) fun _ => ?_
    · exact absurd hdepth ((scopeDepth_pos hs).mp hpos)
    · exact nameConstant_spec.pre fun _ hs => hs.1
  · simp only [if_neg hdepth]
    refine .get fun s₀ => .ite (fun _ => .pure fun s hs => hs.1) fun hpos => ?_
    exact Triple.pre (nameConstant_spec.post fun _ _ hs => hs.forget .name) fun s hs =>
      absurd ((scopeDepth_pos hs).mpr hdepth) hpos

/-- A local is defined by nothing but the value that is on the stack. -/
theorem defineVariable_local {g : Nat} (hv : v.awaiting = false) (hdepth : v.depth ≠ 0) :
    Triple (Inv tip (v.await :: vs) n) (defineVariable g) fun _ => Inv tip (v.bound :: vs) n := by
  refine .get fun s₀ => .ite (fun _ => ?_) fun hpos => ?_
  · exact (markReady_spec hv hdepth).pre fun _ hs => hs.1
  · exact emitInstruction_spec fun s hs => absurd ((scopeDepth_pos hs).mpr hdepth) hpos

/-- **`defineVariable_spec`** — a declared variable takes the value on top of the stack: a global one
removes it, a local one stays there. -/
theorem defineVariable_spec {g : Nat} (hv : v.Settled) :
    Triple (Inv .plain ((v.declared g).up 1 :: vs) n) (defineVariable g) fun _ =>
      Inv .plain (v.defined :: vs) n := by
  unfold View.declared View.defined
  by_cases hdepth : v.depth = 0
  · simp only [if_pos hdepth]
    refine .get fun s₀ => .ite (fun hpos => ?_) fun _ => ?_
    · refine .modify (fun _ => rfl) fun s hs => ?_
      exact absurd hdepth ((scopeDepth_pos hs).mp hpos)
    · refine Triple.pre (Triple.post (emit_spec (v := v.name g) hv.toReady rfl (fun hknown => ?_)
        (Nat.le_refl _)) fun _ s hs => ?_) fun _ hs => hs.1
      · refine ⟨⟨hknown.2, rfl, rfl⟩, ?_, ?_, ?_⟩
        · simp [Instruction.make, Instruction.names, View.name]
        · exact fun h => absurd h (by decide)
        · exact fun h => absurd h (by decide)
      · exact Inv.forget (v := v.name g) hs .name
  · simp only [if_neg hdepth]
    exact defineVariable_local (v := v.up 1) hv.awaiting hdepth

theorem View.Weaker.declared {g : Nat} : (v.name g).declaring.Weaker (v.declared g) := by
  unfold View.declaring View.declared
  by_cases hdepth : v.depth = 0
  · rw [if_pos (show (v.name g).depth = 0 from hdepth), if_pos hdepth]
    exact ⟨rfl, fun _ h => h, fun _ h => h, Nat.le_refl _, id⟩
  · rw [if_neg (show (v.name g).depth ≠ 0 from hdepth), if_neg hdepth]
    exact .name (v := v.await)

/-- A definition leaves nothing unfinished, and there is room for more. -/
theorem Outline.Settled.defined (hv : v.Settled) (hroom : v.Roomy) :
    v.defined.Settled ∧ v.defined.Roomy := by
  unfold View.defined
  split
  · exact ⟨hv, hroom⟩
  · exact ⟨hv.grow hroom 1, hroom⟩

theorem Outline.Ready.declared {g : Nat} (hv : v.Ready) : (v.declared g).Ready := by
  unfold View.declared
  split
  · exact ⟨⟨hv.1.1, hv.1.2, hv.1.3, hv.1.4, hv.1.5, hv.1.6, hv.1.7, hv.1.8, hv.1.9⟩, hv.2⟩
  · exact ⟨⟨hv.1.1, hv.1.2, hv.1.3, hv.1.4, hv.1.5, hv.1.6, hv.1.7, hv.1.8, hv.1.9⟩, hv.2⟩

/-! ## Resolving names -/

/-- The functions being compiled, innermost first. -/
def State.functions (s : State) : List FunctionState :=
  s.function :: s.enclosing

theorem State.functionAt_eq (s : State) (d : Nat) :
    s.functionAt d = s.functions.getD d default := by
  cases d <;> rfl

/-- The local in a slot has its value. -/
def FunctionState.HasValue (fs : FunctionState) (slot : Nat) : Prop :=
  ∃ l ∈ fs.locals[slot]?, l.depth.isSome = true

/-- A local that has its value is one of those on the stack. -/
theorem Tracks.lt_of_hasValue {image : Image} {fs : FunctionState} (h : Tracks image tip v fs)
    {slot : Nat} (hslot : fs.HasValue slot) : slot < v.env.length := by
  obtain ⟨l, hl, hdepth⟩ := hslot
  have hmap : (fs.locals.toList.map (·.depth))[slot]? = some l.depth := by
    rw [List.getElem?_map, Array.getElem?_toList, Option.mem_def.mp hl]
    rfl
  rw [h.depths] at hmap
  by_contra hle
  rw [List.getElem?_append_right (by simpa using Nat.le_of_not_lt hle)] at hmap
  split at hmap
  · have hnone := List.mem_singleton.mp (List.mem_of_getElem? hmap)
    rw [hnone] at hdepth
    cases hdepth
  · simp at hmap

/-- **`Tracked.modify`** — one of the functions changes in a way that neither its view nor the
functions nested in it can tell. -/
theorem Tracked.modify {image : Image} {fss : List FunctionState} {d : Nat}
    {f : FunctionState → FunctionState} (h : Tracked image tip vs fss)
    (hf : ∀ tip v fs, fss[d]? = some fs → Tracks image tip v fs → Tracks image tip v (f fs))
    (hlinks : ∀ fs rest, fss[d]? = some fs → fss.drop (d + 1) = rest → Links fs rest →
      Links (f fs) rest)
    (hnested : ∀ inner fs rest, fss[d]? = some fs → Links inner (fs :: rest) →
      Links inner (f fs :: rest)) :
    Tracked image tip vs (fss.modify d f) := by
  induction d generalizing tip vs fss with
  | zero =>
    cases fss with
    | nil => exact h
    | cons fs rest =>
      cases vs with
      | nil => exact h
      | cons v vs => exact ⟨hf _ _ fs rfl h.1, hlinks fs rest rfl rfl h.2.1, h.2.2⟩
  | succ d ih =>
    cases fss with
    | nil => exact h
    | cons fs rest =>
      cases vs with
      | nil => exact h
      | cons v vs =>
        obtain ⟨htracks, hlink, hrest⟩ := h
        refine ⟨htracks, ?_, ih hrest hf hlinks hnested⟩
        cases rest with
        | nil => cases d <;> exact hlink
        | cons outer rest =>
          cases d with
          | zero => exact hnested fs outer rest rfl hlink
          | succ d => exact hlink

/-- A function that encloses the one being compiled may change, as long as what links them still
holds on both sides. -/
theorem Inv.modifyAt {d : Nat} {f : FunctionState → FunctionState} (h : Inv tip vs n s)
    (hf : ∀ tip v fs, s.functions[d]? = some fs → Tracks s.image tip v fs →
      Tracks s.image tip v (f fs))
    (hlinks : ∀ fs rest, s.functions[d]? = some fs → s.functions.drop (d + 1) = rest →
      Links fs rest → Links (f fs) rest)
    (hnested : ∀ inner fs rest, s.functions[d]? = some fs → Links inner (fs :: rest) →
      Links inner (f fs :: rest)) :
    Inv tip vs n (modifyFunctionAt d f s).2 ∧
      (modifyFunctionAt d f s).2.functions = s.functions.modify d f := by
  have htracked := h.functions.modify hf hlinks hnested
  cases d with
  | zero => exact ⟨⟨h.1, htracked, h.3, h.4, h.5, h.6, h.7⟩, rfl⟩
  | succ d => exact ⟨⟨h.1, htracked, h.3, h.4, h.5, h.6, h.7⟩, rfl⟩

theorem modifyFunctionAt_record (d : Nat) (f : FunctionState → FunctionState) (s : State) :
    (modifyFunctionAt d f s).2.record = s.record := by
  cases d <;> rfl

/-- A step on one of the functions, from what it does to the state. -/
theorem modifyFunctionAt_spec {P : State → Prop} {Q : Unit → State → Prop} {d : Nat}
    {f : FunctionState → FunctionState} (h : ∀ s, P s → Q () (modifyFunctionAt d f s).2) :
    Triple P (modifyFunctionAt d f) Q :=
  fun s hs hclean => h s (hs ((modifyFunctionAt_record d f s).symm.trans hclean))

/-- Only the function that was changed is another one. -/
theorem functionAt_of_functions {s' : State} {d e : Nat} {f : FunctionState → FunctionState}
    (h : s'.functions = s.functions.modify d f) (he : e < s.functions.length) :
    s'.functionAt e = if e = d then f (s.functionAt e) else s.functionAt e := by
  rw [State.functionAt_eq, State.functionAt_eq, h]
  simp only [List.getD_eq_getElem?_getD, List.getElem?_modify, List.getElem?_eq_getElem he]
  by_cases hed : e = d
  · simp [hed]
  · simp [hed, Ne.symm hed]

theorem Tracked.length_eq {image : Image} {fss : List FunctionState}
    (h : Tracked image tip vs fss) : fss.length = vs.length := by
  induction vs generalizing tip fss with
  | nil => cases fss with
    | nil => rfl
    | cons fs rest => exact h.elim
  | cons v vs ih => cases fss with
    | nil => exact h.elim
    | cons fs rest => exact congrArg (· + 1) (ih h.2.2)

theorem Inv.length_functions (h : Inv tip vs n s) : s.functions.length = vs.length :=
  h.functions.length_eq

theorem Tracks.use_args {image : Image} {fs : FunctionState} (h : Tracks image tip v fs) :
    Tracks image tip v { fs with argsUsed := true } :=
  { h with written := fun F hF => (h.written F hF).imp fun _ hw => ⟨hw.1, hw.2, hw.3, hw.4, hw.5, hw.6⟩ }

/-- What is known of a local that a name has been resolved to. -/
theorem resolveLocal_spec {d : Nat} {name : String} (hd : v.known → d ≤ vs.length) :
    Triple (Inv tip (v :: vs) n) (resolveLocal d name) fun r s =>
      Inv tip (v :: vs) n s ∧ ∀ slot, r = some slot → (s.functionAt d).HasValue slot := by
  refine .get fun s₀ => .bind .demanded fun _ => ?_
  dsimp only
  split
  · exact .pure fun s hs => ⟨hs.1, by simp⟩
  · rename_i slot _
    refine .bind .demanded fun _ => .when (M := fun s => Inv tip (v :: vs) n s ∧
      (s.functionAt d).locals = (s₀.functionAt d).locals) (fun _ => ?_) (fun _ => ?_) ?_
    · refine modifyFunctionAt_spec ?_
      rintro s ⟨hs, rfl⟩
      obtain ⟨hinv, hfunctions⟩ := hs.modifyAt
        (f := fun fs => { fs with argsUsed := true }) (fun _ _ _ _ ht => ht.use_args)
        (fun _ _ _ _ hl => hl.congr rfl) (fun _ _ _ _ hl => hl)
      refine ⟨hinv, ?_⟩
      have hlt : d < s.functions.length := by
        rw [hs.length_functions]
        exact Nat.lt_succ_of_le (hd hs.known)
      rw [functionAt_of_functions hfunctions hlt, if_pos rfl]
    · rintro s ⟨hs, rfl⟩
      exact ⟨hs, rfl⟩
    · refine .ite (fun _ => ?_) fun hvalue => .pure ?_
      · exact .bind (error_spec.pre fun _ hs => hs.1) fun _ => .pure fun _ h => h.elim
      · rintro s ⟨hs, hlocals⟩
        refine ⟨hs, fun slot' hslot => ?_⟩
        obtain rfl := Option.some.inj hslot
        unfold FunctionState.HasValue
        rw [hlocals]
        cases hl : (s₀.functionAt d).locals[slot]? with
        | none => simp [hl] at hvalue
        | some l => exact ⟨l, rfl, by simpa [hl, Option.isSome_iff_ne_none] using hvalue⟩

/-- A capture of a function, new or not. -/
theorem addCapture_spec {d : Nat} {c : Capture} (hd : v.known → d < vs.length) :
    Triple (fun s => Inv tip (v :: vs) n s ∧ (s.functionAt (d + 1)).Offers c) (addCapture d c)
      fun r s => Inv tip (v :: vs) n s ∧ r < (s.functionAt d).captures.size := by
  refine .get fun s₀ => .bind .demanded fun _ => ?_
  dsimp only
  split
  · rename_i index hindex
    refine .pure ?_
    rintro s ⟨⟨hs, -⟩, rfl⟩
    exact ⟨hs, (Array.findIdx?_eq_some_iff_getElem.mp hindex).1⟩
  · refine .ite (fun _ => ?_) fun hsize => ?_
    · exact .bind (error_spec.pre fun _ hs => hs.1.1) fun _ => .pure fun _ h => h.elim
    · refine .bind (Q := fun _ s => Inv tip (v :: vs) n s ∧
        (s₀.functionAt d).captures.size < (s.functionAt d).captures.size)
        (modifyFunctionAt_spec ?_) fun _ => .pure fun _ hs => hs
      rintro s ⟨⟨hs, hc⟩, rfl⟩
      -- a new capture: the function has it, and it is offered by the function around
      have hlength : d + 1 < s.functions.length := by
        rw [hs.length_functions]
        exact Nat.succ_lt_succ (hd hs.known)
      have hat : ∀ e < s.functions.length, s.functions[e]? = some (s.functionAt e) := by
        intro e he
        rw [State.functionAt_eq, List.getD_eq_getElem?_getD, List.getElem?_eq_getElem he]
        rfl
      have hfs : ∀ fs, s.functions[d]? = some fs → fs = s.functionAt d := by
        intro fs hfs
        exact Option.some.inj (hfs.symm.trans (hat d (by omega)))
      have houter : s.functions.drop (d + 1) =
          s.functionAt (d + 1) :: s.functions.drop (d + 2) := by
        rw [List.drop_eq_getElem_cons hlength]
        congr 1
        exact Option.some.inj ((List.getElem?_eq_getElem hlength).symm.trans (hat _ hlength))
      have hlinks : ∀ fs rest, s.functions[d]? = some fs → s.functions.drop (d + 1) = rest →
          Links fs rest → Links { fs with captures := fs.captures.push c } rest := by
        rintro fs rest - rfl hlinks
        rw [houter] at hlinks ⊢
        intro c' hc'
        rcases Array.mem_push.mp hc' with hc' | rfl
        · exact hlinks c' hc'
        · exact hc
      -- a function nested in this one has its links still
      have hnested : ∀ inner fs rest, s.functions[d]? = some fs → Links inner (fs :: rest) →
          Links inner ({ fs with captures := fs.captures.push c } :: rest) := by
        intro inner fs rest _ hlinks c' hc'
        have hoffers := hlinks c' hc'
        unfold FunctionState.Offers at hoffers ⊢
        split at hoffers
        · rw [if_pos ‹_›]
          exact hoffers
        · rw [if_neg ‹_›, Array.size_push]
          exact Nat.lt_succ_of_lt hoffers
      obtain ⟨hinv, hfunctions⟩ := hs.modifyAt (fun _ _ fs hd' ht =>
        ht.push_capture c (by rw [hfs fs hd']; exact Nat.lt_of_not_le hsize)) hlinks hnested
      refine ⟨hinv, ?_⟩
      rw [functionAt_of_functions hfunctions (by omega), if_pos rfl]
      simp

/-- That a local is captured is noted with it, and the functions stay linked. -/
theorem Links.flag {inner fs : FunctionState} {rest : List FunctionState} {slot : Nat}
    (h : Links inner (fs :: rest)) :
    Links inner ({ fs with
      locals := fs.locals.modify slot (fun l => { l with captured := true }) } :: rest) := by
  intro c hc
  have hoffers := h c hc
  unfold FunctionState.Offers at hoffers ⊢
  split at hoffers
  · obtain ⟨l, hl, hcaptured⟩ := hoffers
    rw [if_pos ‹_›]
    unfold FunctionState.Flagged
    rw [Array.getElem?_modify]
    split
    · exact ⟨{ l with captured := true }, by simp_all, rfl⟩
    · exact ⟨l, hl, hcaptured⟩
  · rw [if_neg ‹_›]
    exact hoffers

/-- **`resolveCapture_spec`** — a variable of a function around is captured by each of the functions
between. The induction is on how many functions are around. -/
theorem resolveCapture_spec {name : String} (levels : Nat) :
    ∀ d, (v.known → d + levels ≤ vs.length) →
      Triple (Inv tip (v :: vs) n) (resolveCapture name d levels) fun r s =>
        Inv tip (v :: vs) n s ∧ ∀ index, r = some index →
          index < (s.functionAt d).captures.size := by
  induction levels with
  | zero => exact fun d _ => .pure fun s hs => ⟨hs, by simp⟩
  | succ levels ih =>
    intro d hd
    have hd' : v.known → d < vs.length := fun hknown => by
      have := hd hknown
      omega
    refine .bind (resolveLocal_spec hd') fun r => ?_
    cases r with
    | some slot =>
      -- a local of the next function out is marked and captured
      refine .bind (Q := fun _ s => Inv tip (v :: vs) n s ∧
        (s.functionAt (d + 1)).Offers ⟨true, slot⟩) (modifyFunctionAt_spec ?_) fun _ => ?_
      · rintro s ⟨hs, hvalue⟩
        have hvalue := hvalue slot rfl
        have hlength : d + 1 < s.functions.length := by
          rw [hs.length_functions]
          exact Nat.succ_lt_succ (hd' hs.known)
        have hat : s.functions[d + 1]? = some (s.functionAt (d + 1)) := by
          rw [State.functionAt_eq, List.getD_eq_getElem?_getD, List.getElem?_eq_getElem hlength]
          rfl
        obtain ⟨hinv, hfunctions⟩ := hs.modifyAt (d := d + 1)
          (f := fun fs => { fs with
            locals := fs.locals.modify slot (fun l => { l with captured := true }) })
          (fun _ _ fs hfs ht => ht.flag (ht.lt_of_hasValue (by
            rw [Option.some.inj (hfs.symm.trans hat)]
            exact hvalue)))
          (fun _ _ _ _ hl => hl.congr rfl) fun _ _ _ _ hl => hl.flag
        refine ⟨hinv, ?_⟩
        obtain ⟨l, hl, -⟩ := hvalue
        rw [functionAt_of_functions hfunctions hlength, if_pos rfl]
        show FunctionState.Flagged _ slot
        unfold FunctionState.Flagged
        rw [Array.getElem?_modify, if_pos rfl]
        exact ⟨{ l with captured := true }, by simp_all, rfl⟩
      · refine .bind (addCapture_spec hd') fun index => .pure ?_
        rintro s ⟨hs, hlt⟩
        exact ⟨hs, fun index' h => Option.some.inj h ▸ hlt⟩
    | none =>
      -- the variable is further out, if anywhere: the next function out captures it first
      refine .bind ((ih (d + 1) fun hknown => by have := hd hknown; omega).pre fun _ hs => hs.1)
        fun r => ?_
      cases r with
      | some index =>
        refine .bind ((addCapture_spec hd').pre fun s hs => ⟨hs.1, hs.2 index rfl⟩) fun index =>
          .pure ?_
        rintro s ⟨hs, hlt⟩
        exact ⟨hs, fun index' h => Option.some.inj h ▸ hlt⟩
      | none => exact .pure fun s hs => ⟨hs.1, by simp⟩

/-- The three ways to reach a variable. -/
def Access.IsVariable (a : Access) : Prop :=
  a.get = .getLocal ∧ a.set = .setLocal ∨ a.get = .getUpvalue ∧ a.set = .setUpvalue ∨
    a.get = .getGlobal ∧ a.set = .setGlobal

/-- The view when a variable is known to be there. -/
def View.reach (v : View) (a : Access) : View where
  toOutline := v.toOutline
  names := if a.get = .getGlobal then a.operand :: v.names else v.names
  captures := if a.get = .getUpvalue then max v.captures (a.operand + 1) else v.captures
  known := v.known ∧ a.operand < 65536 ∧ (a.get = .getLocal → a.operand < v.env.length)

theorem View.Weaker.reach {a : Access} : (v.reach a).Weaker v := by
  refine ⟨rfl, fun _ h => h, fun k hk => ?_, ?_, fun h => h.1⟩
  · simp only [View.reach]
    split
    · exact List.mem_cons_of_mem _ hk
    · exact hk
  · simp only [View.reach]
    split
    · exact Nat.le_max_left ..
    · exact Nat.le_refl _

/-- To find a variable takes nothing from the stack and leaves nothing on it. -/
theorem Outline.Ready.reach {a : Access} (hv : v.Ready) : (v.reach a).Ready :=
  hv

/-- A name always stands for a variable: a local, a captured one or a global. -/
theorem resolveVariable_isVariable (name : String) (s : State) :
    (resolveVariable name s).1.IsVariable := by
  have hbind : ∀ {α : Type} (c : Compile α) (f : α → Compile Access),
      (∀ a s, (f a s).1.IsVariable) → ∀ s, ((c >>= f) s).1.IsVariable :=
    fun c f h s => h (c s).1 (c s).2
  refine hbind _ _ (fun r s => ?_) s
  cases r with
  | some slot => exact .inl ⟨rfl, rfl⟩
  | none =>
    refine hbind _ _ (fun s₀ s => hbind _ _ (fun r s => ?_) s) s
    cases r with
    | some index => exact .inr (.inl ⟨rfl, rfl⟩)
    | none => exact hbind _ _ (fun k s => .inr (.inr ⟨rfl, rfl⟩)) s

/-- What is found can be read and assigned: the slot is declared, the captured variable is listed,
the name is a constant. -/
theorem resolveVariable_spec {name : String} :
    Triple (Inv tip (v :: vs) n) (resolveVariable name) fun a => Inv tip (v.reach a :: vs) n := by
  refine .bind (resolveLocal_spec fun _ => Nat.zero_le _) fun r => ?_
  cases r with
  | some slot =>
    -- a local of the function: its slot is below those that are there
    refine .pure ?_
    rintro s ⟨hs, hvalue⟩
    have hlt : slot < v.env.length := hs.head.lt_of_hasValue (hvalue slot rfl)
    have hsize := hs.head.locals_size
    have hslots : s.function.locals.size ≤ 65536 := hs.head.slots
    exact hs.weaken fun _ _ ht => ht.forget (fun _ h => h) (Nat.le_refl _) (fun _ h => h)
      fun hknown => ⟨hknown, show slot < 65536 by omega, fun _ => hlt⟩
  | none =>
    refine .get fun s₀ => .bind (Q := fun r s => Inv tip (v :: vs) n s ∧ ∀ index, r = some index →
      index < s.function.captures.size) ?_ fun r => ?_
    · have hcapture : Triple (Inv tip (v.know (s₀.enclosing.length ≤ vs.length) :: vs) n)
          (resolveCapture name 0 s₀.enclosing.length) _ :=
        resolveCapture_spec _ 0 fun hknown => (Nat.zero_add _).symm ▸ hknown.2
      refine (hcapture.post fun r s hs => ⟨hs.1.forget .know, hs.2⟩).pre ?_
      rintro s ⟨⟨hs, -⟩, rfl⟩
      exact hs.know (Nat.le_of_eq (Nat.succ.inj hs.length_functions))
    · cases r with
      | some index =>
        -- a captured variable: the view comes to know that there are so many captures
        refine .pure ?_
        rintro s ⟨hs, hindex⟩
        have hlt := hindex index rfl
        refine hs.update_head ?_ rfl
        exact
          { hs.head with
            known := ⟨hs.known, Nat.lt_of_lt_of_le hlt hs.head.captureCount, by simp⟩
            captures := Nat.max_le.mpr ⟨hs.head.captures, hlt⟩
            written := fun F hF => (hs.head.written F hF).imp fun _ hw =>
              ⟨hw.1, hw.2, hw.3, hw.4, hw.5, hw.6⟩ }
      | none =>
        refine .bind (nameConstant_spec.pre fun s hs => hs.1) fun index => .pure fun s hs => ?_
        exact hs.weaken fun _ _ ht => ht.forget (fun _ h => h) (Nat.le_refl _) (fun _ h => h)
          fun hknown => ⟨hknown.1, hknown.2, by simp⟩

/-- Both ways to use a variable, by its get and by its set, are open once it is found. -/
theorem View.finds_reach {a : Access} (ha : a.IsVariable) (hknown : (v.reach a).known) :
    (v.reach a).Finds a.get a.operand 0 ∧ (v.reach a).Finds a.set a.operand 0 := by
  obtain ⟨-, hlt, hslot⟩ := hknown
  obtain ⟨get, set, operand⟩ := a
  rcases ha with ⟨rfl, rfl⟩ | ⟨rfl, rfl⟩ | ⟨rfl, rfl⟩ <;> constructor <;> constructor <;>
    simp_all [Instruction.make, Instruction.InRange, Operation.shape, Instruction.names,
      Operation.usesSlot, Operation.usesCapture, View.reach]

/-- A variable is read. -/
theorem emitGet_spec {a : Access} (ha : a.IsVariable) (hv : v.Ready) :
    Triple (Inv .plain ((v.reach a).up k :: vs) n) (emit a.get a.operand) fun _ =>
      Inv .plain ((v.reach a).up (k + 1) :: vs) n := by
  have hop : isOrdinary a.get = true := by
    rcases ha with ⟨h, -⟩ | ⟨h, -⟩ | ⟨h, -⟩ <;> rw [h] <;> rfl
  have heffect : (Instruction.make a.get a.operand 0).effect = ⟨0, 0, 1⟩ := by
    rcases ha with ⟨h, -⟩ | ⟨h, -⟩ | ⟨h, -⟩ <;> rw [h] <;> rfl
  have hspec : Triple (Inv .plain ((v.reach a).up k :: vs) n) (emit a.get a.operand) _ :=
    emit_spec hv.reach hop (fun hknown => (View.finds_reach ha hknown).1)
      (by rw [heffect]; exact Nat.zero_le _)
  rw [heffect] at hspec
  exact hspec

/-- A variable is assigned the value on top of the stack, which stays there. -/
theorem emitSet_spec {a : Access} (ha : a.IsVariable) (hv : v.Ready) :
    Triple (Inv .plain ((v.reach a).up (k + 1) :: vs) n) (emit a.set a.operand) fun _ =>
      Inv .plain ((v.reach a).up (k + 1) :: vs) n := by
  have hop : isOrdinary a.set = true := by
    rcases ha with ⟨-, h⟩ | ⟨-, h⟩ | ⟨-, h⟩ <;> rw [h] <;> rfl
  have heffect : (Instruction.make a.set a.operand 0).effect = ⟨1, 0, 0⟩ := by
    rcases ha with ⟨-, h⟩ | ⟨-, h⟩ | ⟨-, h⟩ <;> rw [h] <;> rfl
  have hspec : Triple (Inv .plain ((v.reach a).up (k + 1) :: vs) n) (emit a.set a.operand) _ :=
    emit_spec hv.reach hop (fun hknown => (View.finds_reach ha hknown).2)
      (by rw [heffect]; exact Nat.le_add_left ..)
  rw [heffect] at hspec
  exact hspec

/-! ## Nested functions -/

/-- A new function starts without code, within those that were being compiled. -/
theorem pushFunction_spec {kind : FunctionKind} {name : Option String} :
    Triple (Inv .plain (v :: vs) n) (pushFunction kind name) fun _ =>
      Inv .bare (.initial v.known :: v :: vs) n := by
  refine .modify (fun _ => rfl) fun s hs => ?_
  exact
    { calm := hs.calm
      functions := ⟨Tracks.initial hs.known kind name, by simp [Links, FunctionState.start], hs.functions⟩
      image := hs.image
      path := hs.path
      last := hs.last
      rest := hs.rest
      budget := hs.budget }

/-- What is known of a function that has been compiled and is not yet part of the image. -/
structure Finished (arity : Nat) (fs : FunctionState) (s : State) : Prop where
  arity : fs.arity = arity
  constants : fs.finalChunk.constants.size ≤ Chunk.maxConstants
  refs : ∀ r, Value.obj r ∈ fs.finalChunk.constants → r.index < s.image.size
  disciplined : ∃ listing, Disciplined (pool s.image fs.finalChunk.constants fs.captures.size)
      fs.arity fs.finalChunk.code fs.statements fs.closures listing ∧
    Annotates (pool s.image fs.finalChunk.constants fs.captures.size) fs.finalChunk listing
  captures : ∀ c ∈ fs.captures, s.function.Offers c
  count : fs.captures.size ≤ maxSlots

/-- A finished function stays so in a larger image. -/
theorem Finished.extend {arity : Nat} {fs : FunctionState} {s' : State} (h : Finished arity fs s)
    (hfunction : s'.function = s.function) (himage : Extended s.image s'.image) :
    Finished arity fs s' where
  arity := h.arity
  constants := h.constants
  refs r hr := Nat.lt_of_lt_of_le (h.refs r hr) himage.size_le
  disciplined := h.disciplined.imp fun _ hl =>
    ⟨hl.1.extend (pool_extends himage (.refl _) (Nat.le_refl _)),
      hl.2.of_notes ⟨rfl, rfl, rfl⟩ (pool_extends himage (.refl _) (Nat.le_refl _))⟩
  captures := hfunction ▸ h.captures
  count := h.count

theorem constants_finalChunk (fs : FunctionState) :
    fs.finalChunk.constants = fs.chunk.constants := by
  unfold FunctionState.finalChunk
  split
  · split <;> rfl
  · rfl

/-- The instruction that closes a function over its captures. The closure can be told apart from all
others as long as it does not capture the slot it is about to fill. -/
theorem emitClosure_spec {index : Nat} {captures : Array Capture} (hv : v.Usable)
    (hpositive : 0 < v.height)
    (htip : tip = .plain ∨ (tip = .fresh ∨ tip = .thunk) ∧ v.env.length ≤ v.height) :
    Triple (fun s => Inv .plain (v :: vs) n s ∧
        (s.function.pool s.image).isFunction index captures.size ∧
        (tip = .thunk → (s.function.pool s.image).isThunk index) ∧
        (∀ c ∈ captures, s.function.Offers c) ∧ s.function.landmark ∈ s.function.closures)
      (emitInstruction ⟨.closure, index, 0, captures.toList⟩) fun _ =>
      Inv tip (v.up 1 :: vs) n := by
  refine emitInstruction_spec fun s hs => ?_
  obtain ⟨hs, hfunction, hthunk, hoffers, hlandmark⟩ := hs
  have ht := hs.head
  -- a local that is offered has its mark, and a capture that is offered is one of the function
  have hflagged : ∀ c ∈ captures.toList, c.isLocal = true → s.function.Flagged c.index := by
    intro c hc hl
    have := hoffers c (Array.mem_toList_iff.mp hc)
    rwa [FunctionState.Offers, if_pos hl] at this
  have hcaptured : ∀ c ∈ captures.toList, c.isLocal = false →
      c.index < s.function.captures.size := by
    intro c hc hl
    have := hoffers c (Array.mem_toList_iff.mp hc)
    rwa [FunctionState.Offers, if_neg (by simp [hl])] at this
  have hsize := ht.locals_size
  -- the operands fit their widths, for there are only so many constants, slots and captures
  have hindex : index < 65536 := by
    obtain ⟨r, p, statements, closures, hr, -⟩ := hfunction
    exact Nat.lt_of_lt_of_le (Array.getElem?_eq_some_iff.mp hr).1 ht.constants
  have hrange : ∀ c ∈ captures.toList, c.index < 65536 := by
    intro c hc
    have hslots : s.function.locals.size ≤ 65536 := ht.slots
    have hcount : s.function.captures.size ≤ 65536 := ht.captureCount
    cases hl : c.isLocal with
    | true =>
      have := ht.flagged c.index (hflagged c hc hl)
      omega
    | false =>
      have := hcaptured c hc hl
      omega
  have hheight := hv.height
  have hadmits : Admits s.image v s.function false ⟨.closure, index, 0, captures.toList⟩ := by
    refine
      { inRange := ⟨hindex, rfl, hrange⟩
        constant := by simp
        names := by simp [Instruction.names]
        function := fun _ => by simpa using hfunction
        slot := by simp [Operation.usesSlot]
        capture := by simp [Operation.usesCapture]
        captured := ?_
        reads := hpositive
        taken := ?_
        fresh := by simp [Operation.needsFresh]
        fills := by simp [Operation.fills]
        held := hv.guarded.held ht
        assigned := by simp
        guarded := fun _ h hh => (hv.head_guard hh).2
        closing := by simp
        back := by simp
        lexical := fun _ => hv.lexical.1.symm
        within := hv.guarded.within }
    · intro c hc
      split <;> rename_i hl
      · have := ht.flagged c.index (hflagged c hc hl)
        omega
      · exact hcaptured c hc (Bool.eq_false_iff.mpr hl)
    · intro _ j hj hlt
      simp only [Instruction.effect] at hj
      omega
  refine hs.update_head (hs.head.emit_falling v.building (by simp) hadmits hv.guarded rfl rfl (by simp) hflagged
    (fun _ => ⟨_, hlandmark, rfl, ?_⟩) (by simp) (fun e he => .inl ⟨he, (hv.building e he).2⟩) ?_) rfl
  · intro c hc hl
    have := ht.flagged c.index (hflagged c hc hl)
    show c.index < s.function.locals.size
    omega
  · -- the closure is fresh if its captures lie below the slot that it fills
    rcases htip with htip | ⟨htip, hle⟩
    · exact .inl htip
    · refine .inr ⟨htip.imp_right fun ht => ⟨ht, hthunk ht⟩, rfl, fun c hc hl => ?_⟩
      exact Nat.lt_of_lt_of_le (ht.flagged c.index (hflagged c hc hl)) hle

/-- A finished function becomes an item of the image. -/
theorem addFunction_spec {arity : Nat} {fs : FunctionState} {name : Option Ref} {s₀ : State} {isStatic : Bool} :
    Triple (fun s => (Inv tip (v :: vs) n s ∧ Finished arity fs s ∧ ∀ r ∈ name, IsText s.image r) ∧ s = s₀)
      (addItem (.function
        { arity := fs.arity, captureCount := fs.captures.size, isStatic, name,
          path := some s₀.path, chunk := fs.finalChunk, docs := #[] } fs.statements fs.closures))
      fun r s => Inv tip (v :: vs) n s ∧ (∀ c ∈ fs.captures, s.function.Offers c) ∧
        ∃ p statements closures, s.image[r.index]? = some (.function p statements closures) ∧
          p.captureCount = fs.captures.size ∧ p.arity = arity := by
  refine .modifyGet (fun _ => rfl) ?_
  rintro s ⟨⟨hs, hfs, hname⟩, rfl⟩
  refine ⟨?_, hfs.captures, _, _, _, Array.getElem?_push_size, rfl, hfs.arity⟩
  exact
    { calm := hs.calm
      functions := hs.functions.extend_image (Extended.push _ _)
      image := hs.image.push fun p statements closures hp => by
        cases hp
        exact
          { constants := hfs.constants
            refs := hfs.refs
            name := fun r hr => ⟨(hname r hr).lt, hname r hr⟩
            path := fun r hr => by
              cases hr
              exact ⟨hs.path.lt, hs.path⟩
            disciplined := hfs.disciplined }
      path := hs.path.extend (Extended.push _ _)
      last := hs.last
      rest := hs.rest
      budget := hs.budget }

/-- **`endFunction_spec`** — a function is finished, and the one around it makes a closure of it. -/
theorem endFunction_spec (hw : w.Ready) (hholes : w.holes = []) (hloops : w.loops = [])
    (hentry : w.entry = w.arity) (hv : v.Usable) (hpositive : 0 < v.height)
    (htip : tip = .plain ∨ (tip = .fresh ∨ tip = .thunk) ∧ v.env.length ≤ v.height)
    (hthunk : tip = .thunk → w.arity = 0) :
    Triple (Inv .plain (w :: v :: vs) n) endFunction fun _ => Inv tip (v.up 1 :: vs) n := by
  refine .bind (emitReturn_spec hw) fun _ => .get fun s₀ => .bind .demanded fun _ => ?_
  refine .bind (Q := fun _ s => Inv .plain (v :: vs) n s ∧ Finished w.arity s₀.function s)
    (.modify (fun s => by split <;> rfl) ?_) fun _ => ?_
  · rintro s ⟨hs, rfl⟩
    obtain ⟨calm, ⟨htracks, hlinks, hrest⟩, image, path, last, rest, budget⟩ := hs
    cases he : s.enclosing with
    | nil =>
      rw [he] at hrest
      exact hrest.elim
    | cons outer enclosing =>
      rw [he] at hlinks hrest
      refine ⟨⟨calm, hrest, image, path, last, rest, budget⟩, htracks.arity, ?_, ?_, ?_, hlinks,
        htracks.captureCount⟩
      · rw [constants_finalChunk]
        exact htracks.constants
      · rw [constants_finalChunk]
        exact htracks.refs
      · exact htracks.disciplined hholes hloops hentry hw.lexical.2
  -- its name is a text of the image
  have hafter : ∀ name : Option Ref, Triple (fun s => Inv .plain (v :: vs) n s ∧
      Finished w.arity s₀.function s ∧ ∀ r ∈ name, IsText s.image r)
      (do
        let r ← addItem <| .function
          { arity := s₀.function.arity
            captureCount := s₀.function.captures.size
            isStatic := s₀.function.kind = .static
            name
            path := some (← get).path
            chunk := s₀.function.finalChunk
            docs := #[] }
          s₀.function.statements s₀.function.closures
        let constant ← makeConstant (.obj r)
        modifyFunction fun fs => { fs with closures := fs.landmark :: fs.closures }
        emitInstruction ⟨.closure, constant, 0, s₀.function.captures.toList⟩)
      fun _ => Inv tip (v.up 1 :: vs) n := by
    intro name
    refine .get fun s₁ => .bind addFunction_spec fun r => ?_
    refine .bind (makeConstant_spec (φ := fun s => (∀ c ∈ s₀.function.captures, s.function.Offers c) ∧
      ∃ p statements closures, s.image[r.index]? = some (.function p statements closures) ∧
        p.captureCount = s₀.function.captures.size ∧ p.arity = w.arity) ?_ fun _ _ h => h)
      fun index => ?_
    · rintro s ⟨-, p, statements, closures, hr, -⟩ r' hr'
      cases hr'
      exact (Array.getElem?_eq_some_iff.mp hr).1
    · refine .bind (.modify (fun _ => rfl) ?_) fun _ => emitClosure_spec hv hpositive htip
      rintro s ⟨hs, ⟨hoffers, p, statements, closures, hr, hp, harity⟩, hindex⟩
      exact ⟨hs.update_head hs.head.mark_closure rfl, ⟨r, p, statements, closures, hindex, hr, hp⟩,
        fun ht => ⟨r, p, statements, closures, hindex, hr, harity.trans (hthunk ht)⟩, hoffers,
        List.mem_cons_self⟩
  dsimp only
  split
  · refine .bind (.map (.modifyGet (fun _ => rfl) ?_)) hafter
    rintro s ⟨hs, hfs⟩
    obtain ⟨hinv, htext⟩ := hs.add_text _
    exact ⟨hinv, hfs.extend rfl (Extended.push _ _), fun r hr => Option.some.inj hr ▸ htext⟩
  · refine .bind (.pure ?_) hafter
    rintro s ⟨hs, hfs⟩
    exact ⟨hs, hfs, by simp⟩

/-- An operation that needs the closure that was just made. -/
theorem emitFresh_spec {op : Operation} {first second : Nat} (hv : v.Ready)
    (hop : op.needsFresh = true) (htip : tip.isFresh = true) (hspawn : op = .spawn → tip = .thunk)
    (h : v.known → v.Finds op first second)
    (hk : (Instruction.make op first second).effect.reads ≤ k) :
    Triple (Inv tip (v.up k :: vs) n) (emit op first second) fun _ =>
      Inv .plain (v.up (k - (Instruction.make op first second).effect.takes +
        (Instruction.make op first second).effect.leaves) :: vs) n := by
  have htakes := (Instruction.make op first second).takes_le_reads
  have hreceiver := hv.receiver
  have hvalues := hv.values
  -- only three operations need a fresh closure
  have hops : op = .method ∨ op = .extend ∨ op = .spawn := by
    revert hop
    cases op <;> simp [Operation.needsFresh]
  have hguard : ∀ h ∈ v.handlers.head?, h.height ≤ v.env.length := fun h hh =>
    (hv.head_guard hh).1
  have hadmits : ∀ s, Inv tip (v.up k :: vs) n s →
      Admits s.image (v.up k) s.function tip.isFresh (.make op first second) := by
    intro s hs
    obtain ⟨hrange, hnames, -, -⟩ := h hs.known
    refine
      { inRange := hrange
        constant := ?_
        names := fun i hi => hs.head.names i (hnames i hi)
        function := ?_
        slot := ?_
        capture := ?_
        captured := by simp [Instruction.make]
        reads := show _ < v.height + k by omega
        taken := fun _ j hj _ => hs.head.free_above (show v.env.length ≤ j by
          have : v.height + k - (Instruction.make op first second).effect.takes ≤ j := hj
          omega)
        fresh := fun _ => htip
        fills := ?_
        held := (hv.up k).guarded.held hs.head
        assigned := ?_
        guarded := fun _ h hh => by
          have := hguard h hh
          show h.height + _ ≤ v.height + k
          omega
        closing := ?_
        back := ?_
        lexical := fun _ => hv.lexical.1.symm
        within := hv.guarded.within }
    all_goals rcases hops with rfl | rfl | rfl <;> simp [Instruction.make, Operation.usesSlot,
      Operation.usesCapture, Operation.fills]
  have hshape : op.falls = true ∧ op.isForward = false ∧ op ≠ .closure := by
    rcases hops with rfl | rfl | rfl <;> decide
  refine Triple.post (falling_spec (hv.up k).toUsable hshape.1 hshape.2.1 hshape.2.2 hspawn
    (fun _ e he => ?_) (fun s hs => ⟨hs, hadmits s hs⟩) (.inr htip)) fun _ s hs => ?_
  · have hlt := (hv.building e he).2
    show e.1 < v.height + k - _
    omega
  -- the view counts from the locals, the effect from the top
  have hheight : (v.up k).height - (Instruction.make op first second).effect.takes +
      (Instruction.make op first second).effect.leaves =
      v.height + (k - (Instruction.make op first second).effect.takes +
        (Instruction.make op first second).effect.leaves) := by
    show v.height + k - _ + _ = _
    omega
  rw [hheight] at hs
  exact hs

/-- How a function with so many parameters is seen before it has any code. -/
def View.parameters (known : Prop) (count : Nat) : View :=
  { (View.initial known).inner.grow count with arity := count, entry := count }

/-- How a function is seen at the start of its body: its arguments are loaded as a list. -/
def View.body (known : Prop) (count : Nat) : View :=
  { (View.parameters known count).grow 1 with prologue := true }

/-- A function without code has nothing unfinished. -/
theorem Outline.Settled.initial (known : Prop) : (View.initial known).Settled where
  receiver := Nat.one_pos
  height := Nat.le_succ 1
  depths := by simp [View.initial]
  guards h outer hh := by simp [View.initial] at hh
  holes := by simp [View.initial]
  building := by simp [View.initial]
  tries := rfl
  lexical := ⟨rfl, rfl⟩
  loops := by constructor <;> simp [View.initial]
  values := Nat.le_refl _
  level := rfl
  awaiting := rfl
  finished := rfl

theorem Outline.Settled.body (known : Prop) (count : Nat) :
    (View.body known count).Settled ∧ (View.body known count).Roomy := by
  have hroom : (View.initial known).inner.Roomy := by
    intro l hl
    simp [View.initial, View.inner] at hl
  have h := ((Outline.Settled.initial known).inner.grow hroom count).grow hroom 1
  exact ⟨⟨⟨⟨h.receiver, h.height, h.depths, h.guards, h.holes, h.building, h.tries, h.lexical, h.loops⟩,
    h.values⟩, h.level, h.awaiting, h.finished⟩, hroom⟩

/-- One more parameter: its argument is on the stack already. -/
theorem View.parameters_succ {known : Prop} {count : Nat} :
    View.bound { View.parameters known count with
      arity := count + 1, entry := count + 1, height := (View.parameters known count).height + 1 } =
      View.parameters known (count + 1) := by
  simp [View.bound, View.parameters, View.grow, View.initial, View.inner, List.replicate_succ']
  omega

/-- Each parameter is a local, and there is no code for it. -/
theorem parameters_spec {known : Prop} :
    Triple (Inv .bare (.parameters known 0 :: vs) n) parameters fun _ s =>
      ∃ count, Inv .bare (.parameters known count :: vs) n s := by
  refine .bind check_skip fun b => .ite (fun _ => .pure fun s hs => ⟨0, hs⟩) fun _ => ?_
  refine (Triple.loop (I := fun s => ∃ count, Inv .bare (.parameters known count :: vs) n s)
    (.exists_pre fun count => ?_)).pre fun s hs => ⟨0, hs⟩
  refine .bind (modifyFunction_spec (fun _ _ ht => ht.add_argument rfl) fun _ => rfl) fun _ => ?_
  refine .get fun s₀ => .when (fun _ => ?_) (fun _ s hs => hs.1) ?_
  · exact (errorAtCurrent_spec.pre fun _ hs => hs.1).post fun _ _ h => h.elim
  · refine .bind (parseVariable_spec rfl) fun g => ?_
    rw [View.declared, if_neg (by simp [View.parameters, View.grow, View.inner])]
    refine .bind (defineVariable_local rfl (by simp [View.parameters, View.grow, View.inner]))
      fun _ => accept_spec.post fun again s hs => ?_
    have hs : ∃ count, Inv .bare (.parameters known count :: vs) n s :=
      ⟨count + 1, View.parameters_succ ▸ hs⟩
    cases again <;> exact hs

/-- How a function is seen while its arguments are being loaded. -/
def View.loading (known : Prop) (count : Nat) : View :=
  { (View.parameters known count).bound with prologue := true }

theorem Outline.Usable.loading (known : Prop) (count : Nat) :
    (View.loading known count).Usable := by
  have hroom : (View.initial known).inner.Roomy := by
    intro l hl
    simp [View.initial, View.inner] at hl
  have h := ((Outline.Settled.initial known).inner.grow hroom count).bound hroom
  exact ⟨h.receiver, h.height, h.depths, h.guards, h.holes, h.building, h.tries, h.lexical, h.loops⟩

/-- The hidden list of arguments is one more local above the parameters. -/
theorem emitArgsPrologue_spec {known : Prop} {count : Nat} :
    Triple (Inv .bare (.parameters known count :: vs) n) emitArgsPrologue fun _ =>
      Inv .plain (.body known count :: vs) n := by
  have hdepth : (View.parameters known count).depth ≠ 0 := by
    simp [View.parameters, View.grow, View.inner]
  refine .bind ((addReadyLocal_spec rfl hdepth).post fun r s hs => hs.forget .know) fun r => ?_
  refine .bind (modifyFunction_spec (fun _ _ ht => ht.begin_prologue) fun _ => rfl) fun _ => ?_
  refine .bind nameConstant_spec fun g => emitInstruction_spec fun s hs => ?_
  have husable : ((View.loading known count).name g).Usable := Outline.Usable.loading known count
  have haccepts : ((View.loading known count).name g).Accepts (.make .getGlobal g 0) := by
    refine ⟨⟨hs.known.2, rfl, rfl⟩, ?_, ?_, ?_, ?_, .inl rfl, fun _ he => absurd he List.not_mem_nil,
      fun _ _ he => absurd he List.not_mem_nil⟩
    · simp [Instruction.make, Instruction.names, View.name]
    · simp [Instruction.make, Operation.usesSlot]
    · simp [Instruction.make, Operation.usesCapture]
    · show 0 < 1 + count
      omega
  have htracks : Tracks s.image .plain
      (((View.loading known count).name g).tipped (1 + count + 1) [] [] [] [])
      (s.function.emit (.make .getGlobal g 0) s.previous.line) :=
    hs.head.emit_falling _ (by simp) (haccepts.admits husable rfl hs.head _) husable.guarded rfl rfl
      (by simp [Instruction.make]) (by simp [Instruction.make]) (by simp [Instruction.make])
      (fun _ _ => rfl) (by simp) (.inl rfl)
  exact (hs.update_head htracks rfl).forget
    ⟨rfl, fun _ h => h, fun _ h => List.mem_cons_of_mem _ h, Nat.le_refl _, fun h => h.1⟩

end ScriptMachine.Compiler
