import Mathlib
import ScriptMachine.Proofs.Code.Discipline

/-!
# ScriptMachine.Proofs.Compiler.Assembly — code that is still being written

Code under construction differs from finished code in two ways. Branches ahead may still be open:
a *claim* says where the distance of such a branch is to be filled in and in which situation its
target will be. And the end of the code, the *tip*, has a situation of its own while control can get
there. `Assembled` is the discipline of finished code, weakened by these two.

Which slots may be shared at the tip and at open targets is told by one predicate `cap` for all of
them. It grows while closures are written, so that a claim never has to be revisited.

A branch is written before it is known how far it goes, so code in the making has holes. The invariant has
three parts: the code is that of a listing, each hole is claimed by someone who knows what the target will
look like, and every other way out of an instruction already agrees with where it leads. Filling in a hole
turns a claim into such a way out, and when no claim is left the listing is disciplined.

All of this is about one function by itself. How claims are handed around while statements are nested is
the business of the views (`Invariant`).
-/

namespace ScriptMachine

/-- A branch ahead that is still open: where its distance is to be filled in, and the height, the
handlers and the unfinished collections at its target. Only slots below `limit` may be shared
there. -/
structure Claim where
  place : Nat
  height : Nat
  handlers : List Guard
  limit : Nat
  building : List (Nat × Collection)
deriving Repr, DecidableEq

/-- The situation at the target of an open branch. -/
def Claim.situation (cap : Nat → Prop) (c : Claim) : Situation :=
  ⟨c.height, c.handlers, fun j => cap j ∧ j < c.limit, false, fun j k => (j, k) ∈ c.building⟩

/-- What waits at an installed handler, with `outer` as the handlers around it. -/
def Guard.claim (h : Guard) (outer : List Guard) : Claim :=
  ⟨h.operand, h.height + 1, outer, h.height, []⟩

/-- A claim only looks at the slots below its limit. -/
theorem Claim.situation_mono {cap cap' : Nat → Prop} {c : Claim}
    (h : ∀ j < c.limit, cap j → cap' j) : (c.situation cap).Flows (c.situation cap') :=
  ⟨rfl, rfl, fun j hj => ⟨h j hj.2 hj.1, hj.2⟩, id, fun _ _ hk => hk⟩

/-- The situation at an offset: that of an instruction, or that of the tip. -/
def At (listing : List Placed) (tip : Option Situation) (o : Nat) (s : Situation) : Prop :=
  (∃ q ∈ listing, q.offset = o ∧ q.situation = s) ∨ (o = (codeOf listing).length ∧ tip = some s)

/-- Where control that leaves in situation `t` through an exit ends up. -/
def Lands (claims : List Claim) (cap : Nat → Prop) (listing : List Placed) (tip : Option Situation)
    (t : Situation) : Exit → Prop
  | .direct o => ∃ s, At listing tip o s ∧ t.Flows s
  | .through a =>
    (∃ c ∈ claims, c.place = a ∧ t.Flows (c.situation cap)) ∨
    ((∀ c ∈ claims, c.place ≠ a) ∧
      ∃ b ∈ listing, b.offset + 1 = a ∧ b.instr.op.isForward = true ∧
        ∃ s, At listing tip (a + 2 + b.instr.first) s ∧ t.Flows s)

/-- **`Assembled`** — the code is that of the listing, and every way through it agrees with the
situations in the listing, in the open claims and at the tip. -/
structure Assembled (pool : Pool) (claims : List Claim) (cap : Nat → Prop) (arity : Nat)
    (code : Array UInt8) (statements closures : List Landmark) (tip : Option Situation)
    (listing : List Placed) : Prop where
  code_eq : code.toList = codeOf listing
  contiguous : Contiguous 0 listing
  suits : ∀ q ∈ listing, q.instr.Suits pool q.offset q.situation
  entry : Lands claims cap listing tip (.entry arity) (.direct 0)
  exits : ∀ q ∈ listing, ∀ e t, Leads q.offset q.instr q.situation e t →
    Lands claims cap listing tip t e
  placed : ∀ c ∈ claims, ∃ b ∈ listing, b.offset + 1 = c.place ∧ b.instr.op.isForward = true
  distinct : (claims.map Claim.place).Nodup
  statements : ∀ l ∈ statements, ∃ s, At listing tip l.offset s ∧ s.height = l.locals
  closures : ∀ q ∈ listing, q.instr.op = .closure →
    ∃ l ∈ closures, l.offset = q.offset ∧
      ∀ c ∈ q.instr.captures, c.isLocal = true → c.index < l.locals

variable {pool pool' : Pool} {claims claims' : List Claim} {cap cap' : Nat → Prop} {arity : Nat}
  {code : Array UInt8} {statements closures closures' : List Landmark}
  {tip tip' : Option Situation} {listing : List Placed}

/-! ## Weakening -/

theorem At.weaken {o : Nat} {s : Situation} (h : At listing tip o s)
    (htip : ∀ s, tip = some s → ∃ s', tip' = some s' ∧ s.Flows s') :
    ∃ s', At listing tip' o s' ∧ s.Flows s' := by
  rcases h with ⟨q, hq, ho, rfl⟩ | ⟨ho, hs⟩
  · exact ⟨q.situation, .inl ⟨q, hq, ho, rfl⟩, .refl _⟩
  · obtain ⟨s', hs', hflows⟩ := htip s hs
    exact ⟨s', .inr ⟨ho, hs'⟩, hflows⟩

/-- What is expected somewhere may ask for less, and the tip may be known better. -/
theorem Lands.weaken {t : Situation} {e : Exit} (h : Lands claims cap listing tip t e)
    (hcap : ∀ c ∈ claims, ∀ j < c.limit, cap j → cap' j)
    (htip : ∀ s, tip = some s → ∃ s', tip' = some s' ∧ s.Flows s') :
    Lands claims cap' listing tip' t e := by
  cases e with
  | direct o =>
    obtain ⟨s, hs, hflows⟩ := h
    obtain ⟨s', hs', hflows'⟩ := hs.weaken htip
    exact ⟨s', hs', hflows.trans hflows'⟩
  | through a =>
    rcases h with ⟨c, hc, ha, hflows⟩ | ⟨hopen, b, hb, ha, hop, s, hs, hflows⟩
    · exact .inl ⟨c, hc, ha, hflows.trans (Claim.situation_mono (hcap c hc))⟩
    · obtain ⟨s', hs', hflows'⟩ := hs.weaken htip
      exact .inr ⟨hopen, b, hb, ha, hop, s', hs', hflows.trans hflows'⟩

/-- More constants, more shared slots below the limits of the open claims, more closures, and a
weaker tip; where control cannot get to the tip, it may be anything. -/
theorem Assembled.weaken
    (h : Assembled pool claims cap arity code statements closures tip listing)
    (hpool : pool.Extends pool') (hcap : ∀ c ∈ claims, ∀ j < c.limit, cap j → cap' j)
    (hclosures : ∀ l ∈ closures, l ∈ closures')
    (htip : ∀ s, tip = some s → ∃ s', tip' = some s' ∧ s.Flows s') :
    Assembled pool' claims cap' arity code statements closures' tip' listing where
  code_eq := h.code_eq
  contiguous := h.contiguous
  suits q hq := (h.suits q hq).extend hpool
  entry := h.entry.weaken hcap htip
  exits q hq e t he := (h.exits q hq e t he).weaken hcap htip
  placed := h.placed
  distinct := h.distinct
  statements l hl := by
    obtain ⟨s, hs, hheight⟩ := h.statements l hl
    obtain ⟨s', hs', hflows⟩ := hs.weaken htip
    exact ⟨s', hs', hflows.height.symm.trans hheight⟩
  closures q hq hop := by
    obtain ⟨l, hl, hoffset, hcaptures⟩ := h.closures q hq hop
    exact ⟨l, hclosures l hl, hoffset, hcaptures⟩

/-- The order of the claims does not matter. -/
theorem Assembled.perm (h : Assembled pool claims cap arity code statements closures tip listing)
    (hperm : claims.Perm claims') :
    Assembled pool claims' cap arity code statements closures tip listing := by
  have hlands : ∀ {t e}, Lands claims cap listing tip t e → Lands claims' cap listing tip t e := by
    intro t e hl
    cases e with
    | direct o => exact hl
    | through a =>
      rcases hl with ⟨c, hc, hrest⟩ | ⟨hopen, hrest⟩
      · exact .inl ⟨c, hperm.mem_iff.mp hc, hrest⟩
      · exact .inr ⟨fun c hc => hopen c (hperm.mem_iff.mpr hc), hrest⟩
  exact
    { h with
      entry := hlands h.entry
      exits := fun q hq e t he => hlands (h.exits q hq e t he)
      placed := fun c hc => h.placed c (hperm.mem_iff.mpr hc)
      distinct := (hperm.map _).nodup_iff.mp h.distinct }

/-- A statement starts at the tip. -/
theorem Assembled.mark {s : Situation}
    (h : Assembled pool claims cap arity code statements closures (some s) listing) :
    Assembled pool claims cap arity code (⟨code.size, s.height⟩ :: statements) closures (some s)
      listing :=
  { h with
    statements := by
      intro l hl
      rcases List.mem_cons.mp hl with rfl | hl
      · exact ⟨s, .inr ⟨by rw [← h.code_eq, Array.length_toList], rfl⟩, rfl⟩
      · exact h.statements l hl }

/-! ## One more instruction -/

section Emit

variable {s : Situation} {i : Instruction}

/-- What stood somewhere stands there still, and what the tip was is an instruction now. -/
theorem At.emit {o : Nat} {t : Situation} (h : At listing (some s) o t) :
    At (listing ++ [⟨(codeOf listing).length, i, s⟩]) tip' o t := by
  rcases h with ⟨q, hq, ho, hs⟩ | ⟨rfl, hs⟩
  · exact .inl ⟨q, List.mem_append_left _ hq, ho, hs⟩
  · obtain rfl : s = t := Option.some.inj hs
    exact .inl ⟨_, List.mem_append_right _ (List.mem_singleton.mpr rfl), rfl, rfl⟩

/-- One more instruction: what led to the tip leads to it, and new claims are about the branch that
it is. -/
theorem Lands.emit {new : List Claim} {t : Situation} {e : Exit}
    (h : Lands claims cap listing (some s) t e) (hcontiguous : Contiguous 0 listing)
    (hnew : ∀ c ∈ new, c.place = (codeOf listing).length + 1) :
    Lands (new ++ claims) cap (listing ++ [⟨(codeOf listing).length, i, s⟩]) tip' t e := by
  cases e with
  | direct o =>
    obtain ⟨u, hu, hflows⟩ := h
    exact ⟨u, hu.emit, hflows⟩
  | through a =>
    rcases h with ⟨c, hc, ha, hflows⟩ | ⟨hopen, b, hb, ha, hop, u, hu, hflows⟩
    · exact .inl ⟨c, List.mem_append_right _ hc, ha, hflows⟩
    · refine .inr ⟨?_, b, List.mem_append_left _ hb, ha, hop, u, hu.emit, hflows⟩
      intro c hc
      rcases List.mem_append.mp hc with hc | hc
      · -- the branch of a new claim stands behind all earlier instructions
        have hend := hcontiguous.end_le b hb
        have hpos := b.instr.width_pos
        have := hnew c hc
        omega
      · exact hopen c hc

/-- **`Assembled.emit`** — an instruction that suits the situation at the tip goes there. -/
theorem Assembled.emit {new : List Claim} {bytes : Array UInt8}
    (h : Assembled pool claims cap arity code statements closures (some s) listing)
    (hbytes : bytes.toList = code.toList ++ i.encode)
    (hsuits : i.Suits pool code.size s)
    (hnew : ∀ c ∈ new, c.place = code.size + 1) (hlength : new.length ≤ 1)
    (hforward : new ≠ [] → i.op.isForward = true)
    (hclosure : i.op = .closure → ∃ l ∈ closures, l.offset = code.size ∧
      ∀ c ∈ i.captures, c.isLocal = true → c.index < l.locals)
    (hexits : ∀ e t, Leads code.size i s e t →
      Lands (new ++ claims) cap (listing ++ [⟨code.size, i, s⟩]) tip' t e) :
    Assembled pool (new ++ claims) cap arity bytes statements closures tip'
      (listing ++ [⟨code.size, i, s⟩]) := by
  have hsize : code.size = (codeOf listing).length := by rw [← h.code_eq, Array.length_toList]
  rw [hsize] at hsuits hnew hclosure hexits ⊢
  refine
    { code_eq := by rw [hbytes, h.code_eq, codeOf_append]; simp [codeOf]
      contiguous := contiguous_append.mpr
        ⟨h.contiguous, by simpa [Contiguous] using hsuits.inRange⟩
      suits := ?_
      entry := h.entry.emit h.contiguous hnew
      exits := ?_
      placed := ?_
      distinct := ?_
      statements := ?_
      closures := ?_ }
  · intro q hq
    rcases List.mem_append.mp hq with hq | hq
    · exact h.suits q hq
    · obtain rfl := List.mem_singleton.mp hq
      exact hsuits
  · intro q hq e t he
    rcases List.mem_append.mp hq with hq | hq
    · exact (h.exits q hq e t he).emit h.contiguous hnew
    · obtain rfl := List.mem_singleton.mp hq
      exact hexits e t he
  · intro c hc
    rcases List.mem_append.mp hc with hc | hc
    · exact ⟨_, List.mem_append_right _ (List.mem_singleton.mpr rfl), (hnew c hc).symm,
        hforward (List.ne_nil_of_mem hc)⟩
    · obtain ⟨b, hb, ha, hop⟩ := h.placed c hc
      exact ⟨b, List.mem_append_left _ hb, ha, hop⟩
  · -- a new branch stands where no other one can, at the end of the code
    rcases new with _ | ⟨c, _ | ⟨d, rest⟩⟩
    · exact h.distinct
    · refine List.nodup_cons.mpr ⟨?_, h.distinct⟩
      intro hmem
      obtain ⟨c', hc', heq⟩ := List.mem_map.mp hmem
      obtain ⟨b, hb, ha, -⟩ := h.placed c' hc'
      have hend := h.contiguous.end_le b hb
      have hpos := b.instr.width_pos
      have := hnew c (List.mem_singleton.mpr rfl)
      omega
    · simp at hlength
  · intro l hl
    obtain ⟨u, hu, hheight⟩ := h.statements l hl
    exact ⟨u, hu.emit, hheight⟩
  · intro q hq hop
    rcases List.mem_append.mp hq with hq | hq
    · exact h.closures q hq hop
    · obtain rfl := List.mem_singleton.mp hq
      exact hclosure hop

end Emit

/-! ## Filling in a branch -/

section Patch

/-- An instruction with another first operand. -/
def Placed.aim (q : Placed) (distance : Nat) : Placed :=
  { q with instr := { q.instr with first := distance } }

section Aim

variable {i : Instruction} (hop : i.op.isForward = true)
include hop

/-- A forward branch is its operation and a distance of two bytes. -/
theorem Instruction.encode_forward : i.encode = i.op.code :: wordBytes i.first := by
  unfold encode operandBytes
  rcases op_of_forward hop with h | h | h | h <;> simp only [h, Operation.shape]

theorem Instruction.names_forward : i.names = [] := by
  unfold names
  rcases op_of_forward hop with h | h | h | h <;> simp only [h]

/-- How far a branch ahead goes does not change its effect. -/
theorem Instruction.effect_aim (d : Nat) : effect { i with first := d } = i.effect := by
  unfold effect
  rcases op_of_forward hop with h | h | h | h <;> simp only [h]

/-- Nothing but its range depends on how far a branch goes. -/
theorem Instruction.Suits.aim {o d : Nat} {s : Situation} (h : i.Suits pool o s)
    (hd : d < 65536) : Instruction.Suits pool o s { i with first := d } := by
  have hne : i.op ≠ .constant ∧ i.op ≠ .closure ∧ i.op ≠ .loop ∧ i.op ≠ .setLocal ∧
      i.op.usesSlot = false ∧ i.op.usesCapture = false := by
    rcases op_of_forward hop with h | h | h | h <;> simp [h, Operation.usesSlot,
      Operation.usesCapture]
  obtain ⟨hconstant, hclosure, hloop, hassign, hslot, hcapture⟩ := hne
  have hrange := (inRange_forward_iff hop).mp h.inRange
  have heffect := effect_aim hop d
  refine
    { inRange := (inRange_forward_iff (i := { i with first := d }) hop).mpr ⟨hd, hrange.2⟩
      constant := fun hc => absurd hc hconstant
      names := ?_
      function := fun hf => absurd hf hclosure
      slot := fun hs => by rw [hslot] at hs; cases hs
      capture := fun hc => by rw [hcapture] at hc; cases hc
      captured := h.captured
      reads := by rw [heffect]; exact h.reads
      shared := h.shared
      taken := by rw [heffect]; exact h.taken
      fresh := h.fresh
      fills := by rw [heffect]; exact h.fills
      held := h.held
      assigned := fun ha => absurd ha hassign
      guarded := by rw [heffect]; exact h.guarded
      closing := h.closing
      back := fun hl => absurd hl hloop }
  rw [names_forward (i := { i with first := d }) hop]
  simp

/-- A branch ahead can be left in the same ways however far it goes. -/
theorem Leads.of_aim {o d : Nat} {s t : Situation} {e : Exit}
    (h : Leads o { i with first := d } s e t) : Leads o i s e t := by
  have hnext : s.next o { i with first := d } = s.next o i := by
    unfold Situation.next
    rw [Instruction.effect_aim hop]
  cases h with
  | fall h => exact hnext ▸ .fall h
  | back h =>
    rcases Instruction.op_of_forward hop with h' | h' | h' | h' <;> rw [h'] at h <;> cases h
  | ahead h => exact .ahead h
  | raise h hs => exact .raise h hs

end Aim

section Aimed

variable {b : Placed} {l₁ l₂ : List Placed} {distance : Nat}

/-- A distance takes two bytes, whatever it is. -/
theorem length_codeOf_aim (hop : b.instr.op.isForward = true) :
    (codeOf (l₁ ++ b.aim distance :: l₂)).length = (codeOf (l₁ ++ b :: l₂)).length := by
  simp only [codeOf_append, codeOf_cons, List.length_append, Instruction.encode_forward hop,
    Instruction.encode_forward (i := (b.aim distance).instr) hop, List.length_cons,
    Instruction.length_wordBytes]

theorem At.aim {o : Nat} {t : Situation} (hop : b.instr.op.isForward = true)
    (h : At (l₁ ++ b :: l₂) tip o t) : At (l₁ ++ b.aim distance :: l₂) tip o t := by
  rcases h with ⟨q, hq, ho, ht⟩ | ⟨ho, ht⟩
  · rcases List.mem_append.mp hq with hq | hq
    · exact .inl ⟨q, List.mem_append_left _ hq, ho, ht⟩
    · rcases List.mem_cons.mp hq with rfl | hq
      · exact .inl ⟨q.aim distance, by simp, ho, ht⟩
      · exact .inl ⟨q, by simp [hq], ho, ht⟩
  · exact .inr ⟨by rw [length_codeOf_aim hop]; exact ho, ht⟩

/-- Filling in the distance of the claim `c` meets it; everything else lands where it did. -/
theorem Lands.aim {s t : Situation} {before after : List Claim} {c : Claim} {e : Exit}
    (hop : b.instr.op.isForward = true) (hb : b.offset + 1 = c.place)
    (hdistinct : ((before ++ c :: after).map Claim.place).Nodup)
    (hs : (c.situation cap).Flows s)
    (hd : c.place + 2 + distance = (codeOf (l₁ ++ b :: l₂)).length)
    (h : Lands (before ++ c :: after) cap (l₁ ++ b :: l₂) (some s) t e) :
    Lands (before ++ after) cap (l₁ ++ b.aim distance :: l₂) (some s) t e := by
  cases e with
  | direct o =>
    obtain ⟨u, hu, hflows⟩ := h
    exact ⟨u, hu.aim hop, hflows⟩
  | through a =>
    rcases h with ⟨c', hc', ha, hflows⟩ | ⟨hopen, b', hb', ha, hop', u, hu, hflows⟩
    · by_cases hac : a = c.place
      · -- the claim is the one that is met: operands are distinct
        subst hac
        have hothers : ∀ c' ∈ before ++ after, c'.place ≠ c.place := by
          intro c' hc' heq
          have : (c.place :: (before ++ after).map Claim.place).Nodup := by
            rw [List.map_append, List.map_cons] at hdistinct
            rw [List.map_append]
            exact List.perm_middle.nodup_iff.mp hdistinct
          exact (List.nodup_cons.mp this).1 (heq ▸ List.mem_map_of_mem hc')
        obtain rfl : c' = c := by
          by_contra hne
          refine hothers c' ?_ ha
          simpa [hne] using hc'
        refine .inr ⟨hothers, b.aim distance, by simp, hb, hop, s, .inr ⟨?_, rfl⟩,
          hflows.trans hs⟩
        rw [length_codeOf_aim hop]
        exact hd
      · refine .inl ⟨c', ?_, ha, hflows⟩
        have hne : c' ≠ c := fun heq => hac (heq ▸ ha.symm)
        simpa [hne] using hc'
    · -- the way leads through another branch, which has its distance already
      refine .inr ⟨fun c' hc' => hopen c' ?_, b', ?_, ha, hop', u, hu.aim hop, hflows⟩
      · rcases List.mem_append.mp hc' with hc' | hc' <;> simp [hc']
      · have hne : b' ≠ b := by
          rintro rfl
          exact hopen c (by simp) (hb.symm.trans ha)
        simpa [hne] using (by simpa [hne] using hb' : b' ∈ l₁ ∨ b' ∈ l₂).imp id Or.inr

end Aimed

/-- A listing with the distance of one branch filled in. -/
def Aimed (place distance : Nat) (listing listing' : List Placed) : Prop :=
  ∃ l₁ b l₂, b.offset + 1 = place ∧ b.instr.op.isForward = true ∧ listing = l₁ ++ b :: l₂ ∧
    listing' = l₁ ++ b.aim distance :: l₂

theorem Aimed.map_op {place distance : Nat} {listing' : List Placed}
    (h : Aimed place distance listing listing') :
    listing'.map (·.instr.op) = listing.map (·.instr.op) := by
  obtain ⟨l₁, b, l₂, -, -, rfl, rfl⟩ := h
  simp [Placed.aim]

/-- **`Assembled.patch`** — the claim that the tip satisfies is met by filling in the distance to
it. -/
theorem Assembled.patch {s : Situation} {before after : List Claim} {c : Claim} {distance : Nat}
    (h : Assembled pool (before ++ c :: after) cap arity code statements closures (some s) listing)
    (hs : (c.situation cap).Flows s) (hd : c.place + 2 + distance = code.size)
    (hrange : distance < 65536) :
    ∃ listing', Assembled pool (before ++ after) cap arity
      (Chunk.overwrite code c.place (Instruction.wordBytes distance)) statements closures
      (some s) listing' ∧
      Aimed c.place distance listing listing' ∧
      ∀ t e, Lands (before ++ c :: after) cap listing (some s) t e →
        Lands (before ++ after) cap listing' (some s) t e := by
  obtain ⟨b, hb, hoperand, hop⟩ := h.placed c (by simp)
  obtain ⟨l₁, l₂, rfl⟩ := List.append_of_mem hb
  have hsize : code.size = (codeOf (l₁ ++ b :: l₂)).length := by
    rw [← h.code_eq, Array.length_toList]
  -- what expected to land at the end of the code does so at the branch that is met
  have hlands : ∀ {t e}, Lands (before ++ c :: after) cap (l₁ ++ b :: l₂) (some s) t e →
      Lands (before ++ after) cap (l₁ ++ b.aim distance :: l₂) (some s) t e :=
    fun hl => hl.aim hop hoperand h.distinct hs (hd.trans hsize)
  have hmem : ∀ q ∈ l₁ ++ b.aim distance :: l₂, q = b.aim distance ∨ q ∈ l₁ ++ b :: l₂ := by
    intro q hq
    simp only [List.mem_append, List.mem_cons] at hq ⊢
    tauto
  obtain ⟨hcontiguous₁, hcontiguous₂⟩ := contiguous_append.mp h.contiguous
  refine ⟨l₁ ++ b.aim distance :: l₂,
    { code_eq := ?_
      contiguous := contiguous_append.mpr ⟨hcontiguous₁, hcontiguous₂.1, ?_, hcontiguous₂.2.2⟩
      suits := ?_
      entry := hlands h.entry
      exits := ?_
      placed := ?_
      distinct := ?_
      statements := ?_
      closures := ?_ }, ⟨l₁, b, l₂, hoperand, hop, rfl, rfl⟩, fun _ _ => hlands⟩
  · -- the operand stands right after the byte of its operation
    have hoffset := h.contiguous.offset_eq
    have hcode : code.toList = (codeOf l₁ ++ [b.instr.op.code]) ++
        Instruction.wordBytes b.instr.first ++ codeOf l₂ := by
      rw [h.code_eq, codeOf_append, codeOf_cons, Instruction.encode_forward hop]
      simp
    have hlength : c.place = (codeOf l₁ ++ [b.instr.op.code]).length := by
      rw [List.length_append, ← hoperand, hoffset]
      simp
    have hnew : (Chunk.overwrite code (codeOf l₁ ++ [b.instr.op.code]).length
        (Instruction.wordBytes distance)).toList = (codeOf l₁ ++ [b.instr.op.code]) ++
          Instruction.wordBytes distance ++ codeOf l₂ :=
      Chunk.toList_overwrite hcode rfl
    rw [hlength, hnew, codeOf_append, codeOf_cons,
      Instruction.encode_forward (i := (b.aim distance).instr) hop]
    simp [Placed.aim]
  · have := (h.suits b (by simp)).aim hop hrange
    exact this.inRange
  · intro q hq
    rcases hmem q hq with rfl | hq
    · exact (h.suits b (by simp)).aim hop hrange
    · exact h.suits q hq
  · intro q hq e t he
    rcases hmem q hq with rfl | hq
    · exact hlands (h.exits b (by simp) e t (Leads.of_aim hop he))
    · exact hlands (h.exits q hq e t he)
  · -- the claims that are left have their branches where they were
    intro c' hc'
    obtain ⟨b', hb', ha, hop'⟩ := h.placed c' (by
      rcases List.mem_append.mp hc' with hc' | hc' <;> simp [hc'])
    rcases List.mem_append.mp hb' with hb' | hb'
    · exact ⟨b', by simp [hb'], ha, hop'⟩
    · rcases List.mem_cons.mp hb' with rfl | hb'
      · exact ⟨b'.aim distance, by simp, ha, hop'⟩
      · exact ⟨b', by simp [hb'], ha, hop'⟩
  · refine h.distinct.sublist (List.Sublist.map _ ?_)
    exact List.Sublist.append_left (List.sublist_cons_self ..) _
  · intro l hl
    obtain ⟨u, hu, hheight⟩ := h.statements l hl
    exact ⟨u, hu.aim hop, hheight⟩
  · intro q hq hclosure
    rcases hmem q hq with rfl | hq
    · exact h.closures b (by simp) hclosure
    · exact h.closures q hq hclosure

end Patch

/-- What an open branch finds at its target. -/
theorem Assembled.branch_flows (h : Assembled pool claims cap arity code statements closures tip listing)
    {c : Claim} (hc : c ∈ claims) {b : Placed} (hb : b ∈ listing) (hplace : b.offset + 1 = c.place)
    (hop : b.instr.op.isForward = true) :
    (b.situation.branch b.instr.op).Flows (c.situation cap) := by
  rcases h.exits b hb _ _ (.ahead hop) with ⟨c', hc', ha, hflows⟩ | ⟨hopen, -⟩
  · obtain rfl : c' = c := List.inj_on_of_nodup_map h.distinct hc' hc (ha.trans hplace)
    exact hflows
  · exact absurd hplace.symm (hopen c hc)

/-! ## Finished code -/

/-- Without an open branch, and with no way to the tip, the code is disciplined. -/
theorem Assembled.disciplined
    (h : Assembled pool [] cap arity code statements closures none listing)
    (hlast : ∃ q ∈ listing.getLast?, q.instr.op = .ret) :
    Disciplined pool arity code statements closures listing := by
  have hat : ∀ {o s}, At listing none o s → ∃ q ∈ listing, q.offset = o ∧ q.situation = s := by
    rintro o s (hq | ⟨-, hs⟩)
    · exact hq
    · cases hs
  have hreaches : ∀ {t e}, Lands [] cap listing none t e → Reaches listing t e := by
    intro t e hl
    cases e with
    | direct o =>
      obtain ⟨s, hs, hflows⟩ := hl
      obtain ⟨q, hq, ho, rfl⟩ := hat hs
      exact ⟨q, hq, ho, hflows⟩
    | through a =>
      rcases hl with ⟨c, hc, -⟩ | ⟨-, b, hb, ha, hop, s, hs, hflows⟩
      · simp at hc
      · obtain ⟨q, hq, ho, rfl⟩ := hat hs
        exact ⟨b, hb, ha, hop, q, hq, ho, hflows⟩
  exact
    { code_eq := h.code_eq
      contiguous := h.contiguous
      suits := h.suits
      entry := hreaches h.entry
      exits := fun q hq e t he => hreaches (h.exits q hq e t he)
      last := hlast
      statements := fun l hl => by
        obtain ⟨s, hs, hheight⟩ := h.statements l hl
        obtain ⟨q, hq, ho, rfl⟩ := hat hs
        exact ⟨q, hq, ho, hheight⟩
      closures := h.closures }

section Blank

variable {q : Placed} {rest : List Placed}

/-- The three instructions that take the place of an unused load of the call arguments. -/
def blanked (s : Situation) : List Placed :=
  let pushed := s.next 0 (.make .pushNull 0 0)
  [⟨0, .make .pushNull 0 0, s⟩, ⟨1, .make .nop 0 0, pushed⟩, ⟨2, .make .nop 0 0, pushed⟩]

/-- A situation that flows into one that is expected may take its place. -/
theorem Reaches.weaken {t t' : Situation} {e : Exit} (h : Reaches listing t e) (ht : t'.Flows t) :
    Reaches listing t' e := by
  cases e with
  | direct o =>
    obtain ⟨p, hp, ho, hflows⟩ := h
    exact ⟨p, hp, ho, ht.trans hflows⟩
  | through a =>
    obtain ⟨b, hb, ha, hop, p, hp, ho, hflows⟩ := h
    exact ⟨b, hb, ha, hop, p, hp, ho, ht.trans hflows⟩

/-- What stood at an offset stands there after blanking, in the same situation. -/
theorem mem_blanked (hq : q.offset = 0) {p : Placed} (hp : p ∈ q :: rest) :
    ∃ p' ∈ blanked q.situation ++ rest, p'.offset = p.offset ∧ p'.situation = p.situation := by
  rcases List.mem_cons.mp hp with rfl | hp
  · exact ⟨⟨0, .make .pushNull 0 0, p.situation⟩, by simp [blanked], hq.symm, rfl⟩
  · exact ⟨p, List.mem_append_right _ hp, rfl, rfl⟩

/-- Whatever led into the code before leads into it after the load is replaced. -/
theorem Reaches.blank (hq : q.offset = 0) (hop : q.instr.op = .getGlobal) {t : Situation} {e : Exit}
    (h : Reaches (q :: rest) t e) : Reaches (blanked q.situation ++ rest) t e := by
  cases e with
  | direct o =>
    obtain ⟨p, hp, ho, hflows⟩ := h
    obtain ⟨p', hp', ho', hs'⟩ := mem_blanked hq hp
    exact ⟨p', hp', ho'.trans ho, hs' ▸ hflows⟩
  | through a =>
    obtain ⟨b, hb, ha, hforward, p, hp, ho, hflows⟩ := h
    obtain ⟨p', hp', ho', hs'⟩ := mem_blanked hq hp
    -- the blanked instruction is no branch
    have hb : b ∈ rest := by
      rcases List.mem_cons.mp hb with rfl | hb
      · rw [hop] at hforward
        cases hforward
      · exact hb
    exact ⟨b, List.mem_append_right _ hb, ha, hforward, p', hp', ho'.trans ho, hs' ▸ hflows⟩

/-- An instruction without operands that takes nothing suits any situation whose shared slots are
on the stack. -/
theorem Instruction.Suits.of_plain {o : Nat} {s : Situation} {op : Operation}
    (hop : op = .pushNull ∨ op = .nop) (hheight : 0 < s.height)
    (hshared : ∀ j, s.mayBeOpen j → j < s.height)
    (hheld : ∀ j k, s.holds j k → j < s.height ∧ ¬ s.mayBeOpen j) (hhandlers : s.handlers = []) :
    (make op 0 0).Suits pool o s := by
  have htaken : ∀ j, s.height ≤ j → ¬ s.mayBeOpen j := fun j hj ho =>
    absurd (hshared j ho) (Nat.not_lt.mpr hj)
  rcases hop with rfl | rfl <;> constructor <;> first | exact hheld | skip
  all_goals
    simp_all [make, InRange, Operation.shape, Instruction.names, effect, Operation.usesSlot,
      Operation.usesCapture, Operation.needsFresh, Operation.fills]

/-- A load of a global takes three bytes, its operation and the index of the name. -/
theorem Instruction.encode_getGlobal {i : Instruction} (hop : i.op = .getGlobal) (h : i.InRange) :
    i.width = 3 ∧ i.encode = i.op.code :: wordBytes i.first := by
  have hcaptures : i.captures = [] := by
    unfold InRange at h
    simp only [hop, Operation.shape] at h
    exact h.2.2
  constructor
  · simp [width, hop, Operation.shape, shapeWidth, hcaptures]
  · simp [encode, operandBytes, hop, Operation.shape]

section Pushed

variable {s : Situation}

/-- The push in place of the load leaves the collections alone. -/
theorem Situation.holds_pushNull (hheld : ∀ j k, s.holds j k → j < s.height ∧ ¬ s.mayBeOpen j)
    {j : Nat} {k : Collection} (hk : s.holds j k) : (s.next 0 (.make .pushNull 0 0)).holds j k :=
  .inl ⟨hk, (hheld j k hk).1⟩

/-- The push shares nothing, and it makes no collection. -/
theorem Situation.held_pushNull (hheld : ∀ j k, s.holds j k → j < s.height ∧ ¬ s.mayBeOpen j) :
    ∀ j k, (s.next 0 (.make .pushNull 0 0)).holds j k →
      j < (s.next 0 (.make .pushNull 0 0)).height ∧
        ¬ (s.next 0 (.make .pushNull 0 0)).mayBeOpen j := by
  rintro j k (⟨hk, hlt⟩ | ⟨hmakes, -⟩)
  · refine ⟨Nat.lt_succ_of_lt hlt, ?_⟩
    rintro ⟨hj | hj, -⟩
    · exact (hheld j k hk).2 hj
    · simp [Instruction.make] at hj
  · cases hmakes

/-- An empty instruction leaves what it found, unless that is a fresh closure. -/
theorem Situation.next_nop_flows (hheld : ∀ j k, s.holds j k → j < s.height ∧ ¬ s.mayBeOpen j)
    (hfresh : s.fresh = false) (o : Nat) : (s.next o (.make .nop 0 0)).Flows s where
  height := rfl
  handlers := rfl
  mayBeOpen := by
    rintro j ⟨hj | hj, -⟩
    · exact hj
    · simp [Instruction.make] at hj
  fresh hf := by simp [hfresh] at hf
  holds j k hk := .inl ⟨hk, (hheld j k hk).1⟩

/-- The push leaves as much as the load of a global did. -/
theorem Situation.next_pushNull_flows {i : Instruction} (hop : i.op = .getGlobal)
    (hheld : ∀ j k, s.holds j k → j < s.height ∧ ¬ s.mayBeOpen j) :
    (s.next 0 (.make .pushNull 0 0)).Flows (s.next 0 i) where
  height := by simp [next, Instruction.effect, Instruction.make, hop]
  handlers := by simp [next, Instruction.make, hop]
  mayBeOpen := by
    rintro j ⟨hj | hj, hlt⟩
    · exact ⟨.inl hj, by simpa [Instruction.effect, Instruction.make, hop] using hlt⟩
    · simp [Instruction.make] at hj
  fresh hf := by simp [next, hop] at hf
  holds := by
    rintro j k (⟨hk, -⟩ | ⟨hmakes, -⟩)
    · exact holds_pushNull hheld hk
    · rw [hop] at hmakes
      cases hmakes

/-- An instruction without operands goes on with the next one, as nothing is raised. -/
theorem Leads.of_plain {o : Nat} {op : Operation} {e : Exit} {t : Situation}
    (hop : op = .pushNull ∨ op = .nop) (hhandlers : s.handlers = [])
    (h : Leads o (.make op 0 0) s e t) : e = .direct (o + 1) ∧ t = s.next o (.make op 0 0) := by
  cases h with
  | fall => exact ⟨by rcases hop with rfl | rfl <;> rfl, rfl⟩
  | back h => rcases hop with rfl | rfl <;> cases h
  | ahead h => rcases hop with rfl | rfl <;> cases h
  | raise _ hs =>
    rw [hhandlers] at hs
    cases hs

end Pushed

/-- What takes the place of the load can be executed there. -/
theorem suits_blanked {s : Situation} {i : Instruction} (h : i.Suits pool 0 s)
    (hhandlers : s.handlers = []) :
    ∀ p ∈ blanked s, p.instr.Suits pool p.offset p.situation := by
  have hheight : 0 < s.height := Nat.lt_of_le_of_lt (Nat.zero_le _) h.reads
  have hheld := Situation.held_pushNull h.held
  intro p hp
  simp only [blanked, List.mem_cons, List.not_mem_nil, or_false] at hp
  rcases hp with rfl | rfl | rfl
  · exact .of_plain (.inl rfl) hheight h.shared h.held hhandlers
  · exact .of_plain (.inr rfl) (Nat.succ_pos _) (fun j hj => hj.2) hheld hhandlers
  · exact .of_plain (.inr rfl) (Nat.succ_pos _) (fun j hj => hj.2) hheld hhandlers

/-- What takes the place of the load leads to where the load did. -/
theorem exits_blanked (hop : q.instr.op = .getGlobal)
    (hheld : ∀ j k, q.situation.holds j k → j < q.situation.height ∧ ¬ q.situation.mayBeOpen j)
    (hhandlers : q.situation.handlers = [])
    (hfall : Reaches (blanked q.situation ++ rest) (q.situation.next 0 q.instr) (.direct 3)) :
    ∀ p ∈ blanked q.situation, ∀ e t, Leads p.offset p.instr p.situation e t →
      Reaches (blanked q.situation ++ rest) t e := by
  have hpushed := Situation.held_pushNull hheld
  have hfresh : (q.situation.next 0 (.make .pushNull 0 0)).fresh = false := by
    simp [Situation.next, Instruction.make]
  have hhandlers' : (q.situation.next 0 (.make .pushNull 0 0)).handlers = [] := hhandlers
  intro p hp e t he
  simp only [blanked, List.mem_cons, List.not_mem_nil, or_false] at hp
  rcases hp with rfl | rfl | rfl
  · obtain ⟨rfl, rfl⟩ := Leads.of_plain (.inl rfl) hhandlers he
    exact ⟨⟨1, .make .nop 0 0, q.situation.next 0 (.make .pushNull 0 0)⟩, by simp [blanked], rfl,
      .refl _⟩
  · obtain ⟨rfl, rfl⟩ := Leads.of_plain (.inr rfl) hhandlers' he
    exact ⟨⟨2, .make .nop 0 0, q.situation.next 0 (.make .pushNull 0 0)⟩, by simp [blanked], rfl,
      Situation.next_nop_flows hpushed hfresh 1⟩
  · obtain ⟨rfl, rfl⟩ := Leads.of_plain (.inr rfl) hhandlers' he
    exact hfall.weaken
      ((Situation.next_nop_flows hpushed hfresh 2).trans (Situation.next_pushNull_flows hop hheld))

/-- **`Disciplined.blank`** — code that starts by loading a global is still disciplined when the
load is replaced by one of nothing. -/
theorem Disciplined.blank
    (h : Disciplined pool arity code statements closures (q :: rest))
    (hop : q.instr.op = .getGlobal) :
    Disciplined pool arity
      (Chunk.overwrite code 0 [Operation.pushNull.code, Operation.nop.code, Operation.nop.code])
      statements closures (blanked q.situation ++ rest) := by
  have hq : q.offset = 0 := h.contiguous.1
  have hsuits := h.suits q (List.mem_cons_self ..)
  obtain ⟨hwidth, hencode⟩ := Instruction.encode_getGlobal hop hsuits.inRange
  -- the function starts without handlers, so nothing can be raised to one
  have hhandlers : q.situation.handlers = [] := by
    obtain ⟨p, hp, ho, hflows⟩ := h.entry
    obtain rfl : p = q := h.contiguous.offset_inj hp (List.mem_cons_self ..) (ho.trans hq.symm)
    exact hflows.handlers.symm
  have hfall : Reaches (blanked q.situation ++ rest) (q.situation.next 0 q.instr) (.direct 3) := by
    have := h.exits q (List.mem_cons_self ..) _ _ (.fall (by rw [hop]; rfl))
    rw [hq, hwidth] at this
    exact this.blank hq hop
  have hmem : ∀ {p}, p ∈ blanked q.situation ++ rest → p ∈ blanked q.situation ∨ p ∈ q :: rest := by
    intro p hp
    rcases List.mem_append.mp hp with hp | hp
    · exact .inl hp
    · exact .inr (List.mem_cons_of_mem _ hp)
  refine
    { code_eq := ?_
      contiguous := ?_
      suits := ?_
      entry := h.entry.blank hq hop
      exits := ?_
      last := ?_
      statements := ?_
      closures := ?_ }
  · have hcode : code.toList = [] ++ q.instr.encode ++ codeOf rest := by
      rw [h.code_eq, codeOf_cons]
      rfl
    have hnew : (Chunk.overwrite code ([] : List UInt8).length
        [Operation.pushNull.code, Operation.nop.code, Operation.nop.code]).toList =
        [] ++ [Operation.pushNull.code, Operation.nop.code, Operation.nop.code] ++ codeOf rest :=
      Chunk.toList_overwrite hcode (by rw [hencode]; rfl)
    exact hnew
  · have := h.contiguous.2.2
    rw [hwidth] at this
    exact ⟨rfl, ⟨rfl, rfl, rfl⟩, rfl, ⟨rfl, rfl, rfl⟩, rfl, ⟨rfl, rfl, rfl⟩, this⟩
  · intro p hp
    rcases hmem hp with hp | hp
    · exact suits_blanked (hq ▸ hsuits) hhandlers p hp
    · exact h.suits p hp
  · intro p hp e t he
    rcases hmem hp with hp | hp
    · exact exits_blanked hop hsuits.held hhandlers hfall p hp e t he
    · exact (h.exits p hp e t he).blank hq hop
  · obtain ⟨p, hp, hret⟩ := h.last
    refine ⟨p, ?_, hret⟩
    cases rest with
    | nil =>
      obtain rfl : q = p := by simpa using hp
      rw [hop] at hret
      cases hret
    | cons r rest => simpa [blanked, List.getLast?_cons] using hp
  · intro l hl
    obtain ⟨p, hp, ho, hheight⟩ := h.statements l hl
    obtain ⟨p', hp', ho', hs'⟩ := mem_blanked hq hp
    exact ⟨p', hp', ho'.trans ho, hs' ▸ hheight⟩
  · intro p hp hclosure
    rcases hmem hp with hp | hp
    · simp only [blanked, List.mem_cons, List.not_mem_nil, or_false] at hp
      rcases hp with rfl | rfl | rfl <;> cases hclosure
    · exact h.closures p hp hclosure

end Blank

end ScriptMachine
