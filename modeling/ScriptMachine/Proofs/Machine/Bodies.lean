import Mathlib
import ScriptMachine.Proofs.Machine.Passage

/-!
# ScriptMachine.Proofs.Machine.Bodies — in which bodies an activation stands

The body of a statement with a handler is the stretch of code between the instruction that installs the
handler and the place where the handler starts. An activation that has installed a handler stands in
the body that belongs to it, whether it runs or waits. The converse holds where something can fail:
there an activation has installed the handlers of all bodies it stands in.

No two bodies end at the same place, so a body is known by where its handler starts.

Both halves come from the discipline of the code, for one activation: `Within.stands` from the handlers of
its situation, and `Risks.installed` because an instruction that can fail has a situation with all of
them. For a fiber they are `Alive.stands` and `Poised.installed`, by going through the activations that
wait.
-/

namespace ScriptMachine

variable {m m' : Machine} {h h' : Heap} {t t' : Fiber} {a b : Activation} {rest others : List Activation}
  {q : Placed} {hd : Handler} {f f' : Frame} {start target : Nat} {p : Prototype}

/-! ## Code -/

/-- Two listings of the same code have the same instructions. -/
theorem instructionsOf_inj {decode : Nat → Option Instruction} {o : Nat} {l₁ l₂ : List Placed}
    (h₁ : Contiguous o l₁) (h₂ : Contiguous o l₂) (hcode : codeOf l₁ = codeOf l₂)
    (hd₁ : ∀ q ∈ l₁, decode q.offset = some q.instr) (hd₂ : ∀ q ∈ l₂, decode q.offset = some q.instr) :
    instructionsOf l₁ = instructionsOf l₂ := by
  have hne : ∀ {o : Nat} {q : Placed} {l : List Placed}, Contiguous o (q :: l) →
      codeOf (q :: l) ≠ [] := by
    intro o q l hl hnil
    have hlen := congrArg List.length hnil
    rw [codeOf_cons, List.length_append, Instruction.length_encode hl.2.1] at hlen
    have := q.instr.width_pos
    simp only [List.length_nil] at hlen
    omega
  induction l₁ generalizing o l₂ with
  | nil =>
    cases l₂ with
    | nil => rfl
    | cons q₂ l₂ => exact (hne h₂ hcode.symm).elim
  | cons q₁ l₁ ih =>
    cases l₂ with
    | nil => exact (hne h₁ hcode).elim
    | cons q₂ l₂ =>
      obtain ⟨ho₁, hr₁, h₁⟩ := h₁
      obtain ⟨ho₂, hr₂, h₂⟩ := h₂
      have hinstr : q₁.instr = q₂.instr := by
        have hsame := hd₁ q₁ List.mem_cons_self
        rw [ho₁, ← ho₂, hd₂ q₂ List.mem_cons_self] at hsame
        exact (Option.some.inj hsame).symm
      rw [codeOf_cons, codeOf_cons, hinstr] at hcode
      rw [← hinstr] at h₂
      have htail := ih h₁ h₂ (List.append_cancel_left hcode)
        (fun q hq => hd₁ q (List.mem_cons_of_mem _ hq)) fun q hq => hd₂ q (List.mem_cons_of_mem _ hq)
      unfold instructionsOf at htail ⊢
      rw [List.map_cons, List.map_cons, htail, ho₁, ho₂, hinstr]

/-- The instructions of a listing do not overlap. -/
theorem Contiguous.end_le_offset {o : Nat} {l : List Placed} (hl : Contiguous o l) {q r : Placed}
    (hq : q ∈ l) (hr : r ∈ l) (hlt : q.offset < r.offset) :
    q.offset + q.instr.width ≤ r.offset := by
  induction l generalizing o with
  | nil => cases hq
  | cons p l ih =>
    obtain ⟨hp, -, hl⟩ := hl
    rcases List.mem_cons.mp hq with rfl | hq'
    · rcases List.mem_cons.mp hr with rfl | hr'
      · omega
      · have := hl.le_offset r hr'
        omega
    · rcases List.mem_cons.mp hr with rfl | hr'
      · have := hl.le_offset q hq'
        omega
      · exact ih hl hq' hr'

namespace Heap.Lists

variable {listing l' : List Placed} (hl : h.Lists p listing)
include hl

/-- Another listing has the same instructions at the same places. -/
theorem same_place (hl' : h.Lists p l') (hq : q ∈ l') :
    ∃ r ∈ listing, r.offset = q.offset ∧ r.instr = q.instr := by
  obtain ⟨statements, closures, hd⟩ := hl.disciplined
  obtain ⟨statements', closures', hd'⟩ := hl'.disciplined
  have hsame := instructionsOf_inj hd'.contiguous hd.contiguous (hd'.code_eq.symm.trans hd.code_eq)
    (fun _ hr => hl'.instruction? hr) fun _ hr => hl.instruction? hr
  have hmem : (q.offset, q.instr) ∈ instructionsOf l' := mem_instructionsOf.mpr ⟨q, hq, rfl, rfl⟩
  rw [hsame] at hmem
  exact mem_instructionsOf.mp hmem

/-- **`target_inj`** — no two bodies end at the same place. -/
theorem target_inj {q₁ q₂ : Placed} (h₁ : q₁ ∈ listing) (h₂ : q₂ ∈ listing)
    (hop₁ : q₁.instr.op = .tryBegin) (hop₂ : q₂.instr.op = .tryBegin)
    (htarget : q₁.offset + 3 + q₁.instr.first = q₂.offset + 3 + q₂.instr.first) : q₁ = q₂ := by
  -- if one begins within the other, its handler is within the other as well
  have hnot : ∀ {q r : Placed}, q ∈ listing → r ∈ listing → q.instr.op = .tryBegin →
      r.instr.op = .tryBegin → q.offset + 3 + q.instr.first = r.offset + 3 + r.instr.first →
      ¬ q.offset < r.offset := by
    intro q r hq hr hop hop' htarget hlt
    obtain ⟨statements, closures, hd⟩ := hl.disciplined
    have hguard : ⟨q.offset + 1, q.situation.height⟩ ∈ r.situation.handlers :=
      ((hl.annotates.nested r hr (by rw [hop']; rfl)).mem _).mpr
        ⟨q, hq, hop, rfl, hlt, .inr (by omega)⟩
    obtain ⟨b, hb, hoffset, -, x, hx, hend, hflows⟩ :=
      hd.exits r hr _ _ (.ahead (by rw [hop']; rfl))
    obtain rfl := hd.contiguous.offset_inj hb hr (Nat.succ.inj hoffset)
    have hhandlers : b.situation.handlers = x.situation.handlers := by
      rw [← hflows.handlers, hop']
      rfl
    obtain ⟨guards, hencloses, hsub⟩ := hl.annotates.within x hx
    obtain ⟨c, hc, -, hsame, -, hopen | hbefore⟩ :=
      (hencloses.mem _).mp (hsub (hhandlers ▸ hguard))
    · exact hopen
    · obtain rfl := hd.contiguous.offset_inj hc hq
        (Nat.succ.inj (congrArg Guard.operand hsame).symm)
      omega
  obtain ⟨statements, closures, hd⟩ := hl.disciplined
  refine hd.contiguous.offset_inj h₁ h₂ (Nat.le_antisymm ?_ ?_)
  · exact Nat.le_of_not_lt (hnot h₂ h₁ hop₂ hop₁ htarget.symm)
  · exact Nat.le_of_not_lt (hnot h₁ h₂ hop₁ hop₂ htarget)

end Heap.Lists

/-- **`h.Installs f start target`** — the instruction at `start` of the code of an activation installs
a handler that starts at `target`. -/
def Heap.Installs (h : Heap) (f : Frame) (start target : Nat) : Prop :=
  ∃ c p listing, h.closure? f.closure = some c ∧ h.prototype? c.prototype = some p ∧
    f.chunk = p.chunk ∧ h.Lists p listing ∧
    ∃ q ∈ listing, q.instr.op = .tryBegin ∧ q.offset = start ∧ target = q.offset + 3 + q.instr.first

namespace Heap.Installs

/-- A body is known by where its handler starts. -/
theorem start_inj {start' : Nat} (hi : h.Installs f start target) (hi' : h.Installs f start' target) :
    start = start' := by
  obtain ⟨c, p, listing, hc, hp, -, hl, q, hq, hop, rfl, htarget⟩ := hi
  obtain ⟨c', p', listing', hc', hp', -, hl', q', hq', hop', rfl, htarget'⟩ := hi'
  obtain rfl := Option.some.inj (hc.symm.trans hc')
  obtain rfl := Option.some.inj (hp.symm.trans hp')
  obtain ⟨r, hr, hoffset, hinstr⟩ := hl.same_place hl' hq'
  rw [← hl.target_inj hr hq (by rw [hinstr, hop']) hop (by rw [hoffset, hinstr]; omega), hoffset]

/-- The code of an activation stays what it is. -/
theorem persists (hi : h.Installs f start target) (hh : h.Persists h') (hs : h'.Sound)
    (hclosure : f'.closure = f.closure) (hchunk : f'.chunk = f.chunk)
    (hlive : h'.Has f'.closure .closure) : h'.Installs f' start target := by
  obtain ⟨c, p, listing, hc, hp, hcode, hl, hq⟩ := hi
  rw [hclosure] at hlive
  have hc' := hh.closure? hc hlive.live
  have hp' := hh.prototype? hp (hs.closure hc').1.live
  exact ⟨c, p, listing, hclosure ▸ hc', hp', hchunk.trans hcode, hh.lists hl (hs.prototype hp'), hq⟩

end Heap.Installs

/-! ## Activations -/

/-- **`a.Within h depth`** — the activation, the `depth`-th of its fiber, is before an instruction with
the handlers that it has installed, or it waits behind one that leads to such an instruction. -/
structure Activation.Within (h : Heap) (depth : Nat) (a : Activation) : Prop extends a.Sound h depth where
  before : ∃ q ∈ a.listing, q.offset = a.frame.ip ∧ q.situation.handlers = a.situation.handlers

/-- **`a.Risks h depth`** — the activation stands before an instruction that can fail, or it waits
behind one. -/
structure Activation.Risks (h : Heap) (depth : Nat) (a : Activation) : Prop extends a.Sound h depth where
  fails : ∃ q ∈ a.listing, q.situation = a.situation ∧ q.instr.op.mayRaise = true ∧
    (a.frame.ip = q.offset ∨ q.instr.op.isPlain = true ∧ a.frame.ip = q.offset + q.instr.width)

namespace Activation

variable {depth : Nat}

/-- A try instruction of a listing installs a handler where its operand says. -/
theorem Sound.installs (ha : a.Sound h depth) (hq : q ∈ a.listing) (hop : q.instr.op = .tryBegin) :
    h.Installs a.frame q.offset (q.offset + 3 + q.instr.first) := by
  obtain ⟨c, hc, hp⟩ := ha.closure
  exact ⟨c, a.function, a.listing, hc, hp, ha.chunk, ha.lists, q, hq, hop, rfl, rfl⟩

/-- **`Within.stands`** — an activation stands in the bodies of the handlers it has installed. -/
theorem Within.stands (ha : a.Within h depth) (hhd : hd ∈ a.handlers) : hd.depth = depth ∧
    ∃ start, h.Installs a.frame start hd.target ∧ start < a.frame.ip ∧ a.frame.ip < hd.target := by
  obtain ⟨q, hq, hip, hhandlers⟩ := ha.before
  obtain ⟨g, hg, hguards⟩ : ∃ g ∈ a.situation.handlers, hd.Guards a.listing depth a.frame.base g := by
    obtain ⟨i, hi, rfl⟩ := List.mem_iff_getElem.mp hhd
    have hi' : i < a.situation.handlers.length := ha.handlers.length_eq ▸ hi
    exact ⟨_, List.getElem_mem hi', ha.handlers.get hi hi'⟩
  obtain ⟨guards, hencloses, hsub⟩ := ha.lists.annotates.within q hq
  obtain ⟨r, hr, hop, rfl, hlt, hopen | hend⟩ := (hencloses.mem g).mp (hsub (hhandlers ▸ hg))
  · exact hopen.elim
  obtain ⟨r', hr', hoffset, -, htarget⟩ := hguards.target
  obtain rfl := ha.contiguous.offset_inj hr' hr (Nat.succ.inj hoffset)
  have heq : hd.target = r'.offset + 3 + r'.instr.first := by
    rw [htarget]
  refine ⟨hguards.depth, r'.offset, heq ▸ ha.installs hr hop, ?_, ?_⟩ <;> omega

/-- **`Risks.installed`** — where something can fail, the handlers of all bodies are installed. -/
theorem Risks.installed (ha : a.Risks h depth) (hinstalls : h.Installs a.frame start target)
    (hstart : start < a.frame.ip) (htarget : a.frame.ip < target) :
    ∃ hd ∈ a.handlers, hd.depth = depth ∧ hd.target = target := by
  obtain ⟨c, p, listing, hc, hp, -, hl, r, hr, hop, rfl, rfl⟩ := hinstalls
  obtain ⟨c', hc', hp'⟩ := ha.closure
  obtain rfl := Option.some.inj (hc.symm.trans hc')
  obtain rfl := Option.some.inj (hp.symm.trans hp')
  obtain ⟨b, hb, hoffset, hinstr⟩ := ha.lists.same_place hl hr
  rw [← hoffset, ← hinstr] at htarget ⊢
  rw [← hoffset] at hstart
  rw [← hinstr] at hop
  obtain ⟨q, hq, hsituation, hraises, hip⟩ := ha.fails
  -- the instruction is in the body, too
  have hbefore : b.offset < q.offset ∧ q.offset < b.offset + 3 + b.instr.first := by
    rcases hip with hip | ⟨hplain, hip⟩
    · omega
    · have hne : b.offset ≠ q.offset := by
        intro heq
        rw [← ha.contiguous.offset_inj hb hq heq, hop] at hplain
        cases hplain
      have hle : b.offset ≤ q.offset := by
        by_contra hlt
        have := ha.contiguous.end_le_offset hq hb (Nat.lt_of_not_le hlt)
        omega
      have := q.instr.width_pos
      omega
  have hguard : ⟨b.offset + 1, b.situation.height⟩ ∈ a.situation.handlers :=
    hsituation ▸ ((ha.lists.annotates.nested q hq hraises).mem _).mpr
      ⟨b, hb, hop, rfl, hbefore.1, .inr hbefore.2⟩
  obtain ⟨i, hi, hget⟩ := List.mem_iff_getElem.mp hguard
  have hi' : i < a.handlers.length := ha.handlers.length_eq ▸ hi
  have hguards := ha.handlers.get hi' hi
  rw [List.get_eq_getElem, List.get_eq_getElem, hget] at hguards
  refine ⟨_, List.getElem_mem hi', hguards.depth, ?_⟩
  obtain ⟨b', hb', hsame, -, htarget'⟩ := hguards.target
  obtain rfl := ha.contiguous.offset_inj hb' hb (Nat.succ.inj hsame)
  rw [htarget']

end Activation

/-- An activation that waits. -/
theorem Waiting.stands {opens : Nat → Prop} {stack : Array Value} {inner : List Activation}
    {top results : Nat} (hw : Waiting h opens stack (inner ++ b :: others) top results) :
    b.Within h (others.length + 1) ∧ b.Risks h (others.length + 1) := by
  induction inner generalizing top results with
  | nil =>
    cases hw with
    | @call _ _ _ _ q sound mem situation ip plain makes leaves height shared holds outer =>
      have hkind : q.instr.op.falls = true ∧ q.instr.op ≠ .tryBegin ∧ q.instr.op.mayRaise = true := by
        revert plain
        cases q.instr.op <;> decide
      obtain ⟨x, hx, hoffset, hflows⟩ := sound.exits mem (.fall hkind.1)
      refine ⟨⟨sound, x, hx, hoffset.trans ip.symm, ?_⟩, sound, q, mem, situation, hkind.2.2,
        .inr ⟨plain, ip⟩⟩
      rw [← hflows.handlers, Situation.next, if_neg hkind.2.1, situation]
  | cons c inner ih =>
    cases hw with
    | call _ _ _ _ _ _ _ _ _ _ outer => exact ih outer

/-! ## Fibers -/

/-- **`t.activation? i`** — the activation of a fiber that stands above `i` others. -/
def Fiber.activation? (t : Fiber) (i : Nat) : Option Frame :=
  t.frames.reverse[i]?

namespace Fiber

variable {i : Nat}

/-- An activation is counted from below, by how many are under it. -/
theorem activation?_eq_some : t.activation? i = some f ↔
    ∃ inner outer, t.frames = inner ++ f :: outer ∧ outer.length = i := by
  unfold activation?
  constructor
  · intro hget
    obtain ⟨hlt, hf⟩ := List.getElem?_eq_some_iff.mp hget
    refine ⟨(t.frames.reverse.drop (i + 1)).reverse, (t.frames.reverse.take i).reverse, ?_, ?_⟩
    · have hsplit := List.take_append_drop i t.frames.reverse
      rw [← List.getElem_cons_drop hlt, hf] at hsplit
      have hreverse := congrArg List.reverse hsplit
      rw [List.reverse_reverse, List.reverse_append, List.reverse_cons, List.append_assoc,
        List.singleton_append] at hreverse
      exact hreverse.symm
    · rw [List.length_reverse, List.length_take]
      omega
  · rintro ⟨inner, outer, hframes, rfl⟩
    rw [hframes]
    simp

/-- The activation at the end of the handed-over activations is one of the fiber. -/
theorem Stands.activation (hst : t.Stands h a rest) (hget : t.activation? i = some f) :
    ∃ inner b others, a :: rest = inner ++ b :: others ∧ others.length = i ∧ b.frame = f := by
  obtain ⟨inner, outer, hframes, hlen⟩ := activation?_eq_some.mp hget
  rw [hst.frames, ← List.map_cons] at hframes
  obtain ⟨inner', acts, hsplit, rfl, hacts⟩ := List.map_eq_append_iff.mp hframes
  obtain ⟨b, others, rfl, hb, rfl⟩ := List.map_eq_cons_iff.mp hacts
  exact ⟨inner', b, others, hsplit, by rw [← hlen, List.length_map], hb⟩

theorem Stands.activation?_eq (hst : t.Stands h a rest) {inner : List Activation}
    (hsplit : a :: rest = inner ++ b :: others) : t.activation? others.length = some b.frame := by
  refine activation?_eq_some.mpr ⟨inner.map Activation.frame, others.map Activation.frame, ?_,
    List.length_map _⟩
  rw [hst.frames, ← List.map_cons, hsplit, List.map_append, List.map_cons]

/-- An outer activation is where its call left it. -/
theorem Poised.within {inner : List Activation} (hp : t.Poised h a rest q)
    (hsplit : a :: rest = inner ++ b :: others) : b.Within h (others.length + 1) := by
  cases inner with
  | nil =>
    obtain ⟨rfl, rfl⟩ := List.cons.inj hsplit
    exact ⟨hp.sound, q, hp.mem, hp.ip.symm, by rw [hp.situation]⟩
  | cons c inner =>
    obtain ⟨rfl, rfl⟩ := List.cons.inj hsplit
    exact hp.waiting.stands.1

/-- An error in an inner activation reaches the outer ones at their calls. -/
theorem Poised.risks {inner : List Activation} (hp : t.Poised h a rest q)
    (hraises : q.instr.op.mayRaise = true) (hsplit : a :: rest = inner ++ b :: others) :
    b.Risks h (others.length + 1) := by
  cases inner with
  | nil =>
    obtain ⟨rfl, rfl⟩ := List.cons.inj hsplit
    exact ⟨hp.sound, q, hp.mem, hp.situation, hraises, .inl hp.ip⟩
  | cons c inner =>
    obtain ⟨rfl, rfl⟩ := List.cons.inj hsplit
    exact hp.waiting.stands.2

/-- **`Alive.stands`** — every handler of a fiber belongs to a body in which the activation that has
installed it stands. -/
theorem Alive.stands (ht : t.Alive h) (hhd : hd ∈ t.handlers) :
    ∃ i f start, hd.depth = i + 1 ∧ t.activation? i = some f ∧ h.Installs f start hd.target ∧
      start < f.ip ∧ f.ip < hd.target := by
  obtain ⟨a, rest, q, hp⟩ := ht
  rw [hp.handlers, ← List.flatMap_cons, List.mem_flatMap] at hhd
  obtain ⟨b, hb, hhd⟩ := hhd
  obtain ⟨inner, others, hsplit⟩ := List.append_of_mem hb
  obtain ⟨hdepth, start, hbody⟩ := (hp.within hsplit).stands hhd
  exact ⟨_, _, start, hdepth, hp.activation?_eq hsplit, hbody⟩

/-- **`Poised.installed`** — where something can fail, the handlers of all bodies are installed. -/
theorem Poised.installed (hp : t.Poised h a rest q) (hraises : q.instr.op.mayRaise = true)
    (hget : t.activation? i = some f) (hinstalls : h.Installs f start target)
    (hstart : start < f.ip) (htarget : f.ip < target) :
    ∃ hd ∈ t.handlers, hd.depth = i + 1 ∧ hd.target = target := by
  obtain ⟨inner, b, others, hsplit, rfl, rfl⟩ := hp.activation hget
  obtain ⟨hd, hhd, hbody⟩ := (hp.risks hraises hsplit).installed hinstalls hstart htarget
  refine ⟨hd, ?_, hbody⟩
  rw [hp.handlers, ← List.flatMap_cons, hsplit, List.mem_flatMap]
  exact ⟨b, by simp, hhd⟩

/-- **`Advances.activation`** — an activation has just been entered, or it was there before. -/
theorem Advances.activation {made : Ref → Prop} {lands : Nat → Prop}
    (ht : t.Advances made lands t') (hget : t'.activation? i = some f') :
    f'.ip = 0 ∨ ∃ f ip, t.activation? i = some f ∧ f' = { f with ip } := by
  obtain ⟨inner, outer, hframes, hlen⟩ := activation?_eq_some.mp hget
  -- what is below the innermost activation is the same
  have hbelow : ∀ (above : List Frame) {g : Frame} {ip : Nat} {frames inner : List Frame},
      t.frames = above ++ g :: frames → { g with ip } :: frames = inner ++ f' :: outer →
      ∃ f ip, t.activation? i = some f ∧ f' = { f with ip } := by
    intro above g ip frames inner ht hsame
    cases inner with
    | nil =>
      obtain ⟨rfl, rfl⟩ := List.cons.inj hsame
      exact ⟨g, ip, activation?_eq_some.mpr ⟨above, frames, ht, hlen⟩, rfl⟩
    | cons c inner =>
      obtain ⟨-, rfl⟩ := List.cons.inj hsame
      exact ⟨f', f'.ip, activation?_eq_some.mpr ⟨above ++ g :: inner, outer, by simp [ht], hlen⟩, rfl⟩
  cases ht with
  | stays after opens =>
    exact .inr ⟨f', f'.ip, activation?_eq_some.mpr ⟨inner, outer, after ▸ hframes, hlen⟩, rfl⟩
  | goes before after opens news => exact .inr (hbelow [] before (after.symm.trans hframes))
  | enters before after start opens above =>
    cases inner with
    | nil =>
      obtain ⟨rfl, -⟩ := List.cons.inj (after.symm.trans hframes)
      exact .inl start
    | cons c inner =>
      obtain ⟨-, hrest⟩ := List.cons.inj (after.symm.trans hframes)
      exact .inr (hbelow [] before hrest)
  | @returns g rest before after below opens =>
    exact .inr ⟨f', f'.ip, activation?_eq_some.mpr ⟨g :: inner, outer, by
      rw [before, ← after, hframes]
      rfl, hlen⟩, rfl⟩
  | unwinds before after above base size opens catches landed =>
    exact .inr (hbelow _ before (after.symm.trans hframes))

end Fiber

end ScriptMachine
