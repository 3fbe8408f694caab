import Mathlib
import ScriptMachine.Proofs.Tokens.Longest

/-!
# ScriptMachine.Proofs.Tokens.Partition — a text is cut into gaps and tokens

`Partition` says what the tokens of a text are, from the table of the rules alone: gaps, a token
between any two of them, and the mark of the end after the last. Every gap and every token is the
longest word where it stands, so a text has only one partition; `tokenize` finds it.

`tokenize_partition` states both halves in one equivalence: the tokens that `tokenize` finds are a
partition, by induction from piece to piece, and every partition is found (`Partition.eq_stream`), since
the longest word at the front of a text is unique and has one preferred reading (`Longest.unique`). The
order of tokens, their places in the text and the mark of the end follow from the partition alone.
-/

namespace ScriptMachine.Lexer

variable {c : Char} {cs w w' rest rest' gap before : List Char} {found found' : Piece}
  {kind : TokenKind} {tokens : List Token}

/-- **`Skipped gap rest`** — `gap` consists of words that are skipped, each the longest where it
stands; `rest` follows. -/
inductive Skipped : List Char → List Char → Prop
  | nil {rest : List Char} : Skipped [] rest
  | cons {w gap rest : List Char} (longest : Longest .gap w (gap ++ rest))
      (skipped : Skipped gap rest) : Skipped (w ++ gap) rest

/-- **`Reads kind w rest`** — the word `w` in front of `rest` is a token of kind `kind`: the longest
word there, or one character where no rule matches. -/
def Reads (kind : TokenKind) (w rest : List Char) : Prop :=
  Longest (.token kind) w rest ∨
    kind = .unexpectedCharacter ∧ (∃ c, w = [c]) ∧ Unmatched (w ++ rest)

/-- The token that is the word `w` after the characters `before`. -/
def placed (before : List Char) (kind : TokenKind) (w : List Char) : Token :=
  ⟨kind, String.ofList w, byteLength before, byteLength (before ++ w), 1 + newlines before⟩

/-- **`Partition before cs tokens`** — `tokens` are those of the characters `cs`, which follow
`before`. -/
inductive Partition : List Char → List Char → List Token → Prop
  | done {before gap : List Char} (skipped : Skipped gap []) :
      Partition before gap [placed (before ++ gap) .endOfText []]
  | token {before gap w rest : List Char} {kind : TokenKind} {tokens : List Token}
      (skipped : Skipped gap (w ++ rest)) (reads : Reads kind w rest)
      (next : Partition (before ++ gap ++ w) rest tokens) :
      Partition before (gap ++ (w ++ rest)) (placed (before ++ gap) kind w :: tokens)

/-! ## The tokens of a text are a partition -/

/-- A gap may stand in front. -/
theorem Partition.skip (h : Longest .gap w rest) (hp : Partition (before ++ w) rest tokens) :
    Partition before (w ++ rest) tokens := by
  cases hp with
  | done hskipped =>
    rw [List.append_assoc]
    exact .done (.cons (by rwa [List.append_nil]) hskipped)
  | token hskipped hreads hnext =>
    rw [List.append_assoc before, ← List.append_assoc w]
    exact .token (.cons h hskipped) hreads (by simpa using hnext)

theorem newlines_append (cs ds : List Char) : newlines (cs ++ ds) = newlines cs + newlines ds :=
  List.countP_append

theorem tokenOf_placed (before w : List Char) (kind : TokenKind) :
    tokenOf (byteLength before) (1 + newlines before) w (.token kind) = [placed before kind w] := by
  rw [tokenOf, placed, byteLength_append]

theorem Partition.read (h : Reads kind w rest) (hp : Partition (before ++ w) rest tokens) :
    Partition before (w ++ rest) (placed before kind w :: tokens) := by
  have hnext : Partition (before ++ [] ++ w) rest tokens := by rwa [List.append_nil]
  simpa using Partition.token .nil h hnext

/-- A piece that is read in front is a gap or a token. -/
theorem Partition.piece (h : Longest found w rest) (hp : Partition (before ++ w) rest tokens) :
    Partition before (w ++ rest)
      (tokenOf (byteLength before) (1 + newlines before) w found ++ tokens) := by
  cases found with
  | gap => exact hp.skip h
  | token kind =>
    rw [tokenOf_placed]
    exact hp.read (.inl h)

/-- A character that starts nothing is a token of its own. -/
theorem reads_stray (h : piece c cs = (.token .unexpectedCharacter, 0)) :
    Reads .unexpectedCharacter [c] cs :=
  .inr ⟨rfl, ⟨c, rfl⟩, unmatched_of_piece h⟩

/-- By induction on the text that is left: each piece is the longest at its place. -/
theorem partition_stream (before cs : List Char) :
    Partition before cs (stream (byteLength before) (1 + newlines before) cs) := by
  generalize hoffset : byteLength before = offset
  generalize hline : 1 + newlines before = line
  induction offset, line, cs using piecewise generalizing before with
  | nil offset line =>
    subst hoffset hline
    have hdone : Partition before [] [placed (before ++ []) .endOfText []] := .done .nil
    simpa [stream_nil, placed] using hdone
  | cons offset line c cs ih =>
    subst hoffset hline
    have hnext := ih (before ++ front c cs) (byteLength_append ..)
      (by rw [newlines_append, Nat.add_assoc])
    rw [stream_cons]
    by_cases hstray : Lexer.piece c cs = (.token .unexpectedCharacter, 0)
    · have hfront : front c cs = [c] := by rw [front, hstray, List.take_zero]
      rw [hfront, hstray, tokenOf_placed]
      rw [hfront, hstray] at hnext
      exact hnext.read (reads_stray hstray)
    · have hpartition := hnext.piece (longest_front hstray)
      rwa [front_append] at hpartition

/-! ## There is no other partition -/

/-- Two readings of one length that are preferred to each other are the same. -/
theorem Preferred.antisymm (h : Preferred found found') (h' : Preferred found' found) :
    found = found' := by
  have hreserved : ∀ entry ∈ TokenKind.keywords, entry.2 ≠ .identifier := by decide
  rcases h with heq | ⟨hword, -⟩
  · exact heq.symm
  · rcases h' with heq | ⟨hword', entry, hentry, heq⟩
    · exact heq
    · exact absurd (Piece.token.inj (heq.symm.trans hword)) (hreserved entry hentry)

/-- A text has one longest word, and one reading of it. -/
theorem Longest.unique (h : Longest found w rest) (h' : Longest found' w' rest')
    (heq : w ++ rest = w' ++ rest') : found = found' ∧ w = w' ∧ rest = rest' := by
  obtain ⟨l, hrule, hw⟩ := h.matched
  obtain ⟨l', hrule', hw'⟩ := h'.matched
  have hlength : w.length = w'.length :=
    le_antisymm (h'.longest _ hrule w hw (heq ▸ List.prefix_append w rest))
      (h.longest _ hrule' w' hw' (heq ▸ List.prefix_append w' rest'))
  obtain ⟨rfl, rfl⟩ := List.append_inj heq hlength
  exact ⟨(h.preferred _ hrule' hw').antisymm (h'.preferred _ hrule hw), rfl, rfl⟩

theorem Longest.matches (h : Longest found w rest) : ¬Unmatched (w ++ rest) := by
  obtain ⟨l, hrule, hw⟩ := h.matched
  exact fun hnone => hnone _ hrule w hw (List.prefix_append w rest)

/-- A word of a rule is found where it is the longest. -/
theorem Longest.front_eq (h : Longest found w rest) : ∃ c cs, w ++ rest = c :: cs ∧
    front c cs = w ∧ (piece c cs).1 = found ∧ cs.drop (piece c cs).2 = rest := by
  obtain ⟨l, hrule, hw⟩ := h.matched
  obtain ⟨c, v, rfl, -⟩ := yields_of_mem_rules hrule w hw
  have hfound : piece c (v ++ rest) ≠ (.token .unexpectedCharacter, 0) := fun hstray =>
    h.matches (unmatched_of_piece hstray)
  obtain ⟨rfl, hfront, hrest⟩ := h.unique (longest_front hfound) (front_append ..).symm
  exact ⟨c, v ++ rest, rfl, hfront.symm, rfl, hrest.symm⟩

/-- What is longest at a place is what is read there. -/
theorem stream_of_longest (h : Longest found w rest) (offset line : Nat) :
    stream offset line (w ++ rest) = tokenOf offset line w found ++
      stream (offset + byteLength w) (line + newlines w) rest := by
  obtain ⟨c, cs, heq, hfront, hfound, hrest⟩ := h.front_eq
  rw [heq, stream_cons, hfront, hfound, hrest]

theorem stream_of_unmatched (h : Unmatched (c :: rest)) (offset line : Nat) :
    stream offset line (c :: rest) = tokenOf offset line [c] (.token .unexpectedCharacter) ++
      stream (offset + byteLength [c]) (line + newlines [c]) rest := by
  have hstray : piece c rest = (.token .unexpectedCharacter, 0) := by
    by_contra hfound
    exact (longest_front hfound).matches (by rwa [front_append])
  have hfront : front c rest = [c] := by rw [front, hstray, List.take_zero]
  rw [stream_cons, hfront, hstray, List.drop_zero]

/-- By induction on the gaps. -/
theorem stream_of_skipped (h : Skipped gap rest) (offset line : Nat) :
    stream offset line (gap ++ rest) =
      stream (offset + byteLength gap) (line + newlines gap) rest := by
  induction h generalizing offset line with
  | nil => rfl
  | cons hlongest hskipped ih =>
    rw [List.append_assoc, stream_of_longest hlongest, ih, byteLength_append, newlines_append,
      Nat.add_assoc, Nat.add_assoc]
    rfl

/-- By induction on the partition: there is one only. -/
theorem Partition.eq_stream (h : Partition before cs tokens) :
    tokens = stream (byteLength before) (1 + newlines before) cs := by
  induction h with
  | @done before gap hskipped =>
    have hstream := stream_of_skipped hskipped (byteLength before) (1 + newlines before)
    rw [List.append_nil, stream_nil, ← byteLength_append, Nat.add_assoc, ← newlines_append] at hstream
    rw [hstream, placed, List.append_nil, String.ofList_nil]
  | @token before gap w rest kind tokens hskipped hreads hnext ih =>
    have hplace : byteLength before + byteLength gap = byteLength (before ++ gap) ∧
        1 + newlines before + newlines gap = 1 + newlines (before ++ gap) := by
      rw [byteLength_append, newlines_append, Nat.add_assoc]
      exact ⟨rfl, rfl⟩
    have hw : stream (byteLength (before ++ gap)) (1 + newlines (before ++ gap)) (w ++ rest) =
        tokenOf (byteLength (before ++ gap)) (1 + newlines (before ++ gap)) w (.token kind) ++
          stream (byteLength (before ++ gap) + byteLength w)
            (1 + newlines (before ++ gap) + newlines w) rest := by
      rcases hreads with hlongest | ⟨rfl, ⟨c, rfl⟩, hnone⟩
      · exact stream_of_longest hlongest _ _
      · exact stream_of_unmatched hnone _ _
    rw [stream_of_skipped hskipped, hplace.1, hplace.2, hw, tokenOf_placed, ih, byteLength_append _ w,
      newlines_append _ w, Nat.add_assoc 1]
    rfl

/-! ## What a partition says -/

theorem Reads.ne_nil (h : Reads kind w rest) : w ≠ [] := by
  rcases h with hlongest | ⟨-, ⟨c, rfl⟩, -⟩
  · obtain ⟨l, hrule, hw⟩ := hlongest.matched
    obtain ⟨c, v, rfl, -⟩ := yields_of_mem_rules hrule w hw
    exact List.cons_ne_nil c v
  · exact List.cons_ne_nil c []

theorem Reads.ne_endOfText (h : Reads kind w rest) : kind ≠ .endOfText := by
  rcases h with hlongest | ⟨rfl, -⟩
  · exact hlongest.matched.expected.2
  · decide

/-- Only an open string is read as one. -/
theorem Read.openString (h : Read (.token .unterminatedString) w) :
    ∃ quote, isQuote quote = true ∧ w ∈ Lexer.openString quote := by
  obtain ⟨l, hrule, hw⟩ := h
  have hfixed : ∀ entry ∈ marks ++ TokenKind.keywords, entry.2 ≠ .unterminatedString := by
    decide +kernel
  rcases List.mem_append.mp hrule with hrule | hrule
  · rcases List.mem_append.mp hrule with hrule | hrule
    · obtain ⟨_, -, heq⟩ := List.mem_map.mp hrule
      cases (Prod.mk.inj heq).1
    · obtain ⟨entry, hentry, heq⟩ := List.mem_map.mp hrule
      exact absurd (Piece.token.inj (Prod.mk.inj heq).1) (hfixed entry hentry)
  · have hl : l = Lexer.openString '"' ∨ l = Lexer.openString '\'' := by
      simpa [shapes, eq_comm] using hrule
    rcases hl with rfl | rfl
    · exact ⟨'"', rfl, hw⟩
    · exact ⟨'\'', rfl, hw⟩

/-- What is read as an open string is one, and nothing follows it: one more character would belong to
the string, or close it. -/
theorem Reads.unterminated (h : Reads .unterminatedString w rest) :
    rest = [] ∧ ∃ quote, isQuote quote = true ∧ w ∈ openString quote := by
  have hlongest := h.resolve_right fun h => absurd h.1 (by decide)
  obtain ⟨quote, hquote, hw⟩ := hlongest.matched.openString
  obtain ⟨hopen, hclosed⟩ := string_mem_shapes hquote
  refine ⟨?_, quote, hquote, hw⟩
  obtain ⟨body, hbody, hcons⟩ := mem_openString.mp hw
  cases rest with
  | nil => rfl
  | cons c rest =>
    have hmore : ∃ rule ∈ rules, w ++ [c] ∈ rule.2 := by
      by_cases hc : c = quote
      · exact ⟨_, shape_mem_rules hclosed, mem_closedString.mpr ⟨body, hbody, by simp [hcons, hc]⟩⟩
      · exact ⟨_, shape_mem_rules hopen, mem_openString.mpr ⟨body ++ [c],
          List.forall_mem_append.mpr ⟨hbody, by simpa using hc⟩, by simp [hcons]⟩⟩
    obtain ⟨rule, hrule, hmatch⟩ := hmore
    have hle := hlongest.longest rule hrule _ hmatch ⟨rest, by simp⟩
    simp at hle

theorem byteLength_pos (h : w ≠ []) : 0 < byteLength w := by
  obtain ⟨c, v, rfl⟩ := List.exists_cons_of_ne_nil h
  rw [byteLength_eq_sum, List.map_cons, List.sum_cons]
  exact Nat.add_pos_left c.utf8Size_pos _

/-- The last token, and it alone, is the mark of the end. -/
theorem Partition.exists_concat (h : Partition before cs tokens) :
    ∃ init, tokens = init ++ [placed (before ++ cs) .endOfText []] ∧
      ∀ t ∈ init, t.kind ≠ .endOfText ∧ t.start < t.stop := by
  induction h with
  | done => exact ⟨[], rfl, List.forall_mem_nil _⟩
  | @token before gap w rest kind tokens _ hreads _ ih =>
    obtain ⟨init, heq, hinit⟩ := ih
    refine ⟨placed (before ++ gap) kind w :: init, ?_,
      List.forall_mem_cons.mpr ⟨⟨hreads.ne_endOfText, ?_⟩, hinit⟩⟩
    · simp [heq]
    · show byteLength (before ++ gap) < byteLength (before ++ gap ++ w)
      rw [byteLength_append _ w]
      exact Nat.lt_add_of_pos_right (byteLength_pos hreads.ne_nil)

/-- Tokens stand behind what was read before them. -/
theorem Partition.le_start (h : Partition before cs tokens) :
    ∀ t ∈ tokens, byteLength before ≤ t.start := by
  induction h with
  | done =>
    rw [List.forall_mem_singleton, placed, byteLength_append]
    exact Nat.le_add_right _ _
  | token _ _ _ ih =>
    refine List.forall_mem_cons.mpr ⟨?_, fun t ht => ?_⟩
    · rw [placed, byteLength_append]
      exact Nat.le_add_right _ _
    · have hle := ih t ht
      rw [byteLength_append, byteLength_append] at hle
      omega

/-- No token begins before the one in front of it ends. -/
theorem Partition.pairwise (h : Partition before cs tokens) :
    tokens.Pairwise fun t t' => t.stop ≤ t'.start := by
  induction h with
  | done => exact List.pairwise_singleton _ _
  | token _ _ hnext ih => exact List.pairwise_cons.mpr ⟨hnext.le_start, ih⟩

/-- Every token stands in the text where it says. -/
theorem Partition.exists_placed (h : Partition before cs tokens) : ∀ t ∈ tokens, ∃ front rest,
    cs = front ++ t.text.toList ++ rest ∧ t = placed (before ++ front) t.kind t.text.toList ∧
      (t.kind ≠ .endOfText → Reads t.kind t.text.toList rest) := by
  induction h with
  | @done before gap _ =>
    exact List.forall_mem_singleton.mpr ⟨gap, [], by simp [placed], rfl, fun hne => absurd rfl hne⟩
  | @token before gap w rest kind tokens _ hreads _ ih =>
    refine List.forall_mem_cons.mpr ⟨⟨gap, rest, ?_, ?_, fun _ => ?_⟩, fun t ht => ?_⟩
    · simp [placed]
    · simp [placed]
    · simpa [placed] using hreads
    · obtain ⟨front, rest', rfl, hplaced, hread⟩ := ih t ht
      refine ⟨gap ++ w ++ front, rest', by simp, ?_, hread⟩
      simpa using hplaced

/-- **`tokenize_partition`** — the tokens of a text are its only partition into gaps and longest words,
with the mark of the end after the last. The spans are not empty, lie in order and hold whole
characters; a token is on the line that the newlines before it count. An error is a string that is
never closed, or a character where no rule matches. -/
theorem tokenize_partition (source : String) :
    (∀ tokens, Partition [] source.toList tokens ↔ tokens = (tokenize source).toList) ∧
    (∃ init, (tokenize source).toList = init ++ [placed source.toList .endOfText []] ∧
      ∀ t ∈ init, t.kind ≠ .endOfText ∧ t.start < t.stop) ∧
    (tokenize source).toList.Pairwise (fun t t' => t.stop ≤ t'.start) ∧
    ∀ t ∈ (tokenize source).toList, ∃ before after,
      source.toList = before ++ t.text.toList ++ after ∧
      t.start = byteLength before ∧ t.stop = byteLength (before ++ t.text.toList) ∧
      t.line = 1 + newlines before ∧
      (t.kind ≠ .endOfText → t.kind ≠ .unexpectedCharacter →
        Longest (.token t.kind) t.text.toList after) ∧
      (t.kind = .unterminatedString →
        after = [] ∧ ∃ quote, isQuote quote = true ∧ t.text.toList ∈ openString quote) ∧
      (t.kind = .unexpectedCharacter → Unmatched (t.text.toList ++ after)) := by
  have hpartition : Partition [] source.toList (tokenize source).toList :=
    partition_stream [] source.toList
  refine ⟨fun tokens => ⟨fun h => h.eq_stream, fun h => h ▸ hpartition⟩, hpartition.exists_concat,
    hpartition.pairwise, fun t ht => ?_⟩
  obtain ⟨before, after, hsource, hplaced, hreads⟩ := hpartition.exists_placed t ht
  refine ⟨before, after, hsource, congrArg Token.start hplaced, congrArg Token.stop hplaced,
    congrArg Token.line hplaced, fun hend hexpected => ?_, fun hkind => ?_, fun hkind => ?_⟩
  · exact (hreads hend).resolve_right fun h => hexpected h.1
  · rw [hkind] at hreads
    exact (hreads (by decide)).unterminated
  · rw [hkind] at hreads
    rcases hreads (by decide) with hlongest | ⟨-, -, hnone⟩
    · exact absurd rfl hlongest.matched.expected.1
    · exact hnone

end ScriptMachine.Lexer
