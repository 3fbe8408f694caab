import Mathlib
import ScriptMachine.Token.Lexer

/-!
# ScriptMachine.Proofs.Tokens.Stream — the tokens of a text, piece by piece

`tokenize` collects the tokens in an array. Here they are a list, `stream`, with an equation for each
piece at the front of the text, and an induction that goes from piece to piece.

`stream_cons` is that equation and `toList_tokenize` says that the list is the array. `forall_stream` and
`exists_of_mem_stream` are what later modules use: what holds of every piece holds of every token, and
the span of a token is where its text stands. The functions that count characters from the front of a
text are compared with those of the library at the end, and strings with the marks around them.
-/

namespace ScriptMachine.Lexer

variable {c : Char} {cs : List Char} {offset line : Nat}

/-- The longest piece at the front of `c :: cs`. -/
def front (c : Char) (cs : List Char) : List Char :=
  c :: cs.take (piece c cs).2

/-- The tokens of a piece: one, or none when it is a gap. -/
def tokenOf (offset line : Nat) (text : List Char) : Piece → List Token
  | .gap => []
  | .token kind => [⟨kind, String.ofList text, offset, offset + byteLength text, line⟩]

/-- The tokens of characters that begin at byte `offset` of line `line`. -/
def stream (offset line : Nat) (cs : List Char) : List Token :=
  (tokensFrom #[] offset line cs).toList

/-- Going through a text by its pieces. -/
theorem piecewise {motive : Nat → Nat → List Char → Prop}
    (nil : ∀ offset line, motive offset line [])
    (cons : ∀ offset line c cs,
      motive (offset + byteLength (front c cs)) (line + newlines (front c cs)) (cs.drop (piece c cs).2) →
        motive offset line (c :: cs)) (offset line : Nat) (cs : List Char) :
    motive offset line cs := by
  induction hn : cs.length using Nat.strong_induction_on generalizing offset line cs with
  | _ n ih =>
    cases cs with
    | nil => exact nil offset line
    | cons c cs =>
      refine cons offset line c cs (ih _ ?_ _ _ _ rfl)
      rw [← hn, List.length_drop, List.length_cons]
      omega

/-- The next piece is read, and the rest from behind it. -/
theorem tokensFrom_cons (done : Array Token) (offset line : Nat) (c : Char) (cs : List Char) :
    tokensFrom done offset line (c :: cs) =
      tokensFrom (done ++ (tokenOf offset line (front c cs) (piece c cs).1).toArray)
        (offset + byteLength (front c cs)) (line + newlines (front c cs)) (cs.drop (piece c cs).2) := by
  rw [tokensFrom]
  unfold front
  cases piece c cs with
  | mk found n => cases found <;> simp [tokenOf]

theorem toList_tokensFrom (done : Array Token) (offset line : Nat) (cs : List Char) :
    (tokensFrom done offset line cs).toList = done.toList ++ stream offset line cs := by
  induction offset, line, cs using piecewise generalizing done with
  | nil offset line => simp [stream, tokensFrom]
  | cons offset line c cs ih =>
    rw [stream, tokensFrom_cons, tokensFrom_cons, ih, ih (_ ++ _)]
    simp

theorem stream_nil : stream offset line [] = [⟨.endOfText, "", offset, offset, line⟩] := by
  simp [stream, tokensFrom]

theorem stream_cons (offset line : Nat) (c : Char) (cs : List Char) :
    stream offset line (c :: cs) =
      tokenOf offset line (front c cs) (piece c cs).1 ++
        stream (offset + byteLength (front c cs)) (line + newlines (front c cs))
          (cs.drop (piece c cs).2) := by
  rw [stream, tokensFrom_cons, toList_tokensFrom]
  simp

theorem toList_tokenize (source : String) :
    (tokenize source).toList = stream 0 1 source.toList :=
  rfl

theorem front_append (c : Char) (cs : List Char) : front c cs ++ cs.drop (piece c cs).2 = c :: cs := by
  simp [front]

/-- What holds of the token of every piece, and of the mark of the end, holds of all tokens. -/
theorem forall_stream {P : Token → Prop}
    (hend : ∀ offset line, P ⟨.endOfText, "", offset, offset, line⟩)
    (hpiece : ∀ offset line c cs, ∀ t ∈ tokenOf offset line (front c cs) (piece c cs).1, P t)
    (offset line : Nat) (cs : List Char) : ∀ t ∈ stream offset line cs, P t := by
  induction offset, line, cs using piecewise with
  | nil offset line => simpa [stream_nil] using hend offset line
  | cons offset line c cs ih =>
    rw [stream_cons]
    exact List.forall_mem_append.mpr ⟨hpiece offset line c cs, ih⟩

/-- The last token is the mark of the end. -/
theorem exists_stream_eq_concat (offset line : Nat) (cs : List Char) :
    ∃ init last, stream offset line cs = init ++ [last] ∧ last.kind = .endOfText := by
  induction offset, line, cs using piecewise with
  | nil offset line => exact ⟨[], _, stream_nil, rfl⟩
  | cons offset line c cs ih =>
    obtain ⟨init, last, heq, hlast⟩ := ih
    rw [stream_cons, heq, ← List.append_assoc]
    exact ⟨_, last, rfl, hlast⟩

theorem byteLength_eq_sum (cs : List Char) : byteLength cs = (cs.map Char.utf8Size).sum := by
  rw [byteLength, List.sum_eq_foldl, List.foldl_map]

theorem byteLength_append (cs ds : List Char) : byteLength (cs ++ ds) = byteLength cs + byteLength ds := by
  simp only [byteLength_eq_sum, List.map_append, List.sum_append]

/-- The span of a token is where its text stands. -/
theorem exists_of_mem_stream (offset line : Nat) (cs : List Char) : ∀ t ∈ stream offset line cs,
    ∃ before after, cs = before ++ t.text.toList ++ after ∧ t.start = offset + byteLength before ∧
      t.stop = t.start + byteLength t.text.toList := by
  induction offset, line, cs using piecewise with
  | nil offset line =>
    rw [stream_nil]
    exact List.forall_mem_singleton.mpr ⟨[], [], rfl, rfl, rfl⟩
  | cons offset line c cs ih =>
    rw [stream_cons]
    refine List.forall_mem_append.mpr ⟨fun t ht => ?_, fun t ht => ?_⟩
    · cases hpiece : (piece c cs).1 with
      | gap => simp [hpiece, tokenOf] at ht
      | token kind =>
        obtain rfl : t = _ := by simpa [hpiece, tokenOf] using ht
        exact ⟨[], cs.drop (piece c cs).2, by simp [front_append], rfl, by simp⟩
    · obtain ⟨before, after, heq, hstart, hstop⟩ := ih t ht
      refine ⟨front c cs ++ before, after, ?_, ?_, hstop⟩
      · rw [← front_append c cs, heq]
        simp only [List.append_assoc]
      · rw [hstart, byteLength_append, Nat.add_assoc]

/-! ## Strings -/

/-- Counting characters is measuring how far they go. -/
theorem countWhile_eq (p : Char → Bool) (n : Nat) (cs : List Char) :
    countWhile p n cs = n + (cs.takeWhile p).length := by
  induction cs generalizing n with
  | nil => simp [countWhile]
  | cons c cs ih =>
    rw [countWhile, List.takeWhile_cons]
    split
    · rw [ih, List.length_cons]
      omega
    · simp

theorem take_countWhile (p : Char → Bool) (cs : List Char) :
    cs.take (countWhile p 0 cs) = cs.takeWhile p := by
  rw [countWhile_eq, Nat.zero_add]
  exact List.prefix_iff_eq_take.mp (List.takeWhile_prefix p) |>.symm

theorem drop_countWhile (p : Char → Bool) (cs : List Char) :
    cs.drop (countWhile p 0 cs) = cs.dropWhile p := by
  have h : cs.take (countWhile p 0 cs) ++ cs.drop (countWhile p 0 cs) =
      cs.takeWhile p ++ cs.dropWhile p := by
    rw [List.take_append_drop, List.takeWhile_append_dropWhile]
  rw [take_countWhile] at h
  exact List.append_cancel_left h

theorem dropWhile_eq_cons {p : Char → Bool} {cs rest : List Char} {c : Char}
    (h : cs.dropWhile p = c :: rest) : p c = false := by
  have hne : cs.dropWhile p ≠ [] := by simp [h]
  have := List.head_dropWhile_not p hne
  simpa [h] using this

theorem take_of_dropWhile_eq_cons {p : Char → Bool} {cs rest : List Char} {c : Char}
    (h : cs.dropWhile p = c :: rest) :
    cs.take ((cs.takeWhile p).length + 1) = cs.takeWhile p ++ [c] := by
  have hcs : cs = cs.takeWhile p ++ c :: rest := by rw [← h, List.takeWhile_append_dropWhile]
  generalize cs.takeWhile p = body at hcs ⊢
  subst hcs
  simp [List.take_append]

theorem ofWord_ne_string (w : String) : TokenKind.ofWord w ≠ .string := by
  have hkeywords : ∀ entry ∈ TokenKind.keywords, entry.2 ≠ .string := by decide
  unfold TokenKind.ofWord
  cases hlookup : TokenKind.keywords.lookup w with
  | none => simp
  | some kind =>
    obtain ⟨l₁, l₂, heq, -⟩ := List.lookup_eq_some_iff.mp hlookup
    exact hkeywords (w, kind) (heq ▸ by simp)

/-- A comment is a gap or documentation. -/
theorem kind_of_comment? {found : Piece} {n : Nat} (h : comment? cs = some (found, n)) :
    found = .gap ∨ found = .token .doc := by
  unfold comment? at h
  dsimp only at h
  split at h <;> try split at h
  all_goals simp_all [eq_comm]

theorem ne_string_of_punctuation? {kind : TokenKind} {n : Nat} (h : punctuation? c cs = some (kind, n)) :
    kind ≠ .string := by
  unfold punctuation? at h
  split at h <;> grind

theorem piece_of_isQuote (h : isQuote c = true) : piece c cs = quoted c cs := by
  have hc : c = '"' ∨ c = '\'' := by simpa [isQuote] using h
  rcases hc with rfl | rfl <;> rfl

/-- Between marks a string goes on to the first closing one. -/
theorem quoted_eq (c : Char) (cs : List Char) :
    quoted c cs =
      match cs.dropWhile (· != c) with
      | [] => (.token .unterminatedString, (cs.takeWhile (· != c)).length)
      | _ => (.token .string, (cs.takeWhile (· != c)).length + 1) := by
  have hlength : countWhile (· != c) 0 cs = (cs.takeWhile (· != c)).length := by
    rw [countWhile_eq, Nat.zero_add]
  cases hrest : cs.dropWhile (· != c) with
  | nil => simp only [quoted, drop_countWhile, hrest, ← hlength]
  | cons q rest => simp only [quoted, drop_countWhile, hrest, ← hlength]

/-- A string starts with a quote. -/
theorem isQuote_of_string (h : (piece c cs).1 = .token .string) : isQuote c = true := by
  by_contra hquote
  unfold piece at h
  split at h
  · cases h
  split at h
  · exact ofWord_ne_string _ (Piece.token.inj h)
  split at h
  · cases h
  split at h
  · rename_i found hfound
    split at hfound
    · have := kind_of_comment? (Prod.eta found ▸ hfound)
      simp [h] at this
    · cases hfound
  · split at h
    · rename_i hkind
      exact ne_string_of_punctuation? hkind (Piece.token.inj h)
    · split at h <;> cases h

/-- A string token is what stands between two marks, with them. -/
theorem front_of_string (h : (piece c cs).1 = .token .string) :
    isQuote c = true ∧ ∃ body, front c cs = c :: body ++ [c] := by
  have hquote := isQuote_of_string h
  refine ⟨hquote, cs.takeWhile (· != c), ?_⟩
  rw [front]
  rw [piece_of_isQuote hquote, quoted_eq] at h ⊢
  cases hrest : cs.dropWhile (· != c) with
  | nil => simp [hrest] at h
  | cons q rest =>
    obtain rfl : q = c := by simpa using dropWhile_eq_cons hrest
    simp [take_of_dropWhile_eq_cons hrest]

end ScriptMachine.Lexer
