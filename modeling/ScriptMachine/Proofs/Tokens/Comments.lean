import Mathlib
import ScriptMachine.Proofs.Tokens.Partition

/-!
# ScriptMachine.Proofs.Tokens.Comments — comments leave no trace

A comment on lines of its own changes nothing about the tokens of what follows but where they stand,
and a documentation comment is one token in front of them. A block comment is one only if its body does
not start with a star, or holds nothing but stars: otherwise its slash is a token.

`tokenize_comment` and `Remark.transparent_iff` are the results. The first is about comments as the rules
have them. The second is about what a reader would write as one, and says exactly which of these are
not: a block whose text starts with a star and goes on with something other than stars. That is a defect
of the rules, and `stream_starred` shows what such a block is taken for, a slash before all else. What
becomes of the tokens behind that slash is not followed.
-/

namespace ScriptMachine

/-- The token so many bytes and lines further on. -/
def Token.shift (bytes lines : Nat) (t : Token) : Token :=
  { t with start := t.start + bytes, stop := t.stop + bytes, line := t.line + lines }

namespace Lexer

variable {c : Char} {cs w body rest : List Char} {found : Piece} {n offset line : Nat}

/-! ## Places -/

/-- Where a token stands moves with the text in front of it. -/
theorem shift_tokenOf (offset line bytes lines : Nat) (text : List Char) (found : Piece) :
    tokenOf (offset + bytes) (line + lines) text found =
      (tokenOf offset line text found).map (Token.shift bytes lines) := by
  cases found with
  | gap => rfl
  | token kind => simp [tokenOf, Token.shift, Nat.add_right_comm]

/-- The tokens of a text further on are the same further on. -/
theorem shift_stream (bytes lines offset line : Nat) (cs : List Char) :
    stream (offset + bytes) (line + lines) cs =
      (stream offset line cs).map (Token.shift bytes lines) := by
  induction offset, line, cs using piecewise with
  | nil offset line => simp [stream_nil, Token.shift]
  | cons offset line c cs ih =>
    rw [stream_cons, stream_cons, List.map_append, ← ih, shift_tokenOf, Nat.add_right_comm offset,
      Nat.add_right_comm line]

/-- Blanks are skipped. -/
theorem stream_dropWhile (offset line : Nat) (cs : List Char) :
    stream offset line cs = stream (offset + byteLength (cs.takeWhile isGap))
      (line + newlines (cs.takeWhile isGap)) (cs.dropWhile isGap) := by
  cases cs with
  | nil => rfl
  | cons c cs =>
    by_cases hc : isGap c = true
    · rw [stream_cons, front, piece_of_isGap hc, take_countWhile, drop_countWhile,
        List.takeWhile_cons_of_pos hc, List.dropWhile_cons_of_pos hc]
      rfl
    · rw [List.takeWhile_cons_of_neg hc, List.dropWhile_cons_of_neg hc]
      rfl

/-- A blank is skipped, whatever stands behind it. -/
theorem stream_blank (hc : isGap c = true) (offset line : Nat) (cs : List Char) :
    stream offset line (c :: cs) = stream (offset + byteLength [c]) (line + newlines [c]) cs := by
  rw [stream_dropWhile, stream_dropWhile _ _ cs, List.takeWhile_cons_of_pos hc,
    List.dropWhile_cons_of_pos hc, Nat.add_assoc, Nat.add_assoc, ← byteLength_append,
    ← newlines_append]
  rfl

/-! ## Comments -/

/-- **`Closes body`** — the first closing mark behind `body` is the one that comes right after it. -/
def Closes (body : List Char) : Prop :=
  ¬ ['*', '/'] <:+: body ++ ['*']

/-- **`Comment found w`** — `w` is a comment, which is skipped or documentation. -/
inductive Comment : Piece → List Char → Prop
  | line {body : List Char} (hline : '\n' ∉ body) (hmark : body.head? ≠ some '?') :
      Comment .gap ('/' :: '/' :: body)
  | lineDoc {body : List Char} (hline : '\n' ∉ body) :
      Comment (.token .doc) ('/' :: '/' :: '?' :: body)
  | block {body : List Char} (hcloses : Closes body) (hmark : body.head? ≠ some '?')
      (hstars : body.head? = some '*' → ∀ c ∈ body, c = '*') :
      Comment .gap ('/' :: '*' :: (body ++ ['*', '/']))
  | blockDoc {body : List Char} (hcloses : Closes body) :
      Comment (.token .doc) ('/' :: '*' :: '?' :: (body ++ ['*', '/']))

theorem countWhile_line (hline : '\n' ∉ body) :
    countWhile (· != '\n') n (body ++ '\n' :: rest) = n + body.length := by
  have hall : ∀ a ∈ body, (a != '\n') = true := fun a ha =>
    bne_iff_ne.mpr fun heq => hline (heq ▸ ha)
  rw [countWhile_eq, List.takeWhile_append_of_pos hall]
  simp

theorem Closes.tail (h : Closes (c :: body)) : Closes body :=
  fun hin => h (hin.trans (List.suffix_cons c _).isInfix)

/-- A comment ends at the first mark of its end, which is not within the body. -/
theorem Closes.throughClose? (h : Closes body) :
    throughClose? n (body ++ '*' :: '/' :: rest) = some (n + body.length + 2) := by
  induction body generalizing n with
  | nil => rfl
  | cons c body ih =>
    have hnext : c ≠ '*' ∨ ∀ tail, body ++ '*' :: '/' :: rest ≠ '/' :: tail := by
      by_contra hnot
      obtain ⟨rfl, hslash⟩ : c = '*' ∧ ∃ tail, body ++ '*' :: '/' :: rest = '/' :: tail := by
        simpa using hnot
      obtain ⟨tail, heq⟩ := hslash
      cases body with
      | nil => simp at heq
      | cons d body =>
        obtain rfl : d = '/' := (List.cons.inj heq).1
        exact h ⟨[], body ++ ['*'], rfl⟩
    rw [List.cons_append, throughClose?_cons hnext, ih h.tail, List.length_cons]
    congr 1
    omega

/-- **`Comment.piece_eq`** — a comment at the end of a line is a piece. -/
theorem Comment.piece_eq (h : Comment found w) (rest : List Char) : ∃ v, w = '/' :: v ∧
    piece '/' (v ++ '\n' :: rest) = (found, v.length) := by
  cases h with
  | @line body hline hmark =>
    refine ⟨'/' :: body, rfl, ?_⟩
    have hnext : ∀ tail, body ++ '\n' :: rest ≠ '?' :: tail := by
      rintro tail heq
      cases body with
      | nil => simp at heq
      | cons c body => exact hmark (congrArg some (List.cons.inj heq).1)
    rw [List.cons_append, piece_lineComment hnext, countWhile_line hline, List.length_cons,
      Nat.add_comm]
  | @lineDoc body hline =>
    refine ⟨'/' :: '?' :: body, rfl, ?_⟩
    have hpiece : piece '/' ('/' :: '?' :: (body ++ '\n' :: rest)) =
        (.token .doc, countWhile (· != '\n') 2 (body ++ '\n' :: rest)) := rfl
    rw [List.cons_append, List.cons_append, hpiece, countWhile_line hline, List.length_cons,
      List.length_cons, Nat.add_comm]
  | @block body hcloses hmark hstars =>
    refine ⟨'*' :: (body ++ ['*', '/']), rfl, piece_of_comment? ?_⟩
    rw [List.cons_append, List.append_assoc]
    cases body with
    | nil => exact comment?_stars (List.forall_mem_nil _)
    | cons c body =>
      -- a body that starts with a star holds nothing but stars
      by_cases hstar : c = '*'
      · subst hstar
        have hall : ∀ a ∈ body ++ ['*'], (a == '*') = true := by
          intro a ha
          rcases List.mem_append.mp ha with ha | ha
          · exact beq_iff_eq.mpr (hstars rfl a (List.mem_cons_of_mem _ ha))
          · exact beq_iff_eq.mpr (List.mem_singleton.mp ha)
        have hcomment : comment? ('*' :: '*' :: (body ++ ['*'] ++ '/' :: '\n' :: rest)) =
            some (.gap, (body ++ ['*']).length + 3) := comment?_stars hall
        simpa using hcomment
      · have hmark' : c ≠ '?' := fun heq => hmark (congrArg some heq)
        rw [List.cons_append, comment?_body hmark' hstar, List.cons_append, List.cons_append,
          hcloses.tail.throughClose?, Option.map_some]
        simp only [List.length_cons, List.length_append, List.length_nil]
        congr 2
        omega
  | @blockDoc body hcloses =>
    refine ⟨'*' :: '?' :: (body ++ ['*', '/']), rfl, piece_of_comment? ?_⟩
    rw [List.cons_append, List.cons_append, List.append_assoc]
    rw [comment?, List.cons_append, List.cons_append, hcloses.throughClose?, Option.map_some]
    simp only [List.length_cons, List.length_append, List.length_nil]
    congr 2
    omega

/-- **`stream_comment`** — the tokens of a comment, a newline and more. -/
theorem stream_comment (h : Comment found w) (offset line : Nat) (rest : List Char) :
    stream offset line (w ++ '\n' :: rest) = tokenOf offset line w found ++
      (stream offset line rest).map (Token.shift (byteLength w + 1) (newlines w + 1)) := by
  obtain ⟨v, rfl, hpiece⟩ := h.piece_eq rest
  have hfront : front '/' (v ++ '\n' :: rest) = '/' :: v := by
    rw [front, hpiece, List.take_left]
  rw [List.cons_append, stream_cons, hfront, hpiece, List.drop_left, stream_blank rfl, ← shift_stream]
  rfl

/-- **`tokenize_comment`** — a comment on lines of its own leaves the tokens of what follows as they
are, further on; a documentation comment is one more token in front of them. -/
theorem tokenize_comment (h : Comment found w) (rest : String) :
    (tokenize (String.ofList w ++ "\n" ++ rest)).toList = tokenOf 0 1 w found ++
      (tokenize rest).toList.map (Token.shift (byteLength w + 1) (newlines w + 1)) := by
  rw [toList_tokenize, toList_tokenize]
  simpa using stream_comment h 0 1 rest.toList

/-! ## Bodies that start with a star -/

/-- A body that starts with stars and goes on with something else. -/
theorem comment?_starred {stars : List Char} (hstars : ∀ a ∈ stars, a = '*') (hc : c ≠ '*')
    (hslash : c ≠ '/') : comment? ('*' :: '*' :: (stars ++ c :: cs)) = none := by
  have hcount : countWhile (· == '*') 2 (stars ++ c :: cs) = stars.length + 2 := by
    rw [countWhile_eq, List.takeWhile_append_of_pos fun a ha => beq_iff_eq.mpr (hstars a ha)]
    simp [hc]
    omega
  simp only [comment?, hcount, Nat.add_sub_cancel, List.drop_left]
  split
  · rename_i heq
    exact absurd (List.cons.inj heq).1 hslash
  · rfl

/-- **`stream_starred`** — a block comment whose body starts with stars and holds something else is
none: its slash is a token. -/
theorem stream_starred {stars : List Char} (hstars : ∀ a ∈ stars, a = '*') (hc : c ≠ '*')
    (hslash : c ≠ '/') (offset line : Nat) (cs : List Char) :
    stream offset line ('/' :: '*' :: '*' :: (stars ++ c :: cs)) =
      ⟨.slash, "/", offset, offset + 1, line⟩ ::
        stream (offset + 1) line ('*' :: '*' :: (stars ++ c :: cs)) := by
  have hclasses : isGap '/' = false ∧ isWordStart '/' = false ∧ '/'.isDigit = false ∧
      isQuote '/' = false := by decide
  have hpiece : piece '/' ('*' :: '*' :: (stars ++ c :: cs)) = (.token .slash, 0) := by
    simp [piece, hclasses, comment?_starred hstars hc hslash, punctuation?]
  rw [stream_cons, front, hpiece, List.take_zero, List.drop_zero]
  rfl

/-! ## Texts between comment marks -/

/-- **`Remark found w`** — `w` is written as a comment: a line behind two slashes, or a text between the
marks of a block that has no closing mark before its end. -/
inductive Remark : Piece → List Char → Prop
  | line {body : List Char} (hline : '\n' ∉ body) (hmark : body.head? ≠ some '?') :
      Remark .gap ('/' :: '/' :: body)
  | lineDoc {body : List Char} (hline : '\n' ∉ body) :
      Remark (.token .doc) ('/' :: '/' :: '?' :: body)
  | block {body : List Char} (hcloses : Closes body) (hmark : body.head? ≠ some '?') :
      Remark .gap ('/' :: '*' :: (body ++ ['*', '/']))
  | blockDoc {body : List Char} (hcloses : Closes body) :
      Remark (.token .doc) ('/' :: '*' :: '?' :: (body ++ ['*', '/']))

/-- **`Starred w`** — a block whose text starts with stars and goes on with something else. -/
def Starred (w : List Char) : Prop :=
  ∃ stars c cs, w = '/' :: '*' :: '*' :: (stars ++ c :: cs) ∧ (∀ a ∈ stars, a = '*') ∧
    c ≠ '*' ∧ c ≠ '/'

/-- A closing mark does not follow on stars at the start of a text that has none before its end. -/
theorem Closes.ne_slash {stars : List Char} (h : Closes ('*' :: (stars ++ c :: cs)))
    (hstars : ∀ a ∈ stars, a = '*') : c ≠ '/' := by
  rintro rfl
  obtain ⟨init, hinit⟩ : ∃ init, '*' :: stars = init ++ ['*'] := by
    have hreplicate : stars = List.replicate stars.length '*' :=
      List.eq_replicate_iff.mpr ⟨rfl, hstars⟩
    rw [hreplicate, ← List.replicate_succ, List.replicate_succ']
    exact ⟨_, rfl⟩
  refine h ⟨init, cs ++ ['*'], ?_⟩
  rw [← List.cons_append, hinit]
  simp

/-- What is written as a comment is one, or it is starred. -/
theorem Remark.comment_or_starred (h : Remark found w) : Comment found w ∨ Starred w := by
  cases h with
  | line hline hmark => exact .inl (.line hline hmark)
  | lineDoc hline => exact .inl (.lineDoc hline)
  | blockDoc hcloses => exact .inl (.blockDoc hcloses)
  | @block body hcloses hmark =>
    by_cases hstars : body.head? = some '*' → ∀ a ∈ body, a = '*'
    · exact .inl (.block hcloses hmark hstars)
    · -- the first character that is no star stands behind the stars at the start
      obtain ⟨hhead, hnot⟩ := Classical.not_imp.mp hstars
      obtain ⟨body, rfl⟩ : ∃ body', body = '*' :: body' := by
        cases body with
        | nil => cases hhead
        | cons a body' => exact ⟨body', by rw [Option.some.inj hhead]⟩
      set stars := body.takeWhile (· == '*') with hdef
      have hall : ∀ a ∈ stars, a = '*' := fun a ha => by
        simpa using List.mem_takeWhile_imp (p := (· == '*')) ha
      have hsplit : stars ++ body.dropWhile (· == '*') = body := List.takeWhile_append_dropWhile
      cases hrest : body.dropWhile (· == '*') with
      | nil =>
        rw [hrest, List.append_nil] at hsplit
        exact (hnot (List.forall_mem_cons.mpr ⟨rfl, hsplit ▸ hall⟩)).elim
      | cons c cs =>
        rw [hrest] at hsplit
        have hc : c ≠ '*' := by
          have hne := List.head?_dropWhile_not (· == '*') body
          rw [hrest] at hne
          simpa using hne
        rw [← hsplit] at hcloses
        refine .inr ⟨stars, c, cs ++ ['*', '/'], ?_, hall, hc, hcloses.ne_slash hall⟩
        rw [← hsplit]
        simp

/-- **`Remark.transparent_iff`** — what is written as a comment leaves the tokens of what follows as they
are, further on, unless it is starred: then its slash is a token. -/
theorem Remark.transparent_iff (h : Remark found w) (rest : String) :
    (tokenize (String.ofList w ++ "\n" ++ rest)).toList = tokenOf 0 1 w found ++
      (tokenize rest).toList.map (Token.shift (byteLength w + 1) (newlines w + 1)) ↔
    ¬ Starred w := by
  refine ⟨fun heq hstarred => ?_, fun hplain =>
    tokenize_comment (h.comment_or_starred.resolve_right hplain) rest⟩
  have hfound : found = .gap ∨ found = .token .doc := by cases h <;> simp
  obtain ⟨stars, c, cs, rfl, hstars, hc, hslash⟩ := hstarred
  have hstream := stream_starred hstars hc hslash 0 1 (cs ++ '\n' :: rest.toList)
  rw [toList_tokenize, toList_tokenize] at heq
  simp only [String.toList_append, String.toList_ofList, List.cons_append, List.append_assoc] at heq
  rw [show "\n".toList = ['\n'] from rfl, List.singleton_append, hstream] at heq
  rcases hfound with rfl | rfl
  · -- the slash is the first character, and all other tokens are further on
    obtain ⟨t, ts, -, hshift, -⟩ := List.map_eq_cons_iff.mp heq.symm
    have hstart := congrArg Token.start hshift
    simp [Token.shift] at hstart
  · cases (List.cons.inj heq).1

/-- A block that starts with a second star is no comment. -/
theorem Remark.transparent_iff_doubleStar :
    let w := "/** x */".toList
    Remark .gap w ∧ ¬ (tokenize (String.ofList w ++ "\n" ++ "1")).toList = tokenOf 0 1 w .gap ++
      (tokenize "1").toList.map (Token.shift (byteLength w + 1) (newlines w + 1)) := by
  intro w
  have hcloses : Closes ['*', ' ', 'x', ' '] := by
    unfold Closes
    decide
  have hremark : Remark .gap w := .block hcloses (by decide)
  refine ⟨hremark, fun heq => (hremark.transparent_iff "1").mp heq ?_⟩
  exact ⟨[], ' ', ['x', ' ', '*', '/'], rfl, List.forall_mem_nil _, by decide, by decide⟩

end Lexer

end ScriptMachine
