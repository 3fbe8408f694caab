import Mathlib
import ScriptMachine.Proofs.Tokens.Shapes

/-!
# ScriptMachine.Proofs.Tokens.Longest — the longest word at the front of a text

No rule matches more than `piece` takes (`yields_of_mem_rules`), and what `piece` finds is a word of
a rule, or one character where no rule matches (`read_piece`). So the piece is the longest word at the
front of the text, read as the rules prefer (`longest_front`).

Both directions go rule by rule. `yields_of_mem_rules` collects what the shapes yield, each shown where
the shape is, and the marks, whose words are prefixes of each other: there a longer mark has to be
found first. `read_piece` follows the cases of `piece` instead, and names for each the rule that its
words belong to. Where no rule matches, a single character is taken that no rule knows.
-/

namespace ScriptMachine.Lexer

open scoped Computability

variable {c : Char} {cs v w : List Char} {found : Piece} {kind : TokenKind} {n : Nat}

/-! ## Punctuation -/

theorem mem_marks_of_punctuation? (h : punctuation? c cs = some (kind, n)) :
    (String.ofList (c :: cs.take n), kind) ∈ marks := by
  unfold punctuation? at h
  split at h <;> cases h <;> simp only [List.take_succ_cons, List.take_zero] <;> decide +kernel

theorem head?_ne_of_punctuation? (h : punctuation? c cs = none) :
    ∀ mark ∈ marks, mark.1.toList.head? ≠ some c := by
  unfold punctuation? at h
  split at h
  case h_48 =>
    simp only [marks, List.forall_mem_cons, String.reduceToList, List.head?_cons, ne_eq,
      Option.some.injEq]
    grind
  all_goals exact absurd h (Option.some_ne_none _)

theorem punctuation?_dots (rest : List Char) :
    ∃ kind n, punctuation? '.' ('.' :: rest) = some (kind, n) ∧ 0 < n := by
  match rest with
  | [] => exact ⟨_, _, rfl, Nat.one_pos⟩
  | d :: rest =>
    by_cases hd : d = '.'
    · subst hd
      exact ⟨_, _, rfl, Nat.two_pos⟩
    · exact ⟨.expandIn, 1, by simp [punctuation?, hd], Nat.one_pos⟩

/-- A mark of several characters is found, or a longer one. -/
theorem lt_punctuation? : ∀ mark ∈ marks, ∀ c d v, mark.1.toList = c :: d :: v → ∀ rest,
    ∃ kind n, punctuation? c (d :: v ++ rest) = some (kind, n) ∧ v.length < n := by
  simp only [marks, List.forall_mem_cons, String.reduceToList, List.cons.injEq, List.not_mem_nil,
    reduceCtorEq, and_false, false_imp_iff, implies_true, true_and, and_true, and_imp]
  split_ands
  all_goals
    rintro _ _ _ rfl rfl rfl rest
    first
    | exact punctuation?_dots rest
    | exact ⟨_, _, rfl, by decide⟩

theorem lookup_marks : ∀ mark ∈ marks, marks.lookup mark.1 = some mark.2 := by
  decide +kernel

theorem classes_of_mark : ∀ mark ∈ marks, (mark.1.toList.head?.any fun c =>
    !isGap c && !isWordStart c && !c.isDigit && !isQuote c) = true := by
  decide +kernel

theorem slash_marks : ∀ mark ∈ marks, mark.1.toList.head? = some '/' →
    mark.1.toList.tail = [] ∨ mark.1.toList.tail = ['='] := by
  decide +kernel

theorem piece_of_punctuation? (hclasses : isGap c = false ∧ isWordStart c = false ∧
    c.isDigit = false ∧ isQuote c = false) (hcomment : c = '/' → comment? cs = none)
    (h : punctuation? c cs = some (kind, n)) : piece c cs = (.token kind, n) := by
  have hnone : (if c = '/' then comment? cs else none) = none :=
    ite_eq_right_iff.mpr hcomment
  simp [piece, hclasses, hnone, h]

/-! ## All rules -/

/-- A mark that begins like a comment is a single slash. -/
theorem tail_of_comment? {mark : String × TokenKind} (hmark : mark ∈ marks)
    (htext : mark.1.toList = '/' :: v) (hcs : v <+: cs) (h : comment? cs = some (found, n)) :
    v = [] ∧ cs.take n ≠ [] := by
  have hcases := slash_marks mark hmark
  rw [htext] at hcases
  have hequal : v ≠ ['='] := by
    rintro rfl
    obtain ⟨rest, rfl⟩ := hcs
    simp [comment?] at h
  refine ⟨(hcases rfl).resolve_right hequal, fun hnil => ?_⟩
  rcases rule_of_comment? h with ⟨-, hw | hw⟩ | ⟨-, hw | hw⟩ <;> rw [hnil] at hw
  · obtain ⟨_, -, heq⟩ := mem_literal_mul.mp hw
    simp at heq
  · obtain ⟨_, -, heq⟩ := mem_literal_mul.mp hw
    simp at heq
  · obtain ⟨_, -, heq⟩ := mem_literal_mul.mp hw
    simp at heq
  · obtain ⟨_, -, heq⟩ := mem_literal_mul.mp hw
    simp at heq

/-- A mark is read as itself, or as a longer one that starts with it. -/
theorem yields_mark {mark : String × TokenKind} (hmark : mark ∈ marks) :
    Yields (.token mark.2) (literal mark.1) := by
  rintro w rfl
  obtain ⟨c, v, htext, hclasses⟩ : ∃ c v, mark.1.toList = c :: v ∧ isGap c = false ∧
      isWordStart c = false ∧ c.isDigit = false ∧ isQuote c = false := by
    have hclasses := classes_of_mark mark hmark
    cases htext : mark.1.toList with
    | nil => simp [htext] at hclasses
    | cons c v => exact ⟨c, v, rfl, by simpa [htext, and_assoc] using hclasses⟩
  refine ⟨c, v, htext, fun cs hcs => ?_⟩
  by_cases hcomment : c = '/' → comment? cs = none
  · cases hfound : punctuation? c cs with
    | none => exact absurd (by rw [htext]; rfl) (head?_ne_of_punctuation? hfound mark hmark)
    | some found =>
      obtain ⟨kind, n⟩ := found
      rw [piece_of_punctuation? hclasses hcomment hfound]
      constructor
      · cases v with
        | nil => exact Nat.zero_le _
        | cons d v =>
          -- a mark is followed by what may make it a longer one
          obtain ⟨rest, rfl⟩ := hcs
          obtain ⟨kind', n', heq, hlt⟩ := lt_punctuation? mark hmark c d v htext rest
          obtain ⟨-, rfl⟩ := Prod.mk.inj (Option.some.inj (hfound.symm.trans heq))
          exact hlt
      · intro hword
        have hmem := lookup_marks _ (mem_marks_of_punctuation? hfound)
        dsimp only at hword hmem ⊢
        rw [← hword, ← htext, String.ofList_toList, lookup_marks mark hmark] at hmem
        exact .inl (congrArg Piece.token (Option.some.inj hmem))
  · -- the slash opens a comment, which is longer than the mark
    obtain ⟨rfl, hsome⟩ := Classical.not_imp.mp hcomment
    obtain ⟨⟨found, n⟩, hfound⟩ := Option.ne_none_iff_exists'.mp hsome
    obtain ⟨rfl, hlonger⟩ := tail_of_comment? hmark htext hcs hfound
    rw [piece_of_comment? hfound]
    exact ⟨Nat.zero_le _, fun hword => absurd hword.symm hlonger⟩

/-! ## All rules -/

/-- By the rules, one after the other. -/
theorem yields_of_mem_rules {rule : Piece × Language Char} (hrule : rule ∈ rules) :
    Yields rule.1 rule.2 := by
  rcases List.mem_append.mp hrule with hrule | hshape
  · rcases List.mem_append.mp hrule with hskip | hfixed
    · have hall : ∀ l ∈ skips, Yields .gap l := by
        simp only [skips, List.forall_mem_cons, List.not_mem_nil, false_imp_iff, implies_true, and_true]
        exact ⟨yields_blanks, yields_interpreterLine, yields_lineComment, yields_blockComment⟩
      obtain ⟨l, hl, rfl⟩ := List.mem_map.mp hskip
      exact hall l hl
    · obtain ⟨entry, hentry, rfl⟩ := List.mem_map.mp hfixed
      rcases List.mem_append.mp hentry with hmark | hkeyword
      · exact yields_mark hmark
      · exact yields_keyword hkeyword
  · have hall : ∀ shape ∈ shapes, Yields (.token shape.1) shape.2 := by
      simp only [shapes, List.forall_mem_cons, List.not_mem_nil, false_imp_iff, implies_true, and_true]
      exact ⟨yields_word, yields_closedString rfl, yields_closedString rfl, yields_openString rfl,
        yields_openString rfl, yields_decimal, yields_hexadecimal, yields_lineDoc, yields_blockDoc⟩
    obtain ⟨shape, hmem, rfl⟩ := List.mem_map.mp hshape
    exact hall shape hmem

/-! ## What is found -/

theorem skip_mem_rules {l : Language Char} (hl : l ∈ skips) : (.gap, l) ∈ rules :=
  List.mem_append_left _ (List.mem_append_left _ (List.mem_map_of_mem hl))

theorem fixed_mem_rules {entry : String × TokenKind} (hentry : entry ∈ marks ++ TokenKind.keywords) :
    fixed entry ∈ rules :=
  List.mem_append_left _ (List.mem_append_right _ (List.mem_map_of_mem hentry))

theorem shape_mem_rules {l : Language Char} (hshape : (kind, l) ∈ shapes) : (.token kind, l) ∈ rules :=
  List.mem_append_right _ (List.mem_map_of_mem hshape)

theorem read_gap (h : isGap c = true) (cs : List Char) :
    Read .gap (c :: cs.take (countWhile isGap 0 cs)) :=
  ⟨repeated (one blanks), skip_mem_rules (by simp [skips]), mem_one_mul.mpr ⟨c, isGap_iff.mp h, _,
    mem_star_one.mpr fun a ha => isGap_iff.mp (all_take_countWhile _ cs a ha), rfl⟩⟩

theorem read_word (h : isWordStart c = true) (cs : List Char) :
    Read (.token (TokenKind.ofWord (String.ofList (c :: cs.take (countWhile isWordPart 0 cs)))))
      (c :: cs.take (countWhile isWordPart 0 cs)) := by
  rcases ofWord_cases (String.ofList (c :: cs.take (countWhile isWordPart 0 cs))) with
    hword | hreserved
  · rw [hword]
    exact ⟨word, shape_mem_rules (by simp [shapes]), mem_one_mul.mpr ⟨c, isWordStart_iff.mp h, _,
      mem_star_one.mpr fun a ha => isWordPart_iff.mp (all_take_countWhile _ cs a ha), rfl⟩⟩
  · exact ⟨_, fixed_mem_rules (List.mem_append_right _ hreserved), by simp [mem_literal]⟩

theorem read_number (h : c.isDigit = true) (cs : List Char) :
    Read (.token .number) (c :: cs.take (numberLength c cs)) := by
  rcases number_front h cs with hw | hw
  · exact ⟨decimal, shape_mem_rules (by simp [shapes]), hw⟩
  · exact ⟨hexadecimal, shape_mem_rules (by simp [shapes]), hw⟩

theorem string_mem_shapes (h : isQuote c = true) :
    (.unterminatedString, openString c) ∈ shapes ∧ (.string, closedString c) ∈ shapes := by
  rcases (by simpa [isQuote] using h : c = '"' ∨ c = '\'') with rfl | rfl <;> simp [shapes]

/-- A quote that is closed is a string, and one that is not is an error up to the end of the text. -/
theorem read_quoted (h : isQuote c = true) (cs : List Char) :
    Read (quoted c cs).1 (c :: cs.take (quoted c cs).2) := by
  have hbody : ∀ a ∈ cs.takeWhile (· != c), (a != c) = true := fun a ha =>
    (List.mem_takeWhile_imp ha :)
  obtain ⟨hopen, hclosed⟩ := string_mem_shapes h
  rw [quoted_eq]
  cases hrest : cs.dropWhile (· != c) with
  | nil =>
    refine ⟨_, shape_mem_rules hopen, mem_openString.mpr ⟨_, hbody, ?_⟩⟩
    rw [← List.prefix_iff_eq_take.mp (List.takeWhile_prefix _)]
  | cons q rest =>
    obtain rfl : q = c := by simpa using dropWhile_eq_cons hrest
    refine ⟨_, shape_mem_rules hclosed, mem_closedString.mpr ⟨_, hbody, ?_⟩⟩
    rw [take_of_dropWhile_eq_cons hrest]

theorem read_comment {cs : List Char} (h : comment? cs = some (found, n)) :
    Read found ('/' :: cs.take n) := by
  rcases rule_of_comment? h with ⟨rfl, hw | hw⟩ | ⟨rfl, hw | hw⟩
  · exact ⟨lineDoc, shape_mem_rules (by simp [shapes]), hw⟩
  · exact ⟨blockDoc, shape_mem_rules (by simp [shapes]), hw⟩
  · exact ⟨lineComment, skip_mem_rules (by simp [skips]), hw⟩
  · exact ⟨blockComment, skip_mem_rules (by simp [skips]), hw⟩

theorem read_punctuation (h : punctuation? c cs = some (kind, n)) :
    Read (.token kind) (c :: cs.take n) :=
  ⟨_, fixed_mem_rules (List.mem_append_left _ (mem_marks_of_punctuation? h)), by simp [mem_literal]⟩

theorem read_interpreterLine (cs : List Char) :
    Read .gap ('#' :: ('!' :: cs).take (countWhile (· != '\n') 1 cs)) := by
  rw [countWhile_add, List.take_succ_cons]
  exact ⟨interpreterLine, skip_mem_rules (by simp [skips]),
    mem_literal_mul.mpr ⟨_, mem_line.mpr (all_take_countWhile _ cs), rfl⟩⟩

/-- What is found is a word of a rule, or a character that no rule knows. -/
theorem read_piece (c : Char) (cs : List Char) :
    piece c cs = (.token .unexpectedCharacter, 0) ∨ Read (piece c cs).1 (front c cs) := by
  unfold front piece
  split
  · exact .inr (read_gap ‹_› cs)
  split
  · exact .inr (read_word ‹_› cs)
  split
  · exact .inr (read_number ‹_› cs)
  split
  · exact .inr (read_quoted ‹_› cs)
  split
  · rename_i found hfound
    split at hfound
    · rename_i hc
      obtain rfl := beq_iff_eq.mp hc
      exact .inr (read_comment hfound)
    · cases hfound
  split
  · exact .inr (read_punctuation ‹_›)
  split
  · exact .inr (read_interpreterLine _)
  · exact .inl rfl

/-- Rules know no unexpected character, and no end of the text. -/
theorem Read.expected (h : Read (.token kind) w) : kind ≠ .unexpectedCharacter ∧ kind ≠ .endOfText := by
  obtain ⟨l, hrule, -⟩ := h
  have hfixed : ∀ entry ∈ marks ++ TokenKind.keywords,
      entry.2 ≠ .unexpectedCharacter ∧ entry.2 ≠ .endOfText := by
    decide +kernel
  have hshapes : ∀ shape ∈ shapes, shape.1 ≠ .unexpectedCharacter ∧ shape.1 ≠ .endOfText := by
    simp [shapes]
  rcases List.mem_append.mp hrule with hrule | hrule
  · rcases List.mem_append.mp hrule with hrule | hrule
    · obtain ⟨_, -, heq⟩ := List.mem_map.mp hrule
      cases (Prod.mk.inj heq).1
    · obtain ⟨entry, hentry, heq⟩ := List.mem_map.mp hrule
      exact Piece.token.inj (Prod.mk.inj heq).1 ▸ hfixed entry hentry
  · obtain ⟨shape, hshape, heq⟩ := List.mem_map.mp hrule
    exact Piece.token.inj (Prod.mk.inj heq).1 ▸ hshapes shape hshape

/-- Where no token starts, no rule matches. -/
theorem unmatched_of_piece (h : piece c cs = (.token .unexpectedCharacter, 0)) :
    Unmatched (c :: cs) := by
  intro rule hrule v hv hprefix
  obtain ⟨d, v, rfl, hyields⟩ := yields_of_mem_rules hrule v hv
  obtain ⟨rfl, hcs⟩ := List.cons_prefix_cons.mp hprefix
  obtain ⟨hle, hread⟩ := hyields cs hcs
  rw [h] at hle hread
  obtain rfl := List.eq_nil_of_length_eq_zero (Nat.le_zero.mp hle)
  rcases hread rfl with heq | ⟨-, entry, hentry, heq⟩
  · have hread : Read rule.1 [d] := ⟨rule.2, hrule, hv⟩
    rw [heq] at hread
    exact hread.expected.1 rfl
  · have hread : Read (.token entry.2) entry.1.toList :=
      ⟨_, fixed_mem_rules (List.mem_append_right _ hentry), rfl⟩
    exact hread.expected.1 (Piece.token.inj heq).symm

/-- **`longest_front`** — the piece at the front of a text is the longest word there. -/
theorem longest_front (h : piece c cs ≠ (.token .unexpectedCharacter, 0)) :
    Longest (piece c cs).1 (front c cs) (cs.drop (piece c cs).2) where
  matched := (read_piece c cs).resolve_left h
  longest := by
    rw [front_append]
    intro rule hrule v hv hprefix
    obtain ⟨d, v, rfl, hyields⟩ := yields_of_mem_rules hrule v hv
    obtain ⟨rfl, hcs⟩ := List.cons_prefix_cons.mp hprefix
    have hle := (hyields cs hcs).1
    rw [front, List.length_cons, List.length_cons, List.length_take]
    exact Nat.succ_le_succ (le_min hle hcs.length_le)
  preferred := by
    intro rule hrule hw
    obtain ⟨d, v, heq, hyields⟩ := yields_of_mem_rules hrule _ hw
    obtain ⟨rfl, rfl⟩ := List.cons.inj heq
    exact (hyields cs (List.take_prefix _ _)).2 rfl

end ScriptMachine.Lexer
