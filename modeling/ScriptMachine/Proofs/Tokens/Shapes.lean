import Mathlib
import ScriptMachine.Proofs.Tokens.Rules

/-!
# ScriptMachine.Proofs.Tokens.Shapes — gaps, words, strings, numbers and comments

Each pattern is compared with what `piece` finds: a text that starts with a word of the pattern
starts with a piece at least as long, and where the two are the same, the piece is what the rule
says, or a reserved word that the rule takes for an identifier (`Yields`). Conversely what is found
as a number or a comment is a word of such a pattern.

Each shape is treated in the same way: first what its words look like, as lists of characters
(`mem_decimal` and its like), then that a text which starts with such a list starts with a piece at
least as long. Numbers and block comments take more than one step. The parts of a decimal number are
optional, so that a shorter word may go on where a longer one is found (`decimal_prefix`); the body of a
block comment is read star by star (`mem_commentTail`).
-/

namespace ScriptMachine.Lexer

open scoped Computability

variable {c : Char} {cs v w rest : List Char} {found : Piece} {kind : TokenKind} {p : Char → Bool}
  {n m : Nat}

/-- **`Yields found l`** — a text that starts with a word of `l` starts with a piece no shorter, and
where the piece is that word, it is read as `found` or preferred to it. -/
def Yields (found : Piece) (l : Language Char) : Prop :=
  ∀ w ∈ l, ∃ c v, w = c :: v ∧ ∀ cs, v <+: cs →
    v.length ≤ (piece c cs).2 ∧ (v = cs.take (piece c cs).2 → Preferred (piece c cs).1 found)

theorem Preferred.refl (found : Piece) : Preferred found found :=
  .inl rfl

/-! ## Runs of characters -/

/-- Counting may start anywhere. -/
theorem countWhile_add (p : Char → Bool) (n : Nat) (cs : List Char) :
    countWhile p n cs = countWhile p 0 cs + n := by
  rw [countWhile_eq, countWhile_eq]
  omega

/-- A prefix of characters that count is counted whole. -/
theorem length_le_countWhile (hv : ∀ a ∈ v, p a = true) (h : v <+: cs) :
    n + v.length ≤ countWhile p n cs := by
  obtain ⟨rest, rfl⟩ := h
  rw [countWhile_eq, List.takeWhile_append_of_pos hv, List.length_append]
  omega

theorem all_take_countWhile (p : Char → Bool) (cs : List Char) :
    ∀ a ∈ cs.take (countWhile p 0 cs), p a = true := by
  rw [take_countWhile]
  exact fun a ha => List.mem_takeWhile_imp ha

/-- A run of `p`s before something else takes no more than the whole run, and all of it unless
nothing follows. -/
theorem run_prefix (hv : ∀ a ∈ v, p a = true) (hw : ∀ a ∈ w.head?, p a = false) (h : v ++ w <+: cs) :
    v.length ≤ countWhile p 0 cs ∧
      (w ≠ [] → v.length = countWhile p 0 cs ∧ w <+: cs.drop (countWhile p 0 cs)) := by
  obtain ⟨rest, rfl⟩ := h
  rw [List.append_assoc, drop_countWhile, countWhile_eq, List.takeWhile_append_of_pos hv,
    List.dropWhile_append_of_pos hv]
  refine ⟨by rw [List.length_append]; omega, fun hne => ?_⟩
  obtain ⟨d, w, rfl⟩ := List.exists_cons_of_ne_nil hne
  have hd := hw d rfl
  simp [hd]

/-! ## Gaps, words and strings -/

theorem classes_of_isGap (h : isGap c = true) : isWordStart c = false ∧ c.isDigit = false := by
  have hc : c = ' ' ∨ c = '\t' ∨ c = '\r' ∨ c = '\n' ∨ c = '\x0c' := by
    simpa [isGap, or_assoc] using h
  rcases hc with rfl | rfl | rfl | rfl | rfl <;> decide

theorem isWordStart_of_isDigit (h : c.isDigit = true) : isWordStart c = false := by
  have hscore : c ≠ '_' := by
    rintro rfl
    exact absurd h (by decide)
  simp [isWordStart, hscore, Char.isDigit, Char.isAlpha, Char.isUpper, Char.isLower, UInt32.le_iff_toNat_le] at h ⊢
  omega

theorem piece_of_isGap (h : isGap c = true) : piece c cs = (.gap, countWhile isGap 0 cs) := by
  simp only [piece, h, if_true]

theorem piece_of_isWordStart (h : isWordStart c = true) :
    piece c cs = (.token (TokenKind.ofWord (String.ofList (c :: cs.takeWhile isWordPart))),
      countWhile isWordPart 0 cs) := by
  have hgap : isGap c = false := Bool.eq_false_iff.mpr fun hc => by simp [classes_of_isGap hc] at h
  simp only [piece, hgap, h, take_countWhile, if_true, Bool.false_eq_true, if_false]

theorem piece_of_isDigit (h : c.isDigit = true) : piece c cs = (.token .number, numberLength c cs) := by
  have hgap : isGap c = false := Bool.eq_false_iff.mpr fun hc => by simp [classes_of_isGap hc] at h
  simp only [piece, hgap, isWordStart_of_isDigit h, h, if_true, Bool.false_eq_true, if_false]

/-- Blanks are read as far as they go. -/
theorem yields_blanks : Yields .gap (repeated (one blanks)) := by
  intro w hw
  obtain ⟨c, hc, v, hv, rfl⟩ := mem_one_mul.mp hw
  refine ⟨c, v, rfl, fun cs hcs => ?_⟩
  rw [piece_of_isGap (isGap_iff.mpr hc)]
  have hle := length_le_countWhile (n := 0) (fun a ha => isGap_iff.mpr (mem_star_one.mp hv a ha)) hcs
  exact ⟨by rwa [Nat.zero_add] at hle, fun _ => .refl _⟩

/-- A word is reserved, or an identifier. -/
theorem ofWord_cases (w : String) : TokenKind.ofWord w = .identifier ∨
    (w, TokenKind.ofWord w) ∈ TokenKind.keywords := by
  unfold TokenKind.ofWord
  cases hlookup : TokenKind.keywords.lookup w with
  | none => exact .inl rfl
  | some kind =>
    obtain ⟨l₁, l₂, heq, -⟩ := List.lookup_eq_some_iff.mp hlookup
    exact .inr (heq ▸ by simp)

theorem ofWord_of_mem : ∀ entry ∈ TokenKind.keywords, TokenKind.ofWord entry.1 = entry.2 := by
  decide +kernel

/-- A word is read to its last character. -/
theorem yields_word : Yields (.token .identifier) word := by
  intro w hw
  obtain ⟨c, hc, v, hv, rfl⟩ := mem_one_mul.mp hw
  refine ⟨c, v, rfl, fun cs hcs => ?_⟩
  rw [piece_of_isWordStart (isWordStart_iff.mpr hc)]
  have hle := length_le_countWhile (n := 0) (fun a ha => isWordPart_iff.mpr (mem_star_one.mp hv a ha)) hcs
  refine ⟨by rwa [Nat.zero_add] at hle, fun _ => ?_⟩
  dsimp only
  rcases ofWord_cases (String.ofList (c :: cs.takeWhile isWordPart)) with h | h
  · rw [h]
    exact .refl _
  · exact .inr ⟨rfl, _, h, rfl⟩

theorem keyword_parts : ∀ entry ∈ TokenKind.keywords,
    (entry.1.toList.head?.any isWordStart && entry.1.toList.all isWordPart) = true := by
  decide +kernel

/-- A keyword is a word, and preferred to an identifier of its length. -/
theorem yields_keyword {entry : String × TokenKind} (hentry : entry ∈ TokenKind.keywords) :
    Yields (.token entry.2) (literal entry.1) := by
  rintro w rfl
  have hparts := keyword_parts entry hentry
  cases htext : entry.1.toList with
  | nil => simp [htext] at hparts
  | cons c v =>
    rw [htext] at hparts
    obtain ⟨hc, -, hv⟩ : isWordStart c = true ∧ isWordPart c = true ∧ ∀ a ∈ v, isWordPart a = true := by
      simpa using hparts
    refine ⟨c, v, rfl, fun cs hcs => ?_⟩
    rw [piece_of_isWordStart hc]
    have hle := length_le_countWhile (n := 0) hv hcs
    refine ⟨by rwa [Nat.zero_add] at hle, fun hword => ?_⟩
    dsimp only at hword ⊢
    rw [← take_countWhile, ← hword, ← htext, String.ofList_toList, ofWord_of_mem entry hentry]
    exact .refl _

theorem mem_openString {q : Char} :
    w ∈ openString q ↔ ∃ body, (∀ a ∈ body, (a != q) = true) ∧ w = q :: body := by
  rw [openString, mem_one_mul]
  constructor
  · rintro ⟨c, hc, body, hbody, rfl⟩
    rw [Set.mem_singleton_iff.mp hc]
    exact ⟨body, fun a ha => bne_iff_ne.mpr (mem_star_one.mp hbody a ha), rfl⟩
  · rintro ⟨body, hbody, rfl⟩
    exact ⟨q, rfl, body, mem_star_one.mpr fun a ha => bne_iff_ne.mp (hbody a ha), rfl⟩

theorem mem_closedString {q : Char} :
    w ∈ closedString q ↔ ∃ body, (∀ a ∈ body, (a != q) = true) ∧ w = q :: (body ++ [q]) := by
  rw [closedString, Language.mem_mul]
  constructor
  · rintro ⟨v, hv, _, ⟨c, hc, rfl⟩, rfl⟩
    obtain ⟨body, hbody, rfl⟩ := mem_openString.mp hv
    rw [Set.mem_singleton_iff.mp hc]
    exact ⟨body, hbody, rfl⟩
  · rintro ⟨body, hbody, rfl⟩
    exact ⟨q :: body, mem_openString.mpr ⟨body, hbody, rfl⟩, [q], ⟨q, rfl, rfl⟩, rfl⟩

/-- A text ends at the first quote of its kind. -/
theorem yields_closedString {q : Char} (hq : isQuote q = true) :
    Yields (.token .string) (closedString q) := by
  intro w hw
  obtain ⟨body, hbody, rfl⟩ := mem_closedString.mp hw
  refine ⟨q, _, rfl, ?_⟩
  rintro cs ⟨rest, rfl⟩
  have htake : (body ++ [q] ++ rest).takeWhile (· != q) = body := by
    rw [List.append_assoc, List.takeWhile_append_of_pos hbody]
    simp
  have hdrop : (body ++ [q] ++ rest).dropWhile (· != q) = q :: rest := by
    rw [List.append_assoc, List.dropWhile_append_of_pos hbody]
    simp
  rw [piece_of_isQuote hq, quoted_eq, htake, hdrop, List.length_append]
  exact ⟨le_rfl, fun _ => .refl _⟩

/-- A text without a second quote goes on to the end, so nothing longer can be read. -/
theorem yields_openString {q : Char} (hq : isQuote q = true) :
    Yields (.token .unterminatedString) (openString q) := by
  intro w hw
  obtain ⟨body, hbody, rfl⟩ := mem_openString.mp hw
  refine ⟨q, body, rfl, fun cs hcs => ?_⟩
  have hle := length_le_countWhile (n := 0) hbody hcs
  rw [countWhile_eq, Nat.zero_add, Nat.zero_add] at hle
  rw [piece_of_isQuote hq, quoted_eq]
  cases hrest : cs.dropWhile (· != q) with
  | nil => exact ⟨hle, fun _ => .refl _⟩
  | cons d rest =>
    -- the string ends with its closing quote, which no open string holds
    refine ⟨Nat.le_succ_of_le hle, fun hword => ?_⟩
    obtain rfl : d = q := by simpa using dropWhile_eq_cons hrest
    dsimp only at hword
    rw [take_of_dropWhile_eq_cons hrest] at hword
    have := hbody d (hword ▸ List.mem_append_right _ List.mem_cons_self)
    simp at this

/-! ## Numbers -/

theorem mem_digits : w ∈ digits ↔ w ≠ [] ∧ ∀ a ∈ w, a.isDigit = true := by
  rw [digits, mem_repeated_one]
  simp only [isDigit_iff]

theorem mem_fraction : w ∈ fraction ↔ ∃ v ∈ digits, w = '.' :: v := by
  rw [fraction, mem_one_mul]
  simp

/-- An exponent has its letter, a sign that may be left out, and digits. -/
theorem mem_exponent : w ∈ exponent ↔ ∃ e sign v, (e = 'e' ∨ e = 'E') ∧
    (sign = [] ∨ sign = ['+'] ∨ sign = ['-']) ∧ v ∈ digits ∧ w = e :: (sign ++ v) := by
  rw [exponent, mem_one_mul]
  constructor
  · rintro ⟨e, he, _, ht, rfl⟩
    obtain ⟨sign, hsign, v, hv, rfl⟩ := Language.mem_mul.mp ht
    refine ⟨e, sign, v, by simpa using he, ?_, hv, rfl⟩
    rcases mem_optional.mp hsign with rfl | ⟨d, hd, rfl⟩
    · exact .inl rfl
    · exact .inr (by simpa using hd)
  · rintro ⟨e, sign, v, he, hsign, hv, rfl⟩
    refine ⟨e, by simpa using he, _, append_mem_mul (mem_optional.mpr ?_) hv, rfl⟩
    rcases hsign with rfl | rfl | rfl
    · exact .inl rfl
    · exact .inr ⟨'+', by simp, rfl⟩
    · exact .inr ⟨'-', by simp, rfl⟩

theorem withDigits_eq (n skip : Nat) (cs : List Char) :
    withDigits n skip cs = n + withDigits 0 skip cs := by
  unfold withDigits
  dsimp only
  split <;> omega

theorem withFraction_eq (n : Nat) (cs : List Char) :
    withFraction n cs = n + withFraction 0 (cs.drop n) := by
  unfold withFraction
  rw [List.drop_zero]
  split
  · exact withDigits_eq n 1 _
  · rfl

/-- How long an exponent is does not depend on what stands before it. -/
theorem withExponent_eq (n : Nat) (cs : List Char) :
    withExponent n cs = n + withExponent 0 (cs.drop n) := by
  unfold withExponent
  rw [List.drop_zero]
  split
  · split
    · exact withDigits_eq n _ _
    · rfl
  · rfl

/-- How many characters of a decimal number follow its first digit. -/
def decimalLength (cs : List Char) : Nat :=
  withExponent (withFraction (countWhile Char.isDigit 0 cs) cs) cs

theorem digits_ne_nil (h : v ∈ digits) (hcs : v <+: cs) : countWhile Char.isDigit 0 cs ≠ 0 := by
  obtain ⟨hne, hv⟩ := mem_digits.mp h
  have hle := length_le_countWhile (n := 0) hv hcs
  have := List.length_pos_iff.mpr hne
  omega

theorem withDigits_of_digits {skip : Nat} (h : v ∈ digits) (hcs : v <+: cs.drop skip) :
    withDigits 0 skip cs = skip + countWhile Char.isDigit 0 (cs.drop skip) := by
  rw [withDigits]
  rw [if_neg (digits_ne_nil h hcs), Nat.zero_add]

theorem head?_exponent (h : w ∈ optional exponent) : ∀ a ∈ w.head?, a = 'e' ∨ a = 'E' := by
  rcases mem_optional.mp h with rfl | h
  · simp
  · obtain ⟨e, sign, v, he, -, -, rfl⟩ := mem_exponent.mp h
    simpa using he

/-- A fraction is read in full before an exponent can follow. -/
theorem fraction_prefix (hv : v ∈ optional fraction) (hw : w ∈ optional exponent) (h : v ++ w <+: cs) :
    v.length ≤ withFraction 0 cs ∧
      (w ≠ [] → v.length = withFraction 0 cs ∧ w <+: cs.drop (withFraction 0 cs)) := by
  have hhead : ∀ a ∈ w.head?, a.isDigit = false := fun a ha => by
    rcases head?_exponent hw a ha with rfl | rfl <;> decide
  rcases mem_optional.mp hv with rfl | hv
  · refine ⟨Nat.zero_le _, fun hne => ?_⟩
    obtain ⟨e, w, rfl⟩ := List.exists_cons_of_ne_nil hne
    obtain ⟨rest, rfl⟩ := h
    have hnone : withFraction 0 (e :: (w ++ rest)) = 0 := by
      rcases head?_exponent hw e rfl with rfl | rfl <;> rfl
    simp [hnone]
  · obtain ⟨body, hbody, rfl⟩ := mem_fraction.mp hv
    obtain ⟨cs, rfl, hcs⟩ : ∃ tail, cs = '.' :: tail ∧ body ++ w <+: tail := by
      obtain ⟨rest, rfl⟩ := h
      exact ⟨body ++ w ++ rest, rfl, List.prefix_append _ _⟩
    have hlength : withFraction 0 ('.' :: cs) = 1 + countWhile Char.isDigit 0 cs :=
      withDigits_of_digits hbody ((List.prefix_append body w).trans hcs)
    obtain ⟨hle, hwhole⟩ := run_prefix (mem_digits.mp hbody).2 hhead hcs
    rw [hlength, List.length_cons, Nat.add_comm 1]
    exact ⟨Nat.succ_le_succ hle, fun hne => ⟨congrArg Nat.succ (hwhole hne).1, (hwhole hne).2⟩⟩

/-- The mark of an exponent and its sign are followed by digits. -/
theorem withExponent_of_digits {e : Char} {sign : List Char} (he : e = 'e' ∨ e = 'E')
    (hsign : sign = [] ∨ sign = ['+'] ∨ sign = ['-']) (hv : v ∈ digits) (hcs : v <+: cs) :
    withExponent 0 (e :: (sign ++ cs)) = sign.length + 1 + countWhile Char.isDigit 0 cs := by
  have hmark : (e == 'e' || e == 'E') = true := by simpa using he
  obtain ⟨hne, hdigits⟩ := mem_digits.mp hv
  obtain ⟨d, v, rfl⟩ := List.exists_cons_of_ne_nil hne
  have hd : d ≠ '+' ∧ d ≠ '-' := by
    constructor <;> rintro rfl <;> exact absurd (hdigits _ List.mem_cons_self) (by decide)
  obtain ⟨rest, rfl⟩ := hcs
  have hskip : withExponent 0 (e :: (sign ++ (d :: v ++ rest))) =
      withDigits 0 (sign.length + 1) (e :: (sign ++ (d :: v ++ rest))) := by
    rcases hsign with rfl | rfl | rfl <;> simp [withExponent, hmark, hd]
  have hdrop : (e :: (sign ++ (d :: v ++ rest))).drop (sign.length + 1) = d :: v ++ rest := by
    rw [List.drop_succ_cons, List.drop_left]
  rw [hskip, withDigits_of_digits hv (by rw [hdrop]; exact List.prefix_append _ _), hdrop]

/-- An exponent is read in full. -/
theorem exponent_prefix (hw : w ∈ optional exponent) (h : w <+: cs) : w.length ≤ withExponent 0 cs := by
  rcases mem_optional.mp hw with rfl | hw
  · exact Nat.zero_le _
  · obtain ⟨e, sign, v, he, hsign, hv, rfl⟩ := mem_exponent.mp hw
    obtain ⟨rest, rfl⟩ := h
    have hprefix : v <+: v ++ rest := List.prefix_append v rest
    have hle := length_le_countWhile (n := 0) (mem_digits.mp hv).2 hprefix
    rw [List.cons_append, List.append_assoc, withExponent_of_digits he hsign hv hprefix]
    simp only [List.length_cons, List.length_append]
    omega

/-- A number has digits, and then a fraction and an exponent that may be left out. -/
theorem mem_decimal : w ∈ decimal ↔ ∃ c run point power, c.isDigit = true ∧
    (∀ a ∈ run, a.isDigit = true) ∧ point ∈ optional fraction ∧ power ∈ optional exponent ∧
      w = c :: (run ++ (point ++ power)) := by
  rw [decimal, digits, repeated, mul_assoc, mem_one_mul]
  simp only [← isDigit_iff, Language.mem_mul, mem_star_one]
  constructor
  · rintro ⟨c, hc, _, ⟨run, hrun, _, ⟨point, hpoint, power, hpower, rfl⟩, rfl⟩, rfl⟩
    exact ⟨c, run, point, power, hc, hrun, hpoint, hpower, rfl⟩
  · rintro ⟨c, run, point, power, hc, hrun, hpoint, hpower, rfl⟩
    exact ⟨c, hc, _, ⟨run, hrun, _, ⟨point, hpoint, power, hpower, rfl⟩, rfl⟩, rfl⟩

/-- What follows the first digit of a decimal number is no longer than what is found there. -/
theorem decimal_prefix {run point power : List Char} (hrun : ∀ a ∈ run, a.isDigit = true)
    (hpoint : point ∈ optional fraction) (hpower : power ∈ optional exponent)
    (h : run ++ (point ++ power) <+: cs) : (run ++ (point ++ power)).length ≤ decimalLength cs := by
  have hhead : ∀ a ∈ (point ++ power).head?, a.isDigit = false := by
    rcases mem_optional.mp hpoint with rfl | hpoint
    · intro a ha
      rcases head?_exponent hpower a ha with rfl | rfl <;> decide
    · obtain ⟨body, -, rfl⟩ := mem_fraction.mp hpoint
      intro a ha
      obtain rfl : '.' = a := by simpa using ha
      decide
  rw [decimalLength, withExponent_eq, withFraction_eq, ← List.drop_drop]
  obtain ⟨hle, hwhole⟩ := run_prefix hrun hhead h
  generalize countWhile Char.isDigit 0 cs = n at hle hwhole ⊢
  by_cases hparts : point ++ power = []
  · rw [hparts, List.append_nil]
    omega
  obtain ⟨hrunLength, hrest⟩ := hwhole hparts
  obtain ⟨hpointLe, hpointWhole⟩ := fraction_prefix hpoint hpower hrest
  rw [List.length_append, List.length_append]
  generalize withFraction 0 (cs.drop n) = k at hpointLe hpointWhole ⊢
  by_cases hnone : power = []
  · rw [hnone, List.length_nil]
    omega
  obtain ⟨hpointLength, hrest⟩ := hpointWhole hnone
  have := exponent_prefix hpower hrest
  omega

/-! What the lexer takes for a number is one. -/

theorem take_countWhile_mem_digits (h : countWhile Char.isDigit 0 cs ≠ 0) :
    cs.take (countWhile Char.isDigit 0 cs) ∈ digits := by
  refine mem_digits.mpr ⟨?_, all_take_countWhile _ cs⟩
  rw [countWhile_eq, Nat.zero_add] at h
  rw [take_countWhile]
  exact List.length_pos_iff.mp (Nat.pos_of_ne_zero h)

theorem take_withFraction (cs : List Char) : cs.take (withFraction 0 cs) ∈ optional fraction := by
  rw [withFraction, List.drop_zero, mem_optional]
  split
  · rename_i tail
    rw [withDigits, List.drop_one, List.tail_cons]
    split
    · exact .inl rfl
    · rename_i hdigits
      refine .inr (mem_fraction.mpr ⟨_, take_countWhile_mem_digits hdigits, ?_⟩)
      rw [Nat.zero_add, Nat.add_comm, List.take_succ_cons]
  · exact .inl rfl

/-- After a sign, or none, the digits of an exponent. -/
theorem take_withDigits {e : Char} (sign : List Char) (he : e = 'e' ∨ e = 'E')
    (hsign : sign = [] ∨ sign = ['+'] ∨ sign = ['-']) :
    (e :: (sign ++ cs)).take (withDigits 0 (sign.length + 1) (e :: (sign ++ cs))) ∈ optional exponent := by
  have hdrop : (e :: (sign ++ cs)).drop (sign.length + 1) = cs := by
    rw [List.drop_succ_cons, List.drop_left]
  rw [withDigits, hdrop, mem_optional]
  split
  · exact .inl rfl
  · rename_i hdigits
    refine .inr (mem_exponent.mpr ⟨e, sign, _, he, hsign, take_countWhile_mem_digits hdigits, ?_⟩)
    rw [Nat.zero_add, Nat.add_right_comm, List.take_succ_cons, List.take_length_add_append]

theorem take_withExponent (cs : List Char) : cs.take (withExponent 0 cs) ∈ optional exponent := by
  rw [withExponent, List.drop_zero]
  split
  case h_2 => exact mem_optional.mpr (.inl rfl)
  rename_i e sign tail
  split
  case isFalse => exact mem_optional.mpr (.inl rfl)
  rename_i he
  have he : e = 'e' ∨ e = 'E' := by simpa using he
  split
  · rename_i hsign
    have hsign : sign = '+' ∨ sign = '-' := by simpa using hsign
    exact take_withDigits [sign] he (.inr (by simpa using hsign))
  · exact take_withDigits [] he (.inl rfl)

theorem take_decimalLength (hc : c.isDigit = true) (cs : List Char) :
    c :: cs.take (decimalLength cs) ∈ decimal := by
  rw [decimalLength, withExponent_eq, withFraction_eq, List.take_add, List.take_add, ← List.drop_drop,
    List.append_assoc]
  exact mem_decimal.mpr ⟨c, _, _, _, hc, all_take_countWhile _ cs, take_withFraction _, take_withExponent _, rfl⟩

/-- A number is decimal, unless digits follow its mark as hexadecimal. -/
theorem numberLength_eq (c : Char) (cs : List Char) : numberLength c cs = decimalLength cs ∨
    ∃ hex, c = '0' ∧ cs = 'x' :: hex ∧ countWhile isHexDigit 0 hex ≠ 0 ∧
      numberLength c cs = countWhile isHexDigit 0 hex + 1 := by
  unfold numberLength
  dsimp only
  split
  · rename_i hex
    by_cases h : countWhile isHexDigit 0 hex = 0
    · rw [if_pos h]
      exact .inl rfl
    · rw [if_neg h]
      exact .inr ⟨hex, rfl, rfl, h, rfl⟩
  · exact .inl rfl

/-- A decimal number is read as far as it goes. -/
theorem yields_decimal : Yields (.token .number) decimal := by
  intro w hw
  obtain ⟨c, run, point, power, hc, hrun, hpoint, hpower, rfl⟩ := mem_decimal.mp hw
  refine ⟨c, _, rfl, fun cs hcs => ?_⟩
  rw [piece_of_isDigit hc]
  refine ⟨?_, fun _ => .refl _⟩
  have hle := decimal_prefix hrun hpoint hpower hcs
  rcases numberLength_eq c cs with h | ⟨hex, rfl, rfl, -, h⟩
  · rwa [h]
  · -- of a hexadecimal number only the leading zero is decimal
    have hzero : decimalLength ('x' :: hex) = 0 := by cases hex <;> rfl
    rw [hzero] at hle
    exact hle.trans (Nat.zero_le _)

theorem mem_hexadecimal : w ∈ hexadecimal ↔ ∃ v, v ≠ [] ∧ (∀ a ∈ v, isHexDigit a = true) ∧ w = '0' :: 'x' :: v := by
  rw [hexadecimal, mem_literal_mul]
  simp only [mem_repeated_one, isHexDigit_iff]
  constructor
  · rintro ⟨v, ⟨hne, hv⟩, rfl⟩
    exact ⟨v, hne, hv, rfl⟩
  · rintro ⟨v, hne, hv, rfl⟩
    exact ⟨v, ⟨hne, hv⟩, rfl⟩

/-- And so is a hexadecimal one. -/
theorem yields_hexadecimal : Yields (.token .number) hexadecimal := by
  intro w hw
  obtain ⟨v, hne, hv, rfl⟩ := mem_hexadecimal.mp hw
  refine ⟨'0', 'x' :: v, rfl, ?_⟩
  rintro cs ⟨rest, rfl⟩
  rw [piece_of_isDigit rfl]
  refine ⟨?_, fun _ => .refl _⟩
  have hle := length_le_countWhile (n := 0) hv (List.prefix_append v rest)
  have hpos := List.length_pos_iff.mpr hne
  have hlength : numberLength '0' ('x' :: (v ++ rest)) = countWhile isHexDigit 0 (v ++ rest) + 1 :=
    if_neg (by omega)
  rw [List.cons_append, hlength, List.length_cons]
  omega

theorem number_front (hc : c.isDigit = true) (cs : List Char) :
    c :: cs.take (numberLength c cs) ∈ decimal ∨ c :: cs.take (numberLength c cs) ∈ hexadecimal := by
  rcases numberLength_eq c cs with h | ⟨hex, rfl, rfl, hne, h⟩
  · exact .inl (h ▸ take_decimalLength hc cs)
  · rw [h, List.take_succ_cons]
    refine .inr (mem_hexadecimal.mpr ⟨_, ?_, all_take_countWhile _ hex, rfl⟩)
    rw [countWhile_eq, Nat.zero_add] at hne
    rw [take_countWhile]
    exact List.length_pos_iff.mp (Nat.pos_of_ne_zero hne)


/-! ## Block comments -/

/-- A comment ends with stars and a slash. -/
theorem mem_commentEnd :
    w ∈ commentEnd ↔ ∃ stars, stars ≠ [] ∧ (∀ a ∈ stars, a = '*') ∧ w = stars ++ ['/'] := by
  rw [commentEnd, Language.mem_mul]
  constructor
  · rintro ⟨stars, hstars, _, rfl, rfl⟩
    obtain ⟨hne, h⟩ := mem_repeated_one.mp hstars
    exact ⟨stars, hne, h, rfl⟩
  · rintro ⟨stars, hne, h, rfl⟩
    exact ⟨stars, mem_repeated_one.mpr ⟨hne, h⟩, _, rfl, rfl⟩

/-- A step of what a block comment holds: stars, if any, and a character that doesn't end it. -/
theorem commentTail_eq : commentTail = commentEnd +
    (one {'*'}ᶜ * commentTail + repeated (one {'*'}) * (one {'*', '/'}ᶜ * commentTail)) := by
  conv_lhs =>
    rw [commentTail, commentBody, ← Language.one_add_self_mul_kstar_eq_kstar, add_mul, one_mul, mul_assoc]
  rw [add_mul, mul_assoc (repeated _)]
  rfl

/-- What follows the opening of a comment, up to its end: by the first character that is not a star. -/
theorem mem_commentTail : w ∈ commentTail ↔ w ∈ commentEnd ∨
    ∃ stars c v, (∀ a ∈ stars, a = '*') ∧ c ≠ '*' ∧ (c ≠ '/' ∨ stars = []) ∧ v ∈ commentTail ∧
      w = stars ++ c :: v := by
  constructor
  · intro h
    rw [commentTail_eq, Language.mem_add, Language.mem_add] at h
    rcases h with h | h | h
    · exact .inl h
    · obtain ⟨c, hc, v, hv, rfl⟩ := mem_one_mul.mp h
      exact .inr ⟨[], c, v, List.forall_mem_nil _, hc, .inr rfl, hv, rfl⟩
    · obtain ⟨stars, hstars, _, hrest, rfl⟩ := Language.mem_mul.mp h
      obtain ⟨c, hc, v, hv, rfl⟩ := mem_one_mul.mp hrest
      have hc : c ≠ '*' ∧ c ≠ '/' := by simpa using hc
      exact .inr ⟨stars, c, v, (mem_repeated_one.mp hstars).2, hc.1, .inl hc.2, hv, rfl⟩
  · intro h
    rw [commentTail_eq, Language.mem_add, Language.mem_add]
    rcases h with h | ⟨stars, c, v, hstars, hc, hslash, hv, rfl⟩
    · exact .inl h
    · by_cases hne : stars = []
      · subst hne
        exact .inr (.inl (mem_one_mul.mpr ⟨c, hc, v, hv, rfl⟩))
      · have hc' : c ∈ ({'*', '/'}ᶜ : Set Char) := by simp [hc, hslash.resolve_right hne]
        exact .inr (.inr (append_mem_mul (mem_repeated_one.mpr ⟨hne, hstars⟩)
          (mem_one_mul.mpr ⟨c, hc', v, hv, rfl⟩)))

theorem throughClose?_cons (h : c ≠ '*' ∨ ∀ rest, cs ≠ '/' :: rest) :
    throughClose? n (c :: cs) = throughClose? (n + 1) cs := by
  rw [throughClose?]
  rintro rest rfl rfl
  simp at h

/-- Stars close nothing where no slash follows them. -/
theorem throughClose?_stars {stars : List Char} (hstars : ∀ a ∈ stars, a = '*')
    (hc : c ≠ '/' ∨ stars = []) :
    throughClose? n (stars ++ c :: cs) = throughClose? (n + stars.length) (c :: cs) := by
  induction stars generalizing n with
  | nil => rfl
  | cons a stars ih =>
    obtain ⟨rfl, htail⟩ := List.forall_mem_cons.mp hstars
    have hslash := hc.resolve_right (List.cons_ne_nil _ _)
    have hnext : ∀ rest, stars ++ c :: cs ≠ '/' :: rest := by
      intro rest heq
      cases stars with
      | nil => exact hslash (List.cons.inj heq).1
      | cons b stars => exact absurd ((htail b List.mem_cons_self).symm.trans (List.cons.inj heq).1) (by decide)
    rw [List.cons_append, throughClose?_cons (.inr hnext), ih htail (.inl hslash), List.length_cons]
    congr 1
    omega

/-- Stars before the slash belong to the end. -/
theorem throughClose?_end {stars : List Char} (hne : stars ≠ []) (hstars : ∀ a ∈ stars, a = '*') :
    throughClose? n (stars ++ '/' :: rest) = some (n + stars.length + 1) := by
  obtain ⟨init, last, rfl⟩ := (List.eq_nil_or_concat' stars).resolve_left hne
  obtain rfl : last = '*' := hstars last (by simp)
  rw [List.append_assoc, List.singleton_append,
    throughClose?_stars (fun a ha => hstars a (by simp [ha])) (.inl (by decide)), throughClose?]
  simp
  omega

/-- The first closing mark is the end of the comment. -/
theorem throughClose?_append (h : w ∈ commentTail) :
    throughClose? n (w ++ rest) = some (n + w.length) := by
  induction hw : w.length using Nat.strong_induction_on generalizing n w with
  | _ k ih =>
    subst hw
    rcases mem_commentTail.mp h with h | ⟨stars, c, v, hstars, hc, hslash, hv, rfl⟩
    · obtain ⟨stars, hne, hstars, rfl⟩ := mem_commentEnd.mp h
      rw [List.append_assoc, List.singleton_append, throughClose?_end hne hstars, List.length_append]
      rfl
    · have hlt : v.length < (stars ++ c :: v).length := by
        rw [List.length_append, List.length_cons]
        omega
      rw [List.append_assoc, List.cons_append, throughClose?_stars hstars hslash,
        throughClose?_cons (.inl hc), ih _ hlt hv rfl]
      simp only [List.length_append, List.length_cons]
      congr 1
      omega

/-- One more star in front of what a comment holds. -/
theorem cons_star_mem_commentTail (h : w ∈ commentTail) (hw : ∀ v, w ≠ '/' :: v) : '*' :: w ∈ commentTail := by
  apply mem_commentTail.mpr
  rcases mem_commentTail.mp h with h | ⟨stars, c, v, hstars, hc, hslash, hv, rfl⟩
  · obtain ⟨stars, hne, hstars, rfl⟩ := mem_commentEnd.mp h
    exact .inl (mem_commentEnd.mpr ⟨'*' :: stars, List.cons_ne_nil _ _, List.forall_mem_cons.mpr ⟨rfl, hstars⟩, rfl⟩)
  · refine .inr ⟨'*' :: stars, c, v, List.forall_mem_cons.mpr ⟨rfl, hstars⟩, hc, .inl ?_, hv, rfl⟩
    rintro rfl
    have hnil := hslash.resolve_left (by simp)
    subst hnil
    exact hw v rfl

/-- What is skipped through the end of a comment is such a tail. -/
theorem exists_of_throughClose? (h : throughClose? n cs = some m) :
    ∃ w rest, cs = w ++ rest ∧ w ∈ commentTail ∧ m = n + w.length := by
  induction cs generalizing n with
  | nil => cases h
  | cons c cs ih =>
    by_cases hclose : c = '*' ∧ ∃ rest, cs = '/' :: rest
    · obtain ⟨rfl, rest, rfl⟩ := hclose
      obtain rfl : n + 2 = m := by simpa [throughClose?] using h
      refine ⟨['*', '/'], rest, rfl, mem_commentTail.mpr (.inl (mem_commentEnd.mpr ⟨['*'], ?_, ?_, rfl⟩)), rfl⟩
      · simp
      · simp
    · have hnext : c ≠ '*' ∨ ∀ rest, cs ≠ '/' :: rest := by
        by_cases hc : c = '*'
        · exact .inr fun rest heq => hclose ⟨hc, rest, heq⟩
        · exact .inl hc
      rw [throughClose?_cons hnext] at h
      obtain ⟨w, rest, rfl, hw, rfl⟩ := ih h
      refine ⟨c :: w, rest, rfl, ?_, by rw [List.length_cons]; omega⟩
      by_cases hc : c = '*'
      · subst hc
        apply cons_star_mem_commentTail hw
        rintro v rfl
        exact hclose ⟨rfl, v ++ rest, rfl⟩
      · exact mem_commentTail.mpr (.inr ⟨[], c, w, List.forall_mem_nil _, hc, .inr rfl, hw, rfl⟩)

/-! ## Comments -/

theorem piece_of_comment? {found : Piece × Nat} (h : comment? cs = some found) : piece '/' cs = found := by
  have hclasses : isGap '/' = false ∧ isWordStart '/' = false ∧ '/'.isDigit = false ∧
      isQuote '/' = false := by decide
  simp [piece, hclasses, h]

theorem mem_line : w ∈ line ↔ ∀ a ∈ w, (a != '\n') = true := by
  rw [line, mem_star_one]
  simp only [Set.mem_compl_iff, Set.mem_singleton_iff, bne_iff_ne, ne_eq]

theorem yields_interpreterLine : Yields .gap interpreterLine := by
  intro w hw
  obtain ⟨body, hbody, rfl⟩ := mem_literal_mul.mp hw
  refine ⟨'#', '!' :: body, rfl, ?_⟩
  rintro cs ⟨rest, rfl⟩
  have hle := length_le_countWhile (n := 1) (mem_line.mp hbody) (List.prefix_append body rest)
  have hpiece : piece '#' ('!' :: (body ++ rest)) = (.gap, countWhile (· != '\n') 1 (body ++ rest)) := rfl
  rw [List.cons_append, hpiece, List.length_cons, Nat.add_comm]
  exact ⟨hle, fun _ => .refl _⟩

theorem yields_lineDoc : Yields (.token .doc) lineDoc := by
  intro w hw
  obtain ⟨body, hbody, rfl⟩ := mem_literal_mul.mp hw
  refine ⟨'/', '/' :: '?' :: body, rfl, ?_⟩
  rintro cs ⟨rest, rfl⟩
  have hle := length_le_countWhile (n := 2) (mem_line.mp hbody) (List.prefix_append body rest)
  have hpiece : piece '/' ('/' :: '?' :: (body ++ rest)) =
      (.token .doc, countWhile (· != '\n') 2 (body ++ rest)) := rfl
  rw [List.cons_append, List.cons_append, hpiece, List.length_cons, List.length_cons, Nat.add_assoc, Nat.add_comm]
  exact ⟨hle, fun _ => .refl _⟩

theorem piece_lineComment (h : ∀ rest, cs ≠ '?' :: rest) :
    piece '/' ('/' :: cs) = (.gap, countWhile (· != '\n') 1 cs) := by
  refine piece_of_comment? ?_
  rw [comment?]
  exact h

/-- A comment on a line goes up to the newline, and it is no documentation. -/
theorem mem_lineComment : w ∈ lineComment ↔ ∃ body, (∀ a ∈ body, (a != '\n') = true) ∧
    (∀ rest, body ≠ '?' :: rest) ∧ w = '/' :: '/' :: body := by
  rw [lineComment, mem_literal_mul]
  simp only [mem_optional, mem_one_mul, mem_line]
  constructor
  · rintro ⟨_, rfl | ⟨c, hc, v, hv, rfl⟩, rfl⟩
    · exact ⟨[], List.forall_mem_nil _, fun _ => List.cons_ne_nil _ _ |>.symm, rfl⟩
    · have hc : c ≠ '?' ∧ c ≠ '\n' := by simpa using hc
      refine ⟨c :: v, List.forall_mem_cons.mpr ⟨bne_iff_ne.mpr hc.2, hv⟩, ?_, rfl⟩
      rintro rest heq
      exact hc.1 (List.cons.inj heq).1
  · rintro ⟨body, hbody, hmark, rfl⟩
    refine ⟨body, ?_, rfl⟩
    cases body with
    | nil => exact .inl rfl
    | cons c v =>
      obtain ⟨hc, hv⟩ := List.forall_mem_cons.mp hbody
      refine .inr ⟨c, ?_, v, hv, rfl⟩
      have hmark : c ≠ '?' := fun heq => hmark v (heq ▸ rfl)
      simpa [hmark] using hc

/-- It is read as far as the line goes. -/
theorem yields_lineComment : Yields .gap lineComment := by
  intro w hw
  obtain ⟨body, hbody, hmark, rfl⟩ := mem_lineComment.mp hw
  refine ⟨'/', '/' :: body, rfl, ?_⟩
  rintro cs ⟨rest, rfl⟩
  rw [List.cons_append, List.length_cons]
  by_cases hdoc : ∃ tail, body ++ rest = '?' :: tail
  · -- the comment is empty, and documentation stands here
    obtain ⟨tail, heq⟩ := hdoc
    have hnil : body = [] := by
      cases body with
      | nil => rfl
      | cons c v => exact absurd (by rw [(List.cons.inj heq).1]) (hmark v)
    have hpiece : piece '/' ('/' :: '?' :: tail) = (.token .doc, countWhile (· != '\n') 2 tail) := rfl
    rw [heq, hpiece, hnil, countWhile_eq]
    refine ⟨Nat.le_add_right_of_le (by decide), fun hword => ?_⟩
    rw [Nat.add_comm, List.take_succ_cons, List.take_succ_cons] at hword
    simp at hword
  · rw [piece_lineComment fun tail heq => hdoc ⟨tail, heq⟩, Nat.add_comm]
    exact ⟨length_le_countWhile hbody (List.prefix_append body rest), fun _ => .refl _⟩

theorem yields_blockDoc : Yields (.token .doc) blockDoc := by
  intro w hw
  obtain ⟨v, hv, rfl⟩ := mem_literal_mul.mp hw
  refine ⟨'/', '*' :: '?' :: v, rfl, ?_⟩
  rintro cs ⟨rest, rfl⟩
  have hcomment : comment? ('*' :: '?' :: (v ++ rest)) = some (.token .doc, 2 + v.length) := by
    rw [comment?, throughClose?_append hv, Option.map_some]
  rw [List.cons_append, List.cons_append, piece_of_comment? hcomment, List.length_cons, List.length_cons]
  exact ⟨(Nat.add_comm 2 v.length).ge, fun _ => .refl _⟩

/-- A block comment holds only stars, or it starts with something else. -/
theorem mem_blockComment : w ∈ blockComment ↔
    (∃ stars, (∀ a ∈ stars, (a == '*') = true) ∧ w = '/' :: '*' :: '*' :: (stars ++ ['/'])) ∨
      ∃ c v, c ≠ '?' ∧ c ≠ '*' ∧ v ∈ commentTail ∧ w = '/' :: '*' :: c :: v := by
  rw [blockComment, mem_literal_mul]
  constructor
  · rintro ⟨_, h, rfl⟩
    obtain ⟨_, hbody, close, hclose, rfl⟩ := Language.mem_mul.mp h
    rcases mem_optional.mp hbody with rfl | hbody
    · obtain ⟨stars, hne, hstars, rfl⟩ := mem_commentEnd.mp hclose
      obtain ⟨a, stars, rfl⟩ := List.exists_cons_of_ne_nil hne
      obtain ⟨rfl, htail⟩ := List.forall_mem_cons.mp hstars
      exact .inl ⟨stars, fun a ha => beq_iff_eq.mpr (htail a ha), rfl⟩
    · obtain ⟨c, hc, body, htail, rfl⟩ := mem_one_mul.mp hbody
      have hc : c ≠ '?' ∧ c ≠ '*' := by simpa using hc
      exact .inr ⟨c, _, hc.1, hc.2, append_mem_mul htail hclose, rfl⟩
  · rintro (⟨stars, hstars, rfl⟩ | ⟨c, v, hmark, hstar, hv, rfl⟩)
    · have hclose : '*' :: (stars ++ ['/']) ∈ commentEnd :=
        mem_commentEnd.mpr ⟨'*' :: stars, List.cons_ne_nil _ _,
          List.forall_mem_cons.mpr ⟨rfl, fun a ha => beq_iff_eq.mp (hstars a ha)⟩, rfl⟩
      exact ⟨_, append_mem_mul (mem_optional.mpr (.inl rfl)) hclose, rfl⟩
    · obtain ⟨body, hbody, close, hclose, rfl⟩ := Language.mem_mul.mp hv
      have hc : c ∈ ({'?', '*'}ᶜ : Set Char) := by simp [hmark, hstar]
      exact ⟨_, append_mem_mul (mem_optional.mpr (.inr (mem_one_mul.mpr ⟨c, hc, body, hbody, rfl⟩))) hclose, rfl⟩

/-- A comment of stars alone. -/
theorem comment?_stars {stars : List Char} (hstars : ∀ a ∈ stars, (a == '*') = true) :
    comment? ('*' :: '*' :: (stars ++ '/' :: rest)) = some (.gap, stars.length + 3) := by
  have hcount : countWhile (· == '*') 2 (stars ++ '/' :: rest) = stars.length + 2 := by
    rw [countWhile_eq, List.takeWhile_append_of_pos hstars]
    simp
    omega
  have hdrop : (stars ++ '/' :: rest).drop stars.length = '/' :: rest := List.drop_left
  simp only [comment?, hcount, Nat.add_sub_cancel, hdrop]

/-- Any other comment ends at the first mark of its end. -/
theorem comment?_body (hmark : c ≠ '?') (hstar : c ≠ '*') :
    comment? ('*' :: c :: cs) = (throughClose? 2 cs).map (.gap, ·) := by
  rw [comment?, throughClose?_cons (.inl hstar)]
  · rintro tail heq
    exact hmark (List.cons.inj heq).1
  · rintro tail heq
    exact hstar (List.cons.inj heq).1

theorem yields_blockComment : Yields .gap blockComment := by
  intro w hw
  rcases mem_blockComment.mp hw with ⟨stars, hstars, rfl⟩ | ⟨c, v, hmark, hstar, hv, rfl⟩
  · refine ⟨'/', _, rfl, ?_⟩
    rintro cs ⟨rest, rfl⟩
    rw [List.cons_append, List.cons_append, List.append_assoc, List.singleton_append,
      piece_of_comment? (comment?_stars hstars)]
    simp only [List.length_cons, List.length_append, List.length_nil]
    exact ⟨le_rfl, fun _ => .refl _⟩
  · refine ⟨'/', '*' :: c :: v, rfl, ?_⟩
    rintro cs ⟨rest, rfl⟩
    have hcomment : comment? ('*' :: c :: (v ++ rest)) = some (.gap, 2 + v.length) := by
      rw [comment?_body hmark hstar, throughClose?_append hv, Option.map_some]
    rw [List.cons_append, List.cons_append, piece_of_comment? hcomment, List.length_cons, List.length_cons]
    exact ⟨(Nat.add_comm 2 v.length).ge, fun _ => .refl _⟩

/-- What is read as a comment is of one of the four kinds. -/
theorem rule_of_comment? (h : comment? cs = some (found, n)) :
    found = .token .doc ∧ ('/' :: cs.take n ∈ lineDoc ∨ '/' :: cs.take n ∈ blockDoc) ∨
    found = .gap ∧ ('/' :: cs.take n ∈ lineComment ∨ '/' :: cs.take n ∈ blockComment) := by
  unfold comment? at h
  dsimp only at h
  split at h
  case h_1 cs =>
    -- two slashes and a question mark
    obtain ⟨rfl, rfl⟩ : .token .doc = found ∧ countWhile (· != '\n') 2 cs = n := by simpa using h
    rw [countWhile_add, List.take_succ_cons, List.take_succ_cons]
    exact .inl ⟨rfl, .inl (mem_literal_mul.mpr ⟨_, mem_line.mpr (all_take_countWhile _ cs), rfl⟩)⟩
  case h_2 cs hmark =>
    -- two slashes and anything else
    obtain ⟨rfl, rfl⟩ : .gap = found ∧ countWhile (· != '\n') 1 cs = n := by simpa using h
    rw [countWhile_add, List.take_succ_cons]
    refine .inr ⟨rfl, .inl (mem_lineComment.mpr ⟨_, all_take_countWhile _ cs, ?_, rfl⟩)⟩
    intro rest heq
    have hprefix := List.take_prefix (countWhile (· != '\n') 0 cs) cs
    rw [heq] at hprefix
    obtain ⟨tail, htail⟩ := hprefix
    exact hmark _ htail.symm
  case h_3 cs =>
    -- a slash, a star and a question mark
    obtain ⟨k, hk, heq⟩ := Option.map_eq_some_iff.mp h
    obtain ⟨rfl, rfl⟩ := Prod.mk.inj heq
    obtain ⟨w, rest, rfl, hw, rfl⟩ := exists_of_throughClose? hk
    rw [Nat.add_comm, List.take_succ_cons, List.take_succ_cons, List.take_left]
    exact .inl ⟨rfl, .inr (mem_literal_mul.mpr ⟨w, hw, rfl⟩)⟩
  case h_4 cs =>
    -- a slash and two stars: a comment of stars alone, or none
    split at h
    case h_2 => cases h
    rename_i rest hdrop
    obtain ⟨rfl, rfl⟩ : .gap = found ∧ countWhile (· == '*') 2 cs + 1 = n := by simpa using h
    rw [countWhile_add, Nat.add_sub_cancel] at hdrop
    have hcs := List.take_append_drop (countWhile (· == '*') 0 cs) cs
    rw [hdrop] at hcs
    refine .inr ⟨rfl, .inr (mem_blockComment.mpr (.inl ⟨_, all_take_countWhile _ cs, ?_⟩))⟩
    rw [countWhile_add, List.take_succ_cons, List.take_succ_cons, List.take_add, hdrop, List.take_succ_cons, List.take_zero]
  case h_5 cs hmark hstar =>
    -- a slash, a star and anything else
    obtain ⟨k, hk, heq⟩ := Option.map_eq_some_iff.mp h
    obtain ⟨rfl, rfl⟩ := Prod.mk.inj heq
    cases cs with
    | nil => cases hk
    | cons c cs =>
      have hc : c ≠ '?' ∧ c ≠ '*' := ⟨fun heq => hmark cs (heq ▸ rfl), fun heq => hstar cs (heq ▸ rfl)⟩
      rw [throughClose?_cons (.inl hc.2)] at hk
      obtain ⟨w, rest, rfl, hw, rfl⟩ := exists_of_throughClose? hk
      rw [Nat.add_comm, List.take_succ_cons, List.take_succ_cons, List.take_left]
      exact .inr ⟨rfl, .inr (mem_blockComment.mpr (.inr ⟨c, w, hc.1, hc.2, hw, rfl⟩))⟩
  case h_6 => cases h

end ScriptMachine.Lexer
