import Mathlib
import ScriptMachine.Proofs.Bisect
import ScriptMachine.Proofs.Tokens.Stream
import ScriptMachine.Text.Lines

/-!
# ScriptMachine.Proofs.Text.Lines — lines are what stands between the newlines

The line map of a text is made of its bytes, and the text of a line is cut out at byte offsets. Both
agree with splitting the characters of the text at the newlines: a byte of a longer character is never
taken for a newline, every line starts and ends between characters, and the line of an offset is
counted by the newlines in front of it.

`lines_split` is the result, and it has no hypothesis. The parts of a text between its newlines are
numbered, `before` is what stands in front of a part, and the induction is on the parts: the part with
the next index starts one byte behind the end of this one (`before_succ`). That slices never fail is a
consequence, since both ends of a slice are ends of parts.

Columns are not considered, and a carriage return belongs to its line except where the text of the line
is asked for.
-/

namespace ScriptMachine.Text

open Lexer (byteLength byteLength_append byteLength_eq_sum)

variable {n offset : Nat}

/-! ## Slices -/

theorem byteLength_cons (c : Char) (cs : List Char) :
    byteLength (c :: cs) = c.utf8Size + byteLength cs := by
  rw [byteLength_eq_sum, byteLength_eq_sum, List.map_cons, List.sum_cons]

/-- A first character has bytes, and those of the others come behind them. -/
theorem exists_byteLength_cons (c : Char) (cs : List Char) : ∃ n, byteLength (c :: cs) = n + 1 ∧
    c.utf8Size ≤ n + 1 ∧ n + 1 - c.utf8Size = byteLength cs := by
  have hpos := c.utf8Size_pos
  refine ⟨c.utf8Size + byteLength cs - 1, ?_, by omega, by omega⟩
  rw [byteLength_cons]
  omega

theorem dropBytes?_append (front rest : List Char) :
    dropBytes? (front ++ rest) (byteLength front) = some rest := by
  induction front with
  | nil => cases rest <;> rfl
  | cons c front ih =>
    obtain ⟨n, hn, hle, hrest⟩ := exists_byteLength_cons c front
    rw [hn, List.cons_append, dropBytes?, if_pos hle, hrest, ih]

theorem takeBytes?_append (front rest : List Char) : ∀ done,
    takeBytes? done (front ++ rest) (byteLength front) = some (done.reverse ++ front) := by
  induction front with
  | nil =>
    intro done
    cases rest <;> simp [takeBytes?, byteLength]
  | cons c front ih =>
    intro done
    obtain ⟨n, hn, hle, hrest⟩ := exists_byteLength_cons c front
    rw [hn, List.cons_append, takeBytes?, if_pos hle, hrest, ih, List.reverse_cons, List.append_assoc]
    rfl

/-- **`slice?_append`** — a slice between two places in a text is what stands between them. -/
theorem slice?_append (front cs rest : List Char) :
    slice? (front ++ (cs ++ rest)) (byteLength front) (byteLength (front ++ cs)) = some cs := by
  rw [slice?, byteLength_append, if_pos (Nat.le_add_right _ _), dropBytes?_append, Option.bind_some,
    Nat.add_sub_cancel_left, takeBytes?_append]
  rfl

/-! ## Newlines among the bytes -/

/-- The bytes of some characters. -/
def bytes (cs : List Char) : List UInt8 :=
  cs.flatMap String.utf8EncodeChar

/-- The bytes of a text are those of its characters, one after the other. -/
theorem toList_toUTF8 (s : String) : s.toUTF8.data.toList = bytes s.toList := by
  rw [String.toUTF8_eq_toByteArray, ← String.utf8Encode_toList]
  simp [List.utf8Encode, bytes]

theorem length_bytes (cs : List Char) : (bytes cs).length = byteLength cs := by
  rw [bytes, List.length_flatMap, byteLength_eq_sum]
  simp

/-- Only a newline is written with the byte of a newline. -/
theorem newline_mem_utf8EncodeChar (c : Char) : newline ∈ String.utf8EncodeChar c ↔ c = '\n' := by
  constructor
  · intro hmem
    have hlow : ∀ n : Nat, n < 256 → newline = UInt8.ofNat n → n = 10 := by
      intro n hn heq
      have := congrArg UInt8.toNat heq
      rw [UInt8.toNat_ofNat', Nat.mod_eq_of_lt hn] at this
      exact this.symm
    have hval : c.val.toNat = 10 := by
      unfold String.utf8EncodeChar at hmem
      dsimp only at hmem
      split at hmem
      · exact hlow _ (by omega) (List.mem_singleton.mp hmem)
      · -- the bytes of a longer character are all greater
        exfalso
        split at hmem
        · simp only [List.mem_cons, List.not_mem_nil, or_false] at hmem
          rcases hmem with hmem | hmem <;> · have := hlow _ (by omega) hmem; omega
        · split at hmem
          · simp only [List.mem_cons, List.not_mem_nil, or_false] at hmem
            rcases hmem with hmem | hmem | hmem <;> · have := hlow _ (by omega) hmem; omega
          · simp only [List.mem_cons, List.not_mem_nil, or_false] at hmem
            rcases hmem with hmem | hmem | hmem | hmem <;> · have := hlow _ (by omega) hmem; omega
    exact Char.ext (UInt32.toNat_inj.mp hval)
  · rintro rfl
    decide

/-! ## The starts -/

namespace LineMap

/-- Where parts start of which each ends one byte before the next. -/
def startsFrom (offset : Nat) : List (List Char) → List Nat
  | [] => []
  | part :: parts => offset :: startsFrom (offset + byteLength part + 1) parts

/-- After the bytes of a character another line starts if it is a newline, and only then. -/
theorem filterMap_utf8EncodeChar (c : Char) (offset : Nat) :
    ((String.utf8EncodeChar c).zipIdx offset).filterMap startAfter? =
      if c = '\n' then [offset + 1] else [] := by
  split
  · rename_i hc
    subst hc
    rfl
  · rename_i hc
    refine List.filterMap_eq_nil_iff.mpr fun ⟨b, i⟩ hmem => if_neg fun hb => hc ?_
    subst hb
    exact (newline_mem_utf8EncodeChar c).mp (List.fst_mem_of_mem_zipIdx hmem)

/-- The newlines among the bytes tell where the parts between the newlines start. -/
theorem filterMap_bytes (cs : List Char) : ∀ offset,
    offset :: ((bytes cs).zipIdx offset).filterMap startAfter? =
      startsFrom offset (cs.splitOn '\n') := by
  induction cs with
  | nil => exact fun offset => rfl
  | cons c cs ih =>
    intro offset
    have hlength : (String.utf8EncodeChar c).length = c.utf8Size := String.length_utf8EncodeChar c
    have hnext := ih (offset + c.utf8Size)
    rw [bytes, List.flatMap_cons, List.zipIdx_append, List.filterMap_append,
      filterMap_utf8EncodeChar, hlength, ← bytes, List.splitOn_cons_eq_if_modifyHead]
    by_cases hc : c = '\n'
    · subst hc
      exact congrArg (offset :: ·) hnext
    · -- the character joins the first part, and the other parts move by its bytes
      obtain ⟨part, parts, hparts⟩ := List.exists_cons_of_ne_nil (List.splitOn_ne_nil '\n' cs)
      rw [hparts] at hnext
      have htail := (List.cons.inj hnext).2
      rw [if_neg hc, if_neg (by simpa using hc), hparts, List.modifyHead_cons, List.nil_append, htail,
        startsFrom, byteLength_cons, Nat.add_assoc offset]

/-- A line starts at the front, and after each newline. -/
theorem toList_starts (s : String) :
    (ofText s).starts.toList = startsFrom 0 (s.toList.splitOn '\n') := by
  rw [← filterMap_bytes, ← toList_toUTF8]
  simp [ofText]

/-- The characters before the part with an index, the newlines included. -/
def before (parts : List (List Char)) (n : Nat) : List Char :=
  (parts.take n).flatMap (· ++ ['\n'])

theorem byteLength_newline : byteLength ['\n'] = 1 := rfl

theorem before_cons (part : List Char) (parts : List (List Char)) (n : Nat) :
    before (part :: parts) (n + 1) = part ++ (['\n'] ++ before parts n) := by
  simp [before]

/-- The n-th line starts behind all lines before it and their newlines. -/
theorem getElem?_startsFrom (parts : List (List Char)) : ∀ offset n, n < parts.length →
    (startsFrom offset parts)[n]? = some (offset + byteLength (before parts n)) := by
  induction parts with
  | nil => exact fun _ _ h => absurd h (Nat.not_lt_zero _)
  | cons part parts ih =>
    intro offset n hn
    cases n with
    | zero => rfl
    | succ n =>
      rw [startsFrom, List.getElem?_cons_succ, ih _ n (Nat.lt_of_succ_lt_succ hn), before_cons,
        byteLength_append, byteLength_append, byteLength_newline]
      congr 1
      omega

theorem length_startsFrom (parts : List (List Char)) : ∀ offset,
    (startsFrom offset parts).length = parts.length := by
  induction parts with
  | nil => exact fun _ => rfl
  | cons part parts ih => exact fun offset => congrArg (· + 1) (ih _)

/-- Each line starts behind the one before, if only by a newline. -/
theorem pairwise_startsFrom (parts : List (List Char)) : ∀ offset,
    (startsFrom offset parts).Pairwise (· < ·) ∧ ∀ start ∈ startsFrom offset parts, offset ≤ start := by
  induction parts with
  | nil => exact fun _ => ⟨List.Pairwise.nil, nofun⟩
  | cons part parts ih =>
    intro offset
    obtain ⟨hasc, hle⟩ := ih (offset + byteLength part + 1)
    refine ⟨List.pairwise_cons.mpr ⟨fun start hmem => ?_, hasc⟩, fun start hmem => ?_⟩
    · have := hle start hmem
      omega
    · rcases List.mem_cons.mp hmem with rfl | hmem
      · exact Nat.le_refl _
      · have := hle start hmem
        omega

theorem ascending_starts (s : String) : Bisect.Ascending id (ofText s).starts := by
  unfold Bisect.Ascending
  rw [List.map_id, toList_starts]
  exact (pairwise_startsFrom _ 0).1

theorem count_eq (s : String) : (ofText s).count = (s.toList.splitOn '\n').length := by
  rw [count, ← Array.length_toList, toList_starts, length_startsFrom]

theorem getElem?_starts (s : String) (hn : n < (s.toList.splitOn '\n').length) :
    (ofText s).starts[n]? = some (byteLength (before (s.toList.splitOn '\n') n)) := by
  rw [← Array.getElem?_toList, toList_starts, getElem?_startsFrom _ _ _ hn, Nat.zero_add]

/-! ## The line of an offset -/

theorem line_eq_reach (m : LineMap) (offset : Nat) :
    m.line offset = (Bisect.search id m.starts offset).reach := by
  unfold line
  split <;> rename_i hsearch <;> rw [hsearch] <;> rfl

/-- Where a test holds of the first elements of a list and of no other, it counts them. -/
theorem countP_eq_of_iff {α : Type} {xs : List α} {r : Nat} (p : α → Bool) (hr : r ≤ xs.length)
    (hp : ∀ (j : Nat) (hj : j < xs.length), p xs[j] = true ↔ j < r) : xs.countP p = r := by
  have hfront : (xs.take r).countP p = r := by
    rw [List.countP_eq_length.mpr, List.length_take, Nat.min_eq_left hr]
    intro x hx
    obtain ⟨j, hj, rfl⟩ := List.getElem_of_mem hx
    rw [List.length_take] at hj
    rw [List.getElem_take]
    exact (hp j (by omega)).mpr (by omega)
  have hrest : (xs.drop r).countP p = 0 := by
    refine List.countP_eq_zero.mpr fun x hx => ?_
    obtain ⟨j, hj, rfl⟩ := List.getElem_of_mem hx
    rw [List.length_drop] at hj
    rw [List.getElem_drop, hp _ (by omega)]
    omega
  rw [← List.take_append_drop r xs, List.countP_append, hfront, hrest, Nat.add_zero]

/-- The newlines before an offset, counted by the starts of lines that they bring. -/
theorem countP_startAfter? (bs : List UInt8) : ∀ k offset,
    ((bs.zipIdx k).filterMap startAfter?).countP (· ≤ k + offset) =
      (bs.take offset).count newline := by
  induction bs with
  | nil => exact fun _ offset => by rw [List.take_nil]; rfl
  | cons b bs ih =>
    intro k offset
    cases offset with
    | zero =>
      rw [List.take_zero, List.count_nil, List.countP_eq_zero]
      intro start hmem
      obtain ⟨⟨b', i⟩, hzip, hstart⟩ := List.mem_filterMap.mp hmem
      have hle := List.le_snd_of_mem_zipIdx hzip
      change (if b' = newline then some (i + 1) else none) = some start at hstart
      split at hstart
      · obtain rfl := Option.some.inj hstart
        simpa using hle
      · cases hstart
    | succ offset =>
      -- the first byte is before the offset, and so is the start it may bring
      have hnext := ih (k + 1) offset
      rw [Nat.add_right_comm, Nat.add_assoc k] at hnext
      rw [List.zipIdx_cons, List.take_succ_cons, List.count_cons, ← hnext]
      by_cases hb : b = newline
      · have hstart : startAfter? (b, k) = some (k + 1) := if_pos hb
        rw [List.filterMap_cons_some hstart, List.countP_cons]
        simp [hb]
      · have hstart : startAfter? (b, k) = none := if_neg hb
        rw [List.filterMap_cons_none hstart]
        simp [hb]

/-- The line of an offset is the number of lines that start at or before it. -/
theorem line_eq_countP (s : String) (offset : Nat) :
    (ofText s).line offset = (ofText s).starts.toList.countP (· ≤ offset) := by
  rw [line_eq_reach]
  refine (countP_eq_of_iff _ (Position.reach_le _) fun j hj => ?_).symm
  rw [decide_eq_true_iff]
  exact Bisect.le_iff_lt_reach (ascending_starts s) offset hj

/-- **`line_eq`** — the line of an offset is one more than the newlines among the bytes before it. -/
theorem line_eq (s : String) (offset : Nat) :
    (ofText s).line offset = 1 + (s.toUTF8.data.toList.take offset).count newline := by
  have hstarts : (ofText s).starts.toList =
      0 :: (s.toUTF8.data.toList.zipIdx).filterMap startAfter? := by
    simp [ofText]
  have hcount := countP_startAfter? s.toUTF8.data.toList 0 offset
  rw [Nat.zero_add] at hcount
  rw [line_eq_countP, hstarts, List.countP_cons, hcount, Nat.add_comm]
  rfl

/-! ## The text of a line -/

/-- The parts of a text around the one with an index. -/
theorem eq_before_append (parts : List (List Char)) : ∀ n (hn : n < parts.length),
    ['\n'].intercalate parts = before parts n ++ (parts[n] ++
      if n + 1 < parts.length then '\n' :: ['\n'].intercalate (parts.drop (n + 1)) else []) := by
  induction parts with
  | nil => exact fun _ h => absurd h (Nat.not_lt_zero _)
  | cons part parts ih =>
    intro n hn
    cases parts with
    | nil =>
      obtain rfl : n = 0 := by simpa using hn
      simp [before]
    | cons part' parts =>
      rw [List.intercalate_cons_of_ne_nil (List.cons_ne_nil _ _)]
      cases n with
      | zero => simp [before]
      | succ n =>
        rw [ih n (Nat.lt_of_succ_lt_succ hn)]
        simp [before]

/-- No part holds a newline. -/
theorem newline_notMem (cs : List Char) : ∀ part ∈ cs.splitOn '\n', '\n' ∉ part := by
  induction cs with
  | nil => simp
  | cons c cs ih =>
    intro part hmem
    rw [List.splitOn_cons_eq_if_modifyHead] at hmem
    split at hmem
    · rcases List.mem_cons.mp hmem with rfl | hmem
      · exact List.not_mem_nil
      · exact ih part hmem
    · rename_i hc
      obtain ⟨first, parts, hparts⟩ := List.exists_cons_of_ne_nil (List.splitOn_ne_nil '\n' cs)
      rw [hparts] at ih hmem
      rw [List.modifyHead_cons] at hmem
      rcases List.mem_cons.mp hmem with rfl | hmem
      · intro hnewline
        rcases List.mem_cons.mp hnewline with heq | hnewline
        · exact hc (beq_iff_eq.mpr heq.symm)
        · exact ih first List.mem_cons_self hnewline
      · exact ih part (List.mem_cons_of_mem _ hmem)

/-- One line more, with its newline. -/
theorem before_succ (parts : List (List Char)) (hn : n < parts.length) :
    before parts (n + 1) = before parts n ++ (parts[n] ++ ['\n']) := by
  rw [before, List.take_succ_eq_append_getElem hn, List.flatMap_append, List.flatMap_singleton, before]

theorem utf8ByteSize_eq (s : String) : s.utf8ByteSize = byteLength s.toList := by
  rw [← length_bytes, ← toList_toUTF8]
  rfl

/-- The newlines at the end of a line are taken off. -/
theorem dropEndWhile_newline {part : List Char} (h : '\n' ∉ part) :
    dropEndWhile (· == '\n') part = part ∧ dropEndWhile (· == '\n') (part ++ ['\n']) = part := by
  have hpart : part.rdropWhile (· == '\n') = part := by
    refine List.rdropWhile_eq_self_iff.mpr fun hne hlast => h ?_
    rw [← beq_iff_eq.mp hlast]
    exact List.getLast_mem hne
  refine ⟨hpart, ?_⟩
  exact (List.rdropWhile_concat_pos _ _ _ rfl).trans hpart

section Part

variable (s : String) (hn : n < (s.toList.splitOn '\n').length)
include hn

/-- A text around the part with an index: the parts before it, and the newline that ends it if others
follow. -/
theorem toList_eq_before_append : ∃ rest,
    s.toList = before (s.toList.splitOn '\n') n ++ ((s.toList.splitOn '\n')[n] ++ rest) := by
  have hsplit := eq_before_append (s.toList.splitOn '\n') n hn
  rw [List.intercalate_splitOn] at hsplit
  exact ⟨_, hsplit⟩

/-- **`text?_eq`** — the text of a line is the part between the newlines, without the carriage returns at
its end. -/
theorem text?_eq : (ofText s).text? s (n + 1) =
    some (String.ofList ((s.toList.splitOn '\n')[n].rdropWhile (· == '\r'))) := by
  have hsplit := eq_before_append (s.toList.splitOn '\n') n hn
  rw [List.intercalate_splitOn] at hsplit
  obtain ⟨hlast, hmore⟩ := dropEndWhile_newline (newline_notMem s.toList _ (List.getElem_mem hn))
  unfold text?
  dsimp only
  rw [getElem?_starts s hn]
  dsimp only
  by_cases hnext : n + 1 < (s.toList.splitOn '\n').length
  · -- the line ends with its newline, in front of the next start
    rw [getElem?_starts s hnext, before_succ _ hn, Option.getD_some]
    rw [if_pos hnext] at hsplit
    generalize ['\n'].intercalate _ = rest at hsplit
    rw [← List.singleton_append, ← List.append_assoc (s.toList.splitOn '\n')[n]] at hsplit
    have hslice := slice?_append (before (s.toList.splitOn '\n') n)
      ((s.toList.splitOn '\n')[n] ++ ['\n']) rest
    rw [← hsplit] at hslice
    rw [hslice, Option.map_some, hmore]
    rfl
  · -- the last line ends with the text
    have hnone : (ofText s).starts[n + 1]? = none := by
      refine Array.getElem?_eq_none ?_
      have hcount := count_eq s
      unfold count at hcount
      omega
    rw [if_neg hnext] at hsplit
    have hslice := slice?_append (before (s.toList.splitOn '\n') n) (s.toList.splitOn '\n')[n] []
    rw [List.append_nil] at hslice hsplit
    rw [← hsplit, ← utf8ByteSize_eq] at hslice
    rw [hnone, Option.getD_none, hslice, Option.map_some, hlast]
    rfl

/-- **`line_of_part`** — the offsets from the start of a part to its end are on the line of the part. -/
theorem line_of_part (hle : byteLength (before (s.toList.splitOn '\n') n) ≤ offset)
    (hlt : offset ≤ byteLength (before (s.toList.splitOn '\n') n ++ (s.toList.splitOn '\n')[n])) :
    (ofText s).line offset = n + 1 := by
  have hcount := count_eq s
  unfold count at hcount
  have hstart : ∀ (j : Nat) (hj : j < (ofText s).starts.size),
      (ofText s).starts[j] = byteLength (before (s.toList.splitOn '\n') j) := by
    intro j hj
    have hget := getElem?_starts s (n := j) (by omega)
    rw [Array.getElem?_eq_getElem hj] at hget
    exact Option.some.inj hget
  rw [line_eq_reach]
  refine Bisect.reach_eq (ascending_starts s) (by omega) ?_ fun h => ?_
  · rwa [id, hstart]
  · rw [id, hstart, before_succ _ hn, ← List.append_assoc, byteLength_append, byteLength_newline]
    omega

end Part

/-! ## Lines and splitting -/

/-- A line that a text does not have is empty. -/
theorem text?_beyond (s : String) (hn : n = 0 ∨ (ofText s).count < n) : (ofText s).text? s n = some "" := by
  unfold text?
  cases n with
  | zero => rfl
  | succ n =>
    have hnone : (ofText s).starts[n]? = none :=
      Array.getElem?_eq_none (by unfold count at hn; omega)
    dsimp only
    rw [hnone]

/-- Every line can be cut out of the text, whatever characters are in it. -/
theorem text?_eq_lineText (s : String) (n : Nat) : (ofText s).text? s n = some (lineText s n) := by
  have hsome : ∃ text, (ofText s).text? s n = some text := by
    cases n with
    | zero => exact ⟨_, rfl⟩
    | succ n =>
      by_cases hn : n < (s.toList.splitOn '\n').length
      · exact ⟨_, text?_eq s hn⟩
      · exact ⟨_, text?_beyond s (.inr (by rw [count_eq]; omega))⟩
  obtain ⟨text, htext⟩ := hsome
  rw [lineText, htext]
  rfl

/-- **`lines_split`** — the line of an offset is one more than the newlines among the bytes before it, also
behind the end. The text of a line is always found: it is the part of the text that splitting at the
newlines gives, without the carriage returns at its end, and empty where there is no such line. It stands
behind the parts before it, and every byte of it is on that line. -/
theorem lines_split (s : String) :
    (∀ offset, (ofText s).line offset = 1 + (s.toUTF8.data.toList.take offset).count newline) ∧
      (ofText s).count = (s.toList.splitOn '\n').length ∧
      (∀ n, (ofText s).text? s n = some (lineText s n)) ∧
      (∀ n, n = 0 ∨ (ofText s).count < n → lineText s n = "") ∧
      ∀ (n : Nat) (hn : n < (s.toList.splitOn '\n').length),
        lineText s (n + 1) = String.ofList ((s.toList.splitOn '\n')[n].rdropWhile (· == '\r')) ∧
        (ofText s).starts[n]? = some (byteLength (before (s.toList.splitOn '\n') n)) ∧
        (∃ rest, s.toList =
          before (s.toList.splitOn '\n') n ++ ((lineText s (n + 1)).toList ++ rest)) ∧
        ∀ offset, byteLength (before (s.toList.splitOn '\n') n) ≤ offset →
          offset < byteLength (before (s.toList.splitOn '\n') n ++ (lineText s (n + 1)).toList) →
          (ofText s).line offset = n + 1 := by
  have hfound := text?_eq_lineText s
  refine ⟨line_eq s, count_eq s, hfound, fun n hn => ?_, fun n hn => ?_⟩
  · exact Option.some.inj ((hfound n).symm.trans (text?_beyond s hn))
  · have htext : lineText s (n + 1) =
        String.ofList ((s.toList.splitOn '\n')[n].rdropWhile (· == '\r')) :=
      Option.some.inj ((hfound (n + 1)).symm.trans (text?_eq s hn))
    -- what was taken off the end of the part belongs to the rest
    obtain ⟨cut, hcut⟩ := List.rdropWhile_prefix (· == '\r') (s.toList.splitOn '\n')[n]
    obtain ⟨rest, hrest⟩ := toList_eq_before_append s hn
    refine ⟨htext, getElem?_starts s hn, ⟨cut ++ rest, ?_⟩, fun offset hle hlt => ?_⟩
    · rw [htext, String.toList_ofList, ← List.append_assoc _ cut, hcut]
      exact hrest
    · have hlength := congrArg byteLength hcut
      rw [byteLength_append] at hlength
      rw [htext, String.toList_ofList, byteLength_append] at hlt
      refine line_of_part s hn hle ?_
      rw [byteLength_append]
      omega

/-- A carriage return, an empty line, a longer character and a newline at the end. -/
theorem lines_split_terminators :
    lineText "a\r\n\nλ\n" 1 = "a" ∧ lineText "a\r\n\nλ\n" 3 = "λ" ∧ lineText "a\r\n\nλ\n" 5 = "" ∧
      (ofText "a\r\n\nλ\n").line 5 = 3 := by
  obtain ⟨-, hcount, -, hbeyond, hlines⟩ := lines_split "a\r\n\nλ\n"
  obtain ⟨hfirst, -⟩ := hlines 0 (by decide)
  obtain ⟨hthird, -, -, hline⟩ := hlines 2 (by decide)
  refine ⟨hfirst, hthird, hbeyond 5 (.inr ?_), hline 5 (by decide) ?_⟩
  · rw [hcount]
    decide
  · rw [hthird]
    decide

end LineMap

end ScriptMachine.Text
