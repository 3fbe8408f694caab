import Mathlib
import ScriptMachine.Proofs.Bisect
import ScriptMachine.Proofs.Code.Encoding

/-!
# ScriptMachine.Proofs.Code.Lines — the line of every byte

The lines of a chunk are kept in runs, and a run is opened only where the line changes. Writing a byte
makes its line the answer for its offset and all later ones, and leaves the answers for the offsets
before it. So the answer for the offset of a byte is the line it was written with, and behind the code
it is the last of these lines. Patched bytes keep theirs.

`lines_inverted` is about every sequence of edits (`Edit`), bytes written with a line and bytes patched
in place, from an empty chunk. One edit keeps `Shows` (`Shows.write`, `Shows.patch`), and the sequence
follows by induction. That the starts of the runs ascend is part of what is kept, since a search among
them is only right then.

Which line a byte should be written with is the compiler's choice and not discussed.
-/

namespace ScriptMachine.Chunk

open Bisect

variable {lines : Array (Nat × Nat)} {offset n j : Nat}

/-! ## Looking up -/

/-- The run that holds an offset is the last one that starts at or before it. -/
theorem lineIn_eq (hasc : Ascending Prod.fst lines) (hj : j < lines.size)
    (hstart : lines[j].1 ≤ offset) (hnext : ∀ h : j + 1 < lines.size, offset < lines[j + 1].1) :
    lineIn lines offset = lines[j].2 := by
  have hreach := reach_eq hasc hj hstart hnext
  unfold lineIn
  split
  · rename_i i hsearch
    rw [hsearch] at hreach
    obtain rfl : i.val = j := Nat.succ.inj hreach
    rfl
  · rename_i h hsearch
    rw [hsearch] at hreach
    cases hreach
  · rename_i i h hsearch
    rw [hsearch] at hreach
    obtain rfl : i = j := Nat.succ.inj hreach
    rfl

/-- Before the first run there is no line. -/
theorem lineIn_eq_zero (hasc : Ascending Prod.fst lines)
    (hall : ∀ (j : Nat) (hj : j < lines.size), offset < lines[j].1) : lineIn lines offset = 0 := by
  have hreach : (search Prod.fst lines offset).reach = 0 := by
    by_contra hne
    have hle := (search Prod.fst lines offset).reach_le
    have hfirst := (le_iff_lt_reach hasc offset (j := 0) (by omega)).mpr (by omega)
    exact absurd (hall 0 (by omega)) (Nat.not_lt_of_le hfirst)
  unfold lineIn
  split
  · rename_i i hsearch
    rw [hsearch] at hreach
    cases hreach
  · rfl
  · rename_i i h hsearch
    rw [hsearch] at hreach
    cases hreach

/-- Either all runs start behind an offset, or one of them holds it. -/
theorem exists_run (hasc : Ascending Prod.fst lines) (offset : Nat) :
    (∀ (j : Nat) (hj : j < lines.size), offset < lines[j].1) ∨
      ∃ (j : Nat) (hj : j < lines.size), lines[j].1 ≤ offset ∧
        ∀ h : j + 1 < lines.size, offset < lines[j + 1].1 := by
  have hspec := fun (j : Nat) (hj : j < lines.size) => le_iff_lt_reach hasc offset hj
  have hle := (search Prod.fst lines offset).reach_le
  generalize (search Prod.fst lines offset).reach = r at hspec hle
  cases r with
  | zero => exact .inl fun j hj => by have := hspec j hj; omega
  | succ r =>
    refine .inr ⟨r, hle, (hspec r hle).mpr (Nat.lt_succ_self r), fun h => ?_⟩
    have := hspec (r + 1) h
    omega

/-! ## Writing -/

/-- **`Runs lines n`** — these are the line runs of `n` bytes: the starts ascend from zero and are
offsets of the bytes. -/
structure Runs (lines : Array (Nat × Nat)) (n : Nat) : Prop where
  ascending : Ascending Prod.fst lines
  first : 0 < n → lines[0]?.map Prod.fst = some 0
  below : ∀ (j : Nat) (hj : j < lines.size), lines[j].1 < n

theorem runs_empty : Runs #[] 0 :=
  ⟨List.Pairwise.nil, nofun, nofun⟩

namespace Runs

variable (hr : Runs lines n)
include hr

/-- A run that is opened at the end of the code starts behind the others. -/
theorem push (line : Nat) : Runs (lines.push (n, line)) (n + 1) := by
  refine ⟨?_, fun _ => ?_, fun j hj => ?_⟩
  · unfold Ascending
    rw [Array.toList_push, List.map_append, List.pairwise_append]
    refine ⟨hr.ascending, List.pairwise_singleton _ _, fun a ha b hb => ?_⟩
    obtain ⟨r, hmem, rfl⟩ := List.mem_map.mp ha
    obtain ⟨j, hj, rfl⟩ := Array.getElem_of_mem (Array.mem_toList_iff.mp hmem)
    obtain rfl : b = n := by simpa using hb
    exact hr.below j hj
  · rcases Nat.eq_zero_or_pos n with rfl | hpos
    · -- no byte, so no run yet
      have hsize : lines.size = 0 := by
        by_contra hne
        exact absurd (hr.below 0 (by omega)) (Nat.not_lt_zero _)
      rw [Array.getElem?_push, if_pos hsize.symm]
      rfl
    · have hfirst := hr.first hpos
      have hsize : 0 ≠ lines.size := by
        intro hzero
        rw [Array.getElem?_eq_none (by omega)] at hfirst
        cases hfirst
      rwa [Array.getElem?_push, if_neg hsize]
  · rw [Array.getElem_push]
    split
    · exact Nat.lt_succ_of_lt (hr.below j _)
    · exact Nat.lt_succ_self n

/-- One byte more: it belongs to the last run, or it starts one. -/
theorem linesWith (line : Nat) : Runs (Chunk.linesWith lines n line) (n + 1) := by
  have hsame : lines.back? ≠ none → Runs lines (n + 1) := by
    intro hback
    have hsize : 0 < lines.size := by
      by_contra hne
      exact hback (by simp [Array.back?_eq_getElem?, Nat.eq_zero_of_not_pos hne])
    refine ⟨hr.ascending, fun _ => hr.first ?_, fun j hj => Nat.lt_succ_of_lt (hr.below j hj)⟩
    exact Nat.zero_lt_of_lt (hr.below 0 hsize)
  unfold Chunk.linesWith
  split
  · rename_i hback
    split
    · exact hsame (by rw [hback]; nofun)
    · exact hr.push line
  · exact hr.push line

/-- **`lineIn_push`** — a run that is opened at the end of the code holds all offsets from there on. -/
theorem lineIn_push (line offset : Nat) : lineIn (lines.push (n, line)) offset =
    if n ≤ offset then line else lineIn lines offset := by
  have hasc := (hr.push line).ascending
  split
  · rename_i hle
    have hsize : lines.size < (lines.push (n, line)).size := by simp
    have hlast := lineIn_eq hasc hsize (by simpa using hle) fun h => absurd h (by simp)
    simpa using hlast
  · rename_i hlt
    rcases exists_run hr.ascending offset with hall | ⟨j, hj, hstart, hnext⟩
    · rw [lineIn_eq_zero hr.ascending hall]
      refine lineIn_eq_zero hasc fun j hj => ?_
      rw [Array.getElem_push]
      split
      · exact hall j _
      · exact Nat.lt_of_not_le hlt
    · rw [lineIn_eq hr.ascending hj hstart hnext]
      have hsize : j < (lines.push (n, line)).size := by
        rw [Array.size_push]
        omega
      have hget : (lines.push (n, line))[j] = lines[j] := Array.getElem_push_lt hj
      rw [← hget]
      refine lineIn_eq hasc hsize (hget ▸ hstart) fun h => ?_
      rw [Array.getElem_push]
      split
      · exact hnext _
      · exact Nat.lt_of_not_le hlt

/-- **`lineIn_linesWith`** — another byte is at its line, and so is what follows; the bytes before it
stay at theirs. -/
theorem lineIn_linesWith (line offset : Nat) : lineIn (Chunk.linesWith lines n line) offset =
    if n ≤ offset then line else lineIn lines offset := by
  unfold Chunk.linesWith
  split
  · rename_i start last hback
    split
    · -- the last run goes on
      rename_i hsame
      split
      · rename_i hle
        rw [Array.back?_eq_getElem?] at hback
        obtain ⟨hsize, hget⟩ := Array.getElem?_eq_some_iff.mp hback
        have hstart := hr.below _ hsize
        rw [lineIn_eq hr.ascending hsize (by omega) (fun h => by omega), hget]
        exact hsame
      · rfl
    · exact hr.lineIn_push line offset
  · exact hr.lineIn_push line offset

end Runs

/-! ## Whatever is written and patched -/

/-- What is done to the code of a chunk: a byte is written with its line, or bytes are patched in
place. -/
inductive Edit where
  | write (byte : UInt8) (line : Nat)
  | patch (offset : Nat) (bytes : List UInt8)

namespace Edit

/-- The chunk after an edit. -/
def apply (c : Chunk) : Edit → Chunk
  | .write byte line => c.write byte line
  | .patch offset bytes => c.patch offset bytes

/-- The line that a byte is written with. -/
def line? : Edit → Option Nat
  | .write _ line => some line
  | .patch .. => none

end Edit

/-- **`c.Shows ls`** — the bytes of the chunk were written with these lines, and it shows them. -/
structure Shows (c : Chunk) (ls : List Nat) : Prop where
  size : c.size = ls.length
  runs : Runs c.lines ls.length
  line : ∀ (i : Nat) (hi : i < ls.length), c.lineAt i = ls[i]
  last : ∀ line ∈ ls.getLast?, ∀ i, ls.length ≤ i → c.lineAt i = line

namespace Shows

variable {c : Chunk} {ls : List Nat} (hc : c.Shows ls)
include hc

/-- One byte more is shown with its line, and those before it with theirs. -/
theorem write (byte : UInt8) (line : Nat) : (c.write byte line).Shows (ls ++ [line]) := by
  have hlines : (c.write byte line).lines = linesWith c.lines ls.length line := by
    rw [← hc.size]
    rfl
  have hline : ∀ i, (c.write byte line).lineAt i =
      if ls.length ≤ i then line else c.lineAt i := by
    intro i
    unfold lineAt
    rw [hlines, hc.runs.lineIn_linesWith]
  refine ⟨?_, ?_, fun i hi => ?_, fun last hlast i hi => ?_⟩
  · rw [List.length_append, ← hc.size]
    exact Array.size_push ..
  · rw [hlines, List.length_append]
    exact hc.runs.linesWith line
  · rw [hline]
    rw [List.length_append, List.length_singleton] at hi
    split
    · obtain rfl : i = ls.length := by omega
      rw [List.getElem_concat_length rfl]
    · rw [hc.line i (by omega), List.getElem_append_left]
  · obtain rfl : line = last := by simpa using hlast
    rw [List.length_append, List.length_singleton] at hi
    rw [hline, if_pos (by omega)]

/-- Bytes that are patched stay on their lines. -/
theorem patch (offset : Nat) (bytes : List UInt8) : (c.patch offset bytes).Shows ls :=
  ⟨(size_overwrite c.code offset bytes).trans hc.size, hc.runs, hc.line, hc.last⟩

/-- By induction on the edits. -/
theorem foldl (es : List Edit) : (es.foldl Edit.apply c).Shows (ls ++ es.filterMap Edit.line?) := by
  induction es generalizing c ls with
  | nil =>
    rw [List.filterMap_nil, List.append_nil]
    exact hc
  | cons e es ih =>
    cases e with
    | write byte line =>
      have hnext := ih (hc.write byte line)
      rwa [List.append_assoc] at hnext
    | patch offset bytes => exact ih (hc.patch offset bytes)

end Shows

theorem shows_empty : empty.Shows [] :=
  ⟨rfl, runs_empty, nofun, nofun⟩

/-- **`lines_inverted`** — whatever was written to a chunk and patched in it, the line of the `i`-th byte
is the one it was written with, and behind the last byte it is that of the last byte. The runs start at
zero and ascend. Patching changes no answer. -/
theorem lines_inverted (es : List Edit) :
    let c := es.foldl Edit.apply empty
    let ls := es.filterMap Edit.line?
    c.size = ls.length ∧
      (∀ (i : Nat) (hi : i < ls.length), c.lineAt i = ls[i]) ∧
      (∀ line ∈ ls.getLast?, ∀ i, ls.length ≤ i → c.lineAt i = line) ∧
      (c.lines.toList.map Prod.fst).Pairwise (· < ·) ∧
      (0 < ls.length → (c.lines.toList.map Prod.fst).head? = some 0) ∧
      ∀ offset bytes i, (c.patch offset bytes).lineAt i = c.lineAt i := by
  have hc := shows_empty.foldl es
  rw [List.nil_append] at hc
  refine ⟨hc.size, hc.line, hc.last, hc.runs.ascending, fun hpos => ?_, fun _ _ _ => rfl⟩
  rw [List.head?_eq_getElem?, List.getElem?_map, Array.getElem?_toList]
  exact hc.runs.first hpos

/-- A line comes back after a lesser one, and the first bytes are patched. -/
theorem lines_inverted_jumpBack :
    let c := [Edit.write 1 7, .write 2 7, .write 3 5, .patch 0 [4, 4], .write 6 7].foldl Edit.apply empty
    c.lineAt 1 = 7 ∧ c.lineAt 2 = 5 ∧ c.lineAt 3 = 7 ∧ c.lineAt 9 = 7 := by
  obtain ⟨-, hline, hlast, -⟩ :=
    lines_inverted [.write 1 7, .write 2 7, .write 3 5, .patch 0 [4, 4], .write 6 7]
  exact ⟨hline 1 (by decide), hline 2 (by decide), hline 3 (by decide), hlast 7 rfl 9 (by decide)⟩

end ScriptMachine.Chunk
