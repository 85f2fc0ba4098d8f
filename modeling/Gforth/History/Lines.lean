import Gforth.Lib.Files
import Gforth.Streams.Positions

/-!
# Lines in the history file

A history file consists of lines that end with an LF.  Reading from a position gives what is left of
a line, and does not go over the end of the line.

Main results:

- Theorem {lit}`lineOf_line`: reading at the start of a line.
- Theorem {lit}`lineOf_le_of_lf`: reading does not go over an LF.
- Theorem {lit}`AtPosition.readLine`: reading from a file.
-/

namespace Gforth
namespace History

open Lib
open Streams

/-! ## Files that consist of lines -/

/-- A text without newlines -/
def IsLine (l : List Byte) : Prop :=
  ∀ c ∈ l, ¬Newline c

instance (l : List Byte) : Decidable (IsLine l) :=
  inferInstanceAs (Decidable (∀ c ∈ l, ¬Newline c))

/-- A file with these lines -/
def contents (lines : List (List Byte)) : List Byte :=
  lines.flatMap (· ++ [lf])

/-- The position where a line starts; lines behind the last one start at the end of the file. -/
def start (lines : List (List Byte)) (j : Nat) : Nat :=
  (contents (lines.take j)).length

variable {lines : List (List Byte)} {l : List Byte} {j : Nat}

theorem contents_append (lines lines' : List (List Byte)) :
    contents (lines ++ lines') = contents lines ++ contents lines' :=
  List.flatMap_append

/-- The contents with a line in front -/
theorem contents_cons (l : List Byte) (lines : List (List Byte)) :
    contents (l :: lines) = l ++ lf :: contents lines := by
  rw [contents, List.flatMap_cons, List.append_assoc]
  rfl

theorem start_zero : start lines 0 = 0 := by
  rw [start, List.take_zero]
  rfl

theorem start_length : start lines lines.length = (contents lines).length := by
  rw [start, List.take_length]

/-- A line starts behind the one before it. -/
theorem start_succ (hj : j < lines.length) :
    start lines (j + 1) = start lines j + lines[j].length + 1 := by
  rw [start, start, List.take_succ_eq_append_getElem hj, contents_append, List.length_append,
    contents_cons, List.length_append]
  rfl

theorem drop_start (lines : List (List Byte)) (j : Nat) :
    (contents lines).drop (start lines j) = contents (lines.drop j) := by
  conv_lhs => rw [← List.take_append_drop j lines, contents_append]
  rw [List.take_append_drop, start, List.drop_left]

theorem start_le (lines : List (List Byte)) (j : Nat) :
    start lines j ≤ (contents lines).length := by
  conv_rhs => rw [← List.take_append_drop j lines, contents_append, List.length_append]
  exact Nat.le_add_right _ _

theorem drop_start_of_lt (hj : j < lines.length) :
    (contents lines).drop (start lines j) =
      lines[j] ++ lf :: contents (lines.drop (j + 1)) := by
  rw [drop_start, List.drop_eq_getElem_cons hj, contents_cons]

/-- An LF is in front of each line but the first one. -/
theorem getElem?_start (hj : j < lines.length) :
    (contents lines)[start lines (j + 1) - 1]? = some lf := by
  have hdrop := drop_start_of_lt hj
  have hget : ((contents lines).drop (start lines j))[lines[j].length]? =
      (lines[j] ++ lf :: contents (lines.drop (j + 1)))[lines[j].length]? := by rw [hdrop]
  rw [List.getElem?_drop, List.getElem?_append_right (le_refl _), Nat.sub_self,
    List.getElem?_cons_zero] at hget
  rw [start_succ hj, Nat.add_sub_cancel, hget]

/-! ## Pieces of lines -/

/-- A line is split off at its end. -/
theorem segments_line (hl : IsLine l) (rest : List Byte) :
    segments (l ++ lf :: rest) = ⟨l, [lf]⟩ :: segments rest := by
  induction l with
  | nil => exact segments_lf rest
  | cons c l ih =>
    rw [List.cons_append, segments_other (hl c List.mem_cons_self),
      ih fun d hd => hl d (List.mem_cons_of_mem c hd)]
    rfl

/-- The line that is read into a buffer -/
theorem lineOf_of_segments {room : Nat} {bs : List Byte} {s : Segment} {segs : List Segment}
    (h : segments bs = s :: segs) :
    lineOf room bs =
      if s.text.length < room then (s.text, s.chars.length) else (s.text.take room, room) := by
  rw [lineOf, h]

theorem lineOf_of_empty {room : Nat} {bs sep : List Byte} {segs : List Segment}
    (h : segments bs = ⟨[], sep⟩ :: segs) : lineOf (room + 1) bs = ([], sep.length) :=
  (lineOf_of_segments h).trans (if_pos (Nat.succ_pos room))

/-- Reading at the start of a line -/
theorem lineOf_line (hl : IsLine l) (room : Nat) (rest : List Byte) :
    lineOf room (l ++ lf :: rest) =
      if l.length < room then (l, l.length + 1) else (l.take room, room) := by
  rw [lineOf_of_segments (segments_line hl rest), Segment.chars, List.length_append,
    List.length_singleton]

/-- Reading does not go over an LF. -/
theorem lineOf_le_of_lf (room : Nat) {bs : List Byte} {k : Nat} (h : bs[k]? = some lf) :
    (lineOf room bs).2 ≤ k + 1 := by
  induction bs generalizing k room with
  | nil => cases h
  | cons c bs ih =>
    cases room with
    | zero =>
      rw [lineOf_zero]
      exact Nat.zero_le _
    | succ room =>
      by_cases hc : Newline c
      · -- an LF may belong to the newline only if it is not in front of it
        rcases hc with rfl | rfl
        · rw [lineOf_of_empty (segments_lf bs)]
          exact Nat.le_add_left 1 k
        · obtain ⟨k, rfl⟩ : ∃ k', k = k' + 1 := by
            refine Nat.exists_eq_succ_of_ne_zero fun hk => ?_
            rw [hk, List.getElem?_cons_zero, Option.some_inj] at h
            exact cr_ne_lf h
          by_cases hhead : bs.head? = some lf
          · obtain ⟨rest, rfl⟩ := List.head?_eq_some_iff.1 hhead
            rw [lineOf_of_empty (segments_cr_lf rest)]
            exact Nat.le_add_left 2 k
          · rw [lineOf_of_empty (segments_cr hhead)]
            exact Nat.le_add_left 1 (k + 1)
      · cases k with
        | zero =>
          rw [List.getElem?_cons_zero, Option.some_inj] at h
          exact absurd (.inl h) hc
        | succ k =>
          rw [lineOf_succ hc]
          exact Nat.succ_le_succ (ih room (by rwa [List.getElem?_cons_succ] at h))

/-! ## Positions -/

variable {F : Type} [DecidableEq F] {f : F} {content : List Byte} {p : Nat} {fs : Files F}

/-- {lit}`file-position` -/
def filePosition (f : F) (fs : Files F) : Nat :=
  match fs.stream f with
  | some s => s.tell
  | none => 0

/-- {lit}`reposition-file` -/
def repositionFile (pos : Nat) (f : F) (fs : Files F) : Files F :=
  fs.onStream f (Stream.fseeko pos)

/-- A file with this content is open at this position. -/
def AtPosition (f : F) (content : List Byte) (p : Nat) (fs : Files F) : Prop :=
  ∃ s, fs.stream f = some s ∧ s.Placed ∧ s.contents = content ∧ s.tell = p

omit [DecidableEq F] in
theorem AtPosition.placedAt (h : AtPosition f content p fs) : fs.PlacedAt f content := by
  obtain ⟨s, hs, hplaced, hcontents, -⟩ := h
  exact ⟨s, hs, hplaced, hcontents⟩

omit [DecidableEq F] in
theorem AtPosition.filePosition (h : AtPosition f content p fs) : filePosition f fs = p := by
  obtain ⟨s, hs, -, -, htell⟩ := h
  rw [History.filePosition, hs]
  exact htell

omit [DecidableEq F] in
/-- What is left of the file -/
theorem AtPosition.left (h : AtPosition f content p fs) :
    fs.left f = content.drop p ∧ p ≤ content.length := by
  obtain ⟨s, hs, hplaced, rfl, rfl⟩ := h
  rw [Files.left, hs]
  exact hplaced.left_eq

/-- {lit}`reposition-file` goes to a position in the file. -/
theorem AtPosition.repositionFile (h : AtPosition f content p fs) {pos : Nat}
    (hpos : pos ≤ content.length) : AtPosition f content pos (repositionFile pos f fs) := by
  obtain ⟨s, hs, -, rfl, -⟩ := h
  refine ⟨s.fseeko pos, ?_, Stream.fseeko_placed hpos, rfl, rfl⟩
  rw [History.repositionFile, Files.onStream]
  dsimp only
  rw [Function.update_self, hs]
  rfl

/-- Reading a piece of a line from a file -/
theorem AtPosition.readLine (h : AtPosition f content p fs) (u1 : Nat) :
    (readLine u1 f fs).1.text = (lineOf u1 (content.drop p)).1 ∧
      ((readLine u1 f fs).1.flag = true ↔ u1 = 0 ∨ p < content.length) ∧
      AtPosition f content (p + (lineOf u1 (content.drop p)).2) (readLine u1 f fs).2 := by
  obtain ⟨hleft, hle⟩ := h.left
  have hstart : (if 0 < u1 then fs.gfRegetc f else fs).left f = content.drop p := by
    split
    · rw [Files.left_gfRegetc, hleft]
    · exact hleft
  have hspec := @readLineLoop_spec F _ f _ u1 [] 0 _ hstart
  obtain ⟨s, hs, hplaced, hcontents⟩ := (readLine_reads u1 f fs).placed content h.placedAt
  rw [Streams.readLine] at hs ⊢
  refine ⟨hspec.text, ?_, s, hs, hplaced, hcontents, ?_⟩
  · rw [hspec.flag, ← List.drop_eq_nil_iff.not.trans Nat.not_le]
    simp
  · have hconsumed := lineOf_le u1 (content.drop p)
    rw [List.length_drop] at hconsumed
    refine hplaced.tell_eq (by rw [hcontents]; omega) ?_
    have hafter := hspec.left
    rw [Files.left, hs] at hafter
    rw [hcontents, ← List.drop_drop]
    exact hafter

end History
end Gforth
