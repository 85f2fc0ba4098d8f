import Gforth.Streams.Stdio

/-!
# Reading lines

{lit}`read_line` reads one line into a buffer.  Behind a CR it reads one more character, which it
pushes back if this is not an LF.

Main results:

- Theorem {lit}`readLine_nil`, {lit}`readLine_cons`: one call at the end of the input and before it.
- Theorem {lit}`readLines_faithful`: a sequence of calls returns the lines of the input in pieces.
-/

namespace Gforth
namespace Streams

open Lib

variable {F : Type} [DecidableEq F]

/-! ## The function -/

/-- The results of {lit}`(read-line)` without I/O errors: the {lit}`u2` characters in the buffer,
{lit}`flag` and {lit}`u3` -/
structure LineResult where
  text : List Byte
  flag : Bool
  u3 : Nat
deriving DecidableEq

/-- The loop of {lit}`read_line`, with the number of characters for which there is room in the
buffer -/
def readLineLoop (f : F) : Nat → List Byte → Nat → Files F → LineResult × Files F
  | 0, text, u3, fs => (⟨text, true, u3⟩, fs)
  | room + 1, text, u3, fs =>
      match fs.getc f with
      | (none, fs) => (⟨text, text.length ≠ 0, u3⟩, fs)
      | (some c, fs) =>
          let u3 := u3 + 1
          if c = lf then (⟨text, true, u3⟩, fs)
          else if c = cr then
            match fs.getc f with
            | (none, fs) => (⟨text, true, u3⟩, fs)
            | (some c, fs) =>
                if c ≠ lf then (⟨text, true, u3⟩, fs.gfUngetc c f) else (⟨text, true, u3 + 1⟩, fs)
          else readLineLoop f room (text ++ [c]) u3 fs

/-- {lit}`read_line` -/
def readLine (u1 : Nat) (f : F) (fs : Files F) : LineResult × Files F :=
  readLineLoop f u1 [] 0 (if 0 < u1 then fs.gfRegetc f else fs)

/-- One call, with the states before and after it -/
structure Call (F : Type) where
  before : Files F
  result : LineResult
  after : Files F

/-- A sequence of calls with buffers of these sizes -/
def readLines (f : F) : List Nat → Files F → List (Call F)
  | [], _ => []
  | u1 :: us, fs =>
      let r := readLine u1 f fs
      ⟨fs, r.1, r.2⟩ :: readLines f us r.2

/-- The lines that are returned until {lit}`flag` is false -/
def linesReturned (calls : List (Call F)) : List (List Byte) :=
  (calls.takeWhile fun c => c.result.flag).map fun c => c.result.text

omit [DecidableEq F] in
theorem linesReturned_cons (c : Call F) (calls : List (Call F)) :
    linesReturned (c :: calls) =
      if c.result.flag then c.result.text :: linesReturned calls else [] := by
  rw [linesReturned, List.takeWhile_cons]
  split <;> rfl

/-! ## One call -/

/-- The characters that a call returns and the number of those that it consumes, given the
characters that are left and the room in the buffer -/
def lineOf (room : Nat) (bs : List Byte) : List Byte × Nat :=
  match segments bs with
  | [] => ([], 0)
  | s :: _ =>
      if s.text.length < room then (s.text, s.chars.length) else (s.text.take room, room)

theorem lineOf_zero (bs : List Byte) : lineOf 0 bs = ([], 0) := by
  rw [lineOf]
  split
  · rfl
  · rw [if_neg (Nat.not_lt_zero _), List.take_zero]

/-- One more character at the start of a line -/
theorem lineOf_succ {c : Byte} (hc : ¬Newline c) (room : Nat) (bs : List Byte) :
    lineOf (room + 1) (c :: bs) = (c :: (lineOf room bs).1, (lineOf room bs).2 + 1) := by
  rw [lineOf, lineOf, segments_other hc]
  cases hsegs : segments bs with
  | nil =>
      cases room with
      | zero => rfl
      | succ room => simp [Segment.push, Segment.chars]
  | cons s segs =>
      by_cases hlt : s.text.length < room
      · simp [Segment.push, Segment.chars, hlt]
      · simp [Segment.push, hlt]

/-- What the loop of a call does -/
structure LoopResult (f : F) (room : Nat) (buf : List Byte) (n : Nat) (bs : List Byte)
    (r : LineResult × Files F) : Prop where
  text : r.1.text = buf ++ (lineOf room bs).1
  flag : r.1.flag = true ↔ room = 0 ∨ buf ≠ [] ∨ bs ≠ []
  u3 : r.1.u3 = n + (lineOf room bs).2
  left : r.2.left f = bs.drop (lineOf room bs).2

theorem readLineLoop_spec (f : F) {bs : List Byte} :
    ∀ {room : Nat} {text : List Byte} {u3 : Nat} {fs : Files F}, fs.left f = bs →
      LoopResult f room text u3 bs (readLineLoop f room text u3 fs) := by
  have hfull : ∀ {bs text : List Byte} {u3 : Nat} {fs : Files F}, fs.left f = bs →
      LoopResult f 0 text u3 bs (readLineLoop f 0 text u3 fs) := by
    intro bs text u3 fs hleft
    constructor <;> simp [lineOf_zero, readLineLoop, hleft]
  induction bs using text_induction with
  | hnil =>
      intro room text u3 fs hleft
      obtain _ | room := room
      · exact hfull hleft
      obtain ⟨fs', hgetc, hleft'⟩ := Files.getc_of_left_nil hleft
      rw [readLineLoop, hgetc]
      constructor <;> simp [lineOf, segments, hleft']
  | hlf bs =>
      intro room text u3 fs hleft
      obtain _ | room := room
      · exact hfull hleft
      obtain ⟨fs', hgetc, hleft', -⟩ := Files.getc_of_left_cons hleft
      rw [readLineLoop, hgetc]
      constructor <;> simp [lineOf, segments_lf, Segment.chars, hleft']
  | hcrlf bs =>
      intro room text u3 fs hleft
      obtain _ | room := room
      · exact hfull hleft
      obtain ⟨fs', hgetc, hleft', -⟩ := Files.getc_of_left_cons hleft
      obtain ⟨fs'', hgetc', hleft'', -⟩ := Files.getc_of_left_cons hleft'
      rw [readLineLoop, hgetc]
      dsimp only
      rw [if_neg cr_ne_lf, if_pos rfl, hgetc']
      constructor <;> simp [lineOf, segments_cr_lf, Segment.chars, hleft'']
  | hcr bs hhead =>
      intro room text u3 fs hleft
      obtain _ | room := room
      · exact hfull hleft
      obtain ⟨fs', hgetc, hleft', -⟩ := Files.getc_of_left_cons hleft
      rw [readLineLoop, hgetc]
      dsimp only
      rw [if_neg cr_ne_lf, if_pos rfl]
      cases bs with
      | nil =>
          obtain ⟨fs'', hgetc', hleft''⟩ := Files.getc_of_left_nil hleft'
          rw [hgetc']
          constructor <;> simp [lineOf, segments_cr hhead, Segment.chars, hleft'']
      | cons d bs =>
          have hd : d ≠ lf := by simpa using hhead
          obtain ⟨fs'', hgetc', hleft'', hpushed⟩ := Files.getc_of_left_cons hleft'
          have hback := Files.left_gfUngetc d hpushed
          rw [hleft''] at hback
          rw [hgetc']
          dsimp only
          rw [if_pos hd]
          constructor <;> simp [lineOf, segments_cr hhead, Segment.chars, hback]
  | hother c bs hc ih =>
      intro room text u3 fs hleft
      obtain _ | room := room
      · exact hfull hleft
      obtain ⟨fs', hgetc, hleft', -⟩ := Files.getc_of_left_cons hleft
      rw [readLineLoop, hgetc]
      dsimp only
      rw [if_neg (fun h => hc (.inl h)), if_neg (fun h => hc (.inr h))]
      have hrest := @ih room (text ++ [c]) (u3 + 1) fs' hleft'
      constructor
      · rw [hrest.text, lineOf_succ hc, List.append_assoc, List.singleton_append]
      · rw [hrest.flag]
        simp
      · rw [hrest.u3, lineOf_succ hc, Nat.add_assoc, Nat.add_comm 1]
      · rw [hrest.left, lineOf_succ hc, List.drop_succ_cons]

/-- One call returns the next piece of a line, and {lit}`flag` is false at the end only. -/
theorem readLine_spec (f : F) (fs : Files F) {u1 : Nat} (hu1 : 0 < u1) :
    (readLine u1 f fs).1.text = (lineOf u1 (fs.left f)).1 ∧
      ((readLine u1 f fs).1.flag = true ↔ fs.left f ≠ []) ∧
      (readLine u1 f fs).1.u3 = (lineOf u1 (fs.left f)).2 ∧
      (readLine u1 f fs).2.left f = (fs.left f).drop (lineOf u1 (fs.left f)).2 := by
  have hspec := @readLineLoop_spec F _ f (fs.left f) u1 [] 0 (fs.gfRegetc f)
    (Files.left_gfRegetc f f fs)
  rw [readLine, if_pos hu1]
  refine ⟨hspec.text, hspec.flag.trans ?_, ?_, hspec.left⟩
  · simp [hu1.ne']
  · rw [hspec.u3, Nat.zero_add]

/-! ## Sequences of calls -/

theorem lineOf_le (room : Nat) (bs : List Byte) : (lineOf room bs).2 ≤ bs.length := by
  rw [lineOf]
  cases hsegs : segments bs with
  | nil => exact Nat.zero_le _
  | cons s segs =>
      have hjoined := (segments_separated bs).joined
      rw [hsegs, List.flatMap_cons] at hjoined
      have hlength := congrArg List.length hjoined
      rw [List.length_append] at hlength
      dsimp only
      split
      · omega
      · have hchars : s.chars.length = s.text.length + s.separator.length := List.length_append
        omega

/-- A call before the end consumes something. -/
theorem lineOf_pos {room : Nat} (hroom : 0 < room) {bs : List Byte} (hbs : bs ≠ []) :
    0 < (lineOf room bs).2 := by
  rw [lineOf]
  cases hsegs : segments bs with
  | nil => exact absurd (segments_eq_nil_iff.mp hsegs) hbs
  | cons s segs =>
      dsimp only
      split
      · have hfirst : s ∈ segments bs := by
          rw [hsegs]
          exact List.mem_cons_self
        have hne := (segments_separated bs).nonempty s hfirst
        rw [Segment.chars, List.length_append]
        by_cases hsep : s.separator = []
        · have := List.length_pos_of_ne_nil (hne hsep)
          omega
        · have := List.length_pos_of_ne_nil hsep
          omega
      · exact hroom

/-- The lines that a call leaves -/
theorem cutLines_lineOf {bs : List Byte} (hbs : bs ≠ []) (room : Nat) (ns : List Nat) :
    cutLines (segments bs) (room :: ns) =
        (lineOf room bs).1 :: cutLines (segments (bs.drop (lineOf room bs).2)) ns ∧
      linesLeft (segments bs) (room :: ns) =
        linesLeft (segments (bs.drop (lineOf room bs).2)) ns := by
  rw [lineOf]
  cases hsegs : segments bs with
  | nil => exact absurd (segments_eq_nil_iff.mp hsegs) hbs
  | cons s segs =>
      dsimp only
      by_cases hlt : s.text.length < room
      · rw [if_pos hlt, segments_drop_line hsegs, cutLines, linesLeft, if_pos hlt, if_pos hlt]
        exact ⟨rfl, rfl⟩
      · rw [if_neg hlt, segments_drop_text hsegs (Nat.le_of_not_lt hlt), cutLines, linesLeft,
          if_neg hlt, if_neg hlt]
        exact ⟨rfl, rfl⟩

variable {us : List Nat} {fs : Files F}

/-- At the end of the input -/
theorem readLines_of_left_nil {f : F} (hus : ∀ u1 ∈ us, 0 < u1) (h : fs.left f = []) :
    ∀ c ∈ readLines f us fs, c.result.flag = false ∧ c.result.u3 = 0 := by
  induction us generalizing fs with
  | nil => exact fun c hc => absurd hc List.not_mem_nil
  | cons u1 us ih =>
      obtain ⟨-, hflag, hu3, hleft⟩ := readLine_spec f fs (hus u1 List.mem_cons_self)
      rw [h] at hflag hu3 hleft
      intro c hc
      rcases List.mem_cons.mp hc with rfl | hc
      · exact ⟨by simpa using hflag, hu3⟩
      · exact ih (fun u hu => hus u (List.mem_cons_of_mem _ hu)) (by simpa using hleft) c hc

/-- Each call consumes as many characters as it says. -/
theorem readLines_consume {f : F} (hus : ∀ u1 ∈ us, 0 < u1) :
    ∀ c ∈ readLines f us fs, c.result.u3 ≤ (c.before.left f).length ∧
      c.after.left f = (c.before.left f).drop c.result.u3 := by
  induction us generalizing fs with
  | nil => exact fun c hc => absurd hc List.not_mem_nil
  | cons u1 us ih =>
      obtain ⟨-, -, hu3, hleft⟩ := readLine_spec f fs (hus u1 List.mem_cons_self)
      intro c hc
      rcases List.mem_cons.mp hc with rfl | hc
      · dsimp only
        rw [hu3, hleft]
        exact ⟨lineOf_le _ _, rfl⟩
      · exact ih (fun u hu => hus u (List.mem_cons_of_mem _ hu)) c hc

/-- The lines that a sequence of calls returns -/
theorem linesReturned_eq {f : F} (hus : ∀ u1 ∈ us, 0 < u1) (fs : Files F) :
    linesReturned (readLines f us fs) = cutLines (segments (fs.left f)) us := by
  induction us generalizing fs with
  | nil => cases segments (fs.left f) <;> rfl
  | cons u1 us ih =>
      obtain ⟨htext, hflag, -, hleft⟩ := readLine_spec f fs (hus u1 List.mem_cons_self)
      have hrest := ih (fun u hu => hus u (List.mem_cons_of_mem _ hu)) (readLine u1 f fs).2
      rw [readLines, linesReturned_cons]
      by_cases hnil : fs.left f = []
      · rw [if_neg (fun htrue => hflag.mp htrue hnil), hnil]
        rfl
      · rw [if_pos (hflag.mpr hnil), hrest, htext, (cutLines_lineOf hnil u1 us).1, hleft]

/-- The end of the input is reached when {lit}`flag` is false. -/
theorem readLines_end {f : F} (hus : ∀ u1 ∈ us, 0 < u1)
    (h : ∃ c ∈ readLines f us fs, c.result.flag = false) :
    ((readLines f us fs).map fun c => c.result.u3).sum = (fs.left f).length ∧
      linesLeft (segments (fs.left f)) us = [] := by
  induction us generalizing fs with
  | nil =>
      obtain ⟨c, hc, -⟩ := h
      exact absurd hc List.not_mem_nil
  | cons u1 us ih =>
      obtain ⟨-, hflag, hu3, hleft⟩ := readLine_spec f fs (hus u1 List.mem_cons_self)
      have hus' : ∀ u ∈ us, 0 < u := fun u hu => hus u (List.mem_cons_of_mem _ hu)
      by_cases hnil : fs.left f = []
      · have hzero := readLines_of_left_nil hus hnil
        rw [hnil]
        refine ⟨List.sum_eq_zero ?_, rfl⟩
        intro n hn
        obtain ⟨c, hc, rfl⟩ := List.mem_map.mp hn
        exact (hzero c hc).2
      · obtain ⟨c, hc, hfalse⟩ := h
        have hrest : c ∈ readLines f us (readLine u1 f fs).2 := by
          rcases List.mem_cons.mp hc with rfl | hc
          · rw [hflag.mpr hnil] at hfalse
            cases hfalse
          · exact hc
        obtain ⟨hsum, hlines⟩ := ih hus' ⟨c, hrest, hfalse⟩
        rw [hleft] at hsum hlines
        have hle := lineOf_le u1 (fs.left f)
        refine ⟨?_, by rw [(cutLines_lineOf hnil u1 us).2, hlines]⟩
        rw [readLines, List.map_cons, List.sum_cons, hsum, hu3, List.length_drop]
        omega

/-- Calls come to the end. -/
theorem readLines_ends {f : F} (hus : ∀ u1 ∈ us, 0 < u1) (h : (fs.left f).length < us.length) :
    ∃ c ∈ readLines f us fs, c.result.flag = false := by
  induction us generalizing fs with
  | nil => exact absurd h (Nat.not_lt_zero _)
  | cons u1 us ih =>
      have hu1 := hus u1 List.mem_cons_self
      obtain ⟨-, hflag, -, hleft⟩ := readLine_spec f fs hu1
      rw [readLines]
      by_cases hnil : fs.left f = []
      · exact ⟨_, List.mem_cons_self, by simpa [hnil] using hflag⟩
      · have hpos := lineOf_pos hu1 hnil
        have hlen := List.length_pos_of_ne_nil hnil
        have hlt : ((readLine u1 f fs).2.left f).length < us.length := by
          rw [hleft, List.length_drop]
          rw [List.length_cons] at h
          omega
        obtain ⟨c, hc, hfalse⟩ := ih (fun u hu => hus u (List.mem_cons_of_mem _ hu)) hlt
        exact ⟨c, List.mem_cons_of_mem _ hc, hfalse⟩

/-- A sequence of calls with buffers that are not empty, on a stream with any characters left:
it returns the lines between the newlines in pieces that fill their buffers except for the last one
of each line, {lit}`u3` counts what a call consumes, and when {lit}`flag` is false, as it will be,
all characters have been consumed and all pieces returned. -/
theorem readLines_faithful (f : F) (bs : List Byte) (us : List Nat) (hus : ∀ u1 ∈ us, 0 < u1)
    (fs : Files F) (hleft : fs.left f = bs) :
    Separated bs (segments bs) ∧
      linesReturned (readLines f us fs) = cutLines (segments bs) us ∧
      (∀ c ∈ readLines f us fs, c.result.u3 ≤ (c.before.left f).length ∧
        c.after.left f = (c.before.left f).drop c.result.u3) ∧
      ((∃ c ∈ readLines f us fs, c.result.flag = false) →
        ((readLines f us fs).map fun c => c.result.u3).sum = bs.length ∧
          (linesReturned (readLines f us fs)).flatten = (segments bs).flatMap Segment.text) ∧
      (bs.length < us.length → ∃ c ∈ readLines f us fs, c.result.flag = false) := by
  subst hleft
  have hlines := linesReturned_eq hus fs (f := f)
  refine ⟨segments_separated _, hlines, readLines_consume hus, fun hend => ?_, readLines_ends hus⟩
  obtain ⟨hsum, hnone⟩ := readLines_end hus hend
  have hflatten := flatten_cutLines (segments (fs.left f)) us
  rw [hnone, List.flatMap_nil, List.append_nil] at hflatten
  exact ⟨hsum, by rw [hlines, hflatten]⟩

/-- A CR LF behind one character, and a CR in front of another one, with short buffers -/
theorem readLines_faithful_cr :
    linesReturned (readLines 0 [2, 1, 1, 3, 3, 3]
        (Files.initial.openFile 0 [0x61#8, cr, lf, 0x62#8, 0x63#8, cr, 0x64#8])) =
      [[0x61#8], [0x62#8], [0x63#8], [], [0x64#8]] :=
  (readLines_faithful 0 [0x61#8, cr, lf, 0x62#8, 0x63#8, cr, 0x64#8] [2, 1, 1, 3, 3, 3] (by decide)
    _ (Files.left_openFile _ _ _)).2.1.trans (by decide)

end Streams
end Gforth
