import Gforth.History.Lines
import Mathlib.Data.List.GetD

/-!
# Moving in the history file

The previous line is found by going back by the size of the buffer and reading pieces of lines until
the old position is met.  The words keep the positions of the line that is shown and of the next one.

Main results:

- Theorem {lit}`prevLine_spec`, {lit}`nextLine_spec` and {lit}`writeHistory_spec`: one step.
- Theorem {lit}`navigation_right`: a run shows the lines of a cursor in a list of lines.
-/

namespace Gforth
namespace History

open Lib
open Streams

variable {F H : Type} [DecidableEq F] [DecidableEq H]

/-! ## The words -/

/-- {lit}`history`, the positions {lit}`forward^`, {lit}`backward^` and {lit}`end^`, and
{lit}`lastline#` -/
structure Hist (F H : Type) where
  files : Files F
  history : Option F
  forward : Nat
  backward : Nat
  endPos : Nat
  lastline : H

/-- {lit}`hist-pos` -/
def histPos (h : Hist F H) : Nat :=
  match h.history with
  | some f => filePosition f h.files
  | none => h.backward

/-- {lit}`hist-setpos` -/
def histSetpos (pos : Nat) (h : Hist F H) : Hist F H :=
  match h.history with
  | some f => { h with files := repositionFile pos f h.files }
  | none => h

/-- {lit}`get-line`: the characters in the buffer, and the flag -/
def getLine (max : Nat) (h : Hist F H) : (List Byte × Bool) × Hist F H :=
  match h.history with
  | some f =>
      let r := readLine max f h.files
      ((r.1.text, r.1.flag), { h with files := r.2 })
  | none => (([], false), h)

/-- {lit}`next-line`, with the characters that are shown -/
def nextLine (max : Nat) (h : Hist F H) : List Byte × Hist F H :=
  let h := { histSetpos h.forward h with backward := h.forward }
  let r := getLine max h
  (r.1.1, { r.2 with forward := histPos r.2 })

/-- The loop of {lit}`find-prev-line` -/
def findPrevLoop (max : Nat) : Nat → Nat → Hist F H → Option (List Byte × Hist F H)
  | 0, _, _ => none
  | fuel + 1, pos, h =>
      let r := getLine max { h with backward := pos }
      if r.1.2 then
        if histPos r.2 < r.2.forward then findPrevLoop max fuel (histPos r.2) r.2
        else some (r.1.1, r.2)
      else some (r.1.1, r.2)

/-- {lit}`prev-line`, with the characters that are shown -/
def prevLine (fuel max : Nat) (h : Hist F H) : Option (List Byte × Hist F H) :=
  let pos := h.backward - (max + 2)
  findPrevLoop max fuel pos (histSetpos pos { h with forward := h.backward })

/-- {lit}`write-line` -/
def writeLine (line : List Byte) (f : F) (fs : Files F) : Files F :=
  fs.onStream f fun s =>
    ⟨writeAt 0#8 s.contents s.position (line ++ [lf]), s.position + (line.length + 1), none⟩

/-- Nothing is left by {lit}`-trailing`. -/
def IsBlank (line : List Byte) : Prop :=
  ∀ c ∈ line, c = 0x20#8

instance (line : List Byte) : Decidable (IsBlank line) :=
  inferInstanceAs (Decidable (∀ c ∈ line, c = 0x20#8))

/-- {lit}`write-history`, with {lit}`hashkey2` -/
def writeHistory (hash : List Byte → H) (line : List Byte) (h : Hist F H) : Hist F H :=
  if IsBlank line then h
  else if hash line ≠ h.lastline then
    let h := histSetpos h.endPos { h with lastline := hash line }
    let h := match h.history with
      | some f => { h with files := writeLine line f h.files }
      | none => h
    { h with backward := histPos h, endPos := histPos h }
  else { h with backward := histPos h, endPos := histPos h }

/-- {lit}`get-history` of a file that can be opened -/
def getHistory (f : F) (content : List Byte) (fs : Files F) (lastline : H) : Hist F H :=
  ⟨fs.openFile f content, some f, content.length, content.length, content.length, lastline⟩

/-! ## Runs -/

/-- What the user does -/
inductive Op where
  | prev
  | next
  | write (line : List Byte)

/-- One step, with what it shows -/
inductive Step (hash : List Byte → H) (max : Nat) :
    Op → Hist F H → Option (List Byte) → Hist F H → Prop
  | prev {fuel : Nat} {h h' : Hist F H} {text : List Byte}
      (hprev : prevLine fuel max h = some (text, h')) : Step hash max .prev h (some text) h'
  | next (h : Hist F H) :
      Step hash max .next h (some (nextLine max h).1) (nextLine max h).2
  | write (line : List Byte) (h : Hist F H) :
      Step hash max (.write line) h none (writeHistory hash line h)

/-- A list of lines, and the number of the lines in front of the one that is shown; at the end none
is. -/
structure Cursor where
  lines : List (List Byte)
  index : Nat
deriving DecidableEq

namespace Cursor

/-- What a step shows, and the cursor after it -/
def step : Op → Cursor → Option (List Byte) × Cursor
  | .prev, a => (some (a.lines.getD (a.index - 1) []), ⟨a.lines, a.index - 1⟩)
  | .next, a => (some (a.lines.getD (a.index + 1) []), ⟨a.lines, min (a.index + 1) a.lines.length⟩)
  | .write line, a => (none, ⟨a.lines ++ [line], a.lines.length + 1⟩)

/-- Some times {lit}`prev-line` -/
def prevs : Nat → Cursor → Cursor
  | 0, a => a
  | k + 1, a => (step .prev (prevs k a)).2

/-- Going back some lines stops at the first one. -/
theorem prevs_eq (k : Nat) (a : Cursor) : prevs k a = ⟨a.lines, a.index - k⟩ := by
  induction k with
  | zero => rfl
  | succ k ih =>
    rw [prevs, ih]
    exact congrArg _ (Nat.sub_sub _ _ _)

end Cursor

/-- A line that is written is new, not blank, and not longer than the buffer. -/
def Op.Admissible (hash : List Byte → H) (max : Nat) (h : Hist F H) : Op → Prop
  | .prev | .next => True
  | .write line =>
      IsLine line ∧ line.length ≤ max ∧ ¬IsBlank line ∧ hash line ≠ h.lastline

/-- {lit}`next-line` can stand behind a step: behind {lit}`prev-line` unless this was at the first
line, and behind {lit}`next-line` if this showed a line that does not fill the buffer.  Nothing is said
about {lit}`next-line` directly behind {lit}`write-history`. -/
def Op.Leads (max : Nat) (a : Cursor) : Op → Prop
  | .prev => a.index ≠ 0
  | .next => (a.lines.getD (a.index + 1) []).length < max
  | .write _ => False

/-- The condition on a step at a cursor, by the lines that are shown and the step before it, with the
cursor where this was made -/
def Op.Fits (max : Nat) (before : Option (Op × Cursor)) (a : Cursor) : Op → Prop
  | .prev => a.index = 0 ∨ (a.lines.getD (a.index - 1) []).length < max
  | .next => ∀ step ∈ before, step.1.Leads max step.2
  | .write _ => True

/-- The steps of a run show the lines of a cursor, as long as a condition holds in front of them. -/
def Right (hash : List Byte → H) (max : Nat)
    (cond : Option (Op × Cursor) → Cursor → Op → Prop) :
    List Op → Option (Op × Cursor) → Hist F H → Cursor → Prop
  | [], _, _, _ => True
  | op :: ops, before, h, a =>
      op.Admissible hash max h → cond before a op →
        ∃ h', Step hash max op h (a.step op).1 h' ∧
          Right hash max cond ops (some (op, a)) h' (a.step op).2

/-! ## States -/

/-- The state of a cursor -/
structure Represents (f : F) (max : Nat) (h : Hist F H) (a : Cursor) : Prop where
  history : h.history = some f
  files : ∃ p, AtPosition f (contents a.lines) p h.files
  backward : h.backward = start a.lines a.index
  endPos : h.endPos = (contents a.lines).length
  index_le : a.index ≤ a.lines.length
  isLine : ∀ l ∈ a.lines, IsLine l ∧ l.length ≤ max

variable {f : F} {max : Nat} {h : Hist F H} {a : Cursor} {content : List Byte} {p : Nat}

omit [DecidableEq F] [DecidableEq H] in
theorem histPos_eq (hf : h.history = some f) (hp : AtPosition f content p h.files) :
    histPos h = p := by
  rw [histPos, hf]
  exact hp.filePosition

omit [DecidableEq H] in
theorem histSetpos_eq (hf : h.history = some f) (pos : Nat) :
    histSetpos pos h = { h with files := repositionFile pos f h.files } := by
  rw [histSetpos, hf]

omit [DecidableEq H] in
theorem getLine_eq (hf : h.history = some f) (max : Nat) :
    getLine max h =
      (((readLine max f h.files).1.text, (readLine max f h.files).1.flag),
        { h with files := (readLine max f h.files).2 }) := by
  rw [getLine, hf]

/-! ## Reading -/

omit [DecidableEq H] in
/-- Reading a piece of a line -/
theorem getLine_spec (hf : h.history = some f) (hp : AtPosition f content p h.files) (max : Nat) :
    ∃ fs', (getLine max h).2 = { h with files := fs' } ∧
      (getLine max h).1.1 = (lineOf max (content.drop p)).1 ∧
      ((getLine max h).1.2 = true ↔ max = 0 ∨ p < content.length) ∧
      AtPosition f content (p + (lineOf max (content.drop p)).2) fs' ∧
      histPos (getLine max h).2 = p + (lineOf max (content.drop p)).2 := by
  obtain ⟨htext, hflag, hat⟩ := hp.readLine max
  rw [getLine_eq hf]
  exact ⟨_, rfl, htext, hflag, hat, histPos_eq hf hat⟩

variable {lines : List (List Byte)} {hash : List Byte → H}

/-- What reading at the start of a line gives -/
theorem lineOf_start {j : Nat} (hj : j < lines.length) (hl : IsLine lines[j]) (max : Nat) :
    lineOf max ((contents lines).drop (start lines j)) =
      if lines[j].length < max then (lines[j], lines[j].length + 1)
      else (lines[j].take max, max) := by
  rw [drop_start_of_lt hj, lineOf_line hl]

/-- The text is the line even where it fills the buffer. -/
theorem lineOf_start_text (hlines : ∀ l ∈ lines, IsLine l ∧ l.length ≤ max) (j : Nat) :
    (lineOf max ((contents lines).drop (start lines j))).1 = lines.getD j [] := by
  by_cases hj : j < lines.length
  · obtain ⟨hl, hle⟩ := hlines _ (List.getElem_mem hj)
    rw [lineOf_start hj hl, List.getD_eq_getElem _ _ hj]
    split
    · rfl
    · exact List.take_of_length_le hle
  · rw [drop_start, List.drop_eq_nil_of_le (Nat.le_of_not_lt hj),
      List.getD_eq_default _ _ (Nat.le_of_not_lt hj)]
    rfl

theorem start_lt {j : Nat} (hj : j < lines.length) : start lines j < start lines (j + 1) := by
  rw [start_succ hj]
  omega

/-! ## prev-line -/

omit [DecidableEq H] in
/-- The loop meets the start of the line that ends at the old position. -/
theorem findPrevLoop_spec {j : Nat} (hj : j < lines.length) (hl : IsLine lines[j])
    (hmax : lines[j].length < max) (hf : h.history = some f)
    (hforward : h.forward = start lines (j + 1)) (hp : AtPosition f (contents lines) p h.files)
    (hle : p ≤ start lines j) :
    ∃ fuel fs', findPrevLoop max fuel p h =
        some (lines[j], { h with files := fs', backward := start lines j }) ∧
      ∃ p', AtPosition f (contents lines) p' fs' := by
  -- each piece ends at the start of the line or in front of it
  induction hn : start lines j - p using Nat.strong_induction_on generalizing p h with
  | _ n ih =>
  have hend := (start_lt hj).trans_le (start_le lines (j + 1))
  obtain ⟨fs', hget, htext, hflag, hat, hpos⟩ :=
    getLine_spec (h := { h with backward := p }) hf hp max
  have htrue := hflag.2 (.inr (hle.trans_lt hend))
  rcases hle.eq_or_lt with rfl | hlt
  · rw [lineOf_start hj hl, if_pos hmax] at htext hpos
    rw [hget] at hpos
    refine ⟨1, fs', ?_, _, hat⟩
    rw [findPrevLoop, htrue, if_pos rfl, hget, hpos, if_neg, htext]
    show ¬_ < h.forward
    rw [hforward, start_succ hj]
    omega
  · obtain ⟨i, rfl⟩ : ∃ i, j = i + 1 := by
      refine Nat.exists_eq_succ_of_ne_zero fun h0 => ?_
      rw [h0, start_zero] at hlt
      exact Nat.not_lt_zero _ hlt
    have hlf : ((contents lines).drop p)[start lines (i + 1) - 1 - p]? = some lf := by
      rw [List.getElem?_drop, show p + (start lines (i + 1) - 1 - p) = start lines (i + 1) - 1 by
        omega]
      exact getElem?_start (Nat.lt_of_succ_lt hj)
    have hstop := lineOf_le_of_lf max hlf
    have hmore := @lineOf_pos max (Nat.zero_lt_of_lt hmax) ((contents lines).drop p)
      (List.drop_eq_nil_iff.not.2 (Nat.not_le.2 (hle.trans_lt hend)))
    obtain ⟨fuel, fs'', hloop, hat'⟩ := ih _ (by omega)
      (h := { h with files := fs', backward := p }) hf hforward hat (by omega) rfl
    refine ⟨fuel + 1, fs'', ?_, hat'⟩
    rw [hget] at hpos
    rw [findPrevLoop, htrue, if_pos rfl, hget, hpos, if_pos, hloop]
    show _ < h.forward
    rw [hforward]
    have := start_lt hj
    omega

omit [DecidableEq H] in
/-- The loop stops at once where the old position is the start of the file. -/
theorem findPrevLoop_zero (hf : h.history = some f) (hforward : h.forward = 0)
    (hp : AtPosition f content p h.files) :
    ∃ fs', findPrevLoop max 1 p h =
        some ((lineOf max (content.drop p)).1, { h with files := fs', backward := p }) ∧
      ∃ p', AtPosition f content p' fs' := by
  obtain ⟨fs', hget, htext, -, hat, -⟩ := getLine_spec (h := { h with backward := p }) hf hp max
  refine ⟨fs', ?_, _, hat⟩
  rw [findPrevLoop, hget, htext]
  split
  · rw [if_neg]
    show ¬_ < h.forward
    rw [hforward]
    exact Nat.not_lt_zero _
  · rfl

omit [DecidableEq H] in
/-- The line in front of the one shown last; at the first line, this one again -/
theorem prevLine_spec (hr : Represents f max h a)
    (hfits : a.index = 0 ∨ (a.lines.getD (a.index - 1) []).length < max) :
    ∃ fuel h', prevLine fuel max h = some (a.lines.getD (a.index - 1) [], h') ∧
      h'.forward = h.backward ∧ Represents f max h' ⟨a.lines, a.index - 1⟩ := by
  obtain ⟨p, hp⟩ := hr.files
  have hback := hr.backward
  have hwindow : AtPosition f (contents a.lines) (h.backward - (max + 2))
      (repositionFile (h.backward - (max + 2)) f h.files) :=
    hp.repositionFile (by
      have := start_le a.lines a.index
      omega)
  cases hindex : a.index with
  | zero =>
    rw [hindex, start_zero] at hback
    rw [hback, Nat.zero_sub] at hwindow
    obtain ⟨fs', hloop, hat⟩ := @findPrevLoop_zero F H _ _ max
      { h with forward := h.backward, files := repositionFile 0 f h.files } _ _
      hr.history hback hwindow
    have htext := lineOf_start_text hr.isLine 0
    rw [start_zero, List.drop_zero] at htext
    rw [List.drop_zero, htext] at hloop
    have hprev : prevLine 1 max h = findPrevLoop max 1 0
        { h with forward := h.backward, files := repositionFile 0 f h.files } := by
      rw [prevLine, histSetpos_eq (h := { h with forward := h.backward }) hr.history, hback,
        Nat.zero_sub]
    exact ⟨1, _, hprev.trans hloop, rfl, hr.history, hat, start_zero.symm, hr.endPos, Nat.zero_le _,
      hr.isLine⟩
  | succ j =>
    have hj : j < a.lines.length := by
      have := hr.index_le
      omega
    rw [hindex, Nat.add_sub_cancel, List.getD_eq_getElem _ _ hj] at hfits
    have hmax := hfits.resolve_left (Nat.succ_ne_zero j)
    obtain ⟨hl, -⟩ := hr.isLine _ (List.getElem_mem hj)
    rw [hindex] at hback
    have hle : h.backward - (max + 2) ≤ start a.lines j := by
      rw [hback, start_succ hj]
      omega
    obtain ⟨fuel, fs', hloop, hat⟩ := findPrevLoop_spec
      (h := { h with forward := h.backward,
                     files := repositionFile (h.backward - (max + 2)) f h.files })
      hj hl hmax hr.history hback hwindow hle
    rw [Nat.add_sub_cancel, List.getD_eq_getElem _ _ hj]
    have hprev : prevLine fuel max h = findPrevLoop max fuel (h.backward - (max + 2))
        { h with forward := h.backward,
                 files := repositionFile (h.backward - (max + 2)) f h.files } := by
      rw [prevLine, histSetpos_eq (h := { h with forward := h.backward }) hr.history]
    exact ⟨fuel, _, hprev.trans hloop, rfl, hr.history, hat, rfl, hr.endPos, hj.le, hr.isLine⟩

/-! ## next-line -/

theorem start_min (lines : List (List Byte)) (j : Nat) :
    start lines (min j lines.length) = start lines j := by
  rw [start, start, ← List.take_eq_take_min]

omit [DecidableEq H] in
/-- The line at {lit}`forward^` -/
theorem nextLine_spec (hr : Represents f max h a) (hforward : h.forward = start a.lines (a.index + 1)) :
    (nextLine max h).1 = a.lines.getD (a.index + 1) [] ∧
      Represents f max (nextLine max h).2 ⟨a.lines, min (a.index + 1) a.lines.length⟩ ∧
      ((a.lines.getD (a.index + 1) []).length < max →
        (nextLine max h).2.forward = start a.lines (a.index + 2)) := by
  obtain ⟨p, hp⟩ := hr.files
  have hat : AtPosition f (contents a.lines) h.forward (repositionFile h.forward f h.files) :=
    hp.repositionFile (hforward ▸ start_le _ _)
  obtain ⟨fs', hget, htext, -, hat', hpos⟩ := getLine_spec
    (h := { h with files := repositionFile h.forward f h.files, backward := h.forward })
    hr.history hat max
  rw [hforward] at hat' hpos htext hget
  rw [lineOf_start_text hr.isLine] at htext
  rw [nextLine, histSetpos_eq hr.history, hforward]
  refine ⟨htext, ?_, fun hlt => ?_⟩
  · rw [hget]
    exact ⟨hr.history, ⟨_, hat'⟩, (start_min _ _).symm, hr.endPos, Nat.min_le_right _ _, hr.isLine⟩
  · refine hpos.trans ?_
    by_cases hj : a.index + 1 < a.lines.length
    · rw [List.getD_eq_getElem _ _ hj] at hlt
      rw [lineOf_start hj (hr.isLine _ (List.getElem_mem hj)).1, if_pos hlt, start_succ hj,
        Nat.add_assoc]
    · have hge := Nat.le_of_not_lt hj
      rw [drop_start, List.drop_eq_nil_of_le hge, ← start_min a.lines (a.index + 2),
        ← start_min a.lines (a.index + 1), Nat.min_eq_right hge,
        Nat.min_eq_right (hge.trans (Nat.le_succ _))]
      rfl

/-! ## write-history -/

/-- A new line at the end -/
theorem contents_concat (lines : List (List Byte)) (line : List Byte) :
    contents (lines ++ [line]) = contents lines ++ (line ++ [lf]) := by
  rw [contents_append, contents_cons]
  rfl

/-- Writing at the end appends. -/
theorem writeAt_length (content data : List Byte) :
    writeAt 0#8 content content.length data = content ++ data := by
  rw [writeAt, Nat.sub_self, List.replicate_zero, List.append_nil, List.take_length,
    List.drop_eq_nil_of_le (Nat.le_add_right _ _), List.append_nil]

/-- Writing a line at the end -/
theorem AtPosition.writeLine {fs : Files F} (hp : AtPosition f (contents lines) p fs)
    (line : List Byte) :
    AtPosition f (contents (lines ++ [line])) (contents (lines ++ [line])).length
      (History.writeLine line f (History.repositionFile (contents lines).length f fs)) := by
  obtain ⟨s, hs, -, hcontents, -⟩ := hp
  refine ⟨⟨contents (lines ++ [line]), (contents (lines ++ [line])).length, none⟩, ?_,
    ⟨le_refl _, fun _ hc => by cases hc⟩, rfl, rfl⟩
  rw [History.writeLine, History.repositionFile, Files.onStream, Files.onStream]
  dsimp only
  rw [Function.update_self, Function.update_self, hs]
  show some _ = some _
  rw [Stream.fseeko]
  dsimp only
  rw [hcontents, writeAt_length, contents_concat, List.length_append,
    @List.length_append _ line]
  rfl

/-- A new line that is not blank is written behind the others. -/
theorem writeHistory_spec {line : List Byte} (hr : Represents f max h a) (hline : IsLine line)
    (hle : line.length ≤ max) (hblank : ¬IsBlank line) (hnew : hash line ≠ h.lastline) :
    Represents f max (writeHistory hash line h) ⟨a.lines ++ [line], a.lines.length + 1⟩ := by
  obtain ⟨p, hp⟩ := hr.files
  have hat := hp.writeLine line
  rw [writeHistory, if_neg hblank, if_pos hnew,
    histSetpos_eq (h := { h with lastline := hash line }) hr.history, hr.endPos]
  simp only [hr.history]
  have hstart := @start_length (a.lines ++ [line])
  rw [List.length_append, List.length_singleton] at hstart
  refine ⟨rfl, ⟨_, hat⟩, ?_, ?_, ?_, ?_⟩
  · dsimp only
    rw [histPos_eq rfl hat, hstart]
  · dsimp only
    rw [histPos_eq rfl hat]
  · rw [List.length_append]
    exact le_refl _
  · intro l hmem
    rcases List.mem_append.1 hmem with hmem | hmem
    · exact hr.isLine l hmem
    · rw [List.mem_singleton.1 hmem]
      exact ⟨hline, hle⟩

/-! ## Runs of the words -/

omit [DecidableEq H] in
/-- A longer search finds the same line. -/
theorem findPrevLoop_succ {fuel : Nat} {r : List Byte × Hist F H}
    (hloop : findPrevLoop max fuel p h = some r) : findPrevLoop max (fuel + 1) p h = some r := by
  induction fuel generalizing p h with
  | zero => cases hloop
  | succ fuel ih =>
    rw [findPrevLoop] at hloop ⊢
    split at hloop
    · rw [if_pos ‹_›]
      split at hloop
      · rw [if_pos ‹_›, ih hloop]
      · rw [if_neg ‹_›, hloop]
    · rw [if_neg ‹_›, hloop]

omit [DecidableEq H] in
/-- Searches find one line only. -/
theorem findPrevLoop_unique {fuel fuel' : Nat} {r r' : List Byte × Hist F H}
    (hloop : findPrevLoop max fuel p h = some r) (hloop' : findPrevLoop max fuel' p h = some r') :
    r = r' := by
  wlog hle : fuel ≤ fuel' generalizing fuel fuel' r r'
  · exact (this hloop' hloop (Nat.le_of_not_le hle)).symm
  have hmore : ∀ k, findPrevLoop max (fuel + k) p h = some r := fun k => by
    induction k with
    | zero => exact hloop
    | succ k ih => exact findPrevLoop_succ ih
  rw [← Nat.add_sub_of_le hle, hmore] at hloop'
  exact Option.some_inj.1 hloop'

/-- A step has one result. -/
theorem Step.unique {op : Op} {shown shown' : Option (List Byte)} {h' h'' : Hist F H}
    (hstep : Step hash max op h shown h') (hstep' : Step hash max op h shown' h'') :
    shown = shown' ∧ h' = h'' := by
  cases hstep with
  | prev hprev =>
    cases hstep' with
    | prev hprev' =>
      cases findPrevLoop_unique hprev hprev'
      exact ⟨rfl, rfl⟩
  | next | write =>
    cases hstep'
    exact ⟨rfl, rfl⟩

/-- Behind a step that leads there, {lit}`forward^` is where the line behind the one shown last
starts. -/
def Ready (max : Nat) (before : Option (Op × Cursor)) (h : Hist F H) (a : Cursor) : Prop :=
  (∀ step ∈ before, step.1.Leads max step.2) → h.forward = start a.lines (a.index + 1)

/-- A step that fits shows the line of the cursor, and keeps {lit}`forward^` right. -/
theorem Represents.step {op : Op} {before : Option (Op × Cursor)} (hr : Represents f max h a)
    (hready : Ready max before h a) (hadmissible : op.Admissible hash max h)
    (hfits : op.Fits max before a) :
    ∃ h', Step hash max op h (a.step op).1 h' ∧ Represents f max h' (a.step op).2 ∧
      Ready max (some (op, a)) h' (a.step op).2 := by
  cases op with
  | prev =>
    obtain ⟨fuel, h', hprev, hforward, hr'⟩ := prevLine_spec hr hfits
    refine ⟨h', .prev hprev, hr', fun hleads => ?_⟩
    have hindex : a.index ≠ 0 := hleads _ rfl
    show h'.forward = start a.lines (a.index - 1 + 1)
    rw [hforward, hr.backward, Nat.sub_add_cancel (Nat.pos_of_ne_zero hindex)]
  | next =>
    obtain ⟨hshown, hr', hforward⟩ := nextLine_spec hr (hready hfits)
    refine ⟨_, by rw [Cursor.step, ← hshown]; exact .next h, hr', fun hleads => ?_⟩
    show (nextLine max h).2.forward = start a.lines (min (a.index + 1) a.lines.length + 1)
    rw [hforward (hleads _ rfl), ← start_min a.lines (a.index + 2), ← start_min a.lines (_ + 1)]
    congr 1
    omega
  | write line =>
    obtain ⟨hline, hle, hblank, hnew⟩ := hadmissible
    exact ⟨_, .write line h, writeHistory_spec hr hline hle hblank hnew,
      fun hleads => (hleads _ rfl).elim⟩

/-- The steps of a run that fit show the lines of the cursor. -/
theorem Represents.right {before : Option (Op × Cursor)} (hr : Represents f max h a)
    (hready : Ready max before h a) (ops : List Op) :
    Right hash max (Op.Fits max) ops before h a := by
  induction ops generalizing before h a with
  | nil => trivial
  | cons op ops ih =>
    intro hadmissible hfits
    obtain ⟨h', hstep, hr', hready'⟩ := hr.step hready hadmissible hfits
    exact ⟨h', hstep, ih hr' hready'⟩

omit [DecidableEq H] in
/-- An opened history file shows no line yet. -/
theorem represents_getHistory (hlines : ∀ l ∈ lines, IsLine l ∧ l.length ≤ max) (fs : Files F)
    (lastline : H) :
    Represents f max (getHistory f (contents lines) fs lastline) ⟨lines, lines.length⟩ where
  history := rfl
  files := ⟨0, _, Function.update_self _ _ _, Stream.opened_placed _, rfl, rfl⟩
  backward := start_length.symm
  endPos := rfl
  index_le := le_refl _
  isLine := hlines

omit [DecidableEq H] in
/-- At the end of a file, {lit}`forward^` is its end. -/
theorem ready_getHistory (lines : List (List Byte)) (fs : Files F) (lastline : H) :
    Ready max none (getHistory f (contents lines) fs lastline) ⟨lines, lines.length⟩ := by
  intro _
  show (contents lines).length = start lines (lines.length + 1)
  rw [← start_min lines (lines.length + 1), Nat.min_eq_right (Nat.le_succ _), start_length]

/-- From the end of a history file, the steps that fit show the lines of the cursor: the lines from
the end for {lit}`prev-line`, and the line that was written last after {lit}`write-history`. -/
theorem navigation_right (hash : List Byte → H) (f : F) (fs : Files F) (lastline : H)
    {lines : List (List Byte)} {max : Nat} (hlines : ∀ l ∈ lines, IsLine l ∧ l.length ≤ max)
    (ops : List Op) :
    Right hash max (Op.Fits max) ops none
        (getHistory f (contents lines) fs lastline) ⟨lines, lines.length⟩ ∧
      (∀ k, Cursor.prevs k ⟨lines, lines.length⟩ = ⟨lines, lines.length - k⟩) ∧
      ∀ (a : Cursor) (line : List Byte),
        ((a.step (.write line)).2.step .prev).1 = some line := by
  refine ⟨(represents_getHistory hlines fs lastline).right (ready_getHistory lines fs lastline) ops,
    fun k => Cursor.prevs_eq k _, fun a line => ?_⟩
  show some ((a.lines ++ [line]).getD (a.lines.length + 1 - 1) []) = some line
  rw [Nat.add_sub_cancel, List.getD_append_right _ _ _ _ (le_refl _), Nat.sub_self]
  rfl

/-- Up to the first one of two lines and back -/
theorem navigation_right_two_lines :
    (∀ l ∈ [[0x61#8], [0x62#8]], IsLine l ∧ l.length ≤ 2) ∧
      Right id 2 (Op.Fits 2) [.prev, .prev, .next, .next, .prev] none
        (getHistory 0 (contents [[0x61#8], [0x62#8]]) Files.initial [])
        ⟨[[0x61#8], [0x62#8]], 2⟩ :=
  have hlines : ∀ l ∈ [[0x61#8], [0x62#8]], IsLine l ∧ l.length ≤ 2 := by decide
  ⟨hlines, (navigation_right id 0 Files.initial [] hlines _).1⟩

theorem Step.prev_unique {shown : Option (List Byte)} {h' : Hist F H} {fuel : Nat}
    {r : List Byte × Hist F H} (hstep : Step hash max .prev h shown h')
    (hprev : prevLine fuel max h = some r) : shown = some r.1 ∧ h' = r.2 :=
  hstep.unique (.prev hprev)

/-- At the first line, {lit}`prev-line` leaves {lit}`forward^` at this line, which {lit}`next-line`
shows again; and a line that fills the buffer is shown as an empty one. -/
theorem not_navigation_right :
    ¬Right id 2 (fun _ _ _ => True) [.prev, .prev, .prev, .next] none
        (getHistory 0 (contents [[0x61#8], [0x62#8]]) Files.initial [])
        ⟨[[0x61#8], [0x62#8]], 2⟩ ∧
      ¬Right id 2 (fun _ _ _ => True) [.prev] none
        (getHistory 0 (contents [[0x61#8, 0x62#8]]) Files.initial []) ⟨[[0x61#8, 0x62#8]], 1⟩ := by
  constructor
  · intro hright
    obtain ⟨h₁, hstep₁, hright⟩ := hright trivial trivial
    obtain ⟨-, rfl⟩ := hstep₁.prev_unique (show prevLine 9 2 _ = some _ from rfl)
    obtain ⟨h₂, hstep₂, hright⟩ := hright trivial trivial
    obtain ⟨-, rfl⟩ := hstep₂.prev_unique (show prevLine 9 2 _ = some _ from rfl)
    obtain ⟨h₃, hstep₃, hright⟩ := hright trivial trivial
    obtain ⟨-, rfl⟩ := hstep₃.prev_unique (show prevLine 9 2 _ = some _ from rfl)
    obtain ⟨h₄, hstep₄, -⟩ := hright trivial trivial
    obtain ⟨hshown, -⟩ := hstep₄.unique (.next _)
    exact absurd hshown (by decide)
  · intro hright
    obtain ⟨h₁, hstep₁, -⟩ := hright trivial trivial
    obtain ⟨hshown, -⟩ := hstep₁.prev_unique (show prevLine 9 2 _ = some _ from rfl)
    exact absurd hshown (by decide)

end History
end Gforth
