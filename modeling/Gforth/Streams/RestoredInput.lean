import Gforth.Streams.SavedInput

/-!
# What restoring the input source gives

A source that has not been moved finds its line again: the terminal and {lit}`evaluate` as long as
no other line has been read, and a file from the position in front of the line.  When
{lit}`restore-input` fails, one of the saved items stays on the stack.

Main results:

- Theorem {lit}`Valid.run`: the invariant of the input blocks.
- Theorem {lit}`Later.run`: what happens to a source until the sources in it have ended.
- Theorem {lit}`restoreInput_iff`: {lit}`restore-input` works if it does not fail.
-/

namespace Gforth
namespace Streams

open Lib

variable {F : Type} [DecidableEq F]
variable {null f : F} {st st' : Input F} {e e' : Source F} {outer : List (Nat × Source F)} {a : Nat}
variable {fs fs' : Files F}

/-! ## The innermost block -/

/-- The current block is the innermost one, and blocks have different addresses. -/
structure Head (st : Input F) (e : Source F) (outer : List (Nat × Source F)) : Prop where
  blocks : st.blocks = (st.currentInput, e) :: outer
  nodup : (st.blocks.map Prod.fst).Nodup

section Head

omit [DecidableEq F]

theorem Head.current (h : Head st e outer) : st.current = some e := by
  rw [Input.current, h.blocks, List.lookup_cons, beq_self_eq_true]

/-- Only the innermost block is changed. -/
theorem Head.map_blocks (h : Head st e outer) (g : Nat × Source F → Nat × Source F) :
    (st.blocks.map fun p => if p.1 = st.currentInput then g p else p) =
      g (st.currentInput, e) :: outer := by
  have hnodup := h.nodup
  rw [h.blocks, List.map_cons, List.nodup_cons] at hnodup
  rw [h.blocks, List.map_cons, if_pos rfl]
  congr 1
  conv_rhs => rw [← List.map_id outer]
  refine List.map_congr_left fun p hp => if_neg ?_
  rintro heq
  exact hnodup.1 (List.mem_map.mpr ⟨p, hp, heq⟩)

/-- The innermost block can be set. -/
theorem Head.setCurrent (h : Head st e outer) (e' : Source F) :
    Head (st.setCurrent e') e' outer := by
  have hblocks : (st.setCurrent e').blocks = (st.currentInput, e') :: outer :=
    h.map_blocks fun p => (p.1, e')
  have hnodup := h.nodup
  rw [h.blocks] at hnodup
  refine ⟨hblocks, ?_⟩
  rw [hblocks]
  exact hnodup

/-- The innermost block can be moved. -/
theorem Head.move (h : Head st e outer) (a : Nat) :
    Head (st.move a) e outer ∧ (st.move a).files = st.files := by
  rw [Input.move]
  split
  · exact ⟨h, rfl⟩
  · rename_i hfree
    have hblocks := h.map_blocks fun p => (a, p.2)
    have hnodup := h.nodup
    rw [h.blocks, List.map_cons] at hfree hnodup
    refine ⟨⟨hblocks, ?_⟩, rfl⟩
    dsimp only
    rw [hblocks, List.map_cons]
    exact List.nodup_cons.mpr ⟨fun hmem => hfree (List.mem_cons_of_mem _ hmem),
      (List.nodup_cons.mp hnodup).2⟩

/-- A new block at a free address -/
theorem Head.newTib (h : Head st e outer) (hok : st.newTib a e' = some st') :
    Head st' e' ((st.currentInput, e) :: outer) ∧ st'.files = st.files := by
  rw [Input.newTib] at hok
  split at hok
  · cases hok
  · rename_i hfree
    cases hok
    refine ⟨⟨?_, List.nodup_cons.mpr ⟨hfree, h.nodup⟩⟩, rfl⟩
    dsimp only
    rw [h.blocks]

end Head

/-- What {lit}`refill` does to the current block -/
inductive Refills (e : Source F) (fs : Files F) : Bool → Source F → Files F → Prop where
  | evaluate (h : e.method = .evaluate) : Refills e fs false e fs
  | ended (h : e.method = .terminal) : Refills e fs false { e with filled := false } fs
  | typed (h : e.method = .terminal) (line : List Byte) :
      Refills e fs true
        { e with
          block := { e.block with
            text := line.take e.block.maxTib
            toIn := 0
            loadline := e.block.loadline + 1 }
          filled := true } fs
  | file (h : e.method = .file) {flag : Bool} {b : InputBlock F} {fs' : Files F}
      (hrefill : Streams.refill ((fs.left e.block.loadfile).length + 1) e.block fs =
        some (flag, b, fs')) :
      Refills e fs flag { e with block := b, filled := flag } fs'

/-- {lit}`refill` refills the innermost block. -/
theorem Head.refill {flag : Bool} (h : Head st e outer) (hok : st.refill a = some (flag, st')) :
    ∃ e', Head st' e' outer ∧ Refills e st.files flag e' st'.files ∧
      (e'.block.maxTib = e.block.maxTib → st'.currentInput = st.currentInput) := by
  rw [Input.refill, h.current] at hok
  dsimp only at hok
  split at hok
  · rename_i hmethod
    cases hok
    exact ⟨e, h, .evaluate hmethod, fun _ => rfl⟩
  · rename_i hmethod
    split at hok
    · cases hok
      exact ⟨_, h.setCurrent _, .ended hmethod, fun _ => rfl⟩
    · rename_i line typed htyped
      cases hok
      have hset := h.setCurrent { e with
        block := { e.block with
          text := line.take e.block.maxTib
          toIn := 0
          loadline := e.block.loadline + 1 }
        filled := true }
      exact ⟨_, ⟨hset.blocks, hset.nodup⟩, .typed hmethod line, fun _ => rfl⟩
  · rename_i hmethod
    split at hok
    · cases hok
    · rename_i flag' b fs hrefill
      cases hok
      have hset := h.setCurrent { e with block := b, filled := flag }
      have hhead : Head { st.setCurrent { e with block := b, filled := flag } with files := fs } _
        outer := ⟨hset.blocks, hset.nodup⟩
      refine ⟨{ e with block := b, filled := flag }, ?_⟩
      split
      · exact ⟨hhead, .file hmethod hrefill, fun _ => rfl⟩
      · rename_i hne
        obtain ⟨hmoved, hfiles⟩ := hhead.move a
        rw [hfiles]
        exact ⟨hmoved, .file hmethod hrefill, fun heq => absurd heq hne⟩

/-! ## Right positions -/

/-- The block has a line of the file, and the stream is behind this line. -/
def AtLine (b : InputBlock F) (contents : List Byte) (fs : Files F) : Prop :=
  ∃ start s segs, segments (contents.drop start) = s :: segs ∧
    start + s.chars.length ≤ contents.length ∧ b.text = s.text ∧
    b.fillBytes = s.chars.length ∧ s.text.length < b.maxTib ∧
    fs.left b.loadfile = contents.drop (start + s.chars.length)

/-- A block has space, and the stream of a file is at a right position, behind the line if there
is one. -/
structure Source.Ready (e : Source F) (fs : Files F) : Prop where
  maxTib : 0 < e.block.maxTib
  file : e.method = .file → ∃ contents, fs.PlacedAt e.block.loadfile contents ∧
    (e.filled = true → AtLine e.block contents fs)

omit [DecidableEq F] in
theorem left_congr {g : F} (h : fs'.stream g = fs.stream g) : fs'.left g = fs.left g := by
  rw [Files.left, Files.left, h]

omit [DecidableEq F] in
/-- Other streams do not matter. -/
theorem Source.Ready.congr (h : e.Ready fs)
    (hsame : e.method = .file → fs'.stream e.block.loadfile = fs.stream e.block.loadfile) :
    e.Ready fs' := by
  refine ⟨h.maxTib, fun hmethod => ?_⟩
  obtain ⟨contents, ⟨s, hs, hplaced⟩, hline⟩ := h.file hmethod
  refine ⟨contents, ⟨s, (hsame hmethod).trans hs, hplaced⟩, fun hfilled => ?_⟩
  rw [AtLine, left_congr (hsame hmethod)]
  exact hline hfilled

variable {contents : List Byte}

/-- {lit}`refill` of a file that is ready -/
theorem refill_ready {flag : Bool} {b b' : InputBlock F} (hmax : 0 < b.maxTib)
    (hplaced : fs.PlacedAt b.loadfile contents)
    (hok : Streams.refill ((fs.left b.loadfile).length + 1) b fs = some (flag, b', fs')) :
    flag = true → AtLine b' contents fs' := by
  intro hflag
  subst hflag
  obtain ⟨s, hs, hpos, rfl⟩ := hplaced
  have hleft : fs.left b.loadfile = s.contents.drop s.tell := by
    rw [Files.left, hs]
    exact hpos.left_eq.1
  cases hsegs : segments (fs.left b.loadfile) with
  | nil =>
      obtain ⟨b₁, fs₁, hend, -⟩ :=
        refill_end (segments_eq_nil_iff.mp hsegs) hmax (Nat.succ_pos _)
      cases hok.symm.trans hend
  | cons line segs =>
      obtain ⟨hlength, hless⟩ := first_line_length hsegs
      obtain ⟨b₁, fs₁, hline, htext, hfill, -, -, hfile, hmax', -, hafter⟩ :=
        refill_line hsegs hmax (Nat.lt_succ_of_le hlength)
      cases hok.symm.trans hline
      rw [hleft] at hsegs
      refine ⟨s.tell, line, segs, hsegs, ?_, htext, hfill, hmax', ?_⟩
      · have hjoined := congrArg List.length (segments_separated (s.contents.drop s.tell)).joined
        rw [hsegs, List.flatMap_cons, List.length_append, List.length_drop] at hjoined
        have := hpos.left_eq.2
        omega
      · rw [hfile, hafter, hleft, List.drop_drop]

/-! ## One source over time -/

/-- What can happen to a source: lines are read, and a file keeps its contents. -/
structure Later (e : Source F) (fs : Files F) (e' : Source F) (fs' : Files F) : Prop where
  method : e'.method = e.method
  loadfile : e'.block.loadfile = e.block.loadfile
  maxTib : e.block.maxTib ≤ e'.block.maxTib
  loadline : e.block.loadline ≤ e'.block.loadline
  text : e.method ≠ .file → e'.block.loadline = e.block.loadline → e'.block.text = e.block.text
  placed : e.method = .file → ∀ contents, fs.PlacedAt e.block.loadfile contents →
    fs'.PlacedAt e.block.loadfile contents

omit [DecidableEq F] in
theorem Later.refl (e : Source F) (fs : Files F) : Later e fs e fs :=
  ⟨rfl, rfl, le_rfl, le_rfl, fun _ _ => rfl, fun _ _ => id⟩

omit [DecidableEq F] in
/-- A source goes on. -/
theorem Later.trans {e'' : Source F} {fs'' : Files F} (h : Later e fs e' fs')
    (h' : Later e' fs' e'' fs'') : Later e fs e'' fs'' where
  method := h'.method.trans h.method
  loadfile := h'.loadfile.trans h.loadfile
  maxTib := h.maxTib.trans h'.maxTib
  loadline := h.loadline.trans h'.loadline
  text hmethod heq := by
    have hle := h.loadline
    have hle' := h'.loadline
    rw [h'.text (h.method ▸ hmethod) (by omega), h.text hmethod (by omega)]
  placed hmethod contents hplaced := by
    have hnext := h'.placed (h.method.trans hmethod) contents
    rw [h.loadfile] at hnext
    exact hnext (h.placed hmethod contents hplaced)

omit [DecidableEq F] in
/-- Only the stream of the source matters. -/
theorem Later.congr {fs'' : Files F} (h : Later e fs e' fs')
    (hsame : e'.method = .file → fs''.stream e'.block.loadfile = fs'.stream e'.block.loadfile) :
    Later e fs e' fs'' := by
  refine h.trans ⟨rfl, rfl, le_rfl, le_rfl, fun _ _ => rfl, fun hmethod contents hplaced => ?_⟩
  rw [Files.PlacedAt, hsame hmethod]
  exact hplaced

/-- {lit}`refill` reads the next line, and only from the file of the source. -/
theorem Refills.later {flag : Bool} (h : Refills e fs flag e' fs') (hready : e.Ready fs) :
    Later e fs e' fs' ∧ e'.Ready fs' ∧
      ∀ g, (e.method = .file → g ≠ e.block.loadfile) → fs'.stream g = fs.stream g := by
  cases h with
  | evaluate hmethod => exact ⟨.refl e fs, hready, fun _ _ => rfl⟩
  | ended hmethod =>
      refine ⟨⟨rfl, rfl, le_rfl, le_rfl, fun _ _ => rfl, fun _ _ => id⟩,
        ⟨hready.maxTib, fun hfile => ?_⟩, fun _ _ => rfl⟩
      rw [hmethod] at hfile
      cases hfile
  | typed hmethod line =>
      refine ⟨⟨rfl, rfl, le_rfl, show _ ≤ e.block.loadline + 1 by omega, fun _ heq => ?_,
        fun _ _ => id⟩, ⟨hready.maxTib, fun hfile => ?_⟩, fun _ _ => rfl⟩
      · have heq' : e.block.loadline + 1 = e.block.loadline := heq
        omega
      · rw [hmethod] at hfile
        cases hfile
  | file hmethod hrefill =>
      rename_i b
      obtain ⟨hreads, hfile, hmax, hline⟩ := refill_reads hrefill
      obtain ⟨contents, hplaced, -⟩ := hready.file hmethod
      refine ⟨⟨rfl, hfile, hmax, show e.block.loadline ≤ b.loadline by omega,
        fun hne => absurd hmethod hne, fun _ => hreads.placed⟩,
        ⟨lt_of_lt_of_le hready.maxTib hmax, fun _ => ⟨contents, ?_, ?_⟩⟩,
        fun g hg => hreads.other g (hg hmethod)⟩
      · change fs'.PlacedAt b.loadfile contents
        rw [hfile]
        exact hreads.placed contents hplaced
      · exact refill_ready hready.maxTib hplaced hrefill

/-! ## All sources -/

/-- The invariant of the input blocks: they are ready, and read from different files. -/
structure Valid (st : Input F) (e : Source F) (outer : List (Nat × Source F)) : Prop where
  head : Head st e outer
  ready : ∀ p ∈ st.blocks, p.2.Ready st.files
  apart : st.blocks.Pairwise fun p q =>
    p.2.method = .file → q.2.method = .file → p.2.block.loadfile ≠ q.2.block.loadfile

/-- The files of these sources are as before. -/
def SameFiles (sources : List (Nat × Source F)) (fs fs' : Files F) : Prop :=
  ∀ p ∈ sources, p.2.method = .file →
    fs'.stream p.2.block.loadfile = fs.stream p.2.block.loadfile

omit [DecidableEq F] in
/-- The innermost source goes on. -/
theorem Valid.innermost (h : Valid st e outer) (hhead : Head st' e' outer)
    (hlater : Later e st.files e' st'.files) (hready : e'.Ready st'.files)
    (hother : ∀ g, (e.method = .file → g ≠ e.block.loadfile) →
      st'.files.stream g = st.files.stream g) :
    Valid st' e' outer ∧ SameFiles outer st.files st'.files := by
  have hapart := h.apart
  have hreadyAll := h.ready
  rw [h.head.blocks] at hapart hreadyAll
  obtain ⟨hfirst, hrest⟩ := List.pairwise_cons.mp hapart
  have hsame : SameFiles outer st.files st'.files := fun p hp hmethod =>
    hother _ fun hfile => (hfirst p hp hfile hmethod).symm
  refine ⟨⟨hhead, ?_, ?_⟩, hsame⟩
  · rw [hhead.blocks]
    intro p hp
    rcases List.mem_cons.mp hp with rfl | hp
    · exact hready
    · exact (hreadyAll p (List.mem_cons_of_mem _ hp)).congr (hsame p hp)
  · rw [hhead.blocks]
    refine List.pairwise_cons.mpr ⟨fun p hp => ?_, hrest⟩
    change e'.method = _ → _ → e'.block.loadfile ≠ _
    rw [hlater.method, hlater.loadfile]
    exact hfirst p hp

omit [DecidableEq F] in
/-- Another source starts. -/
theorem Valid.start (h : Valid st e outer)
    (hhead : Head st' e' ((st.currentInput, e) :: outer)) (hready : e'.Ready st'.files)
    (hnew : e'.method = .file → st.files.stream e'.block.loadfile = none)
    (hother : ∀ g, (e'.method = .file → g ≠ e'.block.loadfile) →
      st'.files.stream g = st.files.stream g) :
    Valid st' e' ((st.currentInput, e) :: outer) ∧
      SameFiles ((st.currentInput, e) :: outer) st.files st'.files := by
  have hne : ∀ p ∈ st.blocks, e'.method = .file → p.2.method = .file →
      e'.block.loadfile ≠ p.2.block.loadfile := by
    intro p hp hmethod hfile heq
    obtain ⟨contents, ⟨s, hs, -⟩, -⟩ := (h.ready p hp).file hfile
    rw [← heq, hnew hmethod] at hs
    cases hs
  have hsame : SameFiles st.blocks st.files st'.files := fun p hp hfile =>
    hother _ fun hmethod => (hne p hp hmethod hfile).symm
  rw [← h.head.blocks] at hhead ⊢
  refine ⟨⟨hhead, ?_, ?_⟩, hsame⟩
  · rw [hhead.blocks]
    intro p hp
    rcases List.mem_cons.mp hp with rfl | hp
    · exact hready
    · exact (h.ready p hp).congr (hsame p hp)
  · rw [hhead.blocks]
    exact List.pairwise_cons.mpr ⟨hne, h.apart⟩

/-- The innermost source ends; its file is closed. -/
theorem Valid.popFile {a : Nat} {e₁ : Source F} (h : Valid st e ((a, e₁) :: outer))
    (hok : st.popFile = some st') :
    Valid st' e₁ outer ∧ st'.currentInput = a ∧
      SameFiles ((a, e₁) :: outer) st.files st'.files := by
  have hnodup := h.head.nodup
  have hapart := h.apart
  have hready := h.ready
  rw [h.head.blocks] at hnodup hapart hready
  rw [Input.popFile, h.head.blocks] at hok
  cases hok
  obtain ⟨hfirst, hrest⟩ := List.pairwise_cons.mp hapart
  have hsame : SameFiles ((a, e₁) :: outer) st.files
      (if e.method = .file then st.files.closeFile e.block.loadfile else st.files) := by
    intro p hp hfile
    split
    · rename_i hmethod
      exact Function.update_of_ne (hfirst p hp hmethod hfile).symm _ _
    · rfl
  exact ⟨⟨⟨rfl, (List.nodup_cons.mp hnodup).2⟩,
    fun p hp => (hready p (List.mem_cons_of_mem _ hp)).congr (hsame p hp), hrest⟩, rfl, hsame⟩

/-! ## Runs -/

/-- What a step does: the innermost source goes on, another one starts, or it ends. -/
theorem Valid.step {op : InputOp F} (h : Valid st e outer) (hok : op.step null st = some st') :
    match op with
    | .setIn _ | .refill _ =>
        ∃ e', Valid st' e' outer ∧ Later e st.files e' st'.files ∧
          SameFiles outer st.files st'.files
    | .evaluate _ _ | .included _ _ _ =>
        ∃ e', Valid st' e' ((st.currentInput, e) :: outer) ∧
          SameFiles ((st.currentInput, e) :: outer) st.files st'.files
    | .popFile =>
        ∃ e₁ outer₁, outer = (st'.currentInput, e₁) :: outer₁ ∧ Valid st' e₁ outer₁ ∧
          SameFiles outer st.files st'.files := by
  have hready : e.Ready st.files :=
    h.ready (st.currentInput, e) (by rw [h.head.blocks]; exact List.mem_cons_self)
  cases op with
  | setIn n =>
      rw [InputOp.step, h.head.current] at hok
      cases hok
      have hlater : Later e st.files { e with block := { e.block with toIn := n } } st.files :=
        ⟨rfl, rfl, le_rfl, le_rfl, fun _ _ => rfl, fun _ _ => id⟩
      obtain ⟨hvalid, hsame⟩ := h.innermost (h.head.setCurrent _) hlater
        ⟨hready.maxTib, hready.file⟩ fun _ _ => rfl
      exact ⟨_, hvalid, hlater, hsame⟩
  | refill a =>
      rw [InputOp.step, Option.map_eq_some_iff] at hok
      obtain ⟨⟨flag, st₁⟩, hrefill, rfl⟩ := hok
      obtain ⟨e', hhead, hrefills, -⟩ := h.head.refill hrefill
      obtain ⟨hlater, hready', hother⟩ := hrefills.later hready
      obtain ⟨hvalid, hsame⟩ := h.innermost hhead hlater hready' hother
      exact ⟨e', hvalid, hlater, hsame⟩
  | evaluate text a =>
      obtain ⟨hhead, hfiles⟩ := h.head.newTib hok
      refine ⟨_, h.start hhead ⟨show 0 < 8 by decide, fun hfile => by cases hfile⟩
        (fun hfile => by cases hfile) fun _ _ => by rw [hfiles]⟩
  | included f contents a =>
      rw [InputOp.step] at hok
      split at hok
      · rename_i hnone
        have hopen : Head { st with files := st.files.openFile f contents } e outer :=
          ⟨h.head.blocks, h.head.nodup⟩
        obtain ⟨hhead, hfiles⟩ := hopen.newTib hok
        refine ⟨_, h.start hhead ⟨show 0 < 0x400 by decide,
          fun _ => ⟨contents, ?_, fun hfilled => ?_⟩⟩ (fun _ => hnone) fun g hg => ?_⟩
        · rw [hfiles]
          exact ⟨_, Function.update_self _ _ _, Stream.opened_placed contents, rfl⟩
        · cases hfilled
        · rw [hfiles]
          exact Function.update_of_ne (hg rfl) _ _
      · cases hok
  | popFile =>
      cases outer with
      | nil =>
          rw [InputOp.step, Input.popFile, h.head.blocks] at hok
          cases hok
      | cons p outer =>
          obtain ⟨hvalid, hinput, hsame⟩ := h.popFile hok
          exact ⟨p.2, outer, by rw [hinput], hvalid, hsame⟩

omit [DecidableEq F] in
/-- The start is valid. -/
theorem Valid.initial (null : F) (a : Nat) (typed : List (List Byte)) :
    ∃ e, Valid (Input.start null a typed) e [] :=
  ⟨_, ⟨rfl, List.nodup_singleton a⟩, fun p hp => by
    rw [List.mem_singleton.mp hp]
    exact ⟨show 0 < 0x400 by decide, fun hfile => by cases hfile⟩, List.pairwise_singleton _ _⟩

/-- The input blocks are valid in every run. -/
theorem Valid.run {ops : List (InputOp F)} (h : Valid st e outer)
    (hrun : InputOp.run null st ops = some st') : ∃ e' outer', Valid st' e' outer' := by
  induction ops generalizing st e outer with
  | nil =>
      cases hrun
      exact ⟨e, outer, h⟩
  | cons op ops ih =>
      obtain ⟨st₁, hstep, hrest⟩ := Option.bind_eq_some_iff.mp hrun
      have hcases := h.step hstep
      cases op with
      | setIn n | refill a =>
          obtain ⟨e', hvalid, -⟩ := hcases
          exact ih hvalid hrest
      | evaluate text a | included f contents a =>
          obtain ⟨e', hvalid, -⟩ := hcases
          exact ih hvalid hrest
      | popFile =>
          obtain ⟨e₁, outer₁, -, hvalid, -⟩ := hcases
          exact ih hvalid hrest

omit [DecidableEq F] in
theorem Later.of_same (hsame : e.method = .file →
    fs'.stream e.block.loadfile = fs.stream e.block.loadfile) : Later e fs e fs' :=
  (Later.refl e fs).congr hsame

/-- What happens to a source while sources in it start and end -/
theorem Later.run {ops : List (InputOp F)} (inner : List (Nat × Source F)) {e₁ : Source F}
    {outer₁ : List (Nat × Source F)} (h : Valid st e outer)
    (hblocks : st.blocks = inner ++ (a, e₁) :: outer₁)
    (hclosed : InputOp.Closed inner.length ops) (hrun : InputOp.run null st ops = some st') :
    ∃ e', Valid st' e' outer₁ ∧ Later e₁ st.files e' st'.files := by
  induction ops generalizing st e outer inner a e₁ with
  | nil =>
      cases hrun
      rw [List.length_eq_zero_iff.mp hclosed, h.head.blocks, List.nil_append] at hblocks
      cases hblocks
      exact ⟨e, h, .refl e _⟩
  | cons op ops ih =>
      obtain ⟨st₁, hstep, hrest⟩ := Option.bind_eq_some_iff.mp hrun
      have hcases := h.step hstep
      rw [h.head.blocks] at hblocks
      cases op with
      | setIn n | refill b =>
          obtain ⟨e', hvalid, hlater, hsame⟩ := hcases
          cases inner with
          | nil =>
              -- the source itself
              cases hblocks
              obtain ⟨e'', hvalid'', hlater''⟩ :=
                ih [] hvalid hvalid.head.blocks hclosed hrest
              exact ⟨e'', hvalid'', hlater.trans hlater''⟩
          | cons p inner =>
              obtain ⟨rfl, rfl⟩ := List.cons.inj hblocks
              obtain ⟨e'', hvalid'', hlater''⟩ := ih ((st₁.currentInput, e') :: inner)
                hvalid hvalid.head.blocks hclosed hrest
              have hothers : Later e₁ st.files e₁ st₁.files := .of_same
                (hsame (a, e₁) (List.mem_append_right _ List.mem_cons_self))
              exact ⟨e'', hvalid'', hothers.trans hlater''⟩
      | evaluate text b | included f contents b =>
          obtain ⟨e', hvalid, hsame⟩ := hcases
          obtain ⟨e'', hvalid'', hlater''⟩ := ih ((st₁.currentInput, e') :: inner) hvalid
            (by rw [hvalid.head.blocks, hblocks, List.cons_append]) hclosed hrest
          have hothers : Later e₁ st.files e₁ st₁.files := .of_same
            (hsame (a, e₁) (hblocks ▸ List.mem_append_right _ List.mem_cons_self))
          exact ⟨e'', hvalid'', hothers.trans hlater''⟩
      | popFile =>
          obtain ⟨e', outer', rfl, hvalid, hsame⟩ := hcases
          cases inner with
          | nil => exact absurd hclosed.1 (lt_irrefl 0)
          | cons p inner =>
              obtain ⟨-, hinner⟩ := List.cons.inj hblocks
              obtain ⟨e'', hvalid'', hlater''⟩ :=
                ih inner hvalid (hvalid.head.blocks.trans hinner) hclosed.2 hrest
              have hothers : Later e₁ st.files e₁ st₁.files := .of_same
                (hsame (a, e₁) (hinner ▸ List.mem_append_right _ List.mem_cons_self))
              exact ⟨e'', hvalid'', hothers.trans hlater''⟩

/-! ## Restoring -/

/-- From the position in front of a line, {lit}`refill` reads this line again, into the same
buffer. -/
theorem refill_again {b b' : InputBlock F} {s : Stream} (hline : AtLine b contents fs)
    (hs : fs.stream b.loadfile = some s) (hplaced : s.Placed) (hcontents : s.contents = contents)
    (hfile : b'.loadfile = b.loadfile) (hmax : b.maxTib ≤ b'.maxTib)
    (hplaced' : fs'.PlacedAt b.loadfile contents) :
    ∃ b'' fs'',
      Streams.refill
          (((fs'.repositionFile (some (s.tell - b.fillBytes)) b'.loadfile).left
            b'.loadfile).length + 1) b'
          (fs'.repositionFile (some (s.tell - b.fillBytes)) b'.loadfile) = some (true, b'', fs'') ∧
      b''.text = b.text ∧ b''.maxTib = b'.maxTib := by
  obtain ⟨start, line, segs, hsegs, hle, htext, hfill, hroom, hleft⟩ := hline
  subst hcontents
  have htell : s.tell = start + line.chars.length := by
    rw [Files.left, hs] at hleft
    exact hplaced.tell_eq hle hleft
  have hback : s.tell - b.fillBytes = start := by omega
  obtain ⟨s', hs', -, hsame⟩ := hplaced'
  have hagain : (fs'.repositionFile (some start) b'.loadfile).left b'.loadfile =
      s.contents.drop start := by
    rw [hfile, Files.repositionFile, Files.onStream, Files.left]
    dsimp only
    rw [Function.update_self, hs', Option.map_some, ← hsame]
    rfl
  rw [hback, hagain]
  rw [← hagain] at hsegs ⊢
  obtain ⟨hlength, -⟩ := first_line_length hsegs
  obtain ⟨b'', fs'', hrefill, htext', -, -, -, -, -, hmax', -⟩ :=
    refill_line hsegs (by omega) (Nat.lt_succ_of_le hlength)
  exact ⟨b'', fs'', hrefill, htext'.trans htext.symm, hmax' (by omega)⟩

omit [DecidableEq F] in
/-- {lit}`save-input` on the terminal or in {lit}`evaluate` -/
theorem Head.saveInput_other (h : Head st e outer) (hmethod : e.method ≠ .file) :
    st.saveInput = some
      [.cell 3, .cell st.currentInput, .cell e.block.loadline, .cell e.block.toIn] := by
  rw [Input.saveInput, Input.saveMethod, h.current]
  cases hm : e.method with
  | terminal | evaluate => simp [hm]
  | file => exact absurd hm hmethod

omit [DecidableEq F] in
/-- {lit}`save-input` in a file -/
theorem Head.saveInput_file {s : Stream} (h : Head st e outer) (hmethod : e.method = .file)
    (hs : st.files.stream e.block.loadfile = some s) :
    st.saveInput = some
      [.cell 6, .cell st.currentInput, .file e.block.loadfile, .cell 0,
        .cell (s.tell - e.block.fillBytes), .cell e.block.loadline, .cell e.block.toIn] := by
  rw [Input.saveInput, Input.saveMethod, h.current]
  simp [hmethod, hs]

omit [DecidableEq F] in
/-- The current source has these values at the end. -/
theorem Head.setPosition (h : Head st e outer) (toIn : Nat) (loadline : Int) :
    (st.setPosition toIn loadline).current =
      some { e with block := { e.block with toIn := toIn, loadline := loadline } } := by
  rw [Input.setPosition, h.current]
  exact (h.setCurrent _).current

/-- A failing {lit}`restore-input` leaves one of the saved items. -/
theorem not_restores_of_error {n input : Nat} {items rest : List (Item F)} {ball : Int}
    {saved st'' : Input F} (hn : n = items.length + 1)
    (herror : Input.restoreMethod a (.cell (n - 1) :: (items ++ rest))
      { st' with currentInput := input } = .error ball st'') :
    ¬Restores saved st' rest
      (st'.restoreInput a (.cell n :: .cell input :: (items ++ rest))) := by
  rintro ⟨flag, hstack, -⟩
  rw [Input.restoreInput, Int.toNat_natCast, herror] at hstack
  have hlength := congrArg List.length hstack
  simp [hn] at hlength
  omega

/-- The block that has been moved is not at the saved address any more, nor is another one. -/
theorem Head.restoreMethod_moved (h : Head st e outer) (h' : Head st' e' outer)
    (hne : st'.currentInput ≠ st.currentInput) (stack : List (Item F)) :
    Input.restoreMethod a stack { st' with currentInput := st.currentInput } =
      .error (-9) { st' with currentInput := st.currentInput } := by
  have hnone : ({ st' with currentInput := st.currentInput } : Input F).current = none := by
    have hnodup := h.nodup
    rw [h.blocks, List.map_cons, List.nodup_cons] at hnodup
    rw [Input.current, List.lookup_eq_none_iff]
    intro p hp
    rw [h'.blocks] at hp
    rcases List.mem_cons.mp hp with rfl | hp
    · exact bne_iff_ne.mpr hne.symm
    · exact bne_iff_ne.mpr fun heq => hnodup.1 (List.mem_map.mpr ⟨p, hp, heq.symm⟩)
  rw [Input.restoreMethod, hnone]

/-- The terminal and {lit}`evaluate`, with the same line -/
theorem Head.restoreMethod_other (h : Head st' e' outer) (hmethod : e'.method ≠ .file)
    (loadline toIn : Int) (rest : List (Item F)) :
    Input.restoreMethod a (.cell 2 :: .cell loadline :: .cell toIn :: rest) st' =
      if loadline = e'.block.loadline then .ok rest (st'.setPosition toIn loadline)
      else .error (-12) st' := by
  rw [Input.restoreMethod, h.current]
  cases hm : e'.method with
  | terminal | evaluate => simp [hm]
  | file => exact absurd hm hmethod

/-- A file, from the position in front of the line -/
theorem Head.restoreMethod_file {s : Stream} (h : Head st' e' outer) (hmethod : e'.method = .file)
    (hline : AtLine e.block contents st.files) (hs : st.files.stream e.block.loadfile = some s)
    (hplaced : s.Placed) (hcontents : s.contents = contents)
    (hlater : Later e st.files e' st'.files) (loadline toIn : Int) (rest : List (Item F)) :
    ∃ e'' st'', Head st'' e'' outer ∧ e''.block.text = e.block.text ∧
      Input.restoreMethod a
        (.cell 5 :: .file e.block.loadfile :: .cell 0 :: .cell (s.tell - e.block.fillBytes) ::
          .cell loadline :: .cell toIn :: rest) st' =
        .ok rest (st''.setPosition toIn loadline) := by
  have hplaced' := hlater.placed (hlater.method ▸ hmethod) contents ⟨s, hs, hplaced, hcontents⟩
  obtain ⟨b, fs, hrefill, htext, hmax⟩ :=
    refill_again hline hs hplaced hcontents hlater.loadfile hlater.maxTib hplaced'
  have hcast : ((s.tell : Int) - e.block.fillBytes).toNat = s.tell - e.block.fillBytes := by omega
  rw [← hcast, hlater.loadfile] at hrefill
  let st₁ : Input F := { st' with
    files := st'.files.repositionFile (some ((s.tell : Int) - e.block.fillBytes).toNat)
      e.block.loadfile }
  have h₁ : Head st₁ e' outer := ⟨h.blocks, h.nodup⟩
  have hset := h₁.setCurrent { e' with block := b, filled := true }
  have hagain : st₁.refill a =
      some (true, { st₁.setCurrent { e' with block := b, filled := true } with files := fs }) := by
    rw [Input.refill, h₁.current]
    simp only [hmethod, st₁, hlater.loadfile, hrefill, hmax, if_true]
  refine ⟨_, { st₁.setCurrent { e' with block := b, filled := true } with files := fs },
    ⟨hset.blocks, hset.nodup⟩, htext, ?_⟩
  rw [Input.restoreMethod, h.current]
  simp only [hmethod, if_pos hlater.loadfile.symm]
  rw [hagain, hmethod]

/-- A source at the saved address that finds its line again -/
theorem Head.restores {n input : Nat} {items rest : List (Item F)} {st'' : Input F}
    {e'' : Source F} {before : Input F} (h : Head st e outer) (h'' : Head st'' e'' outer)
    (htext : e''.block.text = e.block.text) (hsame : st'.currentInput = input)
    (hok : Input.restoreMethod a (.cell (n - 1) :: (items ++ rest)) st' =
      .ok rest (st''.setPosition e.block.toIn e.block.loadline)) :
    Restores st before rest
      (st'.restoreInput a (.cell n :: .cell input :: (items ++ rest))) := by
  subst hsame
  rw [Input.restoreInput, Int.toNat_natCast, hok]
  exact ⟨0, rfl, fun _ => ⟨e, _, h.current, h''.setPosition _ _, htext, rfl, rfl⟩,
    fun hne => absurd rfl hne⟩

/-- The terminal and {lit}`evaluate` -/
theorem Head.restores_other_iff (h : Head st e outer) (h' : Head st' e' outer)
    (hlater : Later e st.files e' st'.files) (hmethod : e.method ≠ .file) (a : Nat)
    (rest : List (Item F)) :
    Restores st st' rest (st'.restoreInput a (.cell (3 : Nat) :: .cell st.currentInput ::
        ([.cell e.block.loadline, .cell e.block.toIn] ++ rest))) ↔
      st'.currentInput = st.currentInput ∧ e'.block.loadline = e.block.loadline := by
  by_cases hsame : st'.currentInput = st.currentInput
  · rw [and_iff_right hsame]
    have hmethod' := h'.restoreMethod_other (a := a) (hlater.method ▸ hmethod)
      e.block.loadline e.block.toIn rest
    by_cases hline : e.block.loadline = e'.block.loadline
    · rw [if_pos hline] at hmethod'
      exact iff_of_true (h.restores h' (hlater.text hmethod hline.symm) hsame hmethod') hline.symm
    · rw [if_neg hline] at hmethod'
      rw [← hsame]
      exact iff_of_false (not_restores_of_error rfl hmethod') fun heq => hline heq.symm
  · exact iff_of_false (not_restores_of_error rfl (h.restoreMethod_moved h' hsame _))
      fun hboth => hsame hboth.1

/-- A file -/
theorem Head.restores_file_iff {s : Stream} (h : Head st e outer) (h' : Head st' e' outer)
    (hlater : Later e st.files e' st'.files) (hmethod : e.method = .file)
    (hline : AtLine e.block contents st.files) (hs : st.files.stream e.block.loadfile = some s)
    (hplaced : s.Placed) (hcontents : s.contents = contents) (a : Nat) (rest : List (Item F)) :
    Restores st st' rest (st'.restoreInput a (.cell (6 : Nat) :: .cell st.currentInput ::
        ([.file e.block.loadfile, .cell 0, .cell (s.tell - e.block.fillBytes),
          .cell e.block.loadline, .cell e.block.toIn] ++ rest))) ↔
      st'.currentInput = st.currentInput := by
  by_cases hsame : st'.currentInput = st.currentInput
  · obtain ⟨e'', st'', h'', htext, hok⟩ :=
      h'.restoreMethod_file (a := a) (hlater.method.trans hmethod) hline hs hplaced hcontents
        hlater e.block.loadline e.block.toIn rest
    exact iff_of_true (h.restores h'' htext hsame hok) hsame
  · exact iff_of_false (not_restores_of_error rfl (h.restoreMethod_moved h' hsame _)) hsame

/-- {lit}`save-input` always has a result, with its length on top.  After reading more lines and
sources that have ended, {lit}`restore-input` works exactly if the block is still at the saved
address and, except for files, no other line has been read: when it fails, it leaves one of the
saved items on the stack. -/
theorem restoreInput_iff (null : F) (a₀ : Nat) (typed : List (List Byte))
    (ops ops' : List (InputOp F)) (st st' : Input F) (e : Source F)
    (hbefore : InputOp.run null (Input.start null a₀ typed) ops = some st)
    (hcurrent : st.current = some e) (hline : e.method = .evaluate ∨ e.filled = true)
    (hclosed : InputOp.Closed 0 ops') (hafter : InputOp.run null st ops' = some st') :
    ∃ items, st.saveInput = some (.cell items.length :: items) ∧ ∀ a rest,
      Restores st st' rest (st'.restoreInput a (.cell items.length :: items ++ rest)) ↔
        st'.currentInput = st.currentInput ∧
          (e.method ≠ .file →
            ∃ e', st'.current = some e' ∧ e'.block.loadline = e.block.loadline) := by
  obtain ⟨e₀, h₀⟩ := Valid.initial null a₀ typed
  obtain ⟨e₁, outer, hvalid⟩ := h₀.run hbefore
  have hhead := hvalid.head
  cases hcurrent.symm.trans hhead.current
  obtain ⟨e', hvalid', hlater⟩ :=
    Later.run [] hvalid hhead.blocks hclosed hafter
  have hhead' := hvalid'.head
  by_cases hmethod : e.method = .file
  · obtain ⟨contents, ⟨s, hs, hplaced, hcontents⟩, hat⟩ :=
      (hvalid.ready (st.currentInput, e) (by rw [hhead.blocks]; exact List.mem_cons_self)).file
        hmethod
    have hat := hat (hline.resolve_left (by rw [hmethod]; decide))
    refine ⟨.cell st.currentInput :: [.file e.block.loadfile, .cell 0,
      .cell (s.tell - e.block.fillBytes), .cell e.block.loadline, .cell e.block.toIn],
      hhead.saveInput_file hmethod hs, fun a rest => ?_⟩
    rw [and_iff_left fun hne => absurd hmethod hne]
    exact hhead.restores_file_iff hhead' hlater hmethod hat hs hplaced hcontents a rest
  · refine ⟨.cell st.currentInput :: [.cell e.block.loadline, .cell e.block.toIn],
      hhead.saveInput_other hmethod, fun a rest => ?_⟩
    refine (hhead.restores_other_iff hhead' hlater hmethod a rest).trans
      (and_congr_right' ⟨fun heq _ => ⟨e', hhead'.current, heq⟩, fun hloadline => ?_⟩)
    obtain ⟨e₂, hcurrent', heq⟩ := hloadline hmethod
    cases hcurrent'.symm.trans hhead'.current
    exact heq

/-- The first line of a file with two lines, after the other one and a nested {lit}`evaluate` -/
theorem restoreInput_first_line :
    ∃ st st' items,
      InputOp.run 0 (Input.start 0 1 [])
        [.included 1 [0x61#8, lf, 0x62#8, 0x63#8, lf] 2, .refill 3, .setIn 1] = some st ∧
      InputOp.run 0 st [.refill 3, .evaluate [0x64#8] 4, .setIn 1, .popFile] = some st' ∧
      st.saveInput = some items ∧ Restores st st' [.cell 7] (st'.restoreInput 3 (items ++ [.cell 7])) := by
  obtain ⟨items, hsave, hrestore⟩ := restoreInput_iff 0 1 []
    [.included 1 [0x61#8, lf, 0x62#8, 0x63#8, lf] 2, .refill 3, .setIn 1]
    [.refill 3, .evaluate [0x64#8] 4, .setIn 1, .popFile] _ _ _ rfl rfl (.inr rfl)
    ⟨by decide, rfl⟩ rfl
  exact ⟨_, _, _, rfl, rfl, hsave, (hrestore 3 [.cell 7]).mpr ⟨rfl, fun hne => absurd rfl hne⟩⟩

/-- After another line from the terminal, the saved {lit}`>in` is left below the flag. -/
theorem not_restoreInput_balanced :
    ∃ st st' e items,
      InputOp.run 0 (Input.start 0 1 [[0x61#8], [0x62#8]]) [.refill 2] = some st ∧
      st.current = some e ∧ e.method = .terminal ∧ e.filled = true ∧
      InputOp.Closed 0 [.refill (F := Nat) 2] ∧ InputOp.run 0 st [.refill 2] = some st' ∧
      st.saveInput = some items ∧
      (st'.restoreInput 2 (items ++ [.cell 7])).1 = [.cell (-1), .cell 0, .cell 7] ∧
      ¬Restores st st' [.cell 7] (st'.restoreInput 2 (items ++ [.cell 7])) := by
  refine ⟨_, _, _, _, rfl, rfl, rfl, rfl, rfl, rfl, rfl, rfl, ?_⟩
  rintro ⟨flag, hstack, -⟩
  cases hstack

end Streams
end Gforth
