import Gforth.Streams.ReadLine

/-!
# The array of streams with a pushed-back character

The words on files read characters, push one back, close streams and move to other positions in them.
The array {lit}`ungotten_files` should have exactly the streams with a pushed-back character.

Main results:

- Theorem {lit}`ungotten_nodup`: no stream is in the array twice, in any run.
- Theorem {lit}`truthful_iff_careful`: the array is right throughout a run exactly if no stream with
  a pushed-back character is closed or moved.
-/

namespace Gforth
namespace Streams

open Lib

variable {F : Type} [DecidableEq F]

/-! ## The words -/

namespace Files

/-- {lit}`close-file` -/
def closeFile (f : F) (fs : Files F) : Files F :=
  { fs with stream := Function.update fs.stream f none }

/-- {lit}`reposition-file`, for which {lit}`fseeko` may fail -/
def repositionFile (ud : Option Nat) (f : F) (fs : Files F) : Files F :=
  match ud with
  | some offset => fs.onStream f (Stream.fseeko offset)
  | none => fs

/-- {lit}`fread` -/
def fread (u1 : Nat) (f : F) (fs : Files F) : List Byte × Files F :=
  match fs.stream f with
  | some s => ((s.fread u1).1, { fs with stream := Function.update fs.stream f (some (s.fread u1).2) })
  | none => ([], fs)

/-- {lit}`read-file`, without interruptions -/
def readFile (u1 : Nat) (f : F) (fs : Files F) : List Byte × Files F :=
  let r := fs.fread u1 f
  (r.1, if 0 < r.1.length then r.2.gfRegetc f else r.2)

/-- {lit}`getkey` -/
def getkey (f : F) (fs : Files F) : Option Byte × Files F :=
  let r := fs.fread 1 f
  (r.1.head?, if 0 < r.1.length then r.2.gfRegetc f else r.2)

/-- {lit}`key_avail`, given what {lit}`ioctl` or {lit}`poll` says about the file -/
def keyAvail (charsAvail : Int) (f : F) (fs : Files F) : Int × Files F :=
  if fs.gfUngottenc f then (1, fs)
  else if 0 < charsAvail then
    match fs.getc f with
    | (none, fs) => (1, fs)
    | (some c, fs) => (charsAvail, fs.gfUngetc c f)
  else (if charsAvail = -1 then 0 else charsAvail, fs)

end Files

/-- The words on files, on the stream with some pointer; {lit}`arrive` is no word but stands for
characters that arrive in a file from elsewhere. -/
inductive Op (F : Type) where
  | openFile (contents : List Byte) (f : F)
  | closeFile (f : F)
  | readFile (u1 : Nat) (f : F)
  | readLine (u1 : Nat) (f : F)
  | keyFile (f : F)
  | keyQueryFile (charsAvail : Int) (f : F)
  | repositionFile (ud : Option Nat) (f : F)
  | arrive (contents : List Byte) (f : F)

namespace Op

/-- {lit}`open-file` returns a pointer that no open stream has; all other words are for open
streams. -/
def Possible (fs : Files F) : Op F → Prop
  | openFile _ f => fs.stream f = none
  | closeFile f | readFile _ f | readLine _ f | keyFile f | keyQueryFile _ f | repositionFile _ f
  | arrive _ f => fs.stream f ≠ none

instance (fs : Files F) (op : Op F) : Decidable (op.Possible fs) := by
  cases op <;> unfold Possible <;> infer_instance

/-- The state after a word -/
def effect (fs : Files F) : Op F → Files F
  | openFile contents f => fs.openFile f contents
  | closeFile f => fs.closeFile f
  | readFile u1 f => (fs.readFile u1 f).2
  | readLine u1 f => (Streams.readLine u1 f fs).2
  | keyFile f => (fs.getkey f).2
  | keyQueryFile charsAvail f => (fs.keyAvail charsAvail f).2
  | repositionFile ud f => fs.repositionFile ud f
  | arrive contents f => fs.onStream f fun s => { s with contents := contents }

/-- No pushed-back character is lost. -/
def Careful (fs : Files F) : Op F → Prop
  | closeFile f | repositionFile (some _) f => fs.pushed f = none
  | _ => True

end Op

/-- A run from the start -/
def run : List (Op F) → Option (Files F) :=
  List.foldlM (fun fs op => if op.Possible fs then some (op.effect fs) else none) Files.initial

/-- {lit}`gf_ungottenc` is true exactly for the streams with a pushed-back character, and no stream
is in the array twice. -/
structure Truthful (fs : Files F) : Prop where
  waiting : ∀ f, fs.gfUngottenc f = true ↔ (fs.pushed f).isSome
  nodup : fs.ungotten.Nodup

/-! ## The array -/

omit [DecidableEq F] in
/-- Removing an item from an array by moving the last one to its place -/
theorem swapRemove_perm {l : List F} {i : Nat} {last : F} (hi : i < l.length)
    (hlast : l.getLast? = some last) : ((l.set i last).dropLast).Perm (l.eraseIdx i) := by
  obtain ⟨front, rfl⟩ := List.getLast?_eq_some_iff.mp hlast
  rw [List.length_append, List.length_singleton] at hi
  by_cases hfront : i < front.length
  · rw [List.set_append_left _ _ hfront, List.dropLast_concat,
      List.eraseIdx_append_of_lt_length hfront]
    exact (List.set_perm_cons_eraseIdx hfront last).trans (List.perm_append_singleton _ _).symm
  · obtain rfl : i = front.length := by omega
    rw [List.eraseIdx_append_of_length_le le_rfl, List.set_append_right _ _ le_rfl]
    simp

namespace Files

theorem gfUngottenc_iff {f : F} {fs : Files F} : fs.gfUngottenc f = true ↔ f ∈ fs.ungotten := by
  rw [gfUngottenc, searchUngotten, List.isSome_idxOf?]

/-- The stream is removed once. -/
theorem gfRegetc_perm (f : F) (fs : Files F) :
    (fs.gfRegetc f).ungotten.Perm (fs.ungotten.erase f) := by
  rw [gfRegetc, searchUngotten, List.erase_eq_eraseIdx]
  cases hi : fs.ungotten.idxOf? f with
  | none => exact .refl _
  | some i =>
      obtain ⟨hlt, -⟩ := List.idxOf?_eq_some_iff.mp hi
      cases hlast : fs.ungotten.getLast? with
      | none =>
          rw [List.getLast?_eq_none_iff.mp hlast] at hlt
          exact absurd hlt (Nat.not_lt_zero _)
      | some last => exact swapRemove_perm hlt hlast

theorem nodup_gfRegetc {f : F} {fs : Files F} (h : fs.ungotten.Nodup) :
    (fs.gfRegetc f).ungotten.Nodup :=
  (fs.gfRegetc_perm f).nodup_iff.mpr (h.erase f)

theorem mem_gfRegetc {f g : F} {fs : Files F} (h : fs.ungotten.Nodup) :
    g ∈ (fs.gfRegetc f).ungotten ↔ g ≠ f ∧ g ∈ fs.ungotten := by
  rw [(fs.gfRegetc_perm f).mem_iff, h.mem_erase_iff]

theorem stream_gfRegetc (f : F) (fs : Files F) : (fs.gfRegetc f).stream = fs.stream := by
  rw [gfRegetc]
  split <;> rfl

theorem ungotten_getc (f : F) (fs : Files F) : (fs.getc f).2.ungotten = fs.ungotten := by
  rw [getc]
  split <;> rfl

/-- A change of a stream leaves the others alone. -/
theorem pushed_onStream_of_ne {f g : F} (h : g ≠ f) (change : Stream → Stream) (fs : Files F) :
    (fs.onStream f change).pushed g = fs.pushed g := by
  rw [pushed, pushed, onStream]
  dsimp only
  rw [Function.update_of_ne h]

/-- {lit}`getc` leaves the other streams alone. -/
theorem pushed_getc_of_ne {f g : F} (h : g ≠ f) (fs : Files F) :
    (fs.getc f).2.pushed g = fs.pushed g := by
  rw [getc]
  split
  · rw [pushed, pushed]
    dsimp only
    rw [Function.update_of_ne h]
  · rfl

/-- After a character was read, or none was there, there is no pushed-back one. -/
theorem pushed_getc (f : F) (fs : Files F) : (fs.getc f).2.pushed f = none := by
  rw [getc]
  cases hf : fs.stream f with
  | none => rw [pushed, hf, Option.bind_none]
  | some s =>
      rw [pushed]
      dsimp only
      rw [Function.update_self, Option.bind_some]
      cases hleft : s.left with
      | nil =>
          have hnil := (List.append_eq_nil_iff.mp hleft).1
          rw [Stream.getc_of_left_nil hleft]
          simpa using hnil
      | cons c t => exact (Stream.getc_of_left_cons hleft).2.2

end Files

/-! ## One word -/

/-- Another stream is not affected. -/
def Frame (f : F) (fs fs' : Files F) : Prop :=
  ∀ g ≠ f, (g ∈ fs'.ungotten ↔ g ∈ fs.ungotten) ∧ fs'.pushed g = fs.pushed g

omit [DecidableEq F] in
theorem Frame.refl (f : F) (fs : Files F) : Frame f fs fs :=
  fun _ _ => ⟨Iff.rfl, rfl⟩

variable {f : F} {fs : Files F}

omit [DecidableEq F] in
theorem Frame.trans {fs₁ fs₂ fs₃ : Files F} (h : Frame f fs₁ fs₂) (h' : Frame f fs₂ fs₃) :
    Frame f fs₁ fs₃ :=
  fun g hg => ⟨(h' g hg).1.trans (h g hg).1, (h' g hg).2.trans (h g hg).2⟩

theorem Frame.getc (f : F) (fs : Files F) : Frame f fs (fs.getc f).2 :=
  fun _ hg => ⟨by rw [Files.ungotten_getc], Files.pushed_getc_of_ne hg fs⟩

theorem Frame.gfUngetc (c : Byte) (f : F) (fs : Files F) : Frame f fs (fs.gfUngetc c f) := by
  intro g hg
  refine ⟨?_, Files.pushed_onStream_of_ne hg _ fs⟩
  rw [Files.gfUngetc, List.mem_append, List.mem_singleton, or_iff_left hg]

theorem Frame.gfRegetc (f : F) (h : fs.ungotten.Nodup) : Frame f fs (fs.gfRegetc f) := by
  intro g hg
  refine ⟨by rw [Files.mem_gfRegetc h, and_iff_right hg], ?_⟩
  rw [Files.pushed, Files.pushed, Files.stream_gfRegetc]

/-- The array is right about a stream. -/
structure Right (f : F) (fs : Files F) : Prop where
  nodup : fs.ungotten.Nodup
  waiting : f ∈ fs.ungotten ↔ (fs.pushed f).isSome

/-- A word keeps the array right about all streams if it leaves it right about its own. -/
theorem Truthful.of_frame {fs fs' : Files F} (h : Truthful fs) (hframe : Frame f fs fs')
    (hright : Right f fs') : Truthful fs' := by
  refine ⟨fun g => ?_, hright.nodup⟩
  rw [Files.gfUngottenc_iff]
  by_cases hg : g = f
  · rw [hg]
    exact hright.waiting
  · rw [(hframe g hg).1, (hframe g hg).2, ← Files.gfUngottenc_iff]
    exact h.waiting g

/-- No character of the stream was pushed back, and the array does not have it. -/
structure Clean (f : F) (fs : Files F) : Prop where
  nodup : fs.ungotten.Nodup
  absent : f ∉ fs.ungotten
  pushed : fs.pushed f = none

omit [DecidableEq F] in
theorem Clean.right (h : Clean f fs) : Right f fs :=
  ⟨h.nodup, by simp [h.absent, h.pushed]⟩

theorem clean_getc (hnodup : fs.ungotten.Nodup) (habsent : f ∉ fs.ungotten) :
    Clean f (fs.getc f).2 :=
  ⟨by rwa [Files.ungotten_getc], by rwa [Files.ungotten_getc], Files.pushed_getc f fs⟩

/-- A character that was just read is pushed back. -/
theorem right_gfUngetc {c : Byte} (h : Clean f fs) (hopen : fs.stream f ≠ none) :
    Right f (fs.gfUngetc c f) := by
  obtain ⟨s, hs⟩ := Option.ne_none_iff_exists'.mp hopen
  have hpushed : s.pushed = none := by
    have := h.pushed
    rwa [Files.pushed, hs, Option.bind_some] at this
  constructor
  · rw [Files.gfUngetc]
    exact List.nodup_append_comm.mp (List.nodup_cons.mpr ⟨h.absent, h.nodup⟩)
  · simp [Files.gfUngetc, Files.onStream, Files.pushed, hs, Stream.ungetc, hpushed]

/-- A character comes only from an open stream. -/
theorem open_of_getc {fs fs' : Files F} {c : Byte} (h : fs.getc f = (some c, fs')) :
    fs'.stream f ≠ none := by
  rw [Files.getc] at h
  split at h
  · injection h with _ h
    rw [← h]
    simp
  · cases h

/-- The loop of {lit}`read-line` leaves the array right. -/
theorem readLineLoop_right (f : F) {room : Nat} :
    ∀ {text : List Byte} {u3 : Nat} {fs : Files F}, fs.ungotten.Nodup → f ∉ fs.ungotten →
      (room = 0 → fs.pushed f = none) →
      Right f (readLineLoop f room text u3 fs).2 ∧ Frame f fs (readLineLoop f room text u3 fs).2 := by
  induction room with
  | zero =>
      intro text u3 fs hnodup habsent hpushed
      exact ⟨Clean.right ⟨hnodup, habsent, hpushed rfl⟩, Frame.refl f fs⟩
  | succ room ih =>
      intro text u3 fs hnodup habsent _
      have hclean := clean_getc hnodup habsent
      have hframe := Frame.getc f fs
      rw [readLineLoop]
      cases hgetc : fs.getc f with
      | mk c fs' =>
          rw [hgetc] at hclean hframe
          cases c with
          | none => exact ⟨hclean.right, hframe⟩
          | some c =>
              dsimp only
              by_cases hlf : c = lf
              · rw [if_pos hlf]
                exact ⟨hclean.right, hframe⟩
              · rw [if_neg hlf]
                by_cases hcr : c = cr
                · rw [if_pos hcr]
                  have hclean' := clean_getc hclean.nodup hclean.absent
                  have hframe' := hframe.trans (Frame.getc f fs')
                  cases hgetc' : fs'.getc f with
                  | mk d fs'' =>
                      rw [hgetc'] at hclean' hframe'
                      cases d with
                      | none => exact ⟨hclean'.right, hframe'⟩
                      | some d =>
                          dsimp only
                          by_cases hd : d = lf
                          · rw [if_neg (not_not.mpr hd)]
                            exact ⟨hclean'.right, hframe'⟩
                          · rw [if_pos hd]
                            exact ⟨right_gfUngetc hclean' (open_of_getc hgetc'),
                              hframe'.trans (Frame.gfUngetc d f fs'')⟩
                · rw [if_neg hcr]
                  obtain ⟨hright, hrest⟩ := @ih (text ++ [c]) (u3 + 1) fs' hclean.nodup hclean.absent
                    fun _ => hclean.pushed
                  exact ⟨hright, hframe.trans hrest⟩

/-! ## The words -/

/-- Before a line is read, the stream is removed from the array. -/
theorem readLine_right_of_pos {u1 : Nat} (h : fs.ungotten.Nodup) (hu1 : 0 < u1) :
    Right f (readLine u1 f fs).2 ∧ Frame f fs (readLine u1 f fs).2 := by
  have hnodup := Files.nodup_gfRegetc (f := f) h
  have habsent : f ∉ (fs.gfRegetc f).ungotten := by
    rw [Files.mem_gfRegetc h]
    exact fun hmem => hmem.1 rfl
  rw [readLine, if_pos hu1]
  obtain ⟨hright, hframe⟩ := @readLineLoop_right F _ f u1 [] 0 _ hnodup habsent
    fun hzero => absurd hzero hu1.ne'
  exact ⟨hright, (Frame.gfRegetc f h).trans hframe⟩

/-- {lit}`read-line` leaves the array right. -/
theorem readLine_right {u1 : Nat} (h : Right f fs) :
    Right f (readLine u1 f fs).2 ∧ Frame f fs (readLine u1 f fs).2 := by
  by_cases hu1 : 0 < u1
  · exact readLine_right_of_pos h.nodup hu1
  · obtain rfl : u1 = 0 := by omega
    exact ⟨h, Frame.refl f fs⟩

/-- {lit}`fread` takes the character that was pushed back, unless it reads nothing. -/
theorem Stream.pushed_fread (n : Nat) (s : Stream) :
    (0 < (s.fread n).1.length ∧ (s.fread n).2.pushed = none) ∨
      ((s.fread n).1.length = 0 ∧ (s.fread n).2 = s) := by
  induction n generalizing s with
  | zero => exact .inr ⟨rfl, rfl⟩
  | succ n ih =>
      cases hleft : s.left with
      | nil =>
          refine .inr ?_
          rw [fread, getc_of_left_nil hleft]
          exact ⟨rfl, rfl⟩
      | cons c t =>
          obtain ⟨hc, -, hpushed⟩ := getc_of_left_cons hleft
          refine .inl ?_
          rw [fread]
          cases hgetc : s.getc with
          | mk d s' =>
              rw [hgetc] at hc hpushed
              dsimp only at hc hpushed
              subst hc
              refine ⟨Nat.succ_pos _, ?_⟩
              rcases ih s' with ⟨-, hnone⟩ | ⟨-, hsame⟩
              · exact hnone
              · dsimp only
                rw [hsame]
                exact hpushed

/-- Another state of a stream -/
theorem frame_update (f : F) (s : Option Stream) (fs : Files F) :
    Frame f fs { fs with stream := Function.update fs.stream f s } := by
  intro g hg
  refine ⟨Iff.rfl, ?_⟩
  rw [Files.pushed, Files.pushed]
  dsimp only
  rw [Function.update_of_ne hg]

/-- The stream after a change. -/
theorem pushed_update (f : F) (s : Option Stream) (fs : Files F) :
    ({ fs with stream := Function.update fs.stream f s } : Files F).pushed f =
      s.bind Stream.pushed := by
  rw [Files.pushed]
  dsimp only
  rw [Function.update_self]

/-- {lit}`read-file` leaves the array right. -/
theorem readFile_right {u1 : Nat} (h : Right f fs) :
    Right f (fs.readFile u1 f).2 ∧ Frame f fs (fs.readFile u1 f).2 := by
  rw [Files.readFile, Files.fread]
  cases hf : fs.stream f with
  | none => exact ⟨h, Frame.refl f fs⟩
  | some s =>
      have hframe := frame_update f (some (s.fread u1).2) fs
      dsimp only
      rcases Stream.pushed_fread u1 s with ⟨hpos, hpushed⟩ | ⟨hzero, hsame⟩
      · rw [if_pos hpos]
        refine ⟨Clean.right ⟨Files.nodup_gfRegetc h.nodup, ?_, ?_⟩,
          hframe.trans (Frame.gfRegetc f h.nodup)⟩
        · intro hmem
          rw [Files.mem_gfRegetc (by exact h.nodup)] at hmem
          exact hmem.1 rfl
        · rw [Files.pushed, Files.stream_gfRegetc, ← Files.pushed, pushed_update, Option.bind_some,
            hpushed]
      · rw [if_neg (by rw [hzero]; exact Nat.lt_irrefl 0)]
        refine ⟨⟨h.nodup, h.waiting.trans ?_⟩, hframe⟩
        rw [pushed_update, Files.pushed, hf, hsame]

/-- {lit}`key_avail` leaves all as it is, or it has read a character. -/
theorem keyAvail_cases (charsAvail : Int) (h : fs.ungotten.Nodup) :
    (fs.keyAvail charsAvail f).2 = fs ∨
      Right f (fs.keyAvail charsAvail f).2 ∧ Frame f fs (fs.keyAvail charsAvail f).2 := by
  rw [Files.keyAvail]
  by_cases hungotten : fs.gfUngottenc f = true
  · exact .inl (by rw [if_pos hungotten])
  · rw [if_neg hungotten]
    by_cases havail : 0 < charsAvail
    · refine .inr ?_
      rw [if_pos havail]
      have hclean := clean_getc h fun hmem => hungotten (Files.gfUngottenc_iff.mpr hmem)
      have hframe := Frame.getc f fs
      cases hgetc : fs.getc f with
      | mk c fs' =>
          rw [hgetc] at hclean hframe
          cases c with
          | none => exact ⟨hclean.right, hframe⟩
          | some c =>
              exact ⟨right_gfUngetc hclean (open_of_getc hgetc),
                hframe.trans (Frame.gfUngetc c f fs')⟩
    · exact .inl (by rw [if_neg havail])

/-- {lit}`key?-file` leaves the array right. -/
theorem keyAvail_right {charsAvail : Int} (h : Right f fs) :
    Right f (fs.keyAvail charsAvail f).2 ∧ Frame f fs (fs.keyAvail charsAvail f).2 := by
  rcases keyAvail_cases charsAvail h.nodup with hsame | hread
  · rw [hsame]
    exact ⟨h, Frame.refl f fs⟩
  · exact hread

theorem pushed_fseeko (offset : Nat) (s : Option Stream) :
    (s.map (Stream.fseeko offset)).bind Stream.pushed = none := by
  cases s <;> rfl

theorem Truthful.right (h : Truthful fs) (f : F) : Right f fs :=
  ⟨h.nodup, Files.gfUngottenc_iff.symm.trans (h.waiting f)⟩

/-- Another state of one stream -/
theorem truthful_update_iff (h : Truthful fs) (f : F) (s : Option Stream) :
    Truthful ({ fs with stream := Function.update fs.stream f s } : Files F) ↔
      ((fs.pushed f).isSome ↔ (s.bind Stream.pushed).isSome) := by
  constructor
  · intro h'
    have hwaiting := (h.right f).waiting.symm.trans (h'.right f).waiting
    rwa [pushed_update] at hwaiting
  · intro hsame
    refine h.of_frame (frame_update f s fs) ⟨h.nodup, (h.right f).waiting.trans ?_⟩
    rwa [pushed_update]

/-- A stream without its character leaves the array truthful exactly if it had none. -/
theorem truthful_update_none_iff (h : Truthful fs) (f : F) {s : Option Stream}
    (hs : s.bind Stream.pushed = none) :
    Truthful ({ fs with stream := Function.update fs.stream f s } : Files F) ↔
      fs.pushed f = none := by
  rw [truthful_update_iff h, hs]
  simp

namespace Op

variable {fs : Files F}

/-- The array stays right exactly if the word is careful. -/
theorem truthful_effect_iff (h : Truthful fs) {op : Op F} (hpossible : op.Possible fs) :
    Truthful (op.effect fs) ↔ op.Careful fs := by
  cases op with
  | openFile contents f =>
      have hclosed : fs.stream f = none := hpossible
      refine iff_of_true ((truthful_update_none_iff h f rfl).mpr ?_) trivial
      rw [Files.pushed, hclosed, Option.bind_none]
  | closeFile f => exact truthful_update_none_iff h f rfl
  | readFile u1 f =>
      exact iff_of_true (h.of_frame (readFile_right (h.right f)).2 (readFile_right (h.right f)).1)
        trivial
  | readLine u1 f =>
      exact iff_of_true (h.of_frame (readLine_right (h.right f)).2 (readLine_right (h.right f)).1)
        trivial
  | keyFile f =>
      exact iff_of_true (h.of_frame (readFile_right (h.right f)).2 (readFile_right (h.right f)).1)
        trivial
  | keyQueryFile charsAvail f =>
      exact iff_of_true (h.of_frame (keyAvail_right (h.right f)).2 (keyAvail_right (h.right f)).1)
        trivial
  | repositionFile ud f =>
      cases ud with
      | none => exact iff_of_true h trivial
      | some offset => exact truthful_update_none_iff h f (pushed_fseeko offset _)
  | arrive contents f =>
      refine iff_of_true ((truthful_update_iff h f _).mpr ?_) trivial
      rw [Files.pushed, Option.bind_map]
      rfl

/-- No word puts a stream into the array twice. -/
theorem nodup_effect (h : fs.ungotten.Nodup) (op : Op F) : (op.effect fs).ungotten.Nodup := by
  have hread : ∀ u1 f, (fs.readFile u1 f).2.ungotten.Nodup := by
    intro u1 f
    have hsame : (fs.fread u1 f).2.ungotten = fs.ungotten := by
      rw [Files.fread]
      split <;> rfl
    rw [Files.readFile]
    dsimp only
    split
    · exact Files.nodup_gfRegetc (by rwa [hsame])
    · rwa [hsame]
  cases op with
  | openFile contents f => exact h
  | closeFile f => exact h
  | readFile u1 f => exact hread u1 f
  | readLine u1 f =>
      by_cases hu1 : 0 < u1
      · exact (readLine_right_of_pos h hu1).1.nodup
      · obtain rfl : u1 = 0 := by omega
        exact h
  | keyFile f => exact hread 1 f
  | keyQueryFile charsAvail f =>
      rcases keyAvail_cases charsAvail h (f := f) with hsame | hread
      · rw [effect, hsame]
        exact h
      · exact hread.1.nodup
  | repositionFile ud f => cases ud <;> exact h
  | arrive contents f => exact h

end Op

/-! ## Runs -/

theorem truthful_initial : Truthful (Files.initial : Files F) :=
  ⟨fun _ => by simp [Files.gfUngottenc_iff, Files.initial, Files.pushed], List.nodup_nil⟩

/-- A run of one word more. -/
theorem run_concat (ops : List (Op F)) (op : Op F) :
    run (ops ++ [op]) =
      (run ops).bind fun fs => if op.Possible fs then some (op.effect fs) else none := by
  simp [run, List.foldlM_append]

/-- No stream is in the array twice, in any run. -/
theorem ungotten_nodup {ops : List (Op F)} (h : run ops = some fs) : fs.ungotten.Nodup := by
  induction ops using List.reverseRecOn generalizing fs with
  | nil =>
      cases h
      exact List.nodup_nil
  | append_singleton ops op ih =>
      rw [run_concat] at h
      obtain ⟨fs', hrun, hstep⟩ := Option.bind_eq_some_iff.mp h
      split at hstep
      · cases hstep
        exact Op.nodup_effect (ih hrun) op
      · cases hstep

/-- The array is right in all states of a run exactly if no word of the run loses a pushed-back
character: no stream is closed or moved to another position while it has one. -/
theorem truthful_iff_careful (ops : List (Op F)) :
    (∀ before after fs, ops = before ++ after → run before = some fs → Truthful fs) ↔
      ∀ before op after fs, ops = before ++ op :: after → run before = some fs →
        op.Possible fs → op.Careful fs := by
  constructor
  · intro h before op after fs hops hrun hpossible
    have hrun' : run (before ++ [op]) = some (op.effect fs) := by
      rw [run_concat, hrun, Option.bind_some, if_pos hpossible]
    exact (Op.truthful_effect_iff (h before (op :: after) fs hops hrun) hpossible).mp
      (h (before ++ [op]) after _ (by rw [hops, List.append_assoc]; rfl) hrun')
  · intro h before
    induction before using List.reverseRecOn with
    | nil =>
        intro after fs _ hrun
        cases hrun
        exact truthful_initial
    | append_singleton before op ih =>
        intro after fs hops hrun
        rw [List.append_assoc, List.singleton_append] at hops
        rw [run_concat] at hrun
        obtain ⟨fs', hrun', hstep⟩ := Option.bind_eq_some_iff.mp hrun
        split at hstep
        · next hpossible =>
            cases hstep
            exact (Op.truthful_effect_iff (ih _ fs' hops hrun') hpossible).mpr
              (h before op after fs' hops hrun' hpossible)
        · cases hstep

/-- A stream with a pushed-back character is closed, and its pointer is the one of the next stream;
or another stream is moved to its start. -/
theorem ungotten_stale :
    (run [.openFile [0x61#8, cr, 0x62#8] 0, .readLine 3 0, .closeFile 0,
        .openFile [0x63#8] (0 : Nat)]).map (fun fs => (fs.gfUngottenc 0, fs.pushed 0)) =
      some (true, none) ∧
    (run [.openFile [0x61#8, cr, 0x62#8] 0, .readLine 3 0,
        .repositionFile (some 0) (0 : Nat)]).map (fun fs => (fs.gfUngottenc 0, fs.pushed 0)) =
      some (true, none) := by
  decide

end Streams
end Gforth
