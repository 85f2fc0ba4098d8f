import Gforth.Streams.Lines
import Gforth.Streams.Ungotten

/-!
# Positions in files

{lit}`ftello` counts a pushed-back character as not read.  What is left of a stream are the
characters of the file from this position on, as long as a character that is pushed back is the one
that was read.

Main results:

- Theorem {lit}`Stream.Placed.left_eq`: what is left from the position on.
- Theorem {lit}`refill_reads`: reading lines keeps this.
-/

namespace Gforth
namespace Streams

open Lib

namespace Stream

/-- {lit}`ftello` -/
def tell (s : Stream) : Nat :=
  s.position - s.pushed.toList.length

/-- The position is in the file, and a pushed-back character is the one in front of it. -/
structure Placed (s : Stream) : Prop where
  le : s.position ≤ s.contents.length
  pushed : ∀ c, s.pushed = some c → 0 < s.position ∧ s.contents[s.position - 1]? = some c

/-- What is left are the contents from the position on. -/
theorem Placed.left_eq {s : Stream} (h : s.Placed) :
    s.left = s.contents.drop s.tell ∧ s.tell ≤ s.contents.length := by
  have hle := h.le
  rw [left, tell]
  cases hpushed : s.pushed with
  | none =>
      rw [Option.toList_none, List.nil_append, List.length_nil, Nat.sub_zero]
      exact ⟨rfl, hle⟩
  | some c =>
      obtain ⟨hpos, hget⟩ := h.pushed c hpushed
      obtain ⟨hlt, hc⟩ := List.getElem?_eq_some_iff.mp hget
      have hnext := List.drop_eq_getElem_cons hlt
      rw [Nat.sub_add_cancel hpos, hc] at hnext
      rw [Option.toList_some, List.length_singleton, hnext]
      exact ⟨rfl, by omega⟩

/-- The position is given by what is left. -/
theorem Placed.tell_eq {s : Stream} (h : s.Placed) {n : Nat} (hn : n ≤ s.contents.length)
    (hleft : s.left = s.contents.drop n) : s.tell = n := by
  obtain ⟨htell, hle⟩ := h.left_eq
  have hlength := congrArg List.length (htell.symm.trans hleft)
  rw [List.length_drop, List.length_drop] at hlength
  omega

theorem opened_placed (contents : List Byte) : (opened contents).Placed :=
  ⟨Nat.zero_le _, fun _ h => by cases h⟩

theorem fseeko_placed {s : Stream} {n : Nat} (h : n ≤ s.contents.length) :
    (s.fseeko n).Placed :=
  ⟨h, fun _ hc => by cases hc⟩

/-- A character that is read is the one in front of the new position. -/
theorem Placed.getc {s : Stream} (h : s.Placed) :
    s.getc.2.Placed ∧ s.getc.2.contents = s.contents ∧
      ∀ c, s.getc.1 = some c → s.getc.2.pushed = none ∧ (s.getc.2.ungetc c).Placed := by
  rw [Stream.getc]
  cases hpushed : s.pushed with
  | some c =>
      obtain ⟨hpos, hget⟩ := h.pushed c hpushed
      refine ⟨⟨h.le, by rintro _ ⟨⟩⟩, rfl, ?_⟩
      rintro _ ⟨⟩
      refine ⟨rfl, h.le, ?_⟩
      rintro _ ⟨⟩
      exact ⟨hpos, hget⟩
  | none =>
      cases hnext : s.contents[s.position]? with
      | none => exact ⟨h, rfl, by rintro _ ⟨⟩⟩
      | some c =>
          obtain ⟨hlt, -⟩ := List.getElem?_eq_some_iff.mp hnext
          refine ⟨⟨hlt, by rintro _ ⟨⟩⟩, rfl, ?_⟩
          rintro _ ⟨⟩
          refine ⟨rfl, hlt, ?_⟩
          rintro _ ⟨⟩
          exact ⟨Nat.succ_pos _, hnext⟩

end Stream

variable {F : Type} [DecidableEq F] {f g : F} {fs fs' fs'' : Files F}

/-- A stream is open, with these characters in its file, and at a right position. -/
def Files.PlacedAt (f : F) (contents : List Byte) (fs : Files F) : Prop :=
  ∃ s, fs.stream f = some s ∧ s.Placed ∧ s.contents = contents

/-- What reading from a stream keeps -/
structure Reads (f : F) (fs fs' : Files F) : Prop where
  other : ∀ g, g ≠ f → fs'.stream g = fs.stream g
  placed : ∀ contents, fs.PlacedAt f contents → fs'.PlacedAt f contents

omit [DecidableEq F] in
theorem Reads.refl (f : F) (fs : Files F) : Reads f fs fs :=
  ⟨fun _ _ => rfl, fun _ => id⟩

omit [DecidableEq F] in
theorem Reads.trans (h : Reads f fs fs') (h' : Reads f fs' fs'') : Reads f fs fs'' :=
  ⟨fun g hg => (h'.other g hg).trans (h.other g hg), fun c hc => h'.placed c (h.placed c hc)⟩

/-- {lit}`gf_regetc` does not move the stream. -/
theorem Reads.gfRegetc (f : F) (fs : Files F) : Reads f fs (fs.gfRegetc f) := by
  have hstream : (fs.gfRegetc f).stream = fs.stream := by
    rw [Files.gfRegetc]
    split <;> rfl
  refine ⟨fun g _ => by rw [hstream], fun contents hplaced => ?_⟩
  rw [Files.PlacedAt, hstream]
  exact hplaced

/-- {lit}`getc`, and what {lit}`gf_ungetc` of the same character does -/
theorem Reads.getc (f : F) (fs : Files F) : Reads f fs (fs.getc f).2 ∧
    ∀ c, (fs.getc f).1 = some c → Reads f fs ((fs.getc f).2.gfUngetc c f) := by
  rw [Files.getc]
  cases hf : fs.stream f with
  | none => exact ⟨.refl f fs, by rintro _ ⟨⟩⟩
  | some s =>
      refine ⟨⟨fun g hg => Function.update_of_ne hg _ _, ?_⟩, fun c hc => ⟨fun g hg => ?_, ?_⟩⟩
      · rintro contents ⟨s', hs', hplaced, rfl⟩
        cases hf.symm.trans hs'
        exact ⟨_, Function.update_self _ _ _, hplaced.getc.1, hplaced.getc.2.1⟩
      · rw [Files.gfUngetc, Files.onStream]
        dsimp only
        rw [Function.update_of_ne hg, Function.update_of_ne hg]
      · rintro contents ⟨s', hs', hplaced, rfl⟩
        cases hf.symm.trans hs'
        obtain ⟨-, hcontents, hback⟩ := hplaced.getc
        obtain ⟨hnone, hplaced'⟩ := hback c hc
        refine ⟨(s.getc.2).ungetc c, ?_, hplaced', ?_⟩
        · simp [Files.gfUngetc, Files.onStream]
        · rw [Stream.ungetc, hnone]
          exact hcontents

/-- The loop of {lit}`read-line` only reads. -/
theorem readLineLoop_reads (f : F) {room : Nat} {text : List Byte} {u3 : Nat} {fs : Files F} :
    Reads f fs (readLineLoop f room text u3 fs).2 := by
  induction room generalizing text u3 fs with
  | zero => exact .refl f fs
  | succ room ih =>
      rw [readLineLoop]
      have hfirst := (Reads.getc f fs).1
      split
      · rename_i hgetc
        rw [hgetc] at hfirst
        exact hfirst
      · rename_i c fs₁ hgetc
        rw [hgetc] at hfirst
        dsimp only
        split
        · exact hfirst
        · split
          · obtain ⟨hsecond, hback⟩ := Reads.getc f fs₁
            split
            · rename_i hgetc'
              rw [hgetc'] at hsecond
              exact hfirst.trans hsecond
            · rename_i d fs₂ hgetc'
              rw [hgetc'] at hsecond hback
              split
              · exact hfirst.trans (hback d rfl)
              · exact hfirst.trans hsecond
          · exact hfirst.trans ih

/-- {lit}`read-line` only reads. -/
theorem readLine_reads (u1 : Nat) (f : F) (fs : Files F) : Reads f fs (readLine u1 f fs).2 := by
  rw [readLine]
  split
  · exact (Reads.gfRegetc f fs).trans (readLineLoop_reads f)
  · exact readLineLoop_reads f

/-- The loop of {lit}`refill` only reads. -/
theorem refillLoop_reads {fuel : Nat} {b b' : InputBlock F} {flag : Bool}
    (h : refillLoop fuel b fs = some (flag, b', fs')) :
    Reads b.loadfile fs fs' ∧ b'.loadfile = b.loadfile ∧ b.maxTib ≤ b'.maxTib ∧
      b'.loadline = b.loadline := by
  induction fuel generalizing b fs with
  | zero => cases h
  | succ fuel ih =>
      rw [refillLoop] at h
      dsimp only at h
      have hreads := readLine_reads (b.maxTib - b.text.length) b.loadfile fs
      split at h
      · split at h
        · obtain ⟨hrest, hfile, hmax, hline⟩ := ih h
          exact ⟨hreads.trans hrest, hfile, le_trans (Nat.le_mul_of_pos_right _ (by decide)) hmax,
            hline⟩
        · cases h
          exact ⟨hreads, rfl, le_rfl, rfl⟩
      · cases h
        exact ⟨hreads, rfl, le_rfl, rfl⟩

/-- {lit}`refill` keeps the position right, and the other streams as they are. -/
theorem refill_reads {fuel : Nat} {b b' : InputBlock F} {flag : Bool}
    (h : refill fuel b fs = some (flag, b', fs')) :
    Reads b.loadfile fs fs' ∧ b'.loadfile = b.loadfile ∧ b.maxTib ≤ b'.maxTib ∧
      b'.loadline = b.loadline + 1 := by
  rw [refill] at h
  split at h
  · cases h
  · rename_i flag' b₁ fs₁ hloop
    cases h
    obtain ⟨hreads, hfile, hmax, hline⟩ := refillLoop_reads hloop
    exact ⟨hreads, hfile, hmax, congrArg (· + 1) hline⟩

end Streams
end Gforth
