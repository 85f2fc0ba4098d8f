import Gforth.Lib.Bytes

/-!
# Lines

A text is split at its newlines, which are LF, CR LF or CR.  A reader with a buffer of some size
gets a line in pieces.

Main results:

- Theorem {lit}`segments_separated`: the segments are the parts of the text between its newlines.
- Theorem {lit}`flatten_cutLines`: the pieces of a line make up the line.
-/

namespace Gforth
namespace Lib

/-- LF -/
def lf : Byte := 0x0A#8

/-- CR -/
def cr : Byte := 0x0D#8

/-- A character that starts a newline -/
abbrev Newline (c : Byte) : Prop :=
  c = lf ∨ c = cr

/-- The text of a line, and the newline behind it, which the last line need not have -/
structure Segment where
  text : List Byte
  separator : List Byte
deriving DecidableEq

namespace Segment

/-- All characters of a segment -/
def chars (s : Segment) : List Byte :=
  s.text ++ s.separator

/-- One more character at the start of the first line -/
def push (c : Byte) : List Segment → List Segment
  | [] => [⟨[c], []⟩]
  | s :: segs => ⟨c :: s.text, s.separator⟩ :: segs

/-- Some characters of the text were read; if this was all of the last line, there is none left. -/
def behind (n : Nat) (s : Segment) (segs : List Segment) : List Segment :=
  if s.text.drop n = [] ∧ s.separator = [] then segs else ⟨s.text.drop n, s.separator⟩ :: segs

end Segment

open Segment

/-- The lines of a text -/
def segments : List Byte → List Segment
  | [] => []
  | [c] => if Newline c then [⟨[], [c]⟩] else [⟨[c], []⟩]
  | c :: d :: bs =>
      if c = cr ∧ d = lf then ⟨[], [cr, lf]⟩ :: segments bs
      else if Newline c then ⟨[], [c]⟩ :: segments (d :: bs)
      else push c (segments (d :: bs))

/-- The pieces of the lines, for buffers of these sizes: a line ends when it does not fill its
buffer. -/
def cutLines : List Segment → List Nat → List (List Byte)
  | s :: segs, n :: ns =>
      if s.text.length < n then s.text :: cutLines segs ns
      else s.text.take n :: cutLines (behind n s segs) ns
  | _, _ => []

/-- What the pieces leave of the lines -/
def linesLeft : List Segment → List Nat → List Segment
  | s :: segs, n :: ns =>
      if s.text.length < n then linesLeft segs ns else linesLeft (behind n s segs) ns
  | segs, _ => segs

/-! ## The lines of a text -/

/-- The first line of a text, by its first characters -/
theorem segments_cons (c : Byte) (bs : List Byte) :
    segments (c :: bs) =
      if c = cr ∧ bs.head? = some lf then ⟨[], [cr, lf]⟩ :: segments bs.tail
      else if Newline c then ⟨[], [c]⟩ :: segments bs
      else push c (segments bs) := by
  cases bs with
  | nil => simp [segments, push]
  | cons d bs => simp [segments]

theorem cr_ne_lf : cr ≠ lf := by
  decide

theorem segments_lf (bs : List Byte) : segments (lf :: bs) = ⟨[], [lf]⟩ :: segments bs := by
  rw [segments_cons, if_neg (fun h => cr_ne_lf h.1.symm), if_pos (.inl rfl)]

theorem segments_cr_lf (bs : List Byte) :
    segments (cr :: lf :: bs) = ⟨[], [cr, lf]⟩ :: segments bs := by
  rw [segments_cons, if_pos ⟨rfl, rfl⟩, List.tail_cons]

variable {bs : List Byte} {segs : List Segment}

theorem segments_cr (h : bs.head? ≠ some lf) : segments (cr :: bs) = ⟨[], [cr]⟩ :: segments bs := by
  rw [segments_cons, if_neg (fun hlf => h hlf.2), if_pos (.inr rfl)]

theorem segments_other {c : Byte} (h : ¬Newline c) (bs : List Byte) :
    segments (c :: bs) = push c (segments bs) := by
  rw [segments_cons, if_neg (fun hcr => h (.inr hcr.1)), if_neg h]

/-- A text is built up from its end, newline by newline and character by character. -/
theorem text_induction {P : List Byte → Prop} (hnil : P []) (hlf : ∀ bs, P bs → P (lf :: bs))
    (hcrlf : ∀ bs, P bs → P (cr :: lf :: bs))
    (hcr : ∀ bs, bs.head? ≠ some lf → P bs → P (cr :: bs))
    (hother : ∀ c bs, ¬Newline c → P bs → P (c :: bs)) (bs : List Byte) : P bs := by
  induction bs using List.twoStepInduction with
  | nil => exact hnil
  | singleton c =>
      by_cases hc : Newline c
      · rcases hc with rfl | rfl
        · exact hlf [] hnil
        · exact hcr [] (by simp) hnil
      · exact hother c [] hc hnil
  | cons_cons c d bs ih₁ ih₂ =>
      by_cases hc : Newline c
      · rcases hc with rfl | rfl
        · exact hlf _ (ih₂ d)
        · by_cases hd : d = lf
          · subst hd
            exact hcrlf bs ih₁
          · exact hcr _ (by simpa using hd) (ih₂ d)
      · exact hother c _ hc (ih₂ d)

/-- These segments are separated by the newlines of the text. -/
structure Separated (bs : List Byte) (segs : List Segment) : Prop where
  /-- The segments make up the text. -/
  joined : segs.flatMap chars = bs
  /-- There is no newline within a line. -/
  texts : ∀ s ∈ segs, ∀ c ∈ s.text, ¬Newline c
  /-- There are three newlines. -/
  separators : ∀ s ∈ segs, s.separator ∈ [[lf], [cr, lf], [cr], []]
  /-- A line without a newline is not empty. -/
  nonempty : ∀ s ∈ segs, s.separator = [] → s.text ≠ []
  /-- Only the last line has no newline, and CR LF is not torn apart. -/
  chain : segs.IsChain fun s t =>
    s.separator ≠ [] ∧ (s.separator = [cr] → t.chars.head? ≠ some lf)

/-- A text starts with the first character of its first line. -/
theorem head?_flatMap_chars {s : Segment} (h : Separated bs (s :: segs)) :
    bs.head? = s.chars.head? := by
  rw [← h.joined, List.flatMap_cons]
  have hne : s.chars ≠ [] := by
    intro hnil
    rw [chars, List.append_eq_nil_iff] at hnil
    exact h.nonempty s List.mem_cons_self hnil.2 hnil.1
  rw [List.head?_append_of_ne_nil _ hne]

/-- An empty line in front -/
theorem Separated.cons_newline (h : Separated bs segs) (sep : List Byte)
    (hsep : sep ∈ [[lf], [cr, lf], [cr]]) (hcr : sep = [cr] → bs.head? ≠ some lf) :
    Separated (sep ++ bs) (⟨[], sep⟩ :: segs) := by
  have hne : sep ≠ [] := by
    rintro rfl
    simp at hsep
  refine ⟨?_, ?_, ?_, ?_, ?_⟩
  · rw [List.flatMap_cons, h.joined]
    rfl
  · intro s hs
    rcases List.mem_cons.mp hs with rfl | hs
    · simp
    · exact h.texts s hs
  · intro s hs
    rcases List.mem_cons.mp hs with rfl | hs
    · simp only [List.mem_cons, List.not_mem_nil, or_false] at hsep ⊢
      tauto
    · exact h.separators s hs
  · intro s hs hnil
    rcases List.mem_cons.mp hs with rfl | hs
    · exact absurd hnil hne
    · exact h.nonempty s hs hnil
  · cases segs with
    | nil => exact List.isChain_singleton _
    | cons t segs =>
        refine List.isChain_cons_cons.mpr ⟨⟨hne, fun heq => ?_⟩, h.chain⟩
        rw [← head?_flatMap_chars h]
        exact hcr heq

/-- A character at the start of the first line -/
theorem Separated.push {c : Byte} (h : Separated bs segs) (hc : ¬Newline c) :
    Separated (c :: bs) (push c segs) := by
  cases segs with
  | nil =>
      have hnil : bs = [] := h.joined.symm
      subst hnil
      refine ⟨rfl, ?_, ?_, ?_, List.isChain_singleton _⟩
      · simpa [Segment.push] using hc
      · simp [Segment.push]
      · simp [Segment.push]
  | cons s segs =>
      refine ⟨?_, ?_, ?_, ?_, ?_⟩
      · rw [← h.joined]
        rfl
      · intro t ht d hd
        rcases List.mem_cons.mp ht with rfl | ht
        · rcases List.mem_cons.mp hd with rfl | hd
          · exact hc
          · exact h.texts s List.mem_cons_self d hd
        · exact h.texts t (List.mem_cons_of_mem _ ht) d hd
      · intro t ht
        rcases List.mem_cons.mp ht with rfl | ht
        · exact h.separators s List.mem_cons_self
        · exact h.separators t (List.mem_cons_of_mem _ ht)
      · intro t ht hnil
        rcases List.mem_cons.mp ht with rfl | ht
        · exact List.cons_ne_nil _ _
        · exact h.nonempty t (List.mem_cons_of_mem _ ht) hnil
      · cases segs with
        | nil => exact List.isChain_singleton _
        | cons t segs =>
            obtain ⟨hfirst, hrest⟩ := List.isChain_cons_cons.mp h.chain
            exact List.isChain_cons_cons.mpr ⟨hfirst, hrest⟩

/-- The segments are the parts of the text between its newlines. -/
theorem segments_separated (bs : List Byte) : Separated bs (segments bs) := by
  induction bs using text_induction with
  | hnil => exact ⟨rfl, by simp [segments], by simp [segments], by simp [segments], .nil⟩
  | hlf bs ih =>
      rw [segments_lf]
      exact ih.cons_newline [lf] (by simp) fun heq => absurd heq (by decide)
  | hcrlf bs ih =>
      rw [segments_cr_lf]
      exact ih.cons_newline [cr, lf] (by simp) fun heq => absurd heq (by decide)
  | hcr bs hhead ih =>
      rw [segments_cr hhead]
      exact ih.cons_newline [cr] (by simp) fun _ => hhead
  | hother c bs hc ih =>
      rw [segments_other hc]
      exact ih.push hc

/-- Only the empty text has no lines. -/
theorem segments_eq_nil_iff : segments bs = [] ↔ bs = [] := by
  constructor
  · intro h
    have hjoined := (segments_separated bs).joined
    rw [h] at hjoined
    exact hjoined.symm
  · rintro rfl
    rfl

/-! ## Pieces -/

/-- The lines behind the first one -/
theorem segments_drop_line {s : Segment} (h : segments bs = s :: segs) :
    segments (bs.drop s.chars.length) = segs := by
  induction bs using text_induction generalizing s with
  | hnil => cases h
  | hlf bs =>
      rw [segments_lf] at h
      cases h
      rfl
  | hcrlf bs =>
      rw [segments_cr_lf] at h
      cases h
      rfl
  | hcr bs hhead =>
      rw [segments_cr hhead] at h
      cases h
      rfl
  | hother c bs hc ih =>
      rw [segments_other hc] at h
      cases hsegs : segments bs with
      | nil =>
          rw [hsegs] at h
          cases h
          rw [segments_eq_nil_iff.mp hsegs]
          rfl
      | cons t r =>
          rw [hsegs] at h
          cases h
          exact ih hsegs

/-- The lines behind some characters of the first one -/
theorem segments_drop_text {s : Segment} {n : Nat} (h : segments bs = s :: segs)
    (hn : n ≤ s.text.length) : segments (bs.drop n) = behind n s segs := by
  induction n generalizing bs s with
  | zero =>
      have hfirst : s ∈ segments bs := by
        rw [h]
        exact List.mem_cons_self
      rw [List.drop_zero, behind, if_neg, h, List.drop_zero]
      exact fun hnil => (segments_separated bs).nonempty s hfirst hnil.2 hnil.1
  | succ n ih =>
      have hne : s.text ≠ [] := List.ne_nil_of_length_pos (by omega)
      induction bs using text_induction with
      | hnil => cases h
      | hlf bs =>
          rw [segments_lf] at h
          cases h
          exact absurd rfl hne
      | hcrlf bs =>
          rw [segments_cr_lf] at h
          cases h
          exact absurd rfl hne
      | hcr bs hhead =>
          rw [segments_cr hhead] at h
          cases h
          exact absurd rfl hne
      | hother c bs hc =>
          rw [segments_other hc] at h
          rw [List.drop_succ_cons]
          cases hsegs : segments bs with
          | nil =>
              rw [hsegs] at h
              cases h
              rw [segments_eq_nil_iff.mp hsegs, List.drop_nil, behind,
                if_pos ⟨List.drop_of_length_le (by simp), rfl⟩]
              rfl
          | cons t r =>
              rw [hsegs] at h
              cases h
              exact ih hsegs (Nat.le_of_succ_le_succ hn)

/-- The pieces of a line make up the line. -/
theorem flatten_cutLines (segs : List Segment) (ns : List Nat) :
    (cutLines segs ns).flatten ++ (linesLeft segs ns).flatMap text = segs.flatMap text := by
  induction ns generalizing segs with
  | nil => cases segs <;> simp [cutLines, linesLeft]
  | cons n ns ih =>
      cases segs with
      | nil => simp [cutLines, linesLeft]
      | cons s segs =>
          rw [cutLines, linesLeft, List.flatMap_cons]
          split
          · rw [List.flatten_cons, List.append_assoc, ih]
          · have hbehind : (behind n s segs).flatMap text = s.text.drop n ++ segs.flatMap text := by
              rw [behind]
              split
              · next hnil => rw [hnil.1, List.nil_append]
              · rfl
            rw [List.flatten_cons, List.append_assoc, ih, hbehind, ← List.append_assoc,
              List.take_append_drop]

end Lib
end Gforth
