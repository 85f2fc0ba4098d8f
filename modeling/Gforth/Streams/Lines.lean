import Gforth.Streams.ReadLine

/-!
# Lines of files

Lines are read by {lit}`refill` into a buffer that is doubled when it is full, by {lit}`$[]slurp`
into strings that grow with their lengths, and taken from the contents of a file by
{lit}`locate-line`.

Main results:

- Theorems {lit}`refill_line`, {lit}`slurpLine_line`, {lit}`locateLine_line`: one line.
- Theorem {lit}`splitters_agree`: all of them return the same lines.
-/

namespace Gforth
namespace Streams

open Lib

variable {F : Type} [DecidableEq F]

/-! ## The words -/

/-- What {lit}`refill` uses of an input block: {lit}`>in`, the {lit}`#tib` characters of
{lit}`tib`, and variables -/
structure InputBlock (F : Type) where
  toIn : Nat
  text : List Byte
  maxTib : Nat
  loadline : Int
  loadfile : F
  fillBytes : Nat

/-- {lit}`expand-tib`, which keeps the characters -/
def expandTib (n : Nat) (b : InputBlock F) : InputBlock F :=
  { b with maxTib := n }

/-- The loop of {lit}`refill` for files -/
def refillLoop : Nat → InputBlock F → Files F → Option (Bool × InputBlock F × Files F)
  | 0, _, _ => none
  | fuel + 1, b, fs =>
      let u1 := b.maxTib - b.text.length
      let limit := u1 + b.fillBytes
      let (r, fs) := readLine u1 b.loadfile fs
      let b := { b with fillBytes := b.fillBytes + r.u3, text := b.text ++ r.text }
      if r.flag ∧ limit = b.fillBytes then
        if b.text.length = b.fillBytes then refillLoop fuel (expandTib (b.maxTib * 2) b) fs
        else some (r.flag, b, fs)
      else some (r.flag, b, fs)

/-- {lit}`refill` for files -/
def refill (fuel : Nat) (b : InputBlock F) (fs : Files F) :
    Option (Bool × InputBlock F × Files F) :=
  match refillLoop fuel { b with text := [], fillBytes := 0, toIn := 0 } fs with
  | none => none
  | some (flag, b, fs) =>
      some (b.text.length ≠ 0 || flag, { b with loadline := b.loadline + 1 }, fs)

/-- The loop of {lit}`$slurp-line`, with what is in the string -/
def slurpLineLoop (f : F) : Nat → List Byte → Files F → Option (Bool × List Byte × Files F)
  | 0, _, _ => none
  | fuel + 1, line, fs =>
      let u1 := max line.length 0x100
      let (r, fs) := readLine u1 f fs
      if r.text.length = u1 then slurpLineLoop f fuel (line ++ r.text) fs
      else some (r.flag, line ++ r.text, fs)

/-- {lit}`$slurp-line` -/
def slurpLine (f : F) (fuel : Nat) (fs : Files F) : Option (Bool × List Byte × Files F) :=
  slurpLineLoop f fuel [] fs

/-- {lit}`$[]slurp`; the last line is taken off if it is empty. -/
def slurp (f : F) : Nat → Files F → Option (List (List Byte))
  | 0, _ => none
  | fuel + 1, fs =>
      match slurpLine f (fuel + 1) fs with
      | none => none
      | some (flag, line, fs) =>
          if flag then (slurp f fuel fs).map (line :: ·)
          else some (if line.length ≠ 0 then [line] else [])

/-- The loop of {lit}`locate-line`, with the index and the number of the characters that remain -/
def locateLineLoop (bs : List Byte) (lineno : Nat) : Nat → Nat → List Byte × Nat × List Byte
  | _, 0 => ([], lineno + 1, bs)
  | i, k + 1 =>
      if [cr, lf] <+: bs.drop i then (bs.drop (i + 2), lineno + 1, bs.take i)
      else if bs[i]? = some lf ∨ bs[i]? = some cr then (bs.drop (i + 1), lineno + 1, bs.take i)
      else locateLineLoop bs lineno (i + 1) k

/-- {lit}`locate-line`: the rest, the number of the next line, and the line -/
def locateLine (bs : List Byte) (lineno : Nat) : List Byte × Nat × List Byte :=
  locateLineLoop bs lineno 0 bs.length

/-- The lines with their numbers, by {lit}`locate-line` until nothing is left -/
def locateLines : Nat → List Byte → Nat → Option (List (Nat × List Byte))
  | 0, _, _ => none
  | fuel + 1, bs, lineno =>
      if bs = [] then some []
      else
        let (bs, next, line) := locateLine bs lineno
        (locateLines fuel bs next).map ((lineno, line) :: ·)

/-- What a call of {lit}`refill` leaves to the program -/
structure Refilled where
  flag : Bool
  source : List Byte
  fillBytes : Nat
  loadline : Int
deriving DecidableEq

/-- Calls of {lit}`refill`, with as much fuel each -/
def refills (fuel : Nat) : Nat → InputBlock F → Files F → Option (List Refilled)
  | 0, _, _ => some []
  | n + 1, b, fs =>
      match refill fuel b fs with
      | none => none
      | some (flag, b, fs) =>
          (refills fuel n b fs).map (⟨flag, b.text, b.fillBytes, b.loadline⟩ :: ·)

/-! ## The rest of a line -/

/-- Behind {lit}`n` characters of the first line {lit}`s` of the text {lit}`bs` -/
structure InLine (bs : List Byte) (s : Segment) (n : Nat) : Prop where
  first : ∃ segs, segments bs = s :: segs
  le : n ≤ s.text.length

variable {f : F} {bs : List Byte} {s : Segment} {n u1 : Nat} {fs : Files F}

variable {segs : List Segment} {fuel : Nat} {b : InputBlock F}

/-- Nothing is left behind the text of a line without a newline. -/
theorem drop_text_of_separator_nil (h : segments bs = s :: segs) (hsep : s.separator = []) :
    segs = [] ∧ bs.drop s.text.length = [] := by
  have hchain := (segments_separated bs).chain
  rw [h] at hchain
  have hnil : segs = [] := by
    cases segs with
    | nil => rfl
    | cons t segs => exact absurd hsep (List.isChain_cons_cons.mp hchain).1.1
  have hdrop := segments_drop_line h
  rw [hnil, segments_eq_nil_iff, Segment.chars, hsep, List.append_nil] at hdrop
  exact ⟨hnil, hdrop⟩

/-- What a call of {lit}`read_line` does behind some characters of a line: it fills the buffer
with characters of the line, or the rest of the line is shorter. -/
theorem readLine_inLine (h : InLine bs s n) (hleft : fs.left f = bs.drop n) (hu1 : 0 < u1) :
    (n + u1 ≤ s.text.length ∧ (readLine u1 f fs).1 = ⟨(s.text.drop n).take u1, true, u1⟩ ∧
      (readLine u1 f fs).2.left f = bs.drop (n + u1)) ∨
    s.text.length < n + u1 ∧ (readLine u1 f fs).1.text = s.text.drop n ∧
      ((readLine u1 f fs).1.flag = false → s.text ≠ [] ∧ bs.drop s.chars.length = []) ∧
      n + (readLine u1 f fs).1.u3 = s.chars.length ∧
      (readLine u1 f fs).2.left f = bs.drop s.chars.length := by
  obtain ⟨⟨segs, hsegs⟩, hle⟩ := h
  obtain ⟨htext, hflag, hu3, hafter⟩ := readLine_spec f fs hu1
  rw [hleft] at htext hflag hu3 hafter
  have hbehind := segments_drop_text hsegs hle
  rw [Segment.behind] at hbehind
  have hchars : s.chars.length = s.text.length + s.separator.length := List.length_append
  split at hbehind
  · -- the file ends behind these characters
    rename_i hnil
    have hn : s.text.length = n := by
      have := List.drop_eq_nil_iff.mp hnil.1
      omega
    obtain ⟨-, hend⟩ := drop_text_of_separator_nil hsegs hnil.2
    rw [hnil.2, List.length_nil] at hchars
    rw [← hn, hend] at htext hu3 hafter
    have hnone : lineOf u1 [] = ([], 0) := rfl
    rw [hnone] at htext hu3 hafter
    refine .inr ⟨by omega, ?_, fun _ => ⟨?_, ?_⟩, by rw [hu3]; omega, ?_⟩
    · rw [htext, hnil.1]
    · exact (segments_separated bs).nonempty s (by rw [hsegs]; exact List.mem_cons_self) hnil.2
    · rw [hchars, Nat.add_zero, hend]
    · rw [hafter, hchars, Nat.add_zero, hend, List.drop_nil]
  · have hne : bs.drop n ≠ [] := fun hnil => by
      rw [hnil] at hbehind
      cases hbehind
    have hflag' := hflag.mpr hne
    rw [lineOf, hbehind] at htext hu3 hafter
    dsimp only at htext hu3 hafter
    rw [List.length_drop] at htext hu3 hafter
    by_cases hlt : s.text.length - n < u1
    · rw [if_pos hlt] at htext hu3 hafter
      have hrest : (Segment.chars ⟨s.text.drop n, s.separator⟩).length + n = s.chars.length := by
        rw [Segment.chars, List.length_append, List.length_drop, hchars]
        dsimp only
        omega
      refine .inr ⟨by omega, htext, fun hfalse => ?_, by rw [hu3]; omega, ?_⟩
      · rw [hflag'] at hfalse
        cases hfalse
      · rw [hafter, List.drop_drop, ← hrest, Nat.add_comm]
    · rw [if_neg hlt] at htext hu3 hafter
      refine .inl ⟨by omega, ?_, by rw [hafter, List.drop_drop]⟩
      cases hr : (readLine u1 f fs).1
      rw [hr] at htext hflag' hu3
      dsimp only at htext hflag' hu3
      rw [htext, hflag', hu3]

theorem InLine.add (h : InLine bs s n) (hle : n + u1 ≤ s.text.length) : InLine bs s (n + u1) :=
  ⟨h.first, hle⟩

theorem take_append_piece (t : List Byte) (n k : Nat) :
    t.take n ++ (t.drop n).take k = t.take (n + k) :=
  (List.take_add).symm

/-! ## The word refill -/

/-- The loop of {lit}`refill` behind some characters of a line -/
theorem refillLoop_inLine (h : InLine bs s n) (htext : b.text = s.text.take n)
    (hfill : b.fillBytes = n) (hmax : n < b.maxTib) (hleft : fs.left b.loadfile = bs.drop n)
    (hfuel : s.text.length < n + fuel) :
    ∃ flag b' fs', refillLoop fuel b fs = some (flag, b', fs') ∧ b'.text = s.text ∧
      b'.fillBytes = s.chars.length ∧ b'.toIn = b.toIn ∧ b'.loadline = b.loadline ∧
      b'.loadfile = b.loadfile ∧ s.text.length < b'.maxTib ∧
      (s.text.length < b.maxTib → b'.maxTib = b.maxTib) ∧ (flag = false → s.text ≠ []) ∧
      fs'.left b.loadfile = bs.drop s.chars.length := by
  induction fuel generalizing b fs n with
  | zero => exact absurd hfuel (by have := h.le; omega)
  | succ fuel ih =>
      have hlen : b.text.length = n := by
        rw [htext, List.length_take, Nat.min_eq_left h.le]
      have hstop : ∀ limit, s.text.length < limit →
          ¬(limit = s.chars.length ∧ s.text.length = s.chars.length) := by
        rintro limit hlt ⟨rfl, heq⟩
        omega
      rw [refillLoop, hlen, hfill]
      dsimp only
      rcases readLine_inLine h hleft (Nat.sub_pos_of_lt hmax) with
        ⟨hle, hr, hleft'⟩ | ⟨hlt, hr, hflag, hu3, hleft'⟩
      · -- the buffer is full
        have hmax' : n + (b.maxTib - n) = b.maxTib := by omega
        rw [hmax'] at hle hleft'
        rw [hr, htext, take_append_piece, hmax', if_pos ⟨rfl, by omega⟩, if_pos]
        · obtain ⟨flag, b', fs', hloop, htext', hfill', htoIn, hline, hfile, hmax', -, hrest⟩ :=
            ih (b := expandTib (b.maxTib * 2) { b with
              fillBytes := b.maxTib, text := s.text.take b.maxTib }) ⟨h.first, hle⟩ rfl rfl
              (show b.maxTib < b.maxTib * 2 by omega) hleft' (by omega)
          exact ⟨flag, b', fs', hloop, htext', hfill', htoIn, hline, hfile, hmax',
            fun hlt => absurd hlt (Nat.not_lt.mpr hle), hrest⟩
        · rw [List.length_take, Nat.min_eq_left hle]
      · -- the rest of the line fits
        rw [hr, htext, List.take_append_drop, hu3]
        refine ⟨(readLine (b.maxTib - n) b.loadfile fs).1.flag,
          { b with fillBytes := s.chars.length, text := s.text },
          (readLine (b.maxTib - n) b.loadfile fs).2, ?_, rfl, rfl, rfl, rfl, rfl,
          show _ < b.maxTib by omega, fun _ => rfl, fun hfalse => (hflag hfalse).1, hleft'⟩
        split
        · rename_i hcontinue
          rw [if_neg fun heq => hstop _ (by omega) ⟨hcontinue.2, heq⟩]
        · rfl

/-- {lit}`refill` reads the next line, however short the buffer is. -/
theorem refill_line (hsegs : segments (fs.left b.loadfile) = s :: segs) (hmax : 0 < b.maxTib)
    (hfuel : s.text.length < fuel) :
    ∃ b' fs', refill fuel b fs = some (true, b', fs') ∧ b'.text = s.text ∧
      b'.fillBytes = s.chars.length ∧ b'.toIn = 0 ∧ b'.loadline = b.loadline + 1 ∧
      b'.loadfile = b.loadfile ∧ s.text.length < b'.maxTib ∧
      (s.text.length < b.maxTib → b'.maxTib = b.maxTib) ∧
      fs'.left b.loadfile = (fs.left b.loadfile).drop s.chars.length := by
  obtain ⟨flag, b', fs', hloop, htext, hfill, htoIn, hline, hfile, hmax', hsame, hflag, hleft⟩ :=
    refillLoop_inLine (b := { b with text := [], fillBytes := 0, toIn := 0 })
      ⟨⟨segs, hsegs⟩, Nat.zero_le _⟩ rfl rfl hmax rfl (show s.text.length < 0 + fuel by omega)
  refine ⟨{ b' with loadline := b'.loadline + 1 }, fs', ?_, htext, hfill, htoIn, by rw [hline],
    hfile, hmax', hsame, hleft⟩
  rw [refill, hloop]
  dsimp only
  cases flag with
  | true => rw [Bool.or_true]
  | false =>
      have hne := hflag rfl
      rw [← htext] at hne
      simp [hne]

/-- {lit}`refill` at the end of the file -/
theorem refill_end (hend : fs.left b.loadfile = []) (hmax : 0 < b.maxTib) (hfuel : 0 < fuel) :
    ∃ b' fs', refill fuel b fs = some (false, b', fs') ∧ b'.text = [] ∧ b'.fillBytes = 0 ∧
      b'.loadline = b.loadline + 1 := by
  obtain ⟨htext, hflag, hu3, -⟩ := readLine_spec b.loadfile fs hmax
  obtain ⟨fuel, rfl⟩ := Nat.exists_eq_succ_of_ne_zero hfuel.ne'
  have hnone : (readLine b.maxTib b.loadfile fs).1.flag = false := by
    rw [← Bool.not_eq_true, hflag]
    exact not_not.mpr hend
  rw [hend] at htext hu3
  refine ⟨{ b with text := [], fillBytes := 0, toIn := 0, loadline := b.loadline + 1 },
    (readLine b.maxTib b.loadfile fs).2, ?_, rfl, rfl, rfl⟩
  rw [refill, refillLoop]
  simp [hnone, htext, hu3, lineOf, segments]

/-! ## Strings -/

/-- The loop of {lit}`$slurp-line` behind some characters of a line -/
theorem slurpLineLoop_inLine (h : InLine bs s n) (hleft : fs.left f = bs.drop n)
    (hfuel : s.text.length < n + fuel) :
    ∃ flag fs', slurpLineLoop f fuel (s.text.take n) fs = some (flag, s.text, fs') ∧
      (flag = false → s.text ≠ [] ∧ bs.drop s.chars.length = []) ∧
      fs'.left f = bs.drop s.chars.length := by
  induction fuel generalizing fs n with
  | zero => exact absurd hfuel (by have := h.le; omega)
  | succ fuel ih =>
      have hlen : (s.text.take n).length = n := by
        rw [List.length_take, Nat.min_eq_left h.le]
      have hpos : 0 < max n 0x100 := lt_max_of_lt_right (by decide)
      rw [slurpLineLoop, hlen]
      dsimp only
      rcases readLine_inLine h hleft hpos with ⟨hle, hr, hleft'⟩ | ⟨hlt, hr, hflag, -, hleft'⟩
      · -- the piece is full
        have hpiece : ((s.text.drop n).take (max n 0x100)).length = max n 0x100 := by
          rw [List.length_take, List.length_drop, Nat.min_eq_left (by omega)]
        rw [hr]
        dsimp only
        rw [if_pos hpiece, take_append_piece]
        exact ih (h.add hle) hleft' (by omega)
      · have hshort : (s.text.drop n).length ≠ max n 0x100 := by
          have := h.le
          rw [List.length_drop]
          omega
        rw [hr, if_neg hshort, List.take_append_drop]
        exact ⟨_, _, rfl, hflag, hleft'⟩

/-- {lit}`$slurp-line` reads the next line; it can only find the end if nothing is left. -/
theorem slurpLine_line (hsegs : segments (fs.left f) = s :: segs) (hfuel : s.text.length < fuel) :
    ∃ flag fs', slurpLine f fuel fs = some (flag, s.text, fs') ∧
      (flag = false → s.text ≠ [] ∧ fs'.left f = []) ∧
      fs'.left f = (fs.left f).drop s.chars.length := by
  obtain ⟨flag, fs', hloop, hflag, hleft⟩ :=
    slurpLineLoop_inLine ⟨⟨segs, hsegs⟩, Nat.zero_le _⟩ rfl
      (show s.text.length < 0 + fuel by omega)
  refine ⟨flag, fs', hloop, fun hfalse => ?_, hleft⟩
  rw [hleft]
  exact hflag hfalse

/-- {lit}`$slurp-line` at the end of the file -/
theorem slurpLine_end (hend : fs.left f = []) (hfuel : 0 < fuel) :
    ∃ fs', slurpLine f fuel fs = some (false, [], fs') := by
  obtain ⟨fuel, rfl⟩ := Nat.exists_eq_succ_of_ne_zero hfuel.ne'
  obtain ⟨htext, hflag, -⟩ := readLine_spec f fs (show 0 < 0x100 by decide)
  have hnone : (readLine 0x100 f fs).1.flag = false := by
    rw [← Bool.not_eq_true, hflag]
    exact not_not.mpr hend
  rw [hend] at htext
  refine ⟨(readLine 0x100 f fs).2, ?_⟩
  rw [slurpLine, slurpLineLoop]
  simp [hnone, htext, lineOf, segments]

/-! ## The contents of a file -/

/-- The loop of {lit}`locate-line` behind characters that are no newlines -/
theorem locateLineLoop_eq (lineno : Nat) (rest pre : List Byte) (hpre : ∀ c ∈ pre, ¬Newline c) :
    locateLineLoop (pre ++ rest) lineno pre.length rest.length =
      match segments rest with
      | [] => ([], lineno + 1, pre)
      | s :: _ => (rest.drop s.chars.length, lineno + 1, pre ++ s.text) := by
  induction rest using text_induction generalizing pre with
  | hnil => simp [locateLineLoop, segments]
  | hlf rest =>
      rw [segments_lf]
      simp [locateLineLoop, Segment.chars, lf, cr]
  | hcrlf rest =>
      rw [segments_cr_lf]
      simp [locateLineLoop, Segment.chars]
  | hcr rest hhead =>
      have hcrlf : ¬[cr, lf] <+: cr :: rest := by
        rintro ⟨t, ht⟩
        rw [← (List.cons.inj ht).2] at hhead
        exact hhead rfl
      rw [segments_cr hhead, List.length_cons, locateLineLoop, List.drop_left, if_neg hcrlf]
      simp [Segment.chars]
  | hother c rest hc ih =>
      have hcrlf : ¬[cr, lf] <+: c :: rest := by
        rintro ⟨t, ht⟩
        exact hc (.inr (List.cons.inj ht).1.symm)
      have hnext := ih (pre ++ [c]) (by
        intro d hd
        rcases List.mem_append.mp hd with hd | hd
        · exact hpre d hd
        · rw [List.mem_singleton.mp hd]
          exact hc)
      rw [List.append_assoc, List.singleton_append, List.length_append, List.length_singleton]
        at hnext
      rw [segments_other hc, List.length_cons, locateLineLoop, List.drop_left, if_neg hcrlf,
        if_neg (by simpa using not_or.mp hc), hnext]
      cases hrest : segments rest with
      | nil =>
          rw [segments_eq_nil_iff.mp hrest]
          simp [Segment.push, Segment.chars]
      | cons s segs => simp [Segment.push, Segment.chars]

/-- {lit}`locate-line` takes the first line. -/
theorem locateLine_line (hsegs : segments bs = s :: segs) (lineno : Nat) :
    locateLine bs lineno = (bs.drop s.chars.length, lineno + 1, s.text) := by
  have hloop := locateLineLoop_eq lineno bs [] (by simp)
  rw [hsegs] at hloop
  exact hloop

/-! ## All lines -/

/-- The first line is not longer than the text, and it has characters. -/
theorem first_line_length (hsegs : segments bs = s :: segs) :
    s.text.length ≤ bs.length ∧ (bs.drop s.chars.length).length < bs.length := by
  have hjoined := (segments_separated bs).joined
  rw [hsegs, List.flatMap_cons] at hjoined
  have hlength := congrArg List.length hjoined
  rw [List.length_append] at hlength
  have hchars : s.chars.length = s.text.length + s.separator.length := List.length_append
  have hpos : 0 < s.chars.length := by
    by_contra hzero
    have hnil : s.chars = [] := List.length_eq_zero_iff.mp (by omega)
    obtain ⟨htext, hsep⟩ := List.append_eq_nil_iff.mp hnil
    exact (segments_separated bs).nonempty s (by rw [hsegs]; exact List.mem_cons_self) hsep htext
  rw [List.length_drop]
  omega

/-- {lit}`refill` until the end of the file -/
theorem refills_eq (hsegs : segments (fs.left b.loadfile) = segs) (hmax : 0 < b.maxTib)
    (hfuel : (fs.left b.loadfile).length < fuel) :
    refills fuel (segs.length + 1) b fs =
      some (segs.mapIdx (fun k s => ⟨true, s.text, s.chars.length, b.loadline + k + 1⟩) ++
        [⟨false, [], 0, b.loadline + segs.length + 1⟩]) := by
  induction segs generalizing b fs with
  | nil =>
      obtain ⟨b', fs', hrefill, htext, hfill, hline⟩ :=
        refill_end (segments_eq_nil_iff.mp hsegs) hmax (Nat.zero_lt_of_lt hfuel)
      rw [List.length_nil, refills, hrefill]
      simp [refills, htext, hfill, hline]
  | cons s segs ih =>
      obtain ⟨hlength, hless⟩ := first_line_length hsegs
      obtain ⟨b', fs', hrefill, htext, hfill, -, hline, hfile, hmax', -, hleft⟩ :=
        refill_line hsegs hmax (lt_of_le_of_lt hlength hfuel)
      rw [← hfile] at hleft
      have hsegs' : segments (fs'.left b'.loadfile) = segs := by
        rw [hleft, segments_drop_line (hfile ▸ hsegs)]
      have hrest := ih hsegs' (Nat.zero_lt_of_lt hmax')
        (by rw [hleft, hfile]; exact lt_trans hless hfuel)
      rw [List.length_cons, refills, hrefill]
      dsimp only
      rw [hrest]
      have hadd : ∀ k : Nat, b.loadline + 1 + k + 1 = b.loadline + (k + 1 : Nat) + 1 := by
        intro k
        push_cast
        ring
      simp only [Option.map_some, htext, hfill, hline, List.mapIdx_cons, List.cons_append, hadd,
        Nat.cast_zero, add_zero]

/-- {lit}`$[]slurp` -/
theorem slurp_eq (hsegs : segments (fs.left f) = segs) (hfuel : (fs.left f).length < fuel) :
    slurp f fuel fs = some (segs.map Segment.text) := by
  induction fuel generalizing segs fs with
  | zero => exact absurd hfuel (Nat.not_lt_zero _)
  | succ fuel ih =>
      rw [slurp]
      cases segs with
      | nil =>
          obtain ⟨fs', hline⟩ :=
            slurpLine_end (segments_eq_nil_iff.mp hsegs) (Nat.succ_pos fuel)
          rw [hline]
          rfl
      | cons s segs =>
          obtain ⟨hlength, hless⟩ := first_line_length hsegs
          obtain ⟨flag, fs', hline, hflag, hleft⟩ :=
            slurpLine_line hsegs (lt_of_le_of_lt hlength hfuel)
          have hsegs' : segments (fs'.left f) = segs := by rw [hleft, segments_drop_line hsegs]
          rw [hline]
          dsimp only
          cases flag with
          | true =>
              rw [if_pos rfl, ih hsegs' (by rw [hleft]; omega)]
              rfl
          | false =>
              obtain ⟨hne, hend⟩ := hflag rfl
              rw [hend] at hsegs'
              rw [← hsegs']
              simp [hne, segments]

/-- {lit}`locate-line` until nothing is left -/
theorem locateLines_eq (hsegs : segments bs = segs) (hfuel : bs.length < fuel) (lineno : Nat) :
    locateLines fuel bs lineno = some (segs.mapIdx fun k s => (lineno + k, s.text)) := by
  induction fuel generalizing segs bs lineno with
  | zero => exact absurd hfuel (Nat.not_lt_zero _)
  | succ fuel ih =>
      rw [locateLines]
      cases segs with
      | nil => rw [if_pos (segments_eq_nil_iff.mp hsegs), List.mapIdx_nil]
      | cons s segs =>
          have hne : bs ≠ [] := fun hnil => by
            rw [hnil] at hsegs
            cases hsegs
          obtain ⟨-, hless⟩ := first_line_length hsegs
          rw [if_neg hne, locateLine_line hsegs]
          dsimp only
          rw [ih (segments_drop_line hsegs) (by omega)]
          have hadd : ∀ k : Nat, lineno + 1 + k = lineno + (k + 1) := fun k => by omega
          simp only [Option.map_some, List.mapIdx_cons, hadd, add_zero]

/-- All line splitters find the same lines in a file: {lit}`refill` returns true once for each of
them, with the whole line, the number of its characters and the next line number, {lit}`$[]slurp`
and {lit}`locate-line` yield them, and {lit}`locate-line` numbers them like {lit}`refill` if it
starts with 1 where {lit}`loadline` starts with 0. -/
theorem splitters_agree (f : F) (bs : List Byte) (fs : Files F) (hleft : fs.left f = bs)
    (b : InputBlock F) (hfile : b.loadfile = f) (hmax : 1 ≤ b.maxTib) (fuel : Nat)
    (hfuel : bs.length < fuel) :
    Separated bs (segments bs) ∧
      refills fuel ((segments bs).length + 1) b fs =
        some ((segments bs).mapIdx
            (fun k s => ⟨true, s.text, s.chars.length, b.loadline + k + 1⟩) ++
          [⟨false, [], 0, b.loadline + (segments bs).length + 1⟩]) ∧
      slurp f fuel fs = some ((segments bs).map Segment.text) ∧
      ∀ lineno, locateLines fuel bs lineno =
        some ((segments bs).mapIdx fun k s => (lineno + k, s.text)) := by
  subst hfile hleft
  exact ⟨segments_separated _, refills_eq rfl hmax hfuel, slurp_eq rfl hfuel,
    locateLines_eq rfl hfuel⟩

/-- Three newlines and no last one, with a buffer for one character -/
theorem splitters_agree_newlines :
    refills 20 5 ⟨0, [], 1, 0, 0, 0⟩
        (Files.initial.openFile 0 [0x61#8, 0x62#8, cr, lf, cr, 0x63#8, lf, 0x64#8]) =
      some [⟨true, [0x61#8, 0x62#8], 4, 1⟩, ⟨true, [], 1, 2⟩, ⟨true, [0x63#8], 2, 3⟩,
        ⟨true, [0x64#8], 1, 4⟩, ⟨false, [], 0, 5⟩] :=
  (splitters_agree 0 [0x61#8, 0x62#8, cr, lf, cr, 0x63#8, lf, 0x64#8] _ (Files.left_openFile _ _ _)
    ⟨0, [], 1, 0, 0, 0⟩ rfl (by decide) 20 (by decide)).2.1.trans (by decide)

end Streams
end Gforth
