import Gforth.Quotes.Scanning

/-!
# What {lit}`\"-parse` returns

What lines with a string mean, and when {lit}`\"-parse` finds it: the string has to end in the lines,
and every line that {lit}`refill` gets has to have a character.

Main results:

- Theorem {lit}`closes_returns`: where no escape is misread, the right string is returned.
- Theorem {lit}`throws_unfinished`: a line ends with a backslash.
-/

namespace Gforth
namespace Quotes

open Lib
open Memory
open Numbers

/-! ## Meaning -/

/-- What is parsed: the string, the number of the line with the quote and the number of the
characters behind it; a backslash at the end of a line; or the string up to the end of the input -/
inductive Meaning where
  | string (text : List Byte) (line left : Nat)
  | unfinished
  | ended (text : List Byte)

namespace Meaning

/-- The string continues in the next line. -/
def after (text : List Byte) : Meaning → Meaning
  | string text' line left => string (text ++ text') (line + 1) left
  | unfinished => unfinished
  | ended text' => ended (text ++ text')

/-- The string -/
def text? : Meaning → Option (List Byte)
  | string text _ _ => some text
  | unfinished => none
  | ended text => some text

end Meaning

section

variable (xc : Nat → List Byte) (newline : List Byte)

/-- What the rest of a line and the lines behind it mean; there is a {lit}`#lf` for each line end. -/
def meaning : List (List Byte) → List Byte → Meaning
  | [], t =>
      match scanLine xc newline t with
      | .quote text left => .string text 0 left
      | .unfinished => .unfinished
      | .through text => .ended (text ++ [lf])
  | l :: ls, t =>
      match scanLine xc newline t with
      | .quote text left => .string text 0 left
      | .unfinished => .unfinished
      | .through text => (meaning ls l).after (text ++ [lf])

end

/-- There is a quote, no line in front of it is empty, and no escape in front of it is misread or at
the end of a line. -/
def closes : List (List Byte) → List Byte → Bool
  | [], t =>
      clean t &&
        match ending t with
        | .quote _ => true
        | _ => false
  | l :: ls, t =>
      clean t &&
        match ending t with
        | .quote _ => true
        | .through => l ≠ [] && closes ls l
        | _ => false

/-- A line ends with a backslash, also when lines are continued behind surrogates, and no line in
front of it is empty. -/
def throws : List (List Byte) → List Byte → Bool
  | [], t => ending t = .unfinished
  | l :: ls, t =>
      match ending t with
      | .quote _ => false
      | .unfinished => true
      | _ => l ≠ [] && throws ls l

variable {w : Nat}

/-- The result of {lit}`\"-parse` is what the lines mean: {lit}`here` and the rest of the stack are
as before, and {lit}`>in` is behind the quote. -/
def Meets (src : Source w) (lines : List (Source w)) (here : BitVec w) (stack : List (BitVec w)) :
    Meaning → Result w → Prop
  | .string text line left, .returned r =>
      r.chars = text ∧ r.addr = here ∧ r.u = BitVec.ofNat w text.length ∧ r.here = here ∧
        r.stack = stack ∧ (src :: lines).drop line = r.source :: r.lines ∧
        r.toIn.toNat + left = r.source.len.toNat
  | .unfinished, .unfinished => True
  | .ended text, .returned r =>
      r.chars = text ∧ r.addr = here ∧ r.u = BitVec.ofNat w text.length ∧ r.here = here ∧
        r.stack = stack
  | _, _ => False

/-- {lit}`\"-parse` returns what the lines mean, whatever is in the memory behind them. -/
def Correct (w : Nat) (ls : List (List Byte)) (l : List Byte) (toIn : Nat) : Prop :=
  ∀ (host : Host w) (src : Source w) (lines : List (Source w)) (here : BitVec w)
    (stack : List (BitVec w)), src.line = l → lines.map Source.line = ls →
    ∃ r, (∃ n, ∀ m, n ≤ m →
        backslashQuoteParse host m here (BitVec.ofNat w toIn) src lines stack = some r) ∧
      Meets src lines here stack (meaning host.xchar host.newline ls (l.drop toIn)) r

/-! ## The end of the string -/

variable {host : Host w} {s s' : Parse w} {src : Source w} {t : List Byte}

/-- {lit}`here` is behind the characters. -/
def Parse.Counted (s : Parse w) : Prop :=
  s.here = s.start + BitVec.ofNat w s.chars.length

theorem Parse.Counted.comma (h : s.Counted) (bs : List Byte) : (s.comma bs).Counted := by
  rw [Counted] at h
  rw [Counted, Parse.comma, h, List.length_append, BitVec.ofNat_add, ← BitVec.add_assoc]

/-- The result is the text between the start and {lit}`here`. -/
theorem Parse.Counted.finish (h : s.Counted) :
    s.finish.addr = s.start ∧ s.finish.u = BitVec.ofNat w s.chars.length ∧
      s.finish.here = s.start := by
  rw [Counted] at h
  have hlength : s.here - s.start = BitVec.ofNat w s.chars.length := by
    rw [h, BitVec.add_comm, BitVec.add_sub_cancel]
  have hstart : s.here - (s.here - s.start) = s.start := by
    rw [hlength, h, BitVec.add_sub_cancel]
  exact ⟨hstart, hlength, hstart⟩

/-- {lit}`>in` is behind the quote. -/
theorem Parse.finish_toIn (h : Rest s.source s.p (ascii '"' :: t)) :
    s.finish.toIn.toNat + t.length = s.source.len.toNat := by
  obtain ⟨i, hi, hp⟩ := h.place
  have hhalf := s.source.half
  rw [List.length_cons] at hi
  have hn : s.p + 1#w - s.source.addr = BitVec.ofNat w (i + 1) := by
    rw [hp, BitVec.add_assoc, ← BitVec.ofNat_add, BitVec.add_comm, BitVec.add_sub_cancel]
  have hvalue : (BitVec.ofNat w (i + 1)).toNat = i + 1 := by
    rw [BitVec.toNat_ofNat, Nat.mod_eq_of_lt (by omega)]
  have hslt : (BitVec.ofNat w (i + 1)).slt s.source.len ↔ i + 1 < s.source.len.toNat := by
    rw [BitVec.slt_iff_toInt_lt, toInt_of_lt (by omega), toInt_of_lt (by omega), hvalue]
    exact Int.ofNat_lt
  rw [Parse.finish, hn]
  dsimp only
  split
  · rw [hvalue]
    omega
  · rename_i hnot
    rw [hslt] at hnot
    omega

/-! ## From line to line -/

/-- The state at the start of the next line -/
def Parse.next (s : Parse w) (src : Source w) (lines : List (Source w)) : Parse w :=
  { s.comma [lf] with p := src.addr, stop := src.stop, source := src, lines := lines }

theorem Source.rest_addr (src : Source w) : Rest src src.addr src.line := by
  have hrest := src.rest (Nat.zero_le _)
  rwa [BitVec.add_zero] at hrest

theorem Parse.next_inLine (s : Parse w) (src : Source w) (lines : List (Source w)) :
    InLine (s.next src lines) src.line :=
  ⟨rfl, src.rest_addr⟩

/-- At the end of a line there is the next one. -/
theorem refill_next {lines : List (Source w)} (hstop : s.stop ≤ s.p)
    (hlines : s.lines = src :: lines) : s.refill host = some (s.next src lines) := by
  rw [Parse.refill, if_pos hstop]
  simp only [Parse.comma, hlines]
  rfl

/-- If the next line is not empty, the loop goes on there. -/
theorem reaches_next (host : Host w) {lines : List (Source w)} (hstop : s.stop ≤ s.p)
    (hlines : s.lines = src :: lines) (hne : src.line ≠ []) :
    Reaches host s (s.next src lines) := by
  rintro r ⟨n, hn⟩
  refine ⟨n + 1, fun m hm => ?_⟩
  obtain ⟨m, rfl⟩ := Nat.exists_eq_add_of_le' (le_trans (Nat.le_add_left 1 n) hm)
  have hnext := hn (m + 1) (by omega)
  obtain ⟨c, t, hline⟩ := List.exists_cons_of_ne_nil hne
  have hinLine := s.next_inLine src lines
  rw [hline] at hinLine
  rw [parseLoop, hinLine.refill] at hnext
  rw [parseLoop, refill_next hstop hlines]
  exact hnext

/-- What is returned, in relation to a state -/
structure Finished (s : Parse w) (text : List Byte) (line left : Nat) (r : Returned w) : Prop where
  chars : r.chars = s.chars ++ text
  addr : r.addr = s.start
  u : r.u = BitVec.ofNat w r.chars.length
  here : r.here = s.start
  stack : r.stack = s.stack
  place : (s.source :: s.lines).drop line = r.source :: r.lines
  toIn : r.toIn.toNat + left = r.source.len.toNat

/-- A line without a misread escape, up to the quote -/
theorem returns_quote (hw : 21 ≤ w) (host : Host w) (h : InLine s t) (hcounted : s.Counted)
    {left : Nat} (hending : ending t = .quote left) :
    ∃ r, Returns host s (.returned r) ∧
      Finished s (codeText host.xchar host.newline t) 0 left r := by
  have hrun := line_run hw host h
  rw [hending] at hrun
  obtain ⟨p, t', hleft, hrest, hrun⟩ := hrun
  have hinLine := h.on (codeText host.xchar host.newline t) hrest
  have hfinish := Parse.Counted.finish
    (s := s.on (codeText host.xchar host.newline t) p) (hcounted.comma _)
  refine ⟨_, hrun _ hinLine.quote, rfl, hfinish.1, hfinish.2.1, hfinish.2.2, rfl, rfl, ?_⟩
  rw [← hleft]
  exact Parse.finish_toIn hinLine.rest

section

variable (xc : Nat → List Byte) (newline : List Byte)

/-- A line with a clean text ends at its quote. -/
theorem scanLine_quote {left : Nat} (hclean : clean t = true) (hending : ending t = .quote left) :
    scanLine xc newline t = .quote (codeText xc newline t) left := by
  have hmatches := scanLine_matches xc newline t
  rw [hclean, hending] at hmatches
  cases hline : scanLine xc newline t <;> rw [hline] at hmatches
  · rw [hmatches.1, hmatches.2.eq rfl]
  · cases hmatches
  · cases hmatches

/-- A line with a clean text may go on with the next one. -/
theorem scanLine_through (hclean : clean t = true) (hending : ending t = .through) :
    scanLine xc newline t = .through (codeText xc newline t) := by
  have hmatches := scanLine_matches xc newline t
  rw [hclean, hending] at hmatches
  cases hline : scanLine xc newline t <;> rw [hline] at hmatches
  · cases hmatches
  · cases hmatches
  · rw [hmatches.eq rfl]

/-- A line that ends in a backslash is unfinished. -/
theorem scanLine_unfinished (hending : ending t = .unfinished) :
    scanLine xc newline t = .unfinished := by
  have hmatches := scanLine_matches xc newline t
  rw [hending] at hmatches
  cases hline : scanLine xc newline t with
  | unfinished => rfl
  | quote text left | through text =>
      rw [hline] at hmatches
      cases hmatches

/-- The line ends without a quote. -/
theorem scanLine_cases (hending : ending t = .through ∨ ending t = .dangling) :
    scanLine xc newline t = .unfinished ∨ ∃ text, scanLine xc newline t = .through text := by
  have hmatches := scanLine_matches xc newline t
  cases hline : scanLine xc newline t with
  | quote text left =>
      rw [hline] at hmatches
      rcases hending with hending | hending <;> rw [hending] at hmatches <;> cases hmatches
  | unfinished => exact .inl rfl
  | through text => exact .inr ⟨text, rfl⟩

end

/-- The rest of the string is in the next line. -/
theorem Finished.after {lines : List (Source w)} {text text' : List Byte} {p : BitVec w}
    {line left : Nat} {r : Returned w} (hlines : s.lines = src :: lines)
    (h : Finished ((s.on text p).next src lines) text' line left r) :
    Finished s (text ++ [lf] ++ text') (line + 1) left r := by
  refine ⟨?_, h.addr, h.u, h.here, h.stack, ?_, h.toIn⟩
  · rw [h.chars]
    simp [Parse.next, Parse.on, Parse.comma]
  · rw [List.drop_succ_cons, hlines]
    exact h.place

/-- The right string is returned. -/
theorem closes_returns (hw : 21 ≤ w) (host : Host w) {ls : List (List Byte)} (h : InLine s t)
    (hcounted : s.Counted) (hlines : s.lines.map Source.line = ls) (hcloses : closes ls t = true) :
    ∃ text line left r, meaning host.xchar host.newline ls t = .string text line left ∧
      Returns host s (.returned r) ∧ Finished s text line left r := by
  induction ls generalizing s t with
  | nil =>
      rw [closes, Bool.and_eq_true] at hcloses
      obtain ⟨hclean, hcloses⟩ := hcloses
      cases hending : ending t with
      | quote left =>
          obtain ⟨r, hreturns, hfinished⟩ := returns_quote hw host h hcounted hending
          rw [meaning, scanLine_quote _ _ hclean hending]
          exact ⟨_, 0, left, r, rfl, hreturns, hfinished⟩
      | unfinished | through | dangling =>
          rw [hending] at hcloses
          cases hcloses
  | cons l ls ih =>
      rw [closes, Bool.and_eq_true] at hcloses
      obtain ⟨hclean, hcloses⟩ := hcloses
      cases hending : ending t with
      | quote left =>
          obtain ⟨r, hreturns, hfinished⟩ := returns_quote hw host h hcounted hending
          rw [meaning, scanLine_quote _ _ hclean hending]
          exact ⟨_, 0, left, r, rfl, hreturns, hfinished⟩
      | through =>
          rw [hending, Bool.and_eq_true, decide_eq_true_eq] at hcloses
          obtain ⟨hne, hcloses⟩ := hcloses
          cases hsources : s.lines with
          | nil =>
              rw [hsources] at hlines
              cases hlines
          | cons src lines =>
              rw [hsources] at hlines
              obtain ⟨hline, hlines⟩ := List.cons.inj hlines
              have hrun := line_run hw host h
              rw [hending] at hrun
              obtain ⟨p, hstop, hrun⟩ := hrun
              rw [← hline] at hne hcloses
              have hnext := reaches_next host
                (s := s.on (codeText host.xchar host.newline t) p) hstop hsources hne
              obtain ⟨text, line, left, r, hmeaning, hreturns, hfinished⟩ :=
                ih ((s.on (codeText host.xchar host.newline t) p).next_inLine src lines)
                  ((hcounted.comma _).comma _) hlines hcloses
              rw [hline] at hmeaning
              rw [meaning, scanLine_through _ _ hclean hending, hmeaning]
              exact ⟨_, line + 1, left, r, rfl, hrun _ (hnext _ hreturns),
                hfinished.after hsources⟩
      | unfinished | dangling =>
          rw [hending] at hcloses
          cases hcloses

/-- A text that throws has no meaning. -/
theorem throws_meaning (xc : Nat → List Byte) (newline : List Byte) {ls : List (List Byte)}
    (hthrows : throws ls t = true) : meaning xc newline ls t = .unfinished := by
  induction ls generalizing t with
  | nil => rw [meaning, scanLine_unfinished _ _ (of_decide_eq_true hthrows)]
  | cons l ls ih =>
      rw [throws] at hthrows
      rw [meaning]
      cases hending : ending t with
      | quote left =>
          rw [hending] at hthrows
          cases hthrows
      | unfinished => rw [scanLine_unfinished _ _ hending]
      | through | dangling =>
          rw [hending, Bool.and_eq_true] at hthrows
          have hcases := scanLine_cases xc newline (t := t) (by simp [hending])
          rcases hcases with hline | ⟨text, hline⟩
          · rw [hline]
          · rw [hline, ih hthrows.2]
            rfl

/-- There is an unfinished escape, whatever is behind the lines. -/
theorem throws_unfinished (hw : 21 ≤ w) (host : Host w) {ls : List (List Byte)} (h : InLine s t)
    (hlines : s.lines.map Source.line = ls) (hthrows : throws ls t = true) :
    Returns host s .unfinished := by
  induction ls generalizing s t with
  | nil =>
      have hrun := line_run hw host h
      rw [of_decide_eq_true hthrows] at hrun
      exact hrun
  | cons l ls ih =>
      have hrun := line_run hw host h
      cases hsources : s.lines with
      | nil =>
          rw [hsources] at hlines
          cases hlines
      | cons src lines =>
          rw [hsources] at hlines
          obtain ⟨hline, hlines⟩ := List.cons.inj hlines
          rw [throws, ← hline] at hthrows
          have hbehind : ∀ bs p, s.stop ≤ p → Reaches host s (s.on bs p) →
              (src.line ≠ [] && throws ls src.line) = true → Returns host s .unfinished := by
            intro bs p hstop hreaches hthrows
            rw [Bool.and_eq_true, decide_eq_true_eq] at hthrows
            have hnext := reaches_next host (s := s.on bs p) hstop hsources hthrows.1
            exact hreaches _ (hnext _ (ih ((s.on bs p).next_inLine src lines) hlines hthrows.2))
          cases hending : ending t with
          | quote left =>
              rw [hending] at hthrows
              cases hthrows
          | unfinished =>
              rw [hending] at hrun
              exact hrun
          | through =>
              rw [hending] at hrun hthrows
              obtain ⟨p, hstop, hreaches⟩ := hrun
              exact hbehind _ p hstop hreaches hthrows
          | dangling =>
              rw [hending] at hrun hthrows
              rcases hrun with hrun | ⟨bs, p, hstop, hreaches⟩
              · exact hrun
              · exact hbehind bs p hstop hreaches hthrows

end Quotes
end Gforth
