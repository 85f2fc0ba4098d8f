import Gforth.Quotes.Dependence
import Gforth.See.Output

/-!
# Reading decompiled strings

What {lit}`c-\type` prints is put between quotes, in the source that {lit}`see` shows and in the
files of {lit}`write-config`, and {lit}`\"-parse` reads it again.

Main results:

- Theorem {lit}`cBackslashType_read`: the string is read again if it is printed without breaks.
-/

namespace Gforth
namespace See

open Lib
open Numbers
open Quotes

variable {w : Nat}

/-! ## Escapes -/

section

variable (xc : Nat → List Byte) (newline : List Byte)

/-- An escape without surrogates is taken from the front of a line. -/
theorem escape_read {c : Byte} {t t' bs : List Byte} (hc : c ≠ ascii 'u')
    (h : simpleEscape xc newline (c :: t) = (bs, t')) :
    ending (ascii '\\' :: c :: t) = ending t' ∧
      codeText xc newline (ascii '\\' :: c :: t) = bs ++ codeText xc newline t' := by
  obtain ⟨htranslate, hdangling, -⟩ := codeEscape_of_ne (t := t) xc newline hc
  rw [Quotes.translate, if_neg hc, h] at htranslate
  have hrest : codeRest (c :: t) = t' := by
    rw [← codeEscape_snd xc newline, htranslate]
  constructor
  · rw [ending_escape (List.cons_ne_nil _ _), hdangling, hrest]
    rfl
  · rw [codeText_escape _ _ (List.cons_ne_nil _ _) hdangling, hrest, htranslate]

/-- The escape for a newline -/
theorem simpleEscape_newline (t : List Byte) :
    simpleEscape xc newline (ascii 'n' :: t) = (newline, t) := by
  rw [simpleEscape, if_neg (by decide), if_neg (by decide), if_neg (by decide)]
  rfl

/-- Escapes of characters that stand for themselves -/
theorem simpleEscape_self {c : Byte} (hc : c = ascii '"' ∨ c = ascii '\\') (t : List Byte) :
    simpleEscape xc newline (c :: t) = ([c], t) := by
  rcases hc with rfl | rfl
  · rw [simpleEscape, if_neg (by decide), if_neg (by decide), if_neg (by decide)]
    rfl
  · rw [simpleEscape, if_neg (by decide), if_neg (by decide), if_neg (by decide)]
    rfl

/-- Both digits of an escape -/
theorem digitValue_digitChar : ∀ c : Byte,
    Quotes.digitValue 16 (digitChar (c / 16#8)) = some (c.toNat / 16) ∧
      Quotes.digitValue 16 (digitChar (c % 16#8)) = some (c.toNat % 16) := by
  decide

/-- Two digits in hexadecimal are a byte, whatever is behind them. -/
theorem simpleEscape_hex (c : Byte) (t : List Byte) :
    simpleEscape xc newline (ascii 'x' :: digitChar (c / 16#8) :: digitChar (c % 16#8) :: t) =
      ([c], t) := by
  obtain ⟨hhigh, hlow⟩ := digitValue_digitChar c
  have hvalue : (0 * 16 + c.toNat / 16) * 16 + c.toNat % 16 = c.toNat := by omega
  rw [simpleEscape, if_neg (by decide), if_pos rfl]
  simp only [number, hhigh, hlow, hvalue, BitVec.ofNat_toNat, BitVec.setWidth_eq]

end

/-- The pieces, with a quote behind them, are read as the string. -/
theorem pieces_read (f : Format w) (xc : Nat → List Byte) (s rest : List Byte) :
    ending ((pieces f s).flatten ++ ascii '"' :: rest) = .quote rest.length ∧
      codeText xc f.newline ((pieces f s).flatten ++ ascii '"' :: rest) = s := by
  induction s using (pieces.induct f) with
  | case1 =>
    rw [pieces, List.flatten_nil, List.nil_append, ending, codeText, if_pos rfl, if_pos rfl]
    exact ⟨rfl, rfl⟩
  | case2 c s hnewline hpos ih =>
    obtain ⟨t, ht⟩ := List.isPrefixOf_iff_prefix.1 hnewline
    have hread := escape_read xc f.newline (by decide)
      (simpleEscape_newline xc f.newline
        ((pieces f ((c :: s).drop f.newline.length)).flatten ++ ascii '"' :: rest))
    rw [pieces, if_pos hnewline]
    refine ⟨hread.1.trans ih.1, hread.2.trans ?_⟩
    rw [ih.2, ← ht, List.drop_left]
  | case3 c s hnewline hescape ih =>
    have hc : c ≠ ascii 'u' := by rcases hescape with rfl | rfl <;> decide
    have hread := escape_read xc f.newline hc
      (simpleEscape_self xc f.newline hescape ((pieces f s).flatten ++ ascii '"' :: rest))
    rw [pieces, if_neg hnewline, if_pos hescape]
    exact ⟨hread.1.trans ih.1, hread.2.trans (congrArg (List.cons c) ih.2)⟩
  | case4 c s hnewline hescape hprintable ih =>
    obtain ⟨hquote, hbackslash⟩ := not_or.1 hescape
    rw [pieces, if_neg hnewline, if_neg hescape, if_pos hprintable]
    exact ⟨(ending_other hquote hbackslash).trans ih.1,
      (codeText_other _ _ hquote hbackslash).trans (congrArg (List.cons c) ih.2)⟩
  | case5 c s hnewline hescape hprintable ih =>
    have hread := escape_read xc f.newline (by decide)
      (simpleEscape_hex xc f.newline c ((pieces f s).flatten ++ ascii '"' :: rest))
    rw [pieces, if_neg hnewline, if_neg hescape, if_neg hprintable]
    exact ⟨hread.1.trans ih.1, hread.2.trans (congrArg (List.cons c) ih.2)⟩

/-! ## Literals -/

/-- What {lit}`c-\type` prints -/
def emitted (f : Format w) (o : Output w) (s : List Byte) : List Byte :=
  (cBackslashType f s o).text.drop o.text.length

/-- The string is read again: where the source has what is printed and a quote, {lit}`\"-parse`
returns the string at {lit}`here`. -/
def ReadAgain (f : Format w) (o : Output w) (s : List Byte) : Prop :=
  ∀ (host : Host w) (src : Source w) (lines : List (Source w)) (here : BitVec w)
    (stack : List (BitVec w)) (toIn : Nat) (rest : List Byte), host.newline = f.newline →
    toIn ≤ src.line.length → src.line.drop toIn = emitted f o s ++ ascii '"' :: rest →
    ∃ r : Returned w,
      (∃ n, ∀ m, n ≤ m →
        backslashQuoteParse host m here (BitVec.ofNat w toIn) src lines stack =
          some (.returned r)) ∧
        r.chars = s ∧ r.addr = here ∧ r.u = BitVec.ofNat w s.length

/-- A source with a quote behind a text is read up to the quote. -/
theorem parse_read (hw : 21 ≤ w) (host : Host w) (src : Source w) (lines : List (Source w))
    (here : BitVec w) (stack : List (BitVec w)) {toIn left : Nat} (hin : toIn ≤ src.line.length)
    (hending : ending (src.line.drop toIn) = .quote left) :
    ∃ r : Returned w,
      (∃ n, ∀ m, n ≤ m →
        backslashQuoteParse host m here (BitVec.ofNat w toIn) src lines stack =
          some (.returned r)) ∧
        r.chars = codeText host.xchar host.newline (src.line.drop toIn) ∧ r.addr = here ∧
        r.u = BitVec.ofNat w r.chars.length := by
  obtain ⟨r, hreturns, hfinished⟩ := returns_quote hw host
    (startState_inLine here hin lines stack) (startState_counted here _ src lines stack) hending
  exact ⟨r, hreturns, hfinished.chars, hfinished.addr, hfinished.u⟩

/-- A string that is printed without breaks is read again. -/
theorem cBackslashType_read (hw : 21 ≤ w) (f : Format w) (o : Output w) (s : List Byte)
    (h : s = [] ∨ Plain f o (pieces f s)) : ReadAgain f o s := by
  intro host src lines here stack toIn rest hnewline hin hline
  have hemitted : emitted f o s = (pieces f s).flatten := by
    rw [emitted]
    rcases h with rfl | hplain
    · simp [cBackslashType, pieces]
    · rw [hplain.printed, List.drop_left]
  have hread := pieces_read f host.xchar s rest
  rw [← hemitted, ← hline] at hread
  obtain ⟨r, hreturns, hchars, haddr, hu⟩ := parse_read hw host src lines here stack hin hread.1
  rw [hnewline, hread.2] at hchars
  exact ⟨r, hreturns, hchars, haddr, hchars ▸ hu⟩

theorem lf_ne_nil : [lf] ≠ [] :=
  List.cons_ne_nil _ _

/-- A terminal with eighty columns, and no indentation -/
def eightyColumns : Format 64 where
  cols := 80#64
  level := 0#64
  cFormated := true
  cOutput := true
  cClearline := false
  newline := [lf]
  newline_ne := lf_ne_nil

/-- The state at the start of a line -/
def lineStart : Output 64 where
  xPos := 0#64
  yPos := 0#64
  nlflag := false
  uppercase := false
  text := []

/-- A text of a letter, a blank and a newline -/
theorem cBackslashType_read_letters :
    ReadAgain eightyColumns lineStart [ascii 'a', bl, lf] := by
  have hpieces : pieces eightyColumns [ascii 'a', bl, lf] =
      [[ascii 'a'], [bl], [ascii '\\'], [ascii 'n']] := by
    simp +decide [pieces, eightyColumns]
  refine cBackslashType_read (by decide) eightyColumns lineStart _ (.inr ?_)
  rw [hpieces]
  exact ⟨rfl, fun hflag => (by cases hflag), fun hupper => (by cases hupper),
    by simp +decide [Unbroken, eightyColumns, lineStart]⟩

/-- A space at the start of a line is not printed. -/
theorem not_read_space :
    ¬ ∀ (f : Format 64) (o : Output 64) (s : List Byte), f.cFormated = true → f.cOutput = true →
      o.nlflag = false → o.uppercase = false → ReadAgain f o s := by
  intro h
  have hread := h eightyColumns lineStart [bl] rfl rfl rfl rfl
  have hw : 21 ≤ 64 := by decide
  obtain ⟨hline, -⟩ := placed_texts hw [ascii '"'] [] (by decide) (by decide)
  have hemitted : emitted eightyColumns lineStart [bl] = [] := by
    simp +decide [emitted, cBackslashType, cBackslashEmit, cemit, warp, eightyColumns, lineStart]
  have hdrop : (placed hw [ascii '"'] [] (by decide)).line.drop 0 = [ascii '"'] := hline
  have hending : ending ((placed hw [ascii '"'] [] (by decide)).line.drop 0) = .quote 0 := by
    rw [hdrop, ending, if_pos rfl]
    rfl
  obtain ⟨r, hreturns, hchars, -⟩ := hread (utf8Host hw) (placed hw [ascii '"'] [] (by decide)) []
    0#64 [] 0 [] rfl (Nat.zero_le _) (by rw [hdrop, hemitted]; rfl)
  obtain ⟨r', hreturns', hchars', -⟩ := parse_read hw (utf8Host hw)
    (placed hw [ascii '"'] [] (by decide)) [] 0#64 [] (Nat.zero_le _) hending
  have hsame : Result.returned r = .returned r' := Returns.unique hreturns hreturns'
  cases hsame
  rw [hchars, hdrop, codeText, if_pos rfl] at hchars'
  cases hchars'

end See
end Gforth
