import Gforth.Quotes.Parsing

/-!
# What the result depends on

Where the lines do not have the right form, the result of {lit}`\"-parse` depends on what is in the
memory behind them and on the stack.

Main results:

- Theorem {lit}`fails`: a memory and a stack with a wrong result.
- Theorem {lit}`correct_iff`: which lines give the right result.
-/

namespace Gforth
namespace Quotes

open Lib
open Memory
open Utf8
open Numbers
open Characters

variable {w : Nat}

/-! ## Lines in memory -/

/-- A line at address 0, with some characters and then quotes behind it -/
def placed (hw : 21 ≤ w) (l behind : List Byte) (hl : 2 * l.length < 2 ^ w) : Source w where
  addr := 0#w
  len := BitVec.ofNat w l.length
  mem := store (fun _ => ascii '"') 0#w (l ++ behind)
  half := by
    rw [BitVec.toNat_ofNat, Nat.mod_eq_of_lt (by omega)]
    exact hl
  fits := by
    have := two_pow_of_le hw
    rw [show (0#w).toNat = 0 from BitVec.toNat_zero, BitVec.toNat_ofNat,
      Nat.mod_eq_of_lt (by omega)]
    omega

/-- A line in memory and the bytes behind it -/
theorem placed_texts (hw : 21 ≤ w) (l behind : List Byte) (hl : 2 * l.length < 2 ^ w)
    (hbehind : behind.length ≤ 6) :
    (placed hw l behind hl).line = l ∧
      text (placed hw l behind hl).mem (placed hw l behind hl).stop behind.length = behind := by
  have hpow := two_pow_of_le hw
  have hlen : (BitVec.ofNat w l.length).toNat = l.length := by
    rw [BitVec.toNat_ofNat, Nat.mod_eq_of_lt (by omega)]
  have hstored := text_store (fun _ : BitVec w => ascii '"') (a := 0#w) (t := l ++ behind) (n := 0)
    (by rw [List.length_append]; omega)
  rw [Nat.add_zero, text_zero, List.append_nil, List.length_append, text_add] at hstored
  obtain ⟨hline, hrest⟩ := List.append_inj hstored (length_text _ _ _)
  refine ⟨?_, hrest⟩
  rw [Source.line]
  change text _ _ (BitVec.ofNat w l.length).toNat = l
  rw [hlen]
  exact hline

/-! ## UTF-8 -/

/-- {lit}`xc,` puts the encoding of a code point into the dictionary. -/
theorem u8Chars_eq (hw : 21 ≤ w) {n : Nat} (h : n ≤ lastCodePoint) :
    u8Chars (BitVec.ofNat w n) = Utf8.encode n := by
  have hpow := two_pow_of_le hw
  have hmark := toNat_ofNat_small hw (n := 0x80) (by decide)
  have hvalue : (BitVec.ofNat w n).toNat = n := by
    rw [lastCodePoint] at h
    rw [BitVec.toNat_ofNat, Nat.mod_eq_of_lt (by omega)]
  have hless : BitVec.ofNat w n < 0x80#w ↔ n < 0x80 := by
    rw [BitVec.lt_def, hmark, hvalue]
  rw [u8Chars]
  by_cases hascii : n < 0x80
  · rw [if_pos (hless.mpr hascii), Utf8.encode, if_pos hascii, BitVec.setWidth_ofNat_of_le (by omega), lead,
      Nat.zero_add]
  · have hmarked : ∀ b ∈ (Utf8.encode n).map fun b => b.setWidth w, decide (0x80#w ≤ b) = true := by
      intro b hb
      obtain ⟨c, hc, rfl⟩ := List.mem_map.mp hb
      rw [decide_eq_true_eq, BitVec.le_def, hmark, BitVec.toNat_setWidth_of_le (by omega)]
      exact le_toNat_of_mem_encode (by omega) h hc
    have hzero : decide (0x80#w ≤ 0#w) = false := by
      rw [decide_eq_false_iff_not, BitVec.le_def, hmark, BitVec.toNat_zero]
      decide
    have hback : ∀ c : Byte, (c.setWidth w).setWidth 8 = c := fun c => by
      rw [BitVec.setWidth_setWidth_of_le _ (by omega), BitVec.setWidth_eq]
    rw [if_neg (mt hless.mp hascii), u8Split_eq hw (by omega) h, List.takeWhile_append_of_pos hmarked,
      List.takeWhile_cons, hzero, if_neg (by decide), List.append_nil, List.map_map]
    exact List.map_id'' hback _

/-- {lit}`u8!+` stores these bytes. -/
theorem u8StorePlus_u8Chars (hw : 21 ≤ w) (mem : Chars w) (a : BitVec w) {n : Nat}
    (h : n ≤ lastCodePoint) :
    u8StorePlus mem (BitVec.ofNat w n) a =
      (store mem a (u8Chars (BitVec.ofNat w n)),
        a + BitVec.ofNat w (u8Chars (BitVec.ofNat w n)).length) := by
  have hpow := two_pow_of_le hw
  have hvalue : (BitVec.ofNat w n).toNat = n := by
    rw [lastCodePoint] at h
    rw [BitVec.toNat_ofNat, Nat.mod_eq_of_lt (by omega)]
  rw [u8Chars_eq hw h, length_encode, u8StorePlus_eq hw mem a (by rwa [hvalue]), hvalue]

/-- The first byte of an encoding -/
theorem head_encode {n : Nat} (h : n ≤ lastCodePoint) :
    ∃ b, (Utf8.encode n)[0]? = some b ∧ (b.toNat < 0xF0 ↔ n < 0x10000) := by
  rw [lastCodePoint] at h
  rw [Utf8.encode]
  split_ifs
  · refine ⟨_, rfl, ?_⟩
    rw [toNat_lead (by omega)]
    omega
  · refine ⟨_, rfl, ?_⟩
    rw [toNat_lead (by omega)]
    omega
  · refine ⟨_, rfl, ?_⟩
    rw [toNat_lead (by omega)]
    omega
  · refine ⟨_, rfl, ?_⟩
    rw [toNat_lead (by omega)]
    omega

/-- In UTF-8 the characters of pairs have other first bytes. -/
theorem leads_utf8 (hw : 21 ≤ w) : Leads fun v => xcComma .utf8 (BitVec.ofNat w v) := by
  intro u v hu hv hle
  have hule : u ≤ lastCodePoint := le_trans hu.le (by decide)
  obtain ⟨a, ha, halt⟩ := head_encode (n := v) hle
  obtain ⟨b, hb, hblt⟩ := head_encode hule
  dsimp only [xcComma]
  rw [u8Chars_eq hw hle, u8Chars_eq hw hule]
  refine ⟨0, a, b, ha, hb, ?_⟩
  rintro rfl
  omega

/-! ## Wrong results -/

theorem Parse.on_chars (s : Parse w) (bs : List Byte) (p : BitVec w) :
    (s.on bs p).chars = s.chars ++ bs :=
  rfl

/-- A system with UTF-8, and quotes in the memory where nothing else is -/
def utf8Host (hw : 21 ≤ w) : Host w where
  encoding := .utf8
  newline := [lf]
  newline_ne := List.cons_ne_nil lf []
  quote := 0#w
  ended := placed hw [] [] (Nat.two_pow_pos w)

/-- Other characters, or not all of them, or another stack -/
def Differs (s : Parse w) (text : List Byte) (r : Returned w) : Prop :=
  Diverge r.chars (s.chars ++ text) ∨ r.chars.length < (s.chars ++ text).length ∨
    r.stack ≠ s.stack

/-- The string that is returned is not that of the lines. -/
def Wrong (s : Parse w) (m : Meaning) (r : Returned w) : Prop :=
  ∀ text, m.text? = some text → Differs s text r

variable {host : Host w} {s : Parse w} {src : Source w} {t : List Byte} {ls : List (List Byte)}

/-- At the end of the input an item of the stack is taken for an address. -/
theorem returns_ended (hw : 21 ≤ w) {x : BitVec w} (hstop : s.stop ≤ s.p) (hlines : s.lines = [])
    (hstack : s.stack = [x]) :
    ∃ r, Returns (utf8Host hw) s (.returned r) ∧ r.chars = s.chars ++ [lf] ∧ r.stack = [] := by
  let s' : Parse w := { s.comma [lf] with
    p := x, stop := (utf8Host hw).quote + x, source := (utf8Host hw).ended, lines := [],
    stack := [] }
  have hrefill : s.refill (utf8Host hw) = some s' := by
    rw [Parse.refill, if_pos hstop]
    simp only [Parse.comma, hlines, hstack]
    rfl
  refine ⟨s'.finish, .of_step fun m => ?_, rfl, rfl⟩
  rw [parseLoop, hrefill]
  exact if_pos rfl

/-- In an empty line there may be a quote from an older line. -/
theorem returns_empty (host : Host w) {lines : List (Source w)} (hstop : s.stop ≤ s.p)
    (hlines : s.lines = src :: lines) (hquote : src.mem src.addr = ascii '"') :
    ∃ r, Returns host s (.returned r) ∧ r.chars = s.chars ++ [lf] ∧ r.stack = s.stack := by
  refine ⟨(s.next src lines).finish, .of_step fun m => ?_, rfl, rfl⟩
  rw [parseLoop, refill_next hstop hlines]
  exact if_pos hquote

theorem text?_after (m : Meaning) (text : List Byte) :
    (m.after text).text? = m.text?.map (text ++ ·) := by
  cases m <;> rfl

/-- There is a line end behind an empty line. -/
theorem meaning_nil {xc : Nat → List Byte} {newline text : List Byte}
    (h : (meaning xc newline ls []).text? = some text) : 0 < text.length := by
  cases ls with
  | nil =>
      rw [meaning, scanLine] at h
      cases h
      exact Nat.one_pos
  | cons l ls =>
      rw [meaning, scanLine] at h
      dsimp only at h
      rw [text?_after, Option.map_eq_some_iff] at h
      obtain ⟨y, -, rfl⟩ := h
      simp

/-- The characters of a line that is left, and those that are found -/
theorem line_differs {xc : Nat → List Byte} {newline text : List Byte} (hleads : Leads xc)
    (hending : ending t = .through ∨ ending t = .dangling)
    (hline : scanLine xc newline t = .through text) :
    ending t = .through ∧ clean t = true ∧ codeText xc newline t = text ∨
      Diverge (codeText xc newline t) text := by
  have hmatches := scanLine_matches xc newline t
  rw [hline] at hmatches
  rcases hending with hending | hending <;> rw [hending] at hmatches
  · cases hclean : clean t with
    | true =>
        rw [hclean] at hmatches
        exact .inl ⟨hending, rfl, hmatches.eq rfl⟩
    | false =>
        rw [hclean] at hmatches
        exact .inr (Agrees.diverge hmatches rfl hleads)
  · exact .inr (hmatches hleads)

/-- A line that is left, with the right memory behind it -/
theorem passes (hw : 21 ≤ w) (host : Host w)
    (hending : ending t = .through ∨ ending t = .dangling) :
    ∃ behind : List Byte, behind.length ≤ 6 ∧ ∀ s : Parse w, InLine s t →
      text s.source.mem s.source.stop behind.length = behind →
      ∃ p, s.stop ≤ p ∧ Reaches host s (s.on (codeText host.xchar host.newline t) p) := by
  rcases hending with hending | hending
  · refine ⟨[], by decide, fun s h _ => ?_⟩
    have hrun := line_run hw host h
    rw [hending] at hrun
    exact hrun
  · exact dangling_passes hw host hending

/-- Lines can be placed in memory. -/
theorem exists_placed (hw : 21 ≤ w) (hls : ∀ l ∈ ls, 2 * l.length < 2 ^ w) :
    ∃ lines : List (Source w), lines.map Source.line = ls := by
  induction ls with
  | nil => exact ⟨[], rfl⟩
  | cons l ls ih =>
      obtain ⟨hl, hls⟩ := List.forall_mem_cons.mp hls
      obtain ⟨lines, hlines⟩ := ih hls
      exact ⟨placed hw l [] hl :: lines, by
        rw [List.map_cons, hlines, (placed_texts hw l [] hl (Nat.zero_le 6)).1]⟩

/-- A wrong result in the next line, or different characters in this one -/
theorem differs_after {text text' y z : List Byte} {r : Returned w} {p : BitVec w}
    (hsame : text = text' ∨ Diverge text text') (hr : r.chars = s.chars ++ text ++ [lf] ++ z)
    (hrest : text = text' → Differs (s.on (text ++ [lf]) p) y r) :
    Differs s (text' ++ [lf] ++ y) r := by
  rcases hsame with rfl | hdiverge
  · have hdiffers := hrest rfl
    simpa [Differs, Parse.on, Parse.comma] using hdiffers
  · refine .inl ?_
    have hfound := (hdiverge.append ([lf] ++ z) ([lf] ++ y)).push s.chars
    rw [hr]
    simpa using hfound

/-- A line with the quote, where an escape may be misread -/
theorem quote_fails (hw : 21 ≤ w) {left : Nat} (hending : ending t = .quote left)
    (h : InLine s t) :
    ∃ r, Returns (utf8Host hw) s (.returned r) ∧ s.chars <+: r.chars ∧
      (clean t = false → ∀ ls, Wrong s
        (meaning (utf8Host hw).xchar (utf8Host hw).newline ls t) r) := by
  have hleads : Leads (utf8Host hw).xchar := leads_utf8 hw
  have hrun := line_run hw (utf8Host hw) h
  rw [hending] at hrun
  obtain ⟨p, t', -, hrest, hrun⟩ := hrun
  refine ⟨_, hrun _ (h.on _ hrest).quote, List.prefix_append _ _, fun hclean ls text htext => ?_⟩
  have hmatches := scanLine_matches (utf8Host hw).xchar (utf8Host hw).newline t
  rw [hclean, hending] at hmatches
  cases hline : scanLine (utf8Host hw).xchar (utf8Host hw).newline t with
  | unfinished | through text' =>
      rw [hline] at hmatches
      cases hmatches
  | quote text' left' =>
      rw [hline] at hmatches
      have hmeaning : (meaning (utf8Host hw).xchar (utf8Host hw).newline ls t).text? =
          some text' := by
        cases ls <;> rw [meaning, hline] <;> rfl
      rw [← Option.some.inj (hmeaning.symm.trans htext)]
      exact .inl ((hmatches.2.diverge rfl hleads).push s.chars)

/-- What the lines mean, if the first one is left -/
theorem meaning_through {xc : Nat → List Byte} {newline text : List Byte} {l : List Byte}
    (hleads : Leads xc) (hending : ending t = .through ∨ ending t = .dangling)
    (htext : (meaning xc newline (l :: ls) t).text? = some text) :
    ∃ text' y, text = text' ++ [lf] ++ y ∧ (meaning xc newline ls l).text? = some y ∧
      (ending t = .through ∧ clean t = true ∧ codeText xc newline t = text' ∨
        Diverge (codeText xc newline t) text') := by
  rw [meaning] at htext
  rcases scanLine_cases xc newline hending with hline | ⟨text', hline⟩
  · rw [hline] at htext
    cases htext
  · rw [hline] at htext
    dsimp only at htext
    rw [text?_after, Option.map_eq_some_iff] at htext
    obtain ⟨y, hy, rfl⟩ := htext
    exact ⟨text', y, rfl, hy, line_differs hleads hending hline⟩

/-- There are a memory and a stack with which {lit}`\"-parse` returns; what it returns is wrong if an
escape is misread, or a line is empty, or there is no quote. -/
def Fails (hw : 21 ≤ w) (ls : List (List Byte)) (t : List Byte) : Prop :=
  ∃ (behind : List Byte) (lines : List (Source w)) (stack : List (BitVec w)),
    behind.length ≤ 6 ∧ lines.map Source.line = ls ∧
    ∀ s : Parse w, InLine s t → s.lines = lines → s.stack = stack →
      text s.source.mem s.source.stop behind.length = behind →
      ∃ r, Returns (utf8Host hw) s (.returned r) ∧ s.chars <+: r.chars ∧
        (closes ls t = false → Wrong s
          (meaning (utf8Host hw).xchar (utf8Host hw).newline ls t) r)

/-- An empty line behind a line that is left -/
theorem empty_fails (hw : 21 ≤ w) (hls : ∀ l ∈ ls, 2 * l.length < 2 ^ w)
    (hending : ending t = .through ∨ ending t = .dangling) : Fails hw ([] :: ls) t := by
  have hleads : Leads (utf8Host hw).xchar := leads_utf8 hw
  obtain ⟨behind, hlength, hpass⟩ := passes hw (utf8Host hw) hending
  obtain ⟨lines, hlines⟩ := exists_placed hw hls
  refine ⟨behind, placed hw [] [] (Nat.two_pow_pos w) :: lines, [], hlength, ?_,
    fun s h hlines hstack hbehind => ?_⟩
  · rw [List.map_cons, hlines, (placed_texts hw [] [] _ (Nat.zero_le 6)).1]
  · obtain ⟨p, hstop, hreaches⟩ := hpass s h hbehind
    obtain ⟨r, hreturns, hchars, hsame⟩ := returns_empty (utf8Host hw)
      (s := s.on (codeText (utf8Host hw).xchar (utf8Host hw).newline t) p) hstop hlines rfl
    rw [Parse.on_chars] at hchars
    refine ⟨r, hreaches _ hreturns, ?_, fun _ text htext => ?_⟩
    · rw [hchars, List.append_assoc]
      exact List.prefix_append _ _
    · obtain ⟨text', y, rfl, hy, hdiffers⟩ := meaning_through hleads hending htext
      have hpos := meaning_nil hy
      refine differs_after (z := []) (hdiffers.imp_left fun heq => heq.2.2)
        (by rw [hchars, List.append_nil]) (p := p) fun _ => .inr (.inl ?_)
      rw [hchars, Parse.on_chars]
      simp only [List.length_append, List.length_singleton]
      omega

/-- A line behind a line that is left -/
theorem next_fails (hw : 21 ≤ w) {l : List Byte} (hl : 2 * l.length < 2 ^ w) (hne : l ≠ [])
    (hending : ending t = .through ∨ ending t = .dangling) (hnext : Fails hw ls l) :
    Fails hw (l :: ls) t := by
  have hleads : Leads (utf8Host hw).xchar := leads_utf8 hw
  obtain ⟨behind, hlength, hpass⟩ := passes hw (utf8Host hw) hending
  obtain ⟨behind', lines, stack, hlength', hlines, hreturns⟩ := hnext
  obtain ⟨hline, hbehind'⟩ := placed_texts hw l behind' hl hlength'
  refine ⟨behind, placed hw l behind' hl :: lines, stack, hlength, ?_,
    fun s h hsources hstack hbehind => ?_⟩
  · rw [List.map_cons, hlines, hline]
  · obtain ⟨p, hstop, hreaches⟩ := hpass s h hbehind
    have hnext := reaches_next (utf8Host hw)
      (s := s.on (codeText (utf8Host hw).xchar (utf8Host hw).newline t) p) hstop hsources
      (by rwa [hline])
    have hinLine := (s.on (codeText (utf8Host hw).xchar (utf8Host hw).newline t) p).next_inLine
      (placed hw l behind' hl) lines
    rw [hline] at hinLine
    obtain ⟨r, hreturn, ⟨z, hz⟩, hwrong⟩ := hreturns _ hinLine rfl hstack hbehind'
    have hchars : r.chars =
        s.chars ++ codeText (utf8Host hw).xchar (utf8Host hw).newline t ++ [lf] ++ z := hz.symm
    refine ⟨r, hreaches _ (hnext _ hreturn), ?_, fun hcloses text htext => ?_⟩
    · rw [hchars, List.append_assoc, List.append_assoc]
      exact List.prefix_append _ _
    · obtain ⟨text', y, rfl, hy, hdiffers⟩ := meaning_through hleads hending htext
      refine differs_after (p := p) (hdiffers.imp_left fun heq => heq.2.2) hchars fun heq => ?_
      rcases hdiffers with ⟨hthrough, hclean, -⟩ | hdiverge
      · have hcloses' : closes ls l = false := by
          simpa [closes, hthrough, hclean, hne] using hcloses
        have hdiffers := hwrong hcloses' y hy
        simpa [Differs, Parse.next, Parse.on, Parse.comma] using hdiffers
      · exact absurd heq hdiverge.ne

/-- Unless there is an unfinished escape, {lit}`\"-parse` may return. -/
theorem fails (hw : 21 ≤ w) (hls : ∀ l ∈ ls, 2 * l.length < 2 ^ w)
    (hthrows : throws ls t = false) : Fails hw ls t := by
  induction ls generalizing t with
  | nil =>
      cases hending : ending t with
      | quote left =>
          refine ⟨[], [], [], by decide, rfl, fun s h _ _ _ => ?_⟩
          obtain ⟨r, hreturns, hpre, hwrong⟩ := quote_fails hw hending h
          refine ⟨r, hreturns, hpre, fun hcloses => hwrong ?_ []⟩
          rwa [closes, hending, Bool.and_true] at hcloses
      | unfinished =>
          rw [throws, hending] at hthrows
          cases hthrows
      | through | dangling =>
          obtain ⟨behind, hlength, hpass⟩ :=
            passes hw (utf8Host hw) (t := t) (by simp [hending])
          refine ⟨behind, [], [0#w], hlength, rfl, fun s h hlines hstack hbehind => ?_⟩
          obtain ⟨p, hstop, hreaches⟩ := hpass s h hbehind
          obtain ⟨r, hreturns, hchars, hempty⟩ := returns_ended hw
            (s := s.on (codeText (utf8Host hw).xchar (utf8Host hw).newline t) p) hstop hlines hstack
          refine ⟨r, hreaches _ hreturns, ?_, fun _ text _ => .inr (.inr ?_)⟩
          · rw [hchars, Parse.on_chars, List.append_assoc]
            exact List.prefix_append _ _
          · rw [hempty, hstack]
            exact (List.cons_ne_nil _ _).symm
  | cons l ls ih =>
      obtain ⟨hl, hrest⟩ := List.forall_mem_cons.mp hls
      cases hending : ending t with
      | quote left =>
          obtain ⟨lines, hlines⟩ := exists_placed hw hrest
          refine ⟨[], placed hw l [] hl :: lines, [], by decide, ?_, fun s h _ _ _ => ?_⟩
          · rw [List.map_cons, hlines, (placed_texts hw l [] hl (Nat.zero_le 6)).1]
          · obtain ⟨r, hreturns, hpre, hwrong⟩ := quote_fails hw hending h
            refine ⟨r, hreturns, hpre, fun hcloses => hwrong ?_ (l :: ls)⟩
            rwa [closes, hending, Bool.and_true] at hcloses
      | unfinished =>
          rw [throws, hending] at hthrows
          cases hthrows
      | through | dangling =>
          have hleft : ending t = .through ∨ ending t = .dangling := by simp [hending]
          rw [throws, hending] at hthrows
          by_cases hempty : l = []
          · subst hempty
            exact empty_fails hw hrest hleft
          · refine next_fails hw hl hempty hleft (ih hrest ?_)
            simpa [hempty] using hthrows

/-! ## Right results -/

/-- The state at the start of {lit}`\"-parse` -/
def startState (here toIn : BitVec w) (src : Source w) (lines : List (Source w))
    (stack : List (BitVec w)) : Parse w where
  p := toIn + src.addr
  stop := src.stop
  start := here
  here := here
  chars := []
  source := src
  lines := lines
  stack := stack

/-- The parser starts in its line. -/
theorem startState_inLine (here : BitVec w) {toIn : Nat} (hin : toIn ≤ src.line.length)
    (lines : List (Source w)) (stack : List (BitVec w)) :
    InLine (startState here (BitVec.ofNat w toIn) src lines stack) (src.line.drop toIn) := by
  rw [Source.line, length_text] at hin
  have hrest := src.rest hin
  rw [BitVec.add_comm] at hrest
  exact ⟨rfl, hrest⟩

theorem startState_counted (here toIn : BitVec w) (src : Source w) (lines : List (Source w))
    (stack : List (BitVec w)) : (startState here toIn src lines stack).Counted :=
  (BitVec.add_zero here).symm

/-- What is finished is what the lines mean. -/
theorem Finished.meets {here toIn : BitVec w} {lines : List (Source w)} {stack : List (BitVec w)}
    {text : List Byte} {line left : Nat} {r : Returned w}
    (h : Finished (startState here toIn src lines stack) text line left r) :
    Meets src lines here stack (.string text line left) (.returned r) := by
  have hchars : r.chars = text := h.chars
  refine ⟨hchars, h.addr, ?_, h.here, h.stack, h.place, h.toIn⟩
  rw [h.u, hchars]

/-- What is wrong is not what the lines mean. -/
theorem Wrong.not_meets {here toIn : BitVec w} {lines : List (Source w)} {stack : List (BitVec w)}
    {m : Meaning} {r : Returned w} (h : Wrong (startState here toIn src lines stack) m r) :
    ¬Meets src lines here stack m (.returned r) := by
  have hdiffers : ∀ text, m.text? = some text → r.chars = text → r.stack = stack → False := by
    rintro text htext rfl hstack
    rcases h _ htext with hdiverge | hless | hne
    · exact hdiverge.ne rfl
    · exact lt_irrefl _ hless
    · exact hne hstack
  intro hmeets
  cases m with
  | string text line left => exact hdiffers text rfl hmeets.1 hmeets.2.2.2.2.1
  | unfinished => exact hmeets
  | ended text => exact hdiffers text rfl hmeets.1 hmeets.2.2.2.2

/-- In all other cases a result is wrong. -/
theorem not_correct (hw : 21 ≤ w) {l : List Byte} (hls : ∀ l' ∈ l :: ls, 2 * l'.length < 2 ^ w)
    {toIn : Nat} (hin : toIn ≤ l.length) (hcloses : closes ls (l.drop toIn) = false)
    (hthrows : throws ls (l.drop toIn) = false) : ¬Correct w ls l toIn := by
  intro hcorrect
  obtain ⟨hl, hrest⟩ := List.forall_mem_cons.mp hls
  obtain ⟨behind, lines, stack, hlength, hlines, hfails⟩ := fails hw hrest hthrows
  obtain ⟨hline, hbehind⟩ := placed_texts hw l behind hl hlength
  have hin' : toIn ≤ (placed hw l behind hl).line.length := by rwa [hline]
  have hstart := startState_inLine 0#w hin' lines stack
  rw [hline] at hstart
  obtain ⟨r, hreturns, -, hwrong⟩ := hfails _ hstart rfl rfl hbehind
  obtain ⟨r', hreturns', hmeets⟩ :=
    hcorrect (utf8Host hw) (placed hw l behind hl) lines 0#w stack hline hlines
  have hsame : r' = .returned r := Returns.unique hreturns' hreturns
  rw [hsame] at hmeets
  exact (hwrong hcloses).not_meets hmeets

/-- {lit}`\"-parse` returns what the lines mean exactly if it finds a quote or throws: there is a
quote, and in front of it no empty line and no escape that is misread or may be continued behind its
line; or some line ends with a backslash, also when lines are continued behind surrogates. -/
theorem correct_iff (w : Nat) (hw : 21 ≤ w) (ls : List (List Byte)) (l : List Byte)
    (hls : ∀ l' ∈ l :: ls, 2 * l'.length < 2 ^ w) (toIn : Nat) (hin : toIn ≤ l.length) :
    Correct w ls l toIn ↔ closes ls (l.drop toIn) = true ∨ throws ls (l.drop toIn) = true := by
  constructor
  · intro hcorrect
    by_contra hneither
    rw [not_or, Bool.not_eq_true, Bool.not_eq_true] at hneither
    exact not_correct hw hls hin hneither.1 hneither.2 hcorrect
  · intro hform host src lines here stack hline hlines
    subst hline
    have hstart := startState_inLine here hin lines stack
    rcases hform with hcloses | hthrows
    · obtain ⟨text, line, left, r, hmeaning, hreturns, hfinished⟩ :=
        closes_returns hw host hstart (startState_counted _ _ _ _ _) hlines hcloses
      rw [hmeaning]
      exact ⟨_, hreturns, hfinished.meets⟩
    · rw [throws_meaning _ _ hthrows]
      exact ⟨_, throws_unfinished hw host hstart hlines hthrows, trivial⟩

/-- The line {lit}`a\x41` behind a space, and a line with the quote -/
theorem correct_letters :
    Correct 64 ["b\"c".toList.map ascii] (" a\\x41".toList.map ascii) 1 := by
  have hrest : codeRest [ascii 'x', ascii '4', ascii '1'] = [] := by decide
  exact (correct_iff 64 (by decide) ["b\"c".toList.map ascii] (" a\\x41".toList.map ascii)
    (by decide) 1 (by decide)).mpr (.inl (by simp +decide [closes, clean, ending, hrest]))

/-- Four ways to a wrong result: an empty line, no quote, a compatibility ideograph and a fullwidth
comma that are taken for a pair, and a surrogate at the end of a line -/
theorem not_correct_everywhere :
    ¬Correct 64 [[], "b\"".toList.map ascii] ("a".toList.map ascii) 0 ∧
      ¬Correct 64 [] ("a".toList.map ascii) 0 ∧
      ¬Correct 64 [] ("\\uF900\\uFF0C\"".toList.map ascii) 0 ∧
      ¬Correct 64 ["b\"".toList.map ascii] ("\\uD800".toList.map ascii) 0 := by
  have hrest : codeRest ("uF900\\uFF0C\"".toList.map ascii) = [ascii '"'] := by decide
  refine ⟨not_correct (by decide) (by decide) (by decide) ?_ ?_,
    not_correct (by decide) (by decide) (by decide) ?_ ?_,
    not_correct (by decide) (by decide) (by decide) ?_ ?_,
    not_correct (by decide) (by decide) (by decide) ?_ ?_⟩
  · simp +decide [closes, clean, ending]
  · simp +decide [throws, ending]
  · simp +decide [closes, clean, ending]
  · simp +decide [throws, ending]
  · simp +decide [closes, clean]
  · change decide (ending (ascii '\\' :: "uF900\\uFF0C\"".toList.map ascii) = _) = false
    rw [ending_escape (by decide), hrest]
    simp +decide [ending]
  · simp +decide [closes, clean, ending]
  · simp +decide [throws, ending]

end Quotes
end Gforth
