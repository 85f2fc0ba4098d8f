import Gforth.Numbers.Pictured

/-!
# Decompiled strings

The words of {lit}`see.fs` that print strings.  Everything that the decompiler prints goes through
{lit}`ctype` and {lit}`cemit`; they start a new line when the current one is full, and {lit}`cemit`
leaves out a space at the start of a line.

Main results:

- Theorem {lit}`Plain.printed`: what is printed if no line is started and no space is left out.
-/

namespace Gforth
namespace See

open Lib
open Numbers

variable {w : Nat}

/-- {lit}`bl` -/
def bl : Byte := 0x20#8

/-- What the output words only read: variables of {lit}`see.fs`, {lit}`cols` and {lit}`newline` -/
structure Format (w : Nat) where
  cols : BitVec w
  level : BitVec w
  cFormated : Bool
  cOutput : Bool
  cClearline : Bool
  newline : List Byte
  newline_ne : newline ≠ []

/-- The other variables, and what has been printed -/
structure Output (w : Nat) where
  xPos : BitVec w
  yPos : BitVec w
  nlflag : Bool
  uppercase : Bool
  text : List Byte

/-! ## The words -/

/-- {lit}`type` and {lit}`emit` -/
def Output.type (o : Output w) (s : List Byte) : Output w :=
  { o with text := o.text ++ s }

/-- What {lit}`spaces` prints; its argument is signed. -/
def spaces (u : BitVec w) : List Byte :=
  List.replicate u.toInt.toNat bl

variable (f : Format w)

/-- {lit}`(nl)` -/
def parenNl (o : Output w) : Output w :=
  if o.xPos = f.level then o
  else if f.cFormated then
    let o :=
      if f.cOutput then
        let o := o.type (if f.cClearline then spaces (f.cols - o.xPos) else f.newline)
        { o with yPos := o.yPos + 1#w, xPos := 0#w }.type (spaces f.level)
      else o
    { o with xPos := f.level }
  else o

/-- {lit}`warp?` -/
def warp (len : BitVec w) (o : Output w) : Output w :=
  let o := if o.nlflag then { parenNl f o with nlflag := false } else o
  if f.cols ≤ o.xPos + len then parenNl f o else o

/-- {lit}`ctype` -/
def ctype (s : List Byte) (o : Output w) : Output w :=
  let o := warp f (BitVec.ofNat w s.length) o
  let o := { o with xPos := o.xPos + BitVec.ofNat w s.length }
  if f.cOutput then
    if o.uppercase then { o.type (s.map toupper) with uppercase := false } else o.type s
  else o

/-- {lit}`cemit` -/
def cemit (c : Byte) (o : Output w) : Output w :=
  let o := warp f 1#w o
  if c = bl ∧ f.level = o.xPos then o
  else
    let o := { o with xPos := o.xPos + 1#w }
    if f.cOutput then o.type [c] else o

/-- What {lit}`<<# # # 'x' hold '\' hold #>` leaves for a byte in hexadecimal -/
def hexEscape (c : Byte) : List Byte :=
  [ascii '\\', ascii 'x', digitChar (c / 16#8), digitChar (c % 16#8)]

/-- {lit}`c-\emit` -/
def cBackslashEmit (c : Byte) (o : Output w) : Output w :=
  if c = ascii '"' ∨ c = ascii '\\' then cemit f c (cemit f (ascii '\\') o)
  else if bl ≤ c ∧ c < 127#8 then cemit f c o
  else ctype f (hexEscape c) o

/-- {lit}`c-\type` -/
def cBackslashType : List Byte → Output w → Output w
  | [], o => o
  | c :: s, o =>
      if f.newline.isPrefixOf (c :: s) then
        have := List.length_pos_iff.2 f.newline_ne
        cBackslashType ((c :: s).drop f.newline.length) (cemit f (ascii 'n') (cemit f (ascii '\\') o))
      else cBackslashType s (cBackslashEmit f c o)
termination_by s => s.length
decreasing_by
  · simp only [List.length_drop, List.length_cons]
    omega
  · simp

/-! ## Escaped strings -/

/-- The pieces in which a string is printed -/
def pieces : List Byte → List (List Byte)
  | [] => []
  | c :: s =>
      if f.newline.isPrefixOf (c :: s) then
        have := List.length_pos_iff.2 f.newline_ne
        [ascii '\\'] :: [ascii 'n'] :: pieces ((c :: s).drop f.newline.length)
      else if c = ascii '"' ∨ c = ascii '\\' then [ascii '\\'] :: [c] :: pieces s
      else if bl ≤ c ∧ c < 127#8 then [c] :: pieces s
      else hexEscape c :: pieces s
termination_by s => s.length
decreasing_by
  · simp only [List.length_drop, List.length_cons]
    omega
  all_goals simp

/-- A word that prints at a column does not start a line with {lit}`(nl)`. -/
def Stays (col : BitVec w) : Prop :=
  col = f.level ∨ f.cFormated = false

/-- From a column on, no piece reaches the end of the line, and no space is left out. -/
def Unbroken (col : BitVec w) : List (List Byte) → Prop
  | [] => True
  | p :: ps =>
      (col + BitVec.ofNat w p.length < f.cols ∨ Stays f col) ∧ ¬(p = [bl] ∧ col = f.level) ∧
        Unbroken (col + BitVec.ofNat w p.length) ps

/-- The pieces are printed without breaks: output is on, there is no line to start, no escape is
converted to uppercase, and the pieces fit into the line. -/
structure Plain (o : Output w) (ps : List (List Byte)) : Prop where
  output : f.cOutput = true
  nlflag : o.nlflag = true → Stays f o.xPos
  uppercase : o.uppercase = true → ∀ p ∈ ps, p.length = 1
  unbroken : Unbroken f o.xPos ps

variable {f} {o : Output w}

/-- There is no new line where the output stays. -/
theorem parenNl_stays (h : Stays f o.xPos) : parenNl f o = o := by
  rw [parenNl]
  rcases h with h | h
  · rw [if_pos h]
  · simp [h]

/-- What is printed without a break in front of it -/
def Output.printed (o : Output w) (s : List Byte) : Output w :=
  { o with
    xPos := o.xPos + BitVec.ofNat w s.length
    nlflag := false
    text := o.text ++ s }

/-- {lit}`warp?` starts no new line where the text fits. -/
theorem warp_eq {len : BitVec w} (hflag : o.nlflag = true → Stays f o.xPos)
    (hfits : o.xPos + len < f.cols ∨ Stays f o.xPos) : warp f len o = { o with nlflag := false } := by
  have hstart : (if o.nlflag then { parenNl f o with nlflag := false } else o) =
      { o with nlflag := false } := by
    by_cases hnlflag : o.nlflag = true
    · rw [if_pos hnlflag, parenNl_stays (hflag hnlflag)]
    · rw [if_neg hnlflag, ← Bool.eq_false_of_not_eq_true hnlflag]
  rw [warp, hstart]
  dsimp only
  rcases hfits with hfits | hstays
  · rw [if_neg (BitVec.not_le.2 hfits)]
  · rw [parenNl_stays (o := { o with nlflag := false }) hstays, ite_self]

namespace Plain

variable {ps : List (List Byte)}

/-- {lit}`cemit` prints the character. -/
theorem cemit_eq {c : Byte} (h : Plain f o ([c] :: ps)) : cemit f c o = o.printed [c] := by
  obtain ⟨hfits, hbl, -⟩ := h.unbroken
  have hspace : ¬(c = bl ∧ f.level = o.xPos) := fun ⟨hc, hlevel⟩ => hbl ⟨by rw [hc], hlevel.symm⟩
  have hone : BitVec.ofNat w [c].length = 1#w := rfl
  rw [hone] at hfits
  rw [cemit, warp_eq h.nlflag hfits]
  dsimp only
  rw [if_neg hspace, if_pos h.output]
  rfl

/-- {lit}`ctype` prints the text. -/
theorem ctype_eq {s : List Byte} (hs : s.length ≠ 1) (h : Plain f o (s :: ps)) :
    ctype f s o = o.printed s := by
  have huppercase : o.uppercase = false := by
    cases hupper : o.uppercase with
    | true => exact absurd (h.uppercase hupper s (List.mem_cons_self ..)) hs
    | false => rfl
  rw [ctype, warp_eq h.nlflag h.unbroken.1]
  dsimp only
  rw [if_pos h.output, if_neg (by simp [huppercase])]
  rfl

theorem tail {p : List Byte} (h : Plain f o (p :: ps)) : Plain f (o.printed p) ps :=
  ⟨h.output, fun hflag => (by cases hflag),
    fun hupper q hq => h.uppercase hupper q (List.mem_cons_of_mem _ hq), h.unbroken.2.2⟩

/-- The pieces are printed one behind the other. -/
theorem printed {s : List Byte} (h : Plain f o (pieces f s)) :
    (cBackslashType f s o).text = o.text ++ (pieces f s).flatten := by
  induction s, o using cBackslashType.induct f with
  | case1 o => simp [cBackslashType, pieces]
  | case2 c s o hnewline hpos ih =>
    rw [pieces, if_pos hnewline] at h
    rw [cBackslashType, if_pos hnewline, pieces, if_pos hnewline]
    have hfirst := h.cemit_eq
    have hsecond := h.tail.cemit_eq
    rw [← hfirst] at hsecond
    rw [ih (by rw [hsecond, hfirst]; exact h.tail.tail), hsecond, hfirst]
    simp [Output.printed]
  | case3 c s o hnewline ih =>
    rw [pieces, if_neg hnewline] at h
    rw [cBackslashType, if_neg hnewline, pieces, if_neg hnewline]
    rw [cBackslashEmit] at ih ⊢
    split_ifs at h ih ⊢ with hescape hprintable
    · have hfirst := h.cemit_eq
      have hsecond := h.tail.cemit_eq
      rw [← hfirst] at hsecond
      rw [ih (by rw [hsecond, hfirst]; exact h.tail.tail), hsecond, hfirst]
      simp [Output.printed]
    · rw [ih (by rw [h.cemit_eq]; exact h.tail), h.cemit_eq]
      simp [Output.printed]
    · have hlength : (hexEscape c).length ≠ 1 := by simp [hexEscape]
      rw [ih (by rw [h.ctype_eq hlength]; exact h.tail), h.ctype_eq hlength]
      simp [Output.printed]

end Plain

end See
end Gforth
