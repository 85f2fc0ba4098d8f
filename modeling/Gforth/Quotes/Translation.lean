import Gforth.Quotes.Escapes

/-!
# Strings with escapes

What a string with escapes stands for, given by the characters of its lines, and how
{lit}`\-escape,` divides a line.  The two differ in surrogate pairs: the masks of {lit}`\-escape,`
leave out a bit, it takes the escape behind a surrogate in any case, and it looks behind the end of
a line.

Main results:

- Theorem {lit}`scanLine_matches`: both find the same end of a line, and the same characters if no
  escape is misread.
-/

namespace Gforth
namespace Quotes

open Lib
open Numbers

/-! ## Numbers -/

/-- A digit in a base -/
def digitValue (base : Nat) (c : Byte) : Option Nat :=
  (anyDigit c).filter (· < base)

/-- At most {lit}`n` digits are added to a value; what is behind them -/
def number (base : Nat) : Nat → Nat → List Byte → Nat × List Byte
  | n + 1, v, c :: t =>
      match digitValue base c with
      | some d => number base n (v * base + d) t
      | none => (v, c :: t)
  | _, v, t => (v, t)

/-- A number is not longer than the text. -/
theorem number_length_le (base n v : Nat) (t : List Byte) :
    (number base n v t).2.length ≤ t.length := by
  induction n generalizing v t with
  | zero => exact le_rfl
  | succ n ih =>
      cases t with
      | nil => exact le_rfl
      | cons c t =>
          rw [number]
          split
          · exact (ih _ _).trans (Nat.le_succ _)
          · exact le_rfl

theorem digitValue_lt {base d : Nat} {c : Byte} (h : digitValue base c = some d) : d < base := by
  rw [digitValue, Option.filter_eq_some_iff] at h
  exact of_decide_eq_true h.2

/-- A number of some digits is bounded. -/
theorem number_lt {base : Nat} (hbase : 0 < base) (n v : Nat) (t : List Byte) :
    (number base n v t).1 < (v + 1) * base ^ n := by
  induction n generalizing v t with
  | zero => simp [number]
  | succ n ih =>
      have hle : v + 1 ≤ (v + 1) * base ^ (n + 1) :=
        Nat.le_mul_of_pos_right _ (Nat.pow_pos hbase)
      cases t with
      | nil => exact hle
      | cons c t =>
          rw [number]
          split
          · rename_i d hd
            have hdigit := digitValue_lt hd
            calc (number base n (v * base + d) t).1 < (v * base + d + 1) * base ^ n := ih _ _
              _ ≤ (v + 1) * base * base ^ n := Nat.mul_le_mul_right _ (by rw [add_one_mul]; omega)
              _ = (v + 1) * base ^ (n + 1) := by rw [pow_succ, Nat.mul_assoc, Nat.mul_comm base]
          · exact hle

theorem number_sixteen_lt (t : List Byte) : (number 16 4 0 t).1 < 0x10000 :=
  number_lt (by decide) 4 0 t

/-! ## Surrogates -/

/-- A surrogate for the upper half of a pair -/
def High (v : Nat) : Prop :=
  0xD800 ≤ v ∧ v ≤ 0xDBFF

/-- A surrogate for the lower half of a pair -/
def Low (v : Nat) : Prop :=
  0xDC00 ≤ v ∧ v ≤ 0xDFFF

/-- The test of {lit}`\-escape,` for the upper half -/
def SeemsHigh (v : Nat) : Prop :=
  v &&& 0xDC00 = 0xD800

/-- The test of {lit}`\-escape,` for the lower half -/
def SeemsLow (v : Nat) : Prop :=
  v &&& 0xDC00 = 0xDC00

instance (v : Nat) : Decidable (High v) := inferInstanceAs (Decidable (_ ∧ _))

instance (v : Nat) : Decidable (Low v) := inferInstanceAs (Decidable (_ ∧ _))

instance (v : Nat) : Decidable (SeemsHigh v) := inferInstanceAs (Decidable (_ = _))

instance (v : Nat) : Decidable (SeemsLow v) := inferInstanceAs (Decidable (_ = _))

/-- The character of a pair -/
def pair (v v' : Nat) : Nat :=
  0x10000 + (v - 0xD800) * 0x400 + (v' - 0xDC00)

/-- What {lit}`\-escape,` computes for a pair -/
def codePair (v v' : Nat) : Nat :=
  v' % 0x400 + v % 0x400 * 0x400 + 0x10000

/-- The mask looks at five of the upper six bits. -/
theorem and_mask (v : Nat) : v &&& 0xDC00 = (v / 0x400 &&& 0x37) * 0x400 := by
  have hdiv : (v &&& 0xDC00) / 2 ^ 10 = v / 2 ^ 10 &&& 0xDC00 / 2 ^ 10 := Nat.and_div_two_pow ..
  have hmod : (v &&& 0xDC00) % 2 ^ 10 = v % 2 ^ 10 &&& 0xDC00 % 2 ^ 10 := Nat.and_mod_two_pow ..
  norm_num at hdiv hmod
  omega

/-- The test for high surrogates lets some other numbers through. -/
theorem seemsHigh_iff {v : Nat} (h : v < 0x10000) :
    SeemsHigh v ↔ High v ∨ 0xF800 ≤ v ∧ v ≤ 0xFBFF := by
  have hbits : ∀ q < 64, q &&& 0x37 = 54 ↔ q = 54 ∨ q = 62 := by decide
  have := hbits (v / 0x400) (by omega)
  rw [SeemsHigh, High, and_mask]
  omega

/-- The test for low surrogates lets some other numbers through. -/
theorem seemsLow_iff {v : Nat} (h : v < 0x10000) :
    SeemsLow v ↔ Low v ∨ 0xFC00 ≤ v ∧ v ≤ 0xFFFF := by
  have hbits : ∀ q < 64, q &&& 0x37 = 55 ↔ q = 55 ∨ q = 63 := by decide
  have := hbits (v / 0x400) (by omega)
  rw [SeemsLow, Low, and_mask]
  omega

/-- The code point of a pair -/
theorem codePair_eq {v v' : Nat} (hv : High v) (hv' : Low v') : codePair v v' = pair v v' := by
  obtain ⟨hle, hge⟩ := hv
  obtain ⟨hle', hge'⟩ := hv'
  have hvalue : v' % 0x400 + v % 0x400 * 0x400 + 0x10000 =
      0x10000 + (v - 0xD800) * 0x400 + (v' - 0xDC00) := by omega
  exact hvalue

theorem codePair_bounds (v v' : Nat) : 0x10000 ≤ codePair v v' ∧ codePair v v' ≤ 0x10FFFF := by
  rw [codePair]
  omega

theorem pair_bounds {v v' : Nat} (hv : High v) (hv' : Low v') :
    0x10000 ≤ pair v v' ∧ pair v v' ≤ 0x10FFFF := by
  rw [← codePair_eq hv hv']
  exact codePair_bounds v v'

theorem not_seemsLow_of_high {v : Nat} (hv : High v) : ¬SeemsLow v := by
  rw [High] at hv
  rw [seemsLow_iff (by omega), Low]
  omega

theorem not_high_of_seemsLow {v : Nat} (hv : SeemsLow v) : ¬High v :=
  fun hhigh => not_seemsLow_of_high hhigh hv

theorem not_seemsHigh_of_low {v : Nat} (hv : Low v) : ¬SeemsHigh v := by
  rw [Low] at hv
  rw [seemsHigh_iff (by omega), High]
  omega

/-! ## Escapes -/

/-- The value of an escape with {lit}`u`, and what is behind it -/
def nextUnit : List Byte → Option (Nat × List Byte)
  | x :: y :: t =>
      if x = ascii '\\' ∧ y = ascii 'u' then some (number 16 4 0 t) else none
  | _ => none

/-- A unit takes two characters at least. -/
theorem nextUnit_length_lt {t t' : List Byte} {v : Nat} (h : nextUnit t = some (v, t')) :
    t'.length + 2 ≤ t.length ∧ v < 0x10000 := by
  rw [nextUnit.eq_def] at h
  split at h
  · split at h
    · rename_i t _
      obtain ⟨rfl, rfl⟩ := Prod.mk.inj (Option.some.inj h)
      exact ⟨Nat.add_le_add_right (number_length_le _ _ _ _) 2, number_sixteen_lt _⟩
    · cases h
  · cases h

/-- The escapes with one letter -/
def letters (newline : List Byte) : List (Byte × List Byte) :=
  [(ascii 'a', [7]), (ascii 'b', [8]), (ascii 'e', [27]), (ascii 'f', [12]), (ascii 'l', [lf]),
    (ascii 'm', [cr, lf]), (ascii 'n', newline), (ascii 'q', [ascii '"']), (ascii 'r', [cr]),
    (ascii 't', [9]), (ascii 'v', [11]), (ascii 'z', [0])]

/-- One character behind a backslash; the other small letters are reserved. -/
def letter (newline : List Byte) (c : Byte) : List Byte :=
  match (letters newline).lookup c with
  | some t => t
  | none => if ascii 'a' ≤ c ∧ c ≤ ascii 'z' then [ascii '\\', c] else [c]

variable (xc : Nat → List Byte) (newline : List Byte)

/-- The escapes that have no surrogates: their characters, and what is behind them -/
def simpleEscape : List Byte → List Byte × List Byte
  | [] => ([], [])
  | c :: t =>
      if c = ascii 'U' then
        let (v, t) := number 16 8 0 t
        (xc v, t)
      else if c = ascii 'x' then
        let (v, t) := number 16 2 0 t
        ([BitVec.ofNat 8 v], t)
      else if ascii '0' ≤ c ∧ c ≤ ascii '7' then
        let (v, t) := number 8 3 0 (c :: t)
        ([BitVec.ofNat 8 v], t)
      else (letter newline c, t)

/-- What an escape stands for, and what is behind it -/
def translate : List Byte → List Byte × List Byte
  | c :: t =>
      if c = ascii 'u' then
        let (v, t) := number 16 4 0 t
        match nextUnit t with
        | some (v', t') => if High v ∧ Low v' then (xc (pair v v'), t') else (xc v, t)
        | none => (xc v, t)
      else simpleEscape xc newline (c :: t)
  | [] => ([], [])

/-- How {lit}`\-escape,` takes an escape if it does not reach the end of the line -/
def codeEscape : List Byte → List Byte × List Byte
  | c :: t =>
      if c = ascii 'u' then
        let (v, t) := number 16 4 0 t
        if SeemsHigh v then
          match nextUnit t with
          | some (v', t') =>
              if SeemsLow v' then (xc (codePair v v'), t') else (xc v ++ xc v', t')
          | none => (xc v, t)
        else (xc v, t)
      else simpleEscape xc newline (c :: t)
  | [] => ([], [])

/-- {lit}`\-escape,` looks for a second escape behind the end of the line. -/
def dangling : List Byte → Bool
  | c :: t =>
      let (v, t) := number 16 4 0 t
      c = ascii 'u' ∧ SeemsHigh v ∧ (t = [] ∨ t = [ascii '\\'])
  | [] => false

/-- {lit}`\-escape,` takes two escapes for a pair that is none, or takes the second one away from
the pair that it starts. -/
def misread : List Byte → Bool
  | c :: t =>
      let (v, t) := number 16 4 0 t
      match nextUnit t with
      | some (v', t) =>
          decide (c = ascii 'u' ∧ SeemsHigh v) &&
            if SeemsLow v' then !decide (High v ∧ Low v')
            else
              match nextUnit t with
              | some (v'', _) => decide (High v' ∧ Low v'')
              | none => false
      | none => false
  | [] => false

/-- An escape takes nothing twice. -/
theorem simpleEscape_length_le (t : List Byte) :
    (simpleEscape xc newline t).2.length ≤ t.length := by
  cases t with
  | nil => exact le_rfl
  | cons c t =>
      rw [simpleEscape]
      split_ifs
      · exact (number_length_le _ _ _ _).trans (Nat.le_succ _)
      · exact (number_length_le _ _ _ _).trans (Nat.le_succ _)
      · exact number_length_le _ _ _ _
      · exact Nat.le_succ _

/-- A translation takes nothing twice. -/
theorem translate_length_le (t : List Byte) : (translate xc newline t).2.length ≤ t.length := by
  cases t with
  | nil => exact le_rfl
  | cons c t =>
      have hnumber := number_length_le 16 4 0 t
      rw [translate]
      split_ifs
      · dsimp only
        split
        · rename_i v' t' hnext
          have := nextUnit_length_lt hnext
          split_ifs <;> simp <;> omega
        · simp
          omega
      · exact simpleEscape_length_le xc newline _

/-- The code takes nothing twice. -/
theorem codeEscape_length_le (t : List Byte) : (codeEscape xc newline t).2.length ≤ t.length := by
  cases t with
  | nil => exact le_rfl
  | cons c t =>
      have hnumber := number_length_le 16 4 0 t
      rw [codeEscape]
      split_ifs
      · dsimp only
        split_ifs
        · split
          · rename_i v' t' hnext
            have := nextUnit_length_lt hnext
            split_ifs <;> simp <;> omega
          · simp
            omega
        · simp
          omega
      · exact simpleEscape_length_le xc newline _

/-- What {lit}`\-escape,` leaves, whatever the characters stand for -/
def codeRest (t : List Byte) : List Byte :=
  (codeEscape (fun _ => []) [] t).2

/-- What the code leaves does not depend on the encoding. -/
theorem codeEscape_snd (t : List Byte) : (codeEscape xc newline t).2 = codeRest t := by
  cases t with
  | nil => rfl
  | cons c t =>
      rw [codeRest, codeEscape, codeEscape]
      split_ifs
      · dsimp only
        split_ifs
        · split
          · split_ifs <;> rfl
          · rfl
        · rfl
      · rw [simpleEscape, simpleEscape]
        split_ifs <;> rfl

theorem codeRest_length_le (t : List Byte) : (codeRest t).length ≤ t.length :=
  codeEscape_length_le _ _ t

/-! ## Lines -/

/-- How the rest of a line ends: with the characters up to a quote and the number of those behind
it, with a backslash, or with the end of the line -/
inductive LineEnd where
  | quote (text : List Byte) (left : Nat)
  | unfinished
  | through (text : List Byte)

/-- Some characters in front -/
def LineEnd.push (bs : List Byte) : LineEnd → LineEnd
  | quote text left => quote (bs ++ text) left
  | unfinished => unfinished
  | through text => through (bs ++ text)

theorem LineEnd.push_push (s t : List Byte) (l : LineEnd) : (l.push s).push t = l.push (t ++ s) := by
  cases l <;> simp [push]

/-- The rest of a line -/
def scanLine : List Byte → LineEnd
  | [] => .through []
  | c :: t =>
      if c = ascii '"' then .quote [] t.length
      else if c = ascii '\\' then
        if t = [] then .unfinished
        else
          have := translate_length_le xc newline t
          (scanLine (translate xc newline t).2).push (translate xc newline t).1
      else (scanLine t).push [c]
termination_by t => t.length

/-- What {lit}`\"-parse` finds in a line -/
inductive Ending where
  | quote (left : Nat)
  | unfinished
  | through
  | dangling
deriving DecidableEq

/-- How {lit}`\"-parse` goes through the rest of a line -/
def ending : List Byte → Ending
  | [] => .through
  | c :: t =>
      if c = ascii '"' then .quote t.length
      else if c = ascii '\\' then
        if t = [] then .unfinished
        else if dangling t then .dangling
        else
          have := codeRest_length_le t
          ending (codeRest t)
      else ending t
termination_by t => t.length

/-- No escape is misread. -/
def clean : List Byte → Bool
  | [] => true
  | c :: t =>
      if c = ascii '"' then true
      else if c = ascii '\\' then
        if t = [] then true
        else
          have := codeRest_length_le t
          !misread t && clean (codeRest t)
      else clean t
termination_by t => t.length

/-- The characters that {lit}`\"-parse` finds, when the lower half of a pair is behind the line -/
def codeText : List Byte → List Byte
  | [] => []
  | c :: t =>
      if c = ascii '"' then []
      else if c = ascii '\\' then
        if t = [] then []
        else if dangling t then xc (codePair (number 16 4 0 t.tail).1 0xDC00)
        else
          have := codeRest_length_le t
          (codeEscape xc newline t).1 ++ codeText (codeRest t)
      else c :: codeText t
termination_by t => t.length

/-- Induction on the rest of a line, with shorter rests behind an escape -/
theorem line_induction {P : List Byte → Prop} (nil : P []) (quote : ∀ t, P (ascii '"' :: t))
    (backslash : P [ascii '\\'])
    (escape : ∀ t, t ≠ [] → (∀ t' : List Byte, t'.length ≤ t.length → P t') → P (ascii '\\' :: t))
    (other : ∀ c t, c ≠ ascii '"' → c ≠ ascii '\\' → P t → P (c :: t)) (t : List Byte) : P t := by
  induction hn : t.length using Nat.strong_induction_on generalizing t with
  | _ n ih =>
      subst hn
      cases t with
      | nil => exact nil
      | cons c t =>
          by_cases hquote : c = ascii '"'
          · subst hquote
            exact quote t
          by_cases hbackslash : c = ascii '\\'
          · subst hbackslash
            by_cases ht : t = []
            · subst ht
              exact backslash
            · exact escape t ht fun t' hle => ih _ (Nat.lt_succ_of_le hle) t' rfl
          · exact other c t hquote hbackslash (ih _ (Nat.lt_succ_self _) t rfl)

section Steps

variable {c : Byte} {t : List Byte}

theorem backslash_ne_quote : ascii '\\' ≠ ascii '"' := by
  decide

theorem scanLine_other (hquote : c ≠ ascii '"') (hbackslash : c ≠ ascii '\\') :
    scanLine xc newline (c :: t) = (scanLine xc newline t).push [c] := by
  rw [scanLine, if_neg hquote, if_neg hbackslash]

theorem scanLine_escape (ht : t ≠ []) :
    scanLine xc newline (ascii '\\' :: t) =
      (scanLine xc newline (translate xc newline t).2).push (translate xc newline t).1 := by
  rw [scanLine, if_neg backslash_ne_quote, if_pos rfl, if_neg ht]

theorem ending_other (hquote : c ≠ ascii '"') (hbackslash : c ≠ ascii '\\') :
    ending (c :: t) = ending t := by
  rw [ending, if_neg hquote, if_neg hbackslash]

theorem ending_escape (ht : t ≠ []) :
    ending (ascii '\\' :: t) = if dangling t then .dangling else ending (codeRest t) := by
  rw [ending, if_neg backslash_ne_quote, if_pos rfl, if_neg ht]

theorem clean_other (hquote : c ≠ ascii '"') (hbackslash : c ≠ ascii '\\') :
    clean (c :: t) = clean t := by
  rw [clean, if_neg hquote, if_neg hbackslash]

theorem clean_escape (ht : t ≠ []) :
    clean (ascii '\\' :: t) = (!misread t && clean (codeRest t)) := by
  rw [clean, if_neg backslash_ne_quote, if_pos rfl, if_neg ht]

theorem codeText_other (hquote : c ≠ ascii '"') (hbackslash : c ≠ ascii '\\') :
    codeText xc newline (c :: t) = [c] ++ codeText xc newline t := by
  rw [codeText, if_neg hquote, if_neg hbackslash]
  rfl

/-- The text behind an escape -/
theorem codeText_escape (ht : t ≠ []) (hdangling : dangling t = false) :
    codeText xc newline (ascii '\\' :: t) =
      (codeEscape xc newline t).1 ++ codeText xc newline (codeRest t) := by
  rw [codeText, if_neg backslash_ne_quote, if_pos rfl, if_neg ht, hdangling, if_neg (by decide)]

end Steps

/-! ## Different texts -/

/-- The texts have different characters at some place. -/
def Diverge (s t : List Byte) : Prop :=
  ∃ (i : Nat) (a b : Byte), s[i]? = some a ∧ t[i]? = some b ∧ a ≠ b

/-- Texts that diverge are different. -/
theorem Diverge.ne {s t : List Byte} (h : Diverge s t) : s ≠ t := by
  rintro rfl
  obtain ⟨i, a, b, ha, hb, hne⟩ := h
  exact hne (Option.some.inj (ha.symm.trans hb))

theorem Diverge.symm {s t : List Byte} (h : Diverge s t) : Diverge t s := by
  obtain ⟨i, a, b, ha, hb, hne⟩ := h
  exact ⟨i, b, a, hb, ha, hne.symm⟩

/-- Texts that diverge do so with anything behind them. -/
theorem Diverge.append {s t : List Byte} (h : Diverge s t) (s' t' : List Byte) :
    Diverge (s ++ s') (t ++ t') := by
  obtain ⟨i, a, b, ha, hb, hne⟩ := h
  obtain ⟨hi, -⟩ := List.getElem?_eq_some_iff.mp ha
  obtain ⟨hi', -⟩ := List.getElem?_eq_some_iff.mp hb
  exact ⟨i, a, b, (List.getElem?_append_left hi).trans ha, (List.getElem?_append_left hi').trans hb,
    hne⟩

/-- Texts that diverge do so with the same text in front. -/
theorem Diverge.push {s t : List Byte} (h : Diverge s t) (bs : List Byte) :
    Diverge (bs ++ s) (bs ++ t) := by
  obtain ⟨i, a, b, ha, hb, hne⟩ := h
  refine ⟨bs.length + i, a, b, ?_, ?_, hne⟩
  · rw [List.getElem?_append_right (Nat.le_add_right _ _), Nat.add_sub_cancel_left, ha]
  · rw [List.getElem?_append_right (Nat.le_add_right _ _), Nat.add_sub_cancel_left, hb]

/-- The first bytes of extended characters tell those beyond the first 65536 from the others. -/
def Leads : Prop :=
  ∀ u v, u < 0x10000 → 0x10000 ≤ v → v ≤ 0x10FFFF → Diverge (xc v) (xc u)

/-- The characters are the same if no escape is misread, and otherwise not. -/
structure Agrees (ok : Bool) (s t : List Byte) : Prop where
  eq : ok = true → s = t
  diverge : ok = false → Leads xc → Diverge s t

variable {xc}

theorem Agrees.push {ok : Bool} {s t : List Byte} (h : Agrees xc ok s t) (bs : List Byte) :
    Agrees xc ok (bs ++ s) (bs ++ t) :=
  ⟨fun hok => congrArg (bs ++ ·) (h.eq hok), fun hok hleads => (h.diverge hok hleads).push bs⟩

theorem Agrees.refl (s : List Byte) : Agrees xc true s s :=
  ⟨fun _ => rfl, fun h => by cases h⟩

variable (xc)

/-- What {lit}`\"-parse` finds in a line is what is there; if it looks behind the line, it may go on
where there is an unfinished escape. -/
def Matches (ok : Bool) (text : List Byte) : Ending → LineEnd → Prop
  | .quote left, .quote text' left' => left = left' ∧ Agrees xc ok text text'
  | .unfinished, .unfinished => True
  | .through, .through text' => Agrees xc ok text text'
  | .dangling, .unfinished => True
  | .dangling, .through text' => Leads xc → Diverge text text'
  | _, _ => False

variable {xc}

/-- The same text in front of texts that match -/
theorem Matches.push {ok : Bool} {text : List Byte} {e : Ending} {l : LineEnd}
    (h : Matches xc ok text e l) (bs : List Byte) : Matches xc ok (bs ++ text) e (l.push bs) := by
  cases e <;> cases l <;> simp only [Matches, LineEnd.push] at h ⊢
  · exact ⟨h.1, h.2.push bs⟩
  · exact h.push bs
  · exact fun hleads => (h hleads).push bs

/-- Different characters in front -/
theorem Matches.diverge {ok : Bool} {text s t : List Byte} {e : Ending} {l : LineEnd}
    (h : Matches xc ok text e l) (hdiverge : Leads xc → Diverge s t) :
    Matches xc false (s ++ text) e (l.push t) := by
  cases e <;> cases l <;> simp only [Matches, LineEnd.push] at h ⊢
  · exact ⟨h.1, ⟨(fun hok => by cases hok), fun _ hleads => (hdiverge hleads).append _ _⟩⟩
  · exact ⟨(fun hok => by cases hok), fun _ hleads => (hdiverge hleads).append _ _⟩
  · exact fun hleads => (hdiverge hleads).append _ _

/-! ## Both ways through a line -/

variable {newline} {t : List Byte}

/-- Other escapes are taken alike. -/
theorem codeEscape_of_ne (xc : Nat → List Byte) (newline : List Byte)
    {c : Byte} (hc : c ≠ ascii 'u') :
    codeEscape xc newline (c :: t) = translate xc newline (c :: t) ∧
      dangling (c :: t) = false ∧ misread (c :: t) = false := by
  rw [codeEscape, translate, if_neg hc, if_neg hc, dangling, misread]
  refine ⟨rfl, by simp [hc], ?_⟩
  dsimp only
  split
  · simp [hc]
  · rfl

/-- A second escape on its own -/
theorem scanLine_unit (xc : Nat → List Byte) (newline : List Byte) {v : Nat}
    {t' : List Byte} (h : nextUnit t = some (v, t')) :
    scanLine xc newline t =
      match nextUnit t' with
      | some (v', t'') =>
          if High v ∧ Low v' then (scanLine xc newline t'').push (xc (pair v v'))
          else (scanLine xc newline t').push (xc v)
      | none => (scanLine xc newline t').push (xc v) := by
  rw [nextUnit.eq_def] at h
  split at h
  · rename_i x y t
    split at h
    · rename_i hxy
      obtain ⟨rfl, rfl⟩ := hxy
      have hnumber := Option.some.inj h
      rw [scanLine_escape xc newline (List.cons_ne_nil _ _), translate, if_pos rfl, hnumber]
      dsimp only
      cases hnext : nextUnit t' with
      | none => rfl
      | some r =>
          obtain ⟨v', t''⟩ := r
          dsimp only
          split_ifs <;> rfl
    · cases h
  · cases h

/-- The same for {lit}`\"-parse`, where the escape does not seem to start a pair -/
theorem codeText_unit (xc : Nat → List Byte) (newline : List Byte) {v : Nat}
    {t' : List Byte} (h : nextUnit t = some (v, t')) (hhigh : ¬SeemsHigh v) :
    ending t = ending t' ∧ clean t = clean t' ∧
      codeText xc newline t = xc v ++ codeText xc newline t' := by
  rw [nextUnit.eq_def] at h
  split at h
  · rename_i x y t
    split at h
    · rename_i hxy
      obtain ⟨rfl, rfl⟩ := hxy
      have hnumber := Option.some.inj h
      have hdangling : dangling (ascii 'u' :: t) = false := by
        rw [dangling, hnumber]
        simp [hhigh]
      have hmisread : misread (ascii 'u' :: t) = false := by
        rw [misread, hnumber]
        dsimp only
        split
        · simp [hhigh]
        · rfl
      have hescape : ∀ (xc : Nat → List Byte) (newline : List Byte),
          codeEscape xc newline (ascii 'u' :: t) = (xc v, t') := fun xc newline => by
        rw [codeEscape, if_pos rfl, hnumber]
        exact if_neg hhigh
      have hrest : codeRest (ascii 'u' :: t) = t' := by
        rw [codeRest, hescape]
      have hne := List.cons_ne_nil (ascii 'u') t
      rw [ending_escape hne, clean_escape hne, codeText_escape xc newline hne hdangling, hdangling,
        hmisread, hrest, hescape]
      exact ⟨rfl, rfl, rfl⟩
    · cases h
  · cases h

/-- An escape with {lit}`u` that is not at the end of the line -/
theorem unit_matches {t : List Byte}
    (ih : ∀ t' : List Byte, t'.length ≤ t.length →
      Matches xc (clean t') (codeText xc newline t') (ending t') (scanLine xc newline t')) :
    Matches xc (!misread (ascii 'u' :: t) && clean (codeRest (ascii 'u' :: t)))
      ((codeEscape xc newline (ascii 'u' :: t)).1 ++
        codeText xc newline (codeRest (ascii 'u' :: t)))
      (ending (codeRest (ascii 'u' :: t)))
      ((scanLine xc newline (translate xc newline (ascii 'u' :: t)).2).push
        (translate xc newline (ascii 'u' :: t)).1) := by
  rw [← codeEscape_snd xc newline, codeEscape, translate, misread]
  simp only [if_true]
  have hlength := number_length_le 16 4 0 t
  have hlt := number_sixteen_lt t
  generalize number 16 4 0 t = r at hlength hlt
  obtain ⟨v, t₁⟩ := r
  dsimp only at hlength hlt ⊢
  cases hnext : nextUnit t₁ with
  | none =>
      dsimp only
      have hsame := (ih t₁ hlength).push (xc v)
      split_ifs <;> exact hsame
  | some r =>
      obtain ⟨v', t₂⟩ := r
      obtain ⟨hlength₂, hlt'⟩ := nextUnit_length_lt hnext
      have hafter := ih t₂ (by omega)
      have hunit := scanLine_unit xc newline hnext
      dsimp only
      by_cases hhigh : SeemsHigh v
      · by_cases hlow : SeemsLow v'
        · by_cases hpair : High v ∧ Low v'
          · -- a pair
            simp only [hhigh, hlow, hpair, if_true, codePair_eq hpair.1 hpair.2]
            exact hafter.push _
          · -- no pair, but taken for one
            have hsecond : scanLine xc newline t₁ = (scanLine xc newline t₂).push (xc v') := by
              rw [hunit]
              split
              · exact if_neg fun hboth => not_high_of_seemsLow hlow hboth.1
              · rfl
            have hbounds := codePair_bounds v v'
            simp only [hhigh, hlow, hpair, if_true, if_false, hsecond, LineEnd.push_push]
            refine hafter.diverge fun hleads => ?_
            have hfirst := (hleads v _ hlt hbounds.1 hbounds.2).append [] (xc v')
            rwa [List.append_nil] at hfirst
        · have hpair : ¬(High v ∧ Low v') := fun hboth =>
            hlow ((seemsLow_iff hlt').mpr (.inl hboth.2))
          simp only [hhigh, hlow, hpair, if_true, if_false, hunit]
          cases hthird : nextUnit t₂ with
          | none =>
              have hsame := (hafter.push (xc v')).push (xc v)
              rw [← List.append_assoc] at hsame
              simpa using hsame
          | some r =>
              obtain ⟨v'', t₃⟩ := r
              obtain ⟨hlength₃, -⟩ := nextUnit_length_lt hthird
              dsimp only
              by_cases hpair' : High v' ∧ Low v''
              · -- the second escape starts a pair
                obtain ⟨hending, hclean, htext⟩ := codeText_unit xc newline
                  hthird (not_seemsHigh_of_low hpair'.2)
                have hbounds := pair_bounds hpair'.1 hpair'.2
                have hrest := (ih t₃ (by omega)).diverge (s := xc v ++ xc v' ++ xc v'')
                  (t := xc v ++ xc (pair v' v'')) fun hleads => by
                    have hsecond := (hleads v' _ hlt' hbounds.1 hbounds.2).symm.append (xc v'') []
                    rw [List.append_nil] at hsecond
                    rw [List.append_assoc]
                    exact hsecond.push (xc v)
                rw [hending, htext, ← List.append_assoc]
                simpa [hpair', LineEnd.push_push] using hrest
              · have hsame := (hafter.push (xc v')).push (xc v)
                rw [← List.append_assoc] at hsame
                simpa [hpair'] using hsame
      · have hpair : ¬(High v ∧ Low v') := fun hboth =>
          hhigh ((seemsHigh_iff hlt).mpr (.inl hboth.1))
        simpa [hhigh, hpair] using (ih t₁ hlength).push (xc v)

/-- A surrogate in front of the end of the line, or of a backslash there -/
theorem dangling_matches {t : List Byte} (hdangling : dangling t = true) :
    Matches xc (clean (ascii '\\' :: t)) (codeText xc newline (ascii '\\' :: t))
      (ending (ascii '\\' :: t)) (scanLine xc newline (ascii '\\' :: t)) := by
  cases t with
  | nil => cases hdangling
  | cons c t =>
      have hne := List.cons_ne_nil c t
      have hlt := number_sixteen_lt t
      have hshape := hdangling
      rw [dangling, decide_eq_true_eq] at hshape
      obtain ⟨rfl, -, hend⟩ := hshape
      have htext : codeText xc newline (ascii '\\' :: ascii 'u' :: t) =
          xc (codePair (number 16 4 0 t).1 0xDC00) := by
        rw [codeText, if_neg backslash_ne_quote, if_pos rfl, if_neg hne, if_pos hdangling,
          List.tail_cons]
      have hnone : nextUnit (number 16 4 0 t).2 = none := by
        rcases hend with hend | hend <;> rw [hend] <;> rfl
      have hescape : translate xc newline (ascii 'u' :: t) = (xc (number 16 4 0 t).1,
          (number 16 4 0 t).2) := by
        rw [translate, if_pos rfl]
        dsimp only
        rw [hnone]
      rw [ending_escape hne, if_pos hdangling, scanLine_escape xc newline hne, hescape, htext]
      have hbounds := codePair_bounds (number 16 4 0 t).1 0xDC00
      rcases hend with hend | hend
      · rw [hend, scanLine]
        exact fun hleads => by
          rw [List.append_nil]
          exact hleads _ _ hlt hbounds.1 hbounds.2
      · rw [hend, scanLine, if_neg backslash_ne_quote, if_pos rfl, if_pos rfl]
        trivial

/-- {lit}`\"-parse` finds the same end of a line, and the same characters if no escape is
misread. -/
theorem scanLine_matches (xc : Nat → List Byte) (newline : List Byte)
    (t : List Byte) :
    Matches xc (clean t) (codeText xc newline t) (ending t) (scanLine xc newline t) := by
  induction t using line_induction with
  | nil =>
      rw [clean, codeText, ending, scanLine]
      exact .refl _
  | quote t =>
      rw [clean, codeText, ending, scanLine, if_pos rfl, if_pos rfl, if_pos rfl, if_pos rfl]
      exact ⟨rfl, .refl _⟩
  | backslash =>
      rw [ending, scanLine, if_neg backslash_ne_quote, if_neg backslash_ne_quote, if_pos rfl,
        if_pos rfl, if_pos rfl, if_pos rfl]
      trivial
  | escape t ht ih =>
      cases hdangling : dangling t with
      | true => exact dangling_matches hdangling
      | false =>
          rw [clean_escape ht, codeText_escape xc newline ht hdangling, ending_escape ht,
            hdangling, scanLine_escape xc newline ht]
          cases t with
          | nil => exact absurd rfl ht
          | cons c t =>
              by_cases hc : c = ascii 'u'
              · subst hc
                exact unit_matches fun t' hle => ih t' (Nat.le_succ_of_le hle)
              · obtain ⟨hescape, -, hmisread⟩ :=
                  codeEscape_of_ne xc newline (t := t) hc
                have hrest := codeEscape_snd xc newline (c :: t)
                rw [hescape] at hrest
                rw [hmisread, hescape, hrest]
                exact (ih _ (codeRest_length_le _)).push _
  | other c t hquote hbackslash ih =>
      rw [clean_other hquote hbackslash, codeText_other xc newline hquote hbackslash,
        ending_other hquote hbackslash, scanLine_other xc newline hquote hbackslash]
      exact ih.push [c]

end Quotes
end Gforth
