import Gforth.Numbers.Conversion

/-!
# Floating-point numbers

{lit}`to_float` recognizes a floating-point number, and copies it for {lit}`strtod` in the syntax of C
while it does so.

Main results:

- Theorem {lit}`toFloat_text`: what is handed to {lit}`strtod` for a string of the grammar.
- Theorem {lit}`toFloat_grammar`: only these strings and blanks are accepted.
-/

namespace Gforth
namespace Numbers

open Lib

/-! ## The function -/

/-- {lit}`'0' ... '9'` -/
abbrev DecimalDigit (c : Byte) : Prop :=
  ascii '0' ≤ c ∧ c ≤ ascii '9'

/-- {lit}`{ + | - }` -/
abbrev SignChar (c : Byte) : Prop :=
  c = ascii '+' ∨ c = ascii '-'

/-- {lit}`<e-char>` -/
abbrev EChar (c : Byte) : Prop :=
  c = ascii 'D' ∨ c = ascii 'd' ∨ c = ascii 'E' ∨ c = ascii 'e'

/-- The result of {lit}`to_float` with {lit}`*rp`, the characters that were written to {lit}`cnum`,
and whether both assertions hold -/
structure ToFloat (α : Type) where
  flag : Bool
  r : α
  cnum : List Byte
  asserted : Bool

section Function

variable {α : Type} (strtod : List Byte → α × Nat) (zero : α) (u : Nat)

/-- {lit}`done`; {lit}`strtod` returns a number and the length of the text it has converted. -/
def floatDone (edigits : Nat) (t : List Byte) : ToFloat α :=
  let t := if edigits = 0 then t ++ [ascii '0'] else t
  let conv := strtod t
  let t := t ++ [0#8]
  ⟨true, conv.1, t, t.length ≤ u + 3 ∧ t[conv.2]? = some 0#8⟩

/-- {lit}`return0` -/
def floatReturn0 : ToFloat α :=
  ⟨true, zero, [], true⟩

/-- {lit}`error` -/
def floatError (t : List Byte) : ToFloat α :=
  ⟨false, zero, t, true⟩

/-- {lit}`edigits0` -/
def floatEdigits0 : List Byte → List Byte → Nat → ToFloat α
  | [], t, edigits => floatDone strtod u edigits t
  | c :: s, t, edigits =>
      if DecimalDigit c then floatEdigits0 s (t ++ [c]) (edigits + 1) else floatError zero t

/-- {lit}`exponent` -/
def floatExponent (s t : List Byte) (ndigits ndots : Nat) : ToFloat α :=
  if ndigits < 1 ∨ 1 < ndots then floatError zero t
  else
    let t := t ++ [ascii 'E']
    match s with
    | [] => floatDone strtod u 0 t
    | c :: s' =>
        match if EChar c then s' else s with
        | [] => floatDone strtod u 0 t
        | c :: s =>
            if SignChar c then floatEdigits0 strtod zero u s (t ++ [c]) 0
            else floatEdigits0 strtod zero u (c :: s) t 0

/-- {lit}`aftersign` -/
def floatAftersign (dot : Byte) : List Byte → List Byte → Nat → Nat → ToFloat α
  | [], t, ndigits, ndots => floatExponent strtod zero u [] t ndigits ndots
  | c :: s, t, ndigits, ndots =>
      if c = dot then floatAftersign dot s (t ++ [ascii '.']) ndigits (ndots + 1)
      else if DecimalDigit c then floatAftersign dot s (t ++ [c]) (ndigits + 1) ndots
      else floatExponent strtod zero u (c :: s) t ndigits ndots

end Function

/-- {lit}`to_float` -/
def toFloat {α : Type} (strtod : List Byte → α × Nat) (zero : α) (dot : Byte) (s : List Byte) :
    ToFloat α :=
  match s with
  | [] => floatReturn0 zero
  | c :: t =>
      if c = ascii ' ' then
        if ∀ c ∈ t, c = ascii ' ' then floatReturn0 zero else floatError zero []
      else if SignChar c then floatAftersign strtod zero s.length dot t [c] 0 0
      else floatAftersign strtod zero s.length dot s [] 0 0

/-! ## The grammar -/

/-- {lit}`<digits0>` -/
abbrev Digits0 : Type :=
  {ds : List Byte // ∀ c ∈ ds, DecimalDigit c}

/-- {lit}`<digits>` -/
abbrev Digits : Type :=
  {ds : Digits0 // ds.1 ≠ []}

/-- {lit}`<sign>` and {lit}`<sign-form>` -/
abbrev SignForm : Type :=
  {c : Byte // SignChar c}

/-- {lit}`{<digits>[.<digits0>] | .<digits>}` -/
inductive Mantissa where
  | digits (ds : Digits)
  | point (ds : Digits) (ds0 : Digits0)
  | leading (ds : Digits)

/-- {lit}`<marker>` -/
inductive Marker where
  | eForm (e : {c : Byte // EChar c}) (sign : Option SignForm)
  | signForm (sign : SignForm)

/-- {lit}`<exponent>` -/
structure Exponent where
  marker : Marker
  digits0 : Digits0

/-- A convertible string -/
structure Convertible where
  sign : Option SignForm
  mantissa : Mantissa
  exponent : Option Exponent

/-- The characters of a sign -/
def signText (sign : Option SignForm) : List Byte :=
  (sign.map Subtype.val).toList

namespace Mantissa

/-- The characters, with this decimal point -/
def text (dot : Byte) : Mantissa → List Byte
  | digits ds => ds.1.1
  | point ds ds0 => ds.1.1 ++ dot :: ds0.1
  | leading ds => dot :: ds.1.1

end Mantissa

namespace Marker

def text : Marker → List Byte
  | eForm e sign => e.1 :: signText sign
  | signForm sign => [sign.1]

def sign : Marker → List Byte
  | eForm _ sign => signText sign
  | signForm sign => [sign.1]

end Marker

namespace Exponent

/-- The characters of an exponent that may be missing -/
def text : Option Exponent → List Byte
  | none => []
  | some e => e.marker.text ++ e.digits0.1

/-- The exponent for {lit}`strtod`, behind the {lit}`E` -/
def handed : Option Exponent → List Byte
  | none => [ascii '0']
  | some e => e.marker.sign ++ if e.digits0.1 = [] then [ascii '0'] else e.digits0.1

end Exponent

namespace Convertible

variable (p : Convertible)

def text (dot : Byte) : List Byte :=
  signText p.sign ++ (p.mantissa.text dot ++ Exponent.text p.exponent)

/-- The string for {lit}`strtod` -/
def handed : List Byte :=
  signText p.sign ++ (p.mantissa.text (ascii '.') ++ ascii 'E' :: Exponent.handed p.exponent)

end Convertible

/-- A floating-point constant of C, possibly with a sign in front -/
structure CConstant where
  sign : Option SignForm
  mantissa : Mantissa
  exponent : Option ({c : Byte // c = ascii 'E' ∨ c = ascii 'e'} × Option SignForm × Digits)

def CConstant.text (k : CConstant) : List Byte :=
  signText k.sign ++ (k.mantissa.text (ascii '.') ++
    match k.exponent with
    | none => []
    | some (e, sign, ds) => e.1 :: (signText sign ++ ds.1.1))

/-- A decimal point that is not used for something else -/
def PlainDot (dot : Byte) : Prop :=
  ¬DecimalDigit dot ∧ ¬SignChar dot ∧ ¬EChar dot ∧ dot ≠ ascii ' '

instance (dot : Byte) : Decidable (PlainDot dot) := by
  unfold PlainDot
  infer_instance

/-! ## The characters -/

variable {c : Byte}

theorem EChar.not_sign (h : EChar c) : ¬SignChar c := by
  rcases h with rfl | rfl | rfl | rfl <;> decide

theorem EChar.not_digit (h : EChar c) : ¬DecimalDigit c := by
  rcases h with rfl | rfl | rfl | rfl <;> decide

theorem SignChar.not_e (h : SignChar c) : ¬EChar c :=
  fun he => he.not_sign h

theorem SignChar.not_digit (h : SignChar c) : ¬DecimalDigit c := by
  rcases h with rfl | rfl <;> decide

theorem SignChar.ne_blank (h : SignChar c) : c ≠ ascii ' ' := by
  rcases h with rfl | rfl <;> decide

theorem DecimalDigit.ne_blank (h : DecimalDigit c) : c ≠ ascii ' ' := by
  rintro rfl
  exact absurd h (by decide)

/-- An exponent starts with a character that does not belong to the digits before it. -/
theorem Exponent.head_text {e : Option Exponent} {s : List Byte} (h : Exponent.text e = c :: s) :
    EChar c ∨ SignChar c := by
  cases e with
  | none => cases h
  | some e =>
      obtain ⟨marker, ds⟩ := e
      cases marker with
      | eForm e sign =>
          injection h with hc
          exact .inl (hc ▸ e.2)
      | signForm sign =>
          injection h with hc
          exact .inr (hc ▸ sign.2)

/-! ## Strings of the grammar -/

section Accepted

variable {α : Type} (strtod : List Byte → α × Nat) (zero : α) (u : Nat)

/-- The result when a string is handed to {lit}`strtod` -/
def floatHanded (t : List Byte) : ToFloat α :=
  ⟨true, (strtod t).1, t ++ [0#8],
    (t ++ [0#8]).length ≤ u + 3 ∧ (t ++ [0#8])[(strtod t).2]? = some 0#8⟩

theorem floatDone_eq (edigits : Nat) (t : List Byte) :
    floatDone strtod u edigits t =
      floatHanded strtod u (if edigits = 0 then t ++ [ascii '0'] else t) :=
  rfl

/-- The digits of the exponent are copied. -/
theorem floatEdigits0_digits {ds : List Byte} (hds : ∀ c ∈ ds, DecimalDigit c) (t : List Byte)
    (n : Nat) :
    floatEdigits0 strtod zero u ds t n = floatDone strtod u (n + ds.length) (t ++ ds) := by
  induction ds generalizing t n with
  | nil => rw [floatEdigits0, List.length_nil, Nat.add_zero, List.append_nil]
  | cons c ds ih =>
      rw [floatEdigits0, if_pos (hds c List.mem_cons_self),
        ih fun d hd => hds d (List.mem_cons_of_mem _ hd), List.append_assoc, List.length_cons,
        Nat.add_assoc, Nat.add_comm 1]
      rfl

/-- The digits of an exponent, up to the end -/
theorem floatEdigits0_handed (ds : Digits0) (t : List Byte) :
    floatEdigits0 strtod zero u ds.1 t 0 =
      floatHanded strtod u (t ++ if ds.1 = [] then [ascii '0'] else ds.1) := by
  rw [floatEdigits0_digits strtod zero u ds.2, floatDone_eq, Nat.zero_add]
  by_cases hnil : ds.1 = []
  · rw [hnil, List.append_nil]
    rfl
  · rw [if_neg hnil, if_neg (by simpa using hnil)]

/-- A sign that may be missing, and digits up to the end -/
theorem floatSign_handed (sign : Option SignForm) (ds : Digits0) (t : List Byte) :
    (match signText sign ++ ds.1 with
      | [] => floatDone strtod u 0 t
      | c :: s =>
          if SignChar c then floatEdigits0 strtod zero u s (t ++ [c]) 0
          else floatEdigits0 strtod zero u (c :: s) t 0) =
    floatHanded strtod u
      (t ++ (signText sign ++ if ds.1 = [] then [ascii '0'] else ds.1)) := by
  cases sign with
  | some c =>
      have hrest := floatEdigits0_handed strtod zero u ds (t ++ [c.1])
      rw [List.append_assoc] at hrest
      exact (if_pos c.2).trans hrest
  | none =>
      have hrest := floatEdigits0_handed strtod zero u ds t
      rw [show signText none = [] from rfl, List.nil_append, List.nil_append, ← hrest]
      cases hds : ds.1 with
      | nil => rfl
      | cons c s =>
          have hdigit : DecimalDigit c := ds.2 c (by rw [hds]; exact List.mem_cons_self)
          exact if_neg fun hsign => hsign.not_digit hdigit

variable {ndigits ndots : Nat} {s t : List Byte}

/-- An exponent is copied. -/
theorem floatExponent_text (e : Option Exponent) (t : List Byte) (hdigits : 1 ≤ ndigits)
    (hdots : ndots ≤ 1) :
    floatExponent strtod zero u (Exponent.text e) t ndigits ndots =
      floatHanded strtod u (t ++ ascii 'E' :: Exponent.handed e) := by
  have happend : t ++ ascii 'E' :: Exponent.handed e = t ++ [ascii 'E'] ++ Exponent.handed e := by
    simp
  rw [floatExponent, if_neg (by omega), happend]
  cases e with
  | none => rfl
  | some e =>
      obtain ⟨marker, ds⟩ := e
      cases marker with
      | eForm e sign =>
          have hrest := floatSign_handed strtod zero u sign ds (t ++ [ascii 'E'])
          refine Eq.trans ?_ hrest
          simp only [Exponent.text, Marker.text, List.cons_append, if_pos e.2]
      | signForm sign =>
          have hrest := floatSign_handed strtod zero u (some sign) ds (t ++ [ascii 'E'])
          refine Eq.trans ?_ hrest
          have hsign : ¬EChar sign.1 := sign.2.not_e
          simp only [Exponent.text, Marker.text, List.singleton_append, if_neg hsign]
          rfl

variable {dot : Byte}

/-- The digits of the mantissa are copied. -/
theorem floatAftersign_digits (hdot : ¬DecimalDigit dot) {ds : List Byte}
    (hds : ∀ c ∈ ds, DecimalDigit c) (s t : List Byte) (ndigits ndots : Nat) :
    floatAftersign strtod zero u dot (ds ++ s) t ndigits ndots =
      floatAftersign strtod zero u dot s (t ++ ds) (ndigits + ds.length) ndots := by
  induction ds generalizing t ndigits with
  | nil => rw [List.nil_append, List.append_nil, List.length_nil, Nat.add_zero]
  | cons c ds ih =>
      have hc := hds c List.mem_cons_self
      rw [List.cons_append, floatAftersign, if_neg (fun heq : c = dot => hdot (heq ▸ hc)), if_pos hc,
        ih fun d hd => hds d (List.mem_cons_of_mem _ hd), List.append_assoc, List.length_cons,
        Nat.add_assoc, Nat.add_comm 1]
      rfl

/-- The point is copied as a point. -/
theorem floatAftersign_dot (s t : List Byte) (ndigits ndots : Nat) :
    floatAftersign strtod zero u dot (dot :: s) t ndigits ndots =
      floatAftersign strtod zero u dot s (t ++ [ascii '.']) ndigits (ndots + 1) := by
  rw [floatAftersign, if_pos rfl]

/-- The exponent ends the mantissa. -/
theorem floatAftersign_exponent (hdot : PlainDot dot) (e : Option Exponent) (t : List Byte)
    (ndigits ndots : Nat) :
    floatAftersign strtod zero u dot (Exponent.text e) t ndigits ndots =
      floatExponent strtod zero u (Exponent.text e) t ndigits ndots := by
  cases htext : Exponent.text e with
  | nil => rw [floatAftersign]
  | cons c s =>
      rw [floatAftersign]
      rcases Exponent.head_text htext with he | hsign
      · rw [if_neg (fun heq : c = dot => hdot.2.2.1 (heq ▸ he)), if_neg he.not_digit]
      · rw [if_neg (fun heq : c = dot => hdot.2.1 (heq ▸ hsign)), if_neg hsign.not_digit]

/-- A significand without its sign, and an exponent -/
theorem floatAftersign_text (hdot : PlainDot dot) (m : Mantissa) (e : Option Exponent)
    (t : List Byte) :
    floatAftersign strtod zero u dot (m.text dot ++ Exponent.text e) t 0 0 =
      floatHanded strtod u (t ++ (m.text (ascii '.') ++ ascii 'E' :: Exponent.handed e)) := by
  cases m with
  | digits ds =>
      have hpos := List.length_pos_of_ne_nil ds.2
      rw [Mantissa.text, floatAftersign_digits strtod zero u hdot.1 ds.1.2,
        floatAftersign_exponent strtod zero u hdot, floatExponent_text _ _ _ _ _ (by omega) (by omega),
        Mantissa.text, List.append_assoc]
  | point ds ds0 =>
      have hpos := List.length_pos_of_ne_nil ds.2
      rw [Mantissa.text, List.append_assoc, List.cons_append,
        floatAftersign_digits strtod zero u hdot.1 ds.1.2, floatAftersign_dot,
        floatAftersign_digits strtod zero u hdot.1 ds0.2, floatAftersign_exponent strtod zero u hdot,
        floatExponent_text _ _ _ _ _ (by omega) (by omega), Mantissa.text]
      simp
  | leading ds =>
      have hpos := List.length_pos_of_ne_nil ds.2
      rw [Mantissa.text, List.cons_append, floatAftersign_dot,
        floatAftersign_digits strtod zero u hdot.1 ds.1.2, floatAftersign_exponent strtod zero u hdot,
        floatExponent_text _ _ _ _ _ (by omega) (by omega), Mantissa.text]
      simp

/-- A mantissa starts with a digit or the point. -/
theorem Mantissa.head_text (m : Mantissa) (dot : Byte) :
    ∃ c s, m.text dot = c :: s ∧ (DecimalDigit c ∨ c = dot) := by
  have hhead : ∀ (ds : Digits) (t : List Byte), ∃ c s, ds.1.1 ++ t = c :: s ∧ DecimalDigit c := by
    intro ds t
    obtain ⟨c, s, hcs⟩ := List.exists_cons_of_ne_nil ds.2
    exact ⟨c, s ++ t, by rw [hcs]; rfl, ds.1.2 c (by rw [hcs]; exact List.mem_cons_self)⟩
  cases m with
  | digits ds =>
      obtain ⟨c, s, hcs, hc⟩ := hhead ds []
      exact ⟨c, s, by rw [← hcs, List.append_nil, Mantissa.text], .inl hc⟩
  | point ds ds0 =>
      obtain ⟨c, s, hcs, hc⟩ := hhead ds (dot :: ds0.1)
      exact ⟨c, s, hcs, .inl hc⟩
  | leading ds => exact ⟨dot, ds.1.1, rfl, .inr rfl⟩

/-- A string of the grammar is handed to {lit}`strtod` in the syntax of C. -/
theorem toFloat_text (hdot : PlainDot dot) (p : Convertible) :
    toFloat strtod zero dot (p.text dot) = floatHanded strtod (p.text dot).length p.handed := by
  obtain ⟨sign, m, e⟩ := p
  generalize hlen : (Convertible.text ⟨sign, m, e⟩ dot).length = n
  cases sign with
  | some c =>
      have htext : Convertible.text ⟨some c, m, e⟩ dot = c.1 :: (m.text dot ++ Exponent.text e) := rfl
      rw [htext] at hlen ⊢
      rw [toFloat, if_neg c.2.ne_blank, if_pos c.2, floatAftersign_text strtod zero _ hdot, hlen]
      rfl
  | none =>
      have htext : Convertible.text ⟨none, m, e⟩ dot = m.text dot ++ Exponent.text e := rfl
      have hresult := floatAftersign_text strtod zero n hdot m e []
      obtain ⟨c, s, hcs, hc⟩ := m.head_text dot
      rw [htext, hcs, List.cons_append] at hlen ⊢
      have hblank : c ≠ ascii ' ' := by
        rcases hc with hdigit | rfl
        · exact hdigit.ne_blank
        · exact hdot.2.2.2
      have hsign : ¬SignChar c := by
        intro hsign
        rcases hc with hdigit | rfl
        · exact hsign.not_digit hdigit
        · exact hdot.2.1 hsign
      rw [hcs, List.cons_append, List.nil_append] at hresult
      rw [toFloat, if_neg hblank, if_neg hsign, hlen, hresult]
      rfl

/-! ## Accepted strings -/

/-- What is accepted as an exponent has digits only. -/
theorem digits_of_floatEdigits0 {n : Nat} (h : (floatEdigits0 strtod zero u s t n).flag = true) :
    ∀ c ∈ s, DecimalDigit c := by
  induction s generalizing t n with
  | nil => exact fun c hc => absurd hc List.not_mem_nil
  | cons c s ih =>
      rw [floatEdigits0] at h
      by_cases hc : DecimalDigit c
      · rw [if_pos hc] at h
        intro d hd
        rcases List.mem_cons.mp hd with rfl | hd
        · exact hc
        · exact ih h d hd
      · rw [if_neg hc] at h
        cases h

/-- A sign that may be missing, and digits -/
theorem sign_of_flag (h : (match s with
      | [] => floatDone strtod u 0 t
      | c :: s =>
          if SignChar c then floatEdigits0 strtod zero u s (t ++ [c]) 0
          else floatEdigits0 strtod zero u (c :: s) t 0).flag = true) :
    ∃ (sign : Option SignForm) (ds : Digits0), signText sign ++ ds.1 = s := by
  cases s with
  | nil => exact ⟨none, ⟨[], by simp⟩, rfl⟩
  | cons c s =>
      dsimp only at h
      by_cases hc : SignChar c
      · rw [if_pos hc] at h
        exact ⟨some ⟨c, hc⟩, ⟨s, digits_of_floatEdigits0 strtod zero u h⟩, rfl⟩
      · rw [if_neg hc] at h
        exact ⟨none, ⟨c :: s, digits_of_floatEdigits0 strtod zero u h⟩, rfl⟩

/-- What is accepted behind the mantissa is an exponent. -/
theorem exponent_of_flag (hs : ∀ c t, s = c :: t → ¬DecimalDigit c)
    (h : (floatExponent strtod zero u s t ndigits ndots).flag = true) :
    1 ≤ ndigits ∧ ndots ≤ 1 ∧ ∃ e, Exponent.text e = s := by
  rw [floatExponent] at h
  by_cases hreject : ndigits < 1 ∨ 1 < ndots
  · rw [if_pos hreject] at h
    cases h
  · rw [if_neg hreject] at h
    refine ⟨by omega, by omega, ?_⟩
    cases s with
    | nil => exact ⟨none, rfl⟩
    | cons c s =>
        dsimp only at h
        by_cases hc : EChar c
        · rw [if_pos hc] at h
          obtain ⟨sign, ds, rfl⟩ := sign_of_flag strtod zero u h
          exact ⟨some ⟨.eForm ⟨c, hc⟩ sign, ds⟩, rfl⟩
        · rw [if_neg hc] at h
          obtain ⟨sign, ds, hds⟩ := @sign_of_flag α strtod zero u (c :: s) (t ++ [ascii 'E']) h
          cases sign with
          | some sign => exact ⟨some ⟨.signForm sign, ds⟩, hds⟩
          | none =>
              have hdigit : DecimalDigit c := by
                refine ds.2 c ?_
                rw [show ds.1 = c :: s from hds]
                exact List.mem_cons_self
              exact absurd hdigit (hs c s rfl)

/-- The digits and points of an accepted string, and its exponent -/
theorem body_of_flag (h : (floatAftersign strtod zero u dot s t ndigits ndots).flag = true) :
    ∃ body e, s = body ++ Exponent.text e ∧ (∀ c ∈ body, c = dot ∨ DecimalDigit c) ∧
      1 ≤ ndigits + body.countP (fun c => c ≠ dot) ∧ ndots + body.count dot ≤ 1 := by
  induction s generalizing t ndigits ndots with
  | nil =>
      rw [floatAftersign] at h
      obtain ⟨hdigits, hdots, e, he⟩ := exponent_of_flag strtod zero u (by simp) h
      exact ⟨[], e, by rw [he]; rfl, by simp, by simpa using hdigits, by simpa using hdots⟩
  | cons c s ih =>
      rw [floatAftersign] at h
      by_cases hpoint : c = dot
      · subst hpoint
        rw [if_pos rfl] at h
        obtain ⟨body, e, rfl, hbody, hdigits, hdots⟩ := ih h
        refine ⟨c :: body, e, rfl, ?_, ?_, ?_⟩
        · intro d hd
          rcases List.mem_cons.mp hd with rfl | hd
          · exact .inl rfl
          · exact hbody d hd
        · simpa using hdigits
        · rw [List.count_cons_self]
          omega
      · rw [if_neg hpoint] at h
        by_cases hdigit : DecimalDigit c
        · rw [if_pos hdigit] at h
          obtain ⟨body, e, rfl, hbody, hdigits, hdots⟩ := ih h
          refine ⟨c :: body, e, rfl, ?_, ?_, ?_⟩
          · intro d hd
            rcases List.mem_cons.mp hd with rfl | hd
            · exact .inr hdigit
            · exact hbody d hd
          · rw [List.countP_cons_of_pos (by simpa using hpoint)]
            omega
          · rw [List.count_cons_of_ne hpoint]
            exact hdots
        · rw [if_neg hdigit] at h
          obtain ⟨hdigits, hdots, e, he⟩ := exponent_of_flag strtod zero u (by
            intro d t hdt
            injection hdt with hd
            exact hd ▸ hdigit) h
          exact ⟨[], e, by rw [he]; rfl, by simp, by simpa using hdigits, by simpa using hdots⟩

/-- Digits with at most one point -/
theorem exists_mantissa {body : List Byte} (hbody : ∀ c ∈ body, c = dot ∨ DecimalDigit c)
    (hdigits : 1 ≤ body.countP (fun c => c ≠ dot)) (hdots : body.count dot ≤ 1) :
    ∃ m : Mantissa, m.text dot = body := by
  have hrest : ∀ {ds : List Byte}, (∀ c ∈ ds, c ∈ body) → dot ∉ ds → ∀ c ∈ ds, DecimalDigit c := by
    intro ds hsub hnot c hc
    rcases hbody c (hsub c hc) with rfl | hdigit
    · exact absurd hc hnot
    · exact hdigit
  by_cases hmem : dot ∈ body
  · obtain ⟨ds, ds0, rfl⟩ := List.append_of_mem hmem
    rw [List.count_append, List.count_cons_self] at hdots
    have hds := @hrest ds (fun c hc => List.mem_append_left _ hc)
      (List.count_eq_zero.mp (by omega))
    have hds0 := @hrest ds0
      (fun c hc => List.mem_append_right _ (List.mem_cons_of_mem _ hc))
      (List.count_eq_zero.mp (by omega))
    by_cases hnil : ds = []
    · subst hnil
      refine ⟨.leading ⟨⟨ds0, hds0⟩, ?_⟩, rfl⟩
      rintro rfl
      simp at hdigits
    · exact ⟨.point ⟨⟨ds, hds⟩, hnil⟩ ⟨ds0, hds0⟩, rfl⟩
  · refine ⟨.digits ⟨⟨body, hrest (fun _ hc => hc) hmem⟩, ?_⟩, rfl⟩
    rintro rfl
    simp at hdigits

/-- An accepted string consists of blanks or is one of the grammar. -/
theorem grammar_of_flag {s : List Byte} (h : (toFloat strtod zero dot s).flag = true) :
    (∀ c ∈ s, c = ascii ' ') ∨ ∃ p : Convertible, p.text dot = s := by
  cases s with
  | nil => exact .inl (by simp)
  | cons c s =>
      rw [toFloat] at h
      by_cases hblank : c = ascii ' '
      · rw [if_pos hblank] at h
        by_cases hall : ∀ c ∈ s, c = ascii ' '
        · refine .inl fun d hd => ?_
          rcases List.mem_cons.mp hd with rfl | hd
          · exact hblank
          · exact hall d hd
        · rw [if_neg hall] at h
          cases h
      · rw [if_neg hblank] at h
        right
        by_cases hsign : SignChar c
        · rw [if_pos hsign] at h
          obtain ⟨body, e, rfl, hbody, hdigits, hdots⟩ := body_of_flag strtod zero _ h
          obtain ⟨m, rfl⟩ := exists_mantissa hbody (by omega) (by omega)
          exact ⟨⟨some ⟨c, hsign⟩, m, e⟩, rfl⟩
        · rw [if_neg hsign] at h
          obtain ⟨body, e, hs, hbody, hdigits, hdots⟩ := body_of_flag strtod zero _ h
          obtain ⟨m, rfl⟩ := exists_mantissa hbody (by omega) (by omega)
          exact ⟨⟨none, m, e⟩, hs.symm⟩

/-! ## The buffer -/

theorem length_cnum_floatDone (edigits : Nat) (t : List Byte) :
    (floatDone strtod u edigits t).cnum.length ≤ t.length + 2 := by
  rw [floatDone_eq, floatHanded]
  split <;> simp

/-- The digits of the exponent fit into the buffer. -/
theorem length_cnum_floatEdigits0 (s t : List Byte) (n : Nat) :
    (floatEdigits0 strtod zero u s t n).cnum.length ≤ t.length + s.length + 2 := by
  induction s generalizing t n with
  | nil => exact length_cnum_floatDone strtod u n t
  | cons c s ih =>
      rw [floatEdigits0]
      split
      · have hrest := ih (t ++ [c]) (n + 1)
        rw [List.length_append, List.length_singleton] at hrest
        rw [List.length_cons]
        omega
      · exact (Nat.le_add_right t.length _).trans (Nat.le_add_right _ 2)

/-- The sign of the exponent fits into the buffer. -/
theorem length_cnum_floatSign (s t : List Byte) :
    (match s with
      | [] => floatDone strtod u 0 t
      | c :: s =>
          if SignChar c then floatEdigits0 strtod zero u s (t ++ [c]) 0
          else floatEdigits0 strtod zero u (c :: s) t 0).cnum.length ≤ t.length + s.length + 2 := by
  cases s with
  | nil => exact length_cnum_floatDone strtod u 0 t
  | cons c s =>
      dsimp only
      split
      · have hrest := length_cnum_floatEdigits0 strtod zero u s (t ++ [c]) 0
        rw [List.length_append, List.length_singleton] at hrest
        rw [List.length_cons]
        omega
      · exact length_cnum_floatEdigits0 strtod zero u (c :: s) t 0

/-- The exponent fits into the buffer. -/
theorem length_cnum_floatExponent (s t : List Byte) (ndigits ndots : Nat) :
    (floatExponent strtod zero u s t ndigits ndots).cnum.length ≤ t.length + s.length + 3 := by
  have hE : (t ++ [ascii 'E']).length = t.length + 1 := List.length_append
  rw [floatExponent]
  split
  · exact (Nat.le_add_right t.length _).trans (Nat.le_add_right _ 3)
  · cases s with
    | nil =>
        have hdone := length_cnum_floatDone strtod u 0 (t ++ [ascii 'E'])
        rw [hE] at hdone
        exact hdone
    | cons c s =>
        dsimp only
        rw [List.length_cons]
        by_cases hc : EChar c
        · rw [if_pos hc]
          have hrest := length_cnum_floatSign strtod zero u s (t ++ [ascii 'E'])
          have hroom : (t ++ [ascii 'E']).length + s.length + 2 ≤ t.length + (s.length + 1) + 3 := by
            omega
          exact hrest.trans hroom
        · rw [if_neg hc]
          have hrest := length_cnum_floatSign strtod zero u (c :: s) (t ++ [ascii 'E'])
          have hroom : (t ++ [ascii 'E']).length + (c :: s).length + 2 ≤
              t.length + (s.length + 1) + 3 := by
            rw [List.length_cons]
            omega
          exact hrest.trans hroom

/-- The mantissa fits into the buffer. -/
theorem length_cnum_floatAftersign (s t : List Byte) (ndigits ndots : Nat) :
    (floatAftersign strtod zero u dot s t ndigits ndots).cnum.length ≤ t.length + s.length + 3 := by
  induction s generalizing t ndigits ndots with
  | nil => exact length_cnum_floatExponent strtod zero u [] t ndigits ndots
  | cons c s ih =>
      rw [floatAftersign]
      split
      · have hrest := ih (t ++ [ascii '.']) ndigits (ndots + 1)
        rw [List.length_append, List.length_singleton] at hrest
        rw [List.length_cons]
        omega
      · split
        · have hrest := ih (t ++ [c]) (ndigits + 1) ndots
          rw [List.length_append, List.length_singleton] at hrest
          rw [List.length_cons]
          omega
        · exact length_cnum_floatExponent strtod zero u (c :: s) t ndigits ndots

/-- The buffer has room for all characters that are written, whatever the string. -/
theorem length_cnum (s : List Byte) : (toFloat strtod zero dot s).cnum.length ≤ s.length + 3 := by
  cases s with
  | nil => exact Nat.zero_le _
  | cons c s =>
      rw [toFloat]
      split
      · split <;> exact Nat.zero_le _
      · split
        · have hrest := @length_cnum_floatAftersign α strtod zero (c :: s).length dot s [c] 0 0
          rw [List.length_singleton] at hrest
          rw [List.length_cons] at hrest ⊢
          omega
        · have hrest := @length_cnum_floatAftersign α strtod zero (c :: s).length dot (c :: s) [] 0 0
          rw [List.length_nil] at hrest
          omega

end Accepted

/-! ## The grammar and the function -/

namespace Convertible

/-- The string for {lit}`strtod` as a constant of C -/
def constant (p : Convertible) : CConstant where
  sign := p.sign
  mantissa := p.mantissa
  exponent :=
    let zero : Digits := ⟨⟨[ascii '0'], by decide⟩, by decide⟩
    match p.exponent with
    | none => some (⟨ascii 'E', .inl rfl⟩, none, zero)
    | some e =>
        some (⟨ascii 'E', .inl rfl⟩,
          match e.marker with
          | .eForm _ sign => sign
          | .signForm sign => some sign,
          if h : e.digits0.1 = [] then zero else ⟨e.digits0, h⟩)

theorem text_constant (p : Convertible) : p.constant.text = p.handed := by
  obtain ⟨sign, m, e⟩ := p
  cases e with
  | none => rfl
  | some e =>
      obtain ⟨marker, ds⟩ := e
      rw [CConstant.text, handed, constant, Exponent.handed]
      by_cases hnil : ds.1 = []
      · simp only [dif_pos hnil, if_pos hnil]
        cases marker <;> rfl
      · simp only [dif_neg hnil, if_neg hnil]
        cases marker <;> rfl

end Convertible

theorem getElem?_append_zero {t : List Byte} {α : Type} (r : α × Nat) (h : r.2 = t.length) :
    (t ++ [0#8])[r.2]? = some 0#8 := by
  rw [h]
  simp

/-- {lit}`to_float` accepts exactly the empty string, blanks and the strings of its grammar; for the
latter it hands the number in the syntax of C to {lit}`strtod`, which converts all of it, and both
assertions hold; and it stays within its buffer. -/
theorem toFloat_grammar {α : Type} (strtod : List Byte → α × Nat) (zero : α)
    (hstrtod : ∀ k : CConstant, (strtod k.text).2 = k.text.length) {dot : Byte}
    (hdot : PlainDot dot) (s : List Byte) :
    ((toFloat strtod zero dot s).flag = true ↔
        (∀ c ∈ s, c = ascii ' ') ∨ ∃ p : Convertible, p.text dot = s) ∧
      (∀ p : Convertible, p.text dot = s →
        toFloat strtod zero dot s = ⟨true, (strtod p.handed).1, p.handed ++ [0#8], true⟩ ∧
          (strtod p.handed).2 = p.handed.length) ∧
      ((∀ c ∈ s, c = ascii ' ') → toFloat strtod zero dot s = ⟨true, zero, [], true⟩) ∧
      (toFloat strtod zero dot s).cnum.length ≤ s.length + 3 := by
  have hlength := @length_cnum α strtod zero dot s
  have hblank : (∀ c ∈ s, c = ascii ' ') → toFloat strtod zero dot s = ⟨true, zero, [], true⟩ := by
    intro hall
    cases s with
    | nil => rfl
    | cons c s =>
        rw [toFloat, if_pos (hall c List.mem_cons_self),
          if_pos fun d hd => hall d (List.mem_cons_of_mem _ hd), floatReturn0]
  have htext : ∀ p : Convertible, p.text dot = s →
      toFloat strtod zero dot s = ⟨true, (strtod p.handed).1, p.handed ++ [0#8], true⟩ ∧
        (strtod p.handed).2 = p.handed.length := by
    rintro p rfl
    have hall : (strtod p.handed).2 = p.handed.length := by
      rw [← p.text_constant]
      exact hstrtod p.constant
    refine ⟨?_, hall⟩
    rw [toFloat_text strtod zero hdot] at hlength ⊢
    rw [floatHanded] at hlength ⊢
    rw [decide_eq_true ⟨hlength, getElem?_append_zero _ hall⟩]
  refine ⟨⟨grammar_of_flag strtod zero, ?_⟩, htext, hblank, hlength⟩
  rintro (hall | ⟨p, hp⟩)
  · rw [hblank hall]
  · rw [(htext p hp).1]

/-- A decimal comma and an exponent without digits, with a {lit}`strtod` that converts one and a
half -/
theorem toFloat_grammar_comma :
    let strtod : List Byte → ℚ × Nat := fun t =>
      (if t = ['1', '.', '5', 'E', '0'].map ascii then 3 / 2 else 0, t.length)
    toFloat strtod 0 (ascii ',') (['1', ',', '5', 'e'].map ascii) =
      ⟨true, 3 / 2, ['1', '.', '5', 'E', '0'].map ascii ++ [0#8], true⟩ := by
  intro strtod
  let p : Convertible :=
    ⟨none, .point ⟨⟨[ascii '1'], by decide⟩, by decide⟩ ⟨[ascii '5'], by decide⟩,
      some ⟨.eForm ⟨ascii 'e', by decide⟩ none, ⟨[], by decide⟩⟩⟩
  have hp : p.text (ascii ',') = ['1', ',', '5', 'e'].map ascii := by decide
  exact ((toFloat_grammar strtod 0 (fun _ => rfl) (by decide) _).2.1 p hp).1

end Numbers
end Gforth
