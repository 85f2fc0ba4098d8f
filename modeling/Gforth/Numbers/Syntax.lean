import Gforth.Numbers.Bodies

/-!
# The syntax of numbers

The texts that {lit}`s>number?` accepts: a sign, followed by a character in quotes or by a base
prefix, a sign and a body.  A minus sign may stand before or after the prefix.

Main results:

- Theorem {lit}`number_syntax`: the texts that are accepted, and what {lit}`s>number?` and
  {lit}`snumber?` leave for them.
- Theorem {lit}`underscore_is_number`: a text without any digit is accepted, and a text of half the
  address space is not.
-/

namespace Gforth
namespace Numbers

open Lib
open Memory

variable {w : Nat}

/-! ## Syntax -/

/-- The base prefixes -/
inductive Prefix where
  | none
  | decimal
  | hex
  | binary
  | ampersand
  | zeroX (upper : Bool)
deriving DecidableEq

namespace Prefix

def text : Prefix → List Byte
  | none => []
  | decimal => [ascii '#']
  | hex => [ascii '$']
  | binary => [ascii '%']
  | ampersand => [ascii '&']
  | zeroX false => [ascii '0', ascii 'x']
  | zeroX true => [ascii '0', ascii 'X']

/-- The base that is selected -/
def base (current : Nat) : Prefix → Nat
  | none => current
  | decimal | ampersand => 10
  | hex | zeroX _ => 16
  | binary => 2

/-- From base 34 on {lit}`x` is a digit. -/
def Allowed (current : Nat) : Prefix → Prop
  | zeroX _ => current < 34
  | _ => True

instance (current : Nat) : DecidablePred (Allowed current) := fun p => by
  cases p <;> unfold Allowed <;> infer_instance

end Prefix

/-- An optional minus sign -/
def sign (minus : Bool) : List Byte :=
  if minus then [ascii '-'] else []

/-- An optional closing quote -/
def quote (closed : Bool) : List Byte :=
  if closed then [ascii '\''] else []

/-- The length of the first extended character of a text -/
def xLength (enc : Encoding) (t : List Byte) : Nat :=
  match enc with
  | .fixedWidth => 1
  | .utf8 => (utf8Decode (t.getD 0 0#8 ++ t.getD 1 0#8 ++ t.getD 2 0#8 ++ t.getD 3 0#8)).1

/-- A number without its leading sign -/
inductive Unsigned where
  | char (xc : List Byte) (closed : Bool)
  | number (pre : Prefix) (minus : Bool) (body : List Byte)
deriving DecidableEq

namespace Unsigned

def text : Unsigned → List Byte
  | char xc closed => ascii '\'' :: (xc ++ quote closed)
  | number pre minus body => pre.text ++ (sign minus ++ body)

/-- The second sign stands only where there is no first one. -/
def WellFormed (enc : Encoding) (base : Nat) (signed : Bool) : Unsigned → Prop
  | char xc closed => xc ≠ [] ∧ xLength enc (xc ++ quote closed) = xc.length
  | number pre minus body =>
      pre.Allowed base ∧ (minus = true → signed = false) ∧ Body (pre.base base) body

def minus : Unsigned → Bool
  | char _ _ => false
  | number _ minus _ => minus

/-- The part with digits -/
def body : Unsigned → List Byte
  | char _ _ => []
  | number _ _ body => body

/-- The code of the character at the address behind the quote, or the value of the digits -/
def magnitude (enc : Encoding) (mem : Chars w) (a : BitVec w) (base : Nat) : Unsigned → Nat
  | char _ _ => (xcFetch enc mem (a + 1#w)).toNat
  | number pre _ body => bodyValue (pre.base base) body

end Unsigned

/-- A number -/
structure Numeral where
  minus : Bool
  unsigned : Unsigned
deriving DecidableEq

namespace Numeral

def text (n : Numeral) : List Byte :=
  sign n.minus ++ n.unsigned.text

def WellFormed (enc : Encoding) (base : Nat) (n : Numeral) : Prop :=
  n.unsigned.WellFormed enc base n.minus

def body (n : Numeral) : List Byte :=
  n.unsigned.body

/-- The signed value of a number whose text is at an address -/
def value (enc : Encoding) (mem : Chars w) (a : BitVec w) (base : Nat) (n : Numeral) : Int :=
  let magnitude := n.unsigned.magnitude enc mem (if n.minus then a + 1#w else a) base
  if n.minus || n.unsigned.minus then -magnitude else magnitude

end Numeral

/-! ## Characters that decide -/

/-- Characters that are neither digits nor separators -/
theorem not_bodyChar {base : Nat} {c : Byte}
    (h : digitValue c = none ∧ c ≠ ascii '_' ∧ c ≠ ascii '.') : ¬BodyChar base c := by
  rintro (hdigit | hc | hc)
  · exact hdigit (by rw [digitOf, h.1]; rfl)
  · exact h.2.1 hc
  · exact h.2.2 hc

/-- Below base 34 {lit}`x` and {lit}`X` are no digits. -/
theorem not_bodyChar_x {base : Nat} (hbase : base < 34) (upper : Bool) :
    ¬BodyChar base (if upper then ascii 'X' else ascii 'x') := by
  have hvalue : ∀ u : Bool, digitValue (if u then ascii 'X' else ascii 'x') = some 33 := by decide
  have hother : ∀ u : Bool, (if u then ascii 'X' else ascii 'x') ≠ ascii '_' ∧
      (if u then ascii 'X' else ascii 'x') ≠ ascii '.' := by decide
  rintro (hdigit | hc | hc)
  · refine hdigit ?_
    rw [digitOf, hvalue, Option.filter_some_neg (by simp; omega)]
  · exact (hother upper).1 hc
  · exact (hother upper).2 hc

theorem Body.head_bodyChar {base : Nat} {t : List Byte} (h : Body base t) {c : Byte}
    (hc : t.head? = some c) : BodyChar base c :=
  h.chars c (List.mem_of_mem_head? hc)

/-- The first character of a sign and a body -/
theorem head_sign_body {base : Nat} {minus : Bool} {body : List Byte} (h : Body base body) {c : Byte}
    (hc : (sign minus ++ body).head? = some c) : if minus then c = ascii '-' else BodyChar base c := by
  cases minus with
  | false => exact h.head_bodyChar hc
  | true =>
      cases hc
      rfl

/-! ## The prefix of a text -/

/-- A number with digits does not start with a quote. -/
theorem head_number_ne_quote {base : Nat} {pre : Prefix} {minus : Bool} {body : List Byte}
    (h : Body (pre.base base) body) {c : Byte}
    (hc : (pre.text ++ (sign minus ++ body)).head? = some c) : c ≠ ascii '\'' := by
  cases pre with
  | none =>
      have hhead := head_sign_body h (c := c) hc
      cases minus with
      | true =>
          rw [show c = ascii '-' from hhead]
          decide
      | false =>
          rintro rfl
          exact not_bodyChar (by decide) hhead
  | decimal | hex | binary | ampersand =>
      cases hc
      decide
  | zeroX upper =>
      cases upper <;> cases hc <;> decide

/-- The prefix that {lit}`getbase` finds -/
def prefixOf (base : Nat) (t : List Byte) : Prefix :=
  if base < 34 ∧ (Prefix.zeroX false).text <+: t then .zeroX false
  else if base < 34 ∧ (Prefix.zeroX true).text <+: t then .zeroX true
  else if Prefix.decimal.text <+: t then .decimal
  else if Prefix.hex.text <+: t then .hex
  else if Prefix.binary.text <+: t then .binary
  else if Prefix.ampersand.text <+: t then .ampersand
  else .none

/-- The prefix that a text has -/
theorem prefixOf_spec (base : Nat) (t : List Byte) :
    (prefixOf base t).Allowed base ∧ (prefixOf base t).text <+: t := by
  unfold prefixOf
  split_ifs with h h h h h h
  · exact h
  · exact h
  · exact ⟨trivial, h⟩
  · exact ⟨trivial, h⟩
  · exact ⟨trivial, h⟩
  · exact ⟨trivial, h⟩
  · exact ⟨trivial, List.nil_prefix⟩

/-- A sign and a body do not start with a prefix. -/
theorem not_prefix_sign_body {base : Nat} {minus : Bool} {body : List Byte} (hbody : Body base body)
    {pre : Prefix} (hpre : pre ≠ .none) (hallowed : pre.Allowed base) :
    ¬pre.text <+: sign minus ++ body := by
  have hchar : ∀ {c : Byte} {l : List Byte}, c :: l <+: sign minus ++ body → c ≠ ascii '-' →
      minus = false ∧ ∀ x ∈ c :: l, BodyChar base x := by
    intro c l hfront hc
    obtain ⟨r, hr⟩ := hfront
    have hhead := head_sign_body hbody (c := c) (by rw [← hr]; rfl)
    cases minus with
    | true => exact absurd hhead hc
    | false =>
        refine ⟨rfl, fun x hx => hbody.chars x ?_⟩
        change c :: l ++ r = body at hr
        rw [← hr]
        exact List.mem_append_left r hx
  intro hfront
  cases pre with
  | none => exact hpre rfl
  | decimal | hex | binary | ampersand =>
      exact not_bodyChar (by decide) ((hchar hfront (by decide)).2 _ List.mem_cons_self)
  | zeroX upper =>
      refine not_bodyChar_x hallowed upper ?_
      cases upper with
      | false | true => exact (hchar hfront (by decide)).2 _ (by simp)

/-- The prefix of a number is found. -/
theorem prefixOf_eq {base : Nat} {pre : Prefix} {minus : Bool} {body : List Byte}
    (hallowed : pre.Allowed base) (hbody : Body (pre.base base) body) :
    prefixOf base (pre.text ++ (sign minus ++ body)) = pre := by
  cases pre with
  | none =>
      have hnot : ∀ p : Prefix, p ≠ .none → p.Allowed base → ¬p.text <+: sign minus ++ body :=
        fun p => not_prefix_sign_body hbody
      change prefixOf base (sign minus ++ body) = .none
      rw [prefixOf, if_neg fun h => hnot (.zeroX false) (by decide) h.1 h.2,
        if_neg fun h => hnot (.zeroX true) (by decide) h.1 h.2,
        if_neg (hnot .decimal (by decide) trivial), if_neg (hnot .hex (by decide) trivial),
        if_neg (hnot .binary (by decide) trivial), if_neg (hnot .ampersand (by decide) trivial)]
  | decimal | hex | binary | ampersand => simp [prefixOf, Prefix.text, ascii]
  | zeroX upper =>
      have hlt : base < 34 := hallowed
      cases upper <;> simp [prefixOf, Prefix.text, ascii, hlt]

/-! ## The base -/

/-- The distance from the first prefix character -/
theorem toNat_offset (hw : 8 ≤ w) (c : Byte) :
    (c.setWidth w - (ascii '#').setWidth w).toNat =
      if c.toNat < 35 then 2 ^ w - 35 + c.toNat else c.toNat - 35 := by
  have hpow := two_pow_le_of_le hw
  have hc := c.isLt
  have hhash : (ascii '#').toNat = 35 := by decide
  rw [BitVec.toNat_sub, BitVec.toNat_setWidth_of_le hw, BitVec.toNat_setWidth_of_le hw, hhash]
  split
  · exact Nat.mod_eq_of_lt (by omega)
  · rw [show 2 ^ w - 35 + c.toNat = c.toNat - 35 + 2 ^ w by omega, Nat.add_mod_right,
      Nat.mod_eq_of_lt (by omega)]

/-- The characters that {lit}`getbase` looks up in its table -/
def tabled : List (Byte × Nat) :=
  [(ascii '#', 10), (ascii '$', 16), (ascii '%', 2), (ascii '&', 10)]

/-- A prefix character is one of the table, or none. -/
theorem offset_cases (hw : 8 ≤ w) (c : Byte) :
    (c.setWidth w - (ascii '#').setWidth w < 4#w ∧
        ∃ b, (c, b) ∈ tabled ∧ bases (c.setWidth w - (ascii '#').setWidth w) = BitVec.ofNat w b) ∨
      (¬c.setWidth w - (ascii '#').setWidth w < 4#w ∧ ∀ b, (c, b) ∉ tabled) := by
  have hpow := two_pow_le_of_le hw
  have hoffset := toNat_offset hw c
  have hfour : (4#w).toNat = 4 := by
    rw [BitVec.toNat_ofNat, Nat.mod_eq_of_lt (by omega)]
  rw [bases, BitVec.lt_def, hfour]
  generalize (c.setWidth w - (ascii '#').setWidth w).toNat = i at hoffset
  have htabled : ∀ x : Byte, (35 ≤ x.toNat ∧ x.toNat < 39) ∨ ∀ p ∈ tabled, x ≠ p.1 := by
    decide
  by_cases hrange : 35 ≤ c.toNat ∧ c.toNat < 39
  · left
    rw [if_neg (by omega)] at hoffset
    refine ⟨by omega, ?_⟩
    have hc : c = BitVec.ofNat 8 (i + 35) := by
      refine BitVec.eq_of_toNat_eq ?_
      rw [BitVec.toNat_ofNat, Nat.mod_eq_of_lt (by omega)]
      omega
    have hi : i < 4 := by omega
    rw [hc]
    clear hoffset hc
    interval_cases i
    · exact ⟨10, by decide, rfl⟩
    · exact ⟨16, by decide, rfl⟩
    · exact ⟨2, by decide, rfl⟩
    · exact ⟨10, by decide, rfl⟩
  · right
    refine ⟨?_, fun b hb => (htabled c).resolve_left hrange _ hb rfl⟩
    split at hoffset <;> omega

/-- What {lit}`getbase` does to {lit}`>num-state` -/
def Prefix.mark (pre : Prefix) (numState : BitVec w) : BitVec w :=
  if pre = .none then numState else 1#w ||| numState

/-- {lit}`getbase` finds the prefix. -/
theorem getbase_eq (hw : 8 ≤ w) (mem : Chars w) (st : NumberState w) (s : Str w)
    (hbase : st.base.toNat ≤ 36) (hne : s.chars mem ≠ []) {pre : Prefix}
    (hpre : prefixOf st.base.toNat (s.chars mem) = pre) :
    getbase mem st s = ({ st with
      base := BitVec.ofNat w (pre.base st.base.toNat)
      numState := pre.mark st.numState }, s.slashString (BitVec.ofNat w pre.text.length)) := by
  have hpow := two_pow_le_of_le hw
  have hlt : st.base.slt 34#w = true ↔ st.base.toNat < 34 := by
    rw [BitVec.slt_iff_toInt_lt, toInt_of_lt (by omega),
      toInt_of_lt (by rw [BitVec.toNat_ofNat, Nat.mod_eq_of_lt] <;> omega), BitVec.toNat_ofNat,
      Nat.mod_eq_of_lt (by omega)]
    omega
  have hcons := Str.chars_eq_cons mem s hne
  rw [getbase]
  simp only [Bool.and_eq_true, Bool.or_eq_true, stringPrefix?_iff, hlt]
  subst hpre
  by_cases hx : st.base.toNat < 34 ∧ (Prefix.zeroX false).text <+: s.chars mem
  · have hfound : prefixOf st.base.toNat (s.chars mem) = .zeroX false := if_pos hx
    rw [hfound, if_pos ⟨.inl hx.2, hx.1⟩]
    rfl
  by_cases hX : st.base.toNat < 34 ∧ (Prefix.zeroX true).text <+: s.chars mem
  · have hfound : prefixOf st.base.toNat (s.chars mem) = .zeroX true := by
      rw [prefixOf, if_neg hx, if_pos hX]
    rw [hfound, if_pos ⟨.inr hX.2, hX.1⟩]
    rfl
  rw [if_neg fun h => h.1.elim (fun hp => hx ⟨h.2, hp⟩) fun hp => hX ⟨h.2, hp⟩]
  have hfound : prefixOf st.base.toNat (s.chars mem) =
      if s.head mem = ascii '#' then .decimal
      else if s.head mem = ascii '$' then .hex
      else if s.head mem = ascii '%' then .binary
      else if s.head mem = ascii '&' then .ampersand
      else .none := by
    rw [prefixOf, if_neg hx, if_neg hX, hcons]
    simp only [Prefix.text, List.cons_prefix_cons, List.nil_prefix, and_true, eq_comm]
  rw [hfound]
  rcases offset_cases hw (s.head mem) with ⟨hlow, b, hb, hbases⟩ | ⟨hhigh, hnone⟩
  · rw [if_pos hlow, hbases]
    simp only [tabled, List.mem_cons, Prod.mk.injEq, List.not_mem_nil, or_false] at hb
    rcases hb with ⟨hc, rfl⟩ | ⟨hc, rfl⟩ | ⟨hc, rfl⟩ | ⟨hc, rfl⟩ <;> rw [hc] <;> rfl
  · have hother : ∀ {c b}, (c, b) ∈ tabled → s.head mem ≠ c := fun hmem hc =>
      hnone _ (hc ▸ hmem)
    rw [if_neg hhigh, if_neg (hother (b := 10) (by decide)), if_neg (hother (b := 16) (by decide)),
      if_neg (hother (b := 2) (by decide)), if_neg (hother (b := 10) (by decide))]
    simp [Prefix.base, Prefix.mark, Prefix.text, Str.slashString]

/-! ## Unsigned numbers -/

/-- The mark for the sign is not set by a prefix. -/
theorem mark_and_two (hw : 8 ≤ w) (pre : Prefix) (signed : Bool) :
    pre.mark (if signed then 2#w else 0#w) &&& 2#w = 0#w ↔ signed = false := by
  have hpow := two_pow_le_of_le hw
  have htwo : 2#w ≠ 0#w := by
    intro h
    have hval := congrArg BitVec.toNat h
    rw [BitVec.toNat_ofNat, Nat.mod_eq_of_lt (by omega)] at hval
    simp at hval
  have hone : 1#w &&& 2#w = 0#w := by
    rw [← BitVec.ofNat_and]
    rfl
  have hthree : (1#w ||| 2#w) &&& 2#w = 2#w := by
    rw [← BitVec.ofNat_or, ← BitVec.ofNat_and]
    rfl
  rw [Prefix.mark]
  cases signed <;> split <;> simp [hone, hthree, htwo]

/-- What a conversion leaves -/
def outcome (r : NumberState w × BitVec (w + w) × Bool) : Converted w :=
  ⟨r.2.1, r.2.2, r.1.dpl⟩

theorem flag_outcome (r : NumberState w × BitVec (w + w) × Bool) : (outcome r).flag = r.2.2 :=
  rfl

theorem Warn.run_dpl (warn : Warn) (st : NumberState w) : (warn.run st).dpl = st.dpl := by
  cases warn <;> rfl

/-- A text without a quote is a number in a base. -/
theorem outcome_of_ne_quote (setup : Setup) (mem : Chars w) (st : NumberState w) (s : Str w)
    (hquote : s.head mem ≠ ascii '\'') :
    outcome (sToUnumber? setup mem st s) =
      let g := getbase mem { st with dpl := BitVec.allOnes w } s
      let q := sign? mem g.1 g.2
      convertUnsigned mem q.1.base q.2.1 q.2.2 := by
  rw [sToUnumber?, if_neg hquote]
  simp only [outcome, Warn.run_dpl]

section

variable (hw : 8 ≤ w) (setup : Setup) (mem : Chars w) {st : NumberState w} (s : Str w) {signed : Bool}
  (hbase : st.base.toNat ≤ 36) (hstate : st.numState = if signed then 2#w else 0#w)
  (hne : s.chars mem ≠ [])

/-- The text behind the prefix -/
def behindPrefix (base : Nat) (mem : Chars w) (s : Str w) : Str w :=
  s.slashString (BitVec.ofNat w (prefixOf base (s.chars mem)).text.length)

/-- The text behind its prefix -/
theorem chars_behindPrefix (base : Nat) :
    s.chars mem = (prefixOf base (s.chars mem)).text ++ (behindPrefix base mem s).chars mem := by
  obtain ⟨r, hr⟩ := (prefixOf_spec base (s.chars mem)).2
  have hlen := congrArg List.length hr
  rw [List.length_append, Str.length_chars] at hlen
  rw [behindPrefix, Str.chars_slashString mem s (by omega)]
  exact (List.prefix_iff_eq_append.mp ⟨r, hr⟩).symm

/-- No more is left behind a prefix. -/
theorem toNat_len_behindPrefix (base : Nat) :
    (behindPrefix base mem s).len.toNat ≤ s.len.toNat := by
  have hlen := congrArg List.length (chars_behindPrefix mem s base)
  rw [List.length_append, Str.length_chars, Str.length_chars] at hlen
  omega

include hw hbase hstate hne

/-- After the prefix and the sign there is a body. -/
theorem outcome_sToUnumber? (hquote : s.head mem ≠ ascii '\'') :
    outcome (sToUnumber? setup mem st s) =
      convertUnsigned mem (BitVec.ofNat w ((prefixOf st.base.toNat (s.chars mem)).base st.base.toNat))
        (if (behindPrefix st.base.toNat mem s).head mem = ascii '-' ∧ signed = false then
          (behindPrefix st.base.toNat mem s).slashString 1#w
        else behindPrefix st.base.toNat mem s)
        (decide ((behindPrefix st.base.toNat mem s).head mem = ascii '-' ∧ signed = false)) := by
  have hgetbase := getbase_eq hw mem { st with dpl := BitVec.allOnes w } s hbase hne rfl
  have hsign := mark_and_two hw (prefixOf st.base.toNat (s.chars mem)) signed
  rw [← hstate] at hsign
  rw [outcome_of_ne_quote setup mem st s hquote, hgetbase]
  dsimp only
  rw [sign?]
  by_cases hminus : (behindPrefix st.base.toNat mem s).head mem = ascii '-' ∧ signed = false
  · rw [if_pos hminus, if_pos ⟨hminus.1, hsign.mpr hminus.2⟩]
    simp only [hminus]
    rfl
  · rw [if_neg hminus, if_neg fun h => hminus ⟨h.1, hsign.mp h.2⟩]
    simp only [hminus]
    rfl

end

/-! ## Characters in quotes -/

/-- The size of a character is that of the encoding. -/
theorem xSize_eq_xLength (enc : Encoding) (mem : Chars w) (s : Str w) :
    xSize enc mem s = xLength enc (s.chars mem) := by
  cases enc with
  | fixedWidth => rfl
  | utf8 => simp only [xSize, utf8FetchPlus, fetchTetra_eq, xLength]

/-- A text with a quote is a character. -/
theorem outcome_of_quote (setup : Setup) (mem : Chars w) (st : NumberState w) (s : Str w)
    (hquote : s.head mem = ascii '\'') :
    outcome (sToUnumber? setup mem st s) =
      ⟨(sQuoteToUnumber? setup.encoding mem (s.slashString 1#w)).1,
        (sQuoteToUnumber? setup.encoding mem (s.slashString 1#w)).2, BitVec.allOnes w⟩ := by
  rw [sToUnumber?, if_pos hquote]
  rfl

section

variable (enc : Encoding) (mem : Chars w) (s : Str w)

/-- A character with an optional quote behind it -/
theorem sQuoteToUnumber?_of_char {xc : List Byte} {closed : Bool} (hne : xc ≠ [])
    (hsize : xLength enc (xc ++ quote closed) = xc.length) (htext : s.chars mem = xc ++ quote closed) :
    sQuoteToUnumber? enc mem s = (BitVec.ofNat (w + w) (xcFetch enc mem s.addr).toNat, true) := by
  have hlen := congrArg List.length htext
  rw [Str.length_chars, List.length_append] at hlen
  have hzero : s.len ≠ 0#w := (Str.len_ne_zero_iff mem s).mpr (by rw [htext]; simp [hne])
  have hrest : (plusXString enc mem s).chars mem = quote closed := by
    rw [plusXString, xSize_eq_xLength, htext, hsize, Str.chars_slashString mem s (by omega), htext,
      List.drop_left]
  have hclosed : stringPrefix? [ascii '\''] (quote closed) = true := by
    cases closed <;> decide
  rw [sQuoteToUnumber?, if_neg hzero, hrest, hclosed]
  refine Prod.ext (BitVec.eq_of_toNat_eq ?_) rfl
  have hxc := (xcFetch enc mem s.addr).isLt
  have hpow : 2 ^ w ≤ 2 ^ (w + w) := Nat.pow_le_pow_right (by decide) (Nat.le_add_left w w)
  rw [toNat_twoCell, BitVec.toNat_ofNat, BitVec.toNat_ofNat, Nat.zero_mod, Nat.zero_mul, Nat.zero_add,
    Nat.mod_eq_of_lt (by omega)]

/-- What is accepted behind a quote is a character with an optional quote behind it. -/
theorem char_of_sQuoteToUnumber? (h : (sQuoteToUnumber? enc mem s).2 = true) :
    ∃ xc closed, xc ≠ [] ∧ xLength enc (xc ++ quote closed) = xc.length ∧
      s.chars mem = xc ++ quote closed := by
  rw [sQuoteToUnumber?] at h
  split at h
  · cases h
  · rename_i hzero
    have hne := (Str.len_ne_zero_iff mem s).mp hzero
    have hlen : 0 < s.len.toNat := by
      rw [← Str.length_chars mem s]
      exact List.length_pos_of_ne_nil hne
    obtain ⟨hone, hle, -⟩ := xSize_le enc mem s hlen
    have hrest : (plusXString enc mem s).chars mem = (s.chars mem).drop (xSize enc mem s) :=
      Str.chars_slashString mem s hle
    have hquote : ∃ closed, (s.chars mem).drop (xSize enc mem s) = quote closed := by
      rw [stringPrefix?_iff, hrest] at h
      rcases List.prefix_cons_iff.mp h with hnil | ⟨r, hr, hpre⟩
      · exact ⟨false, hnil⟩
      · rw [List.prefix_nil] at hpre
        exact ⟨true, by rw [hr, hpre]; rfl⟩
    obtain ⟨closed, hclosed⟩ := hquote
    have hsplit := List.take_append_drop (xSize enc mem s) (s.chars mem)
    rw [hclosed] at hsplit
    have htake : ((s.chars mem).take (xSize enc mem s)).length = xSize enc mem s := by
      rw [List.length_take, Str.length_chars]
      omega
    refine ⟨(s.chars mem).take (xSize enc mem s), closed, ?_, ?_, hsplit.symm⟩
    · intro hnil
      rw [hnil, List.length_nil] at htake
      omega
    · rw [hsplit, htake, xSize_eq_xLength]

end

/-! ## Unsigned numbers are accepted -/

/-- A prefix with nothing behind it: the text that starts behind the next character wraps around to
the end of the prefix, which belongs to no body. -/
theorem mem_prefix_wrapped (hw : 8 ≤ w) (mem : Chars w) (s : Str w) (base : Nat)
    (hempty : (behindPrefix base mem s).chars mem = []) (hne : s.chars mem ≠ []) :
    mem ((behindPrefix base mem s).addr - 1#w) ∈
        ((behindPrefix base mem s).slashString 1#w).chars mem ∧
      ¬BodyChar ((prefixOf base (s.chars mem)).base base)
        (mem ((behindPrefix base mem s).addr - 1#w)) := by
  have hzero : (behindPrefix base mem s).len = 0#w := by
    by_contra hlen
    exact (Str.len_ne_zero_iff mem _).mp hlen hempty
  refine ⟨Str.mem_chars_wrapped mem _ hw hzero, ?_⟩
  have hsplit := chars_behindPrefix mem s base
  rw [hempty, List.append_nil] at hsplit
  have hallowed := (prefixOf_spec base (s.chars mem)).1
  generalize hpre : prefixOf base (s.chars mem) = pre at hsplit hallowed
  have hlen : pre.text.length = s.len.toNat := by rw [← hsplit, Str.length_chars]
  have hpos : 0 < pre.text.length := by
    rw [← hsplit]
    exact List.length_pos_of_ne_nil hne
  have haddr : (behindPrefix base mem s).addr - 1#w = s.addr + BitVec.ofNat w (pre.text.length - 1) := by
    have hsucc := add_ofNat_ofNat s.addr (pre.text.length - 1) 1
    rw [show pre.text.length - 1 + 1 = pre.text.length by omega] at hsucc
    rw [behindPrefix, hpre, Str.slashString, ← hsucc]
    exact BitVec.add_sub_cancel _ _
  have hlast : pre.text[pre.text.length - 1]? = some (mem ((behindPrefix base mem s).addr - 1#w)) := by
    have hget : pre.text.length - 1 < (s.chars mem).length := by
      rw [hsplit]
      omega
    have hchar : (s.chars mem)[pre.text.length - 1] =
        mem (s.addr + BitVec.ofNat w (pre.text.length - 1)) := getElem_text mem s.addr hget
    rw [haddr, ← hchar, ← List.getElem?_eq_getElem hget]
    exact congrArg (fun t : List Byte => t[pre.text.length - 1]?) hsplit.symm
  cases pre with
  | none => exact absurd hpos (Nat.lt_irrefl 0)
  | decimal | hex | binary | ampersand =>
      rw [← Option.some.inj hlast]
      exact not_bodyChar (by decide)
  | zeroX upper =>
      cases upper with
      | false =>
          rw [← Option.some.inj hlast]
          exact not_bodyChar_x (by decide : 16 < 34) false
      | true =>
          rw [← Option.some.inj hlast]
          exact not_bodyChar_x (by decide : 16 < 34) true

/-- The base of a prefix -/
theorem toNat_base (hw : 8 ≤ w) {base : Nat} (hbase : base ≤ 36) (pre : Prefix) :
    (BitVec.ofNat w (pre.base base)).toNat = pre.base base ∧ pre.base base ≤ 36 := by
  have hpow := two_pow_le_of_le hw
  have hle : pre.base base ≤ 36 := by
    cases pre <;> simp [Prefix.base, hbase]
  exact ⟨by rw [BitVec.toNat_ofNat, Nat.mod_eq_of_lt (by omega)], hle⟩

section

variable (hw : 8 ≤ w) (setup : Setup) (mem : Chars w) {st : NumberState w} (s : Str w) {signed : Bool}
  (hbase : st.base.toNat ≤ 36) (hstate : st.numState = if signed then 2#w else 0#w)
  (hlen : 2 * s.len.toNat < 2 ^ w)
include hw hbase hstate hlen

/-- What is left for a number without its leading sign -/
theorem sToUnumber?_of_wellFormed {u : Unsigned}
    (hwf : u.WellFormed setup.encoding st.base.toNat signed) (htext : u.text = s.chars mem) :
    outcome (sToUnumber? setup mem st s) =
      ⟨dnegate? (BitVec.ofNat (w + w) (u.magnitude setup.encoding mem s.addr st.base.toNat)) u.minus,
        true, pointPlace u.body (BitVec.allOnes w)⟩ := by
  have hne : s.chars mem ≠ [] := by
    rw [← htext]
    cases u with
    | char xc closed => exact List.cons_ne_nil _ _
    | number pre minus body =>
        intro hnil
        exact hwf.2.2.nonempty (List.append_eq_nil_iff.mp (List.append_eq_nil_iff.mp hnil).2).2
  have hcons := Str.chars_eq_cons mem s hne
  cases u with
  | char xc closed =>
      rw [hcons] at htext
      injection htext with hhead htail
      rw [outcome_of_quote setup mem st s hhead.symm,
        sQuoteToUnumber?_of_char setup.encoding mem (s.slashString 1#w) hwf.1 hwf.2 htail.symm]
      rfl
  | number pre minus body =>
      obtain ⟨hallowed, hsigned, hbody⟩ := hwf
      have hpre : prefixOf st.base.toNat (s.chars mem) = pre := by
        rw [← htext]
        exact prefixOf_eq hallowed hbody
      have hbehind : (behindPrefix st.base.toNat mem s).chars mem = sign minus ++ body := by
        have hsplit := chars_behindPrefix mem s st.base.toNat
        rw [hpre, ← htext] at hsplit
        exact (List.append_cancel_left hsplit).symm
      have hbehindne : (behindPrefix st.base.toNat mem s).chars mem ≠ [] := by
        rw [hbehind]
        exact fun h => hbody.nonempty (List.append_eq_nil_iff.mp h).2
      have hbehindcons := Str.chars_eq_cons mem _ hbehindne
      have hhead := head_sign_body hbody (c := (behindPrefix st.base.toNat mem s).head mem)
        (by rw [← hbehind, hbehindcons]; rfl)
      have hnumber : pre.text ++ (sign minus ++ body) = s.chars mem := htext
      have hquote : s.head mem ≠ ascii '\'' :=
        head_number_ne_quote hbody (by rw [hnumber, hcons]; rfl)
      obtain ⟨hnat, hle⟩ := toNat_base hw hbase pre
      have hshort := toNat_len_behindPrefix mem s st.base.toNat
      rw [outcome_sToUnumber? hw setup mem s hbase hstate hne hquote, hpre]
      cases minus with
      | true =>
          have hrest : ((behindPrefix st.base.toNat mem s).slashString 1#w).chars mem = body := by
            rw [hbehindcons] at hbehind
            exact (List.cons.inj hbehind).2
          have hrestlen : 2 * ((behindPrefix st.base.toNat mem s).slashString 1#w).len.toNat < 2 ^ w := by
            rw [← Str.length_chars mem, hrest]
            have hlong := congrArg List.length hbehind
            rw [Str.length_chars, List.length_append] at hlong
            omega
          have hspec := (@convertUnsigned_spec w mem (BitVec.ofNat w (pre.base st.base.toNat)) _
            true hw (by rw [hnat]; exact hle) hrestlen).1
          rw [hnat, hrest] at hspec
          rw [if_pos ⟨hhead, hsigned rfl⟩, decide_eq_true ⟨hhead, hsigned rfl⟩]
          exact hspec hbody
      | false =>
          have hbodychar : BodyChar (pre.base st.base.toNat) _ := hhead
          have hminus : ¬((behindPrefix st.base.toNat mem s).head mem = ascii '-' ∧ signed = false) :=
            fun h => not_bodyChar (by decide) (h.1 ▸ hbodychar)
          have hspec := (@convertUnsigned_spec w mem (BitVec.ofNat w (pre.base st.base.toNat))
            (behindPrefix st.base.toNat mem s) false hw (by rw [hnat]; exact hle) (by omega)).1
          rw [hnat, hbehind] at hspec
          rw [if_neg hminus, decide_eq_false hminus]
          exact hspec hbody

/-- What is accepted is a number without its leading sign. -/
theorem wellFormed_of_sToUnumber? (hne : s.chars mem ≠ [])
    (hflag : (outcome (sToUnumber? setup mem st s)).flag = true) :
    ∃ u : Unsigned, u.WellFormed setup.encoding st.base.toNat signed ∧ u.text = s.chars mem := by
  by_cases hquote : s.head mem = ascii '\''
  · rw [outcome_of_quote setup mem st s hquote] at hflag
    obtain ⟨xc, closed, hxc, hsize, htext⟩ := char_of_sQuoteToUnumber? _ mem _ hflag
    refine ⟨.char xc closed, ⟨hxc, hsize⟩, ?_⟩
    rw [Str.chars_eq_cons mem s hne, hquote, htext]
    rfl
  · rw [outcome_sToUnumber? hw setup mem s hbase hstate hne hquote] at hflag
    have hsplit := chars_behindPrefix mem s st.base.toNat
    have hshort := toNat_len_behindPrefix mem s st.base.toNat
    obtain ⟨hallowed, -⟩ := prefixOf_spec st.base.toNat (s.chars mem)
    obtain ⟨hnat, hle⟩ := toNat_base hw hbase (prefixOf st.base.toNat (s.chars mem))
    by_cases hminus : (behindPrefix st.base.toNat mem s).head mem = ascii '-' ∧ signed = false
    · rw [if_pos hminus, decide_eq_true hminus] at hflag
      by_cases hempty : (behindPrefix st.base.toNat mem s).chars mem = []
      · have hchars := convertUnsigned_chars mem _ true hw (by rw [hnat]; exact hle) hflag
        rw [hnat] at hchars
        exact absurd (hchars _ (mem_prefix_wrapped hw mem s st.base.toNat hempty hne).1)
          (mem_prefix_wrapped hw mem s st.base.toNat hempty hne).2
      · have hcons := Str.chars_eq_cons mem _ hempty
        have hrestlen : 2 * ((behindPrefix st.base.toNat mem s).slashString 1#w).len.toNat < 2 ^ w := by
          have hlong := congrArg List.length hcons
          rw [List.length_cons, Str.length_chars, Str.length_chars] at hlong
          omega
        have hbody := (convertUnsigned_spec mem _ true hw (by rw [hnat]; exact hle) hrestlen).2 hflag
        rw [hnat] at hbody
        refine ⟨.number _ true _, ⟨hallowed, fun _ => hminus.2, hbody⟩, ?_⟩
        rw [hminus.1] at hcons
        rw [hcons] at hsplit
        exact hsplit.symm
    · rw [if_neg hminus, decide_eq_false hminus] at hflag
      have hbody := (convertUnsigned_spec mem _ false hw (by rw [hnat]; exact hle) (by omega)).2 hflag
      rw [hnat] at hbody
      exact ⟨.number _ false _, ⟨hallowed, fun h => (Bool.noConfusion h), hbody⟩, hsplit.symm⟩

end

/-! ## A sign alone -/

/-- The empty text is looked at like any other one. -/
theorem getbase_of_empty (mem : Chars w) (st : NumberState w) (s : Str w) (h : s.chars mem = []) :
    getbase mem st s =
      if (s.head mem).setWidth w - (ascii '#').setWidth w < 4#w then
        ({ st with
          base := bases ((s.head mem).setWidth w - (ascii '#').setWidth w)
          numState := 1#w ||| st.numState }, s.slashString 1#w)
      else (st, s) := by
  rw [getbase, h]
  rfl

/-- A minus sign alone is no number, whatever is behind it. -/
theorem not_flag_of_sign_alone (hw : 8 ≤ w) (setup : Setup) (mem : Chars w) (st : NumberState w)
    (s : Str w) (hstate : st.numState = 2#w) (hzero : s.len = 0#w)
    (hminus : mem (s.addr - 1#w) = ascii '-') :
    (outcome (sToUnumber? setup mem st s)).flag = false := by
  have hwrapped := Str.mem_chars_wrapped mem s hw hzero
  rw [hminus] at hwrapped
  have hnil : s.chars mem = [] := by
    by_contra hne
    exact (Str.len_ne_zero_iff mem s).mpr hne hzero
  by_cases hquote : s.head mem = ascii '\''
  · rw [outcome_of_quote setup mem st s hquote, Bool.eq_false_iff]
    intro hflag
    obtain ⟨xc, closed, hxc, hsize, htext⟩ := char_of_sQuoteToUnumber? _ mem _ hflag
    have hlong := Str.toNat_len_wrapped s hw hzero
    have hpow := two_pow_le_of_le hw
    have hlength := congrArg List.length htext
    rw [Str.length_chars, List.length_append] at hlength
    have hshort := (xSize_le setup.encoding mem (s.slashString 1#w) (by omega)).2.2
    rw [xSize_eq_xLength, htext, hsize] at hshort
    have hone : (quote closed).length ≤ 1 := by
      cases closed <;> decide
    omega
  · have hbit : ∀ pre : Prefix, ¬pre.mark st.numState &&& 2#w = 0#w := by
      intro pre h
      rw [hstate] at h
      exact Bool.noConfusion ((mark_and_two hw pre true).mp h)
    rw [outcome_of_ne_quote setup mem st s hquote, getbase_of_empty mem _ s hnil]
    rcases offset_cases hw (s.head mem) with ⟨hlow, b, hb, hbases⟩ | ⟨hhigh, -⟩
    · rw [if_pos hlow, hbases]
      dsimp only
      rw [sign?, if_neg fun h => hbit .decimal h.2]
      have htabled : ∀ p ∈ tabled, p.2 < 17 := by decide
      have hb17 := htabled _ hb
      have hnat : (BitVec.ofNat w b).toNat ≤ 36 := by
        rw [BitVec.toNat_ofNat]
        exact (Nat.mod_le _ _).trans (by omega)
      rw [Bool.eq_false_iff]
      intro hflag
      exact not_bodyChar (by decide) (convertUnsigned_chars mem _ false hw hnat hflag _ hwrapped)
    · rw [if_neg hhigh]
      dsimp only
      rw [sign?, if_neg fun h => hbit .none h.2]
      dsimp only
      rw [convertUnsigned, if_neg (not_not_intro hzero)]

/-! ## Numbers -/

/-- {lit}`s>number?` negates what is accepted behind a minus sign. -/
def withSign (minus : Bool) (r : Converted w) : Converted w :=
  if r.flag then { r with value := dnegate? r.value minus } else r

/-- A signed number is an unsigned one with a sign. -/
theorem outcome_sToNumber? (setup : Setup) (mem : Chars w) (st : NumberState w) (s : Str w) :
    outcome (sToNumber? setup mem st s) =
      withSign (sign? mem st s).2.2
        (outcome (sToUnumber? setup mem (sign? mem st s).1 (sign? mem st s).2.1)) := by
  simp only [sToNumber?]
  rcases sToUnumber? setup mem (sign? mem st s).1 (sign? mem st s).2.1 with ⟨st', d, flag⟩
  cases flag <;> rfl

theorem flag_withSign (minus : Bool) (r : Converted w) : (withSign minus r).flag = r.flag := by
  rw [withSign]
  split <;> rfl

/-- A minus sign is taken off once. -/
theorem sign?_of_minus (mem : Chars w) {st : NumberState w} (s : Str w) (hfresh : st.numState = 0#w)
    (hminus : s.head mem = ascii '-') :
    sign? mem st s = ({ st with numState := 2#w }, s.slashString 1#w, true) := by
  rw [sign?, hfresh, if_pos ⟨hminus, BitVec.zero_and⟩, BitVec.zero_add]

theorem sign?_of_ne_minus (mem : Chars w) {st : NumberState w} (s : Str w)
    (hminus : s.head mem ≠ ascii '-') : sign? mem st s = (st, s, false) := by
  rw [sign?, if_neg fun h => hminus h.1]

/-- No unsigned number is the empty text. -/
theorem Unsigned.text_ne_nil {enc : Encoding} {base : Nat} {signed : Bool} {u : Unsigned}
    (h : u.WellFormed enc base signed) : u.text ≠ [] := by
  cases u with
  | char xc closed => exact List.cons_ne_nil _ _
  | number pre minus body =>
      intro hnil
      exact h.2.2.nonempty (List.append_eq_nil_iff.mp (List.append_eq_nil_iff.mp hnil).2).2

/-- A number without a leading sign that starts with a minus sign has no prefix. -/
theorem Unsigned.eq_of_head_minus {enc : Encoding} {base : Nat} {signed : Bool} {u : Unsigned}
    (h : u.WellFormed enc base signed) (hminus : u.text.head? = some (ascii '-')) :
    ∃ body, u = .number .none true body := by
  cases u with
  | char xc closed => exact absurd (Option.some.inj hminus) (by decide)
  | number pre minus body =>
      cases pre with
      | none =>
          have hbody : Body base body := h.2.2
          have hhead := head_sign_body hbody hminus
          cases minus with
          | true => exact ⟨body, rfl⟩
          | false => exact absurd hhead (not_bodyChar (by decide))
      | decimal | hex | binary | ampersand => exact absurd (Option.some.inj hminus) (by decide)
      | zeroX upper =>
          cases upper <;> exact absurd (Option.some.inj hminus) (by decide)

/-- The value with its signs -/
def signedValue (minus : Bool) (magnitude : Nat) : BitVec (w + w) :=
  BitVec.ofInt (w + w) (if minus then -magnitude else magnitude)

/-- The sign of a double -/
theorem dnegate?_ofNat (minus : Bool) (n : Nat) :
    dnegate? (BitVec.ofNat (w + w) n) minus = signedValue minus n := by
  cases minus with
  | false => exact (BitVec.ofInt_natCast _ _).symm
  | true =>
      change -BitVec.ofNat (w + w) n = BitVec.ofInt (w + w) (-(n : Int))
      rw [BitVec.ofInt_neg, BitVec.ofInt_natCast]

section

variable (hw : 8 ≤ w) (setup : Setup) (mem : Chars w) {st : NumberState w} (s : Str w)
  (hbase : st.base.toNat ≤ 36) (hfresh : st.numState = 0#w) (hlen : 2 * s.len.toNat < 2 ^ w)
include hw hbase hfresh hlen

/-- What is left for a number -/
theorem sToNumber?_of_wellFormed {n : Numeral} (hwf : n.WellFormed setup.encoding st.base.toNat)
    (htext : n.text = s.chars mem) :
    outcome (sToNumber? setup mem st s) =
      ⟨BitVec.ofInt (w + w) (n.value setup.encoding mem s.addr st.base.toNat), true,
        pointPlace n.body (BitVec.allOnes w)⟩ := by
  have hne : s.chars mem ≠ [] := by
    rw [← htext]
    exact fun h => Unsigned.text_ne_nil hwf (List.append_eq_nil_iff.mp h).2
  have hcons := Str.chars_eq_cons mem s hne
  have hpos : 0 < s.len.toNat := by
    rw [← Str.length_chars mem s]
    exact List.length_pos_of_ne_nil hne
  have hrestlen : 2 * (s.slashString 1#w).len.toNat < 2 ^ w := by
    rw [show 1#w = BitVec.ofNat w 1 from rfl, Str.toNat_len_slashString (k := 1) s hpos]
    omega
  obtain ⟨minus, u⟩ := n
  rw [outcome_sToNumber?]
  cases minus with
  | true =>
      have hhead : s.head mem = ascii '-' ∧ u.text = (s.slashString 1#w).chars mem := by
        rw [hcons] at htext
        injection htext with hhead htail
        exact ⟨hhead.symm, htail⟩
      rw [sign?_of_minus mem s hfresh hhead.1]
      have hsigned : u.minus = false := by
        cases u with
        | char xc closed => rfl
        | number pre minus body =>
            exact Bool.eq_false_iff.mpr fun h => Bool.noConfusion (hwf.2.1 h)
      dsimp only
      rw [@sToUnumber?_of_wellFormed w hw setup mem { st with numState := 2#w } _ true hbase rfl
        hrestlen u hwf hhead.2, hsigned]
      refine congrArg (Converted.mk · true _) ?_
      exact dnegate?_ofNat true _
  | false =>
      by_cases hhead : s.head mem = ascii '-'
      · -- The sign of a number without a prefix is its leading sign.
        have hminus : u.text.head? = some (ascii '-') := by
          rw [show u.text = s.chars mem from htext, hcons, hhead]
          rfl
        obtain ⟨body, rfl⟩ := Unsigned.eq_of_head_minus hwf hminus
        rw [sign?_of_minus mem s hfresh hhead]
        have hrest : (Unsigned.number .none false body).text = (s.slashString 1#w).chars mem := by
          rw [hcons] at htext
          exact (List.cons.inj htext).2
        have hunsigned : (Unsigned.number .none false body).WellFormed setup.encoding st.base.toNat
            true := ⟨trivial, fun h => Bool.noConfusion h, hwf.2.2⟩
        dsimp only
        rw [@sToUnumber?_of_wellFormed w hw setup mem { st with numState := 2#w } _ true hbase rfl
          hrestlen _ hunsigned hrest]
        refine congrArg (Converted.mk · true _) ?_
        exact dnegate?_ofNat true _
      · rw [sign?_of_ne_minus mem s hhead]
        have hstate : st.numState = if false then 2#w else 0#w := hfresh
        dsimp only
        rw [sToUnumber?_of_wellFormed hw setup mem s hbase hstate hlen hwf htext]
        refine congrArg (Converted.mk · true _) ?_
        exact dnegate?_ofNat u.minus _

/-- What is accepted is a number. -/
theorem wellFormed_of_sToNumber? (hne : s.chars mem ≠ [])
    (hflag : (outcome (sToNumber? setup mem st s)).flag = true) :
    ∃ n : Numeral, n.WellFormed setup.encoding st.base.toNat ∧ n.text = s.chars mem := by
  have hcons := Str.chars_eq_cons mem s hne
  have hpos : 0 < s.len.toNat := by
    rw [← Str.length_chars mem s]
    exact List.length_pos_of_ne_nil hne
  have hshort := Str.toNat_len_slashString (k := 1) s hpos
  rw [outcome_sToNumber?, flag_withSign] at hflag
  by_cases hhead : s.head mem = ascii '-'
  · rw [sign?_of_minus mem s hfresh hhead] at hflag
    by_cases hrest : (s.slashString 1#w).chars mem = []
    · have hzero : (s.slashString 1#w).len = 0#w := by
        by_contra hlen
        exact (Str.len_ne_zero_iff mem _).mp hlen hrest
      have hback : mem ((s.slashString 1#w).addr - 1#w) = ascii '-' := by
        rw [← hhead]
        exact congrArg mem (BitVec.add_sub_cancel _ _)
      rw [not_flag_of_sign_alone hw setup mem _ _ rfl hzero hback] at hflag
      cases hflag
    · have hrestlen : 2 * (s.slashString 1#w).len.toNat < 2 ^ w := by
        omega
      obtain ⟨u, hwf, htext⟩ := @wellFormed_of_sToUnumber? w hw setup mem { st with numState := 2#w } _
        true hbase rfl hrestlen hrest hflag
      refine ⟨⟨true, u⟩, hwf, ?_⟩
      rw [hcons, hhead, ← htext]
      rfl
  · rw [sign?_of_ne_minus mem s hhead] at hflag
    have hstate : st.numState = if false then 2#w else 0#w := hfresh
    obtain ⟨u, hwf, htext⟩ := wellFormed_of_sToUnumber? hw setup mem s hbase hstate hlen hne hflag
    exact ⟨⟨false, u⟩, hwf, htext⟩

end

/-! ## Single and double numbers -/

/-- The last point of a body -/
theorem afterPoint_cases (t : List Byte) :
    (ascii '.' ∉ t ∧ afterPoint t = none) ∨
      (ascii '.' ∈ t ∧ ∃ k < t.length, afterPoint t = some k) := by
  induction t with
  | nil => exact .inl ⟨List.not_mem_nil, rfl⟩
  | cons c t ih =>
      rw [afterPoint]
      rcases ih with ⟨hnot, hnone⟩ | ⟨hmem, k, hk, hsome⟩
      · rw [hnone, Option.none_or]
        split
        · rename_i hc
          exact .inr ⟨by rw [hc]; exact List.mem_cons_self, t.length, Nat.lt_succ_self _, rfl⟩
        · rename_i hc
          exact .inl ⟨fun h => (List.mem_cons.mp h).elim (fun h => hc h.symm) hnot, rfl⟩
      · rw [hsome]
        exact .inr ⟨List.mem_cons_of_mem c hmem, k, Nat.lt_succ_of_lt hk, rfl⟩

/-- What {lit}`snumber?` makes of a conversion -/
def recognize (r : Converted w) : Recognized w :=
  if r.flag = false then .none
  else if r.dpl.slt 0#w then .single (dlo r.value) r.dpl
  else .double r.value (r.dpl + 1#w)

/-- {lit}`snumber?` recognises what {lit}`s>number?` converts. -/
theorem snumber?_eq (setup : Setup) (mem : Chars w) (st : NumberState w) (s : Str w) :
    (snumber? setup mem st s).2 = recognize (outcome (sToNumber? setup mem st s)) := by
  simp only [snumber?, recognize]
  rcases sToNumber? setup mem st s with ⟨st', d, flag⟩
  cases flag with
  | false => rfl
  | true => by_cases hneg : st'.dpl.slt 0#w <;> simp [outcome, hneg]

/-- The body is a part of the number. -/
theorem length_body_le {n : Numeral} : n.body.length ≤ n.text.length := by
  obtain ⟨minus, u⟩ := n
  cases u with
  | char xc closed => exact Nat.zero_le _
  | number pre minus' body =>
      simp only [Numeral.body, Unsigned.body, Numeral.text, Unsigned.text, List.length_append]
      omega

/-- A number is a double if there is a point in its body. -/
theorem recognize_of_body (hw : 8 ≤ w) (d : BitVec (w + w)) {t : List Byte}
    (hlen : 2 * t.length < 2 ^ w) :
    recognize ⟨d, true, pointPlace t (BitVec.allOnes w)⟩ =
      if ascii '.' ∈ t then .double d (BitVec.ofNat w ((afterPoint t).getD 0 + 1))
      else .single (dlo d) (BitVec.allOnes w) := by
  have hpow := two_pow_le_of_le hw
  rcases afterPoint_cases t with ⟨hnot, hnone⟩ | ⟨hmem, k, hk, hsome⟩
  · have hneg : (BitVec.allOnes w).slt 0#w = true := by
      rw [slt_zero_iff, toInt_neg_iff, BitVec.toNat_allOnes]
      omega
    rw [if_neg hnot, pointPlace, hnone]
    simp [recognize, hneg]
  · have hpos : (BitVec.ofNat w k).slt 0#w = false := by
      rw [Bool.eq_false_iff, ne_eq, slt_zero_iff, toInt_neg_iff, BitVec.toNat_ofNat,
        Nat.mod_eq_of_lt (by omega)]
      omega
    rw [if_pos hmem, pointPlace, hsome]
    simp [recognize, hpos, BitVec.ofNat_add]

/-- The texts that {lit}`s>number?` accepts in a fresh state, and what it and {lit}`snumber?` leave for
them. -/
theorem number_syntax (hw : 8 ≤ w) (setup : Setup) (mem : Chars w) (st : NumberState w) (s : Str w)
    (hbase : 2 ≤ st.base.toNat ∧ st.base.toNat ≤ 36) (hfresh : st.numState = 0#w)
    (hne : 0 < s.len.toNat) (hlen : 2 * s.len.toNat < 2 ^ w) :
    ((sToNumber? setup mem st s).2.2 = true ↔
        ∃ n : Numeral, n.WellFormed setup.encoding st.base.toNat ∧ n.text = s.chars mem) ∧
      ∀ n : Numeral, n.WellFormed setup.encoding st.base.toNat → n.text = s.chars mem →
        (sToNumber? setup mem st s).2.1 =
            BitVec.ofInt (w + w) (n.value setup.encoding mem s.addr st.base.toNat) ∧
          (snumber? setup mem st s).2 =
            if ascii '.' ∈ n.body then
              .double (BitVec.ofInt (w + w) (n.value setup.encoding mem s.addr st.base.toNat))
                (BitVec.ofNat w ((afterPoint n.body).getD 0 + 1))
            else
              .single (dlo (BitVec.ofInt (w + w) (n.value setup.encoding mem s.addr st.base.toNat)))
                (BitVec.allOnes w) := by
  have hchars : s.chars mem ≠ [] := by
    rw [← List.length_pos_iff, Str.length_chars]
    exact hne
  have hnumber := fun {n : Numeral} (hwf : n.WellFormed setup.encoding st.base.toNat)
      (htext : n.text = s.chars mem) =>
    sToNumber?_of_wellFormed hw setup mem s hbase.2 hfresh hlen hwf htext
  refine ⟨⟨wellFormed_of_sToNumber? hw setup mem s hbase.2 hfresh hlen hchars, ?_⟩, ?_⟩
  · rintro ⟨n, hwf, htext⟩
    exact congrArg Converted.flag (hnumber hwf htext)
  · intro n hwf htext
    have hbody : n.body.length ≤ s.len.toNat := by
      rw [← Str.length_chars mem s, ← htext]
      exact length_body_le
    refine ⟨congrArg Converted.value (hnumber hwf htext), ?_⟩
    rw [snumber?_eq, hnumber hwf htext]
    exact recognize_of_body hw _ (by omega)

/-- A hexadecimal double number with a sign -/
theorem number_syntax_hex :
    (sToNumber? ⟨.utf8, .noop⟩ (Str.placed ['-', '$', 'f', '.']).1 ⟨10#64, 0#64, 0#64⟩
        (Str.placed ['-', '$', 'f', '.']).2).2 = (BitVec.ofInt (64 + 64) (-15), true) := by
  have hnumber := number_syntax (by decide) ⟨.utf8, .noop⟩ (Str.placed ['-', '$', 'f', '.']).1
    ⟨10#64, 0#64, 0#64⟩ (Str.placed ['-', '$', 'f', '.']).2 (by decide) rfl (by decide) (by decide)
  have hwf : (Numeral.mk true (.number .hex false [ascii 'f', ascii '.'])).WellFormed .utf8 10 :=
    ⟨trivial, fun h => Bool.noConfusion h, by decide, by decide, by decide, by decide⟩
  exact Prod.ext (hnumber.2 _ hwf (by decide)).1 (hnumber.1.mpr ⟨_, hwf, by decide⟩)

/-! ## Borderline texts -/

/-- There is a digit. -/
def Unsigned.HasDigit (base : Nat) : Unsigned → Prop
  | .char _ _ => True
  | .number pre _ body => ∃ c ∈ body, digitOf (pre.base base) c ≠ none

/-- An underscore in memory, with digits behind it -/
def underscoreAndOnes : Chars 64 :=
  fun a => if a = 0#64 then ascii '_' else ascii '1'

/-- {lit}`>number_` does not skip an underscore if the rest of the text has half of the address space
or more. -/
theorem toNumberUnderscore_of_long {mem : Chars w} {base a : BitVec w} {n : Nat}
    (hlong : ¬0 < (BitVec.ofNat w (n + 1)).toInt) (hdigit : digit? base (mem a) = none)
    (d : BitVec (w + w)) : toNumberUnderscore mem base d a (n + 1) = (d, a, n + 1) := by
  have hnumber : toNumber mem base d a (n + 1) = (d, a, n + 1) := by
    simp [toNumber, hdigit]
  rw [toNumberUnderscore, hnumber, if_neg fun h => hlong h.1]

/-- A text that is longer than the greatest signed cell has no second digit. -/
theorem convert_of_long {mem : Chars w} {base a : BitVec w} {n : Nat}
    (hlong : ¬0 < (BitVec.ofNat w (n + 1)).toInt) (hdigit : digit? base (mem a) = none)
    (d : BitVec (w + w)) (dpl : BitVec w) : convert mem base d a (n + 1) dpl = unconverted d := by
  rw [convert]
  simp [toNumberUnderscore_of_long hlong hdigit d, unconverted]

/-- The underscore with 2^63-1 digits behind it -/
def longText : Str 64 :=
  ⟨0#64, 0x8000000000000000#64⟩

theorem head_longText : longText.head underscoreAndOnes = ascii '_' :=
  rfl

theorem toNat_len_longText : longText.len.toNat = 0x7fffffffffffffff + 1 :=
  rfl

theorem chars_longText_ne_nil : longText.chars underscoreAndOnes ≠ [] :=
  (Str.len_ne_zero_iff _ _).mp (by decide)

/-- All characters of the long text belong to numbers. -/
theorem numberChar_longText :
    ∀ c ∈ longText.chars underscoreAndOnes, NumberChar 10#64 c := by
  intro c hc
  obtain ⟨i, -, rfl⟩ := (mem_text underscoreAndOnes).mp hc
  rw [underscoreAndOnes]
  split <;> decide

/-- The long text is not accepted. -/
theorem longText_not_accepted :
    (sToNumber? ⟨.utf8, .noop⟩ underscoreAndOnes ⟨10#64, 0#64, 0#64⟩ longText).2.2 = false := by
  rw [← flag_outcome]
  have hcons := Str.chars_eq_cons underscoreAndOnes longText chars_longText_ne_nil
  have hpre : prefixOf 10 (longText.chars underscoreAndOnes) = .none := by
    rw [hcons, head_longText]
    simp [prefixOf, Prefix.text, ascii]
  have hbehind : behindPrefix 10 underscoreAndOnes longText = longText := by
    rw [behindPrefix, hpre]
    rfl
  have hbase : (10#64).toNat = 10 := rfl
  rw [outcome_sToNumber?, flag_withSign,
    sign?_of_ne_minus _ longText (by rw [head_longText]; decide)]
  dsimp only
  rw [@outcome_sToUnumber? 64 (by decide) _ _ _ longText false (by decide) rfl chars_longText_ne_nil
    (by rw [head_longText]; decide)]
  dsimp only
  rw [hbase, hpre, hbehind, head_longText, if_neg (by decide),
    convertUnsigned_of_not_leading _ _ _ (by decide) (by rw [head_longText]; decide)]
  dsimp only
  have hconvert : convert underscoreAndOnes 10#64 0#(64 + 64) 0#64 (0x7fffffffffffffff + 1)
      (BitVec.allOnes 64) = unconverted 0#(64 + 64) :=
    convert_of_long (by decide) (by decide) _ _
  rw [flag_signed, toNat_len_longText]
  exact congrArg Converted.flag hconvert

/-- An underscore is accepted as a number without any digit, and an underscore with 2^63-1 digits
behind it is not accepted. -/
theorem underscore_is_number :
    ((sToNumber? ⟨.utf8, .noop⟩ (Str.placed ['_']).1 ⟨10#64, 0#64, 0#64⟩ (Str.placed ['_']).2).2 =
          (0#(64 + 64), true) ∧
        ¬∃ n : Numeral, n.WellFormed .utf8 10 ∧ n.unsigned.HasDigit 10 ∧ n.text = [ascii '_']) ∧
      (sToNumber? ⟨.utf8, .noop⟩ underscoreAndOnes ⟨10#64, 0#64, 0#64⟩ longText).2.2 = false ∧
        ∃ n : Numeral, n.WellFormed .utf8 10 ∧ n.unsigned.HasDigit 10 ∧
          n.text = longText.chars underscoreAndOnes := by
  refine ⟨⟨by decide +kernel, ?_⟩, longText_not_accepted, ?_⟩
  · rintro ⟨⟨minus, u⟩, -, hdigit, htext⟩
    cases minus with
    | true => exact absurd (List.cons.inj htext).1 (by decide)
    | false =>
        cases u with
        | char xc closed => exact absurd (List.cons.inj htext).1 (by decide)
        | number pre minus body =>
            obtain ⟨c, hc, hdigit⟩ := hdigit
            cases pre with
            | none =>
                cases minus with
                | true => exact absurd (List.cons.inj htext).1 (by decide)
                | false =>
                    rw [show body = [ascii '_'] from htext, List.mem_singleton] at hc
                    rw [hc] at hdigit
                    exact hdigit (by decide)
            | decimal | hex | binary | ampersand => exact absurd (List.cons.inj htext).1 (by decide)
            | zeroX upper => cases upper <;> exact absurd (List.cons.inj htext).1 (by decide)
  · refine ⟨⟨false, .number .none false (longText.chars underscoreAndOnes)⟩, ?_, ?_, rfl⟩
    · have hhead : (longText.chars underscoreAndOnes).head? ≠ some (ascii '.') := by
        rw [Str.chars_eq_cons _ _ chars_longText_ne_nil, head_longText]
        decide
      exact ⟨trivial, fun h => Bool.noConfusion h,
        (@body_iff_fields 64 10#64 (by decide) (by decide) _ chars_longText_ne_nil hhead).mpr
          (fields_field (by decide) (by decide) numberChar_longText)⟩
    · exact ⟨ascii '1', (mem_text underscoreAndOnes).mpr ⟨1, by rw [toNat_len_longText]; omega, rfl⟩, by decide⟩

end Numbers
end Gforth
