import Gforth.Numbers.Digits

/-!
# Number conversion

The words of {lit}`kernel/int.fs` that convert a text to a number, with the variables they use:
{lit}`base`, {lit}`>num-state` and {lit}`dpl`.  Addresses and lengths are cells, and the words read
the character at an address also where the length is 0.  Characters in quotes are decoded by one of
the two encodings.

Main results:

- Theorem {lit}`xSize_le`: a text is not shorter than its first extended character.
- Theorem {lit}`convert_chars`: what is converted consists of digits, underscores and points.
-/

namespace Gforth
namespace Numbers

open Lib
open Memory

variable {w : Nat}

/-! ## Texts -/

/-- {lit}`c-addr u` -/
structure Str (w : Nat) where
  addr : BitVec w
  len : BitVec w
deriving DecidableEq

namespace Str

/-- {lit}`/string` -/
def slashString (s : Str w) (n : BitVec w) : Str w :=
  ⟨s.addr + n, s.len - n⟩

/-- The characters of a text -/
def chars (mem : Chars w) (s : Str w) : List Byte :=
  text mem s.addr s.len.toNat

/-- {lit}`over c@` -/
def head (mem : Chars w) (s : Str w) : Byte :=
  mem s.addr

/-- A text at address 0, with zeros behind it -/
def placed (t : List Char) : Chars w × Str w :=
  (fun a => (t.map ascii).getD a.toNat 0#8, ⟨0#w, BitVec.ofNat w t.length⟩)

end Str

/-- {lit}`string-prefix?`: the second text is a prefix of the first one -/
def stringPrefix? (s t : List Byte) : Bool :=
  s.take (min s.length t.length) == t

/-! ## Extended characters -/

/-- The encodings: {lit}`fixed-width` and {lit}`utf-8` -/
inductive Encoding where
  | fixedWidth
  | utf8
deriving DecidableEq

/-- The table {lit}`lens` of {lit}`utf8_fetch_plus` -/
def lens (codepoint : BitVec 32) : Nat :=
  [1, 1, 1, 1, 1, 1, 1, 1, 1, 1, 1, 1, 2, 2, 3, 4].getD (codepoint >>> 28).toNat 1

/-- The table {lit}`masks` -/
def masks (cplen : Nat) : BitVec 32 :=
  [0#32, 0x7F000000#32, 0x1F3F0000#32, 0x0F3F3F00#32, 0x073F3F3F#32].getD cplen 0#32

/-- The table {lit}`vmasks` -/
def vmasks (cplen : Nat) : BitVec 32 :=
  [0#32, 0x80000000#32, 0xE0C00000#32, 0xF0C0C000#32, 0xF8C0C0C0#32].getD cplen 0#32

/-- The table {lit}`valids` -/
def valids (cplen : Nat) : BitVec 32 :=
  [0#32, 0x00000000#32, 0xC0800000#32, 0xE0808000#32, 0xF0808080#32].getD cplen 0#32

/-- The first four characters of a text as a big-endian number, padded with zeros -/
def fetchTetra (mem : Chars w) (s : Str w) : BitVec 32 :=
  let byte (i : Nat) : Byte := if i < s.len.toNat then mem (s.addr + BitVec.ofNat w i) else 0#8
  byte 0 ++ byte 1 ++ byte 2 ++ byte 3

/-- The length of a malformed character: one assignment for each {lit}`case` that is fallen
through -/
def malformedLength (codepoint : BitVec 32) (cplen : Nat) : Nat :=
  let m := if cplen = 4 ∧ codepoint &&& 0xC0#32 ≠ 0x80#32 then 3 else cplen
  let m := if 3 ≤ cplen ∧ codepoint &&& 0xC000#32 ≠ 0x8000#32 then 2 else m
  if 2 ≤ cplen ∧ codepoint &&& 0xC00000#32 ≠ 0x800000#32 then 1 else m

/-- What {lit}`utf8_fetch_plus` does with these characters: the length and the code of the first one -/
def utf8Decode (codepoint : BitVec 32) : Nat × BitVec 32 :=
  let cplen := lens codepoint
  if codepoint &&& vmasks cplen = valids cplen then
    let codepoint := (codepoint &&& masks cplen) >>> ((4 - cplen) <<< 3)
    let codepoint := ((codepoint &&& 0x000000FF#32) >>> 0) ||| ((codepoint &&& 0x0000FF00#32) >>> 2) |||
      ((codepoint &&& 0x00FF0000#32) >>> 4) ||| ((codepoint &&& 0xFF000000#32) >>> 6)
    (cplen, if 0x10FFFF#32 < codepoint then 0xFFFD#32 else codepoint)
  else (malformedLength codepoint cplen, 0xFFFD#32)

/-- {lit}`utf8_fetch_plus` -/
def utf8FetchPlus (mem : Chars w) (s : Str w) : Nat × BitVec 32 :=
  utf8Decode (fetchTetra mem s)

/-- The characters that {lit}`+x/string` steps over -/
def xSize (enc : Encoding) (mem : Chars w) (s : Str w) : Nat :=
  match enc with
  | .fixedWidth => 1
  | .utf8 => (utf8FetchPlus mem s).1

/-- {lit}`+x/string` -/
def plusXString (enc : Encoding) (mem : Chars w) (s : Str w) : Str w :=
  s.slashString (BitVec.ofNat w (xSize enc mem s))

/-- {lit}`xc@`, which has no length and decodes from four characters -/
def xcFetch (enc : Encoding) (mem : Chars w) (a : BitVec w) : BitVec w :=
  match enc with
  | .fixedWidth => (mem a).setWidth w
  | .utf8 => (utf8FetchPlus mem ⟨a, 4#w⟩).2.setWidth w

/-! ## The words -/

/-- The variables of the conversion -/
structure NumberState (w : Nat) where
  base : BitVec w
  numState : BitVec w
  dpl : BitVec w
deriving DecidableEq

/-- The table {lit}`bases` -/
def bases (i : BitVec w) : BitVec w :=
  [0x0A#w, 0x10#w, 2#w, 0x0A#w].getD i.toNat 0#w

/-- {lit}`getbase` -/
def getbase (mem : Chars w) (st : NumberState w) (s : Str w) : NumberState w × Str w :=
  if (stringPrefix? (s.chars mem) [ascii '0', ascii 'x'] ||
      stringPrefix? (s.chars mem) [ascii '0', ascii 'X']) && st.base.slt 34#w then
    ({ st with base := 16#w, numState := 1#w ||| st.numState }, s.slashString 2#w)
  else
    let i := (s.head mem).setWidth w - (ascii '#').setWidth w
    if i < 4#w then
      ({ st with base := bases i, numState := 1#w ||| st.numState }, s.slashString 1#w)
    else (st, s)

/-- {lit}`sign?` -/
def sign? (mem : Chars w) (st : NumberState w) (s : Str w) : NumberState w × Str w × Bool :=
  if s.head mem = ascii '-' ∧ st.numState &&& 2#w = 0#w then
    ({ st with numState := st.numState + 2#w }, s.slashString 1#w, true)
  else (st, s, false)

/-- {lit}`?dnegate` -/
def dnegate? (d : BitVec (w + w)) (f : Bool) : BitVec (w + w) :=
  if f then -d else d

/-- {lit}`s'>unumber?`, which leaves the text in place of a number if it is empty -/
def sQuoteToUnumber? (enc : Encoding) (mem : Chars w) (s : Str w) : BitVec (w + w) × Bool :=
  if s.len = 0#w then (twoCell s.addr s.len, false)
  else
    let xc := xcFetch enc mem s.addr
    (twoCell xc 0#w, stringPrefix? [ascii '\''] ((plusXString enc mem s).chars mem))

/-- A conversion: the double, the flag and {lit}`dpl` -/
structure Converted (w : Nat) where
  value : BitVec (w + w)
  flag : Bool
  dpl : BitVec w
deriving DecidableEq

/-- No more characters are left than there were. -/
theorem toNumberUnderscore_length_le (mem : Chars w) (base : BitVec w) (d : BitVec (w + w))
    (a : BitVec w) (n : Nat) : (toNumberUnderscore mem base d a n).2.2 ≤ n := by
  obtain ⟨k, hscan, -⟩ := toNumberUnderscore_spec mem base d a n
  rw [hscan.result]
  exact Nat.sub_le n k

/-- The loop of {lit}`s>unumber?`, up to the sign -/
def convert (mem : Chars w) (base : BitVec w) (d : BitVec (w + w)) (a : BitVec w) (n : Nat)
    (dpl : BitVec w) : Converted w :=
  let r := toNumberUnderscore mem base d a n
  if r.2.2 = 0 then ⟨r.1, true, dpl⟩
  else if r.2.2 = n then
    -- the last >number_ parsed nothing
    ⟨r.1, false, BitVec.allOnes w⟩
  else if mem r.2.1 = ascii '.' then
    convert mem base r.1 (r.2.1 + 1#w) (r.2.2 - 1) (BitVec.ofNat w (r.2.2 - 1))
  else ⟨r.1, false, BitVec.allOnes w⟩
termination_by n
decreasing_by
  have hle := toNumberUnderscore_length_le mem base d a n
  have hne : (toNumberUnderscore mem base d a n).2.2 ≠ 0 := by assumption
  omega

/-- {lit}`s>unumber?` between {lit}`sign?` and {lit}`r> base !` -/
def convertUnsigned (mem : Chars w) (base : BitVec w) (s : Str w) (negative : Bool) : Converted w :=
  if s.len ≠ 0#w then
    let (s, dpl) :=
      if s.head mem = ascii '.' ∧ 1#w < s.len then (s.slashString 1#w, s.len - 1#w)
      else (s, BitVec.allOnes w)
    let r := convert mem base 0#(w + w) s.addr s.len.toNat dpl
    if r.flag then { r with value := dnegate? r.value negative } else r
  else ⟨0#(w + w), false, BitVec.allOnes w⟩

/-- What {lit}`?warn#` does: nothing, or a warning from {lit}`?warn-dp` -/
inductive Warn where
  | noop
  | warnDp
deriving DecidableEq

/-- {lit}`?warn#`, without the texts of the warnings -/
def Warn.run : Warn → NumberState w → NumberState w
  | .noop, st => st
  | .warnDp, st => { st with numState := 0#w }

/-- What the deferred words are set to -/
structure Setup where
  encoding : Encoding
  warn : Warn
deriving DecidableEq

/-- {lit}`s>unumber?` -/
def sToUnumber? (setup : Setup) (mem : Chars w) (st : NumberState w) (s : Str w) :
    NumberState w × BitVec (w + w) × Bool :=
  let st := { st with dpl := BitVec.allOnes w }
  if s.head mem = ascii '\'' then
    (st, sQuoteToUnumber? setup.encoding mem (s.slashString 1#w))
  else
    let saved := st.base
    let (st, s) := getbase mem st s
    let (st, s, negative) := sign? mem st s
    let r := convertUnsigned mem st.base s negative
    let st := setup.warn.run { st with base := saved, dpl := r.dpl }
    ({ st with numState := 0#w }, r.value, r.flag)

/-- {lit}`s>number?` -/
def sToNumber? (setup : Setup) (mem : Chars w) (st : NumberState w) (s : Str w) :
    NumberState w × BitVec (w + w) × Bool :=
  let (st, s, negative) := sign? mem st s
  let (st, d, flag) := sToUnumber? setup mem st s
  if flag then (st, dnegate? d negative, true) else (st, d, false)

/-- What {lit}`snumber?` leaves: {lit}`0`, {lit}`n` and a negative flag, or {lit}`d` and a positive
flag -/
inductive Recognized (w : Nat) where
  | none
  | single (n flag : BitVec w)
  | double (d : BitVec (w + w)) (flag : BitVec w)
deriving DecidableEq

/-- {lit}`snumber?` -/
def snumber? (setup : Setup) (mem : Chars w) (st : NumberState w) (s : Str w) :
    NumberState w × Recognized w :=
  let (st, d, flag) := sToNumber? setup mem st s
  if !flag then (st, .none)
  else if st.dpl.slt 0#w then (st, .single (dlo d) st.dpl)
  else (st, .double d (st.dpl + 1#w))

/-! ## Parts of a text -/

/-- {lit}`string-prefix?` compares the front. -/
theorem stringPrefix?_iff (s t : List Byte) : stringPrefix? s t = true ↔ t <+: s := by
  rw [stringPrefix?, beq_iff_eq, List.prefix_iff_eq_take]
  by_cases hle : t.length ≤ s.length
  · rw [Nat.min_eq_right hle, eq_comm]
  · rw [Nat.min_eq_left (by omega), List.take_length, List.take_of_length_le (by omega), eq_comm]

namespace Str

variable (mem : Chars w) (s : Str w)

@[simp]
theorem length_chars : (s.chars mem).length = s.len.toNat :=
  length_text mem s.addr _

theorem len_ne_zero_iff : s.len ≠ 0#w ↔ s.chars mem ≠ [] := by
  rw [← List.length_pos_iff, length_chars, Nat.pos_iff_ne_zero, ne_eq, ne_eq, ← BitVec.toNat_inj,
    BitVec.toNat_zero]

/-- What is left behind some characters -/
theorem toNat_len_slashString {k : Nat} (h : k ≤ s.len.toNat) :
    (s.slashString (BitVec.ofNat w k)).len.toNat = s.len.toNat - k := by
  have hlt := s.len.isLt
  rw [slashString, BitVec.toNat_sub, BitVec.toNat_ofNat, Nat.mod_eq_of_lt (by omega : k < 2 ^ w),
    show 2 ^ w - k + s.len.toNat = s.len.toNat - k + 2 ^ w by omega, Nat.add_mod_right,
    Nat.mod_eq_of_lt (by omega)]

theorem chars_slashString {k : Nat} (h : k ≤ s.len.toNat) :
    (s.slashString (BitVec.ofNat w k)).chars mem = (s.chars mem).drop k := by
  rw [chars, toNat_len_slashString s h, chars, drop_text mem s.addr h]
  rfl

/-- The first character and the others -/
theorem chars_eq_cons (h : s.chars mem ≠ []) :
    s.chars mem = s.head mem :: (s.slashString 1#w).chars mem := by
  have hlen : 0 < s.len.toNat := by
    rw [← length_chars mem s]
    exact List.length_pos_of_ne_nil h
  rw [show 1#w = BitVec.ofNat w 1 from rfl, chars_slashString mem s hlen, chars,
    show s.len.toNat = s.len.toNat - 1 + 1 by omega, text_succ]
  rfl

/-- Behind the empty text the length wraps around. -/
theorem toNat_len_wrapped (hw : 8 ≤ w) (h : s.len = 0#w) :
    (s.slashString 1#w).len.toNat = 2 ^ w - 1 := by
  have hpow := two_pow_le_of_le hw
  rw [slashString, h, BitVec.toNat_sub, BitVec.toNat_one (by omega), BitVec.toNat_zero, Nat.add_zero,
    Nat.mod_eq_of_lt (by omega)]

/-- A text that is shortened below its length wraps around. -/
theorem mem_chars_wrapped (hw : 8 ≤ w) (h : s.len = 0#w) :
    mem (s.addr - 1#w) ∈ (s.slashString 1#w).chars mem := by
  have hpow := two_pow_le_of_le hw
  have hone : (1#w).toNat = 1 := BitVec.toNat_one (by omega)
  have hback : 1#w + BitVec.ofNat w (2 ^ w - 2) = -1#w := by
    refine BitVec.eq_of_toNat_eq ?_
    rw [BitVec.toNat_add, hone, BitVec.toNat_ofNat, BitVec.toNat_neg, hone,
      Nat.mod_eq_of_lt (by omega : 2 ^ w - 2 < 2 ^ w)]
    congr 1
    omega
  rw [chars, toNat_len_wrapped s hw h, mem_text]
  refine ⟨2 ^ w - 2, by omega, ?_⟩
  change mem (s.addr + 1#w + _) = _
  rw [BitVec.add_assoc, hback, ← BitVec.sub_eq_add_neg]

end Str

/-! ## The length of a character -/

/-- The four bytes that are looked at -/
theorem fetchTetra_eq (mem : Chars w) (s : Str w) : fetchTetra mem s =
    (s.chars mem).getD 0 0#8 ++ (s.chars mem).getD 1 0#8 ++ (s.chars mem).getD 2 0#8 ++
      (s.chars mem).getD 3 0#8 := by
  have hbyte : ∀ i, (if i < s.len.toNat then mem (s.addr + BitVec.ofNat w i) else 0#8) =
      (s.chars mem).getD i 0#8 := by
    intro i
    split
    · rename_i hi
      rw [← Str.length_chars mem s] at hi
      rw [List.getD_eq_getElem?_getD, List.getElem?_eq_getElem hi]
      exact (getElem_text mem s.addr hi).symm
    · rename_i hi
      rw [List.getD_eq_getElem?_getD, List.getElem?_eq_none (by rw [Str.length_chars]; omega)]
      rfl
  simp only [fetchTetra, hbyte]

/-- A byte that is not read does not set a bit. -/
theorem fetchTetra_getLsbD (mem : Chars w) (s : Str w) {i : Nat} (hpos : 0 < i) (hi : i < 4)
    (hlen : s.len.toNat ≤ i) : (fetchTetra mem s).getLsbD (8 * (3 - i) + 7) = false := by
  rw [fetchTetra]
  have hzero : (if i < s.len.toNat then mem (s.addr + BitVec.ofNat w i) else 0#8) = 0#8 :=
    if_neg (by omega)
  interval_cases i <;> simp only [BitVec.getLsbD_append] <;> simp [hzero]

/-- A character has one to four bytes. -/
theorem lens_cases (codepoint : BitVec 32) :
    lens codepoint = 1 ∨ lens codepoint = 2 ∨ lens codepoint = 3 ∨ lens codepoint = 4 := by
  rw [lens]
  have hlt : (codepoint >>> 28).toNat < 16 := by
    rw [BitVec.toNat_ushiftRight, Nat.shiftRight_eq_div_pow]
    have := codepoint.isLt
    omega
  generalize (codepoint >>> 28).toNat = i at hlt
  interval_cases i <;> simp

/-- A bit that a mask keeps -/
theorem getLsbD_of_and_eq {x m v : BitVec 32} {i : Nat} (h : x &&& m = v)
    (hi : v.getLsbD i = true) : x.getLsbD i = true := by
  rw [← h, BitVec.getLsbD_and, Bool.and_eq_true] at hi
  exact hi.1

/-- The length of a character is not more than the characters that are there. -/
theorem utf8FetchPlus_length (mem : Chars w) (s : Str w) (hlen : 0 < s.len.toNat) :
    1 ≤ (utf8FetchPlus mem s).1 ∧ (utf8FetchPlus mem s).1 ≤ s.len.toNat ∧
      (utf8FetchPlus mem s).1 ≤ 4 := by
  have hbyte : ∀ {i : Nat}, 0 < i → i < 4 → (fetchTetra mem s).getLsbD (8 * (3 - i) + 7) = true →
      i < s.len.toNat := by
    intro i hpos hi hbit
    by_contra hle
    rw [fetchTetra_getLsbD mem s hpos hi (by omega)] at hbit
    cases hbit
  simp only [utf8FetchPlus]
  generalize fetchTetra mem s = codepoint at hbyte
  simp only [utf8Decode]
  split
  · rename_i hvalid
    rcases lens_cases codepoint with h | h | h | h <;> rw [h] at hvalid ⊢
    · exact ⟨by omega, by omega, by omega⟩
    · have := hbyte (i := 1) (by omega) (by omega) (getLsbD_of_and_eq hvalid (by decide))
      omega
    · have := hbyte (i := 2) (by omega) (by omega) (getLsbD_of_and_eq hvalid (by decide))
      omega
    · have := hbyte (i := 3) (by omega) (by omega) (getLsbD_of_and_eq hvalid (by decide))
      omega
  · have h1 : codepoint &&& 0xC00000#32 = 0x800000#32 → 1 < s.len.toNat := fun h =>
      hbyte (by omega) (by omega) (getLsbD_of_and_eq h (by decide))
    have h2 : codepoint &&& 0xC000#32 = 0x8000#32 → 2 < s.len.toNat := fun h =>
      hbyte (by omega) (by omega) (getLsbD_of_and_eq h (by decide))
    have h3 : codepoint &&& 0xC0#32 = 0x80#32 → 3 < s.len.toNat := fun h =>
      hbyte (by omega) (by omega) (getLsbD_of_and_eq h (by decide))
    have hcases := lens_cases codepoint
    simp only [malformedLength]
    generalize lens codepoint = cplen at hcases
    grind

/-- The size of a character is in the text. -/
theorem xSize_le (enc : Encoding) (mem : Chars w) (s : Str w) (hlen : 0 < s.len.toNat) :
    1 ≤ xSize enc mem s ∧ xSize enc mem s ≤ s.len.toNat ∧ xSize enc mem s ≤ 4 := by
  cases enc with
  | fixedWidth => exact ⟨Nat.le_refl 1, hlen, Nat.succ_le_succ (Nat.zero_le 3)⟩
  | utf8 => exact utf8FetchPlus_length mem s hlen

/-! ## The loop -/

/-- What is not converted -/
def unconverted (d : BitVec (w + w)) : Converted w :=
  ⟨d, false, BitVec.allOnes w⟩

/-- One round of the loop: the characters that {lit}`>number_` goes past, and what follows -/
theorem convert_round (mem : Chars w) (base : BitVec w) (d : BitVec (w + w)) (a : BitVec w) (n : Nat)
    (dpl : BitVec w) :
    ∃ k ≤ n, (∀ c ∈ text mem a k, NumberChar base c) ∧
      (2 * n < 2 ^ w → k = n ∨ ¬NumberChar base (mem (a + BitVec.ofNat w k))) ∧
      convert mem base d a n dpl =
        if k = n then ⟨accumulateAll base d (text mem a k), true, dpl⟩
        else if 0 < k ∧ mem (a + BitVec.ofNat w k) = ascii '.' then
          convert mem base (accumulateAll base d (text mem a k)) (a + BitVec.ofNat w (k + 1))
            (n - (k + 1)) (BitVec.ofNat w (n - (k + 1)))
        else unconverted (accumulateAll base d (text mem a k)) := by
  obtain ⟨k, hscan, hend⟩ := toNumberUnderscore_spec mem base d a n
  refine ⟨k, hscan.le, hscan.chars, hend, ?_⟩
  have hle := hscan.le
  have hsucc : a + BitVec.ofNat w k + 1#w = a + BitVec.ofNat w (k + 1) := add_ofNat_ofNat a k 1
  rw [convert, hscan.result]
  simp only [hsucc, Nat.sub_sub]
  by_cases hall : k = n
  · rw [if_pos (by omega), if_pos hall]
  · rw [if_neg (by omega), if_neg hall]
    by_cases hnone : k = 0
    · rw [if_pos (by omega), if_neg (by omega)]
      rfl
    · rw [if_neg (by omega)]
      by_cases hpoint : mem (a + BitVec.ofNat w k) = ascii '.'
      · rw [if_pos hpoint, if_pos ⟨by omega, hpoint⟩]
      · rw [if_neg hpoint, if_neg (fun h => hpoint h.2)]
        rfl

/-- What is converted consists of digits, underscores and points. -/
theorem convert_chars {mem : Chars w} {base : BitVec w} {d : BitVec (w + w)} {a : BitVec w} {n : Nat}
    {dpl : BitVec w} (h : (convert mem base d a n dpl).flag = true) :
    ∀ c ∈ text mem a n, NumberChar base c ∨ c = ascii '.' := by
  induction n using Nat.strong_induction_on generalizing d a dpl with
  | _ n ih =>
      obtain ⟨k, hle, hchars, -, hround⟩ := convert_round mem base d a n dpl
      rw [hround] at h
      split at h
      · rename_i hall
        subst hall
        exact fun c hc => .inl (hchars c hc)
      · split at h
        · rename_i hall hpoint
          have hrest := ih (n - (k + 1)) (by omega) h
          have hsplit : n = k + ((n - (k + 1)) + 1) := by omega
          rw [hsplit, text_add, text_succ, add_ofNat_ofNat]
          intro c hc
          rcases List.mem_append.mp hc with hc | hc
          · exact .inl (hchars c hc)
          · rcases List.mem_cons.mp hc with rfl | hc
            · exact .inr hpoint.2
            · exact hrest c hc
        · cases h

end Numbers
end Gforth
