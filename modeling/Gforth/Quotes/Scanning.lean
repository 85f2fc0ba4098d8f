import Gforth.Quotes.Translation

/-!
# Scanning lines in memory

The loop of {lit}`\"-parse` at the addresses of a line goes through its characters; only behind
{lit}`u` escapes it may read what is behind the line.

Main results:

- Theorem {lit}`backslashEscape_rest`: one escape.
- Theorem {lit}`line_run`: the rest of a line.
- Theorem {lit}`dangling_passes`: what can be behind a line, so that it is taken for a part of it.
-/

namespace Gforth
namespace Quotes

open Lib
open Memory
open Numbers

variable {w : Nat} {src : Source w} {p a : BitVec w} {t : List Byte} {c : Byte}

/-! ## Addresses -/

/-- The characters from an address to the end of the line -/
structure Rest (src : Source w) (p : BitVec w) (t : List Byte) : Prop where
  place : ∃ i, i + t.length = src.len.toNat ∧ p = src.addr + BitVec.ofNat w i
  chars : text src.mem p t.length = t

theorem Source.rest (src : Source w) {i : Nat} (hi : i ≤ src.len.toNat) :
    Rest src (src.addr + BitVec.ofNat w i) (src.line.drop i) := by
  rw [Source.line, drop_text _ _ hi]
  exact ⟨⟨i, by rw [length_text]; omega, rfl⟩, by rw [length_text]⟩

/-- Some characters further -/
theorem Rest.drop (h : Rest src p t) {k : Nat} (hk : k ≤ t.length) :
    Rest src (p + BitVec.ofNat w k) (t.drop k) := by
  obtain ⟨i, hi, rfl⟩ := h.place
  refine ⟨⟨i + k, by rw [List.length_drop]; omega, add_ofNat_ofNat _ _ _⟩, ?_⟩
  rw [List.length_drop, ← drop_text _ _ hk, h.chars]

/-- The next character -/
theorem Rest.cons (h : Rest src p (c :: t)) : src.mem p = c ∧ Rest src (p + 1#w) t := by
  have hchars := h.chars
  rw [List.length_cons, text_succ] at hchars
  exact ⟨(List.cons.inj hchars).1, h.drop (Nat.succ_le_succ (Nat.zero_le _))⟩

theorem Rest.stop_eq (h : Rest src p t) : src.stop = p + BitVec.ofNat w t.length := by
  obtain ⟨i, hi, rfl⟩ := h.place
  rw [Source.stop, add_ofNat_ofNat, hi, BitVec.ofNat_toNat, BitVec.setWidth_eq]

/-- The rest is shorter than memory. -/
theorem Rest.length_lt (h : Rest src p t) : t.length < 2 ^ w := by
  obtain ⟨i, hi, -⟩ := h.place
  have := src.len.isLt
  omega

theorem Source.toNat_addr_add (src : Source w) {i : Nat} (hi : i ≤ src.len.toNat + 7) :
    (src.addr + BitVec.ofNat w i).toNat = src.addr.toNat + i := by
  have := src.fits
  rw [BitVec.toNat_add, BitVec.toNat_ofNat, Nat.add_mod_mod, Nat.mod_eq_of_lt (by omega)]

theorem Source.stop_add (src : Source w) (k : Nat) :
    src.stop + BitVec.ofNat w k = src.addr + BitVec.ofNat w (src.len.toNat + k) := by
  rw [← add_ofNat_ofNat, Source.stop, BitVec.ofNat_toNat, BitVec.setWidth_eq]

theorem Source.toNat_stop_add (src : Source w) {k : Nat} (hk : k ≤ 7) :
    (src.stop + BitVec.ofNat w k).toNat = src.addr.toNat + src.len.toNat + k := by
  rw [src.stop_add, src.toNat_addr_add (by omega), Nat.add_assoc]

/-- The end of a line -/
theorem Source.toNat_stop (src : Source w) :
    src.stop.toNat = src.addr.toNat + src.len.toNat := by
  have hstop := src.toNat_stop_add (Nat.zero_le 7)
  rwa [BitVec.add_zero] at hstop

theorem Source.stop_le_add (src : Source w) {k : Nat} (hk : k ≤ 7) :
    src.stop ≤ src.stop + BitVec.ofNat w k := by
  rw [BitVec.le_def, src.toNat_stop_add hk, src.toNat_stop]
  exact Nat.le_add_right _ _

theorem Rest.stop_le_iff (h : Rest src p t) : src.stop ≤ p ↔ t = [] := by
  obtain ⟨i, hi, rfl⟩ := h.place
  rw [BitVec.le_def, src.toNat_stop, src.toNat_addr_add (by omega), ← List.length_eq_zero_iff]
  omega

/-- The end is reached only when nothing is left. -/
theorem Rest.eq_stop_iff (h : Rest src p t) : p = src.stop ↔ t = [] := by
  constructor
  · rintro rfl
    exact h.stop_le_iff.mp (BitVec.le_refl _)
  · rintro rfl
    have hstop := h.stop_eq
    rwa [List.length_nil, BitVec.add_zero, eq_comm] at hstop

/-! ## Numbers -/

theorem two_pow_of_le (hw : 21 ≤ w) : 0x200000 ≤ 2 ^ w :=
  Nat.pow_le_pow_right (by decide : 0 < 2) hw

/-- {lit}`digit?` gives the values of digits. -/
theorem digit?_eq_digitValue (hw : 21 ≤ w) {base : Nat} (hbase : base ≤ 16) (c : Byte) :
    digit? (BitVec.ofNat w base) c = (digitValue base c).map (BitVec.ofNat w) := by
  have hpow := two_pow_of_le hw
  have hvalue : (BitVec.ofNat w base).toNat = base := by
    rw [BitVec.toNat_ofNat, Nat.mod_eq_of_lt (by omega)]
  rw [digit?_eq_anyDigit (by omega) (by omega), hvalue, digitValue]

/-- {lit}`>number` on the characters of a text -/
theorem toNumber_number (hw : 21 ≤ w) {base : Nat} (hbase : base ≤ 16) (mem : Chars w)
    {n v : Nat} (ht : text mem a t.length = t) (hn : n ≤ t.length) :
    ∃ k, k ≤ n ∧ (number base n v t).2 = t.drop k ∧
      toNumber mem (BitVec.ofNat w base) (BitVec.ofNat (w + w) v) a n =
        (BitVec.ofNat (w + w) (number base n v t).1, a + BitVec.ofNat w k, n - k) := by
  have hpow := two_pow_of_le hw
  induction n generalizing t a v with
  | zero => exact ⟨0, le_rfl, rfl, by simp [toNumber, number]⟩
  | succ n ih =>
      cases t with
      | nil => cases hn
      | cons c t =>
          rw [List.length_cons, text_succ] at ht
          obtain ⟨hc, ht⟩ := List.cons.inj ht
          rw [toNumber, number, hc, digit?_eq_digitValue hw hbase]
          cases hdigit : digitValue base c with
          | none => exact ⟨0, Nat.zero_le _, rfl, by simp⟩
          | some d =>
              have hlt := digitValue_lt hdigit
              have haccumulate : accumulate (BitVec.ofNat w base) (BitVec.ofNat (w + w) v)
                  (BitVec.ofNat w d) = BitVec.ofNat (w + w) (v * base + d) := by
                rw [accumulate_eq, BitVec.toNat_ofNat, BitVec.toNat_ofNat, BitVec.toNat_ofNat,
                  Nat.mod_eq_of_lt (show base < 2 ^ w by omega),
                  Nat.mod_eq_of_lt (show d < 2 ^ w by omega)]
                refine BitVec.eq_of_toNat_eq ?_
                rw [BitVec.toNat_ofNat, BitVec.toNat_ofNat, Nat.add_mod, Nat.mod_mul_mod,
                  ← Nat.add_mod]
              obtain ⟨k, hk, hrest, hnumber⟩ :=
                ih (v := v * base + d) ht (Nat.le_of_succ_le_succ hn)
              refine ⟨k + 1, Nat.succ_le_succ hk, hrest, ?_⟩
              dsimp only [Option.map_some]
              rw [haccumulate, hnumber, add_one_ofNat, Nat.succ_sub_succ]

/-- No digits are looked for behind the end. -/
theorem number_min (base n v : Nat) (t : List Byte) :
    number base (min n t.length) v t = number base n v t := by
  induction n generalizing v t with
  | zero => rw [Nat.zero_min]
  | succ n ih =>
      cases t with
      | nil => rfl
      | cons c t =>
          rw [List.length_cons, Nat.succ_min_succ, number, number]
          split
          · exact ih _ _
          · rfl

/-- {lit}`parse-num` at an address with some characters, of which it takes the first ones -/
theorem parseNum_eq (hw : 21 ≤ w) {base n m : Nat} (hbase : base ≤ 16)
    (hm : (umin (src.stop - a) (BitVec.ofNat w n)).toNat = m)
    (ht : text src.mem a t.length = t) (hle : m ≤ t.length) :
    ∃ k, k ≤ m ∧ (number base m 0 t).2 = t.drop k ∧
      parseNum src a n base =
        (a + BitVec.ofNat w k, BitVec.ofNat w (number base m 0 t).1) := by
  obtain ⟨k, hk, hrest, hnumber⟩ := toNumber_number hw hbase src.mem (v := 0) ht hle
  refine ⟨k, hk, hrest, ?_⟩
  rw [parseNum, parseNumX, hm]
  rw [BitVec.ofNat_eq_ofNat, hnumber]
  dsimp only
  rw [dlo, BitVec.setWidth_ofNat_of_le (Nat.le_add_left w w)]

/-- {lit}`umin` as a number -/
theorem toNat_umin (u1 u2 : BitVec w) : (umin u1 u2).toNat = min u1.toNat u2.toNat := by
  rw [umin]
  split
  · rename_i hlt
    rw [BitVec.lt_def] at hlt
    exact (Nat.min_eq_right hlt.le).symm
  · rename_i hlt
    rw [BitVec.lt_def] at hlt
    exact (Nat.min_eq_left (Nat.le_of_not_lt hlt)).symm

/-- {lit}`parse-num` in the line -/
theorem parseNum_rest (hw : 21 ≤ w) (h : Rest src a t) {base n : Nat} (hbase : base ≤ 16)
    (hn : n ≤ 8) :
    ∃ a', parseNum src a n base = (a', BitVec.ofNat w (number base n 0 t).1) ∧
      Rest src a' (number base n 0 t).2 := by
  have hpow := two_pow_of_le hw
  have hm : (umin (src.stop - a) (BitVec.ofNat w n)).toNat = min n t.length := by
    rw [toNat_umin, h.stop_eq, BitVec.add_comm, BitVec.add_sub_cancel, BitVec.toNat_ofNat,
      BitVec.toNat_ofNat, Nat.mod_eq_of_lt h.length_lt, Nat.mod_eq_of_lt (by omega), Nat.min_comm]
  obtain ⟨k, hk, hrest, hparse⟩ := parseNum_eq hw hbase hm h.chars (Nat.min_le_right _ _)
  rw [number_min] at hrest hparse
  refine ⟨_, hparse, ?_⟩
  rw [hrest]
  exact h.drop (hk.trans (Nat.min_le_right _ _))

/-- {lit}`parse-num` behind the line, where the end of the line is no limit -/
theorem parseNum_behind (src : Source w) (hw : 21 ≤ w) {k : Nat} (hpos : 0 < k) (hk : k ≤ 2) :
    ∃ j, j ≤ 4 ∧ (parseNum src (src.stop + BitVec.ofNat w k) 4 16).1 =
        src.stop + BitVec.ofNat w (k + j) ∧
      (parseNum src (src.stop + BitVec.ofNat w k) 4 16).2 = BitVec.ofNat w
        (number 16 4 0 (text src.mem (src.stop + BitVec.ofNat w k) 4)).1 := by
  have hpow := two_pow_of_le hw
  have hm : (umin (src.stop - (src.stop + BitVec.ofNat w k)) (BitVec.ofNat w 4)).toNat = 4 := by
    have hfits := src.fits
    have hdistance : 2 ^ w - (src.addr.toNat + src.len.toNat + k) +
        (src.addr.toNat + src.len.toNat) = 2 ^ w - k := by omega
    rw [toNat_umin, BitVec.toNat_sub, src.toNat_stop_add (by omega), src.toNat_stop, hdistance,
      BitVec.toNat_ofNat, Nat.mod_eq_of_lt (by omega), Nat.mod_eq_of_lt (by omega),
      Nat.min_eq_right (by omega)]
  have ht : text src.mem (src.stop + BitVec.ofNat w k)
      (text src.mem (src.stop + BitVec.ofNat w k) 4).length =
      text src.mem (src.stop + BitVec.ofNat w k) 4 := by rw [length_text]
  obtain ⟨j, hj, -, hparse⟩ :=
    parseNum_eq hw (show 16 ≤ 16 from le_rfl) hm ht (by rw [length_text])
  exact ⟨j, hj, by rw [hparse, add_ofNat_ofNat], by rw [hparse]⟩

/-! ## Escapes -/

/-- The characters that {lit}`xc,` puts into the dictionary for a code point -/
def Host.xchar (host : Host w) (v : Nat) : List Byte :=
  xcComma host.encoding (BitVec.ofNat w v)

/-- Masking small numbers -/
theorem toNat_ofNat_and (hw : 21 ≤ w) {v m : Nat} (hv : v < 0x10000) (hm : m < 0x10000) :
    (BitVec.ofNat w v &&& BitVec.ofNat w m).toNat = v &&& m := by
  have hpow := two_pow_of_le hw
  rw [BitVec.toNat_and, BitVec.toNat_ofNat, BitVec.toNat_ofNat, Nat.mod_eq_of_lt (by omega),
    Nat.mod_eq_of_lt (by omega)]

/-- The tests of {lit}`\-escape,` -/
theorem ofNat_and_eq_iff (hw : 21 ≤ w) {v m n : Nat} (hv : v < 0x10000) (hm : m < 0x10000)
    (hn : n < 0x10000) :
    BitVec.ofNat w v &&& BitVec.ofNat w m = BitVec.ofNat w n ↔ v &&& m = n := by
  have hpow := two_pow_of_le hw
  have hvalue : (BitVec.ofNat w n).toNat = n := by
    rw [BitVec.toNat_ofNat, Nat.mod_eq_of_lt (by omega)]
  rw [← BitVec.toNat_inj, toNat_ofNat_and hw hv hm, hvalue]

/-- The code point of a surrogate pair -/
theorem codePair_ofNat (hw : 21 ≤ w) {v v' : Nat} (hv : v < 0x10000) (hv' : v' < 0x10000) :
    (BitVec.ofNat w v' &&& 0x3FF#w) + (BitVec.ofNat w v &&& 0x3FF#w) <<< 10 + 0x10000#w =
      BitVec.ofNat w (codePair v v') := by
  have hpow := two_pow_of_le hw
  have hmask : ∀ n, n &&& 0x3FF = n % 0x400 := fun n => Nat.and_two_pow_sub_one_eq_mod n 10
  have hbounds := codePair_bounds v v'
  refine BitVec.eq_of_toNat_eq ?_
  rw [BitVec.toNat_add, BitVec.toNat_add, BitVec.toNat_shiftLeft,
    toNat_ofNat_and hw hv' (by decide), toNat_ofNat_and hw hv (by decide), hmask, hmask,
    Nat.shiftLeft_eq, BitVec.toNat_ofNat, BitVec.toNat_ofNat, Nat.mod_add_mod, Nat.add_mod_mod,
    Nat.mod_eq_of_lt (show v % 0x400 * 2 ^ 10 < 2 ^ w by omega)]
  rfl

/-- The table of letters, and what is done to other characters -/
theorem escapeChar_eq (host : Host w) (c : Byte) : escapeChar host c = letter host.newline c := by
  by_cases hn : c = ascii 'n'
  · subst hn
    rw [escapeChar, if_pos rfl]
    rw [List.getLastD_eq_getLast?, List.getLast?_eq_some_getLast host.newline_ne, Option.getD_some,
      List.dropLast_append_getLast]
    rfl
  · have hlookup : (letters host.newline).lookup c = (letters []).lookup c := by
      have hbeq : (c == ascii 'n') = false := beq_false_of_ne hn
      simp only [letters, List.lookup_cons, hbeq]
    have hother : ∀ c : Byte, c ≠ ascii 'n' →
        ((if c = ascii 'm' then [cr] else []) ++
          if ascii 'a' ≤ c ∧ c < ascii '{' then
            (if c = escapeTable.getD (c - ascii 'a').toNat 0 then [ascii '\\'] else []) ++
              [escapeTable.getD (c - ascii 'a').toNat 0]
          else [c]) = letter [] c := by
      decide
    rw [escapeChar, if_neg hn, letter, hlookup]
    exact hother c hn

/-- An octal digit, in two ways -/
theorem octal_iff (c : Byte) :
    (ascii '0' ≤ c ∧ c < ascii '8') ↔ (ascii '0' ≤ c ∧ c ≤ ascii '7') := by
  revert c
  decide

/-- An escape without surrogates -/
theorem simpleEscape_rest (hw : 21 ≤ w) (host : Host w) (h : Rest src a (c :: t))
    (hc : c ≠ ascii 'u') :
    ∃ a', backslashEscape host src a =
        (a', (simpleEscape host.xchar host.newline (c :: t)).1) ∧
      Rest src a' (simpleEscape host.xchar host.newline (c :: t)).2 := by
  obtain ⟨hmem, hrest⟩ := h.cons
  rw [backslashEscape, hmem, simpleEscape, if_neg hc]
  by_cases hU : c = ascii 'U'
  · obtain ⟨a', hparse, hrest'⟩ :=
      parseNum_rest hw hrest (show 16 ≤ 16 from le_rfl) (show 8 ≤ 8 from le_rfl)
    rw [if_pos hU, if_pos hU, hparse]
    exact ⟨a', rfl, hrest'⟩
  rw [if_neg hU, if_neg hU]
  by_cases hx : c = ascii 'x'
  · obtain ⟨a', hparse, hrest'⟩ :=
      parseNum_rest hw hrest (show 16 ≤ 16 from le_rfl) (show 2 ≤ 8 by decide)
    rw [if_pos hx, if_pos hx, hparse]
    dsimp only
    rw [BitVec.setWidth_ofNat_of_le (by omega)]
    exact ⟨a', rfl, hrest'⟩
  rw [if_neg hx, if_neg hx]
  by_cases hoctal : ascii '0' ≤ c ∧ c ≤ ascii '7'
  · obtain ⟨a', hparse, hrest'⟩ :=
      parseNum_rest hw h (show 8 ≤ 16 by decide) (show 3 ≤ 8 by decide)
    rw [if_pos ((octal_iff c).mpr hoctal), if_pos hoctal, hparse]
    dsimp only
    rw [BitVec.setWidth_ofNat_of_le (by omega)]
    exact ⟨a', rfl, hrest'⟩
  · rw [if_neg (mt (octal_iff c).mp hoctal), if_neg hoctal, escapeChar_eq]
    exact ⟨_, rfl, hrest⟩

theorem back_two (a : BitVec w) : a + 1#w + 1#w - 2#w = a := by
  rw [BitVec.add_assoc, ← BitVec.ofNat_add, BitVec.add_sub_cancel]

/-- The second escape is in the line, or there is none. -/
theorem nextUnit_rest (h : Rest src a t) (hnil : t ≠ []) (hbackslash : t ≠ [ascii '\\']) :
    if src.mem a = ascii '\\' ∧ src.mem (a + 1#w) = ascii 'u' then
      ∃ t', nextUnit t = some (number 16 4 0 t') ∧ Rest src (a + 1#w + 1#w) t'
    else nextUnit t = none := by
  cases t with
  | nil => exact absurd rfl hnil
  | cons x t =>
      obtain ⟨hx, hrest⟩ := h.cons
      rw [hx]
      cases t with
      | nil =>
          have hne : ¬(x = ascii '\\' ∧ src.mem (a + 1#w) = ascii 'u') := by
            rintro ⟨rfl, -⟩
            exact hbackslash rfl
          rw [if_neg hne]
          rfl
      | cons y t =>
          obtain ⟨hy, hrest'⟩ := hrest.cons
          rw [hy, nextUnit]
          split
          · exact ⟨t, rfl, hrest'⟩
          · rfl

/-- An escape in the line is taken as the characters say. -/
theorem backslashEscape_rest (hw : 21 ≤ w) (host : Host w) (h : Rest src a t) (ht : t ≠ [])
    (hdangling : dangling t = false) :
    ∃ a', backslashEscape host src a =
        (a', (codeEscape host.xchar host.newline t).1) ∧ Rest src a' (codeRest t) := by
  rw [← codeEscape_snd host.xchar host.newline]
  cases t with
  | nil => exact absurd rfl ht
  | cons c t =>
      by_cases hc : c = ascii 'u'
      · subst hc
        obtain ⟨hmem, hrest⟩ := h.cons
        obtain ⟨a₁, hparse, hrest₁⟩ :=
          parseNum_rest hw hrest (show 16 ≤ 16 from le_rfl) (show 4 ≤ 8 by decide)
        have hlt := number_sixteen_lt t
        rw [dangling] at hdangling
        rw [backslashEscape, hmem, if_neg (by decide), if_pos rfl, hparse, codeEscape, if_pos rfl]
        generalize number 16 4 0 t = r at hrest₁ hlt hdangling
        obtain ⟨v, t₁⟩ := r
        dsimp only at hrest₁ hlt hdangling ⊢
        have htest := ofNat_and_eq_iff hw (m := 0xDC00) (n := 0xD800) hlt (by decide) (by decide)
        by_cases hhigh : SeemsHigh v
        · rw [if_pos (htest.mpr hhigh), if_pos hhigh]
          have hunit := nextUnit_rest hrest₁ (by rintro rfl; simp [hhigh] at hdangling)
            (by rintro rfl; simp [hhigh] at hdangling)
          split_ifs at hunit with hsecond
          · obtain ⟨t₂, hnext, hrest₂⟩ := hunit
            obtain ⟨a₃, hparse₃, hrest₃⟩ :=
              parseNum_rest hw hrest₂ (show 16 ≤ 16 from le_rfl) (show 4 ≤ 8 by decide)
            have hlt₂ := number_sixteen_lt t₂
            rw [if_pos hsecond, hparse₃, hnext]
            generalize number 16 4 0 t₂ = r at hrest₃ hlt₂
            obtain ⟨v', t₃⟩ := r
            dsimp only at hrest₃ hlt₂ ⊢
            have htest' :=
              ofNat_and_eq_iff hw (m := 0xDC00) (n := 0xDC00) hlt₂ (by decide) (by decide)
            by_cases hlow : SeemsLow v'
            · rw [if_pos (htest'.mpr hlow), if_pos hlow, codePair_ofNat hw hlt hlt₂]
              exact ⟨a₃, rfl, hrest₃⟩
            · rw [if_neg (mt htest'.mp hlow), if_neg hlow]
              exact ⟨a₃, rfl, hrest₃⟩
          · rw [if_neg hsecond, hunit, back_two]
            exact ⟨a₁, rfl, hrest₁⟩
        · rw [if_neg (mt htest.mp hhigh), if_neg hhigh]
          exact ⟨a₁, rfl, hrest₁⟩
      · rw [codeEscape, if_neg hc]
        exact simpleEscape_rest hw host h hc

/-- An escape with {lit}`u` that seems to start a pair -/
theorem backslashEscape_high (hw : 21 ≤ w) (host : Host w) (h : Rest src a (ascii 'u' :: t))
    (hhigh : SeemsHigh (number 16 4 0 t).1) :
    ∃ a₁, Rest src a₁ (number 16 4 0 t).2 ∧ backslashEscape host src a =
      if src.mem a₁ = ascii '\\' ∧ src.mem (a₁ + 1#w) = ascii 'u' then
        let r := parseNum src (a₁ + 1#w + 1#w) 4 16
        if r.2 &&& 0xDC00#w = 0xDC00#w then
          (r.1, xcComma host.encoding ((r.2 &&& 0x3FF#w) +
            (BitVec.ofNat w (number 16 4 0 t).1 &&& 0x3FF#w) <<< 10 + 0x10000#w))
        else (r.1, host.xchar (number 16 4 0 t).1 ++ xcComma host.encoding r.2)
      else (a₁, host.xchar (number 16 4 0 t).1) := by
  obtain ⟨hmem, hrest⟩ := h.cons
  obtain ⟨a₁, hparse, hrest₁⟩ :=
    parseNum_rest hw hrest (show 16 ≤ 16 from le_rfl) (show 4 ≤ 8 by decide)
  have htest := (ofNat_and_eq_iff hw (m := 0xDC00) (n := 0xD800) (number_sixteen_lt t) (by decide)
    (by decide)).mpr hhigh
  refine ⟨a₁, hrest₁, ?_⟩
  rw [backslashEscape, hmem, if_neg (by decide), if_pos rfl, hparse]
  dsimp only
  rw [if_pos htest, back_two]
  rfl

/-- The characters behind a line that make {lit}`\-escape,` find a pair -/
def lowBehind (t : List Byte) : List Byte :=
  [ascii '\\', ascii 'u', ascii 'D', ascii 'C', ascii '0', ascii '0'].drop
    (number 16 4 0 t.tail).2.length

/-- The end of the line in front of a second escape -/
theorem end_of_dangling {t₁ : List Byte} {a₁ : BitVec w} (h : Rest src a₁ t₁)
    (hend : t₁ = [] ∨ t₁ = [ascii '\\']) :
    ∃ k, 0 < k ∧ k ≤ 2 ∧ a₁ + 1#w + 1#w = src.stop + BitVec.ofNat w k ∧
      (text src.mem src.stop (6 - t₁.length) =
          [ascii '\\', ascii 'u', ascii 'D', ascii 'C', ascii '0', ascii '0'].drop t₁.length →
        (src.mem a₁ = ascii '\\' ∧ src.mem (a₁ + 1#w) = ascii 'u') ∧
          text src.mem (a₁ + 1#w + 1#w) 4 = [ascii 'D', ascii 'C', ascii '0', ascii '0']) := by
  rcases hend with rfl | rfl
  · have hstop := h.eq_stop_iff.mpr rfl
    subst hstop
    refine ⟨2, by decide, le_rfl, add_ofNat_ofNat _ 1 1, fun hbehind => ?_⟩
    rw [List.length_nil, Nat.sub_zero, List.drop_zero, text_succ, text_succ] at hbehind
    obtain ⟨hfirst, hbehind⟩ := List.cons.inj hbehind
    obtain ⟨hsecond, hbehind⟩ := List.cons.inj hbehind
    exact ⟨⟨hfirst, hsecond⟩, hbehind⟩
  · obtain ⟨hmem, hrest⟩ := h.cons
    have hstop := hrest.eq_stop_iff.mpr rfl
    rw [hstop]
    refine ⟨1, by decide, by decide, rfl, fun hbehind => ?_⟩
    rw [List.length_singleton, text_succ] at hbehind
    obtain ⟨hsecond, hbehind⟩ := List.cons.inj hbehind
    exact ⟨⟨hmem, hsecond⟩, hbehind⟩

/-- At the end of the line an escape goes past the end, or leaves a backslash in front of it. -/
theorem backslashEscape_dangling (hw : 21 ≤ w) (host : Host w) (h : Rest src a t)
    (hdangling : dangling t = true) :
    ((∃ k ≤ 7, (backslashEscape host src a).1 = src.stop + BitVec.ofNat w k) ∨
        Rest src (backslashEscape host src a).1 [ascii '\\']) ∧
      (text src.mem src.stop (lowBehind t).length = lowBehind t →
        (∃ k ≤ 7, (backslashEscape host src a).1 = src.stop + BitVec.ofNat w k) ∧
          (backslashEscape host src a).2 =
            host.xchar (codePair (number 16 4 0 t.tail).1 0xDC00)) := by
  cases t with
  | nil => cases hdangling
  | cons c t =>
      rw [dangling, decide_eq_true_eq] at hdangling
      obtain ⟨rfl, hhigh, hend⟩ := hdangling
      have hlt := number_sixteen_lt t
      obtain ⟨a₁, hrest, hescape⟩ := backslashEscape_high hw host h hhigh
      obtain ⟨k, hpos, hk, hbehind, hlow⟩ := end_of_dangling hrest hend
      obtain ⟨j, hj, haddr, hvalue⟩ := parseNum_behind src hw hpos hk
      rw [← hbehind] at haddr hvalue
      rw [lowBehind, List.tail_cons, hescape, List.length_drop]
      refine ⟨?_, fun htext => ?_⟩
      · dsimp only
        split_ifs
        · exact .inl ⟨k + j, by omega, haddr⟩
        · exact .inl ⟨k + j, by omega, haddr⟩
        · rcases hend with hend | hend <;> rw [hend] at hrest
          · exact .inl ⟨0, by decide, by rw [hrest.eq_stop_iff.mpr rfl, BitVec.add_zero]⟩
          · exact .inr hrest
      · obtain ⟨hsecond, hdigits⟩ := hlow htext
        rw [hdigits] at hvalue
        have hnumber : (number 16 4 0 [ascii 'D', ascii 'C', ascii '0', ascii '0']).1 = 0xDC00 := by
          decide
        rw [hnumber] at hvalue
        rw [if_pos hsecond]
        dsimp only
        rw [hvalue, if_pos BitVec.and_self]
        refine ⟨⟨k + j, by omega, haddr⟩, ?_⟩
        dsimp only
        rw [codePair_ofNat hw hlt (show 0xDC00 < 0x10000 by decide)]
        rfl

/-! ## The loop -/

/-- The loop ends with this result, with as much fuel as it takes. -/
def Returns (host : Host w) (s : Parse w) (r : Result w) : Prop :=
  ∃ n, ∀ m, n ≤ m → parseLoop host m s = some r

/-- The loop gets to another state. -/
def Reaches (host : Host w) (s s' : Parse w) : Prop :=
  ∀ r, Returns host s' r → Returns host s r

variable {host : Host w} {s s' s'' : Parse w} {r r' : Result w}

/-- The parser returns one result. -/
theorem Returns.unique (h : Returns host s r) (h' : Returns host s r') : r = r' := by
  obtain ⟨n, hn⟩ := h
  obtain ⟨n', hn'⟩ := h'
  exact Option.some.inj ((hn _ (le_max_left n n')).symm.trans (hn' _ (le_max_right n n')))

/-- A step in front of the result -/
theorem Returns.of_step (h : ∀ m, parseLoop host (m + 1) s = some r) : Returns host s r := by
  refine ⟨1, fun m hm => ?_⟩
  obtain ⟨m, rfl⟩ := Nat.exists_eq_add_of_le' hm
  exact h m

/-- One step of the parser -/
theorem Reaches.of_step (h : ∀ m, parseLoop host (m + 1) s = parseLoop host m s') :
    Reaches host s s' := by
  rintro r ⟨n, hn⟩
  refine ⟨n + 1, fun m hm => ?_⟩
  obtain ⟨m, rfl⟩ := Nat.exists_eq_add_of_le' (le_trans (Nat.le_add_left 1 n) hm)
  rw [h, hn m (Nat.le_of_succ_le_succ hm)]

theorem Reaches.refl (host : Host w) (s : Parse w) : Reaches host s s :=
  fun _ hr => hr

theorem Reaches.trans (h : Reaches host s s') (h' : Reaches host s' s'') : Reaches host s s'' :=
  fun r hr => h r (h' r hr)

/-- The state behind some characters -/
def Parse.on (s : Parse w) (bs : List Byte) (p : BitVec w) : Parse w :=
  { s.comma bs with p := p }

theorem Parse.on_nil (s : Parse w) : s.on [] s.p = s := by
  simp [on, comma]

theorem Parse.on_on (s : Parse w) (bs bs' : List Byte) (p q : BitVec w) :
    (s.on bs p).on bs' q = s.on (bs ++ bs') q := by
  simp [on, comma, BitVec.ofNat_add, BitVec.add_assoc]

/-- The parse-area is the rest of the line. -/
structure InLine (s : Parse w) (t : List Byte) : Prop where
  stop : s.stop = s.source.stop
  rest : Rest s.source s.p t

theorem InLine.on (h : InLine s t) {t' : List Byte} (bs : List Byte)
    (hrest : Rest s.source p t') : InLine (s.on bs p) t' :=
  ⟨h.stop, hrest⟩

theorem InLine.refill (h : InLine s (c :: t)) : s.refill host = some s := by
  rw [Parse.refill, if_neg]
  rw [h.stop, h.rest.stop_le_iff]
  exact List.cons_ne_nil c t

/-- The quote ends the text. -/
theorem InLine.quote (h : InLine s (ascii '"' :: t)) :
    Returns host s (.returned s.finish) := by
  refine .of_step fun m => ?_
  rw [parseLoop, h.refill]
  dsimp only
  rw [if_pos h.rest.cons.1]

/-- A backslash at the end leaves the text unfinished. -/
theorem InLine.unfinished (h : InLine s [ascii '\\']) : Returns host s .unfinished := by
  refine .of_step fun m => ?_
  obtain ⟨hmem, hrest⟩ := h.rest.cons
  rw [parseLoop, h.refill]
  dsimp only
  rw [hmem, if_neg backslash_ne_quote, if_pos rfl, h.stop, if_pos (hrest.eq_stop_iff.mpr rfl)]

/-- An escape is translated. -/
theorem InLine.escape (host : Host w) (h : InLine s (ascii '\\' :: t)) (ht : t ≠ []) :
    Reaches host s (s.on (backslashEscape host s.source (s.p + 1#w)).2
      (backslashEscape host s.source (s.p + 1#w)).1) := by
  refine .of_step fun m => ?_
  obtain ⟨hmem, hrest⟩ := h.rest.cons
  rw [parseLoop, h.refill]
  dsimp only
  rw [hmem, if_neg backslash_ne_quote, if_pos rfl, h.stop, if_neg (mt hrest.eq_stop_iff.mp ht)]
  rfl

/-- Any other character is appended. -/
theorem InLine.other (h : InLine s (c :: t)) (hquote : c ≠ ascii '"')
    (hbackslash : c ≠ ascii '\\') : Reaches host s (s.on [c] (s.p + 1#w)) := by
  refine .of_step fun m => ?_
  rw [parseLoop, h.refill]
  dsimp only
  rw [h.rest.cons.1, if_neg hquote, if_neg hbackslash]
  rfl

/-- What the loop does in the rest of a line -/
def LineRun (host : Host w) (s : Parse w) (text : List Byte) : Ending → Prop
  | .quote left =>
      ∃ p t, t.length = left ∧ Rest s.source p (ascii '"' :: t) ∧ Reaches host s (s.on text p)
  | .unfinished => Returns host s .unfinished
  | .through => ∃ p, s.stop ≤ p ∧ Reaches host s (s.on text p)
  | .dangling =>
      Returns host s .unfinished ∨ ∃ bs p, s.stop ≤ p ∧ Reaches host s (s.on bs p)

/-- A step in front of the rest of a line -/
theorem LineRun.step {bs text : List Byte} {e : Ending} (hreaches : Reaches host s (s.on bs p))
    (h : LineRun host (s.on bs p) text e) : LineRun host s (bs ++ text) e := by
  cases e with
  | quote left =>
      obtain ⟨q, t, hleft, hrest, hrun⟩ := h
      rw [Parse.on_on] at hrun
      exact ⟨q, t, hleft, hrest, hreaches.trans hrun⟩
  | unfinished => exact hreaches _ h
  | through =>
      obtain ⟨q, hstop, hrun⟩ := h
      rw [Parse.on_on] at hrun
      exact ⟨q, hstop, hreaches.trans hrun⟩
  | dangling =>
      rcases h with h | ⟨bs', q, hstop, hrun⟩
      · exact .inl (hreaches _ h)
      · rw [Parse.on_on] at hrun
        exact .inr ⟨_, q, hstop, hreaches.trans hrun⟩

/-- The loop goes through the rest of a line. -/
theorem line_run (hw : 21 ≤ w) (host : Host w) (h : InLine s t) :
    LineRun host s (codeText host.xchar host.newline t) (ending t) := by
  induction t using line_induction generalizing s with
  | nil =>
      rw [codeText, ending]
      refine ⟨s.p, ?_, ?_⟩
      · rw [h.stop, h.rest.stop_le_iff]
      · rw [Parse.on_nil]
        exact .refl host s
  | quote t =>
      rw [codeText, ending, if_pos rfl, if_pos rfl]
      refine ⟨s.p, t, rfl, h.rest, ?_⟩
      rw [Parse.on_nil]
      exact .refl host s
  | backslash =>
      rw [ending, if_neg backslash_ne_quote, if_pos rfl, if_pos rfl]
      exact h.unfinished
  | escape t ht ih =>
      obtain ⟨hmem, hrest⟩ := h.rest.cons
      have hescape := h.escape host ht
      rw [ending_escape ht]
      cases hdangling : dangling t with
      | true =>
          rw [if_pos rfl]
          rcases (backslashEscape_dangling hw host hrest hdangling).1 with ⟨k, hk, hstop⟩ | hback
          · rw [hstop] at hescape
            exact .inr ⟨_, _, by rw [h.stop]; exact Source.stop_le_add _ hk, hescape⟩
          · exact .inl (hescape _ (h.on _ hback).unfinished)
      | false =>
          obtain ⟨p, heq, hrest'⟩ := backslashEscape_rest hw host hrest ht hdangling
          rw [heq] at hescape
          rw [codeText_escape host.xchar host.newline ht hdangling]
          exact (ih _ (codeRest_length_le t) (h.on _ hrest')).step hescape
  | other c t hquote hbackslash ih =>
      rw [codeText_other _ _ hquote hbackslash, ending_other hquote hbackslash]
      exact (ih (h.on [c] h.rest.cons.2)).step (h.other hquote hbackslash)

/-- With some characters behind it, the end of a line is not noticed. -/
theorem dangling_passes (hw : 21 ≤ w) (host : Host w) (hdangling : ending t = .dangling) :
    ∃ behind : List Byte, behind.length ≤ 6 ∧ ∀ s : Parse w, InLine s t →
      text s.source.mem s.source.stop behind.length = behind →
      ∃ p, s.stop ≤ p ∧ Reaches host s (s.on (codeText host.xchar host.newline t) p) := by
  induction t using line_induction with
  | nil =>
      rw [ending] at hdangling
      cases hdangling
  | quote t =>
      rw [ending, if_pos rfl] at hdangling
      cases hdangling
  | backslash =>
      rw [ending, if_neg backslash_ne_quote, if_pos rfl, if_pos rfl] at hdangling
      cases hdangling
  | escape t ht ih =>
      rw [ending_escape ht] at hdangling
      cases hend : dangling t with
      | true =>
          refine ⟨lowBehind t, ?_, fun s h hbehind => ?_⟩
          · rw [lowBehind, List.length_drop]
            exact Nat.sub_le _ _
          · obtain ⟨⟨k, hk, hstop⟩, htext⟩ :=
              (backslashEscape_dangling hw host h.rest.cons.2 hend).2 hbehind
            have hescape := h.escape host ht
            rw [codeText, if_neg backslash_ne_quote, if_pos rfl, if_neg ht, if_pos hend, ← htext]
            rw [hstop] at hescape
            exact ⟨_, by rw [h.stop]; exact Source.stop_le_add _ hk, hescape⟩
      | false =>
          rw [hend, if_neg (by decide)] at hdangling
          obtain ⟨behind, hlength, hpass⟩ := ih _ (codeRest_length_le t) hdangling
          refine ⟨behind, hlength, fun s h hbehind => ?_⟩
          obtain ⟨p, heq, hrest⟩ := backslashEscape_rest hw host h.rest.cons.2 ht hend
          have hescape := h.escape host ht
          rw [heq] at hescape
          obtain ⟨q, hstop, hrun⟩ := hpass _ (h.on _ hrest) hbehind
          rw [Parse.on_on] at hrun
          rw [codeText_escape host.xchar host.newline ht hend]
          exact ⟨q, hstop, hescape.trans hrun⟩
  | other c t hquote hbackslash ih =>
      rw [ending_other hquote hbackslash] at hdangling
      obtain ⟨behind, hlength, hpass⟩ := ih hdangling
      refine ⟨behind, hlength, fun s h hbehind => ?_⟩
      obtain ⟨q, hstop, hrun⟩ := hpass _ (h.on [c] h.rest.cons.2) hbehind
      rw [Parse.on_on] at hrun
      rw [codeText_other _ _ hquote hbackslash]
      exact ⟨q, hstop, (h.other hquote hbackslash).trans hrun⟩

end Quotes
end Gforth
