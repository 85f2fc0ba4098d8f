import Gforth.Characters.Encoding
import Gforth.Lib.Circles
import Mathlib.Data.Nat.Bitwise

/-!
# The two versions of u8@+

{lit}`u8@+` decodes byte by byte, with a marker bit that tells whether another byte follows, or calls
{lit}`u8@+?`.

Main results:

- Theorem {lit}`u8FetchPlus_agrees_iff`: both versions do the same except for the first bytes
  {lit}`$C0` and {lit}`$C1`, which only one of them refuses.
-/

namespace Gforth
namespace Characters

open Lib
open Memory
open Utf8
open Numbers

variable {w : Nat}

/-- The loop of {lit}`u8@+`, with the character and the marker bit -/
def u8FetchLoop (mem : Chars w) (u8addr u marker : BitVec w) : BitVec w × BitVec w :=
  if u &&& marker &&& (if marker < 0x100000#w then BitVec.allOnes w else 0#w) ≠ 0#w then
    let c := (mem u8addr).setWidth w
    if c &&& 0xC0#w ≠ 0x80#w then (u8addr + 1#w - 1#w, 0xFFFD#w)
    else u8FetchLoop mem (u8addr + 1#w) ((c &&& 0x3F#w) ||| (u ^^^ marker) <<< 6) (marker <<< 5)
  else (u8addr, if 0x10FFFF#w < u then 0xFFFD#w else u)
termination_by marker.reverse.toNat
decreasing_by
  refine reverse_shiftLeft_lt (by decide) fun hzero => ?_
  have hmarked : u &&& marker &&& (if marker < 0x100000#w then BitVec.allOnes w else 0#w) ≠ 0#w := by
    assumption
  rw [hzero, BitVec.and_zero, BitVec.zero_and] at hmarked
  exact hmarked rfl

/-- {lit}`u8@+` without {lit}`u8@+?` -/
def u8FetchPlus (mem : Chars w) (u8addr : BitVec w) : BitVec w × BitVec w :=
  let c := (mem u8addr).setWidth w
  if c < 0x80#w then (u8addr + 1#w, c)
  else if c < 0xC2#w then (u8addr + 1#w, 0xFFFD#w)
  else u8FetchLoop mem (u8addr + 1#w) (c &&& 0x7F#w) 0x40#w

/-- {lit}`4 u8@+? nip` -/
def u8FetchPlusPrim (order : ByteOrder) (mem : Chars w) (u8addr : BitVec w) : BitVec w × BitVec w :=
  let r := u8FetchPlusQuery order mem ⟨u8addr, 4#w⟩
  (r.1.addr, r.2)

/-! ## The loop -/

section

variable (hw : 22 ≤ w) (mem : Chars w) (a : BitVec w)
include hw

theorem toNat_ofNat_marker {n : Nat} (h : n < 0x400000) : (BitVec.ofNat w n).toNat = n := by
  have hpow : 2 ^ 22 ≤ 2 ^ w := Nat.pow_le_pow_right (by decide) hw
  rw [BitVec.toNat_ofNat, Nat.mod_eq_of_lt (by omega)]

/-- A byte that is extended to a cell is tested in the same way. -/
theorem continuation_setWidth_iff (b : Byte) :
    b.setWidth w &&& 0xC0#w = 0x80#w ↔ Continuation b := by
  rw [Continuation, ← BitVec.toNat_inj, ← BitVec.toNat_inj, BitVec.toNat_and, BitVec.toNat_and,
    BitVec.toNat_setWidth_of_le (by omega), toNat_ofNat_marker hw (by decide),
    toNat_ofNat_marker hw (by decide)]
  rfl

/-- The marker bit is not set, or there have been enough bytes. -/
theorem u8FetchLoop_stop {n k : Nat} (hn : n < 0x400000) (hk : k < 22)
    (h : n < 2 ^ k ∨ 0x100000 ≤ 2 ^ k) :
    u8FetchLoop mem a (BitVec.ofNat w n) (BitVec.ofNat w (2 ^ k)) =
      (a, BitVec.ofNat w (clip n)) := by
  have hpow : 2 ^ k < 0x400000 := Nat.pow_lt_pow_right (by decide) hk
  have hmarker := toNat_ofNat_marker hw hpow
  have hvalue : (if 0x10FFFF#w < BitVec.ofNat w n then 0xFFFD#w else BitVec.ofNat w n) =
      BitVec.ofNat w (clip n) := by
    rw [clip, lastCodePoint, apply_ite (BitVec.ofNat w)]
    simp only [BitVec.lt_def, toNat_ofNat_marker hw hn, toNat_ofNat_marker hw (show 0x10FFFF < _ by decide)]
  rw [u8FetchLoop, if_neg, hvalue]
  rw [ne_eq, not_not]
  rcases h with h | h
  · have hclear : BitVec.ofNat w n &&& BitVec.ofNat w (2 ^ k) = 0#w := by
      refine BitVec.eq_of_toNat_eq ?_
      rw [BitVec.toNat_and, toNat_ofNat_marker hw hn, hmarker, Nat.and_two_pow,
        Nat.testBit_lt_two_pow h, Bool.toNat_false, Nat.zero_mul, BitVec.toNat_zero]
    rw [hclear, BitVec.zero_and]
  · rw [if_neg, BitVec.and_zero]
    rw [BitVec.lt_def, hmarker, toNat_ofNat_marker hw (by decide)]
    omega

/-- The marker bit is set. -/
theorem u8FetchLoop_go {m k : Nat} (hm : m < 2 ^ k) (hk : k < 17) :
    u8FetchLoop mem a (BitVec.ofNat w (m + 2 ^ k)) (BitVec.ofNat w (2 ^ k)) =
      if Continuation (mem a) then
        u8FetchLoop mem (a + 1#w) (BitVec.ofNat w (m * 0x40 + (mem a).toNat % 0x40))
          (BitVec.ofNat w (2 ^ (k + 5)))
      else (a, 0xFFFD#w) := by
  have hpow : 2 ^ k ≤ 0x10000 := Nat.pow_le_pow_right (by decide) (show k ≤ 16 by omega)
  have hmarker := toNat_ofNat_marker hw (n := 2 ^ k) (by omega)
  have hchar := toNat_ofNat_marker hw (n := m + 2 ^ k) (by omega)
  have hset : BitVec.ofNat w (m + 2 ^ k) &&& BitVec.ofNat w (2 ^ k) ≠ 0#w := by
    intro hzero
    have hval := congrArg BitVec.toNat hzero
    rw [BitVec.toNat_and, hchar, hmarker, Nat.and_two_pow, Nat.add_comm, Nat.testBit_two_pow_add_eq,
      Nat.testBit_lt_two_pow hm, BitVec.toNat_zero] at hval
    have hpos := Nat.two_pow_pos k
    simp at hval
  have hbefore : BitVec.ofNat w (2 ^ k) < 0x100000#w := by
    rw [BitVec.lt_def, hmarker, toNat_ofNat_marker hw (by decide)]
    omega
  have hcleared : BitVec.ofNat w (m + 2 ^ k) ^^^ BitVec.ofNat w (2 ^ k) = BitVec.ofNat w m := by
    refine BitVec.eq_of_toNat_eq ?_
    rw [BitVec.toNat_xor, hchar, hmarker, ← xor_two_pow hm, Nat.xor_assoc, Nat.xor_self, Nat.xor_zero,
      toNat_ofNat_marker hw (by omega)]
  have hnext : (((mem a).setWidth w &&& 0x3F#w) ||| BitVec.ofNat w m <<< 6) =
      BitVec.ofNat w (m * 0x40 + (mem a).toNat % 0x40) := by
    have hlow : (mem a).toNat % 0x40 < 2 ^ 6 := Nat.mod_lt _ (by decide)
    have hmod : (mem a).toNat &&& 0x3F = (mem a).toNat % 0x40 := Nat.and_two_pow_sub_one_eq_mod _ 6
    refine BitVec.eq_of_toNat_eq ?_
    rw [ofNat_shiftLeft, BitVec.toNat_or, BitVec.toNat_and, BitVec.toNat_setWidth_of_le (by omega),
      toNat_ofNat_marker hw (by decide), toNat_ofNat_marker hw (by omega),
      toNat_ofNat_marker hw (by omega), hmod, Nat.or_comm, Nat.mul_comm,
      ← Nat.two_pow_add_eq_or_of_lt hlow, Nat.mul_comm]
  have hshift : BitVec.ofNat w (2 ^ k) <<< 5 = BitVec.ofNat w (2 ^ (k + 5)) := by
    rw [ofNat_shiftLeft, ← Nat.pow_add]
  rw [u8FetchLoop, if_pos hbefore, BitVec.and_allOnes, if_pos hset, hcleared]
  simp only [ne_eq, continuation_setWidth_iff hw, ite_not, hnext, hshift, BitVec.add_sub_cancel]

end

/-! ## Agreement -/

theorem text_four (mem : Chars w) (a : BitVec w) : text mem a 4 =
    [mem a, mem (a + 1#w), mem (a + 1#w + 1#w), mem (a + 1#w + 1#w + 1#w)] :=
  rfl

/-- What {lit}`utf8_fetch_plus` decodes from four bytes, of which the first one announces more -/
theorem decodeText_four {b : Byte} (h : 0xC2 ≤ b.toNat) (c1 c2 c3 : Byte) :
    decodeText [b, c1, c2, c3] =
      if ¬Continuation c1 then (1, 0xFFFD)
      else if b.toNat < 0xE0 then (2, clip ((b.toNat - 0xC0) * 0x40 + c1.toNat % 0x40))
      else if ¬Continuation c2 then (2, 0xFFFD)
      else if b.toNat < 0xF0 then
        (3, clip (((b.toNat - 0xE0) * 0x40 + c1.toNat % 0x40) * 0x40 + c2.toNat % 0x40))
      else if ¬Continuation c3 then (3, 0xFFFD)
      else (4, clip ((((b.toNat - 0xF0) * 0x40 + c1.toNat % 0x40) * 0x40 + c2.toNat % 0x40) * 0x40 +
        c3.toNat % 0x40)) := by
  have hlt := b.isLt
  have hfirst : ¬Continuation b := by
    rw [continuation_iff]
    omega
  by_cases htwo : b.toNat < 0xE0
  · have hannounced : announced b = 2 := by rw [announced, if_neg (by omega), if_pos htwo]
    have hpayload : payload b = b.toNat - 0xC0 := by
      rw [payload, if_neg (by omega), if_pos htwo]
      omega
    have hstarts : Starts b := ⟨hfirst, by omega⟩
    by_cases hc1 : Continuation c1 <;>
      simp [decodeText, continued, hannounced, codeOf, hpayload, hc1, htwo, hstarts]
  by_cases hthree : b.toNat < 0xF0
  · have hannounced : announced b = 3 := by
      rw [announced, if_neg (by omega), if_neg htwo, if_pos hthree]
    have hpayload : payload b = b.toNat - 0xE0 := by
      rw [payload, if_neg (by omega), if_neg htwo, if_pos hthree]
      omega
    have hstarts : Starts b := ⟨hfirst, by omega⟩
    by_cases hc1 : Continuation c1 <;> by_cases hc2 : Continuation c2 <;>
      simp [decodeText, continued, hannounced, codeOf, hpayload, hc1, hc2, htwo, hthree, hstarts]
  · have hannounced : announced b = 4 := by
      rw [announced, if_neg (by omega), if_neg htwo, if_neg hthree]
    -- Beyond these first bytes all codes are too large.
    have hcode : (if Starts b then clip (codeOf b [c1, c2, c3]) else 0xFFFD) =
        clip ((((b.toNat - 0xF0) * 0x40 + c1.toNat % 0x40) * 0x40 + c2.toNat % 0x40) * 0x40 +
          c3.toNat % 0x40) := by
      by_cases hstarts : Starts b
      · have hpayload : payload b = b.toNat - 0xF0 := by
          have := hstarts.2
          rw [payload, if_neg (by omega), if_neg htwo, if_neg hthree]
          omega
        rw [if_pos hstarts, codeOf, hpayload]
        rfl
      · have hlarge : 0xF8 ≤ b.toNat := by
          by_contra hsmall
          exact hstarts ⟨hfirst, by omega⟩
        rw [if_neg hstarts, clip, if_pos]
        rw [lastCodePoint]
        omega
    rw [← hcode]
    by_cases hc1 : Continuation c1 <;> by_cases hc2 : Continuation c2 <;>
      by_cases hc3 : Continuation c3 <;>
      simp [decodeText, continued, hannounced, hc1, hc2, hc3, htwo, hthree]

/-- Behind the first bytes that it refuses, the loop decodes like {lit}`utf8_fetch_plus`. -/
theorem u8FetchLoop_eq (hw : 22 ≤ w) (mem : Chars w) (a : BitVec w) (h : 0xC2 ≤ (mem a).toNat) :
    u8FetchLoop mem (a + 1#w) ((mem a).setWidth w &&& 0x7F#w) 0x40#w =
      (a + BitVec.ofNat w (decodeText (text mem a 4)).1,
        BitVec.ofNat w (decodeText (text mem a 4)).2) := by
  have hlt := (mem a).isLt
  have hfirst : (mem a).setWidth w &&& 0x7F#w = BitVec.ofNat w ((mem a).toNat - 0xC0 + 2 ^ 6) := by
    have hmod : (mem a).toNat &&& 0x7F = (mem a).toNat % 0x80 := Nat.and_two_pow_sub_one_eq_mod _ 7
    refine BitVec.eq_of_toNat_eq ?_
    rw [BitVec.toNat_and, BitVec.toNat_setWidth_of_le (by omega), toNat_ofNat_marker hw (by decide),
      hmod, toNat_ofNat_marker hw (by omega)]
    omega
  have hnext : ∀ n : Nat, a + BitVec.ofNat w n + 1#w = a + BitVec.ofNat w (n + 1) := fun n =>
    add_ofNat_ofNat a n 1
  have hmod : ∀ b : Byte, b.toNat % 0x40 < 0x40 := fun b => Nat.mod_lt _ (by decide)
  have hc1 := hmod (mem (a + 1#w))
  have hc2 := hmod (mem (a + 1#w + 1#w))
  have hc3 := hmod (mem (a + 1#w + 1#w + 1#w))
  have hcells : a + 1#w + 1#w = a + 2#w ∧ a + 1#w + 1#w + 1#w = a + 3#w ∧
      a + 1#w + 1#w + 1#w + 1#w = a + 4#w := by
    refine ⟨?_, ?_, ?_⟩ <;> simp only [BitVec.add_assoc, ← BitVec.ofNat_add]
  rw [text_four, decodeText_four h, hfirst, show 0x40#w = BitVec.ofNat w (2 ^ 6) from rfl,
    u8FetchLoop_go hw mem _ (by omega) (by decide)]
  by_cases hgo1 : Continuation (mem (a + 1#w))
  · rw [if_pos hgo1, if_neg (not_not.mpr hgo1)]
    by_cases htwo : (mem a).toNat < 0xE0
    · rw [if_pos htwo, u8FetchLoop_stop hw mem _ (by omega) (by decide) (.inl (by omega)), hcells.1]
    · -- The next marker bit was in the first byte.
      have hmarked : ((mem a).toNat - 0xC0) * 0x40 + (mem (a + 1#w)).toNat % 0x40 =
          ((mem a).toNat - 0xE0) * 0x40 + (mem (a + 1#w)).toNat % 0x40 + 2 ^ (6 + 5) := by omega
      rw [if_neg htwo, hmarked, u8FetchLoop_go hw mem _ (by omega) (by decide)]
      by_cases hgo2 : Continuation (mem (a + 1#w + 1#w))
      · rw [if_pos hgo2, if_neg (not_not.mpr hgo2)]
        by_cases hthree : (mem a).toNat < 0xF0
        · rw [if_pos hthree, u8FetchLoop_stop hw mem _ (by omega) (by decide) (.inl (by omega)),
            hcells.2.1]
        · have hmarked : (((mem a).toNat - 0xE0) * 0x40 + (mem (a + 1#w)).toNat % 0x40) * 0x40 +
              (mem (a + 1#w + 1#w)).toNat % 0x40 =
              (((mem a).toNat - 0xF0) * 0x40 + (mem (a + 1#w)).toNat % 0x40) * 0x40 +
                (mem (a + 1#w + 1#w)).toNat % 0x40 + 2 ^ (6 + 5 + 5) := by omega
          rw [if_neg hthree, hmarked, u8FetchLoop_go hw mem _ (by omega) (by decide)]
          by_cases hgo3 : Continuation (mem (a + 1#w + 1#w + 1#w))
          · rw [if_pos hgo3, if_neg (not_not.mpr hgo3),
              u8FetchLoop_stop hw mem _ (by omega) (by decide) (.inr (by decide)), hcells.2.2]
          · rw [if_neg hgo3, if_pos hgo3, hcells.2.1]
      · rw [if_neg hgo2, if_pos hgo2, hcells.1]
  · rw [if_neg hgo1, if_pos hgo1]

/-- Both versions do the same unless the first byte is one that only {lit}`u8@+` refuses. -/
theorem u8FetchPlus_agrees_iff (hw : 22 ≤ w) (order : ByteOrder) (mem : Chars w) (u8addr : BitVec w) :
    u8FetchPlus mem u8addr = u8FetchPlusPrim order mem u8addr ↔
      ¬((mem u8addr = 0xC0#8 ∨ mem u8addr = 0xC1#8) ∧ Continuation (mem (u8addr + 1#w))) := by
  have hprim : u8FetchPlusPrim order mem u8addr =
      (u8addr + BitVec.ofNat w (decodeText (text mem u8addr 4)).1,
        BitVec.ofNat w (decodeText (text mem u8addr 4)).2) := by
    rw [u8FetchPlusPrim, u8FetchPlusQuery_eq, Str.chars, toNat_ofNat_marker hw (by decide)]
    rfl
  have hlt := (mem u8addr).isLt
  have hchar : ((mem u8addr).setWidth w).toNat = (mem u8addr).toNat :=
    BitVec.toNat_setWidth_of_le (by omega)
  have hbyte : ∀ {n : Nat}, n < 0x100 → (mem u8addr = BitVec.ofNat 8 n ↔ (mem u8addr).toNat = n) := by
    intro n hn
    rw [← BitVec.toNat_inj, BitVec.toNat_ofNat, Nat.mod_eq_of_lt hn]
  rw [hprim, u8FetchPlus, hbyte (by decide), hbyte (by decide)]
  simp only [BitVec.lt_def, hchar, toNat_ofNat_marker hw (show 0x80 < 0x400000 by decide),
    toNat_ofNat_marker hw (show 0xC2 < 0x400000 by decide)]
  by_cases hascii : (mem u8addr).toNat < 0x80
  · have hlead : lead 0 (mem u8addr).toNat = mem u8addr :=
      BitVec.eq_of_toNat_eq (by rw [toNat_lead (by omega), Nat.zero_add])
    have hdecode := decodeText_encode (n := (mem u8addr).toNat) (by rw [lastCodePoint]; omega)
      (text mem (u8addr + 1#w) 3)
    rw [encode, size, if_pos hascii, if_pos hascii, hlead] at hdecode
    rw [if_pos hascii, text_succ, ← List.singleton_append, hdecode, BitVec.ofNat_toNat]
    exact iff_of_true rfl fun h => by omega
  by_cases hmalformed : (mem u8addr).toNat < 0xC2
  · rw [if_neg hascii, if_pos hmalformed, text_succ]
    by_cases hstray : (mem u8addr).toNat < 0xC0
    · have hfirst : Continuation (mem u8addr) := continuation_iff.mpr (by omega)
      have hdecode : decodeText (mem u8addr :: text mem (u8addr + 1#w) 3) = (1, 0xFFFD) := by
        simp [decodeText, continued, announced, hstray, Starts, hfirst]
      rw [hdecode]
      exact iff_of_true rfl fun h => by omega
    · have hannounced : announced (mem u8addr) = 2 := by
        rw [announced, if_neg hstray, if_pos (by omega)]
      rw [text_succ]
      by_cases hgo : Continuation (mem (u8addr + 1#w))
      · refine iff_of_false (fun h => ?_) fun h => h ⟨by omega, hgo⟩
        have hlen : (decodeText (mem u8addr :: mem (u8addr + 1#w) ::
            text mem (u8addr + 1#w + 1#w) 2)).1 = 2 := by
          simp [decodeText, continued, hannounced, hgo]
        have haddr := (BitVec.add_right_inj _).mp (congrArg Prod.fst h)
        rw [hlen] at haddr
        have hval := congrArg BitVec.toNat haddr
        rw [toNat_ofNat_marker hw (by decide), toNat_ofNat_marker hw (by decide)] at hval
        omega
      · have hdecode : decodeText (mem u8addr :: mem (u8addr + 1#w) ::
            text mem (u8addr + 1#w + 1#w) 2) = (1, 0xFFFD) := by
          simp [decodeText, continued, hannounced, hgo]
        rw [hdecode]
        exact iff_of_true rfl fun h => hgo h.2
  · rw [if_neg hascii, if_neg hmalformed, u8FetchLoop_eq hw mem u8addr (by omega)]
    exact iff_of_true rfl fun h => by omega

/-- A character in three bytes -/
theorem u8FetchPlus_agrees_three :
    u8FetchPlus (fun a => [0xE2#8, 0x82#8, 0xAC#8].getD a.toNat 0#8) 0#64 =
      u8FetchPlusPrim .little (fun a => [0xE2#8, 0x82#8, 0xAC#8].getD a.toNat 0#8) 0#64 :=
  (u8FetchPlus_agrees_iff (by decide) .little
    (fun a => [0xE2#8, 0x82#8, 0xAC#8].getD a.toNat 0#8) 0#64).mpr (by decide)

/-- The number 0 in two bytes is refused by one version only. -/
theorem u8FetchPlus_disagrees :
    u8FetchPlus (fun a => [0xC0#8, 0x80#8].getD a.toNat 0#8) 0#64 ≠
      u8FetchPlusPrim .little (fun a => [0xC0#8, 0x80#8].getD a.toNat 0#8) 0#64 := by
  decide

end Characters
end Gforth
