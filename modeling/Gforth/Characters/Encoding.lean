import Gforth.Characters.Decoding
import Mathlib.Data.List.TakeWhile

/-!
# Encoding and decoding

The words of {lit}`utf-8.fs` that store a code point and that step over characters in both
directions.

Main results:

- Theorem {lit}`u8len_eq`, {lit}`u8StorePlus_eq`: the length and the bytes of a code point.
- Theorem {lit}`decodeText_encode`: a code point is decoded from its bytes.
- Theorem {lit}`round_trip`: code points that are stored one after another are read back.
-/

namespace Gforth
namespace Characters

open Lib
open Memory
open Utf8
open Numbers

variable {w : Nat}

/-! ## The words -/

variable {n : Nat}

/-- A word that is shifted to the left gets smaller in the other direction. -/
theorem reverse_shiftLeft_lt {x : BitVec w} (hn : 0 < n) (h : x ≠ 0#w) :
    (x <<< n).reverse.toNat < x.reverse.toNat := by
  have hreverse : (x <<< n).reverse = x.reverse >>> n := by
    refine BitVec.eq_of_getLsbD_eq fun i hi => ?_
    rw [BitVec.getLsbD_reverse, BitVec.getLsbD_ushiftRight, BitVec.getLsbD_reverse,
      BitVec.getMsbD_shiftLeft, Nat.add_comm]
  have hne : x.reverse.toNat ≠ 0 := by
    intro hzero
    have hx : x.reverse = 0#w := BitVec.eq_of_toNat_eq (by rw [hzero, BitVec.toNat_zero])
    refine h ?_
    rw [← BitVec.reverse_reverse_eq (x := x), hx]
    simp
  rw [hreverse, BitVec.toNat_ushiftRight, Nat.shiftRight_eq_div_pow]
  exact Nat.div_lt_self (Nat.pos_of_ne_zero hne) (Nat.one_lt_two_pow hn.ne')

/-- The loop of {lit}`u8len`, with the limit and the length -/
def u8lenLoop (u8 limit n : BitVec w) : BitVec w :=
  if limit ≤ u8 then
    if _h : limit <<< 5 = 0#w then n + 1#w else u8lenLoop u8 (limit <<< 5) (n + 1#w)
  else n
termination_by limit.reverse.toNat
decreasing_by
  refine reverse_shiftLeft_lt (by decide) fun hzero => _h ?_
  rw [hzero, BitVec.zero_shiftLeft]

/-- {lit}`u8len` -/
def u8len (u8 : BitVec w) : BitVec w :=
  if u8 < 0x80#w then 1#w else u8lenLoop u8 0x800#w 2#w

/-- The first loop of {lit}`u8!+`, which pushes the bytes behind the first one; it leaves the first
byte on top of them. -/
def u8Split (u mask : BitVec w) (cs : List (BitVec w)) : List (BitVec w) :=
  if mask < u then u8Split (u >>> 6) (mask.sshiftRight 1) (((u &&& 0x3F#w) ||| 0x80#w) :: cs)
  else (u ||| (mask ^^^ 0x7F#w) <<< 1) :: cs
termination_by u.toNat
decreasing_by
  rw [BitVec.toNat_ushiftRight, Nat.shiftRight_eq_div_pow]
  have hlt : mask.toNat < u.toNat := by assumption
  omega

/-- The second loop of {lit}`u8!+`, which stores what is on the stack down to the zero -/
def u8StoreBytes (mem : Chars w) (u8addr : BitVec w) : List (BitVec w) → Chars w × BitVec w
  | [] => (mem, u8addr)
  | c :: cs =>
      if 0x80#w ≤ c then
        u8StoreBytes (Function.update mem u8addr (c.setWidth 8)) (u8addr + 1#w) cs
      else (mem, u8addr)

/-- {lit}`u8!+` -/
def u8StorePlus (mem : Chars w) (u u8addr : BitVec w) : Chars w × BitVec w :=
  if u < 0x80#w then (Function.update mem u8addr (u.setWidth 8), u8addr + 1#w)
  else u8StoreBytes mem u8addr (u8Split u 0x3F#w [0#w])

/-- {lit}`u8!+?` -/
def u8StorePlusQuery (mem : Chars w) (xc : BitVec w) (s : Str w) : Chars w × Str w × Bool :=
  if s.len < u8len xc then (mem, s, false)
  else
    let r := u8StorePlus mem xc s.addr
    (r.1, ⟨r.2, s.len - u8len xc⟩, true)

/-- {lit}`u8addrlen` -/
def u8addrlen (order : ByteOrder) (mem : Chars w) (s : Str w) : BitVec w :=
  s.len - (u8FetchPlusQuery order mem s).1.len

/-- {lit}`u8<<`, which stops within some number of steps -/
def u8LessLess (mem : Chars w) : Nat → BitVec w → Option (BitVec w)
  | 0, _ => none
  | fuel + 1, u8addr =>
      if Continuation (mem (u8addr - 1#w)) then u8LessLess mem fuel (u8addr - 1#w)
      else some (u8addr - 1#w)

/-- The length that {lit}`u8\string-` leaves -/
def u8StringMinus (mem : Chars w) (xcaddr : BitVec w) : Nat → Nat
  | 0 => 0
  | u + 1 =>
      if Continuation (mem (xcaddr + BitVec.ofNat w u)) then u8StringMinus mem xcaddr u else u

/-! ## The length and the bytes of a code point -/

theorem ofNat_shiftLeft (n k : Nat) : BitVec.ofNat w n <<< k = BitVec.ofNat w (n * 2 ^ k) := by
  refine BitVec.eq_of_toNat_eq ?_
  rw [BitVec.toNat_shiftLeft, BitVec.toNat_ofNat, BitVec.toNat_ofNat, Nat.shiftLeft_eq,
    Nat.mod_mul_mod]

theorem toNat_ofNat_small (hw : 21 ≤ w) (h : n < 0x200000) : (BitVec.ofNat w n).toNat = n := by
  have hpow : 2 ^ 21 ≤ 2 ^ w := Nat.pow_le_pow_right (by decide) hw
  rw [BitVec.toNat_ofNat, Nat.mod_eq_of_lt (by omega)]

/-- {lit}`u8len` is the length of the encoding. -/
theorem u8len_eq (hw : 21 ≤ w) {xc : BitVec w} (h : xc.toNat ≤ lastCodePoint) :
    u8len xc = BitVec.ofNat w (size xc.toNat) := by
  have hle : ∀ {n : Nat}, n < 0x200000 → (BitVec.ofNat w n ≤ xc ↔ n ≤ xc.toNat) := fun hn => by
    rw [BitVec.le_def, toNat_ofNat_small hw hn]
  have hone : ∀ n : Nat, BitVec.ofNat w n + 1#w = BitVec.ofNat w (n + 1) := fun n =>
    (BitVec.ofNat_add n 1).symm
  have hshift : 0x800#w <<< 5 = 0x10000#w := ofNat_shiftLeft 0x800 5
  have hne : ¬BitVec.ofNat w 0x10000 = 0#w := fun hzero => by
    have := toNat_ofNat_small hw (n := 0x10000) (by decide)
    rw [hzero, BitVec.toNat_zero] at this
    omega
  rw [lastCodePoint] at h
  rw [u8len, size]
  by_cases hascii : xc.toNat < 0x80
  · rw [if_pos hascii, if_pos]
    rw [BitVec.lt_def, toNat_ofNat_small hw (by decide)]
    exact hascii
  · rw [if_neg hascii, if_neg (fun hlt => hascii (by
      rwa [BitVec.lt_def, toNat_ofNat_small hw (by decide)] at hlt)), u8lenLoop]
    by_cases htwo : xc.toNat < 0x800
    · rw [if_neg (fun hlimit => by have := (hle (by decide)).mp hlimit; omega), if_pos htwo]
    · rw [if_pos ((hle (by decide)).mpr (by omega)), if_neg htwo, hshift, dif_neg hne,
        u8lenLoop]
      by_cases hthree : xc.toNat < 0x10000
      · rw [if_neg (fun hlimit => by have := (hle (by decide)).mp hlimit; omega), if_pos hthree, hone]
      · rw [if_pos ((hle (by decide)).mpr (by omega)), if_neg hthree, hone, hone]
        split
        · rfl
        · -- In cells of 21 bits the limit is shifted out, in longer ones it is above all code points.
          rename_i hlimit
          have hwide : 22 ≤ w := by
            by_contra hnarrow
            obtain rfl : w = 21 := by omega
            exact hlimit (by decide)
          have hlast : (BitVec.ofNat w 0x10000 <<< 5).toNat = 0x200000 := by
            have hpow : 2 ^ 22 ≤ 2 ^ w := Nat.pow_le_pow_right (by decide) hwide
            rw [ofNat_shiftLeft, BitVec.toNat_ofNat]
            exact Nat.mod_eq_of_lt (by omega)
          rw [u8lenLoop, if_neg]
          rw [BitVec.le_def, hlast]
          omega

/-- A byte that {lit}`u8!+` pushes -/
theorem u8Split_step (hw : 21 ≤ w) {n m : Nat} {cs : List (BitVec w)} (hn : n < 0x200000)
    (hm : m < 0x80) (h : m < n) : u8Split (BitVec.ofNat w n) (BitVec.ofNat w m) cs =
      u8Split (BitVec.ofNat w (n / 0x40)) (BitVec.ofNat w (m / 2))
        (BitVec.ofNat w (0x80 + n % 0x40) :: cs) := by
  have hu := toNat_ofNat_small hw hn
  have hmask := toNat_ofNat_small hw (n := m) (by omega)
  have hrest : BitVec.ofNat w n >>> 6 = BitVec.ofNat w (n / 0x40) := by
    refine BitVec.eq_of_toNat_eq ?_
    rw [BitVec.toNat_ushiftRight, hu, Nat.shiftRight_eq_div_pow, toNat_ofNat_small hw (by omega)]
  have hhalf : (BitVec.ofNat w m).sshiftRight 1 = BitVec.ofNat w (m / 2) := by
    have hpow : 2 ^ 21 ≤ 2 ^ w := Nat.pow_le_pow_right (by decide) hw
    refine BitVec.eq_of_toNat_eq ?_
    rw [BitVec.sshiftRight_eq_of_msb_false, BitVec.toNat_ushiftRight, hmask,
      Nat.shiftRight_eq_div_pow, toNat_ofNat_small hw (by omega)]
    rw [BitVec.msb_eq_false_iff_two_mul_lt, hmask]
    omega
  have hbyte : (BitVec.ofNat w n &&& 0x3F#w) ||| 0x80#w = BitVec.ofNat w (0x80 + n % 0x40) := by
    have hlow : n % 0x40 < 2 ^ 6 := Nat.mod_lt _ (by decide)
    have hmod : n &&& 0x3F = n % 0x40 := Nat.and_two_pow_sub_one_eq_mod n 6
    have hor : n % 0x40 ||| 0x80 = 0x80 + n % 0x40 := by
      rw [Nat.or_comm]
      exact (Nat.two_pow_add_eq_or_of_lt hlow 2).symm
    refine BitVec.eq_of_toNat_eq ?_
    rw [BitVec.toNat_or, BitVec.toNat_and, hu, toNat_ofNat_small hw (by decide),
      toNat_ofNat_small hw (by decide), toNat_ofNat_small hw (by omega), hmod, hor]
  rw [u8Split, if_pos (by rwa [BitVec.lt_def, hu, hmask]), hrest, hhalf, hbyte]

/-- The first byte, with the bits of the mask that are left as zeros of its mark -/
theorem u8Split_stop (hw : 21 ≤ w) {n i : Nat} {cs : List (BitVec w)} (hi : i < 7) (h : n < 2 ^ i) :
    u8Split (BitVec.ofNat w n) (BitVec.ofNat w (2 ^ i - 1)) cs =
      BitVec.ofNat w (2 * (0x80 - 2 ^ i) + n) :: cs := by
  have hpow : 2 ^ i ≤ 0x40 := Nat.pow_le_pow_right (by decide) (show i ≤ 6 by omega)
  have hpos := Nat.two_pow_pos i
  have hu := toNat_ofNat_small hw (n := n) (by omega)
  have hmask := toNat_ofNat_small hw (n := 2 ^ i - 1) (by omega)
  have hxor : (2 ^ i - 1) ^^^ 0x7F = 0x80 - 2 ^ i := by
    interval_cases i <;> rfl
  have hmark : 2 * (0x80 - 2 ^ i) = 2 ^ i * (2 * (2 ^ (7 - i) - 1)) := by
    interval_cases i <;> rfl
  have hbyte : BitVec.ofNat w n ||| (BitVec.ofNat w (2 ^ i - 1) ^^^ 0x7F#w) <<< 1 =
      BitVec.ofNat w (2 * (0x80 - 2 ^ i) + n) := by
    have hflip : BitVec.ofNat w (2 ^ i - 1) ^^^ 0x7F#w = BitVec.ofNat w (0x80 - 2 ^ i) := by
      refine BitVec.eq_of_toNat_eq ?_
      rw [BitVec.toNat_xor, hmask, toNat_ofNat_small hw (by decide), hxor,
        toNat_ofNat_small hw (by omega)]
    refine BitVec.eq_of_toNat_eq ?_
    rw [hflip, ofNat_shiftLeft, BitVec.toNat_or, hu, toNat_ofNat_small hw (by omega),
      toNat_ofNat_small hw (by omega), Nat.pow_one, Nat.mul_comm _ 2, hmark,
      Nat.two_pow_add_eq_or_of_lt h, Nat.or_comm]
  rw [u8Split, if_neg, hbyte]
  rw [BitVec.lt_def, hu, hmask]
  omega

/-- A lead byte as a cell -/
theorem setWidth_lead (hw : 21 ≤ w) {mark n : Nat} (h : mark + n < 0x100) :
    (lead mark n).setWidth w = BitVec.ofNat w (mark + n) := by
  refine BitVec.eq_of_toNat_eq ?_
  rw [BitVec.toNat_setWidth_of_le (by omega), toNat_lead h, toNat_ofNat_small hw (by omega)]

/-- A continuation byte as a cell -/
theorem setWidth_continuation (hw : 21 ≤ w) (n : Nat) :
    (continuation n).setWidth w = BitVec.ofNat w (0x80 + n % 0x40) := by
  refine BitVec.eq_of_toNat_eq ?_
  rw [BitVec.toNat_setWidth_of_le (by omega), toNat_continuation, toNat_ofNat_small hw (by omega)]

/-- What {lit}`u8!+` pushes -/
theorem u8Split_eq (hw : 21 ≤ w) (hn : 0x80 ≤ n) (h : n ≤ lastCodePoint) :
    u8Split (BitVec.ofNat w n) 0x3F#w [0#w] =
      (encode n).map (fun b => b.setWidth w) ++ [0#w] := by
  rw [lastCodePoint] at h
  have hfirst := @u8Split_step _ hw n 0x3F [0#w] (by omega) (by decide) (by omega)
  rw [encode, if_neg (by omega), hfirst]
  by_cases htwo : n < 0x800
  · rw [if_pos htwo]
    simp only [List.map_cons, List.map_nil, setWidth_continuation hw]
    rw [setWidth_lead hw (by omega)]
    exact u8Split_stop hw (i := 5) (by decide) (by omega)
  · rw [if_neg htwo, u8Split_step hw (by omega) (by decide) (by omega)]
    by_cases hthree : n < 0x10000
    · rw [if_pos hthree]
      simp only [List.map_cons, List.map_nil, setWidth_continuation hw]
      rw [setWidth_lead hw (by omega), show n / 0x1000 = n / 0x40 / 0x40 by omega]
      exact u8Split_stop hw (i := 4) (by decide) (by omega)
    · rw [if_neg hthree, u8Split_step hw (by omega) (by decide) (by omega)]
      simp only [List.map_cons, List.map_nil, setWidth_continuation hw]
      rw [setWidth_lead hw (by omega), show n / 0x40000 = n / 0x40 / 0x40 / 0x40 by omega,
        show n / 0x1000 = n / 0x40 / 0x40 by omega]
      exact u8Split_stop hw (i := 3) (by decide) (by omega)

/-- The bytes down to the zero are stored. -/
theorem u8StoreBytes_eq (hw : 21 ≤ w) (mem : Chars w) (a : BitVec w) {t : List Byte}
    (hbytes : ∀ b ∈ t, 0x80 ≤ b.toNat) (hlen : t.length ≤ 4) :
    u8StoreBytes mem a (t.map (fun b => b.setWidth w) ++ [0#w]) =
      (store mem a t, a + BitVec.ofNat w t.length) := by
  have hmark := toNat_ofNat_small hw (n := 0x80) (by decide)
  induction t generalizing mem a with
  | nil =>
      rw [List.map_nil, List.nil_append, u8StoreBytes, if_neg, List.length_nil, store_nil,
        BitVec.add_zero]
      rw [BitVec.le_def, hmark, BitVec.toNat_zero]
      decide
  | cons b t ih =>
      have hpow := two_pow_le_of_le (show 8 ≤ w by omega)
      rw [List.length_cons] at hlen
      have hb : 0x80#w ≤ b.setWidth w := by
        rw [BitVec.le_def, hmark, BitVec.toNat_setWidth_of_le (by omega)]
        exact hbytes b List.mem_cons_self
      rw [List.map_cons, List.cons_append, u8StoreBytes, if_pos hb,
        ih _ _ (fun c hc => hbytes c (List.mem_cons_of_mem b hc)) (by omega),
        BitVec.setWidth_setWidth_of_le _ (by omega), BitVec.setWidth_eq,
        store_update mem (by omega), add_one_ofNat, List.length_cons]

/-- {lit}`u8!+` stores the encoding. -/
theorem u8StorePlus_eq (hw : 21 ≤ w) (mem : Chars w) (a : BitVec w) {u : BitVec w}
    (h : u.toNat ≤ lastCodePoint) :
    u8StorePlus mem u a =
      (store mem a (encode u.toNat), a + BitVec.ofNat w (size u.toNat)) := by
  have hmark := toNat_ofNat_small hw (n := 0x80) (by decide)
  rw [u8StorePlus]
  by_cases hascii : u.toNat < 0x80
  · have hbyte : lead 0 u.toNat = u.setWidth 8 := by
      refine BitVec.eq_of_toNat_eq ?_
      rw [toNat_lead (by omega), BitVec.toNat_setWidth, Nat.zero_add, Nat.mod_eq_of_lt (by omega)]
    rw [if_pos (by rwa [BitVec.lt_def, hmark]), encode, size, if_pos hascii, if_pos hascii, hbyte]
    rfl
  · have hsplit := u8Split_eq hw (n := u.toNat) (by omega) h
    rw [BitVec.ofNat_toNat, BitVec.setWidth_eq] at hsplit
    rw [if_neg (by rwa [BitVec.lt_def, hmark]), hsplit, u8StoreBytes_eq hw mem a
      (fun b hb => le_toNat_of_mem_encode (by omega) h hb) (by rw [length_encode]; exact size_le _),
      length_encode]

/-- {lit}`u8!+?` stores a code point if there is space for it. -/
theorem u8StorePlusQuery_eq (hw : 21 ≤ w) (mem : Chars w) (s : Str w) {xc : BitVec w}
    (h : xc.toNat ≤ lastCodePoint) :
    u8StorePlusQuery mem xc s =
      if size xc.toNat ≤ s.len.toNat then
        (store mem s.addr (encode xc.toNat), s.slashString (BitVec.ofNat w (size xc.toNat)), true)
      else (mem, s, false) := by
  have hsize := toNat_ofNat_small hw (n := size xc.toNat) ((size_le _).trans_lt (by decide))
  rw [u8StorePlusQuery, u8len_eq hw h, u8StorePlus_eq hw _ _ h]
  by_cases hfits : size xc.toNat ≤ s.len.toNat
  · rw [if_pos hfits, if_neg (by rw [BitVec.lt_def, hsize]; omega)]
    rfl
  · rw [if_neg hfits, if_pos (by rw [BitVec.lt_def, hsize]; omega)]

/-! ## Decoding -/

/-- A well-formed character -/
theorem decodeText_wellFormed {b : Byte} (hstarts : Starts b) (cs : List Byte)
    (hcs : ∀ c ∈ cs, Continuation c) (hlen : cs.length + 1 = announced b) (t : List Byte) :
    decodeText (b :: (cs ++ t)) = (announced b, clip (codeOf b cs)) := by
  have hcontinued : continued b (cs ++ t) = cs := by
    rw [continued, ← hlen, Nat.add_sub_cancel, List.take_left' rfl,
      List.takeWhile_eq_self_iff.mpr fun c hc => by simpa using hcs c hc]
  rw [decodeText, hcontinued, hlen]
  exact Prod.ext rfl (if_pos ⟨hstarts, rfl⟩)

theorem clip_of_le (h : n ≤ lastCodePoint) : clip n = n :=
  if_neg (Nat.not_lt.mpr h)

/-- What the marks of the first bytes say -/
theorem lead_spec {mark k m : Nat} (h : mark = 0 ∧ k = 1 ∧ m < 0x80 ∨ mark = 0xC0 ∧ k = 2 ∧ m < 0x20 ∨
    mark = 0xE0 ∧ k = 3 ∧ m < 0x10 ∨ mark = 0xF0 ∧ k = 4 ∧ m < 8) :
    Starts (lead mark m) ∧ announced (lead mark m) = k ∧ payload (lead mark m) = m := by
  have hlead : (lead mark m).toNat = mark + m := toNat_lead (by omega)
  rw [Starts, continuation_iff, announced, payload, hlead]
  rcases h with ⟨rfl, rfl, hm⟩ | ⟨rfl, rfl, hm⟩ | ⟨rfl, rfl, hm⟩ | ⟨rfl, rfl, hm⟩ <;>
    refine ⟨by omega, ?_, ?_⟩ <;> split_ifs <;> omega

/-- The first byte of an encoding announces its length. -/
theorem announced_encode (h : n ≤ lastCodePoint) {b : Byte} (hb : (encode n).head? = some b) :
    announced b = size n := by
  rw [lastCodePoint] at h
  rw [encode] at hb
  rw [size]
  split_ifs at hb ⊢ <;> obtain rfl := Option.some.inj hb
  · exact (lead_spec (by omega)).2.1
  · exact (lead_spec (by omega)).2.1
  · exact (lead_spec (by omega)).2.1
  · exact (lead_spec (by omega)).2.1

/-- A code point is decoded from its bytes, whatever is behind them. -/
theorem decodeText_encode (h : n ≤ lastCodePoint) (t : List Byte) :
    decodeText (encode n ++ t) = (size n, n) := by
  have hclip := clip_of_le h
  rw [lastCodePoint] at h
  have hcontinuation : ∀ m, Continuation (continuation m) := continuation_continuation
  rw [encode, size]
  split_ifs
  · obtain ⟨hstarts, hannounced, hpayload⟩ :=
      @lead_spec 0 1 n (by omega)
    have hdecode := decodeText_wellFormed hstarts [] (by simp) hannounced.symm t
    rwa [hannounced, codeOf, List.foldl_nil, hpayload, hclip] at hdecode
  · obtain ⟨hstarts, hannounced, hpayload⟩ :=
      @lead_spec 0xC0 2 (n / 0x40) (by omega)
    have hcode : codeOf (lead 0xC0 (n / 0x40)) [continuation n] = n := by
      simp only [codeOf, List.foldl_cons, List.foldl_nil, toNat_continuation, hpayload]
      omega
    have hdecode := decodeText_wellFormed hstarts [continuation n]
      (by simp [hcontinuation]) hannounced.symm t
    rwa [hannounced, hcode, hclip] at hdecode
  · obtain ⟨hstarts, hannounced, hpayload⟩ :=
      @lead_spec 0xE0 3 (n / 0x1000) (by omega)
    have hcode : codeOf (lead 0xE0 (n / 0x1000)) [continuation (n / 0x40), continuation n] = n := by
      simp only [codeOf, List.foldl_cons, List.foldl_nil, toNat_continuation, hpayload]
      omega
    have hdecode := decodeText_wellFormed hstarts [continuation (n / 0x40), continuation n]
      (by simp [hcontinuation]) hannounced.symm t
    rwa [hannounced, hcode, hclip] at hdecode
  · obtain ⟨hstarts, hannounced, hpayload⟩ :=
      @lead_spec 0xF0 4 (n / 0x40000) (by omega)
    have hcode : codeOf (lead 0xF0 (n / 0x40000))
        [continuation (n / 0x1000), continuation (n / 0x40), continuation n] = n := by
      simp only [codeOf, List.foldl_cons, List.foldl_nil, toNat_continuation, hpayload]
      omega
    have hdecode := decodeText_wellFormed hstarts
      [continuation (n / 0x1000), continuation (n / 0x40), continuation n]
      (by simp [hcontinuation]) hannounced.symm t
    rwa [hannounced, hcode, hclip] at hdecode

/-! ## Steps between characters -/

/-- The start of an encoded character in memory -/
theorem bytes_of_start {mem : Chars w} {p : BitVec w} {n k : Nat} (h : n ≤ lastCodePoint)
    (hk : 0 < k) (htext : text mem p k <+: encode n) :
    ¬Continuation (mem p) ∧ ∀ i, 0 < i → i < k → Continuation (mem (p + BitVec.ofNat w i)) := by
  obtain ⟨b, cs, hencode, hfirst, hrest⟩ := encode_eq_cons h
  obtain ⟨k, rfl⟩ := Nat.exists_eq_succ_of_ne_zero hk.ne'
  rw [hencode, text_succ, List.cons_prefix_cons] at htext
  refine ⟨htext.1 ▸ hfirst, fun i hpos hi => hrest _ (htext.2.subset ?_)⟩
  obtain ⟨j, rfl⟩ := Nat.exists_eq_succ_of_ne_zero hpos.ne'
  rw [mem_text]
  exact ⟨j, by omega, by rw [add_one_ofNat]⟩

/-- {lit}`u8<<` goes back to the first byte that does not continue a character. -/
theorem u8LessLess_eq {mem : Chars w} {p : BitVec w} {k : Nat} (hpos : 0 < k)
    (hfirst : ¬Continuation (mem p))
    (hrest : ∀ i, 0 < i → i < k → Continuation (mem (p + BitVec.ofNat w i))) {fuel : Nat}
    (hfuel : k ≤ fuel) : u8LessLess mem fuel (p + BitVec.ofNat w k) = some p := by
  induction k generalizing fuel with
  | zero => exact absurd hpos (Nat.lt_irrefl 0)
  | succ k ih =>
      obtain ⟨fuel, rfl⟩ := Nat.exists_eq_succ_of_ne_zero (show fuel ≠ 0 by omega)
      have hback : p + BitVec.ofNat w (k + 1) - 1#w = p + BitVec.ofNat w k := by
        rw [← add_ofNat_ofNat, BitVec.add_sub_cancel]
      rw [u8LessLess, hback]
      by_cases hk : k = 0
      · subst hk
        rw [BitVec.add_zero, if_neg hfirst]
      · rw [if_pos (hrest k (Nat.pos_of_ne_zero hk) (Nat.lt_succ_self k))]
        exact ih (Nat.pos_of_ne_zero hk) (fun i hi hik => hrest i hi (by omega)) (by omega)

/-- {lit}`u8\string-` takes the last character away. -/
theorem u8StringMinus_eq {mem : Chars w} {a : BitVec w} {m k : Nat} (hpos : 0 < k)
    (hfirst : ¬Continuation (mem (a + BitVec.ofNat w m)))
    (hrest : ∀ i, 0 < i → i < k →
      Continuation (mem (a + BitVec.ofNat w m + BitVec.ofNat w i))) :
    u8StringMinus mem a (m + k) = m := by
  induction k with
  | zero => exact absurd hpos (Nat.lt_irrefl 0)
  | succ k ih =>
      rw [← Nat.add_assoc, u8StringMinus]
      by_cases hk : k = 0
      · subst hk
        rw [Nat.add_zero, if_neg hfirst]
      · have hlast := hrest k (Nat.pos_of_ne_zero hk) (Nat.lt_succ_self k)
        rw [add_ofNat_ofNat] at hlast
        rw [if_pos hlast]
        exact ih (Nat.pos_of_ne_zero hk) (fun i hi hik => hrest i hi (by omega))

/-! ## Round trips -/

/-- Code points are stored one after another, and it is seen which ones were. -/
def u8StoreAll (mem : Chars w) (s : Str w) : List (BitVec w) → Chars w × Str w × List Bool
  | [] => (mem, s, [])
  | xc :: xcs =>
      let r := u8StorePlusQuery mem xc s
      let rest := u8StoreAll r.1 r.2.1 xcs
      (rest.1, rest.2.1, r.2.2 :: rest.2.2)

/-- The code points that were stored -/
def stored : List (BitVec w) → List Bool → List (BitVec w)
  | xc :: xcs, true :: fs => xc :: stored xcs fs
  | _ :: xcs, false :: fs => stored xcs fs
  | _, _ => []

/-- A text is read character by character. -/
def u8FetchAll (order : ByteOrder) (mem : Chars w) (s : Str w) : List (BitVec w) :=
  if _h : s.len = 0#w then []
  else
    let r := u8FetchPlusQuery order mem s
    r.2 :: u8FetchAll order mem r.1
termination_by s.len.toNat
decreasing_by
  have hstep := safeStep order mem _h
  have hprogress := hstep.progress
  have hbounded := hstep.bounded
  rw [hstep.rest, Str.toNat_len_slashString s (by omega)]
  omega

/-- The bytes that code points take -/
def u8lens (xcs : List (BitVec w)) : Nat :=
  (xcs.map fun xc => (u8len xc).toNat).sum

theorem u8lens_append {before behind : List (BitVec w)} :
    u8lens (before ++ behind) = u8lens before + u8lens behind := by
  rw [u8lens, List.map_append, List.sum_append]
  rfl

/-- {lit}`u8!+?` stores a whole character, or nothing if there is no space for it. -/
structure StoresWhole (mem : Chars w) (s : Str w) (xc : BitVec w) : Prop where
  noSpace : s.len < u8len xc → u8StorePlusQuery mem xc s = (mem, s, false)
  flag : ¬s.len < u8len xc → (u8StorePlusQuery mem xc s).2.2 = true
  rest : ¬s.len < u8len xc → (u8StorePlusQuery mem xc s).2.1 = s.slashString (u8len xc)
  unchanged : ∀ b, (∀ i < min (u8len xc).toNat s.len.toNat, b ≠ s.addr + BitVec.ofNat w i) →
    (u8StorePlusQuery mem xc s).1 b = mem b

/-- The steps at the character {lit}`xc`, which starts {lit}`offset` bytes behind {lit}`a` in a text
of {lit}`total` bytes -/
structure Steps (order : ByteOrder) (mem : Chars w) (a : BitVec w) (offset total : Nat)
    (xc : BitVec w) : Prop where
  fetch : u8FetchPlusQuery order mem ⟨a + BitVec.ofNat w offset, BitVec.ofNat w (total - offset)⟩ =
    (⟨a + BitVec.ofNat w (offset + (u8len xc).toNat),
      BitVec.ofNat w (total - (offset + (u8len xc).toNat))⟩, xc)
  addrlen : u8addrlen order mem ⟨a + BitVec.ofNat w offset, BitVec.ofNat w (total - offset)⟩ =
    u8len xc
  back : ∀ fuel, 4 ≤ fuel →
    u8LessLess mem fuel (a + BitVec.ofNat w (offset + (u8len xc).toNat)) =
      some (a + BitVec.ofNat w offset)
  stringMinus : u8StringMinus mem a (offset + (u8len xc).toNat) = offset

/-- Code points that are stored one after another are read back, and steps in both directions end at
their boundaries. -/
structure RoundTrip (order : ByteOrder) (mem : Chars w) (s : Str w) (xcs : List (BitVec w)) : Prop where
  fits : u8lens xcs ≤ s.len.toNat → stored xcs (u8StoreAll mem s xcs).2.2 = xcs
  unchanged : ∀ b, (∀ i < s.len.toNat, b ≠ s.addr + BitVec.ofNat w i) →
    (u8StoreAll mem s xcs).1 b = mem b
  space : u8lens (stored xcs (u8StoreAll mem s xcs).2.2) ≤ s.len.toNat
  rest : (u8StoreAll mem s xcs).2.1 =
    s.slashString (BitVec.ofNat w (u8lens (stored xcs (u8StoreAll mem s xcs).2.2)))
  reads : u8FetchAll order (u8StoreAll mem s xcs).1
      ⟨s.addr, BitVec.ofNat w (u8lens (stored xcs (u8StoreAll mem s xcs).2.2))⟩ =
    stored xcs (u8StoreAll mem s xcs).2.2
  steps : ∀ before xc behind, stored xcs (u8StoreAll mem s xcs).2.2 = before ++ xc :: behind →
    Steps order (u8StoreAll mem s xcs).1 s.addr (u8lens before)
      (u8lens (stored xcs (u8StoreAll mem s xcs).2.2)) xc

/-- The bytes of the code points that were stored -/
structure Written (mem mem' : Chars w) (s rest : Str w) (ys : List (BitVec w)) : Prop where
  space : u8lens ys ≤ s.len.toNat
  rest : rest = s.slashString (BitVec.ofNat w (u8lens ys))
  text : Memory.text mem' s.addr (u8lens ys) = encodeAll (ys.map BitVec.toNat)
  unchanged : ∀ b, (∀ i < s.len.toNat, b ≠ s.addr + BitVec.ofNat w i) → mem' b = mem b

section

variable (hw : 21 ≤ w) {xcs : List (BitVec w)}
include hw

variable {xc : BitVec w}

theorem toNat_u8len (h : xc.toNat ≤ lastCodePoint) : (u8len xc).toNat = size xc.toNat := by
  rw [u8len_eq hw h, toNat_ofNat_small hw ((size_le _).trans_lt (by decide))]

theorem u8lens_cons (h : xc.toNat ≤ lastCodePoint) :
    u8lens (xc :: xcs) = size xc.toNat + u8lens xcs := by
  rw [u8lens, List.map_cons, List.sum_cons, toNat_u8len hw h]
  rfl

/-- The length of the encoded characters -/
theorem length_encodeAll (h : ∀ xc ∈ xcs, xc.toNat ≤ lastCodePoint) :
    (encodeAll (xcs.map BitVec.toNat)).length = u8lens xcs := by
  induction xcs with
  | nil => rfl
  | cons xc xcs ih =>
      rw [List.map_cons, encodeAll_cons, List.length_append, length_encode,
        ih fun x hx => h x (List.mem_cons_of_mem xc hx), u8lens_cons hw (h xc List.mem_cons_self)]

/-- One more character in front of what is written -/
theorem Written.cons {mem mem' : Chars w} {s rest : Str w} (h : xc.toNat ≤ lastCodePoint)
    (hfits : size xc.toNat ≤ s.len.toNat)
    (hrest : Written (store mem s.addr (encode xc.toNat)) mem'
      (s.slashString (BitVec.ofNat w (size xc.toNat))) rest xcs) :
    Written mem mem' s rest (xc :: xcs) := by
  have hlen := Str.toNat_len_slashString s hfits
  have hspace := hrest.space
  have hlt := s.len.isLt
  have hsize := length_encode xc.toNat
  refine ⟨?_, ?_, ?_, ?_⟩
  · rw [u8lens_cons hw h]
    omega
  · rw [u8lens_cons hw h, hrest.rest, Str.slashString, Str.slashString, Str.slashString,
      add_ofNat_ofNat, BitVec.sub_sub, ← BitVec.ofNat_add]
  · have hfirst : Memory.text mem' s.addr (size xc.toNat) = encode xc.toNat := by
      have hstore := text_store mem (a := s.addr) (t := encode xc.toNat) (n := 0) (by omega)
      rw [hsize, text_zero, List.append_nil, Nat.add_zero] at hstore
      rw [← hstore]
      refine text_congr _ fun i hi => hrest.unchanged _ fun j hj => ?_
      rw [Str.slashString, add_ofNat_ofNat]
      exact add_ofNat_ne (by omega) (by omega) (by omega)
    have hbehind := hrest.text
    rw [u8lens_cons hw h, text_add, hfirst, List.map_cons, encodeAll_cons]
    rw [Str.slashString] at hbehind
    rw [hbehind]
  · intro b hb
    rw [hrest.unchanged b, store_of_ne]
    · intro i hi
      exact hb i (by omega)
    · intro j hj
      rw [Str.slashString, add_ofNat_ofNat]
      exact hb _ (by omega)

/-- Characters are stored until the buffer is full. -/
theorem storeAll_written (mem : Chars w) (s : Str w) (h : ∀ xc ∈ xcs, xc.toNat ≤ lastCodePoint) :
    Written mem (u8StoreAll mem s xcs).1 s (u8StoreAll mem s xcs).2.1
        (stored xcs (u8StoreAll mem s xcs).2.2) ∧
      (u8lens xcs ≤ s.len.toNat → stored xcs (u8StoreAll mem s xcs).2.2 = xcs) ∧
      ∀ xc ∈ stored xcs (u8StoreAll mem s xcs).2.2, xc.toNat ≤ lastCodePoint := by
  induction xcs generalizing mem s with
  | nil =>
      refine ⟨⟨Nat.zero_le _, ?_, rfl, fun b hb => rfl⟩, fun _ => rfl, fun xc hxc => nomatch hxc⟩
      change s = s.slashString 0#w
      rw [Str.slashString, BitVec.add_zero, BitVec.sub_zero]
  | cons xc xcs ih =>
      have hxc := h xc List.mem_cons_self
      have hxcs : ∀ x ∈ xcs, x.toNat ≤ lastCodePoint := fun x hx => h x (List.mem_cons_of_mem xc hx)
      rw [u8StoreAll, u8StorePlusQuery_eq hw mem s hxc, u8lens_cons hw hxc]
      by_cases hfits : size xc.toNat ≤ s.len.toNat
      · have hlen := Str.toNat_len_slashString s hfits
        obtain ⟨hwritten, hall, hys⟩ := ih (store mem s.addr (encode xc.toNat))
          (s.slashString (BitVec.ofNat w (size xc.toNat))) hxcs
        rw [if_pos hfits]
        refine ⟨hwritten.cons hw hxc hfits, fun hspace => ?_, fun x hx => ?_⟩
        · rw [stored, hall (by omega)]
        · rcases List.mem_cons.mp hx with rfl | hx
          · exact hxc
          · exact hys x hx
      · obtain ⟨hwritten, -, hys⟩ := ih mem s hxcs
        rw [if_neg hfits]
        exact ⟨hwritten, fun hspace => absurd hspace (by omega), hys⟩

/-- The steps at a character of an encoded text -/
theorem steps_of_text (order : ByteOrder) {mem : Chars w} {a : BitVec w}
    {before behind : List (BitVec w)} (h : ∀ x ∈ before ++ xc :: behind, x.toNat ≤ lastCodePoint)
    (hspace : u8lens (before ++ xc :: behind) < 2 ^ w)
    (htext : Memory.text mem a (u8lens (before ++ xc :: behind)) =
      encodeAll ((before ++ xc :: behind).map BitVec.toNat)) :
    Steps order mem a (u8lens before) (u8lens (before ++ xc :: behind)) xc := by
  have hxc : xc.toNat ≤ lastCodePoint := h xc (by simp)
  have hlength := length_encodeAll hw fun x hx => h x (List.mem_append_left _ hx)
  have hsize := toNat_u8len hw hxc
  have hlen := u8len_eq hw hxc
  rw [u8lens_append, u8lens_cons hw hxc] at hspace htext ⊢
  -- The text from the character on
  rw [text_add, List.map_append, encodeAll_append, List.map_cons, encodeAll_cons] at htext
  have hbehind := List.append_inj_right htext (by rw [length_text, hlength])
  have hchar : Memory.text mem (a + BitVec.ofNat w (u8lens before)) (size xc.toNat) =
      encode xc.toNat := by
    rw [text_add] at hbehind
    exact List.append_inj_left hbehind (by rw [length_text, length_encode])
  obtain ⟨hfirst, hrest⟩ := bytes_of_start hxc (size_pos _)
    ⟨[], by rw [List.append_nil, hchar]⟩
  have hsub : ∀ {m n : Nat}, BitVec.ofNat w (m + n) - BitVec.ofNat w m = BitVec.ofNat w n := by
    intro m n
    rw [BitVec.ofNat_add, BitVec.add_comm, BitVec.add_sub_cancel]
  have hfetch : u8FetchPlusQuery order mem
      ⟨a + BitVec.ofNat w (u8lens before), BitVec.ofNat w (size xc.toNat + u8lens behind)⟩ =
      (⟨a + BitVec.ofNat w (u8lens before + size xc.toNat), BitVec.ofNat w (u8lens behind)⟩, xc) := by
    have hchars : Str.chars mem ⟨a + BitVec.ofNat w (u8lens before),
        BitVec.ofNat w (size xc.toNat + u8lens behind)⟩ =
        encode xc.toNat ++ encodeAll (behind.map BitVec.toNat) := by
      rw [Str.chars, BitVec.toNat_ofNat, Nat.mod_eq_of_lt (by omega), hbehind]
    rw [u8FetchPlusQuery_eq, hchars, decodeText_encode hxc, Str.slashString, add_ofNat_ofNat, hsub,
      BitVec.ofNat_toNat, BitVec.setWidth_eq]
  refine ⟨?_, ?_, fun fuel hfuel => ?_, ?_⟩
  · rw [hsize, Nat.add_sub_cancel_left, ← Nat.add_assoc, Nat.add_sub_cancel_left]
    exact hfetch
  · rw [Nat.add_sub_cancel_left, u8addrlen, hfetch, hlen, Nat.add_comm (size xc.toNat)]
    exact hsub
  · rw [hsize, ← add_ofNat_ofNat]
    exact u8LessLess_eq (size_pos _) hfirst hrest ((size_le _).trans hfuel)
  · rw [hsize]
    exact u8StringMinus_eq (size_pos _) hfirst hrest

/-- An encoded text is read from any of its boundaries on. -/
theorem fetchAll_of_text (order : ByteOrder) {mem : Chars w} {a : BitVec w}
    {before behind : List (BitVec w)} (h : ∀ x ∈ before ++ behind, x.toNat ≤ lastCodePoint)
    (hspace : u8lens (before ++ behind) < 2 ^ w)
    (htext : Memory.text mem a (u8lens (before ++ behind)) =
      encodeAll ((before ++ behind).map BitVec.toNat)) :
    u8FetchAll order mem ⟨a + BitVec.ofNat w (u8lens before),
      BitVec.ofNat w (u8lens (before ++ behind) - u8lens before)⟩ = behind := by
  induction behind generalizing before with
  | nil =>
      rw [List.append_nil, Nat.sub_self, u8FetchAll, dif_pos rfl]
  | cons xc behind ih =>
      have hsteps := steps_of_text hw order h hspace htext
      have hxc : xc.toNat ≤ lastCodePoint := h xc (by simp)
      have hne : BitVec.ofNat w (u8lens (before ++ xc :: behind) - u8lens before) ≠ 0#w := by
        intro hzero
        have hpos := size_pos xc.toNat
        have hval := congrArg BitVec.toNat hzero
        rw [BitVec.toNat_ofNat, Nat.mod_eq_of_lt (by omega), BitVec.toNat_zero, u8lens_append,
          u8lens_cons hw hxc] at hval
        omega
      have happend : before ++ xc :: behind = before ++ [xc] ++ behind := by simp
      have hone : u8lens (before ++ [xc]) = u8lens before + (u8len xc).toNat := by
        rw [u8lens_append]
        simp [u8lens]
      rw [u8FetchAll, dif_neg hne]
      simp only [hsteps.fetch]
      rw [happend] at h hspace htext ⊢
      rw [← hone, ih h hspace htext]

/-- A character is stored as a whole or not at all. -/
theorem storesWhole (mem : Chars w) (s : Str w) (h : xc.toNat ≤ lastCodePoint) :
    StoresWhole mem s xc := by
  have hsize := toNat_u8len hw h
  have hlen := u8len_eq hw h
  refine ⟨fun hlt => ?_, fun hnlt => ?_, fun hnlt => ?_, fun b hb => ?_⟩
  · rw [u8StorePlusQuery, if_pos hlt]
  · rw [u8StorePlusQuery, if_neg hnlt]
  · rw [BitVec.lt_def, hsize] at hnlt
    rw [u8StorePlusQuery_eq hw mem s h, if_pos (by omega), hlen]
  · rw [u8StorePlusQuery_eq hw mem s h]
    split
    · refine store_of_ne mem fun i hi => hb i ?_
      rw [length_encode] at hi
      omega
    · rfl

/-- What was stored is read back. -/
theorem storeAll_roundTrip (order : ByteOrder) (mem : Chars w) (s : Str w)
    (h : ∀ xc ∈ xcs, xc.toNat ≤ lastCodePoint) : RoundTrip order mem s xcs := by
  obtain ⟨hwritten, hall, hys⟩ := storeAll_written hw mem s h
  have hlt : u8lens (stored xcs (u8StoreAll mem s xcs).2.2) < 2 ^ w :=
    hwritten.space.trans_lt s.len.isLt
  refine ⟨hall, hwritten.unchanged, hwritten.space, hwritten.rest, ?_, ?_⟩
  · have hreads := @fetchAll_of_text w hw order _ s.addr [] _ hys hlt hwritten.text
    rwa [List.nil_append, show u8lens ([] : List (BitVec w)) = 0 from rfl, Nat.sub_zero,
      BitVec.add_zero] at hreads
  · intro before xc behind hsplit
    rw [hsplit] at hys hlt ⊢
    have htext := hwritten.text
    rw [hsplit] at htext
    exact steps_of_text hw order hys hlt htext

end

/-- Code points that are stored one after another are read back. -/
theorem round_trip (hw : 21 ≤ w) (order : ByteOrder) (mem : Chars w) (s : Str w)
    (xcs : List (BitVec w)) (h : ∀ xc ∈ xcs, xc.toNat ≤ lastCodePoint) :
    (∀ xc ∈ xcs, ∀ mem s, StoresWhole mem s xc) ∧ RoundTrip order mem s xcs :=
  ⟨fun xc hxc mem s => storesWhole hw mem s (h xc hxc), storeAll_roundTrip hw order mem s h⟩

/-- Three code points, of which the second one does not fit -/
theorem round_trip_three :
    (∀ xc ∈ [0x20AC#64, 0x10FFFF#64, 0x41#64], ∀ mem s, StoresWhole mem s xc) ∧
      RoundTrip .big (fun _ => 0#8) ⟨0x1000#64, 6#64⟩ [0x20AC#64, 0x10FFFF#64, 0x41#64] :=
  round_trip (by decide) .big (fun _ => 0#8) ⟨0x1000#64, 6#64⟩ [0x20AC#64, 0x10FFFF#64, 0x41#64]
    (by simp [lastCodePoint])

end Characters
end Gforth
