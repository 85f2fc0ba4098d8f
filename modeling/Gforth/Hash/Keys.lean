import Gforth.Hash.Names
import Gforth.Lib.Alignment
import Gforth.Lib.ByteOrder
import Gforth.Numbers.Conversion
import Mathlib.Data.BitVec

/-!
# Keys of texts in memory

The hash functions read the characters a word at a time.  The last word may have other bytes of the
memory in it, behind the text or in front of it, which the functions remove again.  The functions of
the model also return the addresses of the words that they have read.

Main results:

- Theorem {lit}`hashkey2_eq`, {lit}`hashkey2a_eq`: the key is a function of the characters.
- Theorem {lit}`keys_compatible`: the keys do not depend on where the text is or on the case of its
  letters, and no word is read from a page without characters of the text.
-/

namespace Gforth
namespace Hash
namespace Keys

open Lib
open Memory
open Numbers

variable {w : Nat}

/-! ## The functions -/

/-- A text that does not wrap around: there is an address behind it. -/
structure Text (w : Nat) extends Str w where
  fits : addr.toNat + len.toNat < 2 ^ w

/-- {lit}`upmask` of the functions that do not look at case -/
def upmask : BitVec 64 := 0x2020202020202020#64

/-- {lit}`hash128` -/
structure Hash128 where
  a : BitVec 64
  b : BitVec 64
deriving DecidableEq

/-- {lit}`hashx` -/
def hashx : Vector (BitVec 64) 6 :=
  #v[0x87c37b91114253d5#64, 0x4cf5ad432745937f#64,
    0x6c5f6f6cbe627173#64, 0x7164c30603661c2f#64,
    0xce5009401b441347#64, 0x454fa335a6e63ad3#64]

/-- {lit}`ROL` -/
def rol (x : BitVec 64) (n : Nat) : BitVec 64 :=
  (x <<< n) ||| (x >>> (64 - n))

/-- {lit}`MIXKEY2` -/
def mixkey2 (h : Hash128) : Hash128 :=
  let a1 := rol ((h.a + (h.b ^^^ hashx[2])) * hashx[0]) 37 + hashx[4]
  let b1 := rol (((h.b - rol h.a 13) ^^^ hashx[3]) * hashx[1]) 23 + hashx[5]
  ⟨h.a ^^^ a1, h.b ^^^ b1⟩

/-- The loop of {lit}`hashkey2` over the full words, within some number of steps -/
def hashkey2Loop (order : ByteOrder) (mem : Chars w) (upmask : BitVec 64) (endp : BitVec w) :
    Nat → BitVec w → Hash128 → List (BitVec w) → Option (Hash128 × List (BitVec w))
  | 0, _, _, _ => none
  | fuel + 1, c_addr, h, reads =>
      if c_addr < endp then
        let mixin := foldCase upmask (order.load 64 (text mem c_addr 8))
        hashkey2Loop order mem upmask endp fuel (c_addr + 8#w) (mixkey2 { h with a := h.a ^^^ mixin })
          (reads ++ [c_addr])
      else some (h, reads)

/-- {lit}`mixin` of the last word: the parts read outside the text are stripped off. -/
def strip (order : ByteOrder) (lastshift shift : Nat) (mixin : BitVec 64) : BitVec 64 :=
  match order with
  | .big => mixin <<< lastshift >>> shift
  | .little => mixin >>> lastshift <<< shift

/-- {lit}`hashkey2` -/
def hashkey2 (order : ByteOrder) (mem : Chars w) (s : Str w) (upmask : BitVec 64) (h : Hash128) :
    Option (Hash128 × List (BitVec w)) := do
  let endp := s.addr + (s.len &&& -8#w)
  let endp1 := s.addr + s.len - 8#w
  let (h, reads) ← hashkey2Loop order mem upmask endp (s.len.toNat + 1) s.addr h []
  let u := s.len &&& 7#w
  if u ≠ 0#w then
    let shift := (8 - u.toNat) * 8
    -- the last access might cross page size
    let crosses := (0x1000#w - 8#w) ≤ ((endp1 + 8#w - 1#w) &&& (0x1000#w - 1#w))
    let endp := if crosses then endp1 else endp
    let lastshift := if crosses then shift else 0
    let mixin := foldCase upmask (strip order lastshift shift (order.load 64 (text mem endp 8)))
    some (mixkey2 (mixkey2 ⟨h.a ^^^ mixin, h.b ^^^ u.setWidth 64⟩), reads ++ [endp])
  else some (mixkey2 h, reads)

/-- The loop of {lit}`hashkey2a` over the cells of a long text, within some number of steps -/
def hashkey2aLoop (order : ByteOrder) (c : CellSize) (mem : Chars c.bits) (endp : BitVec c.bits) :
    Nat → BitVec c.bits → BitVec c.bits → List (BitVec c.bits) →
      Option (BitVec c.bits × List (BitVec c.bits))
  | 0, _, _, _ => none
  | fuel + 1, p, h, reads =>
      let h := mixCell c h (order.load c.bits (text mem p c.bytes))
      let reads := reads ++ [p]
      let p := p + BitVec.ofNat c.bits c.bytes
      if p < endp then hashkey2aLoop order c mem endp fuel p h reads else some (h, reads)

/-- {lit}`hashkey2a` -/
def hashkey2a (order : ByteOrder) (c : CellSize) (mem : Chars c.bits) (s : Str c.bits) :
    Option (BitVec c.bits × List (BitVec c.bits)) :=
  let seed := s.len
  let w := BitVec.ofNat c.bits c.bytes
  if s.len ≤ w then
    let erase := (c.bytes - s.len.toNat) * 8
    if s.len = 0#c.bits then some (seed, [])
    else if ((s.addr + s.len - 1#c.bits) ^^^ (s.addr + w - 1#c.bits)) &&& -0x1000#c.bits ≠ 0#c.bits then
      let h := order.load c.bits (text mem (s.addr + s.len - w) c.bytes)
      let h := match order with
        | .big => h &&& (BitVec.allOnes c.bits >>> erase)
        | .little => h >>> erase
      some (mixCell c seed h * k0 c, [s.addr + s.len - w])
    else
      let h := order.load c.bits (text mem s.addr c.bytes)
      let h := match order with
        | .big => h >>> erase
        | .little => h &&& (BitVec.allOnes c.bits >>> erase)
      some (mixCell c seed h * k0 c, [s.addr])
  else do
    let p := s.addr + s.len - w
    let (h, reads) ← hashkey2aLoop order c mem p s.len.toNat s.addr seed []
    some (mixCell c h (order.load c.bits (text mem p c.bytes)) * k0 c, reads ++ [p])

/-! ## The keys of the characters -/

/-- The last characters, of fewer than eight, as a word -/
def fragment (order : ByteOrder) (t : List Byte) : BitVec 64 :=
  order.load 64 (List.replicate (8 - t.length) 0#8 ++ t)

/-- The key that {lit}`hashkey2` computes from the characters -/
def textKey2 (order : ByteOrder) (upmask : BitVec 64) (h : Hash128) (t : List Byte) : Hash128 :=
  if 8 ≤ t.length then
    textKey2 order upmask
      (mixkey2 { h with a := h.a ^^^ foldCase upmask (order.load 64 (t.take 8)) }) (t.drop 8)
  else if t.length ≠ 0 then
    mixkey2 (mixkey2 ⟨h.a ^^^ foldCase upmask (fragment order t), h.b ^^^ BitVec.ofNat 64 t.length⟩)
  else mixkey2 h
termination_by t.length

/-! ## The last word -/

variable {t g : List Byte}

/-- In little-endian order the bytes behind the text are stripped at the end. -/
theorem strip_forward (order : ByteOrder) (h : t.length + g.length = 8) :
    strip order 0 (8 * g.length) (order.load 64 (t ++ g)) = fragment order t := by
  have hword : 8 * (t ++ g).length = 64 := by
    rw [List.length_append]
    omega
  rw [fragment, show 8 - t.length = g.length by omega]
  cases order with
  | little =>
      have hshift := ByteOrder.load_append_shiftLeft .little hword
      rw [ByteOrder.load_little_zeros _ (by omega)]
      simpa [strip, ByteOrder.low, ByteOrder.high] using hshift
  | big =>
      have hshift := ByteOrder.load_append_ushiftRight .big hword.le
      rw [ByteOrder.load_big_zeros]
      simpa [strip, ByteOrder.low, ByteOrder.high] using hshift

/-- In big-endian order the bytes behind the text are stripped in front. -/
theorem strip_backward (order : ByteOrder) (h : t.length + g.length = 8) :
    strip order (8 * g.length) (8 * g.length) (order.load 64 (g ++ t)) = fragment order t := by
  have hword : 8 * (g ++ t).length = 64 := by
    rw [List.length_append]
    omega
  rw [fragment, show 8 - t.length = g.length by omega]
  cases order with
  | little =>
      have hshift := ByteOrder.load_append_ushiftRight .little hword.le
      rw [ByteOrder.low, ByteOrder.high] at hshift
      rw [ByteOrder.load_little_zeros _ (by omega), strip, hshift]
  | big =>
      have hshift := ByteOrder.load_append_shiftLeft .big hword
      rw [ByteOrder.low, ByteOrder.high] at hshift
      rw [ByteOrder.load_big_zeros, strip, hshift,
        ByteOrder.load_shiftLeft_ushiftRight .big (by omega)]

/-- The word that ends with the text: its last characters are those of the text. -/
theorem text_backward (mem : Chars w) (a : BitVec w) {n f k : Nat} (hf : f ≤ n) (hk : f ≤ k) :
    text mem (a + BitVec.ofNat w n - BitVec.ofNat w k) k =
      text mem (a + BitVec.ofNat w n - BitVec.ofNat w k) (k - f) ++
        text mem (a + BitVec.ofNat w (n - f)) f := by
  obtain ⟨l, rfl⟩ := Nat.exists_eq_add_of_le' hf
  obtain ⟨m, rfl⟩ := Nat.exists_eq_add_of_le' hk
  have haddr : a + BitVec.ofNat w (l + f) - BitVec.ofNat w (m + f) + BitVec.ofNat w m =
      a + BitVec.ofNat w l := by
    rw [BitVec.ofNat_add, BitVec.ofNat_add]
    ring
  rw [Nat.add_sub_cancel, Nat.add_sub_cancel, text_add, haddr]

/-! ## {lit}`hashkey2` -/

/-- The words of the loop, and what the loop leaves of the text -/
theorem hashkey2Loop_eq (order : ByteOrder) (mem : Chars w) (upmask : BitVec 64) {fuel : Nat} :
    ∀ {p : BitVec w} {m : Nat} (h : Hash128) (reads : List (BitVec w)), m < fuel →
      p.toNat + m < 2 ^ w →
      ∃ h' reads', hashkey2Loop order mem upmask (p + BitVec.ofNat w (m / 8 * 8)) fuel p h reads =
          some (h', reads ++ reads') ∧
        textKey2 order upmask h (text mem p m) =
          textKey2 order upmask h' (text mem (p + BitVec.ofNat w (m / 8 * 8)) (m % 8)) ∧
        ∀ a ∈ reads', ∃ d, d + 8 ≤ m ∧ a = p + BitVec.ofNat w d := by
  induction fuel with
  | zero => exact fun _ _ hfuel => absurd hfuel (Nat.not_lt_zero _)
  | succ fuel ih =>
      intro p m h reads hfuel hfits
      have hend : (p + BitVec.ofNat w (m / 8 * 8)).toNat = p.toNat + m / 8 * 8 :=
        toNat_add_ofNat (by omega)
      by_cases hfull : 8 ≤ m
      · have hlt : p < p + BitVec.ofNat w (m / 8 * 8) := by
          rw [BitVec.lt_def, hend]
          omega
        have hp : (p + BitVec.ofNat w 8).toNat = p.toNat + 8 := toNat_add_ofNat (by omega)
        have hnext : p + BitVec.ofNat w (m / 8 * 8) =
            p + BitVec.ofNat w 8 + BitVec.ofNat w ((m - 8) / 8 * 8) := by
          rw [add_ofNat_ofNat]
          congr 2
          omega
        obtain ⟨h', reads', hloop, hkey, hreads⟩ := ih (p := p + BitVec.ofNat w 8) (m := m - 8)
          (mixkey2 { h with a := h.a ^^^ foldCase upmask (order.load 64 (text mem p 8)) })
          (reads ++ [p]) (by omega) (by omega)
        refine ⟨h', p :: reads', ?_, ?_, ?_⟩
        · rw [hashkey2Loop, if_pos hlt, hnext]
          rw [List.append_assoc] at hloop
          exact hloop
        · rw [textKey2, if_pos (by rw [length_text]; exact hfull), take_text _ _ hfull,
            drop_text _ _ hfull, hkey, ← hnext, show (m - 8) % 8 = m % 8 by omega]
        · intro a ha
          rcases List.mem_cons.mp ha with rfl | ha
          · exact ⟨0, by omega, by simp⟩
          · obtain ⟨d, hd, rfl⟩ := hreads a ha
            exact ⟨8 + d, by omega, by rw [add_ofNat_ofNat]⟩
      · have hzero : m / 8 * 8 = 0 := by omega
        refine ⟨h, [], ?_, ?_, by simp⟩
        · rw [hashkey2Loop, hzero, BitVec.add_zero,
            if_neg (BitVec.lt_irrefl p), List.append_nil]
        · rw [hzero, BitVec.add_zero, Nat.mod_eq_of_lt (by omega)]

/-- The key of a text that is shorter than a cell -/
theorem textKey2_fragment (order : ByteOrder) (upmask : BitVec 64) (h : Hash128) {t : List Byte}
    (hlt : t.length < 8) (hne : t.length ≠ 0) :
    textKey2 order upmask h t =
      mixkey2 (mixkey2
        ⟨h.a ^^^ foldCase upmask (fragment order t), h.b ^^^ BitVec.ofNat 64 t.length⟩) := by
  rw [textKey2, if_neg (by omega), if_pos hne]

namespace Text

variable (s : Text w)

theorem len_eq : s.len = BitVec.ofNat w s.len.toNat := by
  simp

/-- The address of the last character -/
theorem toNat_last (h : s.len.toNat ≠ 0) :
    (s.addr + s.len - 1#w).toNat = s.addr.toNat + (s.len.toNat - 1) := by
  have hfits := s.fits
  have hlast : s.addr + s.len - 1#w = s.addr + BitVec.ofNat w (s.len.toNat - 1) := by
    conv_lhs => rw [s.len_eq, show s.len.toNat = s.len.toNat - 1 + 1 by omega, BitVec.ofNat_add]
    rw [← BitVec.add_assoc, BitVec.add_sub_cancel]
  rw [hlast, toNat_add_ofNat (by omega)]

end Text

/-- The test on the last access: the last character is one of the last eight of its page. -/
theorem crosses_iff (hw : 12 < w) (s : Text w) (h : s.len.toNat ≠ 0) :
    (0x1000#w - 8#w) ≤ ((s.addr + s.len - 8#w + 8#w - 1#w) &&& (0x1000#w - 1#w)) ↔
      0xff8 ≤ (s.addr.toNat + (s.len.toNat - 1)) % 2 ^ 12 := by
  have hpow : 2 ^ 13 ≤ 2 ^ w := Nat.pow_le_pow_right (by decide) hw
  have hsub : ∀ k ≤ 0x1000, (0x1000#w - BitVec.ofNat w k).toNat = 0x1000 - k := by
    intro k hk
    rw [BitVec.toNat_sub_of_le, BitVec.toNat_ofNat, BitVec.toNat_ofNat, Nat.mod_eq_of_lt (by omega),
      Nat.mod_eq_of_lt (by omega)]
    rw [BitVec.le_def, BitVec.toNat_ofNat, BitVec.toNat_ofNat, Nat.mod_eq_of_lt (by omega),
      Nat.mod_eq_of_lt (by omega)]
    exact hk
  rw [BitVec.sub_add_cancel, BitVec.le_def, BitVec.toNat_and, s.toNat_last h, hsub 8 (by decide),
    hsub 1 (by decide), show 0x1000 - 1 = 2 ^ 12 - 1 from rfl, Nat.and_two_pow_sub_one_eq_mod]

/-- The last characters, from the word that starts with them -/
theorem fragment_forward (order : ByteOrder) (mem : Chars w) (a : BitVec w) {f : Nat} (hf : f < 8) :
    strip order 0 ((8 - f) * 8) (order.load 64 (text mem a 8)) = fragment order (text mem a f) := by
  have hsplit := text_add mem a f (8 - f)
  rw [Nat.add_sub_cancel' hf.le] at hsplit
  have hstrip := strip_forward order (t := text mem a f)
    (g := text mem (a + BitVec.ofNat w f) (8 - f)) (by rw [length_text, length_text]; omega)
  rw [length_text, Nat.mul_comm] at hstrip
  rw [hsplit, hstrip]

/-- The last characters, from the word that ends with them -/
theorem fragment_backward (order : ByteOrder) (mem : Chars w) (a : BitVec w) {n f : Nat}
    (hf : f < 8) (hn : f ≤ n) :
    strip order ((8 - f) * 8) ((8 - f) * 8)
        (order.load 64 (text mem (a + BitVec.ofNat w n - 8#w) 8)) =
      fragment order (text mem (a + BitVec.ofNat w (n - f)) f) := by
  have hstrip := strip_backward order (t := text mem (a + BitVec.ofNat w (n - f)) f)
    (g := text mem (a + BitVec.ofNat w n - 8#w) (8 - f)) (by rw [length_text, length_text]; omega)
  rw [length_text, Nat.mul_comm] at hstrip
  rw [text_backward mem a hn hf.le, hstrip]

/-- {lit}`hashkey2` is a function of the characters, and reads from their pages only. -/
theorem hashkey2_eq (order : ByteOrder) (hw : 12 < w) (mem : Chars w) (s : Text w)
    (upmask : BitVec 64) (h : Hash128) :
    ∃ reads, hashkey2 order mem s.toStr upmask h =
        some (textKey2 order upmask h (s.chars mem), reads) ∧
      ∀ a ∈ reads, OnPages 12 s.addr s.len.toNat a 8 := by
  have hfits := s.fits
  have hpow : 2 ^ 13 ≤ 2 ^ w := Nat.pow_le_pow_right (by decide) hw
  have hdown : s.len &&& -8#w = BitVec.ofNat w (s.len.toNat / 8 * 8) := by
    refine BitVec.eq_of_toNat_eq ?_
    rw [show 8#w = BitVec.ofNat w (2 ^ 3) from rfl, toNat_and_neg (by omega), BitVec.toNat_ofNat,
      Nat.mod_eq_of_lt (by omega)]
    rfl
  have hrest : (s.len &&& 7#w).toNat = s.len.toNat % 8 := by
    rw [BitVec.toNat_and, BitVec.toNat_ofNat, Nat.mod_eq_of_lt (by omega)]
    exact Nat.and_two_pow_sub_one_eq_mod s.len.toNat 3
  obtain ⟨h', reads, hloop, hkey, hreads⟩ := hashkey2Loop_eq order mem upmask h []
    (Nat.lt_succ_self s.len.toNat) hfits
  have hinside : ∀ a ∈ reads, OnPages 12 s.addr s.len.toNat a 8 := by
    intro a ha
    obtain ⟨d, hd, rfl⟩ := hreads a ha
    exact onPages_inside hd
  rw [hashkey2, hdown]
  simp only [hloop, Option.bind_eq_bind, Option.bind_some, List.nil_append]
  rw [Str.chars, hkey]
  by_cases hzero : s.len.toNat % 8 = 0
  · rw [if_neg]
    · refine ⟨reads, ?_, hinside⟩
      rw [hzero, text_zero, textKey2, if_neg (by simp), if_neg (by simp)]
    · rw [not_not, ← BitVec.toNat_inj, hrest, hzero, BitVec.toNat_zero]
  · have hn : s.len.toNat ≠ 0 := fun hn => hzero (by rw [hn])
    rw [if_pos (fun hu => hzero (by rw [← hrest, hu, BitVec.toNat_zero]))]
    rw [textKey2_fragment _ _ _ (by rw [length_text]; omega) (by rw [length_text]; omega),
      length_text]
    have hmix : (s.len &&& 7#w).setWidth 64 = BitVec.ofNat 64 (s.len.toNat % 8) := by
      refine BitVec.eq_of_toNat_eq ?_
      rw [BitVec.toNat_setWidth, hrest, BitVec.toNat_ofNat]
    rw [hrest, hmix]
    by_cases hcross : (0x1000#w - 8#w) ≤
        ((s.addr + s.len - 8#w + 8#w - 1#w) &&& (0x1000#w - 1#w))
    · have hpage := (crosses_iff hw s hn).mp hcross
      refine ⟨reads ++ [s.addr + s.len - 8#w], ?_, ?_⟩
      · simp only [if_pos hcross]
        have hfragment := fragment_backward order mem s.addr (Nat.mod_lt s.len.toNat (by decide))
          (Nat.mod_le s.len.toNat 8)
        rw [← s.len_eq, show s.len.toNat - s.len.toNat % 8 = s.len.toNat / 8 * 8 by omega]
          at hfragment
        rw [hfragment]
      · intro a ha
        rcases List.mem_append.mp ha with ha | ha
        · exact hinside a ha
        · rw [List.mem_singleton.mp ha]
          have hback := onPages_backward (k := 12) (m := 8) (Nat.pos_of_ne_zero hn) hfits (by omega)
          rwa [← s.len_eq] at hback
    · have hpage := (crosses_iff hw s hn).not.mp hcross
      refine ⟨reads ++ [s.addr + BitVec.ofNat w (s.len.toNat / 8 * 8)], ?_, ?_⟩
      · simp only [if_neg hcross]
        rw [fragment_forward order mem _ (Nat.mod_lt s.len.toNat (by decide))]
      · intro a ha
        rcases List.mem_append.mp ha with ha | ha
        · exact hinside a ha
        · rw [List.mem_singleton.mp ha]
          have hmul : 2 ^ 12 ∣ 2 ^ w := Nat.pow_dvd_pow 2 hw.le
          refine onPages_forward (e := 7) (by omega) (by omega) ?_ ?_
          · omega
          · omega

/-! ## {lit}`hashkey2a` -/

namespace CellSize

variable (c : CellSize)

theorem bytes_pos : 0 < c.bytes := by
  cases c <;> decide

theorem bytes_le : c.bytes ≤ 8 := by
  cases c <;> decide

theorem twelve_lt_bits : 12 < c.bits := by
  cases c <;> decide

theorem toNat_bytes : (BitVec.ofNat c.bits c.bytes).toNat = c.bytes := by
  cases c <;> rfl

theorem two_pow_le : 2 ^ 13 ≤ 2 ^ c.bits :=
  Nat.pow_le_pow_right (by decide) c.twelve_lt_bits

end CellSize

variable {c : CellSize}

/-- The cells of the loop -/
theorem hashkey2aLoop_eq (order : ByteOrder) (mem : Chars c.bits) {fuel : Nat} :
    ∀ {p : BitVec c.bits} {m : Nat} (h : BitVec c.bits) (reads : List (BitVec c.bits)),
      m ≤ fuel → c.bytes < m → p.toNat + m < 2 ^ c.bits →
      ∃ reads', hashkey2aLoop order c mem (p + BitVec.ofNat c.bits m - BitVec.ofNat c.bits c.bytes)
          fuel p h reads = some (textKeyLoop order c h (text mem p m), reads ++ reads') ∧
        ∀ a ∈ reads', ∃ d, d + c.bytes ≤ m ∧ a = p + BitVec.ofNat c.bits d := by
  have hpos := c.bytes_pos
  induction fuel with
  | zero => exact fun _ _ hfuel hlong => by omega
  | succ fuel ih =>
      intro p m h reads hfuel hlong hfits
      have hend : (p + BitVec.ofNat c.bits m - BitVec.ofNat c.bits c.bytes).toNat =
          p.toNat + m - c.bytes := by
        rw [BitVec.toNat_sub_of_le, toNat_add_ofNat hfits, c.toNat_bytes]
        rw [BitVec.le_def, toNat_add_ofNat hfits, c.toNat_bytes]
        omega
      have hp : (p + BitVec.ofNat c.bits c.bytes).toNat = p.toNat + c.bytes :=
        toNat_add_ofNat (by omega)
      have hkey : textKeyLoop order c h (text mem p m) =
          textKeyLoop order c (mixCell c h (order.load c.bits (text mem p c.bytes)))
            (text mem (p + BitVec.ofNat c.bits c.bytes) (m - c.bytes)) := by
        rw [textKeyLoop, dif_pos ⟨hpos, by rw [length_text]; exact hlong⟩,
          take_text _ _ hlong.le, drop_text _ _ hlong.le]
      rw [hashkey2aLoop]
      by_cases hmore : c.bytes < m - c.bytes
      · have hlt : p + BitVec.ofNat c.bits c.bytes <
            p + BitVec.ofNat c.bits m - BitVec.ofNat c.bits c.bytes := by
          rw [BitVec.lt_def, hp, hend]
          omega
        have hnext : p + BitVec.ofNat c.bits m =
            p + BitVec.ofNat c.bits c.bytes + BitVec.ofNat c.bits (m - c.bytes) := by
          rw [add_ofNat_ofNat, Nat.add_sub_cancel' hlong.le]
        obtain ⟨reads', hloop, hreads⟩ := ih (p := p + BitVec.ofNat c.bits c.bytes)
          (m := m - c.bytes) (mixCell c h (order.load c.bits (text mem p c.bytes))) (reads ++ [p])
          (by omega) hmore (by omega)
        refine ⟨p :: reads', ?_, ?_⟩
        · rw [← hnext, List.append_assoc] at hloop
          simp only [if_pos hlt, hkey]
          exact hloop
        · intro a ha
          rcases List.mem_cons.mp ha with rfl | ha
          · exact ⟨0, by omega, by simp⟩
          · obtain ⟨d, hd, rfl⟩ := hreads a ha
            exact ⟨c.bytes + d, by omega, by rw [add_ofNat_ofNat]⟩
      · have hge : ¬p + BitVec.ofNat c.bits c.bytes <
            p + BitVec.ofNat c.bits m - BitVec.ofNat c.bits c.bytes := by
          rw [BitVec.lt_def, hp, hend]
          omega
        refine ⟨[p], ?_, ?_⟩
        · simp only [if_neg hge, hkey]
          rw [textKeyLoop, dif_neg (fun hlt => hmore (by simpa using hlt.2))]
        · intro a ha
          exact ⟨0, by omega, by rw [List.mem_singleton.mp ha]; simp⟩

/-- The characters of a short text, from the cell that starts with them -/
theorem erase_forward (order : ByteOrder) (h : t.length + g.length = c.bytes) :
    (match order with
      | .big => order.load c.bits (t ++ g) >>> (g.length * 8)
      | .little => order.load c.bits (t ++ g) &&& (BitVec.allOnes c.bits >>> (g.length * 8))) =
    order.load c.bits t := by
  have hword : 8 * (t ++ g).length = c.bits := by
    rw [List.length_append, h]
  rw [Nat.mul_comm]
  cases order with
  | little => exact ByteOrder.load_append_and .little hword
  | big => exact ByteOrder.load_append_ushiftRight .big hword.le

/-- The characters of a short text, from the cell that ends with them -/
theorem erase_backward (order : ByteOrder) (h : t.length + g.length = c.bytes) :
    (match order with
      | .big => order.load c.bits (g ++ t) &&& (BitVec.allOnes c.bits >>> (g.length * 8))
      | .little => order.load c.bits (g ++ t) >>> (g.length * 8)) =
    order.load c.bits t := by
  have hword : 8 * (g ++ t).length = c.bits := by
    rw [List.length_append, Nat.add_comm, h]
  rw [Nat.mul_comm]
  cases order with
  | little => exact ByteOrder.load_append_ushiftRight .little hword.le
  | big => exact ByteOrder.load_append_and .big hword

/-- The test on a cell access at the start of a short text: the cell is on the page of the last
character. -/
theorem crosses_cell_iff (s : Text c.bits) (h : s.len.toNat ≠ 0) :
    ((s.addr + s.len - 1#c.bits) ^^^ (s.addr + BitVec.ofNat c.bits c.bytes - 1#c.bits)) &&&
        -0x1000#c.bits = 0#c.bits ↔
      s.addr.toNat + (c.bytes - 1) < 2 ^ c.bits ∧
        (s.addr.toNat + (s.len.toNat - 1)) / 2 ^ 12 = (s.addr.toNat + (c.bytes - 1)) / 2 ^ 12 := by
  have hpos := c.bytes_pos
  have hbytes := c.bytes_le
  have hpow := c.two_pow_le
  have hmul : 2 ^ 12 ∣ 2 ^ c.bits := Nat.pow_dvd_pow 2 c.twelve_lt_bits.le
  have hfits := s.fits
  have hcell : s.addr + BitVec.ofNat c.bits c.bytes - 1#c.bits =
      s.addr + BitVec.ofNat c.bits (c.bytes - 1) := by
    conv_lhs => rw [show c.bytes = c.bytes - 1 + 1 by omega, BitVec.ofNat_add]
    rw [← BitVec.add_assoc, BitVec.add_sub_cancel]
  have htest := xor_and_neg_eq_zero_iff c.twelve_lt_bits (s.addr + s.len - 1#c.bits)
    (s.addr + BitVec.ofNat c.bits (c.bytes - 1))
  rw [s.toNat_last h] at htest
  rw [hcell]
  refine htest.trans ?_
  by_cases hwrap : s.addr.toNat + (c.bytes - 1) < 2 ^ c.bits
  · rw [toNat_add_ofNat hwrap, and_iff_right hwrap]
  · -- The cell wraps around, so that it ends on the first page.
    refine ⟨fun hpage => absurd hpage ?_, fun hpage => absurd hpage.1 hwrap⟩
    have hlast : (s.addr + BitVec.ofNat c.bits (c.bytes - 1)).toNat =
        s.addr.toNat + (c.bytes - 1) - 2 ^ c.bits := by
      rw [BitVec.toNat_add, BitVec.toNat_ofNat, Nat.add_mod_mod, Nat.mod_eq_sub_mod (by omega),
        Nat.mod_eq_of_lt (by omega)]
    rw [hlast]
    omega

/-- {lit}`hashkey2a` is a function of the characters, and reads from their pages only. -/
theorem hashkey2a_eq (order : ByteOrder) (c : CellSize) (mem : Chars c.bits) (s : Text c.bits) :
    ∃ reads, hashkey2a order c mem s.toStr = some (textKey2a order c (s.chars mem), reads) ∧
      ∀ a ∈ reads, OnPages 12 s.addr s.len.toNat a c.bytes := by
  have hfits := s.fits
  have hpos := c.bytes_pos
  have hbytes := c.bytes_le
  have hpow := c.two_pow_le
  have hseed : BitVec.ofNat c.bits (s.chars mem).length = s.len := by
    rw [Str.length_chars, ← s.len_eq]
  rw [hashkey2a, textKey2a, hseed, Str.length_chars]
  simp only [BitVec.le_def, c.toNat_bytes]
  by_cases hshort : s.len.toNat ≤ c.bytes
  · rw [if_pos hshort, if_pos hshort]
    by_cases hzero : s.len.toNat = 0
    · have hlen : s.len = 0#c.bits := BitVec.eq_of_toNat_eq (by rw [hzero, BitVec.toNat_zero])
      rw [if_pos hlen, if_pos hzero]
      exact ⟨[], rfl, by simp⟩
    · have hlen : ¬s.len = 0#c.bits := fun hlen => hzero (by rw [hlen, BitVec.toNat_zero])
      have hmul : 2 ^ 12 ∣ 2 ^ c.bits := Nat.pow_dvd_pow 2 c.twelve_lt_bits.le
      rw [if_neg hlen, if_neg hzero]
      by_cases hsame : ((s.addr + s.len - 1#c.bits) ^^^
          (s.addr + BitVec.ofNat c.bits c.bytes - 1#c.bits)) &&& -0x1000#c.bits = 0#c.bits
      · obtain ⟨hcell, hpage⟩ := (crosses_cell_iff s hzero).mp hsame
        have hsplit := text_add mem s.addr s.len.toNat (c.bytes - s.len.toNat)
        rw [Nat.add_sub_cancel' hshort] at hsplit
        have herase := erase_forward order (c := c) (t := s.chars mem)
          (g := text mem (s.addr + BitVec.ofNat c.bits s.len.toNat) (c.bytes - s.len.toNat))
          (by rw [Str.length_chars, length_text]; omega)
        rw [length_text, Str.chars, ← hsplit] at herase
        refine ⟨[s.addr], ?_, ?_⟩
        · rw [if_neg (not_not.mpr hsame), herase, Str.chars]
        · intro a ha
          rw [List.mem_singleton.mp ha]
          have hforward := onPages_forward (k := 12) (a := s.addr) (n := s.len.toNat) (d := 0)
            (m := c.bytes) (e := c.bytes - s.len.toNat) (by omega) (by omega) (by omega) (by omega)
          rwa [BitVec.add_zero] at hforward
      · have hcross := (crosses_cell_iff s hzero).not.mp hsame
        have herase := erase_backward order (c := c)
          (t := text mem (s.addr + BitVec.ofNat c.bits 0) s.len.toNat)
          (g := text mem (s.addr + s.len - BitVec.ofNat c.bits c.bytes) (c.bytes - s.len.toNat))
          (by rw [length_text, length_text]; omega)
        have hsplit := text_backward mem s.addr (le_refl s.len.toNat) hshort
        rw [← s.len_eq, Nat.sub_self] at hsplit
        rw [length_text, ← hsplit, BitVec.add_zero] at herase
        refine ⟨[s.addr + s.len - BitVec.ofNat c.bits c.bytes], ?_, ?_⟩
        · rw [if_pos hsame, herase, Str.chars]
        · intro a ha
          rw [List.mem_singleton.mp ha]
          have hback := onPages_backward (k := 12) (m := c.bytes) (Nat.pos_of_ne_zero hzero) hfits
            (by omega)
          rwa [← s.len_eq] at hback
  · rw [if_neg hshort, if_neg hshort]
    obtain ⟨reads, hloop, hreads⟩ := hashkey2aLoop_eq order mem s.len [] le_rfl
      (Nat.lt_of_not_le hshort) hfits
    rw [← s.len_eq] at hloop
    simp only [hloop, Option.bind_eq_bind, Option.bind_some, List.nil_append]
    have hlast : s.addr + s.len - BitVec.ofNat c.bits c.bytes =
        s.addr + BitVec.ofNat c.bits (s.len.toNat - c.bytes) := by
      conv_lhs =>
        rw [s.len_eq, show s.len.toNat = s.len.toNat - c.bytes + c.bytes by omega, BitVec.ofNat_add]
      rw [← BitVec.add_assoc, BitVec.add_sub_cancel]
    refine ⟨reads ++ [s.addr + s.len - BitVec.ofNat c.bits c.bytes], ?_, ?_⟩
    · rw [Str.chars, drop_text mem s.addr (Nat.sub_le _ _), ← hlast, Nat.sub_sub_self (by omega)]
    · intro a ha
      rcases List.mem_append.mp ha with ha | ha
      · obtain ⟨d, hd, rfl⟩ := hreads a ha
        exact onPages_inside hd
      · rw [List.mem_singleton.mp ha, hlast]
        exact onPages_inside (by omega)

/-! ## Compatibility with the comparison -/

theorem caseMask_upmask : CaseMask upmask :=
  ⟨by decide, by decide⟩

/-- Names that differ in case have the same key. -/
theorem textKey2_congr (order : ByteOrder) {upmask : BitVec 64} (hmask : CaseMask upmask)
    (h : Hash128) {t₁ t₂ : List Byte} (ht : SameName t₁ t₂) :
    textKey2 order upmask h t₁ = textKey2 order upmask h t₂ := by
  have hfold : ∀ {s₁ s₂ : List Byte}, SameName s₁ s₂ →
      foldCase upmask (order.load 64 s₁) = foldCase upmask (order.load 64 s₂) :=
    fun hs => foldCase_congr hmask order hs
  fun_induction textKey2 order upmask h t₁ generalizing t₂ with
  | case1 h t₁ hlong ih =>
      rw [ih (ht.drop 8), textKey2.eq_1 order upmask h t₂, if_pos (ht.length_eq ▸ hlong),
        hfold (ht.take 8)]
  | case2 h t₁ hshort hne =>
      rw [textKey2, if_neg (ht.length_eq ▸ hshort), if_pos (ht.length_eq ▸ hne), fragment, fragment,
        ht.length_eq, hfold (SameName.append rfl ht)]
  | case3 h t₁ hshort hnil =>
      rw [textKey2, if_neg (ht.length_eq ▸ hshort), if_neg (ht.length_eq ▸ hnil)]

/-- A hash function that is compatible with the comparison without case and that reads words of
{lit}`size` bytes safely -/
structure Compatible {κ : Type} (size : Nat)
    (key : Chars w → Str w → Option (κ × List (BitVec w))) : Prop where
  /-- It returns, and no word that it reads touches a page without characters of the text. -/
  reads : ∀ (mem : Chars w) (s : Text w), ∃ k addrs, key mem s.toStr = some (k, addrs) ∧
    ∀ a ∈ addrs, OnPages 12 s.addr s.len.toNat a size
  /-- The key depends on the characters only. -/
  chars : ∀ (mem₁ mem₂ : Chars w) (s₁ s₂ : Text w), s₁.chars mem₁ = s₂.chars mem₂ →
    (key mem₁ s₁.toStr).map Prod.fst = (key mem₂ s₂.toStr).map Prod.fst
  /-- It does not depend on their case. -/
  caseless : ∀ (mem₁ mem₂ : Chars w) (s₁ s₂ : Text w), s₁.len = s₂.len →
    memcasecmp (s₁.chars mem₁) (s₂.chars mem₂) s₁.len.toNat = 0 →
    (key mem₁ s₁.toStr).map Prod.fst = (key mem₂ s₂.toStr).map Prod.fst

/-- A hash function is compatible if it is one of the characters up to case. -/
theorem Compatible.ofText {κ : Type} {size : Nat}
    {key : Chars w → Str w → Option (κ × List (BitVec w))} {textKey : List Byte → κ}
    (hkey : ∀ mem (s : Text w), ∃ addrs, key mem s.toStr = some (textKey (s.chars mem), addrs) ∧
      ∀ a ∈ addrs, OnPages 12 s.addr s.len.toNat a size)
    (hcase : ∀ {t₁ t₂}, SameName t₁ t₂ → textKey t₁ = textKey t₂) : Compatible size key := by
  have hmap : ∀ mem (s : Text w),
      (key mem s.toStr).map Prod.fst = some (textKey (s.chars mem)) := by
    intro mem s
    obtain ⟨addrs, hsome, -⟩ := hkey mem s
    rw [hsome]
    rfl
  refine ⟨fun mem s => ⟨_, hkey mem s⟩, fun mem₁ mem₂ s₁ s₂ hchars => ?_,
    fun mem₁ mem₂ s₁ s₂ hlen hcmp => ?_⟩
  · rw [hmap, hmap, hchars]
  · have hlength : (s₂.chars mem₂).length = (s₁.chars mem₁).length := by
      rw [Str.length_chars, Str.length_chars, hlen]
    rw [← Str.length_chars mem₁ s₁.toStr] at hcmp
    rw [hmap, hmap, hcase ((memcasecmp_eq_zero_iff hlength).mp hcmp)]

/-- Both hash functions are compatible with the comparison without case and read safely, on either
byte order. -/
theorem keys_compatible (order : ByteOrder) (c : CellSize) :
    (∀ h, Compatible 8 fun (mem : Chars c.bits) s => hashkey2 order mem s upmask h) ∧
      Compatible c.bytes (hashkey2a order c) :=
  ⟨fun h => .ofText (fun mem s => hashkey2_eq order c.twelve_lt_bits mem s upmask h)
      fun ht => textKey2_congr order caseMask_upmask h ht,
    .ofText (hashkey2a_eq order c) fun ht => textKey2a_congr order ht⟩

end Keys
end Hash
end Gforth
