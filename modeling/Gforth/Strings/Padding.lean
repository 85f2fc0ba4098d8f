import Gforth.Compile.Words
import Gforth.Hash.Keys
import Gforth.Lib.Alignment

/-!
# The sizes of string buffers

The buffer of a string has a cell for the length and the characters.  Its size is the length rounded
up to a power of two.

Main results:

- Theorem {lit}`toPow2Colon_eq`: the definition in Forth does the same as the primitive.
- Theorem {lit}`padding_spec`: the size of a buffer.
- Theorem {lit}`padding_fits_iff`: the lengths for which the characters fit.
-/

namespace Gforth
namespace Strings

open Lib
open Arith (nlz)
open Compile (toPow2)
open Hash.Keys (CellSize)

/-! ## Powers of two -/

section Filled

variable {w : Nat}

/-- A bit is set in {lit}`y` if one of the next {lit}`m` bits, itself included, is set in
{lit}`x`. -/
def Filled (m : Nat) (x y : BitVec w) : Prop :=
  ∀ i, y.getLsbD i = true ↔ ∃ j, i ≤ j ∧ j < i + m ∧ x.getLsbD j = true

/-- At the start one bit is looked at. -/
theorem filled_self (x : BitVec w) : Filled 1 x x := by
  intro i
  constructor
  · intro h
    exact ⟨i, le_rfl, Nat.lt_succ_self i, h⟩
  · rintro ⟨j, hle, hlt, h⟩
    rwa [show i = j by omega]

/-- A shift by the number of bits that have been looked at doubles it. -/
theorem Filled.double {m : Nat} {x y : BitVec w} (h : Filled m x y) :
    Filled (m + m) x (y ||| y >>> m) := by
  intro i
  rw [BitVec.getLsbD_or, BitVec.getLsbD_ushiftRight, Bool.or_eq_true, h i, h (m + i)]
  constructor
  · rintro (⟨j, hle, hlt, hx⟩ | ⟨j, hle, hlt, hx⟩)
    · exact ⟨j, hle, by omega, hx⟩
    · exact ⟨j, by omega, by omega, hx⟩
  · rintro ⟨j, hle, hlt, hx⟩
    by_cases hnear : j < i + m
    · exact Or.inl ⟨j, hle, hnear, hx⟩
    · exact Or.inr ⟨j, by omega, by omega, hx⟩

theorem log2_lt {x : BitVec w} (hx : x ≠ 0#w) : x.toNat.log2 < w := by
  rw [Nat.log2_lt (BitVec.toNat_pos_of_ne_zero hx).ne']
  exact x.isLt

/-- A bit at or above a position is set exactly below the highest one. -/
theorem getLsbD_exists_iff {x : BitVec w} (hx : x ≠ 0#w) (i : Nat) :
    (∃ j, i ≤ j ∧ x.getLsbD j = true) ↔ i ≤ x.toNat.log2 := by
  have hpos : x.toNat ≠ 0 := (BitVec.toNat_pos_of_ne_zero hx).ne'
  constructor
  · rintro ⟨j, hle, hj⟩
    exact hle.trans ((Nat.le_log2 hpos).mpr (Nat.ge_two_pow_of_testBit hj))
  · intro hle
    exact ⟨x.toNat.log2, hle, Nat.testBit_log2 hpos⟩

/-- No bit is set behind zero. -/
theorem Filled.zero {m : Nat} {y : BitVec w} (h : Filled m 0#w y) : y = 0#w := by
  refine BitVec.eq_of_getLsbD_eq fun i _ => ?_
  rw [BitVec.getLsbD_zero, ← Bool.not_eq_true, h i]
  rintro ⟨j, -, -, hj⟩
  rw [BitVec.getLsbD_zero] at hj
  cases hj

/-- All bits have been looked at. -/
theorem Filled.eq_allOnes {m : Nat} {x y : BitVec w} (h : Filled m x y) (hm : w ≤ m)
    (hx : x ≠ 0#w) : y = (-1#w) >>> nlz x := by
  have hlog := log2_lt hx
  refine BitVec.eq_of_getLsbD_eq fun i hi => ?_
  rw [Bool.eq_iff_iff, h i, nlz, if_neg hx, BitVec.getLsbD_ushiftRight, BitVec.neg_one_eq_allOnes,
    BitVec.getLsbD_allOnes, decide_eq_true_eq]
  constructor
  · rintro ⟨j, hle, -, hj⟩
    have := (getLsbD_exists_iff hx i).mp ⟨j, hle, hj⟩
    omega
  · intro hlt
    obtain ⟨j, hle, hj⟩ := (getLsbD_exists_iff hx i).mpr (by omega)
    exact ⟨j, hle, lt_of_lt_of_le (BitVec.lt_of_getLsbD hj) (hm.trans (Nat.le_add_left m i)), hj⟩

/-- For {lit}`or` an arithmetic shift by one is a logical one. -/
theorem or_sshiftRight_one (x : BitVec w) : x ||| x.sshiftRight 1 = x ||| x >>> 1 := by
  refine BitVec.eq_of_getLsbD_eq fun i hi => ?_
  rw [BitVec.getLsbD_or, BitVec.getLsbD_or, BitVec.getLsbD_sshiftRight, BitVec.getLsbD_ushiftRight,
    decide_eq_false (by omega : ¬w ≤ i), Bool.not_false, Bool.true_and]
  by_cases hlast : 1 + i < w
  · rw [if_pos hlast]
  · rw [if_neg hlast, BitVec.msb_eq_getLsbD_last, show w - 1 = i by omega,
      BitVec.getLsbD_of_ge x (1 + i) (by omega), Bool.or_self, Bool.or_false]

end Filled

/-- The definition of {lit}`>pow2` in Forth -/
def toPow2Colon (c : CellSize) (n : BitVec c.bits) : BitVec c.bits :=
  let x := n - 1#_
  let x := x ||| x.sshiftRight 1
  let x := x ||| x >>> 2
  let x := x ||| x >>> 4
  let x := x ||| x >>> 8
  let x := x ||| x >>> 16
  let x := if c.bytes = 8 then x ||| x >>> 32 else x
  x + 1#_

/-- The definition in Forth does the same as the primitive. -/
theorem toPow2Colon_eq (c : CellSize) (n : BitVec c.bits) : toPow2Colon c n = toPow2 n := by
  obtain ⟨m, y, hm, hfilled, hcolon⟩ : ∃ m, ∃ y : BitVec c.bits, c.bits ≤ m ∧
      Filled m (n - 1#_) y ∧ toPow2Colon c n = y + 1#_ := by
    have h16 := (filled_self (n - 1#_)).double.double.double.double.double
    have h32 := h16.double
    cases c with
    | four => exact ⟨_, _, le_rfl, h16, by rw [toPow2Colon, or_sshiftRight_one]; rfl⟩
    | eight => exact ⟨_, _, le_rfl, h32, by rw [toPow2Colon, or_sshiftRight_one]; rfl⟩
  rw [hcolon, toPow2]
  by_cases hone : n = 1#_
  · rw [hone, BitVec.sub_self] at hfilled
    rw [if_pos hone, hone, hfilled.zero, BitVec.zero_add]
  · have hne : n - 1#_ ≠ 0#_ := fun heq => hone (BitVec.sub_eq_iff_eq_add.mp heq ▸ BitVec.zero_add _)
    rw [if_neg hone, hfilled.eq_allOnes hm hne]

section Rounding

variable {w : Nat} {u : BitVec w}

/-- The ones from the highest bit that is set on -/
theorem toNat_ones_nlz {x : BitVec w} (hx : x ≠ 0#w) :
    ((-1#w) >>> nlz x).toNat = 2 ^ (x.toNat.log2 + 1) - 1 := by
  have hlog := log2_lt hx
  have hexp : 2 ^ w = 2 ^ (w - 1 - x.toNat.log2) * 2 ^ (x.toNat.log2 + 1) := by
    rw [← Nat.pow_add]
    congr 1
    omega
  rw [nlz, if_neg hx, BitVec.toNat_ushiftRight, BitVec.neg_one_eq_allOnes, BitVec.toNat_allOnes,
    Nat.shiftRight_eq_div_pow, hexp]
  have hpos := Nat.two_pow_pos (w - 1 - x.toNat.log2)
  have hpow := Nat.two_pow_pos (x.toNat.log2 + 1)
  refine Nat.div_eq_of_lt_le ?_ ?_
  · rw [Nat.sub_mul, Nat.one_mul, Nat.mul_comm]
    omega
  · rw [Nat.sub_add_cancel hpow, Nat.mul_comm]
    exact Nat.sub_lt (Nat.mul_pos hpow hpos) Nat.one_pos

/-- {lit}`>pow2` is a power of two. -/
theorem toNat_toPow2 (h : 1 < u.toNat) :
    (toPow2 u).toNat = 2 ^ ((u.toNat - 1).log2 + 1) % 2 ^ w := by
  have hw : 0 < w := by
    refine Nat.pos_of_ne_zero ?_
    rintro rfl
    have hlt := u.isLt
    omega
  have hsub : (u - 1#w).toNat = u.toNat - 1 := by
    rw [BitVec.toNat_sub_of_le, BitVec.toNat_one hw]
    rw [BitVec.le_def, BitVec.toNat_ofNat]
    exact (Nat.mod_le _ _).trans h.le
  have hx : u - 1#w ≠ 0#w := by
    rw [Ne, ← BitVec.toNat_inj, hsub, BitVec.toNat_zero]
    omega
  have hone : u ≠ 1#w := fun heq => hx (by rw [heq, BitVec.sub_self])
  have hpow := Nat.two_pow_pos ((u.toNat - 1).log2 + 1)
  rw [toPow2, if_neg hone, BitVec.toNat_add, toNat_ones_nlz hx, hsub, BitVec.toNat_ofNat,
    Nat.add_mod_mod, Nat.sub_add_cancel hpow]

/-- The next power of two -/
theorem toPow2_spec (h : 1 < u.toNat) (hle : u.toNat ≤ 2 ^ (w - 1)) :
    ∃ k, (toPow2 u).toNat = 2 ^ k ∧ u.toNat ≤ 2 ^ k := by
  have hne : u.toNat - 1 ≠ 0 := by omega
  have hlow : u.toNat - 1 < 2 ^ ((u.toNat - 1).log2 + 1) := Nat.lt_log2_self
  have hlog : (u.toNat - 1).log2 < w - 1 := by
    rw [Nat.log2_lt hne]
    omega
  refine ⟨(u.toNat - 1).log2 + 1, ?_, by omega⟩
  rw [toNat_toPow2 h, Nat.mod_eq_of_lt (Nat.pow_lt_pow_right (by decide) (by omega))]

/-- There is no next power of two. -/
theorem toPow2_of_gt (h : 1 < u.toNat) (hgt : 2 ^ (w - 1) < u.toNat) : toPow2 u = 0#w := by
  have hlt := u.isLt
  have hhigh : w - 1 ≤ (u.toNat - 1).log2 := (Nat.le_log2 (by omega)).mpr (by omega)
  have hlog : (u.toNat - 1).log2 < w := by
    rw [Nat.log2_lt (by omega)]
    omega
  refine BitVec.eq_of_toNat_eq ?_
  rw [toNat_toPow2 h, show (u.toNat - 1).log2 + 1 = w by omega, Nat.mod_self, BitVec.toNat_zero]

end Rounding

theorem toPow2_zero (c : CellSize) : toPow2 0#c.bits = 0#_ := by
  cases c <;> decide

/-! ## Sizes -/

/-- A cell, as a number of bytes -/
def cell (c : CellSize) : BitVec c.bits :=
  BitVec.ofNat c.bits c.bytes

theorem toPow2_four_cells (c : CellSize) : (toPow2 (4#_ * cell c)).toNat = 4 * c.bytes := by
  cases c <;> decide

/-- {lit}`$padding` -/
def padding (c : CellSize) (n : BitVec c.bits) : BitVec c.bits :=
  toPow2 ((n + (6#_ * cell c - 1#_)) &&& (-4#_ * cell c))

/-- The length of the longest string for which there is a size -/
def maxLength (c : CellSize) : Nat :=
  2 ^ (c.bits - 1) - 2 * c.bytes

/-- The number that is rounded up -/
theorem padding_eq (c : CellSize) (n : BitVec c.bits) : ∃ r : BitVec c.bits,
    padding c n = toPow2 r ∧
      r.toNat = (n.toNat + (6 * c.bytes - 1)) % 2 ^ c.bits / (4 * c.bytes) * (4 * c.bytes) := by
  obtain ⟨k, hk, hmask, hpow⟩ : ∃ k, k < c.bits ∧
      -4#_ * cell c = -BitVec.ofNat c.bits (2 ^ k) ∧ 2 ^ k = 4 * c.bytes := by
    cases c with
    | four => exact ⟨4, by decide, by decide, rfl⟩
    | eight => exact ⟨5, by decide, by decide, rfl⟩
  have hadd : (6#_ * cell c - 1#_).toNat = 6 * c.bytes - 1 := by
    cases c <;> decide
  refine ⟨_, rfl, ?_⟩
  rw [hmask, toNat_and_neg hk, BitVec.toNat_add, hadd, hpow]

theorem two_pow_bits (c : CellSize) :
    2 ^ c.bits = 2 * 2 ^ (c.bits - 1) ∧ 2 ^ 31 ≤ 2 ^ (c.bits - 1) ∧ 2 ^ (c.bits - 1) % 32 = 0 := by
  cases c <;> decide

section Rounded

variable {c : CellSize} {n r : Nat}

/-- The rounded number, for a string that fits -/
theorem rounded_of_le (hn : n ≤ maxLength c)
    (hr : r = (n + (6 * c.bytes - 1)) % 2 ^ c.bits / (4 * c.bytes) * (4 * c.bytes)) :
    r ≤ 2 ^ (c.bits - 1) ∧ c.bytes + n ≤ r ∧ 4 * c.bytes ≤ r := by
  obtain ⟨htwice, hlarge, hmod⟩ := two_pow_bits c
  have hbytes := c.bytes_le
  rw [maxLength] at hn
  rw [Nat.mod_eq_of_lt (by omega)] at hr
  cases c <;> simp only [CellSize.bytes] at hn hr ⊢ <;> omega

/-- The rounded number, for a string that does not fit -/
theorem rounded_of_gt (hlt : n < 2 ^ c.bits) (hn : maxLength c < n)
    (hr : r = (n + (6 * c.bytes - 1)) % 2 ^ c.bits / (4 * c.bytes) * (4 * c.bytes)) :
    2 ^ (c.bits - 1) < r ∨ r = 0 ∨ r = 4 * c.bytes := by
  obtain ⟨htwice, hlarge, hmod⟩ := two_pow_bits c
  have hbytes := c.bytes_le
  rw [maxLength] at hn
  by_cases hwrap : n + (6 * c.bytes - 1) < 2 ^ c.bits
  · rw [Nat.mod_eq_of_lt hwrap] at hr
    cases c <;> simp only [CellSize.bytes] at hn hr ⊢ <;> omega
  · rw [Nat.mod_eq_sub_mod (not_lt.mp hwrap), Nat.mod_eq_of_lt (by omega)] at hr
    cases c <;> simp only [CellSize.bytes] at hn hr ⊢ <;> omega

end Rounded

/-- The size is a power of two, and there is room for a cell and the characters. -/
theorem padding_spec (c : CellSize) {n : BitVec c.bits} (hn : n.toNat ≤ maxLength c) :
    ∃ k, (padding c n).toNat = 2 ^ k ∧ c.bytes + n.toNat ≤ 2 ^ k ∧ 4 * c.bytes ≤ 2 ^ k := by
  obtain ⟨r, hpad, hr⟩ := padding_eq c n
  have hround := rounded_of_le hn hr
  have hone : 1 < r.toNat := by
    have := c.bytes_pos
    omega
  obtain ⟨k, hk, hle⟩ := toPow2_spec hone hround.1
  exact ⟨k, by rw [hpad, hk], by omega, by omega⟩

/-- A buffer consists of cells. -/
theorem bytes_dvd_padding (c : CellSize) {n : BitVec c.bits} (hn : n.toNat ≤ maxLength c) :
    c.bytes ∣ (padding c n).toNat := by
  obtain ⟨k, hk, -, hfour⟩ := padding_spec c hn
  obtain ⟨m, hm⟩ : ∃ m, c.bytes = 2 ^ m := by
    cases c with
    | four => exact ⟨2, rfl⟩
    | eight => exact ⟨3, rfl⟩
  rw [hk, hm]
  refine pow_dvd_pow 2 ((Nat.pow_le_pow_iff_right one_lt_two).mp ?_)
  rw [← hm]
  omega

/-- There is no room for the characters of a longer string. -/
theorem padding_fits_iff (c : CellSize) (n : BitVec c.bits) :
    c.bytes + n.toNat ≤ (padding c n).toNat ↔ n.toNat ≤ maxLength c := by
  constructor
  · intro hfits
    by_contra hgt
    obtain ⟨r, hpad, hr⟩ := padding_eq c n
    have hpos := c.bytes_pos
    obtain ⟨-, hlarge, -⟩ := two_pow_bits c
    have hbytes := c.bytes_le
    have hlong : 4 * c.bytes < c.bytes + n.toNat := by
      rw [maxLength] at hgt
      omega
    have hsmall : (toPow2 r).toNat ≤ 4 * c.bytes := by
      rcases rounded_of_gt n.isLt (not_le.mp hgt) hr with hhigh | hzero | hfour
      · rw [toPow2_of_gt (by omega) hhigh, BitVec.toNat_zero]
        exact Nat.zero_le _
      · rw [show r = 0#_ from BitVec.eq_of_toNat_eq hzero, toPow2_zero, BitVec.toNat_zero]
        exact Nat.zero_le _
      · rw [show r = 4#_ * cell c from BitVec.eq_of_toNat_eq (hfour.trans (by cases c <;> rfl)),
          toPow2_four_cells]
    rw [hpad] at hfits
    omega
  · intro hn
    obtain ⟨k, hk, hle, -⟩ := padding_spec c hn
    rwa [hk]

end Strings
end Gforth
