import Gforth.Lib.Doubles
import Mathlib.Data.Nat.Bitwise

/-!
# Shifts of double-width words

The halves of a shifted or rotated double, for distances up to a word and from a word on.

Main results:

- Theorems {lit}`twoCell_shiftLeft`, {lit}`twoCell_ushiftRight` and {lit}`twoCell_sshiftRight`: the
  bits that one half passes to the other.
- Theorems {lit}`twoCell_rotateLeft` and {lit}`twoCell_rotateRight`: both halves pass bits.
-/

namespace Gforth
namespace Lib

variable {w u : Nat}

/-! ## Bits of doubles -/

theorem getLsbD_twoCell (lo hi : BitVec w) (i : Nat) :
    (twoCell lo hi).getLsbD i = if i < w then lo.getLsbD i else hi.getLsbD (i - w) :=
  BitVec.getLsbD_append

theorem msb_twoCell (lo hi : BitVec w) : (twoCell lo hi).msb = hi.msb := by
  rw [twoCell, BitVec.msb_append]
  cases w with
  | zero => rw [if_pos rfl, BitVec.of_length_zero (x := hi), BitVec.of_length_zero (x := lo)]
  | succ w => rw [if_neg (Nat.succ_ne_zero w)]

/-- A double is known by the bits of its halves. -/
theorem eq_twoCell {d : BitVec (w + w)} {lo hi : BitVec w}
    (hlo : ∀ i < w, d.getLsbD i = lo.getLsbD i)
    (hhi : ∀ i < w, d.getLsbD (w + i) = hi.getLsbD i) : d = twoCell lo hi := by
  refine BitVec.eq_of_getLsbD_eq fun i hi' => ?_
  rw [getLsbD_twoCell]
  rcases Nat.lt_or_ge i w with hlt | hge
  · rw [if_pos hlt, hlo i hlt]
  · rw [if_neg (by omega), ← hhi (i - w) (by omega), Nat.add_sub_cancel' hge]

/-- Doubles are joined by bits in both cells. -/
theorem twoCell_or (lo hi lo' hi' : BitVec w) :
    twoCell lo hi ||| twoCell lo' hi' = twoCell (lo ||| lo') (hi ||| hi') := by
  refine BitVec.eq_of_getLsbD_eq fun i _ => ?_
  simp only [BitVec.getLsbD_or, getLsbD_twoCell]
  split <;> rfl

/-! ## Masks -/

/-- The mask of a power of two is a remainder. -/
theorem toNat_and_sub_one {u m : BitVec w} {j : Nat} (hm : m.toNat = 2 ^ j) :
    (u &&& (m - 1#w)).toNat = u.toNat % m.toNat := by
  have hpos := Nat.two_pow_pos j
  have hlt := m.isLt
  have hone : (1#w).toNat = 1 := by
    cases w with
    | zero => omega
    | succ w => rw [BitVec.toNat_ofNat, Nat.one_mod_two_pow (Nat.succ_pos w)]
  rw [BitVec.toNat_and, BitVec.toNat_sub_of_le (by rw [BitVec.le_def]; omega), hone, hm,
    Nat.and_two_pow_sub_one_eq_mod]

/-- One bit of a word -/
theorem and_ne_zero_iff {u m : BitVec w} {j : Nat} (hm : m.toNat = 2 ^ j) :
    u &&& m ≠ 0#w ↔ m.toNat ≤ u.toNat % (m.toNat + m.toNat) := by
  have hmod := Nat.mod_lt u.toNat (Nat.two_pow_pos j)
  have hbit : (u &&& m).toNat = (u.toNat.testBit j).toNat * 2 ^ j := by
    rw [BitVec.toNat_and, hm, Nat.and_two_pow]
  rw [Ne, ← BitVec.toNat_inj, hbit, BitVec.toNat_zero, Nat.testBit_eq_decide_div_mod_eq, hm,
    ← Nat.mul_two, Nat.mod_mul]
  rcases Nat.mod_two_eq_zero_or_one (u.toNat / 2 ^ j) with heven | hodd
  · rw [heven]
    simp [hmod]
  · rw [hodd]
    simp

/-! ## Shifts -/

/-- A shift to the left by less than a cell moves bits from the low to the high cell. -/
theorem twoCell_shiftLeft (lo hi : BitVec w) (h : u ≤ w) :
    twoCell lo hi <<< u = twoCell (lo <<< u) (hi <<< u ||| lo >>> (w - u)) := by
  refine eq_twoCell (fun i hi' => ?_) (fun i hi' => ?_)
  · rw [BitVec.getLsbD_shiftLeft, BitVec.getLsbD_shiftLeft, getLsbD_twoCell, if_pos (by omega)]
    simp [hi', Nat.lt_add_left w hi']
  · rw [BitVec.getLsbD_shiftLeft, BitVec.getLsbD_or, BitVec.getLsbD_shiftLeft,
      BitVec.getLsbD_ushiftRight, getLsbD_twoCell]
    rcases Nat.lt_or_ge i u with hlt | hge
    · rw [if_pos (by omega), show w + i - u = w - u + i by omega]
      simp [hi', hlt]
      omega
    · rw [if_neg (by omega), show w + i - u - w = i - u by omega,
        BitVec.getLsbD_of_ge lo (w - u + i) (by omega)]
      simp [hi', Nat.not_lt.mpr hge]
      omega

/-- A shift to the left by a cell or more clears the low cell. -/
theorem twoCell_shiftLeft_of_ge (lo hi : BitVec w) (h : w ≤ u) :
    twoCell lo hi <<< u = twoCell 0#w (lo <<< (u - w)) := by
  refine eq_twoCell (fun i hi' => ?_) (fun i hi' => ?_)
  · rw [BitVec.getLsbD_shiftLeft, decide_eq_true (Nat.lt_of_lt_of_le hi' h)]
    simp
  · rw [BitVec.getLsbD_shiftLeft, BitVec.getLsbD_shiftLeft, getLsbD_twoCell]
    rcases Nat.lt_or_ge (w + i) u with hlt | hge
    · simp [hlt, show i < u - w by omega]
    · rw [if_pos (by omega), show w + i - u = i - (u - w) by omega]
      simp [hi', Nat.not_lt.mpr hge, show ¬i < u - w by omega]

/-- A shift to the right by less than a cell moves bits from the high to the low cell. -/
theorem twoCell_ushiftRight (lo hi : BitVec w) (h : u ≤ w) :
    twoCell lo hi >>> u = twoCell (lo >>> u ||| hi <<< (w - u)) (hi >>> u) := by
  refine eq_twoCell (fun i hi' => ?_) (fun i hi' => ?_)
  · rw [BitVec.getLsbD_ushiftRight, BitVec.getLsbD_or, BitVec.getLsbD_ushiftRight,
      BitVec.getLsbD_shiftLeft, getLsbD_twoCell]
    rcases Nat.lt_or_ge (u + i) w with hlt | hge
    · simp [hlt, show i < w - u by omega]
    · rw [if_neg (by omega), BitVec.getLsbD_of_ge lo (u + i) hge,
        show u + i - w = i - (w - u) by omega]
      simp [hi', show ¬i < w - u by omega]
  · rw [BitVec.getLsbD_ushiftRight, BitVec.getLsbD_ushiftRight, getLsbD_twoCell,
      if_neg (by omega), show u + (w + i) - w = u + i by omega]

/-- A shift to the right by a cell or more clears the high cell. -/
theorem twoCell_ushiftRight_of_ge (lo hi : BitVec w) (h : w ≤ u) :
    twoCell lo hi >>> u = twoCell (hi >>> (u - w)) 0#w := by
  refine eq_twoCell (fun i hi' => ?_) (fun i hi' => ?_)
  · rw [BitVec.getLsbD_ushiftRight, BitVec.getLsbD_ushiftRight, getLsbD_twoCell,
      if_neg (by omega), show u + i - w = u - w + i by omega]
  · rw [BitVec.getLsbD_ushiftRight, getLsbD_twoCell, if_neg (by omega),
      BitVec.getLsbD_of_ge hi _ (by omega), BitVec.getLsbD_zero]

/-- An arithmetic shift by less than a cell -/
theorem twoCell_sshiftRight (lo hi : BitVec w) (h : u ≤ w) :
    (twoCell lo hi).sshiftRight u =
      twoCell (lo >>> u ||| hi <<< (w - u)) (hi.sshiftRight u) := by
  refine eq_twoCell (fun i hi' => ?_) (fun i hi' => ?_)
  · rw [BitVec.getLsbD_sshiftRight, if_pos (by omega), ← BitVec.getLsbD_ushiftRight,
      twoCell_ushiftRight lo hi h, getLsbD_twoCell, if_pos hi']
    simp
    omega
  · rw [BitVec.getLsbD_sshiftRight, BitVec.getLsbD_sshiftRight, msb_twoCell,
      decide_eq_false (by omega), decide_eq_false (by omega)]
    rcases Nat.lt_or_ge (u + i) w with hlt | hge
    · rw [if_pos (by omega), if_pos hlt, getLsbD_twoCell, if_neg (by omega),
        show u + (w + i) - w = u + i by omega]
    · rw [if_neg (by omega), if_neg (by omega)]

/-- An arithmetic shift by a cell or more fills the high cell with the sign. -/
theorem twoCell_sshiftRight_of_ge (lo hi : BitVec w) (h : w ≤ u) :
    (twoCell lo hi).sshiftRight u = twoCell (hi.sshiftRight (u - w)) (hi.sshiftRight w) := by
  refine eq_twoCell (fun i hi' => ?_) (fun i hi' => ?_)
  · rw [BitVec.getLsbD_sshiftRight, BitVec.getLsbD_sshiftRight, msb_twoCell,
      decide_eq_false (by omega), decide_eq_false (by omega)]
    rcases Nat.lt_or_ge (u - w + i) w with hlt | hge
    · rw [if_pos (by omega), if_pos hlt, getLsbD_twoCell, if_neg (by omega),
        show u + i - w = u - w + i by omega]
    · rw [if_neg (by omega), if_neg (by omega)]
  · rw [BitVec.getLsbD_sshiftRight, BitVec.getLsbD_sshiftRight, msb_twoCell,
      if_neg (by omega), if_neg (by omega)]
    simp [show ¬w ≤ i by omega]

/-! ## Rotations -/

theorem rotateLeft_eq {v : Nat} (d : BitVec v) (h : u < v) :
    d.rotateLeft u = d <<< u ||| d >>> (v - u) := by
  rw [BitVec.rotateLeft_def, Nat.mod_eq_of_lt h]

theorem rotateRight_eq {v : Nat} (d : BitVec v) (h : u < v) :
    d.rotateRight u = d >>> u ||| d <<< (v - u) := by
  rw [BitVec.rotateRight_def, Nat.mod_eq_of_lt h]

/-- A rotation to the left by less than a cell -/
theorem twoCell_rotateLeft (lo hi : BitVec w) (h : u < w) :
    (twoCell lo hi).rotateLeft u =
      twoCell (lo <<< u ||| hi >>> (w - u)) (hi <<< u ||| lo >>> (w - u)) := by
  rw [rotateLeft_eq _ (by omega), twoCell_shiftLeft lo hi (by omega),
    twoCell_ushiftRight_of_ge lo hi (by omega), twoCell_or,
    show w + w - u - w = w - u by omega, BitVec.or_zero]

/-- A rotation to the left by a cell or more exchanges the cells first. -/
theorem twoCell_rotateLeft_add (lo hi : BitVec w) (h : u < w) :
    (twoCell lo hi).rotateLeft (w + u) =
      twoCell (hi <<< u ||| lo >>> (w - u)) (lo <<< u ||| hi >>> (w - u)) := by
  rw [rotateLeft_eq _ (by omega), twoCell_shiftLeft_of_ge lo hi (by omega),
    twoCell_ushiftRight lo hi (by omega), twoCell_or, show w + w - (w + u) = w - u by omega,
    show w - (w - u) = u by omega, show w + u - w = u by omega, BitVec.zero_or, BitVec.or_comm]

/-- A rotation to the right by less than a cell -/
theorem twoCell_rotateRight (lo hi : BitVec w) (h : u < w) :
    (twoCell lo hi).rotateRight u =
      twoCell (lo >>> u ||| hi <<< (w - u)) (hi >>> u ||| lo <<< (w - u)) := by
  rw [rotateRight_eq _ (by omega), twoCell_ushiftRight lo hi (by omega),
    twoCell_shiftLeft_of_ge lo hi (by omega), twoCell_or,
    show w + w - u - w = w - u by omega, BitVec.or_zero]

/-- A rotation to the right by a cell or more exchanges the cells first. -/
theorem twoCell_rotateRight_add (lo hi : BitVec w) (h : u < w) :
    (twoCell lo hi).rotateRight (w + u) =
      twoCell (hi >>> u ||| lo <<< (w - u)) (lo >>> u ||| hi <<< (w - u)) := by
  rw [rotateRight_eq _ (by omega), twoCell_ushiftRight_of_ge lo hi (by omega),
    twoCell_shiftLeft lo hi (by omega), twoCell_or, show w + w - (w + u) = w - u by omega,
    show w - (w - u) = u by omega, show w + u - w = u by omega, BitVec.zero_or,
    BitVec.or_comm (hi <<< (w - u))]

end Lib
end Gforth
