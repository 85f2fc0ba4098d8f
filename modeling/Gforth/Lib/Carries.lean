import Gforth.Lib.Doubles

/-!
# Carries and borrows

Sums and differences of words that wrap around, with the carry or borrow recovered by an unsigned
comparison, and doubles that are known up to overflow.

Main results:

- Theorems {lit}`toNat_add_carry` and {lit}`toNat_sub_borrow`: the comparison finds the overflow.
- Theorem {lit}`twoCell_eq`: a double is known by the values of its halves up to overflow.
-/

namespace Gforth
namespace Lib

variable {w : Nat}

/-- The number of a condition: 1 or 0 -/
def bit (b : Bool) : BitVec w :=
  if b then 1#w else 0#w

/-! ## Values of words up to overflow -/

/-- Cells that are congruent are equal. -/
theorem eq_of_toNat_modEq {x y : BitVec w} (h : (x.toNat : Int) ≡ y.toNat [ZMOD (2 ^ w : Nat)]) :
    x = y := by
  refine BitVec.eq_of_toNat_eq ?_
  have hmod := Int.natCast_modEq_iff.mp h
  rwa [Nat.ModEq, Nat.mod_eq_of_lt x.isLt, Nat.mod_eq_of_lt y.isLt] at hmod

/-- Addition wraps around. -/
theorem toNat_add_modEq (x y : BitVec w) :
    ((x + y).toNat : Int) ≡ x.toNat + y.toNat [ZMOD (2 ^ w : Nat)] := by
  rw [BitVec.toNat_add, ← Nat.cast_add]
  exact Int.natCast_modEq_iff.mpr (Nat.mod_modEq _ _)

/-- Multiplication wraps around. -/
theorem toNat_mul_modEq (x y : BitVec w) :
    ((x * y).toNat : Int) ≡ x.toNat * y.toNat [ZMOD (2 ^ w : Nat)] := by
  rw [BitVec.toNat_mul, ← Nat.cast_mul]
  exact Int.natCast_modEq_iff.mpr (Nat.mod_modEq _ _)

/-- Subtraction wraps around. -/
theorem toNat_sub_modEq (x y : BitVec w) :
    ((x - y).toNat : Int) ≡ x.toNat - y.toNat [ZMOD (2 ^ w : Nat)] := by
  have hadd := toNat_add_modEq (x - y) y
  rw [BitVec.sub_add_cancel] at hadd
  have := (hadd.sub_right (y.toNat : Int)).symm
  rwa [add_sub_cancel_right] at this

theorem toNat_neg_modEq (x : BitVec w) :
    ((-x).toNat : Int) ≡ -x.toNat [ZMOD (2 ^ w : Nat)] := by
  have hsub := toNat_sub_modEq 0#w x
  rwa [BitVec.zero_sub, BitVec.toNat_zero, Nat.cast_zero, zero_sub] at hsub

/-- The complement of a cell is its negation less one. -/
theorem toNat_not_modEq (x : BitVec w) :
    ((~~~x).toNat : Int) ≡ -1 - x.toNat [ZMOD (2 ^ w : Nat)] := by
  have := x.isLt
  have hnot : ((~~~x).toNat : Int) = -1 - x.toNat + (2 ^ w : Nat) := by
    rw [BitVec.toNat_not]
    omega
  rw [hnot]
  exact Int.add_modEq_right

theorem toNat_bit_modEq (b : Bool) :
    ((bit b : BitVec w).toNat : Int) ≡ b.toNat [ZMOD (2 ^ w : Nat)] := by
  cases b with
  | false => rw [bit, if_neg Bool.false_ne_true, BitVec.toNat_zero, Bool.toNat_false]
  | true =>
    rw [bit, if_pos rfl, BitVec.toNat_ofNat, Bool.toNat_true]
    exact Int.natCast_modEq_iff.mpr (Nat.mod_modEq _ _)

/-! ## Carries and borrows -/

/-- The sum of two words is less than one of them exactly if there is a carry. -/
theorem toNat_add_carry (x y : BitVec w) :
    x.toNat + y.toNat = (decide (x + y < x)).toNat * 2 ^ w + (x + y).toNat := by
  have hx := x.isLt
  have hy := y.isLt
  have hsum := BitVec.toNat_add x y
  rcases Nat.lt_or_ge (x.toNat + y.toNat) (2 ^ w) with hlt | hge
  · rw [Nat.mod_eq_of_lt hlt] at hsum
    rw [decide_eq_false (by rw [BitVec.lt_def]; omega), Bool.toNat_false]
    omega
  · rw [Nat.mod_eq_sub_mod hge, Nat.mod_eq_of_lt (by omega)] at hsum
    rw [decide_eq_true (by rw [BitVec.lt_def]; omega), Bool.toNat_true]
    omega

/-- The difference of two words borrows exactly if the first one is less. -/
theorem toNat_sub_borrow (x y : BitVec w) :
    (decide (x < y)).toNat * 2 ^ w + x.toNat = y.toNat + (x - y).toNat := by
  have hx := x.isLt
  have hy := y.isLt
  have hdiff := BitVec.toNat_sub x y
  rcases Nat.lt_or_ge x.toNat y.toNat with hlt | hge
  · rw [Nat.mod_eq_of_lt (by omega)] at hdiff
    rw [decide_eq_true (BitVec.lt_def.mpr hlt), Bool.toNat_true]
    omega
  · rw [BitVec.toNat_sub_of_le (BitVec.le_def.mpr hge),
      decide_eq_false (by rw [BitVec.lt_def]; omega), Bool.toNat_false]
    omega

/-- A sum wraps around at most once. -/
theorem toNat_add_cases (x y : BitVec w) :
    (x.toNat + y.toNat < 2 ^ w ∧ (x + y).toNat = x.toNat + y.toNat) ∨
      (2 ^ w ≤ x.toNat + y.toNat ∧ (x + y).toNat = x.toNat + y.toNat - 2 ^ w) := by
  have hcarry := toNat_add_carry x y
  have hsum := (x + y).isLt
  cases hbit : decide (x + y < x) with
  | false =>
    rw [hbit, Bool.toNat_false] at hcarry
    omega
  | true =>
    rw [hbit, Bool.toNat_true] at hcarry
    omega

/-- A difference with and without a borrow -/
theorem toNat_sub_cases (x y : BitVec w) :
    (y.toNat ≤ x.toNat ∧ (x - y).toNat = x.toNat - y.toNat) ∨
      (x.toNat < y.toNat ∧ (x - y).toNat = x.toNat + 2 ^ w - y.toNat) := by
  have hborrow := toNat_sub_borrow x y
  have hx := x.isLt
  have hdiff := (x - y).isLt
  cases hbit : decide (x < y) with
  | false =>
    rw [hbit, Bool.toNat_false] at hborrow
    omega
  | true =>
    rw [hbit, Bool.toNat_true] at hborrow
    omega

/-! ## Doubles -/

/-- Halves that have the right values up to overflow make the double. -/
theorem twoCell_eq {lo hi : BitVec w} {d : BitVec (w + w)} {h n : Int}
    (hhigh : (hi.toNat : Int) ≡ h [ZMOD (2 ^ w : Nat)])
    (hd : (d.toNat : Int) ≡ n [ZMOD (2 ^ (w + w) : Nat)])
    (hvalue : h * (2 ^ w : Nat) + lo.toNat = n) : twoCell lo hi = d := by
  refine eq_of_toNat_modEq (Int.ModEq.trans ?_ hd.symm)
  rw [toNat_twoCell, two_pow_add_self, ← hvalue]
  push_cast
  exact (Int.ModEq.mul_right' hhigh).add_right _

end Lib
end Gforth
