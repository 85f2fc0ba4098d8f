import Gforth.Lib.Carries
import Gforth.Lib.DoubleShifts

/-!
# Double cells without a native type

Where the C compiler has no integer type for double cells ({lit}`BUGGY_LONG_LONG`), a double cell is
a structure of two cells, and its arithmetic is done on the cells.

Main results:

- Theorem {lit}`ummul_exact`: the product of two cells from the products of their halves.
- Theorem {lit}`doubles_exact`: all operations compute what the arithmetic on double cells does.
-/

namespace Gforth
namespace Arith
namespace LongLong

open Lib

variable {w : Nat}

/-! ## The C code -/

/-- {lit}`DCell` and {lit}`UDCell`, which differ in the type of {lit}`hi` only -/
structure DCell (w : Nat) where
  hi : BitVec w
  lo : BitVec w
deriving DecidableEq

/-- The double cell that the structure stands for -/
def DCell.val (d : DCell w) : BitVec (w + w) :=
  twoCell d.lo d.hi

/-- {lit}`UH`: the upper half of a cell -/
def uh (x : BitVec w) : BitVec w :=
  x >>> (w / 2)

/-- {lit}`HALFCELL_MASK` -/
def halfcellMask (w : Nat) : BitVec w :=
  ~~~0#w >>> (w / 2)

/-- {lit}`LH`: the lower half of a cell -/
def lh (x : BitVec w) : BitVec w :=
  x &&& halfcellMask w

/-- {lit}`L2U`: the lower half as the upper half -/
def l2u (x : BitVec w) : BitVec w :=
  x <<< (w / 2)

/-- {lit}`dnegate` -/
def dnegate (d1 : DCell w) : DCell w where
  hi := ~~~d1.hi + bit (d1.lo = 0#w)
  lo := -d1.lo

/-- {lit}`ummul` -/
def ummul (a b : BitVec w) : DCell w :=
  let lo := a * b
  let ul := uh a * lh b
  let lu := lh a * uh b
  let uu := uh a * uh b
  let m := ul + lu
  { hi := uu + l2u (bit (m < ul)) + uh m + bit (lo < l2u m)
    lo := lo }

/-- {lit}`mmul` -/
def mmul (a b : BitVec w) : DCell w :=
  let res := ummul a b
  let res := if a.slt 0#w then { res with hi := res.hi - b } else res
  if b.slt 0#w then { res with hi := res.hi - a } else res

/-- {lit}`dadd` -/
def dadd (d1 d2 : DCell w) : DCell w :=
  let lo := d1.lo + d2.lo
  { hi := d1.hi + d2.hi + bit (lo < d1.lo)
    lo := lo }

/-- {lit}`m+` -/
def mPlus (d1 : DCell w) (n : BitVec w) : DCell w :=
  let lo := d1.lo + n
  { hi := d1.hi - bit (n.slt 0#w) + bit (lo < d1.lo)
    lo := lo }

/-- {lit}`d-` -/
def dMinus (d1 d2 : DCell w) : DCell w where
  lo := d1.lo - d2.lo
  hi := d1.hi - d2.hi - bit (d1.lo < d2.lo)

/-- {lit}`d2/` -/
def dTwoSlash (d1 : DCell w) : DCell w where
  hi := d1.hi.sshiftRight 1
  lo := d1.lo >>> 1 ||| d1.hi <<< (w - 1)

/-- {lit}`DZERO` -/
def dzero : DCell w where
  hi := 0#w
  lo := 0#w

/-- {lit}`FLAG` -/
def flag (b : Bool) : BitVec w :=
  -bit b

/-- The comparisons that {lit}`dcomparisons` defines for a type -/
inductive Comparison where
  | equals
  | notEquals
  | lessThan
  | greaterThan
  | lessOrEqual
  | greaterOrEqual

/-- What a comparison says of two numbers -/
def Comparison.holds : Comparison → Int → Int → Bool
  | equals, x, y => x = y
  | notEquals, x, y => x ≠ y
  | lessThan, x, y => x < y
  | greaterThan, x, y => x > y
  | lessOrEqual, x, y => x ≤ y
  | greaterOrEqual, x, y => x ≥ y

/-- {lit}`dcomparisons`: {lit}`lt` is the order of {lit}`hi`; {lit}`lo` is unsigned. -/
def dcomparison (lt : BitVec w → BitVec w → Bool) : Comparison → DCell w → DCell w → BitVec w
  | .equals, x, y => flag (x.lo = y.lo ∧ x.hi = y.hi)
  | .notEquals, x, y => flag (x.lo ≠ y.lo ∨ x.hi ≠ y.hi)
  | .lessThan, x, y => flag (if x.hi = y.hi then x.lo.ult y.lo else lt x.hi y.hi)
  | .greaterThan, x, y => flag (if x.hi = y.hi then y.lo.ult x.lo else lt y.hi x.hi)
  | .lessOrEqual, x, y => flag (if x.hi = y.hi then !y.lo.ult x.lo else !lt y.hi x.hi)
  | .greaterOrEqual, x, y => flag (if x.hi = y.hi then !x.lo.ult y.lo else !lt x.hi y.hi)

/-- The comparisons with {lit}`d` in their names, of signed doubles -/
def dComparison (c : Comparison) (d1 d2 : DCell w) : BitVec w :=
  dcomparison BitVec.slt c d1 d2

/-- The comparisons with {lit}`d0` in their names, of a signed double with zero -/
def dZeroComparison (c : Comparison) (d : DCell w) : BitVec w :=
  dcomparison BitVec.slt c d dzero

/-- The comparisons with {lit}`du` in their names, of unsigned doubles -/
def duComparison (c : Comparison) (ud1 ud2 : DCell w) : BitVec w :=
  dcomparison BitVec.ult c ud1 ud2

/-! ## Flags -/

theorem flag_eq_zero_iff (hw : 0 < w) (b : Bool) : (flag b : BitVec w) = 0#w ↔ b = false := by
  have hone : 1#w ≠ 0#w := by
    rw [Ne, ← BitVec.toNat_inj, BitVec.toNat_zero, BitVec.toNat_ofNat,
      Nat.mod_eq_of_lt (Nat.one_lt_two_pow (Nat.pos_iff_ne_zero.mp hw))]
    exact Nat.one_ne_zero
  rw [flag, BitVec.neg_eq_zero_iff]
  cases b with
  | false => exact iff_of_true rfl rfl
  | true => exact iff_of_false hone Bool.noConfusion

/-- The flag of a flag that is not set -/
theorem flag_not (hw : 0 < w) (b : Bool) :
    flag ((flag b : BitVec w) = 0#w) = (flag (!b) : BitVec w) := by
  refine congrArg flag ?_
  cases b with
  | false => exact decide_eq_true ((flag_eq_zero_iff hw false).mpr rfl)
  | true => exact decide_eq_false fun h => Bool.noConfusion ((flag_eq_zero_iff hw true).mp h)

theorem flag_or (a b : Bool) : (flag a ||| flag b : BitVec w) = flag (a || b) := by
  cases a <;> cases b <;> simp [flag, bit]

/-- A flag in front masks as one behind. -/
theorem flag_and (b : Bool) (u : BitVec w) : flag b &&& u = if b then u else 0#w := by
  cases b with
  | false => simp [flag, bit]
  | true =>
    rw [flag, bit, if_pos rfl, if_pos rfl, BitVec.neg_one_eq_allOnes, BitVec.allOnes_and]

/-! ## Sums and differences -/

theorem twoCell_dlo_dhi (d : BitVec (w + w)) : twoCell (dlo d) (dhi d) = d := by
  refine BitVec.eq_of_toNat_eq ?_
  rw [toNat_twoCell]
  exact (toNat_dhi_dlo d).symm

theorem toNat_val (d : DCell w) : d.val.toNat = d.hi.toNat * 2 ^ w + d.lo.toNat :=
  toNat_twoCell d.lo d.hi

/-- {lit}`d+` on two cells -/
theorem dadd_exact (d1 d2 : DCell w) : (dadd d1 d2).val = d1.val + d2.val := by
  have hcarry := congrArg (Nat.cast : Nat → Int) (toNat_add_carry d1.lo d2.lo)
  refine twoCell_eq ((toNat_add_modEq _ _).trans ((toNat_add_modEq _ _).add (toNat_bit_modEq _)))
    (toNat_add_modEq d1.val d2.val) ?_
  rw [toNat_val, toNat_val]
  push_cast at hcarry ⊢
  simp only [dadd]
  linear_combination -hcarry

/-- {lit}`d-` on two cells -/
theorem dMinus_exact (d1 d2 : DCell w) : (dMinus d1 d2).val = d1.val - d2.val := by
  have hborrow := congrArg (Nat.cast : Nat → Int) (toNat_sub_borrow d1.lo d2.lo)
  refine twoCell_eq ((toNat_sub_modEq _ _).trans ((toNat_sub_modEq _ _).sub (toNat_bit_modEq _)))
    (toNat_sub_modEq d1.val d2.val) ?_
  rw [toNat_val, toNat_val]
  push_cast at hborrow ⊢
  simp only [dMinus]
  linear_combination -hborrow

/-- {lit}`dnegate` on two cells -/
theorem dnegate_exact (d1 : DCell w) : (dnegate d1).val = -d1.val := by
  have hborrow := congrArg (Nat.cast : Nat → Int) (toNat_sub_borrow 0#w d1.lo)
  have hnonzero : ((decide (0#w < d1.lo)).toNat : Int) = 1 - (decide (d1.lo = 0#w)).toNat := by
    by_cases hlo : d1.lo = 0#w
    · rw [decide_eq_true hlo, hlo]
      simp
    · have hpos : 0#w < d1.lo := by
        rw [BitVec.lt_def, BitVec.toNat_zero, Nat.pos_iff_ne_zero]
        exact fun h => hlo (BitVec.eq_of_toNat_eq (by rw [h, BitVec.toNat_zero]))
      rw [decide_eq_true hpos, decide_eq_false hlo]
      simp
  refine twoCell_eq ((toNat_add_modEq _ _).trans ((toNat_not_modEq _).add (toNat_bit_modEq _)))
    (toNat_neg_modEq d1.val) ?_
  rw [toNat_val]
  rw [BitVec.zero_sub, BitVec.toNat_zero] at hborrow
  push_cast at hborrow ⊢
  rw [hnonzero] at hborrow
  simp only [dnegate]
  linear_combination -hborrow

/-- A cell as a double cell is a negative one with a borrow from the high cell. -/
theorem toNat_signExtend_modEq (n : BitVec w) :
    ((n.signExtend (w + w)).toNat : Int) ≡
      n.toNat - (n.slt 0#w).toNat * (2 ^ w : Nat) [ZMOD (2 ^ (w + w) : Nat)] := by
  refine (toNat_modEq_toInt _).trans (congrArg (· % ((2 ^ (w + w) : Nat) : Int)) ?_)
  rw [BitVec.toInt_signExtend_of_le (Nat.le_add_left w w)]
  by_cases hneg : n.toInt < 0
  · rw [(slt_zero_iff n).mpr hneg, Bool.toNat_true]
    rcases toInt_cases n with ⟨h, heq⟩ | ⟨h, heq⟩ <;> omega
  · rw [Bool.eq_false_iff.mpr (mt (slt_zero_iff n).mp hneg), Bool.toNat_false]
    rcases toInt_cases n with ⟨h, heq⟩ | ⟨h, heq⟩ <;> omega

/-- {lit}`m+` on two cells -/
theorem mPlus_exact (d1 : DCell w) (n : BitVec w) :
    (mPlus d1 n).val = d1.val + n.signExtend (w + w) := by
  have hcarry := congrArg (Nat.cast : Nat → Int) (toNat_add_carry d1.lo n)
  refine twoCell_eq ((toNat_add_modEq _ _).trans
    (((toNat_sub_modEq _ _).trans ((Int.ModEq.refl _).sub (toNat_bit_modEq _))).add
      (toNat_bit_modEq _)))
    ((toNat_add_modEq _ _).trans ((Int.ModEq.refl _).add (toNat_signExtend_modEq n))) ?_
  rw [toNat_val]
  push_cast at hcarry ⊢
  simp only [mPlus]
  linear_combination -hcarry

/-! ## Products -/

section Halves

variable {h : Nat}

theorem half_add_self (h : Nat) : (h + h) / 2 = h := by
  omega

theorem toNat_uh (x : BitVec (h + h)) : (uh x).toNat = x.toNat / 2 ^ h := by
  rw [uh, BitVec.toNat_ushiftRight, half_add_self, Nat.shiftRight_eq_div_pow]

/-- The lower half of a cell -/
theorem toNat_lh (x : BitVec (h + h)) : (lh x).toNat = x.toNat % 2 ^ h := by
  have hpos := Nat.two_pow_pos h
  have hmask : (halfcellMask (h + h)).toNat = 2 ^ h - 1 := by
    rw [halfcellMask, BitVec.toNat_ushiftRight, half_add_self, Nat.shiftRight_eq_div_pow,
      BitVec.toNat_not, BitVec.toNat_zero, two_pow_add_self, Nat.sub_zero]
    refine Nat.div_eq_of_lt_le ?_ ?_
    · rw [Nat.sub_mul, Nat.one_mul]
      omega
    · rw [Nat.sub_add_cancel hpos]
      have := Nat.mul_pos hpos hpos
      omega
  rw [lh, BitVec.toNat_and, hmask, Nat.and_two_pow_sub_one_eq_mod]

theorem uh_lt (x : BitVec (h + h)) : (uh x).toNat < 2 ^ h := by
  rw [toNat_uh, Nat.div_lt_iff_lt_mul (Nat.two_pow_pos h), ← two_pow_add_self]
  exact x.isLt

theorem lh_lt (x : BitVec (h + h)) : (lh x).toNat < 2 ^ h := by
  rw [toNat_lh]
  exact Nat.mod_lt _ (Nat.two_pow_pos h)

/-- A cell is made of its halves. -/
theorem toNat_uh_lh (x : BitVec (h + h)) :
    (x.toNat : Int) = (uh x).toNat * (2 ^ h : Nat) + (lh x).toNat := by
  have hsplit := Nat.div_add_mod' x.toNat (2 ^ h)
  rw [← toNat_uh, ← toNat_lh] at hsplit
  exact_mod_cast hsplit.symm

theorem toNat_l2u (x : BitVec (h + h)) : (l2u x).toNat = (lh x).toNat * 2 ^ h := by
  rw [l2u, BitVec.toNat_shiftLeft, half_add_self, Nat.shiftLeft_eq, two_pow_add_self,
    Nat.mul_mod_mul_right, toNat_lh]

/-- Multiplication by half of a cell, without what is pushed out -/
theorem toNat_l2u_modEq (x : BitVec (h + h)) :
    ((l2u x).toNat : Int) ≡ x.toNat * (2 ^ h : Nat) [ZMOD (2 ^ (h + h) : Nat)] := by
  rw [toNat_uh_lh x, toNat_l2u, two_pow_add_self]
  refine Int.modEq_iff_dvd.mpr ⟨(uh x).toNat, ?_⟩
  push_cast
  ring

theorem toNat_mul_halves {x y : BitVec (h + h)} (hx : x.toNat < 2 ^ h) (hy : y.toNat < 2 ^ h) :
    (x * y).toNat = x.toNat * y.toNat := by
  rw [BitVec.toNat_mul, two_pow_add_self, Nat.mod_eq_of_lt (Nat.mul_lt_mul'' hx hy)]

/-- The low cell of a product is a sum, of which {lit}`ummul` finds the carry. -/
theorem mul_eq_l2u_add (a b : BitVec (h + h)) :
    a * b = l2u (uh a * lh b + lh a * uh b) + lh a * lh b := by
  have hul := toNat_mul_halves (uh_lt a) (lh_lt b)
  have hlu := toNat_mul_halves (lh_lt a) (uh_lt b)
  have hll := toNat_mul_halves (lh_lt a) (lh_lt b)
  refine eq_of_toNat_modEq ((toNat_mul_modEq a b).trans
    (Int.ModEq.symm ((toNat_add_modEq _ _).trans ?_)))
  refine (((toNat_l2u_modEq _).trans ((toNat_add_modEq _ _).mul_right _)).add_right _).trans ?_
  rw [hul, hlu, hll, toNat_uh_lh a, toNat_uh_lh b, two_pow_add_self]
  refine Int.modEq_iff_dvd.mpr ⟨(uh a).toNat * (uh b).toNat, ?_⟩
  push_cast
  ring

/-- The product of two cells, with all its carries -/
theorem ummul_exact (a b : BitVec (h + h)) :
    (ummul a b).val = a.setWidth (h + h + (h + h)) * b.setWidth (h + h + (h + h)) := by
  have hul := toNat_mul_halves (uh_lt a) (lh_lt b)
  have hlu := toNat_mul_halves (lh_lt a) (uh_lt b)
  have hll := toNat_mul_halves (lh_lt a) (lh_lt b)
  have huu := toNat_mul_halves (uh_lt a) (uh_lt b)
  have hm := congrArg (Nat.cast : Nat → Int) (toNat_add_carry (uh a * lh b) (lh a * uh b))
  have hlo := congrArg (Nat.cast : Nat → Int)
    (toNat_add_carry (l2u (uh a * lh b + lh a * uh b)) (lh a * lh b))
  have hdouble : ∀ x : BitVec (h + h), (x.setWidth (h + h + (h + h))).toNat = x.toNat :=
    fun x => BitVec.toNat_setWidth_of_le (Nat.le_add_left _ _)
  refine twoCell_eq ((toNat_add_modEq _ _).trans (Int.ModEq.add ((toNat_add_modEq _ _).trans
    (Int.ModEq.add ((toNat_add_modEq _ _).trans (Int.ModEq.add (Int.ModEq.refl _)
      ((toNat_l2u_modEq _).trans ((toNat_bit_modEq _).mul_right _)))) (Int.ModEq.refl _)))
    (toNat_bit_modEq _))) (toNat_mul_modEq _ _) ?_
  rw [← mul_eq_l2u_add] at hlo
  rw [hdouble, hdouble, toNat_uh_lh a, toNat_uh_lh b]
  have hsplit := toNat_uh_lh (uh a * lh b + lh a * uh b)
  simp only [ummul]
  rw [toNat_l2u] at hlo
  push_cast [hul, hlu, hll, huu, two_pow_add_self] at hm hlo hsplit ⊢
  linear_combination (-(2 : Int) ^ h) * hm - hlo - (2 : Int) ^ h * hsplit

/-- The product from four half products -/
theorem toNat_ummul (a b : BitVec (h + h)) :
    (ummul a b).val.toNat = a.toNat * b.toNat := by
  rw [ummul_exact, BitVec.toNat_mul, BitVec.toNat_setWidth_of_le (Nat.le_add_left _ _),
    BitVec.toNat_setWidth_of_le (Nat.le_add_left _ _), two_pow_add_self,
    Nat.mod_eq_of_lt (Nat.mul_lt_mul'' a.isLt b.isLt)]

/-- What {lit}`mmul` takes from the high cell for the sign of a factor -/
theorem sub_if_modEq {w : Nat} (hi b : BitVec w) (neg : Bool) :
    ((if neg then hi - b else hi).toNat : Int) ≡
      hi.toNat - neg.toNat * b.toNat [ZMOD (2 ^ w : Nat)] := by
  cases neg with
  | false =>
    rw [if_neg Bool.false_ne_true, Bool.toNat_false, Nat.cast_zero, zero_mul, sub_zero]
  | true =>
    rw [if_pos rfl, Bool.toNat_true, Nat.cast_one, one_mul]
    exact toNat_sub_modEq hi b

/-- The high cell of a signed product is corrected for negative factors. -/
theorem mmul_hi {w : Nat} (a b : BitVec w) :
    ((mmul a b).hi.toNat : Int) ≡ (ummul a b).hi.toNat - (a.slt 0#w).toNat * b.toNat -
      (b.slt 0#w).toNat * a.toNat [ZMOD (2 ^ w : Nat)] := by
  have hhi : (mmul a b).hi =
      if b.slt 0#w then (if a.slt 0#w then (ummul a b).hi - b else (ummul a b).hi) - a
      else if a.slt 0#w then (ummul a b).hi - b else (ummul a b).hi := by
    rw [mmul]
    cases a.slt 0#w <;> cases b.slt 0#w <;> rfl
  rw [hhi]
  exact (sub_if_modEq _ _ _).trans ((sub_if_modEq _ _ _).sub_right _)

theorem mmul_lo {w : Nat} (a b : BitVec w) : (mmul a b).lo = (ummul a b).lo := by
  rw [mmul]
  cases a.slt 0#w <;> cases b.slt 0#w <;> rfl

/-- The signed product from the unsigned one -/
theorem mmul_exact (a b : BitVec (h + h)) :
    (mmul a b).val = a.signExtend (h + h + (h + h)) * b.signExtend (h + h + (h + h)) := by
  have hproduct := congrArg (Nat.cast : Nat → Int) (toNat_ummul a b)
  have hsigned : ((a.signExtend (h + h + (h + h)) * b.signExtend (h + h + (h + h))).toNat : Int) ≡
      a.toNat * b.toNat - ((a.slt 0#_).toNat * b.toNat + (b.slt 0#_).toNat * a.toNat) *
        (2 ^ (h + h) : Nat) [ZMOD (2 ^ (h + h + (h + h)) : Nat)] := by
    refine (toNat_mul_modEq _ _).trans
      (((toNat_signExtend_modEq a).mul (toNat_signExtend_modEq b)).trans ?_)
    rw [two_pow_add_self (h + h)]
    refine Int.modEq_iff_dvd.mpr ⟨-((a.slt 0#_).toNat * (b.slt 0#_).toNat), ?_⟩
    push_cast
    ring
  refine twoCell_eq (mmul_hi a b) hsigned ?_
  rw [toNat_val] at hproduct
  rw [mmul_lo]
  push_cast at hproduct ⊢
  linear_combination hproduct

end Halves

/-! ## Halving and comparing -/

/-- {lit}`d2/` on two cells -/
theorem dTwoSlash_exact (d1 : DCell w) : (dTwoSlash d1).val = d1.val.sshiftRight 1 := by
  cases w with
  | zero => exact BitVec.eq_of_zero_length rfl
  | succ w => exact (twoCell_sshiftRight d1.lo d1.hi (Nat.succ_pos w)).symm

theorem toInt_val (d : DCell w) : d.val.toInt = d.hi.toInt * (2 ^ w : Nat) + d.lo.toNat := by
  rw [toInt_dhi_dlo, DCell.val, dhi_twoCell, dlo_twoCell]

section Order

-- the cells of the type of {lit}`hi` stand for numbers
variable {value : BitVec w → Int} {lt : BitVec w → BitVec w → Bool}

/-- The number that a double stands for if {lit}`value` is that of its high cell -/
def DCell.number (value : BitVec w → Int) (d : DCell w) : Int :=
  value d.hi * (2 ^ w : Nat) + d.lo.toNat

/-- The double with the greater high cell is greater. -/
theorem number_lt_of_lt {x y : DCell w} (h : value x.hi < value y.hi) :
    x.number value < y.number value := by
  have hxlo := x.lo.isLt
  have hstep := Int.mul_le_mul_of_nonneg_right (show value x.hi + 1 ≤ value y.hi by omega)
    (Int.natCast_nonneg (2 ^ w))
  rw [Int.add_mul] at hstep
  rw [DCell.number, DCell.number]
  omega

/-- Doubles are ordered by their high cells first. -/
theorem number_lt_iff (hinj : value.Injective) (hlt : ∀ x y, lt x y = decide (value x < value y))
    (x y : DCell w) :
    (if x.hi = y.hi then x.lo.ult y.lo else lt x.hi y.hi) =
      decide (x.number value < y.number value) := by
  by_cases heq : x.hi = y.hi
  · rw [if_pos heq, DCell.number, DCell.number, heq, BitVec.ult, decide_eq_decide]
    omega
  · rw [if_neg heq, hlt, decide_eq_decide]
    refine ⟨number_lt_of_lt, fun h => ?_⟩
    rcases lt_trichotomy (value x.hi) (value y.hi) with hless | hsame | hmore
    · exact hless
    · exact absurd (hinj hsame) heq
    · exact absurd (number_lt_of_lt hmore) (by omega)

/-- Doubles are equal if and only if both cells are. -/
theorem number_eq_iff (hinj : value.Injective) (x y : DCell w) :
    x.number value = y.number value ↔ x.lo = y.lo ∧ x.hi = y.hi := by
  constructor
  · intro h
    rcases lt_trichotomy (value x.hi) (value y.hi) with hless | hsame | hmore
    · exact absurd (number_lt_of_lt hless) (by omega)
    · rw [DCell.number, DCell.number, hsame] at h
      exact ⟨BitVec.eq_of_toNat_eq (by omega), hinj hsame⟩
    · exact absurd (number_lt_of_lt hmore) (by omega)
  · rintro ⟨hlo, hhi⟩
    rw [DCell.number, DCell.number, hlo, hhi]

/-- Every comparison of the cells compares the numbers. -/
theorem dcomparison_exact (hinj : value.Injective)
    (hlt : ∀ x y, lt x y = decide (value x < value y)) (c : Comparison) (x y : DCell w) :
    dcomparison lt c x y = flag (c.holds (x.number value) (y.number value)) := by
  have hless := number_lt_iff hinj hlt x y
  have hmore := number_lt_iff hinj hlt y x
  rw [ite_cond_congr (propext eq_comm)] at hmore
  cases c with
  | equals =>
    refine congrArg flag (decide_eq_decide.mpr ?_)
    rw [number_eq_iff hinj]
  | notEquals =>
    refine congrArg flag (decide_eq_decide.mpr ?_)
    exact (not_and_or.symm.trans (not_congr (number_eq_iff hinj x y).symm))
  | lessThan => exact congrArg flag hless
  | greaterThan => exact congrArg flag hmore
  | lessOrEqual =>
    rw [dcomparison, ← apply_ite (! ·), hmore, ← decide_not]
    exact congrArg flag (decide_eq_decide.mpr not_lt)
  | greaterOrEqual =>
    rw [dcomparison, ← apply_ite (! ·), hless, ← decide_not]
    exact congrArg flag (decide_eq_decide.mpr not_lt)

end Order

/-- Signed comparisons of doubles -/
theorem dComparison_exact (c : Comparison) (d1 d2 : DCell w) :
    dComparison c d1 d2 = flag (c.holds d1.val.toInt d2.val.toInt) := by
  have hlt : ∀ x y : BitVec w, x.slt y = decide (x.toInt < y.toInt) := fun x y => rfl
  rw [toInt_val, toInt_val]
  exact dcomparison_exact (fun x y => BitVec.eq_of_toInt_eq) hlt c d1 d2

/-- Comparisons of doubles with 0 -/
theorem dZeroComparison_exact (c : Comparison) (d : DCell w) :
    dZeroComparison c d = flag (c.holds d.val.toInt 0) := by
  have hzero : (dzero : DCell w).val.toInt = 0 := by
    rw [toInt_val, dzero, BitVec.toInt_zero, BitVec.toNat_zero]
    simp
  rw [← hzero]
  exact dComparison_exact c d dzero

/-- Unsigned comparisons of doubles -/
theorem duComparison_exact (c : Comparison) (ud1 ud2 : DCell w) :
    duComparison c ud1 ud2 = flag (c.holds ud1.val.toNat ud2.val.toNat) := by
  have hlt : ∀ x y : BitVec w, x.ult y = decide ((x.toNat : Int) < y.toNat) := fun x y => by
    rw [BitVec.ult, decide_eq_decide]
    omega
  have hinj : Function.Injective fun x : BitVec w => (x.toNat : Int) :=
    fun x y h => BitVec.eq_of_toNat_eq (Int.ofNat_inj.mp h)
  rw [toNat_val, toNat_val]
  push_cast
  exact dcomparison_exact hinj hlt c ud1 ud2

/-! ## All operations -/

/-- The operations on structures of two cells of an even width compute what the operations on
double cells do. -/
theorem doubles_exact (h : Nat) :
    (∀ a b : BitVec (h + h), (ummul a b).val = a.setWidth _ * b.setWidth _) ∧
    (∀ a b : BitVec (h + h), (mmul a b).val = a.signExtend _ * b.signExtend _) ∧
    (∀ d1 d2 : DCell (h + h), (dadd d1 d2).val = d1.val + d2.val) ∧
    (∀ d1 : DCell (h + h), (dnegate d1).val = -d1.val) ∧
    (∀ (d1 : DCell (h + h)) n, (mPlus d1 n).val = d1.val + n.signExtend _) ∧
    (∀ d1 d2 : DCell (h + h), (dMinus d1 d2).val = d1.val - d2.val) ∧
    (∀ d1 : DCell (h + h), (dTwoSlash d1).val = d1.val.sshiftRight 1) ∧
    (∀ (c : Comparison) (d1 d2 : DCell (h + h)),
      dComparison c d1 d2 = flag (c.holds d1.val.toInt d2.val.toInt)) ∧
    (∀ (c : Comparison) (d : DCell (h + h)),
      dZeroComparison c d = flag (c.holds d.val.toInt 0)) ∧
    (∀ (c : Comparison) (ud1 ud2 : DCell (h + h)),
      duComparison c ud1 ud2 = flag (c.holds ud1.val.toNat ud2.val.toNat)) :=
  ⟨ummul_exact, mmul_exact, dadd_exact, dnegate_exact, mPlus_exact, dMinus_exact, dTwoSlash_exact,
    dComparison_exact, dZeroComparison_exact, duComparison_exact⟩

end LongLong
end Arith
end Gforth
