import Gforth.Arith.PolyForth
import Gforth.Lib.Stacks

/-!
# Primitives in Forth

Where a port lacks a primitive, its definition in Forth takes its place: the multiplications and
divisions are loops over the bits and words that use other words.

Main results:

- Theorem {lit}`umStar_spec`: shifting and adding multiplies.
- Theorem {lit}`umSlashMod_spec`: shifting and subtracting divides as {lit}`umdiv` does.
- Theorem {lit}`fallbacks_agree_iff`: which Forth definitions leave the same stack as the C code.
-/

namespace Gforth
namespace Arith

open Lib

variable {w : Nat}

/-! ## Definitions in Forth -/

namespace Forth

open Stacks
open LongLong (flag)

/-- {lit}`0<` -/
def zeroLess : Effect (BitVec w) :=
  unary fun n => flag (n.slt 0#w)

/-- {lit}`0=` -/
def zeroEquals : Effect (BitVec w) :=
  unary fun n => flag (n = 0#w)

/-- {lit}`u<` -/
def uLess : Effect (BitVec w) :=
  binary fun u1 u2 => flag (u1.ult u2)

/-- {lit}`u>` -/
def uGreater : Effect (BitVec w) :=
  binary fun u1 u2 => flag (u2.ult u1)

/-- {lit}`IF` on cells -/
def ifThen (p q : List (Effect (BitVec w))) : Effect (BitVec w) :=
  ifElse (· ≠ 0#w) p q

/-- {lit}`s>d` -/
def sToD : Effect (BitVec w) :=
  colon [dup, zeroLess]

/-- {lit}`abs` -/
def abs : Effect (BitVec w) :=
  unary fun n => if n.slt 0#w then -n else n

/-- {lit}`d+` -/
def dPlus : Effect (BitVec w) :=
  colon [rot, binary (· + ·), toR, tuck, binary (· + ·), swap, over', uGreater, fromR, swap,
    binary (· - ·)]

/-- {lit}`dnegate` -/
def dnegate : Effect (BitVec w) :=
  colon [unary (~~~·), swap, unary (-·), tuck, zeroEquals, binary (· - ·)]

/-- {lit}`d-` -/
def dMinus : Effect (BitVec w) :=
  colon [dnegate, dPlus]

/-- {lit}`m+` -/
def mPlus : Effect (BitVec w) :=
  colon [sToD, dPlus]

/-- {lit}`dabs` -/
def dabs : Effect (BitVec w) :=
  colon [dup, zeroLess, ifThen [dnegate] []]

/-- {lit}`d2/` -/
def dTwoSlash : Effect (BitVec w) :=
  colon [dup, lit 1#w, binary (· &&& ·), toR, unary (·.sshiftRight 1), swap,
    unary (·.sshiftRight 1), lit (cellMin w - 1#w), binary (· &&& ·), fromR,
    ifThen [lit (cellMin w), binary (· + ·)] [], swap]

/-- {lit}`d2*+` -/
def dTwoStarPlus : Effect (BitVec w) :=
  colon [over', lit (cellMin w), binary (· &&& ·), toR, toR, twoDup, dPlus, fromR, lit 0#w, dPlus,
    fromR]

/-- {lit}`um*` -/
def umStar : Effect (BitVec w) :=
  colon [lit 0#w, notRot, dup, lit (BitVec.ofNat w w), binary (· - ·),
    countedLoop (· + 1#w) (2 ^ w)
      [dup, zeroLess, rSecond, binary (· &&& ·), dTwoStarPlus, drop]]

/-- {lit}`/modstep` -/
def slashModstep : Effect (BitVec w) :=
  colon [toR, over', rFetch, uLess, zeroEquals, binary (· ||| ·),
    ifThen [rFetch, binary (· - ·), lit 1#w] [lit 0#w], dTwoStarPlus, fromR]

/-- {lit}`um/mod` -/
def umSlashMod : Effect (BitVec w) :=
  colon [lit 0#w, swap, lit (BitVec.ofNat w w + 1#w), lit 0#w,
    guardedLoop (· + 1#w) (2 ^ w) [slashModstep],
    drop, swap, lit 1#w, binary (fun u1 u => u1 >>> u.toNat), binary (· ||| ·), swap]

/-- {lit}`m*` -/
def mStar : Effect (BitVec w) :=
  colon [twoDup, zeroLess, binary (· &&& ·), toR, twoDup, swap, zeroLess, binary (· &&& ·), toR,
    umStar, fromR, binary (· - ·), fromR, binary (· - ·)]

/-- {lit}`fm/mod` -/
def fmSlashMod : Effect (BitVec w) :=
  colon [dup, toR, dup, zeroLess, ifThen [unary (-·), toR, dnegate, fromR] [],
    toR, dup, zeroLess, rFetch, binary (· &&& ·), binary (· + ·), fromR, umSlashMod,
    fromR, zeroLess, ifThen [swap, unary (-·), swap] []]

/-- {lit}`sm/rem` -/
def smSlashRem : Effect (BitVec w) :=
  colon [over', toR, dup, toR, abs, notRot, dabs, rot, umSlashMod,
    fromR, rFetch, binary (· ^^^ ·), zeroLess, ifThen [unary (-·)] [],
    fromR, zeroLess, ifThen [swap, unary (-·), swap] []]

/-- {lit}`/modf` -/
def slashModf : Effect (BitVec w) :=
  colon [toR, sToD, fromR, fmSlashMod]

/-- {lit}`/mods` -/
def slashMods : Effect (BitVec w) :=
  colon [toR, sToD, fromR, smSlashRem]

/-- {lit}`*/modf` -/
def starSlashModf : Effect (BitVec w) :=
  colon [toR, mStar, fromR, fmSlashMod]

/-- {lit}`*/mods` -/
def starSlashMods : Effect (BitVec w) :=
  colon [toR, mStar, fromR, smSlashRem]

/-- {lit}`*/f` -/
def starSlashF : Effect (BitVec w) :=
  colon [starSlashModf, nip]

/-- {lit}`*/s` -/
def starSlashS : Effect (BitVec w) :=
  colon [starSlashMods, nip]

/-- {lit}`u/mod` -/
def uSlashMod : Effect (BitVec w) :=
  colon [lit 0#w, swap, umSlashMod]

/-- {lit}`u*/mod` -/
def uStarSlashMod : Effect (BitVec w) :=
  colon [toR, umStar, fromR, umSlashMod]

/-- {lit}`u*/` -/
def uStarSlash : Effect (BitVec w) :=
  colon [starSlashMods, nip]

/-- {lit}`du/mod` -/
def duSlashMod : Effect (BitVec w) :=
  colon [toR, dup, zeroLess, rFetch, binary (· &&& ·), binary (· + ·), fromR, umSlashMod]

end Forth

/-! ## Addition and negation -/

section Doubles

open Forth Stacks
open LongLong (flag)

variable (d r : List (BitVec w)) (p : List (Effect (BitVec w)))

@[simp]
theorem twoCell_halves (x : BitVec (w + w)) : twoCell (dlo x) (dhi x) = x :=
  LongLong.twoCell_dlo_dhi x

theorem sub_flag (x : BitVec w) (b : Bool) : x - flag b = x + bit b := by
  rw [flag, BitVec.sub_eq_add_neg, BitVec.neg_neg]

@[simp]
theorem colon_zeroLess (n : BitVec w) :
    colon (zeroLess :: p) ⟨n :: d, r⟩ = colon p ⟨flag (n.slt 0#w) :: d, r⟩ :=
  colon_cons_of_eq rfl p

@[simp]
theorem colon_zeroEquals (n : BitVec w) :
    colon (zeroEquals :: p) ⟨n :: d, r⟩ = colon p ⟨flag (n = 0#w) :: d, r⟩ :=
  colon_cons_of_eq rfl p

@[simp]
theorem colon_uLess (u1 u2 : BitVec w) :
    colon (uLess :: p) ⟨u2 :: u1 :: d, r⟩ = colon p ⟨flag (u1.ult u2) :: d, r⟩ :=
  colon_cons_of_eq rfl p

@[simp]
theorem colon_uGreater (u1 u2 : BitVec w) :
    colon (uGreater :: p) ⟨u2 :: u1 :: d, r⟩ = colon p ⟨flag (u2.ult u1) :: d, r⟩ :=
  colon_cons_of_eq rfl p

@[simp]
theorem colon_abs (n : BitVec w) :
    colon (abs :: p) ⟨n :: d, r⟩ = colon p ⟨(if n.slt 0#w then -n else n) :: d, r⟩ :=
  colon_cons_of_eq rfl p

/-- A conditional takes its first branch unless the cell is 0. -/
@[simp]
theorem colon_ifThen (q q' : List (Effect (BitVec w))) (x : BitVec w) :
    colon (ifThen q q' :: p) ⟨x :: d, r⟩ =
      if x ≠ 0#w then colon (q ++ p) ⟨d, r⟩ else colon (q' ++ p) ⟨d, r⟩ := by
  rw [ifThen, colon_ifElse]
  simp only [decide_eq_true_eq]

theorem colon_word {q : List (Effect (BitVec w))} (s : Stacks (BitVec w)) :
    colon (colon q :: p) s = colon (q ++ p) s := by
  rw [colon_cons, colon_append]

/-- The sign of a cell extends it to a double. -/
theorem twoCell_sign (n : BitVec w) :
    twoCell n (flag (n.slt 0#w)) = n.signExtend (w + w) := by
  refine twoCell_eq (h := -(n.slt 0#w).toNat)
    ((toNat_neg_modEq _).trans (Int.ModEq.neg (toNat_bit_modEq _)))
    (LongLong.toNat_signExtend_modEq n) ?_
  ring

/-- {lit}`d+` adds doubles. -/
@[simp]
theorem colon_dPlus (lo1 hi1 lo2 hi2 : BitVec w) :
    colon (dPlus :: p) ⟨hi2 :: lo2 :: hi1 :: lo1 :: d, r⟩ =
      colon p ⟨dhi (twoCell lo1 hi1 + twoCell lo2 hi2) ::
        dlo (twoCell lo1 hi1 + twoCell lo2 hi2) :: d, r⟩ := by
  have hsum := LongLong.dadd_exact { hi := hi2, lo := lo2 } { hi := hi1, lo := lo1 }
  rw [LongLong.DCell.val, LongLong.DCell.val, LongLong.DCell.val, BitVec.add_comm] at hsum
  rw [dPlus, colon_word, ← hsum, dlo_twoCell, dhi_twoCell]
  simp [sub_flag, LongLong.dadd, BitVec.add_comm lo1, BitVec.ult, BitVec.lt_def]

/-- {lit}`dnegate` negates a double. -/
@[simp]
theorem colon_dnegate (lo hi : BitVec w) :
    colon (dnegate :: p) ⟨hi :: lo :: d, r⟩ =
      colon p ⟨dhi (-twoCell lo hi) :: dlo (-twoCell lo hi) :: d, r⟩ := by
  have hneg := LongLong.dnegate_exact { hi := hi, lo := lo }
  rw [LongLong.DCell.val, LongLong.DCell.val] at hneg
  rw [dnegate, colon_word, ← hneg, dlo_twoCell, dhi_twoCell]
  simp [sub_flag, LongLong.dnegate]

@[simp]
theorem colon_sToD (n : BitVec w) :
    colon (sToD :: p) ⟨n :: d, r⟩ = colon p ⟨flag (n.slt 0#w) :: n :: d, r⟩ := by
  rw [sToD, colon_word]
  simp

/-- {lit}`d-` subtracts doubles. -/
@[simp]
theorem colon_dMinus (lo1 hi1 lo2 hi2 : BitVec w) :
    colon (dMinus :: p) ⟨hi2 :: lo2 :: hi1 :: lo1 :: d, r⟩ =
      colon p ⟨dhi (twoCell lo1 hi1 - twoCell lo2 hi2) ::
        dlo (twoCell lo1 hi1 - twoCell lo2 hi2) :: d, r⟩ := by
  rw [dMinus, colon_word]
  simp [BitVec.sub_eq_add_neg]

/-- {lit}`m+` adds a signed cell to a double. -/
@[simp]
theorem colon_mPlus (lo hi n : BitVec w) :
    colon (mPlus :: p) ⟨n :: hi :: lo :: d, r⟩ =
      colon p ⟨dhi (twoCell lo hi + n.signExtend (w + w)) ::
        dlo (twoCell lo hi + n.signExtend (w + w)) :: d, r⟩ := by
  rw [mPlus, colon_word]
  simp [twoCell_sign]

end Doubles

/-! ## The highest bit -/

theorem toNat_highbit_eq (x : BitVec w) : (highbit x).toNat = x.toNat / 2 ^ (w - 1) := by
  rw [highbit, BitVec.toNat_ushiftRight, Nat.shiftRight_eq_div_pow]

section

variable (hw : 0 < w)
include hw

theorem two_pow_eq_add : 2 ^ w = 2 ^ (w - 1) + 2 ^ (w - 1) := by
  rw [← Nat.mul_two, ← Nat.pow_succ, Nat.succ_eq_add_one, Nat.sub_add_cancel hw]

theorem toNat_cellMin : (cellMin w).toNat = 2 ^ (w - 1) := by
  rw [cellMin_eq, BitVec.toNat_intMin_of_pos hw]

/-- The highest bit is 0 or 1, by the half of the range that the cell is in. -/
theorem toNat_highbit_cases (x : BitVec w) :
    (x.toNat < 2 ^ (w - 1) ∧ x.toNat / 2 ^ (w - 1) = 0) ∨
      (2 ^ (w - 1) ≤ x.toNat ∧ x.toNat / 2 ^ (w - 1) = 1) := by
  have hx := x.isLt
  have hpow := two_pow_eq_add hw
  rcases Nat.lt_or_ge x.toNat (2 ^ (w - 1)) with hlt | hge
  · exact Or.inl ⟨hlt, Nat.div_eq_of_lt hlt⟩
  · exact Or.inr ⟨hge, Nat.div_eq_of_lt_le (by omega) (by omega)⟩

/-- The highest bit alone -/
theorem toNat_and_cellMin (x : BitVec w) :
    (x &&& cellMin w).toNat = x.toNat / 2 ^ (w - 1) * 2 ^ (w - 1) := by
  rw [BitVec.toNat_and, toNat_cellMin hw, Nat.and_two_pow, Nat.testBit_eq_decide_div_mod_eq]
  rcases toNat_highbit_cases hw x with ⟨-, hbit⟩ | ⟨-, hbit⟩ <;> rw [hbit] <;> rfl

theorem and_cellMin_eq_zero_iff (x : BitVec w) : x &&& cellMin w = 0#w ↔ highbit x = 0#w := by
  have hpos := Nat.two_pow_pos (w - 1)
  rw [← BitVec.toNat_inj, ← BitVec.toNat_inj, toNat_and_cellMin hw, toNat_highbit_eq,
    BitVec.toNat_zero, Nat.mul_eq_zero, or_iff_left (by omega)]

/-- The bits of a cell but the highest one -/
theorem sshiftRight_and_cellMin (x : BitVec w) :
    x.sshiftRight 1 &&& (cellMin w - 1#w) = x >>> 1 := by
  have hone := BitVec.toNat_one hw
  have hmask : (cellMin w - 1#w).toNat = 2 ^ (w - 1) - 1 := by
    have := Nat.two_pow_pos (w - 1)
    rw [BitVec.toNat_sub_of_le (by rw [BitVec.le_def, toNat_cellMin hw]; omega), toNat_cellMin hw,
      hone]
  refine BitVec.eq_of_getLsbD_eq fun i hi => ?_
  have hbit : (cellMin w - 1#w).getLsbD i = decide (i < w - 1) := by
    rw [BitVec.getLsbD, hmask, Nat.testBit_two_pow_sub_one]
  rw [BitVec.getLsbD_and, BitVec.getLsbD_sshiftRight, BitVec.getLsbD_ushiftRight, hbit,
    decide_eq_false (by omega)]
  rcases Nat.lt_or_ge i (w - 1) with hlt | hge
  · rw [if_pos (by omega), decide_eq_true hlt, Bool.not_false, Bool.true_and, Bool.and_true]
  · rw [decide_eq_false (by omega), Bool.and_false]
    exact (BitVec.getLsbD_of_ge x (1 + i) (by omega)).symm

/-- The lowest bit as the highest one -/
theorem shiftLeft_width_sub_one (x : BitVec w) :
    x <<< (w - 1) = if x &&& 1#w ≠ 0#w then cellMin w else 0#w := by
  have hone := BitVec.toNat_one hw
  have hbit : x &&& 1#w ≠ 0#w ↔ x.getLsbD 0 = true := by
    rw [Ne, ← BitVec.toNat_inj, BitVec.toNat_and, hone, Nat.and_one_is_mod, BitVec.toNat_zero,
      BitVec.getLsbD, Nat.testBit_zero, decide_eq_true_iff]
    omega
  refine BitVec.eq_of_getLsbD_eq fun i hi => ?_
  rw [BitVec.getLsbD_shiftLeft]
  rcases Nat.lt_or_ge i (w - 1) with hlt | hge
  · rw [decide_eq_true hlt]
    split <;> simp [cellMin, hlt]
  · have hlast : i - (w - 1) = 0 := by omega
    rw [hlast, decide_eq_true hi, decide_eq_false (Nat.not_lt.mpr hge), Bool.not_false, Bool.true_and,
      Bool.true_and]
    split
    case isTrue h =>
      rw [hbit.mp h, cellMin, BitVec.getLsbD_shiftLeft, hlast, decide_eq_true hi,
        decide_eq_false (Nat.not_lt.mpr hge), BitVec.getLsbD, hone]
      rfl
    case isFalse h =>
      rw [BitVec.getLsbD_zero, Bool.eq_false_iff.mpr (mt hbit.mpr h)]

/-- The bit that {lit}`d2/` moves from the high to the low cell -/
theorem dTwoSlash_low (lo hi : BitVec w) :
    (if hi &&& 1#w ≠ 0#w then lo >>> 1 + cellMin w else lo >>> 1) = lo >>> 1 ||| hi <<< (w - 1) := by
  have hlo := lo.isLt
  have hpow := two_pow_eq_add hw
  rw [shiftLeft_width_sub_one hw]
  split
  · refine BitVec.add_eq_or_of_and_eq_zero _ _ (BitVec.eq_of_toNat_eq ?_)
    rw [toNat_and_cellMin hw, BitVec.toNat_ushiftRight, Nat.shiftRight_eq_div_pow, Nat.pow_one,
      Nat.div_eq_of_lt (by omega), Nat.zero_mul, BitVec.toNat_zero]
  · rw [BitVec.or_zero]

end

/-! ## Shifting in -/

section Shifting

open Forth Stacks
open LongLong (flag flag_eq_zero_iff flag_or flag_and)

variable (hw : 0 < w) (d r : List (BitVec w)) (p : List (Effect (BitVec w)))

/-- A conditional on a flag -/
theorem colon_ifThen_flag (hw : 0 < w) (q q' : List (Effect (BitVec w))) (b : Bool) :
    colon (ifThen q q' :: p) ⟨flag b :: d, r⟩ =
      if b then colon (q ++ p) ⟨d, r⟩ else colon (q' ++ p) ⟨d, r⟩ := by
  have hzero := flag_eq_zero_iff hw b
  rw [colon_ifThen]
  cases b with
  | false => rw [if_neg (not_not.mpr (hzero.mpr rfl)), if_neg Bool.false_ne_true]
  | true => rw [if_pos (mt hzero.mp Bool.noConfusion), if_pos rfl]

theorem twoCell_zero (u : BitVec w) : twoCell u 0#w = u.setWidth (w + w) := by
  refine BitVec.eq_of_toNat_eq ?_
  rw [toNat_twoCell, BitVec.toNat_zero, BitVec.toNat_setWidth_of_le (Nat.le_add_left w w),
    Nat.zero_mul, Nat.zero_add]

/-- {lit}`d2*+` doubles and adds a cell, and leaves the bit that has been pushed out. -/
@[simp]
theorem colon_dTwoStarPlus (lo hi u : BitVec w) :
    colon (dTwoStarPlus :: p) ⟨u :: hi :: lo :: d, r⟩ =
      colon p ⟨(hi &&& cellMin w) :: dhi (twoCell lo hi + twoCell lo hi + u.setWidth (w + w)) ::
        dlo (twoCell lo hi + twoCell lo hi + u.setWidth (w + w)) :: d, r⟩ := by
  rw [dTwoStarPlus, colon_word]
  simp [twoCell_zero]

include hw

/-- {lit}`dabs` negates negative doubles. -/
theorem colon_dabs (lo hi : BitVec w) :
    colon (dabs :: p) ⟨hi :: lo :: d, r⟩ =
      colon p ⟨dhi (if hi.slt 0#w then -twoCell lo hi else twoCell lo hi) ::
        dlo (if hi.slt 0#w then -twoCell lo hi else twoCell lo hi) :: d, r⟩ := by
  rw [dabs, colon_word]
  simp only [List.cons_append, List.nil_append, colon_dup, colon_zeroLess, colon_ifThen_flag _ _ _ hw]
  cases hi.slt 0#w <;> simp

/-- {lit}`d2/` shifts a double arithmetically. -/
theorem colon_dTwoSlash (lo hi : BitVec w) :
    colon (dTwoSlash :: p) ⟨hi :: lo :: d, r⟩ =
      colon p ⟨dhi ((twoCell lo hi).sshiftRight 1) :: dlo ((twoCell lo hi).sshiftRight 1) :: d,
        r⟩ := by
  have hlow := dTwoSlash_low hw lo hi
  rw [twoCell_sshiftRight lo hi hw, dlo_twoCell, dhi_twoCell, ← hlow, dTwoSlash, colon_word]
  simp only [List.cons_append, List.nil_append, colon_dup, colon_lit, colon_binary, colon_toR,
    colon_unary, colon_swap, colon_fromR, colon_ifThen, sshiftRight_and_cellMin hw]
  split <;> simp

end Shifting

/-! ## Multiplication -/

section Multiplication

open Forth Stacks
open LongLong (flag flag_and)

/-- A pass of the loop of {lit}`um*` -/
def mulPass (u2 : BitVec w) (x : BitVec (w + w)) : BitVec (w + w) :=
  x + x + (if (dhi x).slt 0#w then u2 else 0#w).setWidth (w + w)

/-- {lit}`j` bits of {lit}`u1` are still in the upper bits of the double; the other ones are
multiplied. -/
def MulInv (u1 u2 : BitVec w) (j : Nat) (x : BitVec (w + w)) : Prop :=
  ∃ a b, u1.toNat = a * 2 ^ j + b ∧ b < 2 ^ j ∧
    x.toNat = b * 2 ^ (w + (w - j)) + a * u2.toNat

/-- The bit that is shifted out decides about the addition. -/
theorem mulPass_value {b s u J P x : Nat} (hx : x = b * P + s) (hb : b < 2 * J)
    (hsum : 2 * s + u < 2 * P) :
    (2 * J * P ≤ 2 * x ↔ J ≤ b) ∧
      (2 * x + if J ≤ b then u else 0) % (2 * J * P) =
        b % J * (2 * P) + (2 * s + if J ≤ b then u else 0) := by
  have hbit : 2 * J * P ≤ 2 * x ↔ J ≤ b := by
    rw [Nat.mul_assoc, Nat.mul_le_mul_left_iff Nat.two_pos, hx]
    constructor
    · intro hle
      by_contra hlt
      have := Nat.mul_le_mul_right P (Nat.lt_of_not_le hlt)
      rw [Nat.succ_mul] at this
      omega
    · intro hle
      exact Nat.le_trans (Nat.mul_le_mul_right P hle) (Nat.le_add_right _ _)
  refine ⟨hbit, ?_⟩
  have hmod : b % J * (2 * P) + (2 * P) ≤ 2 * J * P := by
    have hlt := Nat.mod_lt b (show 0 < J by omega)
    have := Nat.mul_le_mul_right (2 * P) hlt
    rw [Nat.succ_mul] at this
    calc b % J * (2 * P) + 2 * P ≤ J * (2 * P) := this
      _ = 2 * J * P := by ring
  by_cases hle : J ≤ b
  · have hsub : b % J = b - J := by
      rw [Nat.mod_eq_sub_mod hle, Nat.mod_eq_of_lt (by omega)]
    have hvalue : 2 * x + u = b % J * (2 * P) + (2 * s + u) + 2 * J * P := by
      obtain ⟨b', rfl⟩ := Nat.exists_eq_add_of_le hle
      rw [hsub, hx, Nat.add_sub_cancel_left]
      ring
    rw [if_pos hle, hvalue, Nat.add_mod_right, Nat.mod_eq_of_lt (by omega)]
  · have hvalue : 2 * x + 0 = b % J * (2 * P) + (2 * s + 0) := by
      rw [Nat.mod_eq_of_lt (Nat.lt_of_not_le hle), hx]
      ring
    rw [if_neg hle, hvalue, Nat.mod_eq_of_lt (by omega)]

/-- A pass of the multiplication keeps the invariant. -/
theorem mulPass_spec {u1 u2 : BitVec w} {j : Nat} {x : BitVec (w + w)} (hj : j + 1 ≤ w)
    (h : MulInv u1 u2 (j + 1) x) : MulInv u1 u2 j (mulPass u2 x) := by
  obtain ⟨a, b, hu1, hb, hx⟩ := h
  have hu2 := u2.isLt
  have hjpos := Nat.two_pow_pos j
  have hwidth : 2 ^ (w + w) = 2 * 2 ^ j * 2 ^ (w + (w - (j + 1))) := by
    rw [← Nat.pow_succ', ← Nat.pow_add]
    congr 1
    omega
  have hnext : 2 ^ (w + (w - j)) = 2 * 2 ^ (w + (w - (j + 1))) := by
    rw [← Nat.pow_succ']
    congr 1
    omega
  -- the bits that are multiplied already are too few to reach the remaining ones
  have ha : a < 2 ^ (w - (j + 1)) := by
    have hlt := u1.isLt
    have hsplit : 2 ^ w = 2 ^ (w - (j + 1)) * 2 ^ (j + 1) := by
      rw [← Nat.pow_add, Nat.sub_add_cancel hj]
    rw [hu1, hsplit] at hlt
    exact Nat.lt_of_mul_lt_mul_right (Nat.lt_of_le_of_lt (Nat.le_add_right _ _) hlt)
  have hproduct : (a + 1) * 2 ^ w ≤ 2 ^ (w + (w - (j + 1))) := by
    rw [Nat.pow_add, Nat.mul_comm]
    exact Nat.mul_le_mul_left _ ha
  have hs : a * u2.toNat + u2.toNat ≤ a * 2 ^ w + 2 ^ w - (a + 1) := by
    have := Nat.mul_le_mul_left (a + 1) (Nat.succ_le_of_lt hu2)
    rw [Nat.succ_eq_add_one, Nat.mul_add, Nat.mul_one, Nat.add_mul, Nat.add_mul, Nat.one_mul,
      Nat.one_mul] at this
    omega
  rw [Nat.add_mul, Nat.one_mul] at hproduct
  rw [Nat.pow_succ'] at hb
  obtain ⟨hbit, hvalue⟩ := mulPass_value (u := u2.toNat) hx hb (by omega)
  have hslt : (dhi x).slt 0#w = true ↔ 2 ^ j ≤ b := by
    rw [slt_zero_iff, toInt_dhi_neg_iff, toInt_neg_iff, hwidth, hbit]
  have hcond : (if (dhi x).slt 0#w then u2 else 0#w).toNat = if 2 ^ j ≤ b then u2.toNat else 0 := by
    by_cases hle : 2 ^ j ≤ b
    · rw [if_pos (hslt.mpr hle), if_pos hle]
    · rw [if_neg (mt hslt.mp hle), if_neg hle, BitVec.toNat_zero]
  refine ⟨2 * a + if 2 ^ j ≤ b then 1 else 0, b % 2 ^ j, ?_, Nat.mod_lt _ hjpos, ?_⟩
  · rw [hu1, Nat.pow_succ']
    split
    · rename_i hle
      rw [Nat.mod_eq_sub_mod hle, Nat.mod_eq_of_lt (by omega)]
      obtain ⟨b', rfl⟩ := Nat.exists_eq_add_of_le hle
      rw [Nat.add_sub_cancel_left]
      ring
    · rename_i hlt
      rw [Nat.mod_eq_of_lt (Nat.lt_of_not_le hlt)]
      ring
  · rw [mulPass, BitVec.toNat_add, BitVec.toNat_add, Nat.mod_add_mod,
      BitVec.toNat_setWidth_of_le (Nat.le_add_left w w), hcond, ← Nat.two_mul, hwidth, hvalue, hnext]
    split <;> ring

/-- All passes of the multiplication keep the invariant. -/
theorem mulPass_iterate (u1 u2 : BitVec w) {i : Nat} (hi : i ≤ w) :
    MulInv u1 u2 (w - i) ((mulPass u2)^[i] (twoCell 0#w u1)) := by
  induction i with
  | zero =>
    refine ⟨0, u1.toNat, by omega, u1.isLt, ?_⟩
    rw [Function.iterate_zero, id, toNat_twoCell, BitVec.toNat_zero]
    simp
  | succ i ih =>
    rw [Function.iterate_succ_apply']
    refine mulPass_spec (by omega) ?_
    rw [show w - (i + 1) + 1 = w - i by omega]
    exact ih (by omega)

/-- After all passes the double is the product. -/
theorem mulPass_all (u1 u2 : BitVec w) :
    (mulPass u2)^[w] (twoCell 0#w u1) = ummul u1 u2 := by
  obtain ⟨a, b, hu1, hb, hx⟩ := mulPass_iterate u1 u2 (le_refl w)
  refine BitVec.eq_of_toNat_eq ?_
  rw [Nat.sub_self] at hu1 hb
  have hb0 : b = 0 := by
    rw [Nat.pow_zero] at hb
    omega
  rw [hx, toNat_ummul, hu1, hb0]
  ring

variable (hw : 0 < w) (d r : List (BitVec w)) (p : List (Effect (BitVec w)))

/-- The body of the loop of {lit}`um*` is a pass. -/
theorem colon_mulPass (u2 i : BitVec w) (x : BitVec (w + w)) :
    colon [dup, zeroLess, rSecond, binary (· &&& ·), dTwoStarPlus, drop]
        ⟨dhi x :: dlo x :: d, i :: u2 :: r⟩ =
      some ⟨dhi (mulPass u2 x) :: dlo (mulPass u2 x) :: d, i :: u2 :: r⟩ := by
  simp [mulPass, flag_and]

include hw

/-- {lit}`um*` multiplies cells. -/
theorem colon_umStar (u1 u2 : BitVec w) :
    colon (umStar :: p) ⟨u2 :: u1 :: d, r⟩ =
      colon p ⟨dhi (ummul u1 u2) :: dlo (ummul u1 u2) :: d, r⟩ := by
  have hwidth : w < 2 ^ w := Nat.lt_two_pow_self
  have hbefore : ∀ i < w, 0 < i → u2 - BitVec.ofNat w w + BitVec.ofNat w i ≠ u2 := by
    intro i hi _ heq
    have hsame : BitVec.ofNat w i = BitVec.ofNat w w := by
      rw [← BitVec.sub_add_cancel u2 (BitVec.ofNat w w)] at heq
      grind
    rw [← BitVec.toNat_inj, BitVec.toNat_ofNat, BitVec.toNat_ofNat, Nat.mod_eq_of_lt (by omega),
      Nat.mod_eq_of_lt hwidth] at hsame
    omega
  have hloop := countedLoop_run (· + 1#w)
    [dup, zeroLess, rSecond, binary (· &&& ·), dTwoStarPlus, drop]
    (fun i => dhi ((mulPass u2)^[i] (twoCell 0#w u1)) ::
      dlo ((mulPass u2)^[i] (twoCell 0#w u1)) :: d)
    (fun i => u2 - BitVec.ofNat w w + BitVec.ofNat w i) u2 r
    (fun i => by rw [BitVec.ofNat_add]; grind)
    (fun i _ => by rw [colon_mulPass, Function.iterate_succ_apply'])
    (BitVec.sub_add_cancel _ _) hbefore hw hwidth.le
  rw [mulPass_all] at hloop
  simp only [Function.iterate_zero, id, dhi_twoCell, dlo_twoCell, BitVec.add_zero] at hloop
  rw [umStar, colon_word]
  simp only [List.cons_append, List.nil_append, colon_lit, colon_notRot, colon_dup, colon_binary]
  exact colon_cons_of_eq hloop p

end Multiplication

/-! ## Division -/

section Division

open Forth Stacks
open LongLong (flag flag_eq_zero_iff flag_not)

/-- What {lit}`/modstep` makes of the flag, the high and the low cell -/
def divPass (v : BitVec w) : BitVec w × BitVec w × BitVec w → BitVec w × BitVec w × BitVec w
  | (c, h, l) =>
      let fits := c ≠ 0#w ∨ v ≤ h
      let h := if fits then h - v else h
      let x := twoCell l h + twoCell l h + (if fits then 1#w else 0#w).setWidth (w + w)
      (h &&& cellMin w, dhi x, dlo x)

/-- Shifting a cell, with a bit shifted in -/
theorem toNat_shiftLeft_add (hw : 0 < w) {h b : BitVec w} (hb : b.toNat ≤ 1) :
    ((h <<< 1) + b).toNat = 2 * (h.toNat % 2 ^ (w - 1)) + b.toNat := by
  have hpow := two_pow_eq_add hw
  have hmod := Nat.mod_lt h.toNat (Nat.two_pow_pos (w - 1))
  have hshift : (h <<< 1).toNat = 2 * (h.toNat % 2 ^ (w - 1)) := by
    rw [BitVec.toNat_shiftLeft, Nat.shiftLeft_eq, Nat.pow_one, hpow, ← Nat.mul_two,
      Nat.mul_mod_mul_right, Nat.mul_comm]
  rw [BitVec.toNat_add, hshift, Nat.mod_eq_of_lt (by omega)]

theorem toNat_highbit_le (hw : 0 < w) (l : BitVec w) : (highbit l).toNat ≤ 1 := by
  rw [toNat_highbit_eq]
  rcases toNat_highbit_cases hw l with ⟨-, h⟩ | ⟨-, h⟩ <;> omega

/-- A bit that is added to a doubled word makes no carry. -/
theorem double_add_bit (hw : 0 < w) (l h : BitVec w) {b : BitVec w} (hb : b.toNat ≤ 1) :
    twoCell l h + twoCell l h + b.setWidth (w + w) =
      twoCell (l + l + b) ((h <<< 1) + highbit l) := by
  have hpow := two_pow_eq_add hw
  have hl := l.isLt
  have hhigh : (((h <<< 1) + highbit l).toNat : Int) ≡ 2 * h.toNat + (highbit l).toNat
      [ZMOD (2 ^ w : Nat)] := by
    refine (toNat_add_modEq _ _).trans (Int.ModEq.add_right _ ?_)
    rw [BitVec.toNat_shiftLeft, Nat.shiftLeft_eq, Nat.pow_one, Nat.mul_comm]
    exact_mod_cast Int.natCast_modEq_iff.mpr (Nat.mod_modEq _ _)
  have hlow : 2 * l.toNat + b.toNat = (highbit l).toNat * 2 ^ w + (l + l + b).toNat := by
    rw [toNat_highbit_eq]
    rcases toNat_highbit_cases hw l with ⟨h, heq⟩ | ⟨h, heq⟩ <;>
      rcases toNat_add_cases l l with ⟨h', heq'⟩ | ⟨h', heq'⟩ <;>
      rcases toNat_add_cases (l + l) b with ⟨h'', heq''⟩ | ⟨h'', heq''⟩ <;>
      rw [heq] <;> omega
  have hlow' := congrArg (Nat.cast : Nat → Int) hlow
  refine (twoCell_eq hhigh ((toNat_add_modEq _ _).trans
    (Int.ModEq.add_right _ (toNat_add_modEq _ _))) ?_).symm
  rw [toNat_twoCell, BitVec.toNat_setWidth_of_le (Nat.le_add_left w w)]
  push_cast at hlow' ⊢
  linear_combination -hlow'

/-- The last shift is undone. -/
theorem unshift_eq (hw : 0 < w) (h : BitVec w) {b : BitVec w} (hb : b.toNat ≤ 1) :
    ((h <<< 1) + b) >>> 1 ||| (h &&& cellMin w) = h := by
  have hh := h.isLt
  have hpos := Nat.two_pow_pos (w - 1)
  have hpow := two_pow_eq_add hw
  have hmod := Nat.mod_lt h.toNat hpos
  have hlow : (((h <<< 1) + b) >>> 1).toNat = h.toNat % 2 ^ (w - 1) := by
    rw [BitVec.toNat_ushiftRight, toNat_shiftLeft_add hw hb, Nat.shiftRight_eq_div_pow]
    omega
  have hdisjoint : ((h <<< 1) + b) >>> 1 &&& (h &&& cellMin w) = 0#w := by
    rw [BitVec.and_comm h, ← BitVec.and_assoc]
    refine BitVec.eq_of_toNat_eq ?_
    rw [BitVec.toNat_and, toNat_and_cellMin hw, hlow, Nat.div_eq_of_lt hmod, Nat.zero_mul,
      Nat.zero_and, BitVec.toNat_zero]
  rw [← BitVec.add_eq_or_of_and_eq_zero _ _ hdisjoint]
  refine BitVec.eq_of_toNat_eq ?_
  rw [BitVec.toNat_add, hlow, toNat_and_cellMin hw, Nat.mul_comm, Nat.mod_add_div,
    Nat.mod_eq_of_lt hh]

/-- The registers of {lit}`umdiv` in the cells of {lit}`/modstep`, with {lit}`i` iterations to go:
{lit}`qh` is the quotient so far, which {lit}`umdiv` has shifted already. -/
def DivRel (i : Nat) (c h l q : BitVec w) (s : BitVec w × BitVec w × BitVec w) : Prop :=
  ∃ (rest : Nat) (qh : BitVec w), (s.1 = 0#w ↔ c = 0#w) ∧ s.2.1 = h ∧ s.2.2 = l + qh ∧
    q = qh + qh ∧ l.toNat = rest * 2 ^ (w - i) ∧ qh.toNat < 2 ^ (w - i)

/-- The quotient does not reach the highest bit before the last iteration. -/
theorem highbit_add {i rest : Nat} (hi : i + 1 ≤ w) {l qh : BitVec w}
    (hl : l.toNat = rest * 2 ^ (w - (i + 1))) (hq : qh.toNat < 2 ^ (w - (i + 1))) :
    highbit (l + qh) = highbit l := by
  have hllt := l.isLt
  have hsplit : 2 ^ (w - 1) = 2 ^ (w - (i + 1)) * 2 ^ i := by
    rw [← Nat.pow_add]
    congr 1
    omega
  have hwidth : 2 ^ w = 2 ^ (i + 1) * 2 ^ (w - (i + 1)) := by
    rw [← Nat.pow_add, Nat.add_sub_cancel' hi]
  have hpos := Nat.two_pow_pos (w - (i + 1))
  have hrest : rest < 2 ^ (i + 1) := by
    rw [hl, hwidth] at hllt
    exact Nat.lt_of_mul_lt_mul_right hllt
  have hsum : (l + qh).toNat = rest * 2 ^ (w - (i + 1)) + qh.toNat := by
    have hle := Nat.mul_le_mul_right (2 ^ (w - (i + 1))) (Nat.succ_le_of_lt hrest)
    rw [Nat.succ_mul, ← hwidth] at hle
    rw [BitVec.toNat_add, hl, Nat.mod_eq_of_lt (by omega)]
  refine BitVec.eq_of_toNat_eq ?_
  rw [toNat_highbit_eq, toNat_highbit_eq, hsum, hl, hsplit, ← Nat.div_div_eq_div_mul,
    ← Nat.div_div_eq_div_mul, Nat.mul_comm rest, Nat.mul_add_div hpos, Nat.div_eq_of_lt hq,
    Nat.add_zero, Nat.mul_div_cancel_left _ hpos]

/-- The subtraction at the start of an iteration -/
def subtracted (v c h q : BitVec w) : BitVec w × BitVec w :=
  if c ≠ 0#w ∨ v ≤ h then (q + 1#w, h - v) else (q, h)

variable {s : BitVec w × BitVec w × BitVec w} {c h l q : BitVec w}

/-- A pass that starts with related cells -/
theorem divPass_eq (hw : 0 < w) {v c h q : BitVec w} (hc : s.1 = 0#w ↔ c = 0#w) (hh : s.2.1 = h) :
    ∃ b : BitVec w, b.toNat ≤ 1 ∧ (subtracted v c h q).1 = q + b ∧
      divPass v s = ((subtracted v c h q).2 &&& cellMin w,
        ((subtracted v c h q).2 <<< 1) + highbit s.2.2, s.2.2 + s.2.2 + b) := by
  obtain ⟨c', h', l'⟩ := s
  dsimp only at hc hh ⊢
  subst hh
  have hone : (1#w).toNat ≤ 1 := by
    rw [BitVec.toNat_ofNat]
    exact Nat.mod_le _ _
  by_cases hfits : c ≠ 0#w ∨ v ≤ h'
  · have hfits' : c' ≠ 0#w ∨ v ≤ h' := by rwa [Ne, hc]
    refine ⟨1#w, hone, by rw [subtracted, if_pos hfits], ?_⟩
    simp only [divPass, subtracted, if_pos hfits, if_pos hfits']
    rw [double_add_bit hw _ _ hone, dhi_twoCell, dlo_twoCell]
  · have hfits' : ¬(c' ≠ 0#w ∨ v ≤ h') := by rwa [Ne, hc]
    refine ⟨0#w, Nat.zero_le 1, by rw [subtracted, if_neg hfits, BitVec.add_zero], ?_⟩
    simp only [divPass, subtracted, if_neg hfits, if_neg hfits']
    rw [double_add_bit hw _ _ (b := 0#w) (Nat.zero_le 1), dhi_twoCell, dlo_twoCell]

theorem shiftLeft_one (x : BitVec w) : x <<< 1 = x + x := by
  refine BitVec.eq_of_toNat_eq ?_
  rw [BitVec.toNat_shiftLeft, BitVec.toNat_add, Nat.shiftLeft_eq, Nat.pow_one, Nat.mul_two]

/-- Before the last iteration the cells stay related. -/
theorem divPass_step (hw : 0 < w) (v : BitVec w) {i : Nat} (hi : i + 1 ≤ w)
    (hrel : DivRel (i + 1) c h l q s) :
    DivRel i (highbit (subtracted v c h q).2)
      (((subtracted v c h q).2 <<< 1) + highbit l) (l <<< 1) ((subtracted v c h q).1 <<< 1)
      (divPass v s) := by
  obtain ⟨rest, qh, hc, hh, hl', hq, hl, hqh⟩ := hrel
  obtain ⟨b, hb, hsub, hpass⟩ := divPass_eq hw (v := v) (q := q) hc hh
  have hexp : w - i = w - (i + 1) + 1 := by omega
  have hwidth : 2 ^ w = 2 ^ i * 2 ^ (w - i) := by
    rw [← Nat.pow_add, Nat.add_sub_cancel' (by omega)]
  have hquot : (qh + qh + b).toNat ≤ qh.toNat + qh.toNat + b.toNat := by
    rw [BitVec.toNat_add, BitVec.toNat_add]
    exact Nat.le_trans (Nat.mod_le _ _) (Nat.add_le_add_right (Nat.mod_le _ _) _)
  rw [hpass, hsub, hl']
  refine ⟨rest % 2 ^ i, q + b, and_cellMin_eq_zero_iff hw _, by rw [highbit_add hi hl hqh], ?_,
    shiftLeft_one _, ?_, ?_⟩
  · change l + qh + (l + qh) + b = l <<< 1 + (q + b)
    rw [hq, shiftLeft_one]
    grind
  · rw [BitVec.toNat_shiftLeft, Nat.shiftLeft_eq, hl, hwidth, hexp, Nat.pow_one, Nat.mul_assoc,
      ← Nat.pow_succ, Nat.mul_mod_mul_right]
  · rw [hq, hexp, Nat.pow_succ]
    omega

/-- The last iteration shifts the remainder once too often. -/
theorem divPass_last (hw : 0 < w) (v : BitVec w) (hrel : DivRel 0 c h l q s) :
    (divPass v s).2.2 = (subtracted v c h q).1 ∧
      (divPass v s).2.1 >>> 1 ||| (divPass v s).1 = (subtracted v c h q).2 := by
  obtain ⟨rest, qh, hc, hh, hl', hq, hl, hqh⟩ := hrel
  obtain ⟨b, hb, hsub, hpass⟩ := divPass_eq hw (v := v) (q := q) hc hh
  have hlzero : l = 0#w := by
    have hlt := l.isLt
    have hpos := Nat.two_pow_pos w
    rw [Nat.sub_zero] at hl
    have hrest : rest = 0 := by
      rcases Nat.eq_zero_or_pos rest with hzero | hrpos
      · exact hzero
      · have := Nat.le_mul_of_pos_left (2 ^ w) hrpos
        omega
    refine BitVec.eq_of_toNat_eq ?_
    rw [hl, hrest, Nat.zero_mul, BitVec.toNat_zero]
  rw [hpass, hl', hlzero, BitVec.zero_add]
  exact ⟨by rw [hsub, hq], unshift_eq hw _ (toNat_highbit_le hw qh)⟩

/-- All iterations -/
theorem divPass_iterate (hw : 0 < w) (v : BitVec w) {i : Nat} (hi : i ≤ w)
    (hrel : DivRel i c h l q s) :
    ((divPass v)^[i + 1] s).2.2 = (umdivLoop v i c h l q).1 ∧
      ((divPass v)^[i + 1] s).2.1 >>> 1 ||| ((divPass v)^[i + 1] s).1 =
        (umdivLoop v i c h l q).2 := by
  induction i generalizing c h l q s with
  | zero => exact divPass_last hw v hrel
  | succ i ih => exact ih (by omega) (divPass_step hw v hi hrel)

theorem or_ne_zero_iff (x y : BitVec w) : x ||| y ≠ 0#w ↔ x ≠ 0#w ∨ y ≠ 0#w := by
  rw [Ne, BitVec.or_eq_zero_iff, not_and_or]

/-- {lit}`/modstep` is a pass of the division. -/
theorem colon_slashModstep (hw : 0 < w) (v c h l : BitVec w) (d r : List (BitVec w)) :
    colon [slashModstep] ⟨v :: c :: h :: l :: d, r⟩ =
      some ⟨v :: (divPass v (c, h, l)).1 :: (divPass v (c, h, l)).2.1 ::
        (divPass v (c, h, l)).2.2 :: d, r⟩ := by
  have hflag : c ||| flag (flag (h.ult v) = 0#w) ≠ 0#w ↔ c ≠ 0#w ∨ v ≤ h := by
    rw [or_ne_zero_iff, flag_not hw, ne_eq (flag _), flag_eq_zero_iff hw, Bool.not_eq_false',
      BitVec.ult, decide_eq_true_iff, Nat.not_lt, BitVec.le_def]
  rw [slashModstep, colon_word]
  simp only [List.cons_append, List.nil_append, colon_toR, colon_over, colon_rFetch, colon_uLess,
    colon_zeroEquals, colon_binary, colon_ifThen, colon_lit, colon_dTwoStarPlus, colon_fromR,
    colon_nil, divPass]
  by_cases hfits : c ≠ 0#w ∨ v ≤ h
  · rw [if_pos (hflag.mpr hfits)]
    simp only [if_pos hfits]
  · rw [if_neg (mt hflag.mp hfits)]
    simp only [if_neg hfits]

/-- {lit}`um/mod` leaves what the loop of {lit}`umdiv` computes, also where {lit}`umdiv` throws. -/
theorem colon_umSlashMod (hw : 1 < w) (lo hi v : BitVec w) (d r : List (BitVec w))
    (p : List (Effect (BitVec w))) :
    colon (Forth.umSlashMod :: p) ⟨v :: hi :: lo :: d, r⟩ =
      colon p ⟨(umdivLoop v w 0#w hi lo 0#w).1 :: (umdivLoop v w 0#w hi lo 0#w).2 :: d, r⟩ := by
  have hwidth : w + 1 < 2 ^ w := by
    obtain ⟨n, rfl⟩ := Nat.exists_eq_add_of_le' hw
    have hpow : n < 2 ^ n := Nat.lt_two_pow_self
    rw [Nat.pow_add]
    omega
  have hone : (1#w).toNat = 1 := BitVec.toNat_one (by omega)
  have hrel : DivRel w 0#w hi lo 0#w (0#w, hi, lo) :=
    ⟨lo.toNat, 0#w, Iff.rfl, rfl, by rw [BitVec.add_zero], by rw [BitVec.add_zero],
      by rw [Nat.sub_self, Nat.pow_zero, Nat.mul_one], Nat.two_pow_pos _⟩
  obtain ⟨hquot, hrem⟩ := divPass_iterate (by omega) v (le_refl w) hrel
  have hbefore : ∀ i < w + 1, BitVec.ofNat w i ≠ BitVec.ofNat w w + 1#w := by
    intro i hi' heq
    rw [← BitVec.ofNat_add, ← BitVec.toNat_inj, BitVec.toNat_ofNat, BitVec.toNat_ofNat,
      Nat.mod_eq_of_lt (by omega), Nat.mod_eq_of_lt hwidth] at heq
    omega
  have hloop := countedLoop_run (· + 1#w) [slashModstep]
    (fun i => v :: ((divPass v)^[i] (0#w, hi, lo)).1 ::
      ((divPass v)^[i] (0#w, hi, lo)).2.1 :: ((divPass v)^[i] (0#w, hi, lo)).2.2 :: d)
    (BitVec.ofNat w) (BitVec.ofNat w w + 1#w) r
    (fun i => BitVec.ofNat_add i 1)
    (fun i _ => by rw [colon_slashModstep (by omega), Function.iterate_succ_apply'])
    (BitVec.ofNat_add w 1) (fun i hi' _ => hbefore i hi') (Nat.succ_pos w) hwidth.le
  rw [← guardedLoop_of_ne (hbefore 0 (Nat.succ_pos w)), Function.iterate_zero, id] at hloop
  rw [Forth.umSlashMod, colon_word]
  simp only [List.cons_append, List.nil_append, colon_lit, colon_swap]
  rw [colon_cons_of_eq hloop]
  simp only [colon_drop, colon_swap, colon_lit, colon_binary, hone]
  rw [BitVec.or_comm, hquot, hrem]

end Division

end Arith
end Gforth
