import Gforth.Lib.Doubles

/-!
# Steps on a circle

Words as places on a circle, and steps from a word to its neighbours.

Main results:

- Theorem {lit}`crosses_up_iff`: a crossing upwards is a carry of the distance from the boundary.
- Theorem {lit}`crosses_down_iff`: a crossing downwards is a distance that is less than the steps.
- Theorem {lit}`toInt_xor_intMin`: the sign bit as an offset by half the circle.
-/

namespace Gforth
namespace Lib

variable {w : Nat}

/-- Some of the {lit}`count` steps by {lit}`dir` from {lit}`start` goes from {lit}`a` to
{lit}`b`. -/
def Crosses (start dir : BitVec w) (count : Nat) (a b : BitVec w) : Prop :=
  ∃ j < count, start + BitVec.ofNat w j * dir = a ∧ start + BitVec.ofNat w (j + 1) * dir = b

instance (start dir : BitVec w) (count : Nat) (a b : BitVec w) :
    Decidable (Crosses start dir count a b) :=
  inferInstanceAs (Decidable (∃ j < count, _))

theorem ofNat_toNat_self (x : BitVec w) : BitVec.ofNat w x.toNat = x := by
  rw [BitVec.ofNat_toNat, BitVec.setWidth_eq]

/-- Steps upwards that cross the boundary below {lit}`b` -/
theorem crosses_up_iff (start b : BitVec w) (count : Nat) :
    Crosses start 1#w count (b - 1#w) b ↔ 2 ^ w ≤ (start - b).toNat + count := by
  have hlt := (start - b).isLt
  constructor
  · rintro ⟨j, hj, -, hb⟩
    by_contra hle
    have hzero : (start - b) + BitVec.ofNat w (j + 1) = 0#w := by
      rw [← hb, BitVec.mul_one]
      grind
    have hval := congrArg BitVec.toNat hzero
    rw [BitVec.toNat_add, BitVec.toNat_ofNat, Nat.mod_eq_of_lt (by omega : j + 1 < 2 ^ w),
      Nat.mod_eq_of_lt (by omega), BitVec.toNat_zero] at hval
    omega
  · intro hle
    have hsteps : BitVec.ofNat w (~~~(start - b)).toNat = -(start - b) - 1#w := by
      rw [ofNat_toNat_self, BitVec.neg_eq_not_add, BitVec.add_sub_cancel]
    refine ⟨(~~~(start - b)).toNat, ?_, ?_, ?_⟩
    · rw [BitVec.toNat_not]
      omega
    · rw [hsteps, BitVec.mul_one]
      grind
    · rw [BitVec.ofNat_add, hsteps, BitVec.mul_one]
      grind

/-- Steps downwards that cross the boundary below {lit}`a` -/
theorem crosses_down_iff (start a : BitVec w) (count : Nat) :
    Crosses start (-1#w) count a (a - 1#w) ↔ (start - a).toNat < count := by
  constructor
  · rintro ⟨j, hj, ha, -⟩
    have hsteps : start - a = BitVec.ofNat w j := by
      rw [← ha]
      grind
    rw [hsteps, BitVec.toNat_ofNat]
    exact Nat.lt_of_le_of_lt (Nat.mod_le j _) hj
  · intro hlt
    refine ⟨(start - a).toNat, hlt, ?_, ?_⟩
    · rw [ofNat_toNat_self]
      grind
    · rw [BitVec.ofNat_add, ofNat_toNat_self]
      grind

/-! ## The sign bit as an offset -/

/-- The highest bit is added to a smaller number. -/
theorem xor_two_pow {v x : Nat} (h : x < 2 ^ v) : x ^^^ 2 ^ v = x + 2 ^ v := by
  refine Nat.eq_of_testBit_eq fun i => ?_
  rw [Nat.testBit_xor, Nat.testBit_two_pow, Nat.add_comm]
  rcases Nat.lt_trichotomy i v with hlt | rfl | hgt
  · rw [Nat.testBit_two_pow_add_gt hlt, decide_eq_false (by omega), Bool.xor_false]
  · rw [Nat.testBit_two_pow_add_eq, decide_eq_true rfl, Bool.xor_true]
  · have hpow : 2 ^ v + 2 ^ v ≤ 2 ^ i := by
      rw [← Nat.mul_two, ← Nat.pow_succ]
      exact Nat.pow_le_pow_right Nat.two_pos hgt
    rw [decide_eq_false (by omega), Bool.xor_false, Nat.testBit_lt_two_pow (by omega),
      Nat.testBit_lt_two_pow (by omega)]

/-- Changing the sign bit makes an unsigned number a signed one. -/
theorem toInt_xor_intMin {v : Nat} (x : BitVec (v + 1)) :
    (x ^^^ BitVec.intMin (v + 1)).toInt = x.toNat - (2 ^ v : Nat) := by
  have hlt := x.isLt
  have hpow : 2 ^ (v + 1) = 2 ^ v * 2 := pow_succ 2 v
  have hxor : (x ^^^ BitVec.intMin (v + 1)).toNat = x.toNat ^^^ 2 ^ v := by
    rw [BitVec.toNat_xor, BitVec.toNat_intMin_of_pos (Nat.succ_pos v), Nat.succ_sub_one]
  rcases Nat.lt_or_ge x.toNat (2 ^ v) with hsmall | hlarge
  · rw [xor_two_pow hsmall] at hxor
    rcases toInt_cases (x ^^^ BitVec.intMin (v + 1)) with ⟨h, heq⟩ | ⟨h, heq⟩ <;> omega
  · have hoffset := xor_two_pow (show x.toNat - 2 ^ v < 2 ^ v by omega)
    rw [Nat.sub_add_cancel hlarge] at hoffset
    rw [← hoffset, Nat.xor_assoc, Nat.xor_self, Nat.xor_zero] at hxor
    rcases toInt_cases (x ^^^ BitVec.intMin (v + 1)) with ⟨h, heq⟩ | ⟨h, heq⟩ <;> omega

end Lib
end Gforth
