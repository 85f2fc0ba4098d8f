import Mathlib.Data.Int.ModEq
import Mathlib.Tactic

/-!
# Double-width words

Words of any width and pairs of them, with their values as natural numbers and as signed
integers.  Whether a value fits a word is stated without the number of bits less one, so
that nothing depends on the width being positive.

Main results:

- Theorem {lit}`toNat_twoCell`: the value of a pair of words.
- Theorem {lit}`toInt_eq_of_congr`: a word is known by its signed value.
- Theorem {lit}`toInt_dhi`: the upper word has the sign of the pair.
-/

namespace Gforth
namespace Lib

variable {w : Nat}

/-- The double with the given halves. -/
def twoCell (lo hi : BitVec w) : BitVec (w + w) :=
  hi ++ lo

/-- The lower half of a double. -/
def dlo (d : BitVec (w + w)) : BitVec w :=
  d.setWidth w

/-- The upper half of a double. -/
def dhi (d : BitVec (w + w)) : BitVec w :=
  d.extractLsb' w w

/-- The signed number fits a word. -/
def FitsCell (w : Nat) (n : Int) : Prop :=
  -(2 ^ w : Nat) ≤ 2 * n ∧ 2 * n < (2 ^ w : Nat)

instance (n : Int) : Decidable (FitsCell w n) :=
  inferInstanceAs (Decidable (_ ∧ _))

/-! ## Unsigned values -/

theorem two_pow_add_self (w : Nat) : 2 ^ (w + w) = 2 ^ w * 2 ^ w :=
  Nat.pow_add 2 w w

@[simp]
theorem toNat_twoCell (lo hi : BitVec w) :
    (twoCell lo hi).toNat = hi.toNat * 2 ^ w + lo.toNat := by
  rw [twoCell, BitVec.toNat_append, ← Nat.shiftLeft_add_eq_or_of_lt lo.isLt, Nat.shiftLeft_eq]

theorem toNat_dlo (d : BitVec (w + w)) : (dlo d).toNat = d.toNat % 2 ^ w := by
  rw [dlo, BitVec.toNat_setWidth]

/-- The high cell is the quotient. -/
theorem toNat_dhi (d : BitVec (w + w)) : (dhi d).toNat = d.toNat / 2 ^ w := by
  have hlt : d.toNat / 2 ^ w < 2 ^ w := by
    rw [Nat.div_lt_iff_lt_mul (Nat.two_pow_pos w), ← two_pow_add_self]
    exact d.isLt
  rw [dhi, BitVec.extractLsb'_toNat, Nat.shiftRight_eq_div_pow, Nat.mod_eq_of_lt hlt]

/-- A double is made of its halves. -/
theorem toNat_dhi_dlo (d : BitVec (w + w)) :
    d.toNat = (dhi d).toNat * 2 ^ w + (dlo d).toNat := by
  rw [toNat_dhi, toNat_dlo, Nat.mul_comm]
  exact (Nat.div_add_mod _ _).symm

@[simp]
theorem dlo_twoCell (lo hi : BitVec w) : dlo (twoCell lo hi) = lo := by
  refine BitVec.eq_of_toNat_eq ?_
  rw [toNat_dlo, toNat_twoCell, Nat.mul_comm, Nat.mul_add_mod, Nat.mod_eq_of_lt lo.isLt]

/-- The high cell of two joined cells -/
@[simp]
theorem dhi_twoCell (lo hi : BitVec w) : dhi (twoCell lo hi) = hi := by
  refine BitVec.eq_of_toNat_eq ?_
  rw [toNat_dhi, toNat_twoCell, Nat.mul_comm, Nat.mul_add_div (Nat.two_pow_pos w),
    Nat.div_eq_of_lt lo.isLt, Nat.add_zero]

/-! ## Signed values -/

/-- The two readings of a word. -/
theorem toInt_cases (x : BitVec w) :
    (2 * x.toNat < 2 ^ w ∧ x.toInt = x.toNat) ∨
      (2 ^ w ≤ 2 * x.toNat ∧ x.toInt = x.toNat - (2 ^ w : Nat)) := by
  rw [BitVec.toInt_eq_toNat_cond]
  split
  · exact Or.inl ⟨by assumption, rfl⟩
  · exact Or.inr ⟨by omega, rfl⟩

theorem fitsCell_toInt (x : BitVec w) : FitsCell w x.toInt := by
  have := x.isLt
  rw [FitsCell]
  rcases toInt_cases x with ⟨h, heq⟩ | ⟨h, heq⟩ <;> omega

/-- A word is known by its signed value: the number that fits and is congruent. -/
theorem toInt_eq_of_congr {x : BitVec w} {n : Int} (hfits : FitsCell w n) {k : Int}
    (h : (x.toNat : Int) = n + k * (2 ^ w : Nat)) : x.toInt = n := by
  obtain ⟨hlow, hhigh⟩ := hfits
  have hemod : (n + k * (2 ^ w : Nat)) % (2 ^ w : Nat) = n % (2 ^ w : Nat) :=
    Int.add_mul_emod_self_right n k _
  rw [BitVec.toInt_eq_toNat_bmod, h, ← Int.emod_bmod, hemod, Int.emod_bmod]
  exact Int.bmod_eq_of_le_mul_two (by omega) (by omega)

theorem slt_zero_iff (x : BitVec w) : x.slt 0#w = true ↔ x.toInt < 0 := by
  rw [BitVec.slt_iff_toInt_lt, BitVec.toInt_zero]

theorem toInt_neg_iff (x : BitVec w) : x.toInt < 0 ↔ 2 ^ w ≤ 2 * x.toNat := by
  have := x.isLt
  rcases toInt_cases x with ⟨h, heq⟩ | ⟨h, heq⟩ <;> omega

theorem toInt_of_lt {x : BitVec w} (h : 2 * x.toNat < 2 ^ w) : x.toInt = x.toNat := by
  rcases toInt_cases x with ⟨-, heq⟩ | ⟨hge, -⟩
  · exact heq
  · omega

/-- Negating a magnitude gives the negative number. -/
theorem toInt_neg_of_le {x : BitVec w} (h : 2 * x.toNat ≤ 2 ^ w) :
    (-x).toInt = -(x.toNat : Int) := by
  have hlt := x.isLt
  have hfits : FitsCell w (-(x.toNat : Int)) := by
    rw [FitsCell]
    omega
  rcases Nat.eq_zero_or_pos x.toNat with hzero | hpos
  · refine toInt_eq_of_congr (k := 0) hfits ?_
    rw [BitVec.toNat_neg, hzero, Nat.sub_zero, Nat.mod_self]
    omega
  · refine toInt_eq_of_congr (k := 1) hfits ?_
    rw [BitVec.toNat_neg, Nat.mod_eq_of_lt (by omega)]
    omega

/-- The magnitude of a word, also of the most negative one. -/
theorem toNat_abs (x : BitVec w) : (if x.slt 0#w then -x else x).toNat = x.toInt.natAbs := by
  have hlt := x.isLt
  have hpos := Nat.two_pow_pos w
  by_cases hneg : x.toInt < 0
  · rw [if_pos ((slt_zero_iff x).mpr hneg), BitVec.toNat_neg]
    rcases toInt_cases x with ⟨h, heq⟩ | ⟨h, heq⟩
    · omega
    · rw [Nat.mod_eq_of_lt (by omega)]
      omega
  · rw [if_neg (fun h => hneg ((slt_zero_iff x).mp h))]
    rcases toInt_cases x with ⟨h, heq⟩ | ⟨h, heq⟩ <;> omega

theorem natAbs_toInt_le (x : BitVec w) : 2 * x.toInt.natAbs ≤ 2 ^ w := by
  have := fitsCell_toInt x
  rw [FitsCell] at this
  omega

/-- The signs of two words differ if their exclusive or is negative. -/
theorem xor_slt_zero_iff (x y : BitVec w) :
    (x ^^^ y).slt 0#w = true ↔ (x.toInt < 0 ↔ ¬y.toInt < 0) := by
  rw [BitVec.slt_zero_eq_msb, BitVec.msb_xor, ← slt_zero_iff, ← slt_zero_iff,
    BitVec.slt_zero_eq_msb, BitVec.slt_zero_eq_msb]
  cases x.msb <;> cases y.msb <;> simp

/-- The upper half decides the sign of a double. -/
theorem toInt_dhi_dlo (d : BitVec (w + w)) :
    d.toInt = (dhi d).toInt * (2 ^ w : Nat) + (dlo d).toNat := by
  have hsplit := toNat_dhi_dlo d
  have hlo := (dlo d).isLt
  have hdouble := two_pow_add_self w
  have hhalf : 2 * d.toNat < 2 ^ (w + w) ↔ 2 * (dhi d).toNat < 2 ^ w := by
    rw [hsplit, hdouble]
    cases w with
    | zero => omega
    | succ w =>
        rw [Nat.pow_succ] at hlo ⊢
        constructor
        · intro h
          nlinarith
        · intro h
          have := Nat.mul_le_mul_right (2 ^ w * 2) (show (dhi d).toNat + 1 ≤ 2 ^ w by omega)
          nlinarith
  rcases toInt_cases d with ⟨hd, heq⟩ | ⟨hd, heq⟩ <;>
    rcases toInt_cases (dhi d) with ⟨hh, heq'⟩ | ⟨hh, heq'⟩
  · rw [heq, heq', hsplit]
    push_cast
    ring
  · omega
  · omega
  · rw [heq, heq', hsplit, hdouble]
    push_cast
    ring

/-- The high cell of a signed double is the quotient, rounded down. -/
theorem toInt_dhi (d : BitVec (w + w)) : (dhi d).toInt = d.toInt / (2 ^ w : Nat) := by
  have hlo := (dlo d).isLt
  have hpos := Nat.two_pow_pos w
  rw [toInt_dhi_dlo d, Int.add_comm, Int.add_mul_ediv_right _ _ (by omega),
    Int.ediv_eq_zero_of_lt (by omega) (by omega), Int.zero_add]

theorem toInt_dhi_neg_iff (d : BitVec (w + w)) : (dhi d).toInt < 0 ↔ d.toInt < 0 := by
  have hpos := Nat.two_pow_pos w
  rw [toInt_dhi, Int.ediv_lt_iff_lt_mul (by omega), Int.zero_mul]

/-! ## Values up to overflow -/

theorem bmod_modEq (n : Int) (m : Nat) : n.bmod m ≡ n [ZMOD m] :=
  Int.modEq_iff_dvd.mpr Int.dvd_self_sub_bmod

theorem toNat_modEq_toInt (x : BitVec w) : (x.toNat : Int) ≡ x.toInt [ZMOD (2 ^ w : Nat)] := by
  rw [BitVec.toInt_eq_toNat_bmod]
  exact (bmod_modEq _ _).symm

/-- A word is known by its value up to overflow. -/
theorem toInt_eq_of_modEq {x : BitVec w} {n : Int} (hfits : FitsCell w n)
    (h : x.toInt ≡ n [ZMOD (2 ^ w : Nat)]) : x.toInt = n := by
  obtain ⟨k, hk⟩ := Int.modEq_iff_dvd.mp ((toNat_modEq_toInt x).trans h).symm
  refine toInt_eq_of_congr hfits (k := k) ?_
  rw [Int.mul_comm k, ← hk]
  ring

theorem toInt_add_modEq (x y : BitVec w) :
    (x + y).toInt ≡ x.toInt + y.toInt [ZMOD (2 ^ w : Nat)] := by
  rw [BitVec.toInt_add]
  exact bmod_modEq _ _

theorem toInt_sub_modEq (x y : BitVec w) :
    (x - y).toInt ≡ x.toInt - y.toInt [ZMOD (2 ^ w : Nat)] := by
  rw [BitVec.toInt_sub]
  exact bmod_modEq _ _

theorem toInt_mul_modEq (x y : BitVec w) :
    (x * y).toInt ≡ x.toInt * y.toInt [ZMOD (2 ^ w : Nat)] := by
  rw [BitVec.toInt_mul]
  exact bmod_modEq _ _

/-- The upper half of a double that is known up to overflow. -/
theorem toInt_dhi_modEq {d : BitVec (w + w)} {n : Int}
    (h : d.toInt ≡ n [ZMOD (2 ^ (w + w) : Nat)]) :
    (dhi d).toInt ≡ n / (2 ^ w : Nat) [ZMOD (2 ^ w : Nat)] := by
  have hpos := Nat.two_pow_pos w
  obtain ⟨k, hk⟩ := Int.modEq_iff_dvd.mp h
  have hn : n = d.toInt + k * (2 ^ w : Nat) * (2 ^ w : Nat) := by
    rw [two_pow_add_self, Nat.cast_mul] at hk
    linarith
  rw [toInt_dhi, hn, Int.add_mul_ediv_right _ _ (by omega)]
  exact (Int.modEq_iff_dvd.mpr ⟨k, by ring⟩)

end Lib
end Gforth
