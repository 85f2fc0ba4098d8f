import Mathlib.Data.LawfulXor.Basic
import Mathlib.Tactic

/-!
# Alignment

A word is rounded down to a multiple of a power of two by a mask, and two words are on the same page
if they are rounded down to the same multiple.

Main results:

- Theorem {lit}`toNat_and_neg`: the multiple that the mask leaves.
- Theorem {lit}`xor_and_neg_eq_zero_iff`: the test for the same page.
- Theorems {lit}`onPages_forward`, {lit}`onPages_backward`: a word that sticks out of a text, and is
  on pages of the text.
-/

namespace Gforth
namespace Lib

variable {w k : Nat}

/-- The bits of a negated power of two -/
theorem getLsbD_neg_two_pow (hk : k < w) {i : Nat} (hi : i < w) :
    (-BitVec.ofNat w (2 ^ k)).getLsbD i = decide (k ≤ i) := by
  have hbit : ∀ j, (BitVec.ofNat w (2 ^ k)).getLsbD j = decide (k = j) := by
    intro j
    rw [BitVec.getLsbD_ofNat, Nat.testBit_two_pow]
    by_cases hj : k = j
    · subst hj
      simp [hk]
    · simp [hj]
  rw [BitVec.getLsbD_neg, hbit]
  simp only [hbit, decide_eq_true_eq, exists_eq_right', hi, decide_true, Bool.true_and]
  by_cases heq : k = i
  · simp [heq]
  · by_cases hlt : k < i
    · simp [heq, hlt, hlt.le]
    · simp [heq, hlt, show ¬k ≤ i by omega]

/-- Masking with a negated power of two clears the bits below it. -/
theorem and_neg_eq_shift (hk : k < w) (x : BitVec w) :
    x &&& -BitVec.ofNat w (2 ^ k) = x >>> k <<< k := by
  refine BitVec.eq_of_getLsbD_eq fun i hi => ?_
  rw [BitVec.getLsbD_and, getLsbD_neg_two_pow hk hi, BitVec.getLsbD_shiftLeft,
    BitVec.getLsbD_ushiftRight]
  by_cases hle : k ≤ i
  · simp [hi, hle, show ¬i < k by omega]
  · simp [hi, hle, show i < k by omega]

/-- The multiple that the mask leaves -/
theorem toNat_and_neg (hk : k < w) (x : BitVec w) :
    (x &&& -BitVec.ofNat w (2 ^ k)).toNat = x.toNat / 2 ^ k * 2 ^ k := by
  rw [and_neg_eq_shift hk, BitVec.toNat_shiftLeft, BitVec.toNat_ushiftRight, Nat.shiftLeft_eq,
    Nat.shiftRight_eq_div_pow, Nat.mod_eq_of_lt]
  exact lt_of_le_of_lt (Nat.div_mul_le_self _ _) x.isLt

/-- The test for the same page -/
theorem xor_and_neg_eq_zero_iff (hk : k < w) (x y : BitVec w) :
    (x ^^^ y) &&& -BitVec.ofNat w (2 ^ k) = 0#w ↔ x.toNat / 2 ^ k = y.toNat / 2 ^ k := by
  have hpos : 0 < 2 ^ k := Nat.two_pow_pos k
  rw [← BitVec.toNat_inj, toNat_and_neg hk, BitVec.toNat_zero, Nat.mul_eq_zero,
    or_iff_left hpos.ne', ← Nat.shiftRight_eq_div_pow, BitVec.toNat_xor, Nat.shiftRight_xor_distrib,
    xor_eq_zero_iff, Nat.shiftRight_eq_div_pow, Nat.shiftRight_eq_div_pow]

/-! ## Pages -/

/-- The page of an address, for pages of {lit}`2 ^ k` bytes -/
def page (k : Nat) (a : BitVec w) : Nat :=
  a.toNat / 2 ^ k

/-- All of the {lit}`m` bytes at {lit}`b` are on pages that have one of the {lit}`n` bytes at
{lit}`a`. -/
def OnPages (k : Nat) (a : BitVec w) (n : Nat) (b : BitVec w) (m : Nat) : Prop :=
  ∀ i < m, ∃ j < n, page k (b + BitVec.ofNat w i) = page k (a + BitVec.ofNat w j)

/-- A word within the text -/
theorem onPages_inside {a : BitVec w} {n d m : Nat} (h : d + m ≤ n) :
    OnPages k a n (a + BitVec.ofNat w d) m := by
  intro i hi
  refine ⟨d + i, by omega, ?_⟩
  rw [BitVec.add_assoc, ← BitVec.ofNat_add]

theorem toNat_add_ofNat {a : BitVec w} {i : Nat} (h : a.toNat + i < 2 ^ w) :
    (a + BitVec.ofNat w i).toNat = a.toNat + i := by
  rw [BitVec.toNat_add, BitVec.toNat_ofNat, Nat.add_mod_mod, Nat.mod_eq_of_lt h]

/-- A word that starts in the text and sticks out by {lit}`e` bytes, which are on the last page of
the text -/
theorem onPages_forward {a : BitVec w} {n d m e : Nat} (hd : d < n) (hm : d + m ≤ n + e)
    (hfits : a.toNat + (n - 1) + e < 2 ^ w)
    (hpage : (a.toNat + (n - 1) + e) / 2 ^ k = (a.toNat + (n - 1)) / 2 ^ k) :
    OnPages k a n (a + BitVec.ofNat w d) m := by
  intro i hi
  rw [BitVec.add_assoc, ← BitVec.ofNat_add]
  by_cases hin : d + i < n
  · exact ⟨d + i, hin, rfl⟩
  · refine ⟨n - 1, by omega, ?_⟩
    rw [page, page, toNat_add_ofNat (by omega), toNat_add_ofNat (by omega)]
    refine le_antisymm ?_ (Nat.div_le_div_right (by omega))
    rw [← hpage]
    exact Nat.div_le_div_right (by omega)

/-- A word that ends with the text, and sticks out of it within its last page -/
theorem onPages_backward {a : BitVec w} {n m : Nat} (hn : 0 < n) (hfits : a.toNat + n < 2 ^ w)
    (hpage : m ≤ (a.toNat + (n - 1)) % 2 ^ k + 1) :
    OnPages k a n (a + BitVec.ofNat w n - BitVec.ofNat w m) m := by
  have hmod := Nat.mod_le (a.toNat + (n - 1)) (2 ^ k)
  have hend : (a + BitVec.ofNat w n).toNat = a.toNat + n := toNat_add_ofNat hfits
  have hm : (BitVec.ofNat w m).toNat = m := by
    rw [BitVec.toNat_ofNat, Nat.mod_eq_of_lt (by omega)]
  have hstart : (a + BitVec.ofNat w n - BitVec.ofNat w m).toNat = a.toNat + n - m := by
    rw [BitVec.toNat_sub_of_le (by rw [BitVec.le_def, hend, hm]; omega), hend, hm]
  intro i hi
  refine ⟨n - 1, by omega, ?_⟩
  rw [page, page, toNat_add_ofNat (by rw [hstart]; omega), toNat_add_ofNat (by omega), hstart]
  have hdiv := Nat.div_add_mod (a.toNat + (n - 1)) (2 ^ k)
  have hlt := Nat.mod_lt (a.toNat + (n - 1)) (Nat.two_pow_pos k)
  refine Nat.div_eq_of_lt_le ?_ ?_
  · rw [Nat.mul_comm]
    omega
  · rw [Nat.succ_mul, Nat.mul_comm]
    omega

end Lib
end Gforth
