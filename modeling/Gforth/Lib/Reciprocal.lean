import Mathlib.Data.Int.Basic
import Mathlib.Tactic

/-!
# Division by multiplying with a reciprocal

A reciprocal of a divisor is a fraction {lit}`c / K` that is close to the inverse of the
divisor.  Multiplying with it and rounding down gives the exact quotient if the error of the
reciprocal, times the dividend, is smaller than the distance of the quotient to the next
integer.

Main results:

- Theorem {lit}`mul_ceil_div`: reciprocals that are rounded up.
- Theorem {lit}`mul_add_ediv`: reciprocals that are rounded to the nearest number, with an
  offset that makes up for it.
-/

namespace Gforth
namespace Lib

/-- Multiplying with a reciprocal that is rounded up. -/
theorem mul_ceil_div {x u K : Nat} (hu : 0 < u) (hx : x * (u - 1) < K) :
    x * ((K + (u - 1)) / u) / K = x / u := by
  have hK : 0 < K := lt_of_le_of_lt (Nat.zero_le _) hx
  generalize hc : (K + (u - 1)) / u = c
  have hle : c * u ≤ K + (u - 1) := by
    rw [← hc]
    exact Nat.div_mul_le_self _ _
  have hge : K ≤ c * u := by
    have hlt := Nat.lt_mul_div_succ (K + (u - 1)) hu
    rw [hc, Nat.mul_succ, Nat.mul_comm] at hlt
    omega
  have hdm := Nat.div_add_mod x u
  have hmod := Nat.mod_lt x hu
  refine Nat.div_eq_of_lt_le ?_ ?_
  · refine Nat.le_of_mul_le_mul_right ?_ hu
    calc x / u * K * u = u * (x / u) * K := by ring
      _ ≤ x * K := Nat.mul_le_mul_right K (by omega)
      _ ≤ x * (c * u) := Nat.mul_le_mul_left x hge
      _ = x * c * u := by ring
  · refine Nat.lt_of_mul_lt_mul_right (a := u) ?_
    calc x * c * u = x * (c * u) := by ring
      _ ≤ x * (K + (u - 1)) := Nat.mul_le_mul_left x hle
      _ = x * K + x * (u - 1) := by ring
      _ < x * K + K := by omega
      _ = (x + 1) * K := by ring
      _ ≤ (u * (x / u) + u) * K := Nat.mul_le_mul_right K (by omega)
      _ = (x / u + 1) * K * u := by ring

/-- Multiplying with a reciprocal with the error {lit}`a * n - K`, and adding an offset
{lit}`b`. -/
theorem mul_add_ediv {x n K a b : Int} (hn : 0 < n) (hlow : 0 ≤ x * (a * n - K) + n * b)
    (hhigh : x * (a * n - K) + n * b < K) : (x * a + b) / K = x / n := by
  have hK : 0 < K := lt_of_le_of_lt hlow hhigh
  have hdm := Int.mul_ediv_add_emod x n
  have hnonneg := Int.emod_nonneg x hn.ne'
  have hlt := Int.emod_lt_of_pos x hn
  generalize x / n = q at *
  generalize x % n = r at *
  have hscaled : n * (x * a + b) = n * (q * K) + (r * K + (x * (a * n - K) + n * b)) := by
    calc n * (x * a + b) = x * K + (x * (a * n - K) + n * b) := by ring
      _ = (n * q + r) * K + (x * (a * n - K) + n * b) := by rw [hdm]
      _ = n * (q * K) + (r * K + (x * (a * n - K) + n * b)) := by ring
  have hrest : 0 ≤ r * K := Int.mul_nonneg hnonneg hK.le
  have hrest' : (r + 1) * K ≤ n * K := Int.mul_le_mul_of_nonneg_right hlt hK.le
  refine le_antisymm ?_ ?_
  · rw [← Int.lt_add_one_iff, Int.ediv_lt_iff_lt_mul hK]
    refine Int.lt_of_mul_lt_mul_left (a := n) ?_ hn.le
    rw [hscaled]
    linarith
  · rw [Int.le_ediv_iff_mul_le hK]
    refine Int.le_of_mul_le_mul_left (a := n) ?_ hn
    rw [hscaled]
    linarith

end Lib
end Gforth
