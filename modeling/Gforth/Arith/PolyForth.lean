import Gforth.Arith.Floored
import Gforth.Arith.LongLong

/-!
# Mixed division in the style of PolyForth

{lit}`du/mod` divides a signed double by an unsigned cell: a negative double is biased by the divisor
and divided as an unsigned one.

Main results:

- Theorem {lit}`duSlashMod_spec`: the word leaves the remainder below the quotient, and throws only if
  the quotient has more than one cell and a sign.
- Theorem {lit}`duSlashMod_meets_iff`: when this is what the documentation says.
-/

namespace Gforth
namespace Arith

open Lib
open LongLong (flag flag_and)

variable {w : Nat}

/-! ## The primitive -/

/-- {lit}`du/mod`: {lit}`n` and {lit}`u1`, the top -/
def duSlashMod (um : BitVec (w + w) → BitVec w → Except Ball (BitVec (w + w)))
    (d : BitVec (w + w)) (u : BitVec w) : Except Ball (BitVec w × BitVec w) :=
  let up := dhi d
  let correct := flag (up.slt 0#w)
  let up := up + (correct &&& u)
  match um (twoCell (dlo d) up) u with
  | .error e => .error e
  | .ok r => .ok (dhi r, dlo r)

/-- What the documentation says: {lit}`d=n*u+u1, 0<=u1<u`, where the word throws exactly if there is
no such {lit}`n` -/
def DuDivides (d : BitVec (w + w)) (u : BitVec w) : Except Ball (BitVec w × BitVec w) → Prop
  | .error _ => u = 0#w ∨ ¬FitsCell w (d.toInt / u.toNat)
  | .ok (n, u1) => (u ≠ 0#w ∧ FitsCell w (d.toInt / u.toNat)) ∧
      d.toInt = n.toInt * u.toNat + u1.toNat ∧ u1.toNat < u.toNat

instance (d : BitVec (w + w)) (u : BitVec w) (r : Except Ball (BitVec w × BitVec w)) :
    Decidable (DuDivides d u r) :=
  match r with
  | .error _ => inferInstanceAs (Decidable (_ ∨ _))
  | .ok _ => inferInstanceAs (Decidable (_ ∧ _))

/-! ## Correctness -/

section

variable {um : BitVec (w + w) → BitVec w → Except Ball (BitVec (w + w))} (hum : UmdivExact um)
  (d : BitVec (w + w)) {u : BitVec w} (hu : u ≠ 0#w)
include hum

theorem duSlashMod_zero : duSlashMod um d 0#w = .error .divZero := by
  rw [duSlashMod, hum.divZero]

include hu

/-- The unsigned division in {lit}`du/mod` -/
theorem duSlashMod_spec :
    ((d.toInt < -((2 ^ w : Nat) * u.toNat) ∨ (2 ^ w : Nat) * (u.toNat : Int) ≤ d.toInt) ∧
        duSlashMod um d u = .error .resultRange) ∨
      ((-((2 ^ w : Nat) * u.toNat) ≤ d.toInt ∧ d.toInt < (2 ^ w : Nat) * (u.toNat : Int)) ∧
        ∃ r q : BitVec w, duSlashMod um d u = .ok (r, q) ∧ (r.toNat : Int) = d.toInt % u.toNat ∧
          (q.toNat : Int) = d.toInt / u.toNat + if d.toInt < 0 then (2 ^ w : Nat) else 0) := by
  have hupos := toNat_pos hu
  have hpos := Nat.two_pow_pos w
  by_cases hneg : d.toInt < 0
  · have hbias : dhi d + (flag ((dhi d).slt 0#w) &&& u) = dhi d + u := by
      rw [flag_and, if_pos ((slt_zero_iff _).mpr ((toInt_dhi_neg_iff d).mpr hneg))]
    rw [duSlashMod, hbias, if_pos hneg]
    rcases biased_cases u hneg with ⟨hsmall, hhigh⟩ | ⟨hlarge, hlt, hbiased⟩
    · left
      refine ⟨Or.inl hsmall, ?_⟩
      rw [hum.resultRange _ _ hu (by rwa [dhi_twoCell])]
    · right
      obtain ⟨res, hres, hq, hr⟩ :=
        hum.exact (twoCell (dlo d) (dhi d + u)) u hu (by rwa [dhi_twoCell])
      have hprod : (0 : Int) ≤ (2 ^ w : Nat) * (u.toNat : Int) := by positivity
      refine ⟨⟨hlarge, by omega⟩, dhi res, dlo res, by rw [hres], ?_, ?_⟩
      · rw [hr, Int.natCast_emod, hbiased, Int.add_mul_emod_self_right]
      · rw [hq, Int.natCast_ediv, hbiased, Int.add_mul_ediv_right _ _ (by omega)]
  · have hval : d.toInt = d.toNat :=
      toInt_of_lt (Nat.lt_of_not_le fun h => hneg ((toInt_neg_iff d).mpr h))
    have hbias : dhi d + (flag ((dhi d).slt 0#w) &&& u) = dhi d := by
      rw [flag_and, if_neg fun h => hneg ((toInt_dhi_neg_iff d).mp ((slt_zero_iff _).mp h)),
        BitVec.add_zero]
    rw [duSlashMod, hbias, LongLong.twoCell_dlo_dhi, if_neg hneg]
    by_cases hle : u ≤ dhi d
    · left
      refine ⟨Or.inr ?_, by rw [hum.resultRange d u hu hle]⟩
      rw [BitVec.le_def, toNat_dhi, Nat.le_div_iff_mul_le hpos] at hle
      rw [hval, Int.mul_comm]
      exact_mod_cast hle
    · right
      have hlt := lt_mul_of_dhi_lt (BitVec.not_le.mp hle)
      rw [Nat.mul_comm] at hlt
      obtain ⟨res, hres, hq, hr⟩ := hum.exact d u hu (BitVec.not_le.mp hle)
      have hprod : (0 : Int) ≤ (2 ^ w : Nat) * (u.toNat : Int) := by positivity
      refine ⟨⟨by omega, by rw [hval]; exact_mod_cast hlt⟩, dhi res, dlo res, by rw [hres], ?_, ?_⟩
      · rw [hr, hval, Int.natCast_emod]
      · rw [hq, hval, Int.natCast_ediv, Nat.cast_zero, Int.add_zero]

/-- The results are those of the documentation if they are the same cell, and the throws are those of
the documentation. -/
theorem duSlashMod_meets_of_ne_zero :
    DuDivides d u (duSlashMod um d u) ↔
      d.toInt < -((2 ^ w : Nat) * u.toNat) ∨ (2 ^ w : Nat) * (u.toNat : Int) ≤ d.toInt ∨
        ∃ k : BitVec w, k < u ∧ d.toInt = k.toInt * u.toNat + k.toNat := by
  have hupos := toNat_pos hu
  have hupos' : (0 : Int) < u.toNat := by omega
  rcases duSlashMod_spec hum d hu with ⟨hrange, hthrow⟩ | ⟨⟨hlow, hhigh⟩, r, q, hres, hr, hq⟩
  · rw [hthrow]
    refine iff_of_true (Or.inr fun hfits => ?_) (by omega)
    have hpos := Nat.two_pow_pos w
    rw [FitsCell] at hfits
    rcases hrange with hsmall | hlarge
    · have hq : d.toInt / u.toNat < -(2 ^ w : Nat) := by
        rw [Int.ediv_lt_iff_lt_mul hupos']
        linarith
      omega
    · have hq : ((2 ^ w : Nat) : Int) ≤ d.toInt / u.toNat := by
        rwa [Int.le_ediv_iff_mul_le hupos']
      omega
  · rw [hres, or_iff_right (not_lt.mpr hlow), or_iff_right (not_le.mpr hhigh)]
    constructor
    · rintro ⟨-, hd, hlt⟩
      obtain ⟨-, hmod⟩ : d.toInt / u.toNat = r.toInt ∧ d.toInt % u.toNat = q.toNat :=
        (Int.ediv_emod_unique hupos').mpr
          ⟨by rw [hd]; ring, Int.natCast_nonneg q.toNat, by exact_mod_cast hlt⟩
      have hsame : r = q := BitVec.eq_of_toNat_eq (by omega)
      rw [hsame] at hd
      exact ⟨q, hlt, hd⟩
    · rintro ⟨k, hlt, hd⟩
      obtain ⟨hdiv, hmod⟩ : d.toInt / u.toNat = k.toInt ∧ d.toInt % u.toNat = k.toNat :=
        (Int.ediv_emod_unique hupos').mpr
          ⟨by rw [hd]; ring, Int.natCast_nonneg k.toNat, by exact_mod_cast BitVec.lt_def.mp hlt⟩
      have hsign : d.toInt < 0 ↔ k.toInt < 0 := by
        rw [← hdiv, Int.ediv_lt_iff_lt_mul hupos', Int.zero_mul]
      have hrk : r = k := BitVec.eq_of_toNat_eq (by omega)
      have hqk : q = k := by
        refine BitVec.eq_of_toNat_eq ?_
        rw [hdiv] at hq
        split at hq <;> rcases toInt_cases k with ⟨h, heq⟩ | ⟨h, heq⟩ <;> omega
      rw [hrk, hqk]
      exact ⟨⟨hu, by rw [hdiv]; exact fitsCell_toInt k⟩, hd, hlt⟩

end

/-- The documentation is met for the divisor 0, for doubles with a quotient that has more than one
cell and a sign, and where quotient and remainder are the same cell. -/
theorem duSlashMod_meets_iff {um : BitVec (w + w) → BitVec w → Except Ball (BitVec (w + w))}
    (hum : UmdivExact um) (d : BitVec (w + w)) (u : BitVec w) :
    DuDivides d u (duSlashMod um d u) ↔
      u = 0#w ∨ d.toInt < -((2 ^ w : Nat) * u.toNat) ∨ (2 ^ w : Nat) * (u.toNat : Int) ≤ d.toInt ∨
        ∃ k : BitVec w, k < u ∧ d.toInt = k.toInt * u.toNat + k.toNat := by
  by_cases hu : u = 0#w
  · rw [hu, duSlashMod_zero hum]
    exact iff_of_true (Or.inl rfl) (Or.inl rfl)
  · rw [or_iff_right hu]
    exact duSlashMod_meets_of_ne_zero hum d hu

/-- 8 divided by 3 leaves 2 twice. -/
theorem duSlashMod_meets_iff_eight :
    DuDivides 8#(64 + 64) 3#64 (duSlashMod umdiv 8#(64 + 64) 3#64) :=
  (duSlashMod_meets_iff umdiv_exact 8#(64 + 64) 3#64).mpr
    (Or.inr (Or.inr (Or.inr ⟨2#64, by decide, by decide⟩)))

/-- 7 divided by 2 leaves 1 and, on top, 3. -/
theorem duSlashMod_seven : duSlashMod umdiv 7#(64 + 64) 2#64 = .ok (1#64, 3#64) ∧
    ¬DuDivides 7#(64 + 64) 2#64 (duSlashMod umdiv 7#(64 + 64) 2#64) := by
  decide +kernel

end Arith
end Gforth
