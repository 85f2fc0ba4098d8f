import Gforth.Arith.MixedDivision
import Gforth.Lib.Reciprocal

/-!
# Staged division

Division in two stages: the first one computes a reciprocal of the divisor, the second one
multiplies with it.  The reciprocal for unsigned division has two cells and is rounded up;
the one for floored division has one cell, an implied leading bit and a shift, and is rounded
to the nearest number.

Main results:

- Theorem {lit}`uSlashStage_exact`: staged unsigned division.
- Theorem {lit}`slashFStage_exact`: staged floored division.
-/

namespace Gforth
namespace Arith

open Lib

variable {w : Nat}

/-! ## The primitives -/

/-- {lit}`um/mod`: remainder and quotient -/
def umSlashMod (um : BitVec (w + w) → BitVec w → Except Ball (BitVec (w + w)))
    (lo hi u1 : BitVec w) : Except Ball (BitVec w × BitVec w) :=
  match um (twoCell lo hi) u1 with
  | .error e => .error e
  | .ok r => .ok (dhi r, dlo r)

/-- {lit}`ummul` -/
def ummul (u1 u2 : BitVec w) : BitVec (w + w) :=
  u1.setWidth (w + w) * u2.setWidth (w + w)

/-- {lit}`mmul` -/
def mmul (n1 n2 : BitVec w) : BitVec (w + w) :=
  n1.signExtend (w + w) * n2.signExtend (w + w)

/-- {lit}`umadd` -/
def umadd (ud : BitVec (w + w)) (u : BitVec w) : BitVec (w + w) :=
  ud + u.setWidth (w + w)

/-- {lit}`log2`: the index of the first set bit, -1 for 0 -/
def log2 (u : BitVec w) : BitVec w :=
  if u = 0#w then -1#w else BitVec.ofNat w u.toNat.log2

/-- {lit}`pow2?` -/
def pow2 (u : BitVec w) : Bool :=
  u &&& (if u &&& (u - 1#w) = 0#w then -1#w else 0#w) ≠ 0#w

/-- {lit}`stagediv_t`; {lit}`inverseHi` is the shift for floored division. -/
structure StageDiv (w : Nat) where
  inverse : BitVec w
  inverseHi : BitVec w
  divisor : BitVec w
deriving DecidableEq

/-! ## The stages -/

/-- {lit}`u/`{lit}`-stage1m` -/
def uSlashStage1m (um : BitVec (w + w) → BitVec w → Except Ball (BitVec (w + w)))
    (udivisor : BitVec w) : Except Ball (StageDiv w) :=
  if udivisor < 2#w then .error .invalidNumericArgument
  else
    match umSlashMod um 0#w 1#w udivisor with
    | .error e => .error e
    | .ok (rem, inverseHi) =>
        match umSlashMod um (udivisor - 1#w) rem udivisor with
        | .error e => .error e
        | .ok (_, inverse) => .ok ⟨inverse, inverseHi, udivisor⟩

/-- {lit}`uslashstage2` -/
def uslashstage2 (u1 : BitVec w) (stage1 : StageDiv w) : BitVec w :=
  dhi (umadd (ummul u1 stage1.inverseHi) (dhi (ummul u1 stage1.inverse)))

/-- {lit}`u/`{lit}`-stage2m` -/
def uSlashStage2m (u1 : BitVec w) (reci : StageDiv w) : BitVec w :=
  uslashstage2 u1 reci

/-- {lit}`umod-stage2m` -/
def umodStage2m (u1 : BitVec w) (reci : StageDiv w) : BitVec w :=
  u1 - uslashstage2 u1 reci * reci.divisor

/-- {lit}`u/mod-stage2m` -/
def uSlashModStage2m (u1 : BitVec w) (reci : StageDiv w) : BitVec w × BitVec w :=
  (u1 - uslashstage2 u1 reci * reci.divisor, uslashstage2 u1 reci)

/-- {lit}`/f-stage1m` -/
def slashFStage1m (um : BitVec (w + w) → BitVec w → Except Ball (BitVec (w + w)))
    (ndivisor : BitVec w) : Except Ball (StageDiv w) :=
  if ndivisor.slt 1#w then .error .invalidNumericArgument
  else
    let shift := log2 ndivisor
    if pow2 ndivisor then .ok ⟨-1#w, shift, ndivisor⟩
    else
      match umSlashMod um (ndivisor.sshiftRight 1) (1#w <<< shift.toNat) ndivisor with
      | .error e => .error e
      | .ok (_, ua) => .ok ⟨ua, shift, ndivisor⟩

/-- {lit}`slashfstage2` -/
def slashfstage2 (n1 : BitVec w) (stage1 : StageDiv w) : BitVec w :=
  let inv := stage1.inverse
  let ud2 := umadd (mmul n1 inv) (inv >>> 1)
  (dhi ud2 + n1).sshiftRight stage1.inverseHi.toNat

/-- {lit}`/f-stage2m` -/
def slashFStage2m (n1 : BitVec w) (reci : StageDiv w) : BitVec w :=
  slashfstage2 n1 reci

/-- {lit}`modf-stage2m` -/
def modfStage2m (n1 : BitVec w) (reci : StageDiv w) : BitVec w :=
  n1 - slashfstage2 n1 reci * reci.divisor

/-- {lit}`/modf-stage2m` -/
def slashModfStage2m (n1 : BitVec w) (reci : StageDiv w) : BitVec w × BitVec w :=
  (n1 - slashfstage2 n1 reci * reci.divisor, slashfstage2 n1 reci)

/-! ## Products and sums -/

theorem toNat_setWidth_double (u : BitVec w) : (u.setWidth (w + w)).toNat = u.toNat := by
  rw [BitVec.toNat_setWidth]
  exact Nat.mod_eq_of_lt (lt_of_lt_of_le u.isLt (Nat.pow_le_pow_right (by decide) (by omega)))

theorem toNat_ummul (u1 u2 : BitVec w) : (ummul u1 u2).toNat = u1.toNat * u2.toNat := by
  rw [ummul, BitVec.toNat_mul, toNat_setWidth_double, toNat_setWidth_double, two_pow_add_self]
  exact Nat.mod_eq_of_lt (Nat.mul_lt_mul'' u1.isLt u2.isLt)

variable {um : BitVec (w + w) → BitVec w → Except Ball (BitVec (w + w))} {u : BitVec w}
  {reci : StageDiv w}

/-- Unsigned division of a double that is given by its halves. -/
theorem umSlashMod_eq (hum : UmdivExact um) (lo : BitVec w) {hi u1 : BitVec w} (hlt : hi < u1) :
    ∃ r q, umSlashMod um lo hi u1 = .ok (r, q) ∧
      q.toNat = (hi.toNat * 2 ^ w + lo.toNat) / u1.toNat ∧
      r.toNat = (hi.toNat * 2 ^ w + lo.toNat) % u1.toNat := by
  have hne : u1 ≠ 0#w := by
    rintro rfl
    exact absurd hlt (BitVec.not_lt_zero)
  obtain ⟨res, hres, hq, hr⟩ := hum.exact (twoCell lo hi) u1 hne (by rwa [dhi_twoCell])
  rw [toNat_twoCell] at hq hr
  exact ⟨dhi res, dlo res, by rw [umSlashMod, hres], hq, hr⟩

/-- Dividing twice, with the remainder in the upper half, divides the square. -/
theorem div_two_steps {u W k : Nat} (hu : 0 < u) :
    W / u * W + (W % u * W + k) / u = (W * W + k) / u := by
  have hsquare : W * W = (u * (W / u) + W % u) * W := by rw [Nat.div_add_mod]
  have hsum : W * W + k = W % u * W + k + u * (W / u * W) := by
    rw [hsquare]
    ring
  rw [hsum, Nat.add_mul_div_left _ _ hu, Nat.add_comm]

/-! ## Unsigned division -/

/-- The first stage computes the reciprocal, rounded up. -/
theorem uSlashStage1m_eq (hum : UmdivExact um) (hu : 2 ≤ u.toNat) :
    ∃ reci, uSlashStage1m um u = .ok reci ∧ reci.divisor = u ∧
      reci.inverseHi.toNat * 2 ^ w + reci.inverse.toNat =
        (2 ^ w * 2 ^ w + (u.toNat - 1)) / u.toNat := by
  have hlt := u.isLt
  have htwo : (2#w).toNat = 2 := by
    rw [BitVec.toNat_ofNat, Nat.mod_eq_of_lt (by omega)]
  have hone : (1#w).toNat = 1 := by
    rw [BitVec.toNat_ofNat, Nat.mod_eq_of_lt (by omega)]
  have hpred : (u - 1#w).toNat = u.toNat - 1 := by
    rw [BitVec.toNat_sub_of_le (by rw [BitVec.le_def, hone]; omega), hone]
  have hnlt : ¬u < 2#w := by
    rw [BitVec.lt_def, htwo]
    omega
  have hlt1 : 1#w < u := by
    rw [BitVec.lt_def, hone]
    omega
  obtain ⟨rem, hi, hdiv1, hhi, hrem⟩ := umSlashMod_eq hum 0#w hlt1
  rw [hone, BitVec.toNat_zero, Nat.one_mul, Nat.add_zero] at hhi hrem
  have hlt2 : rem < u := by
    rw [BitVec.lt_def, hrem]
    exact Nat.mod_lt _ (by omega)
  obtain ⟨rem2, lo, hdiv2, hlo, -⟩ := umSlashMod_eq hum (u - 1#w) hlt2
  rw [hpred, hrem] at hlo
  refine ⟨⟨lo, hi, u⟩, ?_, rfl, ?_⟩
  · rw [uSlashStage1m, if_neg hnlt, hdiv1]
    simp only [hdiv2]
  · rw [hhi, hlo]
    exact div_two_steps (by omega)

/-- The first stage throws for other divisors. -/
theorem uSlashStage1m_error (hum : UmdivExact um) (hu : u.toNat < 2) :
    ∃ e, uSlashStage1m um u = .error e := by
  rw [uSlashStage1m]
  by_cases hlt : u < 2#w
  · exact ⟨_, if_pos hlt⟩
  · -- only cells of less than two bits do not have a 2
    have hle : ∀ v : BitVec w, v ≠ 0#w → v ≤ 1#w → ∃ e, um (twoCell 0#w 1#w) v = .error e :=
      fun v hv hle => ⟨_, hum.resultRange _ _ hv (by rwa [dhi_twoCell])⟩
    have herr : ∃ e, um (twoCell 0#w 1#w) u = .error e := by
      by_cases hzero : u = 0#w
      · exact ⟨_, hzero ▸ hum.divZero _⟩
      · refine hle u hzero ?_
        have hpos := toNat_pos hzero
        have hult := u.isLt
        rw [BitVec.le_def, BitVec.toNat_ofNat, Nat.mod_eq_of_lt (by omega)]
        omega
    obtain ⟨e, he⟩ := herr
    refine ⟨e, ?_⟩
    rw [if_neg hlt, umSlashMod, he]

/-- The second stage multiplies with the reciprocal. -/
theorem toNat_uslashstage2 (x : BitVec w) (reci : StageDiv w) :
    (uslashstage2 x reci).toNat =
      x.toNat * (reci.inverseHi.toNat * 2 ^ w + reci.inverse.toNat) / (2 ^ w * 2 ^ w) := by
  have hpos := Nat.two_pow_pos w
  have hlow : (dhi (ummul x reci.inverse)).toNat = x.toNat * reci.inverse.toNat / 2 ^ w := by
    rw [toNat_dhi, toNat_ummul]
  have hlowlt := (dhi (ummul x reci.inverse)).isLt
  have hsum : (umadd (ummul x reci.inverseHi) (dhi (ummul x reci.inverse))).toNat =
      x.toNat * reci.inverseHi.toNat + (dhi (ummul x reci.inverse)).toNat := by
    have hx : x.toNat + 1 ≤ 2 ^ w := x.isLt
    have hle : x.toNat * reci.inverseHi.toNat ≤ x.toNat * 2 ^ w :=
      Nat.mul_le_mul_left _ reci.inverseHi.isLt.le
    have hle2 : (x.toNat + 1) * 2 ^ w ≤ 2 ^ w * 2 ^ w := Nat.mul_le_mul_right _ hx
    rw [Nat.add_mul, Nat.one_mul] at hle2
    rw [umadd, BitVec.toNat_add, toNat_ummul, toNat_setWidth_double, two_pow_add_self]
    exact Nat.mod_eq_of_lt (by omega)
  rw [uslashstage2, toNat_dhi, hsum, hlow, Nat.mul_add, ← Nat.mul_assoc,
    ← Nat.div_div_eq_div_mul, Nat.mul_comm (x.toNat * _) (2 ^ w), Nat.mul_add_div hpos]

/-- What the words of staged unsigned division return. -/
structure UnsignedStages (reci : StageDiv w) (u : BitVec w) (x : BitVec w) : Prop where
  quotient : (uSlashStage2m x reci).toNat = x.toNat / u.toNat
  modulus : (umodStage2m x reci).toNat = x.toNat % u.toNat
  both : uSlashModStage2m x reci = (umodStage2m x reci, uSlashStage2m x reci)

/-- The rounded reciprocal is right for every dividend. -/
theorem unsignedStages_of_reciprocal (hu : 2 ≤ u.toNat) (hdivisor : reci.divisor = u)
    (hreci : reci.inverseHi.toNat * 2 ^ w + reci.inverse.toNat =
      (2 ^ w * 2 ^ w + (u.toNat - 1)) / u.toNat) (x : BitVec w) : UnsignedStages reci u x := by
  have hquot : (uslashstage2 x reci).toNat = x.toNat / u.toNat := by
    rw [toNat_uslashstage2, hreci]
    refine mul_ceil_div (by omega) ?_
    exact Nat.mul_lt_mul'' x.isLt (lt_of_le_of_lt (Nat.sub_le _ _) u.isLt)
  have hle : (uslashstage2 x reci * u).toNat = x.toNat / u.toNat * u.toNat := by
    rw [BitVec.toNat_mul, hquot]
    exact Nat.mod_eq_of_lt (lt_of_le_of_lt (Nat.div_mul_le_self _ _) x.isLt)
  refine ⟨hquot, ?_, rfl⟩
  have hdm := Nat.div_add_mod' x.toNat u.toNat
  rw [umodStage2m, hdivisor, BitVec.toNat_sub_of_le (by rw [BitVec.le_def, hle]; omega), hle]
  omega

/-- Staged unsigned division is exact, and its first stage throws exactly for divisors
below 2. -/
theorem uSlashStage_exact {um : BitVec (w + w) → BitVec w → Except Ball (BitVec (w + w))}
    (hum : UmdivExact um) (u : BitVec w) :
    ((∃ e, uSlashStage1m um u = .error e) ↔ u.toNat < 2) ∧
      (2 ≤ u.toNat → ∃ reci, uSlashStage1m um u = .ok reci ∧ ∀ x, UnsignedStages reci u x) := by
  have hok : 2 ≤ u.toNat →
      ∃ reci, uSlashStage1m um u = .ok reci ∧ ∀ x, UnsignedStages reci u x := by
    intro hu
    obtain ⟨reci, hreci, hdivisor, hinverse⟩ := uSlashStage1m_eq hum hu
    exact ⟨reci, hreci, unsignedStages_of_reciprocal hu hdivisor hinverse⟩
  refine ⟨⟨?_, uSlashStage1m_error hum⟩, hok⟩
  rintro ⟨e, he⟩
  by_contra hge
  obtain ⟨reci, hreci, -⟩ := hok (Nat.le_of_not_lt hge)
  rw [hreci] at he
  cases he

/-- With 64-bit cells and the restoring loop. -/
theorem uSlashStage_exact_64 :
    ((∃ e, uSlashStage1m (w := 64) umdiv 7#64 = .error e) ↔ (7#64).toNat < 2) ∧
      (2 ≤ (7#64).toNat → ∃ reci, uSlashStage1m umdiv 7#64 = .ok reci ∧
        ∀ x, UnsignedStages reci 7#64 x) :=
  uSlashStage_exact umdiv_exact 7#64

/-! ## Floored division -/

theorem toInt_signExtend_double (x : BitVec w) : (x.signExtend (w + w)).toInt = x.toInt :=
  BitVec.toInt_signExtend_of_le (by omega)

theorem toNat_log2 (hu : u ≠ 0#w) : (log2 u).toNat = u.toNat.log2 := by
  have hlt : u.toNat.log2 < w := (Nat.log2_lt (toNat_pos hu).ne').mpr u.isLt
  rw [log2, if_neg hu, BitVec.toNat_ofNat, Nat.mod_eq_of_lt (lt_trans hlt Nat.lt_two_pow_self)]

/-- A power of two, as a number -/
theorem pow2_iff (hu : u ≠ 0#w) : pow2 u = true ↔ u.toNat.isPowerOfTwo := by
  have hpos := toNat_pos hu
  have hwide : 1 < 2 ^ w := by
    have := u.isLt
    omega
  have hone : (1#w).toNat = 1 := by
    rw [BitVec.toNat_ofNat, Nat.mod_eq_of_lt hwide]
  have hpred : (u - 1#w).toNat = u.toNat - 1 := by
    rw [BitVec.toNat_sub_of_le (by rw [BitVec.le_def, hone]; omega), hone]
  have hand : u &&& (u - 1#w) = 0#w ↔ u.toNat.isPowerOfTwo := by
    rw [BitVec.toNat_eq, BitVec.toNat_and, hpred, BitVec.toNat_zero,
      Nat.and_sub_one_eq_zero_iff_isPowerOfTwo hpos.ne']
  rw [pow2, decide_eq_true_iff, ← hand]
  by_cases h : u &&& (u - 1#w) = 0#w
  · rw [if_pos h, BitVec.neg_one_eq_allOnes, BitVec.and_allOnes]
    exact iff_of_true hu h
  · rw [if_neg h, BitVec.and_zero]
    exact iff_of_false (by simp) h

/-- The sum that the second stage computes, up to overflow. -/
theorem toInt_umadd_mmul_modEq (x inv u : BitVec w) :
    (umadd (mmul x inv) u).toInt ≡ x.toInt * inv.toInt + u.toNat [ZMOD (2 ^ (w + w) : Nat)] := by
  have hprod : (mmul x inv).toInt ≡ x.toInt * inv.toInt [ZMOD (2 ^ (w + w) : Nat)] := by
    have h := toInt_mul_modEq (x.signExtend (w + w)) (inv.signExtend (w + w))
    rwa [toInt_signExtend_double, toInt_signExtend_double] at h
  have hlow := toNat_modEq_toInt (u.setWidth (w + w))
  rw [toNat_setWidth_double] at hlow
  exact (toInt_add_modEq _ _).trans (hprod.add hlow.symm)

/-- What is shifted at the end. -/
theorem toInt_dhi_add_modEq (x inv : BitVec w) :
    (dhi (umadd (mmul x inv) (inv >>> 1)) + x).toInt ≡
      (x.toInt * inv.toInt + (inv.toNat / 2 : Nat)) / (2 ^ w : Nat) + x.toInt
        [ZMOD (2 ^ w : Nat)] := by
  have hhalf : (inv >>> 1).toNat = inv.toNat / 2 := by
    rw [BitVec.toNat_ushiftRight, Nat.shiftRight_eq_div_pow, Nat.pow_one]
  have hsum := toInt_umadd_mmul_modEq x inv (inv >>> 1)
  rw [hhalf] at hsum
  exact (toInt_add_modEq _ _).trans ((toInt_dhi_modEq hsum).add_right _)

/-- With the reciprocal of a power of two, nothing changes before the shift. -/
theorem toInt_dhi_add_allOnes (x : BitVec w) (hw : 0 < w) :
    (dhi (umadd (mmul x (-1#w)) ((-1#w) >>> 1)) + x).toInt = x.toInt := by
  have hpos := Nat.two_pow_pos (w - 1)
  have hpow : 2 ^ w = 2 * 2 ^ (w - 1) := by
    rw [← Nat.pow_succ', Nat.succ_eq_add_one, Nat.sub_add_cancel hw]
  have hone : (1#w).toNat = 1 := BitVec.toNat_one (by omega)
  have hneg : (-1#w).toInt = -1 := by
    rw [toInt_neg_of_le (by omega), hone]
    rfl
  have hall : (-1#w).toNat = 2 ^ w - 1 := by
    rw [BitVec.toNat_neg, hone, Nat.mod_eq_of_lt (by omega)]
  have hfits := fitsCell_toInt x
  refine toInt_eq_of_modEq hfits ?_
  have h := toInt_dhi_add_modEq x (-1#w)
  rw [hneg, hall] at h
  rw [FitsCell] at hfits
  have hzero : (x.toInt * -1 + ((2 ^ w - 1) / 2 : Nat)) / ((2 ^ w : Nat) : Int) = 0 :=
    Int.ediv_eq_zero_of_lt (by omega) (by omega)
  rwa [hzero, Int.zero_add] at h

/-- With another reciprocal, whose highest bit is set, the product with its unsigned value is
computed. -/
theorem toInt_dhi_add_reciprocal (x inv : BitVec w) (hinv : 2 ^ w ≤ 2 * inv.toNat)
    (hfits : FitsCell w ((x.toInt * inv.toNat + (inv.toNat / 2 : Nat)) / (2 ^ w : Nat))) :
    (dhi (umadd (mmul x inv) (inv >>> 1)) + x).toInt =
      (x.toInt * inv.toNat + (inv.toNat / 2 : Nat)) / (2 ^ w : Nat) := by
  have hpos := Nat.two_pow_pos w
  refine toInt_eq_of_modEq hfits ?_
  have h := toInt_dhi_add_modEq x inv
  have hsigned : inv.toInt = inv.toNat - (2 ^ w : Nat) := by
    rcases toInt_cases inv with ⟨hlt, -⟩ | ⟨-, heq⟩
    · omega
    · exact heq
  have hsplit : x.toInt * inv.toInt + (inv.toNat / 2 : Nat) =
      x.toInt * inv.toNat + (inv.toNat / 2 : Nat) + -x.toInt * (2 ^ w : Nat) := by
    rw [hsigned]
    ring
  rw [hsplit, Int.add_mul_ediv_right _ _ (by omega), Int.neg_add_cancel_right] at h
  exact h

/-- The error of a reciprocal that is rounded to the nearest number. -/
theorem reciprocal_error {n K : Nat} (hn : 0 < n) :
    -(n / 2 : Nat) ≤ ((K + n / 2) / n * n : Nat) - (K : Int) ∧
      ((K + n / 2) / n * n : Nat) - (K : Int) ≤ (n / 2 : Nat) := by
  have hle := Nat.div_mul_le_self (K + n / 2) n
  have hlt := Nat.lt_div_mul_add (a := K + n / 2) hn
  omega

section

variable {n P V a : Nat} {x : Int} (hhigh : n < 2 * P) (hn : 0 < n)
  (ha : a = (P * (2 * V) + n / 2) / n)
include hhigh hn ha

theorem le_reciprocal : V ≤ a := by
  rw [ha, Nat.le_div_iff_mul_le hn]
  have hmul : n * V ≤ 2 * P * V := Nat.mul_le_mul_right V hhigh.le
  linarith [Nat.zero_le (n / 2)]

/-- The reciprocal is close enough for all dividends. -/
theorem reciprocal_ediv (hnV : n < V) (hxlow : -(V : Int) ≤ x) (hxhigh : x < V) :
    (x * a + (a / 2 : Nat)) / ((2 * V : Nat) * (P : Nat) : Int) = x / n := by
  obtain ⟨herrlow, herrhigh⟩ := reciprocal_error (K := P * (2 * V)) hn
  rw [← ha, Nat.cast_mul, Nat.cast_mul] at herrlow herrhigh
  have hhalf : ((n / 2 : Nat) : Int) ≤ P - 1 := by omega
  have hhalf' : ((n / 2 : Nat) : Int) ≤ n := by omega
  have hV : (0 : Int) ≤ V := by omega
  -- the error of the product
  have hprod : -((V : Int) * (P - 1)) ≤ x * ((a : Int) * n - P * (2 * V : Nat)) ∧
      x * ((a : Int) * n - P * (2 * V : Nat)) ≤ V * (P - 1) := by
    have habs : |x * ((a : Int) * n - P * (2 * V : Nat))| ≤ V * (P - 1) := by
      rw [abs_mul]
      refine mul_le_mul (abs_le.mpr ⟨hxlow, hxhigh.le⟩) (abs_le.mpr ⟨?_, ?_⟩) (abs_nonneg _) hV
      · omega
      · omega
    exact abs_le.mp habs
  have hoff : 2 * ((a / 2 : Nat) : Int) ≤ a ∧ (a : Int) - 1 ≤ 2 * ((a / 2 : Nat) : Int) := by omega
  have hofflow : ((a : Int) - 1) * n ≤ 2 * ((a / 2 : Nat) : Int) * n :=
    mul_le_mul_of_nonneg_right hoff.2 (by omega)
  have hoffhigh : 2 * ((a / 2 : Nat) : Int) * n ≤ (a : Int) * n :=
    mul_le_mul_of_nonneg_right hoff.1 (by omega)
  rw [Int.mul_comm ((2 * V : Nat) : Int)]
  push_cast at *
  refine mul_add_ediv (by omega) ?_ ?_
  · linarith
  · linarith

/-- What is shifted fits a cell. -/
theorem reciprocal_fits (haV : a ≤ 2 * V) (hVpos : 0 < V) (hxlow : -(V : Int) ≤ x)
    (hxhigh : x < V) :
    -(V : Int) ≤ (x * a + (a / 2 : Nat)) / (2 * V : Nat) ∧
      (x * a + (a / 2 : Nat)) / (2 * V : Nat) < V := by
  have hge := le_reciprocal hhigh hn ha
  have hpos : (0 : Int) < (2 * V : Nat) := by omega
  have hVa : (V : Int) * a ≤ V * (2 * V : Nat) :=
    mul_le_mul_of_nonneg_left (by omega) (by omega)
  have hlow : -(V : Int) * a ≤ x * a := mul_le_mul_of_nonneg_right hxlow (by omega)
  have hhigh' : x * a ≤ (V - 1) * a := mul_le_mul_of_nonneg_right (by omega) (by omega)
  refine ⟨?_, ?_⟩
  · rw [Int.le_ediv_iff_mul_le hpos]
    linarith [Nat.zero_le (a / 2)]
  · rw [Int.ediv_lt_iff_lt_mul hpos]
    have : ((a / 2 : Nat) : Int) < a := by omega
    linarith

end

/-- What the words of staged floored division return. -/
structure FlooredStages (reci : StageDiv w) (n : BitVec w) (x : BitVec w) : Prop where
  quotient : (slashFStage2m x reci).toInt = x.toInt.fdiv n.toInt
  modulus : (modfStage2m x reci).toInt = x.toInt - n.toInt * x.toInt.fdiv n.toInt
  both : slashModfStage2m x reci = (modfStage2m x reci, slashFStage2m x reci)

/-- The modulus is computed from the quotient. -/
theorem flooredStages_of_quotient {n x : BitVec w} (hn : 0 < n.toInt) (hdivisor : reci.divisor = n)
    (hquot : (slashfstage2 x reci).toInt = x.toInt / n.toInt) : FlooredStages reci n x := by
  have hfdiv : x.toInt.fdiv n.toInt = x.toInt / n.toInt := Int.fdiv_eq_ediv_of_nonneg _ hn.le
  refine ⟨by rw [hfdiv]; exact hquot, ?_, rfl⟩
  have hmod : x.toInt - n.toInt * (x.toInt / n.toInt) = x.toInt % n.toInt := by
    rw [Int.emod_def]
  rw [hfdiv, hmod]
  have hfits : FitsCell w (x.toInt % n.toInt) := by
    have hnonneg := Int.emod_nonneg x.toInt hn.ne'
    have hlt := Int.emod_lt_of_pos x.toInt hn
    have hnfits := fitsCell_toInt n
    rw [FitsCell] at hnfits ⊢
    omega
  refine toInt_eq_of_modEq hfits ?_
  rw [← hmod, modfStage2m, hdivisor, Int.mul_comm n.toInt, ← hquot]
  exact (toInt_sub_modEq _ _).trans ((toInt_mul_modEq _ _).sub_left _)

theorem toInt_slashfstage2 (x : BitVec w) {k : Nat} (hshift : reci.inverseHi.toNat = k) :
    (slashfstage2 x reci).toInt =
      (dhi (umadd (mmul x reci.inverse) (reci.inverse >>> 1)) + x).toInt / (2 ^ k : Nat) := by
  rw [slashfstage2, BitVec.toInt_sshiftRight, hshift, Int.shiftRight_eq_div_pow]

section

variable {um : BitVec (w + w) → BitVec w → Except Ball (BitVec (w + w))} (hum : UmdivExact um)
  (hw : 1 < w) {n : BitVec w}
include hw

theorem toInt_one : (1#w).toInt = 1 := by
  have hpow : 2 ^ 2 ≤ 2 ^ w := Nat.pow_le_pow_right (by decide) hw
  have hone : (1#w).toNat = 1 := BitVec.toNat_one (by omega)
  rw [toInt_of_lt (by omega), hone]
  rfl

/-- A divisor that is a power of two. -/
theorem flooredStages_pow2 (hn : 0 < n.toInt) (hpow2 : n.toNat.isPowerOfTwo) (x : BitVec w) :
    FlooredStages ⟨-1#w, log2 n, n⟩ n x := by
  have hval : n.toInt = n.toNat := by
    rcases toInt_cases n with ⟨-, heq⟩ | ⟨h, heq⟩
    · exact heq
    · have := n.isLt
      omega
  have hne : n ≠ 0#w := by
    rintro rfl
    rw [BitVec.toInt_zero] at hn
    exact absurd hn (lt_irrefl 0)
  refine flooredStages_of_quotient hn rfl ?_
  obtain ⟨k, hk⟩ := hpow2
  rw [toInt_slashfstage2 x (k := n.toNat.log2) (toNat_log2 hne),
    toInt_dhi_add_allOnes x (by omega), hval, hk, Nat.log2_two_pow]

/-- Any other divisor. -/
theorem flooredStages_of_reciprocal (hn : 0 < n.toInt) (hpow2 : ¬n.toNat.isPowerOfTwo)
    {ua : BitVec w} (hua : ua.toNat = (2 ^ n.toNat.log2 * 2 ^ w + n.toNat / 2) / n.toNat)
    (x : BitVec w) : FlooredStages ⟨ua, log2 n, n⟩ n x := by
  have hVpos := Nat.two_pow_pos (w - 1)
  have hWV : 2 ^ w = 2 * 2 ^ (w - 1) := by
    rw [← Nat.pow_succ', Nat.succ_eq_add_one, Nat.sub_add_cancel (by omega)]
  have hnval : n.toInt = n.toNat ∧ 2 * n.toNat < 2 ^ w := by
    have := n.isLt
    rcases toInt_cases n with ⟨h, heq⟩ | ⟨h, heq⟩
    · exact ⟨heq, h⟩
    · omega
  obtain ⟨hval, hnlt⟩ := hnval
  have hnpos : 0 < n.toNat := by omega
  have hne : n ≠ 0#w := by
    rintro rfl
    simp at hnpos
  have hhigh : n.toNat < 2 * 2 ^ n.toNat.log2 := by
    rw [← Nat.pow_succ']
    exact Nat.lt_log2_self
  have hxfits := fitsCell_toInt x
  rw [FitsCell, hWV] at hxfits
  rw [hWV] at hua
  have hualt := ua.isLt
  have hge := le_reciprocal hhigh hnpos hua
  have hfits := reciprocal_fits (x := x.toInt) hhigh hnpos hua (by omega) hVpos (by omega) (by omega)
  have hexact := reciprocal_ediv (x := x.toInt) hhigh hnpos hua (by omega) (by omega) (by omega)
  rw [← hWV] at hfits hexact
  have hcell : FitsCell w ((x.toInt * ua.toNat + (ua.toNat / 2 : Nat)) / (2 ^ w : Nat)) := by
    rw [FitsCell]
    omega
  refine flooredStages_of_quotient hn rfl ?_
  rw [toInt_slashfstage2 x (k := n.toNat.log2) (toNat_log2 hne),
    toInt_dhi_add_reciprocal x ua (by omega) hcell, Int.ediv_ediv_of_nonneg (by omega), hexact,
    hval]

include hum

/-- The first stage computes what the second one needs. -/
theorem slashFStage1m_eq (hn : 0 < n.toInt) :
    ∃ reci, slashFStage1m um n = .ok reci ∧ ∀ x, FlooredStages reci n x := by
  have hone := toInt_one hw
  have hnval : n.toInt = n.toNat ∧ 2 * n.toNat < 2 ^ w := by
    have := n.isLt
    rcases toInt_cases n with ⟨h, heq⟩ | ⟨h, heq⟩
    · exact ⟨heq, h⟩
    · omega
  obtain ⟨hval, hnlt⟩ := hnval
  have hnpos : 0 < n.toNat := by omega
  have hne : n ≠ 0#w := by
    rintro rfl
    simp at hnpos
  have hnslt : ¬n.slt 1#w = true := by
    rw [BitVec.slt_iff_toInt_lt, hone]
    omega
  rw [slashFStage1m, if_neg hnslt]
  by_cases hpow2 : n.toNat.isPowerOfTwo
  · exact ⟨_, if_pos ((pow2_iff hne).mpr hpow2), flooredStages_pow2 hw hn hpow2⟩
  · have hlog := Nat.log2_self_le hnpos.ne'
    have hlogne : 2 ^ n.toNat.log2 ≠ n.toNat := fun heq => hpow2 ⟨_, heq.symm⟩
    have hshift : (1#w <<< (log2 n).toNat).toNat = 2 ^ n.toNat.log2 := by
      have hone' : (1#w).toNat = 1 := by
        rw [BitVec.toNat_ofNat, Nat.mod_eq_of_lt (by omega)]
      rw [BitVec.toNat_shiftLeft, hone', toNat_log2 hne, Nat.shiftLeft_eq, Nat.one_mul,
        Nat.mod_eq_of_lt (by omega)]
    have hlt : 1#w <<< (log2 n).toNat < n := by
      rw [BitVec.lt_def, hshift]
      omega
    have hhalf : (n.sshiftRight 1).toNat = n.toNat / 2 := by
      have hint : (n.sshiftRight 1).toInt = (n.toNat / 2 : Nat) := by
        rw [BitVec.toInt_sshiftRight, hval, Int.shiftRight_eq_div_pow]
        rfl
      have hlt := (n.sshiftRight 1).isLt
      rcases toInt_cases (n.sshiftRight 1) with ⟨h, heq⟩ | ⟨h, heq⟩ <;> omega
    obtain ⟨r, ua, hdiv, hua, -⟩ := umSlashMod_eq hum (n.sshiftRight 1) hlt
    rw [hshift, hhalf] at hua
    refine ⟨⟨ua, log2 n, n⟩, ?_, flooredStages_of_reciprocal hw hn hpow2 hua⟩
    simp only [if_neg fun h => hpow2 ((pow2_iff hne).mp h), hdiv]

/-- Staged floored division is exact, and its first stage throws exactly for divisors
below 1. -/
theorem slashFStage_exact (n : BitVec w) :
    ((∃ e, slashFStage1m um n = .error e) ↔ n.toInt < 1) ∧
      (1 ≤ n.toInt → ∃ reci, slashFStage1m um n = .ok reci ∧ ∀ x, FlooredStages reci n x) := by
  refine ⟨⟨?_, ?_⟩, slashFStage1m_eq hum hw⟩
  · rintro ⟨e, he⟩
    by_contra hge
    obtain ⟨reci, hreci, -⟩ := slashFStage1m_eq hum hw (n := n) (by omega)
    rw [hreci] at he
    cases he
  · intro hlt
    refine ⟨_, if_pos ?_⟩
    rw [BitVec.slt_iff_toInt_lt, toInt_one hw]
    exact hlt

end

/-- With 64-bit cells and the restoring loop. -/
theorem slashFStage_exact_64 :
    ((∃ e, slashFStage1m (w := 64) umdiv 7#64 = .error e) ↔ (7#64).toInt < 1) ∧
      (1 ≤ (7#64).toInt → ∃ reci, slashFStage1m umdiv 7#64 = .ok reci ∧
        ∀ x, FlooredStages reci 7#64 x) :=
  slashFStage_exact umdiv_exact (by decide) 7#64

end Arith
end Gforth
