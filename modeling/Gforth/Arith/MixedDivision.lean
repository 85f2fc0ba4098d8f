import Gforth.Lib.Doubles

/-!
# Mixed-precision division

The C functions that divide a double by a cell, for any cell width.  {lit}`umdiv` exists
twice: with shifts and subtractions, and around a division instruction that needs a
normalised divisor.  The signed divisions reduce to it and find overflows by sign tests on
results that may have wrapped around.

Main results:

- Theorem {lit}`umdiv_exact`: the restoring loop divides.
- Theorem {lit}`umdivNormalizing_exact`: so does the normalising variant.
- Theorem {lit}`mixedDivision_exact`: all divisions are exact or throw.
-/

namespace Gforth
namespace Arith

open Lib

variable {w : Nat}

/-- The throw codes of the divisions. -/
inductive Ball where
  | divZero
  | resultRange
  | invalidNumericArgument
deriving DecidableEq

/-! ## The C functions -/

/-- {lit}`HIGHBIT` -/
def highbit (x : BitVec w) : BitVec w :=
  x >>> (w - 1)

/-- The loop of {lit}`umdiv` with {lit}`i` iterations to go; the result is {lit}`q` and
{lit}`h` -/
def umdivLoop (v : BitVec w) :
    Nat → BitVec w → BitVec w → BitVec w → BitVec w → BitVec w × BitVec w
  | i, c, h, l, q =>
      let (q, h) := if c ≠ 0#w ∨ v ≤ h then (q + 1#w, h - v) else (q, h)
      match i with
      | 0 => (q, h)
      | i + 1 => umdivLoop v i (highbit h) ((h <<< 1) + highbit l) (l <<< 1) (q <<< 1)

/-- {lit}`umdiv`, by shifts and subtracts -/
def umdiv (u : BitVec (w + w)) (v : BitVec w) : Except Ball (BitVec (w + w)) :=
  if v = 0#w then .error .divZero
  else if v ≤ dhi u then .error .resultRange
  else
    let (q, h) := umdivLoop v w 0#w (dhi u) (dlo u) 0#w
    .ok (twoCell q h)

/-- {lit}`nlz`, where {lit}`count_leading_zeros` is available -/
def nlz (x : BitVec w) : Nat :=
  if x = 0#w then w else w - 1 - x.toNat.log2

/-- One comparison of {lit}`nlz`, where {lit}`count_leading_zeros` is not available -/
def nlzStep (k : Nat) (p : Nat × BitVec w) : Nat × BitVec w :=
  if p.2.toNat < 2 ^ (32 - k) then (p.1 + k, p.2 <<< k) else p

/-- {lit}`nlz` by comparisons, for cells of 32 or 64 bits -/
def nlzSearch (x : BitVec w) : Nat :=
  if x = 0#w then w
  else
    let p := if w ≤ 32 then (0, x) else if x.toNat < 2 ^ 32 then (32, x) else (0, x >>> 32)
    (nlzStep 1 (nlzStep 2 (nlzStep 4 (nlzStep 8 (nlzStep 16 p))))).1

/-- {lit}`umdiv` with {lit}`udiv_qrnnd`, which gets a normalised divisor -/
def umdivNormalizing (udivQrnnd : BitVec w → BitVec w → BitVec w → BitVec w × BitVec w)
    (u : BitVec (w + w)) (v : BitVec w) : Except Ball (BitVec (w + w)) :=
  if v = 0#w then .error .divZero
  else if v ≤ dhi u then .error .resultRange
  else
    let lz := nlz v
    let v := v <<< lz
    let u := u <<< lz
    let (q, r) := udivQrnnd (dhi u) (dlo u) v
    .ok (twoCell q (r >>> lz))

/-- {lit}`smdiv` -/
def smdiv (umdiv : BitVec (w + w) → BitVec w → Except Ball (BitVec (w + w)))
    (num : BitVec (w + w)) (denom : BitVec w) : Except Ball (BitVec (w + w)) :=
  let h := dhi num
  let num := if h.slt 0#w then -num else num
  match umdiv num (if denom.slt 0#w then -denom else denom) with
  | .error e => .error e
  | .ok ures =>
      let q := dlo ures
      let r := if h.slt 0#w then -dhi ures else dhi ures
      if (h ^^^ denom).slt 0#w then
        if (0#w).slt (-q) then .error .resultRange else .ok (twoCell (-q) r)
      else if q.slt 0#w then .error .resultRange
      else .ok (twoCell q r)

/-- The end of {lit}`fmdiv`, after the unsigned division -/
def fmdivResult (numsign denomsign : BitVec w) :
    Except Ball (BitVec (w + w)) → Except Ball (BitVec (w + w))
  | .error e => .error e
  | .ok ures =>
      let q := dlo ures
      let r := if denomsign.slt 0#w then -dhi ures else dhi ures
      if (numsign ^^^ q).slt 0#w then .error .resultRange else .ok (twoCell q r)

/-- {lit}`fmdiv` -/
def fmdiv (umdiv : BitVec (w + w) → BitVec w → Except Ball (BitVec (w + w)))
    (num : BitVec (w + w)) (denom : BitVec w) : Except Ball (BitVec (w + w)) :=
  let denomsign := denom
  let (denom, num) := if denom.slt 0#w then (-denom, -num) else (denom, num)
  let numsign := dhi num
  let num := if numsign.slt 0#w then twoCell (dlo num) (dhi num + denom) else num
  fmdivResult numsign denomsign (umdiv num denom)

/-! ## What they are to compute -/

/-- The unsigned division: quotient in the lower half, remainder in the upper. -/
structure UmdivExact (umdiv : BitVec (w + w) → BitVec w → Except Ball (BitVec (w + w))) :
    Prop where
  divZero : ∀ u, umdiv u 0#w = .error .divZero
  resultRange : ∀ u v, v ≠ 0#w → v ≤ dhi u → umdiv u v = .error .resultRange
  exact : ∀ u v, v ≠ 0#w → dhi u < v → ∃ res, umdiv u v = .ok res ∧
    (dlo res).toNat = u.toNat / v.toNat ∧ (dhi res).toNat = u.toNat % v.toNat

/-- A signed division, with the quotient and the remainder that it rounds to. -/
structure SignedExact (quotient remainder : Int → Int → Int)
    (div : BitVec (w + w) → BitVec w → Except Ball (BitVec (w + w))) : Prop where
  divZero : ∀ num, div num 0#w = .error .divZero
  resultRange : ∀ num denom, denom ≠ 0#w → ¬FitsCell w (quotient num.toInt denom.toInt) →
    div num denom = .error .resultRange
  exact : ∀ num denom, denom ≠ 0#w → FitsCell w (quotient num.toInt denom.toInt) →
    ∃ res, div num denom = .ok res ∧ (dlo res).toInt = quotient num.toInt denom.toInt ∧
      (dhi res).toInt = remainder num.toInt denom.toInt

/-- {lit}`udiv_qrnnd` is exact for divisors with the highest bit set. -/
def UdivQrnndExact (udivQrnnd : BitVec w → BitVec w → BitVec w → BitVec w × BitVec w) : Prop :=
  ∀ u1 u0 v, 2 ^ w ≤ 2 * v.toNat → u1 < v →
    (udivQrnnd u1 u0 v).1.toNat = (u1.toNat * 2 ^ w + u0.toNat) / v.toNat ∧
      (udivQrnnd u1 u0 v).2.toNat = (u1.toNat * 2 ^ w + u0.toNat) % v.toNat

/-! ## The restoring loop -/

theorem toNat_highbit {w : Nat} (x : BitVec (w + 1)) : (highbit x).toNat = x.toNat / 2 ^ w := by
  rw [highbit, BitVec.toNat_ushiftRight, Nat.add_sub_cancel, Nat.shiftRight_eq_div_pow]

/-- What is left to divide, with the quotient so far: {lit}`i` bits of the low cell are still
to be shifted in. -/
structure LoopInv (v : BitVec w) (i : Nat) (c h l q : BitVec w) (rest total : Nat) : Prop where
  le_width : i ≤ w
  high_lt : c.toNat * 2 ^ w + h.toNat < 2 * v.toNat
  low_eq : l.toNat = rest * 2 ^ (w - i)
  rest_lt : rest < 2 ^ i
  total_eq : (q.toNat * v.toNat + (c.toNat * 2 ^ w + h.toNat)) * 2 ^ i + rest = total
  total_lt : total < v.toNat * 2 ^ w

/-- The quotient so far leaves room for the bits to come. -/
theorem quotient_lt {q v i rest high total W : Nat} (htotal : (q * v + high) * 2 ^ i + rest = total)
    (hlt : total < v * W) : q * 2 ^ i < W := by
  have hle : q * 2 ^ i * v ≤ total := by
    rw [← htotal, Nat.add_mul, Nat.mul_right_comm, Nat.add_assoc]
    exact Nat.le_add_right _ _
  have hmul : q * 2 ^ i * v < W * v := by
    rw [Nat.mul_comm W]
    exact lt_of_le_of_lt hle hlt
  exact Nat.lt_of_mul_lt_mul_right hmul

variable {v : BitVec w}

/-- The conditional subtraction. -/
theorem subtract_spec {i : Nat} {c h l q : BitVec w} {rest total : Nat}
    (hinv : LoopInv v i c h l q rest total) :
    let p := if c ≠ 0#w ∨ v ≤ h then (q + 1#w, h - v) else (q, h)
    p.2.toNat < v.toNat ∧ (p.1.toNat * v.toNat + p.2.toNat) * 2 ^ i + rest = total := by
  have hhigh := hinv.high_lt
  have hh := h.isLt
  have hv := v.isLt
  have hcond : (c ≠ 0#w ∨ v ≤ h) ↔ v.toNat ≤ c.toNat * 2 ^ w + h.toNat := by
    rw [BitVec.le_def, ne_eq, BitVec.toNat_eq, BitVec.toNat_zero]
    constructor
    · rintro (hc | hle)
      · have := Nat.mul_le_mul_right (2 ^ w) (Nat.one_le_iff_ne_zero.mpr hc)
        omega
      · omega
    · intro hle
      by_cases hc : c.toNat = 0
      · rw [hc, Nat.zero_mul, Nat.zero_add] at hle
        exact Or.inr hle
      · exact Or.inl hc
  simp only [hcond]
  split
  · rename_i hle
    have hsub : (h - v).toNat = c.toNat * 2 ^ w + h.toNat - v.toNat := by
      by_cases hc : c.toNat = 0
      · rw [hc, Nat.zero_mul, Nat.zero_add] at hle ⊢
        exact BitVec.toNat_sub_of_le hle
      · have hc1 : c.toNat * 2 ^ w = 2 ^ w := by
          have hle1 := Nat.mul_le_mul_right (2 ^ w) (Nat.one_le_iff_ne_zero.mpr hc)
          have hlt2 : c.toNat < 2 := by
            by_contra hge
            have := Nat.mul_le_mul_right (2 ^ w) (Nat.le_of_not_lt hge)
            omega
          have : c.toNat = 1 := by omega
          rw [this, Nat.one_mul]
        rw [BitVec.toNat_sub, Nat.mod_eq_of_lt (by omega)]
        omega
    have htotal : ((q.toNat + 1) * v.toNat + (c.toNat * 2 ^ w + h.toNat - v.toNat)) * 2 ^ i +
        rest = total := by
      rw [← hinv.total_eq, Nat.add_mul q.toNat, Nat.one_mul, Nat.add_assoc (q.toNat * v.toNat),
        Nat.add_sub_cancel' hle]
    have hq : (q + 1#w).toNat = q.toNat + 1 := by
      have hroom := quotient_lt htotal hinv.total_lt
      have hone : 1 ≤ 2 ^ i := Nat.one_le_two_pow
      have hlt : q.toNat + 1 < 2 ^ w :=
        lt_of_le_of_lt (Nat.le_mul_of_pos_right _ hone) hroom
      have hwide : 1 < 2 ^ w := by omega
      rw [BitVec.toNat_add, BitVec.toNat_ofNat, Nat.mod_eq_of_lt hwide, Nat.mod_eq_of_lt hlt]
    refine ⟨?_, ?_⟩
    · rw [hsub]
      omega
    · rw [hsub, hq]
      exact htotal
  · rename_i hlt
    have hc : c.toNat * 2 ^ w = 0 := by
      by_contra hne
      have : 1 ≤ c.toNat := by
        rcases Nat.eq_zero_or_pos c.toNat with hzero | hpos
        · rw [hzero, Nat.zero_mul] at hne
          exact absurd rfl hne
        · exact hpos
      have := Nat.mul_le_mul_right (2 ^ w) this
      omega
    have htotal := hinv.total_eq
    rw [hc, Nat.zero_add] at htotal hlt
    exact ⟨Nat.lt_of_not_le hlt, htotal⟩

/-- One iteration shifts a bit in. -/
theorem shift_spec {w : Nat} {v h l q : BitVec (w + 1)} {i rest total : Nat} (hi : i < w + 1)
    (hh : h.toNat < v.toNat) (hlow : l.toNat = rest * 2 ^ (w - i)) (hrest : rest < 2 ^ (i + 1))
    (htotal : (q.toNat * v.toNat + h.toNat) * 2 ^ (i + 1) + rest = total)
    (hlt : total < v.toNat * 2 ^ (w + 1)) :
    LoopInv v i (highbit h) ((h <<< 1) + highbit l) (l <<< 1) (q <<< 1) (rest % 2 ^ i) total := by
  have hpow : 2 ^ (w + 1) = 2 ^ w * 2 := Nat.pow_succ 2 w
  have hpos := Nat.two_pow_pos w
  have hwi : 2 ^ i * 2 ^ (w - i) = 2 ^ w := by
    rw [← Nat.pow_add, Nat.add_sub_cancel' (by omega)]
  have hcarry := toNat_highbit h
  -- the bit that is shifted out of the low cell
  have hbit : (highbit l).toNat = rest / 2 ^ i := by
    rw [toNat_highbit, hlow, ← hwi, Nat.mul_div_mul_right _ _ (Nat.two_pow_pos _)]
  have hbit2 : rest / 2 ^ i < 2 := by
    rw [Nat.div_lt_iff_lt_mul (Nat.two_pow_pos i), Nat.mul_comm, ← Nat.pow_succ]
    exact hrest
  have hsplit := Nat.div_add_mod rest (2 ^ i)
  have hshift : (h <<< 1).toNat = 2 * (h.toNat % 2 ^ w) := by
    rw [BitVec.toNat_shiftLeft, Nat.shiftLeft_eq, Nat.pow_one, hpow, Nat.mul_mod_mul_right,
      Nat.mul_comm]
  have hhigh : ((h <<< 1) + highbit l).toNat = 2 * (h.toNat % 2 ^ w) + rest / 2 ^ i := by
    have := Nat.mod_lt h.toNat hpos
    rw [BitVec.toNat_add, hshift, hbit]
    exact Nat.mod_eq_of_lt (by omega)
  have hvalue : (highbit h).toNat * 2 ^ (w + 1) + ((h <<< 1) + highbit l).toNat =
      2 * h.toNat + rest / 2 ^ i := by
    have hdm := Nat.div_add_mod h.toNat (2 ^ w)
    rw [hhigh, hcarry, hpow]
    linarith
  have hq : (q <<< 1).toNat = 2 * q.toNat := by
    have hroom := quotient_lt htotal hlt
    have hone : 1 ≤ 2 ^ i := Nat.one_le_two_pow
    rw [Nat.pow_succ] at hroom
    have hle : q.toNat * 2 ≤ q.toNat * (2 ^ i * 2) := Nat.mul_le_mul_left _ (by omega)
    rw [BitVec.toNat_shiftLeft, Nat.shiftLeft_eq, Nat.pow_one,
      Nat.mod_eq_of_lt (lt_of_le_of_lt hle hroom), Nat.mul_comm]
  refine ⟨hi.le, ?_, ?_, Nat.mod_lt _ (Nat.two_pow_pos i), ?_, hlt⟩
  · rw [hvalue]
    omega
  · have hmul : l.toNat * 2 = rest / 2 ^ i * 2 ^ (w + 1) + rest % 2 ^ i * 2 ^ (w + 1 - i) := by
      have hexp : 2 ^ (w + 1 - i) = 2 ^ (w - i) * 2 := by
        rw [← Nat.pow_succ]
        congr 1
        omega
      rw [hlow, hexp, hpow, ← hwi]
      conv_lhs => rw [← hsplit]
      ring
    have hlt' : rest % 2 ^ i * 2 ^ (w + 1 - i) < 2 ^ (w + 1) := by
      have hexp : 2 ^ i * 2 ^ (w + 1 - i) = 2 ^ (w + 1) := by
        rw [← Nat.pow_add, Nat.add_sub_cancel' hi.le]
      rw [← hexp]
      exact Nat.mul_lt_mul_of_pos_right (Nat.mod_lt _ (Nat.two_pow_pos i)) (Nat.two_pow_pos _)
    rw [BitVec.toNat_shiftLeft, Nat.shiftLeft_eq, Nat.pow_one, hmul, Nat.mul_comm (rest / 2 ^ i),
      Nat.mul_add_mod, Nat.mod_eq_of_lt hlt']
  · rw [hvalue, hq, ← htotal, Nat.pow_succ]
    linarith

/-- The loop divides what is left. -/
theorem umdivLoop_spec {i : Nat} {c h l q : BitVec w} {rest total : Nat}
    (hinv : LoopInv v i c h l q rest total) :
    (umdivLoop v i c h l q).1.toNat * v.toNat + (umdivLoop v i c h l q).2.toNat = total ∧
      (umdivLoop v i c h l q).2.toNat < v.toNat := by
  induction i generalizing c h l q rest with
  | zero =>
      obtain ⟨hlt, htotal⟩ := subtract_spec hinv
      have hrest : rest = 0 := by
        have := hinv.rest_lt
        omega
      rw [hrest, Nat.pow_zero, Nat.mul_one, Nat.add_zero] at htotal
      rw [umdivLoop]
      exact ⟨htotal, hlt⟩
  | succ i ih =>
      obtain ⟨hlt, htotal⟩ := subtract_spec hinv
      obtain ⟨w, rfl⟩ : ∃ n, w = n + 1 := ⟨w - 1, by have := hinv.le_width; omega⟩
      rw [umdivLoop]
      refine ih (shift_spec hinv.le_width hlt ?_ hinv.rest_lt htotal hinv.total_lt)
      rw [hinv.low_eq]
      congr 2
      omega

theorem toNat_pos (hv : v ≠ 0#w) : 0 < v.toNat := by
  rcases Nat.eq_zero_or_pos v.toNat with hzero | hpos
  · exact absurd (BitVec.eq_of_toNat_eq hzero) hv
  · exact hpos

theorem lt_mul_of_dhi_lt {u : BitVec (w + w)} (h : dhi u < v) : u.toNat < v.toNat * 2 ^ w := by
  have hlt : (dhi u).toNat < v.toNat := h
  rw [toNat_dhi] at hlt
  exact (Nat.div_lt_iff_lt_mul (Nat.two_pow_pos w)).mp hlt

/-- The restoring loop divides, unless the quotient does not fit. -/
theorem umdiv_exact : UmdivExact (w := w) umdiv := by
  refine ⟨?_, ?_, ?_⟩
  · intro u
    rw [umdiv, if_pos rfl]
  · intro u v hv hle
    rw [umdiv, if_neg hv, if_pos hle]
  · intro u v hv hlt
    have hnle : ¬v ≤ dhi u := BitVec.not_le.mpr hlt
    have hpos := toNat_pos hv
    have hhigh : (dhi u).toNat < v.toNat := hlt
    have htotal := toNat_dhi_dlo u
    have hlo := (dlo u).isLt
    have hinv : LoopInv v w 0#w (dhi u) (dlo u) 0#w (dlo u).toNat u.toNat := by
      refine ⟨le_rfl, ?_, ?_, hlo, ?_, ?_⟩
      · rw [BitVec.toNat_zero, Nat.zero_mul, Nat.zero_add]
        omega
      · rw [Nat.sub_self, Nat.pow_zero, Nat.mul_one]
      · rw [BitVec.toNat_zero, Nat.zero_mul, Nat.zero_mul, Nat.zero_add, Nat.zero_add]
        exact htotal.symm
      · exact lt_mul_of_dhi_lt hlt
    obtain ⟨hsum, hrem⟩ := umdivLoop_spec hinv
    refine ⟨_, by rw [umdiv, if_neg hv, if_neg hnle], ?_, ?_⟩
    · rw [dlo_twoCell, ← hsum, Nat.mul_comm, Nat.mul_add_div hpos, Nat.div_eq_of_lt hrem,
        Nat.add_zero]
    · rw [dhi_twoCell, ← hsum, Nat.mul_comm, Nat.mul_add_mod, Nat.mod_eq_of_lt hrem]

/-! ## Normalising the divisor -/

/-- Shifting a divisor by its leading zeros sets its highest bit. -/
theorem nlz_spec (hv : v ≠ 0#w) :
    (v <<< nlz v).toNat = v.toNat * 2 ^ nlz v ∧ 2 ^ w ≤ 2 * (v <<< nlz v).toNat := by
  have hne : v.toNat ≠ 0 := (toNat_pos hv).ne'
  have hlog := Nat.log2_self_le hne
  have hlog' : v.toNat < 2 ^ (v.toNat.log2 + 1) := Nat.lt_log2_self
  have hw : v.toNat.log2 < w := (Nat.log2_lt hne).mpr v.isLt
  have hnlz : nlz v = w - 1 - v.toNat.log2 := if_neg hv
  have hexp : 2 ^ (v.toNat.log2 + 1) * 2 ^ nlz v = 2 ^ w := by
    rw [← Nat.pow_add, hnlz]
    congr 1
    omega
  have hshift : (v <<< nlz v).toNat = v.toNat * 2 ^ nlz v := by
    rw [BitVec.toNat_shiftLeft, Nat.shiftLeft_eq, Nat.mod_eq_of_lt]
    rw [← hexp]
    exact Nat.mul_lt_mul_of_pos_right hlog' (Nat.two_pow_pos _)
  refine ⟨hshift, ?_⟩
  rw [hshift, ← hexp, Nat.pow_succ, Nat.mul_comm _ 2, Nat.mul_assoc]
  exact Nat.mul_le_mul_left 2 (Nat.mul_le_mul_right _ hlog)

/-- Multiplying by a power of two adds to the logarithm. -/
theorem log2_mul_two_pow {n : Nat} (hn : n ≠ 0) (k : Nat) :
    (n * 2 ^ k).log2 = n.log2 + k := by
  have hne : n * 2 ^ k ≠ 0 := Nat.mul_ne_zero hn (Nat.two_pow_pos k).ne'
  rw [Nat.log2_eq_iff hne, Nat.add_right_comm, Nat.pow_add, Nat.pow_add]
  exact ⟨Nat.mul_le_mul_right _ (Nat.log2_self_le hn),
    Nat.mul_lt_mul_of_pos_right Nat.lt_log2_self (Nat.two_pow_pos k)⟩

/-- Dividing by a power of two takes away from the logarithm. -/
theorem log2_div_two_pow {n k : Nat} (hle : 2 ^ k ≤ n) :
    (n / 2 ^ k).log2 = n.log2 - k := by
  have hpos := Nat.two_pow_pos k
  have hn : n ≠ 0 := by omega
  have hk : k ≤ n.log2 := (Nat.le_log2 hn).mpr hle
  have hne : n / 2 ^ k ≠ 0 := (Nat.div_pos hle hpos).ne'
  rw [Nat.log2_eq_iff hne, Nat.le_div_iff_mul_le hpos, Nat.div_lt_iff_lt_mul hpos, ← Nat.pow_add,
    ← Nat.pow_add, Nat.sub_add_cancel hk, Nat.add_right_comm, Nat.sub_add_cancel hk]
  exact ⟨Nat.log2_self_le hn, Nat.lt_log2_self⟩

/-- A comparison halves the range of the highest bit, in the 32 bits that are searched. -/
theorem nlzStep_spec {k n : Nat} {p : Nat × BitVec w} (hk : 2 * k ≤ 32) (hw : 32 ≤ w)
    (hlow : 2 ^ (32 - 2 * k) ≤ p.2.toNat) (hhigh : p.2.toNat < 2 ^ 32)
    (hn : p.1 + 31 = n + p.2.toNat.log2) :
    2 ^ (32 - k) ≤ (nlzStep k p).2.toNat ∧ (nlzStep k p).2.toNat < 2 ^ 32 ∧
      (nlzStep k p).1 + 31 = n + (nlzStep k p).2.toNat.log2 := by
  rw [nlzStep]
  split
  · rename_i hlt
    have hpow : 2 ^ (32 - k) * 2 ^ k = 2 ^ 32 := by
      rw [← Nat.pow_add]
      congr 1
      omega
    have hlt' : p.2.toNat * 2 ^ k < 2 ^ 32 := by
      rw [← hpow]
      exact Nat.mul_lt_mul_of_pos_right hlt (Nat.two_pow_pos k)
    have hshift : (p.2 <<< k).toNat = p.2.toNat * 2 ^ k := by
      rw [BitVec.toNat_shiftLeft, Nat.shiftLeft_eq, Nat.mod_eq_of_lt]
      exact lt_of_lt_of_le hlt' (Nat.pow_le_pow_right (by decide) hw)
    have hne : p.2.toNat ≠ 0 := by
      have := Nat.two_pow_pos (32 - 2 * k)
      omega
    refine ⟨?_, ?_, ?_⟩
    · have hexp : 2 ^ (32 - k) = 2 ^ (32 - 2 * k) * 2 ^ k := by
        rw [← Nat.pow_add]
        congr 1
        omega
      rw [hshift, hexp]
      exact Nat.mul_le_mul_right _ hlow
    · rw [hshift]
      exact hlt'
    · rw [hshift, log2_mul_two_pow hne]
      simp only
      omega
  · rename_i hge
    exact ⟨Nat.le_of_not_lt hge, hhigh, hn⟩

/-- The comparisons count the leading zeros. -/
theorem nlzSearch_eq (hw : w = 32 ∨ w = 64) (x : BitVec w) : nlzSearch x = nlz x := by
  by_cases hx : x = 0#w
  · rw [nlzSearch, nlz, if_pos hx, if_pos hx]
  · have hne := (toNat_pos hx).ne'
    have hxlt := x.isLt
    -- the 32 bits that are searched
    have hstart : ∀ p : Nat × BitVec w,
        p = (if w ≤ 32 then (0, x) else if x.toNat < 2 ^ 32 then (32, x) else (0, x >>> 32)) →
        2 ^ (32 - 2 * 16) ≤ p.2.toNat ∧ p.2.toNat < 2 ^ 32 ∧
          p.1 + 31 = nlz x + p.2.toNat.log2 := by
      intro p hp
      have hlog : x.toNat.log2 < w := (Nat.log2_lt hne).mpr hxlt
      have hnlz : nlz x = w - 1 - x.toNat.log2 := if_neg hx
      rcases hw with rfl | rfl
      · rw [if_pos le_rfl] at hp
        subst hp
        exact ⟨by simp only; omega, hxlt, by simp only; omega⟩
      · rw [if_neg (by decide)] at hp
        split at hp
        · rename_i hlt
          subst hp
          have hlog32 : x.toNat.log2 < 32 := (Nat.log2_lt hne).mpr hlt
          exact ⟨by simp only; omega, hlt, by simp only; omega⟩
        · rename_i hge
          have hshift : (x >>> 32).toNat = x.toNat / 2 ^ 32 := by
            rw [BitVec.toNat_ushiftRight, Nat.shiftRight_eq_div_pow]
          have hlog32 : 32 ≤ x.toNat.log2 := (Nat.le_log2 hne).mpr (Nat.le_of_not_lt hge)
          have hshiftlog := log2_div_two_pow (Nat.le_of_not_lt hge)
          subst hp
          refine ⟨?_, ?_, ?_⟩
          · simp only [hshift]
            omega
          · simp only [hshift]
            omega
          · simp only [hshift, hshiftlog]
            omega
    obtain ⟨hlow, hhigh, hn⟩ := hstart _ rfl
    have hw32 : 32 ≤ w := by omega
    obtain ⟨hlow, hhigh, hn⟩ := nlzStep_spec (k := 16) (by decide) hw32 hlow hhigh hn
    obtain ⟨hlow, hhigh, hn⟩ := nlzStep_spec (k := 8) (by decide) hw32 hlow hhigh hn
    obtain ⟨hlow, hhigh, hn⟩ := nlzStep_spec (k := 4) (by decide) hw32 hlow hhigh hn
    obtain ⟨hlow, hhigh, hn⟩ := nlzStep_spec (k := 2) (by decide) hw32 hlow hhigh hn
    obtain ⟨hlow, hhigh, hn⟩ := nlzStep_spec (k := 1) (by decide) hw32 hlow hhigh hn
    rw [nlzSearch, if_neg hx]
    have hlast := (Nat.log2_eq_iff (k := 31) (by have := Nat.two_pow_pos 31; omega)).mpr
      ⟨hlow, hhigh⟩
    simp only
    omega

/-- The normalising variant divides if the instruction does. -/
theorem umdivNormalizing_exact
    {udivQrnnd : BitVec w → BitVec w → BitVec w → BitVec w × BitVec w}
    (hdiv : UdivQrnndExact udivQrnnd) : UmdivExact (umdivNormalizing udivQrnnd) := by
  refine ⟨?_, ?_, ?_⟩
  · intro u
    rw [umdivNormalizing, if_pos rfl]
  · intro u v hv hle
    rw [umdivNormalizing, if_neg hv, if_pos hle]
  · intro u v hv hlt
    have hnle : ¬v ≤ dhi u := BitVec.not_le.mpr hlt
    have htotal := lt_mul_of_dhi_lt hlt
    obtain ⟨hshift, hnorm⟩ := nlz_spec hv
    have hu : (u <<< nlz v).toNat = u.toNat * 2 ^ nlz v := by
      rw [BitVec.toNat_shiftLeft, Nat.shiftLeft_eq, Nat.mod_eq_of_lt]
      calc u.toNat * 2 ^ nlz v < v.toNat * 2 ^ w * 2 ^ nlz v :=
            Nat.mul_lt_mul_of_pos_right htotal (Nat.two_pow_pos _)
        _ = (v <<< nlz v).toNat * 2 ^ w := by rw [hshift, Nat.mul_right_comm]
        _ ≤ 2 ^ (w + w) := by
            rw [two_pow_add_self]
            exact Nat.mul_le_mul_right _ (v <<< nlz v).isLt.le
    have hhigh : dhi (u <<< nlz v) < v <<< nlz v := by
      rw [BitVec.lt_def, toNat_dhi, Nat.div_lt_iff_lt_mul (Nat.two_pow_pos w), hu, hshift,
        Nat.mul_right_comm]
      exact Nat.mul_lt_mul_of_pos_right htotal (Nat.two_pow_pos _)
    obtain ⟨hq, hr⟩ := hdiv (dhi (u <<< nlz v)) (dlo (u <<< nlz v)) (v <<< nlz v) hnorm hhigh
    rw [← toNat_dhi_dlo, hu, hshift] at hq hr
    refine ⟨_, by rw [umdivNormalizing, if_neg hv, if_neg hnle], ?_, ?_⟩
    · rw [dlo_twoCell, hq, Nat.mul_div_mul_right _ _ (Nat.two_pow_pos _)]
    · rw [dhi_twoCell, BitVec.toNat_ushiftRight, hr, Nat.mul_mod_mul_right,
        Nat.shiftRight_eq_div_pow, Nat.mul_div_cancel _ (Nat.two_pow_pos _)]

/-! ## Symmetric division -/

/-- The truncated quotient, from magnitudes. -/
theorem tdiv_eq_natAbs (n d : Int) :
    n.tdiv d = if n < 0 ↔ ¬d < 0 then -((n.natAbs / d.natAbs : Nat) : Int)
      else ((n.natAbs / d.natAbs : Nat) : Int) := by
  rcases lt_or_ge n 0 with hn | hn <;> rcases lt_or_ge d 0 with hd | hd
  · obtain ⟨a, rfl⟩ := Int.exists_eq_neg_ofNat hn.le
    obtain ⟨b, rfl⟩ := Int.exists_eq_neg_ofNat hd.le
    rw [if_neg (by tauto), Int.natAbs_neg, Int.natAbs_neg, Int.neg_tdiv, Int.tdiv_neg, Int.neg_neg]
    rfl
  · obtain ⟨a, rfl⟩ := Int.exists_eq_neg_ofNat hn.le
    obtain ⟨b, rfl⟩ := Int.eq_ofNat_of_zero_le hd
    rw [if_pos (by omega), Int.natAbs_neg, Int.neg_tdiv]
    rfl
  · obtain ⟨a, rfl⟩ := Int.eq_ofNat_of_zero_le hn
    obtain ⟨b, rfl⟩ := Int.exists_eq_neg_ofNat hd.le
    rw [if_pos (by omega), Int.natAbs_neg, Int.tdiv_neg]
    rfl
  · obtain ⟨a, rfl⟩ := Int.eq_ofNat_of_zero_le hn
    obtain ⟨b, rfl⟩ := Int.eq_ofNat_of_zero_le hd
    rw [if_neg (by omega)]
    rfl

/-- The remainder has the sign of the dividend. -/
theorem tmod_eq_natAbs (n d : Int) :
    n.tmod d = if n < 0 then -((n.natAbs % d.natAbs : Nat) : Int)
      else ((n.natAbs % d.natAbs : Nat) : Int) := by
  rcases lt_or_ge n 0 with hn | hn
  · obtain ⟨a, rfl⟩ := Int.exists_eq_neg_ofNat hn.le
    have h := Int.natAbs_tmod a d
    have hge := Int.tmod_nonneg d (Int.natCast_nonneg a)
    rw [if_pos hn, Int.neg_tmod, Int.natAbs_neg]
    omega
  · have h := Int.natAbs_tmod n d
    have hge := Int.tmod_nonneg d hn
    rw [if_neg (not_lt.mpr hn)]
    omega

/-- A division by cases. -/
theorem SignedExact.of_cases {quotient remainder : Int → Int → Int}
    {div : BitVec (w + w) → BitVec w → Except Ball (BitVec (w + w))}
    (hzero : ∀ num, div num 0#w = .error .divZero)
    (hcase : ∀ num denom, denom ≠ 0#w →
      (¬FitsCell w (quotient num.toInt denom.toInt) ∧ div num denom = .error .resultRange) ∨
      (FitsCell w (quotient num.toInt denom.toInt) ∧ ∃ res, div num denom = .ok res ∧
        (dlo res).toInt = quotient num.toInt denom.toInt ∧
        (dhi res).toInt = remainder num.toInt denom.toInt)) :
    SignedExact quotient remainder div := by
  refine ⟨hzero, ?_, ?_⟩
  · intro num denom hdenom hfits
    rcases hcase num denom hdenom with ⟨-, h⟩ | ⟨h, -⟩
    · exact h
    · exact absurd h hfits
  · intro num denom hdenom hfits
    rcases hcase num denom hdenom with ⟨h, -⟩ | ⟨-, h⟩
    · exact absurd hfits h
    · exact h

/-- The magnitude of a divisor. -/
theorem abs_ne_zero {denom : BitVec w} (h : denom ≠ 0#w) :
    (if denom.slt 0#w then -denom else denom) ≠ 0#w := by
  intro hzero
  have hden := toNat_abs denom
  rw [hzero, BitVec.toNat_zero] at hden
  refine h (BitVec.eq_of_toInt_eq ?_)
  rw [BitVec.toInt_zero]
  omega

/-- The sign tests on a quotient that may have wrapped around. -/
theorem smdiv_signs {q : BitVec w} {n : Int} (differ : Prop) [Decidable differ]
    (hn : n = if differ then -(q.toNat : Int) else (q.toNat : Int)) (r : BitVec w) :
    (¬FitsCell w n ∧ (if differ then
        if (0#w).slt (-q) then .error Ball.resultRange else .ok (twoCell (-q) r)
      else if q.slt 0#w then .error .resultRange else .ok (twoCell q r)) =
        Except.error Ball.resultRange) ∨
    (FitsCell w n ∧ ∃ q', (if differ then
        if (0#w).slt (-q) then .error Ball.resultRange else .ok (twoCell (-q) r)
      else if q.slt 0#w then .error .resultRange else .ok (twoCell q r)) =
        Except.ok (twoCell q' r) ∧ q'.toInt = n) := by
  have hlt := q.isLt
  have hpos := Nat.two_pow_pos w
  by_cases hdiffer : differ
  · rw [if_pos hdiffer] at hn ⊢
    rcases Nat.lt_or_ge (2 ^ w) (2 * q.toNat) with hbig | hsmall
    · have hneg : (-q).toNat = 2 ^ w - q.toNat := by
        rw [BitVec.toNat_neg, Nat.mod_eq_of_lt (by omega)]
      have htop : (0#w).slt (-q) = true := by
        rw [BitVec.slt_iff_toInt_lt, BitVec.toInt_zero, toInt_of_lt (by omega)]
        omega
      left
      refine ⟨?_, if_pos htop⟩
      rw [FitsCell]
      omega
    · have hneg := toInt_neg_of_le hsmall
      have htop : ¬(0#w).slt (-q) = true := by
        rw [BitVec.slt_iff_toInt_lt, BitVec.toInt_zero]
        omega
      right
      refine ⟨?_, -q, if_neg htop, by rw [hneg, hn]⟩
      rw [FitsCell]
      omega
  · rw [if_neg hdiffer] at hn
    rw [if_neg hdiffer]
    by_cases hneg : q.toInt < 0
    · have hbig := (toInt_neg_iff q).mp hneg
      left
      refine ⟨?_, if_pos ((slt_zero_iff q).mpr hneg)⟩
      rw [FitsCell]
      omega
    · have hsmall : 2 * q.toNat < 2 ^ w := Nat.lt_of_not_le fun h => hneg ((toInt_neg_iff q).mpr h)
      right
      refine ⟨?_, q, if_neg fun h => hneg ((slt_zero_iff q).mp h), by rw [toInt_of_lt hsmall, hn]⟩
      rw [FitsCell]
      omega

/-- The symmetric division is exact or throws. -/
theorem smdiv_exact {umdiv : BitVec (w + w) → BitVec w → Except Ball (BitVec (w + w))}
    (hum : UmdivExact umdiv) : SignedExact Int.tdiv Int.tmod (smdiv umdiv) := by
  have hpos := Nat.two_pow_pos w
  refine SignedExact.of_cases ?_ ?_
  · intro num
    have hzero : (if (0#w).slt 0#w then -0#w else 0#w) = 0#w := by simp
    simp only [smdiv, hzero, hum.divZero]
  · intro num denom hdenom
    have hh : (dhi num).slt 0#w = num.slt 0#(w + w) := by
      rw [Bool.eq_iff_iff, slt_zero_iff, slt_zero_iff, toInt_dhi_neg_iff]
    have hxor : (dhi num ^^^ denom).slt 0#w = true ↔ (num.toInt < 0 ↔ ¬denom.toInt < 0) := by
      rw [xor_slt_zero_iff, toInt_dhi_neg_iff]
    have hnum := toNat_abs num
    have hden := toNat_abs denom
    have hne := abs_ne_zero hdenom
    have hdpos : 0 < denom.toInt.natAbs := by
      rw [← hden]
      exact toNat_pos hne
    have hdle := natAbs_toInt_le denom
    simp only [smdiv, hh, hxor]
    by_cases hle : (if denom.slt 0#w then -denom else denom) ≤
        dhi (if num.slt 0#(w + w) then -num else num)
    · left
      refine ⟨?_, by rw [hum.resultRange _ _ hne hle]⟩
      have hq : 2 ^ w ≤ num.toInt.natAbs / denom.toInt.natAbs := by
        rw [BitVec.le_def, toNat_dhi, hnum, hden, Nat.le_div_iff_mul_le hpos] at hle
        rw [Nat.le_div_iff_mul_le hdpos, Nat.mul_comm]
        exact hle
      rw [FitsCell, tdiv_eq_natAbs]
      split <;> omega
    · obtain ⟨ures, hures, hq, hr⟩ := hum.exact _ _ hne (BitVec.not_le.mp hle)
      rw [hnum, hden] at hq hr
      have hrlt : 2 * (dhi ures).toNat < 2 ^ w := by
        have := Nat.mod_lt num.toInt.natAbs hdpos
        omega
      have hrem : (if num.slt 0#(w + w) then -dhi ures else dhi ures).toInt =
          num.toInt.tmod denom.toInt := by
        rw [tmod_eq_natAbs, ← hr]
        by_cases hneg : num.toInt < 0
        · rw [if_pos ((slt_zero_iff num).mpr hneg), if_pos hneg, toInt_neg_of_le hrlt.le]
        · rw [if_neg fun h => hneg ((slt_zero_iff num).mp h), if_neg hneg, toInt_of_lt hrlt]
      have hquot := tdiv_eq_natAbs num.toInt denom.toInt
      rw [← hq] at hquot
      rw [hures]
      rcases smdiv_signs (num.toInt < 0 ↔ ¬denom.toInt < 0) hquot
          (if num.slt 0#(w + w) then -dhi ures else dhi ures) with h | ⟨hfits, q', hq', hval⟩
      · exact Or.inl h
      · exact Or.inr ⟨hfits, _, hq', by rw [dlo_twoCell, hval], by rw [dhi_twoCell, hrem]⟩

/-! ## Floored division -/

/-- What {lit}`fmdiv` finds out about the quotient {lit}`n` of a number by a positive
divisor. -/
def BiasedExact (div : Except Ball (BitVec (w + w))) (numsign : BitVec w) (n r : Int) : Prop :=
  (¬FitsCell w n ∧ (div = .error .resultRange ∨
    ∃ ures, div = .ok ures ∧ (numsign ^^^ dlo ures).slt 0#w = true)) ∨
  (FitsCell w n ∧ ∃ ures, div = .ok ures ∧ (numsign ^^^ dlo ures).slt 0#w = false ∧
    (dlo ures).toInt = n ∧ ((dhi ures).toNat : Int) = r)

/-- A negative number that is biased by the divisor in its upper half is not negative any more, unless
it is too small for the division. -/
theorem biased_cases {num : BitVec (w + w)} (denom : BitVec w) (hnum : num.toInt < 0) :
    (num.toInt < -((2 ^ w : Nat) * denom.toNat) ∧ denom ≤ dhi num + denom) ∨
      (-((2 ^ w : Nat) * denom.toNat) ≤ num.toInt ∧ dhi num + denom < denom ∧
        ((twoCell (dlo num) (dhi num + denom)).toNat : Int) =
          num.toInt + (2 ^ w : Nat) * denom.toNat) := by
  have hhi := (dhi num).isLt
  have hlo := (dlo num).isLt
  have hval : num.toInt = (dhi num).toInt * (2 ^ w : Nat) + (dlo num).toNat := toInt_dhi_dlo num
  have hhival : (dhi num).toInt = (dhi num).toNat - (2 ^ w : Nat) := by
    rcases toInt_cases (dhi num) with ⟨h, heq⟩ | ⟨-, heq⟩
    · have := (toInt_dhi_neg_iff num).mpr hnum
      omega
    · exact heq
  by_cases hsum : (dhi num).toNat + denom.toNat < 2 ^ w
  · -- the biased number is still negative, so its upper half is too large
    have hhigh : (dhi num + denom).toNat = (dhi num).toNat + denom.toNat := by
      rw [BitVec.toNat_add, Nat.mod_eq_of_lt hsum]
    have hmul : ((dhi num).toNat + denom.toNat + 1 : Int) * (2 ^ w : Nat) ≤
        (2 ^ w : Nat) * (2 ^ w : Nat) := by
      exact_mod_cast Nat.mul_le_mul_right (2 ^ w) (Nat.succ_le_of_lt hsum)
    have hlo' : ((dlo num).toNat : Int) < (2 ^ w : Nat) := by exact_mod_cast hlo
    left
    constructor
    · rw [hval, hhival]
      linarith
    · rw [BitVec.le_def, hhigh]
      exact Nat.le_add_left _ _
  · have hhigh : (dhi num + denom).toNat = (dhi num).toNat + denom.toNat - 2 ^ w := by
      rw [BitVec.toNat_add, Nat.mod_eq_sub_mod (by omega), Nat.mod_eq_of_lt (by omega)]
    have hbiased : ((twoCell (dlo num) (dhi num + denom)).toNat : Int) =
        num.toInt + (2 ^ w : Nat) * denom.toNat := by
      rw [toNat_twoCell, hhigh, hval, hhival]
      push_cast [Nat.cast_sub (Nat.le_of_not_lt hsum)]
      ring
    right
    refine ⟨by omega, ?_, hbiased⟩
    rw [BitVec.lt_def, hhigh]
    omega

section

variable {umdiv : BitVec (w + w) → BitVec w → Except Ball (BitVec (w + w))}
  (hum : UmdivExact umdiv) (num : BitVec (w + w)) {denom : BitVec w} (hdenom : denom ≠ 0#w)
include hum hdenom

/-- A number that is not negative. -/
theorem fmdiv_nonneg (hnum : ¬num.toInt < 0) :
    BiasedExact (umdiv num denom) (dhi num) (num.toInt / denom.toNat)
      (num.toInt % denom.toNat) := by
  have hpos := Nat.two_pow_pos w
  have hdpos := toNat_pos hdenom
  have hval : num.toInt = num.toNat := by
    refine toInt_of_lt (Nat.lt_of_not_le fun h => hnum ((toInt_neg_iff num).mpr h))
  have hquot : num.toInt / denom.toNat = (num.toNat / denom.toNat : Nat) := by
    rw [hval]
    rfl
  rw [BiasedExact, hquot]
  by_cases hle : denom ≤ dhi num
  · left
    refine ⟨?_, Or.inl (hum.resultRange _ _ hdenom hle)⟩
    have hq : 2 ^ w ≤ num.toNat / denom.toNat := by
      rw [BitVec.le_def, toNat_dhi, Nat.le_div_iff_mul_le hpos] at hle
      rw [Nat.le_div_iff_mul_le hdpos, Nat.mul_comm]
      exact hle
    rw [FitsCell]
    omega
  · obtain ⟨ures, hures, hq, hr⟩ := hum.exact _ _ hdenom (BitVec.not_le.mp hle)
    have hsign : (dhi num ^^^ dlo ures).slt 0#w = true ↔ 2 ^ w ≤ 2 * (dlo ures).toNat := by
      rw [xor_slt_zero_iff, toInt_dhi_neg_iff, ← toInt_neg_iff]
      tauto
    rw [← hq]
    by_cases hbig : 2 ^ w ≤ 2 * (dlo ures).toNat
    · left
      refine ⟨?_, Or.inr ⟨ures, hures, hsign.mpr hbig⟩⟩
      rw [FitsCell]
      omega
    · right
      refine ⟨?_, ures, hures, by simpa using hsign.not.mpr hbig, toInt_of_lt (by omega), ?_⟩
      · rw [FitsCell]
        omega
      · rw [hr, hval]
        rfl

/-- A negative number is biased by the divisor in its upper half. -/
theorem fmdiv_neg (hnum : num.toInt < 0) (hle : 2 * denom.toNat ≤ 2 ^ w) :
    BiasedExact (umdiv (twoCell (dlo num) (dhi num + denom)) denom) (dhi num)
      (num.toInt / denom.toNat) (num.toInt % denom.toNat) := by
  have hpos := Nat.two_pow_pos w
  have hdpos := toNat_pos hdenom
  have hdpos' : (0 : Int) < denom.toNat := by omega
  rcases biased_cases denom hnum with ⟨hsmall, hhigh⟩ | ⟨-, hlt, hbiased⟩
  · left
    refine ⟨?_, Or.inl (hum.resultRange _ _ hdenom (by rwa [dhi_twoCell]))⟩
    have hq : num.toInt / denom.toNat < -(2 ^ w : Nat) := by
      rw [Int.ediv_lt_iff_lt_mul hdpos']
      linarith
    rw [FitsCell]
    omega
  · obtain ⟨ures, hures, hq, hr⟩ :=
      hum.exact (twoCell (dlo num) (dhi num + denom)) denom hdenom (by rwa [dhi_twoCell])
    have hq' : ((dlo ures).toNat : Int) = num.toInt / denom.toNat + (2 ^ w : Nat) := by
      rw [hq, Int.natCast_ediv, hbiased, Int.add_mul_ediv_right _ _ (by omega)]
    have hr' : ((dhi ures).toNat : Int) = num.toInt % denom.toNat := by
      rw [hr, Int.natCast_emod, hbiased, Int.add_mul_emod_self_right]
    have hneg : num.toInt / denom.toNat < 0 := Int.ediv_neg_of_neg_of_pos hnum hdpos'
    have hsign : (dhi num ^^^ dlo ures).slt 0#w = true ↔ ¬2 ^ w ≤ 2 * (dlo ures).toNat := by
      rw [xor_slt_zero_iff, toInt_dhi_neg_iff, ← toInt_neg_iff]
      tauto
    by_cases hbig : 2 ^ w ≤ 2 * (dlo ures).toNat
    · right
      refine ⟨?_, ures, hures, by simpa using hsign.not.mpr (not_not.mpr hbig), ?_, hr'⟩
      · rw [FitsCell]
        omega
      · rcases toInt_cases (dlo ures) with ⟨h, -⟩ | ⟨-, heq⟩ <;> omega
    · left
      refine ⟨?_, Or.inr ⟨ures, hures, hsign.mpr hbig⟩⟩
      rw [FitsCell]
      omega

/-- A division with the divisor added to a negative dividend is off by one divisor. -/
theorem fmdiv_biased (hle : 2 * denom.toNat ≤ 2 ^ w) :
    BiasedExact (umdiv (if (dhi num).slt 0#w then twoCell (dlo num) (dhi num + denom) else num)
      denom) (dhi num) (num.toInt / denom.toNat) (num.toInt % denom.toNat) := by
  by_cases hneg : num.toInt < 0
  · rw [if_pos ((slt_zero_iff _).mpr ((toInt_dhi_neg_iff num).mpr hneg))]
    exact fmdiv_neg hum num hdenom hneg hle
  · rw [if_neg fun h => hneg ((toInt_dhi_neg_iff num).mp ((slt_zero_iff _).mp h))]
    exact fmdiv_nonneg hum num hdenom hneg

end

/-- Negating a double, unless it is the most negative one. -/
theorem toInt_neg_double (num : BitVec (w + w)) :
    (-num).toInt = -num.toInt ∨
      ((-num).toInt = num.toInt ∧ 2 * num.toInt = -(2 ^ (w + w) : Nat)) := by
  have hlt := num.isLt
  have hpos := Nat.two_pow_pos (w + w)
  rcases toInt_cases num with ⟨h, heq⟩ | ⟨h, heq⟩
  · exact Or.inl (by rw [toInt_neg_of_le h.le, heq])
  · by_cases hmin : 2 * num.toNat = 2 ^ (w + w)
    · right
      rw [toInt_neg_of_le hmin.le, heq]
      omega
    · left
      have hneg : (-num).toNat = 2 ^ (w + w) - num.toNat := by
        rw [BitVec.toNat_neg, Nat.mod_eq_of_lt (by omega)]
      rw [toInt_of_lt (by omega), hneg, heq]
      omega

/-- The most negative double has no quotient that fits, with either sign. -/
theorem not_fits_min {d : Nat} (hpos : 0 < d) (hle : 2 * d ≤ 2 ^ w) {n : Int}
    (hmin : 2 * n = -(2 ^ (w + w) : Nat)) :
    ¬FitsCell w (n / d) ∧ ¬FitsCell w (-n / d) := by
  have hw := Nat.two_pow_pos w
  have hd : (0 : Int) < d := by omega
  have hmul : (2 * d : Int) * (2 ^ w : Nat) ≤ (2 ^ w : Nat) * (2 ^ w : Nat) := by
    exact_mod_cast Nat.mul_le_mul_right (2 ^ w) hle
  rw [two_pow_add_self, Nat.cast_mul] at hmin
  have hlow : n / d ≤ -(2 ^ w : Nat) := by
    rw [← Int.lt_add_one_iff, Int.ediv_lt_iff_lt_mul hd]
    nlinarith
  have hhigh : ((2 ^ w : Nat) : Int) ≤ -n / d := by
    rw [Int.le_ediv_iff_mul_le hd]
    linarith
  rw [FitsCell, FitsCell]
  omega

/-- The floored quotient and modulus, for a divisor of either sign. -/
theorem fdiv_eq_ediv_natAbs {n d : Int} (hd : d ≠ 0) :
    n.fdiv d = (if d < 0 then -n else n) / d.natAbs ∧
      n.fmod d = if d < 0 then -(-n % d.natAbs) else n % d.natAbs := by
  by_cases hneg : d < 0
  · obtain ⟨b, rfl⟩ := Int.exists_eq_neg_ofNat hneg.le
    have hq : n.fdiv (-(b : Int)) = -n / b := by
      rw [← Int.fdiv_eq_ediv_of_nonneg _ (Int.natCast_nonneg b), ← Int.neg_fdiv_neg, Int.neg_neg]
    refine ⟨?_, ?_⟩
    · rw [if_pos hneg, Int.natAbs_neg, Int.natAbs_natCast, hq]
    · rw [if_pos hneg, Int.natAbs_neg, Int.natAbs_natCast, Int.fmod_def, hq, Int.emod_def]
      ring
  · obtain ⟨b, rfl⟩ := Int.eq_ofNat_of_zero_le (not_lt.mp hneg)
    refine ⟨?_, ?_⟩
    · rw [if_neg hneg, Int.natAbs_natCast, Int.fdiv_eq_ediv_of_nonneg _ (Int.natCast_nonneg b)]
    · rw [if_neg hneg, Int.natAbs_natCast, Int.fmod_eq_emod_of_nonneg _ (Int.natCast_nonneg b)]

/-- What {lit}`fmdiv` does with the result of the unsigned division. -/
theorem BiasedExact.result {div : Except Ball (BitVec (w + w))} {numsign : BitVec w} {n r : Int}
    (h : BiasedExact div numsign n r) (denomsign : BitVec w) :
    (¬FitsCell w n ∧ fmdivResult numsign denomsign div = .error .resultRange) ∨
      (FitsCell w n ∧ ∃ q m : BitVec w, fmdivResult numsign denomsign div =
        .ok (twoCell q (if denomsign.slt 0#w then -m else m)) ∧ q.toInt = n ∧
        (m.toNat : Int) = r) := by
  rcases h with ⟨hfits, hdiv | ⟨ures, hdiv, hsign⟩⟩ | ⟨hfits, ures, hdiv, hsign, hq, hr⟩
  · exact Or.inl ⟨hfits, by rw [hdiv, fmdivResult]⟩
  · refine Or.inl ⟨hfits, ?_⟩
    rw [hdiv, fmdivResult]
    exact if_pos hsign
  · refine Or.inr ⟨hfits, dlo ures, dhi ures, ?_, hq, hr⟩
    rw [hdiv, fmdivResult]
    exact if_neg (by simp [hsign])

/-- The floored division is exact or throws. -/
theorem fmdiv_exact {umdiv : BitVec (w + w) → BitVec w → Except Ball (BitVec (w + w))}
    (hum : UmdivExact umdiv) : SignedExact Int.fdiv Int.fmod (fmdiv umdiv) := by
  refine SignedExact.of_cases ?_ ?_
  · intro num
    have hzero : (0#w).slt 0#w = false := by
      rw [Bool.eq_false_iff, ne_eq, slt_zero_iff, BitVec.toInt_zero]
      exact lt_irrefl 0
    simp only [fmdiv, hzero, Bool.false_eq_true, if_false, hum.divZero, fmdivResult]
  · intro num denom hdenom
    have hne := abs_ne_zero hdenom
    have hden := toNat_abs denom
    have hdpos : 0 < denom.toInt.natAbs := by
      rw [← hden]
      exact toNat_pos hne
    have hdle := natAbs_toInt_le denom
    have hdint : denom.toInt ≠ 0 := by omega
    obtain ⟨hquot, hmod⟩ := fdiv_eq_ediv_natAbs (n := num.toInt) hdint
    have hmodlt : ∀ n : Int, 0 ≤ n % denom.toInt.natAbs ∧
        2 * (n % denom.toInt.natAbs) < (2 ^ w : Nat) := by
      intro n
      have hnonneg := Int.emod_nonneg n (b := denom.toInt.natAbs) (by omega)
      have hlt := Int.emod_lt_of_pos n (b := denom.toInt.natAbs) (by omega)
      omega
    rw [hquot, hmod]
    by_cases hneg : denom.toInt < 0
    · have hslt := (slt_zero_iff denom).mpr hneg
      rw [if_pos hslt] at hne hden
      have hres := BiasedExact.result
        (fmdiv_biased hum (-num) hne (by rw [hden]; exact hdle)) denom
      rw [hden] at hres
      simp only [hslt, if_true] at hres
      simp only [fmdiv, hslt, if_true, if_pos hneg]
      rcases toInt_neg_double num with hval | ⟨hval, hmin⟩
      · rw [hval] at hres
        rcases hres with h | ⟨hfits, q, m, hres, hq, hm⟩
        · exact Or.inl h
        · refine Or.inr ⟨hfits, _, hres, by rw [dlo_twoCell, hq], ?_⟩
          have := (hmodlt (-num.toInt)).2
          rw [dhi_twoCell, toInt_neg_of_le (by omega), hm]
      · have hnot := not_fits_min hdpos hdle hmin
        rw [hval] at hres
        rcases hres with ⟨-, h⟩ | ⟨hfits, -⟩
        · exact Or.inl ⟨hnot.2, h⟩
        · exact absurd hfits hnot.1
    · have hslt : denom.slt 0#w = false := by
        rw [Bool.eq_false_iff]
        exact fun h => hneg ((slt_zero_iff denom).mp h)
      rw [if_neg (by simp [hslt])] at hne hden
      have hres := BiasedExact.result
        (fmdiv_biased hum num hne (by rw [hden]; exact hdle)) denom
      rw [hden] at hres
      simp only [hslt, Bool.false_eq_true, if_false] at hres
      simp only [fmdiv, hslt, Bool.false_eq_true, if_false, if_neg hneg]
      rcases hres with h | ⟨hfits, q, m, hres, hq, hm⟩
      · exact Or.inl h
      · refine Or.inr ⟨hfits, _, hres, by rw [dlo_twoCell, hq], ?_⟩
        have := (hmodlt num.toInt).2
        rw [dhi_twoCell, toInt_of_lt (by omega), hm]

/-! ## All divisions -/

/-- Mixed-precision division is exact or throws, with both ways of dividing unsigned
numbers. -/
theorem mixedDivision_exact {w : Nat}
    {udivQrnnd : BitVec w → BitVec w → BitVec w → BitVec w × BitVec w}
    (hdiv : UdivQrnndExact udivQrnnd) :
    ∀ um ∈ [umdiv, umdivNormalizing udivQrnnd],
      UmdivExact um ∧ SignedExact Int.tdiv Int.tmod (smdiv um) ∧
        SignedExact Int.fdiv Int.fmod (fmdiv um) := by
  intro um hmem
  have hum : UmdivExact um := by
    rcases List.mem_cons.mp hmem with rfl | hmem
    · exact umdiv_exact
    · rw [List.mem_singleton.mp hmem]
      exact umdivNormalizing_exact hdiv
  exact ⟨hum, smdiv_exact hum, fmdiv_exact hum⟩

/-- A division instruction. -/
def divideWords (u1 u0 v : BitVec w) : BitVec w × BitVec w :=
  (BitVec.ofNat w ((u1.toNat * 2 ^ w + u0.toNat) / v.toNat),
    BitVec.ofNat w ((u1.toNat * 2 ^ w + u0.toNat) % v.toNat))

theorem divideWords_exact : UdivQrnndExact (w := w) divideWords := by
  intro u1 u0 v hnorm hlt
  have hpos : 0 < v.toNat := lt_of_le_of_lt (Nat.zero_le _) hlt
  have hq : (u1.toNat * 2 ^ w + u0.toNat) / v.toNat < 2 ^ w := by
    have hlt' := lt_mul_of_dhi_lt (u := twoCell u0 u1) (v := v) (by rwa [dhi_twoCell])
    rw [toNat_twoCell, Nat.mul_comm v.toNat] at hlt'
    rw [Nat.div_lt_iff_lt_mul hpos]
    exact hlt'
  have hr := lt_trans (Nat.mod_lt (u1.toNat * 2 ^ w + u0.toNat) hpos) v.isLt
  simp only [divideWords, BitVec.toNat_ofNat, Nat.mod_eq_of_lt hq, Nat.mod_eq_of_lt hr, and_self]

/-- The divisions of 64-bit cells. -/
theorem mixedDivision_exact_64 :
    UmdivExact (umdivNormalizing (w := 64) divideWords) ∧
      SignedExact Int.tdiv Int.tmod (smdiv (umdivNormalizing (w := 64) divideWords)) ∧
      SignedExact Int.fdiv Int.fmod (fmdiv (umdivNormalizing (w := 64) divideWords)) :=
  mixedDivision_exact divideWords_exact _ (List.mem_cons_of_mem _ List.mem_cons_self)

end Arith
end Gforth
