import Gforth.Arith.Staged

/-!
# Two implementations of floored division

Where the machine has an instruction for symmetric division of a double, the primitives for
floored division correct its result; elsewhere they use {lit}`fmdiv`.  The correction can
take the quotient out of the range of a cell, which is only checked in engines for
debugging.

The division of single cells is the one of C, with checks by software where
{lit}`CHECK_DIVISION_SW` is set.

Main results:

- Theorem {lit}`fmSlashModAsm_toOption_iff`: when the implementations agree.
- Theorem {lit}`CDivision.divide_of_not_divides`: when a division by 0 or an overflow throws.
- Theorem {lit}`flooredDivision_agree`: the same for all words.
-/

namespace Gforth
namespace Arith

open Lib

variable {w : Nat}

/-! ## The primitives -/

/-- {lit}`CELL_MIN` -/
def cellMin (w : Nat) : BitVec w :=
  1#w <<< (w - 1)

/-- {lit}`fm/mod` with {lit}`fmdiv`: modulus and quotient -/
def fmSlashMod (um : BitVec (w + w) → BitVec w → Except Ball (BitVec (w + w)))
    (d1 : BitVec (w + w)) (n1 : BitVec w) : Except Ball (BitVec w × BitVec w) :=
  match fmdiv um d1 n1 with
  | .error e => .error e
  | .ok r => .ok (dhi r, dlo r)

/-- {lit}`fm/mod` with {lit}`ASM_SM_SLASH_REM`, which gives remainder and quotient -/
def fmSlashModAsm (asm : BitVec (w + w) → BitVec w → Except Ball (BitVec w × BitVec w))
    (checkDivision : Bool) (d1 : BitVec (w + w)) (n1 : BitVec w) :
    Except Ball (BitVec w × BitVec w) :=
  match asm d1 n1 with
  | .error e => .error e
  | .ok (n2, n3) =>
      if (dhi d1 ^^^ n1).slt 0#w ∧ n2 ≠ 0#w then
        if checkDivision ∧ n3 = cellMin w then .error .resultRange
        else .ok (n2 + n1, n3 - 1#w)
      else .ok (n2, n3)

/-- {lit}`*/modf` with {lit}`fmdiv` -/
def starSlashModf (um : BitVec (w + w) → BitVec w → Except Ball (BitVec (w + w)))
    (n1 n2 n3 : BitVec w) : Except Ball (BitVec w × BitVec w) :=
  fmSlashMod um (mmul n1 n2) n3

/-- {lit}`*/modf` with {lit}`ASM_SM_SLASH_REM` -/
def starSlashModfAsm (asm : BitVec (w + w) → BitVec w → Except Ball (BitVec w × BitVec w))
    (checkDivision : Bool) (n1 n2 n3 : BitVec w) : Except Ball (BitVec w × BitVec w) :=
  fmSlashModAsm asm checkDivision (mmul n1 n2) n3

/-- {lit}`*/f` with {lit}`fmdiv` -/
def starSlashF (um : BitVec (w + w) → BitVec w → Except Ball (BitVec (w + w)))
    (n1 n2 n3 : BitVec w) : Except Ball (BitVec w) :=
  match fmdiv um (mmul n1 n2) n3 with
  | .error e => .error e
  | .ok r => .ok (dlo r)

/-- {lit}`*/f` with {lit}`ASM_SM_SLASH_REM` -/
def starSlashFAsm (asm : BitVec (w + w) → BitVec w → Except Ball (BitVec w × BitVec w))
    (checkDivision : Bool) (n1 n2 n3 : BitVec w) : Except Ball (BitVec w) :=
  match asm (mmul n1 n2) n3 with
  | .error e => .error e
  | .ok (remainder, n4) =>
      if (dhi (mmul n1 n2) ^^^ n3).slt 0#w ∧ remainder ≠ 0#w then
        if checkDivision ∧ n4 = cellMin w then .error .resultRange
        else .ok (n4 - 1#w)
      else .ok n4

/-- The operands of a C division that C gives a meaning to -/
def CDivides (n1 n2 : BitVec w) : Prop :=
  n2 ≠ 0#w ∧ ¬(n2 = -1#w ∧ n1 = cellMin w)

instance (n1 n2 : BitVec w) : Decidable (CDivides n1 n2) :=
  inferInstanceAs (Decidable (_ ∧ _))

/-- The C division of cells in an engine: {lit}`CHECK_DIVISION_SW`, which is 0 outside of
engines for debugging and where the hardware reports the event, and the quotient and the
remainder of the machine.  What C leaves open is an event that the hardware reports, with
some ball, or some two cells. -/
structure CDivision (w : Nat) where
  checkSw : Bool
  machine : BitVec w → BitVec w → Except Ball (BitVec w × BitVec w)
  exact : ∀ n1 n2, CDivides n1 n2 → machine n1 n2 = .ok (n1.sdiv n2, n1.srem n2)

namespace CDivision

/-- The checks in front of a division, with {lit}`CHECK_DIVISION_SW` -/
def check (c : CDivision w) (n1 n2 : BitVec w) : Option Ball :=
  if c.checkSw ∧ n2 = -1#w ∧ n1 = cellMin w then some .resultRange
  else if c.checkSw ∧ n2 = 0#w then some .divZero
  else none

/-- A checked division: quotient and remainder -/
def divide (c : CDivision w) (n1 n2 : BitVec w) : Except Ball (BitVec w × BitVec w) :=
  match c.check n1 n2 with
  | some e => .error e
  | none => c.machine n1 n2

/-- The division of an engine that checks by software -/
def software (w : Nat) : CDivision w where
  checkSw := true
  machine n1 n2 := .ok (n1.sdiv n2, n1.srem n2)
  exact _ _ _ := rfl

/-- The operands can be divided, or it is reported that they cannot: by the software or by
the hardware. -/
def Reports (c : CDivision w) (n1 n2 : BitVec w) : Prop :=
  CDivides n1 n2 ∨ c.checkSw = true ∨ ∃ e, c.machine n1 n2 = .error e

end CDivision

/-- {lit}`/f` -/
def slashF (c : CDivision w) (n1 n2 : BitVec w) : Except Ball (BitVec w) :=
  match c.divide n1 n2 with
  | .error e => .error e
  | .ok (n, r) => if (n1 ^^^ n2).slt 0#w ∧ r ≠ 0#w then .ok (n - 1#w) else .ok n

/-- {lit}`modf` -/
def modf (c : CDivision w) (n1 n2 : BitVec w) : Except Ball (BitVec w) :=
  match c.divide n1 n2 with
  | .error e => .error e
  | .ok (_, n) => if (n1 ^^^ n2).slt 0#w ∧ n ≠ 0#w then .ok (n + n2) else .ok n

/-- {lit}`/modf`: modulus and quotient -/
def slashModf (c : CDivision w) (n1 n2 : BitVec w) : Except Ball (BitVec w × BitVec w) :=
  match c.divide n1 n2 with
  | .error e => .error e
  | .ok (n4, n3) =>
      if (n1 ^^^ n2).slt 0#w ∧ n3 ≠ 0#w then .ok (n3 + n2, n4 - 1#w) else .ok (n3, n4)

/-- {lit}`ASM_SM_SLASH_REM` divides exactly, and throws where it cannot. -/
structure AsmExact (asm : BitVec (w + w) → BitVec w → Except Ball (BitVec w × BitVec w)) :
    Prop where
  throws : ∀ d n, n = 0#w ∨ ¬FitsCell w (d.toInt.tdiv n.toInt) → ∃ e, asm d n = .error e
  exact : ∀ d n, n ≠ 0#w → FitsCell w (d.toInt.tdiv n.toInt) →
    ∃ r q, asm d n = .ok (r, q) ∧ q.toInt = d.toInt.tdiv n.toInt ∧
      r.toInt = d.toInt.tmod n.toInt

/-! ## Floored and truncated quotients -/

/-- The truncated quotient is corrected where the signs differ and the division is not
exact. -/
theorem fdiv_fmod_eq (d : Int) {n : Int} (hn : n ≠ 0) :
    (d.fmod n, d.fdiv n) =
      if (d < 0 ↔ ¬n < 0) ∧ d.tmod n ≠ 0 then (d.tmod n + n, d.tdiv n - 1)
      else (d.tmod n, d.tdiv n) := by
  have hdvd : n ∣ d ↔ d.tmod n = 0 := Int.dvd_iff_tmod_eq_zero
  rw [Int.fdiv_eq_tdiv, Int.fmod_eq_tmod]
  by_cases hd : n ∣ d
  · rw [if_pos hd, if_pos hd, if_neg (by simp [hdvd.mp hd]), Int.add_zero, Int.sub_zero]
  · have hmod : d.tmod n ≠ 0 := fun h => hd (hdvd.mpr h)
    simp only [if_neg hd, hmod, ne_eq, not_false_eq_true, and_true]
    by_cases hdneg : d < 0
    · by_cases hnneg : n < 0
      · rw [if_neg (by omega), if_neg (by omega), if_neg (by omega), if_neg (by omega),
          if_neg (by simp [hdneg, hnneg]), Int.sign_eq_neg_one_of_neg hnneg]
        exact Prod.ext (by omega) (by omega)
      · rw [if_neg (by omega), if_pos (by omega), if_neg (by omega), if_pos (by omega),
          if_pos (by simp [hdneg, hnneg]), Int.sign_eq_one_of_pos (by omega)]
        exact Prod.ext (by omega) (by omega)
    · by_cases hnneg : n < 0
      · rw [if_pos (by omega), if_neg (by omega), if_pos (by omega), if_neg (by omega),
          if_pos (by simp [hdneg, hnneg])]
      · rw [if_pos (by omega), if_pos (by omega), if_pos (by omega), if_pos (by omega),
          if_neg (by simp [hdneg, hnneg]), Int.add_zero, Int.sub_zero]

/-- Modulus and floored quotient as cells -/
def flooredCells (w : Nat) (d n : Int) : BitVec w × BitVec w :=
  (BitVec.ofInt w (d.fmod n), BitVec.ofInt w (d.fdiv n))

/-- Modulus and floored quotient, if the quotient fits a cell -/
def flooredResult (w : Nat) (d n : Int) : Option (BitVec w × BitVec w) :=
  if n ≠ 0 ∧ FitsCell w (d.fdiv n) then some (flooredCells w d n) else none

theorem flooredResult_of_fits {d n : Int} (hn : n ≠ 0) (hfits : FitsCell w (d.fdiv n)) :
    flooredResult w d n = some (flooredCells w d n) :=
  if_pos ⟨hn, hfits⟩

theorem flooredResult_of_not_fits {d n : Int} (hfits : ¬FitsCell w (d.fdiv n)) :
    flooredResult w d n = none :=
  if_neg (fun h => hfits h.2)

theorem flooredResult_zero (d : Int) : flooredResult w d (0#w).toInt = none :=
  if_neg (fun h => h.1 BitVec.toInt_zero)

/-- The truncated quotient fits a cell, but the floored one does not. -/
def FlooredWraps (w : Nat) (d n : Int) : Prop :=
  n ≠ 0 ∧ FitsCell w (d.tdiv n) ∧ ¬FitsCell w (d.fdiv n)

instance (d n : Int) : Decidable (FlooredWraps w d n) :=
  inferInstanceAs (Decidable (_ ∧ _))

theorem cellMin_eq (w : Nat) : cellMin w = BitVec.intMin w := by
  rw [cellMin, BitVec.intMin, BitVec.twoPow_eq]

/-- The least number is half of the range below 0. -/
theorem toInt_cellMin (hw : 0 < w) : 2 * (cellMin w).toInt = -(2 ^ w : Nat) := by
  have hpow : 2 ^ w = 2 * 2 ^ (w - 1) := by
    rw [← Nat.pow_succ', Nat.succ_eq_add_one, Nat.sub_add_cancel hw]
  rw [cellMin_eq, BitVec.toInt_intMin_of_pos hw, hpow]
  push_cast
  ring

/-- Taking one from the quotient leaves the range of a cell at {lit}`CELL_MIN` only. -/
theorem fitsCell_sub_one (hw : 0 < w) (q : BitVec w) :
    FitsCell w (q.toInt - 1) ↔ q ≠ cellMin w := by
  have hmin := toInt_cellMin hw
  have hfits := fitsCell_toInt q
  have heq : q = cellMin w ↔ q.toInt = (cellMin w).toInt := BitVec.toInt_inj.symm
  rw [FitsCell] at hfits ⊢
  rw [ne_eq, heq]
  omega

theorem toInt_ne_zero {n : BitVec w} (h : n ≠ 0#w) : n.toInt ≠ 0 := by
  intro hzero
  exact h (BitVec.toInt_inj.mp (by rw [hzero, BitVec.toInt_zero]))

/-- The correction of a truncated division. -/
theorem corrected_eq {d : Int} {n r q : BitVec w} (hn : n ≠ 0#w) (hr : r.toInt = d.tmod n.toInt)
    (hq : q.toInt = d.tdiv n.toInt) :
    flooredCells w d n.toInt =
      if (d < 0 ↔ ¬n.toInt < 0) ∧ r ≠ 0#w then (r + n, q - 1#w) else (r, q) := by
  have hpair := fdiv_fmod_eq d (toInt_ne_zero hn)
  have hzero : r ≠ 0#w ↔ d.tmod n.toInt ≠ 0 := by
    rw [← hr, ← BitVec.toInt_inj.ne, BitVec.toInt_zero]
  rw [flooredCells]
  simp only [hzero]
  split at hpair
  case isTrue h =>
    obtain ⟨hmod, hdiv⟩ := Prod.mk.inj hpair
    rw [if_pos h, hmod, hdiv, ← hr, ← hq, Int.sub_eq_add_neg, BitVec.ofInt_add, BitVec.ofInt_add,
      BitVec.ofInt_toInt, BitVec.ofInt_toInt, BitVec.ofInt_toInt, BitVec.ofInt_neg,
      BitVec.sub_eq_add_neg]
    rfl
  case isFalse h =>
    obtain ⟨hmod, hdiv⟩ := Prod.mk.inj hpair
    rw [if_neg h, hmod, hdiv, ← hr, ← hq, BitVec.ofInt_toInt, BitVec.ofInt_toInt]

/-- The floored quotient of a corrected division fits a cell unless the correction wraps. -/
theorem fitsCell_corrected (hw : 0 < w) {d : Int} {n r q : BitVec w} (hn : n ≠ 0#w)
    (hr : r.toInt = d.tmod n.toInt) (hq : q.toInt = d.tdiv n.toInt) :
    FitsCell w (d.fdiv n.toInt) ↔
      ¬(((d < 0 ↔ ¬n.toInt < 0) ∧ r ≠ 0#w) ∧ q = cellMin w) := by
  have hpair := fdiv_fmod_eq d (toInt_ne_zero hn)
  have hzero : r ≠ 0#w ↔ d.tmod n.toInt ≠ 0 := by
    rw [← hr, ← BitVec.toInt_inj.ne, BitVec.toInt_zero]
  rw [hzero]
  split at hpair
  case isTrue h =>
    obtain ⟨-, hdiv⟩ := Prod.mk.inj hpair
    rw [hdiv, ← hq, fitsCell_sub_one hw, and_iff_right h]
  case isFalse h =>
    obtain ⟨-, hdiv⟩ := Prod.mk.inj hpair
    simp only [h, false_and, not_false_eq_true, iff_true]
    rw [hdiv, ← hq]
    exact fitsCell_toInt q

/-- A floored quotient in the range of a cell is not further from 0 than the truncated one. -/
theorem FitsCell.tdiv_of_fdiv {d n : Int} (hn : n ≠ 0) (h : FitsCell w (d.fdiv n)) :
    FitsCell w (d.tdiv n) := by
  have hpair := fdiv_fmod_eq d hn
  split at hpair
  case isTrue hsign =>
    obtain ⟨-, hdiv⟩ := Prod.mk.inj hpair
    have habs := tdiv_eq_natAbs d n
    rw [if_pos hsign.1] at habs
    have hpos := Nat.two_pow_pos w
    generalize d.natAbs / n.natAbs = magnitude at habs
    rw [FitsCell] at h ⊢
    omega
  case isFalse hsign =>
    obtain ⟨-, hdiv⟩ := Prod.mk.inj hpair
    rwa [hdiv] at h

/-! ## The implementations of fm/mod -/

/-- {lit}`fm/mod` is floored division, or throws where there is no result. -/
theorem fmSlashMod_toOption
    {um : BitVec (w + w) → BitVec w → Except Ball (BitVec (w + w))} (hum : UmdivExact um)
    (d : BitVec (w + w)) (n : BitVec w) :
    (fmSlashMod um d n).toOption = flooredResult w d.toInt n.toInt := by
  have hexact := fmdiv_exact hum
  rw [fmSlashMod]
  by_cases hn : n = 0#w
  · rw [hn, hexact.divZero, flooredResult_zero]
    rfl
  · by_cases hfits : FitsCell w (d.toInt.fdiv n.toInt)
    · obtain ⟨res, hres, hq, hr⟩ := hexact.exact d n hn hfits
      rw [hres, flooredResult_of_fits (toInt_ne_zero hn) hfits, flooredCells, ← hq, ← hr,
        BitVec.ofInt_toInt, BitVec.ofInt_toInt]
      rfl
    · rw [hexact.resultRange d n hn hfits, flooredResult_of_not_fits hfits]
      rfl

/-- The correction throws, wraps or gives the floored result. -/
theorem fmSlashModAsm_toOption (hw : 0 < w)
    {asm : BitVec (w + w) → BitVec w → Except Ball (BitVec w × BitVec w)} (hasm : AsmExact asm)
    (checkDivision : Bool) (d : BitVec (w + w)) (n : BitVec w) :
    (fmSlashModAsm asm checkDivision d n).toOption =
      if checkDivision = false ∧ FlooredWraps w d.toInt n.toInt then
        some (flooredCells w d.toInt n.toInt)
      else flooredResult w d.toInt n.toInt := by
  rw [fmSlashModAsm, flooredResult]
  by_cases hn : n = 0#w
  · obtain ⟨e, he⟩ := hasm.throws d n (.inl hn)
    rw [he, hn, if_neg (by simp [FlooredWraps]), if_neg (by simp)]
    rfl
  · have hne := toInt_ne_zero hn
    by_cases hfits : FitsCell w (d.toInt.tdiv n.toInt)
    · obtain ⟨r, q, hres, hq, hr⟩ := hasm.exact d n hn hfits
      have hfloor := fitsCell_corrected hw hn hr hq
      rw [hres, corrected_eq hn hr hq]
      simp only [xor_slt_zero_iff, toInt_dhi_neg_iff, FlooredWraps, ne_eq, hne, not_false_eq_true,
        hfits, true_and, hfloor]
      by_cases hsign : (d.toInt < 0 ↔ ¬n.toInt < 0) ∧ ¬r = 0#w
      · simp only [eq_true hsign, true_and, if_true]
        by_cases hmin : q = cellMin w
        · cases checkDivision <;> simp [hmin, Except.toOption]
        · simp [hmin, Except.toOption]
      · simp only [eq_false hsign, false_and, not_false_eq_true, if_true, if_false, not_true_eq_false,
          and_false]
        rfl
    · obtain ⟨e, he⟩ := hasm.throws d n (.inr hfits)
      rw [he, if_neg (fun h => hfits h.2.2.1),
        if_neg (fun h => hfits (FitsCell.tdiv_of_fdiv hne h.2))]
      rfl

/-- The implementations of {lit}`fm/mod` differ exactly where an unchecked correction wraps. -/
theorem fmSlashModAsm_toOption_iff (hw : 0 < w)
    {um : BitVec (w + w) → BitVec w → Except Ball (BitVec (w + w))} (hum : UmdivExact um)
    {asm : BitVec (w + w) → BitVec w → Except Ball (BitVec w × BitVec w)} (hasm : AsmExact asm)
    (checkDivision : Bool) (d : BitVec (w + w)) (n : BitVec w) :
    (fmSlashModAsm asm checkDivision d n).toOption = (fmSlashMod um d n).toOption ↔
      checkDivision = true ∨ ¬FlooredWraps w d.toInt n.toInt := by
  rw [fmSlashModAsm_toOption hw hasm, fmSlashMod_toOption hum]
  split
  case isTrue h =>
    obtain ⟨hcheck, hwraps⟩ := h
    rw [flooredResult, if_neg (fun hfits => hwraps.2.2 hfits.2)]
    simp [hcheck, hwraps]
  case isFalse h =>
    simp only [true_iff]
    by_cases hcheck : checkDivision = true
    · exact .inl hcheck
    · exact .inr (fun hwraps => h ⟨by simpa using hcheck, hwraps⟩)

/-! ## Words that leave a part of the result -/

/-- {lit}`*/f` leaves the quotient of {lit}`*/modf`. -/
theorem starSlashF_eq (um : BitVec (w + w) → BitVec w → Except Ball (BitVec (w + w)))
    (n1 n2 n3 : BitVec w) :
    starSlashF um n1 n2 n3 = (starSlashModf um n1 n2 n3).map Prod.snd := by
  rw [starSlashF, starSlashModf, fmSlashMod]
  cases fmdiv um (mmul n1 n2) n3 <;> rfl

/-- {lit}`*/f` with the division of the machine leaves the quotient of {lit}`*/modf`. -/
theorem starSlashFAsm_eq (asm : BitVec (w + w) → BitVec w → Except Ball (BitVec w × BitVec w))
    (checkDivision : Bool) (n1 n2 n3 : BitVec w) :
    starSlashFAsm asm checkDivision n1 n2 n3 =
      (starSlashModfAsm asm checkDivision n1 n2 n3).map Prod.snd := by
  rw [starSlashFAsm, starSlashModfAsm, fmSlashModAsm]
  rcases asm (mmul n1 n2) n3 with e | ⟨r, q⟩
  · rfl
  · dsimp only
    split
    · split <;> rfl
    · rfl

/-- {lit}`/f` is the quotient of {lit}`/modf`. -/
theorem slashF_eq (c : CDivision w) (n1 n2 : BitVec w) :
    slashF c n1 n2 = (slashModf c n1 n2).map Prod.snd := by
  rw [slashF, slashModf]
  cases c.divide n1 n2 with
  | error e => rfl
  | ok r =>
    dsimp only
    split <;> rfl

/-- {lit}`modf` is the modulus of {lit}`/modf`. -/
theorem modf_eq (c : CDivision w) (n1 n2 : BitVec w) :
    modf c n1 n2 = (slashModf c n1 n2).map Prod.fst := by
  rw [modf, slashModf]
  cases c.divide n1 n2 with
  | error e => rfl
  | ok r =>
    dsimp only
    split <;> rfl

theorem toOption_map {α β : Type} (x : Except Ball α) (f : α → β) :
    (x.map f).toOption = x.toOption.map f := by
  cases x <;> rfl

/-! ## Division of single cells -/

/-- Dividing a cell by a cell, the correction does not wrap. -/
theorem not_flooredWraps_toInt (n1 n2 : BitVec w) : ¬FlooredWraps w n1.toInt n2.toInt := by
  rintro ⟨hn, hfits, hwraps⟩
  have hpair := fdiv_fmod_eq n1.toInt hn
  split at hpair
  case isTrue hsign =>
    obtain ⟨-, hdiv⟩ := Prod.mk.inj hpair
    have habs := tdiv_eq_natAbs n1.toInt n2.toInt
    rw [if_pos hsign.1] at habs
    -- an inexact division is by 2 or more
    have htwo : 2 ≤ n2.toInt.natAbs := by
      by_contra hlt
      refine hsign.2 ?_
      have hone : n2.toInt.natAbs = 1 := by omega
      have hmod := Int.natAbs_tmod n1.toInt n2.toInt
      rw [hone, Nat.mod_one] at hmod
      exact Int.natAbs_eq_zero.mp hmod
    have hhalf : n1.toInt.natAbs / n2.toInt.natAbs ≤ n1.toInt.natAbs / 2 :=
      Nat.div_le_div_left htwo (by omega)
    have hle1 := natAbs_toInt_le n1
    have hle2 := natAbs_toInt_le n2
    generalize n1.toInt.natAbs / n2.toInt.natAbs = magnitude at habs hhalf
    rw [FitsCell] at hfits hwraps
    omega
  case isFalse hsign =>
    obtain ⟨-, hdiv⟩ := Prod.mk.inj hpair
    rw [hdiv] at hwraps
    exact hwraps hfits

/-- The only quotient of cells that does not fit a cell. -/
theorem not_fitsCell_cellMin (hw : 0 < w) :
    ¬FitsCell w ((cellMin w).toInt.fdiv (-1#w : BitVec w).toInt) := by
  have hmin := toInt_cellMin hw
  have hpow : 2 ^ 1 ≤ 2 ^ w := Nat.pow_le_pow_right (by decide) hw
  have hone : (1#w).toNat = 1 := BitVec.toNat_one (by omega)
  have hneg : (-1#w : BitVec w).toInt = -1 := by
    rw [toInt_neg_of_le (by omega), hone]
    rfl
  rw [hneg]
  intro hfits
  have htdiv := FitsCell.tdiv_of_fdiv (by decide) hfits
  rw [Int.tdiv_neg, Int.tdiv_one, FitsCell] at htdiv
  omega

variable {n1 n2 : BitVec w}

/-- What C gives a meaning to is divided exactly, with or without checks. -/
theorem CDivision.divide_of_divides (c : CDivision w) (h : CDivides n1 n2) :
    c.divide n1 n2 = .ok (n1.sdiv n2, n1.srem n2) := by
  rw [CDivision.divide, CDivision.check, if_neg (fun hmin => h.2 hmin.2),
    if_neg (fun hzero => h.1 hzero.2)]
  exact c.exact n1 n2 h

/-- Other divisions throw if they are reported, and give some two cells otherwise. -/
theorem CDivision.divide_of_not_divides (c : CDivision w) (h : ¬CDivides n1 n2) :
    (∃ e, c.divide n1 n2 = .error e) ↔ c.Reports n1 n2 := by
  rw [CDivision.divide, CDivision.check, CDivision.Reports, or_iff_right h]
  cases hcheck : c.checkSw with
  | true =>
    refine iff_of_true ?_ (.inl rfl)
    by_cases hmin : n2 = -1#w ∧ n1 = cellMin w
    · exact ⟨_, by rw [if_pos ⟨rfl, hmin⟩]⟩
    · have hzero : n2 = 0#w := by
        by_contra hn
        exact h ⟨hn, hmin⟩
      exact ⟨_, by rw [if_neg (fun hmin' => hmin hmin'.2), if_pos ⟨rfl, hzero⟩]⟩
  | false => simp

/-- No floored quotient fits a cell where C does not divide. -/
theorem flooredResult_of_not_divides (hw : 0 < w) (h : ¬CDivides n1 n2) :
    flooredResult w n1.toInt n2.toInt = none := by
  by_cases hn : n2 = 0#w
  · rw [hn, flooredResult_zero]
  · have hmin : n2 = -1#w ∧ n1 = cellMin w := by
      by_contra hmin
      exact h ⟨hn, hmin⟩
    rw [hmin.1, hmin.2, flooredResult_of_not_fits (not_fitsCell_cellMin hw)]

/-- Where C divides, the result is corrected to the floored one. -/
theorem slashModf_of_divides (c : CDivision w) (h : CDivides n1 n2) :
    (slashModf c n1 n2).toOption = flooredResult w n1.toInt n2.toInt := by
  rw [slashModf, c.divide_of_divides h]
  have hq : (n1.sdiv n2).toInt = n1.toInt.tdiv n2.toInt := by
    refine BitVec.toInt_sdiv_of_ne_or_ne n1 n2 ?_
    have hmin := h.2
    rw [← cellMin_eq]
    tauto
  have hr := BitVec.toInt_srem n1 n2
  have hfits : FitsCell w (n1.toInt.fdiv n2.toInt) := by
    by_contra hwraps
    refine not_flooredWraps_toInt n1 n2 ⟨toInt_ne_zero h.1, ?_, hwraps⟩
    rw [← hq]
    exact fitsCell_toInt _
  rw [flooredResult_of_fits (toInt_ne_zero h.1) hfits, corrected_eq h.1 hr hq]
  simp only [xor_slt_zero_iff]
  split <;> rfl

/-- A reported division gives the floored result, or throws where there is none. -/
theorem slashModf_of_reports (hw : 0 < w) {c : CDivision w} (h : c.Reports n1 n2) :
    (slashModf c n1 n2).toOption = flooredResult w n1.toInt n2.toInt := by
  by_cases hdivides : CDivides n1 n2
  · exact slashModf_of_divides c hdivides
  · obtain ⟨e, he⟩ := (c.divide_of_not_divides hdivides).mpr h
    rw [slashModf, he, flooredResult_of_not_divides hw hdivides]
    rfl

/-- A division that is not reported has a result, although there is no floored one. -/
theorem slashModf_of_not_reports (hw : 0 < w) {c : CDivision w} (h : ¬c.Reports n1 n2) :
    flooredResult w n1.toInt n2.toInt = none ∧ ∃ r, slashModf c n1 n2 = .ok r := by
  have hdivides : ¬CDivides n1 n2 := fun hdivides => h (.inl hdivides)
  refine ⟨flooredResult_of_not_divides hw hdivides, ?_⟩
  rw [slashModf]
  cases hres : c.divide n1 n2 with
  | error e => exact absurd ((c.divide_of_not_divides hdivides).mp ⟨e, hres⟩) h
  | ok r =>
    dsimp only
    split <;> exact ⟨_, rfl⟩

theorem slashModf_toOption (hw : 0 < w) (n1 n2 : BitVec w) :
    (slashModf (.software w) n1 n2).toOption = flooredResult w n1.toInt n2.toInt :=
  slashModf_of_reports hw (.inr (.inl rfl))

/-! ## All words -/

section

variable (hw : 0 < w) {um : BitVec (w + w) → BitVec w → Except Ball (BitVec (w + w))}
  (hum : UmdivExact um)
  {asm : BitVec (w + w) → BitVec w → Except Ball (BitVec w × BitVec w)} (hasm : AsmExact asm)
  (checkDivision : Bool)

include hw hum hasm

/-- Where the results differ, the implementation with the instruction has a quotient and the
other one does not. -/
theorem starSlashFAsm_toOption_iff (n1 n2 n3 : BitVec w) :
    (starSlashFAsm asm checkDivision n1 n2 n3).toOption = (starSlashF um n1 n2 n3).toOption ↔
      checkDivision = true ∨ ¬FlooredWraps w (mmul n1 n2).toInt n3.toInt := by
  rw [starSlashFAsm_eq, starSlashF_eq, toOption_map, toOption_map, starSlashModfAsm, starSlashModf]
  constructor
  · intro h
    by_contra hcond
    obtain ⟨hcheck, hwraps⟩ := not_or.mp hcond
    rw [fmSlashModAsm_toOption hw hasm, fmSlashMod_toOption hum,
      if_pos ⟨by simpa using hcheck, not_not.mp hwraps⟩,
      flooredResult_of_not_fits (not_not.mp hwraps).2.2] at h
    cases h
  · intro h
    rw [(fmSlashModAsm_toOption_iff hw hum hasm checkDivision _ _).mpr h]

/-- A cell has the same floored result as the double with the same sign. -/
theorem fm_signExtend (n1 n2 : BitVec w) :
    ∀ fm ∈ [fmSlashMod um, fmSlashModAsm asm checkDivision],
      (fm (n1.signExtend (w + w)) n2).toOption = flooredResult w n1.toInt n2.toInt := by
  have hext : (n1.signExtend (w + w)).toInt = n1.toInt :=
    BitVec.toInt_signExtend_of_le (Nat.le_add_left w w)
  have hplain : (fmSlashMod um (n1.signExtend (w + w)) n2).toOption =
      flooredResult w n1.toInt n2.toInt := by
    rw [fmSlashMod_toOption hum, hext]
  have hcorrected := (fmSlashModAsm_toOption_iff hw hum hasm checkDivision
    (n1.signExtend (w + w)) n2).mpr (.inr (by rw [hext]; exact not_flooredWraps_toInt n1 n2))
  intro fm hfm
  rcases List.mem_cons.mp hfm with rfl | hfm
  · exact hplain
  · rw [List.mem_singleton.mp hfm]
    exact hcorrected.trans hplain

/-- The implementations agree on results and throws, except that the correction of the
instruction's result wraps where it is not checked and the floored quotient does not fit a
cell; division of a cell agrees with both where it is possible or reported to be not. -/
theorem flooredDivision_agree (c : CDivision w) :
    (∀ d n, (fmSlashModAsm asm checkDivision d n).toOption = (fmSlashMod um d n).toOption ↔
      checkDivision = true ∨ ¬FlooredWraps w d.toInt n.toInt) ∧
    (∀ n1 n2 n3, (starSlashModfAsm asm checkDivision n1 n2 n3).toOption =
        (starSlashModf um n1 n2 n3).toOption ↔
      checkDivision = true ∨ ¬FlooredWraps w (mmul n1 n2).toInt n3.toInt) ∧
    (∀ n1 n2 n3, (starSlashFAsm asm checkDivision n1 n2 n3).toOption =
        (starSlashF um n1 n2 n3).toOption ↔
      checkDivision = true ∨ ¬FlooredWraps w (mmul n1 n2).toInt n3.toInt) ∧
    ∀ n1 n2 : BitVec w, ∀ fm ∈ [fmSlashMod um, fmSlashModAsm asm checkDivision],
      ((slashModf c n1 n2).toOption = (fm (n1.signExtend (w + w)) n2).toOption ↔
        c.Reports n1 n2) ∧
      ((slashF c n1 n2).toOption = (fm (n1.signExtend (w + w)) n2).toOption.map Prod.snd ↔
        c.Reports n1 n2) ∧
      ((modf c n1 n2).toOption = (fm (n1.signExtend (w + w)) n2).toOption.map Prod.fst ↔
        c.Reports n1 n2) := by
  refine ⟨fmSlashModAsm_toOption_iff hw hum hasm checkDivision,
    fun n1 n2 n3 => fmSlashModAsm_toOption_iff hw hum hasm checkDivision _ _,
    starSlashFAsm_toOption_iff hw hum hasm checkDivision, ?_⟩
  intro n1 n2 fm hfm
  rw [fm_signExtend hw hum hasm checkDivision n1 n2 fm hfm, slashF_eq, modf_eq, toOption_map,
    toOption_map]
  by_cases hreports : c.Reports n1 n2
  · rw [slashModf_of_reports hw hreports]
    exact ⟨iff_of_true rfl hreports, iff_of_true rfl hreports, iff_of_true rfl hreports⟩
  · obtain ⟨hnone, r, hres⟩ := slashModf_of_not_reports hw hreports
    rw [hnone, hres]
    refine ⟨iff_of_false ?_ hreports, iff_of_false ?_ hreports, iff_of_false ?_ hreports⟩ <;>
      exact Option.some_ne_none _

end

/-- A division instruction. -/
def divideDouble (d : BitVec (w + w)) (n : BitVec w) : Except Ball (BitVec w × BitVec w) :=
  if n = 0#w then .error .divZero
  else if FitsCell w (d.toInt.tdiv n.toInt) then
    .ok (BitVec.ofInt w (d.toInt.tmod n.toInt), BitVec.ofInt w (d.toInt.tdiv n.toInt))
  else .error .resultRange

theorem toInt_ofInt_of_fits {n : Int} (hfits : FitsCell w n) : (BitVec.ofInt w n).toInt = n := by
  refine toInt_eq_of_modEq hfits ?_
  rw [BitVec.toInt_ofInt]
  exact bmod_modEq _ _

theorem divideDouble_exact : AsmExact (w := w) divideDouble := by
  constructor
  · intro d n h
    rw [divideDouble]
    split
    case isTrue => exact ⟨_, rfl⟩
    case isFalse hn => exact ⟨_, if_neg (h.resolve_left hn)⟩
  · intro d n hn hfits
    have hrem : FitsCell w (d.toInt.tmod n.toInt) := by
      have hmod := Int.natAbs_tmod d.toInt n.toInt
      have hlt : d.toInt.natAbs % n.toInt.natAbs < n.toInt.natAbs :=
        Nat.mod_lt _ (Int.natAbs_pos.mpr (toInt_ne_zero hn))
      have hle := natAbs_toInt_le n
      rw [FitsCell]
      omega
    refine ⟨_, _, ?_, toInt_ofInt_of_fits hfits, toInt_ofInt_of_fits hrem⟩
    rw [divideDouble, if_neg hn, if_pos hfits]

/-- Dividing 5 times 7 by -3 with 64-bit cells and without checks. -/
theorem flooredDivision_agree_64 :
    (starSlashModfAsm (w := 64) divideDouble false 5#64 7#64 (-3#64)).toOption =
        (starSlashModf umdiv 5#64 7#64 (-3#64)).toOption ↔
      false = true ∨ ¬FlooredWraps 64 (mmul 5#64 7#64).toInt (-3#64 : BitVec 64).toInt :=
  (flooredDivision_agree (by decide) umdiv_exact divideDouble_exact false (.software 64)).2.1 _ _ _

/-- Without checks, the quotient of -2{lit}`^`64 - 1 and 2 wraps. -/
theorem fmSlashModAsm_wraps :
    fmSlashModAsm (w := 64) divideDouble false (-0x10000000000000001#128) 2#64 =
        .ok (1#64, 0x7FFFFFFFFFFFFFFF#64) ∧
      fmSlashMod umdiv (-0x10000000000000001#128) 2#64 = .error .resultRange := by
  decide +kernel

end Arith
end Gforth
