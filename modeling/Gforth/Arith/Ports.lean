import Gforth.Arith.Fallbacks
import Gforth.Compile.Words

/-!
# Ports without primitives

The definitions in Forth against the C code that they replace, for all ways in which a port divides
doubles.

Main results:

- Theorem {lit}`colon_smSlashRem`: symmetric division by magnitudes and signs.
- Theorem {lit}`colon_fmSlashMod`: floored division by a bias.
- Theorem {lit}`fallbacks_agree_iff`: which definitions leave the same stack as the C code.
-/

namespace Gforth
namespace Arith

open Lib Stacks
open LongLong (flag flag_and)

variable {w : Nat}

/-! ## The C code -/

/-- The divisions of a port: {lit}`umdiv` or {lit}`ASM_UM_SLASH_MOD`, and {lit}`ASM_SM_SLASH_REM`
where the port has it -/
structure Port (w : Nat) where
  umdiv : BitVec (w + w) → BitVec w → Except Ball (BitVec (w + w))
  asmSmSlashRem : Option (BitVec (w + w) → BitVec w → Except Ball (BitVec w × BitVec w))
  checkDivision : Bool
  umdiv_exact : UmdivExact umdiv
  asmSmSlashRem_exact : ∀ asm ∈ asmSmSlashRem, AsmExact asm

namespace Port

variable (port : Port w)

/-- {lit}`fm/mod` -/
def fmSlashMod (d1 : BitVec (w + w)) (n1 : BitVec w) : Except Ball (BitVec w × BitVec w) :=
  match port.asmSmSlashRem with
  | some asm => fmSlashModAsm asm port.checkDivision d1 n1
  | none => Arith.fmSlashMod port.umdiv d1 n1

/-- {lit}`sm/rem` -/
def smSlashRem (d1 : BitVec (w + w)) (n1 : BitVec w) : Except Ball (BitVec w × BitVec w) :=
  match port.asmSmSlashRem with
  | some asm => asm d1 n1
  | none => Compile.halves (smdiv port.umdiv d1 n1)

/-- {lit}`*/f` -/
def starSlashF (n1 n2 n3 : BitVec w) : Except Ball (BitVec w) :=
  match port.asmSmSlashRem with
  | some asm => starSlashFAsm asm port.checkDivision n1 n2 n3
  | none => Arith.starSlashF port.umdiv n1 n2 n3

/-- {lit}`*/s` -/
def starSlashS (n1 n2 n3 : BitVec w) : Except Ball (BitVec w) :=
  match port.asmSmSlashRem with
  | some asm => (asm (mmul n1 n2) n3).map Prod.snd
  | none => Compile.lowHalf (smdiv port.umdiv (mmul n1 n2) n3)

end Port

/-- The primitives whose definitions in Forth are compared -/
inductive Fallback where
  | umStar | umSlashMod | mStar | fmSlashMod | smSlashRem
  | slashModf | slashMods | starSlashModf | starSlashMods | starSlashF | starSlashS
  | uSlashMod | uStarSlashMod | uStarSlash | duSlashMod
  | dPlus | dMinus | dnegate | mPlus | dTwoSlash
deriving DecidableEq

/-- The definition in Forth -/
def Fallback.forth : Fallback → Effect (BitVec w)
  | .umStar => Forth.umStar
  | .umSlashMod => Forth.umSlashMod
  | .mStar => Forth.mStar
  | .fmSlashMod => Forth.fmSlashMod
  | .smSlashRem => Forth.smSlashRem
  | .slashModf => Forth.slashModf
  | .slashMods => Forth.slashMods
  | .starSlashModf => Forth.starSlashModf
  | .starSlashMods => Forth.starSlashMods
  | .starSlashF => Forth.starSlashF
  | .starSlashS => Forth.starSlashS
  | .uSlashMod => Forth.uSlashMod
  | .uStarSlashMod => Forth.uStarSlashMod
  | .uStarSlash => Forth.uStarSlash
  | .duSlashMod => Forth.duSlashMod
  | .dPlus => Forth.dPlus
  | .dMinus => Forth.dMinus
  | .dnegate => Forth.dnegate
  | .mPlus => Forth.mPlus
  | .dTwoSlash => Forth.dTwoSlash

/-- The cells that a word leaves, with the top first, unless it throws -/
def leavesOne : Except Ball (BitVec w) → Option (List (BitVec w))
  | .error _ => none
  | .ok x => some [x]

/-- The same for two cells, of which the second one is the top -/
def leavesTwo : Except Ball (BitVec w × BitVec w) → Option (List (BitVec w))
  | .error _ => none
  | .ok (x1, x2) => some [x2, x1]

/-- The same for a double -/
def leavesDouble (d : BitVec (w + w)) : Option (List (BitVec w)) :=
  some [dhi d, dlo d]

/-- A word that takes two cells -/
def takesTwo (f : BitVec w → BitVec w → Option (List (BitVec w))) :
    List (BitVec w) → Option (List (BitVec w))
  | [x2, x1] => f x1 x2
  | _ => none

/-- A word that takes three cells -/
def takesThree (f : BitVec w → BitVec w → BitVec w → Option (List (BitVec w))) :
    List (BitVec w) → Option (List (BitVec w))
  | [x3, x2, x1] => f x1 x2 x3
  | _ => none

/-- A word that takes two doubles -/
def takesDoubles (f : BitVec (w + w) → BitVec (w + w) → Option (List (BitVec w))) :
    List (BitVec w) → Option (List (BitVec w))
  | [hi2, lo2, hi1, lo1] => f (twoCell lo1 hi1) (twoCell lo2 hi2)
  | _ => none

/-- What the C code leaves of the arguments, which have the top first; the divisions of single
cells are checked by software. -/
def Port.code (port : Port w) : Fallback → List (BitVec w) → Option (List (BitVec w))
  | .umStar => takesTwo fun u1 u2 => leavesDouble (ummul u1 u2)
  | .umSlashMod => takesThree fun lo hi u1 => leavesTwo (umSlashMod port.umdiv lo hi u1)
  | .mStar => takesTwo fun n1 n2 => leavesDouble (mmul n1 n2)
  | .fmSlashMod => takesThree fun lo hi n1 => leavesTwo (port.fmSlashMod (twoCell lo hi) n1)
  | .smSlashRem => takesThree fun lo hi n1 => leavesTwo (port.smSlashRem (twoCell lo hi) n1)
  | .slashModf => takesTwo fun n1 n2 => leavesTwo (slashModf (.software w) n1 n2)
  | .slashMods => takesTwo fun n1 n2 => leavesTwo (Compile.slashMods n1 n2)
  | .starSlashModf => takesThree fun n1 n2 n3 => leavesTwo (port.fmSlashMod (mmul n1 n2) n3)
  | .starSlashMods => takesThree fun n1 n2 n3 => leavesTwo (port.smSlashRem (mmul n1 n2) n3)
  | .starSlashF => takesThree fun n1 n2 n3 => leavesOne (port.starSlashF n1 n2 n3)
  | .starSlashS => takesThree fun n1 n2 n3 => leavesOne (port.starSlashS n1 n2 n3)
  | .uSlashMod => takesTwo fun u1 u2 => leavesTwo (Compile.uSlashMod u1 u2)
  | .uStarSlashMod => takesThree fun u1 u2 u3 =>
      leavesTwo (Compile.halves (port.umdiv (ummul u1 u2) u3))
  | .uStarSlash => takesThree fun u1 u2 u3 =>
      leavesOne (Compile.lowHalf (port.umdiv (ummul u1 u2) u3))
  | .duSlashMod => takesThree fun lo hi u => leavesTwo (duSlashMod port.umdiv (twoCell lo hi) u)
  | .dPlus => takesDoubles fun ud1 ud2 => leavesDouble (ud1 + ud2)
  | .dMinus => takesDoubles fun d1 d2 => leavesDouble (d1 - d2)
  | .dnegate => takesTwo fun lo hi => leavesDouble (-twoCell lo hi)
  | .mPlus => takesThree fun lo hi n => leavesDouble (twoCell lo hi + n.signExtend (w + w))
  | .dTwoSlash => takesTwo fun lo hi => leavesDouble ((twoCell lo hi).sshiftRight 1)

/-- Unless the C code throws, the definition in Forth leaves the same on any stacks. -/
def Agrees (f : Effect (BitVec w)) (code : List (BitVec w) → Option (List (BitVec w)))
    (args : List (BitVec w)) : Prop :=
  ∀ res, code args = some res → ∀ d r, f ⟨args ++ d, r⟩ = some ⟨res ++ d, r⟩

/-! ## Signed multiplication -/

/-- The unsigned product is corrected for negative factors. -/
theorem dhi_mmul (n1 n2 : BitVec w) :
    dhi (ummul n1 n2) - (if n1.slt 0#w then n2 else 0#w) - (if n2.slt 0#w then n1 else 0#w) =
        dhi (mmul n1 n2) ∧
      dlo (ummul n1 n2) = dlo (mmul n1 n2) := by
  have hif : ∀ (b : Bool) (n : BitVec w), ((if b then n else 0#w).toNat : Int) = b.toNat * n.toNat := by
    intro b n
    cases b <;> simp
  have hproduct : (((ummul n1 n2).toNat : Nat) : Int) = n1.toNat * n2.toNat := by
    rw [toNat_ummul, Nat.cast_mul]
  have hsplit := congrArg (Nat.cast : Nat → Int) (toNat_dhi_dlo (ummul n1 n2))
  have hsigned : ((mmul n1 n2).toNat : Int) ≡
      n1.toNat * n2.toNat - ((n1.slt 0#w).toNat * n2.toNat + (n2.slt 0#w).toNat * n1.toNat) *
        (2 ^ w : Nat) [ZMOD (2 ^ (w + w) : Nat)] := by
    refine (toNat_mul_modEq _ _).trans (((LongLong.toNat_signExtend_modEq n1).mul
      (LongLong.toNat_signExtend_modEq n2)).trans ?_)
    rw [two_pow_add_self w]
    refine Int.modEq_iff_dvd.mpr ⟨-((n1.slt 0#w).toNat * (n2.slt 0#w).toNat), ?_⟩
    push_cast
    ring
  have hmmul : twoCell (dlo (ummul n1 n2)) (dhi (ummul n1 n2) - (if n1.slt 0#w then n2 else 0#w) -
      (if n2.slt 0#w then n1 else 0#w)) = mmul n1 n2 := by
    refine twoCell_eq ((toNat_sub_modEq _ _).trans ((toNat_sub_modEq _ _).sub_right _)) hsigned ?_
    rw [hif, hif]
    push_cast at hsplit ⊢
    linear_combination hproduct - hsplit
  constructor
  · rw [← hmmul, dhi_twoCell]
  · rw [← hmmul, dlo_twoCell]

theorem and_flag (b : Bool) (u : BitVec w) : u &&& flag b = if b then u else 0#w := by
  rw [BitVec.and_comm, flag_and]

/-! ## Unsigned division -/

/-- There is only one exact unsigned division. -/
theorem UmdivExact.eq_umdiv {um : BitVec (w + w) → BitVec w → Except Ball (BitVec (w + w))}
    (hum : UmdivExact um) : um = umdiv := by
  funext u v
  by_cases hv : v = 0#w
  · rw [hv, hum.divZero, umdiv_exact.divZero]
  by_cases hle : v ≤ dhi u
  · rw [hum.resultRange u v hv hle, umdiv_exact.resultRange u v hv hle]
  obtain ⟨res, hres, hq, hr⟩ := hum.exact u v hv (BitVec.not_le.mp hle)
  obtain ⟨res', hres', hq', hr'⟩ := umdiv_exact.exact u v hv (BitVec.not_le.mp hle)
  have hlo : dlo res = dlo res' := BitVec.eq_of_toNat_eq (by rw [hq, hq'])
  have hhi : dhi res = dhi res' := BitVec.eq_of_toNat_eq (by rw [hr, hr'])
  rw [hres, hres', ← twoCell_halves res, ← twoCell_halves res', hlo, hhi]

/-- A result of {lit}`umdiv` comes from its loop. -/
theorem umdivLoop_of_ok {u res : BitVec (w + w)} {v : BitVec w} (h : umdiv u v = .ok res) :
    umdivLoop v w 0#w (dhi u) (dlo u) 0#w = (dlo res, dhi res) := by
  rw [umdiv] at h
  split at h
  · cases h
  split at h
  · cases h
  · obtain rfl := Except.ok.inj h
    rw [dlo_twoCell, dhi_twoCell]

/-! ## Floored division by a bias -/

theorem ofInt_of_modEq {x : BitVec w} {n : Int} (h : n ≡ x.toNat [ZMOD (2 ^ w : Nat)]) :
    BitVec.ofInt w n = x := by
  refine BitVec.eq_of_toNat_eq ?_
  rw [BitVec.toNat_ofInt, h.eq, ← Int.natCast_emod, Int.toNat_natCast, Nat.mod_eq_of_lt x.isLt]

/-- The division of the dividend with the sign of the divisor by the magnitude of the divisor -/
theorem duSlashMod_of_fits {num : BitVec (w + w)} {n : BitVec w} (hn : n ≠ 0#w)
    (hfits : FitsCell w (num.toInt.tdiv n.toInt)) :
    ∃ rem quot : BitVec w,
      duSlashMod umdiv (if n.slt 0#w then -num else num) (if n.slt 0#w then -n else n) =
        .ok (rem, quot) ∧
      BitVec.ofInt w (num.toInt.fdiv n.toInt) = quot ∧
      BitVec.ofInt w (num.toInt.fmod n.toInt) = if n.slt 0#w then -rem else rem := by
  have hne := abs_ne_zero hn
  have habs := toNat_abs n
  have hle := natAbs_toInt_le n
  have hposn := toNat_pos hne
  have hpos := Nat.two_pow_pos w
  -- the dividend is in the range of the unsigned division
  have hsmall : num.toInt.natAbs < 2 ^ w * n.toInt.natAbs := by
    have hquot : num.toInt.natAbs / n.toInt.natAbs < 2 ^ w := by
      rw [FitsCell, tdiv_eq_natAbs] at hfits
      split at hfits <;> omega
    rwa [Nat.div_lt_iff_lt_mul (by omega)] at hquot
  have hvalue : (if n.slt 0#w then -num else num).toInt =
      if n.toInt < 0 then -num.toInt else num.toInt := by
    simp only [slt_zero_iff]
    split
    · rcases toInt_neg_double num with hneg | ⟨-, hmin⟩
      · exact hneg
      · have hmul := Nat.mul_le_mul_left (2 ^ w) hle
        rw [two_pow_add_self] at hmin
        rw [Nat.mul_left_comm] at hmul
        omega
    · rfl
  obtain ⟨hfdiv, hfmod⟩ := fdiv_eq_ediv_natAbs (n := num.toInt) (toInt_ne_zero hn)
  rw [← hvalue, ← habs] at hfdiv
  have hcast : ((2 ^ w : Nat) : Int) * (n.toInt.natAbs : Int) = (2 ^ w * n.toInt.natAbs : Nat) :=
    (Nat.cast_mul _ _).symm
  rcases duSlashMod_spec umdiv_exact (if n.slt 0#w then -num else num) hne with
    ⟨hrange, -⟩ | ⟨-, rem, quot, hres, hrem, hquot⟩
  · rw [hvalue, habs, hcast] at hrange
    split at hrange <;> omega
  · refine ⟨rem, quot, hres, ?_, ?_⟩
    · refine ofInt_of_modEq ?_
      rw [hfdiv, hquot]
      generalize (if n.slt 0#w then -num else num).toInt = d
      by_cases hneg : d < 0
      · rw [if_pos hneg]
        exact Int.modEq_iff_dvd.mpr ⟨1, by ring⟩
      · rw [if_neg hneg, Nat.cast_zero, Int.add_zero]
    · rw [hvalue, habs] at hrem
      refine ofInt_of_modEq ?_
      rw [hfmod]
      simp only [slt_zero_iff]
      split
      case isTrue hneg =>
        rw [if_pos hneg] at hrem
        rw [← hrem]
        exact (toNat_neg_modEq rem).symm
      case isFalse hneg =>
        rw [if_neg hneg] at hrem
        rw [← hrem]

section Words

variable (hw : 1 < w) (d r : List (BitVec w)) (p : List (Effect (BitVec w)))
include hw

/-- {lit}`um/mod` gives what the primitive gives where it does not throw. -/
theorem colon_umSlashMod_of_ok {lo hi v : BitVec w} {res : BitVec (w + w)}
    (h : umdiv (twoCell lo hi) v = .ok res) :
    colon (Forth.umSlashMod :: p) ⟨v :: hi :: lo :: d, r⟩ =
      colon p ⟨dlo res :: dhi res :: d, r⟩ := by
  have hloop := umdivLoop_of_ok h
  rw [dhi_twoCell, dlo_twoCell] at hloop
  rw [colon_umSlashMod hw, hloop]

/-- Division by a biased dividend -/
theorem colon_duSlashMod {lo hi u rem quot : BitVec w}
    (h : duSlashMod umdiv (twoCell lo hi) u = .ok (rem, quot)) :
    colon (toR :: dup :: Forth.zeroLess :: rFetch :: binary (· &&& ·) :: binary (· + ·) :: fromR ::
        Forth.umSlashMod :: p) ⟨u :: hi :: lo :: d, r⟩ = colon p ⟨quot :: rem :: d, r⟩ := by
  rw [duSlashMod, dlo_twoCell, dhi_twoCell] at h
  simp only [colon_toR, colon_dup, colon_zeroLess, colon_rFetch, colon_binary, colon_fromR]
  cases hres : umdiv (twoCell lo (hi + (flag (hi.slt 0#w) &&& u))) u with
  | error e =>
    rw [hres] at h
    cases h
  | ok res =>
    rw [hres] at h
    obtain ⟨rfl, rfl⟩ := Prod.mk.inj (Except.ok.inj h)
    rw [colon_umSlashMod_of_ok hw d r p hres]

/-- {lit}`m*` multiplies signed cells. -/
theorem colon_mStar (n1 n2 : BitVec w) :
    colon (Forth.mStar :: p) ⟨n2 :: n1 :: d, r⟩ =
      colon p ⟨dhi (mmul n1 n2) :: dlo (mmul n1 n2) :: d, r⟩ := by
  obtain ⟨hhi, hlo⟩ := dhi_mmul n1 n2
  have hpos : 0 < w := by omega
  rw [← hhi, ← hlo, Forth.mStar, colon_word]
  simp [colon_umStar hpos, and_flag]

/-! ## Symmetric division -/

/-- The magnitudes are divided; the signs follow. -/
theorem colon_smSlashRem {lo hi n : BitVec w} {ures : BitVec (w + w)}
    (h : umdiv (if hi.slt 0#w then -twoCell lo hi else twoCell lo hi)
      (if n.slt 0#w then -n else n) = .ok ures) :
    colon (Forth.smSlashRem :: p) ⟨n :: hi :: lo :: d, r⟩ =
      colon p ⟨(if (hi ^^^ n).slt 0#w then -dlo ures else dlo ures) ::
        (if hi.slt 0#w then -dhi ures else dhi ures) :: d, r⟩ := by
  have hpos : 0 < w := by omega
  rw [← twoCell_halves (if hi.slt 0#w then -twoCell lo hi else twoCell lo hi)] at h
  rw [Forth.smSlashRem, colon_word]
  simp only [List.cons_append, List.nil_append, colon_over, colon_toR, colon_dup, colon_abs,
    colon_notRot, colon_dabs hpos, colon_rot]
  rw [colon_umSlashMod_of_ok hw _ _ _ h]
  simp only [colon_fromR, colon_rFetch, colon_binary, colon_zeroLess, colon_ifThen_flag _ _ _ hpos,
    BitVec.xor_comm n hi]
  cases (hi ^^^ n).slt 0#w <;> cases hsign : hi.slt 0#w <;>
    simp [colon_ifThen_flag _ _ _ hpos, hsign]

/-- {lit}`sm/rem` gives what the primitive gives where it does not throw. -/
theorem colon_smSlashRem_of_ok {lo hi n : BitVec w} {res : BitVec (w + w)}
    (h : smdiv umdiv (twoCell lo hi) n = .ok res) :
    colon (Forth.smSlashRem :: p) ⟨n :: hi :: lo :: d, r⟩ =
      colon p ⟨dlo res :: dhi res :: d, r⟩ := by
  rw [smdiv, dhi_twoCell] at h
  dsimp only at h
  split at h
  · cases h
  rename_i ures hures
  rw [colon_smSlashRem hw d r p hures]
  split at h
  · rename_i hsign
    split at h
    · cases h
    · obtain rfl := Except.ok.inj h
      rw [dlo_twoCell, dhi_twoCell, if_pos hsign]
  · rename_i hsign
    split at h
    · cases h
    · obtain rfl := Except.ok.inj h
      rw [dlo_twoCell, dhi_twoCell, if_neg hsign]

/-! ## Floored division -/

/-- Wherever the truncated quotient fits a cell, the floored one is left, wrapped if necessary. -/
theorem colon_fmSlashMod {lo hi n : BitVec w} (hn : n ≠ 0#w)
    (hfits : FitsCell w ((twoCell lo hi).toInt.tdiv n.toInt)) :
    colon (Forth.fmSlashMod :: p) ⟨n :: hi :: lo :: d, r⟩ =
      colon p ⟨(flooredCells w (twoCell lo hi).toInt n.toInt).2 ::
        (flooredCells w (twoCell lo hi).toInt n.toInt).1 :: d, r⟩ := by
  have hpos : 0 < w := by omega
  obtain ⟨rem, quot, hdiv, hquot, hrem⟩ := duSlashMod_of_fits hn hfits
  have hprogram : colon (Forth.fmSlashMod :: p) ⟨n :: hi :: lo :: d, r⟩ =
      colon (fromR :: Forth.zeroLess :: Forth.ifThen [swap, unary (-·), swap] [] :: p)
        ⟨quot :: rem :: d, n :: r⟩ := by
    rw [Forth.fmSlashMod, colon_word]
    simp only [List.cons_append, List.nil_append, colon_dup, colon_toR, colon_zeroLess,
      colon_ifThen_flag _ _ _ hpos]
    cases hsign : n.slt 0#w with
    | false =>
      rw [hsign, if_neg Bool.false_ne_true, if_neg Bool.false_ne_true] at hdiv
      rw [if_neg Bool.false_ne_true]
      exact colon_duSlashMod hw d _ _ hdiv
    | true =>
      rw [hsign, if_pos rfl, if_pos rfl, ← twoCell_halves (-twoCell lo hi)] at hdiv
      rw [if_pos rfl]
      simp only [colon_unary, colon_toR, colon_dnegate, colon_fromR]
      exact colon_duSlashMod hw d _ _ hdiv
  rw [hprogram]
  simp only [colon_fromR, colon_zeroLess, colon_ifThen_flag _ _ _ hpos, flooredCells, hquot, hrem]
  cases n.slt 0#w <;> simp

end Words

/-! ## Results of the C code -/

/-- A quotient and a remainder are those of {lit}`smdiv`. -/
theorem smdiv_of_exact {num : BitVec (w + w)} {n r q : BitVec w} (hn : n ≠ 0#w)
    (hq : q.toInt = num.toInt.tdiv n.toInt) (hr : r.toInt = num.toInt.tmod n.toInt) :
    smdiv umdiv num n = .ok (twoCell q r) := by
  obtain ⟨res, hres, hlo, hhi⟩ := (smdiv_exact umdiv_exact).exact num n hn
    (by rw [← hq]; exact fitsCell_toInt q)
  have hlo' : dlo res = q := BitVec.eq_of_toInt_eq (by rw [hlo, hq])
  have hhi' : dhi res = r := BitVec.eq_of_toInt_eq (by rw [hhi, hr])
  rw [hres, ← hlo', ← hhi', twoCell_halves]

/-- {lit}`/mods` as a division of a sign-extended cell -/
theorem smdiv_of_slashMods {n1 n2 r q : BitVec w} (h : Compile.slashMods n1 n2 = .ok (r, q)) :
    smdiv umdiv (n1.signExtend (w + w)) n2 = .ok (twoCell q r) := by
  have hext : (n1.signExtend (w + w)).toInt = n1.toInt := toInt_signExtend_double n1
  rw [Compile.slashMods] at h
  by_cases hdivides : CDivides n1 n2
  · rw [CDivision.divide_of_divides _ hdivides] at h
    obtain ⟨rfl, rfl⟩ := Prod.mk.inj (Except.ok.inj h)
    refine smdiv_of_exact hdivides.1 ?_ ?_
    · rw [hext]
      refine BitVec.toInt_sdiv_of_ne_or_ne n1 n2 ?_
      have hmin := hdivides.2
      rw [← cellMin_eq]
      tauto
    · rw [hext]
      exact BitVec.toInt_srem n1 n2
  · obtain ⟨e, he⟩ := ((CDivision.software w).divide_of_not_divides hdivides).mpr (.inr (.inl rfl))
    rw [he] at h
    cases h

/-- {lit}`u/mod` as a division of a cell with the high cell 0 -/
theorem umdiv_of_uSlashMod {u1 u2 r q : BitVec w} (h : Compile.uSlashMod u1 u2 = .ok (r, q)) :
    umdiv (twoCell u1 0#w) u2 = .ok (twoCell q r) := by
  rw [Compile.uSlashMod] at h
  split at h
  · cases h
  rename_i hu
  obtain ⟨rfl, rfl⟩ := Prod.mk.inj (Except.ok.inj h)
  have hhigh : dhi (twoCell u1 0#w) < u2 := by
    rw [dhi_twoCell, BitVec.lt_def, BitVec.toNat_zero]
    exact toNat_pos hu
  obtain ⟨res, hres, hq, hr⟩ := umdiv_exact.exact _ u2 hu hhigh
  rw [toNat_twoCell, BitVec.toNat_zero, Nat.zero_mul, Nat.zero_add] at hq hr
  have hlo : dlo res = u1 / u2 := BitVec.eq_of_toNat_eq (by rw [hq, BitVec.toNat_udiv])
  have hhi : dhi res = u1 % u2 := BitVec.eq_of_toNat_eq (by rw [hr, BitVec.toNat_umod])
  rw [hres, ← hlo, ← hhi, twoCell_halves]

/-- What is known of a floored result -/
theorem flooredResult_eq_some {d n : Int} {res : BitVec w × BitVec w}
    (h : flooredResult w d n = some res) :
    n ≠ 0 ∧ FitsCell w (d.tdiv n) ∧ flooredCells w d n = res := by
  rw [flooredResult] at h
  split at h
  · rename_i hfits
    exact ⟨hfits.1, FitsCell.tdiv_of_fdiv hfits.1 hfits.2, Option.some.inj h⟩
  · cases h

theorem toInt_eq_zero_of_eq {n : BitVec w} (hn : n.toInt ≠ 0) : n ≠ 0#w := by
  rintro rfl
  exact hn BitVec.toInt_zero

/-- A result as an option -/
theorem toOption_eq_some {α : Type} {x : Except Ball α} {a : α} (h : x = .ok a) :
    x.toOption = some a := by
  rw [h]
  rfl

namespace Port

variable (port : Port w)

/-- A floored division that does not throw has a quotient that fits. -/
theorem fmSlashMod_of_ok (hw : 0 < w) {d : BitVec (w + w)} {n : BitVec w}
    {res : BitVec w × BitVec w} (h : port.fmSlashMod d n = .ok res) :
    n.toInt ≠ 0 ∧ FitsCell w (d.toInt.tdiv n.toInt) ∧ flooredCells w d.toInt n.toInt = res := by
  rw [fmSlashMod] at h
  split at h
  · rename_i asm hasm
    have hres := toOption_eq_some h
    rw [fmSlashModAsm_toOption hw (port.asmSmSlashRem_exact asm hasm)] at hres
    split at hres
    · rename_i hwraps
      exact ⟨hwraps.2.1, hwraps.2.2.1, Option.some.inj hres⟩
    · exact flooredResult_eq_some hres
  · have hres := toOption_eq_some h
    rw [fmSlashMod_toOption port.umdiv_exact] at hres
    exact flooredResult_eq_some hres

/-- A symmetric division that does not throw -/
theorem smSlashRem_of_ok {d : BitVec (w + w)} {n r q : BitVec w}
    (h : port.smSlashRem d n = .ok (r, q)) : smdiv Arith.umdiv d n = .ok (twoCell q r) := by
  rw [smSlashRem] at h
  split at h
  · rename_i asm hasm
    have hexact := port.asmSmSlashRem_exact asm hasm
    by_cases hthrows : n = 0#w ∨ ¬FitsCell w (d.toInt.tdiv n.toInt)
    · obtain ⟨e, he⟩ := hexact.throws d n hthrows
      rw [he] at h
      cases h
    · obtain ⟨hn, hfits⟩ := not_or.mp hthrows
      obtain ⟨r', q', hres, hq, hr⟩ := hexact.exact d n hn (not_not.mp hfits)
      rw [hres] at h
      obtain ⟨rfl, rfl⟩ := Prod.mk.inj (Except.ok.inj h)
      exact smdiv_of_exact hn hq hr
  · rw [port.umdiv_exact.eq_umdiv] at h
    cases hres : smdiv Arith.umdiv d n with
    | error e =>
      rw [hres] at h
      cases h
    | ok res =>
      rw [hres] at h
      obtain ⟨rfl, rfl⟩ := Prod.mk.inj (Except.ok.inj h)
      rw [twoCell_halves]

/-- {lit}`*/f` is {lit}`fm/mod` of the product. -/
theorem starSlashF_eq (n1 n2 n3 : BitVec w) :
    port.starSlashF n1 n2 n3 = (port.fmSlashMod (mmul n1 n2) n3).map Prod.snd := by
  rw [starSlashF, fmSlashMod]
  cases port.asmSmSlashRem with
  | none => exact Arith.starSlashF_eq port.umdiv n1 n2 n3
  | some asm => exact starSlashFAsm_eq asm port.checkDivision n1 n2 n3

/-- {lit}`*/s` is {lit}`sm/rem` of the product. -/
theorem starSlashS_eq (n1 n2 n3 : BitVec w) :
    port.starSlashS n1 n2 n3 = (port.smSlashRem (mmul n1 n2) n3).map Prod.snd := by
  rw [starSlashS, smSlashRem]
  cases port.asmSmSlashRem with
  | none =>
    dsimp only
    cases smdiv port.umdiv (mmul n1 n2) n3 <;> rfl
  | some asm => rfl

end Port

/-! ## Agreement -/

section Agreement

variable {f : Effect (BitVec w)}

/-- A primitive that leaves one cell -/
theorem leavesOne_eq_some {x : Except Ball (BitVec w)} {res : List (BitVec w)}
    (h : leavesOne x = some res) : ∃ x1, x = .ok x1 ∧ res = [x1] := by
  cases x with
  | error e => cases h
  | ok x1 => exact ⟨x1, rfl, (Option.some.inj h).symm⟩

/-- A primitive that leaves two cells -/
theorem leavesTwo_eq_some {x : Except Ball (BitVec w × BitVec w)} {res : List (BitVec w)}
    (h : leavesTwo x = some res) : ∃ x1 x2, x = .ok (x1, x2) ∧ res = [x2, x1] := by
  rcases x with e | ⟨x1, x2⟩
  · cases h
  · exact ⟨x1, x2, rfl, (Option.some.inj h).symm⟩

/-- Words that consume two cells agree with their primitives. -/
theorem agrees_takesTwo {g : BitVec w → BitVec w → Option (List (BitVec w))}
    (h : ∀ x1 x2 res, g x1 x2 = some res →
      ∀ d r, colon [f] ⟨x2 :: x1 :: d, r⟩ = some ⟨res ++ d, r⟩) (args : List (BitVec w)) :
    Agrees f (takesTwo g) args := by
  intro res hres d r
  unfold takesTwo at hres
  split at hres
  · rw [← h _ _ _ hres d r, colon_single]
    rfl
  · cases hres

/-- Words that consume three cells agree with their primitives. -/
theorem agrees_takesThree {g : BitVec w → BitVec w → BitVec w → Option (List (BitVec w))}
    (h : ∀ x1 x2 x3 res, g x1 x2 x3 = some res →
      ∀ d r, colon [f] ⟨x3 :: x2 :: x1 :: d, r⟩ = some ⟨res ++ d, r⟩) (args : List (BitVec w)) :
    Agrees f (takesThree g) args := by
  intro res hres d r
  unfold takesThree at hres
  split at hres
  · rw [← h _ _ _ _ hres d r, colon_single]
    rfl
  · cases hres

/-- Words that consume two doubles agree with their primitives. -/
theorem agrees_takesDoubles {g : BitVec (w + w) → BitVec (w + w) → BitVec (w + w)}
    (h : ∀ lo1 hi1 lo2 hi2 d r, colon [f] ⟨hi2 :: lo2 :: hi1 :: lo1 :: d, r⟩ =
      some ⟨dhi (g (twoCell lo1 hi1) (twoCell lo2 hi2)) ::
        dlo (g (twoCell lo1 hi1) (twoCell lo2 hi2)) :: d, r⟩) (args : List (BitVec w)) :
    Agrees f (takesDoubles fun d1 d2 => leavesDouble (g d1 d2)) args := by
  intro res hres d r
  unfold takesDoubles at hres
  split at hres
  · obtain rfl := Option.some.inj hres
    rw [← colon_single f]
    exact h _ _ _ _ d r
  · cases hres

/-- The second part of a result that does not throw -/
theorem map_snd_eq_ok {x : Except Ball (BitVec w × BitVec w)} {q : BitVec w}
    (h : x.map Prod.snd = .ok q) : ∃ r, x = .ok (r, q) := by
  rcases x with e | ⟨r, q'⟩
  · cases h
  · exact ⟨r, by rw [← Except.ok.inj h]⟩

/-- Both halves of a result that does not throw -/
theorem halves_eq_ok {x : Except Ball (BitVec (w + w))} {r q : BitVec w}
    (h : Compile.halves x = .ok (r, q)) : x = .ok (twoCell q r) := by
  cases x with
  | error e => cases h
  | ok d =>
    obtain ⟨rfl, rfl⟩ := Prod.mk.inj (Except.ok.inj h)
    rw [twoCell_halves]

variable (hw : 1 < w) (port : Port w)
include hw

/-- {lit}`fm/mod` gives what the primitive gives where it does not throw. -/
theorem colon_fmSlashMod_of_ok {lo hi n r q : BitVec w}
    (h : port.fmSlashMod (twoCell lo hi) n = .ok (r, q)) (s t : List (BitVec w)) :
    colon [Forth.fmSlashMod] ⟨n :: hi :: lo :: s, t⟩ = some ⟨q :: r :: s, t⟩ := by
  obtain ⟨hn, hfits, hres⟩ := port.fmSlashMod_of_ok (by omega) h
  rw [colon_fmSlashMod hw s t [] (toInt_eq_zero_of_eq hn) hfits, hres, colon_nil]

theorem colon_smSlashRem_of_port {lo hi n r q : BitVec w}
    (h : port.smSlashRem (twoCell lo hi) n = .ok (r, q)) (s t : List (BitVec w)) :
    colon [Forth.smSlashRem] ⟨n :: hi :: lo :: s, t⟩ = some ⟨q :: r :: s, t⟩ := by
  rw [colon_smSlashRem_of_ok hw s t [] (port.smSlashRem_of_ok h), dlo_twoCell, dhi_twoCell, colon_nil]

/-- {lit}`um/mod` gives the two cells of the primitive where it does not throw. -/
theorem colon_umSlashMod_of_port {lo hi u r q : BitVec w}
    (h : umSlashMod port.umdiv lo hi u = .ok (r, q)) (s t : List (BitVec w)) :
    colon [Forth.umSlashMod] ⟨u :: hi :: lo :: s, t⟩ = some ⟨q :: r :: s, t⟩ := by
  rw [port.umdiv_exact.eq_umdiv, umSlashMod] at h
  split at h
  · cases h
  · rename_i res hres
    obtain ⟨rfl, rfl⟩ := Prod.mk.inj (Except.ok.inj h)
    rw [colon_umSlashMod_of_ok hw s t [] hres, colon_nil]

/-- The words for cells divide the double with the same sign. -/
theorem colon_slashModf {n1 n2 r q : BitVec w} (h : slashModf (.software w) n1 n2 = .ok (r, q))
    (s t : List (BitVec w)) :
    colon [Forth.slashModf] ⟨n2 :: n1 :: s, t⟩ = some ⟨q :: r :: s, t⟩ := by
  have hres := toOption_eq_some h
  rw [slashModf_toOption (by omega)] at hres
  obtain ⟨hn, hfits, hcells⟩ := flooredResult_eq_some hres
  have hext : (twoCell n1 (flag (n1.slt 0#w))).toInt = n1.toInt := by
    rw [twoCell_sign, toInt_signExtend_double]
  rw [← hext] at hfits hcells
  rw [Forth.slashModf, colon_word]
  simp only [List.cons_append, List.nil_append, colon_toR, colon_sToD, colon_fromR]
  rw [colon_fmSlashMod hw s t [] (toInt_eq_zero_of_eq hn) hfits, hcells, colon_nil]

/-- {lit}`/mods` gives what the primitive gives where it does not throw. -/
theorem colon_slashMods {n1 n2 r q : BitVec w} (h : Compile.slashMods n1 n2 = .ok (r, q))
    (s t : List (BitVec w)) :
    colon [Forth.slashMods] ⟨n2 :: n1 :: s, t⟩ = some ⟨q :: r :: s, t⟩ := by
  have hres := smdiv_of_slashMods h
  rw [← twoCell_sign] at hres
  rw [Forth.slashMods, colon_word]
  simp only [List.cons_append, List.nil_append, colon_toR, colon_sToD, colon_fromR]
  rw [colon_smSlashRem_of_ok hw s t [] hres, dlo_twoCell, dhi_twoCell, colon_nil]

/-- {lit}`*/modf` gives what the primitive gives where it does not throw. -/
theorem colon_starSlashModf {n1 n2 n3 r q : BitVec w}
    (h : port.fmSlashMod (mmul n1 n2) n3 = .ok (r, q)) (s t : List (BitVec w)) :
    colon [Forth.starSlashModf] ⟨n3 :: n2 :: n1 :: s, t⟩ = some ⟨q :: r :: s, t⟩ := by
  rw [← twoCell_halves (mmul n1 n2)] at h
  rw [Forth.starSlashModf, colon_word]
  simp only [List.cons_append, List.nil_append, colon_toR, colon_mStar hw, colon_fromR]
  exact colon_fmSlashMod_of_ok hw port h s t

/-- {lit}`*/mods` gives what the primitive gives where it does not throw. -/
theorem colon_starSlashMods {n1 n2 n3 r q : BitVec w}
    (h : port.smSlashRem (mmul n1 n2) n3 = .ok (r, q)) (s t : List (BitVec w)) :
    colon [Forth.starSlashMods] ⟨n3 :: n2 :: n1 :: s, t⟩ = some ⟨q :: r :: s, t⟩ := by
  rw [← twoCell_halves (mmul n1 n2)] at h
  rw [Forth.starSlashMods, colon_word]
  simp only [List.cons_append, List.nil_append, colon_toR, colon_mStar hw, colon_fromR]
  exact colon_smSlashRem_of_port hw port h s t

/-- All words but one agree. -/
theorem agrees_of_ne {word : Fallback} (hword : word ≠ .uStarSlash) (args : List (BitVec w)) :
    Agrees word.forth (port.code word) args := by
  have hpos : 0 < w := by omega
  cases word with
  | umStar =>
    refine agrees_takesTwo (fun u1 u2 res h d r => ?_) args
    obtain rfl := Option.some.inj h
    exact colon_umStar hpos d r [] u1 u2
  | umSlashMod =>
    refine agrees_takesThree (fun lo hi u1 res h d r => ?_) args
    obtain ⟨rem, quot, hres, rfl⟩ := leavesTwo_eq_some h
    exact colon_umSlashMod_of_port hw port hres d r
  | mStar =>
    refine agrees_takesTwo (fun n1 n2 res h d r => ?_) args
    obtain rfl := Option.some.inj h
    exact colon_mStar hw d r [] n1 n2
  | fmSlashMod =>
    refine agrees_takesThree (fun lo hi n1 res h d r => ?_) args
    obtain ⟨rem, quot, hres, rfl⟩ := leavesTwo_eq_some h
    exact colon_fmSlashMod_of_ok hw port hres d r
  | smSlashRem =>
    refine agrees_takesThree (fun lo hi n1 res h d r => ?_) args
    obtain ⟨rem, quot, hres, rfl⟩ := leavesTwo_eq_some h
    exact colon_smSlashRem_of_port hw port hres d r
  | slashModf =>
    refine agrees_takesTwo (fun n1 n2 res h d r => ?_) args
    obtain ⟨rem, quot, hres, rfl⟩ := leavesTwo_eq_some h
    exact colon_slashModf hw hres d r
  | slashMods =>
    refine agrees_takesTwo (fun n1 n2 res h d r => ?_) args
    obtain ⟨rem, quot, hres, rfl⟩ := leavesTwo_eq_some h
    exact colon_slashMods hw hres d r
  | starSlashModf =>
    refine agrees_takesThree (fun n1 n2 n3 res h d r => ?_) args
    obtain ⟨rem, quot, hres, rfl⟩ := leavesTwo_eq_some h
    exact colon_starSlashModf hw port hres d r
  | starSlashMods =>
    refine agrees_takesThree (fun n1 n2 n3 res h d r => ?_) args
    obtain ⟨rem, quot, hres, rfl⟩ := leavesTwo_eq_some h
    exact colon_starSlashMods hw port hres d r
  | starSlashF =>
    refine agrees_takesThree (fun n1 n2 n3 res h d r => ?_) args
    obtain ⟨quot, hres, rfl⟩ := leavesOne_eq_some h
    obtain ⟨rem, hres⟩ := map_snd_eq_ok (port.starSlashF_eq n1 n2 n3 ▸ hres)
    rw [Fallback.forth, Forth.starSlashF, colon_word, List.append_nil]
    rw [colon_cons_of_eq (colon_single _ _ ▸ colon_starSlashModf hw port hres d r), colon_nip]
    rfl
  | starSlashS =>
    refine agrees_takesThree (fun n1 n2 n3 res h d r => ?_) args
    obtain ⟨quot, hres, rfl⟩ := leavesOne_eq_some h
    obtain ⟨rem, hres⟩ := map_snd_eq_ok (port.starSlashS_eq n1 n2 n3 ▸ hres)
    rw [Fallback.forth, Forth.starSlashS, colon_word, List.append_nil]
    rw [colon_cons_of_eq (colon_single _ _ ▸ colon_starSlashMods hw port hres d r), colon_nip]
    rfl
  | uSlashMod =>
    refine agrees_takesTwo (fun u1 u2 res h d r => ?_) args
    obtain ⟨rem, quot, hres, rfl⟩ := leavesTwo_eq_some h
    rw [Fallback.forth, Forth.uSlashMod, colon_word]
    simp only [List.cons_append, List.nil_append, colon_lit, colon_swap]
    rw [colon_umSlashMod_of_ok hw d r [] (umdiv_of_uSlashMod hres), dlo_twoCell, dhi_twoCell]
    rfl
  | uStarSlashMod =>
    refine agrees_takesThree (fun u1 u2 u3 res h d r => ?_) args
    obtain ⟨rem, quot, hres, rfl⟩ := leavesTwo_eq_some h
    have hdiv := halves_eq_ok hres
    rw [port.umdiv_exact.eq_umdiv, ← twoCell_halves (ummul u1 u2)] at hdiv
    rw [Fallback.forth, Forth.uStarSlashMod, colon_word]
    simp only [List.cons_append, List.nil_append, colon_toR, colon_umStar hpos, colon_fromR]
    rw [colon_umSlashMod_of_ok hw d r [] hdiv, dlo_twoCell, dhi_twoCell]
    rfl
  | uStarSlash => exact absurd rfl hword
  | duSlashMod =>
    refine agrees_takesThree (fun lo hi u res h d r => ?_) args
    obtain ⟨rem, quot, hres, rfl⟩ := leavesTwo_eq_some h
    rw [port.umdiv_exact.eq_umdiv] at hres
    rw [Fallback.forth, Forth.duSlashMod, colon_word]
    exact colon_duSlashMod hw d r [] hres
  | dPlus => exact agrees_takesDoubles (fun lo1 hi1 lo2 hi2 d r => colon_dPlus d r [] _ _ _ _) args
  | dMinus => exact agrees_takesDoubles (fun lo1 hi1 lo2 hi2 d r => colon_dMinus d r [] _ _ _ _) args
  | dnegate =>
    refine agrees_takesTwo (fun lo hi res h d r => ?_) args
    obtain rfl := Option.some.inj h
    exact colon_dnegate d r [] lo hi
  | mPlus =>
    refine agrees_takesThree (fun lo hi n res h d r => ?_) args
    obtain rfl := Option.some.inj h
    exact colon_mPlus d r [] lo hi n
  | dTwoSlash =>
    refine agrees_takesTwo (fun lo hi res h d r => ?_) args
    obtain rfl := Option.some.inj h
    exact colon_dTwoSlash hpos d r [] lo hi

/-! ## The exception -/

/-- {lit}`u*/` where the quotient of the magnitudes is known -/
theorem colon_uStarSlash {n1 n2 n3 : BitVec w} {ures : BitVec (w + w)}
    (hmul : mmul n1 n2 = ummul n1 n2) (hsign : (dhi (ummul n1 n2)).slt 0#w = false)
    (h : umdiv (ummul n1 n2) (if n3.slt 0#w then -n3 else n3) = .ok ures) (s t : List (BitVec w)) :
    colon [Forth.uStarSlash] ⟨n3 :: n2 :: n1 :: s, t⟩ =
      some ⟨(if n3.slt 0#w then -dlo ures else dlo ures) :: s, t⟩ := by
  have hdiv : umdiv (if (dhi (ummul n1 n2)).slt 0#w then -twoCell (dlo (ummul n1 n2))
      (dhi (ummul n1 n2)) else twoCell (dlo (ummul n1 n2)) (dhi (ummul n1 n2)))
      (if n3.slt 0#w then -n3 else n3) = .ok ures := by
    rwa [hsign, if_neg Bool.false_ne_true, twoCell_halves]
  have hxor : (dhi (ummul n1 n2) ^^^ n3).slt 0#w = n3.slt 0#w := by
    rw [BitVec.slt_zero_eq_msb] at hsign
    rw [BitVec.slt_zero_eq_msb, BitVec.msb_xor, hsign, Bool.false_xor, BitVec.slt_zero_eq_msb]
  rw [Forth.uStarSlash, colon_word, List.append_nil, Forth.starSlashMods, colon_word]
  simp only [List.cons_append, List.nil_append, colon_toR, colon_mStar hw, colon_fromR, hmul]
  rw [colon_smSlashRem hw s t _ hdiv, colon_nip, colon_nil, hxor]

omit hw in
/-- Numbers that are not negative have the same signed and unsigned product. -/
theorem mmul_eq_ummul {u1 u2 : BitVec w} (h1 : 2 * u1.toNat < 2 ^ w) (h2 : 2 * u2.toNat < 2 ^ w) :
    mmul u1 u2 = ummul u1 u2 ∧ (dhi (ummul u1 u2)).slt 0#w = false := by
  have hsign : ∀ x : BitVec w, 2 * x.toNat < 2 ^ w → x.slt 0#w = false := by
    intro x hx
    rw [Bool.eq_false_iff, Ne, slt_zero_iff, toInt_neg_iff]
    omega
  obtain ⟨hhi, hlo⟩ := dhi_mmul u1 u2
  rw [hsign u1 h1, hsign u2 h2, if_neg Bool.false_ne_true, if_neg Bool.false_ne_true,
    BitVec.sub_zero, BitVec.sub_zero] at hhi
  have hhigh : 2 * (dhi (ummul u1 u2)).toNat < 2 ^ w := by
    have hlt : (dhi (ummul u1 u2)).toNat ≤ u1.toNat := by
      rw [toNat_dhi, toNat_ummul]
      refine Nat.div_le_of_le_mul ?_
      rw [Nat.mul_comm]
      exact Nat.mul_le_mul_right _ u2.isLt.le
    omega
  exact ⟨by rw [← twoCell_halves (mmul u1 u2), ← hhi, ← hlo, twoCell_halves], hsign _ hhigh⟩

/-- Below the sign bit, {lit}`u*/` agrees. -/
theorem agrees_uStarSlash {args : List (BitVec w)} (hargs : ∀ u ∈ args, 2 * u.toNat < 2 ^ w) :
    Agrees Forth.uStarSlash (port.code .uStarSlash) args := by
  intro res hres d r
  rw [Port.code] at hres
  unfold takesThree at hres
  split at hres
  case h_1 u3 u2 u1 =>
    obtain ⟨quot, hquot, rfl⟩ := leavesOne_eq_some hres
    obtain ⟨hmul, hsign⟩ := mmul_eq_ummul (hargs u1 (by simp)) (hargs u2 (by simp))
    have hn3 : ¬u3.slt 0#w = true := by
      have := hargs u3 (by simp)
      rw [slt_zero_iff, toInt_neg_iff]
      omega
    rw [port.umdiv_exact.eq_umdiv] at hquot
    cases hdiv : umdiv (ummul u1 u2) u3 with
    | error e =>
      rw [hdiv] at hquot
      cases hquot
    | ok ures =>
      rw [hdiv] at hquot
      obtain rfl := Except.ok.inj hquot
      have hrun := @colon_uStarSlash _ hw _ _ u3 _ hmul hsign (by rwa [if_neg hn3]) d r
      rw [if_neg hn3, colon_single] at hrun
      exact hrun
  case h_2 => cases hres

/-- 1 times 1 divided by the largest number is 0, but divided by -1 it is -1. -/
theorem uStarSlash_ones :
    port.code .uStarSlash [-1#w, 1#w, 1#w] = some [0#w] ∧
      Forth.uStarSlash ⟨[-1#w, 1#w, 1#w], []⟩ = some ⟨[-1#w], []⟩ := by
  have hfour : 2 ^ 2 ≤ 2 ^ w := Nat.pow_le_pow_right (by decide) hw
  have hone : (1#w).toNat = 1 := BitVec.toNat_one (by omega)
  have hneg : (-1#w).toNat = 2 ^ w - 1 := by
    rw [BitVec.toNat_neg, hone, Nat.mod_eq_of_lt (by omega)]
  have hprod : (ummul 1#w 1#w).toNat = 1 := by
    rw [toNat_ummul, hone]
  have hhigh : (dhi (ummul 1#w 1#w)).toNat = 0 := by
    rw [toNat_dhi, hprod, Nat.div_eq_of_lt (by omega)]
  obtain ⟨hmul, hsign⟩ := @mmul_eq_ummul w 1#w 1#w (by omega) (by omega)
  constructor
  · obtain ⟨res, hres, hq, -⟩ := umdiv_exact.exact (ummul 1#w 1#w) (-1#w)
      (by rw [Ne, ← BitVec.toNat_inj, hneg, BitVec.toNat_zero]; omega)
      (by rw [BitVec.lt_def, hhigh, hneg]; omega)
    rw [hprod, hneg, Nat.div_eq_of_lt (by omega)] at hq
    have hquot : dlo res = 0#w := BitVec.eq_of_toNat_eq hq
    rw [Port.code, takesThree, port.umdiv_exact.eq_umdiv, hres, Compile.lowHalf, hquot]
    rfl
  · obtain ⟨res, hres, hq, -⟩ := umdiv_exact.exact (ummul 1#w 1#w) 1#w
      (by rw [Ne, ← BitVec.toNat_inj, hone, BitVec.toNat_zero]; omega)
      (by rw [BitVec.lt_def, hhigh, hone]; omega)
    rw [hprod, hone] at hq
    have hquot : dlo res = 1#w := BitVec.eq_of_toNat_eq (by rw [hq, hone])
    have hslt : (-1#w).slt 0#w = true := by
      rw [slt_zero_iff, toInt_neg_iff, hneg]
      omega
    have hrun := @colon_uStarSlash _ hw _ _ (-1#w) _ hmul hsign
      (by rwa [if_pos hslt, BitVec.neg_neg]) [] []
    rwa [if_pos hslt, hquot, colon_single] at hrun

/-- A product of unsigned cells that is divided as a signed one -/
theorem not_agrees_uStarSlash :
    ¬Agrees Forth.uStarSlash (port.code .uStarSlash) [-1#w, 1#w, 1#w] := by
  intro hagrees
  obtain ⟨hcode, hforth⟩ := uStarSlash_ones hw port
  have hrun := (hagrees _ hcode [] []).symm.trans hforth
  injection hrun with hstacks
  injection hstacks with hdata
  have hone : 1#w = 0#w := BitVec.neg_eq_zero_iff.mp (List.cons.inj hdata).1.symm
  rw [← BitVec.toNat_inj, BitVec.toNat_one (by omega), BitVec.toNat_zero] at hone
  exact Nat.one_ne_zero hone

end Agreement

/-- A port without an instruction for symmetric division -/
def plainPort (w : Nat) : Port w where
  umdiv := umdiv
  asmSmSlashRem := none
  checkDivision := true
  umdiv_exact := umdiv_exact
  asmSmSlashRem_exact := fun _ h => nomatch h

end Arith
end Gforth
