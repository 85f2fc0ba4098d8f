import Gforth.Compile.Folding

/-!
# Division by a literal

The optimizers of the division words replace a division by a literal by shifts and masks or by
the second stage of a staged division.

Main results:

- Theorem {lit}`optDivision_meaning`: an optimizer is correct if the shifts and the stages
  compute what the word computes.
- Theorem {lit}`divisionByLiteral`: the code for a literal divisor.
-/

namespace Gforth
namespace Compile

open Lib Arith

variable {w : Nat} {F : Type}

/-! ## Words after a literal -/

variable {e : Engine w F} {reci : StageDiv w} {n : BitVec w}

/-- Two words with two arguments that have the same results for literals -/
theorem push_binary_congr {b b' : Binary} {k n : BitVec w} (h : ∀ x, b.eval x k = b'.eval x n) :
    andThen (push k) ((Prim.binary b).step e) = andThen (push n) ((Prim.binary b').step e) := by
  funext m
  obtain ⟨stack, floats⟩ := m
  cases stack with
  | nil => rfl
  | cons x stack =>
    change (Prim.binary b).step e ⟨k :: x :: stack, floats⟩ =
      (Prim.binary b').step e ⟨n :: x :: stack, floats⟩
    rw [Prim.step_binary, Prim.step_binary, h x]

/-- A second stage instead of a word with one result -/
theorem stage2_binary {op : Stage2} {b : Binary}
    (h : ∀ x, (b.eval x n).map (fun q => [q]) = .ok (op.eval x reci)) :
    (Instr.stage2 op reci).step e = andThen (push n) ((Prim.binary b).step e) := by
  funext m
  obtain ⟨stack, floats⟩ := m
  cases stack with
  | nil => rfl
  | cons x stack =>
    change _ = (Prim.binary b).step e ⟨n :: x :: stack, floats⟩
    rw [Prim.step_binary, h x]
    rfl

/-- A second stage instead of a word with two results -/
theorem stage2_pair {op : Stage2} {p : Pair}
    (h : ∀ x, (p.eval x n).map topTwo = .ok (op.eval x reci)) :
    (Instr.stage2 op reci).step e = andThen (push n) ((Prim.pair p).step e) := by
  funext m
  obtain ⟨stack, floats⟩ := m
  cases stack with
  | nil => rfl
  | cons x stack =>
    change _ = (Prim.pair p).step e ⟨n :: x :: stack, floats⟩
    rw [Prim.step_pair, h x]
    rfl

/-! ## The optimizers -/

section

variable {e : Engine w F} {suitable : BitVec w → Bool} {shifts : BitVec w → Compiler w → Compiler w}
  {stage1 : BitVec w → Except Ball (StageDiv w)} {stage2 : Stage2} {p : Prim} {f : Folder w}

/-- An optimizer is correct if the shifts and the stages compute what the word computes. -/
theorem optDivision_meaning (hf : folderOf p = some f)
    (hshifts : ∀ n σ, suitable n → pow2 n →
      (shifts n σ).meaning e = andThen (σ.meaning e) (andThen (push n) (p.step e)))
    (hstages : ∀ n, suitable n → pow2 n = false → ∃ reci, stage1 n = .ok reci ∧
      (Instr.stage2 stage2 reci).step e = andThen (push n) (p.step e)) (σ : Compiler w) :
    ∃ σ', optDivision e suitable shifts stage1 stage2 p f σ = .ok σ' ∧
      σ'.meaning e = andThen (σ.meaning e) (p.step e) := by
  obtain ⟨code, lits⟩ := σ
  rw [optDivision]
  split
  case h_1 n hlits =>
    obtain rfl : lits = [n] := hlits
    rw [meaning_cons, andThen_assoc]
    by_cases hsuit : suitable n = true
    · rw [if_pos hsuit]
      by_cases hpow2 : pow2 n = true
      · rw [if_pos hpow2]
        exact ⟨_, rfl, hshifts n ⟨code, []⟩ hsuit hpow2⟩
      · rw [if_neg hpow2]
        obtain ⟨reci, hreci, hstep⟩ := hstages n hsuit (by simpa using hpow2)
        refine ⟨_, by rw [litSlash, hreci], ?_⟩
        rw [meaning_peepholeCompile, hstep]
    · rw [if_neg hsuit]
      refine ⟨_, rfl, ?_⟩
      rw [folderOf_meaning hf, meaning_literal, andThen_assoc]
  case h_2 => exact ⟨_, rfl, folderOf_meaning hf ⟨code, lits⟩⟩

end

/-! ## Powers of two -/

/-- A power of two is its own lowest bit. -/
theorem and_neg_of_pow2 (h : n &&& (n - 1#w) = 0#w) : n &&& -n = n := by
  have hneg : -n = ~~~(n - 1#w) := by
    rw [BitVec.not_sub_one_eq_not_add_one, BitVec.neg_eq_not_add]
  refine BitVec.eq_of_getLsbD_eq fun i hi => ?_
  have hbit := congrArg (BitVec.getLsbD · i) h
  simp only [BitVec.getLsbD_and, BitVec.getLsbD_zero] at hbit
  rw [hneg, BitVec.getLsbD_and, BitVec.getLsbD_not]
  revert hbit
  cases n.getLsbD i <;> cases (n - 1#w).getLsbD i <;> simp [hi]

/-- A power of two, and the shift counts that the optimizers compute from it. -/
theorem pow2_spec (h : pow2 n = true) :
    ∃ k, k < w ∧ n.toNat = 2 ^ k ∧ shiftCount (log2 n) = k ∧ shiftCount (ctz n) = k := by
  have hne : n ≠ 0#w := by
    rintro rfl
    simp [pow2] at h
  have hand : n &&& (n - 1#w) = 0#w := by
    by_contra hnot
    simp [pow2, if_neg hnot] at h
  obtain ⟨k, hk⟩ := (pow2_iff hne).mp h
  have hlt : k < w := (Nat.pow_lt_pow_iff_right (by decide)).mp (hk ▸ n.isLt)
  have hlog2 : shiftCount (log2 n) = k := by
    rw [shiftCount, toNat_log2 hne, hk, Nat.log2_two_pow, Nat.mod_eq_of_lt hlt]
  refine ⟨k, hlt, hk, hlog2, ?_⟩
  rw [ctz, if_pos hne, and_neg_of_pow2 hand, hlog2]

/-- The mask for a power of two gives the remainder. -/
theorem toNat_and_pred {k : Nat} (hlt : k < w) (hk : n.toNat = 2 ^ k) (x : BitVec w) :
    (x &&& (n - 1#w)).toNat = x.toNat % 2 ^ k := by
  have hpos := Nat.two_pow_pos k
  have hone : (1#w).toNat = 1 := by
    rw [BitVec.toNat_ofNat]
    exact Nat.mod_eq_of_lt (Nat.one_lt_two_pow (by omega))
  have hpred : (n - 1#w).toNat = 2 ^ k - 1 := by
    rw [BitVec.toNat_sub_of_le (by rw [BitVec.le_def, hone]; omega), hone, hk]
  rw [BitVec.toNat_and, hpred, Nat.and_two_pow_sub_one_eq_mod]

/-! ## Unsigned division -/

/-- The words of unsigned division from quotient and remainder -/
theorem uSlashMod_eq {x n q m : BitVec w} (hn : n ≠ 0#w) (hq : q.toNat = x.toNat / n.toNat)
    (hm : m.toNat = x.toNat % n.toNat) :
    uSlash x n = .ok q ∧ umod x n = .ok m ∧ uSlashMod x n = .ok (m, q) := by
  have hq' : x / n = q := by
    rw [BitVec.toNat_eq, BitVec.toNat_udiv, hq]
  have hm' : x % n = m := by
    rw [BitVec.toNat_eq, BitVec.toNat_umod, hm]
  rw [uSlash, umod, uSlashMod, if_neg hn, if_neg hn, if_neg hn, hq', hm']
  exact ⟨rfl, rfl, rfl⟩

/-- Shift and mask divide an unsigned number. -/
theorem uSlashMod_pow2 (hn : n ≠ 0#w) (hpow2 : pow2 n = true) (x : BitVec w) :
    uSlash x n = .ok (x >>> shiftCount (ctz n)) ∧ umod x n = .ok (x &&& (n - 1#w)) ∧
      uSlashMod x n = .ok (x &&& (n - 1#w), x >>> shiftCount (ctz n)) := by
  obtain ⟨k, hlt, hk, -, hcount⟩ := pow2_spec hpow2
  refine uSlashMod_eq hn ?_ ?_
  · rw [hcount, BitVec.toNat_ushiftRight, Nat.shiftRight_eq_div_pow, hk]
  · rw [toNat_and_pred hlt hk, hk]

/-- The stages divide an unsigned number. -/
theorem uSlashMod_stages (hn : n ≠ 0#w) (h : ∀ x, UnsignedStages reci n x) (x : BitVec w) :
    uSlash x n = .ok (uSlashStage2m x reci) ∧ umod x n = .ok (umodStage2m x reci) ∧
      uSlashMod x n = .ok (uSlashModStage2m x reci) := by
  rw [(h x).both]
  exact uSlashMod_eq hn (h x).quotient (h x).modulus

/-! ## Floored division -/

/-- C divides by a positive number. -/
theorem cDivides_of_pos (hn : 0 < n.toInt) (x : BitVec w) : CDivides x n := by
  refine ⟨fun hzero => ?_, fun hmin => ?_⟩
  · rw [hzero, BitVec.toInt_zero] at hn
    exact lt_irrefl _ hn
  · rw [hmin.1, BitVec.neg_one_eq_allOnes, BitVec.toInt_allOnes] at hn
    split at hn <;> omega

/-- The words of floored division by a positive number from quotient and modulus -/
theorem slashModf_eq_of {c : CDivision w} {x n q m : BitVec w} (hn : 0 < n.toInt)
    (hq : q.toInt = x.toInt.fdiv n.toInt) (hm : m.toInt = x.toInt.fmod n.toInt) :
    slashF c x n = .ok q ∧ modf c x n = .ok m ∧ slashModf c x n = .ok (m, q) := by
  have hboth : slashModf c x n = .ok (m, q) := by
    have hopt := slashModf_of_divides c (cDivides_of_pos hn x)
    rw [flooredResult_of_fits hn.ne' (by rw [← hq]; exact fitsCell_toInt q), flooredCells, ← hq, ← hm,
      BitVec.ofInt_toInt, BitVec.ofInt_toInt] at hopt
    cases hres : slashModf c x n with
    | error b =>
      rw [hres] at hopt
      cases hopt
    | ok r =>
      rw [hres] at hopt
      rw [Option.some.inj hopt]
  rw [slashF_eq, modf_eq, hboth]
  exact ⟨rfl, rfl, rfl⟩

/-- Arithmetic shift and mask divide a signed number. -/
theorem slashModf_pow2 {c : CDivision w} (hn : 0 < n.toInt) (hpow2 : pow2 n = true) (x : BitVec w) :
    slashF c x n = .ok (x.sshiftRight (shiftCount (ctz n))) ∧
      modf c x n = .ok (x &&& (n - 1#w)) ∧
      slashModf c x n = .ok (x &&& (n - 1#w), x.sshiftRight (shiftCount (ctz n))) := by
  obtain ⟨k, hlt, hk, -, hcount⟩ := pow2_spec hpow2
  have hval : n.toInt = (2 ^ k : Nat) ∧ 2 * 2 ^ k < 2 ^ w := by
    have := n.isLt
    rcases toInt_cases n with ⟨h, heq⟩ | ⟨h, heq⟩ <;> omega
  obtain ⟨hval, hhalf⟩ := hval
  refine slashModf_eq_of hn ?_ ?_
  · rw [hcount, BitVec.toInt_sshiftRight, Int.shiftRight_eq_div_pow, hval,
      Int.fdiv_eq_ediv_of_nonneg _ (by omega)]
  · have hmask := toNat_and_pred hlt hk x
    have hmod : x.toNat % 2 ^ k < 2 ^ k := Nat.mod_lt _ (Nat.two_pow_pos k)
    have hdvd : ((2 ^ k : Nat) : Int) ∣ (2 ^ w : Nat) :=
      Int.natCast_dvd_natCast.mpr (Nat.pow_dvd_pow 2 hlt.le)
    rw [toInt_of_lt (by omega), hmask, hval, Int.fmod_eq_emod_of_nonneg _ (by omega),
      Int.natCast_mod]
    exact (toNat_modEq_toInt x).of_dvd hdvd

/-- The stages divide a signed number. -/
theorem slashModf_stages {c : CDivision w} (hn : 0 < n.toInt) (h : ∀ x, FlooredStages reci n x)
    (x : BitVec w) :
    slashF c x n = .ok (slashFStage2m x reci) ∧ modf c x n = .ok (modfStage2m x reci) ∧
      slashModf c x n = .ok (slashModfStage2m x reci) := by
  rw [(h x).both]
  refine slashModf_eq_of hn (h x).quotient ?_
  rw [(h x).modulus, Int.fmod_def]

/-! ## The code for a literal divisor -/

theorem toInt_pos_of_positive (h : positive n = true) : 0 < n.toInt := by
  rwa [positive, BitVec.slt_iff_toInt_lt, BitVec.toInt_zero] at h

theorem ne_zero_of_nonzero (h : nonzero n = true) : n ≠ 0#w :=
  of_decide_eq_true h

/-- Mask and shift for a word with modulus and quotient -/
theorem maskAndShift_meaning {p : Pair} {shift : Binary}
    (h : ∀ x, ∃ q, shift.eval x (ctz n) = .ok q ∧ p.eval x n = .ok (x &&& (n - 1#w), q))
    (σ : Compiler w) :
    (maskAndShift e shift n σ).meaning e =
      andThen (σ.meaning e) (andThen (push n) ((Prim.pair p).step e)) := by
  rw [maskAndShift, folderOf_meaning rfl, meaning_literal, folderOf_meaning rfl,
    folderOf_meaning rfl, meaning_literal, folderOf_meaning rfl]
  simp only [andThen_assoc]
  congr 1
  funext m
  obtain ⟨stack, floats⟩ := m
  cases stack with
  | nil => rfl
  | cons x stack =>
    obtain ⟨q, hshift, hboth⟩ := h x
    have hdup : (Prim.spread .dup).step e ⟨x :: stack, floats⟩ = .ok ⟨x :: x :: stack, floats⟩ := rfl
    have hmask : (Prim.binary .and).step e ⟨(n - 1#w) :: x :: x :: stack, floats⟩ =
        .ok ⟨(x &&& (n - 1#w)) :: x :: stack, floats⟩ := rfl
    have hswap : (Prim.pair .swap).step e ⟨(x &&& (n - 1#w)) :: x :: stack, floats⟩ =
        .ok ⟨x :: (x &&& (n - 1#w)) :: stack, floats⟩ := rfl
    simp only [andThen, push, hdup, hmask, hswap, Prim.step_binary, hshift, Prim.step_pair, hboth]
    rfl

section

variable {e : Engine w F} (hum : UmdivExact e.umdiv) (hw : 1 < w)
include hum

/-- The first stage for the divisors that are not shifted -/
theorem uSlashStage1m_of_nonzero {n : BitVec w} (hn : nonzero n = true) (hpow2 : pow2 n = false) :
    ∃ reci, uSlashStage1m e.umdiv n = .ok reci ∧ ∀ x, UnsignedStages reci n x := by
  have hne := ne_zero_of_nonzero hn
  have hpos := toNat_pos hne
  have hone : n.toNat ≠ 1 := by
    intro hone
    have htrue := (pow2_iff hne).mpr ⟨0, hone⟩
    rw [hpow2] at htrue
    cases htrue
  have htwo : 2 ≤ n.toNat := by omega
  obtain ⟨reci, hreci, hdivisor, hinverse⟩ := uSlashStage1m_eq hum htwo
  exact ⟨reci, hreci, unsignedStages_of_reciprocal htwo hdivisor hinverse⟩

/-- {lit}`u/` by a literal does what the primitive does. -/
theorem optUSlash_meaning (σ : Compiler w) :
    ∃ σ', optUSlash e σ = .ok σ' ∧
      σ'.meaning e = andThen (σ.meaning e) ((Prim.binary .uSlash).step e) := by
  refine optDivision_meaning rfl ?_ ?_ σ
  · intro n σ hn hpow2
    rw [folderOf_meaning rfl, meaning_literal, andThen_assoc]
    congr 1
    exact push_binary_congr fun x => (uSlashMod_pow2 (ne_zero_of_nonzero hn) hpow2 x).1.symm
  · intro n hn hpow2
    obtain ⟨reci, hreci, hstages⟩ := uSlashStage1m_of_nonzero hum hn hpow2
    refine ⟨reci, hreci, stage2_binary fun x => ?_⟩
    rw [Binary.eval, (uSlashMod_stages (ne_zero_of_nonzero hn) hstages x).1]
    rfl

/-- {lit}`umod` by a literal does what the primitive does. -/
theorem optUmod_meaning (σ : Compiler w) :
    ∃ σ', optUmod e σ = .ok σ' ∧
      σ'.meaning e = andThen (σ.meaning e) ((Prim.binary .umod).step e) := by
  refine optDivision_meaning rfl ?_ ?_ σ
  · intro n σ hn hpow2
    rw [folderOf_meaning rfl, meaning_literal, andThen_assoc]
    congr 1
    exact push_binary_congr fun x => (uSlashMod_pow2 (ne_zero_of_nonzero hn) hpow2 x).2.1.symm
  · intro n hn hpow2
    obtain ⟨reci, hreci, hstages⟩ := uSlashStage1m_of_nonzero hum hn hpow2
    refine ⟨reci, hreci, stage2_binary fun x => ?_⟩
    rw [Binary.eval, (uSlashMod_stages (ne_zero_of_nonzero hn) hstages x).2.1]
    rfl

/-- {lit}`u/mod` by a literal does what the primitive does. -/
theorem optUSlashMod_meaning (σ : Compiler w) :
    ∃ σ', optUSlashMod e σ = .ok σ' ∧
      σ'.meaning e = andThen (σ.meaning e) ((Prim.pair .uSlashMod).step e) := by
  refine optDivision_meaning rfl ?_ ?_ σ
  · intro n σ hn hpow2
    refine maskAndShift_meaning (fun x => ?_) σ
    exact ⟨_, rfl, (uSlashMod_pow2 (ne_zero_of_nonzero hn) hpow2 x).2.2⟩
  · intro n hn hpow2
    obtain ⟨reci, hreci, hstages⟩ := uSlashStage1m_of_nonzero hum hn hpow2
    refine ⟨reci, hreci, stage2_pair fun x => ?_⟩
    rw [Pair.eval, (uSlashMod_stages (ne_zero_of_nonzero hn) hstages x).2.2]
    rfl

include hw

/-- {lit}`/f` by a literal does what the primitive does. -/
theorem optSlashF_meaning (σ : Compiler w) :
    ∃ σ', optSlashF e σ = .ok σ' ∧
      σ'.meaning e = andThen (σ.meaning e) ((Prim.binary .slashF).step e) := by
  have hpos : 0 < w := by omega
  refine optDivision_meaning rfl ?_ ?_ σ
  · intro n σ hn hpow2
    rw [folderOf_meaning rfl, meaning_literal, andThen_assoc]
    congr 1
    exact push_binary_congr fun x => (slashModf_pow2 (toInt_pos_of_positive hn) hpow2 x).1.symm
  · intro n hn hpow2
    obtain ⟨reci, hreci, hstages⟩ := slashFStage1m_eq hum hw (toInt_pos_of_positive hn)
    refine ⟨reci, hreci, stage2_binary fun x => ?_⟩
    rw [Binary.eval, (slashModf_stages (toInt_pos_of_positive hn) hstages x).1]
    rfl

/-- {lit}`modf` by a literal does what the primitive does. -/
theorem optModf_meaning (σ : Compiler w) :
    ∃ σ', optModf e σ = .ok σ' ∧
      σ'.meaning e = andThen (σ.meaning e) ((Prim.binary .modf).step e) := by
  have hpos : 0 < w := by omega
  refine optDivision_meaning rfl ?_ ?_ σ
  · intro n σ hn hpow2
    rw [folderOf_meaning rfl, meaning_literal, andThen_assoc]
    congr 1
    exact push_binary_congr fun x => (slashModf_pow2 (toInt_pos_of_positive hn) hpow2 x).2.1.symm
  · intro n hn hpow2
    obtain ⟨reci, hreci, hstages⟩ := slashFStage1m_eq hum hw (toInt_pos_of_positive hn)
    refine ⟨reci, hreci, stage2_binary fun x => ?_⟩
    rw [Binary.eval, (slashModf_stages (toInt_pos_of_positive hn) hstages x).2.1]
    rfl

/-- {lit}`/modf` by a literal does what the primitive does. -/
theorem optSlashModf_meaning (σ : Compiler w) :
    ∃ σ', optSlashModf e σ = .ok σ' ∧
      σ'.meaning e = andThen (σ.meaning e) ((Prim.pair .slashModf).step e) := by
  have hpos : 0 < w := by omega
  refine optDivision_meaning rfl ?_ ?_ σ
  · intro n σ hn hpow2
    refine maskAndShift_meaning (fun x => ?_) σ
    exact ⟨_, rfl, (slashModf_pow2 (toInt_pos_of_positive hn) hpow2 x).2.2⟩
  · intro n hn hpow2
    obtain ⟨reci, hreci, hstages⟩ := slashFStage1m_eq hum hw (toInt_pos_of_positive hn)
    refine ⟨reci, hreci, stage2_pair fun x => ?_⟩
    rw [Pair.eval, (slashModf_stages (toInt_pos_of_positive hn) hstages x).2.2]
    rfl

omit hum hw in
/-- The division words with their optimizers -/
def divisionWords (e : Engine w F) : List (Prim × (Compiler w → Except Ball (Compiler w))) :=
  [(.binary .slashF, optSlashF e), (.binary .modf, optModf e), (.pair .slashModf, optSlashModf e),
    (.binary .uSlash, optUSlash e), (.binary .umod, optUmod e), (.pair .uSlashMod, optUSlashMod e)]

/-- All optimizers for division do what their primitives do. -/
theorem divisionWords_meaning :
    ∀ d ∈ divisionWords e, ∀ σ : Compiler w,
      ∃ σ', d.2 σ = .ok σ' ∧ σ'.meaning e = andThen (σ.meaning e) (d.1.step e) := by
  intro d hd
  simp only [divisionWords, List.mem_cons, List.not_mem_nil, or_false] at hd
  rcases hd with rfl | rfl | rfl | rfl | rfl | rfl
  · exact optSlashF_meaning hum hw
  · exact optModf_meaning hum hw
  · exact optSlashModf_meaning hum hw
  · exact optUSlash_meaning hum
  · exact optUmod_meaning hum
  · exact optUSlashMod_meaning hum

/-- The code for a division by the literal {lit}`n`, after any other code, does with the stack
what the word does with {lit}`n` on top of it, also if the word throws. -/
theorem divisionByLiteral (n : BitVec w) (code : List (Instr w)) :
    ∀ d ∈ divisionWords e, ∃ σ, d.2 ⟨code, [n]⟩ = .ok σ ∧
      ∀ m m', run e code m = .ok m' →
        run e σ.litsComma.code m = d.1.step e { m' with stack := n :: m'.stack } := by
  intro d hd
  obtain ⟨σ, hσ, hmeaning⟩ := divisionWords_meaning hum hw d hd ⟨code, [n]⟩
  refine ⟨σ, hσ, fun m m' hrun => ?_⟩
  have hpre : Compiler.meaning e ⟨code, []⟩ m = .ok m' := by
    simpa [Compiler.meaning, Compiler.litsComma] using hrun
  have hcode := congrFun hmeaning m
  rw [meaning_cons, andThen_assoc] at hcode
  simp only [andThen, hpre, push] at hcode
  exact hcode

end

/-- An engine with 64-bit cells, no readable memory and no other words -/
def engine64 : Engine 64 Unit where
  umdiv := umdiv
  wcwidth := fun _ => 1#64
  fetch := fun _ => .error (-9)
  wordOf := fun _ => .execute
  other := fun _ m => .ok m

/-- Dividing -16 by the literal 7 with 64-bit cells. -/
theorem divisionByLiteral_seven :
    ∃ σ, optSlashModf engine64 ⟨[], [7#64]⟩ = .ok σ ∧
      run engine64 σ.litsComma.code ⟨[-16#64], []⟩ =
        (Prim.pair .slashModf).step engine64 ⟨[7#64, -16#64], []⟩ := by
  obtain ⟨σ, hσ, hrun⟩ := divisionByLiteral (e := engine64) umdiv_exact (by decide) 7#64 []
    (.pair .slashModf, optSlashModf engine64) (by simp [divisionWords])
  exact ⟨σ, hσ, hrun ⟨[-16#64], []⟩ _ rfl⟩

end Compile
end Gforth
