import Gforth.Arith.LongLong
import Gforth.Lib.Circles
import Gforth.Lib.Stacks

/-!
# Ends of counted loops

The words at the end of counted loops add to the index and test whether the loop is left.  The
tests are tricks with the bits of the distance between index and limit; they find whether the
index goes over a boundary next to the limit, on the circle of all cells.

Main results:

- Theorem {lit}`plusLoop_exit_iff`: all versions of {lit}`(+loop)` leave the loop at the boundary.
- Theorem {lit}`loopEnds_iff`: all words, and the optimizer of {lit}`(+loop)`.
-/

namespace Gforth
namespace Arith
namespace Loops

open Lib
open LongLong (flag flag_eq_zero_iff flag_or)

variable {w : Nat}

/-! ## The primitives -/

/-- The new index, and whether the word branches back -/
structure LoopStep (w : Nat) where
  index : BitVec w
  again : Bool
deriving DecidableEq

/-- {lit}`(+loop)` with {lit}`__builtin_add_overflow` -/
def plusLoopBuiltin (nlimit n1 n : BitVec w) : LoopStep w :=
  let olddiff := (n1 - nlimit) ^^^ BitVec.intMin w
  { index := n1 + n
    again := !olddiff.saddOverflow n }

/-- {lit}`(+loop)` without it -/
def plusLoopXor (nlimit n1 n : BitVec w) : LoopStep w :=
  let olddiff := n1 - nlimit
  { index := n1 + n
    again := !((olddiff ^^^ (olddiff + n)) &&& (olddiff ^^^ n)).slt 0#w }

/-- {lit}`(-loop)` -/
def minusLoop (nlimit n1 u : BitVec w) : LoopStep w :=
  let n2 := n1 - u
  { index := n2
    again := u ≤ nlimit - n2 }

/-- {lit}`(/loop)` -/
def slashLoop (nlimit n1 u : BitVec w) : LoopStep w :=
  let n2 := n1 + u
  { index := n2
    again := u ≤ n2 - nlimit }

/-- {lit}`(s+loop)` -/
def sPlusLoop (nlimit n1 n : BitVec w) : LoopStep w :=
  let diff := n1 - nlimit
  let newdiff := diff + n
  let (diff, newdiff) := if n.slt 0#w then (-diff, -newdiff) else (diff, newdiff)
  { index := n1 + n
    again := (~~~diff ||| newdiff).slt 0#w }

section Forth

open Stacks

/-- {lit}`0<` -/
def zeroLess (n : BitVec w) : BitVec w :=
  flag (n.slt 0#w)

/-- {lit}`0=` -/
def zeroEquals (n : BitVec w) : BitVec w :=
  flag (n = 0#w)

/-- {lit}`(+loop)` in Forth; the return stack has the address of the code after the word on top,
where the target of the branch is. -/
def plusLoopForth (fetch : BitVec w → BitVec w) (cell : BitVec w) : Effect (BitVec w) :=
  colon [fromR, swap,
    fromR, fromR, twoDup, binary (· - ·), toR,
    pick 2, rFetch, binary (· + ·), rFetch, binary (· ^^^ ·), unary zeroLess, unary zeroEquals,
    pick 3, fromR, binary (· ^^^ ·), unary zeroLess, unary zeroEquals, binary (· ||| ·),
    ifElse (· ≠ 0#w)
      [toR, binary (· + ·), toR, unary fetch, toR]
      [toR, toR, drop, unary (· + cell), toR]]

end Forth

/-! ## The optimizer -/

/-- The words that the optimizer of {lit}`(+loop)` knows, with and without locals -/
inductive LoopWord where
  | plusLoop | plusLoopLp | slashLoop | slashLoopLp
deriving DecidableEq

/-- {lit}`replace-(+loop)` -/
def replacePlusLoop : LoopWord → Except Int LoopWord
  | .plusLoop => .ok .slashLoop
  | .plusLoopLp => .ok .slashLoopLp
  | _ => .error (-21)

/-- {lit}`(+loop)-optimizer`: the word that is compiled for {lit}`xt` after the pending literals,
the last one first -/
def plusLoopOptimizer (lits : List (BitVec w)) (xt : LoopWord) : Except Int LoopWord :=
  match lits with
  | n :: _ => if (0#w).slt n then replacePlusLoop xt else .ok xt
  | [] => .ok xt

/-- What a word does, where {lit}`plus` is {lit}`(+loop)` -/
def LoopWord.step (plus : BitVec w → BitVec w → BitVec w → LoopStep w) :
    LoopWord → BitVec w → BitVec w → BitVec w → LoopStep w
  | .plusLoop | .plusLoopLp => plus
  | .slashLoop | .slashLoopLp => Loops.slashLoop

/-! ## Boundaries -/

/-- From {lit}`limit-1` to {lit}`limit`, by unsigned steps -/
def SlashCrosses (nlimit n1 u : BitVec w) : Prop :=
  Crosses n1 1#w u.toNat (nlimit - 1#w) nlimit

/-- From {lit}`limit+1` to {lit}`limit`, by unsigned steps downwards -/
def MinusCrosses (nlimit n1 u : BitVec w) : Prop :=
  Crosses n1 (-1#w) u.toNat (nlimit + 1#w) nlimit

/-- Between {lit}`limit-1` and {lit}`limit` in the direction of {lit}`n` -/
def PlusCrosses (nlimit n1 n : BitVec w) : Prop :=
  if n.slt 0#w then Crosses n1 (-1#w) n.toInt.natAbs nlimit (nlimit - 1#w)
  else Crosses n1 1#w n.toInt.natAbs (nlimit - 1#w) nlimit

/-- To {lit}`limit` from its neighbour in the direction of {lit}`n` -/
def SPlusCrosses (nlimit n1 n : BitVec w) : Prop :=
  if n.slt 0#w then Crosses n1 (-1#w) n.toInt.natAbs (nlimit + 1#w) nlimit
  else Crosses n1 1#w n.toInt.natAbs (nlimit - 1#w) nlimit

instance (nlimit n1 n : BitVec w) : Decidable (PlusCrosses nlimit n1 n) :=
  inferInstanceAs (Decidable (if n.slt 0#w then _ else _))

/-! ## Signs -/

theorem slt_zero_iff_toNat (x : BitVec w) : x.slt 0#w = true ↔ 2 ^ w ≤ 2 * x.toNat :=
  (slt_zero_iff x).trans (toInt_neg_iff x)

/-- The steps for a signed increment -/
theorem natAbs_toInt_cases (n : BitVec w) :
    (2 * n.toNat < 2 ^ w ∧ n.toInt.natAbs = n.toNat) ∨
      (2 ^ w ≤ 2 * n.toNat ∧ n.toInt.natAbs = 2 ^ w - n.toNat) := by
  have := n.isLt
  rcases toInt_cases n with ⟨h, heq⟩ | ⟨h, heq⟩ <;> omega

/-! ## The tests -/

/-- {lit}`+loop` crosses the boundary if the distance from the limit wraps around. -/
theorem plusCrosses_iff (nlimit n1 n : BitVec w) :
    PlusCrosses nlimit n1 n ↔
      if 2 ^ w ≤ 2 * n.toNat then (n1 - nlimit).toNat + n.toNat < 2 ^ w
      else 2 ^ w ≤ (n1 - nlimit).toNat + n.toNat := by
  rw [PlusCrosses, crosses_up_iff, crosses_down_iff]
  have := slt_zero_iff_toNat n
  rcases natAbs_toInt_cases n with ⟨h, heq⟩ | ⟨h, heq⟩
  · rw [if_neg (fun hneg => by rw [this] at hneg; omega), if_neg (by omega), heq]
  · rw [if_pos (this.mpr h), if_pos h, heq]
    omega

theorem msb_eq_decide_toNat (x : BitVec w) : x.msb = decide (2 ^ w ≤ 2 * x.toNat) := by
  rw [← BitVec.slt_zero_eq_msb, ← Bool.coe_iff_coe, slt_zero_iff_toNat, decide_eq_true_iff]

/-- The version with an exclusive or ends exactly at the boundary. -/
theorem plusLoopXor_exit_iff (nlimit n1 n : BitVec w) :
    (plusLoopXor nlimit n1 n).again = false ↔ PlusCrosses nlimit n1 n := by
  rw [plusCrosses_iff, plusLoopXor, Bool.not_eq_false', BitVec.slt_zero_eq_msb, BitVec.msb_and,
    BitVec.msb_xor, BitVec.msb_xor, msb_eq_decide_toNat, msb_eq_decide_toNat, msb_eq_decide_toNat]
  have hd := (n1 - nlimit).isLt
  have hn := n.isLt
  rw [Bool.and_eq_true, bne_iff_ne, bne_iff_ne, ne_eq, ne_eq, decide_eq_decide, decide_eq_decide]
  rcases toNat_add_cases (n1 - nlimit) n with ⟨h, heq⟩ | ⟨h, heq⟩ <;> rw [heq] <;> split <;> omega

/-- The version with a builtin ends exactly at the boundary. -/
theorem plusLoopBuiltin_exit_iff (nlimit n1 n : BitVec w) :
    (plusLoopBuiltin nlimit n1 n).again = false ↔ PlusCrosses nlimit n1 n := by
  have hd := (n1 - nlimit).isLt
  have hn := n.isLt
  rw [plusCrosses_iff, plusLoopBuiltin, Bool.not_eq_false']
  cases w with
  | zero =>
    rw [BitVec.eq_nil n, BitVec.eq_nil (n1 - nlimit)]
    decide
  | succ v =>
    have hpow : 2 ^ (v + 1) = 2 ^ v * 2 := pow_succ 2 v
    have hint : ((2 ^ v : Nat) : Int) = 2 ^ v := by
      push_cast
      rfl
    rw [BitVec.saddOverflow, toInt_xor_intMin, Nat.add_sub_cancel, ← hint, Bool.or_eq_true,
      decide_eq_true_iff, decide_eq_true_iff]
    rcases toInt_cases n with ⟨h, heq⟩ | ⟨h, heq⟩ <;> rw [heq] <;> split <;> omega

/-- {lit}`(/loop)` ends exactly at the boundary. -/
theorem slashLoop_exit_iff (nlimit n1 u : BitVec w) :
    (slashLoop nlimit n1 u).again = false ↔ SlashCrosses nlimit n1 u := by
  have hdist : n1 + u - nlimit = n1 - nlimit + u := by
    grind
  have hd := (n1 - nlimit).isLt
  rw [SlashCrosses, crosses_up_iff, slashLoop, decide_eq_false_iff_not, hdist, BitVec.le_def]
  rcases toNat_add_cases (n1 - nlimit) u with ⟨h, heq⟩ | ⟨h, heq⟩ <;> omega

/-- {lit}`-loop` crosses the boundary if it takes away more than the distance. -/
theorem minusCrosses_iff (nlimit n1 u : BitVec w) :
    MinusCrosses nlimit n1 u ↔ (n1 - nlimit - 1#w).toNat < u.toNat := by
  have hdist : n1 - (nlimit + 1#w) = n1 - nlimit - 1#w := by
    grind
  have hlimit : nlimit + 1#w - 1#w = nlimit := BitVec.add_sub_cancel _ _
  have hiff := crosses_down_iff n1 (nlimit + 1#w) u.toNat
  rwa [hdist, hlimit] at hiff

/-- {lit}`-loop` ends exactly at the boundary. -/
theorem minusLoop_exit_iff (nlimit n1 u : BitVec w) :
    (minusLoop nlimit n1 u).again = false ↔ MinusCrosses nlimit n1 u := by
  have hdist : nlimit - (n1 - u) = u - (n1 - nlimit) := by
    grind
  have hd := (n1 - nlimit).isLt
  have hu := u.isLt
  have hone : (1#w).toNat = 1 ∨ 2 ^ w = 1 := by
    cases w with
    | zero => exact Or.inr rfl
    | succ w => exact Or.inl (Nat.mod_eq_of_lt (Nat.one_lt_two_pow (Nat.succ_ne_zero w)))
  rw [minusCrosses_iff, minusLoop, decide_eq_false_iff_not, hdist, BitVec.le_def]
  rcases toNat_sub_cases u (n1 - nlimit) with ⟨h, heq⟩ | ⟨h, heq⟩ <;>
    rcases toNat_sub_cases (n1 - nlimit) 1#w with ⟨h', heq'⟩ | ⟨h', heq'⟩ <;>
    rcases hone with hone | hone <;> omega

/-- The test of {lit}`(s+loop)` -/
theorem not_or_slt_zero_iff {v : Nat} (x y : BitVec (v + 1)) :
    (~~~x ||| y).slt 0#_ = false ↔ 2 ^ (v + 1) ≤ 2 * x.toNat ∧ 2 * y.toNat < 2 ^ (v + 1) := by
  have hx := x.isLt
  have hpow : 2 ^ (v + 1) = 2 ^ v * 2 := pow_succ 2 v
  rw [BitVec.slt_zero_eq_msb, BitVec.msb_or, Bool.or_eq_false_iff, msb_eq_decide_toNat,
    msb_eq_decide_toNat, decide_eq_false_iff_not, decide_eq_false_iff_not, BitVec.toNat_not]
  omega

/-- Both bits of the test together: a distance in the upper half of the circle goes over its end,
where the steps are no more than half of the circle. -/
theorem half_circle_iff {x k : BitVec w} (hk : 2 * k.toNat ≤ 2 ^ w) :
    2 ^ w ≤ 2 * x.toNat ∧ 2 * (x + k).toNat < 2 ^ w ↔ 2 ^ w ≤ x.toNat + k.toNat := by
  have hx := x.isLt
  rcases toNat_add_cases x k with ⟨h, heq⟩ | ⟨h, heq⟩ <;> omega

/-- The distance from the boundary above the limit, counted downwards -/
theorem toNat_sub_one_lt_iff (x : BitVec w) (count : Nat) :
    (x - 1#w).toNat < count ↔ 2 ^ w ≤ (-x).toNat + count := by
  have hneg := (-x).isLt
  have hnot : x - 1#w = ~~~(-x) := by
    rw [BitVec.not_neg]
  rw [hnot, BitVec.toNat_not]
  omega

theorem toNat_neg_of_neg {n : BitVec w} (hn : 2 ^ w ≤ 2 * n.toNat) :
    (-n).toNat = 2 ^ w - n.toNat := by
  have hlt := n.isLt
  have hpos := Nat.two_pow_pos w
  rw [BitVec.toNat_neg, Nat.mod_eq_of_lt (by omega)]

/-- {lit}`s+loop` crosses the boundary with the step in either direction. -/
theorem sPlusCrosses_iff (nlimit n1 n : BitVec w) :
    SPlusCrosses nlimit n1 n ↔
      if n.slt 0#w then 2 ^ w ≤ (-(n1 - nlimit)).toNat + (-n).toNat
      else 2 ^ w ≤ (n1 - nlimit).toNat + n.toNat := by
  have hdist : n1 - (nlimit + 1#w) = n1 - nlimit - 1#w := by
    grind
  have hdown := crosses_down_iff n1 (nlimit + 1#w) n.toInt.natAbs
  rw [hdist, BitVec.add_sub_cancel, toNat_sub_one_lt_iff] at hdown
  have hneg := slt_zero_iff_toNat n
  rw [SPlusCrosses, crosses_up_iff, hdown]
  rcases natAbs_toInt_cases n with ⟨h, heq⟩ | ⟨h, heq⟩
  · have hpos : ¬n.slt 0#w := fun hslt => Nat.not_le.mpr h (hneg.mp hslt)
    rw [if_neg hpos, if_neg hpos, heq]
  · rw [if_pos (hneg.mpr h), if_pos (hneg.mpr h), heq, toNat_neg_of_neg h]

/-- {lit}`s+loop` ends exactly at the boundary. -/
theorem sPlusLoop_exit_iff {v : Nat} (nlimit n1 n : BitVec (v + 1)) :
    (sPlusLoop nlimit n1 n).again = false ↔ SPlusCrosses nlimit n1 n := by
  rw [sPlusCrosses_iff, sPlusLoop]
  by_cases hneg : n.slt 0#_
  · have hn := (slt_zero_iff_toNat n).mp hneg
    have hnewdiff : -(n1 - nlimit + n) = -(n1 - nlimit) + -n := by
      rw [BitVec.neg_add, BitVec.sub_eq_add_neg]
    rw [if_pos hneg, if_pos hneg, hnewdiff, not_or_slt_zero_iff]
    refine half_circle_iff ?_
    rw [toNat_neg_of_neg hn]
    omega
  · have hn := mt (slt_zero_iff_toNat n).mpr hneg
    rw [if_neg hneg, if_neg hneg, not_or_slt_zero_iff]
    exact half_circle_iff (by omega)

/-! ## The Forth version -/

/-- The flags of the Forth version are the sign bits that the C version combines. -/
theorem plusLoopForth_eq {v : Nat} (fetch : BitVec (v + 1) → BitVec (v + 1))
    (cell n ip n1 nlimit : BitVec (v + 1)) (d r : List (BitVec (v + 1))) :
    plusLoopForth fetch cell ⟨n :: d, ip :: n1 :: nlimit :: r⟩ =
      some (if (plusLoopXor nlimit n1 n).again then ⟨d, fetch ip :: (n + n1) :: nlimit :: r⟩
        else ⟨d, (ip + cell) :: n1 :: nlimit :: r⟩) := by
  have hcross : (plusLoopXor nlimit n1 n).again =
      (!(n + (n1 - nlimit) ^^^ (n1 - nlimit)).slt 0#_ || !(n ^^^ (n1 - nlimit)).slt 0#_) := by
    rw [plusLoopXor, BitVec.slt_zero_eq_msb, BitVec.msb_and, ← BitVec.slt_zero_eq_msb,
      ← BitVec.slt_zero_eq_msb, Bool.not_and, BitVec.add_comm n, BitVec.xor_comm n,
      BitVec.xor_comm (n1 - nlimit)]
  rw [hcross]
  cases hsum : (n + (n1 - nlimit) ^^^ (n1 - nlimit)).slt 0#_ <;>
    cases hsign : (n ^^^ (n1 - nlimit)).slt 0#_ <;>
    simp [plusLoopForth, zeroLess, zeroEquals, flag_or, flag_eq_zero_iff (Nat.succ_pos v), hsum,
      hsign]

/-! ## All versions and words -/

/-- The versions of {lit}`(+loop)` in C leave the loop at the boundary, and so does the Forth
version. -/
theorem plusLoop_exit_iff {v : Nat} (nlimit n1 n : BitVec (v + 1)) :
    ((plusLoopBuiltin nlimit n1 n).again = false ↔ PlusCrosses nlimit n1 n) ∧
    ((plusLoopXor nlimit n1 n).again = false ↔ PlusCrosses nlimit n1 n) ∧
    (∀ fetch cell ip d r, plusLoopForth fetch cell ⟨n :: d, ip :: n1 :: nlimit :: r⟩ =
      some (if PlusCrosses nlimit n1 n then ⟨d, (ip + cell) :: n1 :: nlimit :: r⟩
        else ⟨d, fetch ip :: (n1 + n) :: nlimit :: r⟩)) := by
  refine ⟨plusLoopBuiltin_exit_iff nlimit n1 n, plusLoopXor_exit_iff nlimit n1 n, ?_⟩
  intro fetch cell ip d r
  have hexit := plusLoopXor_exit_iff nlimit n1 n
  rw [plusLoopForth_eq, BitVec.add_comm n n1]
  by_cases hcross : PlusCrosses nlimit n1 n
  · rw [if_pos hcross, hexit.mpr hcross, if_neg Bool.false_ne_true]
  · rw [if_neg hcross, Bool.eq_true_of_not_eq_false (mt hexit.mp hcross), if_pos rfl]

/-- A positive increment takes the same steps for {lit}`(+loop)` and {lit}`(/loop)`. -/
theorem plusCrosses_iff_slashCrosses {nlimit n1 n : BitVec w} (hn : (0#w).slt n) :
    PlusCrosses nlimit n1 n ↔ SlashCrosses nlimit n1 n := by
  have hpos : 0 < n.toInt := by
    rwa [BitVec.slt_iff_toInt_lt, BitVec.toInt_zero] at hn
  have hneg : ¬n.slt 0#w := by
    rw [slt_zero_iff]
    omega
  have hsteps : n.toInt.natAbs = n.toNat := by
    rcases toInt_cases n with ⟨h, heq⟩ | ⟨h, heq⟩ <;> omega
  rw [PlusCrosses, if_neg hneg, SlashCrosses, hsteps]

/-- The optimizer does not throw for {lit}`(+loop)`, and the word that it compiles does the same
step; {lit}`n` is what the increment is at run time. -/
theorem plusLoopOptimizer_step {plus : BitVec w → BitVec w → BitVec w → LoopStep w}
    (hindex : ∀ nlimit n1 n, (plus nlimit n1 n).index = n1 + n)
    (hexit : ∀ nlimit n1 n, (plus nlimit n1 n).again = false ↔ PlusCrosses nlimit n1 n)
    {xt : LoopWord} (hxt : xt = .plusLoop ∨ xt = .plusLoopLp) {lits : List (BitVec w)}
    {n : BitVec w} (hn : ∀ x ∈ lits.head?, x = n) :
    ∃ xt', plusLoopOptimizer lits xt = .ok xt' ∧
      ∀ nlimit n1, xt'.step plus nlimit n1 n = xt.step plus nlimit n1 n := by
  have hslash : (0#w).slt n → ∀ nlimit n1, slashLoop nlimit n1 n = plus nlimit n1 n := by
    intro hpos nlimit n1
    have hagain : (slashLoop nlimit n1 n).again = (plus nlimit n1 n).again := by
      rw [Bool.eq_iff_iff, ← not_iff_not, Bool.not_eq_true, Bool.not_eq_true,
        slashLoop_exit_iff, hexit, plusCrosses_iff_slashCrosses hpos]
    have hindex' : (slashLoop nlimit n1 n).index = (plus nlimit n1 n).index :=
      (hindex nlimit n1 n).symm
    cases hs : slashLoop nlimit n1 n
    cases hp : plus nlimit n1 n
    rw [hs, hp] at hagain hindex'
    rw [LoopStep.mk.injEq]
    exact ⟨hindex', hagain⟩
  cases lits with
  | nil => exact ⟨xt, rfl, fun _ _ => rfl⟩
  | cons x l =>
    obtain rfl : x = n := hn x rfl
    rw [plusLoopOptimizer]
    by_cases hpos : (0#w).slt x
    · rw [if_pos hpos]
      rcases hxt with rfl | rfl
      · exact ⟨.slashLoop, rfl, hslash hpos⟩
      · exact ⟨.slashLoopLp, rfl, hslash hpos⟩
    · rw [if_neg hpos]
      exact ⟨xt, rfl, fun _ _ => rfl⟩

/-- Each word leaves the loop exactly if the index crosses its boundary, and the replacement of
{lit}`(+loop)` by {lit}`(/loop)` changes no step. -/
theorem loopEnds_iff {v : Nat} (nlimit n1 : BitVec (v + 1)) :
    (∀ n, (plusLoopBuiltin nlimit n1 n).again = false ↔ PlusCrosses nlimit n1 n) ∧
    (∀ n, (plusLoopXor nlimit n1 n).again = false ↔ PlusCrosses nlimit n1 n) ∧
    (∀ n fetch cell ip d r, plusLoopForth fetch cell ⟨n :: d, ip :: n1 :: nlimit :: r⟩ =
      some (if PlusCrosses nlimit n1 n then ⟨d, (ip + cell) :: n1 :: nlimit :: r⟩
        else ⟨d, fetch ip :: (n1 + n) :: nlimit :: r⟩)) ∧
    (∀ u, (slashLoop nlimit n1 u).again = false ↔ SlashCrosses nlimit n1 u) ∧
    (∀ u, (minusLoop nlimit n1 u).again = false ↔ MinusCrosses nlimit n1 u) ∧
    (∀ n, (sPlusLoop nlimit n1 n).again = false ↔ SPlusCrosses nlimit n1 n) ∧
    (∀ plus ∈ [plusLoopBuiltin, plusLoopXor], ∀ xt ∈ [LoopWord.plusLoop, .plusLoopLp],
      ∀ lits n, (∀ x ∈ lits.head?, x = n) →
        ∃ xt', plusLoopOptimizer lits xt = .ok xt' ∧
          xt'.step plus nlimit n1 n = xt.step plus nlimit n1 n) := by
  refine ⟨fun n => (plusLoop_exit_iff nlimit n1 n).1, fun n => (plusLoop_exit_iff nlimit n1 n).2.1,
    fun n => (plusLoop_exit_iff nlimit n1 n).2.2, slashLoop_exit_iff nlimit n1,
    minusLoop_exit_iff nlimit n1, sPlusLoop_exit_iff nlimit n1, ?_⟩
  intro plus hplus xt hxt lits n hn
  have hxt' : xt = .plusLoop ∨ xt = .plusLoopLp := by
    simpa using hxt
  have hstep : ∃ xt', plusLoopOptimizer lits xt = .ok xt' ∧
      ∀ nlimit n1, xt'.step plus nlimit n1 n = xt.step plus nlimit n1 n := by
    rcases (by simpa using hplus : plus = plusLoopBuiltin ∨ plus = plusLoopXor) with rfl | rfl
    · exact plusLoopOptimizer_step (fun _ _ _ => rfl) plusLoopBuiltin_exit_iff hxt' hn
    · exact plusLoopOptimizer_step (fun _ _ _ => rfl) plusLoopXor_exit_iff hxt' hn
  obtain ⟨xt', hcompile, heq⟩ := hstep
  exact ⟨xt', hcompile, heq nlimit n1⟩

/-- A literal increment of 3 before {lit}`(+loop)` -/
theorem loopEnds_iff_three :
    ∃ xt', plusLoopOptimizer [3#64] .plusLoop = .ok xt' ∧
      xt'.step plusLoopXor 10#64 8#64 3#64 = plusLoopXor 10#64 8#64 3#64 :=
  (loopEnds_iff (v := 63) 10#64 8#64).2.2.2.2.2.2 plusLoopXor (by simp) .plusLoop (by simp)
    [3#64] 3#64 (by simp)

end Loops
end Arith
end Gforth
