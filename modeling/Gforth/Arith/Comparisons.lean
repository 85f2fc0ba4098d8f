import Gforth.Arith.Ports
import Gforth.Lib.Bytes

/-!
# Comparisons in Forth

Where a port lacks a comparison, its definition in Forth uses other comparisons, which may be
primitives or defined in Forth themselves.  {lit}`0>` and {lit}`0>=` negate their argument, and the
most negative cell is its own negation.

Main results:

- Theorems {lit}`ult_by_signs` and {lit}`slt_by_flip`: {lit}`u<` by signs and {lit}`<` by flipped
  sign bits.
- Theorem {lit}`comparisons_agree_iff`: for which arguments the definitions leave the same flag as
  the C code.
-/

namespace Gforth
namespace Arith
namespace Comparisons

open Lib Stacks
open LongLong (flag flag_not flag_eq_zero_iff Comparison)
open Forth (ifThen)

variable {w : Nat}

/-! ## The C code -/

/-- The prefixes of the comparisons: with zero, signed, and unsigned -/
inductive Variant where
  | zero | signed | unsigned
deriving DecidableEq

/-- The primitives whose definitions in Forth are compared -/
inductive Word where
  | compare (v : Variant) (c : Comparison)
  | within | max | min | abs

/-- {lit}`comparisons`: {lit}`lt` is {lit}`<` for the type of the arguments. -/
def comparison (lt : BitVec w → BitVec w → Bool) : Comparison → BitVec w → BitVec w → Bool
  | .equals, x, y => x = y
  | .notEquals, x, y => x ≠ y
  | .lessThan, x, y => lt x y
  | .greaterThan, x, y => lt y x
  | .lessOrEqual, x, y => !lt y x
  | .greaterOrEqual, x, y => !lt x y

/-- The number of arguments -/
def arity : Word → Nat
  | .compare .zero _ | .abs => 1
  | .compare _ _ | .max | .min => 2
  | .within => 3

/-- The C code, for the arguments with the top of the stack first -/
def code : Word → List (BitVec w) → Option (List (BitVec w))
  | .compare .zero c, [n] => some [flag (comparison BitVec.slt c n 0#w)]
  | .compare .signed c, [n2, n1] => some [flag (comparison BitVec.slt c n1 n2)]
  | .compare .unsigned c, [u2, u1] => some [flag (comparison BitVec.ult c u1 u2)]
  | .within, [u3, u2, u1] => some [flag ((u1 - u2).ult (u3 - u2))]
  | .max, [n2, n1] => some [if n1.slt n2 then n2 else n1]
  | .min, [n2, n1] => some [if n1.slt n2 then n1 else n2]
  | .abs, [n] => some [if n.slt 0#w then -n else n]
  | _, _ => none

/-- A primitive on the data stack -/
def prim (word : Word) : Effect (BitVec w)
  | ⟨d, r⟩ => (code word (d.take (arity word))).map fun res => ⟨res ++ d.drop (arity word), r⟩

/-! ## The definitions in Forth -/

/-- The primitives that a port has -/
abbrev Prims : Type :=
  Word → Bool

/-- A word is a primitive, or has its definition in Forth. -/
def resolve (has : Prims) (word : Word) (forth : List (Effect (BitVec w))) : Effect (BitVec w) :=
  if has word then prim word else colon forth

variable (has : Prims)

/-- {lit}`0=` -/
def zeroEquals : Effect (BitVec w) :=
  resolve has (.compare .zero .equals) [ifThen [lit (flag false)] [lit (flag true)]]

/-- {lit}`0<>` -/
def zeroNotEquals : Effect (BitVec w) :=
  resolve has (.compare .zero .notEquals) [ifThen [lit (flag true)] [lit (flag false)]]

/-- {lit}`0<` -/
def zeroLessThan : Effect (BitVec w) :=
  resolve has (.compare .zero .lessThan)
    [lit (cellMin w), binary (· &&& ·), zeroNotEquals has]

/-- {lit}`0>` -/
def zeroGreaterThan : Effect (BitVec w) :=
  resolve has (.compare .zero .greaterThan) [unary (-·), zeroLessThan has]

/-- {lit}`0<=` -/
def zeroLessOrEqual : Effect (BitVec w) :=
  resolve has (.compare .zero .lessOrEqual) [zeroGreaterThan has, zeroEquals has]

/-- {lit}`0>=` -/
def zeroGreaterOrEqual : Effect (BitVec w) :=
  resolve has (.compare .zero .greaterOrEqual) [unary (-·), zeroLessOrEqual has]

/-- {lit}`=` and {lit}`u=` -/
def equals (v : Variant) : Effect (BitVec w) :=
  resolve has (.compare v .equals) [binary (· ^^^ ·), zeroEquals has]

/-- {lit}`<>` and {lit}`u<>` -/
def notEquals (v : Variant) : Effect (BitVec w) :=
  resolve has (.compare v .notEquals) [binary (· ^^^ ·), zeroNotEquals has]

/-- {lit}`u<` -/
def uLessThan : Effect (BitVec w) :=
  resolve has (.compare .unsigned .lessThan)
    [twoDup, binary (· ^^^ ·), zeroLessThan has, ifThen [nip] [binary (· - ·)], zeroLessThan has]

/-- {lit}`<` -/
def lessThan : Effect (BitVec w) :=
  resolve has (.compare .signed .lessThan)
    [lit (cellMin w), binary (· ^^^ ·), toR, lit (cellMin w), binary (· ^^^ ·), fromR,
      uLessThan has]

/-- {lit}`<` and {lit}`u<`, by their prefix -/
def lessThanOf : Variant → Effect (BitVec w)
  | .zero => zeroLessThan has
  | .signed => lessThan has
  | .unsigned => uLessThan has

/-- {lit}`>` and {lit}`u>` -/
def greaterThan (v : Variant) : Effect (BitVec w) :=
  resolve has (.compare v .greaterThan) [swap, lessThanOf has v]

/-- {lit}`<=` and {lit}`u<=` -/
def lessOrEqual (v : Variant) : Effect (BitVec w) :=
  resolve has (.compare v .lessOrEqual) [greaterThan has v, zeroEquals has]

/-- {lit}`>=` and {lit}`u>=` -/
def greaterOrEqual (v : Variant) : Effect (BitVec w) :=
  resolve has (.compare v .greaterOrEqual) [swap, lessOrEqual has v]

/-- {lit}`within` -/
def within : Effect (BitVec w) :=
  resolve has .within [over', binary (· - ·), toR, binary (· - ·), fromR, uLessThan has]

/-- {lit}`max` -/
def max : Effect (BitVec w) :=
  resolve has .max [twoDup, lessThan has, ifThen [swap] [], drop]

/-- {lit}`min` -/
def min : Effect (BitVec w) :=
  resolve has .min [twoDup, greaterThan has .signed, ifThen [swap] [], drop]

/-- {lit}`abs` -/
def abs : Effect (BitVec w) :=
  resolve has .abs [dup, zeroLessThan has, ifThen [unary (-·)] []]

/-- What a port executes for a word -/
def run : Word → Effect (BitVec w)
  | .compare .zero .equals => zeroEquals has
  | .compare .zero .notEquals => zeroNotEquals has
  | .compare .zero .lessThan => zeroLessThan has
  | .compare .zero .greaterThan => zeroGreaterThan has
  | .compare .zero .lessOrEqual => zeroLessOrEqual has
  | .compare .zero .greaterOrEqual => zeroGreaterOrEqual has
  | .compare v .equals => equals has v
  | .compare v .notEquals => notEquals has v
  | .compare v .lessThan => lessThanOf has v
  | .compare v .greaterThan => greaterThan has v
  | .compare v .lessOrEqual => lessOrEqual has v
  | .compare v .greaterOrEqual => greaterOrEqual has v
  | .within => within has
  | .max => max has
  | .min => min has
  | .abs => abs has

/-! ## Cells -/

/-- For cells of the same sign the difference shows which one is less. -/
theorem ult_eq_msb_sub (hw : 0 < w) {x y : BitVec w} (hsign : x.msb = y.msb) :
    (x - y).msb = x.ult y := by
  have hpow := two_pow_eq_add hw
  have hx := x.isLt
  have hy := y.isLt
  rw [BitVec.msb_eq_decide, BitVec.msb_eq_decide, decide_eq_decide] at hsign
  rw [BitVec.msb_eq_decide, BitVec.ult, decide_eq_decide, BitVec.toNat_sub]
  rcases Nat.lt_or_ge x.toNat y.toNat with hlt | hge
  · rw [Nat.mod_eq_of_lt (by omega)]
    omega
  · have hsum : 2 ^ w - y.toNat + x.toNat = x.toNat - y.toNat + 2 ^ w := by omega
    rw [hsum, Nat.add_mod_right, Nat.mod_eq_of_lt (by omega)]
    omega

/-- {lit}`u<` by the signs of the arguments and of their difference -/
theorem ult_by_signs (hw : 0 < w) (x y : BitVec w) :
    (if (x ^^^ y).slt 0#w then y else x - y).slt 0#w = x.ult y := by
  rw [BitVec.slt_zero_eq_msb, BitVec.slt_zero_eq_msb, BitVec.msb_xor]
  by_cases hsign : x.msb = y.msb
  · rw [hsign, Bool.xor_self, if_neg Bool.false_ne_true, ult_eq_msb_sub hw hsign]
  · rw [if_pos (bne_iff_ne.mpr hsign), BitVec.ult_eq_msb_of_msb_neq hsign]

/-- Flipping the sign bit adds or subtracts it. -/
theorem toNat_xor_cellMin (hw : 0 < w) (x : BitVec w) :
    (x ^^^ cellMin w).toNat =
      if x.toNat < 2 ^ (w - 1) then x.toNat + 2 ^ (w - 1) else x.toNat - 2 ^ (w - 1) := by
  have hpow := two_pow_eq_add hw
  have hx := x.isLt
  rw [BitVec.toNat_xor, toNat_cellMin hw]
  split
  · rename_i hlt
    exact xor_two_pow_of_lt hlt
  · rename_i hge
    exact xor_two_pow_of_ge (Nat.not_lt.mp hge) (by omega)

/-- {lit}`<` is {lit}`u<` after the sign bits are flipped. -/
theorem slt_by_flip (hw : 0 < w) (x y : BitVec w) :
    (x ^^^ cellMin w).ult (y ^^^ cellMin w) = x.slt y := by
  have hpow := two_pow_eq_add hw
  have hx := x.isLt
  have hy := y.isLt
  rw [BitVec.ult, BitVec.slt, decide_eq_decide, toNat_xor_cellMin hw, toNat_xor_cellMin hw,
    BitVec.toInt_eq_toNat_cond, BitVec.toInt_eq_toNat_cond]
  split <;> split <;> split <;> split <;> omega

/-- The highest bit is that of negative numbers. -/
theorem and_cellMin_ne_zero_iff (hw : 0 < w) (n : BitVec w) :
    n &&& cellMin w ≠ 0#w ↔ n.slt 0#w = true := by
  have hpos := Nat.two_pow_pos (w - 1)
  rw [BitVec.slt_zero_eq_msb, BitVec.msb_eq_decide, decide_eq_true_eq, Ne, ← BitVec.toNat_inj,
    toNat_and_cellMin hw, BitVec.toNat_zero, Nat.mul_eq_zero]
  rcases toNat_highbit_cases hw n with ⟨hlt, hbit⟩ | ⟨hge, hbit⟩ <;> omega

/-! ## Words with the result of the C code -/

section Words

variable {has} (hw : 0 < w) (d r : List (BitVec w)) (p : List (Effect (BitVec w)))

/-- A word that is a primitive, or not, does the same if both versions do. -/
theorem resolve_eq {word : Word} {forth : List (Effect (BitVec w))} {s s' : Stacks (BitVec w)}
    (hprim : prim word s = some s') (hforth : colon forth s = some s') :
    resolve has word forth s = some s' := by
  unfold resolve
  split
  · exact hprim
  · exact hforth

/-- {lit}`0=` in both versions -/
theorem zeroEquals_eq (n : BitVec w) :
    zeroEquals has ⟨n :: d, r⟩ = some ⟨flag (n = 0#w) :: d, r⟩ := by
  refine resolve_eq rfl ?_
  by_cases hn : n = 0#w <;> simp [colon_ifThen, hn]

/-- {lit}`0<>` in both versions -/
theorem zeroNotEquals_eq (n : BitVec w) :
    zeroNotEquals has ⟨n :: d, r⟩ = some ⟨flag (n ≠ 0#w) :: d, r⟩ := by
  refine resolve_eq rfl ?_
  by_cases hn : n = 0#w <;> simp [colon_ifThen, hn]

variable {v : Variant}

/-- {lit}`=` in both versions -/
theorem equals_eq (hv : v ≠ .zero) (x y : BitVec w) :
    equals has v ⟨y :: x :: d, r⟩ = some ⟨flag (x = y) :: d, r⟩ := by
  have hflag : decide (x ^^^ y = 0#w) = decide (x = y) := by
    rw [decide_eq_decide, BitVec.xor_eq_zero_iff]
  refine resolve_eq ?_ ?_
  · cases v with
    | zero => exact absurd rfl hv
    | signed => rfl
    | unsigned => rfl
  · rw [colon_binary, colon_cons_of_eq (zeroEquals_eq d r _), colon_nil, hflag]

/-- {lit}`<>` in both versions -/
theorem notEquals_eq (hv : v ≠ .zero) (x y : BitVec w) :
    notEquals has v ⟨y :: x :: d, r⟩ = some ⟨flag (x ≠ y) :: d, r⟩ := by
  have hflag : decide (x ^^^ y ≠ 0#w) = decide (x ≠ y) := by
    rw [decide_eq_decide, Ne, BitVec.xor_eq_zero_iff]
  refine resolve_eq ?_ ?_
  · cases v with
    | zero => exact absurd rfl hv
    | signed => rfl
    | unsigned => rfl
  · rw [colon_binary, colon_cons_of_eq (zeroNotEquals_eq d r _), colon_nil, hflag]

include hw

/-- {lit}`0<` in both versions -/
theorem zeroLessThan_eq (n : BitVec w) :
    zeroLessThan has ⟨n :: d, r⟩ = some ⟨flag (n.slt 0#w) :: d, r⟩ := by
  refine resolve_eq rfl ?_
  have hflag : decide (n &&& cellMin w ≠ 0#w) = n.slt 0#w := by
    rw [Bool.eq_iff_iff, decide_eq_true_eq, and_cellMin_ne_zero_iff hw]
  rw [colon_lit, colon_binary, colon_cons_of_eq (zeroNotEquals_eq d r _), colon_nil, hflag]

/-- {lit}`u<` in both versions -/
theorem uLessThan_eq (u1 u2 : BitVec w) :
    uLessThan has ⟨u2 :: u1 :: d, r⟩ = some ⟨flag (u1.ult u2) :: d, r⟩ := by
  refine resolve_eq rfl ?_
  rw [← ult_by_signs hw u1 u2, colon_twoDup, colon_binary,
    colon_cons_of_eq (zeroLessThan_eq hw _ r _), colon_ifThen_flag _ _ _ hw]
  split
  · rw [List.singleton_append, colon_nip, colon_cons_of_eq (zeroLessThan_eq hw d r _), colon_nil]
  · rw [List.singleton_append, colon_binary, colon_cons_of_eq (zeroLessThan_eq hw d r _), colon_nil]

/-- {lit}`<` in both versions -/
theorem lessThan_eq (n1 n2 : BitVec w) :
    lessThan has ⟨n2 :: n1 :: d, r⟩ = some ⟨flag (n1.slt n2) :: d, r⟩ := by
  refine resolve_eq rfl ?_
  rw [← slt_by_flip hw n1 n2, colon_lit, colon_binary, colon_toR, colon_lit, colon_binary,
    colon_fromR, colon_cons_of_eq (uLessThan_eq hw d r _ _), colon_nil]

/-- The order of the arguments of a comparison -/
def Variant.lt : Variant → BitVec w → BitVec w → Bool
  | .unsigned => BitVec.ult
  | _ => BitVec.slt

/-- {lit}`<` and {lit}`u<`, in both versions -/
theorem lessThanOf_eq (hv : v ≠ .zero) (x y : BitVec w) :
    lessThanOf has v ⟨y :: x :: d, r⟩ = some ⟨flag (v.lt x y) :: d, r⟩ := by
  cases v with
  | zero => exact absurd rfl hv
  | signed => exact lessThan_eq hw d r x y
  | unsigned => exact uLessThan_eq hw d r x y

/-- {lit}`>` and {lit}`u>`, in both versions -/
theorem greaterThan_eq (hv : v ≠ .zero) (x y : BitVec w) :
    greaterThan has v ⟨y :: x :: d, r⟩ = some ⟨flag (v.lt y x) :: d, r⟩ := by
  refine resolve_eq ?_ ?_
  · cases v with
    | zero => exact absurd rfl hv
    | signed => rfl
    | unsigned => rfl
  · rw [colon_swap, colon_cons_of_eq (lessThanOf_eq hw d r hv y x), colon_nil]

/-- {lit}`<=` and {lit}`u<=`, in both versions -/
theorem lessOrEqual_eq (hv : v ≠ .zero) (x y : BitVec w) :
    lessOrEqual has v ⟨y :: x :: d, r⟩ = some ⟨flag (!v.lt y x) :: d, r⟩ := by
  refine resolve_eq ?_ ?_
  · cases v with
    | zero => exact absurd rfl hv
    | signed => rfl
    | unsigned => rfl
  · rw [colon_cons_of_eq (greaterThan_eq hw d r hv x y),
      colon_cons_of_eq (zeroEquals_eq d r _), flag_not hw, colon_nil]

/-- {lit}`>=` and {lit}`u>=`, in both versions -/
theorem greaterOrEqual_eq (hv : v ≠ .zero) (x y : BitVec w) :
    greaterOrEqual has v ⟨y :: x :: d, r⟩ = some ⟨flag (!v.lt x y) :: d, r⟩ := by
  refine resolve_eq ?_ ?_
  · cases v with
    | zero => exact absurd rfl hv
    | signed => rfl
    | unsigned => rfl
  · rw [colon_swap, colon_cons_of_eq (lessOrEqual_eq hw d r hv y x), colon_nil]

/-- {lit}`within` compares two differences. -/
theorem within_eq (u1 u2 u3 : BitVec w) :
    within has ⟨u3 :: u2 :: u1 :: d, r⟩ = some ⟨flag ((u1 - u2).ult (u3 - u2)) :: d, r⟩ := by
  refine resolve_eq rfl ?_
  rw [colon_over, colon_binary, colon_toR, colon_binary, colon_fromR,
    colon_cons_of_eq (uLessThan_eq hw d r _ _), colon_nil]

/-- {lit}`max` in both versions -/
theorem max_eq (n1 n2 : BitVec w) :
    max has ⟨n2 :: n1 :: d, r⟩ = some ⟨(if n1.slt n2 then n2 else n1) :: d, r⟩ := by
  refine resolve_eq rfl ?_
  rw [colon_twoDup, colon_cons_of_eq (lessThan_eq hw _ r n1 n2), colon_ifThen_flag _ _ _ hw]
  split <;> rfl

/-- {lit}`min` in both versions -/
theorem min_eq (n1 n2 : BitVec w) :
    min has ⟨n2 :: n1 :: d, r⟩ = some ⟨(if n1.slt n2 then n1 else n2) :: d, r⟩ := by
  refine resolve_eq rfl ?_
  rw [colon_twoDup, colon_cons_of_eq (greaterThan_eq hw _ r (v := .signed) (by decide) n1 n2),
    colon_ifThen_flag _ _ _ hw]
  have horder : (if Variant.signed.lt n2 n1 then n2 else n1) = if n1.slt n2 then n1 else n2 := by
    have htri := BitVec.slt_trichotomy n1 n2
    simp only [Variant.lt, BitVec.slt_iff_toInt_lt] at htri ⊢
    rcases htri with hlt | heq | hlt
    · rw [if_pos hlt, if_neg (by omega)]
    · rw [heq, ite_self]
    · rw [if_pos hlt, if_neg (by omega)]
  rw [← horder]
  split <;> rfl

/-- {lit}`abs` in both versions -/
theorem abs_eq (n : BitVec w) :
    abs has ⟨n :: d, r⟩ = some ⟨(if n.slt 0#w then -n else n) :: d, r⟩ := by
  refine resolve_eq rfl ?_
  rw [colon_dup, colon_cons_of_eq (zeroLessThan_eq hw _ r n), colon_ifThen_flag _ _ _ hw]
  split <;> rfl

end Words

/-! ## Words that negate -/

/-- What {lit}`0>`, {lit}`0<=` and {lit}`0>=` say on a port -/
def zeroGreater (n : BitVec w) : Bool :=
  if has (.compare .zero .greaterThan) then (0#w).slt n else (-n).slt 0#w

@[inherit_doc zeroGreater]
def zeroLessEq (n : BitVec w) : Bool :=
  if has (.compare .zero .lessOrEqual) then !(0#w).slt n else !zeroGreater has n

@[inherit_doc zeroGreater]
def zeroGreaterEq (n : BitVec w) : Bool :=
  if has (.compare .zero .greaterOrEqual) then !n.slt 0#w else zeroLessEq has (-n)

section Negations

variable {has} (hw : 0 < w) (d r : List (BitVec w))

include hw

/-- What {lit}`0>` computes from the words that there are -/
theorem zeroGreaterThan_eq (n : BitVec w) :
    zeroGreaterThan has ⟨n :: d, r⟩ = some ⟨flag (zeroGreater has n) :: d, r⟩ := by
  rw [zeroGreaterThan, resolve, zeroGreater]
  split
  · rfl
  · rw [colon_unary, colon_cons_of_eq (zeroLessThan_eq hw d r _), colon_nil]

/-- What {lit}`0<=` computes from the words that there are -/
theorem zeroLessOrEqual_eq (n : BitVec w) :
    zeroLessOrEqual has ⟨n :: d, r⟩ = some ⟨flag (zeroLessEq has n) :: d, r⟩ := by
  rw [zeroLessOrEqual, resolve, zeroLessEq]
  split
  · rfl
  · rw [colon_cons_of_eq (zeroGreaterThan_eq hw d r n), colon_cons_of_eq (zeroEquals_eq d r _),
      flag_not hw, colon_nil]

/-- What {lit}`0>=` computes from the words that there are -/
theorem zeroGreaterOrEqual_eq (n : BitVec w) :
    zeroGreaterOrEqual has ⟨n :: d, r⟩ = some ⟨flag (zeroGreaterEq has n) :: d, r⟩ := by
  rw [zeroGreaterOrEqual, resolve, zeroGreaterEq]
  split
  · rfl
  · rw [colon_unary, colon_cons_of_eq (zeroLessOrEqual_eq hw d r _), colon_nil]

omit d r

/-- The least number is not positive. -/
theorem not_zero_slt_cellMin : (0#w).slt (cellMin w) = false := by
  have hpos : (0 : Int) < 2 ^ (w - 1) := by positivity
  rw [cellMin_eq, BitVec.slt, decide_eq_false_iff_not, BitVec.toInt_zero,
    BitVec.toInt_intMin_of_pos hw]
  omega

/-- The sign of the negation, which the most negative cell keeps -/
theorem neg_slt_zero_iff (n : BitVec w) : (-n).slt 0#w = (0#w).slt n ↔ n ≠ cellMin w := by
  have hneg := BitVec.neg_slt_zero hw (x := n)
  rw [← cellMin_eq] at hneg
  by_cases hn : n = cellMin w
  · rw [hneg, hn, not_zero_slt_cellMin hw, beq_self_eq_true, Bool.or_false]
    exact iff_of_false Bool.noConfusion (not_not.mpr rfl)
  · rw [hneg, beq_false_of_ne hn, Bool.false_or]
    exact iff_of_true rfl hn

/-- {lit}`0>` is right unless it negates the least number. -/
theorem zeroGreater_iff (n : BitVec w) :
    zeroGreater has n = (0#w).slt n ↔
      has (.compare .zero .greaterThan) = true ∨ n ≠ cellMin w := by
  rw [zeroGreater]
  split
  · rename_i h
    simp [h]
  · rename_i h
    rw [neg_slt_zero_iff hw, or_iff_right h]

/-- {lit}`0<=` is right unless it negates the least number. -/
theorem zeroLessEq_iff (n : BitVec w) :
    zeroLessEq has n = !(0#w).slt n ↔
      has (.compare .zero .lessOrEqual) = true ∨ has (.compare .zero .greaterThan) = true ∨
        n ≠ cellMin w := by
  rw [zeroLessEq]
  split
  · rename_i h
    simp [h]
  · rename_i h
    rw [Bool.not_inj_iff, zeroGreater_iff hw, or_iff_right h]

/-- {lit}`0>=` is right unless it negates the least number. -/
theorem zeroGreaterEq_iff (n : BitVec w) :
    zeroGreaterEq has n = !n.slt 0#w ↔
      has (.compare .zero .greaterOrEqual) = true ∨
        (has (.compare .zero .lessOrEqual) = false ∧ has (.compare .zero .greaterThan) = false) ∨
        n ≠ cellMin w := by
  rw [zeroGreaterEq]
  split
  · rename_i h
    simp [h]
  rename_i h
  rw [or_iff_right h]
  have hsign := neg_slt_zero_iff hw (-n)
  have heq : zeroLessEq has (-n) = !(0#w).slt (-n) ↔ _ := zeroLessEq_iff hw (-n)
  have hmin : -cellMin w = cellMin w := by rw [cellMin_eq, BitVec.neg_intMin]
  by_cases hn : n = cellMin w
  · -- the negation of the most negative cell is below zero, not above
    have hneg : (cellMin w).slt 0#w = true := by
      rw [cellMin_eq, BitVec.slt_zero_eq_msb, BitVec.msb_intMin, decide_eq_true hw]
    rw [hn, hmin] at heq ⊢
    rw [hneg]
    rw [not_zero_slt_cellMin hw] at heq
    cases hle : has (.compare .zero .lessOrEqual) <;>
      cases hgt : has (.compare .zero .greaterThan) <;> simp_all
  · have hne : -n ≠ cellMin w := fun h' => hn (by rw [← BitVec.neg_neg (x := n), h', hmin])
    rw [BitVec.neg_neg] at hsign
    rw [heq.mpr (.inr (.inr hne)), ← hsign.mpr hne]
    exact iff_of_true rfl (.inr hn)

end Negations

/-! ## Agreement -/

/-- A port whose definitions in Forth negate the most negative cell and lose its sign: once for
{lit}`0>` and {lit}`0<=`; for {lit}`0>=` once if a primitive answers for the negation, where two
definitions lose the sign twice -/
def LosesSign : Word → List (BitVec w) → Prop
  | .compare .zero .greaterThan, args =>
      args = [cellMin w] ∧ has (.compare .zero .greaterThan) = false
  | .compare .zero .lessOrEqual, args =>
      args = [cellMin w] ∧ has (.compare .zero .lessOrEqual) = false ∧
        has (.compare .zero .greaterThan) = false
  | .compare .zero .greaterOrEqual, args =>
      args = [cellMin w] ∧ has (.compare .zero .greaterOrEqual) = false ∧
        (has (.compare .zero .lessOrEqual) = true ∨ has (.compare .zero .greaterThan) = true)
  | _, _ => False

section Agreement

/-- Flags are different for true and false. -/
theorem flag_inj (hw : 0 < w) {b b' : Bool} : (flag b : BitVec w) = flag b' ↔ b = b' := by
  have hb := flag_eq_zero_iff hw b
  have hb' := flag_eq_zero_iff hw b'
  constructor
  · intro h
    rw [h, hb'] at hb
    cases b <;> cases b' <;> simp_all
  · exact congrArg flag

theorem length_of_code {word : Word} {args res : List (BitVec w)} (h : code word args = some res) :
    args.length = arity word := by
  unfold code at h
  split at h <;> first | rfl | cases h

/-- A word with one argument that always leaves one result -/
theorem agrees_unary_iff {word : Word} {f : Effect (BitVec w)} {g g' : BitVec w → BitVec w}
    (harity : arity word = 1) (hcode : ∀ n, code word [n] = some [g n])
    (hrun : ∀ n d r, f ⟨n :: d, r⟩ = some ⟨g' n :: d, r⟩) (args : List (BitVec w)) :
    Agrees f (code word) args ↔ ∀ n, args = [n] → g' n = g n := by
  constructor
  · rintro hagrees n rfl
    have h := (hrun n [] []).symm.trans (hagrees _ (hcode n) [] [])
    injection h with hstacks
    injection hstacks with hdata
    exact (List.cons.inj hdata).1
  · intro hvalue res hres d r
    obtain ⟨n, rfl⟩ := List.length_eq_one_iff.mp ((length_of_code hres).trans harity)
    rw [hcode n] at hres
    cases hres
    rw [List.singleton_append, hrun, hvalue n rfl, List.singleton_append]

/-- A word that consumes two cells agrees with its primitive if they give the same cell. -/
theorem agrees_binary {word : Word} {f : Effect (BitVec w)} {g : BitVec w → BitVec w → BitVec w}
    (harity : arity word = 2) (hcode : ∀ x y, code word [y, x] = some [g x y])
    (hrun : ∀ x y d r, f ⟨y :: x :: d, r⟩ = some ⟨g x y :: d, r⟩) (args : List (BitVec w)) :
    Agrees f (code word) args := by
  intro res hres d r
  obtain ⟨y, x, rfl⟩ := List.length_eq_two.mp ((length_of_code hres).trans harity)
  rw [hcode x y] at hres
  cases hres
  exact hrun x y d r

/-- {lit}`within` agrees with its primitive. -/
theorem agrees_within (hw : 0 < w) (args : List (BitVec w)) :
    Agrees (within has) (code .within) args := by
  intro res hres d r
  obtain ⟨u3, u2, u1, rfl⟩ := List.length_eq_three.mp (length_of_code hres)
  cases hres
  exact within_eq hw d r u1 u2 u3

/-- A comparison runs the version for its operands. -/
theorem run_compare {v : Variant} (hv : v ≠ .zero) (c : Comparison) :
    (run has (.compare v c) : Effect (BitVec w)) =
      match c with
      | .equals => equals has v
      | .notEquals => notEquals has v
      | .lessThan => lessThanOf has v
      | .greaterThan => greaterThan has v
      | .lessOrEqual => lessOrEqual has v
      | .greaterOrEqual => greaterOrEqual has v := by
  cases v with
  | zero => exact absurd rfl hv
  | signed => cases c <;> rfl
  | unsigned => cases c <;> rfl

/-- Comparisons of two numbers -/
theorem agrees_compare (hw : 0 < w) {v : Variant} (hv : v ≠ .zero) (c : Comparison)
    (args : List (BitVec w)) :
    Agrees (run has (.compare v c)) (code (.compare v c)) args := by
  have hcode : ∀ x y : BitVec w,
      code (.compare v c) [y, x] = some [flag (comparison v.lt c x y)] := by
    intro x y
    cases v with
    | zero => exact absurd rfl hv
    | signed => rfl
    | unsigned => rfl
  have harity : arity (.compare v c) = 2 := by
    cases v with
    | zero => exact absurd rfl hv
    | signed => rfl
    | unsigned => rfl
  have hrun : ∀ x y d r, run has (.compare v c) ⟨y :: x :: d, r⟩ =
      some ⟨(flag (comparison v.lt c x y) : BitVec w) :: d, r⟩ := by
    intro x y d r
    rw [run_compare has hv]
    cases c with
    | equals => exact equals_eq d r hv x y
    | notEquals => exact notEquals_eq d r hv x y
    | lessThan => exact lessThanOf_eq hw d r hv x y
    | greaterThan => exact greaterThan_eq hw d r hv x y
    | lessOrEqual => exact lessOrEqual_eq hw d r hv x y
    | greaterOrEqual => exact greaterOrEqual_eq hw d r hv x y
  exact agrees_binary harity hcode hrun args

theorem forall_singleton_iff {args : List (BitVec w)} {m : BitVec w} {P : Prop} :
    (∀ n, args = [n] → P ∨ n ≠ m) ↔ ¬(args = [m] ∧ ¬P) := by
  constructor
  · rintro h ⟨hargs, hnot⟩
    exact (h m hargs).elim hnot fun hne => hne rfl
  · intro h n hargs
    by_contra hnot
    obtain ⟨hP, hm⟩ := not_or.mp hnot
    exact h ⟨by rw [hargs, not_not.mp hm], hP⟩

/-- Comparisons with zero agree unless they lose the sign of the most negative cell. -/
theorem agrees_compareZero_iff (hw : 0 < w) (c : Comparison) (args : List (BitVec w)) :
    Agrees (run has (.compare .zero c)) (code (.compare .zero c)) args ↔
      ¬LosesSign has (.compare .zero c) args := by
  have hagrees : ∀ {f : Effect (BitVec w)} {b : BitVec w → Bool},
      (∀ n d r, f ⟨n :: d, r⟩ = some ⟨flag (b n) :: d, r⟩) →
      (Agrees f (code (.compare .zero c)) args ↔
        ∀ n, args = [n] → b n = comparison BitVec.slt c n 0#w) := by
    intro f b hrun
    rw [agrees_unary_iff (g := fun n => flag (comparison BitVec.slt c n 0#w)) rfl (fun _ => rfl) hrun]
    simp only [flag_inj hw]
  cases c with
  | equals => exact iff_of_true ((hagrees fun n d r => zeroEquals_eq d r n).mpr fun _ _ => rfl) id
  | notEquals =>
    exact iff_of_true ((hagrees fun n d r => zeroNotEquals_eq d r n).mpr fun _ _ => rfl) id
  | lessThan =>
    exact iff_of_true ((hagrees fun n d r => zeroLessThan_eq hw d r n).mpr fun _ _ => rfl) id
  | greaterThan =>
    refine (hagrees fun n d r => zeroGreaterThan_eq hw d r n).trans ?_
    simp only [comparison, zeroGreater_iff hw, LosesSign]
    rw [forall_singleton_iff, Bool.not_eq_true]
  | lessOrEqual =>
    refine (hagrees fun n d r => zeroLessOrEqual_eq hw d r n).trans ?_
    simp only [comparison, zeroLessEq_iff hw, LosesSign, ← or_assoc]
    rw [forall_singleton_iff, not_or, Bool.not_eq_true, Bool.not_eq_true]
  | greaterOrEqual =>
    refine (hagrees fun n d r => zeroGreaterOrEqual_eq hw d r n).trans ?_
    simp only [comparison, zeroGreaterEq_iff hw, LosesSign, ← or_assoc]
    have hprims : ∀ le gt : Bool, ¬(le = false ∧ gt = false) ↔ le = true ∨ gt = true := by decide
    rw [forall_singleton_iff, not_or, Bool.not_eq_true, hprims]

end Agreement

/-- The definitions in Forth leave what the C code leaves, for all arguments but the most negative
cell of {lit}`0>`, {lit}`0<=` and {lit}`0>=`, where it depends on the primitives of the port. -/
theorem comparisons_agree_iff {w : Nat} (hw : 0 < w) (has : Prims) (word : Word)
    (args : List (BitVec w)) :
    Agrees (run has word) (code word) args ↔ ¬LosesSign has word args := by
  cases word with
  | compare v c =>
    by_cases hv : v = .zero
    · subst hv
      exact agrees_compareZero_iff has hw c args
    · refine iff_of_true (agrees_compare has hw hv c args) ?_
      cases v with
      | zero => exact absurd rfl hv
      | signed => exact id
      | unsigned => exact id
  | within => exact iff_of_true (agrees_within has hw args) id
  | max =>
    have hrun : ∀ x y d r, run has .max ⟨y :: x :: d, r⟩ = some ⟨_ :: d, r⟩ :=
      fun x y d r => max_eq hw d r x y
    exact iff_of_true (agrees_binary rfl (fun _ _ => rfl) hrun args) id
  | min =>
    have hrun : ∀ x y d r, run has .min ⟨y :: x :: d, r⟩ = some ⟨_ :: d, r⟩ :=
      fun x y d r => min_eq hw d r x y
    exact iff_of_true (agrees_binary rfl (fun _ _ => rfl) hrun args) id
  | abs =>
    have hrun : ∀ n d r, run has .abs ⟨n :: d, r⟩ = some ⟨_ :: d, r⟩ :=
      fun n d r => abs_eq hw d r n
    exact iff_of_true ((agrees_unary_iff rfl (fun _ => rfl) hrun args).mpr fun _ _ => rfl) id

/-- A port without these primitives, with 64-bit cells: {lit}`0>=` of the most negative cell -/
theorem comparisons_agree_iff_cellMin :
    Agrees (run (fun _ => false) (.compare .zero .greaterOrEqual))
      (code (.compare .zero .greaterOrEqual)) [cellMin 64] :=
  (comparisons_agree_iff (by decide) _ _ _).mpr fun h => by simp [LosesSign] at h

/-- A port without these primitives, with 64-bit cells: {lit}`0>` says that the most negative cell
is above zero. -/
theorem zeroGreaterThan_cellMin :
    run (fun _ => false) (.compare .zero .greaterThan) ⟨[cellMin 64], []⟩ =
        some ⟨[flag true], []⟩ ∧
      code (.compare .zero .greaterThan) [cellMin 64] = some [flag false] ∧
      ¬Agrees (run (fun _ => false) (.compare .zero .greaterThan))
        (code (.compare .zero .greaterThan)) [cellMin 64] := by
  refine ⟨by decide, by decide, fun h => ?_⟩
  exact (agrees_compareZero_iff _ (by decide) .greaterThan _).mp h ⟨rfl, rfl⟩

end Comparisons
end Arith
end Gforth
