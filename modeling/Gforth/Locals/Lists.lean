import Gforth.Arith.Fallbacks
import Gforth.Lib.Tails

/-!
# Lists of locals

The locals that are visible at some place in the code are a linked list of names, the latest first;
lists of different places share their tails.  Where control flows together, the visible locals are
the common tail of the lists.

Main results:

- Theorem {lit}`commonLists_correct`: {lit}`common-list` finds the longest common tail, and
  {lit}`sub-list?` tests for a tail.
-/

namespace Gforth
namespace Locals
namespace Lists

open Lib Stacks
open Arith (colon_zeroLess colon_ifThen_flag)
open Arith.Forth (zeroLess ifThen)
open Arith.LongLong (flag flag_eq_zero_iff)

variable {w : Nat}

/-! ## The words -/

variable (link : BitVec w → BitVec w)

/-- {lit}`name>link` -/
def nameToLink : Effect (BitVec w) :=
  unary link

/-- {lit}`under+` -/
def underPlus : Effect (BitVec w)
  | ⟨n3 :: n2 :: n1 :: d, r⟩ => some ⟨n2 :: (n1 + n3) :: d, r⟩
  | _ => none

/-- {lit}`max` -/
def max : Effect (BitVec w) :=
  binary fun n1 n2 => if n1.slt n2 then n2 else n1

/-- {lit}`=` -/
def equals : Effect (BitVec w) :=
  binary fun x y => flag (x = y)

/-- {lit}`u<>` -/
def notEquals : Effect (BitVec w) :=
  binary fun x y => flag (x ≠ y)

/-- {lit}`list-length` -/
def listLength (fuel : Nat) : Effect (BitVec w) :=
  colon [lit 0#w, swap,
    whileLoop (· ≠ 0#w) [dup] [nameToLink link, lit 1#w, underPlus] fuel,
    drop]

/-- {lit}`/list` -/
def slashList (fuel : Nat) : Effect (BitVec w) :=
  colon [lit 0#w, guardedLoop (· + 1#w) fuel [nameToLink link]]

/-- {lit}`common-list` -/
def commonList (fuel : Nat) : Effect (BitVec w) :=
  colon [over', listLength link fuel, over', listLength link fuel, binary (· - ·),
    dup, zeroLess, ifThen [unary (-·), toR, swap, fromR] [],
    rot, swap, slashList link fuel,
    whileLoop (· ≠ 0#w) [twoDup, notEquals] [nameToLink link, swap, nameToLink link] fuel,
    drop]

/-- {lit}`sub-list?` -/
def subList? (fuel : Nat) : Effect (BitVec w) :=
  colon [over', listLength link fuel, over', listLength link fuel, swap, binary (· - ·),
    lit 0#w, max, slashList link fuel, equals]

/-! ## Lists in memory -/

/-- The names of a list; the header of a name is aligned. -/
structure LocalsList (a : BitVec w) (l : List (BitVec w)) : Prop where
  listAt : ListAt 0#w link a l
  aligned : ∀ b ∈ l, 2 ∣ b.toNat

variable {link} {a a₁ a₂ : BitVec w} {l l₁ l₂ : List (BitVec w)}

/-- Lengths are positive as signed cells. -/
theorem LocalsList.length_lt (h : LocalsList link a l) : l.length < 2 ^ (w - 1) := by
  have hhalf : ∀ b ∈ l, b.toNat / 2 ∈ Finset.Ico 1 (2 ^ (w - 1)) := by
    intro b hb
    have hne : b.toNat ≠ 0 := fun h0 => h.listAt.ne_null hb (BitVec.eq_of_toNat_eq h0)
    obtain ⟨k, hk⟩ := h.aligned b hb
    have hlt := b.isLt
    cases w with
    | zero => omega
    | succ v =>
      rw [pow_succ] at hlt
      rw [Finset.mem_Ico, Nat.add_sub_cancel]
      omega
  have hnodup : (l.map fun b => b.toNat / 2).Nodup := by
    refine List.Nodup.map_on (fun b hb c hc heq => BitVec.eq_of_toNat_eq ?_) h.listAt.nodup
    have := h.aligned b hb
    have := h.aligned c hc
    omega
  have hcard := Finset.card_le_card (s := (l.map fun b => b.toNat / 2).toFinset)
    (t := Finset.Ico 1 (2 ^ (w - 1))) fun n hn => by
      rw [List.mem_toFinset, List.mem_map] at hn
      obtain ⟨b, hb, rfl⟩ := hn
      exact hhalf b hb
  rw [List.toFinset_card_of_nodup hnodup, List.length_map, Nat.card_Ico] at hcard
  have := Nat.two_pow_pos (w - 1)
  omega

/-! ## Lengths -/

variable {fuel : Nat}

/-- The loop of {lit}`list-length` counts the elements. -/
theorem listLength_loop (h : ListAt 0#w link a l) (hfuel : l.length < fuel) (u : BitVec w)
    (d r : List (BitVec w)) :
    whileLoop (· ≠ 0#w) [dup] [nameToLink link, lit 1#w, underPlus] fuel ⟨a :: u :: d, r⟩ =
      some ⟨0#w :: (u + BitVec.ofNat w l.length) :: d, r⟩ := by
  induction l generalizing a u fuel with
  | nil =>
    obtain ⟨fuel, rfl⟩ := Nat.exists_eq_succ_of_ne_zero (Nat.ne_of_gt hfuel)
    obtain rfl : a = 0#w := h
    rw [whileLoop_of_false fuel rfl (by simp), List.length_nil]
    simp
  | cons b l ih =>
    obtain ⟨fuel, rfl⟩ := Nat.exists_eq_succ_of_ne_zero (Nat.ne_of_gt (Nat.zero_lt_of_lt hfuel))
    obtain ⟨rfl, hne, hl⟩ := h
    have hbody : colon [nameToLink link, lit 1#w, underPlus] ⟨a :: u :: d, r⟩ =
        some ⟨link a :: (u + 1#w) :: d, r⟩ := rfl
    rw [Nat.succ_eq_add_one, whileLoop_of_true fuel (x := a) rfl (by simpa using hne) hbody,
      ih hl (by simpa using hfuel)]
    rw [List.length_cons, Nat.add_comm, BitVec.ofNat_add, BitVec.add_assoc]

theorem listLength_eq (h : ListAt 0#w link a l) (hfuel : l.length < fuel) (d r : List (BitVec w)) :
    listLength link fuel ⟨a :: d, r⟩ = some ⟨BitVec.ofNat w l.length :: d, r⟩ := by
  rw [listLength, colon_lit, colon_swap, colon_cons_of_eq (listLength_loop h hfuel 0#w d r),
    colon_drop, colon_nil, BitVec.zero_add]

theorem colon_listLength (h : ListAt 0#w link a l) (hfuel : l.length < fuel) (d r : List (BitVec w))
    (p : List (Effect (BitVec w))) :
    colon (listLength link fuel :: p) ⟨a :: d, r⟩ =
      colon p ⟨BitVec.ofNat w l.length :: d, r⟩ :=
  colon_cons_of_eq (listLength_eq h hfuel d r) p

/-! ## Tails -/

/-- {lit}`/list` for a number that is in a cell -/
theorem slashList_eq {n : Nat} (hn : n < 2 ^ w) (hfuel : n ≤ fuel) (a : BitVec w)
    (d r : List (BitVec w)) :
    slashList link fuel ⟨BitVec.ofNat w n :: a :: d, r⟩ = some ⟨link^[n] a :: d, r⟩ := by
  have hne : ∀ i ≤ n, ∀ j ≤ n, i ≠ j → BitVec.ofNat w i ≠ BitVec.ofNat w j := by
    intro i hi j hj hij heq
    have := congrArg BitVec.toNat heq
    rw [BitVec.toNat_ofNat, BitVec.toNat_ofNat, Nat.mod_eq_of_lt (by omega),
      Nat.mod_eq_of_lt (by omega)] at this
    exact hij this
  rw [slashList, colon_lit, colon_single]
  rcases Nat.eq_zero_or_pos n with rfl | hpos
  · rw [guardedLoop, if_pos rfl]
    rfl
  · rw [guardedLoop_of_ne (hne 0 (by omega) n le_rfl (by omega))]
    exact countedLoop_run (· + 1#w) _ (fun i => link^[i] a :: d) (fun i => BitVec.ofNat w i) _ r
      (fun i => BitVec.ofNat_add i 1)
      (fun i _ => by rw [nameToLink, colon_unary, colon_nil, Function.iterate_succ_apply'])
      rfl (fun i hi _ => hne i (by omega) n le_rfl (by omega)) hpos hfuel

/-- {lit}`/list` skips elements. -/
theorem colon_slashList {n : Nat} (hn : n < 2 ^ w) (hfuel : n ≤ fuel) (a : BitVec w)
    (d r : List (BitVec w)) (p : List (Effect (BitVec w))) :
    colon (slashList link fuel :: p) ⟨BitVec.ofNat w n :: a :: d, r⟩ =
      colon p ⟨link^[n] a :: d, r⟩ :=
  colon_cons_of_eq (slashList_eq hn hfuel a d r) p

theorem commonList_test (x y : BitVec w) (d r : List (BitVec w)) :
    colon [twoDup, notEquals] ⟨y :: x :: d, r⟩ =
      some ⟨flag (decide (x ≠ y)) :: y :: x :: d, r⟩ :=
  rfl

theorem commonList_test_eq_false (hw : 0 < w) {x y : BitVec w} (h : x = y) :
    decide (flag (decide (x ≠ y)) ≠ 0#w) = false :=
  decide_eq_false (not_not.2 ((flag_eq_zero_iff hw _).2 (decide_eq_false (not_not.2 h))))

theorem commonList_test_eq_true (hw : 0 < w) {x y : BitVec w} (h : x ≠ y) :
    decide (flag (decide (x ≠ y)) ≠ 0#w) = true :=
  decide_eq_true fun h0 => of_decide_eq_false ((flag_eq_zero_iff hw _).1 h0) h

/-- Lists of the same length are compared node by node; they change places in every pass. -/
theorem commonList_loop (hw : 0 < w) {n : Nat} (h₁ : ListAt 0#w link a₁ l₁)
    (h₂ : ListAt 0#w link a₂ l₂) (hn₁ : l₁.length = n) (hn₂ : l₂.length = n) (hfuel : n < fuel)
    (d r : List (BitVec w)) :
    ∃ c l, whileLoop (· ≠ 0#w) [twoDup, notEquals] [nameToLink link, swap, nameToLink link] fuel
        ⟨a₂ :: a₁ :: d, r⟩ = some ⟨c :: c :: d, r⟩ ∧
      ListAt 0#w link c l ∧ IsCommonTail l l₁ l₂ := by
  induction n generalizing a₁ a₂ l₁ l₂ fuel with
  | zero =>
    obtain ⟨fuel, rfl⟩ := Nat.exists_eq_succ_of_ne_zero (Nat.ne_of_gt hfuel)
    obtain rfl := List.length_eq_zero_iff.1 hn₁
    obtain rfl := List.length_eq_zero_iff.1 hn₂
    obtain rfl : a₁ = a₂ := (h₁.eq_iff h₂).2 rfl
    exact ⟨a₁, [], whileLoop_of_false fuel (commonList_test a₁ a₁ d r)
      (commonList_test_eq_false hw rfl), h₁, IsCommonTail.self []⟩
  | succ n ih =>
    obtain ⟨fuel, rfl⟩ := Nat.exists_eq_succ_of_ne_zero (Nat.ne_of_gt (Nat.zero_lt_of_lt hfuel))
    by_cases heq : a₁ = a₂
    · subst heq
      obtain rfl := h₁.unique h₂
      exact ⟨a₁, _, whileLoop_of_false fuel (commonList_test a₁ a₁ d r)
        (commonList_test_eq_false hw rfl), h₁, IsCommonTail.self _⟩
    · obtain ⟨b₁, l₁, rfl⟩ := List.exists_cons_of_length_eq_add_one hn₁
      obtain ⟨b₂, l₂, rfl⟩ := List.exists_cons_of_length_eq_add_one hn₂
      have hne := mt (h₁.eq_iff h₂).2 heq
      obtain ⟨rfl, -, h₁⟩ := h₁
      obtain ⟨rfl, -, h₂⟩ := h₂
      have hn₁ := Nat.succ_inj.1 hn₁
      have hn₂ := Nat.succ_inj.1 hn₂
      obtain ⟨c, l, hloop, hl, hcommon⟩ := ih h₂ h₁ hn₂ hn₁ (Nat.lt_of_succ_lt_succ hfuel)
      refine ⟨c, l, ?_, hl, hcommon.symm.of_cons (hn₁.trans hn₂.symm) hne⟩
      rw [← hloop]
      exact whileLoop_of_true fuel (commonList_test a₁ a₂ d r)
        (commonList_test_eq_true hw heq) rfl

/-! ## Common lists -/

/-- The sign of the difference of two lengths -/
theorem slt_sub_ofNat {n₁ n₂ : Nat} (h₁ : n₁ < 2 ^ (w - 1)) (h₂ : n₂ < 2 ^ (w - 1)) :
    (BitVec.ofNat w n₁ - BitVec.ofNat w n₂).slt 0#w = decide (n₁ < n₂) := by
  rw [BitVec.slt_zero_eq_msb, BitVec.msb_eq_decide, BitVec.toNat_sub, BitVec.toNat_ofNat,
    BitVec.toNat_ofNat, decide_eq_decide]
  cases w with
  | zero =>
    rw [Nat.zero_sub, pow_zero] at h₁ h₂
    omega
  | succ v =>
    rw [Nat.add_sub_cancel] at h₁ h₂ ⊢
    have hpow : 2 ^ (v + 1) = 2 * 2 ^ v := by rw [pow_succ, Nat.mul_comm]
    rw [hpow, Nat.mod_eq_of_lt (a := n₁) (by omega), Nat.mod_eq_of_lt (a := n₂) (by omega)]
    by_cases hlt : n₁ < n₂
    · rw [Nat.mod_eq_of_lt (by omega)]
      omega
    · rw [show 2 * 2 ^ v - n₂ + n₁ = n₁ - n₂ + 2 * 2 ^ v by omega, Nat.add_mod_right,
        Nat.mod_eq_of_lt (by omega)]
      omega

theorem sub_ofNat {n₁ n₂ : Nat} (h : n₂ ≤ n₁) :
    BitVec.ofNat w n₁ - BitVec.ofNat w n₂ = BitVec.ofNat w (n₁ - n₂) := by
  rw [BitVec.sub_eq_iff_eq_add, ← BitVec.ofNat_add, Nat.sub_add_cancel h]

theorem lt_two_pow_of_lt_half {n : Nat} (h : n < 2 ^ (w - 1)) : n < 2 ^ w :=
  Nat.lt_of_lt_of_le h (Nat.pow_le_pow_right Nat.two_pos (Nat.sub_le w 1))

/-- The rest of {lit}`common-list` after the longer list, the shorter one and their difference -/
theorem commonList_rest (hw : 0 < w) (h₁ : LocalsList link a₁ l₁) (h₂ : LocalsList link a₂ l₂)
    (hlength : l₂.length ≤ l₁.length) (hfuel : l₁.length < fuel) (d r : List (BitVec w)) :
    ∃ c l, colon [rot, swap, slashList link fuel,
        whileLoop (· ≠ 0#w) [twoDup, notEquals] [nameToLink link, swap, nameToLink link] fuel, drop]
        ⟨BitVec.ofNat w (l₁.length - l₂.length) :: a₂ :: a₁ :: d, r⟩ = some ⟨c :: d, r⟩ ∧
      ListAt 0#w link c l ∧ IsCommonTail l l₁ l₂ := by
  have hlt := lt_two_pow_of_lt_half h₁.length_lt
  obtain ⟨c, l, hloop, hl, hcommon⟩ := commonList_loop hw h₂.listAt
    (h₁.listAt.drop (Nat.sub_le l₁.length l₂.length)) rfl
    (by rw [List.length_drop]; omega) (Nat.lt_of_le_of_lt hlength hfuel) d r
  refine ⟨c, l, ?_, hl, hcommon.symm.of_drop (by omega)⟩
  rw [colon_rot, colon_swap, colon_slashList (by omega) (by omega), colon_cons_of_eq hloop,
    colon_drop, colon_nil]

/-- {lit}`common-list` finds the longest common tail. -/
theorem commonList_eq (hw : 0 < w) (h₁ : LocalsList link a₁ l₁) (h₂ : LocalsList link a₂ l₂)
    (hfuel₁ : l₁.length < fuel) (hfuel₂ : l₂.length < fuel) (d r : List (BitVec w)) :
    ∃ c l, commonList link fuel ⟨a₂ :: a₁ :: d, r⟩ = some ⟨c :: d, r⟩ ∧
      ListAt 0#w link c l ∧ IsCommonTail l l₁ l₂ := by
  rw [commonList, colon_over, colon_listLength h₁.listAt hfuel₁, colon_over,
    colon_listLength h₂.listAt hfuel₂, colon_binary, colon_dup, colon_zeroLess,
    slt_sub_ofNat h₁.length_lt h₂.length_lt, colon_ifThen_flag _ _ _ hw]
  by_cases hlt : l₁.length < l₂.length
  · rw [if_pos (decide_eq_true hlt), List.cons_append, colon_unary, BitVec.neg_sub,
      BitVec.add_comm, ← BitVec.sub_eq_add_neg, sub_ofNat hlt.le]
    obtain ⟨c, l, hrest, hl, hcommon⟩ := commonList_rest hw h₂ h₁ hlt.le hfuel₂ d r
    exact ⟨c, l, hrest, hl, hcommon.symm⟩
  · rw [if_neg (by simpa using hlt), List.nil_append, sub_ofNat (Nat.le_of_not_lt hlt)]
    exact commonList_rest hw h₁ h₂ (Nat.le_of_not_lt hlt) hfuel₁ d r

/-! ## Sublists -/

/-- The difference, if it is positive -/
theorem max_zero_sub {n₁ n₂ : Nat} (h₁ : n₁ < 2 ^ (w - 1)) (h₂ : n₂ < 2 ^ (w - 1)) :
    (if (BitVec.ofNat w n₂ - BitVec.ofNat w n₁).slt 0#w then 0#w
      else BitVec.ofNat w n₂ - BitVec.ofNat w n₁) = BitVec.ofNat w (n₂ - n₁) := by
  rw [slt_sub_ofNat h₂ h₁]
  by_cases hlt : n₂ < n₁
  · rw [if_pos (decide_eq_true hlt), Nat.sub_eq_zero_of_le hlt.le]
  · rw [if_neg (by simpa using hlt), sub_ofNat (Nat.le_of_not_lt hlt)]

/-- {lit}`sub-list?` tells whether one list is a tail of the other. -/
theorem subList?_eq (h₁ : LocalsList link a₁ l₁) (h₂ : LocalsList link a₂ l₂)
    (hfuel₁ : l₁.length < fuel) (hfuel₂ : l₂.length < fuel) (d r : List (BitVec w)) :
    subList? link fuel ⟨a₂ :: a₁ :: d, r⟩ = some ⟨flag (decide (l₁ <:+ l₂)) :: d, r⟩ := by
  have hlt := lt_two_pow_of_lt_half h₂.length_lt
  have hdrop := h₂.listAt.drop (Nat.sub_le l₂.length l₁.length)
  rw [subList?, colon_over, colon_listLength h₁.listAt hfuel₁, colon_over,
    colon_listLength h₂.listAt hfuel₂, colon_swap, colon_binary, colon_lit, max, colon_binary,
    max_zero_sub h₁.length_lt h₂.length_lt, colon_slashList (by omega) (by omega), equals,
    colon_binary, colon_nil]
  rw [decide_eq_decide.2 ((h₁.listAt.eq_iff hdrop).trans List.suffix_iff_eq_drop.symm)]

/-- For all lists of locals, {lit}`common-list` ends with the longest list that is a tail of both,
and {lit}`sub-list?` tells whether the first list is a tail of the second one. -/
theorem commonLists_correct (hw : 0 < w) (h₁ : LocalsList link a₁ l₁)
    (h₂ : LocalsList link a₂ l₂) {fuel : Nat} (hfuel₁ : l₁.length < fuel)
    (hfuel₂ : l₂.length < fuel) (d r : List (BitVec w)) :
    (∃ c l, commonList link fuel ⟨a₂ :: a₁ :: d, r⟩ = some ⟨c :: d, r⟩ ∧
      ListAt 0#w link c l ∧ IsCommonTail l l₁ l₂) ∧
    subList? link fuel ⟨a₂ :: a₁ :: d, r⟩ = some ⟨flag (decide (l₁ <:+ l₂)) :: d, r⟩ :=
  ⟨commonList_eq hw h₁ h₂ hfuel₁ hfuel₂ d r, subList?_eq h₁ h₂ hfuel₁ hfuel₂ d r⟩

/-- Two lists with a node each in front of a common one -/
def forkedLink (a : BitVec 8) : BitVec 8 :=
  if a = 4#8 then 2#8 else if a = 6#8 then 4#8 else if a = 8#8 then 2#8 else 0#8

/-- Two lists that have their last element in common -/
theorem commonLists_correct_forked :
    (∃ c l, commonList forkedLink 4 ⟨[8#8, 6#8], []⟩ = some ⟨[c], []⟩ ∧
      ListAt 0#8 forkedLink c l ∧ IsCommonTail l [6#8, 4#8, 2#8] [8#8, 2#8]) ∧
    subList? forkedLink 4 ⟨[8#8, 6#8], []⟩ =
      some ⟨[flag (decide ([6#8, 4#8, 2#8] <:+ [8#8, 2#8]))], []⟩ := by
  refine commonLists_correct (by decide) ⟨?_, by decide⟩ ⟨?_, by decide⟩ (by decide) (by decide) [] []
  · exact ⟨rfl, by decide, rfl, by decide, rfl, by decide, rfl⟩
  · exact ⟨rfl, by decide, rfl, by decide, rfl⟩

end Lists
end Locals
end Gforth
