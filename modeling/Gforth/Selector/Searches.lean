import Gforth.Lib.Bisection
import Gforth.Selector.Tables

/-!
# Searching the label tables

The labels of the primitives are searched in two ways: {lit}`bsearch_next` halves a table, and
{lit}`compile_prim1` starts at a power of two and goes on in steps that are powers of two.  Cells have
64 bits and indices are {lit}`int`s of 32 bits.

Main results:

- Theorem {lit}`findsNext_iff`: the tables that {lit}`bsearch_next` searches.
- Theorem {lit}`findsPrim_iff`: the tables that {lit}`compile_prim1` searches.
-/

namespace Gforth
namespace Selector

open Lib

/-! ## Numbers and labels -/

/-- Conversion to {lit}`int` -/
def int (x : Int) : Int :=
  x.bmod (2 ^ 32)

/-- Conversion to {lit}`UCell` -/
def ucell (x : Int) : Nat :=
  (x % 2 ^ 64).toNat

/-- The label at an index; there is nothing outside of the array. -/
def load (labels : List Nat) (i : Int) : Option Nat :=
  if i < 0 then none else labels[i.toNat]?

/-! ## The searches -/

/-- {lit}`bsearch_next` in the labels from an index on, with a number of calls that it may take -/
def bsearchNext (labels : List Nat) (key : Nat) : Nat → Int → Nat → Option (Option Nat)
  | 0, _, _ => none
  | fuel + 1, a, n =>
      let mid := int (ucell (n - 1) / 2)
      if n < 1 then some none
      else if n = 1 then (load labels a).map fun label => if label < key then none else some label
      else (load labels (a + mid)).bind fun label =>
        if label < key then bsearchNext labels key fuel (a + mid + 1) (ucell (n - mid - 1))
        else bsearchNext labels key fuel a (ucell (int (mid + 1)))

/-- {lit}`for(i=1; i<npriminfos; i*=2)` -/
def powerFrom (npriminfos : Nat) : Nat → Int → Option Int
  | 0, _ => none
  | fuel + 1, i => if i < npriminfos then powerFrom npriminfos fuel (int (i * 2)) else some i

/-- The loop over the steps: the last index, and the number of the primitive -/
def stepFrom (vmPrims : List Nat) (npriminfos inst : Nat) :
    Nat → Int → Int → PrimNum → Option (Int × PrimNum)
  | 0, _, _, _ => none
  | fuel + 1, step, i, primNum =>
      if 0 < step then
        if i < npriminfos then
          (load vmPrims i).bind fun label =>
            if inst = label then some (i, i.toNat)
            else stepFrom vmPrims npriminfos inst fuel (step / 2)
              (int (if label < inst then i + step else i - step)) primNum
        else stepFrom vmPrims npriminfos inst fuel (step / 2) (int (i - step)) primNum
      else some (i, primNum)

/-- How {lit}`compile_prim1` gets the number of the primitive for the label in the code field, from the
number for its place; a number that is not below {lit}`npriminfos` means a code word. -/
def compilePrim1 (vmPrims : List Nat) (npriminfos : Nat) (fuel : Nat) (inst : Nat)
    (primNum : PrimNum) : Option PrimNum :=
  if npriminfos ≤ primNum then
    (powerFrom npriminfos fuel 1).bind fun i =>
      (stepFrom vmPrims npriminfos inst fuel (i / 2 / 2) (i / 2) primNum).bind fun r =>
        (load vmPrims r.1).map fun label => if inst = label then r.1.toNat else r.2
  else some primNum

/-- {lit}`bsearch_next` returns the next label in every ascending table of this length. -/
def FindsNext (n : Nat) : Prop :=
  ∀ labels : List Nat, labels.length = n → labels.Pairwise (· ≤ ·) → ∀ key,
    ∃ fuel r, bsearchNext labels key fuel 0 n = some r ∧ IsNext labels key r

/-- {lit}`compile_prim1` finds the primitives in every ascending table of this length, and no others;
the table ends with a zero in front of other labels. -/
structure FindsPrim (npriminfos : Nat) : Prop where
  finds : ∀ prims others : List Nat, prims.length = npriminfos → prims.Pairwise (· < ·) →
    0 ∉ prims → ∀ primNum, npriminfos ≤ primNum → ∀ i inst, 1 ≤ i → prims[i]? = some inst →
    ∃ fuel, compilePrim1 (prims ++ 0 :: others) npriminfos fuel inst primNum = some i
  rejects : ∀ prims others : List Nat, prims.length = npriminfos → prims.Pairwise (· < ·) →
    0 ∉ prims → ∀ primNum, npriminfos ≤ primNum → ∀ inst, inst ∉ prims →
    ∃ fuel p, compilePrim1 (prims ++ 0 :: others) npriminfos fuel inst primNum = some p ∧
      npriminfos ≤ p

/-! ## Small numbers -/

theorem int_of_lt {x : Int} (h : 0 ≤ x) (hlt : x < 2 ^ 31) : int x = x := by
  rw [int, Int.bmod_def]
  omega

theorem ucell_of_lt {x : Int} (h : 0 ≤ x) (hlt : x < 2 ^ 64) : ucell x = x.toNat := by
  rw [ucell, Int.emod_eq_of_lt h hlt]

theorem int_range (x : Int) : -2 ^ 31 ≤ int x ∧ int x < 2 ^ 31 := by
  rw [int, Int.bmod_def]
  omega

theorem int_emod (x : Int) : int x % 2 ^ 32 = x % 2 ^ 32 := by
  rw [int, Int.bmod_def]
  omega

theorem load_of_nonneg (labels : List Nat) (i : Nat) : load labels i = labels[i]? := by
  rw [load, if_neg (by omega), Int.toNat_natCast]

theorem load_of_neg (labels : List Nat) {i : Int} (h : i < 0) : load labels i = none :=
  if_pos h

/-! ## Halving -/

variable {labels prims others : List Nat} {key n a fuel inst primNum : Nat}

/-- {lit}`bsearch_next` in a part of a table -/
theorem bsearchNext_window (hn : n < 2 ^ 32 - 1) (hfuel : n < fuel)
    (hlen : a + n ≤ labels.length) (h : ((labels.drop a).take n).Pairwise (· ≤ ·)) :
    ∃ r, bsearchNext labels key fuel a n = some r ∧ IsNext ((labels.drop a).take n) key r := by
  induction fuel generalizing a n with
  | zero => exact absurd hfuel (Nat.not_lt_zero n)
  | succ fuel ih =>
    rw [bsearchNext]
    by_cases hzero : n < 1
    · obtain rfl : n = 0 := by omega
      exact ⟨none, if_pos hzero, isNext_nil key⟩
    by_cases hone : n = 1
    · obtain rfl := hone
      have ha : a < labels.length := by omega
      have htake : (labels.drop a).take 1 = [labels[a]] := by
        rw [List.drop_eq_getElem_cons ha]
        rfl
      refine ⟨if labels[a] < key then none else some labels[a], ?_, ?_⟩
      · simp only [if_neg hzero, if_true, load_of_nonneg, List.getElem?_eq_getElem ha, Option.map_some]
      · rw [htake]
        exact isNext_singleton _ key
    -- the midpoint is smaller than 2^31 - 1, and both halves are shorter
    obtain ⟨m, hm⟩ : ∃ m, (n - 1) / 2 = m := ⟨_, rfl⟩
    have hmid : int (ucell ((n : Int) - 1) / 2) = m := by
      rw [ucell_of_lt (by omega) (by omega)]
      have hcast : (((n : Int) - 1).toNat : Int) / 2 = m := by omega
      rw [hcast]
      exact int_of_lt (by omega) (by omega)
    have hright : ucell ((n : Int) - m - 1) = n - (m + 1) := by
      rw [ucell_of_lt (by omega) (by omega)]
      omega
    have hleft : ucell (int ((m : Int) + 1)) = m + 1 := by
      rw [int_of_lt (by omega) (by omega), ucell_of_lt (by omega) (by omega)]
      rfl
    have hload : load labels ((a : Int) + m) = some labels[a + m] := by
      rw [← Int.natCast_add, load_of_nonneg]
      exact List.getElem?_eq_getElem _
    have hget : ((labels.drop a).take n)[m]? = some labels[a + m] := by
      rw [List.getElem?_take_of_lt (by omega), List.getElem?_drop]
      exact List.getElem?_eq_getElem _
    simp only [if_neg hzero, if_neg hone, hmid, hload, Option.bind_some, hright, hleft]
    by_cases hkey : labels[a + m] < key
    · have hdrop : ((labels.drop a).take n).drop (m + 1) =
          (labels.drop (a + m + 1)).take (n - (m + 1)) := by
        rw [List.drop_take, List.drop_drop]
        rfl
      obtain ⟨r, hr, hnext⟩ := ih (a := a + m + 1) (n := n - (m + 1)) (by omega) (by omega)
        (by omega) (hdrop ▸ h.sublist (List.drop_sublist _ _))
      rw [if_pos hkey]
      exact ⟨r, hr, .of_drop h hget hkey (hdrop ▸ hnext)⟩
    · have htake : ((labels.drop a).take n).take (m + 1) = (labels.drop a).take (m + 1) := by
        rw [List.take_take, Nat.min_eq_left (by omega)]
      obtain ⟨r, hr, hnext⟩ := ih (a := a) (n := m + 1) (by omega) (by omega)
        (by omega) (htake ▸ h.sublist (List.take_sublist _ _))
      rw [if_neg hkey]
      exact ⟨r, hr, .of_take h hget hkey (htake ▸ hnext)⟩

/-- The search finds each label in tables of this size. -/
theorem findsNext_of_lt (hn : n < 2 ^ 32 - 1) : FindsNext n := by
  intro labels hlen h key
  have hall : (labels.drop 0).take n = labels := by
    rw [List.drop_zero, List.take_of_length_le hlen.le]
  obtain ⟨r, hr, hnext⟩ := @bsearchNext_window labels key n 0 (n + 1) hn (Nat.lt_succ_self n)
    (by omega) (hall.symm ▸ h)
  exact ⟨n + 1, r, hr, hall ▸ hnext⟩

/-- Above half of the range of {lit}`UCell`, the first index is negative. -/
theorem bsearchNext_wrapped (labels : List Nat) (key fuel : Nat) :
    bsearchNext labels key fuel 0 (2 ^ 64 - 2 ^ 31) = none := by
  cases fuel with
  | zero => rfl
  | succ fuel =>
    have hmid : int (ucell (((2 ^ 64 - 2 ^ 31 : Nat) : Int) - 1) / 2) = -2 ^ 30 - 1 := by
      decide
    rw [bsearchNext]
    simp only [hmid]
    rw [if_neg (by omega), if_neg (by omega), load_of_neg labels (by decide), Option.bind_none]

/-- The midpoint is the last {lit}`int`, and the next number overflows. -/
theorem bsearchNext_overflow (hn : n = 2 ^ 32 - 1 ∨ n = 2 ^ 32) {label : Nat}
    (hlabel : labels[2 ^ 31 - 1]? = some label) (hkey : ¬label < key) (fuel : Nat) :
    bsearchNext labels key fuel 0 n = none := by
  cases fuel with
  | zero => rfl
  | succ fuel =>
    have hmid : int (ucell ((n : Int) - 1) / 2) = (2 ^ 31 - 1 : Nat) := by
      rcases hn with rfl | rfl <;> decide
    have hnext : ucell (int (((2 ^ 31 - 1 : Nat) : Int) + 1)) = 2 ^ 64 - 2 ^ 31 := by
      decide
    rw [bsearchNext]
    simp only [hmid]
    rw [if_neg (by omega), if_neg (by omega), Int.zero_add, load_of_nonneg, hlabel,
      Option.bind_some, if_neg hkey, hnext]
    exact bsearchNext_wrapped labels key fuel

/-- The part of a table that is searched for a key above all labels stays longer than an index can
say. -/
theorem bsearchNext_above (h : ∀ label ∈ labels, label < key) (hn : 2 ^ 32 < n) {a : Int}
    (ha : 0 ≤ a) (hlt : a + n < 2 ^ 64) (fuel : Nat) :
    bsearchNext labels key fuel a n = none := by
  induction fuel generalizing a n with
  | zero => rfl
  | succ fuel ih =>
    obtain ⟨mid, hmid⟩ : ∃ mid, int (ucell ((n : Int) - 1) / 2) = mid := ⟨_, rfl⟩
    rw [bsearchNext]
    simp only [hmid]
    rw [if_neg (by omega), if_neg (by omega)]
    cases hload : load labels (a + mid) with
    | none => rfl
    | some label =>
      rw [load] at hload
      split at hload
      · nomatch hload
      rename_i hnonneg
      rw [Option.bind_some, if_pos (h label (List.mem_of_getElem? hload))]
      -- a midpoint that is not negative has lost a multiple of 2^32
      have hrange := int_range (ucell ((n : Int) - 1) / 2)
      have hmod := int_emod (ucell ((n : Int) - 1) / 2)
      have hsub : ucell ((n : Int) - 1) = n - 1 := by
        rw [ucell_of_lt (by omega) (by omega)]
        omega
      rw [hmid] at hrange hmod
      rw [hsub] at hmod
      have hrest : ucell ((n : Int) - mid - 1) = ((n : Int) - mid - 1).toNat :=
        ucell_of_lt (by omega) (by omega)
      rw [hrest]
      exact ih (by omega) (by omega) (by omega)

theorem pairwise_range' (n : Nat) : (List.range' 1 n).Pairwise (· < ·) :=
  List.pairwise_lt_range'

/-- The search fails in tables of this size. -/
theorem not_findsNext (hn : 2 ^ 32 - 1 ≤ n) (hlt : n < 2 ^ 64) : ¬FindsNext n := by
  intro h
  have hlabels := h (List.range' 1 n) List.length_range' ((pairwise_range' n).imp Nat.le_of_lt)
  by_cases habove : 2 ^ 32 < n
  · obtain ⟨fuel, r, hr, -⟩ := hlabels (n + 1)
    have hall : ∀ label ∈ List.range' 1 n, label < n + 1 := by
      intro label hmem
      have := List.mem_range'_1.1 hmem
      omega
    rw [← Int.natCast_zero, bsearchNext_above hall habove (by omega) (by omega)] at hr
    nomatch hr
  · obtain ⟨fuel, r, hr, -⟩ := hlabels 1
    have hlabel : (List.range' 1 n)[2 ^ 31 - 1]? = some (2 ^ 31) := by
      rw [List.getElem?_range' (by omega)]
      rfl
    rw [bsearchNext_overflow (by omega) hlabel (by decide)] at hr
    nomatch hr

theorem findsNext_iff (hlt : n < 2 ^ 64) : FindsNext n ↔ n < 2 ^ 32 - 1 :=
  ⟨fun h => Nat.lt_of_not_le fun hn => not_findsNext hn hlt h, findsNext_of_lt⟩

/-! ## The power of two -/

theorem two_pow_pos_int (k : Nat) : 0 < (2 ^ k : Int) := Int.pow_pos (by decide)

/-- The first power of two that is not below a number up to 2^30 -/
theorem powerFrom_of_le (hn : n ≤ 2 ^ 30) {k : Nat} (hk : k ≤ 30) (hfuel : 30 < k + fuel)
    (hbelow : k = 0 ∨ 2 ^ (k - 1) < n) :
    ∃ j ≤ 30, powerFrom n fuel (2 ^ k) = some (2 ^ j) ∧ n ≤ 2 ^ j ∧ (j = 0 ∨ 2 ^ (j - 1) < n) := by
  induction fuel generalizing k with
  | zero => omega
  | succ fuel ih =>
    rw [powerFrom]
    by_cases hlt : 2 ^ k < n
    · have hk' : k + 1 ≤ 30 := by
        refine Nat.lt_of_not_le fun hle => ?_
        have := Nat.pow_le_pow_right (show 0 < 2 by decide) hle
        omega
      have hpow : (2 ^ (k + 1) : Int) ≤ 2 ^ 30 := pow_le_pow_right₀ (by decide) hk'
      have hnext : int (2 ^ k * 2) = 2 ^ (k + 1) := by
        rw [← Int.pow_succ]
        exact int_of_lt (two_pow_pos_int _).le (by omega)
      rw [if_pos (by exact_mod_cast hlt), hnext]
      exact ih hk' (by omega) (.inr hlt)
    · rw [if_neg (by exact_mod_cast hlt)]
      exact ⟨k, hk, rfl, by omega, hbelow⟩

/-- The search goes on for ever with a power of 0. -/
theorem powerFrom_zero (hn : 0 < n) (fuel : Nat) : powerFrom n fuel 0 = none := by
  induction fuel with
  | zero => rfl
  | succ fuel ih =>
    rw [powerFrom, if_pos (by omega)]
    exact ih

/-- The power of two behind 2^30 overflows, and then the loop stays at zero. -/
theorem powerFrom_of_lt (hn : 2 ^ 30 < n) {k : Nat} (hk : k ≤ 30) (fuel : Nat) :
    powerFrom n fuel (2 ^ k) = none := by
  induction fuel generalizing k with
  | zero => rfl
  | succ fuel ih =>
    have hle : (2 ^ k : Int) ≤ 2 ^ 30 := pow_le_pow_right₀ (by decide) hk
    rw [powerFrom, if_pos (by omega)]
    rcases Nat.lt_or_eq_of_le hk with hlt | rfl
    · have hpow : (2 ^ (k + 1) : Int) ≤ 2 ^ 30 := pow_le_pow_right₀ (by decide) hlt
      rw [← Int.pow_succ, int_of_lt (two_pow_pos_int _).le (by omega)]
      exact ih hlt
    · have hwrap : int (2 ^ 30 * 2) = -2 ^ 31 := by decide
      have hzero : int (-2 ^ 31 * 2) = 0 := by decide
      rw [hwrap]
      cases fuel with
      | zero => rfl
      | succ fuel =>
        rw [powerFrom, if_pos (by omega), hzero]
        exact powerFrom_zero (by omega) fuel

/-! ## The steps -/

/-- Where the loop ends: in the table or at its end, and at a label that is strictly between two
indices. -/
structure Located (prims : List Nat) (inst primNum lo hi : Nat) (r : Int × PrimNum) : Prop where
  index : ∃ p ≤ prims.length, r.1 = p ∧
    ∀ j, prims[j]? = some inst → lo < j → j < hi → p = j
  number : r.2 = primNum ∨ prims[r.2]? = some inst

/-- The loop over the steps searches all indices that are less than two steps away. -/
theorem stepFrom_located (h : prims.Pairwise (· < ·)) {s i : Nat} (hfuel : s < fuel)
    (hlo : 2 ^ s ≤ i) (hhi : i + 2 ^ s ≤ 2 ^ 30) (hend : i < prims.length + 2 ^ s) :
    ∃ r, stepFrom (prims ++ 0 :: others) prims.length inst fuel (2 ^ s / 2 : Nat) i primNum = some r ∧
      Located prims inst primNum (i - 2 ^ s) (i + 2 ^ s) r := by
  induction fuel generalizing s i with
  | zero => exact absurd hfuel (Nat.not_lt_zero s)
  | succ fuel ih =>
    rw [stepFrom]
    cases s with
    | zero =>
      rw [if_neg (by decide)]
      refine ⟨_, rfl, ⟨i, by omega, rfl, fun j _ hj hj' => by omega⟩, .inl rfl⟩
    | succ s =>
      have hpos := Nat.two_pow_pos s
      have hstep : 2 ^ (s + 1) / 2 = 2 ^ s := by omega
      have hhalf : ((2 ^ s : Nat) : Int) / 2 = (2 ^ s / 2 : Nat) := (Int.natCast_ediv _ _).symm
      have hleft : int ((i : Int) - (2 ^ s : Nat)) = (i - 2 ^ s : Nat) := by
        rw [int_of_lt (by omega) (by omega)]
        omega
      have hright : int ((i : Int) + (2 ^ s : Nat)) = (i + 2 ^ s : Nat) := by
        rw [int_of_lt (by omega) (by omega)]
        omega
      -- what is to the left of the index
      have left : (∀ j, prims[j]? = some inst → j < i) → ∃ r,
          stepFrom (prims ++ 0 :: others) prims.length inst fuel (2 ^ s / 2 : Nat)
            (i - 2 ^ s : Nat) primNum = some r ∧
          Located prims inst primNum (i - 2 ^ (s + 1)) (i + 2 ^ (s + 1)) r := by
        intro hbelow
        obtain ⟨r, hr, ⟨p, hp, hrp, hall⟩, hnumber⟩ := ih (s := s) (i := i - 2 ^ s) (by omega)
          (by omega) (by omega) (by omega)
        refine ⟨r, hr, ⟨p, hp, hrp, fun j hj hlt _ => hall j hj (by omega) ?_⟩, hnumber⟩
        have := hbelow j hj
        omega
      rw [hstep, hhalf, if_pos (by omega)]
      by_cases hi : i < prims.length
      · have hload : load (prims ++ 0 :: others) i = some prims[i] := by
          rw [load_of_nonneg, List.getElem?_append_left hi]
          exact List.getElem?_eq_getElem hi
        have hget : prims[i]? = some prims[i] := List.getElem?_eq_getElem hi
        rw [if_pos (by omega), hload, Option.bind_some]
        by_cases heq : inst = prims[i]
        · rw [if_pos heq]
          rw [← heq] at hget
          exact ⟨_, rfl, ⟨i, hi.le, rfl, fun j hj _ _ => index_eq_of_eq h hget hj⟩, .inr hget⟩
        · rw [if_neg heq]
          by_cases hlt : prims[i] < inst
          · obtain ⟨r, hr, ⟨p, hp, hrp, hall⟩, hnumber⟩ := ih (s := s) (i := i + 2 ^ s) (by omega)
              (by omega) (by omega) (by omega)
            rw [if_pos hlt, hright]
            refine ⟨r, hr, ⟨p, hp, hrp, fun j hj _ hlt' => hall j hj ?_ (by omega)⟩, hnumber⟩
            have := index_lt_of_lt h hget hj hlt
            omega
          · rw [if_neg hlt, hleft]
            exact left fun j hj => index_lt_of_lt h hj hget (by omega)
      · rw [if_neg (by omega), hleft]
        refine left fun j hj => ?_
        have hj := (List.getElem?_eq_some_iff.1 hj).1
        omega

/-- The search in {lit}`compile_prim1`, in tables of up to 2^30 primitives -/
theorem compilePrim1_located (h : prims.Pairwise (· < ·)) (hn : prims.length ≤ 2 ^ 30)
    (hprimNum : prims.length ≤ primNum) :
    ∃ r, Located prims inst primNum 0 prims.length r ∧
      compilePrim1 (prims ++ 0 :: others) prims.length 32 inst primNum =
        (load (prims ++ 0 :: others) r.1).map fun label => if inst = label then r.1.toNat else r.2 := by
  obtain ⟨k, hk, hpower, hle, hbelow⟩ := @powerFrom_of_le _ 32 hn 0 (by omega)
    (by omega) (.inl rfl)
  have hstart : powerFrom prims.length 32 1 = some (2 ^ k) := hpower
  rw [compilePrim1, if_pos hprimNum, hstart, Option.bind_some]
  cases k with
  | zero =>
    -- a table of one label is searched without a step
    refine ⟨(0, primNum), ⟨⟨0, Nat.zero_le _, rfl, fun j _ hj hj' => ?_⟩, .inl rfl⟩, ?_⟩
    · rw [Nat.pow_zero] at hle
      omega
    · have hrun : stepFrom (prims ++ 0 :: others) prims.length inst 32 (2 ^ 0 / 2 / 2) (2 ^ 0 / 2)
          primNum = some (0, primNum) := by
        rw [stepFrom, if_neg (by decide)]
        rfl
      rw [hrun, Option.bind_some]
  | succ k =>
    have hpow : 2 ^ (k + 1) ≤ 2 ^ 30 := Nat.pow_le_pow_right (by decide) hk
    have hpos := Nat.two_pow_pos k
    have hbelow' : 2 ^ k < prims.length := by
      rcases hbelow with hk | hlt
      · omega
      · exact hlt
    have hhalf : (2 ^ (k + 1) / 2 : Int) = (2 ^ k : Nat) := by
      rw [Int.pow_succ, Int.mul_ediv_cancel _ (by decide)]
      exact (Int.natCast_pow 2 k).symm
    obtain ⟨r, hr, hlocated⟩ := @stepFrom_located prims others 32 inst primNum h k (2 ^ k) (by omega)
      le_rfl (by omega) (by omega)
    have hstep : ((2 ^ k : Nat) : Int) / 2 = (2 ^ k / 2 : Nat) := (Int.natCast_ediv _ _).symm
    rw [hhalf, hstep, hr, Option.bind_some]
    obtain ⟨p, hp, hrp, hall⟩ := hlocated.index
    exact ⟨r, ⟨⟨p, hp, hrp, fun j hj hlt hlt' => hall j hj (by omega) (by omega)⟩,
      hlocated.number⟩, rfl⟩

/-- The element that is looked at -/
theorem load_at (prims others : List Nat) (i : Nat) (hi : i ≤ prims.length) :
    load (prims ++ 0 :: others) i = some (prims[i]?.getD 0) := by
  rw [load_of_nonneg]
  rcases Nat.lt_or_eq_of_le hi with hlt | rfl
  · rw [List.getElem?_append_left hlt, List.getElem?_eq_getElem hlt]
    rfl
  · rw [List.getElem?_append_right le_rfl, Nat.sub_self, List.getElem?_eq_none le_rfl]
    rfl

/-- The search finds each primitive in tables of this size. -/
theorem findsPrim_of_le (hn : n ≤ 2 ^ 30) : FindsPrim n where
  finds prims others hlen h hzero primNum hprimNum i inst hpos hinst := by
    subst hlen
    obtain ⟨r, ⟨⟨p, hp, hrp, hall⟩, -⟩, hrun⟩ :=
      @compilePrim1_located prims others inst primNum h hn hprimNum
    obtain rfl := hall i hinst hpos (List.getElem?_eq_some_iff.1 hinst).1
    refine ⟨32, hrun.trans ?_⟩
    rw [hrp, load_at prims others p hp, hinst, Option.map_some, Option.getD_some, if_pos rfl,
      Int.toNat_natCast]
  rejects prims others hlen h hzero primNum hprimNum inst hinst := by
    subst hlen
    obtain ⟨r, ⟨⟨p, hp, hrp, -⟩, hnumber⟩, hrun⟩ :=
      @compilePrim1_located prims others inst primNum h hn hprimNum
    rw [hrp, load_at prims others p hp, Option.map_some, Int.toNat_natCast] at hrun
    refine ⟨32, _, hrun, ?_⟩
    split
    · -- only the zero behind the table can be equal to the label
      rename_i heq
      refine Nat.le_of_not_lt fun hlt => hinst ?_
      rw [heq, List.getElem?_eq_getElem hlt, Option.getD_some]
      exact List.getElem_mem hlt
    · rcases hnumber with hnumber | hnumber
      · rwa [hnumber]
      · exact absurd (List.mem_of_getElem? hnumber) hinst

/-- The search fails in tables of this size for some primitive. -/
theorem not_findsPrim (hn : 2 ^ 30 < n) : ¬FindsPrim n := by
  intro h
  have hfirst : (List.range' 1 n)[1]? = some 2 := by
    rw [List.getElem?_range' (by omega)]
  obtain ⟨fuel, hrun⟩ := h.finds (List.range' 1 n) [] List.length_range' (pairwise_range' n)
    (fun hzero => by
      have := List.mem_range'_1.1 hzero
      omega) n le_rfl 1 2 le_rfl hfirst
  have hpower : powerFrom n fuel 1 = none := powerFrom_of_lt hn (k := 0) (by omega) fuel
  rw [compilePrim1, if_pos le_rfl, hpower] at hrun
  nomatch hrun

theorem findsPrim_iff : FindsPrim n ↔ n ≤ 2 ^ 30 :=
  ⟨fun h => Nat.le_of_not_lt fun hn => not_findsPrim hn h, findsPrim_of_le⟩

/-! ## Both searches -/

/-- The searches find what is in tables that are short enough for their indices. -/
theorem searches_iff (n npriminfos : Nat) (hlt : n < 2 ^ 64) :
    FindsNext n ∧ FindsPrim npriminfos ↔ n < 2 ^ 32 - 1 ∧ npriminfos ≤ 2 ^ 30 :=
  and_congr (findsNext_iff hlt) findsPrim_iff

/-- A table of five labels -/
theorem searches_iff_five : (5 : Nat) < 2 ^ 64 ∧
    (FindsNext 5 ∧ FindsPrim 7 ↔ 5 < 2 ^ 32 - 1 ∧ 7 ≤ 2 ^ 30) :=
  ⟨by decide, searches_iff 5 7 (by decide)⟩

/-- The shortest tables that are too long -/
theorem not_finds : ¬FindsNext (2 ^ 32 - 1) ∧ ¬FindsPrim (2 ^ 30 + 1) :=
  ⟨not_findsNext le_rfl (by decide), not_findsPrim (by decide)⟩

end Selector
end Gforth
