import Gforth.Lib.Bytes
import Gforth.Lib.Doubles
import Gforth.Lib.Memory

/-!
# Digits

The words that turn characters into digits and accumulate them in a double: {lit}`digit?`,
{lit}`accumulate`, {lit}`>number` and {lit}`>number_`.  The lengths that the loops count down are
natural numbers below the size of a cell.

Main results:

- Theorem {lit}`accumulate_eq`: one digit more, up to overflow.
- Theorem {lit}`toNumber_spec`: {lit}`>number` converts the digits at the start of a text.
- Theorem {lit}`toNumberUnderscore_spec`: {lit}`>number_` also skips underscores.
-/

namespace Gforth
namespace Numbers

open Lib
open Memory

variable {w : Nat}

/-- The characters in memory -/
abbrev Chars (w : Nat) : Type :=
  Memory w Byte

/-- The code of a character -/
def ascii (c : Char) : Byte :=
  BitVec.ofNat 8 c.toNat

/-! ## The words -/

/-- {lit}`um*` -/
def umStar (x y : BitVec w) : BitVec (w + w) :=
  x.setWidth (w + w) * y.setWidth (w + w)

/-- {lit}`toupper` -/
def toupper (c : Byte) : Byte :=
  if ascii 'a' ≤ c ∧ c ≤ ascii 'z' then c + (ascii 'A' - ascii 'a') else c

/-- {lit}`digit?` -/
def digit? (base : BitVec w) (c : Byte) : Option (BitVec w) :=
  let d := (toupper c).setWidth w - (ascii '0').setWidth w
  if 9#w < d then
    -- the gap between '9' and 'A'
    let d := d - 7#w
    if d ≤ 9#w then none
    else if base ≤ d then none
    else some d
  else if base ≤ d then none
  else some d

/-- {lit}`accumulate`, without the address that stays on the stack -/
def accumulate (base : BitVec w) (d : BitVec (w + w)) (digit : BitVec w) : BitVec (w + w) :=
  twoCell digit (dlo (umStar (dhi d) base)) + umStar (dlo d) base

/-- {lit}`>number` -/
def toNumber (mem : Chars w) (base : BitVec w) :
    BitVec (w + w) → BitVec w → Nat → BitVec (w + w) × BitVec w × Nat
  | d, a, 0 => (d, a, 0)
  | d, a, n + 1 =>
      match digit? base (mem a) with
      | some digit => toNumber mem base (accumulate base d digit) (a + 1#w) n
      | none => (d, a, n + 1)

/-- No more characters are left than there were. -/
theorem toNumber_length_le (mem : Chars w) (base : BitVec w) (d : BitVec (w + w)) (a : BitVec w)
    (n : Nat) : (toNumber mem base d a n).2.2 ≤ n := by
  induction n generalizing d a with
  | zero => exact Nat.le_refl 0
  | succ n ih =>
      rw [toNumber]
      split
      · exact Nat.le_succ_of_le (ih _ _)
      · exact Nat.le_refl _

/-- {lit}`>number_`; its test {lit}`0>` is a signed one -/
def toNumberUnderscore (mem : Chars w) (base : BitVec w) (d : BitVec (w + w)) (a : BitVec w)
    (n : Nat) : BitVec (w + w) × BitVec w × Nat :=
  let r := toNumber mem base d a n
  if 0 < (BitVec.ofNat w r.2.2).toInt ∧ mem r.2.1 = ascii '_' then
    toNumberUnderscore mem base r.1 (r.2.1 + 1#w) (r.2.2 - 1)
  else r
termination_by n
decreasing_by
  rename_i h
  have hle := toNumber_length_le mem base d a n
  have hsign : 0 < (BitVec.ofNat w (toNumber mem base d a n).2.2).toInt := h.1
  have hpos : (toNumber mem base d a n).2.2 ≠ 0 := by
    intro hzero
    simp [hzero] at hsign
  omega

/-! ## Values -/

/-- {lit}`um*` is exact. -/
theorem toNat_umStar (x y : BitVec w) : (umStar x y).toNat = x.toNat * y.toNat := by
  rw [umStar, BitVec.toNat_mul, BitVec.toNat_setWidth_of_le (Nat.le_add_left _ _),
    BitVec.toNat_setWidth_of_le (Nat.le_add_left _ _), two_pow_add_self,
    Nat.mod_eq_of_lt (Nat.mul_lt_mul'' x.isLt y.isLt)]

/-- One digit more, up to overflow -/
theorem accumulate_eq (base : BitVec w) (d : BitVec (w + w)) (digit : BitVec w) :
    accumulate base d digit = BitVec.ofNat (w + w) (d.toNat * base.toNat + digit.toNat) := by
  refine BitVec.eq_of_toNat_eq ?_
  have hupper : ((dhi d).toNat * base.toNat % 2 ^ w) * 2 ^ w ≡
      (dhi d).toNat * base.toNat * 2 ^ w [MOD 2 ^ (w + w)] := by
    rw [two_pow_add_self]
    exact (Nat.mod_modEq _ _).mul_right' _
  have hsum : ((dhi d).toNat * base.toNat % 2 ^ w) * 2 ^ w + digit.toNat +
      (dlo d).toNat * base.toNat ≡ d.toNat * base.toNat + digit.toNat [MOD 2 ^ (w + w)] :=
    calc
      _ ≡ (dhi d).toNat * base.toNat * 2 ^ w + digit.toNat + (dlo d).toNat * base.toNat
          [MOD 2 ^ (w + w)] := (hupper.add_right _).add_right _
      _ = d.toNat * base.toNat + digit.toNat := by
          rw [toNat_dhi_dlo d]
          ring
  rw [accumulate, BitVec.toNat_add, toNat_twoCell, toNat_dlo, toNat_umStar, toNat_umStar,
    BitVec.toNat_ofNat]
  exact hsum

/-- The digits among the characters -/
def digits (base : BitVec w) (t : List Byte) : List (BitVec w) :=
  t.filterMap (digit? base)

/-- The digits are accumulated. -/
def accumulateAll (base : BitVec w) (d : BitVec (w + w)) (t : List Byte) : BitVec (w + w) :=
  (digits base t).foldl (accumulate base) d

theorem accumulateAll_append (base : BitVec w) (d : BitVec (w + w)) (s t : List Byte) :
    accumulateAll base d (s ++ t) = accumulateAll base (accumulateAll base d s) t := by
  rw [accumulateAll, digits, List.filterMap_append, List.foldl_append]
  rfl

variable {base : BitVec w}

/-- A digit is accumulated. -/
theorem accumulateAll_cons_some {c : Byte} {digit : BitVec w} (h : digit? base c = some digit)
    (d : BitVec (w + w)) (t : List Byte) :
    accumulateAll base d (c :: t) = accumulateAll base (accumulate base d digit) t := by
  rw [accumulateAll, digits, List.filterMap_cons_some h, List.foldl_cons]
  rfl

/-- Other characters are skipped. -/
theorem accumulateAll_cons_none {c : Byte} (h : digit? base c = none) (d : BitVec (w + w))
    (t : List Byte) : accumulateAll base d (c :: t) = accumulateAll base d t := by
  rw [accumulateAll, digits, List.filterMap_cons_none h]
  rfl

/-! ## Characters -/

theorem two_pow_le_of_le (hw : 8 ≤ w) : 256 ≤ 2 ^ w :=
  Nat.pow_le_pow_right (by decide : 0 < 2) hw

/-- The digit that a character stands for in any base; the characters beyond {lit}`Z` go on
counting -/
def anyDigit (c : Byte) : Option Nat :=
  if 48 ≤ (toupper c).toNat ∧ (toupper c).toNat ≤ 57 then some ((toupper c).toNat - 48)
  else if 65 ≤ (toupper c).toNat then some ((toupper c).toNat - 55)
  else none

/-- {lit}`digit?` for a base in the lower range of a byte -/
theorem digit?_eq_anyDigit (hw : 8 ≤ w) (hbase : base.toNat ≤ 200) (c : Byte) :
    digit? base c = ((anyDigit c).filter (· < base.toNat)).map (BitVec.ofNat w) := by
  have hpow := two_pow_le_of_le hw
  have hx := (toupper c).isLt
  simp only [digit?, anyDigit]
  generalize toupper c = u at hx
  have hsmall : ∀ {n : Nat}, n < 256 → (BitVec.ofNat w n).toNat = n := fun hn => by
    rw [BitVec.toNat_ofNat, Nat.mod_eq_of_lt (by omega)]
  have hd : (u.setWidth w - (ascii '0').setWidth w).toNat =
      if u.toNat < 48 then 2 ^ w - 48 + u.toNat else u.toNat - 48 := by
    have hzero : (ascii '0').toNat = 48 := by decide
    rw [BitVec.toNat_sub, BitVec.toNat_setWidth_of_le hw, BitVec.toNat_setWidth_of_le hw, hzero]
    split
    · exact Nat.mod_eq_of_lt (by omega)
    · rw [show 2 ^ w - 48 + u.toNat = u.toNat - 48 + 2 ^ w by omega, Nat.add_mod_right,
        Nat.mod_eq_of_lt (by omega)]
  generalize u.setWidth w - (ascii '0').setWidth w = d at hd
  have hgap : 9 < d.toNat → (d - 7#w).toNat = d.toNat - 7 := by
    intro hlarge
    have := d.isLt
    rw [BitVec.toNat_sub, hsmall (by decide),
      show 2 ^ w - 7 + d.toNat = d.toNat - 7 + 2 ^ w by omega, Nat.add_mod_right,
      Nat.mod_eq_of_lt (by omega)]
  have hword : ∀ {x : BitVec w} {n : Nat}, x.toNat = n → x = BitVec.ofNat w n := fun hx => by
    rw [← hx, BitVec.ofNat_toNat, BitVec.setWidth_eq]
  simp only [BitVec.lt_def, BitVec.le_def, hsmall (show 9 < 256 by decide)]
  by_cases hdecimal : 48 ≤ u.toNat ∧ u.toNat ≤ 57
  · rw [if_neg (show ¬u.toNat < 48 by omega)] at hd
    rw [if_neg (show ¬9 < d.toNat by omega), if_pos hdecimal, hd]
    by_cases hlt : u.toNat - 48 < base.toNat
    · rw [if_neg (by omega), Option.filter_some_pos (by simpa using hlt), hword hd]
      rfl
    · rw [if_pos (by omega), Option.filter_some_neg (by simpa using hlt)]
      rfl
  · have hlarge : 9 < d.toNat := by
      rw [hd]
      split <;> omega
    rw [if_pos hlarge, if_neg hdecimal, hgap hlarge, hd]
    by_cases hletter : 65 ≤ u.toNat
    · have hvalue : (d - 7#w).toNat = u.toNat - 55 := by
        rw [hgap hlarge, hd, if_neg (by omega)]
        omega
      rw [if_neg (show ¬u.toNat < 48 by omega), if_neg (by omega), if_pos hletter]
      by_cases hlt : u.toNat - 55 < base.toNat
      · rw [if_neg (by omega), Option.filter_some_pos (by simpa using hlt), hword hvalue]
        rfl
      · rw [if_pos (by omega), Option.filter_some_neg (by simpa using hlt)]
        rfl
    · rw [if_neg hletter]
      split
      · rw [if_neg (by omega), if_pos (by omega)]
        rfl
      · rw [if_pos (by omega)]
        rfl

/-! ## Scanning -/

/-- What a scan does to a double, an address and a length: it goes past some characters of one kind
and accumulates the digits among them. -/
structure Scans (mem : Chars w) (base : BitVec w) (p : Byte → Prop) (d : BitVec (w + w))
    (a : BitVec w) (n k : Nat) (r : BitVec (w + w) × BitVec w × Nat) : Prop where
  le : k ≤ n
  chars : ∀ c ∈ text mem a k, p c
  result : r = (accumulateAll base d (text mem a k), a + BitVec.ofNat w k, n - k)

/-- {lit}`>number` converts the digits at the start of a text. -/
theorem toNumber_spec (mem : Chars w) (base : BitVec w) (d : BitVec (w + w)) (a : BitVec w)
    (n : Nat) :
    ∃ k, Scans mem base (fun c => digit? base c ≠ none) d a n k (toNumber mem base d a n) ∧
      (k = n ∨ digit? base (mem (a + BitVec.ofNat w k)) = none) := by
  induction n generalizing d a with
  | zero => exact ⟨0, ⟨Nat.le_refl 0, by simp, by simp [toNumber, accumulateAll, digits]⟩, .inl rfl⟩
  | succ n ih =>
      cases hdigit : digit? base (mem a) with
      | none =>
          refine ⟨0, ⟨Nat.zero_le _, by simp, ?_⟩, .inr (by simpa using hdigit)⟩
          simp [toNumber, hdigit, accumulateAll, digits]
      | some digit =>
          obtain ⟨k, hscan, hend⟩ := ih (accumulate base d digit) (a + 1#w)
          refine ⟨k + 1, ⟨Nat.succ_le_succ hscan.le, ?_, ?_⟩, ?_⟩
          · rw [text_succ, List.forall_mem_cons]
            exact ⟨by simp [hdigit], hscan.chars⟩
          · simp only [toNumber, hdigit]
            rw [hscan.result, text_succ, accumulateAll_cons_some hdigit, add_one_ofNat,
              Nat.succ_sub_succ]
          · rcases hend with rfl | hend
            · exact .inl rfl
            · rw [add_one_ofNat] at hend
              exact .inr hend

/-- What {lit}`>number_` goes past -/
def NumberChar (base : BitVec w) (c : Byte) : Prop :=
  digit? base c ≠ none ∨ c = ascii '_'

instance (base : BitVec w) : DecidablePred (NumberChar base) :=
  fun _ => inferInstanceAs (Decidable (_ ∨ _))

theorem Scans.mono {mem : Chars w} {p q : Byte → Prop} {d : BitVec (w + w)} {a : BitVec w}
    {n k : Nat} {r : BitVec (w + w) × BitVec w × Nat} (h : Scans mem base p d a n k r)
    (hpq : ∀ c, p c → q c) : Scans mem base q d a n k r :=
  ⟨h.le, fun c hc => hpq c (h.chars c hc), h.result⟩

/-- Two scans with a character between them that is no digit -/
theorem Scans.skip {mem : Chars w} {p : Byte → Prop} {d : BitVec (w + w)} {a : BitVec w}
    {n k k' : Nat} {r r' : BitVec (w + w) × BitVec w × Nat} (h : Scans mem base p d a n k r)
    (hk : k < n) (hnone : digit? base (mem (a + BitVec.ofNat w k)) = none)
    (hp : p (mem (a + BitVec.ofNat w k)))
    (h' : Scans mem base p r.1 (r.2.1 + 1#w) (r.2.2 - 1) k' r') :
    Scans mem base p d a n (k + (k' + 1)) r' := by
  obtain ⟨hle, hchars, rfl⟩ := h
  obtain ⟨hle', hchars', rfl⟩ := h'
  dsimp only at hle' hchars' ⊢
  have htext : text mem a (k + (k' + 1)) = text mem a k ++ mem (a + BitVec.ofNat w k) ::
      text mem (a + BitVec.ofNat w k + 1#w) k' := by
    rw [text_add, text_succ]
  refine ⟨by omega, ?_, ?_⟩
  · rw [htext]
    intro c hc
    rcases List.mem_append.mp hc with hc | hc
    · exact hchars c hc
    · exact (List.forall_mem_cons.mpr ⟨hp, hchars'⟩) c hc
  · have hlen : n - k - 1 - k' = n - (k + (k' + 1)) := by omega
    rw [htext, accumulateAll_append, accumulateAll_cons_none hnone, add_one_ofNat,
      add_ofNat_ofNat a k (k' + 1), hlen]

theorem toInt_ofNat_pos {n : Nat} (h : 2 * n < 2 ^ w) : 0 < (BitVec.ofNat w n).toInt ↔ 0 < n := by
  have hmod : (BitVec.ofNat w n).toNat = n := by
    rw [BitVec.toNat_ofNat, Nat.mod_eq_of_lt (by omega)]
  rw [toInt_of_lt (by rw [hmod]; exact h), hmod]
  omega

/-- {lit}`>number_` converts the digits at the start of a text and skips underscores, as long as the
rest of the text is shorter than the half of the address space. -/
theorem toNumberUnderscore_spec (mem : Chars w) (base : BitVec w) (d : BitVec (w + w))
    (a : BitVec w) (n : Nat) :
    ∃ k, Scans mem base (NumberChar base) d a n k (toNumberUnderscore mem base d a n) ∧
      (2 * n < 2 ^ w → k = n ∨ ¬NumberChar base (mem (a + BitVec.ofNat w k))) := by
  induction n using Nat.strong_induction_on generalizing d a with
  | _ n ih =>
      obtain ⟨k, hscan, hend⟩ := toNumber_spec mem base d a n
      have hscan' := hscan.mono (q := NumberChar base) fun c hc => .inl hc
      rw [toNumberUnderscore]
      generalize hr : toNumber mem base d a n = r at hscan hscan'
      obtain ⟨hle, -, hresult⟩ := hscan
      have haddr : r.2.1 = a + BitVec.ofNat w k := by rw [hresult]
      have hlen : r.2.2 = n - k := by rw [hresult]
      split
      · rename_i hcond
        rw [haddr, hlen] at hcond
        have hlt : k < n := by
          refine lt_of_le_of_ne hle fun heq => ?_
          simp [heq] at hcond
        have hnone := hend.resolve_left hlt.ne
        obtain ⟨k', hscan₂, hend₂⟩ := ih (n - k - 1) (by omega) r.1 (r.2.1 + 1#w)
        rw [← hlen] at hscan₂
        refine ⟨k + (k' + 1), hscan'.skip hlt hnone (.inr hcond.2) hscan₂, fun hn => ?_⟩
        rw [haddr, add_one_ofNat, add_ofNat_ofNat] at hend₂
        rcases hend₂ (by omega) with heq | hend₂
        · exact .inl (by omega)
        · exact .inr hend₂
      · rename_i hcond
        refine ⟨k, hscan', fun hn => ?_⟩
        rw [haddr, hlen, toInt_ofNat_pos (by omega)] at hcond
        rcases hend with rfl | hnone
        · exact .inl rfl
        · by_cases heq : k = n
          · exact .inl heq
          · refine .inr fun hp => hp.elim (absurd hnone) fun hunder => ?_
            exact hcond ⟨by omega, hunder⟩

end Numbers
end Gforth
