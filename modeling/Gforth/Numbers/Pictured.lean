import Gforth.Arith.MixedDivision
import Gforth.Numbers.Digits

/-!
# Pictured numeric output

The words of {lit}`kernel/nio.fs` that build a text downwards in the hold buffer.  A word that throws
leaves the variables as they are then, which is seen by whoever catches the ball.

Main results:

- Theorem {lit}`udSlashMod_spec`: the division of a double by a cell in two steps.
- Theorem {lit}`numberSignS_spec`: the digits of a number are held.
- Theorem {lit}`output_input`: what is put out fits the buffer and is read back.
-/

namespace Gforth
namespace Numbers

open Lib
open Memory
open Arith (umdiv umdiv_exact toNat_pos)

variable {w : Nat}

/-! ## The hold buffer -/

/-- {lit}`word-pno-size`, in characters; the numbers of {lit}`kernel/vars.fs` are hexadecimal. -/
def wordPnoSize (w : Nat) : Nat :=
  0x20 + 8 * 2 * (w / 8) + 2 + w / 8

example : wordPnoSize 64 = 170 ∧ wordPnoSize 32 = 102 := by decide

/-- The memory at {lit}`holdbufptr` -/
structure HoldBuffer (w : Nat) where
  addr : BitVec w
  addr_ne_zero : addr ≠ 0#w
  fits : addr.toNat + wordPnoSize w < 2 ^ w

namespace HoldBuffer

/-- {lit}`holdbuf-end` -/
def bufEnd (buf : HoldBuffer w) : BitVec w :=
  buf.addr + BitVec.ofNat w (wordPnoSize w)

/-- The end of the buffer -/
theorem toNat_bufEnd (buf : HoldBuffer w) :
    buf.bufEnd.toNat = buf.addr.toNat + wordPnoSize w := by
  have hfits := buf.fits
  rw [bufEnd, BitVec.toNat_add, BitVec.toNat_ofNat, Nat.add_mod_mod, Nat.mod_eq_of_lt hfits]

end HoldBuffer

/-- The variables of pictured output, with the memory -/
structure HoldState (w : Nat) where
  mem : Chars w
  holdptr : BitVec w
  holdend : BitVec w

/-- {lit}`-17`, {lit}`-11` and what the divisions throw -/
inductive HoldBall where
  | pictured
  | resultRange
  | division (e : Arith.Ball)
deriving DecidableEq

/-- What a word leaves or throws, and the state after it -/
abbrev Held (w : Nat) (α : Type) : Type :=
  Except HoldBall α × HoldState w

/-! ## The words -/

section

variable (buf : HoldBuffer w)

/-- {lit}`+hold` -/
def plusHold (n : BitVec w) (st : HoldState w) : Held w (BitVec w) :=
  let st := { st with holdptr := st.holdptr - n }
  if st.holdptr < buf.addr then (.error .pictured, st) else (.ok st.holdptr, st)

/-- {lit}`hold` -/
def hold (char : BitVec w) (st : HoldState w) : Held w Unit :=
  match plusHold buf 1#w st with
  | (.error e, st) => (.error e, st)
  | (.ok a, st) => (.ok (), { st with mem := store st.mem a [char.setWidth 8] })

/-- {lit}`<#` -/
def lessNumberSign (st : HoldState w) : HoldState w :=
  { st with holdptr := buf.bufEnd, holdend := buf.bufEnd }

/-- {lit}`#>`, without the double that it drops: the address and the length -/
def numberSignGreater (st : HoldState w) : BitVec w × BitVec w :=
  (st.holdptr, st.holdend - st.holdptr)

/-- {lit}`<<#` -/
def lessLessNumberSign (st : HoldState w) : Held w Unit :=
  match hold buf (st.holdend - st.holdptr) st with
  | (.error e, st) => (.error e, st)
  | (.ok (), st) => (.ok (), { st with holdend := st.holdptr })

/-- {lit}`#>>` -/
def numberSignGreaterGreater (st : HoldState w) : Held w Unit :=
  if buf.bufEnd ≤ st.holdend then (.error .resultRange, st)
  else
    let a := st.holdend + 1#w
    (.ok (), { st with holdptr := a, holdend := a + (st.mem st.holdend).setWidth w })

/-- {lit}`sign` -/
def holdSign (n : BitVec w) (st : HoldState w) : Held w Unit :=
  if n.slt 0#w then hold buf ((ascii '-').setWidth w) st else (.ok (), st)

/-- {lit}`ud/mod`: the remainder and the quotient -/
def udSlashMod (d : BitVec (w + w)) (u : BitVec w) :
    Except Arith.Ball (BitVec w × BitVec (w + w)) :=
  if u = 0#w then .error .divZero
  else if dhi d = 0#w then .ok (dlo d % u, twoCell (dlo d / u) 0#w)
  else
    match umdiv (twoCell (dlo d) (dhi d % u)) u with
    | .error e => .error e
    | .ok r => .ok (dhi r, twoCell (dlo r) (dhi d / u))

/-- The character of a digit, as {lit}`#` computes it -/
def digitChar (rem : BitVec w) : BitVec w :=
  rem + (if 9#w < rem then 7#w else 0#w) + (ascii '0').setWidth w

/-- {lit}`#` -/
def numberSign (base : BitVec w) (d : BitVec (w + w)) (st : HoldState w) : Held w (BitVec (w + w)) :=
  match udSlashMod d base with
  | .error e => (.error (.division e), st)
  | .ok (rem, quot) =>
      match hold buf (digitChar rem) st with
      | (.error e, st) => (.error e, st)
      | (.ok (), st) => (.ok quot, st)

/-- {lit}`holds` -/
def holds (a u : BitVec w) (st : HoldState w) : Held w Unit :=
  match plusHold buf u st with
  | (.error e, st) => (.error e, st)
  | (.ok dest, st) => (.ok (), { st with mem := store st.mem dest (text st.mem a u.toNat) })

variable {st st' : HoldState w}

/-- {lit}`+hold` moves the pointer down. -/
theorem plusHold_ok {n a : BitVec w} (h : plusHold buf n st = (.ok a, st')) :
    a = st.holdptr - n ∧ st' = { st with holdptr := st.holdptr - n } ∧
      ¬st.holdptr - n < buf.addr := by
  simp only [plusHold] at h
  split at h
  · cases h
  · cases h
    exact ⟨rfl, rfl, by assumption⟩

/-- {lit}`hold` stores a character. -/
theorem hold_ok {c : BitVec w} (h : hold buf c st = (.ok (), st')) :
    st' = { st with
      mem := store st.mem (st.holdptr - 1#w) [c.setWidth 8]
      holdptr := st.holdptr - 1#w } ∧ ¬st.holdptr - 1#w < buf.addr := by
  rw [hold] at h
  split at h
  · cases h
  · rename_i a st₁ hplus
    obtain ⟨rfl, rfl, hroom⟩ := plusHold_ok buf hplus
    cases h
    exact ⟨rfl, hroom⟩

/-- {lit}`#` holds the last digit. -/
theorem numberSign_ok {base : BitVec w} {d q : BitVec (w + w)}
    (h : numberSign buf base d st = (.ok q, st')) :
    ∃ rem, udSlashMod d base = .ok (rem, q) ∧ hold buf (digitChar rem) st = (.ok (), st') := by
  rw [numberSign] at h
  split at h
  · cases h
  · rename_i rem quot hdiv
    split at h
    · cases h
    · rename_i st₁ hhold
      cases h
      exact ⟨rem, hdiv, hhold⟩

/-- A character less room -/
theorem room_decreases {p : BitVec w} (h : ¬p - 1#w < buf.addr) :
    (p - 1#w - buf.addr).toNat < (p - buf.addr).toNat := by
  have hpred : ∀ {x : BitVec w}, x ≠ 0#w → (x - 1#w).toNat + 1 = x.toNat := by
    intro x hx
    have hpos := toNat_pos hx
    have hlt := x.isLt
    have hone : (1#w).toNat = 1 := by
      rw [BitVec.toNat_ofNat, Nat.mod_eq_of_lt (by omega)]
    rw [BitVec.toNat_sub_of_le (BitVec.le_def.mpr (by omega)), hone]
    omega
  have hne : p - buf.addr ≠ 0#w := by
    intro hzero
    have hp : p = buf.addr := by
      rw [← BitVec.sub_add_cancel p buf.addr, hzero, BitVec.zero_add]
    have hlast := hpred buf.addr_ne_zero
    rw [hp, BitVec.lt_def] at h
    omega
  have hcomm : p - 1#w - buf.addr = p - buf.addr - 1#w := by
    rw [BitVec.sub_eq_add_neg, BitVec.sub_eq_add_neg, BitVec.sub_eq_add_neg, BitVec.sub_eq_add_neg,
      BitVec.add_assoc, BitVec.add_assoc, BitVec.add_comm (-1#w)]
  have hlast := hpred hne
  rw [hcomm]
  omega

/-- {lit}`#s`, which goes on until the buffer is full if the base is 1 -/
def numberSignS (base : BitVec w) (d : BitVec (w + w)) (st : HoldState w) :
    Held w (BitVec (w + w)) :=
  match _h : numberSign buf base d st with
  | (.error e, st') => (.error e, st')
  | (.ok q, st') => if dlo q ||| dhi q = 0#w then (.ok q, st') else numberSignS base q st'
termination_by (st.holdptr - buf.addr).toNat
decreasing_by
  obtain ⟨rem, -, hhold⟩ := numberSign_ok buf _h
  obtain ⟨rfl, hroom⟩ := hold_ok buf hhold
  exact room_decreases buf hroom

/-- {lit}`#s` goes on until nothing is left. -/
theorem numberSignS_of_ok {base : BitVec w} {d q : BitVec (w + w)}
    (h : numberSign buf base d st = (.ok q, st')) :
    numberSignS buf base d st =
      if dlo q ||| dhi q = 0#w then (.ok q, st') else numberSignS buf base q st' := by
  rw [numberSignS]
  split
  · rename_i heq
    rw [h] at heq
    cases heq
  · rename_i heq
    rw [h] at heq
    cases heq
    rfl

/-- {lit}`#s` throws if {lit}`#` does. -/
theorem numberSignS_of_error {base : BitVec w} {d : BitVec (w + w)} {e : HoldBall}
    (h : numberSign buf base d st = (.error e, st')) :
    numberSignS buf base d st = (.error e, st') := by
  rw [numberSignS]
  split
  · rename_i heq
    rw [h] at heq
    cases heq
    rfl
  · rename_i heq
    rw [h] at heq
    cases heq

end

/-! ## Division -/

/-- Nothing is left of a double if both cells are 0. -/
theorem or_halves_eq_zero_iff (d : BitVec (w + w)) : dlo d ||| dhi d = 0#w ↔ d.toNat = 0 := by
  rw [BitVec.or_eq_zero_iff, ← BitVec.toNat_inj, ← BitVec.toNat_inj, toNat_dhi_dlo d,
    BitVec.toNat_zero]
  constructor
  · rintro ⟨hlo, hhi⟩
    rw [hlo, hhi, Nat.zero_mul]
  · intro h
    have hpos := Nat.two_pow_pos w
    have hhi : (dhi d).toNat * 2 ^ w = 0 := by omega
    exact ⟨by omega, (Nat.mul_eq_zero.mp hhi).resolve_right hpos.ne'⟩

/-- The division of a double by a cell in two steps -/
theorem udSlashMod_spec (d : BitVec (w + w)) {u : BitVec w} (hu : u ≠ 0#w) :
    ∃ r q, udSlashMod d u = .ok (r, q) ∧ r.toNat = d.toNat % u.toNat ∧
      q.toNat = d.toNat / u.toNat := by
  have hupos := toNat_pos hu
  have hsplit := toNat_dhi_dlo d
  rw [udSlashMod, if_neg hu]
  by_cases hhi : dhi d = 0#w
  · rw [hhi, BitVec.toNat_zero, Nat.zero_mul, Nat.zero_add] at hsplit
    rw [if_pos hhi]
    refine ⟨_, _, rfl, ?_, ?_⟩
    · rw [BitVec.toNat_umod, hsplit]
    · rw [toNat_twoCell, BitVec.toNat_zero, Nat.zero_mul, Nat.zero_add, BitVec.toNat_udiv, hsplit]
  · rw [if_neg hhi]
    have hmod : (dhi d % u).toNat = (dhi d).toNat % u.toNat := BitVec.toNat_umod
    have hlt : dhi (twoCell (dlo d) (dhi d % u)) < u := by
      rw [dhi_twoCell, BitVec.lt_def, hmod]
      exact Nat.mod_lt _ hupos
    obtain ⟨res, hres, hquot, hrem⟩ := umdiv_exact.exact _ u hu hlt
    rw [toNat_twoCell, hmod] at hquot hrem
    rw [hres]
    -- The quotient of the upper cell is taken out of the dividend.
    have hd : d.toNat = (dhi d).toNat % u.toNat * 2 ^ w + (dlo d).toNat +
        u.toNat * ((dhi d).toNat / u.toNat * 2 ^ w) := by
      rw [hsplit]
      nth_rewrite 1 [← Nat.mod_add_div (dhi d).toNat u.toNat]
      ring
    refine ⟨_, _, rfl, ?_, ?_⟩
    · rw [hrem, hd, Nat.add_mul_mod_self_left]
    · rw [toNat_twoCell, BitVec.toNat_udiv, hquot, hd, Nat.add_mul_div_left _ _ hupos, Nat.add_comm]

/-! ## Room -/

section

variable (buf : HoldBuffer w)

theorem toNat_sub_ofNat {p : BitVec w} {n : Nat} (h : n ≤ p.toNat) :
    (p - BitVec.ofNat w n).toNat = p.toNat - n := by
  have hlt := p.isLt
  have hn : (BitVec.ofNat w n).toNat = n := by
    rw [BitVec.toNat_ofNat, Nat.mod_eq_of_lt (by omega)]
  rw [BitVec.toNat_sub_of_le (BitVec.le_def.mpr (by omega)), hn]

/-- {lit}`+hold` succeeds if there is room. -/
theorem plusHold_of_room {n : Nat} {st : HoldState w} (h : buf.addr.toNat + n ≤ st.holdptr.toNat) :
    plusHold buf (BitVec.ofNat w n) st =
      (.ok (st.holdptr - BitVec.ofNat w n), { st with holdptr := st.holdptr - BitVec.ofNat w n }) := by
  have hptr := toNat_sub_ofNat (p := st.holdptr) (n := n) (by omega)
  rw [plusHold, if_neg]
  rw [BitVec.lt_def, hptr]
  omega

/-- {lit}`hold` succeeds if there is room. -/
theorem hold_of_room {c : BitVec w} {st : HoldState w}
    (h : buf.addr.toNat + 1 ≤ st.holdptr.toNat) :
    hold buf c st = (.ok (), { st with
      mem := store st.mem (st.holdptr - 1#w) [c.setWidth 8]
      holdptr := st.holdptr - 1#w }) := by
  rw [hold, show 1#w = BitVec.ofNat w 1 from rfl, plusHold_of_room buf h]

end

/-! ## Digits -/

/-- The digits of a number, with the most significant one first and at least one -/
def toDigits (base n : Nat) : List Nat :=
  if n = 0 then [0] else (Nat.digits base n).reverse

/-- The character that is held for a digit -/
def digitByte (w : Nat) (n : Nat) : Byte :=
  (digitChar (BitVec.ofNat w n)).setWidth 8

/-- The last digit and the others -/
theorem toDigits_eq {base : Nat} (hbase : 2 ≤ base) (n : Nat) :
    toDigits base n = (if n / base = 0 then [] else toDigits base (n / base)) ++ [n % base] := by
  by_cases hzero : n = 0
  · simp [toDigits, hzero]
  · rw [toDigits, if_neg hzero, Nat.digits_def' hbase (by omega), List.reverse_cons]
    split
    · rename_i hdiv
      rw [hdiv]
      simp
    · rename_i hdiv
      rw [toDigits, if_neg hdiv]

/-- A text is held. -/
def HoldState.held (st : HoldState w) (t : List Byte) : HoldState w :=
  { st with
    mem := store st.mem (st.holdptr - BitVec.ofNat w t.length) t
    holdptr := st.holdptr - BitVec.ofNat w t.length }

/-- Texts are held one in front of the other. -/
theorem HoldState.held_held (st : HoldState w) (s t : List Byte) :
    (st.held t).held s = st.held (s ++ t) := by
  have hptr : st.holdptr - BitVec.ofNat w t.length - BitVec.ofNat w s.length =
      st.holdptr - BitVec.ofNat w (s ++ t).length := by
    rw [List.length_append, BitVec.ofNat_add, BitVec.sub_eq_add_neg, BitVec.sub_eq_add_neg,
      BitVec.sub_eq_add_neg, BitVec.neg_add, BitVec.add_assoc, BitVec.sub_eq_add_neg,
      BitVec.add_comm (-BitVec.ofNat w t.length)]
  have hback : st.holdptr - BitVec.ofNat w (s ++ t).length + BitVec.ofNat w s.length =
      st.holdptr - BitVec.ofNat w t.length := by
    rw [← hptr, BitVec.sub_add_cancel]
  simp only [HoldState.held, hptr]
  rw [store_append, hback]

section

variable (buf : HoldBuffer w)

variable {st : HoldState w}

theorem hold_eq_held {c : BitVec w} (h : buf.addr.toNat + 1 ≤ st.holdptr.toNat) :
    hold buf c st = (.ok (), st.held [c.setWidth 8]) :=
  hold_of_room buf h

theorem toNat_holdptr_held {t : List Byte} (h : t.length ≤ st.holdptr.toNat) :
    (st.held t).holdptr.toNat = st.holdptr.toNat - t.length :=
  toNat_sub_ofNat h

/-- {lit}`#` holds a digit. -/
theorem numberSign_spec {base : BitVec w} (hbase : base ≠ 0#w) (d : BitVec (w + w))
    (hroom : buf.addr.toNat + 1 ≤ st.holdptr.toNat) :
    ∃ q, q.toNat = d.toNat / base.toNat ∧ numberSign buf base d st =
      (.ok q, st.held [digitByte w (d.toNat % base.toNat)]) := by
  obtain ⟨r, q, hdiv, hr, hq⟩ := udSlashMod_spec d hbase
  refine ⟨q, hq, ?_⟩
  rw [numberSign, hdiv]
  simp only [hold_eq_held buf hroom]
  rw [← hr, digitByte, BitVec.ofNat_toNat, BitVec.setWidth_eq]

/-- {lit}`#s` holds the digits of a number. -/
theorem numberSignS_spec {base : BitVec w} (hbase : 2 ≤ base.toNat) (d : BitVec (w + w))
    (hroom : buf.addr.toNat + (toDigits base.toNat d.toNat).length ≤ st.holdptr.toNat) :
    numberSignS buf base d st =
      (.ok 0#(w + w), st.held ((toDigits base.toNat d.toNat).map (digitByte w))) := by
  have hne : base ≠ 0#w := by
    rintro rfl
    rw [BitVec.toNat_zero] at hbase
    omega
  induction hn : d.toNat using Nat.strong_induction_on generalizing d st with
  | _ n ih =>
      subst hn
      have hdigits := toDigits_eq hbase d.toNat
      have hlen := congrArg List.length hdigits
      rw [List.length_append, List.length_singleton] at hlen
      obtain ⟨q, hq, hsign⟩ := numberSign_spec buf hne d
        (show buf.addr.toNat + 1 ≤ st.holdptr.toNat by omega)
      rw [numberSignS_of_ok buf hsign]
      simp only [or_halves_eq_zero_iff, hq]
      by_cases hzero : d.toNat / base.toNat = 0
      · have hq0 : q = 0#(w + w) := BitVec.eq_of_toNat_eq (by rw [hq, hzero, BitVec.toNat_zero])
        rw [if_pos hzero, hdigits, if_pos hzero, hq0]
        rfl
      · have hlt : d.toNat / base.toNat < d.toNat :=
          Nat.div_lt_self (Nat.pos_of_ne_zero fun h => hzero (by rw [h, Nat.zero_div])) hbase
        rw [if_neg hzero] at hlen ⊢
        have hptr : (st.held [digitByte w (d.toNat % base.toNat)]).holdptr.toNat =
            st.holdptr.toNat - 1 :=
          toNat_holdptr_held (show 1 ≤ st.holdptr.toNat by omega)
        rw [ih _ hlt q (by rw [hq, hptr]; omega) hq, HoldState.held_held, hdigits, if_neg hzero,
          List.map_append]
        rfl

end

/-! ## Output and input -/

/-- Each number has digits. -/
theorem toDigits_ne_nil (base n : Nat) : toDigits base n ≠ [] := by
  rw [toDigits]
  split
  · exact List.cons_ne_nil _ _
  · rename_i hn
    rw [ne_eq, List.reverse_eq_nil_iff]
    exact Nat.digits_ne_nil_iff_ne_zero.mpr hn

/-- Digits are less than the base. -/
theorem toDigits_lt {base : Nat} (hbase : 2 ≤ base) {n x : Nat} (h : x ∈ toDigits base n) :
    x < base := by
  rw [toDigits] at h
  split at h
  · rw [List.mem_singleton] at h
    omega
  · exact Nat.digits_lt_base hbase (List.mem_reverse.mp h)

/-- Only the number 0 starts with the digit 0. -/
theorem head_toDigits {base n : Nat} (h : (toDigits base n).head? = some 0) : n = 0 := by
  by_contra hn
  have hlast := Nat.getLast_digit_ne_zero base hn
  rw [toDigits, if_neg hn, List.head?_reverse, List.getLast?_eq_getLast_of_ne_nil
    (Nat.digits_ne_nil_iff_ne_zero.mpr hn)] at h
  exact hlast (Option.some.inj h)

/-- A number below a power of the base has no more digits than the exponent. -/
theorem length_toDigits_le {base n k : Nat} (hbase : 2 ≤ base) (hk : 0 < k) (h : n < 2 ^ k) :
    (toDigits base n).length ≤ k := by
  rw [toDigits]
  split
  · exact hk
  · rw [List.length_reverse]
    exact Nat.digits_length_le_iff hbase n |>.mpr (h.trans_le (Nat.pow_le_pow_left hbase k))

/-- The digits have the value of the number. -/
theorem foldl_toDigits {base : Nat} (n : Nat) :
    (toDigits base n).foldl (fun v x => v * base + x) 0 = n := by
  have hfold : ∀ l : List Nat, l.reverse.foldl (fun v x => v * base + x) 0 = Nat.ofDigits base l := by
    intro l
    induction l with
    | nil => rfl
    | cons x l ih =>
        rw [List.reverse_cons, List.foldl_append, ih, Nat.ofDigits_cons, List.foldl_cons,
          List.foldl_nil]
        ring_nf
  rw [toDigits]
  split
  · rename_i hn
    rw [hn]
    simp
  · rw [hfold, Nat.ofDigits_digits]

/-- The character of a digit -/
theorem digitByte_eq (hw : 8 ≤ w) {x : Nat} (hx : x < 42) :
    digitByte w x = BitVec.ofNat 8 (x + (if 9 < x then 7 else 0) + 48) := by
  have hpow := two_pow_le_of_le hw
  have hword : ∀ {n : Nat}, n < 256 → (BitVec.ofNat w n).toNat = n := fun hn => by
    rw [BitVec.toNat_ofNat, Nat.mod_eq_of_lt (by omega)]
  have hzero : ((ascii '0').setWidth w).toNat = 48 := by
    rw [BitVec.toNat_setWidth_of_le hw]
    rfl
  have hgap : (if 9#w < BitVec.ofNat w x then 7#w else 0#w) =
      BitVec.ofNat w (if 9 < x then 7 else 0) := by
    simp only [BitVec.lt_def, hword (show 9 < 256 by decide), hword (show x < 256 by omega)]
    split <;> rfl
  have hvalue : (digitChar (BitVec.ofNat w x)).toNat = x + (if 9 < x then 7 else 0) + 48 := by
    rw [digitChar, hgap, BitVec.toNat_add, ← BitVec.ofNat_add, hzero,
      hword (show x + (if 9 < x then 7 else 0) < 256 by split <;> omega), Nat.mod_eq_of_lt]
    split <;> omega
  refine BitVec.eq_of_toNat_eq ?_
  rw [digitByte, BitVec.toNat_setWidth, hvalue, BitVec.toNat_ofNat]

/-- The characters that are held for digits are read as these digits, also beyond {lit}`Z`. -/
theorem digit?_digitByte (hw : 8 ≤ w) {base : BitVec w} (hbase : base.toNat ≤ 42) {x : Nat}
    (hx : x < base.toNat) : digit? base (digitByte w x) = some (BitVec.ofNat w x) := by
  have hchar : ∀ y < 42, anyDigit (BitVec.ofNat 8 (y + (if 9 < y then 7 else 0) + 48)) = some y := by
    decide
  rw [digit?_eq_anyDigit hw (by omega), digitByte_eq hw (by omega), hchar x (by omega),
    Option.filter_some_pos (by simpa using hx), Option.map_some]

/-- Only 0 is printed as 0. -/
theorem digitByte_zero_of_head {x : Nat} (hw : 8 ≤ w) (hx : x < 42)
    (h : digitByte w x = ascii '0') : x = 0 := by
  have hchar : ∀ y < 42, BitVec.ofNat 8 (y + (if 9 < y then 7 else 0) + 48) = ascii '0' → y = 0 := by
    decide
  rw [digitByte_eq hw hx] at h
  exact hchar x hx h

/-- The digits of a list are accumulated to its value, up to overflow. -/
theorem accumulateAll_digitByte (hw : 8 ≤ w) {base : BitVec w} (hbase : base.toNat ≤ 42)
    {l : List Nat} (hl : ∀ x ∈ l, x < base.toNat) (v : Nat) :
    accumulateAll base (BitVec.ofNat (w + w) v) (l.map (digitByte w)) =
      BitVec.ofNat (w + w) (l.foldl (fun v x => v * base.toNat + x) v) := by
  induction l generalizing v with
  | nil => rfl
  | cons x l ih =>
      have hx := hl x List.mem_cons_self
      have hlt : x < 2 ^ w := hx.trans base.isLt
      rw [List.map_cons, accumulateAll_cons_some (digit?_digitByte hw hbase hx), accumulate_eq,
        List.foldl_cons, ← ih fun y hy => hl y (List.mem_cons_of_mem x hy)]
      congr 1
      refine BitVec.eq_of_toNat_eq ?_
      rw [BitVec.toNat_ofNat, BitVec.toNat_ofNat, BitVec.toNat_ofNat, BitVec.toNat_ofNat,
        Nat.mod_eq_of_lt hlt]
      exact ((Nat.mod_modEq _ _).mul_right base.toNat).add_right x

theorem two_mul_le_wordPnoSize (w : Nat) : w + w ≤ wordPnoSize w := by
  rw [wordPnoSize]
  omega

/-- What {lit}`<# #s #>` puts out fits the buffer, has at least one character and no superfluous zero
in front, and {lit}`>number` reads all of it back. -/
theorem output_input (hw : 8 ≤ w) (buf : HoldBuffer w) (st : HoldState w) {base : BitVec w}
    (hbase : 2 ≤ base.toNat ∧ base.toNat ≤ 42) (d : BitVec (w + w)) :
    ∃ st' a u, numberSignS buf base d (lessNumberSign buf st) = (.ok 0#(w + w), st') ∧
      numberSignGreater st' = (a, u) ∧ buf.addr ≤ a ∧ a + u = buf.bufEnd ∧
      text st'.mem a u.toNat ≠ [] ∧
      (1 < (text st'.mem a u.toNat).length → (text st'.mem a u.toNat).head? ≠ some (ascii '0')) ∧
      toNumber st'.mem base 0#(w + w) a u.toNat = (d, a + u, 0) := by
  have hfits := buf.fits
  have hsize := two_mul_le_wordPnoSize w
  have hend := buf.toNat_bufEnd
  have hlong : (toDigits base.toNat d.toNat).length ≤ w + w :=
    length_toDigits_le hbase.1 (by omega) d.isLt
  have hlt : ∀ x ∈ toDigits base.toNat d.toNat, x < base.toNat := fun x => toDigits_lt hbase.1
  have hvalue := accumulateAll_digitByte hw hbase.2 hlt 0
  rw [foldl_toDigits, BitVec.ofNat_toNat, BitVec.setWidth_eq] at hvalue
  have hnumber := numberSignS_spec buf hbase.1 d
    (show buf.addr.toNat + (toDigits base.toNat d.toNat).length ≤
      (lessNumberSign buf st).holdptr.toNat by
        change _ ≤ buf.bufEnd.toNat
        omega)
  have hhead : (toDigits base.toNat d.toNat).head? = some 0 → d.toNat = 0 := head_toDigits
  have hshort : d.toNat = 0 → (toDigits base.toNat d.toNat).length = 1 := by
    intro hzero
    rw [hzero]
    rfl
  have hne := toDigits_ne_nil base.toNat d.toNat
  generalize toDigits base.toNat d.toNat = ds at *
  have hmod : (BitVec.ofNat w ds.length).toNat = ds.length := by
    rw [BitVec.toNat_ofNat, Nat.mod_eq_of_lt (by omega)]
  have haddr : (buf.bufEnd - BitVec.ofNat w ds.length).toNat = buf.bufEnd.toNat - ds.length :=
    toNat_sub_ofNat (by omega)
  have hlen : buf.bufEnd - (buf.bufEnd - BitVec.ofNat w ds.length) = BitVec.ofNat w ds.length := by
    refine BitVec.eq_of_toNat_eq ?_
    rw [BitVec.toNat_sub_of_le (BitVec.le_def.mpr (by omega)), haddr, hmod]
    omega
  have htext : ∀ mem : Chars w, text (store mem (buf.bufEnd - BitVec.ofNat w ds.length)
      (ds.map (digitByte w))) (buf.bufEnd - BitVec.ofNat w ds.length) ds.length =
        ds.map (digitByte w) := by
    intro mem
    have hstore := text_store mem (a := buf.bufEnd - BitVec.ofNat w ds.length)
      (t := ds.map (digitByte w)) (n := 0) (by rw [List.length_map]; omega)
    rwa [List.length_map, text_zero, List.append_nil, Nat.add_zero] at hstore
  refine ⟨_, buf.bufEnd - BitVec.ofNat w ds.length, BitVec.ofNat w ds.length, hnumber, ?_, ?_, ?_, ?_⟩
  · rw [numberSignGreater]
    simp only [HoldState.held, List.length_map, lessNumberSign, hlen]
  · rw [BitVec.le_def, haddr]
    omega
  · exact BitVec.sub_add_cancel _ _
  · rw [hmod]
    simp only [HoldState.held, List.length_map, lessNumberSign]
    generalize hmem : store st.mem (buf.bufEnd - BitVec.ofNat w ds.length) (ds.map (digitByte w)) = mem
    have htext := htext st.mem
    rw [hmem] at htext
    rw [htext]
    refine ⟨fun h => hne (List.map_eq_nil_iff.mp h), ?_, ?_⟩
    · intro hone hzero
      rw [List.length_map] at hone
      rw [List.head?_map, Option.map_eq_some_iff] at hzero
      obtain ⟨x, hx, hchar⟩ := hzero
      have hx42 : x < 42 := by
        have := hlt x (List.mem_of_mem_head? hx)
        omega
      rw [digitByte_zero_of_head hw hx42 hchar] at hx
      have := hshort (hhead hx)
      omega
    · obtain ⟨k, hscan, hstop⟩ := toNumber_spec mem base 0#(w + w)
        (buf.bufEnd - BitVec.ofNat w ds.length) ds.length
      have hall : k = ds.length := by
        by_contra hk
        have hnone := hstop.resolve_left hk
        have hchar : mem (buf.bufEnd - BitVec.ofNat w ds.length + BitVec.ofNat w k) ∈
            text mem (buf.bufEnd - BitVec.ofNat w ds.length) ds.length :=
          (mem_text mem).mpr ⟨k, lt_of_le_of_ne hscan.le hk, rfl⟩
        rw [htext, List.mem_map] at hchar
        obtain ⟨x, hx, hchar⟩ := hchar
        rw [← hchar, digit?_digitByte hw hbase.2 (hlt x hx)] at hnone
        cases hnone
      rw [hscan.result, hall, htext, hvalue, Nat.sub_self]

/-- A hold buffer at some address -/
def HoldBuffer.atPage : HoldBuffer 64 :=
  ⟨0x1000#64, by decide, by decide⟩

/-- A number in base 42 -/
theorem output_input_base_42 :
    ∃ st' a u, numberSignS HoldBuffer.atPage 42#64 1763#(64 + 64)
        (lessNumberSign HoldBuffer.atPage ⟨fun _ => 0#8, 0#64, 0#64⟩) = (.ok 0#(64 + 64), st') ∧
      numberSignGreater st' = (a, u) ∧ HoldBuffer.atPage.addr ≤ a ∧
      a + u = HoldBuffer.atPage.bufEnd ∧ text st'.mem a u.toNat ≠ [] ∧
      (1 < (text st'.mem a u.toNat).length → (text st'.mem a u.toNat).head? ≠ some (ascii '0')) ∧
      toNumber st'.mem 42#64 0#(64 + 64) a u.toNat = (1763#(64 + 64), a + u, 0) :=
  output_input (by decide) HoldBuffer.atPage ⟨fun _ => 0#8, 0#64, 0#64⟩ (by decide) 1763#(64 + 64)

end Numbers
end Gforth
