import Gforth.Lib.Splices
import Mathlib.Data.Rat.Defs
import Mathlib.Tactic

/-!
# Numbers in fields of a fixed width

{lit}`f>buf-rdp` converts a number into a field of characters, in fixed-point notation where enough of
it is seen there, else in exponential notation.  The digits are shifted in the field, and the point
pushes out what is in its place.  Cells are numbers here: lengths of fields in memory and exponents do
not overflow.  The word writes the exponent with {lit}`#s`, in the base that {lit}`base` holds; here this
is decimal throughout.

Main results:

- Theorem {lit}`fixedPoint_eq` and {lit}`exponential_eq`: what is in the field.
-/

namespace Gforth
namespace Numbers
namespace Rdp

open Lib
open Memory

/-! ## The words -/

variable {w : Nat} {F : Type}

/-- The result of {lit}`represent` for a finite number: the digits behind the point, the exponent and
the sign -/
structure Significand where
  digits : List Char
  exponent : Int
  negative : Bool

/-- What the words use of floating-point numbers: {lit}`represent`, and if twice the number is above a
power of 0.1 -/
structure Floats (F : Type) where
  represent : F → Nat → Significand
  above : F → Nat → Bool

/-- {lit}`push-right` -/
def pushRight (mem : Memory w Char) (addr : BitVec w) (u1 u2 : Int) (cfill : Char) : Memory w Char :=
  let u2 := min u1 u2
  store (move mem addr (addr + BitVec.ofInt w u2) (u1 - u2).toNat) addr
    (List.replicate u2.toNat cfill)

/-- {lit}`fsign` -/
def Significand.fsign (r : Significand) : Int :=
  if r.negative then -1 else 0

/-- The exponent in exponential notation, where {lit}`base` is decimal -/
def exponentText (n : Int) : List Char :=
  'E' :: (if n < 0 then ['-'] else []) ++ Nat.toDigits 10 n.natAbs

namespace Floats

variable (fl : Floats F)

/-- The branch of {lit}`f>buf-rdp-try` for fixed-point notation: the field -/
def fixedPoint (v : F) (addr : BitVec w) (ur nd : Int) (r : Significand) (mem : Memory w Char) :
    Memory w Char :=
  let beforep := ur - nd - 1
  let befored := beforep - r.exponent
  let mem := pushRight mem addr ur befored '0'
  let mem := if ur ≤ befored + 1 ∧ fl.above v nd.toNat then
      store mem (addr + BitVec.ofInt w (befored - 1)) ['1']
    else mem
  let beforez := min (beforep - 1) befored
  let mem := store mem addr (List.replicate (max beforez 0).toNat ' ')
  let mem := if r.negative then store mem (addr + BitVec.ofInt w (max (beforez - 1) 0)) ['-'] else mem
  pushRight mem (addr + BitVec.ofInt w beforep) (ur - beforep) 1 '.'

/-- The branch of {lit}`f>buf-rdp-try` for exponential notation: the field and {lit}`mantlen` -/
def exponential (addr : BitVec w) (ur : Int) (r : Significand) (mem : Memory w Char) :
    Memory w Char × Int :=
  let mem := pushRight mem (addr + 1#w) (ur - 1) 1 '.'
  let mem := if r.negative then pushRight mem addr ur 1 '-' else mem
  let exponent := exponentText (r.exponent - 1)
  let explen : Int := exponent.length
  let mantlen := ur - explen - 1 + r.fsign
  if mantlen < 0 then (store mem addr (List.replicate ur.toNat '*'), mantlen)
  else (store mem (addr + BitVec.ofInt w (ur - explen)) exponent, mantlen)

/-- {lit}`f>buf-rdp-try` -/
def fToBufRdpTry (v : F) (addr : BitVec w) (ur nd up um1 : Int) (mem : Memory w Char) :
    Memory w Char × Int :=
  let mem := store mem (addr + BitVec.ofInt w um1) (List.replicate (ur - um1).toNat '0')
  let r := fl.represent v um1.toNat
  let mem := store mem addr r.digits
  let beforep := ur - nd - 1
  let result := if (up ≤ nd + r.exponent ∨ up = 0) ∧ max r.exponent 0 ≤ beforep + r.fsign then
      (fl.fixedPoint v addr ur nd r mem, r.exponent + nd)
    else exponential addr ur r mem
  (result.1, min (max 1 result.2) ur)

/-- {lit}`f>buf-rdp` -/
def fToBufRdp (v : F) (addr : BitVec w) (nr nd np : Int) (mem : Memory w Char) : Memory w Char :=
  let nd := max nd 0
  let np := max np 0
  let first := fl.fToBufRdpTry v addr nr nd np nr mem
  (fl.fToBufRdpTry v addr nr nd np first.2 first.1).1

end Floats

/-! ## Fields in memory -/

variable (mem : Memory w Char) (addr : BitVec w) {t : List Char} {p k : Nat} {c : Char}

/-- {lit}`push-right` shifts the rest of the field. -/
theorem pushRight_store (hp : p ≤ t.length) (hlt : t.length ≤ 2 ^ w) :
    pushRight (store mem addr t) (addr + BitVec.ofNat w p) (t.length - p : Nat) k c =
      store mem addr (shift t p k c) := by
  have hmin : min ((t.length - p : Nat) : Int) k = (min (t.length - p) k : Nat) :=
    (Nat.cast_min _ _).symm
  have hrest : (((t.length - p : Nat) : Int) - (min (t.length - p) k : Nat)).toNat =
      t.length - p - min (t.length - p) k := by
    omega
  rw [pushRight, hmin, hrest, BitVec.ofInt_natCast, Int.toNat_natCast,
    shift_store mem (by omega) hlt, shift_min]

theorem pushRight_store_zero (hlt : t.length ≤ 2 ^ w) :
    pushRight (store mem addr t) addr t.length k c = store mem addr (shift t 0 k c) := by
  have hpush := @pushRight_store w mem addr t 0 k c (Nat.zero_le t.length) hlt
  rwa [BitVec.add_zero, Nat.sub_zero] at hpush

theorem store_store_zero {s : List Char} (h : s.length ≤ t.length) (hlt : t.length ≤ 2 ^ w) :
    store (store mem addr t) addr s = store mem addr (splice t 0 s) := by
  have hstore := store_store mem (a := addr) (p := 0) (s := s) (t := t) (by omega) hlt
  rwa [BitVec.add_zero] at hstore

/-! ## Fixed-point notation -/

variable {fl : Floats F} {v : F} {r : Significand} {ur nd beforep befored : Nat}

/-- The digits of a field, with the point behind the first of them; the last digit is pushed out, and
where no other is left it is rounded. -/
def shiftedDigits (befored : Nat) (above : Bool) (t : List Char) : List Char :=
  if t.length ≤ befored + 1 ∧ above then splice (shift t 0 befored '0') (befored - 1) ['1']
  else shift t 0 befored '0'

/-- The shifted field has its length. -/
theorem length_shiftedDigits {above : Bool}
    (h : t.length ≤ befored + 1 → above = true → 1 ≤ befored ∧ befored ≤ t.length) :
    (shiftedDigits befored above t).length = t.length := by
  have hlen : (shift t 0 befored '0').length = t.length := length_shift (Nat.zero_le _)
  rw [shiftedDigits]
  split
  · rename_i hround
    obtain ⟨hpos, hle⟩ := h hround.1 hround.2
    rw [length_splice, hlen]
    rw [hlen, List.length_singleton]
    omega
  · exact hlen

/-- Blanks, the sign and the point in a field of digits -/
def pointed (negative : Bool) (beforep befored : Nat) (t : List Char) : List Char :=
  let beforez := min (beforep - 1) befored
  let t := splice t 0 (List.replicate beforez ' ')
  let t := if negative then splice t (beforez - 1) ['-'] else t
  shift t beforep 1 '.'

/-- What is in the field in fixed-point notation -/
theorem fixedPoint_eq (hlt : t.length ≤ 2 ^ w) (hlen : t.length = beforep + nd + 1)
    (hbefored : (beforep : Int) - r.exponent = befored)
    (hround : t.length ≤ befored + 1 → fl.above v nd = true → 1 ≤ befored ∧ befored ≤ t.length) :
    fl.fixedPoint v addr t.length nd r (store mem addr t) =
      store mem addr (pointed r.negative beforep befored (shiftedDigits befored (fl.above v nd) t)) := by
  have hbeforep : (t.length : Int) - nd - 1 = beforep := by omega
  have hlen' := length_shiftedDigits hround
  have hbeforez : (max (min ((beforep : Int) - 1) befored) 0).toNat = min (beforep - 1) befored := by
    omega
  have hsign : max (min ((beforep : Int) - 1) befored - 1) 0 =
      (min (beforep - 1) befored - 1 : Nat) := by
    omega
  have hrest : (t.length : Int) - beforep = (t.length - beforep : Nat) := by omega
  have hdigits : (if (t.length : Int) ≤ (befored : Int) + 1 ∧ fl.above v nd = true then
      store (store mem addr (shift t 0 befored '0')) (addr + BitVec.ofInt w ((befored : Int) - 1)) ['1']
      else store mem addr (shift t 0 befored '0')) =
      store mem addr (shiftedDigits befored (fl.above v nd) t) := by
    rw [shiftedDigits]
    by_cases h : t.length ≤ befored + 1 ∧ fl.above v nd = true
    · obtain ⟨hpos, hle⟩ := hround h.1 h.2
      have hcast : ((befored : Int) - 1) = (befored - 1 : Nat) := by omega
      have hshift : (shift t 0 befored '0').length = t.length := length_shift (Nat.zero_le _)
      rw [if_pos h, if_pos ⟨by omega, h.2⟩, hcast, BitVec.ofInt_natCast, store_store]
      · rw [hshift, List.length_singleton]
        omega
      · rw [hshift]
        exact hlt
    · rw [if_neg h, if_neg fun hint => h ⟨by omega, hint.2⟩]
  rw [Floats.fixedPoint]
  rw [hbeforep, hbefored, pushRight_store_zero mem addr hlt, Int.toNat_natCast, hdigits, hbeforez, hsign, hrest,
    BitVec.ofInt_natCast, BitVec.ofInt_natCast, pointed]
  generalize shiftedDigits befored (fl.above v nd) t = digits at hlen' ⊢
  rw [← hlen'] at hlt hlen ⊢
  have hblank : (List.replicate (min (beforep - 1) befored) ' ').length ≤ digits.length := by
    rw [List.length_replicate]
    omega
  have hblanks := length_splice (p := 0) (t := digits)
    (s := List.replicate (min (beforep - 1) befored) ' ') (by omega)
  rw [store_store_zero mem addr hblank hlt]
  generalize splice digits 0 (List.replicate (min (beforep - 1) befored) ' ') = blanks at hblanks ⊢
  rw [← hblanks] at hlt hlen ⊢
  cases r.negative with
  | false =>
    simp only [Bool.false_eq_true, if_false]
    exact pushRight_store mem addr (k := 1) (by omega) hlt
  | true =>
    have hminus : min (beforep - 1) befored - 1 + ['-'].length ≤ blanks.length := by
      rw [List.length_singleton]
      omega
    have hsigned := length_splice hminus
    simp only [if_true]
    rw [store_store mem hminus hlt]
    rw [← hsigned] at hlt hlen ⊢
    exact pushRight_store mem addr (k := 1) (by omega) hlt

/-! ## Exponential notation -/

/-- The mantissa in a field of digits -/
def mantissa (negative : Bool) (t : List Char) : List Char :=
  if negative then shift (shift t 1 1 '.') 0 1 '-' else shift t 1 1 '.'

/-- The mantissa has the length of its field. -/
theorem length_mantissa (negative : Bool) (h : 1 ≤ t.length) :
    (mantissa negative t).length = t.length := by
  have hlen := length_shift (k := 1) (c := '.') h
  rw [mantissa]
  split
  · rw [length_shift (Nat.zero_le _), hlen]
  · exact hlen

/-- What is in the field in exponential notation -/
theorem exponential_eq (hlt : t.length ≤ 2 ^ w) (hpos : 1 ≤ t.length) :
    Floats.exponential addr t.length r (store mem addr t) =
      let mantlen : Int := t.length - (exponentText (r.exponent - 1)).length - 1 + r.fsign
      (store mem addr (if mantlen < 0 then List.replicate t.length '*'
        else splice (mantissa r.negative t) (t.length - (exponentText (r.exponent - 1)).length)
          (exponentText (r.exponent - 1))), mantlen) := by
  have hlen := length_shift (k := 1) (c := '.') hpos
  have hfirst : pushRight (store mem addr t) (addr + 1#w) ((t.length : Int) - 1) 1 '.' =
      store mem addr (shift t 1 1 '.') := by
    have hcast : (t.length : Int) - 1 = (t.length - 1 : Nat) := by omega
    rw [hcast]
    exact pushRight_store mem addr (p := 1) (k := 1) hpos hlt
  have hmantissa : (if r.negative = true then
      pushRight (store mem addr (shift t 1 1 '.')) addr t.length 1 '-'
      else store mem addr (shift t 1 1 '.')) = store mem addr (mantissa r.negative t) := by
    rw [mantissa]
    cases r.negative with
    | false => rfl
    | true =>
      simp only [if_true]
      rw [← hlen] at hlt ⊢
      exact pushRight_store_zero mem addr (k := 1) hlt
  have hlen' := length_mantissa r.negative hpos
  rw [Floats.exponential]
  dsimp only
  rw [hfirst, hmantissa]
  by_cases hneg : (t.length : Int) - (exponentText (r.exponent - 1)).length - 1 + r.fsign < 0
  · rw [if_pos hneg, if_pos hneg, Int.toNat_natCast,
      store_store_zero mem addr (by rw [List.length_replicate, hlen']) (hlen'.le.trans hlt), splice,
      List.length_replicate, List.take_zero, List.nil_append, List.drop_of_length_le (by omega),
      List.append_nil]
  · have hfsign : r.fsign ≤ 0 := by
      rw [Significand.fsign]
      split <;> omega
    have hcast : (t.length : Int) - (exponentText (r.exponent - 1)).length =
        (t.length - (exponentText (r.exponent - 1)).length : Nat) := by
      omega
    rw [if_neg hneg, if_neg hneg, hcast, BitVec.ofInt_natCast, store_store mem (by omega) (hlen'.le.trans hlt)]

end Rdp
end Numbers
end Gforth
