import Gforth.Numbers.Rdp

/-!
# Fixed-point and exponential notation

What {lit}`f>buf-rdp` leaves in a field is a number in one of the notations, or asterisks.  In
fixed-point notation only zeros in front of the number are replaced by blanks and the sign, unless a
number between 0.5 and 1 is rounded in a field that has no room for a digit.

Main results:

- Theorem {lit}`pointed_fixedText`: fixed-point notation.
- Theorem {lit}`exponentialText_of_room`: exponential notation.
- Theorem {lit}`fToBufRdp_form`: the field.
-/

namespace Gforth
namespace Numbers
namespace Rdp

open Lib
open Memory

variable {w : Nat} {F : Type} {fl : Floats F} {v : F} {r : Significand}

/-! ## Notations -/

/-- {lit}`represent` fills the buffer with digits, and the number is below the power of ten that the
exponent says.  Twice the number is compared with an approximation of a power of 0.1. -/
structure Floats.Describes (fl : Floats F) (abs : F → ℚ) : Prop where
  length : ∀ v u, (fl.represent v u).digits.length = u
  isDigit : ∀ v u, ∀ c ∈ (fl.represent v u).digits, c.isDigit = true
  lt : ∀ v u, 1 ≤ u → abs v < 10 ^ (fl.represent v u).exponent
  above : ∀ v nd, fl.above v nd = true → (10 : ℚ) ^ (-(nd : Int)) < 4 * abs v

/-- The minus sign of a negative number -/
def sign (negative : Bool) : List Char :=
  if negative then ['-'] else []

/-- Blanks, a sign, digits, a point and some number of digits.  The digits are these without zeros in
the places of the blanks and the sign. -/
def FixedText (negative : Bool) (nd : Nat) (digits field : List Char) : Prop :=
  ∃ (blanks : Nat) (before after : List Char),
    field = List.replicate blanks ' ' ++ sign negative ++ before ++ '.' :: after ∧
    after.length = nd ∧ (∀ c ∈ before ++ after, c.isDigit = true) ∧
    digits = List.replicate (blanks + (sign negative).length) '0' ++ before ++ after

/-- A sign, a digit and the exponent; where there is room for more than the digit, it is followed by a
point and digits. -/
def ExponentialText (negative : Bool) (n : Int) (field : List Char) : Prop :=
  ∃ (digit : Char) (behind : List Char), digit.isDigit = true ∧
    field = sign negative ++ digit :: behind ++ exponentText n ∧
    (behind = [] ∨ ∃ more : List Char, behind = '.' :: more ∧ ∀ c ∈ more, c.isDigit = true)

/-- Enough digits of the number are seen in fixed-point notation, and the digits in front of the point
and the sign have room. -/
def Fits (nr nd np : Nat) (r : Significand) : Prop :=
  ((np : Int) ≤ nd + r.exponent ∨ np = 0) ∧ max r.exponent 0 + (sign r.negative).length + 1 + nd ≤ nr

instance (nr nd np : Nat) (r : Significand) : Decidable (Fits nr nd np r) :=
  inferInstanceAs (Decidable (_ ∧ _))

/-- The digits of the number, filled up with zeros -/
def Floats.filled (fl : Floats F) (v : F) (nr u : Nat) : List Char :=
  (fl.represent v u).digits ++ List.replicate (nr - u) '0'

/-- The digits in fixed-point notation -/
def Floats.shown (fl : Floats F) (v : F) (nr nd u : Nat) : List Char :=
  (shiftedDigits ((nr : Int) - nd - 1 - (fl.represent v u).exponent).toNat (fl.above v nd)
    (fl.filled v nr u)).dropLast

/-- What is left in a field -/
def Form (fl : Floats F) (v : F) (nr nd np u : Nat) (field : List Char) : Prop :=
  if Fits nr nd np (fl.represent v u) then
    FixedText (fl.represent v u).negative nd (fl.shown v nr nd u) field
  else
    ExponentialText (fl.represent v u).negative ((fl.represent v u).exponent - 1) field ∨
    nr < (sign (fl.represent v u).negative).length + 1 +
      (exponentText ((fl.represent v u).exponent - 1)).length ∧ field = List.replicate nr '*'

/-- A number between 0.5 and 1 without digits behind the point, in a field with no room for a digit -/
def Crowded (fl : Floats F) (v : F) (nr nd u : Nat) : Prop :=
  nd = 0 ∧ nr = (sign (fl.represent v u).negative).length + 1 ∧ (fl.represent v u).exponent = 0 ∧
    fl.above v 0 = true

/-! ## Fixed-point notation -/

variable {t digits : List Char} {nr nd np u beforep befored k : Nat} {negative above : Bool}

/-- The point pushes out the last digit. -/
theorem shift_point {front : List Char} (hlen : digits.length = beforep + nd + 1)
    (hfront : front.length ≤ beforep) :
    shift (front ++ digits.drop front.length) beforep 1 '.' =
      front ++ (digits.drop front.length).take (beforep - front.length) ++
        '.' :: (digits.drop beforep).take nd := by
  have hall : (front ++ digits.drop front.length).length = beforep + nd + 1 := by
    rw [List.length_append, List.length_drop]
    omega
  have hrest : beforep + nd + 1 - beforep - 1 = nd := by omega
  rw [shift_eq (by omega), hall, hrest, List.take_append, List.take_of_length_le hfront,
    List.drop_append, List.drop_of_length_le hfront, List.nil_append, List.drop_drop,
    Nat.add_sub_cancel' hfront, List.append_assoc]
  rfl

/-- Blanks and the sign in front of the digits that stay -/
theorem pointed_eq (hsign : (sign negative).length ≤ beforep) :
    ∃ blanks, blanks + (sign negative).length =
        max (min (beforep - 1) befored) (sign negative).length ∧
      pointed negative beforep befored digits =
        shift (List.replicate blanks ' ' ++ sign negative ++
          digits.drop (blanks + (sign negative).length)) beforep 1 '.' := by
  rw [pointed]
  obtain ⟨beforez, hbeforez⟩ : ∃ z, min (beforep - 1) befored = z := ⟨_, rfl⟩
  rw [hbeforez]
  have hblanks : splice digits 0 (List.replicate beforez ' ') =
      List.replicate beforez ' ' ++ digits.drop beforez := by
    rw [splice, List.take_zero, List.nil_append, List.length_replicate, Nat.zero_add]
  cases negative with
  | false =>
    refine ⟨beforez, (Nat.max_eq_left (Nat.zero_le _)).symm, ?_⟩
    rw [if_neg (by decide), hblanks, sign, if_neg (by decide), List.append_nil]
    rfl
  | true =>
    have hone : (sign true).length = 1 := rfl
    refine ⟨beforez - 1, by rw [hone]; omega, ?_⟩
    rw [if_pos rfl, hblanks, splice, hone, List.length_singleton,
      List.take_append_of_le_length (by rw [List.length_replicate]; omega), List.take_replicate,
      Nat.min_eq_left (by omega), List.drop_append, List.length_replicate, List.drop_drop,
      List.drop_of_length_le (by rw [List.length_replicate]; omega), List.nil_append]
    have hdrop : beforez + (beforez - 1 + 1 - beforez) = beforez - 1 + 1 := by omega
    rw [hdrop]
    rfl

/-- A field of digits that starts with enough zeros gets a number in fixed-point notation. -/
theorem pointed_fixedText (hlen : digits.length = beforep + nd + 1)
    (hsign : (sign negative).length ≤ beforep) (hdigits : ∀ c ∈ digits, c.isDigit = true)
    (hzeros : ∀ k, k = max (min (beforep - 1) befored) (sign negative).length →
      digits.take k = List.replicate k '0') :
    FixedText negative nd digits.dropLast (pointed negative beforep befored digits) := by
  obtain ⟨blanks, hblanks, hpointed⟩ := @pointed_eq digits beforep befored negative hsign
  have hfront : (List.replicate blanks ' ' ++ sign negative).length =
      blanks + (sign negative).length := by
    rw [List.length_append, List.length_replicate]
  have hle : blanks + (sign negative).length ≤ beforep := by omega
  rw [← hfront] at hpointed
  rw [shift_point hlen (hfront.trans_le hle)] at hpointed
  rw [hfront] at hpointed
  refine ⟨blanks, _, _, hpointed, ?_, fun c hc => ?_, ?_⟩
  · rw [List.length_take, List.length_drop]
    omega
  · rcases List.mem_append.1 hc with hc | hc
    · exact hdigits c (List.mem_of_mem_drop (List.mem_of_mem_take hc))
    · exact hdigits c (List.mem_of_mem_drop (List.mem_of_mem_take hc))
  · have hsplit : digits.dropLast = digits.take (beforep + nd) := by
      rw [List.dropLast_eq_take, hlen, Nat.add_sub_cancel]
    have hbefore : digits.take beforep = digits.take (blanks + (sign negative).length) ++
        (digits.drop (blanks + (sign negative).length)).take
          (beforep - (blanks + (sign negative).length)) := by
      rw [← List.take_add, Nat.add_sub_cancel' hle]
    rw [hsplit, List.take_add, hbefore, hzeros _ hblanks]

/-- The digits start with the zeros in front of the number. -/
theorem take_shiftedDigits (hk : k ≤ befored) (hle : k ≤ t.length)
    (hround : t.length ≤ befored + 1 → above = true → k + 1 ≤ befored) :
    (shiftedDigits befored above t).take k = List.replicate k '0' := by
  have hzeros : (shift t 0 befored '0').take k = List.replicate k '0' := by
    rw [shift, List.take_zero, List.nil_append, List.drop_zero, Nat.sub_zero, List.take_take,
      Nat.min_eq_left hle, List.take_append_of_le_length (by rw [List.length_replicate]; exact hk),
      List.take_replicate, Nat.min_eq_left hk]
  rw [shiftedDigits]
  by_cases h : t.length ≤ befored + 1 ∧ above = true
  · have hmore := hround h.1 h.2
    have hlen : (shift t 0 befored '0').length = t.length := length_shift (Nat.zero_le _)
    rw [if_pos h, splice, List.append_assoc, List.take_append_of_le_length, List.take_take,
      Nat.min_eq_left (by omega), hzeros]
    rw [List.length_take, hlen]
    omega
  · rw [if_neg h, hzeros]

/-- Zeros that are shifted in are digits. -/
theorem isDigit_shift (ht : ∀ c ∈ t, c.isDigit = true) :
    ∀ c ∈ shift t 0 befored '0', c.isDigit = true := by
  intro c hc
  rw [shift, List.take_zero, List.nil_append] at hc
  rcases List.mem_append.1 (List.mem_of_mem_take hc) with hc | hc
  · rw [List.eq_of_mem_replicate hc]
    rfl
  · exact ht c (List.mem_of_mem_drop hc)

/-- The digits that are shifted stay digits. -/
theorem isDigit_shiftedDigits (ht : ∀ c ∈ t, c.isDigit = true) :
    ∀ c ∈ shiftedDigits befored above t, c.isDigit = true := by
  intro c hc
  rw [shiftedDigits] at hc
  split at hc
  · rw [splice, List.mem_append, List.mem_append] at hc
    rcases hc with (hc | hc) | hc
    · exact isDigit_shift ht c (List.mem_of_mem_take hc)
    · rw [List.mem_singleton.1 hc]
      rfl
    · exact isDigit_shift ht c (List.mem_of_mem_drop hc)
  · exact isDigit_shift ht c hc

/-! ## Exponential notation -/

/-- The mantissa of one digit and the point -/
theorem mantissa_eq {c : Char} (hlen : (c :: t).length = nr) :
    mantissa negative (c :: t) = (sign negative ++ c :: '.' :: t).take nr := by
  have hshift : shift (c :: t) 1 1 '.' = (c :: '.' :: t).take nr := by
    have hcons : nr = t.length + 1 := hlen.symm
    rw [hcons, List.take_succ_cons]
    rfl
  rw [mantissa, sign]
  cases negative with
  | false =>
    rw [if_neg (by decide), if_neg (by decide), hshift]
    rfl
  | true =>
    have hlength : ((c :: '.' :: t).take nr).length = nr := by
      refine List.length_take_of_le ?_
      rw [← hlen]
      exact Nat.succ_le_succ (Nat.le_succ _)
    rw [if_pos rfl, if_pos rfl, hshift, shift, hlength, List.take_zero, List.nil_append,
      List.drop_zero, Nat.sub_zero, List.take_append, List.take_append, List.take_take]
    congr 2
    exact Nat.min_eq_left (Nat.sub_le _ _)

/-- A field with room for a digit and the exponent gets a number in exponential notation. -/
theorem exponentialText_of_room (negative : Bool) (ht : ∀ c ∈ t, c.isDigit = true) (n : Int)
    (hroom : (sign negative).length + 1 + (exponentText n).length ≤ t.length) :
    ExponentialText negative n
      (splice (mantissa negative t) (t.length - (exponentText n).length) (exponentText n)) := by
  cases t with
  | nil => exact absurd hroom (by rw [List.length_nil]; omega)
  | cons c t =>
    obtain ⟨k, hk⟩ : ∃ k, (c :: t).length - (exponentText n).length =
        (sign negative).length + (k + 1) :=
      ⟨(c :: t).length - (exponentText n).length - (sign negative).length - 1, by omega⟩
    have hlen : (mantissa negative (c :: t)).length = (c :: t).length :=
      length_mantissa negative (Nat.succ_pos _)
    have hend : (mantissa negative (c :: t)).drop ((sign negative).length + (k + 1) +
        (exponentText n).length) = [] := List.drop_of_length_le (by omega)
    have hfield : splice (mantissa negative (c :: t)) ((c :: t).length - (exponentText n).length)
        (exponentText n) = sign negative ++ c :: ('.' :: t).take k ++ exponentText n := by
      rw [hk, splice, hend, List.append_nil, mantissa_eq rfl, List.take_take,
        Nat.min_eq_left (by omega), List.take_length_add_append, List.take_succ_cons]
    refine ⟨c, ('.' :: t).take k, ht c List.mem_cons_self, hfield, ?_⟩
    cases k with
    | zero => exact .inl rfl
    | succ k =>
      exact .inr ⟨t.take k, rfl, fun c hc => ht c (List.mem_cons_of_mem _ (List.mem_of_mem_take hc))⟩

/-! ## The field -/

variable {abs : F → ℚ} (mem : Memory w Char) (addr : BitVec w)

/-- A field with a point has as many characters as before. -/
theorem length_pointed (hlen : digits.length = beforep + nd + 1)
    (hsign : (sign negative).length ≤ beforep) :
    (pointed negative beforep befored digits).length = digits.length := by
  obtain ⟨blanks, hblanks, hpointed⟩ := @pointed_eq digits beforep befored negative hsign
  have hall : (List.replicate blanks ' ' ++ sign negative ++
      digits.drop (blanks + (sign negative).length)).length = digits.length := by
    simp only [List.length_append, List.length_replicate, List.length_drop]
    omega
  rw [hpointed, length_shift (by omega), hall]

/-- A number that is rounded to a last digit has this digit directly behind the field. -/
theorem Floats.Describes.le_exponent (hfl : fl.Describes abs) (hu : 1 ≤ u)
    (habove : fl.above v nd = true) : -(nd : Int) ≤ (fl.represent v u).exponent := by
  have hlow := hfl.above v nd habove
  have hhigh := hfl.lt v u hu
  have hlt : (10 : ℚ) ^ (-(nd : Int)) < 10 ^ ((fl.represent v u).exponent + 1) := by
    rw [zpow_add₀ (by norm_num), zpow_one]
    have hpos : (0 : ℚ) < 10 ^ (fl.represent v u).exponent := by positivity
    linarith
  have := (zpow_lt_zpow_iff_right₀ (by norm_num : (1 : ℚ) < 10)).1 hlt
  omega

theorem Floats.Describes.length_filled (hfl : fl.Describes abs) (hule : u ≤ nr) :
    (fl.filled v nr u).length = nr := by
  rw [Floats.filled, List.length_append, hfl.length, List.length_replicate, Nat.add_sub_cancel' hule]

/-- The field has digits only. -/
theorem Floats.Describes.isDigit_filled (hfl : fl.Describes abs) (v : F) (nr u : Nat) :
    ∀ c ∈ fl.filled v nr u, c.isDigit = true := by
  intro c hc
  rcases List.mem_append.1 hc with hc | hc
  · exact hfl.isDigit v u c hc
  · rw [List.eq_of_mem_replicate hc]
    rfl

theorem fsign_eq (r : Significand) : r.fsign = -(sign r.negative).length := by
  rw [Significand.fsign, sign]
  cases r.negative <;> rfl

/-- The branch for fixed-point notation -/
theorem fixedPoint_form (hfl : fl.Describes abs) (hu : 1 ≤ u) (hule : u ≤ nr) (hlt : nr ≤ 2 ^ w)
    (hcrowded : np = 0 → ¬Crowded fl v nr nd u) (hfits : Fits nr nd np (fl.represent v u)) :
    ∃ field, fl.fixedPoint v addr nr nd (fl.represent v u) (store mem addr (fl.filled v nr u)) =
        store mem addr field ∧ field.length = nr ∧
      FixedText (fl.represent v u).negative nd (fl.shown v nr nd u) field := by
  obtain ⟨hnp, hroom⟩ := hfits
  obtain ⟨beforep, hbeforep⟩ : ∃ beforep : Nat, nr = beforep + nd + 1 := ⟨nr - nd - 1, by omega⟩
  obtain ⟨befored, hbefored⟩ : ∃ befored : Nat,
      (beforep : Int) - (fl.represent v u).exponent = befored :=
    ⟨((beforep : Int) - (fl.represent v u).exponent).toNat, by omega⟩
  have hlen := hfl.length_filled (v := v) hule
  have hsign : (sign (fl.represent v u).negative).length ≤ beforep := by omega
  -- a digit is only rounded if it is directly behind the field
  have hround : (fl.filled v nr u).length ≤ befored + 1 → fl.above v nd = true →
      befored + 1 = nr ∧ (sign (fl.represent v u).negative).length + 2 ≤ nr := by
    intro hle habove
    have hexponent := hfl.le_exponent hu habove
    have heq : befored + 1 = nr := by omega
    refine ⟨heq, Nat.le_of_not_lt fun hsmall => ?_⟩
    have hnd : nd = 0 := by omega
    refine hcrowded (by omega) ⟨hnd, by omega, by omega, ?_⟩
    rwa [hnd] at habove
  have hfield := fixedPoint_eq mem addr (hlen.le.trans hlt) (hlen.trans hbeforep)
    hbefored fun hle habove => by
      have := hround hle habove
      omega
  have hdigits : (shiftedDigits befored (fl.above v nd) (fl.filled v nr u)).length =
      beforep + nd + 1 := by
    rw [length_shiftedDigits fun hle habove => by
      have := hround hle habove
      omega, hlen, hbeforep]
  have hshown : fl.shown v nr nd u =
      (shiftedDigits befored (fl.above v nd) (fl.filled v nr u)).dropLast := by
    have hcast : ((nr : Int) - nd - 1 - (fl.represent v u).exponent).toNat = befored := by omega
    rw [Floats.shown, hcast]
  rw [hlen] at hfield
  refine ⟨_, hfield, ?_, ?_⟩
  · rw [length_pointed hdigits hsign, hdigits, hbeforep]
  · rw [hshown]
    refine pointed_fixedText hdigits hsign (isDigit_shiftedDigits (hfl.isDigit_filled v nr u)) fun k hk => ?_
    refine take_shiftedDigits (by omega) (by omega) fun hle habove => ?_
    have := hround hle habove
    omega

/-- {lit}`f>buf-rdp-try` -/
theorem fToBufRdpTry_form (hfl : fl.Describes abs) (hu : 1 ≤ u) (hule : u ≤ nr) (hlt : nr ≤ 2 ^ w)
    (hcrowded : np = 0 → ¬Crowded fl v nr nd u) :
    ∃ (field : List Char) (um2 : Nat),
      fl.fToBufRdpTry v addr nr nd np u mem = (store mem addr field, (um2 : Int)) ∧
      1 ≤ um2 ∧ um2 ≤ nr ∧ field.length = nr ∧ Form fl v nr nd np u field := by
  have hlen := hfl.length_filled (v := v) hule
  have hfilled : store (store mem (addr + BitVec.ofInt w u) (List.replicate ((nr : Int) - u).toNat '0'))
      addr (fl.represent v u).digits = store mem addr (fl.filled v nr u) := by
    have hcast : ((nr : Int) - u).toNat = nr - u := by omega
    rw [hcast, BitVec.ofInt_natCast, Floats.filled, store_append, hfl.length]
  have hum2 : ∀ m : Int, ∃ um2 : Nat, min (max 1 m) (nr : Int) = um2 ∧ 1 ≤ um2 ∧ um2 ≤ nr :=
    fun m => ⟨(min (max 1 m) (nr : Int)).toNat, by omega, by omega, by omega⟩
  have hcond : ((np : Int) ≤ nd + (fl.represent v u).exponent ∨ (np : Int) = 0) ∧
      max (fl.represent v u).exponent 0 ≤ (nr : Int) - nd - 1 + (fl.represent v u).fsign ↔
      Fits nr nd np (fl.represent v u) := by
    rw [Fits, fsign_eq]
    omega
  rw [Floats.fToBufRdpTry]
  rw [Int.toNat_natCast, hfilled]
  by_cases hfits : Fits nr nd np (fl.represent v u)
  · obtain ⟨field, hfield, hfieldlen, hform⟩ := fixedPoint_form mem addr hfl hu hule
      hlt hcrowded hfits
    obtain ⟨um2, hmin, hpos, hle⟩ := hum2 ((fl.represent v u).exponent + nd)
    rw [if_pos (hcond.2 hfits), hfield, hmin]
    refine ⟨field, um2, rfl, hpos, hle, hfieldlen, ?_⟩
    rw [Form, if_pos hfits]
    exact hform
  · have hexponential := exponential_eq mem addr (r := fl.represent v u)
      (hlen.le.trans hlt) (by omega)
    rw [hlen, fsign_eq] at hexponential
    rw [if_neg fun h => hfits (hcond.1 h), hexponential]
    dsimp only
    obtain ⟨um2, hmin, hpos, hle⟩ := hum2 ((nr : Int) -
      (exponentText ((fl.represent v u).exponent - 1)).length - 1 +
        -(sign (fl.represent v u).negative).length)
    rw [hmin]
    refine ⟨_, um2, rfl, hpos, hle, ?_, ?_⟩
    · split
      · exact List.length_replicate
      · rw [length_splice, length_mantissa _ (by omega), hlen]
        rw [length_mantissa _ (by omega), hlen]
        omega
    · rw [Form, if_neg hfits]
      split
      · exact .inr ⟨by omega, rfl⟩
      · have hroom := exponentialText_of_room (fl.represent v u).negative
          (hfl.isDigit_filled v nr u) ((fl.represent v u).exponent - 1) (by rw [hlen]; omega)
        rw [hlen] at hroom
        exact .inl hroom

/-- {lit}`f>buf-rdp` leaves a number in one of the notations in the field; the length of the mantissa
is that from the first try. -/
theorem fToBufRdp_form (hfl : fl.Describes abs) (hpos : 1 ≤ nr) (hlt : nr ≤ 2 ^ w)
    (hcrowded : np = 0 → ∀ u, 1 ≤ u → u ≤ nr → ¬Crowded fl v nr nd u) :
    ∃ (u : Nat) (field : List Char), (fl.fToBufRdpTry v addr nr nd np nr mem).2 = u ∧
      fl.fToBufRdp v addr nr nd np mem = store mem addr field ∧ field.length = nr ∧
      Form fl v nr nd np u field := by
  obtain ⟨first, u, htry, hu, hule, hfirst, -⟩ := fToBufRdpTry_form mem addr hfl hpos
    (Nat.le_refl nr) hlt fun hnp => hcrowded hnp nr hpos (Nat.le_refl nr)
  obtain ⟨field, um2, htry', -, -, hfield, hform⟩ := fToBufRdpTry_form
    (store mem addr first) addr hfl hu hule hlt fun hnp => hcrowded hnp u hu hule
  have hmax : ∀ n : Nat, max (n : Int) 0 = n := fun n => max_eq_left (Int.natCast_nonneg n)
  refine ⟨u, field, congrArg Prod.snd htry, ?_, hfield, hform⟩
  rw [Floats.fToBufRdp]
  rw [hmax, hmax, htry]
  dsimp only
  rw [htry', store_store_zero mem addr (hfield.trans hfirst.symm).le (hfirst.le.trans hlt), splice,
    List.take_zero, List.nil_append, List.drop_of_length_le (by omega), List.append_nil]

/-- The number 5 -/
def five : Floats Unit where
  represent _ u := ⟨('5' :: List.replicate u '0').take u, 1, false⟩
  above _ _ := true

/-- The example describes five. -/
theorem five_describes : five.Describes fun _ => 5 where
  length _ u := List.length_take_of_le (by rw [List.length_cons, List.length_replicate]; omega)
  isDigit _ u c hc := by
    rcases List.mem_cons.1 (List.mem_of_mem_take hc) with rfl | hc
    · rfl
    · rw [List.eq_of_mem_replicate hc]
      rfl
  lt _ _ _ := by norm_num [five]
  above _ nd _ := by
    have hle : (10 : ℚ) ^ (-(nd : Int)) ≤ 1 := zpow_le_one_of_nonpos₀ (by norm_num) (by omega)
    linarith

/-- The number five in a field of seven characters -/
theorem fToBufRdp_form_five : ∃ (u : Nat) (field : List Char),
    (five.fToBufRdpTry () 0#64 7 3 1 7 fun _ => ' ').2 = u ∧
    five.fToBufRdp () 0#64 7 3 1 (fun _ => ' ') = store (fun _ => ' ') 0#64 field ∧
    field.length = 7 ∧ Form five () 7 3 1 u field :=
  fToBufRdp_form _ _ five_describes (by decide) (by decide) (fun h => absurd h (by decide))

/-- The number 5 in a field of three characters has no point. -/
theorem five_without_point :
    text (five.fToBufRdp () 0#64 3 2 1 fun _ => ' ') 0#64 3 ≠ List.replicate 3 '*' ∧
    '.' ∉ text (five.fToBufRdp () 0#64 3 2 1 fun _ => ' ') 0#64 3 := by
  decide

end Rdp
end Numbers
end Gforth
