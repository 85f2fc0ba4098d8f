import Mathlib.Tactic

/-!
# Printing floating-point numbers

{lit}`represent` fills the {lit}`scratch` area with {lit}`precision` digits.  The words {lit}`f.`,
{lit}`fs.`, {lit}`fe.` and {lit}`fp.` split them at a place that depends on the exponent, and pad with
zeros.  What they type is a list of pieces, so that it can be said which characters are read.

{lit}`.` prints the exponent in the base that {lit}`base` holds; here this is decimal throughout, as it
is when the system starts.

Main results:

- Theorem {lit}`printed_iff`: what is printed denotes the number where the digits before the point of
  engineering notation are not more than the precision.
-/

namespace Gforth
namespace Numbers

/-! ## The words -/

/-- The result of {lit}`represent` for a finite number, with the memory from {lit}`scratch` on: the number is
0.d₁d₂… times ten to the power of {lit}`n`. -/
structure Represented where
  precision : Nat
  scratch : Int → Char
  n : Int
  negative : Bool
  precision_pos : 1 ≤ precision
  precision_lt : precision < 2 ^ 63
  isDigit : ∀ i : Nat, i < precision → (scratch i).isDigit = true

/-- What is typed: a character, or characters from {lit}`scratch` on -/
inductive Piece where
  | char (c : Char)
  | typed (offset len : Int)
deriving DecidableEq

/-- The length that {lit}`type` sees is unsigned. -/
def typeLength (len : Int) : Nat :=
  (len % 2 ^ 64).toNat

/-- {lit}`zeros` -/
def zeros (n : Int) : List Piece :=
  List.replicate n.toNat (.char '0')

/-- {lit}`.` where {lit}`base` is decimal -/
def dot (n : Int) : List Char :=
  (if n < 0 then ['-'] else []) ++ Nat.toDigits 10 n.natAbs ++ [' ']

/-- {lit}`si-prefixes` -/
def siPrefixes : List Char :=
  "Q  R  Y  Z  X  P  T  G  M  kh  d%m  u  n  p  f  a  z  y  r  q".toList

/-- The place of {lit}`zero-exp` -/
def zeroExp : Int :=
  siPrefixes.length / 2

namespace Represented

variable (r : Represented)

/-- {lit}`-zeros`, for characters from {lit}`offset` on: the length -/
def minusZeros (offset : Int) : Nat → Nat
  | 0 => 0
  | u + 1 => if r.scratch (offset + u) ≠ '0' then u + 1 else minusZeros offset u

/-- {lit}`f$` -/
def fDollar : List Piece :=
  if r.negative then [.char '-'] else []

/-- {lit}`f.` -/
def fDot : List Piece :=
  r.fDollar ++
    (if r.n ≤ 0 then [.char '0'] else .typed 0 (min r.precision r.n) :: zeros (r.n - r.precision)) ++
    .char '.' :: zeros (-r.n) ++
    [.typed (max r.n 0)
      (r.minusZeros (max r.n 0) (max (r.precision - max r.n 0) 0).toNat), .char ' ']

/-- {lit}`fs.` -/
def fsDot : List Piece :=
  r.fDollar ++ [.typed 0 1, .char '.', .typed 1 (r.precision - 1), .char 'E'] ++
    (dot (r.n - 1)).map .char

/-- The number of digits before the point in engineering notation -/
def before : Int :=
  (r.n - 1) % 3 + 1

/-- The exponent in engineering notation -/
def engineering : Int :=
  (r.n - 1) / 3 * 3

/-- What {lit}`fe.` and {lit}`fp.` print before the exponent -/
def mantissa : List Piece :=
  let m := min (r.precision : Int) r.before
  r.fDollar ++ .typed 0 m :: zeros (r.before - m) ++
    [.char '.', .typed r.before (r.precision - r.before)]

/-- {lit}`fe.` -/
def feDot : List Piece :=
  r.mantissa ++ .char 'E' :: (dot r.engineering).map .char

/-- {lit}`fp.` -/
def fpDot : List Piece :=
  r.mantissa ++
    if |r.engineering| ≤ zeroExp then
      [.char (siPrefixes.getD (zeroExp - r.engineering).toNat ' '), .char ' ']
    else .char 'E' :: (dot r.engineering).map .char

/-! ## What is printed -/

/-- The text of a piece -/
def text : Piece → List Char
  | .char c => [c]
  | .typed offset len => (List.range (typeLength len)).map fun i : Nat => r.scratch (offset + i)

/-- Only digits of the number are read. -/
def Inside (pieces : List Piece) : Prop :=
  ∀ offset len : Int, .typed offset len ∈ pieces →
    ∀ i < typeLength len, 0 ≤ offset + i ∧ offset + i < r.precision

end Represented

/-- The number that a row of digits stands for -/
def digitsValue (ds : List Char) : Nat :=
  ds.foldl (fun n c => 10 * n + (c.toNat - '0'.toNat)) 0

/-- The power of ten that an SI prefix stands for; a blank is no prefix, and {lit}`X` stands for exa. -/
def siExponent (c : Char) : Option Int :=
  (siPrefixesTable.find? fun p => p.1 = c).map Prod.snd
where
  siPrefixesTable : List (Char × Int) :=
    [('Q', 30), ('R', 27), ('Y', 24), ('Z', 21), ('X', 18), ('P', 15), ('T', 12), ('G', 9), ('M', 6),
      ('k', 3), (' ', 0), ('m', -3), ('u', -6), ('n', -9), ('p', -12), ('f', -15), ('a', -18),
      ('z', -21), ('y', -24), ('r', -27), ('q', -30)]

/-- The ends of numbers, with the exponents that they stand for -/
inductive Ending where
  | fixed | scientific | engineering | si

/-- The text is such an end. -/
def Ending.Allows (tail : List Char) (exponent : Int) : Ending → Prop
  | .fixed => tail = [' '] ∧ exponent = 0
  | .scientific => tail = 'E' :: dot exponent
  | .engineering => tail = 'E' :: dot exponent ∧ 3 ∣ exponent
  | .si =>
      3 ∣ exponent ∧
        (tail = 'E' :: dot exponent ∨ ∃ c, tail = [c, ' '] ∧ siExponent c = some exponent)

/-- The text is a well-formed number: a sign, at least one digit, a point, digits, and an end. -/
structure Denotes (ending : Ending) (text : List Char) (x : ℚ) : Prop where
  parts : ∃ (negative : Bool) (whole frac tail : List Char) (exponent : Int),
    text = (if negative then ['-'] else []) ++ whole ++ '.' :: frac ++ tail ∧
      whole ≠ [] ∧ (∀ c ∈ whole ++ frac, c.isDigit = true) ∧ ending.Allows tail exponent ∧
      x = (if negative then -1 else 1) * digitsValue (whole ++ frac) * 10 ^ (exponent - frac.length)

namespace Represented

variable (r : Represented)

/-- The digits -/
def digits : List Char :=
  (List.range r.precision).map fun i : Nat => r.scratch i

/-- The number that was represented -/
def value : ℚ :=
  (if r.negative then -1 else 1) * digitsValue r.digits * 10 ^ (r.n - r.precision)

/-- The pieces are from the digits, and denote the number. -/
def Right (ending : Ending) (pieces : List Piece) : Prop :=
  r.Inside pieces ∧ Denotes ending (pieces.flatMap r.text) r.value

/-- All four words print the number. -/
structure Printed : Prop where
  f : r.Right .fixed r.fDot
  fs : r.Right .scientific r.fsDot
  fe : r.Right .engineering r.feDot
  fp : r.Right .si r.fpDot

end Represented

/-! ## Digits -/

/-- Digits behind others multiply them by a power of ten. -/
theorem digitsValue_append (ds es : List Char) :
    digitsValue (ds ++ es) = digitsValue ds * 10 ^ es.length + digitsValue es := by
  induction es using List.reverseRecOn with
  | nil => simp [digitsValue]
  | append_singleton es c ih =>
    have hlast (xs : List Char) :
        digitsValue (xs ++ [c]) = 10 * digitsValue xs + (c.toNat - '0'.toNat) := by
      simp [digitsValue]
    rw [← List.append_assoc, hlast, hlast, ih, List.length_append, List.length_singleton, pow_succ]
    ring

/-- Zeros have the value 0. -/
theorem digitsValue_replicate (k : Nat) : digitsValue (List.replicate k '0') = 0 := by
  induction k with
  | zero => rfl
  | succ k ih => rw [List.replicate_succ', digitsValue_append, ih]; rfl

namespace Represented

variable (r : Represented)

@[simp]
theorem length_digits : r.digits.length = r.precision := by
  simp [digits]

theorem isDigit_of_mem {c : Char} (hc : c ∈ r.digits) : c.isDigit = true := by
  obtain ⟨i, hi, rfl⟩ := List.mem_map.mp hc
  exact r.isDigit i (List.mem_range.mp hi)

theorem typeLength_of_lt {len : Nat} (h : len < 2 ^ 64) : typeLength len = len := by
  simp only [typeLength]
  omega

/-- A piece inside the digits -/
theorem text_typed (offset len : Nat) (h : offset + len ≤ r.precision) :
    r.text (.typed offset len) = (r.digits.drop offset).take len := by
  have hlt := r.precision_lt
  rw [text, typeLength_of_lt (by omega)]
  refine List.ext_getElem ?_ fun i hi hi' => ?_
  · simp only [List.length_map, List.length_range, List.length_take, List.length_drop, length_digits]
    omega
  · simp [digits]

@[simp]
theorem flatMap_char (cs : List Char) : (cs.map Piece.char).flatMap r.text = cs := by
  induction cs with
  | nil => rfl
  | cons c cs ih => rw [List.map_cons, List.flatMap_cons, ih]; rfl

@[simp]
theorem flatMap_zeros (n : Int) : (zeros n).flatMap r.text = List.replicate n.toNat '0' := by
  have hmap : zeros n = (List.replicate n.toNat '0').map Piece.char := by simp [zeros]
  rw [hmap, flatMap_char]

@[simp]
theorem flatMap_fDollar : r.fDollar.flatMap r.text = if r.negative then ['-'] else [] := by
  rw [fDollar]
  split <;> rfl

/-- Behind {lit}`-zeros` there are zeros only. -/
theorem minusZeros_spec (offset : Nat) : ∀ u, offset + u ≤ r.precision →
    r.minusZeros offset u ≤ u ∧
      (r.digits.drop offset).take u =
        (r.digits.drop offset).take (r.minusZeros offset u) ++
          List.replicate (u - r.minusZeros offset u) '0' := by
  intro u
  induction u with
  | zero => exact fun _ => ⟨le_refl _, by simp [minusZeros]⟩
  | succ u ih =>
    intro hu
    obtain ⟨hle, heq⟩ := ih (by omega)
    have hlast : (r.digits.drop offset)[u]? = some (r.scratch (offset + u)) := by
      have hlt : offset + u < r.precision := by omega
      simp [digits, hlt]
    by_cases hzero : r.scratch (offset + u) ≠ '0'
    · rw [minusZeros, if_pos hzero]
      exact ⟨le_refl _, by simp⟩
    · rw [minusZeros, if_neg hzero]
      refine ⟨hle.trans (Nat.le_succ u), ?_⟩
      rw [List.take_add_one, hlast, heq, not_not.mp hzero, List.append_assoc, Nat.succ_sub hle,
        List.replicate_succ']
      rfl

/-- The digits from a place on, without the zeros at the end -/
def stripped (offset : Nat) : List Char :=
  (r.digits.drop offset).take (r.minusZeros offset (r.precision - offset))

/-- What is stripped are zeros. -/
theorem digits_eq {offset : Nat} (h : offset ≤ r.precision) :
    (r.stripped offset).length ≤ r.precision - offset ∧
      r.digits = r.digits.take offset ++ r.stripped offset ++
        List.replicate (r.precision - offset - (r.stripped offset).length) '0' := by
  obtain ⟨hle, heq⟩ := r.minusZeros_spec offset (r.precision - offset) (by omega)
  have hlen : (r.stripped offset).length = r.minusZeros offset (r.precision - offset) := by
    simp only [stripped, List.length_take, List.length_drop, length_digits]
    omega
  refine ⟨hlen.trans_le hle, ?_⟩
  rw [List.take_of_length_le (by simp)] at heq
  rw [hlen, List.append_assoc, stripped, ← heq, List.take_append_drop]

theorem isDigit_of_mem_stripped {offset : Nat} {c : Char} (hc : c ∈ r.stripped offset) :
    c.isDigit = true :=
  r.isDigit_of_mem (List.mem_of_mem_drop (List.mem_of_mem_take hc))

/-- The digits without the zeros behind them -/
theorem text_stripped {offset : Nat} (h : offset ≤ r.precision) :
    r.text (.typed offset (r.minusZeros offset (r.precision - offset))) = r.stripped offset :=
  r.text_typed _ _ (by
    have hle := (r.minusZeros_spec offset (r.precision - offset) (by omega)).1
    omega)

/-- Zeros at the end move the exponent. -/
theorem value_eq {whole : List Char} {e : Int} (ds : List Char) (k : Nat)
    (hds : digitsValue r.digits = digitsValue ds * 10 ^ k) (he : e = r.n - r.precision + k)
    (hwhole : digitsValue whole = digitsValue ds) :
    r.value = (if r.negative then -1 else 1) * digitsValue whole * 10 ^ e := by
  rw [value, hds, hwhole, he, zpow_add₀ (by norm_num), zpow_natCast]
  push_cast
  ring

/-! ## Fixed notation -/

/-- A sign, digits, a point, digits and an end -/
theorem denotes {ending : Ending} {text : List Char} (whole frac tail : List Char) (e : Int)
    (htext : text = (if r.negative then ['-'] else []) ++ whole ++ '.' :: frac ++ tail)
    (hne : whole ≠ []) (hdigits : ∀ c ∈ whole ++ frac, c.isDigit = true)
    (htail : ending.Allows tail e)
    (hvalue : r.value =
      (if r.negative then -1 else 1) * digitsValue (whole ++ frac) * 10 ^ (e - frac.length)) :
    Denotes ending text r.value :=
  ⟨r.negative, whole, frac, tail, e, htext, hne, hdigits, htail, hvalue⟩

/-! ## Which characters are read -/

/-- Two lists of pieces -/
theorem inside_append (xs ys : List Piece) : r.Inside (xs ++ ys) ↔ r.Inside xs ∧ r.Inside ys := by
  simp only [Inside, List.mem_append]
  exact ⟨fun h => ⟨fun o l hm => h o l (.inl hm), fun o l hm => h o l (.inr hm)⟩,
    fun h o l hm => hm.elim (h.1 o l) (h.2 o l)⟩

theorem inside_char (c : Char) (xs : List Piece) : r.Inside (.char c :: xs) ↔ r.Inside xs := by
  simp [Inside]

theorem inside_chars (cs : List Char) : r.Inside (cs.map .char) := by
  intro o l hm
  simp at hm

theorem inside_nil : r.Inside [] :=
  r.inside_chars []

theorem inside_zeros (n : Int) : r.Inside (zeros n) := by
  intro o l hm
  simp [zeros] at hm

/-- The sign reads no digits. -/
theorem inside_fDollar : r.Inside r.fDollar := by
  intro o l hm
  rw [fDollar] at hm
  split at hm <;> simp at hm

/-- A piece in the digits -/
theorem inside_typed {offset len : Nat} (h : offset + len ≤ r.precision) {xs : List Piece}
    (hxs : r.Inside xs) : r.Inside (.typed offset len :: xs) := by
  intro o l hm i hi
  rcases List.mem_cons.mp hm with heq | hm
  · obtain ⟨rfl, rfl⟩ := Piece.typed.inj heq
    have hlt := r.precision_lt
    rw [typeLength_of_lt (by omega)] at hi
    omega
  · exact hxs o l hm i hi

/-- Nothing is read. -/
theorem inside_empty (offset : Int) {xs : List Piece} (hxs : r.Inside xs) :
    r.Inside (.typed offset 0 :: xs) := by
  intro o l hm i hi
  rcases List.mem_cons.mp hm with heq | hm
  · obtain ⟨rfl, rfl⟩ := Piece.typed.inj heq
    simp [typeLength] at hi
  · exact hxs o l hm i hi

theorem text_empty (offset : Int) : r.text (.typed offset 0) = [] := by
  simp [text, typeLength]

/-! ## Fixed notation -/

/-- A number below one -/
theorem fDot_small {m : Nat} (hn : r.n = -m) : r.Right .fixed r.fDot := by
  have hle := (r.minusZeros_spec 0 r.precision (by omega)).1
  obtain ⟨hlen, hdigits⟩ := r.digits_eq (Nat.zero_le _)
  have heq : r.fDot = r.fDollar ++ [Piece.char '0'] ++ Piece.char '.' :: zeros m ++
      [Piece.typed (0 : Nat) (r.minusZeros (0 : Nat) r.precision), .char ' '] := by
    have hmax : max r.n 0 = 0 := by omega
    have hrest : (max ((r.precision : Int) - 0) 0).toNat = r.precision := by omega
    rw [fDot, hmax, hrest, if_pos (by omega), hn, neg_neg]
    rfl
  have htext := r.text_stripped (Nat.zero_le _)
  rw [Nat.sub_zero] at htext
  constructor
  · simp only [heq, inside_append, inside_char]
    exact ⟨⟨⟨r.inside_fDollar, r.inside_nil⟩, r.inside_zeros _⟩, r.inside_typed (by omega)
      ((r.inside_char _ _).mpr r.inside_nil)⟩
  · refine r.denotes ['0'] (List.replicate m '0' ++ r.stripped 0) [' '] 0 ?_ (by simp) ?_ ⟨rfl, rfl⟩ ?_
    · rw [heq]
      simp only [List.flatMap_append, List.flatMap_cons, List.flatMap_nil, flatMap_fDollar, htext,
        flatMap_zeros, Int.toNat_natCast]
      simp [text]
    · intro c hc
      simp only [List.mem_append, List.mem_singleton, List.mem_replicate] at hc
      rcases hc with rfl | ⟨-, rfl⟩ | hc
      · rfl
      · rfl
      · exact r.isDigit_of_mem_stripped hc
    · refine r.value_eq (r.stripped 0) (r.precision - (r.stripped 0).length) ?_ ?_ ?_
      · conv_lhs => rw [hdigits]
        rw [digitsValue_append, digitsValue_replicate]
        simp
      · simp only [List.length_append, List.length_replicate]
        omega
      · rw [← List.append_assoc, digitsValue_append, ← List.replicate_one, ← List.replicate_add,
          digitsValue_replicate]
        simp

/-- The point is among the digits. -/
theorem fDot_middle {k : Nat} (hn : r.n = k) (hpos : 0 < k) (hk : k ≤ r.precision) :
    r.Right .fixed r.fDot := by
  have hle := (r.minusZeros_spec k (r.precision - k) (by omega)).1
  obtain ⟨hlen, hdigits⟩ := r.digits_eq hk
  have heq : r.fDot = r.fDollar ++ [Piece.typed (0 : Nat) k] ++ Piece.char '.' ::
      [.typed k (r.minusZeros k (r.precision - k)), .char ' '] := by
    have hmax : max r.n 0 = k := by omega
    have hmin : min (r.precision : Int) r.n = k := by omega
    have hrest : (max ((r.precision : Int) - k) 0).toNat = r.precision - k := by omega
    have hbefore : zeros (r.n - r.precision) = [] := by
      rw [zeros, Int.toNat_of_nonpos (by omega)]
      rfl
    have hafter : zeros (-r.n) = [] := by
      rw [zeros, Int.toNat_of_nonpos (by omega)]
      rfl
    rw [fDot, hmax, hrest, hmin, if_neg (by omega), hbefore, hafter]
    simp
  have hfront := r.text_typed 0 k (by omega)
  constructor
  · simp only [heq, inside_append, inside_char]
    exact ⟨⟨r.inside_fDollar, r.inside_typed (by omega) r.inside_nil⟩, r.inside_typed (by omega)
      ((r.inside_char _ _).mpr r.inside_nil)⟩
  · refine r.denotes (r.digits.take k) (r.stripped k) [' '] 0 ?_ ?_ ?_ ⟨rfl, rfl⟩ ?_
    · rw [heq]
      simp only [List.flatMap_append, List.flatMap_cons, List.flatMap_nil, flatMap_fDollar, hfront,
        r.text_stripped hk, List.drop_zero]
      simp [text]
    · exact List.ne_nil_of_length_pos (by simp; omega)
    · intro c hc
      rcases List.mem_append.mp hc with hc | hc
      · exact r.isDigit_of_mem (List.mem_of_mem_take hc)
      · exact r.isDigit_of_mem_stripped hc
    · refine r.value_eq (r.digits.take k ++ r.stripped k)
        (r.precision - k - (r.stripped k).length) ?_ (by omega) rfl
      conv_lhs => rw [hdigits]
      rw [digitsValue_append, digitsValue_replicate]
      simp

/-- All the digits are before the point. -/
theorem fDot_large {k : Nat} (hn : r.n = r.precision + k) (hk : 0 < k) : r.Right .fixed r.fDot := by
  have heq : r.fDot = r.fDollar ++ (Piece.typed (0 : Nat) r.precision :: zeros k) ++ Piece.char '.' ::
      [.typed r.n 0, .char ' '] := by
    have hmax : max r.n 0 = r.n := by omega
    have hmin : min (r.precision : Int) r.n = r.precision := by omega
    have hrest : (max ((r.precision : Int) - r.n) 0).toNat = 0 := by omega
    have hafter : zeros (-r.n) = [] := by
      rw [zeros, Int.toNat_of_nonpos (by omega)]
      rfl
    have hbefore : r.n - r.precision = k := by omega
    rw [fDot, hmax, hrest, hmin, if_neg (by omega), hbefore, hafter, minusZeros]
    simp
  have hfront := r.text_typed 0 r.precision (by omega)
  constructor
  · simp only [heq, inside_append, inside_char]
    exact ⟨⟨r.inside_fDollar, r.inside_typed (by omega) (r.inside_zeros _)⟩, r.inside_empty _
      ((r.inside_char _ _).mpr r.inside_nil)⟩
  · refine r.denotes (r.digits ++ List.replicate k '0') [] [' '] 0 ?_ (by simp; omega) ?_ ⟨rfl, rfl⟩ ?_
    · rw [heq]
      simp only [List.flatMap_append, List.flatMap_cons, List.flatMap_nil, flatMap_fDollar, hfront,
        r.text_empty, List.drop_zero, flatMap_zeros, Int.toNat_natCast]
      simp [text]
    · intro c hc
      simp only [List.append_nil, List.mem_append, List.mem_replicate] at hc
      rcases hc with hc | ⟨-, rfl⟩
      · exact r.isDigit_of_mem hc
      · rfl
    · rw [value, List.append_nil, digitsValue_append, digitsValue_replicate, hn]
      simp

/-- {lit}`f.` prints the number. -/
theorem fDot_right : r.Right .fixed r.fDot := by
  rcases Int.lt_or_le 0 r.n with hpos | hneg
  · obtain ⟨k, hk⟩ := Int.eq_ofNat_of_zero_le hpos.le
    rcases Nat.lt_or_ge r.precision k with hlt | hge
    · exact r.fDot_large (k := k - r.precision) (by omega) (by omega)
    · exact r.fDot_middle hk (by omega) hge
  · obtain ⟨m, hm⟩ := Int.eq_ofNat_of_zero_le (by omega : 0 ≤ -r.n)
    exact r.fDot_small (m := m) (by omega)

/-! ## Scientific and engineering notation -/

/-- Digits before and after the point -/
theorem split_right {ending : Ending} {k : Nat} (hpos : 0 < k) (hk : k ≤ r.precision)
    (tail : List Char) (htail : ending.Allows tail (r.n - k)) :
    r.Right ending (r.fDollar ++ [.typed (0 : Nat) k] ++
      [.char '.', .typed k (r.precision - k : Nat)] ++ tail.map .char) := by
  have hfront := r.text_typed 0 k (by omega)
  have hback := r.text_typed k (r.precision - k) (by omega)
  constructor
  · simp only [inside_append, inside_char]
    exact ⟨⟨⟨r.inside_fDollar, r.inside_typed (by omega) r.inside_nil⟩,
      r.inside_typed (by omega) r.inside_nil⟩, r.inside_chars _⟩
  · refine r.denotes (r.digits.take k) (r.digits.drop k) tail (r.n - k) ?_ ?_ ?_ htail ?_
    · simp only [List.flatMap_append, List.flatMap_cons, List.flatMap_nil, flatMap_fDollar, hfront,
        hback, List.drop_zero, flatMap_char]
      rw [List.take_of_length_le (by simp : (r.digits.drop k).length ≤ r.precision - k)]
      simp [text]
    · exact List.ne_nil_of_length_pos (by simp; omega)
    · rw [List.take_append_drop]
      exact fun c hc => r.isDigit_of_mem hc
    · refine r.value_eq r.digits 0 (by simp) ?_ (by rw [List.take_append_drop])
      simp only [List.length_drop, length_digits]
      omega

/-- {lit}`fs.` prints the number. -/
theorem fsDot_right : r.Right .scientific r.fsDot := by
  have hpos := r.precision_pos
  have hlen : ((r.precision : Int) - 1) = (r.precision - 1 : Nat) := by omega
  have hright : r.Right .scientific _ :=
    r.split_right Nat.one_pos hpos ('E' :: dot (r.n - 1)) rfl
  rw [fsDot, hlen]
  simpa using hright

theorem before_pos : 0 < r.before := by
  rw [before]
  omega

/-- Where the digits before the point are there -/
theorem mantissa_right (h : r.before ≤ r.precision) {ending : Ending} (tail : List Char)
    (htail : ending.Allows tail r.engineering) : r.Right ending (r.mantissa ++ tail.map .char) := by
  have hpos := r.before_pos
  obtain ⟨k, hk⟩ := Int.eq_ofNat_of_zero_le hpos.le
  have hexponent : r.engineering = r.n - k := by
    rw [← hk, before, engineering]
    omega
  rw [hexponent] at htail
  have hmin : min (r.precision : Int) k = k := by omega
  have hlen : (r.precision : Int) - k = (r.precision - k : Nat) := by omega
  have hzeros : zeros ((k : Int) - k) = [] := by
    rw [zeros, Int.toNat_of_nonpos (by omega)]
    rfl
  have hright := r.split_right (by omega : 0 < k) (by omega) tail htail
  rw [mantissa]
  simp only [hk, hmin, hlen, hzeros]
  simpa using hright

theorem three_dvd_engineering : 3 ∣ r.engineering :=
  Int.dvd_mul_left _ _

/-- The prefix in the table is that of the exponent. -/
theorem siExponent_getD {e : Int} (hdvd : 3 ∣ e) (he : |e| ≤ zeroExp) :
    siExponent (siPrefixes.getD (zeroExp - e).toNat ' ') = some e := by
  have hzero : zeroExp = 30 := by decide
  rw [hzero] at he ⊢
  obtain ⟨q, rfl⟩ := hdvd
  have hle := abs_le.mp he
  have hlow : -10 ≤ q := by omega
  have hhigh : q ≤ 10 := by omega
  interval_cases q <;> decide

theorem feDot_right (h : r.before ≤ r.precision) : r.Right .engineering r.feDot :=
  r.mantissa_right h ('E' :: dot r.engineering) ⟨rfl, r.three_dvd_engineering⟩

/-- {lit}`fp.` prints the number if the digits before the point are there. -/
theorem fpDot_right (h : r.before ≤ r.precision) : r.Right .si r.fpDot := by
  rw [fpDot]
  split
  case isTrue hle =>
    exact r.mantissa_right h [siPrefixes.getD (zeroExp - r.engineering).toNat ' ', ' ']
      ⟨r.three_dvd_engineering, .inr ⟨_, rfl, siExponent_getD r.three_dvd_engineering hle⟩⟩
  case isFalse =>
    exact r.mantissa_right h ('E' :: dot r.engineering) ⟨r.three_dvd_engineering, .inl rfl⟩

/-- A length below zero is a large one for {lit}`type`. -/
theorem not_inside_mantissa (h : (r.precision : Int) < r.before) (tail : List Piece) :
    ¬ r.Inside (r.mantissa ++ tail) := by
  intro hinside
  have hlt := r.precision_lt
  have hbound : r.before ≤ 3 := by
    rw [before]
    omega
  have hmem : .typed r.before (r.precision - r.before) ∈ r.mantissa ++ tail := by
    simp [mantissa]
  have hlen : 0 < typeLength (r.precision - r.before) := by
    rw [typeLength]
    omega
  have hread := hinside _ _ hmem 0 hlen
  omega

/-- The words print the number where the digits before the point of engineering notation are not more
than the precision. -/
theorem printed_iff : r.Printed ↔ (r.n - 1) % 3 + 1 ≤ r.precision := by
  constructor
  · intro h
    by_contra hlt
    exact r.not_inside_mantissa (Int.not_le.mp hlt) _ h.fe.1
  · exact fun h => ⟨r.fDot_right, r.fsDot_right, r.feDot_right h, r.fpDot_right h⟩

/-- The number 12 with one digit of precision: 0.1 times ten to the power of two -/
def twelve : Represented where
  precision := 1
  scratch _ := '1'
  n := 2
  negative := false
  precision_pos := le_refl 1
  precision_lt := by decide
  isDigit _ _ := rfl

/-- {lit}`fe.` reads the character behind the digit, and many more. -/
theorem not_printed_twelve : ¬ twelve.Printed := by
  intro h
  have hread := h.fe.1 2 (-1) (by decide) 0 (by decide)
  exact absurd hread.2 (by decide)

end Represented

end Numbers
end Gforth
