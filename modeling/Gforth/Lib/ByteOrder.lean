import Gforth.Lib.Bytes
import Mathlib.Data.Nat.Digits.Lemmas

/-!
# Byte order

The number that some bytes in memory stand for, in either order.

Main results:

- Theorem {lit}`value_append_little`, {lit}`value_append_big`: the number of bytes in two parts.
- Theorem {lit}`toNat_load`: the word that consists of some bytes.
- Theorems {lit}`load_append_ushiftRight`, {lit}`load_append_and`: the parts of a word.
- Theorem {lit}`load_store`: a word is read where its bytes are.
-/

namespace Gforth
namespace Lib

/-- The order of the bytes of a word -/
inductive ByteOrder where
  | little
  | big
deriving DecidableEq

namespace ByteOrder

/-- The number of some bytes -/
def value : ByteOrder → List Byte → Nat
  | .little, t => Nat.ofDigits 0x100 (t.map BitVec.toNat)
  | .big, t => Nat.ofDigits 0x100 (t.reverse.map BitVec.toNat)

/-- The word that is read where these bytes are -/
def load (order : ByteOrder) (w : Nat) (t : List Byte) : BitVec w :=
  BitVec.ofNat w (order.value t)

theorem value_append_little (s t : List Byte) :
    value .little (s ++ t) = value .little s + 0x100 ^ s.length * value .little t := by
  rw [value, List.map_append, Nat.ofDigits_append, List.length_map]
  rfl

/-- In big-endian order the bytes in front count more. -/
theorem value_append_big (s t : List Byte) :
    value .big (s ++ t) = value .big t + 0x100 ^ t.length * value .big s := by
  rw [value, List.reverse_append, List.map_append, Nat.ofDigits_append, List.length_map,
    List.length_reverse]
  rfl

/-- A text has a value below the number of texts of its length. -/
theorem value_lt (order : ByteOrder) (t : List Byte) : order.value t < 0x100 ^ t.length := by
  have hbound : ∀ l : List Byte, Nat.ofDigits 0x100 (l.map BitVec.toNat) < 0x100 ^ l.length := by
    intro l
    have hdigits : ∀ x ∈ l.map BitVec.toNat, x < 0x100 := by
      intro x hx
      obtain ⟨b, -, rfl⟩ := List.mem_map.mp hx
      exact b.isLt
    have hlt := Nat.ofDigits_lt_base_pow_length (by decide) hdigits
    rwa [List.length_map] at hlt
  cases order with
  | little => exact hbound t
  | big =>
      have hlt := hbound t.reverse
      rwa [List.length_reverse] at hlt

theorem value_lt_two_pow (order : ByteOrder) (t : List Byte) :
    order.value t < 2 ^ (8 * t.length) := by
  rw [pow_mul]
  exact order.value_lt t

theorem toNat_load (order : ByteOrder) {w : Nat} {t : List Byte} (h : 8 * t.length ≤ w) :
    (order.load w t).toNat = order.value t := by
  rw [load, BitVec.toNat_ofNat, Nat.mod_eq_of_lt]
  exact lt_of_lt_of_le (order.value_lt_two_pow t) (Nat.pow_le_pow_right (by decide) h)

/-! ## The parts of a word -/

/-- Of bytes in two parts, those with the lower value -/
def low : ByteOrder → List Byte → List Byte → List Byte
  | .little, s, _ => s
  | .big, _, t => t

/-- Of bytes in two parts, those with the higher value -/
def high : ByteOrder → List Byte → List Byte → List Byte
  | .little, _, t => t
  | .big, s, _ => s

/-- Both parts have all bytes. -/
theorem length_low_add_high (order : ByteOrder) (s t : List Byte) :
    (order.low s t).length + (order.high s t).length = s.length + t.length := by
  cases order with
  | little => rfl
  | big => exact Nat.add_comm _ _

/-- The value of two parts, in either byte order -/
theorem value_append (order : ByteOrder) (s t : List Byte) :
    order.value (s ++ t) =
      order.value (order.low s t) + 2 ^ (8 * (order.low s t).length) * order.value (order.high s t) := by
  rw [pow_mul]
  cases order with
  | little => exact value_append_little s t
  | big => exact value_append_big s t

section Parts

variable {w : Nat} {s t : List Byte}

theorem toNat_load_append (order : ByteOrder) (h : 8 * (s ++ t).length ≤ w) :
    (order.load w (s ++ t)).toNat = order.value (order.low s t) +
      2 ^ (8 * (order.low s t).length) * order.value (order.high s t) := by
  rw [order.toNat_load h, value_append]

/-- The higher part of a word -/
theorem load_append_ushiftRight (order : ByteOrder) (h : 8 * (s ++ t).length ≤ w) :
    order.load w (s ++ t) >>> (8 * (order.low s t).length) = order.load w (order.high s t) := by
  have hlen := order.length_low_add_high s t
  have hlt := order.value_lt_two_pow (order.low s t)
  rw [List.length_append] at h
  refine BitVec.eq_of_toNat_eq ?_
  rw [BitVec.toNat_ushiftRight, order.toNat_load_append (by rw [List.length_append]; exact h),
    order.toNat_load (by omega), Nat.shiftRight_eq_div_pow,
    Nat.add_mul_div_left _ _ (Nat.two_pow_pos _), Nat.div_eq_of_lt hlt, Nat.zero_add]

/-- The lower part of a word, after the higher one has been shifted out -/
theorem load_append_shiftLeft (order : ByteOrder) (h : 8 * (s ++ t).length = w) :
    order.load w (s ++ t) <<< (8 * (order.high s t).length) =
      order.load w (order.low s t) <<< (8 * (order.high s t).length) := by
  have hlen := order.length_low_add_high s t
  refine BitVec.eq_of_toNat_eq ?_
  rw [BitVec.toNat_shiftLeft, BitVec.toNat_shiftLeft, order.toNat_load_append h.le,
    order.toNat_load (by rw [← h, List.length_append]; omega), Nat.shiftLeft_eq,
    Nat.shiftLeft_eq, Nat.add_mul, Nat.mul_right_comm, ← pow_add, ← Nat.mul_add, hlen,
    ← List.length_append, h, Nat.add_mul_mod_self_left]

/-- Bytes that are shifted, and fit, are shifted back. -/
theorem load_shiftLeft_ushiftRight (order : ByteOrder) {e : Nat} (h : 8 * t.length + e ≤ w) :
    order.load w t <<< e >>> e = order.load w t := by
  have hlt : order.value t * 2 ^ e < 2 ^ w := by
    refine lt_of_lt_of_le ?_ (Nat.pow_le_pow_right (by decide) h)
    rw [pow_add]
    exact Nat.mul_lt_mul_of_pos_right (order.value_lt_two_pow t) (Nat.two_pow_pos e)
  refine BitVec.eq_of_toNat_eq ?_
  rw [BitVec.toNat_ushiftRight, BitVec.toNat_shiftLeft, order.toNat_load (by omega),
    Nat.shiftLeft_eq, Nat.mod_eq_of_lt hlt, Nat.shiftRight_eq_div_pow,
    Nat.mul_div_cancel _ (Nat.two_pow_pos e)]

/-- The mask does the same as the two shifts. -/
theorem and_allOnes_ushiftRight (x : BitVec w) (e : Nat) :
    x &&& (BitVec.allOnes w >>> e) = x <<< e >>> e := by
  refine BitVec.eq_of_getLsbD_eq fun i hi => ?_
  rw [BitVec.getLsbD_and, BitVec.getLsbD_ushiftRight, BitVec.getLsbD_allOnes,
    BitVec.getLsbD_ushiftRight, BitVec.getLsbD_shiftLeft, Nat.add_sub_cancel_left, Bool.and_comm]
  simp

/-- The lower part of a word, after the higher one has been masked out -/
theorem load_append_and (order : ByteOrder) (h : 8 * (s ++ t).length = w) :
    order.load w (s ++ t) &&& (BitVec.allOnes w >>> (8 * (order.high s t).length)) =
      order.load w (order.low s t) := by
  have hlen := order.length_low_add_high s t
  rw [and_allOnes_ushiftRight, order.load_append_shiftLeft h, order.load_shiftLeft_ushiftRight]
  rw [← h, List.length_append]
  omega

/-! ## Zeros and bits -/

/-- Zero bytes have the value 0. -/
theorem value_replicate (order : ByteOrder) (n : Nat) : order.value (List.replicate n 0#8) = 0 := by
  induction n with
  | zero => cases order <;> rfl
  | succ n ih =>
      rw [List.replicate_succ', value_append]
      cases order with
      | little => exact (Nat.add_eq_zero_iff).mpr ⟨ih, by simp [high, value]⟩
      | big => exact (Nat.add_eq_zero_iff).mpr ⟨by simp [low, value], by simp [high, ih]⟩

/-- Zeros before the bytes shift them. -/
theorem load_little_zeros (n : Nat) (h : 8 * (n + t.length) ≤ w) :
    load .little w (List.replicate n 0#8 ++ t) = load .little w t <<< (8 * n) := by
  have hlen : 8 * (List.replicate n 0#8 ++ t).length ≤ w := by
    rw [List.length_append, List.length_replicate]
    exact h
  have hlt : value .little t * 2 ^ (8 * n) < 2 ^ w := by
    refine lt_of_lt_of_le ?_ (Nat.pow_le_pow_right (by decide) h)
    rw [Nat.mul_add, pow_add, Nat.mul_comm]
    exact Nat.mul_lt_mul_of_pos_left (value_lt_two_pow .little t) (Nat.two_pow_pos _)
  refine BitVec.eq_of_toNat_eq ?_
  rw [toNat_load_append .little hlen, BitVec.toNat_shiftLeft, toNat_load .little (by omega),
    Nat.shiftLeft_eq, Nat.mod_eq_of_lt hlt, Nat.mul_comm]
  simp [low, high, value_replicate]

theorem load_big_zeros (n : Nat) : load .big w (List.replicate n 0#8 ++ t) = load .big w t := by
  rw [load, load, value_append, low, high, value_replicate, Nat.mul_zero, Nat.add_zero]

theorem load_big (t : List Byte) : load .big w t = load .little w t.reverse :=
  rfl

/-- The bits of a little-endian value are those of its bytes. -/
theorem testBit_value_little (t : List Byte) (i : Nat) :
    (value .little t).testBit i = (t.getD (i / 8) 0#8).getLsbD (i % 8) := by
  induction t generalizing i with
  | nil => simp [value]
  | cons c t ih =>
      have hvalue : value .little (c :: t) = 2 ^ 8 * value .little t + c.toNat := by
        rw [value, List.map_cons, Nat.ofDigits_cons, Nat.add_comm]
        rfl
      rw [hvalue, Nat.testBit_two_pow_mul_add _ c.isLt]
      by_cases hlow : i < 8
      · rw [if_pos hlow, Nat.div_eq_of_lt hlow, Nat.mod_eq_of_lt hlow]
        rfl
      · have hdiv : i / 8 = (i - 8) / 8 + 1 := by omega
        have hmod : i % 8 = (i - 8) % 8 := by omega
        rw [if_neg hlow, hdiv, hmod, List.getD_cons_succ, ih]

theorem getLsbD_load_little (t : List Byte) {i : Nat} (hi : i < w) :
    (load .little w t).getLsbD i = (t.getD (i / 8) 0#8).getLsbD (i % 8) := by
  rw [load, BitVec.getLsbD_ofNat, testBit_value_little]
  simp [hi]

end Parts

/-! ## The bytes of a word -/

/-- The {lit}`n` bytes of a word -/
def store (order : ByteOrder) {w : Nat} (n : Nat) (x : BitVec w) : List Byte :=
  match order with
  | .little => (List.range n).map fun i => x.extractLsb' (8 * i) 8
  | .big => ((List.range n).map fun i => x.extractLsb' (8 * i) 8).reverse

@[simp]
theorem length_store (order : ByteOrder) {w : Nat} (n : Nat) (x : BitVec w) :
    (order.store n x).length = n := by
  cases order <;> simp [store]

theorem store_zero (order : ByteOrder) (w n : Nat) : order.store n 0#w = List.replicate n 0#8 := by
  have hbyte : (fun i => (0#w).extractLsb' (8 * i) 8) = fun _ : Nat => 0#8 := by
    funext i
    simp
  cases order with
  | little => rw [store, hbyte, List.map_const', List.length_range]
  | big => rw [store, hbyte, List.map_const', List.length_range, List.reverse_replicate]

/-- What was stored is loaded. -/
theorem load_store (order : ByteOrder) {w n : Nat} (h : 8 * n = w) (x : BitVec w) :
    order.load w (order.store n x) = x := by
  have hlittle : load .little w (store .little n x) = x := by
    refine BitVec.eq_of_getLsbD_eq fun i hi => ?_
    have hbyte : i / 8 < n := by omega
    have hbit : 8 * (i / 8) + i % 8 = i := Nat.div_add_mod i 8
    have hget : (store .little n x).getD (i / 8) 0#8 = x.extractLsb' (8 * (i / 8)) 8 := by
      rw [store, List.getD_eq_getElem?_getD, List.getElem?_map, List.getElem?_range hbyte]
      rfl
    rw [getLsbD_load_little _ hi, hget, BitVec.getLsbD_extractLsb', hbit,
      decide_eq_true (Nat.mod_lt i (by decide)), Bool.true_and]
  cases order with
  | little => exact hlittle
  | big =>
      rw [load_big]
      have hreverse : (store .big n x).reverse = store .little n x := List.reverse_reverse _
      rw [hreverse, hlittle]

end ByteOrder
end Lib
end Gforth
