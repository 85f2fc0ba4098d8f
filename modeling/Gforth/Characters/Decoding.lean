import Gforth.Lib.ByteOrder
import Gforth.Lib.Utf8
import Gforth.Numbers.Conversion

/-!
# Decoding of arbitrary bytes

{lit}`utf8_fetch_plus` reads up to four bytes as one number and looks at it through masks.  Here this
is brought back to the bytes: the first one announces a length, and the character ends earlier if a
byte is missing or does not continue it.

Main results:

- Theorem {lit}`utf8FetchPlus_eq`: what is decoded depends on the bytes of the text only.
- Theorem {lit}`decoding_safe`: decoding is safe and goes on, for all texts and both byte orders.
-/

namespace Gforth
namespace Characters

open Lib
open Memory
open Utf8
open Numbers

variable {w : Nat}

/-! ## The characters as a number -/

/-- {lit}`BSWAP32` -/
def bswap32 (x : BitVec 32) : BitVec 32 :=
  ((x <<< 24) &&& 0xff000000#32) ||| ((x <<< 8) &&& 0x00ff0000#32) |||
    ((x >>> 8) &&& 0x0000ff00#32) ||| ((x >>> 24) &&& 0x000000ff#32)

/-- {lit}`codepoint=BSWAP32(codepoint)`, which is left out with {lit}`WORDS_BIGENDIAN` -/
def toBigEndian : ByteOrder → BitVec 32 → BitVec 32
  | .little, x => bswap32 x
  | .big, x => x

/-- {lit}`codepoint` of {lit}`utf8_fetch_plus` before it is decoded -/
def fetchNative (order : ByteOrder) (mem : Chars w) (s : Str w) : BitVec 32 :=
  let t :=
    if s.len.toNat < 4 then text mem s.addr s.len.toNat ++ List.replicate (4 - s.len.toNat) 0#8
    else text mem s.addr 4
  toBigEndian order (order.load 32 t)

/-- {lit}`u8@+?` on a machine with some byte order -/
def u8FetchPlusQuery (order : ByteOrder) (mem : Chars w) (s : Str w) : Str w × BitVec w :=
  let d := utf8Decode (fetchNative order mem s)
  (⟨s.addr + BitVec.ofNat w d.1, s.len - BitVec.ofNat w d.1⟩, d.2.setWidth w)

/-- The number of four bytes -/
theorem toNat_four (a b c d : Byte) : (a ++ b ++ c ++ d).toNat =
    a.toNat * 0x1000000 + b.toNat * 0x10000 + c.toNat * 0x100 + d.toNat := by
  have happend : ∀ {n : Nat} (x : BitVec n) (y : Byte), (x ++ y).toNat = x.toNat * 0x100 + y.toNat := by
    intro n x y
    rw [BitVec.toNat_append, Nat.shiftLeft_eq, Nat.mul_comm, ← Nat.two_pow_add_eq_or_of_lt y.isLt]
  rw [happend, happend, happend]
  ring

/-- Four bytes are reversed. -/
theorem bswap32_append (a b c d : Byte) : bswap32 (a ++ b ++ c ++ d) = d ++ c ++ b ++ a := by
  refine BitVec.eq_of_getLsbD_eq fun i hi => ?_
  rw [bswap32]
  simp only [BitVec.getLsbD_or, BitVec.getLsbD_and, BitVec.getLsbD_shiftLeft,
    BitVec.getLsbD_ushiftRight, BitVec.getLsbD_append]
  interval_cases i <;> simp

/-- The byte order makes no difference. -/
theorem toBigEndian_load (order : ByteOrder) (a b c d : Byte) :
    toBigEndian order (order.load 32 [a, b, c, d]) = a ++ b ++ c ++ d := by
  cases order with
  | little =>
      have hload : ByteOrder.little.load 32 [a, b, c, d] = d ++ c ++ b ++ a := by
        refine BitVec.eq_of_toNat_eq ?_
        rw [@ByteOrder.toNat_load _ 32 _ le_rfl, toNat_four]
        simp only [ByteOrder.value, List.map_cons, List.map_nil, Nat.ofDigits_cons, Nat.ofDigits_nil]
        ring
      rw [toBigEndian, hload, bswap32_append]
  | big =>
      refine BitVec.eq_of_toNat_eq ?_
      rw [toBigEndian, @ByteOrder.toNat_load _ 32 _ le_rfl, toNat_four]
      simp only [ByteOrder.value, List.reverse_cons, List.reverse_nil, List.nil_append,
        List.cons_append, List.map_cons, List.map_nil, Nat.ofDigits_cons, Nat.ofDigits_nil]
      ring

/-- The characters of a text, and zeros behind it -/
def tetraBytes (t : List Byte) : List Byte :=
  [t.getD 0 0#8, t.getD 1 0#8, t.getD 2 0#8, t.getD 3 0#8]

/-- The four bytes that are looked at, with zeros behind the text -/
theorem tetraBytes_eq (t : List Byte) :
    (if t.length < 4 then t ++ List.replicate (4 - t.length) 0#8 else t.take 4) = tetraBytes t := by
  match t with
  | [] | [_] | [_, _] | [_, _, _] => rfl
  | _ :: _ :: _ :: _ :: _ => rw [if_neg (by simp)]; rfl

/-- The four bytes do not depend on the byte order. -/
theorem fetchNative_eq (order : ByteOrder) (mem : Chars w) (s : Str w) :
    fetchNative order mem s = fetchTetra mem s := by
  have hbytes : (if s.len.toNat < 4 then
      text mem s.addr s.len.toNat ++ List.replicate (4 - s.len.toNat) 0#8
      else text mem s.addr 4) = tetraBytes (s.chars mem) := by
    rw [← tetraBytes_eq, Str.length_chars]
    split
    · rfl
    · exact (take_text mem s.addr (by omega)).symm
  rw [fetchNative, hbytes, tetraBytes, toBigEndian_load, fetchTetra_eq]

/-! ## The bytes of a character -/

/-- The length that a first byte announces -/
def announced (b : Byte) : Nat :=
  if b.toNat < 0xC0 then 1 else if b.toNat < 0xE0 then 2 else if b.toNat < 0xF0 then 3 else 4

/-- The bits of a code point in the first byte -/
def payload (b : Byte) : Nat :=
  b.toNat % (if b.toNat < 0xC0 then 0x80 else if b.toNat < 0xE0 then 0x20 else
    if b.toNat < 0xF0 then 0x10 else 8)

/-- A first byte that starts a well-formed character if all bytes follow that it announces -/
def Starts (b : Byte) : Prop :=
  ¬Continuation b ∧ b.toNat < 0xF8

instance (b : Byte) : Decidable (Starts b) :=
  inferInstanceAs (Decidable (_ ∧ _))

/-- The bytes that continue a character -/
def continued (b : Byte) (rest : List Byte) : List Byte :=
  (rest.take (announced b - 1)).takeWhile fun c => Continuation c

/-- The bits of a code point in all bytes -/
def codeOf (b : Byte) (cs : List Byte) : Nat :=
  cs.foldl (fun v c => v * 0x40 + c.toNat % 0x40) (payload b)

/-- {lit}`$FFFD` in place of what is no code point -/
def clip (n : Nat) : Nat :=
  if lastCodePoint < n then 0xFFFD else n

/-- The length and the code of the first character -/
def decodeText : List Byte → Nat × Nat
  | [] => (1, 0)
  | b :: rest =>
      let cs := continued b rest
      (cs.length + 1,
        if Starts b ∧ cs.length + 1 = announced b then clip (codeOf b cs) else 0xFFFD)

theorem announced_cases (b : Byte) :
    announced b = 1 ∨ announced b = 2 ∨ announced b = 3 ∨ announced b = 4 := by
  rw [announced]
  split_ifs <;> simp

theorem append_eq_append_iff {m n : Nat} {a c : BitVec m} {b d : BitVec n} :
    a ++ b = c ++ d ↔ a = c ∧ b = d := by
  constructor
  · intro h
    have hright := congrArg (BitVec.setWidth n) h
    rw [BitVec.setWidth_append_eq_right, BitVec.setWidth_append_eq_right] at hright
    subst hright
    exact ⟨(BitVec.append_left_inj b).mp h, rfl⟩
  · rintro ⟨rfl, rfl⟩
    rfl

section

variable (b0 b1 b2 b3 : Byte)

/-- The length is announced by the first byte. -/
theorem lens_bytes : lens (b0 ++ b1 ++ b2 ++ b3) = announced b0 := by
  have hshift : ((b0 ++ b1 ++ b2 ++ b3) >>> 28).toNat = b0.toNat / 0x10 := by
    have h1 := b1.isLt
    have h2 := b2.isLt
    have h3 := b3.isLt
    rw [BitVec.toNat_ushiftRight, Nat.shiftRight_eq_div_pow, toNat_four]
    omega
  have htable : ∀ b : Byte,
      [1, 1, 1, 1, 1, 1, 1, 1, 1, 1, 1, 1, 2, 2, 3, 4].getD (b.toNat / 0x10) 1 = announced b := by
    decide
  rw [lens, hshift, htable]

theorem and_bytes (m0 m1 m2 m3 : Byte) : (b0 ++ b1 ++ b2 ++ b3) &&& (m0 ++ m1 ++ m2 ++ m3) =
    (b0 &&& m0) ++ (b1 &&& m1) ++ (b2 &&& m2) ++ (b3 &&& m3) := by
  rw [BitVec.and_append, BitVec.and_append, BitVec.and_append]

theorem bytes_eq_iff (m0 m1 m2 m3 : Byte) : b0 ++ b1 ++ b2 ++ b3 = m0 ++ m1 ++ m2 ++ m3 ↔
    b0 = m0 ∧ b1 = m1 ∧ b2 = m2 ∧ b3 = m3 := by
  rw [append_eq_append_iff, append_eq_append_iff, append_eq_append_iff, and_assoc, and_assoc]

/-- The last byte, the last but one and the second one through the masks of the {lit}`switch` -/
theorem broken_iff :
    ((b0 ++ b1 ++ b2 ++ b3) &&& 0xC0#32 = 0x80#32 ↔ Continuation b3) ∧
      ((b0 ++ b1 ++ b2 ++ b3) &&& 0xC000#32 = 0x8000#32 ↔ Continuation b2) ∧
      ((b0 ++ b1 ++ b2 ++ b3) &&& 0xC00000#32 = 0x800000#32 ↔ Continuation b1) := by
  have hmasks : 0xC0#32 = 0#8 ++ 0#8 ++ 0#8 ++ 0xC0#8 ∧ 0xC000#32 = 0#8 ++ 0#8 ++ 0xC0#8 ++ 0#8 ∧
      0xC00000#32 = 0#8 ++ 0xC0#8 ++ 0#8 ++ 0#8 := by decide
  have hmarks : 0x80#32 = 0#8 ++ 0#8 ++ 0#8 ++ 0x80#8 ∧ 0x8000#32 = 0#8 ++ 0#8 ++ 0x80#8 ++ 0#8 ∧
      0x800000#32 = 0#8 ++ 0x80#8 ++ 0#8 ++ 0#8 := by decide
  rw [hmasks.1, hmasks.2.1, hmasks.2.2, hmarks.1, hmarks.2.1, hmarks.2.2, and_bytes, and_bytes,
    and_bytes, bytes_eq_iff, bytes_eq_iff, bytes_eq_iff]
  simp [Continuation]

/-- The payload bits of four bytes are put together. -/
theorem squeeze_or :
    (((b0 ++ b1 ++ b2 ++ b3) &&& 0x000000FF#32) >>> 0 |||
      ((b0 ++ b1 ++ b2 ++ b3) &&& 0x0000FF00#32) >>> 2 |||
      ((b0 ++ b1 ++ b2 ++ b3) &&& 0x00FF0000#32) >>> 4 |||
      ((b0 ++ b1 ++ b2 ++ b3) &&& 0xFF000000#32) >>> 6).toNat =
      b3.toNat ||| b2.toNat * 2 ^ 6 ||| b1.toNat * 2 ^ 12 ||| b0.toNat * 2 ^ 18 := by
  have hmask : 0x000000FF#32 = 0#8 ++ 0#8 ++ 0#8 ++ 0xFF#8 ∧
      0x0000FF00#32 = 0#8 ++ 0#8 ++ 0xFF#8 ++ 0#8 ∧ 0x00FF0000#32 = 0#8 ++ 0xFF#8 ++ 0#8 ++ 0#8 ∧
      0xFF000000#32 = 0xFF#8 ++ 0#8 ++ 0#8 ++ 0#8 := by decide
  have hall : ∀ b : Byte, b &&& 0xFF#8 = b := fun b => BitVec.and_allOnes
  have hplace : ∀ x : Nat, x * 0x100 / 2 ^ 2 = x * 2 ^ 6 ∧ x * 0x10000 / 2 ^ 4 = x * 2 ^ 12 ∧
      x * 0x1000000 / 2 ^ 6 = x * 2 ^ 18 := fun x => by omega
  rw [hmask.1, hmask.2.1, hmask.2.2.1, hmask.2.2.2, and_bytes, and_bytes, and_bytes, and_bytes]
  simp only [BitVec.and_zero, hall, BitVec.toNat_or, BitVec.toNat_ushiftRight,
    Nat.shiftRight_eq_div_pow, toNat_four, BitVec.toNat_zero, Nat.zero_mul, Nat.zero_add,
    Nat.add_zero, Nat.pow_zero, Nat.div_one, (hplace _).1, (hplace _).2.1, (hplace _).2.2]

/-- The six bits of each byte are put together. -/
theorem squeeze_bytes (h1 : b1.toNat < 0x40) (h2 : b2.toNat < 0x40) (h3 : b3.toNat < 0x40) :
    (((b0 ++ b1 ++ b2 ++ b3) &&& 0x000000FF#32) >>> 0 |||
      ((b0 ++ b1 ++ b2 ++ b3) &&& 0x0000FF00#32) >>> 2 |||
      ((b0 ++ b1 ++ b2 ++ b3) &&& 0x00FF0000#32) >>> 4 |||
      ((b0 ++ b1 ++ b2 ++ b3) &&& 0xFF000000#32) >>> 6).toNat =
      ((b0.toNat * 0x40 + b1.toNat) * 0x40 + b2.toNat) * 0x40 + b3.toNat := by
  have hor : ∀ {i a b : Nat}, b < 2 ^ i → b ||| a * 2 ^ i = a * 2 ^ i + b := by
    intro i a b h
    rw [Nat.or_comm, Nat.mul_comm, ← Nat.two_pow_add_eq_or_of_lt h]
  rw [squeeze_or, hor (i := 6) (a := b2.toNat) (b := b3.toNat) h3,
    hor (i := 12) (a := b1.toNat) (by omega), hor (i := 18) (a := b0.toNat) (by omega)]
  ring

/-- The bytes after a shift -/
theorem shift_bytes :
    (b0 ++ b1 ++ b2 ++ b3) >>> 8 = 0#8 ++ b0 ++ b1 ++ b2 ∧
      (b0 ++ b1 ++ b2 ++ b3) >>> 16 = 0#8 ++ 0#8 ++ b0 ++ b1 ∧
      (b0 ++ b1 ++ b2 ++ b3) >>> 24 = 0#8 ++ 0#8 ++ 0#8 ++ b0 := by
  have h1 := b1.isLt
  have h2 := b2.isLt
  have h3 := b3.isLt
  refine ⟨BitVec.eq_of_toNat_eq ?_, BitVec.eq_of_toNat_eq ?_, BitVec.eq_of_toNat_eq ?_⟩ <;>
    rw [BitVec.toNat_ushiftRight, Nat.shiftRight_eq_div_pow, toNat_four, toNat_four,
      BitVec.toNat_zero] <;>
    omega

/-- What the masks say about the first byte -/
theorem first_byte (b : Byte) :
    (announced b = 1 → (b &&& 0x80#8 = 0#8 ↔ Starts b) ∧ (Starts b → (b &&& 0x7F#8).toNat = payload b)) ∧
      (announced b = 2 → b &&& 0xE0#8 = 0xC0#8 ∧ Starts b ∧ (b &&& 0x1F#8).toNat = payload b) ∧
      (announced b = 3 → b &&& 0xF0#8 = 0xE0#8 ∧ Starts b ∧ (b &&& 0x0F#8).toNat = payload b) ∧
      (announced b = 4 → (b &&& 0xF8#8 = 0xF0#8 ↔ Starts b) ∧ (b &&& 0x07#8).toNat = payload b) := by
  have h : ∀ b : Byte,
      (announced b = 1 → (b &&& 0x80#8 = 0#8 ↔ Starts b) ∧
        (Starts b → (b &&& 0x7F#8).toNat = payload b)) ∧
      (announced b = 2 → b &&& 0xE0#8 = 0xC0#8 ∧ Starts b ∧ (b &&& 0x1F#8).toNat = payload b) ∧
      (announced b = 3 → b &&& 0xF0#8 = 0xE0#8 ∧ Starts b ∧ (b &&& 0x0F#8).toNat = payload b) ∧
      (announced b = 4 → (b &&& 0xF8#8 = 0xF0#8 ↔ Starts b) ∧
        (b &&& 0x07#8).toNat = payload b) := by
    decide
  exact h b

theorem toNat_and_six_bits (b : Byte) : (b &&& 0x3F#8).toNat = b.toNat % 0x40 := by
  rw [BitVec.toNat_and]
  exact Nat.and_two_pow_sub_one_eq_mod b.toNat 6

/-- The {lit}`switch` ends right before the first byte that is not continued. -/
theorem malformedLength_bytes : malformedLength (b0 ++ b1 ++ b2 ++ b3) (announced b0) =
    (continued b0 [b1, b2, b3]).length + 1 := by
  obtain ⟨h3, h2, h1⟩ := broken_iff b0 b1 b2 b3
  simp only [malformedLength, ne_eq, h1, h2, h3, continued]
  rcases announced_cases b0 with h | h | h | h <;> rw [h] <;>
    by_cases hb1 : Continuation b1 <;> by_cases hb2 : Continuation b2 <;>
    by_cases hb3 : Continuation b3 <;> simp [hb1, hb2, hb3]

/-- What the masks say about all bytes -/
theorem valid_bytes : (b0 ++ b1 ++ b2 ++ b3) &&& vmasks (announced b0) = valids (announced b0) ↔
    Starts b0 ∧ (continued b0 [b1, b2, b3]).length + 1 = announced b0 := by
  obtain ⟨hone, htwo, hthree, hfour⟩ := first_byte b0
  have hmasks : vmasks 1 = 0x80#8 ++ 0#8 ++ 0#8 ++ 0#8 ∧ vmasks 2 = 0xE0#8 ++ 0xC0#8 ++ 0#8 ++ 0#8 ∧
      vmasks 3 = 0xF0#8 ++ 0xC0#8 ++ 0xC0#8 ++ 0#8 ∧
      vmasks 4 = 0xF8#8 ++ 0xC0#8 ++ 0xC0#8 ++ 0xC0#8 := by decide
  have hvalids : valids 1 = 0#8 ++ 0#8 ++ 0#8 ++ 0#8 ∧ valids 2 = 0xC0#8 ++ 0x80#8 ++ 0#8 ++ 0#8 ∧
      valids 3 = 0xE0#8 ++ 0x80#8 ++ 0x80#8 ++ 0#8 ∧
      valids 4 = 0xF0#8 ++ 0x80#8 ++ 0x80#8 ++ 0x80#8 := by decide
  have hcontinuation : ∀ b : Byte, b &&& 0xC0#8 = 0x80#8 ↔ Continuation b := fun b => Iff.rfl
  rcases announced_cases b0 with h | h | h | h <;> rw [continued, h]
  · rw [hmasks.1, hvalids.1, and_bytes, bytes_eq_iff, (hone h).1]
    simp
  · rw [hmasks.2.1, hvalids.2.1, and_bytes, bytes_eq_iff, hcontinuation]
    by_cases hb1 : Continuation b1 <;> simp [htwo h, hb1]
  · rw [hmasks.2.2.1, hvalids.2.2.1, and_bytes, bytes_eq_iff, hcontinuation, hcontinuation]
    by_cases hb1 : Continuation b1 <;> by_cases hb2 : Continuation b2 <;> simp [hthree h, hb1, hb2]
  · rw [hmasks.2.2.2, hvalids.2.2.2, and_bytes, bytes_eq_iff, hcontinuation, hcontinuation,
      hcontinuation, (hfour h).1]
    by_cases hb1 : Continuation b1 <;> by_cases hb2 : Continuation b2 <;>
      by_cases hb3 : Continuation b3 <;> simp [hb1, hb2, hb3]

/-- The code of a well-formed character -/
theorem code_bytes (hstarts : Starts b0) :
    let x := ((b0 ++ b1 ++ b2 ++ b3) &&& masks (announced b0)) >>> ((4 - announced b0) <<< 3)
    (((x &&& 0x000000FF#32) >>> 0) ||| ((x &&& 0x0000FF00#32) >>> 2) |||
      ((x &&& 0x00FF0000#32) >>> 4) ||| ((x &&& 0xFF000000#32) >>> 6)).toNat =
      codeOf b0 ([b1, b2, b3].take (announced b0 - 1)) := by
  obtain ⟨hone, htwo, hthree, hfour⟩ := first_byte b0
  have hmasks : masks 1 = 0x7F#8 ++ 0#8 ++ 0#8 ++ 0#8 ∧ masks 2 = 0x1F#8 ++ 0x3F#8 ++ 0#8 ++ 0#8 ∧
      masks 3 = 0x0F#8 ++ 0x3F#8 ++ 0x3F#8 ++ 0#8 ∧
      masks 4 = 0x07#8 ++ 0x3F#8 ++ 0x3F#8 ++ 0x3F#8 := by decide
  have hsix : ∀ b : Byte, (b &&& 0x3F#8).toNat < 0x40 := fun b => by
    rw [toNat_and_six_bits]
    exact Nat.mod_lt _ (by decide)
  have hfirst : ∀ m : Byte, m.toNat < 0x40 → (b0 &&& m).toNat < 0x40 := fun m hm => by
    rw [BitVec.toNat_and]
    exact Nat.and_le_right.trans_lt hm
  have hzero : (0#8).toNat < 0x40 := by decide
  intro x
  rcases announced_cases b0 with h | h | h | h
  · have hx : x = 0#8 ++ 0#8 ++ 0#8 ++ (b0 &&& 0x7F#8) := by
      rw [← (shift_bytes _ (b1 &&& 0#8) (b2 &&& 0#8) (b3 &&& 0#8)).2.2, ← and_bytes, ← hmasks.1, ← h]
      simp only [x, h]
      rfl
    rw [hx, squeeze_or, (hone h).2 hstarts, h]
    simp [codeOf]
  · have hx : x = 0#8 ++ 0#8 ++ (b0 &&& 0x1F#8) ++ (b1 &&& 0x3F#8) := by
      rw [← (shift_bytes _ _ (b2 &&& 0#8) (b3 &&& 0#8)).2.1, ← and_bytes, ← hmasks.2.1, ← h]
      simp only [x, h]
      rfl
    rw [hx, squeeze_bytes _ _ _ _ hzero (hfirst _ (by decide)) (hsix b1), (htwo h).2.2,
      toNat_and_six_bits, h]
    simp [codeOf]
  · have hx : x = 0#8 ++ (b0 &&& 0x0F#8) ++ (b1 &&& 0x3F#8) ++ (b2 &&& 0x3F#8) := by
      rw [← (shift_bytes _ _ _ (b3 &&& 0#8)).1, ← and_bytes, ← hmasks.2.2.1, ← h]
      simp only [x, h]
      rfl
    rw [hx, squeeze_bytes _ _ _ _ (hfirst _ (by decide)) (hsix b1) (hsix b2), (hthree h).2.2,
      toNat_and_six_bits, toNat_and_six_bits, h]
    simp [codeOf]
  · have hx : x = (b0 &&& 0x07#8) ++ (b1 &&& 0x3F#8) ++ (b2 &&& 0x3F#8) ++ (b3 &&& 0x3F#8) := by
      rw [← and_bytes, ← hmasks.2.2.2, ← h]
      simp only [x, h]
      rfl
    rw [hx, squeeze_bytes _ _ _ _ (hsix b1) (hsix b2) (hsix b3), (hfour h).2,
      toNat_and_six_bits, toNat_and_six_bits, toNat_and_six_bits, h]
    simp [codeOf]

end

/-- {lit}`utf8_fetch_plus` on the bytes of a text -/
theorem utf8Decode_bytes (b0 b1 b2 b3 : Byte) :
    ((utf8Decode (b0 ++ b1 ++ b2 ++ b3)).1, (utf8Decode (b0 ++ b1 ++ b2 ++ b3)).2.toNat) =
      decodeText [b0, b1, b2, b3] := by
  simp only [utf8Decode, lens_bytes, valid_bytes, decodeText]
  split
  · rename_i hvalid
    have htake : continued b0 [b1, b2, b3] = [b1, b2, b3].take (announced b0 - 1) := by
      refine List.IsPrefix.eq_of_length (List.takeWhile_prefix _) ?_
      have hcases := announced_cases b0
      rw [List.length_take]
      simp only [List.length_cons, List.length_nil]
      omega
    have hcode := code_bytes b0 b1 b2 b3 hvalid.1
    dsimp only at hcode
    rw [hvalid.2, htake]
    simp only [apply_ite BitVec.toNat, BitVec.lt_def, hcode]
    rfl
  · rename_i hvalid
    rw [malformedLength_bytes]
    rfl

/-- No byte behind the first four is looked at. -/
theorem decodeText_tetraBytes (t : List Byte) : decodeText (tetraBytes t) = decodeText t := by
  have hzero : ¬Continuation 0#8 := by decide
  cases t with
  | nil => rfl
  | cons b rest =>
      have hrest : continued b [rest.getD 0 0#8, rest.getD 1 0#8, rest.getD 2 0#8] =
          continued b rest := by
        rw [continued, continued]
        match rest with
        | [] => rcases announced_cases b with h | h | h | h <;> simp [h, hzero]
        | [c] =>
            rcases announced_cases b with h | h | h | h <;> by_cases hc : Continuation c <;>
              simp [h, hzero, hc]
        | [c, d] =>
            rcases announced_cases b with h | h | h | h <;> by_cases hc : Continuation c <;>
              by_cases hd : Continuation d <;> simp [h, hzero, hc, hd]
        | c :: d :: e :: rest => rcases announced_cases b with h | h | h | h <;> simp [h]
      change decodeText (b :: [rest.getD 0 0#8, rest.getD 1 0#8, rest.getD 2 0#8]) = _
      rw [decodeText, hrest, decodeText]

theorem utf8FetchPlus_eq (mem : Chars w) (s : Str w) :
    ((utf8FetchPlus mem s).1, (utf8FetchPlus mem s).2.toNat) = decodeText (s.chars mem) := by
  rw [utf8FetchPlus, fetchTetra_eq, utf8Decode_bytes]
  exact decodeText_tetraBytes _

/-- {lit}`u8@+?` decodes the text, and goes on behind what it has decoded. -/
theorem u8FetchPlusQuery_eq (order : ByteOrder) (mem : Chars w) (s : Str w) :
    u8FetchPlusQuery order mem s =
      (s.slashString (BitVec.ofNat w (decodeText (s.chars mem)).1),
        BitVec.ofNat w (decodeText (s.chars mem)).2) := by
  rw [← utf8FetchPlus_eq, u8FetchPlusQuery, fetchNative_eq]
  refine Prod.ext rfl (BitVec.eq_of_toNat_eq ?_)
  rw [BitVec.toNat_setWidth, BitVec.toNat_ofNat]
  rfl

/-! ## Safety -/

/-- At most three bytes continue a character. -/
theorem length_continued_le (b : Byte) (rest : List Byte) :
    (continued b rest).length ≤ rest.length ∧ (continued b rest).length ≤ 3 := by
  have hle : (continued b rest).length ≤ (rest.take (announced b - 1)).length :=
    (List.takeWhile_prefix _).length_le
  have hcases := announced_cases b
  rw [List.length_take] at hle
  omega

/-- One to four bytes of a text are decoded. -/
theorem decodeText_length {t : List Byte} (h : t ≠ []) :
    1 ≤ (decodeText t).1 ∧ (decodeText t).1 ≤ t.length ∧ (decodeText t).1 ≤ 4 := by
  cases t with
  | nil => exact absurd rfl h
  | cons b rest =>
      obtain ⟨hrest, hthree⟩ := length_continued_le b rest
      rw [decodeText, List.length_cons]
      exact ⟨Nat.le_add_left _ _, Nat.succ_le_succ hrest, Nat.succ_le_succ hthree⟩

theorem clip_le (n : Nat) : clip n ≤ lastCodePoint := by
  rw [clip]
  split
  · decide
  · omega

/-- What is decoded is a code point. -/
theorem decodeText_le (t : List Byte) : (decodeText t).2 ≤ lastCodePoint := by
  cases t with
  | nil => exact Nat.zero_le _
  | cons b rest =>
      rw [decodeText]
      dsimp only
      split
      · exact clip_le _
      · decide

/-- The character that the first byte announces ends before its end. -/
structure BrokenAt (t : List Byte) (k : Nat) : Prop where
  pos : 0 < k
  le : k ≤ t.length
  announced : ∀ b, t.head? = some b → k < announced b
  continued : ∀ c ∈ (t.take k).tail, Continuation c
  broken : ∀ c, t[k]? = some c → ¬Continuation c

/-- Broken characters are decoded as the replacement character. -/
theorem decodeText_of_brokenAt {t : List Byte} {k : Nat} (h : BrokenAt t k) :
    decodeText t = (k, 0xFFFD) := by
  cases t with
  | nil => exact absurd h.le (Nat.not_le.mpr h.pos)
  | cons b rest =>
      obtain ⟨j, rfl⟩ := Nat.exists_eq_succ_of_ne_zero h.pos.ne'
      have hshort : j + 1 < announced b := h.announced b rfl
      have hle : j ≤ rest.length := Nat.le_of_succ_le_succ h.le
      have hcontinued : continued b rest = rest.take j := by
        have hsplit : rest.take (announced b - 1) =
            rest.take j ++ (rest.drop j).take (announced b - 1 - j) := by
          rw [← List.take_add, Nat.add_sub_cancel' (by omega)]
        rw [continued, hsplit, List.takeWhile_append_of_pos
          fun c hc => by simpa using h.continued c hc]
        cases hdrop : rest.drop j with
        | nil => simp
        | cons c tail =>
            have hc : ¬Continuation c := by
              refine h.broken c ?_
              rw [List.getElem?_cons_succ, ← List.head?_drop, hdrop, List.head?_cons]
            rw [Nat.sub_sub, Nat.add_comm 1, show announced b - (j + 1) =
              announced b - (j + 1) - 1 + 1 by omega, List.take_succ_cons,
              List.takeWhile_cons_of_neg (by simpa using hc), List.append_nil]
      have hlength : (rest.take j).length = j := List.length_take_of_le hle
      rw [decodeText, hcontinued, hlength]
      exact Prod.ext rfl (if_neg fun hall => absurd hall.2 hshort.ne)

/-- The bytes that {lit}`u8@+?` goes past -/
def consumed (order : ByteOrder) (mem : Chars w) (s : Str w) : Nat :=
  (s.len - (u8FetchPlusQuery order mem s).1.len).toNat

/-- One step of decoding is safe and goes on. -/
structure SafeStep (order : ByteOrder) (mem : Chars w) (s : Str w) : Prop where
  rest : (u8FetchPlusQuery order mem s).1 = s.slashString (BitVec.ofNat w (consumed order mem s))
  progress : 1 ≤ consumed order mem s
  bounded : consumed order mem s ≤ min 4 s.len.toNat
  value : (u8FetchPlusQuery order mem s).2.toNat ≤ lastCodePoint
  broken : ∀ k, BrokenAt (s.chars mem) k →
    consumed order mem s = k ∧ (u8FetchPlusQuery order mem s).2 = 0xFFFD#w
  unread : ∀ mem' : Chars w, s.chars mem' = s.chars mem →
    u8FetchPlusQuery order mem' s = u8FetchPlusQuery order mem s

/-- Decoding character by character ends exactly at the end of a text. -/
def EndsExactly (order : ByteOrder) (mem : Chars w) (s : Str w) : Prop :=
  ∃ k ≤ s.len.toNat,
    (fun s => (u8FetchPlusQuery order mem s).1)^[k] s = ⟨s.addr + s.len, 0#w⟩ ∧
      ∀ j < k, ((fun s => (u8FetchPlusQuery order mem s).1)^[j] s).len ≠ 0#w

/-- The length of what is decoded -/
theorem consumed_eq (order : ByteOrder) (mem : Chars w) {s : Str w} (h : s.len ≠ 0#w) :
    consumed order mem s = (decodeText (s.chars mem)).1 := by
  obtain ⟨-, hle, -⟩ := decodeText_length ((Str.len_ne_zero_iff mem s).mp h)
  rw [Str.length_chars] at hle
  have hlen := Str.toNat_len_slashString s hle
  rw [consumed, u8FetchPlusQuery_eq,
    BitVec.toNat_sub_of_le (BitVec.le_def.mpr (hlen.trans_le (Nat.sub_le _ _))), hlen]
  omega

/-- Each step goes on within the buffer. -/
theorem safeStep (order : ByteOrder) (mem : Chars w) {s : Str w} (h : s.len ≠ 0#w) :
    SafeStep order mem s := by
  have hconsumed := consumed_eq order mem h
  obtain ⟨hpos, hle, hfour⟩ := decodeText_length ((Str.len_ne_zero_iff mem s).mp h)
  rw [Str.length_chars] at hle
  refine ⟨?_, ?_, ?_, ?_, fun k hk => ?_, fun mem' hmem => ?_⟩
  · rw [hconsumed, u8FetchPlusQuery_eq]
  · rwa [hconsumed]
  · rw [hconsumed]
    exact Nat.le_min.mpr ⟨hfour, hle⟩
  · have hvalue := decodeText_le (s.chars mem)
    rw [u8FetchPlusQuery_eq, BitVec.toNat_ofNat]
    exact (Nat.mod_le _ _).trans hvalue
  · rw [hconsumed, u8FetchPlusQuery_eq, decodeText_of_brokenAt hk]
    exact ⟨rfl, rfl⟩
  · rw [u8FetchPlusQuery_eq, u8FetchPlusQuery_eq, hmem]

/-- Decoding character by character ends exactly at the end of a text. -/
theorem endsExactly (order : ByteOrder) (mem : Chars w) (s : Str w) : EndsExactly order mem s := by
  induction hn : s.len.toNat using Nat.strong_induction_on generalizing s with
  | _ n ih =>
      subst hn
      by_cases hempty : s.len = 0#w
      · refine ⟨0, Nat.zero_le _, ?_, fun j hj => absurd hj (Nat.not_lt_zero j)⟩
        obtain ⟨addr, len⟩ := s
        obtain rfl : len = 0#w := hempty
        rw [Function.iterate_zero_apply, BitVec.add_zero]
      · have hstep := safeStep order mem hempty
        have hprogress := hstep.progress
        have hbounded := hstep.bounded
        have hlen := @Str.toNat_len_slashString _ s (consumed order mem s) (by omega)
        rw [← hstep.rest] at hlen
        obtain ⟨k, hk, hend, hbefore⟩ :=
          ih (u8FetchPlusQuery order mem s).1.len.toNat (by omega) _ rfl
        refine ⟨k + 1, by omega, ?_, fun j hj => ?_⟩
        · rw [Function.iterate_succ_apply, hend, hstep.rest, Str.slashString, BitVec.add_assoc,
            BitVec.add_comm (BitVec.ofNat w _), BitVec.sub_add_cancel]
        · cases j with
          | zero => exact hempty
          | succ j =>
              rw [Function.iterate_succ_apply]
              exact hbefore j (by omega)

/-- Decoding is safe and goes on, for all texts and both byte orders. -/
theorem decoding_safe (order : ByteOrder) (mem : Chars w) (s : Str w) :
    (s.len ≠ 0#w → SafeStep order mem s) ∧ EndsExactly order mem s :=
  ⟨safeStep order mem, endsExactly order mem s⟩

end Characters
end Gforth
