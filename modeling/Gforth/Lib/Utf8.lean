import Gforth.Lib.Bytes

/-!
# UTF-8

A code point is encoded by a first byte, which tells the length, and up to three continuation bytes
with six bits each.  Every number below 2 ^ 21 has an encoding here, the surrogates included.

Main results:

- Theorem {lit}`encode_eq_cons`: where an encoding starts, and that it only continues behind.
- Theorem {lit}`encodeAll_append`: the encoding of code points one after another.
-/

namespace Gforth
namespace Lib
namespace Utf8

/-! ## Bytes -/

/-- A byte that does not start a character -/
def Continuation (b : Byte) : Prop :=
  b &&& 0xC0#8 = 0x80#8

instance (b : Byte) : Decidable (Continuation b) :=
  inferInstanceAs (Decidable (_ = _))

theorem continuation_iff {b : Byte} : Continuation b ↔ 0x80 ≤ b.toNat ∧ b.toNat < 0xC0 := by
  have h : ∀ b : Byte, Continuation b ↔ 0x80 ≤ b.toNat ∧ b.toNat < 0xC0 := by decide
  exact h b

/-- The continuation byte with the last six bits of a number -/
def continuation (n : Nat) : Byte :=
  BitVec.ofNat 8 (0x80 + n % 0x40)

theorem toNat_continuation (n : Nat) : (continuation n).toNat = 0x80 + n % 0x40 := by
  have := Nat.mod_lt n (show 0 < 0x40 by decide)
  rw [continuation, BitVec.toNat_ofNat, Nat.mod_eq_of_lt (by omega)]

theorem continuation_continuation (n : Nat) : Continuation (continuation n) := by
  have := Nat.mod_lt n (show 0 < 0x40 by decide)
  rw [continuation_iff, toNat_continuation]
  omega

/-- A first byte, with the mark of its length -/
def lead (mark n : Nat) : Byte :=
  BitVec.ofNat 8 (mark + n)

theorem toNat_lead {mark n : Nat} (h : mark + n < 0x100) : (lead mark n).toNat = mark + n := by
  rw [lead, BitVec.toNat_ofNat, Nat.mod_eq_of_lt h]

/-! ## Code points -/

/-- The greatest code point -/
def lastCodePoint : Nat :=
  0x10FFFF

/-- The length of an encoding -/
def size (n : Nat) : Nat :=
  if n < 0x80 then 1 else if n < 0x800 then 2 else if n < 0x10000 then 3 else 4

/-- The encoding of a code point -/
def encode (n : Nat) : List Byte :=
  if n < 0x80 then [lead 0 n]
  else if n < 0x800 then [lead 0xC0 (n / 0x40), continuation n]
  else if n < 0x10000 then [lead 0xE0 (n / 0x1000), continuation (n / 0x40), continuation n]
  else
    [lead 0xF0 (n / 0x40000), continuation (n / 0x1000), continuation (n / 0x40), continuation n]

@[simp]
theorem length_encode (n : Nat) : (encode n).length = size n := by
  rw [encode, size]
  split_ifs <;> rfl

theorem size_pos (n : Nat) : 0 < size n := by
  rw [size]
  split_ifs <;> decide

theorem size_le (n : Nat) : size n ≤ 4 := by
  rw [size]
  split_ifs <;> decide

/-- Only the first byte of an encoding starts a character. -/
theorem encode_eq_cons {n : Nat} (h : n ≤ lastCodePoint) :
    ∃ b cs, encode n = b :: cs ∧ ¬Continuation b ∧ ∀ c ∈ cs, Continuation c := by
  rw [lastCodePoint] at h
  rw [encode]
  split_ifs
  · refine ⟨_, _, rfl, ?_, by simp⟩
    rw [continuation_iff, toNat_lead (by omega)]
    omega
  · refine ⟨_, _, rfl, ?_, by simp [continuation_continuation]⟩
    rw [continuation_iff, toNat_lead (by omega)]
    omega
  · refine ⟨_, _, rfl, ?_, by simp [continuation_continuation]⟩
    rw [continuation_iff, toNat_lead (by omega)]
    omega
  · refine ⟨_, _, rfl, ?_, by simp [continuation_continuation]⟩
    rw [continuation_iff, toNat_lead (by omega)]
    omega

/-- Above the ASCII characters no byte looks like one of them. -/
theorem le_toNat_of_mem_encode {n : Nat} (hn : 0x80 ≤ n) (h : n ≤ lastCodePoint) {b : Byte}
    (hb : b ∈ encode n) : 0x80 ≤ b.toNat := by
  have hcontinuation : ∀ m, 0x80 ≤ (continuation m).toNat := fun m => by
    rw [toNat_continuation]
    exact Nat.le_add_right _ _
  have hlead : ∀ {mark m : Nat}, 0x80 ≤ mark → mark + m < 0x100 → 0x80 ≤ (lead mark m).toNat := by
    intro mark m hmark hlt
    rw [toNat_lead hlt]
    omega
  rw [lastCodePoint] at h
  rw [encode, if_neg (by omega)] at hb
  split_ifs at hb <;> simp only [List.mem_cons, List.not_mem_nil, or_false] at hb
  · rcases hb with rfl | rfl
    · exact hlead (by decide) (by omega)
    · exact hcontinuation _
  · rcases hb with rfl | rfl | rfl
    · exact hlead (by decide) (by omega)
    · exact hcontinuation _
    · exact hcontinuation _
  · rcases hb with rfl | rfl | rfl | rfl
    · exact hlead (by decide) (by omega)
    · exact hcontinuation _
    · exact hcontinuation _
    · exact hcontinuation _

/-! ## Texts -/

/-- The encoding of code points one after another -/
def encodeAll (ns : List Nat) : List Byte :=
  ns.flatMap encode

@[simp]
theorem encodeAll_nil : encodeAll [] = [] :=
  rfl

theorem encodeAll_cons (n : Nat) (ns : List Nat) : encodeAll (n :: ns) = encode n ++ encodeAll ns :=
  rfl

theorem encodeAll_append (ms ns : List Nat) : encodeAll (ms ++ ns) = encodeAll ms ++ encodeAll ns :=
  List.flatMap_append

end Utf8
end Lib
end Gforth
