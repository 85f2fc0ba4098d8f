import Gforth.Lib.Bytes
import Gforth.Lib.Memory

/-!
# Texts

A text is given by its address and its length.  Lengths are those of texts in memory, without
overflow.

Main results:

- Theorem {lit}`scan_cases`: the first occurrence of a character.
-/

namespace Gforth
namespace Texts

open Lib

/-- A text in memory, {lit}`c-addr u` -/
structure Text where
  addr : BitVec 64
  len : Nat
deriving DecidableEq

/-- {lit}`/string` -/
def Text.slashString (t : Text) (n : Nat) : Text :=
  ⟨t.addr + BitVec.ofNat 64 n, t.len - n⟩

/-- The characters of a text -/
def Text.chars (mem : Memory 64 Byte) (t : Text) : List Byte :=
  mem.text t.addr t.len

/-- {lit}`scan` -/
def scan (mem : Memory 64 Byte) (char : Byte) : BitVec 64 → Nat → Text
  | a, 0 => ⟨a, 0⟩
  | a, n + 1 => if mem a ≠ char then scan mem char (a + 1#64) n else ⟨a, n + 1⟩

variable {mem : Memory 64 Byte}

/-- {lit}`scan` stops at the first such character or at the end. -/
theorem scan_cases (mem : Memory 64 Byte) (char a n) :
    (∀ k < n, mem (a + BitVec.ofNat 64 k) ≠ char) ∧
      scan mem char a n = ⟨a + BitVec.ofNat 64 n, 0⟩ ∨
    ∃ k < n, (∀ i < k, mem (a + BitVec.ofNat 64 i) ≠ char) ∧
      mem (a + BitVec.ofNat 64 k) = char ∧
      scan mem char a n = ⟨a + BitVec.ofNat 64 k, n - k⟩ := by
  induction n generalizing a with
  | zero => exact Or.inl ⟨by simp, by simp [scan]⟩
  | succ n ih =>
      rw [scan]
      by_cases hchar : mem a = char
      · rw [if_neg (by simpa using hchar)]
        exact Or.inr ⟨0, by omega, by simp, by simpa using hchar, by simp⟩
      · rw [if_pos hchar]
        have hhead : mem (a + BitVec.ofNat 64 0) ≠ char := by simpa using hchar
        rcases ih (a + 1#64) with ⟨hnone, heq⟩ | ⟨k, hk, hnone, hfound, heq⟩
        · refine Or.inl ⟨?_, by rw [heq, Memory.add_one_ofNat]⟩
          rintro (_ | k) hk
          · exact hhead
          · rw [← Memory.add_one_ofNat]
            exact hnone k (by omega)
        · refine Or.inr ⟨k + 1, by omega, ?_, by rwa [← Memory.add_one_ofNat], ?_⟩
          · rintro (_ | i) hi
            · exact hhead
            · rw [← Memory.add_one_ofNat]
              exact hnone i (by omega)
          · rw [heq, Memory.add_one_ofNat, Nat.add_sub_add_right]

/-- A text with a character in it -/
theorem text_found {a : BitVec 64} {char : Byte} {k n : Nat} (h : k < n)
    (hfound : mem (a + BitVec.ofNat 64 k) = char) :
    mem.text a n = mem.text a k ++ char :: mem.text (a + BitVec.ofNat 64 (k + 1)) (n - k - 1) := by
  have hsub : n = k + (n - k - 1 + 1) := by omega
  rw [hsub, Memory.text_add, Memory.text_succ, hfound, BitVec.ofNat_add, ← BitVec.add_assoc, ← hsub]

@[simp]
theorem chars_of_len_eq_zero {t : Text} (h : t.len = 0) : t.chars mem = [] := by
  rw [Text.chars, h, Memory.text_zero]

theorem chars_eq_nil {t : Text} : t.chars mem = [] ↔ t.len = 0 := by
  rw [Text.chars, ← List.length_eq_zero_iff, Memory.length_text]

theorem chars_of_len_ne_zero {t : Text} (h : t.len ≠ 0) :
    t.chars mem = mem t.addr :: (t.slashString 1).chars mem := by
  obtain ⟨n, hn⟩ := Nat.exists_eq_succ_of_ne_zero h
  rw [Text.chars, Text.chars, Text.slashString, hn, Memory.text_succ, Nat.succ_sub_one]

end Texts
end Gforth
