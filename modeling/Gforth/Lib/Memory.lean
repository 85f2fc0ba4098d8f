import Mathlib.Data.List.Basic
import Mathlib.Tactic

/-!
# Texts in memory

A memory has a value at every address, and addresses are words of a fixed width that wrap around.
A text is given by its address and its length.

Main results:

- Theorem {lit}`text_add`: a text in two parts.
- Theorem {lit}`mem_text`: the values of a text are those at its addresses.
- Theorem {lit}`text_store`: a text that was stored, and what is behind it.
-/

namespace Gforth
namespace Lib

/-- A value at every address -/
abbrev Memory (w : Nat) (α : Type) : Type :=
  BitVec w → α

namespace Memory

variable {w : Nat} {α : Type} (mem : Memory w α)

/-- The values from an address on -/
def text : BitVec w → Nat → List α
  | _, 0 => []
  | a, n + 1 => mem a :: text (a + 1#w) n

@[simp]
theorem text_zero (a : BitVec w) : text mem a 0 = [] :=
  rfl

theorem text_succ (a : BitVec w) (n : Nat) :
    text mem a (n + 1) = mem a :: text mem (a + 1#w) n :=
  rfl

@[simp]
theorem length_text (a : BitVec w) (n : Nat) : (text mem a n).length = n := by
  induction n generalizing a with
  | zero => rfl
  | succ n ih => rw [text_succ, List.length_cons, ih]

theorem add_one_ofNat (a : BitVec w) (n : Nat) :
    a + 1#w + BitVec.ofNat w n = a + BitVec.ofNat w (n + 1) := by
  rw [BitVec.add_assoc, ← BitVec.ofNat_add, Nat.add_comm]

theorem add_ofNat_ofNat (a : BitVec w) (m n : Nat) :
    a + BitVec.ofNat w m + BitVec.ofNat w n = a + BitVec.ofNat w (m + n) := by
  rw [BitVec.add_assoc, ← BitVec.ofNat_add]

/-- A text is split at any place. -/
theorem text_add (a : BitVec w) (m n : Nat) :
    text mem a (m + n) = text mem a m ++ text mem (a + BitVec.ofNat w m) n := by
  induction m generalizing a with
  | zero => simp
  | succ m ih =>
      rw [Nat.succ_add, text_succ, ih, text_succ, List.cons_append, add_one_ofNat]

/-- The end of a text in memory -/
theorem drop_text (a : BitVec w) {k n : Nat} (h : k ≤ n) :
    (text mem a n).drop k = text mem (a + BitVec.ofNat w k) (n - k) := by
  obtain ⟨m, rfl⟩ := Nat.exists_eq_add_of_le h
  rw [text_add, List.drop_left' (length_text mem a k), Nat.add_sub_cancel_left]

/-- The start of a text in memory -/
theorem take_text (a : BitVec w) {k n : Nat} (h : k ≤ n) :
    (text mem a n).take k = text mem a k := by
  obtain ⟨m, rfl⟩ := Nat.exists_eq_add_of_le h
  rw [text_add, List.take_left' (length_text mem a k)]

/-- Each character is the byte at its address. -/
theorem getElem_text (a : BitVec w) {n i : Nat} (h : i < (text mem a n).length) :
    (text mem a n)[i] = mem (a + BitVec.ofNat w i) := by
  induction n generalizing a i with
  | zero => cases h
  | succ n ih =>
      cases i with
      | zero => simp [text_succ]
      | succ i =>
          simp only [text_succ, List.getElem_cons_succ]
          rw [ih, add_one_ofNat]

variable {a : BitVec w} {mem' : Memory w α} {t : List α}

/-- The values of a text are those at its addresses. -/
theorem mem_text {n : Nat} {c : α} :
    c ∈ text mem a n ↔ ∃ i < n, mem (a + BitVec.ofNat w i) = c := by
  induction n generalizing a with
  | zero => simp
  | succ n ih =>
      rw [text_succ, List.mem_cons, ih]
      constructor
      · rintro (rfl | ⟨i, hi, rfl⟩)
        · exact ⟨0, by omega, by simp⟩
        · exact ⟨i + 1, by omega, by rw [add_one_ofNat]⟩
      · rintro ⟨i, hi, rfl⟩
        cases i with
        | zero => exact .inl (by simp)
        | succ i => exact .inr ⟨i, by omega, by rw [add_one_ofNat]⟩

/-- Texts are equal if memory is the same where they are. -/
theorem text_congr {n : Nat}
    (h : ∀ i < n, mem (a + BitVec.ofNat w i) = mem' (a + BitVec.ofNat w i)) :
    text mem a n = text mem' a n := by
  induction n generalizing a with
  | zero => rfl
  | succ n ih =>
      rw [text_succ, text_succ]
      have hhead := h 0 (by omega)
      rw [BitVec.add_zero] at hhead
      rw [hhead, ih fun i hi => ?_]
      rw [add_one_ofNat]
      exact h (i + 1) (by omega)

/-- Equal texts have equal bytes. -/
theorem eq_of_text_eq {i n : Nat} (h : text mem a n = text mem' a n) (hi : i < n) :
    mem (a + BitVec.ofNat w i) = mem' (a + BitVec.ofNat w i) := by
  have hlt : i < (text mem a n).length := by rwa [length_text]
  have hlt' : i < (text mem' a n).length := by rwa [length_text]
  rw [← getElem_text mem a hlt, ← getElem_text mem' a hlt']
  exact getElem_congr_coll h

/-! ## Stores -/

/-- Values are stored from an address on. -/
def store : BitVec w → List α → Memory w α
  | _, [] => mem
  | a, x :: t => Function.update (store (a + 1#w) t) a x

@[simp]
theorem store_nil (a : BitVec w) : store mem a [] = mem :=
  rfl

/-- A text can be stored in two parts. -/
theorem store_append (a : BitVec w) (s t : List α) :
    store mem a (s ++ t) = store (store mem (a + BitVec.ofNat w s.length) t) a s := by
  induction s generalizing a with
  | nil => simp
  | cons x s ih =>
      rw [List.cons_append, store, ih, store, add_one_ofNat, List.length_cons]

/-- A store does not change what it does not reach. -/
theorem store_of_ne {a b : BitVec w} (h : ∀ i < t.length, b ≠ a + BitVec.ofNat w i) :
    store mem a t b = mem b := by
  induction t generalizing a with
  | nil => rfl
  | cons x t ih =>
      rw [store, Function.update_of_ne, ih]
      · intro i hi
        rw [add_one_ofNat]
        exact h (i + 1) (Nat.succ_lt_succ hi)
      · have := h 0 (Nat.succ_pos _)
        rwa [BitVec.add_zero] at this

/-- Storing does not depend on the other bytes. -/
theorem store_apply_congr {a b : BitVec w} (t : List α) (h : mem b = mem' b) :
    store mem a t b = store mem' a t b := by
  induction t generalizing a with
  | nil => exact h
  | cons x t ih =>
      rw [store, store, Function.update_apply, Function.update_apply, ih]

/-- Different distances from an address, short of the whole memory -/
theorem add_ofNat_ne {i j : Nat} (hi : i < 2 ^ w) (hj : j < 2 ^ w) (h : i ≠ j) :
    a + BitVec.ofNat w i ≠ a + BitVec.ofNat w j := by
  intro heq
  have hval := congrArg BitVec.toNat ((BitVec.add_right_inj _).mp heq)
  rw [BitVec.toNat_ofNat, BitVec.toNat_ofNat, Nat.mod_eq_of_lt hi, Nat.mod_eq_of_lt hj] at hval
  exact h hval

/-- The values can as well be stored upwards. -/
theorem store_update {x : α} (h : t.length < 2 ^ w) :
    store (Function.update mem a x) (a + 1#w) t = store mem a (x :: t) := by
  funext b
  rw [store]
  by_cases hb : b = a
  · subst hb
    rw [Function.update_self, store_of_ne, Function.update_self]
    intro i hi
    have := add_ofNat_ne (a := b) (i := 0) (j := i + 1) (by omega) (by omega) (by omega)
    rwa [BitVec.add_zero, ← add_one_ofNat] at this
  · rw [Function.update_of_ne hb]
    exact store_apply_congr _ t (Function.update_of_ne hb _ _)

/-- A text that was stored, and what is behind it -/
theorem text_store {n : Nat} (h : t.length + n ≤ 2 ^ w) :
    text (store mem a t) a (t.length + n) = t ++ text mem (a + BitVec.ofNat w t.length) n := by
  induction t generalizing a with
  | nil => simp
  | cons x t ih =>
      rw [List.length_cons] at h
      have hrest : text (store mem a (x :: t)) (a + 1#w) (t.length + n) =
          text (store mem (a + 1#w) t) (a + 1#w) (t.length + n) := by
        refine text_congr _ fun i hi => ?_
        rw [store, Function.update_of_ne]
        rw [add_one_ofNat]
        have := add_ofNat_ne (a := a) (i := i + 1) (j := 0) (by omega) (by omega) (by omega)
        rwa [BitVec.add_zero] at this
      rw [List.length_cons, Nat.succ_add, text_succ, hrest, ih (by omega), add_one_ofNat, store,
        Function.update_self]
      rfl

theorem text_store_self (h : t.length ≤ 2 ^ w) : text (store mem a t) a t.length = t := by
  have hstore := text_store mem (a := a) (t := t) (n := 0) h
  rwa [Nat.add_zero, text_zero, List.append_nil] at hstore

end Memory
end Lib
end Gforth
