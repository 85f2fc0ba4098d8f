import Mathlib.Data.List.Basic
import Mathlib.Tactic

/-!
# Bytes, cells and bit vectors

Cells of 64 bits in little-endian byte order, and bit vectors in which the first bit
of a byte is its most significant one.

Main results:

- Theorem {lit}`loadCell_storeCell`: a cell survives a store and a load.
- Theorem {lit}`bitAt_setBit`: setting a bit changes that bit only.
- Theorems {lit}`xor_two_pow_of_lt` and {lit}`xor_two_pow_of_ge`: flipping the highest bit.
-/

namespace Gforth
namespace Lib

/-- A byte. -/
abbrev Byte := BitVec 8

/-! ## Cells -/

/-- A cell of a little-endian machine, loaded from at most eight bytes; missing bytes
are 0. -/
def loadCell : List Byte → BitVec 64
  | [] => 0#64
  | c :: s => (loadCell s) <<< 8 ||| c.setWidth 64

/-- The bytes of a cell. -/
def storeCell (c : BitVec 64) : List Byte :=
  (List.range 8).map fun k => c.extractLsb' (8 * k) 8

@[simp]
theorem length_storeCell (c : BitVec 64) : (storeCell c).length = 8 := by
  simp [storeCell]

/-- The bits of a cell are those of its bytes. -/
theorem loadCell_getLsbD (s : List Byte) :
    ∀ {i : Nat}, i < 64 → (loadCell s).getLsbD i = (s.getD (i / 8) 0#8).getLsbD (i % 8) := by
  induction s with
  | nil => simp [loadCell]
  | cons c s ih =>
      intro i hi
      rw [loadCell, BitVec.getLsbD_or, BitVec.getLsbD_shiftLeft, BitVec.getLsbD_setWidth]
      by_cases hlow : i < 8
      · rw [Nat.div_eq_of_lt hlow, Nat.mod_eq_of_lt hlow]
        simp [hlow, hi]
      · have hdiv : i / 8 = (i - 8) / 8 + 1 := by omega
        have hmod : i % 8 = (i - 8) % 8 := by omega
        rw [hdiv, hmod, List.getD_cons_succ, ← ih (by omega),
          BitVec.getLsbD_of_ge c i (by omega)]
        simp [hlow, hi]

/-- A stored cell is loaded as it was. -/
theorem loadCell_storeCell (c : BitVec 64) : loadCell (storeCell c) = c := by
  refine BitVec.eq_of_getLsbD_eq fun i hi => ?_
  have hk : i / 8 < 8 := by omega
  have hbyte : (storeCell c).getD (i / 8) 0#8 = c.extractLsb' (8 * (i / 8)) 8 := by
    simp [storeCell, hk]
  rw [loadCell_getLsbD _ hi, hbyte, BitVec.getLsbD_extractLsb']
  have hsum : 8 * (i / 8) + i % 8 = i := by omega
  simp [hsum, Nat.mod_lt]

/-- Zero bytes are loaded as 0. -/
theorem loadCell_eq_zero {s : List Byte} (h : ∀ c ∈ s, c = 0#8) : loadCell s = 0#64 := by
  induction s with
  | nil => rfl
  | cons c s ih =>
      obtain rfl := h c List.mem_cons_self
      rw [loadCell, ih fun c' hc' => h c' (List.mem_cons_of_mem _ hc')]
      rfl

/-- Several cells. -/
def loadCells : Nat → List Byte → List (BitVec 64)
  | 0, _ => []
  | n + 1, s => loadCell (s.take 8) :: loadCells n (s.drop 8)

/-- The bytes of several cells. -/
def storeCells (cs : List (BitVec 64)) : List Byte :=
  cs.flatMap storeCell

@[simp]
theorem length_loadCells (n : Nat) (s : List Byte) : (loadCells n s).length = n := by
  induction n generalizing s with
  | zero => rfl
  | succ n ih => rw [loadCells, List.length_cons, ih]

@[simp]
theorem length_storeCells (cs : List (BitVec 64)) : (storeCells cs).length = 8 * cs.length := by
  induction cs with
  | nil => rfl
  | cons c cs ih =>
      rw [storeCells, List.flatMap_cons, List.length_append, length_storeCell, ← storeCells, ih,
        List.length_cons]
      omega

/-- Bytes behind the cells do not matter. -/
theorem loadCells_append {n : Nat} {s : List Byte} (t : List Byte) (h : 8 * n ≤ s.length) :
    loadCells n (s ++ t) = loadCells n s := by
  induction n generalizing s with
  | zero => rfl
  | succ n ih =>
      rw [loadCells, loadCells, List.take_append_of_le_length (by omega),
        List.drop_append_of_le_length (by omega), ih (by simp; omega)]

/-- Each cell has its own bytes. -/
theorem loadCells_getD {n i : Nat} (s : List Byte) (h : i < n) :
    (loadCells n s).getD i 0#64 = loadCell ((s.drop (8 * i)).take 8) := by
  induction n generalizing s i with
  | zero => omega
  | succ n ih =>
      cases i with
      | zero => simp [loadCells]
      | succ i =>
          rw [loadCells, List.getD_cons_succ, ih _ (by omega), List.drop_drop, Nat.mul_succ,
            Nat.add_comm 8]

/-- The bytes of one of the stored cells -/
theorem storeCells_drop_take (cs : List (BitVec 64)) {i : Nat} (h : i < cs.length) :
    ((storeCells cs).drop (8 * i)).take 8 = storeCell (cs.getD i 0#64) := by
  induction cs generalizing i with
  | nil => simp at h
  | cons c cs ih =>
      rw [storeCells, List.flatMap_cons, ← storeCells]
      cases i with
      | zero =>
          rw [Nat.mul_zero, List.drop_zero, List.take_append_of_le_length (by simp),
            List.take_of_length_le (by simp), List.getD_cons_zero]
      | succ i =>
          have hlen : 8 * (i + 1) = (storeCell c).length + 8 * i := by
            rw [length_storeCell]
            omega
          rw [hlen, List.drop_length_add_append, ih (by simpa using h), List.getD_cons_succ]

/-! ## Bit vectors -/

/-- The mask of bit {lit}`u` in its byte. -/
def bitMask (u : Nat) : Byte :=
  1#8 <<< (7 - u % 8)

/-- Bit {lit}`u` of a bit vector. -/
def bitAt (bits : List Byte) (u : Nat) : Bool :=
  bits.getD (u / 8) 0#8 &&& bitMask u ≠ 0#8

/-- Set bit {lit}`u` of a bit vector. -/
def setBit (u : Nat) (bits : List Byte) : List Byte :=
  bits.modify (u / 8) (· ||| bitMask u)

/-- Clear bit {lit}`u` of a bit vector. -/
def clearBit (u : Nat) (bits : List Byte) : List Byte :=
  bits.modify (u / 8) (· &&& ~~~bitMask u)

@[simp]
theorem length_setBit (u : Nat) (bits : List Byte) : (setBit u bits).length = bits.length := by
  simp [setBit]

/-- A mask picks its bit. -/
theorem and_bitMask_ne_zero_iff (b : Byte) (u : Nat) :
    b &&& bitMask u ≠ 0#8 ↔ b.getLsbD (7 - u % 8) = true := by
  have hpow : bitMask u = BitVec.twoPow 8 (7 - u % 8) := rfl
  have hne : BitVec.twoPow 8 (7 - u % 8) ≠ 0#8 := by
    have h : ∀ j : Fin 8, BitVec.twoPow 8 j ≠ 0#8 := by decide
    exact h ⟨7 - u % 8, by omega⟩
  rw [hpow, BitVec.and_twoPow]
  split
  · rename_i hbit
    simp [hbit, hne]
  · rename_i hbit
    simp [hbit]

/-- Masks of different bits do not overlap. -/
theorem or_bitMask_and_bitMask (b : Byte) (u v : Nat) :
    (b ||| bitMask u) &&& bitMask v ≠ 0#8 ↔ v % 8 = u % 8 ∨ b &&& bitMask v ≠ 0#8 := by
  have hpow : bitMask u = BitVec.twoPow 8 (7 - u % 8) := rfl
  have hiff : 7 - u % 8 = 7 - v % 8 ↔ v % 8 = u % 8 := by omega
  rw [and_bitMask_ne_zero_iff, and_bitMask_ne_zero_iff, BitVec.getLsbD_or, hpow,
    BitVec.getLsbD_twoPow, Bool.or_eq_true, Bool.and_eq_true, decide_eq_true_eq,
    decide_eq_true_eq, hiff, or_comm]
  exact or_congr_left (and_iff_right (by omega))

/-- Setting a bit changes that bit only. -/
theorem bitAt_setBit {bits : List Byte} {u : Nat} (hu : u < 8 * bits.length) (v : Nat) :
    bitAt (setBit u bits) v = (decide (v = u) || bitAt bits v) := by
  have hlt : u / 8 < bits.length := by omega
  unfold bitAt setBit
  rw [← Bool.decide_or, decide_eq_decide]
  by_cases hbyte : v / 8 = u / 8
  · have hget : (bits.modify (u / 8) (· ||| bitMask u)).getD (v / 8) 0#8 =
        bits.getD (v / 8) 0#8 ||| bitMask u := by
      simp [hbyte, hlt]
    have hmod : v % 8 = u % 8 ↔ v = u := by omega
    rw [hget, or_bitMask_and_bitMask, hmod]
  · have hget : (bits.modify (u / 8) (· ||| bitMask u)).getD (v / 8) 0#8 =
        bits.getD (v / 8) 0#8 := by
      simp [Ne.symm hbyte]
    have hne : v ≠ u := fun heq => hbyte (heq ▸ rfl)
    rw [hget]
    simp [hne]

/-- Changing a byte in places that the mask of a bit does not pick leaves the bit
alone. -/
theorem bitAt_modify {bits : List Byte} {k v : Nat} {f : Byte → Byte}
    (hf : ∀ b, v / 8 = k → (f b &&& bitMask v ≠ 0#8 ↔ b &&& bitMask v ≠ 0#8)) :
    bitAt (bits.modify k f) v = bitAt bits v := by
  unfold bitAt
  rw [decide_eq_decide]
  by_cases hk : v / 8 = k
  · by_cases hlt : k < bits.length
    · have hget : (bits.modify k f).getD (v / 8) 0#8 = f (bits.getD (v / 8) 0#8) := by
        simp [hk, hlt]
      rw [hget]
      exact hf _ hk
    · simp [hk, hlt]
  · simp [Ne.symm hk]

/-- Clearing a bit leaves the others as they are. -/
theorem bitAt_clearBit_of_ne (bits : List Byte) {u v : Nat} (h : v ≠ u) :
    bitAt (clearBit u bits) v = bitAt bits v := by
  refine bitAt_modify fun b hbyte => ?_
  have hpow : bitMask u = BitVec.twoPow 8 (7 - u % 8) := rfl
  have hne : 7 - u % 8 ≠ 7 - v % 8 := by omega
  have hlt : 7 - v % 8 < 8 := by omega
  rw [and_bitMask_ne_zero_iff, and_bitMask_ne_zero_iff, BitVec.getLsbD_and, BitVec.getLsbD_not,
    hpow, BitVec.getLsbD_twoPow]
  simp [hne, hlt]

/-- Setting a bit leaves the others as they are. -/
theorem bitAt_setBit_of_ne (bits : List Byte) {u v : Nat} (h : v ≠ u) :
    bitAt (setBit u bits) v = bitAt bits v := by
  refine bitAt_modify fun b hbyte => ?_
  rw [or_bitMask_and_bitMask]
  exact or_iff_right (by omega)

/-- No bit of an erased bit vector is set. -/
theorem bitAt_replicate (n u : Nat) : bitAt (List.replicate n 0#8) u = false := by
  unfold bitAt
  by_cases h : u / 8 < n
  · simp [h]
  · simp [h]

/-! ## Single bits of numbers -/

/-- Flipping a bit above a number adds it. -/
theorem xor_two_pow_of_lt {n k : Nat} (h : n < 2 ^ k) : n ^^^ 2 ^ k = n + 2 ^ k := by
  have hsum := Nat.div_add_mod (n ^^^ 2 ^ k) (2 ^ k)
  rw [Nat.xor_div_two_pow, Nat.xor_mod_two_pow, Nat.div_self (Nat.two_pow_pos k), Nat.mod_self,
    Nat.xor_zero, Nat.div_eq_of_lt h, Nat.mod_eq_of_lt h, Nat.zero_xor, Nat.mul_one] at hsum
  rw [← hsum, Nat.add_comm]

/-- Flipping the highest bit of a number subtracts it. -/
theorem xor_two_pow_of_ge {n k : Nat} (hge : 2 ^ k ≤ n) (hlt : n < 2 * 2 ^ k) :
    n ^^^ 2 ^ k = n - 2 ^ k := by
  have hback := xor_two_pow_of_lt (n := n - 2 ^ k) (k := k) (by omega)
  rw [Nat.sub_add_cancel hge] at hback
  calc n ^^^ 2 ^ k = (n - 2 ^ k ^^^ 2 ^ k) ^^^ 2 ^ k := by rw [hback]
    _ = n - 2 ^ k := by rw [Nat.xor_assoc, Nat.xor_self, Nat.xor_zero]

end Lib
end Gforth
