import Gforth.Arith.LongLong

/-!
# Shifts and rotations

The shifts of double cells and the rotations, as the C code assembles them: with a native type for
double cells, or ({lit}`BUGGY_LL_SHIFT`) from shifts of the two cells.  A shift in C has no result
if its count is not less than the width of the operand.

Main results:

- Theorem {lit}`shifts_exact_iff`: the counts and operands for which each word is defined and right.
-/

namespace Gforth
namespace Arith
namespace Shifts

open Lib
open LongLong (DCell)

variable {v w : Nat}

/-! ## The C code -/

/-- {lit}`CELL_BITS`: a cell has a power of two of bytes. -/
def cellBits (k : Nat) : Nat :=
  2 ^ k * 8

/-- {lit}`x << u` in C -/
def shiftLeft (x : BitVec v) (u : BitVec w) : Option (BitVec v) :=
  if u.toNat < v then some (x <<< u.toNat) else none

/-- {lit}`x >> u` in C for an unsigned operand -/
def shiftRight (x : BitVec v) (u : BitVec w) : Option (BitVec v) :=
  if u.toNat < v then some (x >>> u.toNat) else none

/-- {lit}`x >> u` in C for a signed operand -/
def arithShiftRight (x : BitVec v) (u : BitVec w) : Option (BitVec v) :=
  if u.toNat < v then some (x.sshiftRight u.toNat) else none

/-- {lit}`CELL_BITS` as an operand -/
def bits (w : Nat) : BitVec w :=
  BitVec.ofNat w w

namespace Buggy

/-- {lit}`dlshift` -/
def dlshift (ud1 : DCell w) (u : BitVec w) : Option (DCell w) :=
  if bits w ≤ u then do
    let u := u &&& (bits w - 1#w)
    let hi ← shiftLeft ud1.lo u
    some { hi := hi, lo := 0#w }
  else do
    let left ← shiftLeft ud1.hi u
    let right ← shiftRight ud1.lo (bits w - u)
    let lo ← shiftLeft ud1.lo u
    some { hi := left ||| right, lo := lo }

/-- {lit}`drshift` -/
def drshift (ud1 : DCell w) (u : BitVec w) : Option (DCell w) :=
  if bits w ≤ u then do
    let u := u &&& (bits w - 1#w)
    let lo ← shiftRight ud1.hi u
    some { hi := 0#w, lo := lo }
  else do
    let hi ← shiftRight ud1.hi u
    let right ← shiftRight ud1.lo u
    let left ← shiftLeft ud1.hi (bits w - u)
    some { hi := hi, lo := right ||| left }

/-- {lit}`darshift` -/
def darshift (d1 : DCell w) (u : BitVec w) : Option (DCell w) :=
  if bits w ≤ u then do
    let u := u &&& (bits w - 1#w)
    let lo ← arithShiftRight d1.hi u
    some { hi := 0#w, lo := lo }
  else do
    let hi ← arithShiftRight d1.hi u
    let right ← shiftRight d1.lo u
    let left ← shiftLeft d1.hi (bits w - u)
    some { hi := hi, lo := right ||| left }

/-- What {lit}`drol` computes for a cell of the result, {lit}`uh` or {lit}`ul`: {lit}`x` is the
cell it starts with and {lit}`y` the other one. -/
def rolHalf (x y u1 : BitVec w) : Option (BitVec w) :=
  if u1 ≠ 0#w then do
    let left ← shiftLeft x u1
    let right ← shiftRight y (bits w - u1)
    some (left ||| right)
  else some x

/-- {lit}`drol` -/
def drol (ud1 : DCell w) (u : BitVec w) : Option (DCell w) := do
  let u1 := u &&& (bits w - 1#w)
  let uh ← rolHalf ud1.hi ud1.lo u1
  let ul ← rolHalf ud1.lo ud1.hi u1
  if u &&& bits w ≠ 0#w then some { hi := ul, lo := uh } else some { hi := uh, lo := ul }

/-- What {lit}`dror` computes for a cell of the result -/
def rorHalf (x y u1 : BitVec w) : Option (BitVec w) :=
  if u1 ≠ 0#w then do
    let right ← shiftRight x u1
    let left ← shiftLeft y (bits w - u1)
    some (right ||| left)
  else some x

/-- {lit}`dror` -/
def dror (ud1 : DCell w) (u : BitVec w) : Option (DCell w) := do
  let u1 := u &&& (bits w - 1#w)
  let uh ← rorHalf ud1.hi ud1.lo u1
  let ul ← rorHalf ud1.lo ud1.hi u1
  if u &&& bits w ≠ 0#w then some { hi := ul, lo := uh } else some { hi := uh, lo := ul }

end Buggy

namespace Native

/-- {lit}`dlshift` -/
def dlshift (ud1 : BitVec (w + w)) (u : BitVec w) : Option (BitVec (w + w)) :=
  shiftLeft ud1 u

/-- {lit}`drshift` -/
def drshift (ud1 : BitVec (w + w)) (u : BitVec w) : Option (BitVec (w + w)) :=
  shiftRight ud1 u

/-- {lit}`darshift` -/
def darshift (d1 : BitVec (w + w)) (u : BitVec w) : Option (BitVec (w + w)) :=
  arithShiftRight d1 u

/-- {lit}`drol` -/
def drol (ud1 : BitVec (w + w)) (u : BitVec w) : Option (BitVec (w + w)) := do
  let u := u &&& (2#w * bits w - 1#w)
  let left ← shiftLeft ud1 u
  let right ← shiftRight ud1 (2#w * bits w - u)
  some (left ||| right)

/-- {lit}`dror` -/
def dror (ud1 : BitVec (w + w)) (u : BitVec w) : Option (BitVec (w + w)) := do
  let u := u &&& (2#w * bits w - 1#w)
  let right ← shiftRight ud1 u
  let left ← shiftLeft ud1 (2#w * bits w - u)
  some (right ||| left)

end Native

/-- {lit}`rol` -/
def rol (u1 u : BitVec w) : Option (BitVec w) := do
  let left ← shiftLeft u1 u
  let right ← shiftRight u1 (bits w - u)
  some (left ||| right)

/-- {lit}`ror` -/
def ror (u1 u : BitVec w) : Option (BitVec w) := do
  let right ← shiftRight u1 u
  let left ← shiftLeft u1 (bits w - u)
  some (right ||| left)

/-! ## Counts -/

section Counts

variable {k : Nat}

theorem cellBits_eq (k : Nat) : cellBits k = 2 ^ (k + 3) :=
  (Nat.pow_add 2 k 3).symm

theorem cellBits_pos (k : Nat) : 0 < cellBits k :=
  Nat.mul_pos (Nat.two_pow_pos k) (by decide)

/-- The number of bits of a double fits into a cell. -/
theorem double_cellBits_lt (k : Nat) : cellBits k + cellBits k < 2 ^ cellBits k := by
  have hlarge : 8 ≤ cellBits k := Nat.le_mul_of_pos_left 8 (Nat.two_pow_pos k)
  obtain ⟨n, hn⟩ := Nat.exists_eq_add_of_le' (show 2 ≤ cellBits k by omega)
  have hpow : n < 2 ^ n := Nat.lt_two_pow_self
  have hsplit : 2 ^ (n + 2) = 2 ^ n * 4 := Nat.pow_add 2 n 2
  rw [hn] at hlarge ⊢
  omega

theorem toNat_bits (w : Nat) : (bits w).toNat = w := by
  rw [bits, BitVec.toNat_ofNat, Nat.mod_eq_of_lt Nat.lt_two_pow_self]

theorem toNat_two_bits (k : Nat) :
    (2#(cellBits k) * bits (cellBits k)).toNat = cellBits k + cellBits k := by
  have hlarge : 8 ≤ cellBits k := Nat.le_mul_of_pos_left 8 (Nat.two_pow_pos k)
  have hlt := double_cellBits_lt k
  have htwo : (2#(cellBits k)).toNat = 2 := by
    rw [BitVec.toNat_ofNat, Nat.mod_eq_of_lt (by omega)]
  rw [BitVec.toNat_mul, toNat_bits, htwo, Nat.two_mul, Nat.mod_eq_of_lt hlt]

theorem toNat_sub_of_toNat_le {m u : BitVec w} (h : u.toNat ≤ m.toNat) :
    (m - u).toNat = m.toNat - u.toNat :=
  BitVec.toNat_sub_of_le (BitVec.le_def.mpr h)

variable {u : BitVec w}

theorem toNat_bits_sub (h : u.toNat ≤ w) : (bits w - u).toNat = w - u.toNat := by
  rw [toNat_sub_of_toNat_le (by rw [toNat_bits]; exact h), toNat_bits]

theorem toNat_and_bits (u : BitVec (cellBits k)) :
    (u &&& (bits (cellBits k) - 1#_)).toNat = u.toNat % cellBits k := by
  rw [toNat_and_sub_one ((toNat_bits _).trans (cellBits_eq k)), toNat_bits]

/-- Masking gives the remainder by the number of bits of a double. -/
theorem toNat_and_two_bits (u : BitVec (cellBits k)) :
    (u &&& (2#_ * bits (cellBits k) - 1#_)).toNat = u.toNat % (cellBits k + cellBits k) := by
  have hpow : (2#_ * bits (cellBits k)).toNat = 2 ^ (k + 4) := by
    rw [toNat_two_bits, cellBits_eq, ← Nat.mul_two, ← Nat.pow_succ]
  rw [toNat_and_sub_one hpow, toNat_two_bits]

theorem and_bits_ne_zero_iff (u : BitVec (cellBits k)) :
    u &&& bits (cellBits k) ≠ 0#_ ↔ cellBits k ≤ u.toNat % (cellBits k + cellBits k) := by
  rw [and_ne_zero_iff ((toNat_bits _).trans (cellBits_eq k)), toNat_bits]

/-! ## Single shifts -/

theorem shiftLeft_of_lt (x : BitVec v) (h : u.toNat < v) : shiftLeft x u = some (x <<< u.toNat) :=
  if_pos h

theorem shiftRight_of_lt (x : BitVec v) (h : u.toNat < v) : shiftRight x u = some (x >>> u.toNat) :=
  if_pos h

theorem arithShiftRight_of_lt (x : BitVec v) (h : u.toNat < v) :
    arithShiftRight x u = some (x.sshiftRight u.toNat) :=
  if_pos h

theorem shiftLeft_eq_none (x : BitVec v) (h : v ≤ u.toNat) : shiftLeft x u = none :=
  if_neg (Nat.not_lt.mpr h)

theorem shiftRight_eq_none (x : BitVec v) (h : v ≤ u.toNat) : shiftRight x u = none :=
  if_neg (Nat.not_lt.mpr h)

/-- A word that is undefined for the count 0 and right for the other ones -/
theorem eq_some_iff_ne_zero {α : Type} {n : Nat} {r : Option α} {x : α}
    (hzero : n = 0 → r = none) (hpos : 0 < n → r = some x) : r = some x ↔ n ≠ 0 := by
  constructor
  · intro heq hn
    rw [hzero hn] at heq
    exact Option.some_ne_none x heq.symm
  · intro hn
    exact hpos (Nat.pos_of_ne_zero hn)

/-! ## Rotations of an operand as a whole -/

/-- Two shifts rotate left unless the count is 0: then the second one is by the whole width. -/
theorem rotateLeft_exact_iff (x : BitVec v) {u m : BitVec w} (hu : u.toNat < v)
    (hm : m.toNat = v) :
    (do let left ← shiftLeft x u
        let right ← shiftRight x (m - u)
        some (left ||| right)) = some (x.rotateLeft u.toNat) ↔ u.toNat ≠ 0 := by
  have hsub := toNat_sub_of_toNat_le (m := m) (u := u) (by omega)
  rw [shiftLeft_of_lt x hu]
  refine eq_some_iff_ne_zero (fun hzero => ?_) fun hpos => ?_
  · rw [shiftRight_eq_none x (by omega)]
    rfl
  · rw [shiftRight_of_lt x (by omega), hsub, hm, rotateLeft_eq x hu]
    rfl

/-- A rotation of two shifts is exact unless it is by 0, where one of the shifts is undefined. -/
theorem rotateRight_exact_iff (x : BitVec v) {u m : BitVec w} (hu : u.toNat < v)
    (hm : m.toNat = v) :
    (do let right ← shiftRight x u
        let left ← shiftLeft x (m - u)
        some (right ||| left)) = some (x.rotateRight u.toNat) ↔ u.toNat ≠ 0 := by
  have hsub := toNat_sub_of_toNat_le (m := m) (u := u) (by omega)
  rw [shiftRight_of_lt x hu]
  refine eq_some_iff_ne_zero (fun hzero => ?_) fun hpos => ?_
  · rw [shiftLeft_eq_none x (by omega)]
    rfl
  · rw [shiftLeft_of_lt x (by omega), hsub, hm, rotateRight_eq x hu]
    rfl

theorem rol_exact_iff (u1 u : BitVec w) (h : u.toNat < w) :
    rol u1 u = some (u1.rotateLeft u.toNat) ↔ u.toNat ≠ 0 :=
  rotateLeft_exact_iff u1 h (toNat_bits w)

theorem ror_exact_iff (u1 u : BitVec w) (h : u.toNat < w) :
    ror u1 u = some (u1.rotateRight u.toNat) ↔ u.toNat ≠ 0 :=
  rotateRight_exact_iff u1 h (toNat_bits w)

/-- {lit}`drol` is exact unless it is by 0 or all bits of a double. -/
theorem native_drol_exact_iff (ud1 : BitVec (cellBits k + cellBits k)) (u : BitVec (cellBits k)) :
    Native.drol ud1 u = some (ud1.rotateLeft u.toNat) ↔
      u.toNat % (cellBits k + cellBits k) ≠ 0 := by
  have hpos : 0 < cellBits k + cellBits k := Nat.add_pos_left (cellBits_pos k) _
  rw [← toNat_and_two_bits, ← BitVec.rotateLeft_mod_eq_rotateLeft, ← toNat_and_two_bits]
  refine rotateLeft_exact_iff ud1 ?_ (toNat_two_bits k)
  rw [toNat_and_two_bits]
  exact Nat.mod_lt _ hpos

/-- {lit}`dror` is exact unless it is by 0 or all bits of a double. -/
theorem native_dror_exact_iff (ud1 : BitVec (cellBits k + cellBits k)) (u : BitVec (cellBits k)) :
    Native.dror ud1 u = some (ud1.rotateRight u.toNat) ↔
      u.toNat % (cellBits k + cellBits k) ≠ 0 := by
  have hpos : 0 < cellBits k + cellBits k := Nat.add_pos_left (cellBits_pos k) _
  rw [← toNat_and_two_bits, ← BitVec.rotateRight_mod_eq_rotateRight, ← toNat_and_two_bits]
  refine rotateRight_exact_iff ud1 ?_ (toNat_two_bits k)
  rw [toNat_and_two_bits]
  exact Nat.mod_lt _ hpos

/-! ## Shifts assembled from shifts of the cells -/

theorem bits_le_iff (u : BitVec w) : bits w ≤ u ↔ w ≤ u.toNat := by
  rw [BitVec.le_def, toNat_bits]

theorem toNat_and_bits_of_ge {u : BitVec (cellBits k)} (hge : cellBits k ≤ u.toNat)
    (hlt : u.toNat < cellBits k + cellBits k) :
    (u &&& (bits (cellBits k) - 1#_)).toNat = u.toNat - cellBits k := by
  rw [toNat_and_bits, Nat.mod_eq_sub_mod hge, Nat.mod_eq_of_lt (by omega)]

/-- {lit}`dlshift` on two cells is exact unless it is by 0. -/
theorem buggy_dlshift_exact_iff (ud1 : DCell (cellBits k)) (u : BitVec (cellBits k))
    (h : u.toNat < cellBits k + cellBits k) :
    (Buggy.dlshift ud1 u).map DCell.val = some (ud1.val <<< u.toNat) ↔ u.toNat ≠ 0 := by
  have hpos := cellBits_pos k
  rcases Nat.lt_or_ge u.toNat (cellBits k) with hlt | hge
  · have hsub := toNat_bits_sub (Nat.le_of_lt hlt)
    rw [Buggy.dlshift, if_neg (by rw [bits_le_iff]; omega), shiftLeft_of_lt ud1.hi hlt,
      shiftLeft_of_lt ud1.lo hlt, DCell.val, twoCell_shiftLeft ud1.lo ud1.hi (Nat.le_of_lt hlt)]
    refine eq_some_iff_ne_zero (fun hzero => ?_) fun hnonzero => ?_
    · rw [shiftRight_eq_none ud1.lo (by omega)]
      rfl
    · rw [shiftRight_of_lt ud1.lo (by omega), hsub]
      rfl
  · have hu := toNat_and_bits_of_ge hge h
    have hshift := shiftLeft_of_lt ud1.lo (u := u &&& (bits (cellBits k) - 1#_)) (by omega)
    rw [Buggy.dlshift, if_pos ((bits_le_iff u).mpr hge)]
    dsimp only
    rw [hshift, hu, DCell.val,
      twoCell_shiftLeft_of_ge ud1.lo ud1.hi hge]
    exact iff_of_true rfl (by omega)

/-- {lit}`drshift` on two cells is exact unless it is by 0. -/
theorem buggy_drshift_exact_iff (ud1 : DCell (cellBits k)) (u : BitVec (cellBits k))
    (h : u.toNat < cellBits k + cellBits k) :
    (Buggy.drshift ud1 u).map DCell.val = some (ud1.val >>> u.toNat) ↔ u.toNat ≠ 0 := by
  have hpos := cellBits_pos k
  rcases Nat.lt_or_ge u.toNat (cellBits k) with hlt | hge
  · have hsub := toNat_bits_sub (Nat.le_of_lt hlt)
    rw [Buggy.drshift, if_neg (by rw [bits_le_iff]; omega), shiftRight_of_lt ud1.hi hlt,
      shiftRight_of_lt ud1.lo hlt, DCell.val, twoCell_ushiftRight ud1.lo ud1.hi (Nat.le_of_lt hlt)]
    refine eq_some_iff_ne_zero (fun hzero => ?_) fun hnonzero => ?_
    · rw [shiftLeft_eq_none ud1.hi (by omega)]
      rfl
    · rw [shiftLeft_of_lt ud1.hi (by omega), hsub]
      rfl
  · have hu := toNat_and_bits_of_ge hge h
    have hshift := shiftRight_of_lt ud1.hi (u := u &&& (bits (cellBits k) - 1#_)) (by omega)
    rw [Buggy.drshift, if_pos ((bits_le_iff u).mpr hge)]
    dsimp only
    rw [hshift, hu, DCell.val,
      twoCell_ushiftRight_of_ge ud1.lo ud1.hi hge]
    exact iff_of_true rfl (by omega)

/-- Doubles are equal only if both cells are. -/
theorem twoCell_inj {lo hi lo' hi' : BitVec w} :
    twoCell lo hi = twoCell lo' hi' ↔ lo = lo' ∧ hi = hi' := by
  constructor
  · intro h
    exact ⟨by rw [← dlo_twoCell lo hi, h, dlo_twoCell], by rw [← dhi_twoCell lo hi, h, dhi_twoCell]⟩
  · rintro ⟨rfl, rfl⟩
    rfl

/-- The cell that {lit}`darshift` should fill with the sign is 0 only for numbers that are not
negative. -/
theorem sshiftRight_width_eq_zero_iff (x : BitVec w) (hw : 0 < w) :
    0#w = x.sshiftRight w ↔ 0 ≤ x.toInt := by
  constructor
  · intro h
    have hbit := congrArg (BitVec.getLsbD · 0) h
    simp only [BitVec.getLsbD_zero, BitVec.getLsbD_sshiftRight] at hbit
    rw [if_neg (by omega), decide_eq_false (by omega)] at hbit
    by_contra hneg
    rw [← BitVec.slt_zero_eq_msb, (slt_zero_iff x).mpr (by omega)] at hbit
    exact Bool.false_ne_true hbit
  · intro h
    have hmsb : x.msb = false := by
      rw [← BitVec.slt_zero_eq_msb, Bool.eq_false_iff, Ne, slt_zero_iff]
      omega
    refine BitVec.eq_of_getLsbD_eq fun i hi => ?_
    rw [BitVec.getLsbD_zero, BitVec.getLsbD_sshiftRight, if_neg (by omega), hmsb, Bool.and_false]

/-- {lit}`darshift` on two cells is exact where it is not by 0 and no sign is lost. -/
theorem buggy_darshift_exact_iff (d1 : DCell (cellBits k)) (u : BitVec (cellBits k))
    (h : u.toNat < cellBits k + cellBits k) :
    (Buggy.darshift d1 u).map DCell.val = some (d1.val.sshiftRight u.toNat) ↔
      u.toNat ≠ 0 ∧ (u.toNat < cellBits k ∨ 0 ≤ d1.val.toInt) := by
  have hpos := cellBits_pos k
  rcases Nat.lt_or_ge u.toNat (cellBits k) with hlt | hge
  · have hsub := toNat_bits_sub (Nat.le_of_lt hlt)
    rw [Buggy.darshift, if_neg (by rw [bits_le_iff]; omega), arithShiftRight_of_lt d1.hi hlt,
      shiftRight_of_lt d1.lo hlt, DCell.val, twoCell_sshiftRight d1.lo d1.hi (Nat.le_of_lt hlt),
      and_iff_left (Or.inl hlt)]
    refine eq_some_iff_ne_zero (fun hzero => ?_) fun hnonzero => ?_
    · rw [shiftLeft_eq_none d1.hi (by omega)]
      rfl
    · rw [shiftLeft_of_lt d1.hi (by omega), hsub]
      rfl
  · have hu := toNat_and_bits_of_ge hge h
    have hshift := arithShiftRight_of_lt d1.hi (u := u &&& (bits (cellBits k) - 1#_)) (by omega)
    have hsign : 0 ≤ d1.val.toInt ↔ 0 ≤ d1.hi.toInt := by
      rw [← not_lt, ← not_lt, ← toInt_dhi_neg_iff, DCell.val, dhi_twoCell]
    rw [Buggy.darshift, if_pos ((bits_le_iff u).mpr hge)]
    dsimp only
    rw [hshift, hu, hsign,
      ← sshiftRight_width_eq_zero_iff d1.hi hpos, DCell.val,
      twoCell_sshiftRight_of_ge d1.lo d1.hi hge]
    change some (twoCell (d1.hi.sshiftRight (u.toNat - cellBits k)) 0#_) = _ ↔ _
    rw [Option.some_inj, twoCell_inj, and_iff_right rfl, and_iff_right (by omega),
      or_iff_right (Nat.not_lt.mpr hge)]

/-! ## Rotations assembled from shifts of the cells -/

/-- A half of a rotated double: the count 0, which would shift by a whole cell, is left out. -/
theorem rolHalf_exact (x y : BitVec w) {u1 : BitVec w} (h : u1.toNat < w) :
    Buggy.rolHalf x y u1 = some (x <<< u1.toNat ||| y >>> (w - u1.toNat)) := by
  have hsub := toNat_bits_sub (Nat.le_of_lt h)
  rw [Buggy.rolHalf]
  by_cases hzero : u1 = 0#w
  · rw [if_neg (not_not.mpr hzero), hzero, BitVec.toNat_zero, Nat.sub_zero, BitVec.shiftLeft_zero,
      BitVec.ushiftRight_eq_zero (le_refl w), BitVec.or_zero]
  · have hne : u1.toNat ≠ 0 := fun hu => hzero (BitVec.eq_of_toNat_eq hu)
    rw [if_pos hzero, shiftLeft_of_lt x h, shiftRight_of_lt y (by omega), hsub]
    rfl

/-- The cell that a rotation puts together -/
theorem rorHalf_exact (x y : BitVec w) {u1 : BitVec w} (h : u1.toNat < w) :
    Buggy.rorHalf x y u1 = some (x >>> u1.toNat ||| y <<< (w - u1.toNat)) := by
  have hsub := toNat_bits_sub (Nat.le_of_lt h)
  rw [Buggy.rorHalf]
  by_cases hzero : u1 = 0#w
  · rw [if_neg (not_not.mpr hzero), hzero, BitVec.toNat_zero, Nat.sub_zero, BitVec.ushiftRight_zero,
      BitVec.shiftLeft_eq_zero (le_refl w), BitVec.or_zero]
  · have hne : u1.toNat ≠ 0 := fun hu => hzero (BitVec.eq_of_toNat_eq hu)
    rw [if_pos hzero, shiftRight_of_lt x h, shiftLeft_of_lt y (by omega), hsub]
    rfl

theorem mod_eq_of_lt_cellBits {n : Nat} (h : n % (w + w) < w) : n % (w + w) = n % w := by
  rw [← Nat.mod_mod_of_dvd n ⟨2, (Nat.mul_two w).symm⟩, Nat.mod_eq_of_lt h]

theorem mod_eq_of_cellBits_le {n : Nat} (hw : 0 < w) (h : w ≤ n % (w + w)) :
    n % (w + w) = w + n % w := by
  have hlt := Nat.mod_lt n (Nat.add_pos_left hw w)
  rw [← Nat.mod_mod_of_dvd n ⟨2, (Nat.mul_two w).symm⟩, Nat.mod_eq_sub_mod h,
    Nat.mod_eq_of_lt (by omega : n % (w + w) - w < w)]
  omega

/-- {lit}`drol` on two cells is always exact. -/
theorem buggy_drol_exact (ud1 : DCell (cellBits k)) (u : BitVec (cellBits k)) :
    (Buggy.drol ud1 u).map DCell.val = some (ud1.val.rotateLeft u.toNat) := by
  have hpos := cellBits_pos k
  have hu := toNat_and_bits u
  have hlt := Nat.mod_lt u.toNat hpos
  rw [Buggy.drol, rolHalf_exact _ _ (by omega), rolHalf_exact _ _ (by omega), hu,
    ← BitVec.rotateLeft_mod_eq_rotateLeft, DCell.val]
  rcases Nat.lt_or_ge (u.toNat % (cellBits k + cellBits k)) (cellBits k) with hsmall | hswap
  · rw [mod_eq_of_lt_cellBits hsmall, twoCell_rotateLeft ud1.lo ud1.hi hlt]
    simp only [Option.bind_eq_bind, Option.bind_some,
      if_neg (fun h => Nat.not_lt.mpr ((and_bits_ne_zero_iff u).mp h) hsmall)]
    rfl
  · rw [mod_eq_of_cellBits_le hpos hswap, twoCell_rotateLeft_add ud1.lo ud1.hi hlt]
    simp only [Option.bind_eq_bind, Option.bind_some, if_pos ((and_bits_ne_zero_iff u).mpr hswap)]
    rfl

/-- {lit}`dror` on two cells is always exact. -/
theorem buggy_dror_exact (ud1 : DCell (cellBits k)) (u : BitVec (cellBits k)) :
    (Buggy.dror ud1 u).map DCell.val = some (ud1.val.rotateRight u.toNat) := by
  have hpos := cellBits_pos k
  have hu := toNat_and_bits u
  have hlt := Nat.mod_lt u.toNat hpos
  rw [Buggy.dror, rorHalf_exact _ _ (by omega), rorHalf_exact _ _ (by omega), hu,
    ← BitVec.rotateRight_mod_eq_rotateRight, DCell.val]
  rcases Nat.lt_or_ge (u.toNat % (cellBits k + cellBits k)) (cellBits k) with hsmall | hswap
  · rw [mod_eq_of_lt_cellBits hsmall, twoCell_rotateRight ud1.lo ud1.hi hlt]
    simp only [Option.bind_eq_bind, Option.bind_some,
      if_neg (fun h => Nat.not_lt.mpr ((and_bits_ne_zero_iff u).mp h) hsmall)]
    rfl
  · rw [mod_eq_of_cellBits_le hpos hswap, twoCell_rotateRight_add ud1.lo ud1.hi hlt]
    simp only [Option.bind_eq_bind, Option.bind_some, if_pos ((and_bits_ne_zero_iff u).mpr hswap)]
    rfl

end Counts

/-! ## All words -/

/-- For counts below the width of the operand, and all counts of the rotations of double cells: the
words that return the shifted or rotated operand, and all of whose shifts are defined -/
theorem shifts_exact_iff (k : Nat) (u : BitVec (cellBits k)) :
    (u.toNat < cellBits k →
      (∀ u1, rol u1 u = some (u1.rotateLeft u.toNat) ↔ u.toNat ≠ 0) ∧
      (∀ u1, ror u1 u = some (u1.rotateRight u.toNat) ↔ u.toNat ≠ 0)) ∧
    (u.toNat < cellBits k + cellBits k →
      (∀ d, Native.dlshift d u = some (d <<< u.toNat)) ∧
      (∀ d, Native.drshift d u = some (d >>> u.toNat)) ∧
      (∀ d, Native.darshift d u = some (d.sshiftRight u.toNat)) ∧
      (∀ d, (Buggy.dlshift d u).map DCell.val = some (d.val <<< u.toNat) ↔ u.toNat ≠ 0) ∧
      (∀ d, (Buggy.drshift d u).map DCell.val = some (d.val >>> u.toNat) ↔ u.toNat ≠ 0) ∧
      (∀ d, (Buggy.darshift d u).map DCell.val = some (d.val.sshiftRight u.toNat) ↔
        u.toNat ≠ 0 ∧ (u.toNat < cellBits k ∨ 0 ≤ d.val.toInt))) ∧
    (∀ d, Native.drol d u = some (d.rotateLeft u.toNat) ↔
      u.toNat % (cellBits k + cellBits k) ≠ 0) ∧
    (∀ d, Native.dror d u = some (d.rotateRight u.toNat) ↔
      u.toNat % (cellBits k + cellBits k) ≠ 0) ∧
    (∀ d, (Buggy.drol d u).map DCell.val = some (d.val.rotateLeft u.toNat)) ∧
    (∀ d, (Buggy.dror d u).map DCell.val = some (d.val.rotateRight u.toNat)) := by
  refine ⟨fun h => ⟨fun u1 => rol_exact_iff u1 u h, fun u1 => ror_exact_iff u1 u h⟩,
    fun h => ⟨fun d => shiftLeft_of_lt d h, fun d => shiftRight_of_lt d h,
      fun d => arithShiftRight_of_lt d h, fun d => buggy_dlshift_exact_iff d u h,
      fun d => buggy_drshift_exact_iff d u h, fun d => buggy_darshift_exact_iff d u h⟩,
    fun d => native_drol_exact_iff d u, fun d => native_dror_exact_iff d u,
    fun d => buggy_drol_exact d u, fun d => buggy_dror_exact d u⟩

/-- The counts 3 and 70 are covered, the one for cells and the other for double cells. -/
theorem shifts_exact_iff_counts :
    (∀ u1, rol u1 3#(cellBits 3) = some (u1.rotateLeft 3)) ∧
    (∀ d, (Buggy.drshift d 70#(cellBits 3)).map DCell.val = some (d.val >>> 70)) :=
  ⟨fun u1 => ((shifts_exact_iff 3 3#(cellBits 3)).1 (by decide)).1 u1 |>.mpr (by decide),
    fun d => ((shifts_exact_iff 3 70#(cellBits 3)).2.1 (by decide)).2.2.2.2.1 d |>.mpr (by decide)⟩

/-- {lit}`darshift` of -1 by a cell fills with 0, and {lit}`rol` by 0 shifts by a whole cell. -/
theorem shifts_not_exact :
    (Buggy.darshift { hi := -1#64, lo := -1#64 } 64#64).map DCell.val ≠
      some ((DCell.val { hi := -1#64, lo := -1#64 }).sshiftRight 64) ∧
    rol 1#64 0#64 = none := by
  decide

end Shifts
end Arith
end Gforth
