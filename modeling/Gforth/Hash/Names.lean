import Mathlib.Data.Nat.Bitwise
import Gforth.Lib.ByteOrder

/-!
# Names and hash keys

Names are compared up to ASCII case, character by character, and hashed a cell at a
time.  The hash function has its own notion of case: it sets bit 5 of every character
whose bit 7 is clear.

Main results:

- Theorem {lit}`memcasecmp_eq_zero_iff`: the comparison is equality of the names in
  upper case.
- Theorem {lit}`hash_congr`: names that are equal up to ASCII case have the same key.
- Theorem {lit}`hash_lt`: a key of {lit}`ubits` bits.
-/

namespace Gforth
namespace Hash

open Lib

/-! ## Comparison -/

/-- {lit}`ascii_toupper` -/
def asciiToupper (c : Byte) : Byte :=
  if 0x61#8 ≤ c ∧ c ≤ 0x7a#8 then c + (0x41#8 - 0x61#8) else c

/-- {lit}`memcasecmp`, on strings with at least {lit}`n` characters. -/
def memcasecmp : List Byte → List Byte → Nat → Int
  | _, _, 0 => 0
  | c₁ :: s₁, c₂ :: s₂, n + 1 =>
      if asciiToupper c₁ ≠ asciiToupper c₂ then
        if asciiToupper c₁ < asciiToupper c₂ then -1 else 1
      else memcasecmp s₁ s₂ n
  | _, _, _ + 1 => 0

/-- Names that are equal up to ASCII case. -/
def SameName (s₁ s₂ : List Byte) : Prop :=
  s₁.map asciiToupper = s₂.map asciiToupper

instance (s₁ s₂ : List Byte) : Decidable (SameName s₁ s₂) :=
  inferInstanceAs (Decidable (_ = _))

/-- The test that the search loops make on a name of {lit}`u` characters. -/
def nameMatches (s : List Byte) (name : List Byte) : Bool :=
  name.length = s.length && memcasecmp s name s.length = 0

/-- Names are compared without their case. -/
theorem memcasecmp_eq_zero_iff {s₁ : List Byte} :
    ∀ {s₂ : List Byte}, s₂.length = s₁.length →
      (memcasecmp s₁ s₂ s₁.length = 0 ↔ SameName s₁ s₂) := by
  induction s₁ with
  | nil =>
      intro s₂ hlen
      obtain rfl : s₂ = [] := List.length_eq_zero_iff.mp hlen
      exact ⟨fun _ => rfl, fun _ => rfl⟩
  | cons c₁ s₁ ih =>
      intro s₂ hlen
      cases s₂ with
      | nil => cases hlen
      | cons c₂ s₂ =>
          have hrest := @ih s₂ (by simpa using hlen)
          simp only [List.length_cons, memcasecmp]
          unfold SameName at hrest ⊢
          rw [List.map_cons, List.map_cons, List.cons_eq_cons]
          by_cases hc : asciiToupper c₁ = asciiToupper c₂
          · rw [if_neg (not_not.mpr hc), hrest]
            exact ⟨fun h => ⟨hc, h⟩, fun h => h.2⟩
          · rw [if_pos hc]
            refine ⟨fun h => ?_, fun h => absurd h.1 hc⟩
            split at h <;> cases h

/-- The search loops accept a name exactly if it is the given one up to ASCII case. -/
theorem nameMatches_iff {s name : List Byte} : nameMatches s name = true ↔ SameName s name := by
  unfold nameMatches
  rw [Bool.and_eq_true, decide_eq_true_eq, decide_eq_true_eq]
  constructor
  · rintro ⟨hlen, hcmp⟩
    exact (memcasecmp_eq_zero_iff hlen).mp hcmp
  · intro hsame
    have hlen : name.length = s.length := by
      have := congrArg List.length hsame
      simpa using this.symm
    exact ⟨hlen, (memcasecmp_eq_zero_iff hlen).mpr hsame⟩

/-! ## Keys -/

namespace Keys

variable {w : Nat}

/-- The case insensitive trick -/
def foldCase (upmask h : BitVec w) : BitVec w :=
  h ||| (upmask &&& ~~~(h >>> 2))

/-- The sizes of a cell -/
inductive CellSize where
  | four
  | eight
deriving DecidableEq

/-- {lit}`sizeof(UCell)` -/
def CellSize.bytes : CellSize → Nat
  | .four => 4
  | .eight => 8

/-- The bits of a cell, and of an address -/
abbrev CellSize.bits (c : CellSize) : Nat :=
  8 * c.bytes

/-- {lit}`k0` -/
def k0 (c : CellSize) : BitVec c.bits :=
  BitVec.ofNat c.bits (if c.bytes = 8 then 0xb64d532aaaaaaad5 else 0xb653aad5)

/-- {lit}`upmask` of {lit}`hashkey2a` -/
def upmaskOf (c : CellSize) : BitVec c.bits :=
  BitVec.ofNat c.bits (if c.bytes = 8 then 0x2020202020202020 else 0x20202020)

/-- {lit}`rotl` -/
def rotl (c : CellSize) (x : BitVec c.bits) (r : Nat) : BitVec c.bits :=
  (x <<< r) ||| (x >>> (8 * c.bytes - r))

/-- One round: mix the cell {lit}`h1` into the key. -/
def mixCell (c : CellSize) (h h1 : BitVec c.bits) : BitVec c.bits :=
  rotl c ((h ^^^ foldCase (upmaskOf c) h1) * k0 c) (c.bytes * 4 - 1)

/-- The key of all cells of a long text but the last one -/
def textKeyLoop (order : ByteOrder) (c : CellSize) (h : BitVec c.bits) (t : List Byte) :
    BitVec c.bits :=
  if _h : 0 < c.bytes ∧ c.bytes < t.length then
    textKeyLoop order c (mixCell c h (order.load c.bits (t.take c.bytes))) (t.drop c.bytes)
  else h
termination_by t.length

/-- The key that {lit}`hashkey2a` computes from the characters, wherever these are in memory -/
def textKey2a (order : ByteOrder) (c : CellSize) (t : List Byte) : BitVec c.bits :=
  let seed := BitVec.ofNat c.bits t.length
  if t.length ≤ c.bytes then
    if t.length = 0 then seed else mixCell c seed (order.load c.bits t) * k0 c
  else
    mixCell c (textKeyLoop order c seed t)
      (order.load c.bits (t.drop (t.length - c.bytes))) * k0 c

end Keys

/-- {lit}`hash`, by {lit}`(hashkey2)` of a 64-bit machine in little-endian order -/
def hash (hashbits : Nat) (s : List Byte) : Nat :=
  (Keys.textKey2a .little .eight s).toNat >>> (64 - hashbits)

/-- A key has {lit}`hashbits` bits. -/
theorem hash_lt (hashbits : Nat) (s : List Byte) : hash hashbits s < 2 ^ hashbits := by
  have hkey : (Keys.textKey2a .little .eight s).toNat < 2 ^ 64 := BitVec.isLt _
  unfold hash
  rw [Nat.shiftRight_eq_div_pow, Nat.div_lt_iff_lt_mul (by positivity), ← pow_add]
  exact lt_of_lt_of_le hkey (Nat.pow_le_pow_right (by decide) (by omega))

/-! ## Case -/

/-- The case insensitive trick on one character. -/
def foldByte (c : Byte) : Byte :=
  c ||| (0x20#8 &&& ~~~(c >>> 2))

theorem foldByte_asciiToupper : ∀ c : Byte, foldByte (asciiToupper c) = foldByte c := by
  decide

/-- The trick works on each byte of a word, if the mask is the same in each byte. -/
theorem fold_getLsbD {w k : Nat} (hw : w = 8 * k) {upmask h : BitVec w} {byte : Nat → Byte}
    (hmask : ∀ i < w, upmask.getLsbD i = (0x20#8).getLsbD (i % 8))
    (hbyte : ∀ i < w, h.getLsbD i = (byte (i / 8)).getLsbD (i % 8)) {i : Nat} (hi : i < w) :
    (h ||| (upmask &&& ~~~(h >>> 2))).getLsbD i = (foldByte (byte (i / 8))).getLsbD (i % 8) := by
  have hmod : i % 8 < 8 := Nat.mod_lt _ (by decide)
  rw [foldByte]
  simp only [BitVec.getLsbD_or, BitVec.getLsbD_and, BitVec.getLsbD_not, BitVec.getLsbD_ushiftRight,
    hbyte i hi, hmask i hi, hi, hmod, decide_true, Bool.true_and]
  by_cases hbit : i % 8 = 5
  · -- bit 7 of a character is in the same character
    have hdiv : (2 + i) / 8 = i / 8 := by omega
    have hmod' : (2 + i) % 8 = 2 + i % 8 := by omega
    rw [hbyte (2 + i) (by omega), hdiv, hmod']
  · have hzero : (0x20#8).getLsbD (i % 8) = false := by
      have hbits : ∀ j : Fin 8, (j : Nat) ≠ 5 → (0x20#8).getLsbD j = false := by decide
      exact hbits ⟨i % 8, hmod⟩ hbit
    rw [hzero, Bool.false_and, Bool.false_and]

variable {s₁ s₂ : List Byte}

theorem SameName.length_eq (h : SameName s₁ s₂) : s₁.length = s₂.length := by
  simpa using congrArg List.length h

theorem SameName.take (h : SameName s₁ s₂) (n : Nat) : SameName (s₁.take n) (s₂.take n) := by
  unfold SameName at h ⊢
  rw [List.map_take, List.map_take, h]

theorem SameName.drop (h : SameName s₁ s₂) (n : Nat) : SameName (s₁.drop n) (s₂.drop n) := by
  unfold SameName at h ⊢
  rw [List.map_drop, List.map_drop, h]

/-- Names are put together. -/
theorem SameName.append {s₁ s₂ t₁ t₂ : List Byte} (hs : SameName s₁ s₂) (ht : SameName t₁ t₂) :
    SameName (s₁ ++ t₁) (s₂ ++ t₂) := by
  unfold SameName at hs ht ⊢
  rw [List.map_append, List.map_append, hs, ht]

theorem SameName.reverse {s t : List Byte} (h : SameName s t) : SameName s.reverse t.reverse := by
  unfold SameName at h ⊢
  rw [List.map_reverse, List.map_reverse, h]

/-- The bytes of the same name are folded to the same byte. -/
theorem foldByte_getD_congr (h : SameName s₁ s₂) (k : Nat) :
    foldByte (s₁.getD k 0#8) = foldByte (s₂.getD k 0#8) := by
  have hzero : asciiToupper 0#8 = 0#8 := by decide
  have hmap : ∀ s : List Byte, asciiToupper (s.getD k 0#8) = (s.map asciiToupper).getD k 0#8 := by
    intro s
    rw [← hzero, List.getD_map, hzero]
  rw [← foldByte_asciiToupper, hmap, h, ← hmap, foldByte_asciiToupper]

namespace Keys

variable {w : Nat} {c : CellSize}

/-- A mask that has bit 5 of each byte -/
def CaseMask (upmask : BitVec w) : Prop :=
  8 ∣ w ∧ ∀ i < w, upmask.getLsbD i = (0x20#8).getLsbD (i % 8)

theorem caseMask_upmaskOf (c : CellSize) : CaseMask (upmaskOf c) := by
  cases c with
  | four | eight => exact ⟨by decide, by decide⟩

/-- The trick works on each byte of a word. -/
theorem foldCase_getLsbD {upmask : BitVec w} (hmask : CaseMask upmask) (t : List Byte) {i : Nat}
    (hi : i < w) :
    (foldCase upmask (ByteOrder.load .little w t)).getLsbD i =
      (foldByte (t.getD (i / 8) 0#8)).getLsbD (i % 8) := by
  obtain ⟨⟨k, hk⟩, hbits⟩ := hmask
  have hbyte : ∀ j < w, (ByteOrder.load .little w t).getLsbD j =
      (t.getD (j / 8) 0#8).getLsbD (j % 8) := fun j hj => ByteOrder.getLsbD_load_little t hj
  exact @fold_getLsbD w k hk upmask _ (fun j => t.getD j 0#8) hbits hbyte i hi

variable {t₁ t₂ : List Byte}

/-- Cells of the same name are folded to the same cell. -/
theorem foldCase_congr {upmask : BitVec w} (hmask : CaseMask upmask) (order : ByteOrder)
    (h : SameName t₁ t₂) :
    foldCase upmask (order.load w t₁) = foldCase upmask (order.load w t₂) := by
  have hlittle : ∀ {t₁ t₂ : List Byte}, SameName t₁ t₂ →
      foldCase upmask (ByteOrder.load .little w t₁) =
        foldCase upmask (ByteOrder.load .little w t₂) := by
    intro t₁ t₂ h
    refine BitVec.eq_of_getLsbD_eq fun i hi => ?_
    rw [foldCase_getLsbD hmask _ hi, foldCase_getLsbD hmask _ hi, foldByte_getD_congr h]
  cases order with
  | little => exact hlittle h
  | big => exact hlittle h.reverse

theorem keyCell_congr (order : ByteOrder) (h : BitVec c.bits) (ht : SameName t₁ t₂) :
    mixCell c h (order.load c.bits t₁) = mixCell c h (order.load c.bits t₂) := by
  rw [mixCell, mixCell, foldCase_congr (caseMask_upmaskOf c) order ht]

/-- The loop gives the same key for the same name. -/
theorem textKeyLoop_congr (order : ByteOrder) (h : BitVec c.bits) (ht : SameName t₁ t₂) :
    textKeyLoop order c h t₁ = textKeyLoop order c h t₂ := by
  fun_induction textKeyLoop order c h t₁ generalizing t₂ with
  | case1 h t₁ hlong ih =>
      rw [ih (ht.drop _), textKeyLoop.eq_1 order c h t₂, dif_pos (ht.length_eq ▸ hlong),
        keyCell_congr order h (ht.take _)]
  | case2 h t₁ hshort =>
      rw [textKeyLoop, dif_neg (ht.length_eq ▸ hshort)]

/-- The same name has the same key. -/
theorem textKey2a_congr (order : ByteOrder) (ht : SameName t₁ t₂) :
    textKey2a order c t₁ = textKey2a order c t₂ := by
  simp only [textKey2a, ht.length_eq, keyCell_congr order _ ht, textKeyLoop_congr order _ ht,
    keyCell_congr order _ (ht.drop (t₂.length - c.bytes))]

end Keys

theorem hash_congr (hs : SameName s₁ s₂) (hashbits : Nat) :
    hash hashbits s₁ = hash hashbits s₂ := by
  rw [hash, hash, Keys.textKey2a_congr .little hs]

end Hash
end Gforth
