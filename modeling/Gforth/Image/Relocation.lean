import Gforth.Lib.Bytes
import Gforth.Lib.Folds

/-!
# Relocation of images

The image maker compares two dumps of the same system at different addresses.  A
cell that holds an address in a section becomes a token, with the number of the
section in its upper eight bits and the offset below, and its relocation bit is set.
The loader turns tokens into addresses again.  It compares a token with the base of
its section as signed numbers, so that the tokens of the upper half of the section
numbers are taken for something else.

Main results:

- Theorem {lit}`relocateRange_image`: the loader changes exactly the cells with a
  relocation bit.
- Theorem {lit}`compareSection_bitAt`: the relocation bits that the image maker sets.
- Theorem {lit}`relocate_address_iff`: which addresses survive making and loading.
-/

namespace Gforth
namespace Image

open Lib

/-- A cell; addresses are cells. -/
abbrev Cell := BitVec 64

/-! ## Making an image -/

/-- What the image maker looks at in the header of a section. -/
structure Sect where
  start : Cell
  dp : Cell
deriving DecidableEq

/-- {lit}`within` -/
def within (x lo hi : Cell) : Bool :=
  (x - lo).ult (hi - lo)

/-- The address is in the section or at its end. -/
def Sect.covers (s : Sect) (x : Cell) : Bool :=
  within x s.start (s.dp + 1)

/-- The loop of {lit}`sect-reloc`, from section {lit}`i` on -/
def sectRelocFrom (x1 : Cell) : Nat → List Sect → Cell
  | _, [] => x1
  | i, sect :: sects =>
      if sect.covers x1 then (x1 - sect.start) ||| (BitVec.ofNat 64 i <<< 56)
      else sectRelocFrom x1 (i + 1) sects

/-- {lit}`sect-reloc` -/
def sectReloc (x1 : Cell) (sects : List Sect) : Cell :=
  sectRelocFrom x1 0 sects

/-- The symbols of the engines that made the two dumps: for code addresses, xts and
labels the base in the first dump and the distance to the second one.  The tags come
from tables that the build makes. -/
structure Symbols where
  cbase : Cell
  coffset : Cell
  xbase : Cell
  xoffset : Cell
  lbase : Cell
  loffset : Cell
  toCfa : Cell → Cell
  toTag : Cell → Cell

/-- One iteration of {lit}`compare-section`: the cell to write, and whether it gets a
relocation bit -/
def compareCell (sym : Symbols) (sects1 sects2 : List Sect) (cell1 cell2 : Cell) : Cell × Bool :=
  if cell1 = cell2 then (cell1, false)
  else if sectReloc cell1 sects1 = sectReloc cell2 sects2 then (sectReloc cell1 sects1, true)
  else if cell1 + sym.coffset = cell2 then
    (sym.toTag (sym.toCfa (cell1 - sym.cbase)) ^^^ 0x4000#64, true)
  else if cell1 + sym.xoffset = cell2 then (sym.toTag (cell1 - sym.xbase), true)
  else if cell1 + sym.loffset = cell2 then (sym.toTag (cell1 - sym.lbase) ^^^ 0x8000#64, true)
  else (cell1, false)

/-- {lit}`alloc-reloc-bits`: the number of bytes for the bits of {lit}`size` cells -/
def relocSize (size : Nat) : Nat :=
  if size = 0 then 0 else (size - 1) / 8 + 1

/-- {lit}`compare-section`: the cells to write, and the relocation bits -/
def compareSection (sym : Symbols) (sects1 sects2 : List Sect) (cells1 cells2 : List Cell) :
    List Cell × List Byte :=
  let written := List.zipWith (compareCell sym sects1 sects2) cells1 cells2
  (written.map Prod.fst,
    (List.range written.length).foldl
      (fun bits i => if (written.getD i default).2 then setBit i bits else bits)
      (List.replicate (relocSize written.length) 0#8))

/-! ## Loading an image -/

/-- {lit}`SECTION` -/
def sectionOf (x : Cell) : Nat :=
  (x >>> 56).toNat

/-- {lit}`INSECTION` -/
def inSection (x : Cell) : Cell :=
  x &&& (~~~0#64 >>> 8)

/-- {lit}`PRIMSECTION` -/
def primSection : Nat := 255

/-- The tables of the loader: the address and the base of each section, and what the
engine has for the token of a primitive, with the relocation bit afterwards. -/
structure Loader where
  sections : Nat → Cell
  bases : Nat → Cell
  prim : Cell → Cell × Bool

/-- The cell that replaces a token, and its relocation bit afterwards. -/
def relocateCell (ld : Loader) (base token : Cell) : Cell × Bool :=
  if sectionOf token = primSection then ld.prim token
  else if base.sle token then
    (ld.sections (sectionOf token) - ld.bases (sectionOf token) + inSection token, false)
  else (token, false)

/-- The state of the loop of {lit}`gforth_relocate_range`. -/
structure RangeState where
  image : List Cell
  bitstring : List Byte
  targets : List Byte

/-- Mark a branch target in the same section. -/
def markTarget (base token : Cell) (sect : Nat) (targets : List Byte) : List Byte :=
  if sectionOf token ≠ primSection ∧ base.sle token ∧ sectionOf token = sect then
    setBit ((inSection token - inSection base) / 8#64).toNat targets
  else targets

/-- One iteration of {lit}`gforth_relocate_range`, for cell {lit}`i` -/
def relocateStep (ld : Loader) (base : Cell) (sect : Nat) (s : RangeState) (i : Nat) :
    RangeState :=
  if bitAt s.bitstring i then
    let token := s.image.getD i 0#64
    let (cell, again) := relocateCell ld base token
    let bitstring := clearBit i s.bitstring
    { image := s.image.set i cell
      bitstring := if again then setBit i bitstring else bitstring
      targets := markTarget base token sect s.targets }
  else s

/-- The number of bytes of the relocation bits of {lit}`size` bytes. -/
def relocSteps (size : Nat) : Nat :=
  (size - 1) / 8 / 8 + 1

/-- {lit}`gforth_relocate_range` -/
def relocateRange (ld : Loader) (image : List Cell) (size : Nat) (base : Cell)
    (bitstring : List Byte) (sect : Nat) : RangeState :=
  (List.range (relocSteps size * 8)).foldl (relocateStep ld base sect)
    { image := image, bitstring := bitstring, targets := List.replicate (relocSteps size) 0#8 }

/-! ## Which cells the loader changes -/

theorem relocateStep_of_clear {ld : Loader} {base : Cell} {sect : Nat} {s : RangeState} {i : Nat}
    (h : bitAt s.bitstring i = false) : relocateStep ld base sect s i = s := by
  rw [relocateStep, if_neg (by simp [h])]

/-- After the cells below {lit}`m`, those with a relocation bit are relocated, and
nothing else was looked at. -/
theorem relocateSteps_spec (ld : Loader) (base : Cell) (sect : Nat) (s : RangeState) (m : Nat) :
    let s' := (List.range m).foldl (relocateStep ld base sect) s
    s'.image.length = s.image.length ∧
      (∀ j < s.image.length, s'.image.getD j 0#64 =
        if j < m ∧ bitAt s.bitstring j = true then (relocateCell ld base (s.image.getD j 0#64)).1
        else s.image.getD j 0#64) ∧
      ∀ j, m ≤ j → bitAt s'.bitstring j = bitAt s.bitstring j := by
  induction m with
  | zero => simp
  | succ m ih =>
      obtain ⟨hlen, himage, hbits⟩ := ih
      rw [List.range_succ, List.foldl_append, List.foldl_cons, List.foldl_nil]
      revert hlen himage hbits
      generalize (List.range m).foldl (relocateStep ld base sect) s = s'
      intro hlen himage hbits
      by_cases hbit : bitAt s.bitstring m = true
      · have hbit' : bitAt s'.bitstring m = true := (hbits m le_rfl).trans hbit
        rw [relocateStep, if_pos hbit']
        refine ⟨by simpa using hlen, ?_, ?_⟩
        · intro j hj
          simp only
          by_cases hjm : j = m
          · subst hjm
            have hold := himage j hj
            rw [if_neg (by omega)] at hold
            rw [if_pos ⟨Nat.lt_succ_self j, hbit⟩, hold, List.getD_eq_getElem?_getD,
              List.getElem?_set_self (by rw [hlen]; exact hj)]
            rfl
          · have hset : (s'.image.set m (relocateCell ld base (s'.image.getD m 0#64)).1).getD j 0#64 =
                s'.image.getD j 0#64 := by
              rw [List.getD_eq_getElem?_getD, List.getElem?_set_ne (Ne.symm hjm),
                ← List.getD_eq_getElem?_getD]
            have hiff : j < m + 1 ↔ j < m := by omega
            rw [hset, himage j hj]
            simp only [hiff]
        · intro j hj
          simp only
          have hne : j ≠ m := by omega
          rw [← hbits j (by omega)]
          split
          · rw [bitAt_setBit_of_ne _ hne, bitAt_clearBit_of_ne _ hne]
          · rw [bitAt_clearBit_of_ne _ hne]
      · have hclear : bitAt s'.bitstring m = false := by
          rw [hbits m le_rfl]
          simpa using hbit
        rw [relocateStep_of_clear hclear]
        refine ⟨hlen, ?_, fun j hj => hbits j (by omega)⟩
        intro j hj
        rw [himage j hj]
        by_cases hjm : j = m
        · subst hjm
          simp [hbit]
        · have hiff : j < m + 1 ↔ j < m := by omega
          simp only [hiff]

/-- The loader relocates exactly the cells with a relocation bit. -/
theorem relocateRange_image (ld : Loader) (image : List Cell) {size : Nat} (base : Cell)
    (bits : List Byte) (sect : Nat) {j : Nat} (hj : j < image.length)
    (hsize : j < relocSteps size * 8) :
    (relocateRange ld image size base bits sect).image.getD j 0#64 =
      if bitAt bits j = true then (relocateCell ld base (image.getD j 0#64)).1
      else image.getD j 0#64 := by
  have h := (relocateSteps_spec ld base sect
    { image := image, bitstring := bits, targets := List.replicate (relocSteps size) 0#8 }
    (relocSteps size * 8)).2.1 j hj
  simp only [hsize, true_and] at h
  exact h

/-! ## Which relocation bits the image maker sets -/

theorem le_relocSize (n : Nat) : n ≤ 8 * relocSize n := by
  rw [relocSize]
  split <;> omega

/-- The bits that are set are those of the flagged cells. -/
theorem setBits_spec (flag : Nat → Bool) (k m : Nat) (hm : m ≤ 8 * k) :
    let bits := (List.range m).foldl (fun bits i => if flag i then setBit i bits else bits)
      (List.replicate k 0#8)
    bits.length = k ∧ ∀ v, bitAt bits v = (decide (v < m) && flag v) := by
  induction m with
  | zero => simp [bitAt_replicate]
  | succ m ih =>
      obtain ⟨hlen, hbits⟩ := ih (by omega)
      rw [List.range_succ, List.foldl_append, List.foldl_cons, List.foldl_nil]
      revert hlen hbits
      generalize (List.range m).foldl (fun bits i => if flag i then setBit i bits else bits)
        (List.replicate k 0#8) = bits
      intro hlen hbits
      cases hflag : flag m with
      | true =>
          refine ⟨by simpa using hlen, fun v => ?_⟩
          rw [if_pos rfl, bitAt_setBit (by omega), hbits]
          by_cases hv : v = m
          · simp [hv, hflag]
          · have hiff : v < m + 1 ↔ v < m := by omega
            simp [hv, hiff]
      | false =>
          refine ⟨hlen, fun v => ?_⟩
          rw [if_neg (by simp), hbits]
          by_cases hv : v = m
          · simp [hv, hflag]
          · have hiff : v < m + 1 ↔ v < m := by omega
            simp [hiff]

section

variable (sym : Symbols) (sects1 sects2 : List Sect) {cells1 cells2 : List Cell}

/-- A relocation bit is set exactly for the cells that were written as tokens. -/
theorem compareSection_bitAt (hlen : cells2.length = cells1.length) {i : Nat}
    (hi : i < cells1.length) :
    bitAt (compareSection sym sects1 sects2 cells1 cells2).2 i =
      (compareCell sym sects1 sects2 (cells1.getD i 0#64) (cells2.getD i 0#64)).2 := by
  have hwritten : (List.zipWith (compareCell sym sects1 sects2) cells1 cells2).length =
      cells1.length := by
    simp [hlen]
  have hbits := (setBits_spec
    (fun i => ((List.zipWith (compareCell sym sects1 sects2) cells1 cells2).getD i default).2)
    (relocSize cells1.length) cells1.length (le_relocSize _)).2 i
  simp only [compareSection, hwritten]
  rw [hbits]
  have hi2 : i < cells2.length := by omega
  simp [hi, hi2]

/-- The cells that the image maker writes. -/
theorem compareSection_getD (hlen : cells2.length = cells1.length) {i : Nat}
    (hi : i < cells1.length) :
    (compareSection sym sects1 sects2 cells1 cells2).1.getD i 0#64 =
      (compareCell sym sects1 sects2 (cells1.getD i 0#64) (cells2.getD i 0#64)).1 := by
  have hi2 : i < cells2.length := by omega
  simp [compareSection, hi, hi2]

/-- The bits of a section have a fixed size. -/
theorem compareSection_bits_length (hlen : cells2.length = cells1.length) :
    (compareSection sym sects1 sects2 cells1 cells2).2.length = relocSize cells1.length := by
  have hwritten : (List.zipWith (compareCell sym sects1 sects2) cells1 cells2).length =
      cells1.length := by
    simp [hlen]
  have hbits := (setBits_spec
    (fun i => ((List.zipWith (compareCell sym sects1 sects2) cells1 cells2).getD i default).2)
    (relocSize cells1.length) cells1.length (le_relocSize _)).1
  simp only [compareSection, hwritten]
  exact hbits

theorem compareSection_length (hlen : cells2.length = cells1.length) :
    (compareSection sym sects1 sects2 cells1 cells2).1.length = cells1.length := by
  simp [compareSection, hlen]

end

/-! ## Tokens of addresses -/

/-- The address {lit}`x` is at offset {lit}`o` in section {lit}`k`, or at its end, and not
in a section before. -/
structure AddressAt (sects : List Sect) (k : Nat) (o x : Cell) : Prop where
  sect : ∃ s, sects[k]? = some s ∧ s.covers x = true ∧ x - s.start = o
  first : ∀ j < k, ∀ s, sects[j]? = some s → s.covers x = false

/-- The token of an offset in a section. -/
def token (k : Nat) (o : Cell) : Cell :=
  o ||| (BitVec.ofNat 64 k <<< 56)

/-- An address in a section, from some section on -/
theorem sectRelocFrom_eq {x o : Cell} {k : Nat} {sects : List Sect} :
    ∀ {i : Nat}, AddressAt sects k o x → sectRelocFrom x i sects = token (i + k) o := by
  induction sects generalizing k with
  | nil =>
      rintro i ⟨⟨s, hs, -⟩, -⟩
      simp at hs
  | cons sect sects ih =>
      intro i h
      obtain ⟨s, hs, hcovers, ho⟩ := h.sect
      cases k with
      | zero =>
          obtain rfl : sect = s := by simpa using hs
          rw [sectRelocFrom, if_pos hcovers, ho]
          rfl
      | succ k =>
          have hnot : sect.covers x = false := h.first 0 (Nat.succ_pos k) sect rfl
          rw [sectRelocFrom, if_neg (by simp [hnot]), ih ⟨⟨s, by simpa using hs, hcovers, ho⟩, ?_⟩]
          · rw [Nat.add_right_comm, Nat.add_assoc]
          · intro j hj s' hs'
            exact h.first (j + 1) (Nat.succ_lt_succ hj) s' (by simpa using hs')

theorem sectReloc_eq {x o : Cell} {k : Nat} {sects : List Sect} (h : AddressAt sects k o x) :
    sectReloc x sects = token k o := by
  rw [sectReloc, sectRelocFrom_eq h, Nat.zero_add]

/-- The base that the loader reads from the token of a section's start. -/
theorem inSection_token (k : Nat) (o : Cell) : (inSection (token k o)).toNat = o.toNat % 2 ^ 56 := by
  have hmask : (~~~0#64 >>> 8).toNat = 2 ^ 56 - 1 := by decide
  have hlow : (BitVec.ofNat 64 k <<< 56).toNat &&& (2 ^ 56 - 1) = 0 := by
    rw [Nat.and_two_pow_sub_one_eq_mod, BitVec.toNat_shiftLeft, Nat.shiftLeft_eq]
    omega
  rw [inSection, token, BitVec.toNat_and, BitVec.toNat_or, hmask, Nat.and_or_distrib_right, hlow,
    Nat.or_zero, Nat.and_two_pow_sub_one_eq_mod]

theorem sectionOf_eq_div (x : Cell) : sectionOf x = x.toNat / 2 ^ 56 := by
  rw [sectionOf, BitVec.toNat_ushiftRight, Nat.shiftRight_eq_div_pow]

theorem zero_sle_iff (x : Cell) : (0#64).sle x = true ↔ sectionOf x < 128 := by
  rw [sectionOf_eq_div, BitVec.sle_iff_toInt_le, BitVec.toInt_zero, BitVec.toInt_eq_toNat_cond]
  have := x.isLt
  split <;> omega

/-- A token as a number -/
theorem token_toNat {k : Nat} {o : Cell} (hk : k < 256) (ho : o.toNat < 2 ^ 56) :
    (token k o).toNat = k * 2 ^ 56 + o.toNat := by
  have hshift : (BitVec.ofNat 64 k <<< 56).toNat = 2 ^ 56 * k := by
    rw [BitVec.toNat_shiftLeft, BitVec.toNat_ofNat, Nat.shiftLeft_eq]
    omega
  rw [token, BitVec.toNat_or, hshift, Nat.or_comm, ← Nat.two_pow_add_eq_or_of_lt ho]
  ring

/-- The loader gets the address back from the token, wherever the sections are loaded,
exactly if the section number and the offset are small enough. -/
theorem relocateCell_token_iff (prim : Cell → Cell × Bool) (k : Nat) (o : Cell) :
    (∀ sections : Nat → Cell,
        (relocateCell ⟨sections, fun _ => 0#64, prim⟩ 0#64 (token k o)).1 = sections k + o) ↔
      k < 128 ∧ o.toNat < 2 ^ 56 := by
  constructor
  · intro h
    -- two assignments of load addresses that differ for section k only
    have hzero := h fun _ => 0
    have hone := h fun j => if j = k then 1 else 0
    simp only [relocateCell] at hzero hone
    split at hzero
    · rename_i hprim
      rw [if_pos hprim, hzero] at hone
      simp at hone
    · rename_i hprim
      rw [if_neg hprim] at hone
      split at hzero
      · rename_i hsle
        rw [if_pos hsle] at hone
        have hin : inSection (token k o) = o := by simpa using hzero
        have hsec : sectionOf (token k o) = k := by
          by_contra hne
          simp [hin, hne] at hone
        rw [zero_sle_iff, hsec] at hsle
        refine ⟨hsle, ?_⟩
        rw [← hin, inSection_token]
        exact Nat.mod_lt _ (by decide)
      · rename_i hsle
        rw [if_neg hsle, hzero] at hone
        simp at hone
  · rintro ⟨hk, ho⟩ sections
    have htoken := token_toNat (lt_trans hk (by decide)) ho
    have hsec : sectionOf (token k o) = k := by
      rw [sectionOf_eq_div, htoken]
      omega
    have hin : inSection (token k o) = o := by
      refine BitVec.eq_of_toNat_eq ?_
      rw [inSection_token, Nat.mod_eq_of_lt ho]
    have hprim : sectionOf (token k o) ≠ primSection := by
      rw [hsec]
      exact Nat.ne_of_lt (lt_trans hk (by decide))
    have hsle : (0#64).sle (token k o) = true := by
      rw [zero_sle_iff, hsec]
      exact hk
    rw [relocateCell, if_neg hprim, if_pos hsle, hsec, hin]
    simp

/-! ## Making and loading -/

/-- Two dumps of one section, as the image maker compares them.  The sections have other
addresses in the second dump. -/
structure Dumps where
  sects1 : List Sect
  sects2 : List Sect
  start_ne : ∀ (k : Nat) (s1 s2 : Sect), sects1[k]? = some s1 → sects2[k]? = some s2 → s1.start ≠ s2.start
  size : Nat
  cells1 : List Cell
  cells2 : List Cell
  length1 : cells1.length = (size + 7) / 8
  length2 : cells2.length = (size + 7) / 8

/-- Cell {lit}`i` holds in both dumps the address at offset {lit}`o` in section {lit}`k`. -/
structure Dumps.HoldsAddress (d : Dumps) (i k : Nat) (o : Cell) : Prop where
  index_lt : i < d.cells1.length
  address1 : AddressAt d.sects1 k o (d.cells1.getD i 0#64)
  address2 : AddressAt d.sects2 k o (d.cells2.getD i 0#64)

/-- The section {lit}`sect` after it was written with its relocation bits and loaded with
its sections at the given addresses; tokens of section starts give bases 0. -/
def Dumps.reload (d : Dumps) (sym : Symbols) (prim : Cell → Cell × Bool) (sect : Nat)
    (sections : Nat → Cell) : List Cell :=
  let file := compareSection sym d.sects1 d.sects2 d.cells1 d.cells2
  (relocateRange ⟨sections, fun _ => 0#64, prim⟩ file.1 d.size 0#64 file.2 sect).image

/-- Wherever the sections are loaded, a cell with an address in a section holds the
address at the same offset in the same section afterwards, and a cell whose relocation
bit is clear is as it was written. -/
structure Dumps.Survive (d : Dumps) (sym : Symbols) (prim : Cell → Cell × Bool) (sect : Nat) :
    Prop where
  address : ∀ {i k o}, d.HoldsAddress i k o → ∀ sections : Nat → Cell,
    (d.reload sym prim sect sections).getD i 0#64 = sections k + o
  clear : ∀ {i}, i < d.cells1.length →
    bitAt (compareSection sym d.sects1 d.sects2 d.cells1 d.cells2).2 i = false →
    ∀ sections : Nat → Cell, (d.reload sym prim sect sections).getD i 0#64 =
      (compareSection sym d.sects1 d.sects2 d.cells1 d.cells2).1.getD i 0#64

/-- Each cell of a reloaded image -/
theorem Dumps.reload_getD (d : Dumps) (sym : Symbols) (prim : Cell → Cell × Bool) (sect : Nat)
    (sections : Nat → Cell) {i : Nat} (hi : i < d.cells1.length) :
    (d.reload sym prim sect sections).getD i 0#64 =
      if bitAt (compareSection sym d.sects1 d.sects2 d.cells1 d.cells2).2 i = true then
        (relocateCell ⟨sections, fun _ => 0#64, prim⟩ 0#64
          ((compareSection sym d.sects1 d.sects2 d.cells1 d.cells2).1.getD i 0#64)).1
      else (compareSection sym d.sects1 d.sects2 d.cells1 d.cells2).1.getD i 0#64 := by
  have hlen : d.cells2.length = d.cells1.length := d.length2.trans d.length1.symm
  refine relocateRange_image _ _ _ _ _ ?_ ?_
  · rwa [compareSection_length _ _ _ hlen]
  · rw [d.length1] at hi
    rw [relocSteps]
    omega

/-- What is written for a cell with an address. -/
theorem Dumps.HoldsAddress.compareCell_eq {d : Dumps} {i k : Nat} {o : Cell}
    (h : d.HoldsAddress i k o) (sym : Symbols) :
    compareCell sym d.sects1 d.sects2 (d.cells1.getD i 0#64) (d.cells2.getD i 0#64) =
      (token k o, true) := by
  obtain ⟨s1, hs1, -, ho1⟩ := h.address1.sect
  obtain ⟨s2, hs2, -, ho2⟩ := h.address2.sect
  have hne : d.cells1.getD i 0#64 ≠ d.cells2.getD i 0#64 := by
    intro heq
    refine d.start_ne k s1 s2 hs1 hs2 ?_
    rw [← ho1, heq] at ho2
    exact ((BitVec.sub_right_inj _).mp ho2).symm
  rw [compareCell, if_neg hne, sectReloc_eq h.address1, sectReloc_eq h.address2, if_pos rfl]

/-- An address is reloaded as the address in the new section. -/
theorem Dumps.HoldsAddress.reload_eq {d : Dumps} {i k : Nat} {o : Cell}
    (h : d.HoldsAddress i k o) (sym : Symbols) (prim : Cell → Cell × Bool) (sect : Nat)
    (sections : Nat → Cell) :
    (d.reload sym prim sect sections).getD i 0#64 =
      (relocateCell ⟨sections, fun _ => 0#64, prim⟩ 0#64 (token k o)).1 := by
  have hlen : d.cells2.length = d.cells1.length := d.length2.trans d.length1.symm
  rw [d.reload_getD _ _ _ _ h.index_lt, compareSection_bitAt _ _ _ hlen h.index_lt,
    compareSection_getD _ _ _ hlen h.index_lt, h.compareCell_eq, if_pos rfl]

/-- Making and loading an image keeps the addresses of a section exactly if they are all
in sections with a number below 128, at offsets below 2^56. -/
theorem relocate_address_iff (d : Dumps) (sym : Symbols) (prim : Cell → Cell × Bool)
    (sect : Nat) :
    d.Survive sym prim sect ↔
      ∀ {i k o}, d.HoldsAddress i k o → k < 128 ∧ o.toNat < 2 ^ 56 := by
  constructor
  · intro h i k o haddr
    refine (relocateCell_token_iff prim k o).mp fun sections => ?_
    rw [← haddr.reload_eq sym prim sect sections]
    exact h.address haddr sections
  · intro h
    refine ⟨?_, ?_⟩
    · intro i k o haddr sections
      rw [haddr.reload_eq]
      exact (relocateCell_token_iff prim k o).mpr (h haddr) sections
    · intro i hi hclear sections
      rw [d.reload_getD _ _ _ _ hi, hclear]
      rfl

/-! ## The section number 128 -/

/-- The start of section {lit}`k` in a dump with its sections 1024 bytes apart. -/
def startOf (base k : Nat) : Cell :=
  BitVec.ofNat 64 (base + 1024 * k)

/-- The sections of such a dump, with 64 bytes each. -/
def manySects (base : Nat) : List Sect :=
  (List.range 129).map fun k => ⟨startOf base k, startOf base k + 64⟩

/-- Sections of the example -/
theorem manySects_getElem? {base k : Nat} (hk : k < 129) :
    (manySects base)[k]? = some ⟨startOf base k, startOf base k + 64⟩ := by
  rw [manySects, List.getElem?_map, List.getElem?_range hk]
  rfl

/-- Distances in the example -/
theorem startOf_sub_startOf (base : Nat) {k : Nat} (hk : k ≤ 128) :
    (startOf base 128 - startOf base k).toNat = 1024 * (128 - k) := by
  have hsum : base + 1024 * 128 = base + 1024 * k + 1024 * (128 - k) := by omega
  have hlt : 1024 * (128 - k) < 2 ^ 64 := by omega
  rw [startOf, startOf, hsum, BitVec.ofNat_add, BitVec.add_comm, BitVec.add_sub_cancel,
    BitVec.toNat_ofNat, Nat.mod_eq_of_lt hlt]

/-- Only one section of the example has the address. -/
theorem covers_startOf (base : Nat) {k : Nat} (hk : k ≤ 128) :
    Sect.covers ⟨startOf base k, startOf base k + 64⟩ (startOf base 128) = decide (k = 128) := by
  have hend : startOf base k + 64 + 1 - startOf base k = 65#64 := by
    rw [BitVec.add_assoc, BitVec.add_comm, BitVec.add_sub_cancel]
    rfl
  rw [Sect.covers, within, hend, BitVec.ult, startOf_sub_startOf base hk, BitVec.toNat_ofNat,
    decide_eq_decide]
  omega

/-- An address in the last section -/
theorem manySects_addressAt (base : Nat) :
    AddressAt (manySects base) 128 0#64 (startOf base 128) := by
  refine ⟨⟨_, manySects_getElem? (Nat.lt_succ_self 128), ?_, ?_⟩, ?_⟩
  · rw [covers_startOf base le_rfl]
    rfl
  · exact BitVec.sub_self _
  · intro j hj s hs
    rw [manySects_getElem? (by omega)] at hs
    cases hs
    rw [covers_startOf base hj.le, decide_eq_false (Nat.ne_of_lt hj)]

/-- Two dumps of 129 sections, and a cell with the start of the last one. -/
def manyDumps : Dumps where
  sects1 := manySects 0x10000
  sects2 := manySects 0x800000
  start_ne := by
    intro k s1 s2 hs1 hs2
    have hk : k < 129 := by
      have := (List.getElem?_eq_some_iff.mp hs1).1
      rwa [manySects, List.length_map, List.length_range] at this
    rw [manySects_getElem? hk] at hs1 hs2
    cases hs1
    cases hs2
    intro heq
    have := congrArg BitVec.toNat heq
    simp only [startOf, BitVec.toNat_ofNat] at this
    omega
  size := 8
  cells1 := [startOf 0x10000 128]
  cells2 := [startOf 0x800000 128]
  length1 := rfl
  length2 := rfl

theorem manyDumps_holdsAddress : manyDumps.HoldsAddress 0 128 0#64 where
  index_lt := Nat.one_pos
  address1 := manySects_addressAt _
  address2 := manySects_addressAt _

/-- The symbols of two runs of one engine at the same addresses. -/
def sameSymbols : Symbols where
  cbase := 0
  coffset := 0
  xbase := 0
  xoffset := 0
  lbase := 0
  loffset := 0
  toCfa := id
  toTag := id

/-- The start of section 128 does not survive: its token is negative, and the loader
leaves it as it is. -/
theorem relocate_section_128 :
    ¬manyDumps.Survive sameSymbols (fun token => (token, false)) 0 := by
  intro h
  have hlt := (relocateCell_token_iff (fun token => (token, false)) 128 0#64).mp fun sections => by
    rw [← manyDumps_holdsAddress.reload_eq sameSymbols (fun token => (token, false)) 0 sections]
    exact h.address manyDumps_holdsAddress sections
  exact absurd hlt.1 (lt_irrefl 128)

end Image
end Gforth
