import Gforth.Hash.Keys
import Gforth.Image.Relocation

/-!
# Tags of primitives

References to primitives are written to images as negative cells.  {lit}`>tag` puts the group of
the primitive and its index in the group into the lowest 14 bits before it negates them, and
{lit}`write-symbol` flips one of the two bits above them for the kind of the reference.  The loader
takes them apart with the running sums of the groups, for which it has an array of 32 cells.

Main results:

- Theorem {lit}`tag_eq`: the tag of a primitive, from its group and its index in the group.
- Theorem {lit}`decodePrim_token`: what the loader makes of the token of a group.
- Theorem {lit}`tags_survive`: references survive with at most 30 groups after the doers.
-/

namespace Gforth
namespace Image

open Lib Hash.Keys

/-! ## References -/

/-- The kinds of references to primitives -/
inductive RefKind where
  | code | xt | label
deriving DecidableEq

/-- The mask that {lit}`write-symbol` gets -/
def RefKind.mask : RefKind → Nat
  | .code => 0x4000
  | .xt => 0
  | .label => 0x8000

/-- The numbers of primitives in the groups after the doers -/
structure PrimGroups where
  sizes : List Nat
  length_le : sizes.length ≤ 31
  size_le : ∀ n ∈ sizes, n ≤ 512

/-- {lit}`maxdoer-tag` and {lit}`DOER_MAX` -/
def maxdoerTag : Nat := 9

namespace PrimGroups

/-- The running sums that {lit}`gforth_relocate` makes: entry 1 is the number of doers. -/
def sum (t : PrimGroups) (k : Nat) : Nat :=
  if k = 0 then 0 else maxdoerTag + 1 + (t.sizes.take (k - 1)).sum

/-- The number of doers and primitives in groups -/
def total (t : PrimGroups) : Nat :=
  maxdoerTag + 1 + t.sizes.sum

/-- {lit}`groups`, an array of 32 cells, and {lit}`tag-offsets`, its address: the value of entry
{lit}`k`, where {lit}`beyond` is the cell behind the array. -/
def cells (t : PrimGroups) {w : Nat} (beyond : BitVec w) (k : Nat) : BitVec w :=
  if k < 32 then BitVec.ofNat w (t.sum k) else beyond

end PrimGroups

/-! ## Making tokens -/

/-- {lit}`cell/` -/
def cellSlash (c : CellSize) (n : BitVec c.bits) : BitVec c.bits :=
  n.sshiftRight (if c.bytes = 8 then 3 else 2)

variable {w : Nat}

/-- {lit}`>tag` -/
def toTag (tagOffsets : Nat → BitVec w) (index : BitVec w) : BitVec w :=
  if (BitVec.ofNat w maxdoerTag).slt index then
    match (List.range' 1 0x20).find? fun i => index.slt (tagOffsets i) with
    | some i => -(index - tagOffsets (i - 1) + BitVec.ofNat w (i - 1) <<< 9)
    | none => -2#w - index
  else -2#w - index

/-- {lit}`write-symbol`: the cell that is written -/
def writeSymbol (c : CellSize) (tagOffsets : Nat → BitVec c.bits) (acell : BitVec c.bits)
    (mask : Nat) : BitVec c.bits :=
  toTag tagOffsets (cellSlash c acell) ^^^ BitVec.ofNat c.bits mask

/-! ## Reading tokens -/

/-- The threading of the engine that loads the image -/
inductive Threading where
  | direct | indirect | doublyIndirect
deriving DecidableEq

/-- What the loader stores in place of a token: the null pointer, the label in
{lit}`vm_prims[k]`, the address of an entry of {lit}`vm_prims` or of {lit}`xts`, or nothing -/
inductive Slot where
  | null
  | label (k : Int)
  | prim (k : Int)
  | xt (k : Int)
  | unchanged
deriving DecidableEq

/-- {lit}`CF` -/
def cf (x : BitVec w) : BitVec w :=
  -x - 2#w

/-- {lit}`CFA` -/
def cfa (th : Threading) (n : BitVec w) : Slot :=
  if th = .doublyIndirect ∧ n &&& 0x4000#w = 0#w then .xt (n &&& ~~~0x4000#w).toInt
  else .prim (n &&& ~~~0x4000#w).toInt

/-- {lit}`gforth_relocate_range`, for a token of a primitive: the cell, and whether the relocation
bit is set again -/
def decodePrim (th : Threading) (groups : Nat → BitVec w) (npriminfos : Int) (token : BitVec w) :
    Slot × Bool :=
  let group := ((-token &&& 0x3E00#w) >>> 9).toNat
  if group = 0 then
    if token ||| 0x4000#w = -1#w then (.null, false)
    else if th ≠ .doublyIndirect ∧ (cf (BitVec.ofNat w maxdoerTag)).sle (token ||| 0x4000#w) ∧
        (token ||| 0x4000#w).sle (cf 0#w) then
      (.label (cf token).toInt, false)
    else if (cf (token ||| 0x4000#w)).toInt < npriminfos then
      (cfa th (cf token), decide (th = .direct ∧ token &&& 0x4000#w = 0#w))
    else (.unchanged, false)
  else
    let tok := -token &&& 0x1FF#w
    if tok.slt (groups (group + 1) - groups group) then
      let n := groups group + tok
      if th = .direct ∧ token &&& 0x4000#w = 0#w then (cfa th n, true)
      else if token &&& 0x8000#w = 0#w then (.label n.toInt, false)
      else if th = .doublyIndirect then (cfa th (n ||| (cf token &&& 0x4000#w)), false)
      else (cfa th n, false)
    else (.unchanged, false)

/-- The number of the section in the highest 8 bits -/
def tokenSection (x : BitVec w) : Nat :=
  (x >>> (w - 8)).toNat

/-- How an engine represents a reference to primitive {lit}`k`.  Threaded code is compiled again
with direct threading and consists of xts with indirect threading. -/
def reference (th : Threading) (kind : RefKind) (k : Nat) : Slot × Bool :=
  match th, kind with
  | _, .label => (.label k, false)
  | .direct, .code => (.prim k, true)
  | .doublyIndirect, .xt => (.xt k, false)
  | _, _ => (.prim k, false)

/-- How an engine represents a reference to a doer in a code field -/
def doerReference (th : Threading) (k : Nat) : Slot × Bool :=
  if th = .doublyIndirect then (.xt k, false) else (.label k, false)

/-! ## Bits of tokens -/

section Bits

variable (hw : 32 ≤ w) {n : Nat}

theorem toNat_ofNat_of_lt_two_pow (hw : 32 ≤ w) (hn : n < 2 ^ 31) : (BitVec.ofNat w n).toNat = n := by
  rw [BitVec.toNat_ofNat]
  exact Nat.mod_eq_of_lt (lt_of_lt_of_le hn (Nat.pow_le_pow_right (by decide) (by omega)))

theorem toInt_ofNat_of_lt (hw : 32 ≤ w) (hn : n < 2 ^ 30) : (BitVec.ofNat w n).toInt = n := by
  have hpow : 2 ^ 32 ≤ 2 ^ w := Nat.pow_le_pow_right (by decide) hw
  have hnat := toNat_ofNat_of_lt_two_pow hw (lt_trans hn (by decide))
  rw [BitVec.toInt_eq_toNat_of_lt (by rw [hnat]; omega), hnat]

theorem slt_ofNat_iff (hw : 32 ≤ w) {m : Nat} (hm : m < 2 ^ 30) (hn : n < 2 ^ 30) :
    (BitVec.ofNat w m).slt (BitVec.ofNat w n) = decide (m < n) := by
  rw [BitVec.slt, decide_eq_decide, toInt_ofNat_of_lt hw hm, toInt_ofNat_of_lt hw hn, Nat.cast_lt]

theorem ofNat_sub_ofNat (hw : 32 ≤ w) {m : Nat} (hm : m ≤ n) (hn : n < 2 ^ 31) :
    BitVec.ofNat w n - BitVec.ofNat w m = BitVec.ofNat w (n - m) :=
  BitVec.ofNat_sub_ofNat_of_le n m
    (lt_of_le_of_lt hm (lt_of_lt_of_le hn (Nat.pow_le_pow_right (by decide) (by omega)))) hm

theorem neg_ofNat (hn : 1 ≤ n) : -BitVec.ofNat w n = ~~~BitVec.ofNat w (n - 1) := by
  have hsucc : BitVec.ofNat w n = BitVec.ofNat w (n - 1) + 1#w := by
    rw [BitVec.ofNat_add_ofNat, Nat.sub_add_cancel hn]
  rw [hsucc, BitVec.not_eq_neg_add, BitVec.neg_add]

/-- Flipping one of the bits above a tag subtracts it. -/
theorem neg_xor_mask (hn : 1 ≤ n) (hle : n ≤ 2 ^ 14) (kind : RefKind) :
    -BitVec.ofNat w n ^^^ BitVec.ofNat w kind.mask = -BitVec.ofNat w (n + kind.mask) := by
  have hxor : (n - 1) ^^^ kind.mask = n - 1 + kind.mask := by
    cases kind with
    | code => exact xor_two_pow_of_lt (k := 14) (by omega)
    | xt => exact Nat.xor_zero _
    | label => exact xor_two_pow_of_lt (k := 15) (by omega)
  have hpred : n + kind.mask - 1 = n - 1 + kind.mask := by omega
  rw [neg_ofNat hn, ← BitVec.not_xor_left, ← BitVec.ofNat_xor, hxor, neg_ofNat (by omega), hpred]

/-- The bits of a negated number -/
theorem neg_and_twoPow_eq_zero_iff (hw : 32 ≤ w) (hn : 1 ≤ n) {i : Nat} (hi : i < 32) :
    -BitVec.ofNat w n &&& BitVec.twoPow w i = 0#w ↔ (n - 1) / 2 ^ i % 2 = 1 := by
  have hi' : i < w := lt_of_lt_of_le hi hw
  have hne : BitVec.twoPow w i ≠ 0#w := by
    rw [Ne, ← BitVec.toNat_inj, BitVec.toNat_twoPow_of_lt hi', BitVec.toNat_zero]
    exact (Nat.two_pow_pos i).ne'
  rw [BitVec.and_twoPow, neg_ofNat hn, BitVec.getLsbD_not, BitVec.getLsbD_ofNat,
    Nat.testBit_eq_decide_div_mod_eq, decide_eq_true hi', Bool.true_and, Bool.true_and]
  split
  · rename_i hbit
    exact iff_of_false hne (by simpa using hbit)
  · rename_i hbit
    exact iff_of_true rfl (by simpa using hbit)

theorem cf_neg_ofNat (hw : 32 ≤ w) (hn : 2 ≤ n) (hlt : n < 2 ^ 31) :
    cf (-BitVec.ofNat w n) = BitVec.ofNat w (n - 2) := by
  rw [cf, BitVec.neg_neg, ofNat_sub_ofNat hw hn hlt]

/-- The group in a token -/
theorem toNat_group (hw : 32 ≤ w) (hlt : n < 2 ^ 31) :
    ((BitVec.ofNat w n &&& 0x3E00#w) >>> 9).toNat = n / 512 % 32 := by
  rw [BitVec.toNat_ushiftRight, BitVec.toNat_and, toNat_ofNat_of_lt_two_pow hw hlt,
    toNat_ofNat_of_lt_two_pow hw (by decide), Nat.shiftRight_and_distrib, Nat.shiftRight_eq_div_pow]
  exact Nat.and_two_pow_sub_one_eq_mod (n / 2 ^ 9) 5

/-- The index in the group in a token -/
theorem index_in_group (hw : 32 ≤ w) (hlt : n < 2 ^ 31) :
    BitVec.ofNat w n &&& 0x1FF#w = BitVec.ofNat w (n % 512) := by
  have hmod : n % 512 < 2 ^ 31 := by omega
  rw [← BitVec.toNat_inj, BitVec.toNat_and, toNat_ofNat_of_lt_two_pow hw hlt,
    toNat_ofNat_of_lt_two_pow hw (by decide), toNat_ofNat_of_lt_two_pow hw hmod]
  exact Nat.and_two_pow_sub_one_eq_mod n 9

theorem ofNat_two_pow (w i : Nat) : BitVec.ofNat w (2 ^ i) = BitVec.twoPow w i :=
  BitVec.eq_of_toNat_eq (by rw [BitVec.toNat_ofNat, BitVec.toNat_twoPow])

theorem codeFlag_eq (w : Nat) : 0x4000#w = BitVec.twoPow w 14 :=
  ofNat_two_pow w 14

theorem labelFlag_eq (w : Nat) : 0x8000#w = BitVec.twoPow w 15 :=
  ofNat_two_pow w 15

theorem getLsbD_kind (hn : n < 2 ^ 14) : (BitVec.ofNat w n).getLsbD 14 = false := by
  rw [BitVec.getLsbD_ofNat, Nat.testBit_lt_two_pow hn, Bool.and_false]

/-- Clearing a bit that is not set -/
theorem and_not_twoPow {x : BitVec w} {i : Nat} (hx : x.getLsbD i = false) :
    x &&& ~~~BitVec.twoPow w i = x := by
  refine BitVec.eq_of_getLsbD_eq fun j hj => ?_
  rw [BitVec.getLsbD_and, BitVec.getLsbD_not, BitVec.getLsbD_twoPow]
  by_cases hij : i = j
  · rw [← hij, hx, Bool.false_and]
  · simp [hij, hj]

/-- A bit that is set and cleared -/
theorem or_and_not_twoPow {x : BitVec w} {i : Nat} (hx : x.getLsbD i = false) :
    (x ||| BitVec.twoPow w i) &&& ~~~BitVec.twoPow w i = x := by
  refine BitVec.eq_of_getLsbD_eq fun j hj => ?_
  rw [BitVec.getLsbD_and, BitVec.getLsbD_or, BitVec.getLsbD_not, BitVec.getLsbD_twoPow]
  by_cases hij : i = j
  · rw [← hij, hx]
    simp
  · simpa [hij] using fun _ => hj

/-- Setting a bit that is set -/
theorem or_twoPow {x : BitVec w} {i : Nat} (hx : x.getLsbD i = true) :
    x ||| BitVec.twoPow w i = x := by
  refine BitVec.eq_of_getLsbD_eq fun j hj => ?_
  rw [BitVec.getLsbD_or, BitVec.getLsbD_twoPow]
  by_cases hij : i = j
  · rw [← hij, hx, Bool.true_or]
  · simp [hij]

/-- The code field of a small token -/
theorem cfa_ofNat (hw : 32 ≤ w) (th : Threading) (hn : n < 2 ^ 14) :
    cfa th (BitVec.ofNat w n) = if th = .doublyIndirect then .xt n else .prim n := by
  have hflag : BitVec.ofNat w n &&& 0x4000#w = 0#w := by
    rw [codeFlag_eq, BitVec.and_twoPow, getLsbD_kind hn, if_neg Bool.false_ne_true]
  have hindex : BitVec.ofNat w n &&& ~~~0x4000#w = BitVec.ofNat w n := by
    rw [codeFlag_eq, and_not_twoPow (getLsbD_kind hn)]
  have hint := toInt_ofNat_of_lt hw (lt_trans hn (by decide))
  simp only [cfa, hflag, hindex, hint, and_true]

/-- The code field of a flagged token -/
theorem cfa_flagged (hw : 32 ≤ w) (hn : n < 2 ^ 14) :
    cfa .doublyIndirect (BitVec.ofNat w n ||| 0x4000#w) = .prim n := by
  have hflag : (BitVec.ofNat w n ||| 0x4000#w) &&& 0x4000#w ≠ 0#w := by
    have hbit : (BitVec.ofNat w n ||| BitVec.twoPow w 14).getLsbD 14 = true := by
      rw [BitVec.getLsbD_or, BitVec.getLsbD_twoPow, getLsbD_kind hn, Bool.false_or,
        decide_eq_true (by omega), decide_eq_true rfl, Bool.and_true]
    rw [codeFlag_eq, BitVec.and_twoPow, hbit, if_pos rfl, Ne, ← BitVec.toNat_inj,
      BitVec.toNat_twoPow_of_lt (by omega), BitVec.toNat_zero]
    decide
  have hindex : (BitVec.ofNat w n ||| 0x4000#w) &&& ~~~0x4000#w = BitVec.ofNat w n := by
    rw [codeFlag_eq, or_and_not_twoPow (getLsbD_kind hn)]
  rw [cfa, if_neg fun h => hflag h.2, hindex, toInt_ofNat_of_lt hw (lt_trans hn (by decide))]

end Bits

/-! ## Tokens of groups -/

/-- The loader takes a token of a group apart. -/
theorem decodePrim_token (hw : 32 ≤ w) (th : Threading) {groups : Nat → BitVec w}
    (npriminfos : Int) (kind : RefKind) {g tok start next : Nat} (hg : 1 ≤ g) (hg31 : g ≤ 31)
    (htok : tok < 512) (hstart : groups g = BitVec.ofNat w start)
    (hnext : groups (g + 1) = BitVec.ofNat w next) (hlt : start + tok < next)
    (hle : next ≤ 2 ^ 14) :
    decodePrim th groups npriminfos (-BitVec.ofNat w (tok + g * 512 + kind.mask)) =
      reference th kind (start + tok) := by
  have hmask : kind.mask ≤ 2 ^ 15 := by cases kind <;> decide
  have hgroup : (tok + g * 512 + kind.mask) / 512 % 32 = g := by
    cases kind <;> simp only [RefKind.mask] <;> omega
  have hindex : (tok + g * 512 + kind.mask) % 512 = tok := by
    cases kind <;> simp only [RefKind.mask] <;> omega
  have hcode : -BitVec.ofNat w (tok + g * 512 + kind.mask) &&& 0x4000#w = 0#w ↔ kind = .code := by
    rw [codeFlag_eq, neg_and_twoPow_eq_zero_iff hw (by omega) (by decide)]
    cases kind <;> simp [RefKind.mask] <;> omega
  have hlabel : -BitVec.ofNat w (tok + g * 512 + kind.mask) &&& 0x8000#w = 0#w ↔ kind = .label := by
    rw [labelFlag_eq, neg_and_twoPow_eq_zero_iff hw (by omega) (by decide)]
    cases kind <;> simp [RefKind.mask] <;> omega
  have hin : (BitVec.ofNat w tok).slt (groups (g + 1) - groups g) = true := by
    rw [hstart, hnext, ofNat_sub_ofNat hw (by omega) (by omega), slt_ofNat_iff hw (by omega) (by omega),
      decide_eq_true_eq]
    omega
  have hsum : groups g + BitVec.ofNat w tok = BitVec.ofNat w (start + tok) := by
    rw [hstart, BitVec.ofNat_add_ofNat]
  have hcf : cf (-BitVec.ofNat w (tok + g * 512 + kind.mask)) &&& 0x4000#w =
      if kind = .code then 0x4000#w else 0#w := by
    rw [cf_neg_ofNat hw (by omega) (by omega), codeFlag_eq, BitVec.and_twoPow, BitVec.getLsbD_ofNat,
      decide_eq_true (by omega : 14 < w), Bool.true_and, Nat.testBit_eq_decide_div_mod_eq]
    refine if_congr ?_ rfl rfl
    rw [decide_eq_true_eq]
    cases kind <;> simp [RefKind.mask] <;> omega
  have hprim := cfa_ofNat hw th (n := start + tok) (by omega)
  have hflagged := cfa_flagged hw (n := start + tok) (by omega)
  have hint := toInt_ofNat_of_lt hw (n := start + tok) (by omega)
  unfold decodePrim
  simp only [BitVec.neg_neg, toNat_group hw (n := tok + g * 512 + kind.mask) (by omega),
    index_in_group hw (n := tok + g * 512 + kind.mask) (by omega), hgroup, hindex, hin, hsum, hcode,
    hlabel, hcf, hprim, hint]
  rw [if_neg (by omega)]
  cases kind <;> cases th <;> simp [reference, hflagged, hprim]

theorem toInt_neg_ofNat (hw : 32 ≤ w) {n : Nat} (hn : n < 2 ^ 30) :
    (-BitVec.ofNat w n).toInt = -(n : Int) := by
  have hne : BitVec.ofNat w n ≠ BitVec.intMin w := by
    intro h
    have hmin := BitVec.toInt_intMin_of_pos (v := w) (by omega)
    rw [← h, toInt_ofNat_of_lt hw hn] at hmin
    have hpos : (0 : Int) < 2 ^ (w - 1) := by positivity
    omega
  rw [BitVec.toInt_neg_of_ne_intMin hne, toInt_ofNat_of_lt hw hn]

/-- A token of a doer in a code field -/
theorem decodePrim_doer (hw : 32 ≤ w) (th : Threading) (groups : Nat → BitVec w)
    {npriminfos : Int} (hprims : 10 ≤ npriminfos) {k : Nat} (hk : k ≤ maxdoerTag) :
    decodePrim th groups npriminfos (-2#w - BitVec.ofNat w k) = doerReference th k := by
  have hk' : k ≤ 9 := hk
  have htoken : -2#w - BitVec.ofNat w k = -BitVec.ofNat w (k + 2) := by
    rw [Nat.add_comm, ← BitVec.ofNat_add_ofNat, BitVec.neg_add]
  have hor : -BitVec.ofNat w (k + 2) ||| 0x4000#w = -BitVec.ofNat w (k + 2) := by
    have hsmall : (BitVec.ofNat w (k + 1)).getLsbD 14 = false := getLsbD_kind (by omega)
    have hbit : (-BitVec.ofNat w (k + 2)).getLsbD 14 = true := by
      have hpred : k + 2 - 1 = k + 1 := rfl
      rw [neg_ofNat (by omega), BitVec.getLsbD_not, hpred, hsmall, decide_eq_true (by omega),
        Bool.not_false, Bool.and_true]
    rw [codeFlag_eq, or_twoPow hbit]
  have hne : -BitVec.ofNat w (k + 2) ≠ -1#w := by
    intro h
    have hint := congrArg BitVec.toInt h
    rw [toInt_neg_ofNat hw (by omega), toInt_neg_ofNat hw (by omega)] at hint
    omega
  have hmax : cf (BitVec.ofNat w maxdoerTag) = -BitVec.ofNat w 11 := by
    rw [cf, ← BitVec.neg_add, BitVec.ofNat_add_ofNat]
    rfl
  have hmin : cf 0#w = -BitVec.ofNat w 2 := by
    rw [cf, BitVec.neg_zero, BitVec.zero_sub]
  have hrange : (cf (BitVec.ofNat w maxdoerTag)).sle (-BitVec.ofNat w (k + 2)) = true ∧
      (-BitVec.ofNat w (k + 2)).sle (cf 0#w) = true := by
    rw [hmax, hmin, BitVec.sle_iff_toInt_le, BitVec.sle_iff_toInt_le, toInt_neg_ofNat hw (by omega),
      toInt_neg_ofNat hw (by omega), toInt_neg_ofNat hw (by omega)]
    omega
  have hcf : cf (-BitVec.ofNat w (k + 2)) = BitVec.ofNat w k :=
    cf_neg_ofNat hw (by omega) (by omega)
  have hgroup : (k + 2) / 512 % 32 = 0 := by omega
  have hint := toInt_ofNat_of_lt hw (n := k) (by omega)
  have hcfa := cfa_ofNat hw th (n := k) (by omega)
  rw [htoken]
  unfold decodePrim
  simp only [BitVec.neg_neg, toNat_group hw (n := k + 2) (by omega), hgroup, hor, hcf, hint, hcfa]
  rw [if_pos trivial, if_neg hne]
  cases th with
  | direct | indirect => simp [hrange, doerReference]
  | doublyIndirect =>
    have hlt : (k : Int) < npriminfos := by omega
    simp [hlt, doerReference]

/-! ## Tags -/

namespace PrimGroups

variable (t : PrimGroups)

theorem sum_zero : t.sum 0 = 0 :=
  rfl

theorem sum_succ (k : Nat) : t.sum (k + 1) = maxdoerTag + 1 + (t.sizes.take k).sum :=
  rfl

/-- A group has at most 512 primitives. -/
theorem sum_take_succ_le (k : Nat) : (t.sizes.take (k + 1)).sum ≤ (t.sizes.take k).sum + 512 := by
  rcases Nat.lt_or_ge k t.sizes.length with hlt | hge
  · have hsize := t.size_le _ (List.getElem_mem hlt)
    rw [List.take_succ_eq_append_getElem hlt, List.sum_append, List.sum_singleton]
    omega
  · rw [List.take_of_length_le hge, List.take_of_length_le (by omega)]
    omega

/-- The sums grow. -/
theorem sum_mono {j k : Nat} (h : j ≤ k) : t.sum j ≤ t.sum k := by
  have hpre : (t.sizes.take (j - 1)).sum ≤ (t.sizes.take (k - 1)).sum :=
    (List.take_sublist_take_left (by omega)).sum_le_sum fun _ _ => Nat.zero_le _
  unfold sum
  split <;> split <;> omega

/-- The sums are bounded. -/
theorem sum_le (k : Nat) : t.sum (k + 1) ≤ maxdoerTag + 1 + k * 512 := by
  induction k with
  | zero => simp [sum_succ]
  | succ k ih =>
    have hstep := t.sum_take_succ_le k
    rw [sum_succ] at ih ⊢
    omega

/-- The group of a primitive -/
theorem exists_group {k : Nat} (hge : maxdoerTag < k) (hlt : k < t.total) :
    ∃ g, 1 ≤ g ∧ g ≤ t.sizes.length ∧ t.sum g ≤ k ∧ k < t.sum (g + 1) := by
  have hall : k < t.sum (t.sizes.length + 1) := by
    rwa [sum_succ, List.take_length]
  have hex : ∃ g, k < t.sum (g + 1) := ⟨_, hall⟩
  have hfind := Nat.find_spec hex
  refine ⟨Nat.find hex, ?_, Nat.find_min' hex hall, ?_, hfind⟩
  · by_contra hzero
    rw [Nat.lt_one_iff.mp (Nat.not_le.mp hzero), sum_succ, List.take_zero] at hfind
    simp at hfind
    omega
  · by_contra hnot
    have hpos : Nat.find hex ≠ 0 := fun hzero => by simp [hzero, sum_zero] at hnot
    refine Nat.find_min hex (Nat.sub_one_lt hpos) ?_
    rw [Nat.sub_add_cancel (Nat.one_le_iff_ne_zero.mpr hpos)]
    exact Nat.not_le.mp hnot

/-- A primitive that is in a group -/
theorem sum_lt_sum_add {g k : Nat} (hg : 1 ≤ g) (hk : k < t.sum (g + 1)) : k < t.sum g + 512 := by
  have hstep := t.sum_take_succ_le (g - 1)
  obtain ⟨g, rfl⟩ := Nat.exists_eq_add_of_le' hg
  rw [Nat.add_sub_cancel] at hstep
  rw [sum_succ] at hk ⊢
  omega

theorem cells_eq (beyond : BitVec w) {k : Nat} (hk : k < 32) :
    t.cells beyond k = BitVec.ofNat w (t.sum k) :=
  if_pos hk

end PrimGroups

/-- The tag of a primitive, by its group and its index in the group -/
theorem toTag_eq (hw : 32 ≤ w) (t : PrimGroups) (beyond : BitVec w) {g k : Nat} (hg : 1 ≤ g)
    (hg30 : g ≤ 30) (hge : maxdoerTag < k) (hle : t.sum g ≤ k) (hlt : k < t.sum (g + 1)) :
    toTag (t.cells beyond) (BitVec.ofNat w k) = -BitVec.ofNat w (k - t.sum g + g * 512) := by
  have hsum : ∀ {j}, j < 32 → t.sum j ≤ 10 + 31 * 512 := by
    intro j hj
    refine le_trans (t.sum_mono (show j ≤ 31 + 1 by omega)) (t.sum_le 31)
  have hk : k < 2 ^ 14 := lt_of_lt_of_le hlt (le_trans (hsum (by omega)) (by decide))
  have hfind : (List.range' 1 0x20).find? (fun i => (BitVec.ofNat w k).slt (t.cells beyond i)) =
      some (g + 1) := by
    rw [List.find?_range'_eq_some]
    refine ⟨?_, by simp; omega, fun j hj hjg => ?_⟩
    · have hj' := hsum (j := g + 1) (by omega)
      rw [t.cells_eq beyond (by omega), slt_ofNat_iff hw (by omega) (by omega), decide_eq_true hlt]
    · have hbefore := t.sum_mono (show j ≤ g by omega)
      have hj' := hsum (j := j) (by omega)
      rw [t.cells_eq beyond (by omega), slt_ofNat_iff hw (by omega) (by omega),
        decide_eq_false (by omega), Bool.not_false]
  have hshift : BitVec.ofNat w g <<< 9 = BitVec.ofNat w (g * 512) := by
    rw [← BitVec.toNat_inj, BitVec.toNat_shiftLeft, BitVec.toNat_ofNat, Nat.shiftLeft_eq,
      Nat.mod_mul_mod, BitVec.toNat_ofNat]
  have hdoer : (BitVec.ofNat w maxdoerTag).slt (BitVec.ofNat w k) = true := by
    rw [slt_ofNat_iff hw (by decide) (by omega), decide_eq_true hge]
  rw [toTag, if_pos hdoer, hfind]
  simp only [Nat.add_sub_cancel]
  rw [t.cells_eq beyond (by omega), ofNat_sub_ofNat hw hle (by omega), hshift,
    BitVec.ofNat_add_ofNat]

/-- The tag of a doer -/
theorem toTag_doer (hw : 32 ≤ w) (tagOffsets : Nat → BitVec w) {k : Nat} (hk : k ≤ maxdoerTag) :
    toTag tagOffsets (BitVec.ofNat w k) = -2#w - BitVec.ofNat w k := by
  have hk' : k ≤ 9 := hk
  have hdoer : ¬(BitVec.ofNat w maxdoerTag).slt (BitVec.ofNat w k) = true := by
    rw [slt_ofNat_iff hw (by decide) (by omega), decide_eq_true_eq]
    omega
  rw [toTag, if_neg hdoer]

/-- Tokens are in the section of the primitives. -/
theorem tokenSection_neg (hw : 32 ≤ w) {n : Nat} (hn : 1 ≤ n) (hle : n ≤ 2 ^ 16) :
    tokenSection (-BitVec.ofNat w n) = primSection := by
  have hsmall : n < 2 ^ w := lt_of_le_of_lt hle (Nat.pow_lt_pow_right (by decide) (by omega))
  have hpow : 2 ^ w = 256 * 2 ^ (w - 8) := by
    rw [show 256 = 2 ^ 8 from rfl, ← Nat.pow_add, Nat.add_sub_cancel' (by omega)]
  have hpart : n ≤ 2 ^ (w - 8) := le_trans hle (Nat.pow_le_pow_right (by decide) (by omega))
  rw [tokenSection, BitVec.toNat_ushiftRight, BitVec.toNat_neg, BitVec.toNat_ofNat,
    Nat.mod_eq_of_lt hsmall, Nat.mod_eq_of_lt (by omega), Nat.shiftRight_eq_div_pow]
  exact Nat.div_eq_of_lt_le (by rw [primSection]; omega) (by rw [primSection]; omega)

theorem bits_ge (c : CellSize) : 32 ≤ c.bits := by
  cases c <;> decide

/-- Dividing by the size of a cell -/
theorem cellSlash_eq (c : CellSize) {k : Nat} (hk : k < 2 ^ 14) :
    cellSlash c (BitVec.ofNat c.bits (k * c.bytes)) = BitVec.ofNat c.bits k := by
  have hw := bits_ge c
  have hbytes : c.bytes = 2 ^ (if c.bytes = 8 then 3 else 2) := by cases c <;> rfl
  have hle : c.bytes ≤ 8 := by cases c <;> decide
  have hprod : k * c.bytes ≤ k * 8 := Nat.mul_le_mul_left k hle
  have hsign : (BitVec.ofNat c.bits (k * c.bytes)).msb = false := by
    rw [← BitVec.slt_zero_eq_msb, slt_ofNat_iff hw (by omega) (by decide)]
    exact decide_eq_false (Nat.not_lt_zero _)
  rw [cellSlash, BitVec.sshiftRight_eq_of_msb_false hsign, ← BitVec.toNat_inj,
    BitVec.toNat_ushiftRight, toNat_ofNat_of_lt_two_pow hw (by omega), toNat_ofNat_of_lt_two_pow hw (by omega),
    Nat.shiftRight_eq_div_pow, ← hbytes]
  exact Nat.mul_div_cancel k (by cases c <;> decide)

/-! ## References in images -/

/-- The token of a primitive in a group -/
theorem writeSymbol_prim (c : CellSize) (t : PrimGroups) (beyond : BitVec c.bits) (kind : RefKind)
    {g k : Nat} (hg : 1 ≤ g) (hg30 : g ≤ 30) (hge : maxdoerTag < k) (hle : t.sum g ≤ k)
    (hlt : k < t.sum (g + 1)) :
    writeSymbol c (t.cells beyond) (BitVec.ofNat c.bits (k * c.bytes)) kind.mask =
      -BitVec.ofNat c.bits (k - t.sum g + g * 512 + kind.mask) := by
  have hw := bits_ge c
  have hindex := t.sum_lt_sum_add hg hlt
  have hsum := t.sum_le g
  rw [maxdoerTag] at hsum
  rw [writeSymbol, cellSlash_eq c (by omega), toTag_eq hw t beyond hg hg30 hge hle hlt,
    neg_xor_mask (by omega) (by omega)]

section Survival

variable (c : CellSize) (t : PrimGroups) (beyond : BitVec c.bits)

/-- The tag of a primitive is decoded. -/
theorem decodePrim_writeSymbol (hgroups : t.sizes.length ≤ 30) (th : Threading) (npriminfos : Int)
    {k : Nat} (hge : maxdoerTag < k) (hlt : k < t.total) (kind : RefKind) :
    decodePrim th (t.cells beyond) npriminfos
        (writeSymbol c (t.cells beyond) (BitVec.ofNat c.bits (k * c.bytes)) kind.mask) =
      reference th kind k := by
  obtain ⟨g, hg, hlen, hle, hnext⟩ := t.exists_group hge hlt
  have hindex := t.sum_lt_sum_add hg hnext
  have hsum := t.sum_le g
  rw [maxdoerTag] at hsum
  have htok : k - t.sum g < 512 := by omega
  have hdecode := decodePrim_token (bits_ge c) th npriminfos kind hg (by omega) htok
    (t.cells_eq beyond (by omega)) (t.cells_eq beyond (by omega)) (by omega) (by omega)
  rw [writeSymbol_prim c t beyond kind hg (by omega) hge hle hnext, hdecode, Nat.add_sub_cancel' hle]

/-- The tag of a code field is decoded. -/
theorem decodePrim_writeSymbol_doer (th : Threading) {npriminfos : Int}
    (hprims : (t.total : Int) ≤ npriminfos) {k : Nat} (hk : k ≤ maxdoerTag) :
    decodePrim th (t.cells beyond) npriminfos
        (writeSymbol c (t.cells beyond) (BitVec.ofNat c.bits (k * c.bytes)) 0) =
      doerReference th k := by
  have hk' : k ≤ 9 := hk
  have htotal : 10 ≤ t.total := Nat.le_add_right _ _
  rw [writeSymbol, cellSlash_eq c (by omega), toTag_doer (bits_ge c) _ hk, BitVec.xor_zero]
  exact decodePrim_doer (bits_ge c) th _ (by omega) hk

/-- The tag is not taken for an offset in a section. -/
theorem tokenSection_writeSymbol (hgroups : t.sizes.length ≤ 30) {k : Nat} (hlt : k < t.total)
    (kind : RefKind) :
    tokenSection (writeSymbol c (t.cells beyond) (BitVec.ofNat c.bits (k * c.bytes)) kind.mask) =
      primSection := by
  have hw := bits_ge c
  have hmask : kind.mask ≤ 2 ^ 15 := by cases kind <;> decide
  by_cases hdoer : k ≤ maxdoerTag
  · have hk' : k ≤ 9 := hdoer
    have htoken : -2#c.bits - BitVec.ofNat c.bits k = -BitVec.ofNat c.bits (k + 2) := by
      rw [Nat.add_comm, ← BitVec.ofNat_add_ofNat, BitVec.neg_add]
    rw [writeSymbol, cellSlash_eq c (by omega), toTag_doer hw _ hdoer, htoken,
      neg_xor_mask (by omega) (by omega)]
    exact tokenSection_neg hw (by omega) (by omega)
  · obtain ⟨g, hg, hlen, hle, hnext⟩ := t.exists_group (Nat.not_le.mp hdoer) hlt
    have hindex := t.sum_lt_sum_add hg hnext
    rw [writeSymbol_prim c t beyond kind hg (by omega) (Nat.not_le.mp hdoer) hle hnext]
    exact tokenSection_neg hw (by omega) (by omega)

end Survival

/-- With at most 30 groups after the doers, references survive: to primitives of each kind, and to
doers from code fields; and no token of them looks like an address in a section. -/
theorem tags_survive (c : CellSize) (t : PrimGroups) (hgroups : t.sizes.length ≤ 30)
    (beyond : BitVec c.bits) (th : Threading) {npriminfos : Int}
    (hprims : (t.total : Int) ≤ npriminfos) :
    (∀ k, maxdoerTag < k → k < t.total → ∀ kind : RefKind,
      decodePrim th (t.cells beyond) npriminfos
          (writeSymbol c (t.cells beyond) (BitVec.ofNat c.bits (k * c.bytes)) kind.mask) =
        reference th kind k) ∧
    (∀ k ≤ maxdoerTag,
      decodePrim th (t.cells beyond) npriminfos
          (writeSymbol c (t.cells beyond) (BitVec.ofNat c.bits (k * c.bytes)) 0) =
        doerReference th k) ∧
    ∀ k < t.total, ∀ kind : RefKind,
      tokenSection (writeSymbol c (t.cells beyond) (BitVec.ofNat c.bits (k * c.bytes)) kind.mask) =
        primSection :=
  ⟨fun _ hge hlt kind => decodePrim_writeSymbol c t beyond hgroups th npriminfos hge hlt kind,
    fun _ hk => decodePrim_writeSymbol_doer c t beyond th hprims hk,
    fun _ hlt kind => tokenSection_writeSymbol c t beyond hgroups hlt kind⟩

/-- Ten groups of one primitive each, on a machine with 32-bit cells: the label of primitive 15 -/
theorem tags_survive_ten :
    decodePrim .direct ((⟨List.replicate 10 1, by decide, by decide⟩ : PrimGroups).cells 0#32) 20
        (writeSymbol .four ((⟨List.replicate 10 1, by decide, by decide⟩ : PrimGroups).cells 0#32)
          (BitVec.ofNat 32 (15 * 4)) RefKind.label.mask) =
      (.label 15, false) :=
  (tags_survive .four ⟨List.replicate 10 1, by decide, by decide⟩ (by decide) 0#32 .direct
    (by decide)).1 15 (by decide) (by decide) .label

/-- 31 groups of one primitive each -/
def fullGroups : PrimGroups where
  sizes := List.replicate 31 1
  length_le := by decide
  size_le := by decide

/-- With 31 groups the sum behind the last one is not in the array, and the label of the last
primitive is lost; a doer is lost where the kind of its reference is in the token. -/
theorem tags_lost :
    decodePrim .direct (fullGroups.cells 0#64) 41
        (writeSymbol .eight (fullGroups.cells 0#64) (BitVec.ofNat 64 (40 * 8)) RefKind.label.mask) =
      (.unchanged, false) ∧
    decodePrim .direct (fullGroups.cells 0#64) 41
        (writeSymbol .eight (fullGroups.cells 0#64) (BitVec.ofNat 64 (2 * 8)) RefKind.code.mask) =
      (.label 0x4002, false) := by
  decide

/-! ## Relocation -/

/-- Where an engine keeps its primitives -/
structure PrimTables where
  vmPrims : Cell
  xts : Cell
  label : Int → Cell

/-- The cell that stands for a reference; without one the token stays. -/
def Slot.cell (p : PrimTables) (token : Cell) : Slot → Cell
  | .null => 0#64
  | .label k => p.label k
  | .prim k => p.vmPrims + BitVec.ofInt 64 (8 * k) + 16#64
  | .xt k => p.xts + BitVec.ofInt 64 (8 * k)
  | .unchanged => token

/-- The tables of a loader whose tokens of primitives are decoded by the sums of the groups -/
def primLoader (p : PrimTables) (th : Threading) (groups : Nat → Cell) (npriminfos : Int)
    (sections bases : Nat → Cell) : Loader where
  sections := sections
  bases := bases
  prim token := ((decodePrim th groups npriminfos token).1.cell p token,
    (decodePrim th groups npriminfos token).2)

/-- The relocation of a reference to a primitive -/
theorem relocateCell_prim (p : PrimTables) (th : Threading) (t : PrimGroups)
    (hgroups : t.sizes.length ≤ 30) (beyond : Cell) (npriminfos : Int) (sections bases : Nat → Cell)
    (base : Cell) {k : Nat} (hge : maxdoerTag < k) (hlt : k < t.total) (kind : RefKind) :
    let token := writeSymbol .eight (t.cells beyond) (BitVec.ofNat 64 (k * 8)) kind.mask
    relocateCell (primLoader p th (t.cells beyond) npriminfos sections bases) base token =
      ((reference th kind k).1.cell p token, (reference th kind k).2) := by
  intro token
  have hdecode : decodePrim th (t.cells beyond) npriminfos token = reference th kind k :=
    decodePrim_writeSymbol .eight t beyond hgroups th npriminfos hge hlt kind
  have hsect : sectionOf token = primSection :=
    tokenSection_writeSymbol .eight t beyond hgroups hlt kind
  simp only [relocateCell, hsect, if_true, primLoader, hdecode]

end Image
end Gforth
