import Gforth.Arith.LongLong
import Gforth.Characters.Agreement
import Gforth.Lib.Stacks

/-!
# Characters as keys

A character can be read byte by byte from the keyboard, and written byte by byte to a terminal.
{lit}`u8key` has a marker bit on its return stack that goes over the ones of the first byte, like
{lit}`u8@+`.

Main results:

- Theorem {lit}`u8emit_eq`: the bytes of a code point.
- Theorem {lit}`u8key_whole`: what is read if all bytes arrive that the first one announces.
- Theorem {lit}`u8key_broken`: a marker is left on the return stack if a byte breaks them off.
- Theorem {lit}`keys_correct_iff`: for which keys {lit}`u8key` reads as it should.
-/

namespace Gforth
namespace Characters

open Lib
open Memory
open Utf8
open Stacks
open Arith.LongLong (flag flag_eq_zero_iff)

variable {w : Nat}

/-! ## The words -/

/-- {lit}`rdrop` -/
def rdrop : Effect (BitVec w)
  | ⟨d, _ :: r⟩ => some ⟨d, r⟩
  | _ => none

/-- A number and {lit}`lshift` -/
def lshift (k : Nat) : Effect (BitVec w) :=
  unary fun u => u <<< k

/-- {lit}`key`, which is the byte with this number -/
def key (keys : Nat → Byte) (n : Nat) : Effect (BitVec w) :=
  lit ((keys n).setWidth w)

/-- The test of the loop of {lit}`u8key`: {lit}`dup r@ and` -/
def u8keyTest : List (Effect (BitVec w)) :=
  [dup, rFetch, binary (· &&& ·)]

/-- The body of the loop up to the {lit}`IF` -/
def u8keyNext (keys : Nat → Byte) (n : Nat) : List (Effect (BitVec w)) :=
  [rFetch, binary (· ^^^ ·), lshift 6, fromR, lshift 5, toR, toR, key keys n,
    dup, lit 0xC0#w, binary (· &&& ·), lit 0x80#w, binary fun x y => flag (x ≠ y)]

/-- The loop of {lit}`u8key`, with the number of keys read; it is left at its end and by the
{lit}`EXIT` inside. -/
def u8keyLoop (keys : Nat → Byte) : Nat → Nat → Stacks (BitVec w) → Option (Nat × Stacks (BitVec w))
  | 0, _, _ => none
  | fuel + 1, n, s =>
      match colon u8keyTest s with
      | some ⟨f :: d, r⟩ =>
          if f = 0#w then (colon [rdrop] ⟨d, r⟩).map fun s => (n, s)
          else
            match colon (u8keyNext keys n) ⟨d, r⟩ with
            | some ⟨f :: d, r⟩ =>
                if f ≠ 0#w then
                  (colon [drop, rdrop, lit 0xFFFD#w] ⟨d, r⟩).map fun s => (n + 1, s)
                else
                  (colon [lit 0x3F#w, binary (· &&& ·), fromR, binary (· ||| ·)] ⟨d, r⟩).bind
                    (u8keyLoop keys fuel (n + 1))
            | _ => none
      | _ => none

/-- {lit}`u8key` -/
def u8key (keys : Nat → Byte) (fuel : Nat) (s : Stacks (BitVec w)) :
    Option (Nat × Stacks (BitVec w)) :=
  let c := (keys 0).setWidth w
  if c < 0x80#w then some (1, ⟨c :: s.data, s.ret⟩)
  else if c = 0xFF#w then some (1, ⟨c :: s.data, s.ret⟩)
  else if c < 0xC2#w then some (1, ⟨0xFFFD#w :: s.data, s.ret⟩)
  else
    (colon [lit c, lit 0x7F#w, binary (· &&& ·), lit 0x40#w, toR] s).bind
      (u8keyLoop keys fuel 1)

/-- The second loop of {lit}`u8emit`, which emits what is on the stack down to the zero -/
def u8EmitBytes : List (BitVec w) → List Byte
  | [] => []
  | c :: cs => if 0x80#w ≤ c then c.setWidth 8 :: u8EmitBytes cs else []

/-- The bytes that {lit}`u8emit` emits -/
def u8emit (u : BitVec w) : List Byte :=
  if u < 0x80#w then [u.setWidth 8] else u8EmitBytes (u8Split u 0x3F#w [0#w])

/-! ## Output -/

/-- Bytes that are not ASCII are emitted as they are. -/
theorem u8EmitBytes_eq (hw : 21 ≤ w) {t : List Byte} (hbytes : ∀ b ∈ t, 0x80 ≤ b.toNat) :
    u8EmitBytes (t.map (fun b => b.setWidth w) ++ [0#w]) = t := by
  have hmark := toNat_ofNat_small hw (n := 0x80) (by decide)
  induction t with
  | nil =>
    rw [List.map_nil, List.nil_append, u8EmitBytes, if_neg]
    rw [BitVec.le_def, hmark, BitVec.toNat_zero]
    decide
  | cons b t ih =>
    have hb : 0x80#w ≤ b.setWidth w := by
      rw [BitVec.le_def, hmark, BitVec.toNat_setWidth_of_le (by omega)]
      exact hbytes b List.mem_cons_self
    rw [List.map_cons, List.cons_append, u8EmitBytes, if_pos hb,
      ih fun c hc => hbytes c (List.mem_cons_of_mem b hc),
      BitVec.setWidth_setWidth_of_le _ (by omega), BitVec.setWidth_eq]

/-- {lit}`u8emit` emits the encoding of a code point. -/
theorem u8emit_eq (hw : 21 ≤ w) {u : BitVec w} (h : u.toNat ≤ lastCodePoint) :
    u8emit u = encode u.toNat := by
  have hmark := toNat_ofNat_small hw (n := 0x80) (by decide)
  rw [u8emit]
  by_cases hascii : u.toNat < 0x80
  · rw [if_pos (by rwa [BitVec.lt_def, hmark]), encode, if_pos hascii]
    refine congrArg (fun b => [b]) (BitVec.eq_of_toNat_eq ?_)
    rw [toNat_lead (by omega), BitVec.toNat_setWidth, Nat.zero_add, Nat.mod_eq_of_lt (by omega)]
  · have hsplit := u8Split_eq hw (n := u.toNat) (by omega) h
    rw [BitVec.ofNat_toNat, BitVec.setWidth_eq] at hsplit
    rw [if_neg (by rwa [BitVec.lt_def, hmark]), hsplit,
      u8EmitBytes_eq hw fun b hb => le_toNat_of_mem_encode (by omega) h hb]

/-! ## One pass of the loop -/

section Pass

variable {keys : Nat → Byte} {u marker : BitVec w} (n fuel : Nat) (d r : List (BitVec w))

theorem u8keyTest_eq :
    colon u8keyTest ⟨u :: d, marker :: r⟩ = some ⟨(u &&& marker) :: u :: d, marker :: r⟩ :=
  rfl

/-- A pass of the loop of {lit}`u8key` adds six bits. -/
theorem u8keyNext_eq :
    colon (u8keyNext keys n) ⟨u :: d, marker :: r⟩ =
      some ⟨flag (decide ((keys n).setWidth w &&& 0xC0#w ≠ 0x80#w)) :: (keys n).setWidth w :: d,
        (u ^^^ marker) <<< 6 :: marker <<< 5 :: r⟩ :=
  rfl

/-- The marker bit is not set. -/
theorem u8keyLoop_stop (h : u &&& marker = 0#w) :
    u8keyLoop keys (fuel + 1) n ⟨u :: d, marker :: r⟩ = some (n, ⟨u :: d, r⟩) := by
  rw [u8keyLoop, u8keyTest_eq]
  dsimp only
  rw [if_pos h]
  rfl

variable (hw : 22 ≤ w) (h : u &&& marker ≠ 0#w)
include hw h

/-- The marker bit is set, and a byte breaks the sequence off. -/
theorem u8keyLoop_break (hkey : ¬Continuation (keys n)) :
    u8keyLoop keys (fuel + 1) n ⟨u :: d, marker :: r⟩ =
      some (n + 1, ⟨0xFFFD#w :: d, marker <<< 5 :: r⟩) := by
  have hflag : flag (decide ((keys n).setWidth w &&& 0xC0#w ≠ 0x80#w)) ≠ 0#w := by
    rw [Ne, flag_eq_zero_iff (by omega), decide_eq_false_iff_not, not_not]
    exact mt (continuation_setWidth_iff hw _).1 hkey
  rw [u8keyLoop, u8keyTest_eq]
  dsimp only
  rw [if_neg h, u8keyNext_eq]
  dsimp only
  rw [if_pos hflag]
  rfl

/-- The marker bit is set, and a byte continues the sequence. -/
theorem u8keyLoop_go (hkey : Continuation (keys n)) :
    u8keyLoop keys (fuel + 1) n ⟨u :: d, marker :: r⟩ =
      u8keyLoop keys fuel (n + 1)
        ⟨(((keys n).setWidth w &&& 0x3F#w) ||| (u ^^^ marker) <<< 6) :: d, marker <<< 5 :: r⟩ := by
  have hflag : flag (decide ((keys n).setWidth w &&& 0xC0#w ≠ 0x80#w)) = 0#w := by
    rw [flag_eq_zero_iff (by omega), decide_eq_false_iff_not, not_not]
    exact (continuation_setWidth_iff hw _).2 hkey
  rw [u8keyLoop, u8keyTest_eq]
  dsimp only
  rw [if_neg h, u8keyNext_eq]
  dsimp only
  rw [if_neg (not_not.2 hflag)]
  rfl

end Pass

/-! ## Bits -/

/-- What {lit}`u8key` has collected from the first byte and some bytes behind it -/
def collected (w : Nat) (keys : Nat → Byte) : Nat → BitVec w
  | 0 => (keys 0).setWidth w &&& 0x7F#w
  | i + 1 =>
      ((keys (i + 1)).setWidth w &&& 0x3F#w) |||
        (collected w keys i ^^^ BitVec.twoPow w (6 + 5 * i)) <<< 6

/-- A bit of the character that is spelled by the first byte and some bytes behind it: six bits are
in each byte from the last one, the others in the first byte behind its mark. -/
def spelledBit (keys : Nat → Byte) (i p : Nat) : Bool :=
  if p < 6 * i then (keys (i - p / 6)).getLsbD (p % 6)
  else decide (p - 6 * i < 7 - i) && (keys 0).getLsbD (p - 6 * i)

/-- The number of bytes that a first byte announces behind it -/
def continuations (b : Byte) : Nat :=
  if b.toNat < 0xE0 then 1 else if b.toNat < 0xF0 then 2 else if b.toNat < 0xF8 then 3
  else if b.toNat < 0xFC then 4 else if b.toNat < 0xFE then 5 else 6

/-- The mark of a first byte: ones, and a zero behind them -/
theorem continuations_spec {b : Byte} (h : 0xC2 ≤ b.toNat) (hff : b ≠ 0xFF#8) :
    1 ≤ continuations b ∧ continuations b ≤ 6 ∧
      (∀ j < continuations b, b.getLsbD (6 - j) = true) ∧
      b.getLsbD (6 - continuations b) = false := by
  have hall : ∀ b : Byte, 0xC2 ≤ b.toNat → b ≠ 0xFF#8 →
      1 ≤ continuations b ∧ continuations b ≤ 6 ∧
        (∀ j < continuations b, b.getLsbD (6 - j) = true) ∧
        b.getLsbD (6 - continuations b) = false := by
    decide
  exact hall b h hff

/-- The bits of a mask of ones -/
theorem getLsbD_mask {n k : Nat} (hn : n + 1 = 2 ^ k) (hk : k ≤ w) (p : Nat) :
    (BitVec.ofNat w n).getLsbD p = decide (p < k) := by
  rw [Nat.eq_sub_of_add_eq hn, BitVec.getLsbD_ofNat, Nat.testBit_two_pow_sub_one]
  by_cases hp : p < k
  · simp [hp, Nat.lt_of_lt_of_le hp hk]
  · simp [hp]

variable {keys : Nat → Byte}

theorem spelledBit_low {i p : Nat} (hp : p < 6) :
    spelledBit keys (i + 1) p = (keys (i + 1)).getLsbD p := by
  rw [spelledBit, if_pos (by omega), Nat.div_eq_of_lt hp, Nat.mod_eq_of_lt hp, Nat.sub_zero]

/-- The bits of the bytes in front of it, without the one under the marker -/
theorem spelledBit_high {i p : Nat} (hi : i ≤ 5) (hp : 6 ≤ p) :
    spelledBit keys (i + 1) p = (decide (p - 6 ≠ 6 + 5 * i) && spelledBit keys i (p - 6)) := by
  rw [spelledBit, spelledBit]
  by_cases hlow : p - 6 < 6 * i
  · rw [if_pos (by omega), if_pos hlow, decide_eq_true (by omega), Bool.true_and,
      show i + 1 - p / 6 = i - (p - 6) / 6 by omega, show p % 6 = (p - 6) % 6 by omega]
  · rw [if_neg (by omega), if_neg hlow, ← Bool.and_assoc, ← Bool.decide_and,
      show p - 6 * (i + 1) = p - 6 - 6 * i by omega]
    refine congrArg (· && _) (decide_eq_decide.2 ?_)
    omega

/-- The bits that have been collected behind some continuation bytes -/
theorem getLsbD_collected (hw : 7 ≤ w) (keys : Nat → Byte) {i : Nat} (hi : i ≤ 6)
    (hones : ∀ j < i, (keys 0).getLsbD (6 - j) = true) (p : Nat) :
    (collected w keys i).getLsbD p = (decide (p < w) && spelledBit keys i p) := by
  induction i generalizing p with
  | zero =>
    rw [collected, BitVec.getLsbD_and, BitVec.getLsbD_setWidth, spelledBit,
      getLsbD_mask (k := 7) rfl hw, if_neg (by omega), Bool.and_assoc, Bool.and_comm (_ : Bool) (decide _)]
    rfl
  | succ i ih =>
    rw [collected, BitVec.getLsbD_or, BitVec.getLsbD_and, BitVec.getLsbD_setWidth,
      getLsbD_mask (k := 6) rfl (by omega), BitVec.getLsbD_shiftLeft, BitVec.getLsbD_xor,
      BitVec.getLsbD_twoPow, ih (by omega) fun j hj => hones j (by omega)]
    by_cases hp : p < 6
    · simp [hp, spelledBit_low]
    · rw [spelledBit_high (by omega) (by omega)]
      -- the bit under the marker is set
      have hmark : spelledBit keys i (6 + 5 * i) = true := by
        have hone := hones i (Nat.lt_succ_self i)
        rw [spelledBit, if_neg (by omega), show 6 + 5 * i - 6 * i = 6 - i by omega, hone,
          decide_eq_true (by omega), Bool.and_self]
      by_cases hat : p - 6 = 6 + 5 * i
      · rw [hat, hmark]
        simp [hp]
      · by_cases hlt : p < w
        · have hlt' : p - 6 < w := by omega
          simp [hp, hat, Ne.symm hat, hlt, hlt']
        · simp [hlt]

/-- The greatest code point in bits -/
theorem toNat_le_lastCodePoint_iff (x : BitVec w) :
    x.toNat ≤ lastCodePoint ↔ (∀ p, 21 ≤ p → x.getLsbD p = false) ∧
      (x.getLsbD 20 = true → ∀ p, 16 ≤ p → p < 20 → x.getLsbD p = false) := by
  rw [lastCodePoint]
  -- the five bits above the last sixteen ones
  have hfive : ∀ y < 32, (y ≤ 16 ↔ (y.testBit 4 = true → ∀ q < 4, y.testBit q = false)) := by
    decide
  have htest : ∀ q, (x.toNat / 2 ^ 16).testBit q = x.getLsbD (q + 16) := fun q => by
    rw [Nat.testBit_div_two_pow, BitVec.testBit_toNat]
  have hlow : ∀ y < 32, x.toNat / 2 ^ 16 = y →
      (x.toNat ≤ 0x10FFFF ↔ (x.getLsbD 20 = true → ∀ p, 16 ≤ p → p < 20 → x.getLsbD p = false)) := by
    intro y hy hxy
    have hle : x.toNat ≤ 0x10FFFF ↔ y ≤ 16 := by omega
    rw [hle, hfive y hy, ← hxy, htest 4]
    refine imp_congr_right fun _ => ⟨fun h p h16 h20 => ?_, fun h q hq => ?_⟩
    · have hp := h (p - 16) (by omega)
      rwa [htest, Nat.sub_add_cancel h16] at hp
    · rw [htest]
      exact h _ (by omega) (by omega)
  constructor
  · intro h
    refine ⟨fun p hp => ?_, (hlow _ (by omega) rfl).1 h⟩
    rw [← BitVec.testBit_toNat]
    refine Nat.testBit_lt_two_pow (Nat.lt_of_le_of_lt h ?_)
    exact Nat.lt_of_lt_of_le (by decide) (Nat.pow_le_pow_right (by decide) hp)
  · rintro ⟨hhigh, h⟩
    have hlt : x.toNat < 2 ^ 21 := Nat.lt_pow_two_of_testBit _ fun p hp => by
      rw [BitVec.testBit_toNat]
      exact hhigh p hp
    exact (hlow _ (by omega) rfl).2 h

/-! ## Runs of the loop -/

theorem twoPow_shiftLeft (i j : Nat) : BitVec.twoPow w i <<< j = BitVec.twoPow w (i + j) := by
  rw [BitVec.twoPow_eq, BitVec.twoPow_eq, BitVec.shiftLeft_add]

theorem twoPow_six : BitVec.twoPow w 6 = 0x40#w := by
  rw [BitVec.twoPow_eq, ofNat_shiftLeft]
  rfl

/-- A byte that does not continue a sequence that the first byte announces -/
structure BrokenOff (keys : Nat → Byte) (m : Nat) : Prop where
  pos : 1 ≤ m
  le : m ≤ continuations (keys 0)
  continued : ∀ j, 1 ≤ j → j < m → Continuation (keys j)
  broken : ¬Continuation (keys m)

/-- All bytes are there that the first one announces. -/
def Whole (keys : Nat → Byte) : Prop :=
  ∀ j, 1 ≤ j → j ≤ continuations (keys 0) → Continuation (keys j)

/-- Keys are whole characters, or break off somewhere. -/
theorem whole_or_brokenOff (keys : Nat → Byte) : Whole keys ∨ ∃ m, BrokenOff keys m := by
  by_cases h : ∃ m, 1 ≤ m ∧ m ≤ continuations (keys 0) ∧ ¬Continuation (keys m)
  · classical
    obtain ⟨hpos, hle, hbroken⟩ := Nat.find_spec h
    refine .inr ⟨Nat.find h, hpos, hle, fun j hj hlt => ?_, hbroken⟩
    by_contra hj'
    exact Nat.find_min h hlt ⟨hj, by omega, hj'⟩
  · push Not at h
    exact .inl h

section Runs

variable (hw : 32 ≤ w) {keys : Nat → Byte} (hfirst : 0xC2 ≤ (keys 0).toNat)
  (hff : keys 0 ≠ 0xFF#8) (d r : List (BitVec w))
include hw hfirst hff

/-- The marker bit is set as long as bytes are announced. -/
theorem collected_and_marker {i : Nat} (hi : i ≤ continuations (keys 0)) :
    collected w keys i &&& BitVec.twoPow w (6 + 5 * i) = 0#w ↔ i = continuations (keys 0) := by
  obtain ⟨-, hsix, hones, hzero⟩ := continuations_spec hfirst hff
  have hbit : (collected w keys i).getLsbD (6 + 5 * i) =
      (decide (6 + 5 * i < w) && (keys 0).getLsbD (6 - i)) := by
    rw [getLsbD_collected (by omega) keys (by omega) fun j hj => hones j (by omega), spelledBit,
      if_neg (by omega), decide_eq_true (p := 6 + 5 * i - 6 * i < 7 - i) (by omega), Bool.true_and,
      show 6 + 5 * i - 6 * i = 6 - i by omega]
  rw [BitVec.and_twoPow, hbit]
  rcases Nat.lt_or_eq_of_le hi with hlt | rfl
  · rw [hones i hlt, decide_eq_true (by omega), Bool.and_self, if_pos rfl]
    refine iff_of_false (fun h0 => ?_) (Nat.ne_of_lt hlt)
    have := congrArg BitVec.toNat h0
    rw [BitVec.toNat_twoPow_of_lt (by omega), BitVec.toNat_zero] at this
    exact absurd this (Nat.two_pow_pos _).ne'
  · rw [hzero, Bool.and_false, if_neg Bool.false_ne_true]
    exact iff_of_true rfl rfl

/-- The bytes behind the first one up to some number continue the sequence. -/
theorem u8keyLoop_continued {i : Nat} (hi : i ≤ continuations (keys 0))
    (hkeys : ∀ j, 1 ≤ j → j ≤ i → Continuation (keys j)) (fuel : Nat) :
    u8keyLoop keys (fuel + i) 1 ⟨collected w keys 0 :: d, 0x40#w :: r⟩ =
      u8keyLoop keys fuel (i + 1)
        ⟨collected w keys i :: d, BitVec.twoPow w (6 + 5 * i) :: r⟩ := by
  induction i generalizing fuel with
  | zero => rw [Nat.add_zero, Nat.mul_zero, twoPow_six]
  | succ i ih =>
    have hgo : collected w keys i &&& BitVec.twoPow w (6 + 5 * i) ≠ 0#w :=
      mt (collected_and_marker hw hfirst hff (by omega)).1 (by omega)
    rw [show fuel + (i + 1) = fuel + 1 + i by omega,
      ih (by omega) fun j hj hji => hkeys j hj (by omega),
      u8keyLoop_go (i + 1) fuel d r (by omega) hgo (hkeys (i + 1) (by omega) le_rfl),
      twoPow_shiftLeft]
    rfl

/-- The first byte starts the loop. -/
theorem u8key_first (fuel : Nat) :
    u8key keys fuel ⟨d, r⟩ = u8keyLoop keys fuel 1 ⟨collected w keys 0 :: d, 0x40#w :: r⟩ := by
  have hlt := (keys 0).isLt
  have hmark : ∀ n < 0x100, (BitVec.ofNat w n).toNat = n := fun n hn =>
    toNat_ofNat_small (by omega) (by omega)
  have hc : ((keys 0).setWidth w).toNat = (keys 0).toNat := BitVec.toNat_setWidth_of_le (by omega)
  have hne : (keys 0).setWidth w ≠ 0xFF#w := fun heq => hff (BitVec.eq_of_toNat_eq (by
    rw [← hc, heq, hmark _ (by decide)]
    rfl))
  rw [u8key, if_neg (by rw [BitVec.lt_def, hc, hmark _ (by decide)]; omega), if_neg hne,
    if_neg (by rw [BitVec.lt_def, hc, hmark _ (by decide)]; omega)]
  rfl

/-- All bytes arrive. -/
theorem u8key_whole (hwhole : Whole keys) {fuel : Nat} (hfuel : continuations (keys 0) < fuel) :
    u8key keys fuel ⟨d, r⟩ =
      some (continuations (keys 0) + 1, ⟨collected w keys (continuations (keys 0)) :: d, r⟩) := by
  obtain ⟨fuel, rfl⟩ := Nat.exists_eq_add_of_lt hfuel
  rw [u8key_first hw hfirst hff,
    show continuations (keys 0) + fuel + 1 = fuel + 1 + continuations (keys 0) by omega,
    u8keyLoop_continued hw hfirst hff d r le_rfl hwhole]
  exact u8keyLoop_stop _ fuel d r ((collected_and_marker hw hfirst hff le_rfl).2 rfl)

/-- A byte breaks the sequence off; the marker is left on the return stack. -/
theorem u8key_broken {m : Nat} (hm : BrokenOff keys m) {fuel : Nat} (hfuel : m ≤ fuel) :
    u8key keys fuel ⟨d, r⟩ =
      some (m + 1, ⟨0xFFFD#w :: d, BitVec.twoPow w (6 + 5 * m) :: r⟩) := by
  obtain ⟨i, rfl⟩ := Nat.exists_eq_add_of_le' hm.pos
  obtain ⟨fuel, rfl⟩ := Nat.exists_eq_add_of_le hfuel
  have hgo : collected w keys i &&& BitVec.twoPow w (6 + 5 * i) ≠ 0#w :=
    mt (collected_and_marker hw hfirst hff (by have := hm.le; omega)).1 (by have := hm.le; omega)
  rw [u8key_first hw hfirst hff, show i + 1 + fuel = fuel + 1 + i by omega,
    u8keyLoop_continued hw hfirst hff d r (by have := hm.le; omega) fun j hj hji =>
      hm.continued j hj (by omega),
    u8keyLoop_break (i + 1) fuel d r (by omega) hgo hm.broken, twoPow_shiftLeft]
  rfl

end Runs

/-! ## Code points -/

/-- The encoding above the ASCII characters: a first byte with a mark, and the bytes behind it -/
theorem encode_eq_lead {n : Nat} (hn : 0x80 ≤ n) (h : n ≤ lastCodePoint) :
    ∃ k b, 1 ≤ k ∧ k ≤ 3 ∧ n / 64 ^ k < 2 ^ (6 - k) ∧
      0xC2 ≤ 2 ^ (7 - k) * b + n / 64 ^ k ∧ 2 ^ (7 - k) * b + n / 64 ^ k < 0xF8 ∧
      continuations (lead (2 ^ (7 - k) * b) (n / 64 ^ k)) = k ∧
      encode n = lead (2 ^ (7 - k) * b) (n / 64 ^ k) ::
        (List.range k).map fun i => continuation (n / 64 ^ (k - 1 - i)) := by
  rw [lastCodePoint] at h
  rw [encode, if_neg (by omega)]
  split_ifs with htwo hthree
  · refine ⟨1, 3, le_rfl, by decide, by omega, by omega, by omega, ?_, ?_⟩
    · rw [continuations, toNat_lead (by omega)]
      split_ifs <;> omega
    · simp [List.range_succ]
  · refine ⟨2, 7, by decide, by decide, by omega, by omega, by omega, ?_, ?_⟩
    · rw [continuations, toNat_lead (by omega)]
      split_ifs <;> omega
    · simp [List.range_succ]
  · refine ⟨3, 15, by decide, by decide, by omega, by omega, by omega, ?_, ?_⟩
    · rw [continuations, toNat_lead (by omega)]
      split_ifs <;> omega
    · simp [List.range_succ]

/-- The bits of a continuation byte -/
theorem getLsbD_continuation (n : Nat) {q : Nat} (hq : q < 6) :
    (continuation n).getLsbD q = n.testBit q := by
  rw [← BitVec.testBit_toNat, toNat_continuation, show 0x80 + n % 0x40 = 2 ^ 6 * 2 + n % 2 ^ 6 by rfl,
    Nat.testBit_two_pow_mul_add _ (Nat.mod_lt _ (by decide)), if_pos hq, Nat.testBit_mod_two_pow,
    decide_eq_true hq, Bool.true_and]

/-- The encoding of a code point spells it. -/
theorem spelled_encode {n : Nat} (hn : 0x80 ≤ n) (h : n ≤ lastCodePoint)
    (hkeys : ∀ i b, (encode n)[i]? = some b → keys i = b) :
    0xC2 ≤ (keys 0).toNat ∧ keys 0 ≠ 0xFF#8 ∧ continuations (keys 0) + 1 = (encode n).length ∧
      Whole keys ∧ ∀ p, spelledBit keys (continuations (keys 0)) p = n.testBit p := by
  obtain ⟨k, b, hpos, hle, hlead, hlow, hhigh, hk, hencode⟩ := encode_eq_lead hn h
  rw [hencode] at hkeys
  have hfirst := hkeys 0 _ rfl
  have hfirst' : (keys 0).toNat = 2 ^ (7 - k) * b + n / 64 ^ k := by
    rw [hfirst, toNat_lead (by omega)]
  have hrest : ∀ i, 1 ≤ i → i ≤ k → keys i = continuation (n / 64 ^ (k - i)) := by
    intro i hi hik
    refine hkeys i _ ?_
    obtain ⟨i, rfl⟩ := Nat.exists_eq_add_of_le' hi
    rw [List.getElem?_cons_succ, List.getElem?_map, List.getElem?_range (by omega)]
    rw [Option.map_some, show k - 1 - i = k - (i + 1) by omega]
  rw [← hfirst] at hk
  rw [hk]
  refine ⟨by omega, fun hff => ?_, ?_, fun j hj hjk => ?_, fun p => ?_⟩
  · rw [hff] at hfirst'
    simp at hfirst'
    omega
  · rw [hencode, List.length_cons, List.length_map, List.length_range]
  · rw [hrest j hj (hk ▸ hjk)]
    exact continuation_continuation _
  · rw [spelledBit]
    by_cases hp : p < 6 * k
    · rw [if_pos hp, hrest _ (by omega) (by omega), getLsbD_continuation _ (Nat.mod_lt _ (by decide)),
        show k - (k - p / 6) = p / 6 by omega, show (64 : Nat) = 2 ^ 6 by rfl, ← Nat.pow_mul,
        Nat.testBit_div_two_pow]
      rw [show p % 6 + 6 * (p / 6) = p by omega]
    · rw [if_neg hp, ← BitVec.testBit_toNat, hfirst',
        Nat.testBit_two_pow_mul_add _ (Nat.lt_of_lt_of_le hlead (Nat.pow_le_pow_right (by decide) (by omega)))]
      have hbit : (n / 64 ^ k).testBit (p - 6 * k) = n.testBit p := by
        rw [show (64 : Nat) = 2 ^ 6 by rfl, ← Nat.pow_mul, Nat.testBit_div_two_pow,
          Nat.sub_add_cancel (by omega)]
      by_cases hq : p - 6 * k < 7 - k
      · rw [decide_eq_true hq, if_pos hq, Bool.true_and, hbit]
      · rw [decide_eq_false hq, Bool.false_and, ← hbit]
        exact (Nat.testBit_lt_two_pow (Nat.lt_of_lt_of_le hlead
          (Nat.pow_le_pow_right (by decide) (by omega)))).symm

/-- {lit}`u8key` reads what {lit}`u8emit` has emitted. -/
theorem u8key_encode (hw : 32 ≤ w) {xc : BitVec w} (h : xc.toNat ≤ lastCodePoint)
    (hkeys : ∀ i b, (encode xc.toNat)[i]? = some b → keys i = b) {fuel : Nat}
    (hfuel : (encode xc.toNat).length ≤ fuel) (d r : List (BitVec w)) :
    u8key keys fuel ⟨d, r⟩ = some ((encode xc.toNat).length, ⟨xc :: d, r⟩) := by
  by_cases hascii : xc.toNat < 0x80
  · rw [encode, if_pos hascii] at hkeys ⊢
    have hc : (keys 0).setWidth w = xc := by
      rw [hkeys 0 _ rfl]
      refine BitVec.eq_of_toNat_eq ?_
      rw [BitVec.toNat_setWidth_of_le (by omega), toNat_lead (by omega), Nat.zero_add]
    rw [u8key, hc, if_pos]
    · rfl
    · rwa [BitVec.lt_def, toNat_ofNat_small (by omega) (by decide)]
  · obtain ⟨hfirst, hff, hlength, hwhole, hspelled⟩ := spelled_encode (by omega) h hkeys
    obtain ⟨-, hsix, hones, -⟩ := continuations_spec hfirst hff
    have hvalue : collected w keys (continuations (keys 0)) = xc := by
      refine BitVec.eq_of_getLsbD_eq fun p hp => ?_
      rw [getLsbD_collected (by omega) keys hsix hones, hspelled, decide_eq_true hp, Bool.true_and,
        BitVec.testBit_toNat]
    rw [u8key_whole hw hfirst hff d r hwhole (by omega), hvalue, hlength]

/-! ## All keys -/

/-- {lit}`u8key` returns: it reads some keys, leaves the stacks as it found them, with a result on
top, which is {lit}`$FFFD` for a sequence that is broken off and is at most the greatest code point. -/
def ReadsCharacter (w : Nat) (keys : Nat → Byte) : Prop :=
  ∀ d r : List (BitVec w), ∃ n u, 0 < n ∧
    (∀ fuel, n ≤ fuel → u8key keys fuel ⟨d, r⟩ = some (n, ⟨u :: d, r⟩)) ∧
    (0xC2 ≤ (keys 0).toNat → keys 0 ≠ 0xFF#8 → (∃ m, BrokenOff keys m) → u = 0xFFFD#w) ∧
    u.toNat ≤ lastCodePoint

/-- The bits that the bytes spell, as far as they fit into a cell, are at most the ones of the
greatest code point. -/
def SpellsCodePoint (w : Nat) (keys : Nat → Byte) : Prop :=
  (∀ p, 21 ≤ p → p < w → spelledBit keys (continuations (keys 0)) p = false) ∧
    (spelledBit keys (continuations (keys 0)) 20 = true →
      ∀ p, 16 ≤ p → p < 20 → spelledBit keys (continuations (keys 0)) p = false)

/-- The keys are the resize code, start with a byte that announces no others, or are a whole
sequence for a code point. -/
def KeysForCharacter (w : Nat) (keys : Nat → Byte) : Prop :=
  (keys 0).toNat < 0xC2 ∨ keys 0 = 0xFF#8 ∨ Whole keys ∧ SpellsCodePoint w keys

/-- What has been collected is a code point if and only if the bytes spell one. -/
theorem collected_le_iff (hw : 32 ≤ w) (hfirst : 0xC2 ≤ (keys 0).toNat) (hff : keys 0 ≠ 0xFF#8) :
    (collected w keys (continuations (keys 0))).toNat ≤ lastCodePoint ↔ SpellsCodePoint w keys := by
  obtain ⟨-, hsix, hones, -⟩ := continuations_spec hfirst hff
  have hbit := getLsbD_collected (w := w) (by omega) keys hsix hones
  rw [toNat_le_lastCodePoint_iff, SpellsCodePoint]
  refine and_congr ⟨fun h p hp hpw => ?_, fun h p hp => ?_⟩ ?_
  · rw [← h p hp, hbit, decide_eq_true hpw, Bool.true_and]
  · rw [hbit]
    by_cases hpw : p < w
    · rw [h p hp hpw, Bool.and_false]
    · rw [decide_eq_false hpw, Bool.false_and]
  · have hsmall : ∀ p ≤ 20, (collected w keys (continuations (keys 0))).getLsbD p =
        spelledBit keys (continuations (keys 0)) p := fun p hp => by
      rw [hbit, decide_eq_true (by omega), Bool.true_and]
    rw [hsmall 20 le_rfl]
    refine imp_congr_right fun _ => forall_congr' fun p => imp_congr_right fun _ => ?_
    exact imp_congr_right fun hp => by rw [hsmall p (by omega)]

/-- A first byte that announces no others -/
theorem u8key_alone (hw : 32 ≤ w) (h : (keys 0).toNat < 0xC2 ∨ keys 0 = 0xFF#8)
    (d r : List (BitVec w)) :
    ∃ u : BitVec w, (∀ fuel, u8key keys fuel ⟨d, r⟩ = some (1, ⟨u :: d, r⟩)) ∧
      u.toNat ≤ lastCodePoint := by
  have hlt := (keys 0).isLt
  have hc : ((keys 0).setWidth w).toNat = (keys 0).toNat := BitVec.toNat_setWidth_of_le (by omega)
  have hmark : ∀ n < 0x10000, (BitVec.ofNat w n).toNat = n := fun n hn =>
    toNat_ofNat_small (by omega) (by omega)
  rw [lastCodePoint]
  by_cases hascii : (keys 0).setWidth w < 0x80#w
  · exact ⟨_, fun fuel => if_pos hascii, by omega⟩
  by_cases hresize : (keys 0).setWidth w = 0xFF#w
  · exact ⟨_, fun fuel => (if_neg hascii).trans (if_pos hresize), by omega⟩
  · have hmalformed : (keys 0).setWidth w < 0xC2#w := by
      rw [BitVec.lt_def, hc, hmark _ (by decide)]
      refine h.resolve_right fun hff => hresize (BitVec.eq_of_toNat_eq ?_)
      rw [hc, hff, hmark _ (by decide)]
      rfl
    refine ⟨0xFFFD#w, fun fuel => ?_, by rw [hmark _ (by decide)]; decide⟩
    exact (if_neg hascii).trans ((if_neg hresize).trans (if_pos hmalformed))

/-- {lit}`u8key` reads as it should from a stream of keys if and only if a whole sequence arrives
and does not spell too much. -/
theorem readsCharacter_iff (hw : 32 ≤ w) (keys : Nat → Byte) :
    ReadsCharacter w keys ↔ KeysForCharacter w keys := by
  rw [KeysForCharacter]
  by_cases halone : (keys 0).toNat < 0xC2 ∨ keys 0 = 0xFF#8
  · refine iff_of_true (fun d r => ?_) (by tauto)
    obtain ⟨u, hu, hle⟩ := u8key_alone hw halone d r
    refine ⟨1, u, Nat.one_pos, fun fuel _ => hu fuel, fun hfirst hff => ?_, hle⟩
    rcases halone with h | h
    · omega
    · exact absurd h hff
  · obtain ⟨hfirst, hff⟩ := not_or.1 halone
    have hfirst := Nat.le_of_not_lt hfirst
    rw [← or_assoc, or_iff_right halone, ← collected_le_iff hw hfirst hff]
    constructor
    · intro h
      obtain ⟨n, u, -, hu, -, hle⟩ := h [] []
      have hn := hu _ (Nat.le_add_right n 7)
      rcases whole_or_brokenOff keys with hwhole | ⟨m, hm⟩
      · have := (continuations_spec hfirst hff).2.1
        rw [u8key_whole hw hfirst hff [] [] hwhole (by omega)] at hn
        cases hn
        exact ⟨hwhole, hle⟩
      · have := (continuations_spec hfirst hff).2.1
        rw [u8key_broken hw hfirst hff [] [] hm (by have := hm.le; omega)] at hn
        cases hn
    · rintro ⟨hwhole, hle⟩ d r
      refine ⟨_, _, Nat.succ_pos _, fun fuel hfuel =>
        u8key_whole hw hfirst hff d r hwhole (Nat.lt_of_succ_le hfuel), fun _ _ h => ?_, hle⟩
      obtain ⟨m, hm⟩ := h
      exact absurd (hwhole m hm.pos hm.le) hm.broken

/-- {lit}`u8emit` emits what {lit}`u8!+` stores and {lit}`u8key` reads back; from a stream of keys
{lit}`u8key` reads as it should if and only if it has the keys of a character. -/
theorem keys_correct_iff (hw : 32 ≤ w) :
    (∀ xc : BitVec w, xc.toNat ≤ lastCodePoint →
      (∀ mem a, u8StorePlus mem xc a =
        (store mem a (u8emit xc), a + BitVec.ofNat w (u8emit xc).length)) ∧
      ∀ keys : Nat → Byte, (∀ i b, (u8emit xc)[i]? = some b → keys i = b) →
        ∀ fuel d r, (u8emit xc).length ≤ fuel →
          u8key keys fuel ⟨d, r⟩ = some ((u8emit xc).length, ⟨xc :: d, r⟩)) ∧
    ∀ keys : Nat → Byte, ReadsCharacter w keys ↔ KeysForCharacter w keys := by
  refine ⟨fun xc hxc => ?_, readsCharacter_iff hw⟩
  rw [u8emit_eq (by omega) hxc]
  refine ⟨fun mem a => ?_, fun keys hkeys fuel d r hfuel => u8key_encode hw hxc hkeys hfuel d r⟩
  rw [u8StorePlus_eq (by omega) mem a hxc, length_encode]

/-- The three bytes of the euro sign -/
theorem keys_correct_iff_euro :
    u8key (fun i => [0xE2#8, 0x82#8, 0xAC#8].getD i 0#8) 3 ⟨[], []⟩ =
      some (3, ⟨[(0x20AC#32 : BitVec 32)], []⟩) := by
  have h := ((keys_correct_iff (w := 32) le_rfl).1 0x20AC#32 (by decide)).2
    (fun i => [0xE2#8, 0x82#8, 0xAC#8].getD i 0#8)
  have hemit : u8emit 0x20AC#32 = [0xE2#8, 0x82#8, 0xAC#8] :=
    (u8emit_eq (by decide) (by decide)).trans rfl
  rw [hemit] at h
  exact h (fun i b hb => by rw [List.getD_eq_getElem?_getD, hb]; rfl) 3 [] [] le_rfl

/-- A letter after a first byte that announces another byte -/
def brokenKeys (i : Nat) : Byte :=
  if i = 0 then 0xC3#8 else 0x41#8

/-- A broken key is not read as a character. -/
theorem not_readsCharacter_broken : ¬ReadsCharacter 32 brokenKeys := by
  rw [readsCharacter_iff le_rfl]
  rintro (h | h | ⟨h, -⟩)
  · exact absurd h (by decide)
  · exact absurd h (by decide)
  · exact absurd (h 1 le_rfl (by decide)) (by decide)

end Characters
end Gforth
