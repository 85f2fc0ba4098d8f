import Gforth.Lib.Traces
import Gforth.Numbers.Pictured

/-!
# Nested hold areas

{lit}`<<#` starts a hold area inside another one, and {lit}`#>>` goes back to the outer one.  The
buffer holds all areas that are open, with the length of an outer area in the byte behind the area
inside it.

Main results:

- Theorem {lit}`Holds.step`: a word with room for what it holds keeps the areas apart.
- Theorem {lit}`areas_kept`: this is so for runs where all words have room.
- Theorem {lit}`areas_not_kept`: a word without room moves the hold pointer before it throws.
-/

namespace Gforth
namespace Numbers

open Lib
open Memory

variable {w : Nat}

/-! ## Runs -/

/-- The words, with the numbers that they take; {lit}`#` and {lit}`#s` take the base from a
variable. -/
inductive HoldOp (w : Nat) where
  | startArea
  | hold (char : BitVec w)
  | holds (a u : BitVec w)
  | digit (base : BitVec w) (d : BitVec (w + w))
  | digitS (base : BitVec w) (d : BitVec (w + w))
  | sign (n : BitVec w)
  | finish
  | release
deriving DecidableEq

/-- The ball that a word throws -/
def Held.ball {α : Type} (res : Held w α) : HoldState w × Option HoldBall :=
  match res with
  | (.ok _, st) => (st, none)
  | (.error e, st) => (st, some e)

section

variable (buf : HoldBuffer w)

/-- A word, under {lit}`catch` -/
def HoldOp.run (st : HoldState w) : HoldOp w → HoldState w × Option HoldBall
  | .startArea => (lessLessNumberSign buf st).ball
  | .hold char => (Numbers.hold buf char st).ball
  | .holds a u => (Numbers.holds buf a u st).ball
  | .digit base d => (numberSign buf base d st).ball
  | .digitS base d => (numberSignS buf base d st).ball
  | .sign n => (holdSign buf n st).ball
  | .finish => (st, none)
  | .release => (numberSignGreaterGreater buf st).ball

/-! ## Areas -/

/-- What a word puts in front of the innermost area -/
def HoldOp.text (st : HoldState w) : HoldOp w → List Byte
  | .hold char => [char.setWidth 8]
  | .holds a u => Memory.text st.mem a u.toNat
  | .digit base d => if base = 0#w then [] else [digitByte w (d.toNat % base.toNat)]
  | .digitS base d =>
      if base = 0#w then [] else (toDigits base.toNat d.toNat).map (digitByte w)
  | .sign n => if n.slt 0#w then [ascii '-'] else []
  | _ => []

/-- The texts of the open areas, with the innermost one first -/
abbrev Areas : Type :=
  List (List Byte)

/-- A text in front of the innermost area -/
def Areas.prepend (t : List Byte) : Areas → Areas
  | [] => []
  | a :: rest => (t ++ a) :: rest

/-- What a word is for -/
def Areas.perform (st : HoldState w) (op : HoldOp w) (areas : Areas) : Areas :=
  match op with
  | .startArea => [] :: areas
  | .release => areas.tail
  | op => areas.prepend (op.text st)

/-- A word that throws changes no area. -/
def Areas.step (st : HoldState w) (op : HoldOp w) (areas : Areas) : Areas :=
  if (op.run buf st).2 = none then areas.perform st op else areas

/-- A word, with the areas as they should be -/
def holdStep (s : HoldState w × Areas) (op : HoldOp w) : (HoldState w × Areas) × Option HoldBall :=
  (((op.run buf s.1).1, s.2.step buf s.1 op), (op.run buf s.1).2)

/-- The state and the areas after {lit}`<#` and some words -/
def holdRun (st : HoldState w) (ops : List (HoldOp w)) : HoldState w × Areas :=
  after (holdStep buf) (lessNumberSign buf st, [[]]) ops

/-- Words that end the areas that they start, and no others -/
def Balanced (ops : List (HoldOp w)) : Prop :=
  (∀ before, before <+: ops → before.count .release ≤ before.count .startArea) ∧
    ops.count .release = ops.count .startArea

/-- The same pointers, and the same text up to the end of the buffer -/
structure SameAreas (st st' : HoldState w) : Prop where
  holdptr : st'.holdptr = st.holdptr
  holdend : st'.holdend = st.holdend
  text : Memory.text st'.mem st.holdptr (buf.bufEnd - st.holdptr).toNat =
    Memory.text st.mem st.holdptr (buf.bufEnd - st.holdptr).toNat

/-- What nested pictured output should do -/
structure KeepsAreas (st : HoldState w) (ops : List (HoldOp w)) : Prop where
  /-- {lit}`#>` returns what was held since the innermost open {lit}`<<#`. -/
  finish : ∀ before, before <+: ops →
    let s := holdRun buf st before
    let (a, u) := numberSignGreater s.1
    s.2.head? = some (Memory.text s.1.mem a u.toNat)
  /-- {lit}`#>>` restores the area around the matching {lit}`<<#`. -/
  release : ∀ before inner, before ++ (.startArea :: inner ++ [.release]) <+: ops → Balanced inner →
    SameAreas buf (holdRun buf st before).1
      (holdRun buf st (before ++ (.startArea :: inner ++ [.release]))).1
  /-- A word that throws leaves the areas as they were. -/
  throw : ∀ before op, before ++ [op] <+: ops →
    (op.run buf (holdRun buf st before).1).2 ≠ none →
    SameAreas buf (holdRun buf st before).1 (holdRun buf st (before ++ [op])).1

/-! ## Room -/

/-- There is room for some characters. -/
def Room (st : HoldState w) (n : Nat) : Prop :=
  buf.addr.toNat + n ≤ st.holdptr.toNat

/-- There is room for what a word holds.  In base 1, {lit}`#s` does not end. -/
def HoldOp.Fits (st : HoldState w) : HoldOp w → Prop
  | .startArea => Room buf st 1
  | .digitS base d => (base = 1#w → d = 0#(w + w)) ∧ Room buf st ((digitS base d).text st).length
  | op => Room buf st (op.text st).length

instance (st : HoldState w) (n : Nat) : Decidable (Room buf st n) :=
  inferInstanceAs (Decidable (_ ≤ _))

instance (st : HoldState w) (op : HoldOp w) : Decidable (op.Fits buf st) :=
  match op with
  | .startArea => inferInstanceAs (Decidable (Room buf st 1))
  | .digitS base d => inferInstanceAs (Decidable ((base = 1#w → d = 0#(w + w)) ∧ Room buf st _))
  | .hold _ | .holds _ _ | .digit _ _ | .sign _ | .finish | .release =>
      inferInstanceAs (Decidable (Room buf st _))

end

/-! ## The buffer with its areas -/

/-- The contents of the buffer: the innermost area, the length of the one around it, and so on -/
def encode : Areas → List Byte
  | [] => []
  | [a] => a
  | a :: b :: rest => a ++ BitVec.ofNat 8 b.length :: encode (b :: rest)

/-- A text is added to the newest area. -/
theorem encode_append_head (t a : List Byte) (rest : Areas) :
    encode ((t ++ a) :: rest) = t ++ encode (a :: rest) := by
  cases rest with
  | nil => rfl
  | cons b rest => simp [encode]

/-- The newest area is a part of the buffer. -/
theorem length_head_le_encode (a : List Byte) (rest : Areas) :
    a.length ≤ (encode (a :: rest)).length := by
  have h := encode_append_head a [] rest
  rw [List.append_nil] at h
  rw [h, List.length_append]
  exact Nat.le_add_right _ _

/-- The buffer holds some areas. -/
structure Contains (buf : HoldBuffer w) (st : HoldState w) (a : List Byte) (rest : Areas) :
    Prop where
  room : (encode (a :: rest)).length ≤ wordPnoSize w
  holdptr : st.holdptr = buf.bufEnd - BitVec.ofNat w (encode (a :: rest)).length
  text : text st.mem st.holdptr (encode (a :: rest)).length = encode (a :: rest)
  holdend : st.holdend = st.holdptr + BitVec.ofNat w a.length

section

variable {buf : HoldBuffer w} {st : HoldState w} {a : List Byte} {rest : Areas}

theorem wordPnoSize_lt (buf : HoldBuffer w) {n : Nat} (h : n ≤ wordPnoSize w) : n < 2 ^ w := by
  have := buf.fits
  omega

/-- An area at the start -/
theorem contains_start (buf : HoldBuffer w) (st : HoldState w) :
    Contains buf (lessNumberSign buf st) [] [] where
  room := Nat.zero_le _
  holdptr := (BitVec.sub_zero _).symm
  text := rfl
  holdend := (BitVec.add_zero _).symm

namespace Contains

/-- The pointer is in front of all areas. -/
theorem toNat_holdptr (h : Contains buf st a rest) :
    st.holdptr.toNat = buf.bufEnd.toNat - (encode (a :: rest)).length := by
  have hroom := h.room
  have hend := buf.toNat_bufEnd
  rw [h.holdptr, toNat_sub_ofNat (by omega)]

/-- {lit}`#>` -/
theorem finish (h : Contains buf st a rest) :
    numberSignGreater st = (st.holdptr, BitVec.ofNat w a.length) ∧
      Memory.text st.mem st.holdptr (BitVec.ofNat w a.length).toNat = a := by
  have hle := length_head_le_encode a rest
  have hlen : (BitVec.ofNat w a.length).toNat = a.length := by
    rw [BitVec.toNat_ofNat, Nat.mod_eq_of_lt (wordPnoSize_lt buf (hle.trans h.room))]
  refine ⟨?_, ?_⟩
  · rw [numberSignGreater, h.holdend, BitVec.add_comm, BitVec.add_sub_cancel]
  · have htext := congrArg (List.take a.length) h.text
    have hsplit := encode_append_head a [] rest
    rw [List.append_nil] at hsplit
    rwa [take_text _ _ hle, hsplit, List.take_left' rfl, ← hlen] at htext

/-- The areas fit into the buffer. -/
theorem length_add_le (h : Contains buf st a rest) {n : Nat} (hroom : Room buf st n) :
    n + (encode (a :: rest)).length ≤ wordPnoSize w := by
  have hptr := h.toNat_holdptr
  have hend := buf.toNat_bufEnd
  have hlong := h.room
  rw [Room] at hroom
  omega

/-- A text in front of everything -/
theorem text_held (h : Contains buf st a rest) {t : List Byte} (hroom : Room buf st t.length) :
    Memory.text (st.held t).mem (st.held t).holdptr (t.length + (encode (a :: rest)).length) =
      t ++ encode (a :: rest) := by
  have hstore := text_store st.mem (a := st.holdptr - BitVec.ofNat w t.length) (t := t)
    (n := (encode (a :: rest)).length) (wordPnoSize_lt buf (h.length_add_le hroom)).le
  rwa [BitVec.sub_add_cancel, h.text] at hstore

/-- The pointer goes down by the text that is held. -/
theorem holdptr_held (h : Contains buf st a rest) (t : List Byte) :
    (st.held t).holdptr = buf.bufEnd - BitVec.ofNat w (t.length + (encode (a :: rest)).length) := by
  rw [HoldState.held, h.holdptr, BitVec.ofNat_add, BitVec.sub_eq_add_neg, BitVec.sub_eq_add_neg,
    BitVec.sub_eq_add_neg, BitVec.neg_add, BitVec.add_assoc, BitVec.sub_eq_add_neg,
    BitVec.add_comm (-BitVec.ofNat w t.length)]

/-- Characters are held. -/
theorem held (h : Contains buf st a rest) {t : List Byte} (hroom : Room buf st t.length) :
    Contains buf (st.held t) (t ++ a) rest where
  room := by
    rw [encode_append_head, List.length_append]
    exact h.length_add_le hroom
  holdptr := by rw [encode_append_head, List.length_append, h.holdptr_held]
  text := by rw [encode_append_head, List.length_append, h.text_held hroom]
  holdend := by
    have hptr : (st.held t).holdptr + BitVec.ofNat w t.length = st.holdptr :=
      BitVec.sub_add_cancel _ _
    rw [List.length_append, ← add_ofNat_ofNat, hptr, ← h.holdend]
    rfl

/-- The addresses in the buffer -/
theorem holdptr_add (h : Contains buf st a rest) {k n : Nat}
    (hsplit : (encode (a :: rest)).length = k + n) :
    st.holdptr + BitVec.ofNat w k = buf.bufEnd - BitVec.ofNat w n := by
  rw [h.holdptr, hsplit, BitVec.ofNat_add, BitVec.sub_eq_add_neg, BitVec.sub_eq_add_neg,
    BitVec.neg_add, BitVec.sub_eq_add_neg, BitVec.add_comm (-BitVec.ofNat w k), ← BitVec.add_assoc,
    ← BitVec.sub_eq_add_neg _ (BitVec.ofNat w k), BitVec.sub_add_cancel]

/-- An area is started. -/
theorem startArea (hw : 8 ≤ w) (h : Contains buf st a rest) (hroom : Room buf st 1) :
    ∃ st', lessLessNumberSign buf st = (.ok (), st') ∧ Contains buf st' [] (a :: rest) := by
  have hlen : st.holdend - st.holdptr = BitVec.ofNat w a.length := by
    rw [h.holdend, BitVec.add_comm, BitVec.add_sub_cancel]
  have hbyte : (BitVec.ofNat w a.length).setWidth 8 = BitVec.ofNat 8 a.length :=
    BitVec.setWidth_ofNat_of_le hw _
  rw [lessLessNumberSign, hold_eq_held buf hroom, hlen, hbyte]
  have hroom1 : Room buf st [BitVec.ofNat 8 a.length].length := hroom
  have hcode : [BitVec.ofNat 8 a.length] ++ encode (a :: rest) = encode ([] :: a :: rest) := rfl
  have hlong : [BitVec.ofNat 8 a.length].length + (encode (a :: rest)).length =
      (encode ([] :: a :: rest)).length := by
    rw [← hcode, List.length_append]
  refine ⟨_, rfl, ?_, ?_, ?_, (BitVec.add_zero _).symm⟩
  · exact hlong ▸ h.length_add_le hroom1
  · exact hlong ▸ h.holdptr_held _
  · exact hcode ▸ hlong ▸ h.text_held hroom1

/-- The innermost area is released. -/
theorem release {b : List Byte} (hw : 8 ≤ w ∧ w ≤ 64) (h : Contains buf st a (b :: rest)) :
    ∃ st', numberSignGreaterGreater buf st = (.ok (), st') ∧ Contains buf st' b rest := by
  have hroom := h.room
  have hend := buf.toNat_bufEnd
  have hfits := buf.fits
  have hle := length_head_le_encode b rest
  have hcode : encode (a :: b :: rest) = a ++ BitVec.ofNat 8 b.length :: encode (b :: rest) := rfl
  have hlong : (encode (a :: b :: rest)).length = a.length + (1 + (encode (b :: rest)).length) := by
    rw [hcode, List.length_append, List.length_cons, Nat.add_comm 1]
  have hsmall : wordPnoSize w < 256 := by
    rw [wordPnoSize]
    omega
  have hbehind : st.holdend = buf.bufEnd - BitVec.ofNat w (1 + (encode (b :: rest)).length) := by
    rw [h.holdend, h.holdptr_add hlong]
  have hlt : ¬buf.bufEnd ≤ st.holdend := by
    rw [BitVec.le_def, hbehind, toNat_sub_ofNat (by omega)]
    omega
  have hptr : st.holdend + 1#w = st.holdptr + BitVec.ofNat w (a.length + 1) := by
    rw [h.holdend, ← add_ofNat_ofNat]
  have houter : st.holdend + 1#w = buf.bufEnd - BitVec.ofNat w (encode (b :: rest)).length := by
    rw [hptr, h.holdptr_add (by rw [hlong, Nat.add_assoc])]
  -- The length byte, and the text behind it
  have hdrop := congrArg (List.drop a.length) h.text
  rw [drop_text _ _ (by omega), hlong, Nat.add_sub_cancel_left, ← h.holdend, Nat.add_comm 1,
    text_succ, hcode, List.drop_left' rfl, List.cons.injEq] at hdrop
  have hcount : (st.mem st.holdend).setWidth w = BitVec.ofNat w b.length := by
    rw [hdrop.1, BitVec.setWidth_ofNat_of_le_of_lt hw.1 (by omega)]
  rw [numberSignGreaterGreater, if_neg hlt, hcount]
  exact ⟨_, rfl, by omega, houter, hdrop.2, rfl⟩

/-- There is no area to be released. -/
theorem release_throws (h : Contains buf st a []) :
    numberSignGreaterGreater buf st = (.error .resultRange, st) := by
  have hend : st.holdend = buf.bufEnd := by
    rw [h.holdend, h.holdptr]
    exact BitVec.sub_add_cancel _ _
  rw [numberSignGreaterGreater, if_pos (hend ▸ BitVec.le_refl _)]

/-- The areas determine the pointers and the text. -/
theorem sameAreas {st' : HoldState w} (h : Contains buf st a rest) (h' : Contains buf st' a rest) :
    SameAreas buf st st' where
  holdptr := h'.holdptr.trans h.holdptr.symm
  holdend := by rw [h'.holdend, h.holdend, h'.holdptr, h.holdptr]
  text := by
    have hptr : st'.holdptr = st.holdptr := h'.holdptr.trans h.holdptr.symm
    have hlen : (buf.bufEnd - st.holdptr).toNat = (encode (a :: rest)).length := by
      have hroom := h.room
      have hend := buf.toNat_bufEnd
      have hat := h.toNat_holdptr
      rw [BitVec.toNat_sub_of_le (BitVec.le_def.mpr (by omega))]
      omega
    rw [hlen, h.text, ← hptr, h'.text]

end Contains

/-! ## Steps -/

theorem HoldState.held_nil (st : HoldState w) : st.held [] = st := by
  simp [HoldState.held]

/-- {lit}`holds` puts a text in front. -/
theorem holds_eq_held {a u : BitVec w} (h : Room buf st u.toNat) :
    holds buf a u st = (.ok (), st.held (Memory.text st.mem a u.toNat)) := by
  have hplus := plusHold_of_room buf h
  rw [BitVec.ofNat_toNat, BitVec.setWidth_eq] at hplus
  rw [holds, hplus, HoldState.held, length_text, BitVec.ofNat_toNat, BitVec.setWidth_eq]

theorem numberSign_zero (d : BitVec (w + w)) :
    numberSign buf 0#w d st = (.error (.division .divZero), st) := by
  rw [numberSign, udSlashMod, if_pos rfl]

/-- In base 1, only 0 has an end. -/
theorem numberSignS_one (hw : 0 < w) (h : Room buf st 1) :
    numberSignS buf 1#w 0#(w + w) st = (.ok 0#(w + w), st.held [digitByte w 0]) := by
  have hone : (1#w).toNat = 1 := BitVec.toNat_one hw
  obtain ⟨q, hq, hsign⟩ := @numberSign_spec _ buf st 1#w
    (fun hzero => by simpa [hone] using congrArg BitVec.toNat hzero) 0#(w + w) h
  have hq0 : q = 0#(w + w) := BitVec.eq_of_toNat_eq (by simpa using hq)
  rw [numberSignS_of_ok buf hsign, hq0]
  simp only [or_halves_eq_zero_iff]
  simp

/-- {lit}`#s` puts all digits in front. -/
theorem HoldOp.digitS_of_fits (hw : 8 ≤ w) {base : BitVec w} {d : BitVec (w + w)}
    (hfits : (HoldOp.digitS base d).Fits buf st) (hbase : base ≠ 0#w) :
    numberSignS buf base d st =
      (.ok 0#(w + w), st.held ((toDigits base.toNat d.toNat).map (digitByte w))) := by
  obtain ⟨hone, hroom⟩ := hfits
  have hpos := Arith.toNat_pos hbase
  rw [HoldOp.text, if_neg hbase, List.length_map] at hroom
  by_cases htwo : 2 ≤ base.toNat
  · exact numberSignS_spec buf htwo d hroom
  · have hbase1 : base = 1#w :=
      BitVec.eq_of_toNat_eq (by rw [BitVec.toNat_one (by omega)]; omega)
    rw [hone hbase1, BitVec.toNat_zero] at hroom ⊢
    rw [hbase1]
    exact numberSignS_one (by omega) hroom

/-- What a word does that holds characters -/
theorem HoldOp.run_of_fits (hw : 8 ≤ w) {op : HoldOp w} (hfits : op.Fits buf st)
    (hstart : op ≠ .startArea) (hrelease : op ≠ .release) :
    (op.run buf st).1 = st.held (op.text st) ∧
      ((op.run buf st).2 ≠ none → op.text st = []) := by
  cases op with
  | startArea => exact absurd rfl hstart
  | release => exact absurd rfl hrelease
  | finish => exact ⟨st.held_nil.symm, fun _ => rfl⟩
  | hold char =>
      rw [HoldOp.run, hold_eq_held buf hfits]
      exact ⟨rfl, fun h => absurd rfl h⟩
  | holds a u =>
      have hroom : Room buf st u.toNat := by
        rw [← length_text st.mem a u.toNat]
        exact hfits
      rw [HoldOp.run, holds_eq_held hroom]
      exact ⟨rfl, fun h => absurd rfl h⟩
  | sign n =>
      by_cases hneg : n.slt 0#w
      · have hroom : Room buf st 1 := by
          simpa [HoldOp.Fits, HoldOp.text, hneg] using hfits
        have hbyte : ((ascii '-').setWidth w).setWidth 8 = ascii '-' :=
          BitVec.setWidth_setWidth_of_le _ hw
        rw [HoldOp.run, holdSign, if_pos hneg, hold_eq_held buf hroom, HoldOp.text, if_pos hneg,
          hbyte]
        exact ⟨rfl, fun h => absurd rfl h⟩
      · rw [HoldOp.run, holdSign, if_neg hneg, HoldOp.text, if_neg hneg]
        exact ⟨st.held_nil.symm, fun _ => rfl⟩
  | digit base d =>
      by_cases hbase : base = 0#w
      · rw [HoldOp.run, HoldOp.text, if_pos hbase, hbase, numberSign_zero]
        exact ⟨st.held_nil.symm, fun _ => rfl⟩
      · have hroom : Room buf st 1 := by
          simpa [HoldOp.Fits, HoldOp.text, hbase] using hfits
        obtain ⟨q, -, hsign⟩ := numberSign_spec buf hbase d hroom
        rw [HoldOp.run, HoldOp.text, if_neg hbase, hsign]
        exact ⟨rfl, fun h => absurd rfl h⟩
  | digitS base d =>
      by_cases hbase : base = 0#w
      · rw [HoldOp.run, HoldOp.text, if_pos hbase, hbase,
          numberSignS_of_error buf (numberSign_zero d)]
        exact ⟨st.held_nil.symm, fun _ => rfl⟩
      · rw [HoldOp.run, HoldOp.text, if_neg hbase, HoldOp.digitS_of_fits hw hfits hbase]
        exact ⟨rfl, fun h => absurd rfl h⟩

/-- {lit}`<<#` starts an area. -/
theorem Contains.step_startArea (hw : 8 ≤ w) (h : Contains buf st a rest)
    (hfits : HoldOp.startArea.Fits buf st) :
    Areas.step buf st .startArea (a :: rest) = [] :: a :: rest ∧
      Contains buf (HoldOp.startArea.run buf st).1 [] (a :: rest) ∧
      (HoldOp.startArea.run buf st).2 = none := by
  obtain ⟨st', hrun, hcontains⟩ := h.startArea hw hfits
  have hrun : HoldOp.startArea.run buf st = (st', none) := by rw [HoldOp.run, hrun]; rfl
  rw [Areas.step, hrun, if_pos rfl]
  exact ⟨rfl, hcontains, rfl⟩

/-- {lit}`#>>` releases the newest area. -/
theorem Contains.step_release {b : List Byte} (hw : 8 ≤ w ∧ w ≤ 64)
    (h : Contains buf st a (b :: rest)) :
    Areas.step buf st .release (a :: b :: rest) = b :: rest ∧
      Contains buf (HoldOp.release.run buf st).1 b rest ∧ (HoldOp.release.run buf st).2 = none := by
  obtain ⟨st', hrun, hcontains⟩ := h.release hw
  have hrun : HoldOp.release.run buf st = (st', none) := by rw [HoldOp.run, hrun]; rfl
  rw [Areas.step, hrun, if_pos rfl]
  exact ⟨rfl, hcontains, rfl⟩

/-- {lit}`#>>` leaves the last area. -/
theorem Contains.step_release_last (h : Contains buf st a []) :
    Areas.step buf st .release [a] = [a] ∧ (HoldOp.release.run buf st).1 = st := by
  have hrun : HoldOp.release.run buf st = (st, some .resultRange) := by
    rw [HoldOp.run, h.release_throws]
    rfl
  rw [Areas.step, hrun, if_neg (by simp)]
  exact ⟨rfl, rfl⟩

/-- A text is put in front of the newest area. -/
theorem Contains.step_text (hw : 8 ≤ w) (h : Contains buf st a rest) {op : HoldOp w}
    (hfits : op.Fits buf st) (hstart : op ≠ .startArea) (hrelease : op ≠ .release) :
    Areas.step buf st op (a :: rest) = (op.text st ++ a) :: rest ∧
      Contains buf (op.run buf st).1 (op.text st ++ a) rest ∧
      ((op.run buf st).2 ≠ none → (op.run buf st).1 = st) := by
  obtain ⟨hrun, hempty⟩ := HoldOp.run_of_fits hw hfits hstart hrelease
  have hroom : Room buf st (op.text st).length := by
    cases op with
    | startArea => exact absurd rfl hstart
    | digitS base d => exact hfits.2
    | _ => exact hfits
  refine ⟨?_, hrun ▸ h.held hroom, fun hball => by rw [hrun, hempty hball, HoldState.held_nil]⟩
  rw [Areas.step]
  split
  · cases op with
    | startArea => exact absurd rfl hstart
    | release => exact absurd rfl hrelease
    | _ => rfl
  · rename_i hball
    rw [hempty hball, List.nil_append]

/-- A word with room for what it holds keeps the areas apart. -/
theorem Contains.step (hw : 8 ≤ w ∧ w ≤ 64) (h : Contains buf st a rest) {op : HoldOp w}
    (hfits : op.Fits buf st) :
    ∃ a' rest', Areas.step buf st op (a :: rest) = a' :: rest' ∧
      Contains buf (op.run buf st).1 a' rest' ∧
      ((op.run buf st).2 ≠ none → (op.run buf st).1 = st) := by
  by_cases hstart : op = .startArea
  · subst hstart
    obtain ⟨hstep, hnext, hball⟩ := h.step_startArea hw.1 hfits
    exact ⟨[], a :: rest, hstep, hnext, fun hne => absurd hball hne⟩
  by_cases hrelease : op = .release
  · subst hrelease
    cases rest with
    | nil =>
        obtain ⟨hstep, hsame⟩ := h.step_release_last
        exact ⟨a, [], hstep, hsame.symm ▸ h, fun _ => hsame⟩
    | cons b rest =>
        obtain ⟨hstep, hnext, hball⟩ := h.step_release hw
        exact ⟨b, rest, hstep, hnext, fun hne => absurd hball hne⟩
  · obtain ⟨hstep, hnext, hsame⟩ := h.step_text hw.1 hfits hstart hrelease
    exact ⟨_, rest, hstep, hnext, hsame⟩

end

/-! ## Runs with room -/

section

variable {buf : HoldBuffer w} {st : HoldState w} {ops : List (HoldOp w)}

/-- Every word of a run has room. -/
def AllFit (buf : HoldBuffer w) (st : HoldState w) (ops : List (HoldOp w)) : Prop :=
  ∀ before op, before ++ [op] <+: ops → op.Fits buf (holdRun buf st before).1

theorem holdRun_append_singleton (before : List (HoldOp w)) (op : HoldOp w) :
    holdRun buf st (before ++ [op]) = (holdStep buf (holdRun buf st before) op).1 :=
  after_append_singleton ..

/-- Where all words fit, the areas are those of the model. -/
theorem AllFit.contains (hw : 8 ≤ w ∧ w ≤ 64) (h : AllFit buf st ops) {before : List (HoldOp w)}
    (hbefore : before <+: ops) :
    ∃ a rest, (holdRun buf st before).2 = a :: rest ∧
      Contains buf (holdRun buf st before).1 a rest := by
  induction before using List.reverseRecOn with
  | nil => exact ⟨[], [], rfl, contains_start buf st⟩
  | append_singleton before op ih =>
      obtain ⟨a, rest, hareas, hcontains⟩ := ih ((List.prefix_append _ _).trans hbefore)
      obtain ⟨a', rest', hstep, hnext, -⟩ := hcontains.step hw (h before op hbefore)
      rw [holdRun_append_singleton]
      exact ⟨a', rest', by rw [holdStep, hareas, hstep], hnext⟩

/-- Words that end no area that they do not start leave the outer areas below theirs. -/
theorem AllFit.inner (hw : 8 ≤ w ∧ w ≤ 64) (h : AllFit buf st ops) {before inner : List (HoldOp w)}
    (hinner : before ++ .startArea :: inner <+: ops)
    (hdepth : ∀ p, p <+: inner → p.count .release ≤ p.count .startArea) :
    ∃ areas, (holdRun buf st (before ++ .startArea :: inner)).2 =
        areas ++ (holdRun buf st before).2 ∧
      areas.length + inner.count .release = inner.count .startArea + 1 := by
  induction inner using List.reverseRecOn with
  | nil =>
      obtain ⟨a, rest, hareas, hcontains⟩ :=
        h.contains hw ((List.prefix_append _ _).trans hinner)
      obtain ⟨hstep, -, -⟩ := hcontains.step_startArea hw.1 (h before .startArea hinner)
      refine ⟨[[]], ?_, rfl⟩
      rw [holdRun_append_singleton, holdStep, hareas, hstep]
      rfl
  | append_singleton inner op ih =>
      have hsplit : before ++ HoldOp.startArea :: (inner ++ [op]) =
          before ++ HoldOp.startArea :: inner ++ [op] := by simp
      rw [hsplit] at hinner ⊢
      have hpre := (List.prefix_append _ _).trans hinner
      obtain ⟨areas, hareas, hcount⟩ := ih hpre
        fun p hp => hdepth p (hp.trans (List.prefix_append _ _))
      have hbelow := hdepth inner (List.prefix_append _ _)
      obtain ⟨a, rest, hrest, hcontains⟩ := h.contains hw hpre
      obtain ⟨c, areas, rfl⟩ : ∃ c cs, areas = c :: cs :=
        List.exists_cons_of_length_pos (by omega)
      rw [hrest, List.cons_append, List.cons.injEq] at hareas
      obtain ⟨rfl, rfl⟩ := hareas
      rw [List.length_cons] at hcount
      rw [holdRun_append_singleton, holdStep, List.count_append, List.count_append, hrest]
      by_cases hstart : op = .startArea
      · subst hstart
        obtain ⟨hstep, -, -⟩ := hcontains.step_startArea hw.1 (h _ _ hinner)
        refine ⟨[] :: a :: areas, hstep, ?_⟩
        simp
        omega
      by_cases hrelease : op = .release
      · subst hrelease
        obtain ⟨b, rest, hbelow⟩ : ∃ b bs, areas ++ (holdRun buf st before).2 = b :: bs := by
          obtain ⟨b, rest, hbefore, -⟩ := h.contains hw ((List.prefix_append _ _).trans hpre)
          exact List.exists_cons_of_ne_nil (by simp [hbefore])
        rw [hbelow] at hcontains ⊢
        refine ⟨areas, hcontains.step_release hw |>.1.trans hbelow.symm, ?_⟩
        simp
        omega
      · obtain ⟨hstep, -, -⟩ := hcontains.step_text hw.1 (h _ _ hinner) hstart hrelease
        refine ⟨_ :: areas, hstep, ?_⟩
        simp [hstart, hrelease]
        omega

/-- This is so for runs where all words have room. -/
theorem areas_kept (hw : 8 ≤ w ∧ w ≤ 64) (buf : HoldBuffer w) (st : HoldState w)
    (ops : List (HoldOp w)) (h : AllFit buf st ops) : KeepsAreas buf st ops where
  finish before hbefore := by
    obtain ⟨a, rest, hareas, hcontains⟩ := h.contains hw hbefore
    obtain ⟨hfinish, htext⟩ := hcontains.finish
    simp only [hareas, hfinish, htext, List.head?_cons]
  release before inner hrun hbalanced := by
    have hsplit : before ++ (HoldOp.startArea :: inner ++ [.release]) =
        before ++ HoldOp.startArea :: inner ++ [.release] := by simp
    rw [hsplit] at hrun ⊢
    have hinner := (List.prefix_append _ _).trans hrun
    obtain ⟨areas, hareas, hcount⟩ := h.inner hw hinner hbalanced.1
    obtain ⟨a, rest, houter, hcontains⟩ := h.contains hw ((List.prefix_append _ _).trans hinner)
    rw [hbalanced.2] at hcount
    obtain ⟨b, rfl⟩ := List.length_eq_one_iff.mp (show areas.length = 1 by omega)
    obtain ⟨b', rest', hareas', hinside⟩ := h.contains hw hinner
    rw [hareas', houter, List.singleton_append, List.cons.injEq] at hareas
    obtain ⟨rfl, rfl⟩ := hareas
    rw [holdRun_append_singleton, holdStep]
    exact hcontains.sameAreas (hinside.step_release hw).2.1
  throw before op hrun hball := by
    obtain ⟨a, rest, hareas, hcontains⟩ := h.contains hw ((List.prefix_append _ _).trans hrun)
    obtain ⟨-, -, -, -, hsame⟩ := hcontains.step hw (h before op hrun)
    rw [holdRun_append_singleton, holdStep, hsame hball]
    exact hcontains.sameAreas hcontains

theorem allFit_nil : AllFit buf st [] := by
  intro before op hrun
  exact absurd (List.prefix_nil.mp hrun) (by simp)

/-- One more word that fits -/
theorem AllFit.append_singleton {op : HoldOp w} (h : AllFit buf st ops)
    (hfits : op.Fits buf (holdRun buf st ops).1) : AllFit buf st (ops ++ [op]) := by
  intro before op' hrun
  rcases List.prefix_concat_iff.mp hrun with heq | hbefore
  · obtain ⟨rfl, hop⟩ := List.append_inj' heq rfl
    rw [List.singleton_inj.mp hop]
    exact hfits
  · exact h before op' hbefore

end

/-- One area in another -/
theorem areas_kept_nested :
    KeepsAreas HoldBuffer.atPage ⟨fun _ => 0#8, 0#64, 0#64⟩
      [.hold 98#64, .startArea, .hold 97#64, .release] := by
  refine areas_kept (by decide) _ _ _ ?_
  refine @AllFit.append_singleton _ _ _ [.hold 98#64, .startArea, .hold 97#64] _ ?_ (by decide)
  refine @AllFit.append_singleton _ _ _ [.hold 98#64, .startArea] _ ?_ (by decide)
  refine @AllFit.append_singleton _ _ _ [.hold 98#64] _ ?_ (by decide)
  exact AllFit.append_singleton allFit_nil (by decide)

/-- {lit}`holds` moves the hold pointer although it throws. -/
theorem areas_not_kept :
    ¬KeepsAreas HoldBuffer.atPage ⟨fun _ => 0#8, 0#64, 0#64⟩ [.hold 97#64, .holds 0#64 200#64] := by
  intro h
  have hsame := (h.throw [.hold 97#64] (.holds 0#64 200#64) List.prefix_rfl (by decide)).holdptr
  exact absurd hsame (by decide)

end Numbers
end Gforth
