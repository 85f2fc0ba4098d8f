import Gforth.Characters.Encoding

/-!
# Incomplete characters at the end

{lit}`-u8trailing-garbage` decodes the last character of a text and takes the replacement character
as the sign of an error.

Main results:

- Theorem {lit}`u8TrailingGarbage_iff`: a text that ends with the replacement character loses it, and
  the garbage behind a text of half of the address space may stay.
-/

namespace Gforth
namespace Characters

open Lib
open Memory
open Utf8
open Numbers

variable {w : Nat}

/-- {lit}`safe/string` -/
def safeSlashString (s : Str w) (n : BitVec w) : Str w :=
  let n := if n.slt 0#w then 0#w else n
  let n := if s.len < n then s.len else n
  ⟨s.addr + n, s.len - n⟩

/-- {lit}`-u8trailing-garbage` -/
def u8TrailingGarbage (order : ByteOrder) (mem : Chars w) (s : Str w) : Str w :=
  if s.len = 0#w then s
  else
    let u := BitVec.ofNat w (u8StringMinus mem s.addr s.len.toNat)
    let r := u8FetchPlusQuery order mem (safeSlashString s u)
    if r.2 = 0xFFFD#w then ⟨s.addr, u⟩ else ⟨s.addr, r.1.addr + r.1.len - s.addr⟩

/-- The code point that is decoded: the last one, but the first one if the length before the last one
looks negative -/
def lookedAt (w : Nat) (ns : List Nat) : Option Nat :=
  if (encodeAll ns.dropLast).length < 2 ^ (w - 1) then ns.getLast? else ns.head?

/-! ## The last character -/

/-- {lit}`safe/string` does not go beyond the text, unless the length looks negative. -/
theorem safeSlashString_ofNat (hw : 0 < w) {s : Str w} {n : Nat} (h : n ≤ s.len.toNat) :
    safeSlashString s (BitVec.ofNat w n) =
      if n < 2 ^ (w - 1) then s.slashString (BitVec.ofNat w n) else s := by
  have hlt := s.len.isLt
  have hn : (BitVec.ofNat w n).toNat = n := by
    rw [BitVec.toNat_ofNat, Nat.mod_eq_of_lt (by omega)]
  have hhalf : 2 ^ w = 2 * 2 ^ (w - 1) := by
    rw [← Nat.pow_succ', Nat.succ_eq_add_one, Nat.sub_add_cancel hw]
  have hneg : (BitVec.ofNat w n).slt 0#w = true ↔ ¬n < 2 ^ (w - 1) := by
    rw [slt_zero_iff, toInt_neg_iff, hn]
    omega
  rw [safeSlashString]
  by_cases hsmall : n < 2 ^ (w - 1)
  · rw [if_neg (fun hslt => hneg.mp hslt hsmall), if_neg, if_pos hsmall]
    · rfl
    · rw [BitVec.lt_def, hn]
      omega
  · rw [if_pos (hneg.mpr hsmall), if_neg, if_neg hsmall]
    · simp
    · rw [BitVec.lt_def, BitVec.toNat_zero]
      omega

/-- Where a decoded character and the rest end -/
theorem u8TrailingGarbage_eq (hw : 0 < w) (order : ByteOrder) (mem : Chars w) {s : Str w}
    (h : s.len ≠ 0#w) {u : Nat} (hu : u8StringMinus mem s.addr s.len.toNat = u)
    (hle : u ≤ s.len.toNat) :
    u8TrailingGarbage order mem s =
      if (u8FetchPlusQuery order mem
        (if u < 2 ^ (w - 1) then s.slashString (BitVec.ofNat w u) else s)).2 = 0xFFFD#w then
        ⟨s.addr, BitVec.ofNat w u⟩ else s := by
  have hend : ∀ (s : Str w) (n : BitVec w),
      (s.slashString n).addr + (s.slashString n).len = s.addr + s.len := by
    intro s n
    rw [Str.slashString, BitVec.add_assoc, BitVec.add_comm n, BitVec.sub_add_cancel]
  have hsame : (u8FetchPlusQuery order mem (safeSlashString s (BitVec.ofNat w u))).1.addr +
      (u8FetchPlusQuery order mem (safeSlashString s (BitVec.ofNat w u))).1.len - s.addr = s.len := by
    rw [u8FetchPlusQuery_eq, hend, safeSlashString_ofNat hw hle]
    split
    · rw [hend, BitVec.add_comm, BitVec.add_sub_cancel]
    · rw [BitVec.add_comm, BitVec.add_sub_cancel]
  rw [u8TrailingGarbage, if_neg h, hu]
  dsimp only
  rw [hsame, safeSlashString_ofNat hw hle]

theorem ofNat_eq_replacement_iff (hw : 21 ≤ w) {n : Nat} (h : n ≤ lastCodePoint) :
    BitVec.ofNat w n = 0xFFFD#w ↔ n = 0xFFFD := by
  have hlast : lastCodePoint < 0x200000 := by decide
  rw [← BitVec.toNat_inj, toNat_ofNat_small hw (by omega), toNat_ofNat_small hw (by decide)]

theorem lookedAt_append_singleton (ns : List Nat) (n : Nat) :
    lookedAt w (ns ++ [n]) =
      if (encodeAll ns).length < 2 ^ (w - 1) then some n else (ns ++ [n]).head? := by
  rw [lookedAt, List.dropLast_concat, List.getLast?_concat]

/-- A shorter text is another one. -/
theorem shortened_ne {s : Str w} {n : Nat} (h : n < s.len.toNat) :
    s ≠ ⟨s.addr, BitVec.ofNat w n⟩ := by
  intro heq
  have hlt := s.len.isLt
  have hlen := congrArg (fun s : Str w => s.len.toNat) heq
  dsimp only at hlen
  rw [BitVec.toNat_ofNat, Nat.mod_eq_of_lt (by omega)] at hlen
  omega

section

variable {mem : Chars w} {s : Str w} {ns : List Nat} {p : List Byte}

/-- A text with the start of a character behind it -/
theorem stringMinus_start {n : Nat} (hn : n ≤ lastCodePoint) (hpre : p <+: encode n)
    (hempty : p ≠ []) (h : s.chars mem = encodeAll ns ++ p) :
    u8StringMinus mem s.addr s.len.toNat = (encodeAll ns).length := by
  have hlen : s.len.toNat = (encodeAll ns).length + p.length := by
    rw [← Str.length_chars mem s, h, List.length_append]
  have htext : text mem (s.addr + BitVec.ofNat w (encodeAll ns).length) p.length = p := by
    have hdrop := drop_text mem s.addr (show (encodeAll ns).length ≤ s.len.toNat by omega)
    rw [show text mem s.addr s.len.toNat = s.chars mem from rfl, h, List.drop_left' rfl, hlen,
      Nat.add_sub_cancel_left] at hdrop
    exact hdrop.symm
  obtain ⟨hfirst, hrest⟩ := bytes_of_start hn (List.length_pos_of_ne_nil hempty)
    (htext.symm ▸ hpre)
  rw [hlen]
  exact u8StringMinus_eq (List.length_pos_of_ne_nil hempty) hfirst hrest

/-- The start of a character is broken off at its end. -/
theorem decodeText_of_start {n : Nat} (hn : n ≤ lastCodePoint) (hpre : p <+: encode n)
    (hempty : p ≠ []) (hproper : p ≠ encode n) : decodeText p = (p.length, 0xFFFD) := by
  have hlen : p.length < size n := by
    rw [← length_encode]
    exact lt_of_le_of_ne hpre.length_le fun h => hproper (hpre.eq_of_length h)
  obtain ⟨b, cs, hencode, -, hcs⟩ := encode_eq_cons hn
  obtain ⟨c, p, rfl⟩ := List.exists_cons_of_ne_nil hempty
  rw [hencode, List.cons_prefix_cons] at hpre
  obtain ⟨rfl, hpre⟩ := hpre
  refine decodeText_of_brokenAt ⟨Nat.succ_pos _, Nat.le_refl _, fun b hb => ?_, fun x hx => ?_,
    fun x hx => ?_⟩
  · rw [announced_encode hn (by rw [hencode, List.head?_cons]; exact hb)]
    exact hlen
  · rw [List.take_length] at hx
    exact hcs x (hpre.subset hx)
  · rw [List.getElem?_eq_none (Nat.le_refl _)] at hx
    cases hx

/-- The first code point of a text that starts far from its end -/
theorem head_of_long (hns : ∀ n ∈ ns, n ≤ lastCodePoint) (h : s.chars mem = encodeAll ns ++ p)
    (hlong : ¬(encodeAll ns).length < 2 ^ (w - 1)) :
    ∃ m, ns.head? = some m ∧ m ≤ lastCodePoint ∧ decodeText (s.chars mem) = (size m, m) := by
  cases ns with
  | nil => exact absurd (Nat.two_pow_pos (w - 1)) hlong
  | cons m ns =>
      have hm := hns m List.mem_cons_self
      refine ⟨m, rfl, hm, ?_⟩
      rw [h, encodeAll_cons, List.append_assoc, decodeText_encode hm]

end

section

variable (hw : 21 ≤ w) (order : ByteOrder) {mem : Chars w} {s : Str w} {ns : List Nat} {p : List Byte}
include hw

/-- What is returned if something is behind the last boundary -/
theorem trailingGarbage_start {n : Nat} (hn : n ≤ lastCodePoint) (hpre : p <+: encode n)
    (hempty : p ≠ []) (h : s.chars mem = encodeAll ns ++ p) :
    u8TrailingGarbage order mem s =
      if BitVec.ofNat w (decodeText (if (encodeAll ns).length < 2 ^ (w - 1) then p
        else s.chars mem)).2 = 0xFFFD#w then
        ⟨s.addr, BitVec.ofNat w (encodeAll ns).length⟩ else s := by
  have hlen : s.len.toNat = (encodeAll ns).length + p.length := by
    rw [← Str.length_chars mem s, h, List.length_append]
  have hne : s.len ≠ 0#w := by
    rw [Str.len_ne_zero_iff mem, h]
    exact List.append_ne_nil_of_right_ne_nil _ hempty
  rw [u8TrailingGarbage_eq (by omega) order mem hne (stringMinus_start hn hpre hempty h)
    (by omega), u8FetchPlusQuery_eq]
  split
  · rw [Str.chars_slashString mem s (by omega), h, List.drop_left' rfl]
  · rfl

/-- A text of whole characters -/
theorem trailingGarbage_whole (hns : ∀ n ∈ ns, n ≤ lastCodePoint) (h : s.chars mem = encodeAll ns) :
    u8TrailingGarbage order mem s = s ↔ lookedAt w ns ≠ some 0xFFFD := by
  induction ns using List.reverseRecOn with
  | nil =>
      have hempty : s.len = 0#w := by
        by_contra hne
        exact (Str.len_ne_zero_iff mem s).mp hne h
      rw [u8TrailingGarbage, if_pos hempty, lookedAt]
      exact iff_of_true rfl (by simp)
  | append_singleton ns n _ =>
      have hn := hns n (by simp)
      have hbytes : s.chars mem = encodeAll ns ++ encode n := by
        rw [h, encodeAll_append, encodeAll_cons, encodeAll_nil, List.append_nil]
      have hlen : s.len.toNat = (encodeAll ns).length + size n := by
        rw [← Str.length_chars mem s, hbytes, List.length_append, length_encode]
      have hpos := size_pos n
      have hempty : encode n ≠ [] := List.ne_nil_of_length_pos (by rw [length_encode]; exact hpos)
      obtain ⟨m, hlooked, hm, hdecode⟩ : ∃ m, lookedAt w (ns ++ [n]) = some m ∧ m ≤ lastCodePoint ∧
          (decodeText (if (encodeAll ns).length < 2 ^ (w - 1) then encode n
            else s.chars mem)).2 = m := by
        rw [lookedAt_append_singleton]
        by_cases hshort : (encodeAll ns).length < 2 ^ (w - 1)
        · have hdecode := decodeText_encode hn []
          rw [List.append_nil] at hdecode
          rw [if_pos hshort, if_pos hshort, hdecode]
          exact ⟨n, rfl, hn, rfl⟩
        · obtain ⟨m, hhead, hm, hdecode⟩ :=
            head_of_long (fun x hx => hns x (List.mem_append_left _ hx)) hbytes hshort
          rw [if_neg hshort, if_neg hshort, hdecode, List.head?_append, hhead]
          exact ⟨m, rfl, hm, rfl⟩
      rw [trailingGarbage_start hw order hn List.prefix_rfl hempty hbytes, hdecode, hlooked]
      simp only [ofNat_eq_replacement_iff hw hm, ne_eq, Option.some.injEq]
      by_cases hm : m = 0xFFFD
      · rw [if_pos hm]
        exact iff_of_false (fun heq => shortened_ne (by omega) heq.symm) (not_not.mpr hm)
      · rw [if_neg hm]
        exact iff_of_true rfl hm

/-- A text with the start of another character behind it -/
theorem trailingGarbage_broken (hns : ∀ n ∈ ns, n ≤ lastCodePoint) {n : Nat} (hn : n ≤ lastCodePoint)
    (hpre : p <+: encode n) (hempty : p ≠ []) (hproper : p ≠ encode n)
    (h : s.chars mem = encodeAll ns ++ p) :
    u8TrailingGarbage order mem s = ⟨s.addr, BitVec.ofNat w (encodeAll ns).length⟩ ↔
      (encodeAll ns).length < 2 ^ (w - 1) ∨ ns.head? = some 0xFFFD := by
  have hlen : s.len.toNat = (encodeAll ns).length + p.length := by
    rw [← Str.length_chars mem s, h, List.length_append]
  have hpos := List.length_pos_of_ne_nil hempty
  rw [trailingGarbage_start hw order hn hpre hempty h]
  by_cases hshort : (encodeAll ns).length < 2 ^ (w - 1)
  · rw [if_pos hshort, decodeText_of_start hn hpre hempty hproper, if_pos rfl]
    exact iff_of_true rfl (.inl hshort)
  · obtain ⟨m, hhead, hm, hdecode⟩ := head_of_long hns h hshort
    rw [if_neg hshort, hdecode, hhead]
    simp only [ofNat_eq_replacement_iff hw hm, hshort, false_or, Option.some.injEq]
    by_cases hm : m = 0xFFFD
    · rw [if_pos hm]
      exact iff_of_true rfl hm
    · rw [if_neg hm]
      exact iff_of_false (shortened_ne (by omega)) hm

end

/-- A text that ends with the replacement character loses it; garbage is removed unless the text in
front of it is too long. -/
theorem u8TrailingGarbage_iff (hw : 21 ≤ w) (order : ByteOrder) (mem : Chars w) (s : Str w)
    (ns : List Nat) (hns : ∀ n ∈ ns, n ≤ lastCodePoint) :
    (s.chars mem = encodeAll ns →
        (u8TrailingGarbage order mem s = s ↔ lookedAt w ns ≠ some 0xFFFD)) ∧
      ∀ n p, n ≤ lastCodePoint → p <+: encode n → p ≠ [] → p ≠ encode n →
        s.chars mem = encodeAll ns ++ p →
        (u8TrailingGarbage order mem s = ⟨s.addr, BitVec.ofNat w (encodeAll ns).length⟩ ↔
          (encodeAll ns).length < 2 ^ (w - 1) ∨ ns.head? = some 0xFFFD) :=
  ⟨trailingGarbage_whole hw order hns, fun _ _ hn hpre hempty hproper =>
    trailingGarbage_broken hw order hns hn hpre hempty hproper⟩

/-- A text with the first byte of another character behind it -/
theorem u8TrailingGarbage_iff_broken :
    u8TrailingGarbage .little (fun a => [0x41#8, 0xE2#8].getD a.toNat 0#8) ⟨0#64, 2#64⟩ =
      ⟨0#64, 1#64⟩ :=
  ((u8TrailingGarbage_iff (by decide) .little (fun a => [0x41#8, 0xE2#8].getD a.toNat 0#8)
    ⟨0#64, 2#64⟩ [0x41] (by decide)).2 0x20AC [0xE2#8] (by decide) ⟨[0x82#8, 0xAC#8], by decide⟩
    (by decide) (by decide) (by decide)).mpr (.inl (by decide))

/-- The replacement character at the end of a text -/
theorem u8TrailingGarbage_replacement :
    u8TrailingGarbage .little (fun a => [0x41#8, 0xEF#8, 0xBF#8, 0xBD#8].getD a.toNat 0#8)
      ⟨0#64, 4#64⟩ ≠ ⟨0#64, 4#64⟩ := by
  decide

end Characters
end Gforth
