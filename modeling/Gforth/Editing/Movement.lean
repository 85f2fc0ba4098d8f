import Gforth.Editing.Texts

/-!
# Movements of the cursor

Main results:

- Theorem {lit}`skipLeft` and {lit}`skipRight`: characters of one kind.
- Theorem {lit}`Shows.xback` and {lit}`Shows.xforw`: a character or a word.
-/

namespace Gforth
namespace Editing

open Lib
open Memory
open Utf8
open Numbers
open Characters

/-! ## Lines in a buffer -/

variable {w : Nat} {mem : Chars w} {addr : BitVec w} {l l' r r' : List Nat} {n p q : Nat}

/-- The same line with the cursor elsewhere -/
theorem Holds.congr (h : Holds mem addr l r) (heq : l' ++ r' = l ++ r) : Holds mem addr l' r' where
  codes := heq ▸ h.codes
  text := by
    have htext := h.text
    rwa [← bytes_append, ← encodeAll_append, ← heq, bytes_append, encodeAll_append] at htext

/-- The state of the editor for a line with a cursor.  The text is in the buffer, and what is inserted
is as short as anything in memory. -/
structure Shows (e : Editor w) (a : Cursor) : Prop where
  holds : Holds e.mem e.addr a.left a.right
  span : e.span = BitVec.ofNat w (bytes a.left + bytes a.right)
  pos : e.pos = BitVec.ofNat w (bytes a.left)
  le : bytes a.left + bytes a.right ≤ e.max.toNat
  max_lt : e.max.toNat < 2 ^ (w - 1)
  paste : e.paste = encodeAll a.pasted
  codes : ∀ n ∈ a.pasted, n ≤ lastCodePoint
  pasted_lt : bytes a.pasted < 2 ^ (w - 1)
  tib : e.addr = e.tib → e.max.toNat ≤ e.maxTib.toNat

/-- Only bytes of the buffer are changed. -/
structure Keeps (e e' : Editor w) : Prop where
  addr : e'.addr = e.addr
  max : e'.max = e.max
  tib : e'.tib = e.tib
  maxTib : e'.maxTib = e.maxTib
  mem : ∀ b, ¬Inside e.addr e.max.toNat b → e'.mem b = e.mem b

theorem Keeps.refl (e : Editor w) : Keeps e e :=
  ⟨rfl, rfl, rfl, rfl, fun _ _ => rfl⟩

/-- Changes of the same buffer -/
theorem Keeps.trans {e e' e'' : Editor w} (h : Keeps e e') (h' : Keeps e' e'') : Keeps e e'' where
  addr := h'.addr.trans h.addr
  max := h'.max.trans h.max
  tib := h'.tib.trans h.tib
  maxTib := h'.maxTib.trans h.maxTib
  mem b hb := (h'.mem b (by rwa [h.addr, h.max])).trans (h.mem b hb)

variable {e : Editor w} {a : Cursor}

/-- Another position in the line -/
theorem Shows.setPos (h : Shows e a) (heq : l ++ r = a.left ++ a.right) :
    Shows { e with pos := BitVec.ofNat w (bytes l) } ⟨l, r, a.pasted⟩ := by
  have hbytes : bytes l + bytes r = bytes a.left + bytes a.right := by
    rw [← bytes_append, heq, bytes_append]
  exact { h with
    holds := h.holds.congr heq
    span := h.span.trans (by rw [hbytes])
    pos := rfl
    le := by
      rw [hbytes]
      exact h.le }

/-! ## Cells -/

/-- Half of the range of a cell -/
theorem two_pow_pred (hw : 21 ≤ w) : 2 ^ w = 2 ^ (w - 1) + 2 ^ (w - 1) := by
  obtain ⟨k, rfl⟩ := Nat.exists_eq_add_of_le' (Nat.le_trans (by decide : 1 ≤ 21) hw)
  rw [Nat.add_sub_cancel, Nat.pow_succ]
  omega

theorem le_two_pow_pred (hw : 21 ≤ w) : 2 ^ 20 ≤ 2 ^ (w - 1) :=
  Nat.pow_le_pow_right (by decide) (by omega)

theorem toNat_cell (hw : 21 ≤ w) (h : p < 2 ^ (w - 1)) : (BitVec.ofNat w p).toNat = p := by
  rw [BitVec.toNat_ofNat, Nat.mod_eq_of_lt]
  have := two_pow_pred hw
  omega

theorem toInt_cell (hw : 21 ≤ w) (h : p < 2 ^ (w - 1)) : (BitVec.ofNat w p).toInt = p := by
  rw [BitVec.toInt_eq_toNat_of_lt, toNat_cell hw h]
  rw [toNat_cell hw h, two_pow_pred hw]
  omega

theorem zero_slt_cell (hw : 21 ≤ w) (h : p < 2 ^ (w - 1)) :
    (0#w).slt (BitVec.ofNat w p) = decide (0 < p) := by
  rw [BitVec.slt_eq_decide, toInt_cell hw h, BitVec.toInt_zero]
  exact decide_eq_decide.2 Int.natCast_pos

theorem cell_slt_zero (hw : 21 ≤ w) (h : p < 2 ^ (w - 1)) :
    (BitVec.ofNat w p).slt 0#w = false := by
  rw [BitVec.slt_eq_decide, toInt_cell hw h, BitVec.toInt_zero, decide_eq_false_iff_not]
  omega

theorem cell_lt_cell (hw : 21 ≤ w) (hp : p < 2 ^ (w - 1)) (hq : q < 2 ^ (w - 1)) :
    BitVec.ofNat w p < BitVec.ofNat w q ↔ p < q := by
  rw [BitVec.lt_def, toNat_cell hw hp, toNat_cell hw hq]

theorem cell_eq_cell (hw : 21 ≤ w) (hp : p < 2 ^ (w - 1)) (hq : q < 2 ^ (w - 1)) :
    BitVec.ofNat w p = BitVec.ofNat w q ↔ p = q := by
  rw [← BitVec.toNat_inj, toNat_cell hw hp, toNat_cell hw hq]

theorem add_cell_sub (addr : BitVec w) (p : Nat) :
    addr + BitVec.ofNat w p - addr = BitVec.ofNat w p := by
  rw [BitVec.add_comm, BitVec.add_sub_cancel]

theorem cell_sub_cell (h : p ≤ q) :
    BitVec.ofNat w q - BitVec.ofNat w p = BitVec.ofNat w (q - p) := by
  conv_lhs => rw [← Nat.sub_add_cancel h, BitVec.ofNat_add, BitVec.add_sub_cancel]

/-! ## Loops -/

variable {sys : System w} {cond : Byte → Bool} {kind : Nat → Bool} {fuel : Nat}

theorem charLeft_eq (hfuel : 4 ≤ sys.fuel) (h : Holds e.mem e.addr (l ++ [n]) r) :
    e.charLeft sys (BitVec.ofNat w (bytes (l ++ [n]))) = some (BitVec.ofNat w (bytes l)) := by
  rw [Editor.charLeft, h.charLeft hfuel, Option.map_some, add_cell_sub]

theorem charRight_eq (hw : 21 ≤ w) (h : Holds e.mem e.addr l (n :: r)) :
    e.charRight sys (BitVec.ofNat w (bytes l)) = BitVec.ofNat w (bytes (l ++ [n])) := by
  rw [Editor.charRight, h.charRight hw, add_cell_sub]

/-- Characters of one kind to the left are skipped. -/
theorem skipLeft (hw : 21 ≤ w) (hcond : Tests cond kind) (hsteps : 4 ≤ sys.fuel)
    (h : Holds e.mem e.addr l r) (hlt : bytes l + bytes r < 2 ^ (w - 1)) (hfuel : l.length < fuel) :
    Editor.skipLoop (fun pos => cond (e.mem (e.addr + pos - 1#w)) && decide ((0#w).slt pos))
        (e.charLeft sys) fuel (BitVec.ofNat w (bytes l)) =
      some (BitVec.ofNat w (bytes (l.reverse.dropWhile kind).reverse)) := by
  induction l using List.reverseRecOn generalizing r fuel with
  | nil =>
    obtain ⟨fuel, rfl⟩ := Nat.exists_eq_succ_of_ne_zero (Nat.ne_zero_of_lt hfuel)
    have hzero : bytes [] = 0 := rfl
    rw [Editor.skipLoop, hzero, zero_slt_cell hw (Nat.two_pow_pos _)]
    simp only [Nat.lt_irrefl, decide_false, Bool.and_false, Bool.false_eq_true, if_false,
      List.reverse_nil, List.dropWhile_nil, hzero]
  | append_singleton l n ih =>
    obtain ⟨fuel, rfl⟩ := Nat.exists_eq_succ_of_ne_zero (Nat.ne_zero_of_lt hfuel)
    have hcode : n ≤ lastCodePoint := ((Holds.shift [n]).1 h).code
    have hpos : 0 < bytes (l ++ [n]) := by
      rw [bytes_append, bytes_singleton]
      exact Nat.add_pos_right _ (size_pos n)
    rw [Editor.skipLoop, hcond n hcode _ h.mem_last, zero_slt_cell hw (by omega)]
    rw [List.reverse_append, List.reverse_singleton, List.singleton_append]
    cases hkind : kind n with
    | true =>
      rw [List.dropWhile_cons_of_pos hkind, if_pos (by simp [hpos]), charLeft_eq hsteps h,
        Option.bind_some]
      refine ih ((Holds.shift [n]).1 h) ?_ ?_
      · rwa [bytes_append, Nat.add_assoc, ← bytes_append] at hlt
      · rw [List.length_append] at hfuel
        exact Nat.lt_of_succ_lt_succ hfuel
    | false =>
      rw [List.dropWhile_cons_of_neg (by rw [hkind]; decide), if_neg (by simp)]
      simp

/-- Characters of one kind to the right are skipped. -/
theorem skipRight (hw : 21 ≤ w) (hcond : Tests cond kind) (h : Holds e.mem e.addr l r)
    (hspan : e.span = BitVec.ofNat w (bytes l + bytes r))
    (hlt : bytes l + bytes r < 2 ^ (w - 1)) (hfuel : r.length < fuel) :
    Editor.skipLoop (fun pos => cond (e.mem (e.addr + pos)) && decide (pos < e.span))
        (fun pos => some (e.charRight sys pos)) fuel (BitVec.ofNat w (bytes l)) =
      some (BitVec.ofNat w (bytes (l ++ r.takeWhile kind))) := by
  induction r generalizing l fuel with
  | nil =>
    obtain ⟨fuel, rfl⟩ := Nat.exists_eq_succ_of_ne_zero (Nat.ne_zero_of_lt hfuel)
    have hzero : bytes [] = 0 := rfl
    rw [hzero, Nat.add_zero] at hspan
    rw [Editor.skipLoop, hspan, if_neg (by simp), List.takeWhile_nil, List.append_nil]
  | cons n r ih =>
    obtain ⟨fuel, rfl⟩ := Nat.exists_eq_succ_of_ne_zero (Nat.ne_zero_of_lt hfuel)
    have hsize := size_pos n
    have hbytes : bytes (n :: r) = size n + bytes r := bytes_cons n r
    have hless : BitVec.ofNat w (bytes l) < e.span := by
      rw [hspan, cell_lt_cell hw (by omega) hlt]
      omega
    rw [Editor.skipLoop, hcond n h.code _ h.mem_first, decide_eq_true hless]
    cases hkind : kind n with
    | true =>
      have hmore : bytes (l ++ [n]) + bytes r = bytes l + bytes (n :: r) := by
        rw [bytes_append, bytes_singleton, hbytes, Nat.add_assoc]
      rw [List.takeWhile_cons_of_pos hkind, Bool.and_true, if_pos rfl, charRight_eq hw h, Option.bind_some,
        ih ((Holds.shift [n]).2 h) (by rw [hmore, hspan]) (by rwa [hmore])
          (Nat.lt_of_succ_lt_succ hfuel), List.append_assoc, List.singleton_append]
    | false =>
      rw [List.takeWhile_cons_of_neg (by rw [hkind]; decide), if_neg (by simp), List.append_nil]

/-! ## Movements -/

/-- What the loops need: enough steps for every text in memory -/
def Enough (sys : System w) : Prop :=
  2 ^ w ≤ sys.fuel

theorem Enough.four_le (hw : 21 ≤ w) (h : Enough sys) : 4 ≤ sys.fuel :=
  (Nat.pow_le_pow_right (by decide : 0 < 2) (show 2 ≤ w by omega)).trans h

theorem Shows.lt (h : Shows e a) : bytes a.left + bytes a.right < 2 ^ (w - 1) :=
  h.le.trans_lt h.max_lt

/-- There are enough steps for the line. -/
theorem Shows.length_lt (hw : 21 ≤ w) (h : Shows e a) (hsys : Enough sys) :
    a.left.length < sys.fuel ∧ a.right.length < sys.fuel := by
  have hlt := h.lt
  have hleft := length_le_bytes a.left
  have hright := length_le_bytes a.right
  have hpow := two_pow_pred hw
  rw [Enough] at hsys
  omega

theorem Shows.pos_eq_zero (h : Shows e a) (hleft : a.left = []) : e.pos = 0#w := by
  rw [h.pos, hleft]
  rfl

/-- Behind a character the position is not 0. -/
theorem Shows.pos_ne_zero (hw : 21 ≤ w) (h : Shows e a) (hleft : a.left ≠ []) : e.pos ≠ 0#w := by
  have hlt := h.lt
  rw [h.pos]
  refine fun hzero => hleft (bytes_eq_zero_iff.1 ?_)
  exact (cell_eq_cell hw (by omega) (Nat.two_pow_pos _)).1 hzero

theorem Cursor.beforeWord_prefix (blank : Nat → Bool) (l : List Nat) :
    Cursor.beforeWord blank l <+: l := by
  rw [beforeWord, ← List.reverse_suffix, List.reverse_reverse]
  exact (List.dropWhile_suffix _).trans (List.dropWhile_suffix _)

theorem Cursor.behindWord_suffix (blank : Nat → Bool) (l : List Nat) :
    Cursor.behindWord blank l <:+ l :=
  (List.dropWhile_suffix _).trans (List.dropWhile_suffix _)

/-- What is left behind a movement is behind the cursor. -/
theorem Cursor.rest_suffix (modifier : Bool) (a : Cursor) : a.rest modifier <:+ a.right := by
  rw [rest]
  split
  · exact behindWord_suffix _ _
  · exact List.tail_suffix _

/-- The cursor moves back in the same line. -/
theorem Shows.retreat (h : Shows e a) (hl : l <+: a.left) :
    Shows { e with pos := BitVec.ofNat w (bytes l) } (a.retreat l) := by
  refine h.setPos (l := l) (r := a.left.drop l.length ++ a.right) ?_
  obtain ⟨ms, hms⟩ := hl
  rw [← hms, List.drop_left, List.append_assoc]

theorem take_length_sub {xs ys zs : List Nat} (h : xs ++ ys = zs) :
    zs.take (zs.length - ys.length) = xs := by
  rw [← h, List.length_append, Nat.add_sub_cancel, List.take_left]

/-- The cursor moves on in the same line. -/
theorem Shows.advance (h : Shows e a) (hr : r <:+ a.right) :
    Shows { e with pos := BitVec.ofNat w (bytes (a.left ++
      a.right.take (a.right.length - r.length))) } (a.advance r) := by
  refine h.setPos (l := a.left ++ a.right.take (a.right.length - r.length)) (r := r) ?_
  obtain ⟨ms, hms⟩ := hr
  rw [take_length_sub hms, List.append_assoc, hms]

theorem Keeps.setPos (e : Editor w) (pos : BitVec w) : Keeps e { e with pos := pos } :=
  ⟨rfl, rfl, rfl, rfl, fun _ _ => rfl⟩

/-- {lit}`xback` -/
theorem Shows.xback (hw : 21 ≤ w) (hsys : Enough sys) (h : Shows e a) (modifier : Bool) :
    ∃ e', e.xback sys modifier = some e' ∧
      Shows e' (a.retreat (if modifier then Cursor.beforeWord IsSpace a.left
        else a.left.dropLast)) ∧ Keeps e e' := by
  have hlt := h.lt
  have hpre : (if modifier then Cursor.beforeWord IsSpace a.left else a.left.dropLast) <+:
      a.left := by
    split
    · exact Cursor.beforeWord_prefix _ _
    · exact List.dropLast_prefix _
  have hretreat := h.retreat hpre
  have hle : bytes (if modifier then Cursor.beforeWord IsSpace a.left else a.left.dropLast) ≤
      bytes a.left := by
    obtain ⟨ms, hms⟩ := hpre
    conv_rhs => rw [← hms, bytes_append]
    exact Nat.le_add_right _ _
  rw [Editor.xback]
  by_cases hleft : a.left = []
  · have hpos := h.pos_eq_zero hleft
    have hnil : (if modifier then Cursor.beforeWord IsSpace a.left else a.left.dropLast) = [] :=
      List.prefix_nil.1 (hleft ▸ hpre)
    rw [if_neg (not_not.2 hpos)]
    rw [hnil] at hretreat ⊢
    have hzero : BitVec.ofNat w (bytes []) = e.pos := hpos.symm
    rw [hzero] at hretreat
    exact ⟨e, rfl, hretreat, Keeps.refl e⟩
  · rw [if_pos (h.pos_ne_zero hw hleft)]
    obtain ⟨hfuel, -⟩ := h.length_lt hw hsys
    have hnext : (if modifier then
        (Editor.skipLoop (fun pos => (e.mem (e.addr + pos - 1#w) == Editor.bl) &&
            decide ((0#w).slt pos)) (e.charLeft sys) sys.fuel e.pos).bind
          (Editor.skipLoop (fun pos => (e.mem (e.addr + pos - 1#w) != Editor.bl) &&
            decide ((0#w).slt pos)) (e.charLeft sys) sys.fuel)
        else e.charLeft sys e.pos) = some (BitVec.ofNat w (bytes
          (if modifier then Cursor.beforeWord IsSpace a.left else a.left.dropLast))) := by
      rw [h.pos]
      cases modifier with
      | true =>
        rw [if_pos rfl, if_pos rfl,
          skipLeft hw tests_space (hsys.four_le hw) h.holds hlt hfuel, Option.bind_some]
        have hfirst : (a.left.reverse.dropWhile IsSpace).reverse <+: a.left := by
          rw [← List.reverse_suffix, List.reverse_reverse]
          exact List.dropWhile_suffix _
        obtain ⟨ms, hms⟩ := hfirst
        have hholds := (Holds.shift ms).1 (hms.symm ▸ h.holds)
        have hbytes : bytes (a.left.reverse.dropWhile IsSpace).reverse + bytes (ms ++ a.right) =
            bytes a.left + bytes a.right := by
          rw [bytes_append, ← Nat.add_assoc, ← bytes_append, hms]
        have hlength := congrArg List.length hms
        rw [List.length_append] at hlength
        rw [skipLeft hw tests_not_space (hsys.four_le hw) hholds (by omega) (by omega),
          List.reverse_reverse]
        rfl
      | false =>
        have hlast := List.dropLast_append_getLast hleft
        have hholds : Holds e.mem e.addr (a.left.dropLast ++ [a.left.getLast hleft]) a.right :=
          hlast.symm ▸ h.holds
        have hchar := charLeft_eq (hsys.four_le hw) hholds
        rw [hlast] at hchar
        exact hchar
    dsimp only
    rw [hnext, Option.map_some, cell_slt_zero hw (by omega)]
    exact ⟨_, rfl, hretreat, Keeps.setPos e _⟩

/-- {lit}`xforw` -/
theorem Shows.xforw (hw : 21 ≤ w) (hsys : Enough sys) (h : Shows e a) (modifier : Bool) :
    ∃ e', e.xforw sys modifier = some e' ∧ Shows e' (a.advance (a.rest modifier)) ∧
      Keeps e e' ∧ e'.mem = e.mem ∧ e'.span = e.span := by
  have hlt := h.lt
  have hsuffix := a.rest_suffix modifier
  have hadvance := h.advance hsuffix
  rw [Editor.xforw]
  by_cases hright : a.right = []
  · have hspan : e.span = e.pos := by
      rw [h.span, h.pos, hright]
      rfl
    have hnil : a.rest modifier = [] := List.suffix_nil.1 (hright ▸ hsuffix)
    rw [if_neg (not_not.2 hspan)]
    rw [hnil, hright, List.take_nil, List.append_nil, ← h.pos] at hadvance
    rw [hnil]
    exact ⟨e, rfl, hadvance, Keeps.refl e, rfl, rfl⟩
  · have hspan : e.span ≠ e.pos := by
      rw [h.span, h.pos, ne_eq, cell_eq_cell hw hlt (by omega)]
      have hne := bytes_eq_zero_iff.not.2 hright
      omega
    rw [if_pos hspan]
    obtain ⟨-, hfuel⟩ := h.length_lt hw hsys
    have hnext : (if modifier then
        (Editor.skipLoop (fun pos => (e.mem (e.addr + pos) == Editor.bl) &&
            decide (pos < e.span)) (fun pos => some (e.charRight sys pos)) sys.fuel e.pos).bind
          (Editor.skipLoop (fun pos => (e.mem (e.addr + pos) != Editor.bl) &&
            decide (pos < e.span)) (fun pos => some (e.charRight sys pos)) sys.fuel)
        else some (e.charRight sys e.pos)) = some (BitVec.ofNat w (bytes
          (a.left ++ a.right.take (a.right.length - (a.rest modifier).length)))) := by
      rw [h.pos]
      cases modifier with
      | true =>
        have hsplit := List.takeWhile_append_dropWhile (p := IsSpace) (l := a.right)
        have hsplit' := List.takeWhile_append_dropWhile (p := fun n => !IsSpace n)
          (l := a.right.dropWhile IsSpace)
        have hholds := (Holds.shift (a.right.takeWhile IsSpace)).2 (hsplit.symm ▸ h.holds)
        have hbytes : bytes (a.left ++ a.right.takeWhile IsSpace) +
            bytes (a.right.dropWhile IsSpace) = bytes a.left + bytes a.right := by
          rw [bytes_append, Nat.add_assoc, ← bytes_append, hsplit]
        have hlength := congrArg List.length hsplit
        rw [List.length_append] at hlength
        have htaken : a.right.take (a.right.length - (a.rest true).length) =
            a.right.takeWhile IsSpace ++
              (a.right.dropWhile IsSpace).takeWhile fun n => !IsSpace n := by
          refine take_length_sub ?_
          rw [Cursor.rest, if_pos rfl, Cursor.behindWord, List.append_assoc, hsplit', hsplit]
        rw [if_pos rfl, skipRight hw tests_space h.holds h.span hlt hfuel, Option.bind_some,
          skipRight hw tests_not_space hholds (by rw [hbytes, h.span]) (by omega) (by omega),
          htaken, List.append_assoc]
      | false =>
        obtain ⟨n, r, hcons⟩ := List.exists_cons_of_ne_nil hright
        have hholds : Holds e.mem e.addr a.left (n :: r) := hcons ▸ h.holds
        have htaken : a.right.take (a.right.length - (a.rest false).length) = [n] := by
          refine take_length_sub ?_
          rw [Cursor.rest, if_neg (by decide), hcons, List.tail_cons, List.singleton_append]
        rw [if_neg (by decide), charRight_eq hw hholds, htaken]
    dsimp only
    rw [hnext, Option.map_some]
    exact ⟨_, rfl, hadvance, Keeps.setPos e _, rfl, rfl⟩

end Editing
end Gforth
