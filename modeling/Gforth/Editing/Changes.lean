import Gforth.Editing.Movement

/-!
# Changes of the text

Main results:

- Theorem {lit}`Shows.xdel`, {lit}`Shows.qxdel` and {lit}`Shows.xdelw`: deletion.
- Theorem {lit}`Holds.delete` and {lit}`Holds.insert`: the bytes of the line behind it.
-/

namespace Gforth
namespace Editing

open Lib
open Memory
open Utf8
open Numbers
open Characters

variable {w : Nat} {mem : Chars w} {addr : BitVec w} {l r ms : List Nat} {n m : Nat}

/-! ## Lines in memory -/

/-- Characters are deleted to the right of a position; bytes behind the text may be moved, too. -/
theorem Holds.delete (h : Holds mem addr l (ms ++ r)) (hle : bytes l + (bytes r + m) ≤ 2 ^ w) :
    Holds (move mem (addr + BitVec.ofNat w (bytes l) + BitVec.ofNat w (bytes ms))
      (addr + BitVec.ofNat w (bytes l)) (bytes r + m)) addr l r where
  codes n hn := h.codes n (by
    rcases List.mem_append.1 hn with hn | hn
    · exact List.mem_append_left _ hn
    · exact List.mem_append_right _ (List.mem_append_right _ hn))
  text := by
    have htext := h.text
    rw [bytes_append, encodeAll_append, ← List.append_assoc] at htext
    exact text_delete mem m htext hle

/-- Characters are inserted. -/
theorem Holds.insert (h : Holds mem addr l r) (hcodes : ∀ n ∈ ms, n ≤ lastCodePoint)
    (hle : bytes l + (bytes ms + bytes r) ≤ 2 ^ w) :
    Holds (store (move mem (addr + BitVec.ofNat w (bytes l))
      (addr + BitVec.ofNat w (bytes l) + BitVec.ofNat w (bytes ms)) (bytes r))
      (addr + BitVec.ofNat w (bytes l)) (encodeAll ms)) addr (l ++ ms) r where
  codes n hn := by
    rw [List.mem_append, List.mem_append] at hn
    rcases hn with (hn | hn) | hn
    · exact h.codes n (List.mem_append_left _ hn)
    · exact hcodes n hn
    · exact h.codes n (List.mem_append_right _ hn)
  text := by
    rw [bytes_append, encodeAll_append, Nat.add_assoc, List.append_assoc]
    exact text_insert mem h.text hle

variable {e : Editor w} {a : Cursor} {sys : System w}

theorem add_sub_add (addr x y : BitVec w) : addr + x - (addr + y) = x - y := by
  rw [BitVec.add_comm addr y, ← BitVec.sub_sub, BitVec.add_comm, BitVec.sub_sub,
    BitVec.add_comm y, ← BitVec.sub_sub, BitVec.add_sub_cancel]

/-! ## Deletion -/

/-- {lit}`(xdel)` -/
theorem Shows.xdel (hw : 21 ≤ w) (hsys : Enough sys) (h : Shows e ⟨l ++ [n], r, ms⟩) :
    ∃ e', e.xdel sys = some e' ∧ Shows e' ⟨l, r, ms⟩ ∧ Keeps e e' := by
  have hlt : bytes (l ++ [n]) + bytes r < 2 ^ (w - 1) := h.lt
  have hle : bytes (l ++ [n]) + bytes r ≤ e.max.toNat := h.le
  have hspan : e.span = BitVec.ofNat w (bytes (l ++ [n]) + bytes r) := h.span
  have hpos : e.pos = BitVec.ofNat w (bytes (l ++ [n])) := h.pos
  have hpow := two_pow_pred hw
  have hsum : bytes (l ++ [n]) = bytes l + bytes [n] := bytes_append l [n]
  have hback : u8LessLess e.mem sys.fuel (e.addr + e.pos) =
      some (e.addr + BitVec.ofNat w (bytes l)) := by
    rw [hpos]
    exact h.holds.charLeft (hsys.four_le hw)
  have hsize : e.addr + e.pos - (e.addr + BitVec.ofNat w (bytes l)) =
      BitVec.ofNat w (bytes [n]) := by
    rw [add_sub_add, hpos, cell_sub_cell (by omega), hsum, Nat.add_sub_cancel_left]
  have hrest : (e.span - BitVec.ofNat w (bytes l)).toNat = bytes r + bytes [n] := by
    rw [hspan, cell_sub_cell (by omega), toNat_cell hw (by omega)]
    omega
  have hholds : Holds e.mem e.addr l ([n] ++ r) := (Holds.shift [n]).1 h.holds
  replace hholds := hholds.delete (m := bytes [n]) (by omega)
  rw [Editor.xdel, hback, Option.map_some]
  dsimp only [Editor.editRest]
  rw [add_cell_sub, hsize, hrest]
  refine ⟨_, rfl, { h with holds := hholds, span := ?_, pos := rfl, le := ?_ },
    rfl, rfl, rfl, rfl, fun b hb => ?_⟩
  · dsimp only
    rw [hspan, cell_sub_cell (by omega)]
    congr 1
    omega
  · dsimp only
    omega
  · refine store_of_outside _ hb ?_
    rw [length_text]
    omega

/-- The loops of {lit}`?xdel` -/
theorem Shows.xdelLoop (hw : 21 ≤ w) (hsys : Enough sys) {cond : Byte → Bool} {kind : Nat → Bool}
    (hcond : Tests cond kind) {fuel : Nat} (h : Shows e ⟨l, r, ms⟩) (hfuel : l.length < fuel) :
    ∃ e', e.xdelLoop sys cond fuel = some e' ∧
      Shows e' ⟨(l.reverse.dropWhile kind).reverse, r, ms⟩ ∧ Keeps e e' := by
  induction l using List.reverseRecOn generalizing e fuel with
  | nil =>
    obtain ⟨fuel, rfl⟩ := Nat.exists_eq_succ_of_ne_zero (Nat.ne_zero_of_lt hfuel)
    rw [Editor.xdelLoop, if_neg (not_not.2 (h.pos_eq_zero rfl))]
    exact ⟨e, rfl, h, Keeps.refl e⟩
  | append_singleton l n ih =>
    obtain ⟨fuel, rfl⟩ := Nat.exists_eq_succ_of_ne_zero (Nat.ne_zero_of_lt hfuel)
    have hholds : Holds e.mem e.addr (l ++ [n]) r := h.holds
    have hpos : e.pos = BitVec.ofNat w (bytes (l ++ [n])) := h.pos
    have hcode : n ≤ lastCodePoint := ((Holds.shift [n]).1 hholds).code
    have hbyte : cond (e.mem (e.pos - 1#w + e.addr)) = kind n := by
      have haddr : e.pos - 1#w + e.addr = e.addr + e.pos - 1#w := by
        rw [BitVec.add_comm, BitVec.sub_eq_add_neg, BitVec.sub_eq_add_neg, BitVec.add_assoc]
      rw [haddr, hpos]
      exact hcond n hcode _ hholds.mem_last
    rw [Editor.xdelLoop, if_pos (h.pos_ne_zero hw (List.concat_ne_nil n l)), hbyte,
      List.reverse_append, List.reverse_singleton, List.singleton_append]
    cases hkind : kind n with
    | true =>
      obtain ⟨e₁, hxdel, hshows, hkeeps⟩ := h.xdel hw hsys
      rw [List.length_append] at hfuel
      obtain ⟨e₂, hloop, hshows', hkeeps'⟩ := ih hshows (Nat.lt_of_succ_lt_succ hfuel)
      rw [if_pos rfl, hxdel, Option.bind_some, List.dropWhile_cons_of_pos hkind]
      exact ⟨e₂, hloop, hshows', hkeeps.trans hkeeps'⟩
    | false =>
      rw [if_neg (by decide), List.dropWhile_cons_of_neg (by rw [hkind]; decide),
        List.reverse_cons, List.reverse_reverse]
      exact ⟨e, rfl, h, Keeps.refl e⟩

/-- {lit}`?xdel` -/
theorem Shows.qxdel (hw : 21 ≤ w) (hsys : Enough sys) (h : Shows e ⟨l, r, ms⟩) (modifier : Bool) :
    ∃ e', e.qxdel sys modifier = some e' ∧
      Shows e' ⟨if modifier then Cursor.beforeWord IsBlank l else l.dropLast, r, ms⟩ ∧
      Keeps e e' := by
  rw [Editor.qxdel]
  cases modifier with
  | true =>
    simp only [if_true]
    obtain ⟨hfuel, -⟩ := h.length_lt hw hsys
    obtain ⟨e₁, hfirst, hshows, hkeeps⟩ := h.xdelLoop hw hsys tests_blank hfuel
    obtain ⟨hfuel', -⟩ := hshows.length_lt hw hsys
    obtain ⟨e₂, hsecond, hshows', hkeeps'⟩ := hshows.xdelLoop hw hsys tests_not_blank hfuel'
    rw [hfirst, Option.bind_some]
    rw [List.reverse_reverse] at hshows'
    exact ⟨e₂, hsecond, hshows', hkeeps.trans hkeeps'⟩
  | false =>
    simp only [Bool.false_eq_true, if_false]
    rcases List.eq_nil_or_concat l with rfl | ⟨l, n, rfl⟩
    · rw [if_neg (not_not.2 (h.pos_eq_zero rfl))]
      exact ⟨e, rfl, h, Keeps.refl e⟩
    · rw [List.concat_eq_append] at h ⊢
      rw [if_pos (h.pos_ne_zero hw (List.concat_ne_nil n l)), List.dropLast_concat]
      exact h.xdel hw hsys

theorem Shows.span_toNat (hw : 21 ≤ w) (h : Shows e a) :
    e.span.toNat = bytes a.left + bytes a.right := by
  rw [h.span, toNat_cell hw h.lt]

/-- {lit}`xclear-rest` -/
theorem Shows.xclearRest (hw : 21 ≤ w) (h : Shows e a) :
    Shows e.xclearRest { a with right := [], pasted := a.right } ∧ Keeps e e.xclearRest := by
  have hlt := h.lt
  have hle := h.le
  have htext := h.holds.text
  have hcodes := h.holds.codes
  have hrest : (e.span - e.pos).toNat = bytes a.right := by
    rw [h.span, h.pos, cell_sub_cell (Nat.le_add_right _ _), Nat.add_sub_cancel_left,
      toNat_cell hw (by omega)]
  refine ⟨{ h with
    holds := ⟨fun n hn => ?_, ?_⟩
    span := ?_
    le := ?_
    paste := ?_
    codes := ?_
    pasted_lt := ?_ }, rfl, rfl, rfl, rfl, fun _ _ => rfl⟩
  · rw [List.append_nil] at hn
    exact hcodes n (List.mem_append_left _ hn)
  · exact (text_front e.mem htext).trans (List.append_nil _).symm
  · exact h.pos
  · exact Nat.le_trans (Nat.add_le_add_left (Nat.zero_le _) _) hle
  · change text e.mem (e.addr + e.pos) (e.span - e.pos).toNat = _
    rw [hrest, h.pos]
    exact text_behind e.mem htext
  · exact fun n hn => hcodes n (List.mem_append_right _ hn)
  · exact Nat.lt_of_le_of_lt (Nat.le_add_left _ _) hlt

/-- {lit}`xclear-first` -/
theorem Shows.xclearFirst (hw : 21 ≤ w) (h : Shows e a) :
    Shows e.xclearFirst { a with left := [], pasted := a.left } ∧ Keeps e e.xclearFirst := by
  have hlt := h.lt
  have hle := h.le
  have hpow := two_pow_pred hw
  have htext := h.holds.text
  have hcodes := h.holds.codes
  have hrest : e.span - e.pos = BitVec.ofNat w (bytes a.right) := by
    rw [h.span, h.pos, cell_sub_cell (Nat.le_add_right _ _), Nat.add_sub_cancel_left]
  have hall : Holds e.mem e.addr [] (a.left ++ a.right) := h.holds.congr rfl
  have hnil : bytes [] = 0 := rfl
  have hholds := hall.delete (m := 0) (by omega)
  rw [hnil, BitVec.add_zero, Nat.add_zero] at hholds
  refine ⟨{ h with
    holds := ?_
    span := ?_
    pos := rfl
    le := ?_
    paste := ?_
    codes := ?_
    pasted_lt := ?_ }, rfl, rfl, rfl, rfl, fun b hb => ?_⟩
  · dsimp only [Editor.xclearFirst]
    rwa [hrest, h.pos, toNat_cell hw (by omega)]
  · exact hrest.trans (by rw [hnil, Nat.zero_add])
  · exact Nat.le_trans (Nat.add_le_add_right (Nat.zero_le _) _) hle
  · dsimp only [Editor.xclearFirst]
    rw [h.pos, toNat_cell hw (by omega)]
    exact text_front e.mem htext
  · exact fun n hn => hcodes n (List.mem_append_left _ hn)
  · exact Nat.lt_of_le_of_lt (Nat.le_add_right _ _) hlt
  · dsimp only [Editor.xclearFirst]
    rw [hrest, toNat_cell hw (by omega), move]
    have hfront := store_of_outside e.mem (p := 0) (s := text e.mem (e.addr + e.pos) (bytes a.right))
      hb (by rw [length_text]; omega)
    rwa [BitVec.add_zero] at hfront

/-- {lit}`xdelw` -/
theorem Shows.xdelw (hw : 21 ≤ w) (hsys : Enough sys) (h : Shows e a) (modifier : Bool) :
    ∃ e', e.xdelw sys modifier = some e' ∧
      Shows e' { a with
        right := a.rest modifier
        pasted := a.right.take (a.right.length - (a.rest modifier).length) } ∧ Keeps e e' := by
  have hlt := h.lt
  have hle := h.le
  have hpow := two_pow_pred hw
  obtain ⟨e', hforw, hshows, hkeeps, hmem, hspan⟩ := h.xforw hw hsys modifier
  obtain ⟨word, hword⟩ := a.rest_suffix modifier
  have htaken : a.right.take (a.right.length - (a.rest modifier).length) = word :=
    take_length_sub hword
  have hright : bytes a.right = bytes word + bytes (a.rest modifier) := by
    rw [← hword, bytes_append]
  have hall : Holds e.mem e.addr a.left (word ++ a.rest modifier) := by
    rw [hword]
    exact h.holds
  have hpos : e'.pos = BitVec.ofNat w (bytes a.left + bytes word) := by
    rw [← bytes_append, ← htaken]
    exact hshows.pos
  have hn : e'.pos - e.pos = BitVec.ofNat w (bytes word) := by
    rw [hpos, h.pos, cell_sub_cell (Nat.le_add_right _ _), Nat.add_sub_cancel_left]
  have hrest : (e'.span - e'.pos).toNat = bytes (a.rest modifier) := by
    rw [hspan, h.span, hpos, cell_sub_cell (by omega), toNat_cell hw (by omega)]
    omega
  have hholds := hall.delete (m := 0) (by omega)
  rw [Nat.add_zero] at hholds
  rw [Editor.xdelw, hforw, Option.map_some]
  dsimp only [Editor.editRest]
  rw [hn, hrest, hpos, hkeeps.addr, hmem, h.pos, htaken, toNat_cell hw (by omega), ← add_ofNat_ofNat]
  refine ⟨_, rfl, ?_, rfl, hkeeps.max, hkeeps.tib, hkeeps.maxTib, fun b hb => ?_⟩
  · have hspan' : e'.span - BitVec.ofNat w (bytes word) =
        BitVec.ofNat w (bytes a.left + bytes (a.rest modifier)) := by
      rw [hspan, h.span, cell_sub_cell (by omega)]
      congr 1
      omega
    have hpaste : text e.mem (e.addr + BitVec.ofNat w (bytes a.left)) (bytes word) =
        encodeAll word := by
      have htext := text_behind e.mem h.holds.text
      rw [← hword, encodeAll_append] at htext
      exact text_front e.mem htext
    exact {
      holds := hholds
      span := hspan'
      pos := rfl
      le := by
        dsimp only
        rw [hkeeps.max]
        omega
      max_lt := by
        dsimp only
        rw [hkeeps.max]
        exact h.max_lt
      paste := hpaste
      codes := fun n hn => h.holds.codes n (List.mem_append_right _
        (hword ▸ List.mem_append_left _ hn))
      pasted_lt := by
        dsimp only
        omega
      tib := by
        have htib := h.tib
        rwa [← hkeeps.max, ← hkeeps.tib, ← hkeeps.maxTib] at htib }
  · refine store_of_outside _ hb ?_
    rw [length_text]
    omega

end Editing
end Gforth
