import Gforth.Editing.Changes

/-!
# Insertion of characters

What does not fit into a buffer is not inserted, but the input buffer of the system can be resized.

Main results:

- Theorem {lit}`Shows.xgrowTib`: room for more characters.
- Theorem {lit}`Shows.xins` and {lit}`Shows.xinsString`: insertion.
- Theorem {lit}`Shows.xtranspose`: the exchange of two characters.
-/

namespace Gforth
namespace Editing

open Lib
open Memory
open Utf8
open Numbers
open Characters

variable {w : Nat} {e e' e'' : Editor w} {a a' : Cursor} {sys : System w} {ms : List Nat} {m n : Nat}

/-! ## The input buffer -/

/-- {lit}`resize` keeps what fits into the new block, and a block is shorter than half of the
memory. -/
structure Resizes (sys : System w) : Prop where
  lt : ∀ {mem addr old new r}, sys.resize mem addr old new = some r → new.toNat < 2 ^ (w - 1)
  text : ∀ {mem addr old new r}, sys.resize mem addr old new = some r →
    ∀ n, n ≤ old.toNat → n ≤ new.toNat → text r.1 r.2 n = text mem addr n

/-- The input buffer is resized; then only bytes of the new buffer are changed. -/
structure Grows (sys : System w) (e e' : Editor w) : Prop where
  tib : e.addr = e.tib
  addr : e'.addr = e'.tib
  resized : ∃ mem, sys.resize e.mem e.tib e.maxTib e'.max = some (mem, e'.addr) ∧
    ∀ b, ¬Inside e'.addr e'.max.toNat b → e'.mem b = mem b

/-- Changes in a buffer that has grown -/
theorem Grows.keeps (h : Grows sys e e') (h' : Keeps e' e'') : Grows sys e e'' where
  tib := h.tib
  addr := by rw [h'.addr, h'.tib, h.addr]
  resized := by
    obtain ⟨mem, hresize, hmem⟩ := h.resized
    rw [h'.addr, h'.max]
    exact ⟨mem, hresize, fun b hb => (h'.mem b hb).trans (hmem b hb)⟩

/-- What {lit}`xgrow-tib` can do for some more bytes -/
inductive Room (sys : System w) (e : Editor w) (a : Cursor) (m : Nat) :
    Option (Editor w × Bool) → Prop
  | fits : bytes a.left + bytes a.right + m ≤ e.max.toNat → Room sys e a m (some (e, true))
  | grown {e' : Editor w} : e.max.toNat < bytes a.left + bytes a.right + m → Shows e' a →
      bytes a.left + bytes a.right + m ≤ e'.max.toNat → Grows sys e e' →
      Room sys e a m (some (e', true))
  | full : e.max.toNat < bytes a.left + bytes a.right + m → e.addr ≠ e.tib →
      Room sys e a m (some (e, false))
  | failed (size : BitVec w) : e.max.toNat < bytes a.left + bytes a.right + m → e.addr = e.tib →
      sys.resize e.mem e.tib e.maxTib size = none → Room sys e a m none

/-- The larger one of two cells -/
theorem le_umax (x y : BitVec w) : x.toNat ≤ (Editor.umax x y).toNat := by
  rw [Editor.umax]
  split
  · assumption
  · exact Nat.le_refl _

/-- {lit}`xgrow-tib` -/
theorem Shows.xgrowTib (hw : 21 ≤ w) (hresizes : Resizes sys) (h : Shows e a)
    (hm : m < 2 ^ (w - 1)) : Room sys e a m (e.xgrowTib sys (BitVec.ofNat w m)) := by
  have hlt := h.lt
  have hle := h.le
  have hpow := two_pow_pred hw
  have hsum : (e.span + BitVec.ofNat w m).toNat = bytes a.left + bytes a.right + m := by
    rw [BitVec.toNat_add, h.span_toNat hw, toNat_cell hw hm, Nat.mod_eq_of_lt (by omega)]
  have hfits : e.span + BitVec.ofNat w m ≤ e.max ↔
      bytes a.left + bytes a.right + m ≤ e.max.toNat := by
    rw [BitVec.le_def, hsum]
  rw [Editor.xgrowTib]
  by_cases hroom : bytes a.left + bytes a.right + m ≤ e.max.toNat
  · rw [if_pos (hfits.2 hroom)]
    exact .fits hroom
  rw [if_neg (hfits.not.2 hroom)]
  have hsmall := Nat.lt_of_not_le hroom
  by_cases haddr : e.addr = e.tib
  · rw [if_pos haddr]
    have hsize := le_umax (e.span + BitVec.ofNat w m) (e.maxTib * 2#w)
    rw [hsum] at hsize
    rw [Editor.expandTib]
    generalize Editor.umax (e.span + BitVec.ofNat w m) (e.maxTib * 2#w) = size at hsize ⊢
    cases hresize : sys.resize e.mem e.tib e.maxTib size with
    | none => exact .failed size hsmall haddr hresize
    | some r =>
      have hspan : (size - e.span).toNat = size.toNat - (bytes a.left + bytes a.right) := by
        rw [BitVec.toNat_sub_of_le, h.span_toNat hw]
        rw [BitVec.le_def, h.span_toNat hw]
        omega
      have hnew := hresizes.lt hresize
      have hend : r.2 + e.span = r.2 + BitVec.ofNat w (bytes a.left + bytes a.right) := by
        rw [h.span]
      have htext := hresizes.text hresize (bytes a.left + bytes a.right)
        (hle.trans (h.tib haddr)) (by omega)
      refine .grown hsmall ?_ hsize ?_
      · refine { h with
          holds := ⟨h.holds.codes, ?_⟩
          le := ?_
          max_lt := hnew
          tib := fun _ => Nat.le_refl _ }
        · dsimp only
          rw [hend, text_store_front _ (by rw [List.length_replicate, hspan]; omega), htext, ← haddr]
          exact h.holds.text
        · dsimp only
          omega
      · refine ⟨haddr, rfl, r.1, hresize, fun b hb => ?_⟩
        dsimp only
        rw [hend]
        refine store_of_outside _ hb ?_
        rw [List.length_replicate, hspan]
        dsimp only
        omega
  · rw [if_neg haddr]
    exact .full hsmall haddr

/-! ## Insertion -/

/-- The state with inserted bytes -/
def Editor.withInserted (string : List Byte) (e : Editor w) : Editor w :=
  { e with
    mem := store (move e.mem e.editRest.addr
      (e.editRest.addr + BitVec.ofNat w string.length) e.editRest.len.toNat) e.editRest.addr string
    span := e.span + BitVec.ofNat w string.length
    pos := e.pos + BitVec.ofNat w string.length }

theorem Shows.rest_toNat (hw : 21 ≤ w) (h : Shows e a) : (e.span - e.pos).toNat = bytes a.right := by
  have hlt := h.lt
  rw [h.span, h.pos, cell_sub_cell (Nat.le_add_right _ _), Nat.add_sub_cancel_left,
    toNat_cell hw (by omega)]

/-- Characters are inserted into a buffer with room for them. -/
theorem Shows.withInserted (hw : 21 ≤ w) (h : Shows e a) (hcodes : ∀ n ∈ ms, n ≤ lastCodePoint)
    (hroom : bytes a.left + bytes a.right + bytes ms ≤ e.max.toNat) :
    Shows (e.withInserted (encodeAll ms)) { a with left := a.left ++ ms } ∧
    Keeps e (e.withInserted (encodeAll ms)) := by
  have hlt := h.lt
  have hmax := h.max_lt
  have hpow := two_pow_pred hw
  have hlength : (encodeAll ms).length = bytes ms := rfl
  have hleft : bytes (a.left ++ ms) = bytes a.left + bytes ms := bytes_append a.left ms
  have hholds := h.holds.insert hcodes (by omega)
  rw [← h.pos] at hholds
  rw [Editor.withInserted]
  dsimp only [Editor.editRest]
  rw [hlength, h.rest_toNat hw]
  refine ⟨{ h with holds := hholds, span := ?_, pos := ?_, le := ?_ }, rfl, rfl, rfl, rfl,
    fun b hb => ?_⟩
  · dsimp only
    rw [h.span, hleft, ← BitVec.ofNat_add]
    congr 1
    omega
  · dsimp only
    rw [h.pos, hleft, BitVec.ofNat_add]
  · dsimp only
    omega
  · dsimp only
    rw [h.pos, store_of_outside _ hb (by rw [hlength]; omega), move, add_ofNat_ofNat]
    refine store_of_outside _ hb ?_
    rw [length_text]
    omega

/-- What a command can do for a line -/
inductive Outcome (sys : System w) (e : Editor w) (a' : Cursor) : Option (Editor w) → Prop
  | kept {e' : Editor w} : Shows e' a' → Keeps e e' → Outcome sys e a' (some e')
  | grown {e' : Editor w} : e.max.toNat < bytes a'.left + bytes a'.right → Shows e' a' →
      Grows sys e e' → Outcome sys e a' (some e')
  | full : e.max.toNat < bytes a'.left + bytes a'.right → e.addr ≠ e.tib →
      Outcome sys e a' (some e)
  | failed (size : BitVec w) : e.max.toNat < bytes a'.left + bytes a'.right → e.addr = e.tib →
      sys.resize e.mem e.tib e.maxTib size = none → Outcome sys e a' none

/-- Insertion after {lit}`xgrow-tib` -/
theorem Shows.inserted (hw : 21 ≤ w) (hresizes : Resizes sys) (h : Shows e a)
    (hcodes : ∀ n ∈ ms, n ≤ lastCodePoint) (hlt : bytes ms < 2 ^ (w - 1))
    {insert : Editor w × Bool → Editor w} (hfull : ∀ e, insert (e, false) = e)
    (hinsert : ∀ e, Shows e a → insert (e, true) = e.withInserted (encodeAll ms)) :
    Outcome sys e { a with left := a.left ++ ms }
      ((e.xgrowTib sys (BitVec.ofNat w (bytes ms))).map insert) := by
  have hbytes : bytes (a.left ++ ms) + bytes a.right = bytes a.left + bytes a.right + bytes ms := by
    rw [bytes_append]
    omega
  have hgrow := h.xgrowTib hw hresizes hlt
  generalize e.xgrowTib sys (BitVec.ofNat w (bytes ms)) = r at hgrow ⊢
  cases hgrow with
  | fits hroom =>
    obtain ⟨hshows, hkeeps⟩ := h.withInserted hw hcodes hroom
    rw [Option.map_some, hinsert e h]
    exact .kept hshows hkeeps
  | grown hsmall hshows hroom hgrows =>
    obtain ⟨hshows', hkeeps⟩ := hshows.withInserted hw hcodes hroom
    rw [Option.map_some, hinsert _ hshows]
    exact .grown (hsmall.trans_eq hbytes.symm) hshows' (hgrows.keeps hkeeps)
  | full hsmall haddr =>
    rw [Option.map_some, hfull]
    exact .full (hsmall.trans_eq hbytes.symm) haddr
  | failed size hsmall haddr hresize =>
    exact .failed size (hsmall.trans_eq hbytes.symm) haddr hresize

theorem toNat_code (hw : 21 ≤ w) (hn : n ≤ lastCodePoint) : (BitVec.ofNat w n).toNat = n :=
  toNat_ofNat_small hw (hn.trans_lt (by decide))

/-- One character is short. -/
theorem bytes_singleton_lt (hw : 21 ≤ w) (n : Nat) : bytes [n] < 2 ^ (w - 1) := by
  have hsize := size_le n
  have hpow := le_two_pow_pred hw
  rw [bytes_singleton]
  omega

/-- {lit}`(xins)` -/
theorem Shows.xins (hw : 21 ≤ w) (hresizes : Resizes sys) (h : Shows e a) (hn : n ≤ lastCodePoint) :
    Outcome sys e { a with left := a.left ++ [n] } (e.xins sys (BitVec.ofNat w n)) := by
  have hcode := toNat_code hw hn
  have hlen : u8len (BitVec.ofNat w n) = BitVec.ofNat w (bytes [n]) := by
    rw [u8len_eq hw (hcode.symm ▸ hn), hcode, bytes_singleton]
  have hstring : encodeAll [n] = encode n := by
    rw [encodeAll_cons]
    exact List.append_nil _
  have hsize : (encode n).length = bytes [n] := by rw [length_encode, bytes_singleton]
  have hroom : size n ≤ (BitVec.ofNat w (bytes [n])).toNat := by
    rw [toNat_cell hw (bytes_singleton_lt hw n), bytes_singleton]
  have hcodes : ∀ m ∈ [n], m ≤ lastCodePoint := fun m hm => (List.mem_singleton.1 hm) ▸ hn
  rw [Editor.xins, hlen]
  refine h.inserted hw hresizes hcodes (bytes_singleton_lt hw n) (fun _ => rfl) fun e _ => ?_
  dsimp only [Editor.withInserted, Editor.editRest]
  rw [u8StorePlusQuery_eq hw _ _ (hcode.symm ▸ hn), hcode, if_pos hroom, hstring, hsize]
  rfl

/-- {lit}`xins-string` -/
theorem Shows.xinsString (hw : 21 ≤ w) (hresizes : Resizes sys) (h : Shows e a)
    (hcodes : ∀ n ∈ ms, n ≤ lastCodePoint) (hlt : bytes ms < 2 ^ (w - 1)) :
    Outcome sys e { a with left := a.left ++ ms } (e.xinsString sys (encodeAll ms)) := by
  have hpow := two_pow_pred hw
  have hlength : (encodeAll ms).length = bytes ms := rfl
  rw [Editor.xinsString, hlength]
  refine h.inserted hw hresizes hcodes hlt (fun _ => rfl) fun e h => ?_
  have hright := h.lt
  have hrest : (e.span - e.pos + BitVec.ofNat w (bytes ms)).toNat = bytes a.right + bytes ms := by
    rw [BitVec.toNat_add, h.rest_toNat hw, toNat_cell hw hlt, Nat.mod_eq_of_lt (by omega)]
  have hall : BitVec.ofNat w (bytes ms) ≤ e.span - e.pos + BitVec.ofNat w (bytes ms) := by
    rw [BitVec.le_def, hrest, toNat_cell hw hlt]
    exact Nat.le_add_left _ _
  dsimp only [Editor.withInserted, Editor.editRest]
  rw [Editor.insert, hlength, if_pos hall, BitVec.add_sub_cancel, toNat_cell hw hlt, ← hlength,
    List.take_length]
  rfl

/-- {lit}`xpaste` -/
theorem Shows.xpaste (hw : 21 ≤ w) (hresizes : Resizes sys) (h : Shows e a) :
    Outcome sys e { a with left := a.left ++ a.pasted } (e.xpaste sys) := by
  rw [Editor.xpaste, h.paste]
  exact h.xinsString hw hresizes h.codes h.pasted_lt

/-! ## Exchange -/

variable {l r : List Nat} {x y : Nat}

/-- What was deleted fits again. -/
theorem Outcome.of_le {r : Option (Editor w)} (h : Outcome sys e a' r)
    (hle : bytes a'.left + bytes a'.right ≤ e.max.toNat) :
    ∃ e', r = some e' ∧ Shows e' a' ∧ Keeps e e' := by
  cases h with
  | kept hshows hkeeps => exact ⟨_, rfl, hshows, hkeeps⟩
  | grown hlt => omega
  | full hlt => omega
  | failed size hlt => omega

/-- {lit}`xtranspose` between two characters -/
theorem Shows.exchange (hw : 21 ≤ w) (hsys : Enough sys) (hresizes : Resizes sys)
    (h : Shows e ⟨l ++ [x], y :: r, ms⟩) :
    ∃ e', (u8LessLess e.mem sys.fuel (e.addr + e.pos)).bind (fun before =>
        (e.xdel sys).bind fun e' => { e' with pos := e'.charRight sys e'.pos }.xins sys
          (u8FetchPlusPrim sys.order e.mem before).2) = some e' ∧
      Shows e' ⟨l ++ [y, x], r, ms⟩ ∧ Keeps e e' := by
  have hle : bytes (l ++ [x]) + bytes (y :: r) ≤ e.max.toNat := h.le
  have hpos : e.pos = BitVec.ofNat w (bytes (l ++ [x])) := h.pos
  have hholds : Holds e.mem e.addr (l ++ [x]) (y :: r) := h.holds
  have hchar := (Holds.shift [x]).1 hholds
  obtain ⟨e₁, hxdel, hshows, hkeeps⟩ := h.xdel hw hsys
  have hright : e₁.charRight sys e₁.pos = BitVec.ofNat w (bytes (l ++ [y])) := by
    rw [hshows.pos]
    exact charRight_eq hw hshows.holds
  have hshows' : Shows { e₁ with pos := BitVec.ofNat w (bytes (l ++ [y])) } ⟨l ++ [y], r, ms⟩ :=
    hshows.setPos (by rw [List.append_assoc, List.singleton_append])
  have hxins := hshows'.xins hw hresizes hchar.code
  obtain ⟨e₂, hrun, hshows₂, hkeeps₂⟩ := hxins.of_le (by
    dsimp only
    rw [hkeeps.max]
    have hl : bytes (l ++ [x]) = bytes l + bytes [x] := bytes_append l [x]
    have hr : bytes (y :: r) = bytes [y] + bytes r := bytes_append [y] r
    have hll : bytes (l ++ [y] ++ [x]) = bytes l + bytes [y] + bytes [x] := by
      rw [bytes_append, bytes_append]
    omega)
  rw [hpos, hholds.charLeft (hsys.four_le hw), Option.bind_some, hxdel, Option.bind_some, hright,
    hchar.charRight hw, hrun]
  rw [List.append_assoc] at hshows₂
  exact ⟨e₂, rfl, hshows₂, (hkeeps.trans (Keeps.setPos e₁ _)).trans hkeeps₂⟩

/-- The exchange is impossible in front of a single character behind which the cursor is. -/
def Cursor.Exchanges (a : Cursor) : Prop :=
  ¬(a.left.length = 1 ∧ a.right = [])

/-- {lit}`xtranspose` -/
theorem Shows.xtranspose (hw : 21 ≤ w) (hsys : Enough sys) (hresizes : Resizes sys)
    (h : Shows e a) (ha : a.Exchanges) :
    ∃ e', e.xtranspose sys = some e' ∧ Shows e' a.transpose ∧ Keeps e e' := by
  obtain ⟨left, right, ms⟩ := a
  rw [Editor.xtranspose]
  rcases List.eq_nil_or_concat left with rfl | ⟨l, y, rfl⟩
  · rw [if_neg (not_not.2 (h.pos_eq_zero rfl))]
    exact ⟨e, rfl, h, Keeps.refl e⟩
  rw [List.concat_eq_append] at h ha ⊢
  rw [if_pos (h.pos_ne_zero hw (List.concat_ne_nil y l))]
  cases right with
  | cons x r =>
    have hspan : e.span ≠ e.pos := by
      have hlt := h.lt
      dsimp only at hlt
      rw [h.span, h.pos, ne_eq, cell_eq_cell hw hlt (by dsimp only; omega)]
      have hsize := size_pos x
      have hcons := bytes_cons x r
      dsimp only
      omega
    rw [if_neg hspan, Option.bind_some]
    have htranspose : Cursor.transpose ⟨l ++ [y], x :: r, ms⟩ = ⟨l ++ [x, y], r, ms⟩ := by
      rw [Cursor.transpose, List.reverse_append]
      simp
    rw [htranspose]
    exact h.exchange hw hsys hresizes
  | nil =>
    have hspan : e.span = e.pos := by
      rw [h.span, h.pos]
      rfl
    rcases List.eq_nil_or_concat l with rfl | ⟨l, x, rfl⟩
    · exact absurd ⟨rfl, rfl⟩ ha
    rw [List.concat_eq_append] at h ⊢
    have hleft : e.charLeft sys (BitVec.ofNat w (bytes (l ++ [x] ++ [y]))) =
        some (BitVec.ofNat w (bytes (l ++ [x]))) := charLeft_eq (hsys.four_le hw) h.holds
    have hshows : Shows { e with pos := BitVec.ofNat w (bytes (l ++ [x])) } ⟨l ++ [x], [y], ms⟩ :=
      h.setPos (List.append_nil _).symm
    have htranspose : Cursor.transpose ⟨l ++ [x] ++ [y], [], ms⟩ = ⟨l ++ [y, x], [], ms⟩ := by
      rw [Cursor.transpose, List.reverse_append, List.reverse_append]
      simp
    obtain ⟨e', hrun, hshows', hkeeps⟩ := hshows.exchange hw hsys hresizes
    rw [if_pos hspan, h.pos, hleft, Option.bind_some, htranspose]
    exact ⟨e', hrun, hshows', (Keeps.setPos e _).trans hkeeps⟩

end Editing
end Gforth
