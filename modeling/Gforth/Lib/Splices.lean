import Gforth.Lib.Memory

/-!
# Insertions and deletions in texts

A text in memory is changed by moving its rest up or down.

Main results:

- Theorem {lit}`text_insert`: values between two parts of a text.
- Theorem {lit}`text_delete`: a text without a part.
- Theorem {lit}`store_of_outside`: nothing outside of a buffer is changed.
- Theorem {lit}`store_store` and {lit}`shift_store`: changes of a text that was stored.
-/

namespace Gforth
namespace Lib
namespace Memory

variable {w : Nat} {α : Type} (mem : Memory w α)

/-- Copy values as if all of them were read first. -/
def move (src dst : BitVec w) (n : Nat) : Memory w α :=
  store mem dst (text mem src n)

/-- The address is in a buffer. -/
def Inside (a : BitVec w) (n : Nat) (b : BitVec w) : Prop :=
  ∃ i < n, b = a + BitVec.ofNat w i

variable {a b : BitVec w} {p n : Nat} {s front middle behind : List α}

theorem store_of_outside (hb : ¬Inside a n b) (hfits : p + s.length ≤ n) :
    store mem (a + BitVec.ofNat w p) s b = mem b := by
  refine store_of_ne mem fun i hi heq => hb ⟨p + i, by omega, ?_⟩
  rw [heq, add_ofNat_ofNat]

/-- What is in front of a store stays. -/
theorem text_store_front (h : p + s.length ≤ 2 ^ w) :
    text (store mem (a + BitVec.ofNat w p) s) a p = text mem a p := by
  refine text_congr _ fun i hi => store_of_ne mem fun j hj => ?_
  rw [add_ofNat_ofNat]
  exact add_ofNat_ne (by omega) (by omega) (by omega)

theorem text_store_at (h : p + s.length ≤ 2 ^ w) :
    text (store mem (a + BitVec.ofNat w p) s) a (p + s.length) = text mem a p ++ s := by
  rw [text_add, text_store_front mem h, text_store_self mem (by omega)]

/-- The front of a text in memory -/
theorem text_front (h : text mem a n = front ++ behind) : text mem a front.length = front := by
  have hle : front.length ≤ n := by
    rw [← length_text mem a n, h, List.length_append]
    exact Nat.le_add_right _ _
  rw [← take_text mem a hle, h, List.take_left]

/-- The rest of a text in memory -/
theorem text_behind (h : text mem a n = front ++ behind) :
    text mem (a + BitVec.ofNat w front.length) behind.length = behind := by
  have hlen : n = front.length + behind.length := by
    rw [← length_text mem a n, h, List.length_append]
  have hdrop := drop_text mem a (show front.length ≤ n by omega)
  rw [h, List.drop_left, hlen, Nat.add_sub_cancel_left] at hdrop
  exact hdrop.symm

/-- The middle of a text in memory -/
theorem text_middle (h : text mem a n = front ++ middle ++ behind) :
    text mem (a + BitVec.ofNat w front.length) middle.length = middle := by
  rw [List.append_assoc] at h
  exact text_front mem (text_behind mem h)

/-- Moving the rest of a text up and storing values in its place -/
theorem text_insert (htext : text mem a (front.length + behind.length) = front ++ behind)
    (h : front.length + (s.length + behind.length) ≤ 2 ^ w) :
    text (store (move mem (a + BitVec.ofNat w front.length)
        (a + BitVec.ofNat w front.length + BitVec.ofNat w s.length) behind.length)
        (a + BitVec.ofNat w front.length) s) a (front.length + (s.length + behind.length)) =
      front ++ (s ++ behind) := by
  rw [move, text_behind mem htext, ← store_append]
  have hstore := text_store_at mem (a := a) (p := front.length) (s := s ++ behind)
    (by rwa [List.length_append])
  rwa [List.length_append, text_front mem htext] at hstore

/-- Moving the rest of a text down; some values behind the text may be moved as well. -/
theorem text_delete (m : Nat)
    (htext : text mem a (front.length + (middle.length + behind.length)) =
      front ++ middle ++ behind)
    (h : front.length + (behind.length + m) ≤ 2 ^ w) :
    text (move mem (a + BitVec.ofNat w front.length + BitVec.ofNat w middle.length)
        (a + BitVec.ofNat w front.length) (behind.length + m)) a (front.length + behind.length) =
      front ++ behind := by
  have hbehind : text mem (a + BitVec.ofNat w front.length + BitVec.ofNat w middle.length)
      behind.length = behind := by
    have hrest := text_behind mem htext
    rwa [List.length_append, ← add_ofNat_ofNat] at hrest
  rw [move, text_add mem _ behind.length m, hbehind]
  have hstore := text_store_at mem (a := a) (p := front.length)
    (s := behind ++ text mem (a + BitVec.ofNat w front.length + BitVec.ofNat w middle.length +
      BitVec.ofNat w behind.length) m)
    (by rwa [List.length_append, length_text])
  rw [List.length_append, length_text, ← Nat.add_assoc] at hstore
  rw [← take_text _ a (Nat.le_add_right (front.length + behind.length) m), hstore,
    text_front mem (List.append_assoc front middle behind ▸ htext), ← List.append_assoc,
    List.take_left' (List.length_append)]

/-! ## Stored texts -/

variable {t : List α} {c : α} {k : Nat}

/-- Memories with the same text in a buffer and the same values outside of it are the same. -/
theorem ext_of_text {mem mem' : Memory w α} (htext : text mem a n = text mem' a n)
    (hout : ∀ b, ¬Inside a n b → mem b = mem' b) : mem = mem' := by
  funext b
  by_cases hb : Inside a n b
  · obtain ⟨i, hi, rfl⟩ := hb
    exact eq_of_text_eq mem htext hi
  · exact hout b hb

/-- A part of a text that was stored -/
theorem text_stored (h : p + k ≤ t.length) (hlt : t.length ≤ 2 ^ w) :
    text (store mem a t) (a + BitVec.ofNat w p) k = (t.drop p).take k := by
  have hself := text_store_self mem (a := a) hlt
  have hdrop := drop_text (store mem a t) a (show p ≤ t.length by omega)
  have htake := take_text (store mem a t) (a + BitVec.ofNat w p) (show k ≤ t.length - p by omega)
  rw [← htake, ← hdrop, hself]

/-- A text with values stored in it -/
def splice (t : List α) (p : Nat) (s : List α) : List α :=
  t.take p ++ s ++ t.drop (p + s.length)

theorem length_splice (h : p + s.length ≤ t.length) : (splice t p s).length = t.length := by
  simp only [splice, List.length_append, List.length_take, List.length_drop]
  omega

/-- Storing values in a text that was stored -/
theorem store_store (h : p + s.length ≤ t.length) (hlt : t.length ≤ 2 ^ w) :
    store (store mem a t) (a + BitVec.ofNat w p) s = store mem a (splice t p s) := by
  have hlen := length_splice h
  refine ext_of_text (a := a) (n := t.length) ?_ fun b hb => ?_
  · have hsplit : t.length = p + s.length + (t.length - (p + s.length)) := by omega
    have hfront : text (store mem a t) a p = t.take p := by
      have htext := text_stored mem (a := a) (p := 0) (k := p) (by omega) hlt
      rwa [BitVec.add_zero, List.drop_zero] at htext
    have hbehind : text (store (store mem a t) (a + BitVec.ofNat w p) s)
        (a + BitVec.ofNat w (p + s.length)) (t.length - (p + s.length)) = t.drop (p + s.length) := by
      have hsame : text (store (store mem a t) (a + BitVec.ofNat w p) s)
          (a + BitVec.ofNat w (p + s.length)) (t.length - (p + s.length)) =
          text (store mem a t) (a + BitVec.ofNat w (p + s.length)) (t.length - (p + s.length)) := by
        refine text_congr _ fun i hi => store_of_ne _ fun j hj => ?_
        rw [add_ofNat_ofNat, add_ofNat_ofNat]
        exact add_ofNat_ne (by omega) (by omega) (by omega)
      rw [hsame, text_stored mem (by omega) hlt, List.take_of_length_le (by rw [List.length_drop])]
    conv_lhs => rw [hsplit]
    conv_rhs => rw [← hlen]
    rw [text_add, text_store_at _ (by omega), hbehind, hfront,
      text_store_self mem (hlen.le.trans hlt)]
    rfl
  · have hout : ∀ u : List α, u.length = t.length → store mem a u b = mem b := by
      intro u hu
      refine store_of_ne mem fun i hi heq => hb ⟨i, by omega, heq⟩
    rw [store_of_outside _ hb h, hout t rfl, hout _ hlen]

/-- The rest of a text moved up, with values in the gap; what does not fit is lost. -/
def shift (t : List α) (p k : Nat) (c : α) : List α :=
  t.take p ++ (List.replicate k c ++ t.drop p).take (t.length - p)

theorem length_shift (h : p ≤ t.length) : (shift t p k c).length = t.length := by
  simp only [shift, List.length_append, List.length_take, List.length_replicate, List.length_drop]
  omega

/-- What a shift pushes out is lost at the end. -/
theorem shift_eq (h : p + k ≤ t.length) :
    shift t p k c = t.take p ++ List.replicate k c ++ (t.drop p).take (t.length - p - k) := by
  have htake : (List.replicate k c).take (t.length - p) = List.replicate k c := by
    rw [List.take_replicate, Nat.min_eq_right (by omega)]
  rw [shift, List.take_append, List.length_replicate, htake, List.append_assoc]

/-- A shift by more than the rest of the text clears it. -/
theorem shift_min : shift t p (min (t.length - p) k) c = shift t p k c := by
  rcases Nat.le_total k (t.length - p) with hle | hle
  · rw [Nat.min_eq_right hle]
  · rw [Nat.min_eq_left hle, shift, shift, List.take_append_of_le_length (by simp),
      List.take_append_of_le_length (by simpa using hle), List.take_replicate, List.take_replicate,
      Nat.min_self, Nat.min_eq_left hle]

/-- Moving the rest of a text that was stored -/
theorem shift_store (h : p + k ≤ t.length) (hlt : t.length ≤ 2 ^ w) :
    store (move (store mem a t) (a + BitVec.ofNat w p)
        (a + BitVec.ofNat w p + BitVec.ofNat w k) (t.length - p - k))
      (a + BitVec.ofNat w p) (List.replicate k c) = store mem a (shift t p k c) := by
  have hmiddle : ((t.drop p).take (t.length - p - k)).length = t.length - p - k := by
    rw [List.length_take, List.length_drop]
    omega
  have htake : (t.take (p + k)).length = p + k := by
    rw [List.length_take]
    omega
  have hmoved : splice t (p + k) ((t.drop p).take (t.length - p - k)) =
      t.take (p + k) ++ (t.drop p).take (t.length - p - k) := by
    have hend : t.drop (p + k + (t.length - p - k)) = [] := List.drop_of_length_le (by omega)
    rw [splice, hmiddle, hend, List.append_nil]
  have hlen : (splice t (p + k) ((t.drop p).take (t.length - p - k))).length = t.length :=
    length_splice (by omega)
  rw [move, text_stored mem (by omega) hlt, add_ofNat_ofNat, store_store mem (by omega) hlt,
    store_store mem (by rw [hlen, List.length_replicate]; exact h) (hlen.le.trans hlt), shift_eq h,
    hmoved, splice, List.length_replicate, List.drop_left' htake, List.take_append_of_le_length
    (by omega), List.take_take, Nat.min_eq_left (by omega)]

end Memory
end Lib
end Gforth
