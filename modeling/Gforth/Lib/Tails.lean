import Mathlib.Data.List.Nodup
import Mathlib.Logic.Function.Iterate
import Mathlib.Tactic.Common

/-!
# Linked lists with common tails

A linked list is given by the address of its first node; every node has the address of the next one,
and a null address is the end.  Two lists with the same memory share their tails.

Main results:

- Theorem {lit}`ListAt.eq_iff`: two lists are the same if and only if their addresses are.
- Theorem {lit}`ListAt.nodup`: no node is in a list twice.
- Theorem {lit}`IsCommonTail.of_cons`: the first nodes of two lists of the same length are not in
  their common tail, unless the lists are the same.
-/

namespace Gforth
namespace Lib

variable {A : Type} (null : A) (link : A → A)

/-- The nodes of the list at an address -/
def ListAt : A → List A → Prop
  | a, [] => a = null
  | a, b :: l => a = b ∧ b ≠ null ∧ ListAt (link b) l

/-- The longest list that is a tail of both lists -/
structure IsCommonTail (l l₁ l₂ : List A) : Prop where
  left : l <:+ l₁
  right : l <:+ l₂
  longest : ∀ {l'}, l' <:+ l₁ → l' <:+ l₂ → l' <:+ l

variable {null link} {a b : A} {l l' l₁ l₂ : List A}

/-! ## Lists in memory -/

/-- There is only one list at an address. -/
theorem ListAt.unique (h : ListAt null link a l) (h' : ListAt null link a l') : l = l' := by
  induction l generalizing a l' with
  | nil =>
    cases l' with
    | nil => rfl
    | cons b l' => exact absurd (h'.1.symm.trans h) h'.2.1
  | cons b l ih =>
    cases l' with
    | nil => exact absurd (h.1.symm.trans h') h.2.1
    | cons b' l' =>
      obtain ⟨rfl, -, hl⟩ := h
      obtain ⟨rfl, -, hl'⟩ := h'
      rw [ih hl hl']

/-- Lists at two addresses are equal only at the same address. -/
theorem ListAt.eq_iff (h : ListAt null link a l) (h' : ListAt null link b l') :
    a = b ↔ l = l' := by
  constructor
  · rintro rfl
    exact h.unique h'
  · rintro rfl
    cases l with
    | nil => exact h.trans h'.symm
    | cons c l => exact h.1.trans h'.1.symm

/-- After some nodes -/
theorem ListAt.drop (h : ListAt null link a l) {n : Nat} (hn : n ≤ l.length) :
    ListAt null link (link^[n] a) (l.drop n) := by
  induction n generalizing a l with
  | zero => exact h
  | succ n ih =>
    cases l with
    | nil => cases hn
    | cons b l =>
      obtain ⟨rfl, -, hl⟩ := h
      exact ih hl (Nat.le_of_succ_le_succ hn)

/-- No element of a list is the null address. -/
theorem ListAt.ne_null (h : ListAt null link a l) (hb : b ∈ l) : b ≠ null := by
  induction l generalizing a with
  | nil => cases hb
  | cons c l ih =>
    cases hb with
    | head => exact h.2.1
    | tail _ hb => exact ih h.2.2 hb

/-- The list at one of the nodes starts in the middle of the list. -/
theorem ListAt.of_mem (h : ListAt null link a l) (hb : b ∈ l) :
    ∃ l', l' <:+ l ∧ ListAt null link b l' := by
  induction l generalizing a with
  | nil => cases hb
  | cons c l ih =>
    cases hb with
    | head => exact ⟨_, List.suffix_rfl, rfl, h.2⟩
    | tail _ hb =>
      obtain ⟨l', hs, hl'⟩ := ih h.2.2 hb
      exact ⟨l', hs.trans (List.suffix_cons c l), hl'⟩

/-- No element is twice in a list. -/
theorem ListAt.nodup (h : ListAt null link a l) : l.Nodup := by
  induction l generalizing a with
  | nil => exact List.nodup_nil
  | cons c l ih =>
    refine List.nodup_cons.2 ⟨fun hc => ?_, ih h.2.2⟩
    obtain ⟨l', hs, hl'⟩ := h.2.2.of_mem hc
    -- the list at the node would be a part of itself
    have heq : c :: l = l' := ListAt.unique ⟨rfl, h.2⟩ hl'
    have hlength := hs.length_le
    rw [← heq, List.length_cons] at hlength
    omega

/-! ## Common tails -/

theorem IsCommonTail.self (l : List A) : IsCommonTail l l l :=
  ⟨List.suffix_rfl, List.suffix_rfl, fun h _ => h⟩

theorem IsCommonTail.symm (h : IsCommonTail l l₁ l₂) : IsCommonTail l l₂ l₁ :=
  ⟨h.right, h.left, fun h₁ h₂ => h.longest h₂ h₁⟩

/-- The nodes of a longer list in front of the last ones, as many as the other list has, are not in
the common tail. -/
theorem IsCommonTail.of_drop {n : Nat} (h : IsCommonTail l (l₁.drop n) l₂)
    (hn : n + l₂.length = l₁.length) : IsCommonTail l l₁ l₂ := by
  refine ⟨h.left.trans (List.drop_suffix n l₁), h.right, fun h₁ h₂ => h.longest ?_ h₂⟩
  refine List.suffix_of_suffix_length_le h₁ (List.drop_suffix n l₁) ?_
  have := h₂.length_le
  rw [List.length_drop]
  omega

/-- Lists of the same length without a common first element have the common tail of their rests. -/
theorem IsCommonTail.of_cons (h : IsCommonTail l l₁ l₂) (hlength : l₁.length = l₂.length)
    (hne : a :: l₁ ≠ b :: l₂) : IsCommonTail l (a :: l₁) (b :: l₂) := by
  refine ⟨h.left.trans (List.suffix_cons a l₁), h.right.trans (List.suffix_cons b l₂), ?_⟩
  intro l' h₁ h₂
  rw [List.suffix_cons_iff] at h₁ h₂
  rcases h₁ with rfl | h₁
  · rcases h₂ with heq | h₂
    · exact absurd heq hne
    · have := h₂.length_le
      rw [List.length_cons] at this
      omega
  · rcases h₂ with rfl | h₂
    · have := h₁.length_le
      rw [List.length_cons] at this
      omega
    · exact h.longest h₁ h₂

end Lib
end Gforth
