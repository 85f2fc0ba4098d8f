import Mathlib.Data.List.Basic
import Mathlib.Logic.Relation
import Mathlib.Tactic

/-!
# Cancellation

A value {lit}`up` cancels a different value in front of it.  The order of the cancellations does not
matter.

Main results:

- Theorems {lit}`cancels_cancel`, {lit}`reduced_cancel`: {lit}`cancel` cancels as much as possible.
- Theorem {lit}`cancel_eq_iff`: any order of the cancellations comes to the same result.
- Theorem {lit}`cancel_append`: a front part can be cancelled first.
-/

namespace Gforth
namespace Lib

variable {α : Type} (up : α)

/-- A pair in the list cancels. -/
inductive Cancels : List α → List α → Prop
  | mk (a : List α) {x : α} (b : List α) (hne : x ≠ up) : Cancels (a ++ x :: up :: b) (a ++ b)

/-- No pair cancels. -/
def Reduced (l : List α) : Prop :=
  l.IsChain fun x y => y = up → x = up

variable {l l' : List α}

theorem Cancels.cons {up : α} (x : α) (h : Cancels up l l') : Cancels up (x :: l) (x :: l') := by
  obtain ⟨a, b, hne⟩ := h
  exact Cancels.mk (x :: a) b hne

variable [DecidableEq α]

/-- All pairs are cancelled, from the end on. -/
def cancel : List α → List α
  | [] => []
  | x :: l => if x ≠ up ∧ (cancel l).head? = some up then (cancel l).tail else x :: cancel l

variable {up}

theorem cancel_cons (x : α) (l : List α) : cancel up (x :: l) =
    if x ≠ up ∧ (cancel up l).head? = some up then (cancel up l).tail else x :: cancel up l :=
  rfl

theorem cancel_up (l : List α) : cancel up (up :: l) = up :: cancel up l := by
  rw [cancel_cons, if_neg (by simp)]

theorem cancel_pair {x : α} (hne : x ≠ up) (h : cancel up l = up :: l') :
    cancel up (x :: l) = l' := by
  rw [cancel_cons, h, if_pos ⟨hne, rfl⟩, List.tail_cons]

theorem cancel_keep {x : α} {l : List α} (h : (cancel up l).head? ≠ some up) :
    cancel up (x :: l) = x :: cancel up l := by
  rw [cancel_cons, if_neg fun hpair => h hpair.2]

/-- What is in front does not depend on how the rest was written. -/
theorem cancel_append_congr (a : List α) (h : cancel up l = cancel up l') :
    cancel up (a ++ l) = cancel up (a ++ l') := by
  induction a with
  | nil => exact h
  | cons x a ih => rw [List.cons_append, List.cons_append, cancel_cons, cancel_cons, ih]

/-- The front part of a list can be cancelled first. -/
theorem cancel_append (a b : List α) : cancel up (cancel up a ++ b) = cancel up (a ++ b) := by
  induction a with
  | nil => rfl
  | cons x a ih =>
      have hstep : cancel up (x :: a ++ b) = cancel up (x :: (cancel up a ++ b)) := by
        rw [List.cons_append, cancel_cons, cancel_cons, ih]
      rw [hstep, cancel_cons]
      split
      · rename_i hpair
        obtain ⟨r, hr⟩ := List.head?_eq_some_iff.1 hpair.2
        rw [hr, List.tail_cons, List.cons_append]
        exact (cancel_pair hpair.1 (cancel_up _)).symm
      · rfl

theorem cancel_idem (l : List α) : cancel up (cancel up l) = cancel up l := by
  have happend : cancel up (cancel up l ++ []) = cancel up (l ++ []) := cancel_append l []
  rwa [List.append_nil, List.append_nil] at happend

/-- Cancelling only leaves elements out. -/
theorem cancel_sublist (l : List α) : (cancel up l).Sublist l := by
  induction l with
  | nil => exact List.Sublist.slnil
  | cons x l ih =>
      rw [cancel_cons]
      split
      · exact ((List.tail_sublist _).trans ih).cons x
      · exact ih.cons_cons x

/-- No pair is left. -/
theorem reduced_cancel (l : List α) : Reduced up (cancel up l) := by
  induction l with
  | nil => exact List.IsChain.nil
  | cons x l ih =>
      rw [cancel_cons]
      split
      · exact ih.tail
      · rename_i hpair
        rw [Reduced, List.isChain_cons]
        refine ⟨?_, ih⟩
        rintro y hy rfl
        by_contra hne
        exact hpair ⟨hne, hy⟩

/-- A reduced list is left as it is. -/
theorem cancel_of_reduced {l : List α} (h : Reduced up l) : cancel up l = l := by
  induction l with
  | nil => rfl
  | cons x l ih =>
      rw [Reduced, List.isChain_cons] at h
      rw [cancel_cons, ih h.2, if_neg]
      rintro ⟨hne, hup⟩
      exact hne (h.1 up hup rfl)

theorem cancel_of_cancels (h : Cancels up l l') : cancel up l = cancel up l' := by
  obtain ⟨a, b, hne⟩ := h
  exact cancel_append_congr a (cancel_pair hne (cancel_up b))

/-- The result comes from cancelling pairs. -/
theorem cancels_cancel (l : List α) : Relation.ReflTransGen (Cancels up) l (cancel up l) := by
  induction l with
  | nil => exact .refl
  | cons x l ih =>
      have hcons : Relation.ReflTransGen (Cancels up) (x :: l) (x :: cancel up l) :=
        ih.lift (x :: ·) fun _ _ => Cancels.cons x
      rw [cancel_cons]
      split
      · rename_i hpair
        obtain ⟨r, hr⟩ := List.head?_eq_some_iff.1 hpair.2
        rw [hr] at hcons ⊢
        exact hcons.tail (Cancels.mk [] r hpair.1)
      · exact hcons

/-- Any order of the cancellations comes to the same result. -/
theorem cancel_eq_iff :
    cancel up l = l' ↔ Relation.ReflTransGen (Cancels up) l l' ∧ Reduced up l' := by
  constructor
  · rintro rfl
    exact ⟨cancels_cancel l, reduced_cancel l⟩
  · rintro ⟨hcancels, hreduced⟩
    rw [← cancel_of_reduced hreduced]
    induction hcancels using Relation.ReflTransGen.head_induction_on with
    | refl => rfl
    | head hstep _ ih => rw [cancel_of_cancels hstep, ih]

end Lib
end Gforth
