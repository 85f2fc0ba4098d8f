import Mathlib.Data.List.Chain
import Mathlib.Logic.Function.Basic

/-!
# Stacks in the slots of an array

The entries of a stack have levels that go down by one or two.  Each entry is in the slot of its
level, and the other slots are empty.

Main results:

- Theorem {lit}`slots_pop`: clearing the top slot removes the top entry.
- Theorems {lit}`slots_above` and {lit}`slots_of_mem`: what is in the slots.
-/

namespace Gforth
namespace Lib

variable {α : Type}

/-- The array of a stack, with the top entry first -/
def slots (empty : α) : List (Nat × α) → Nat → α
  | [] => fun _ => empty
  | (level, a) :: es => Function.update (slots empty es) level a

/-- The level of the top entry -/
def topLevel (es : List (Nat × α)) : Nat :=
  (es.head?.map Prod.fst).getD 0

/-- The levels go down by one or two. -/
def Descends (es : List (Nat × α)) : Prop :=
  es.IsChain fun e e' => e'.1 < e.1 ∧ e.1 ≤ e'.1 + 2

variable {empty a : α} {e e' : Nat × α} {es : List (Nat × α)} {level i : Nat}

theorem Descends.tail (h : Descends (e :: es)) : Descends es :=
  List.IsChain.tail h

/-- A new entry is at a level above the top one, by one or two. -/
theorem Descends.push (h : Descends es) (hlt : es ≠ [] → topLevel es < level)
    (hle : level ≤ topLevel es + 2) : Descends ((level, a) :: es) := by
  cases es with
  | nil => exact List.isChain_singleton _
  | cons e es => exact List.isChain_cons_cons.2 ⟨⟨hlt (List.cons_ne_nil _ _), hle⟩, h⟩

/-- The other entries are at lower levels. -/
theorem Descends.lt_of_mem (h : Descends (e :: es)) (he : e' ∈ es) : e'.1 < e.1 := by
  induction es generalizing e with
  | nil => cases he
  | cons e₁ es ih =>
    obtain ⟨⟨hlt, -⟩, htail⟩ := List.isChain_cons_cons.1 h
    rcases List.mem_cons.1 he with rfl | hmem
    · exact hlt
    · exact (ih htail hmem).trans hlt

/-- No entry is above the top level. -/
theorem Descends.le_topLevel (h : Descends es) (he : e ∈ es) : e.1 ≤ topLevel es := by
  cases es with
  | nil => cases he
  | cons e₁ es =>
    rcases List.mem_cons.1 he with rfl | hmem
    · exact le_refl _
    · exact (h.lt_of_mem hmem).le

/-- A slot without an entry is empty. -/
theorem slots_of_forall_ne (h : ∀ e ∈ es, e.1 ≠ i) : slots empty es i = empty := by
  induction es with
  | nil => rfl
  | cons e es ih =>
    rw [slots, Function.update_of_ne (h e List.mem_cons_self).symm]
    exact ih fun e' he => h e' (List.mem_cons_of_mem e he)

theorem slots_top : slots empty ((level, a) :: es) level = a :=
  Function.update_self _ _ _

theorem slots_above (h : Descends es) (hi : topLevel es < i) : slots empty es i = empty :=
  slots_of_forall_ne fun _ he => ((h.le_topLevel he).trans_lt hi).ne

theorem slots_pop (h : Descends ((level, a) :: es)) :
    Function.update (slots empty ((level, a) :: es)) level empty = slots empty es := by
  rw [slots, Function.update_idem]
  exact Function.update_eq_self_iff.2 (slots_of_forall_ne fun _ he => (h.lt_of_mem he).ne).symm

/-- The slot of any entry -/
theorem slots_of_mem (h : Descends es) (he : e ∈ es) : slots empty es e.1 = e.2 := by
  induction es with
  | nil => cases he
  | cons e₁ es ih =>
    rcases List.mem_cons.1 he with rfl | hmem
    · exact slots_top
    · rw [slots, Function.update_of_ne (h.lt_of_mem hmem).ne]
      exact ih h.tail hmem

end Lib
end Gforth
