import Mathlib.Data.List.Basic
import Mathlib.Tactic

/-!
# Steps that leave no trace

A machine takes steps, each with an answer.  A run leaves no trace if every step of it gives the
answer that it gives in the first state, and leads to a state like that one.

Main results:

- Theorem {lit}`noTrace_iff`: this is so if no step of the run leaves a trace by itself.
-/

namespace Gforth
namespace Lib

variable {σ α β : Type} (step : σ → α → σ × β)

/-- The state after some steps -/
def after (st : σ) (as : List α) : σ :=
  as.foldl (fun s a => (step s a).1) st

@[simp]
theorem after_nil (st : σ) : after step st [] = st :=
  rfl

/-- The last event is the last step. -/
theorem after_append_singleton (st : σ) (as : List α) (a : α) :
    after step st (as ++ [a]) = (step (after step st as) a).1 := by
  rw [after, List.foldl_append]
  rfl

/-- Every step gives the answer of the first state and leads to a state like it. -/
def NoTrace (Same : σ → σ → Prop) (st : σ) (as : List α) : Prop :=
  ∀ before a, before ++ [a] <+: as →
    (step (after step st before) a).2 = (step st a).2 ∧ Same st (after step st (before ++ [a]))

variable {step} {Same : σ → σ → Prop} {Good : α → Prop} {st : σ}

/-- States like the first one are reached by good steps. -/
theorem same_after (hrefl : Same st st)
    (hstep : ∀ s a, Same st s → (Same st (step s a).1 ↔ Good a)) {as : List α}
    (hgood : ∀ a ∈ as, Good a) : Same st (after step st as) := by
  induction as using List.reverseRecOn with
  | nil => exact hrefl
  | append_singleton as a ih =>
      rw [after_append_singleton]
      have hbefore := ih fun b hb => hgood b (List.mem_append_left _ hb)
      exact (hstep _ a hbefore).mpr (hgood a (by simp))

/-- A run leaves no trace if no step of it leaves a trace by itself. -/
theorem noTrace_iff (hrefl : Same st st)
    (hanswer : ∀ s a, Same st s → (step s a).2 = (step st a).2)
    (hstep : ∀ s a, Same st s → (Same st (step s a).1 ↔ Good a)) (as : List α) :
    NoTrace step Same st as ↔ ∀ a ∈ as, Good a := by
  constructor
  · intro h a ha
    obtain ⟨before, rest, rfl⟩ := List.append_of_mem ha
    have hbefore : Same st (after step st before) := by
      induction before using List.reverseRecOn with
      | nil => exact hrefl
      | append_singleton before b _ =>
          exact (h before b ⟨a :: rest, rfl⟩).2
    have hafter := (h before a ⟨rest, by simp⟩).2
    rw [after_append_singleton] at hafter
    exact (hstep _ a hbefore).mp hafter
  · intro hgood before a hpre
    have hall : ∀ b ∈ before ++ [a], Good b := fun b hb => hgood b (List.IsPrefix.subset hpre hb)
    have hbefore := same_after hrefl hstep fun b hb => hall b (List.mem_append_left _ hb)
    exact ⟨hanswer _ a hbefore, same_after hrefl hstep hall⟩

end Lib
end Gforth
