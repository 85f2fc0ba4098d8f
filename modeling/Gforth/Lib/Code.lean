import Mathlib.Data.List.Infix
import Mathlib.Logic.Relation
import Mathlib.Order.WellFounded

/-!
# Code in memory

Code is a list of instructions, and its addresses are indices of the list.  A machine runs it in steps,
and fails where a step is not possible.

Main results:

- Theorem {lit}`CodeAt.right`: parts of code are at the addresses behind each other.
- Theorem {lit}`changeAt_append_cons`: an instruction is changed where it is.
- Theorem {lit}`not_reaches_of_stages`: a machine that always goes on does not get to an end.
-/

namespace Gforth
namespace Lib

variable {α σ : Type*}

/-! ## Addresses -/

/-- Some code is at an address. -/
def CodeAt (code : List α) (addr : Nat) (l : List α) : Prop :=
  l <+: code.drop addr

variable {code l r : List α} {addr : Nat} {a : α}

theorem CodeAt.left (h : CodeAt code addr (l ++ r)) : CodeAt code addr l :=
  (List.prefix_append l r).trans h

theorem CodeAt.right (h : CodeAt code addr (l ++ r)) : CodeAt code (addr + l.length) r := by
  rcases h with ⟨rest, hrest⟩
  refine ⟨rest, ?_⟩
  rw [← List.drop_drop, ← hrest, List.append_assoc, List.drop_left]

theorem CodeAt.tail (h : CodeAt code addr (a :: l)) : CodeAt code (addr + 1) l :=
  CodeAt.right (l := [a]) h

/-- Code in two parts -/
theorem codeAt_append_iff :
    CodeAt code addr (l ++ r) ↔ CodeAt code addr l ∧ CodeAt code (addr + l.length) r := by
  constructor
  · intro h
    exact ⟨h.left, h.right⟩
  · rintro ⟨⟨rest, hrest⟩, hright⟩
    unfold CodeAt at hright
    rw [← List.drop_drop, ← hrest, List.drop_left] at hright
    unfold CodeAt
    rw [← hrest]
    exact (List.prefix_append_right_inj l).mpr hright

/-- The instruction at an address -/
theorem CodeAt.fetch (h : CodeAt code addr (a :: l)) : code[addr]? = some a := by
  rcases h with ⟨rest, hrest⟩
  have hget := congrArg (fun l => l[0]?) hrest
  simpa using hget.symm

theorem codeAt_append (front back : List α) : CodeAt (front ++ l ++ back) front.length l := by
  unfold CodeAt
  rw [List.append_assoc, List.drop_left]
  exact List.prefix_append _ _

/-! ## Changes -/

/-- Change the instruction at an address. -/
def changeAt (f : α → α) (addr : Nat) (l : List α) : List α :=
  l.modify addr f

/-- The element at a position is changed. -/
theorem changeAt_append_cons (f : α → α) (l r : List α) (a : α) :
    changeAt f l.length (l ++ a :: r) = l ++ f a :: r := by
  induction l with
  | nil => rfl
  | cons b l ih => simpa [changeAt] using ih

/-- A change in the front part -/
theorem changeAt_append_left (f : α → α) (h : addr < l.length) (r : List α) :
    changeAt f addr (l ++ r) = changeAt f addr l ++ r := by
  induction l generalizing addr with
  | nil => cases h
  | cons a l ih =>
      cases addr with
      | zero => rfl
      | succ addr =>
          have htail := ih (Nat.lt_of_succ_lt_succ h)
          simpa [changeAt] using htail

@[simp]
theorem length_changeAt (f : α → α) (addr : Nat) (l : List α) :
    (changeAt f addr l).length = l.length := by
  simp [changeAt]

/-! ## Runs -/

/-- A machine gets from a state to another one. -/
def Reaches (step : σ → Option σ) : σ → σ → Prop :=
  Relation.ReflTransGen fun s s' => step s = some s'

variable {step : σ → Option σ} {s s' s'' : σ}

theorem Reaches.refl (s : σ) : Reaches step s s :=
  Relation.ReflTransGen.refl

theorem Reaches.trans (h : Reaches step s s') (h' : Reaches step s' s'') : Reaches step s s'' :=
  Relation.ReflTransGen.trans h h'

theorem Reaches.head (h : step s = some s') (h' : Reaches step s' s'') : Reaches step s s'' :=
  Relation.ReflTransGen.head h h'

/-- A run that gets to an end has only finitely many steps in front of it. -/
theorem Reaches.acc (h : Reaches step s s') (hend : step s' = none) :
    Acc (fun t t' => step t' = some t) s := by
  induction h using Relation.ReflTransGen.head_induction_on with
  | refl =>
      apply Acc.intro
      intro t ht
      rw [hend] at ht
      cases ht
  | head hstep _ ih =>
      apply Acc.intro
      intro t ht
      rw [hstep] at ht
      cases ht
      exact ih

/-- A machine that goes from each stage to the next one does not get to an end. -/
theorem not_reaches_of_stages (stage : Nat → σ)
    (hstage : ∀ n, ∃ t, step (stage n) = some t ∧ Reaches step t (stage (n + 1)))
    (hend : step s' = none) : ¬ Reaches step (stage 0) s' := by
  intro h
  have hacc := (h.acc hend).transGen
  apply not_acc_iff_exists_descending_chain.mpr ⟨stage, rfl, _⟩ hacc
  intro n
  rcases hstage n with ⟨t, ht, hreach⟩
  have hgen : Relation.TransGen (fun t t' => step t = some t') (stage n) (stage (n + 1)) :=
    Relation.TransGen.head'_iff.mpr ⟨t, ht, hreach⟩
  exact Relation.transGen_swap.mp hgen

end Lib
end Gforth
