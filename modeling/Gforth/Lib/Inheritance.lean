import Mathlib.Data.Nat.Basic
import Mathlib.Data.Option.Basic
import Mathlib.Logic.Function.Basic

/-!
# Nearest ancestors

Every class has at most one parent, which is an older one.  What a class does not have itself, it has
from the nearest ancestor that has it.

Main results:

- Theorem {lit}`nearest_congr`: younger classes do not matter.
-/

namespace Gforth
namespace Lib

variable {α : Type} (parent : Nat → Option Nat) (own : Nat → Option α)

/-- What a class has, itself or from its nearest ancestor -/
def nearest (c : Nat) : Option α :=
  match own c with
  | some x => some x
  | none =>
      match parent c with
      | some p => if p < c then nearest p else none
      | none => none
termination_by c

variable {parent own} {c : Nat}

theorem nearest_of_own {x : α} (h : own c = some x) : nearest parent own c = some x := by
  rw [nearest, h]

theorem nearest_of_parent {p : Nat} (h : own c = none) (hp : parent c = some p) (hlt : p < c) :
    nearest parent own c = nearest parent own p := by
  rw [nearest, h]
  simp only [hp, if_pos hlt]

theorem nearest_of_none (h : own c = none) (hp : parent c = none) :
    nearest parent own c = none := by
  rw [nearest, h]
  simp only [hp]

/-- What a class has depends on itself and older classes only. -/
theorem nearest_congr {parent' : Nat → Option Nat} {own' : Nat → Option α}
    (hparent : ∀ d ≤ c, parent' d = parent d) (hown : ∀ d ≤ c, own' d = own d) :
    nearest parent' own' c = nearest parent own c := by
  induction c using Nat.strong_induction_on with
  | _ c ih =>
    rw [nearest, nearest, hown c le_rfl, hparent c le_rfl]
    cases own c with
    | some x => rfl
    | none =>
      cases parent c with
      | none => rfl
      | some p =>
        dsimp only
        split
        · rename_i hlt
          exact ih p hlt (fun d hd => hparent d (by omega)) (fun d hd => hown d (by omega))
        · rfl

/-- What a class has depends on itself and what its parent has. -/
theorem nearest_congr_parent {parent' : Nat → Option Nat} {own' : Nat → Option α}
    (hparent : parent' c = parent c) (hown : own' c = own c)
    (hnearest : ∀ p, parent c = some p → nearest parent' own' p = nearest parent own p) :
    nearest parent' own' c = nearest parent own c := by
  rw [nearest, nearest.eq_def parent own c, hown, hparent]
  cases own c with
  | some x => rfl
  | none =>
    cases hp : parent c with
    | none => rfl
    | some p =>
      dsimp only
      rw [hnearest p hp]

end Lib
end Gforth
