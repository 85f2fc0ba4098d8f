import Mathlib.Tactic.Common

/-!
# Programs that fail

A program changes a state or fails.  One kind of failure is undefined behaviour: a program
may be replaced by one that does something else there.

Main results:

- Theorem {lit}`Refines.andThen`: replacing the parts of a sequence.
-/

namespace Gforth
namespace Lib

variable {ε σ : Type}

/-- One program after the other. -/
def andThen (f g : σ → Except ε σ) (s : σ) : Except ε σ :=
  match f s with
  | .error e => .error e
  | .ok s' => g s'

/-- The program {lit}`g` does what {lit}`f` does, except where {lit}`f` is undefined. -/
def Refines (undefined : ε) (f g : σ → Except ε σ) : Prop :=
  ∀ s, f s = .error undefined ∨ g s = f s

@[simp]
theorem andThen_ok (f : σ → Except ε σ) : andThen f .ok = f := by
  funext s
  rw [andThen]
  cases f s <;> rfl

/-- Programs are put together in any order of the parentheses. -/
theorem andThen_assoc (f g h : σ → Except ε σ) :
    andThen (andThen f g) h = andThen f (andThen g h) := by
  funext s
  simp only [andThen]
  cases f s <;> rfl

variable {undefined : ε}

theorem Refines.refl (f : σ → Except ε σ) : Refines undefined f f :=
  fun _ => Or.inr rfl

theorem Refines.of_eq {f g : σ → Except ε σ} (h : g = f) : Refines undefined f g := by
  rw [h]
  exact Refines.refl f

/-- Refinements are put one behind the other. -/
theorem Refines.trans {f g h : σ → Except ε σ} (hfg : Refines undefined f g)
    (hgh : Refines undefined g h) : Refines undefined f h := by
  intro s
  rcases hfg s with hundef | heq
  · exact Or.inl hundef
  · rcases hgh s with hundef | heq'
    · exact Or.inl (heq ▸ hundef)
    · exact Or.inr (heq'.trans heq)

/-- A sequence is refined by refinements of its parts. -/
theorem Refines.andThen {f f' g g' : σ → Except ε σ} (hf : Refines undefined f f')
    (hg : Refines undefined g g') : Refines undefined (andThen f g) (andThen f' g') := by
  intro s
  simp only [Lib.andThen]
  rcases hf s with hundef | heq
  · rw [hundef]
    exact Or.inl rfl
  · rw [heq]
    cases hs : f s with
    | error e => exact Or.inr rfl
    | ok s' => exact hg s'

/-- The instructions of a program, one after the other. -/
def runAll {ι : Type} (step : ι → σ → Except ε σ) : List ι → σ → Except ε σ
  | [], s => .ok s
  | i :: is, s => andThen (step i) (runAll step is) s

variable {ι : Type} {step : ι → σ → Except ε σ}

@[simp]
theorem runAll_nil : runAll step [] = .ok :=
  rfl

theorem runAll_cons (i : ι) (is : List ι) :
    runAll step (i :: is) = Lib.andThen (step i) (runAll step is) :=
  rfl

theorem runAll_singleton (i : ι) : runAll step [i] = step i := by
  rw [runAll_cons, runAll_nil, andThen_ok]

/-- Code in two parts. -/
theorem runAll_append (is js : List ι) :
    runAll step (is ++ js) = Lib.andThen (runAll step is) (runAll step js) := by
  induction is with
  | nil => rfl
  | cons i is ih => rw [List.cons_append, runAll_cons, runAll_cons, ih, andThen_assoc]

end Lib
end Gforth
