import Mathlib.Logic.Function.Basic
import Mathlib.Data.List.Pairwise

/-!
# Piles

Elements are collected on several piles.  A new element goes onto one of them, and a whole pile is put
onto another one; elements that are related in pairs stay so.

Main results:

- Theorem {lit}`Related.add`: a new element.
- Theorem {lit}`Related.move`: a pile that is put onto another one.
-/

namespace Gforth
namespace Lib
namespace Piles

variable {ι α : Type*} [DecidableEq ι]

/-- A new element on a pile -/
def add (i : ι) (x : α) (piles : ι → List α) : ι → List α :=
  Function.update piles i (piles i ++ [x])

/-- Put a pile onto another one. -/
def move (i j : ι) (piles : ι → List α) : ι → List α :=
  Function.update (Function.update piles j (piles j ++ piles i)) i []

/-- All elements are related in pairs, within a pile and across the piles. -/
structure Related (rel : α → α → Prop) (piles : ι → List α) : Prop where
  within : ∀ i, (piles i).Pairwise rel
  across : ∀ i j, i ≠ j → ∀ x ∈ piles i, ∀ y ∈ piles j, rel x y

variable {rel : α → α → Prop} {piles : ι → List α} {i j k : ι} {x y : α}

/-- The elements behind {lit}`add` are the old ones and the new one. -/
theorem mem_add_iff : y ∈ add i x piles k ↔ y ∈ piles k ∨ (k = i ∧ y = x) := by
  rw [add]
  by_cases hk : k = i
  · subst hk
    simp
  · simp [hk]

/-- Each element behind {lit}`move` was on a pile before. -/
theorem exists_mem_of_mem_move (h : y ∈ move i j piles k) : ∃ l, y ∈ piles l := by
  rw [move] at h
  by_cases hi : k = i
  · simp [hi] at h
  · by_cases hj : k = j
    · subst hj
      rw [Function.update_of_ne hi, Function.update_self, List.mem_append] at h
      exact h.elim (fun h => ⟨k, h⟩) fun h => ⟨i, h⟩
    · rw [Function.update_of_ne hi, Function.update_of_ne hj] at h
      exact ⟨k, h⟩

omit [DecidableEq ι] in
theorem Related.empty : Related rel fun _ : ι => ([] : List α) where
  within _ := List.Pairwise.nil
  across _ _ _ _ hx := absurd hx List.not_mem_nil

/-- A new element that is related to all others -/
theorem Related.add (h : Related rel piles)
    (hx : ∀ k, ∀ y ∈ piles k, rel y x ∧ rel x y) : Related rel (add i x piles) where
  within k := by
    by_cases hk : k = i
    · subst hk
      rw [Piles.add, Function.update_self, List.pairwise_append]
      refine ⟨h.within k, List.pairwise_singleton _ _, fun y hy z hz => ?_⟩
      rw [List.mem_singleton.1 hz]
      exact (hx k y hy).1
    · rw [Piles.add, Function.update_of_ne hk]
      exact h.within k
  across k l hkl y hy z hz := by
    rcases mem_add_iff.1 hy with hyk | ⟨hki, hyx⟩
    · rcases mem_add_iff.1 hz with hzl | ⟨-, hzx⟩
      · exact h.across k l hkl y hyk z hzl
      · exact hzx ▸ (hx k y hyk).1
    · rcases mem_add_iff.1 hz with hzl | ⟨hli, -⟩
      · exact hyx ▸ (hx l z hzl).2
      · exact absurd (hki.trans hli.symm) hkl

/-- A pile that is put onto another one -/
theorem Related.move (h : Related rel piles) (hij : i ≠ j) : Related rel (move i j piles) := by
  have hmoved : Piles.move i j piles j = piles j ++ piles i := by
    rw [Piles.move, Function.update_of_ne hij.symm, Function.update_self]
  have hnil : Piles.move i j piles i = [] := Function.update_self ..
  have hkept : ∀ k, k ≠ i → k ≠ j → Piles.move i j piles k = piles k := fun k hi hj => by
    rw [Piles.move, Function.update_of_ne hi, Function.update_of_ne hj]
  constructor
  · intro k
    by_cases hi : k = i
    · rw [hi, hnil]
      exact List.Pairwise.nil
    · by_cases hj : k = j
      · rw [hj, hmoved, List.pairwise_append]
        exact ⟨h.within j, h.within i, h.across j i hij.symm⟩
      · rw [hkept k hi hj]
        exact h.within k
  · intro k l hkl y hy z hz
    have hne : ∀ m, (Piles.move i j piles m ≠ []) → m ≠ i := fun m hm hmi => hm (hmi ▸ hnil)
    have hki := hne k (List.ne_nil_of_mem hy)
    have hli := hne l (List.ne_nil_of_mem hz)
    by_cases hkj : k = j
    · subst hkj
      rw [hkept l hli hkl.symm] at hz
      rw [hmoved, List.mem_append] at hy
      exact hy.elim (fun hy => h.across k l hkl y hy z hz)
        fun hy => h.across i l hli.symm y hy z hz
    · rw [hkept k hki hkj] at hy
      by_cases hlj : l = j
      · subst hlj
        rw [hmoved, List.mem_append] at hz
        exact hz.elim (fun hz => h.across k l hkl y hy z hz)
          fun hz => h.across k i hki y hy z hz
      · rw [hkept l hli hlj] at hz
        exact h.across k l hkl y hy z hz

end Piles
end Lib
end Gforth
