import Mathlib.Data.List.GetD
import Mathlib.Tactic

/-!
# Relaxation of a table of best entries

A table holds, for every key, the best entry seen so far.  Relaxing it with a
candidate replaces the entry of the candidate's key if the candidate costs no
more, so that among equally good candidates the last one stays.  Costs are
taken in any linear order.

Main results:

- Theorem {lit}`relaxAll_cases`: the entry of a key is the one before the
  relaxation or a candidate for that key.
- Theorems {lit}`relaxAll_le_initial` and {lit}`relaxAll_le_candidate`: it costs
  no more than any of them.
- Theorem {lit}`relaxAll_map`: a change of all costs that keeps their order
  leads to the same choices.
-/

namespace Gforth
namespace Lib

variable {W C : Type} [Inhabited W] [LinearOrder C] (cost : W → C)

/-- Replace the entry of the candidate's key unless it is strictly better. -/
def relax (ws : List W) (c : Nat × W) : List W :=
  if cost c.2 ≤ cost (ws.getD c.1 default) then ws.set c.1 c.2 else ws

/-- Relax with a list of candidates, one after the other. -/
def relaxAll (ws : List W) (cs : List (Nat × W)) : List W :=
  cs.foldl (relax cost) ws

@[simp]
theorem relaxAll_nil (ws : List W) : relaxAll cost ws [] = ws :=
  rfl

@[simp]
theorem relaxAll_cons (ws : List W) (c : Nat × W) (cs : List (Nat × W)) :
    relaxAll cost ws (c :: cs) = relaxAll cost (relax cost ws c) cs :=
  rfl

@[simp]
theorem length_relax (ws : List W) (c : Nat × W) :
    (relax cost ws c).length = ws.length := by
  unfold relax
  split <;> simp

/-- Relaxing with all candidates keeps the number of states. -/
@[simp]
theorem length_relaxAll (ws : List W) (cs : List (Nat × W)) :
    (relaxAll cost ws cs).length = ws.length := by
  induction cs generalizing ws with
  | nil => rfl
  | cons c cs ih => rw [relaxAll_cons, ih, length_relax]

/-- Setting an element changes only this one. -/
theorem getD_set (ws : List W) (k k' : Nat) (w : W) :
    (ws.set k w).getD k' default =
      if k = k' ∧ k < ws.length then w else ws.getD k' default := by
  simp only [List.getD_eq_getElem?_getD, List.getElem?_set]
  by_cases hk : k = k'
  · subst hk
    by_cases hlt : k < ws.length
    · simp [hlt]
    · simp [hlt]
  · simp [hk]

variable {ws : List W} {k : Nat} {cs : List (Nat × W)}

theorem getD_map_of_lt (f : W → W) (hk : k < ws.length) :
    (ws.map f).getD k default = f (ws.getD k default) := by
  simp [List.getD_eq_getElem?_getD, List.getElem?_eq_getElem hk]

/-- The effect of one relaxation on the entry of a key in range. -/
theorem getD_relax (hk : k < ws.length) (c : Nat × W) :
    (relax cost ws c).getD k default =
      if c.1 = k ∧ cost c.2 ≤ cost (ws.getD k default) then c.2
      else ws.getD k default := by
  unfold relax
  by_cases hkey : c.1 = k
  · subst hkey
    by_cases hle : cost c.2 ≤ cost (ws.getD c.1 default)
    · rw [if_pos hle, getD_set, if_pos ⟨rfl, hk⟩, if_pos ⟨rfl, hle⟩]
    · rw [if_neg hle, if_neg fun h => hle h.2]
  · rw [if_neg (fun h => hkey h.1 : ¬ (c.1 = k ∧ _))]
    split
    · rw [getD_set, if_neg fun h => hkey h.1]
    · rfl

/-- The entry of a key was there before or is a candidate for the key. -/
theorem relaxAll_cases (hk : k < ws.length) (cs : List (Nat × W)) :
    (relaxAll cost ws cs).getD k default = ws.getD k default ∨
      (k, (relaxAll cost ws cs).getD k default) ∈ cs := by
  induction cs generalizing ws with
  | nil => exact Or.inl rfl
  | cons c cs ih =>
      rw [relaxAll_cons]
      rcases @ih (relax cost ws c) (by simpa using hk) with hold | hmem
      · rw [hold, getD_relax cost hk]
        split
        · rename_i hc
          obtain ⟨rfl, -⟩ := hc
          exact Or.inr List.mem_cons_self
        · exact Or.inl rfl
      · exact Or.inr (List.mem_cons_of_mem c hmem)

/-- Every entry of the table was there before or is a candidate. -/
theorem mem_relaxAll {w : W} (hw : w ∈ relaxAll cost ws cs) : w ∈ ws ∨ ∃ c ∈ cs, c.2 = w := by
  obtain ⟨k, hk, hget⟩ := List.getElem_of_mem hw
  have hk' : k < ws.length := by simpa using hk
  have hgetD : (relaxAll cost ws cs).getD k default = w := by
    rw [List.getD_eq_getElem _ _ hk, hget]
  rcases relaxAll_cases cost hk' cs with hold | hmem
  · left
    rw [← hgetD, hold, List.getD_eq_getElem _ _ hk']
    exact List.getElem_mem hk'
  · exact Or.inr ⟨_, hmem, hgetD⟩

/-- Relaxation never makes an entry worse. -/
theorem relaxAll_le_initial (hk : k < ws.length) (cs : List (Nat × W)) :
    cost ((relaxAll cost ws cs).getD k default) ≤ cost (ws.getD k default) := by
  induction cs generalizing ws with
  | nil => exact le_rfl
  | cons c cs ih =>
      rw [relaxAll_cons]
      refine le_trans (@ih (relax cost ws c) (by simpa using hk)) ?_
      rw [getD_relax cost hk]
      split
      · rename_i hc
        exact hc.2
      · exact le_rfl

/-- The entry of a key is at least as good as every candidate for the key. -/
theorem relaxAll_le_candidate (hk : k < ws.length) {w : W} (hw : (k, w) ∈ cs) :
    cost ((relaxAll cost ws cs).getD k default) ≤ cost w := by
  induction cs generalizing ws with
  | nil => simp at hw
  | cons c cs ih =>
      rw [relaxAll_cons]
      rcases List.mem_cons.mp hw with rfl | hw
      · refine le_trans (relaxAll_le_initial cost (by simpa using hk) cs) ?_
        rw [getD_relax cost hk]
        split
        · exact le_rfl
        · rename_i hc
          exact le_of_lt (lt_of_not_ge fun hle => hc ⟨rfl, hle⟩)
      · exact ih (by simpa using hk) hw

/-- A map of entries that keeps the order of the costs of all entries
concerned commutes with relaxation. -/
theorem relaxAll_map (f : W → W) (S : W → Prop)
    (horder : ∀ a b, S a → S b → (cost (f a) ≤ cost (f b) ↔ cost a ≤ cost b)) (hws : ∀ w ∈ ws, S w)
    (hcs : ∀ c ∈ cs, S c.2 ∧ c.1 < ws.length) :
    relaxAll cost (ws.map f) (cs.map fun c => (c.1, f c.2)) =
      (relaxAll cost ws cs).map f := by
  induction cs generalizing ws with
  | nil => rfl
  | cons c cs ih =>
      obtain ⟨hSc, hlt⟩ := hcs c List.mem_cons_self
      have hSold : S (ws.getD c.1 default) := by
        rw [List.getD_eq_getElem _ _ hlt]
        exact hws _ (List.getElem_mem hlt)
      have hstep : relax cost (ws.map f) (c.1, f c.2) = (relax cost ws c).map f := by
        unfold relax
        simp only [getD_map_of_lt f hlt, horder _ _ hSc hSold]
        split
        · exact List.map_set.symm
        · rfl
      rw [List.map_cons, relaxAll_cons, relaxAll_cons, hstep]
      refine ih ?_ ?_
      · intro w hw
        unfold relax at hw
        split at hw
        · rcases List.mem_or_eq_of_mem_set hw with hw | rfl
          · exact hws w hw
          · exact hSc
        · exact hws w hw
      · intro c' hc'
        simpa using hcs c' (List.mem_cons_of_mem c hc')

end Lib
end Gforth
