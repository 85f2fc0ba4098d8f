import Mathlib.Tactic.Ring
import Gforth.Vmgen.Combined
import Gforth.Vmgen.Effects

/-!
# Depths of superinstructions

The depths that the generator computes from the start and from the end fit together: at every border
between parts, the deepest place that was reached so far or that is reached later is the depth of the
whole superinstruction.  So the stack pointer is updated in exactly one part, no item that is read from
the stack has been overwritten, and all temporary variables are declared.

Main results:

- Theorem {lit}`max_reached_back`: the depths from both sides.
- Theorem {lit}`existsUnique_update`: there is exactly one update of every stack pointer.
-/

namespace Gforth
namespace Vmgen

/-- Something that stays true once it is true becomes true exactly once. -/
theorem existsUnique_rise {b : Nat → Prop} [DecidablePred b] {n : Nat} (hstart : ¬ b 0) (hend : b n)
    (hmono : ∀ i < n, b i → b (i + 1)) : ∃! i, i < n ∧ ¬ b i ∧ b (i + 1) := by
  have hexists : ∃ i, b i := ⟨n, hend⟩
  have hfirst := Nat.find_spec hexists
  have hle := Nat.find_min' hexists hend
  have hpos : Nat.find hexists ≠ 0 := by
    intro heq
    rw [heq] at hfirst
    exact hstart hfirst
  have hafter : ∀ i, i ≤ n → Nat.find hexists ≤ i → b i := by
    intro i
    induction i with
    | zero =>
        intro _ hzero
        omega
    | succ i ih =>
        intro hi hge
        rcases Nat.eq_or_lt_of_le hge with heq | hlt
        · rwa [← heq]
        · exact hmono i (by omega) (ih (by omega) (by omega))
  refine ⟨Nat.find hexists - 1, ⟨by omega, Nat.find_min hexists (by omega), ?_⟩, ?_⟩
  · rwa [Nat.sub_add_cancel (by omega)]
  · rintro i ⟨hi, hbefore, hrise⟩
    have hge := Nat.find_min' hexists hrise
    have hlt : i < Nat.find hexists := by
      by_contra hnot
      exact hbefore (hafter i (by omega) (by omega))
    omega

namespace Combination

variable (c : Combination)

/-! ## From the start -/

/-- {lit}`current-depth` after some parts -/
def currentAfter (ps : List Prim) (k : Nat) : Int :=
  (c.depthsAfter ps).current k

/-- {lit}`max-depth` after some parts -/
def reachedBy (ps : List Prim) (k : Nat) : Int :=
  (c.depthsAfter ps).max k

/-- How deep a part reaches that comes after some others -/
def reach (ps : List Prim) (p : Prim) (k : Nat) : Int :=
  c.currentAfter ps k + p.stacksIn k + instStreamAdjustment c.includeSkippedInsts k

theorem adjustment_nonneg (k : Nat) : 0 ≤ instStreamAdjustment c.includeSkippedInsts k := by
  unfold instStreamAdjustment
  split <;> omega

theorem adjustment_of_ne {k : Nat} (hk : k ≠ instStream) :
    instStreamAdjustment c.includeSkippedInsts k = 0 := by
  simp [instStreamAdjustment, hk]

theorem depthsAfter_concat (ps : List Prim) (p : Prim) :
    c.depthsAfter (ps ++ [p]) = (c.depthsAfter ps).addDepths c.includeSkippedInsts p := by
  simp [depthsAfter]

theorem currentAfter_concat (ps : List Prim) (p : Prim) (k : Nat) :
    c.currentAfter (ps ++ [p]) k = c.reach ps p k - p.stacksOut k := by
  simp [currentAfter, reach, depthsAfter_concat, Depths.addDepths]

theorem reachedBy_concat (ps : List Prim) (p : Prim) (k : Nat) :
    c.reachedBy (ps ++ [p]) k = max (c.reachedBy ps k) (c.reach ps p k) := by
  simp [reachedBy, reach, currentAfter, depthsAfter_concat, Depths.addDepths]

theorem minAfter_concat (ps : List Prim) (p : Prim) (k : Nat) :
    (c.depthsAfter (ps ++ [p])).min k =
      min ((c.depthsAfter ps).min k) (c.currentAfter (ps ++ [p]) k) := by
  simp [currentAfter, depthsAfter_concat, Depths.addDepths]

theorem currentAfter_nil {k : Nat} (hk : k ≠ instStream) : c.currentAfter [] k = 0 := by
  simp [currentAfter, depthsAfter, initCombined, hk]

@[simp]
theorem reachedBy_nil (k : Nat) : c.reachedBy [] k = 0 :=
  rfl

/-- More parts do not reach less deep. -/
theorem reachedBy_mono (ps qs : List Prim) (k : Nat) :
    c.reachedBy ps k ≤ c.reachedBy (ps ++ qs) k := by
  induction qs generalizing ps with
  | nil => simp
  | cons q qs ih =>
      have hrest := ih (ps ++ [q])
      rw [c.reachedBy_concat, List.append_assoc, List.singleton_append] at hrest
      exact (le_max_left _ _).trans hrest

theorem reachedBy_nonneg (ps : List Prim) (k : Nat) : 0 ≤ c.reachedBy ps k := by
  have hmono := c.reachedBy_mono [] ps k
  rwa [reachedBy_nil, List.nil_append] at hmono

/-- The current depth is at most the maximum depth. -/
theorem currentAfter_le (ps : List Prim) (k : Nat) : c.currentAfter ps k ≤ c.reachedBy ps k := by
  induction ps using List.reverseRecOn with
  | nil =>
      unfold currentAfter depthsAfter initCombined reachedBy depthsAfter
      simp only [List.foldl_nil]
      split <;> simp [initCombined]
  | append_singleton ps p _ =>
      rw [c.currentAfter_concat, c.reachedBy_concat]
      have := le_max_right (c.reachedBy ps k) (c.reach ps p k)
      omega

/-- The current depth is at least the minimum depth, as soon as there is a part. -/
theorem minAfter_le (ps : List Prim) (hps : ps ≠ []) (k : Nat) :
    (c.depthsAfter ps).min k ≤ c.currentAfter ps k := by
  induction ps using List.reverseRecOn with
  | nil => exact absurd rfl hps
  | append_singleton ps p _ =>
      rw [c.minAfter_concat]
      exact min_le_right _ _

/-- More parts do not raise the least depth. -/
theorem minAfter_mono (ps qs : List Prim) (k : Nat) :
    (c.depthsAfter (ps ++ qs)).min k ≤ (c.depthsAfter ps).min k := by
  induction qs generalizing ps with
  | nil => simp
  | cons q qs ih =>
      have hrest := ih (ps ++ [q])
      rw [c.minAfter_concat, List.append_assoc, List.singleton_append] at hrest
      exact hrest.trans (min_le_left _ _)

/-! ## From the end -/

/-- {lit}`max-back-depths` in front of some parts at the end -/
def backFrom (qs : List Prim) (k : Nat) : Int :=
  (qs.foldr (c.backStep k) (c.depths.current k, c.depths.current k)).1

/-- The current depth in front of some parts at the end -/
def currentFrom (qs : List Prim) (k : Nat) : Int :=
  (qs.foldr (c.backStep k) (c.depths.current k, c.depths.current k)).2

theorem backFrom_cons (p : Prim) (qs : List Prim) (k : Nat) :
    c.backFrom (p :: qs) k = max (c.backFrom qs k) (c.currentFrom qs k + p.stacksOut k) :=
  rfl

theorem currentFrom_cons (p : Prim) (qs : List Prim) (k : Nat) :
    c.currentFrom (p :: qs) k = c.currentFrom qs k + p.stacksOut k - p.stacksIn k -
      instStreamAdjustment c.includeSkippedInsts k :=
  rfl

/-- The current depths from both sides are the same. -/
theorem currentFrom_eq (ps qs : List Prim) (h : ps ++ qs = c.combinedPrims) (k : Nat) :
    c.currentFrom qs k = c.currentAfter ps k := by
  induction qs generalizing ps with
  | nil =>
      rw [List.append_nil] at h
      rw [h]
      rfl
  | cons q qs ih =>
      have hrest := ih (ps ++ [q]) (by simpa using h)
      rw [c.currentFrom_cons, hrest, c.currentAfter_concat]
      unfold reach
      ring

variable {ps qs : List Prim}

/-- The greatest depth in front of a part, by what the part reaches. -/
theorem backFrom_cons_eq {p : Prim} (h : ps ++ p :: qs = c.combinedPrims) (k : Nat) :
    c.backFrom (p :: qs) k = max (c.backFrom qs k) (c.reach ps p k) := by
  have hcurrent := c.currentFrom_eq (ps ++ [p]) qs (by simpa using h) k
  rw [c.backFrom_cons, hcurrent, c.currentAfter_concat]
  congr 1
  ring

/-- The depth at the end is within every greatest depth. -/
theorem depthEnd_le_backFrom (qs : List Prim) (k : Nat) : c.depths.current k ≤ c.backFrom qs k := by
  induction qs with
  | nil => exact le_refl _
  | cons q qs ih =>
      rw [c.backFrom_cons]
      exact ih.trans (le_max_left _ _)

/-- At every border, what was reached and what is reached later give the whole depth. -/
theorem max_reached_back (h : ps ++ qs = c.combinedPrims) (k : Nat) :
    max (c.reachedBy ps k) (c.backFrom qs k) = c.depths.max k := by
  induction qs generalizing ps with
  | nil =>
      rw [List.append_nil] at h
      subst h
      exact max_eq_left (c.currentAfter_le c.combinedPrims k)
  | cons q qs ih =>
      have hsplit : ps ++ [q] ++ qs = c.combinedPrims := by simpa using h
      rw [c.backFrom_cons_eq h, ← ih hsplit, c.reachedBy_concat]
      rw [max_comm (c.backFrom qs k), max_assoc]

theorem reachedBy_le (ps qs : List Prim) (h : ps ++ qs = c.combinedPrims) (k : Nat) :
    c.reachedBy ps k ≤ c.depths.max k :=
  (le_max_left _ _).trans (c.max_reached_back h k).le

theorem backFrom_le (h : ps ++ qs = c.combinedPrims) (k : Nat) : c.backFrom qs k ≤ c.depths.max k :=
  (le_max_right _ _).trans (c.max_reached_back h k).le

/-! ## The tables -/

theorem sCMaxDepth_eq (ps qs : List Prim) (h : ps ++ qs = c.combinedPrims) (k : Nat) :
    c.sCMaxDepth k ps.length = c.reachedBy ps k := by
  unfold sCMaxDepth reachedBy
  rw [← h, List.take_left]

theorem sCMaxBackDepth_eq (ps qs : List Prim) (h : ps ++ qs = c.combinedPrims) (k : Nat) :
    c.sCMaxBackDepth k ps.length = c.backFrom qs k := by
  unfold sCMaxBackDepth backFrom
  rw [← h, List.drop_left]

/-- All parts reach as deep as the combination. -/
theorem sCMaxDepth_length (k : Nat) :
    c.sCMaxDepth k c.combinedPrims.length = c.depths.max k := by
  unfold sCMaxDepth
  rw [List.take_length]
  rfl

/-- The whole depth has been reached and the stack pointer has been updated. -/
def updated (ps : List Prim) (k : Nat) : Bool :=
  c.reachedBy ps k = c.depths.max k ∧ ps ≠ []

/-- A stack pointer is updated by the part that first reaches as deep as the combination. -/
theorem updates_eq {p : Prim} (h : ps ++ p :: qs = c.combinedPrims) (k : Nat) :
    c.updates ps.length k = (c.updated (ps ++ [p]) k && !c.updated ps k) := by
  have hafter := c.sCMaxDepth_eq (ps ++ [p]) qs (by simpa using h) k
  rw [List.length_append, List.length_singleton] at hafter
  unfold updates updated
  rw [hafter, c.sCMaxDepth_length, c.sCMaxDepth_eq _ _ h, Bool.eq_iff_iff]
  simp only [ne_eq, Bool.decide_and, Bool.and_eq_true, decide_eq_true_eq, Bool.not_eq_true',
    Bool.and_eq_false_iff, decide_eq_false_iff_not, List.append_eq_nil_iff, List.cons_ne_self,
    and_false, not_false_eq_true, and_true, not_not, List.length_eq_zero_iff]
  constructor
  · rintro ⟨hall, hnew⟩
    refine ⟨hall, ?_⟩
    rcases hnew with hnew | hnew
    · left
      intro heq
      exact hnew (hall.trans heq.symm)
    · exact Or.inr hnew
  · rintro ⟨hall, hnew⟩
    refine ⟨hall, ?_⟩
    rcases hnew with hnew | hnew
    · left
      intro heq
      exact hnew (heq.symm.trans hall)
    · exact Or.inr hnew

/-- As soon as the stack pointer has been updated, this stays so. -/
theorem updated_mono {p : Prim} (h : ps ++ p :: qs = c.combinedPrims) {k : Nat}
    (hupdated : c.updated ps k = true) : c.updated (ps ++ [p]) k = true := by
  unfold updated at hupdated ⊢
  simp only [decide_eq_true_eq] at hupdated ⊢
  have hle := c.reachedBy_le (ps ++ [p]) qs (by simpa using h) k
  have hmono := c.reachedBy_mono ps [p] k
  refine ⟨?_, by simp⟩
  omega

/-- Without an update of the stack pointer it stays updated or not. -/
theorem updated_eq_of_not_updates {p : Prim} (h : ps ++ p :: qs = c.combinedPrims) {k : Nat}
    (hupdates : c.updates ps.length k = false) : c.updated (ps ++ [p]) k = c.updated ps k := by
  rw [c.updates_eq h] at hupdates
  cases hbefore : c.updated ps k with
  | true => exact c.updated_mono h hbefore
  | false => simpa [hbefore] using hupdates

/-- There is exactly one update of every stack pointer. -/
theorem existsUnique_update (hparts : c.combinedPrims ≠ []) (k : Nat) :
    ∃! partNum, partNum < c.combinedPrims.length ∧ c.updates partNum k = true := by
  have hsplit : ∀ n (hn : n < c.combinedPrims.length), c.combinedPrims.take n ++
      c.combinedPrims[n] :: c.combinedPrims.drop (n + 1) = c.combinedPrims := by
    intro n hn
    rw [← List.drop_eq_getElem_cons hn, List.take_append_drop]
  have hupdates : ∀ n < c.combinedPrims.length, c.updates n k =
      (c.updated (c.combinedPrims.take (n + 1)) k && !c.updated (c.combinedPrims.take n) k) := by
    intro n hn
    have hpart := c.updates_eq (hsplit n hn) k
    rwa [List.length_take, min_eq_left (by omega), List.take_append_getElem hn] at hpart
  have hrise := existsUnique_rise (b := fun n => c.updated (c.combinedPrims.take n) k = true)
    (n := c.combinedPrims.length) (by simp [updated]) (by simp [updated, hparts]; rfl) (by
      intro n hn hupdated
      have hmono := c.updated_mono (hsplit n hn) hupdated
      rwa [List.take_append_getElem hn] at hmono)
  rcases hrise with ⟨n, ⟨hn, hbefore, hafter⟩, hunique⟩
  refine ⟨n, ⟨hn, ?_⟩, ?_⟩
  · rw [hupdates n hn, hafter]
    simpa using hbefore
  · rintro n' ⟨hn', hupdate⟩
    rw [hupdates n' hn'] at hupdate
    simp only [Bool.and_eq_true, Bool.not_eq_true'] at hupdate
    apply hunique
    refine ⟨hn', ?_, hupdate.1⟩
    simp [hupdate.2]

end Combination

end Vmgen
end Gforth
