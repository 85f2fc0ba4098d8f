import Mathlib.Data.List.Basic
import Mathlib.Logic.Relation
import Mathlib.Order.Nat

/-!
# Ordered repetition

A step has several results, and earlier ones are preferred.  Where every step makes a measure smaller,
its repetitions end.  They are ordered in two ways: all results of a few steps come before those of more
steps, or only the first result of every step counts and the longest chain comes first.

Main results:

- Theorems {lit}`repeatAll_eq` and {lit}`chainAll_eq`: the equations of the repetitions.
- Theorem {lit}`mem_repeatAll`: everything that is reached in some steps is a result.
- Theorem {lit}`mem_chainAll`: for steps with at most one result, chains contain it, too.
-/

namespace Gforth
namespace Lib

variable {α : Type*}

/-! ## Repetitions -/

/-- Results of at most some steps, with few steps first -/
def repeats (f : α → List α) : Nat → α → List α
  | 0, a => [a]
  | n + 1, a => a :: (f a).flatMap (repeats f n)

/-- The first results of at most some steps, with the last one first -/
def chain (f : α → List α) : Nat → α → List α
  | 0, a => [a]
  | n + 1, a =>
      match f a with
      | b :: _ => chain f n b ++ [a]
      | [] => [a]

/-- All results -/
def repeatAll (f : α → List α) (measure : α → Nat) (a : α) : List α :=
  repeats f (measure a) a

/-- The whole chain of first results -/
def chainAll (f : α → List α) (measure : α → Nat) (a : α) : List α :=
  chain f (measure a) a

/-- Steps that make a measure smaller -/
def Decreasing (f : α → List α) (measure : α → Nat) : Prop :=
  ∀ a, ∀ b ∈ f a, measure b < measure a

variable {f : α → List α} {measure : α → Nat} {a b : α}

/-! ## Equations -/

/-- The bound does not matter once it is as large as the measure. -/
theorem repeats_congr (h : Decreasing f measure) {n m : Nat} (hn : measure a ≤ n)
    (hm : measure a ≤ m) : repeats f n a = repeats f m a := by
  induction n generalizing a m with
  | zero =>
      have hnil : f a = [] := by
        apply List.eq_nil_iff_forall_not_mem.mpr
        intro b hb
        have := h a b hb
        omega
      cases m with
      | zero => rfl
      | succ m => simp [repeats, hnil]
  | succ n ih =>
      cases m with
      | zero =>
          have hnil : f a = [] := by
            apply List.eq_nil_iff_forall_not_mem.mpr
            intro b hb
            have := h a b hb
            omega
          simp [repeats, hnil]
      | succ m =>
          rw [repeats, repeats]
          congr 1
          apply List.flatMap_congr
          intro b hb
          have := h a b hb
          exact ih (m := m) (by omega) (by omega)

/-- Nothing, or a step and its repetitions -/
theorem repeatAll_eq (h : Decreasing f measure) (a : α) :
    repeatAll f measure a = a :: (f a).flatMap (repeatAll f measure) := by
  have hone : repeatAll f measure a = repeats f (measure a + 1) a :=
    repeats_congr h (Nat.le_refl _) (Nat.le_succ _)
  rw [hone, repeats]
  congr 1
  apply List.flatMap_congr
  intro b hb
  exact repeats_congr h (Nat.le_of_lt (h a b hb)) (Nat.le_refl _)

/-- The bound of a chain does not matter once it is as large as the measure. -/
theorem chain_congr (h : Decreasing f measure) {n m : Nat} (hn : measure a ≤ n)
    (hm : measure a ≤ m) : chain f n a = chain f m a := by
  induction n generalizing a m with
  | zero =>
      cases m with
      | zero => rfl
      | succ m =>
          cases hf : f a with
          | nil => simp [chain, hf]
          | cons b l =>
              have := h a b (by simp [hf])
              omega
  | succ n ih =>
      cases hf : f a with
      | nil => cases m <;> simp [chain, hf]
      | cons b l =>
          have hlt := h a b (by simp [hf])
          cases m with
          | zero => omega
          | succ m =>
              simp only [chain, hf]
              rw [ih (m := m) (by omega) (by omega)]

/-- The chain of the first result comes first. -/
theorem chainAll_eq (h : Decreasing f measure) (a : α) :
    chainAll f measure a =
      match f a with
      | b :: _ => chainAll f measure b ++ [a]
      | [] => [a] := by
  have hone : chainAll f measure a = chain f (measure a + 1) a :=
    chain_congr h (Nat.le_refl _) (Nat.le_succ _)
  rw [hone, chain]
  cases hf : f a with
  | nil => rfl
  | cons b l =>
      have hb : chain f (measure a) b = chainAll f measure b :=
        chain_congr h (Nat.le_of_lt (h a b (by simp [hf]))) (Nat.le_refl _)
      simp only [hb]

/-! ## Results -/

/-- A result is reached in some steps. -/
theorem mem_repeatAll (h : Decreasing f measure) :
    b ∈ repeatAll f measure a ↔ Relation.ReflTransGen (fun a b => b ∈ f a) a b := by
  constructor
  · generalize hn : measure a = n
    intro hb
    induction n using Nat.strongRecOn generalizing a with
    | _ n ih =>
        rw [repeatAll_eq h, List.mem_cons, List.mem_flatMap] at hb
        rcases hb with hb | ⟨c, hc, hb⟩
        · rw [hb]
        · have hlt := h a c hc
          exact Relation.ReflTransGen.head hc (ih (measure c) (by omega) rfl hb)
  · intro hb
    induction hb using Relation.ReflTransGen.head_induction_on with
    | refl =>
        rw [repeatAll_eq h]
        exact List.mem_cons_self
    | head hc _ ih =>
        rw [repeatAll_eq h]
        exact List.mem_cons_of_mem _ (List.mem_flatMap.mpr ⟨_, hc, ih⟩)

/-- What is in a chain is reached in some steps. -/
theorem mem_chainAll_reaches (h : Decreasing f measure) (hb : b ∈ chainAll f measure a) :
    Relation.ReflTransGen (fun a b => b ∈ f a) a b := by
  generalize hn : measure a = n at *
  induction n using Nat.strongRecOn generalizing a with
  | _ n ih =>
      rw [chainAll_eq h] at hb
      cases hf : f a with
      | nil =>
          simp only [hf, List.mem_singleton] at hb
          rw [hb]
      | cons c l =>
          simp only [hf, List.mem_append, List.mem_singleton] at hb
          have hc : c ∈ f a := by simp [hf]
          have hlt := h a c hc
          rcases hb with hb | hb
          · exact Relation.ReflTransGen.head hc (ih (measure c) (by omega) hb rfl)
          · rw [hb]

/-- Where a step has at most one result, chains contain everything that is reached. -/
theorem mem_chainAll (h : Decreasing f measure) (hone : ∀ a, (f a).length ≤ 1) :
    b ∈ chainAll f measure a ↔ Relation.ReflTransGen (fun a b => b ∈ f a) a b := by
  constructor
  · exact mem_chainAll_reaches h
  · intro hb
    induction hb using Relation.ReflTransGen.head_induction_on with
    | refl =>
        rw [chainAll_eq h]
        cases f b <;> simp
    | head hc _ ih =>
        rename_i a c _
        rw [chainAll_eq h]
        have hlen := hone a
        cases hf : f a with
        | nil => simp [hf] at hc
        | cons d l =>
            cases l with
            | nil =>
                have hcd : c = d := by simpa [hf] using hc
                rw [hcd] at ih
                simp [ih]
            | cons e l => simp [hf] at hlen

/-- A chain ends with the first one. -/
theorem getLast_chainAll (h : Decreasing f measure) (a : α) :
    ∃ l, chainAll f measure a = l ++ [a] := by
  rw [chainAll_eq h]
  cases f a with
  | nil => exact ⟨[], rfl⟩
  | cons b l => exact ⟨chainAll f measure b, rfl⟩

end Lib
end Gforth
