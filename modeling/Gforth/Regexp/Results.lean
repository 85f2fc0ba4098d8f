import Gforth.Lib.Repetition
import Gforth.Regexp.Compiler

/-!
# Results of patterns

A pattern takes a position to others, in the order in which the compiled code tries them.  Loops end
behind the string: {lit}`*\x7d` looks at the position before it goes on, and {lit}`+\x7d` only before
it repeats the body.  Greedy loops keep only the first result of every repetition.

Main results:

- Theorem {lit}`Pattern.le_of_mem_results`: positions do not decrease.
- Theorem {lit}`Pattern.lt_of_mem_results`: they increase where the pattern consumes characters.
-/

namespace Gforth
namespace Regexp

open Lib

variable (mem : Int → Byte) (startS endS : Int)

/-- The results of a step that make progress in the string -/
def within (f : Int → List Int) (a : Int) : List Int :=
  (f a).filter fun b => a < b ∧ b ≤ endS

/-- The results of a step from a position in the string -/
def inside (f : Int → List Int) (a : Int) : List Int :=
  (f a).filter fun b => a < b ∧ a ≤ endS

/-- The number of positions that are left -/
def remaining (a : Int) : Nat :=
  (endS + 1 - a).toNat

mutual

/-- The positions behind a pattern, the preferred one first -/
def Pattern.results : Pattern → Int → List Int
  | .charClass negated c, a => if c (mem a) = negated then [] else [a + 1]
  | .char negated c, a => if decide (mem a = c) = negated then [] else [a + 1]
  | .optChar c, a => if mem a = c then [a + 1] else [a]
  | .string s, a =>
      if text mem a s.length = s ∧ (a ≤ endS → a + s.length ≤ endS) then [a + s.length] else []
  | .startOf, a => if startS < a then [] else [a]
  | .endOf, a => if a < endS then [] else [a]
  | .qEnd, a => if endS < a then [] else [a]
  | .skip, a => [a + 1]
  | .empty, a => [a]
  | .seq p q, a => (p.results a).flatMap fun b => q.results b
  | .group p, a => p.results a
  | .braces ps, a => ps.results a
  | .star p, a => repeatAll (within endS fun b => p.results b) (remaining endS) a
  | .plus p, a =>
      (p.results a).flatMap (repeatAll (inside endS fun b => p.results b) (remaining endS))
  | .greedyStar p, a => chainAll (within endS fun b => p.results b) (remaining endS) a
  | .greedyPlus p, a => (chainAll (within endS fun b => p.results b) (remaining endS) a).dropLast

/-- The positions behind some alternatives -/
def Alternatives.results : Alternatives → Int → List Int
  | .last p, a => p.results a
  | .or p ps, a => p.results a ++ ps.results a

end

mutual

/-- Does a pattern always go to a later position? -/
def Pattern.consumes : Pattern → Bool
  | .charClass _ _ => true
  | .char _ _ => true
  | .optChar _ => false
  | .string s => !s.isEmpty
  | .startOf => false
  | .endOf => false
  | .qEnd => false
  | .skip => true
  | .empty => false
  | .seq p q => p.consumes || q.consumes
  | .group p => p.consumes
  | .braces ps => ps.consumes
  | .star _ => false
  | .plus p => p.consumes
  | .greedyStar _ => false
  | .greedyPlus _ => true

/-- Do all alternatives go to a later position? -/
def Alternatives.consumes : Alternatives → Bool
  | .last p => p.consumes
  | .or p ps => p.consumes && ps.consumes

end

mutual

/-- Do the bodies of all loops go to later positions?  Otherwise the code can run forever. -/
def Pattern.proper : Pattern → Bool
  | .seq p q => p.proper && q.proper
  | .group p => p.proper
  | .braces ps => ps.proper
  | .star p => p.consumes && p.proper
  | .plus p => p.consumes && p.proper
  | .greedyStar p => p.consumes && p.proper
  | .greedyPlus p => p.consumes && p.proper
  | _ => true

/-- The bodies of the loops in alternatives -/
def Alternatives.proper : Alternatives → Bool
  | .last p => p.proper
  | .or p ps => p.proper && ps.proper

end

/-! ## Steps in the string -/

variable {mem startS endS} {a b : Int}

variable {f : Int → List Int}

theorem mem_within : b ∈ within endS f a ↔ b ∈ f a ∧ a < b ∧ b ≤ endS := by
  simp [within]

variable (endS) in
/-- Fewer positions are left. -/
theorem decreasing_within (f : Int → List Int) : Decreasing (within endS f) (remaining endS) := by
  intro a b hb
  rw [mem_within] at hb
  unfold remaining
  omega

theorem mem_inside : b ∈ inside endS f a ↔ b ∈ f a ∧ a < b ∧ a ≤ endS := by
  simp [inside]

/-- Each match takes something from what is left. -/
theorem decreasing_inside (f : Int → List Int) : Decreasing (inside endS f) (remaining endS) := by
  intro a b hb
  rw [mem_inside] at hb
  unfold remaining
  omega

/-- Repetitions do not decrease positions. -/
theorem le_of_reaches {step : Int → Int → Prop} (hstep : ∀ a b, step a b → a < b)
    (h : Relation.ReflTransGen step a b) : a ≤ b := by
  induction h with
  | refl => exact le_refl a
  | tail _ hb ih => exact ih.trans (hstep _ _ hb).le

theorem le_of_mem_star (h : b ∈ repeatAll (within endS f) (remaining endS) a) : a ≤ b :=
  le_of_reaches (fun _ _ hb => (mem_within.mp hb).2.1) ((mem_repeatAll (decreasing_within _ f)).mp h)

theorem le_of_mem_plus (h : b ∈ repeatAll (inside endS f) (remaining endS) a) : a ≤ b :=
  le_of_reaches (fun _ _ hb => (mem_inside.mp hb).2.1) ((mem_repeatAll (decreasing_inside f)).mp h)

theorem le_of_mem_chainAll (h : b ∈ chainAll (within endS f) (remaining endS) a) : a ≤ b :=
  le_of_reaches (fun _ _ hb => (mem_within.mp hb).2.1)
    (mem_chainAll_reaches (decreasing_within _ f) h)

/-- All positions in a chain but the last one are later. -/
theorem lt_of_mem_dropLast_chainAll
    (h : b ∈ (chainAll (within endS f) (remaining endS) a).dropLast) : a < b := by
  rw [chainAll_eq (decreasing_within _ f)] at h
  cases hf : within endS f a with
  | nil => simp [hf] at h
  | cons c l =>
      simp only [hf, List.dropLast_concat] at h
      have hc : c ∈ within endS f a := by simp [hf]
      have hle := le_of_mem_chainAll h
      rw [mem_within] at hc
      omega

/-! ## Positions -/

mutual

/-- A pattern goes on. -/
theorem Pattern.le_of_mem_results (p : Pattern) (a b : Int) (h : b ∈ p.results mem startS endS a) :
    a ≤ b := by
  cases p with
  | charClass _ _ | char _ _ | optChar _ | string _ | startOf | endOf | qEnd =>
      simp only [Pattern.results] at h
      split at h <;> simp at h <;> omega
  | skip | empty =>
      simp [Pattern.results] at h
      omega
  | seq p q =>
      simp only [Pattern.results, List.mem_flatMap] at h
      rcases h with ⟨c, hc, hb⟩
      exact (p.le_of_mem_results a c hc).trans (q.le_of_mem_results c b hb)
  | group p => exact p.le_of_mem_results a b h
  | braces ps => exact ps.le_of_mem_results a b h
  | star p => exact le_of_mem_star h
  | plus p =>
      simp only [Pattern.results, List.mem_flatMap] at h
      rcases h with ⟨c, hc, hb⟩
      exact (p.le_of_mem_results a c hc).trans (le_of_mem_plus hb)
  | greedyStar p => exact le_of_mem_chainAll h
  | greedyPlus p => exact (lt_of_mem_dropLast_chainAll h).le

/-- An alternative goes on. -/
theorem Alternatives.le_of_mem_results (ps : Alternatives) (a b : Int)
    (h : b ∈ ps.results mem startS endS a) : a ≤ b := by
  cases ps with
  | last p => exact p.le_of_mem_results a b h
  | or p ps =>
      simp only [Alternatives.results, List.mem_append] at h
      rcases h with h | h
      · exact p.le_of_mem_results a b h
      · exact ps.le_of_mem_results a b h

end

mutual

/-- A pattern that consumes goes on by one character at least. -/
theorem Pattern.lt_of_mem_results (p : Pattern) (hp : p.consumes = true) (a b : Int)
    (h : b ∈ p.results mem startS endS a) : a < b := by
  cases p with
  | charClass _ _ | char _ _ =>
      simp only [Pattern.results] at h
      split at h <;> simp at h
      omega
  | string s =>
      simp only [Pattern.results] at h
      cases s with
      | nil => cases hp
      | cons c s =>
          split at h <;> simp at h
          omega
  | skip =>
      simp [Pattern.results] at h
      omega
  | seq p q =>
      simp only [Pattern.results, List.mem_flatMap] at h
      rcases h with ⟨c, hc, hb⟩
      have hle := p.le_of_mem_results a c hc
      have hle' := q.le_of_mem_results c b hb
      simp only [Pattern.consumes, Bool.or_eq_true] at hp
      rcases hp with hp | hp
      · exact (p.lt_of_mem_results hp a c hc).trans_le hle'
      · exact hle.trans_lt (q.lt_of_mem_results hp c b hb)
  | group p => exact p.lt_of_mem_results hp a b h
  | braces ps => exact ps.lt_of_mem_results hp a b h
  | plus p =>
      simp only [Pattern.results, List.mem_flatMap] at h
      rcases h with ⟨c, hc, hb⟩
      exact (p.lt_of_mem_results hp a c hc).trans_le (le_of_mem_plus hb)
  | greedyPlus p => exact lt_of_mem_dropLast_chainAll h
  | optChar _ | empty | startOf | endOf | qEnd | star _ | greedyStar _ => cases hp

/-- An alternative that consumes goes on by one character at least. -/
theorem Alternatives.lt_of_mem_results (ps : Alternatives) (hps : ps.consumes = true) (a b : Int)
    (h : b ∈ ps.results mem startS endS a) : a < b := by
  cases ps with
  | last p => exact p.lt_of_mem_results hps a b h
  | or p ps =>
      simp only [Alternatives.consumes, Bool.and_eq_true] at hps
      simp only [Alternatives.results, List.mem_append] at h
      rcases h with h | h
      · exact p.lt_of_mem_results hps.1 a b h
      · exact ps.lt_of_mem_results hps.2 a b h

end

end Regexp
end Gforth
