import Gforth.Regexp.Blocks

/-!
# The language of a pattern

What a pattern matches does not depend on the order in which the code tries things.  Greedy loops do not
go back into their body; the code finds every match if their bodies have at most one result.

Main results:

- Theorem {lit}`Pattern.matches_of_mem_results`: results in the string are matches.
- Theorem {lit}`Pattern.mem_results_of_matches`: all matches are results.
- Theorem {lit}`compileBlock_matches`: a compiled block recognizes the language of its pattern.
-/

namespace Gforth
namespace Regexp

open Lib

/-! ## Matches -/

section

variable (s : List Byte)

mutual

/-- A pattern matches the part of a string between two positions.  An optional character is taken
wherever it is there: this is not the union of the character and the empty string. -/
def Pattern.Matches : Pattern → Nat → Nat → Prop
  | .charClass negated c, i, j => j = i + 1 ∧ ∃ x, s[i]? = some x ∧ c x ≠ negated
  | .char negated c, i, j => j = i + 1 ∧ ∃ x, s[i]? = some x ∧ decide (x = c) ≠ negated
  | .optChar c, i, j => if s[i]? = some c then j = i + 1 else j = i
  | .string t, i, j => j = i + t.length ∧ t <+: s.drop i
  | .startOf, i, j => j = i ∧ i = 0
  | .endOf, i, j => j = i ∧ i = s.length
  | .qEnd, i, j => j = i
  | .skip, i, j => j = i + 1 ∧ i < s.length
  | .empty, i, j => j = i
  | .seq p q, i, j => ∃ k, p.Matches i k ∧ q.Matches k j
  | .group p, i, j => p.Matches i j
  | .braces ps, i, j => ps.Matches i j
  | .star p, i, j => Relation.ReflTransGen (fun i j => p.Matches i j) i j
  | .plus p, i, j => Relation.TransGen (fun i j => p.Matches i j) i j
  | .greedyStar p, i, j => Relation.ReflTransGen (fun i j => p.Matches i j) i j
  | .greedyPlus p, i, j => Relation.TransGen (fun i j => p.Matches i j) i j

/-- One of some alternatives matches. -/
def Alternatives.Matches : Alternatives → Nat → Nat → Prop
  | .last p, i, j => p.Matches i j
  | .or p ps, i, j => p.Matches i j ∨ ps.Matches i j

end

end

/-- Does a pattern have at most one result? -/
def Pattern.single : Pattern → Bool
  | .seq p q => p.single && q.single
  | .group p => p.single
  | .braces _ => false
  | .star _ => false
  | .plus _ => false
  | .greedyStar _ => false
  | .greedyPlus _ => false
  | _ => true

mutual

/-- Do the bodies of all greedy loops have at most one result? -/
def Pattern.unambiguous : Pattern → Bool
  | .seq p q => p.unambiguous && q.unambiguous
  | .group p => p.unambiguous
  | .braces ps => ps.unambiguous
  | .star p => p.unambiguous
  | .plus p => p.unambiguous
  | .greedyStar p => p.single && p.unambiguous
  | .greedyPlus p => p.single && p.unambiguous
  | _ => true

/-- The greedy loops in alternatives -/
def Alternatives.unambiguous : Alternatives → Bool
  | .last p => p.unambiguous
  | .or p ps => p.unambiguous && ps.unambiguous

end

mutual

/-- The optional characters; the code looks for them behind the string, too. -/
def Pattern.optChars : Pattern → List Byte
  | .optChar c => [c]
  | .seq p q => p.optChars ++ q.optChars
  | .group p => p.optChars
  | .braces ps => ps.optChars
  | .star p => p.optChars
  | .plus p => p.optChars
  | .greedyStar p => p.optChars
  | .greedyPlus p => p.optChars
  | _ => []

/-- The optional characters in alternatives -/
def Alternatives.optChars : Alternatives → List Byte
  | .last p => p.optChars
  | .or p ps => p.optChars ++ ps.optChars

end

/-- A string in memory -/
def Holds (mem : Int → Byte) (addr : Int) (s : List Byte) : Prop :=
  text mem addr s.length = s

variable {mem : Int → Byte} {addr : Int} {s : List Byte}

/-- The characters of the text in memory -/
theorem Holds.get (h : Holds mem addr s) {i : Nat} (hi : i < s.length) :
    s[i]? = some (mem (addr + i)) := by
  have hget : (text mem addr s.length)[i]? = some (mem (addr + i)) := by
    simp [text, hi]
  rwa [h] at hget

/-- Part of a string in memory -/
theorem Holds.text_eq (h : Holds mem addr s) {i u : Nat} (hi : i + u ≤ s.length) :
    text mem (addr + i) u = (s.drop i).take u := by
  apply List.ext_getElem?
  intro j
  by_cases hj : j < u
  · rw [List.getElem?_take_of_lt hj, List.getElem?_drop, h.get (by omega)]
    simp [text, hj, Int.add_assoc]
  · rw [List.getElem?_eq_none (by simp [text]; omega), List.getElem?_eq_none (by simp; omega)]

theorem Holds.text_eq_iff (h : Holds mem addr s) {i : Nat} {t : List Byte} (hi : i + t.length ≤ s.length) :
    text mem (addr + i) t.length = t ↔ t <+: s.drop i := by
  rw [h.text_eq hi, List.prefix_iff_eq_take, eq_comm]

/-! ## Results are matches -/

variable {M : Nat → Nat → Prop}

/-- Repetitions of a step in the string -/
theorem matches_of_reaches {f : Int → List Int} {step : Int → Int → Prop}
    (hstep : ∀ a b, step a b → b ∈ f a ∧ a < b)
    (hf : ∀ i : Nat, i ≤ s.length → ∀ b ∈ f (addr + i), b ≤ addr + s.length →
      ∃ j : Nat, b = addr + j ∧ M i j) {a b : Int} (h : Relation.ReflTransGen step a b)
    (hb : b ≤ addr + s.length) (i : Nat) (hi : a = addr + i) :
    ∃ j : Nat, b = addr + j ∧ Relation.ReflTransGen M i j := by
  induction h using Relation.ReflTransGen.head_induction_on generalizing i with
  | refl => exact ⟨i, hi, Relation.ReflTransGen.refl⟩
  | head hac hcb ih =>
      rename_i a c
      have hle : c ≤ b := le_of_reaches (fun a b hab => (hstep a b hab).2) hcb
      rcases hstep a c hac with ⟨hc, hlt⟩
      rw [hi] at hc
      rcases hf i (by omega) c hc (by omega) with ⟨k, hk, hik⟩
      rcases ih k hk with ⟨j, hj, hkj⟩
      exact ⟨j, hj, Relation.ReflTransGen.head hik hkj⟩

mutual

/-- Results in the string are matches. -/
theorem Pattern.matches_of_mem_results (p : Pattern) (hs : Holds mem addr s) (i : Nat)
    (hi : i ≤ s.length) (b : Int) (hb : b ∈ p.results mem addr (addr + s.length) (addr + i))
    (hin : b ≤ addr + s.length) : ∃ j : Nat, b = addr + j ∧ p.Matches s i j := by
  cases p with
  | charClass _ _ | char _ _ =>
      simp only [Pattern.results] at hb
      split at hb <;> simp at hb
      rename_i hc
      exact ⟨i + 1, by omega, rfl, _, hs.get (by omega), hc⟩
  | optChar c =>
      simp only [Pattern.results] at hb
      by_cases hc : mem (addr + i) = c
      · simp only [hc, if_true, List.mem_singleton] at hb
        have hget := hs.get (i := i) (by omega)
        exact ⟨i + 1, by omega, by simp [Pattern.Matches, hget, hc]⟩
      · simp only [hc, if_false, List.mem_singleton] at hb
        refine ⟨i, hb, ?_⟩
        by_cases hlt : i < s.length
        · simp [Pattern.Matches, hs.get hlt, hc]
        · simp [Pattern.Matches, List.getElem?_eq_none (not_lt.mp hlt)]
  | string t =>
      simp only [Pattern.results] at hb
      split at hb <;> simp at hb
      rename_i ht
      exact ⟨i + t.length, by omega, rfl, (hs.text_eq_iff (by omega)).mp ht.1⟩
  | startOf | endOf =>
      simp only [Pattern.results] at hb
      split at hb <;> simp at hb
      exact ⟨i, hb, rfl, by omega⟩
  | qEnd =>
      simp only [Pattern.results] at hb
      split at hb <;> simp at hb
      exact ⟨i, hb, rfl⟩
  | skip =>
      simp only [Pattern.results, List.mem_singleton] at hb
      exact ⟨i + 1, by omega, rfl, by omega⟩
  | empty =>
      simp only [Pattern.results, List.mem_singleton] at hb
      exact ⟨i, hb, rfl⟩
  | seq p q =>
      simp only [Pattern.results, List.mem_flatMap] at hb
      rcases hb with ⟨c, hc, hb⟩
      have hle := q.le_of_mem_results c b hb
      rcases p.matches_of_mem_results hs i hi c hc (by omega) with ⟨k, hk, hp⟩
      rw [hk] at hb
      rcases q.matches_of_mem_results hs k (by omega) b hb hin with ⟨j, hj, hq⟩
      exact ⟨j, hj, k, hp, hq⟩
  | group p => exact p.matches_of_mem_results hs i hi b hb hin
  | braces ps => exact ps.matches_of_mem_results hs i hi b hb hin
  | star p =>
      have hreach := (mem_repeatAll (decreasing_within _ _)).mp hb
      exact matches_of_reaches (fun a b hab => ⟨(mem_within.mp hab).1, (mem_within.mp hab).2.1⟩)
        (fun i hi b hb hin => p.matches_of_mem_results hs i hi b hb hin) hreach hin i rfl
  | plus p =>
      simp only [Pattern.results, List.mem_flatMap] at hb
      rcases hb with ⟨c, hc, hb⟩
      have hle := le_of_mem_plus hb
      rcases p.matches_of_mem_results hs i hi c hc (by omega) with ⟨k, hk, hp⟩
      rcases matches_of_reaches (fun a b hab => ⟨(mem_inside.mp hab).1, (mem_inside.mp hab).2.1⟩)
        (fun i hi b hb hin => p.matches_of_mem_results hs i hi b hb hin)
        ((mem_repeatAll (decreasing_inside _)).mp hb) hin k hk with ⟨j, hj, hkj⟩
      exact ⟨j, hj, Relation.TransGen.head'_iff.mpr ⟨k, hp, hkj⟩⟩
  | greedyStar p =>
      have hreach := mem_chainAll_reaches (decreasing_within _ _) hb
      exact matches_of_reaches (fun a b hab => ⟨(mem_within.mp hab).1, (mem_within.mp hab).2.1⟩)
        (fun i hi b hb hin => p.matches_of_mem_results hs i hi b hb hin) hreach hin i rfl
  | greedyPlus p =>
      have hlt := lt_of_mem_dropLast_chainAll hb
      have hreach := mem_chainAll_reaches (decreasing_within _ _) (List.dropLast_subset _ hb)
      rcases matches_of_reaches (fun a b hab => ⟨(mem_within.mp hab).1, (mem_within.mp hab).2.1⟩)
        (fun i hi b hb hin => p.matches_of_mem_results hs i hi b hb hin) hreach hin i rfl with
          ⟨j, hj, hij⟩
      rcases Relation.reflTransGen_iff_eq_or_transGen.mp hij with heq | htrans
      · omega
      · exact ⟨j, hj, htrans⟩

/-- Each result of an alternative is a match. -/
theorem Alternatives.matches_of_mem_results (ps : Alternatives) (hs : Holds mem addr s) (i : Nat)
    (hi : i ≤ s.length) (b : Int) (hb : b ∈ ps.results mem addr (addr + s.length) (addr + i))
    (hin : b ≤ addr + s.length) : ∃ j : Nat, b = addr + j ∧ ps.Matches s i j := by
  cases ps with
  | last p => exact p.matches_of_mem_results hs i hi b hb hin
  | or p ps =>
      simp only [Alternatives.results, List.mem_append] at hb
      rcases hb with hb | hb
      · rcases p.matches_of_mem_results hs i hi b hb hin with ⟨j, hj, hp⟩
        exact ⟨j, hj, Or.inl hp⟩
      · rcases ps.matches_of_mem_results hs i hi b hb hin with ⟨j, hj, hps⟩
        exact ⟨j, hj, Or.inr hps⟩

end

/-! ## Matches are results -/

/-- Repetitions stay in the string. -/
theorem le_of_repeats {i j n : Nat} (hM : ∀ i j, i ≤ n → M i j → i ≤ j ∧ j ≤ n) (hi : i ≤ n)
    (h : Relation.ReflTransGen M i j) : i ≤ j ∧ j ≤ n := by
  induction h with
  | refl => exact ⟨le_refl i, hi⟩
  | tail _ hjk ih =>
      have hk := hM _ _ ih.2 hjk
      omega

mutual

/-- Matches stay in the string. -/
theorem Pattern.le_of_matches (p : Pattern) (i j : Nat) (hi : i ≤ s.length) (h : p.Matches s i j) :
    i ≤ j ∧ j ≤ s.length := by
  cases p with
  | charClass _ _ | char _ _ =>
      rcases h with ⟨rfl, x, hx, -⟩
      have hlt := (List.getElem?_eq_some_iff.mp hx).1
      omega
  | optChar c =>
      simp only [Pattern.Matches] at h
      split at h
      · rename_i hc
        have hlt := (List.getElem?_eq_some_iff.mp hc).1
        omega
      · omega
  | string t =>
      rcases h with ⟨rfl, ht⟩
      have hlen := ht.length_le
      rw [List.length_drop] at hlen
      omega
  | startOf | endOf =>
      rcases h with ⟨rfl, -⟩
      omega
  | qEnd =>
      simp only [Pattern.Matches] at h
      omega
  | skip =>
      rcases h with ⟨rfl, hlt⟩
      omega
  | empty =>
      simp only [Pattern.Matches] at h
      omega
  | seq p q =>
      rcases h with ⟨k, hp, hq⟩
      have hk := p.le_of_matches i k hi hp
      have hj := q.le_of_matches k j hk.2 hq
      omega
  | group p => exact p.le_of_matches i j hi h
  | braces ps => exact ps.le_of_matches i j hi h
  | star p => exact le_of_repeats (fun i j => p.le_of_matches i j) hi h
  | plus p => exact le_of_repeats (fun i j => p.le_of_matches i j) hi h.to_reflTransGen
  | greedyStar p => exact le_of_repeats (fun i j => p.le_of_matches i j) hi h
  | greedyPlus p => exact le_of_repeats (fun i j => p.le_of_matches i j) hi h.to_reflTransGen

/-- Matches are within the text. -/
theorem Alternatives.le_of_matches (ps : Alternatives) (i j : Nat) (hi : i ≤ s.length)
    (h : ps.Matches s i j) : i ≤ j ∧ j ≤ s.length := by
  cases ps with
  | last p => exact p.le_of_matches i j hi h
  | or p ps =>
      rcases h with h | h
      · exact p.le_of_matches i j hi h
      · exact ps.le_of_matches i j hi h

end

/-- Repetitions of matches are repetitions of steps. -/
theorem reaches_of_repeats {step : Int → Int → Prop} {i j : Nat}
    (hM : ∀ i j, i ≤ s.length → M i j → i ≤ j ∧ j ≤ s.length)
    (hstep : ∀ i j, i ≤ s.length → M i j → step (addr + i) (addr + j)) (hi : i ≤ s.length)
    (h : Relation.ReflTransGen M i j) : Relation.ReflTransGen step (addr + i) (addr + j) := by
  induction h with
  | refl => exact Relation.ReflTransGen.refl
  | tail hij hjk ih => exact ih.tail (hstep _ _ (le_of_repeats hM hi hij).2 hjk)

/-- Patterns without choices have at most one result. -/
theorem Pattern.length_results_le (p : Pattern) (hp : p.single = true) (startS endS a : Int) :
    (p.results mem startS endS a).length ≤ 1 := by
  induction p using Pattern.rec (motive_2 := fun _ => True) generalizing a with
  | charClass _ _ | char _ _ | optChar _ | string _ | startOf | endOf | qEnd =>
      simp only [Pattern.results]
      split <;> simp
  | skip | empty => simp [Pattern.results]
  | seq p q ihp ihq =>
      simp only [Pattern.single, Bool.and_eq_true] at hp
      have hone := ihp hp.1 a
      simp only [Pattern.results]
      cases hresults : p.results mem startS endS a with
      | nil => simp
      | cons b l =>
          cases l with
          | nil => simpa using ihq hp.2 b
          | cons c l => simp [hresults] at hone
  | group p ih => exact ih hp a
  | braces ps => cases hp
  | star p => cases hp
  | plus p => cases hp
  | greedyStar p => cases hp
  | greedyPlus p => cases hp
  | last p => trivial
  | or p ps => trivial

/-- Where a step has at most one result, the chain of a greedy loop contains all repetitions. -/
theorem mem_chainAll_of_repeats {f : Int → List Int} {i j : Nat} (hi : i ≤ s.length)
    (hM : ∀ i j, i ≤ s.length → M i j → i ≤ j ∧ j ≤ s.length) (hone : ∀ a, (f a).length ≤ 1)
    (hstep : ∀ i j, i ≤ s.length → M i j → addr + (j : Int) ∈ f (addr + i) ∧ addr + (i : Int) < addr + j)
    (h : Relation.ReflTransGen M i j) :
    addr + (j : Int) ∈ chainAll (within (addr + s.length) f) (remaining (addr + s.length)) (addr + i) := by
  apply (mem_chainAll (decreasing_within _ f) _).mpr
  · apply reaches_of_repeats hM _ hi h
    intro i j hi hij
    have hj := (hM i j hi hij).2
    exact mem_within.mpr ⟨(hstep i j hi hij).1, (hstep i j hi hij).2, by omega⟩
  · intro a
    exact (List.length_filter_le _ _).trans (hone a)

mutual

/-- All matches are results. -/
theorem Pattern.mem_results_of_matches (p : Pattern) (hproper : p.proper = true)
    (hp : p.unambiguous = true) (hs : Holds mem addr s) (hopt : mem (addr + s.length) ∉ p.optChars)
    (i j : Nat) (hi : i ≤ s.length) (h : p.Matches s i j) :
    addr + j ∈ p.results mem addr (addr + s.length) (addr + i) := by
  cases p with
  | charClass negated c =>
      rcases h with ⟨rfl, x, hx, hc⟩
      have hlt := (List.getElem?_eq_some_iff.mp hx).1
      rw [hs.get hlt, Option.some_inj] at hx
      simp [Pattern.results, hx, hc, Int.add_assoc]
  | char negated c =>
      rcases h with ⟨rfl, x, hx, hc⟩
      have hlt := (List.getElem?_eq_some_iff.mp hx).1
      rw [hs.get hlt, Option.some_inj] at hx
      simp only [Pattern.results, hx]
      rw [if_neg hc]
      simp [Int.add_assoc]
  | optChar c =>
      simp only [Pattern.Matches] at h
      by_cases hlt : i < s.length
      · simp only [hs.get hlt, Option.some_inj] at h
        simp only [Pattern.results]
        split at h
        · rename_i hc
          simp [hc, h, Int.add_assoc]
        · rename_i hc
          simp [hc, h]
      · have hlen : i = s.length := by omega
        have hne : mem (addr + i) ≠ c := by
          rw [hlen]
          simpa [Pattern.optChars] using hopt
        rw [List.getElem?_eq_none (by omega), if_neg (by simp)] at h
        simp [Pattern.results, hne, h]
  | string t =>
      rcases h with ⟨rfl, ht⟩
      have hlen := ht.length_le
      rw [List.length_drop] at hlen
      have hin : i + t.length ≤ s.length := by omega
      have htext := (hs.text_eq_iff hin).mpr ht
      rw [Pattern.results, if_pos ⟨htext, fun _ => by omega⟩]
      simp [Int.add_assoc]
  | startOf | endOf =>
      rcases h with ⟨rfl, rfl⟩
      simp [Pattern.results]
  | qEnd =>
      simp only [Pattern.Matches] at h
      have hle : ¬ addr + s.length < addr + i := by omega
      simp [Pattern.results, h]
      omega
  | skip =>
      rcases h with ⟨rfl, -⟩
      simp [Pattern.results, Int.add_assoc]
  | empty =>
      simp only [Pattern.Matches] at h
      simp [Pattern.results, h]
  | seq p q =>
      simp only [Pattern.proper, Pattern.unambiguous, Bool.and_eq_true] at hproper hp
      simp only [Pattern.optChars, List.mem_append, not_or] at hopt
      rcases h with ⟨k, hik, hkj⟩
      have hk := p.le_of_matches i k hi hik
      have hmem := p.mem_results_of_matches hproper.1 hp.1 hs hopt.1 i k hi hik
      have hmem' := q.mem_results_of_matches hproper.2 hp.2 hs hopt.2 k j hk.2 hkj
      exact List.mem_flatMap.mpr ⟨_, hmem, hmem'⟩
  | group p => exact p.mem_results_of_matches hproper hp hs hopt i j hi h
  | braces ps => exact ps.mem_results_of_matches hproper hp hs hopt i j hi h
  | star p =>
      simp only [Pattern.proper, Bool.and_eq_true] at hproper
      have hmatches : ∀ i j, i ≤ s.length → p.Matches s i j → i ≤ j ∧ j ≤ s.length :=
        fun i j => p.le_of_matches i j
      apply (mem_repeatAll (decreasing_within _ _)).mpr
      apply reaches_of_repeats hmatches _ hi h
      intro i j hi hij
      have hmem := p.mem_results_of_matches hproper.2 hp hs hopt i j hi hij
      have hj := (hmatches i j hi hij).2
      exact mem_within.mpr ⟨hmem, p.lt_of_mem_results hproper.1 _ _ hmem, by omega⟩
  | plus p =>
      simp only [Pattern.proper, Bool.and_eq_true] at hproper
      have hmatches : ∀ i j, i ≤ s.length → p.Matches s i j → i ≤ j ∧ j ≤ s.length :=
        fun i j => p.le_of_matches i j
      rcases Relation.TransGen.head'_iff.mp h with ⟨k, hik, hkj⟩
      have hmem := p.mem_results_of_matches hproper.2 hp hs hopt i k hi hik
      apply List.mem_flatMap.mpr ⟨addr + k, hmem, _⟩
      apply (mem_repeatAll (decreasing_inside _)).mpr
      apply reaches_of_repeats hmatches _ (hmatches i k hi hik).2 hkj
      intro i j hi hij
      have hmem := p.mem_results_of_matches hproper.2 hp hs hopt i j hi hij
      exact mem_inside.mpr ⟨hmem, p.lt_of_mem_results hproper.1 _ _ hmem, by omega⟩
  | greedyStar p =>
      simp only [Pattern.proper, Pattern.unambiguous, Bool.and_eq_true] at hproper hp
      apply mem_chainAll_of_repeats hi (fun i j => p.le_of_matches i j)
        (fun a => p.length_results_le hp.1 addr (addr + s.length) a) _ h
      intro i j hi hij
      have hmem := p.mem_results_of_matches hproper.2 hp.2 hs hopt i j hi hij
      exact ⟨hmem, p.lt_of_mem_results hproper.1 _ _ hmem⟩
  | greedyPlus p =>
      simp only [Pattern.proper, Pattern.unambiguous, Bool.and_eq_true] at hproper hp
      have hmatches : ∀ i j, i ≤ s.length → p.Matches s i j → i ≤ j ∧ j ≤ s.length :=
        fun i j => p.le_of_matches i j
      have hstep : ∀ i j, i ≤ s.length → p.Matches s i j →
          addr + (j : Int) ∈ p.results mem addr (addr + s.length) (addr + i) ∧ addr + i < addr + j := by
        intro i j hi hij
        have hmem := p.mem_results_of_matches hproper.2 hp.2 hs hopt i j hi hij
        exact ⟨hmem, p.lt_of_mem_results hproper.1 _ _ hmem⟩
      have hchain := mem_chainAll_of_repeats hi hmatches
        (fun a => p.length_results_le hp.1 addr (addr + s.length) a) hstep h.to_reflTransGen
      rcases Relation.TransGen.head'_iff.mp h with ⟨k, hik, hkj⟩
      have hlt := (hstep i k hi hik).2
      have hle := (le_of_repeats hmatches (hmatches i k hi hik).2 hkj).1
      rcases getLast_chainAll (decreasing_within (addr + s.length)
        fun b => p.results mem addr (addr + s.length) b) (addr + i) with ⟨l, hl⟩
      rw [hl, List.mem_append, List.mem_singleton] at hchain
      rw [Pattern.results, hl, List.dropLast_concat]
      rcases hchain with hchain | hchain
      · exact hchain
      · omega

/-- Each match of an alternative is a result. -/
theorem Alternatives.mem_results_of_matches (ps : Alternatives) (hproper : ps.proper = true)
    (hps : ps.unambiguous = true) (hs : Holds mem addr s)
    (hopt : mem (addr + s.length) ∉ ps.optChars) (i j : Nat) (hi : i ≤ s.length)
    (h : ps.Matches s i j) : addr + j ∈ ps.results mem addr (addr + s.length) (addr + i) := by
  cases ps with
  | last p => exact p.mem_results_of_matches hproper hps hs hopt i j hi h
  | or p ps =>
      simp only [Alternatives.proper, Alternatives.unambiguous, Bool.and_eq_true] at hproper hps
      simp only [Alternatives.optChars, List.mem_append, not_or] at hopt
      rw [Alternatives.results, List.mem_append]
      rcases h with h | h
      · exact Or.inl (p.mem_results_of_matches hproper.1 hps.1 hs hopt.1 i j hi h)
      · exact Or.inr (ps.mem_results_of_matches hproper.2 hps.2 hs hopt.2 i j hi h)

end

/-! ## Blocks -/

/-- What a pattern finds in a string in memory is a match. -/
theorem Pattern.matches_of_find (p : Pattern) (hs : Holds mem addr s) {b : Int}
    (h : p.find mem addr s.length = some b) : ∃ j : Nat, b = addr + j ∧ p.Matches s 0 j := by
  rcases p.mem_of_find_eq_some h with ⟨hmem, hin⟩
  have hresults := p.matches_of_mem_results hs 0 (Nat.zero_le _) b
  rw [Int.natCast_zero, Int.add_zero] at hresults
  exact hresults hmem hin

/-- A pattern finds something in a string if it matches at its start. -/
theorem Pattern.find_isSome_iff (p : Pattern) (hproper : p.proper = true) (hp : p.unambiguous = true)
    (hs : Holds mem addr s) (hopt : mem (addr + s.length) ∉ p.optChars) :
    (p.find mem addr s.length).isSome = true ↔ ∃ j, p.Matches s 0 j := by
  constructor
  · intro hfound
    rcases Option.isSome_iff_exists.mp hfound with ⟨b, hb⟩
    rcases p.matches_of_find hs hb with ⟨j, -, hj⟩
    exact ⟨j, hj⟩
  · rintro ⟨j, hj⟩
    have hin := (p.le_of_matches 0 j (Nat.zero_le _) hj).2
    have hmem := p.mem_results_of_matches hproper hp hs hopt 0 j (Nat.zero_le _) hj
    rw [Int.natCast_zero, Int.add_zero] at hmem
    exact List.find?_isSome.mpr ⟨addr + j, hmem, decide_eq_true (by omega)⟩

/-- A compiled block ends, and returns true if its pattern matches at the start of the string, whatever is
in memory behind the string; {lit}`last$` is then the end of a match. -/
theorem compileBlock_matches (p : Pattern) (hproper : p.proper = true) (hp : p.unambiguous = true)
    (s : State) (hleave : ∀ a ∈ s.leaveStack, a < s.here) :
    ∃ s', compileBlock p s = some s' ∧
      ∀ (mem : Int → Byte) (behind : List Instr) (addr : Int) (str : List Byte), 0 ≤ addr →
        Holds mem addr str → mem (addr + str.length) ∉ p.optChars →
          ∀ (st rs : List Int) (startS endS last : Int) (vars : Nat → Int),
            ∃ (found : Bool) (last' : Int) (vars' : Nat → Int),
              Reaches (step mem (s'.code ++ behind))
                ⟨s.here, str.length :: addr :: st, rs, startS, endS, last, vars⟩
                ⟨s'.here, flag found :: st, rs, addr, addr + str.length, last', vars'⟩ ∧
              (found = true ↔ ∃ j, p.Matches str 0 j) ∧
              (found = true → ∃ j : Nat, last' = addr + j ∧ p.Matches str 0 j) := by
  rcases s with ⟨code, cs, leaveStack, loops, v⟩
  refine ⟨_, compileBlock_eq p cs loops v hleave, ?_⟩
  intro mem behind addr str haddr hstr hopt st rs startS endS last vars
  rcases reaches_block mem p hproper code behind { v with vars := 0, varsmax := 0 } haddr
    str.length st rs startS endS last vars with ⟨last', vars', hreach, hlast⟩
  refine ⟨_, last', vars', hreach, p.find_isSome_iff hproper hp hstr hopt, ?_⟩
  intro hfound
  rcases Option.isSome_iff_exists.mp hfound with ⟨b, hb⟩
  rcases p.matches_of_find hstr hb with ⟨j, hj, hmatch⟩
  exact ⟨j, (hlast b hb).trans hj, hmatch⟩

/-- The block {lit}`(( \x7b++ \d ++\x7d ))` at the string "12" -/
theorem compileBlock_matches_digits :
    ∃ s', compileBlock (.greedyPlus (.charClass false digit)) ⟨[], [], [], [], 0, [], 0⟩ = some s' ∧
      ∃ (found : Bool) (last' : Int) (vars' : Nat → Int),
        Reaches (step (fun a => if a = 100 then 0x31 else 0x32) (s'.code ++ []))
          ⟨0, [2, 100], [], 0, 0, 0, fun _ => 0⟩ ⟨s'.here, [flag found], [], 100, 102, last', vars'⟩ ∧
        (found = true ↔ ∃ j, (Pattern.greedyPlus (.charClass false digit)).Matches [0x31, 0x32] 0 j) := by
  rcases compileBlock_matches (.greedyPlus (.charClass false digit)) rfl rfl ⟨[], [], [], [], 0, [], 0⟩
    (by simp) with ⟨s', hs', hruns⟩
  rcases hruns (fun a => if a = 100 then 0x31 else 0x32) [] 100 [0x31, 0x32] (by decide)
    (by unfold Holds; decide) (by decide) [] [] 0 0 0 fun _ => 0 with ⟨found, last', vars', hreach, hiff, -⟩
  exact ⟨s', hs', found, last', vars', hreach, hiff⟩

end Regexp
end Gforth
