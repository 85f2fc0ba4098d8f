import Gforth.Regexp.Language

/-!
# Loop bodies

A compiled block decides the language of its pattern if the bodies of its loops match no empty string.
Greedy loops do not look at the end of the string, and a body that matches an empty string runs forever.

Main results:

- Theorem {lit}`compileBlock_decides`: a block returns true if a prefix of the string is in the language.
- Theorem {lit}`compileBlock_not_ends`: a greedy loop around an empty string does not end.
-/

namespace Gforth
namespace Regexp

open Lib

/-! ## Bodies -/

/-- Is a pattern a sequence of character tests and strings? -/
def Pattern.tests : Pattern → Bool
  | .charClass _ _ => true
  | .char _ _ => true
  | .string _ => true
  | .seq p q => p.tests && q.tests
  | _ => false

/-- A pattern matches no empty string. -/
def Pattern.Consuming (p : Pattern) : Prop :=
  ∀ (s : List Byte) (i : Nat), ¬ p.Matches s i i

mutual

/-- The bodies of loops match no empty string, and those of greedy loops are sequences of tests.  There
are no optional characters. -/
def Pattern.Regular : Pattern → Prop
  | .optChar _ => False
  | .seq p q => p.Regular ∧ q.Regular
  | .group p => p.Regular
  | .braces ps => ps.Regular
  | .star p => p.Regular ∧ p.Consuming
  | .plus p => p.Regular ∧ p.Consuming
  | .greedyStar p => p.tests = true ∧ p.Consuming
  | .greedyPlus p => p.tests = true ∧ p.Consuming
  | _ => True

/-- The loops in alternatives -/
def Alternatives.Regular : Alternatives → Prop
  | .last p => p.Regular
  | .or p ps => p.Regular ∧ ps.Regular

end

mutual

/-- A pattern that need not go to a later position matches the empty string. -/
theorem Pattern.matches_nil (p : Pattern) (h : p.consumes = false) : p.Matches [] 0 0 := by
  cases p with
  | charClass negated c => cases h
  | char negated c => cases h
  | optChar c => simp [Pattern.Matches]
  | string t =>
      have ht : t = [] := by simpa [Pattern.consumes] using h
      simp [Pattern.Matches, ht]
  | startOf => exact ⟨rfl, rfl⟩
  | endOf => exact ⟨rfl, rfl⟩
  | qEnd => rfl
  | skip => cases h
  | empty => rfl
  | seq p q =>
      simp only [Pattern.consumes, Bool.or_eq_false_iff] at h
      exact ⟨0, p.matches_nil h.1, q.matches_nil h.2⟩
  | group p => exact p.matches_nil h
  | braces ps => exact ps.matches_nil h
  | star p => exact Relation.ReflTransGen.refl
  | plus p => exact Relation.TransGen.single (p.matches_nil h)
  | greedyStar p => exact Relation.ReflTransGen.refl
  | greedyPlus p => cases h

/-- One of some alternatives that need not go to a later position matches the empty string. -/
theorem Alternatives.matches_nil (ps : Alternatives) (h : ps.consumes = false) : ps.Matches [] 0 0 := by
  cases ps with
  | last p => exact p.matches_nil h
  | or p ps =>
      simp only [Alternatives.consumes, Bool.and_eq_false_iff] at h
      rcases h with h | h
      · exact Or.inl (p.matches_nil h)
      · exact Or.inr (ps.matches_nil h)

end

theorem Pattern.Consuming.consumes {p : Pattern} (h : p.Consuming) : p.consumes = true := by
  rw [← Bool.not_eq_false]
  intro hfalse
  exact h [] 0 (p.matches_nil hfalse)

/-- Sequences of tests have at most one result, no loops, and no optional characters. -/
theorem Pattern.tests_spec (p : Pattern) (h : p.tests = true) :
    p.single = true ∧ p.proper = true ∧ p.unambiguous = true ∧ p.optChars = [] := by
  induction p using Pattern.rec (motive_2 := fun _ => True) with
  | charClass negated c => exact ⟨rfl, rfl, rfl, rfl⟩
  | char negated c => exact ⟨rfl, rfl, rfl, rfl⟩
  | string t => exact ⟨rfl, rfl, rfl, rfl⟩
  | seq p q ihp ihq =>
      simp only [Pattern.tests, Bool.and_eq_true] at h
      have hp := ihp h.1
      have hq := ihq h.2
      simp [Pattern.single, Pattern.proper, Pattern.unambiguous, Pattern.optChars, hp, hq]
  | optChar c => cases h
  | startOf => cases h
  | endOf => cases h
  | qEnd => cases h
  | skip => cases h
  | empty => cases h
  | group p => cases h
  | braces ps => cases h
  | star p => cases h
  | plus p => cases h
  | greedyStar p => cases h
  | greedyPlus p => cases h
  | last p => trivial
  | or p ps => trivial

mutual

/-- The code finds all matches of such a pattern. -/
theorem Pattern.Regular.spec {p : Pattern} (h : p.Regular) :
    p.proper = true ∧ p.unambiguous = true ∧ p.optChars = [] := by
  cases p with
  | charClass negated c => exact ⟨rfl, rfl, rfl⟩
  | char negated c => exact ⟨rfl, rfl, rfl⟩
  | optChar c => exact h.elim
  | string t => exact ⟨rfl, rfl, rfl⟩
  | startOf => exact ⟨rfl, rfl, rfl⟩
  | endOf => exact ⟨rfl, rfl, rfl⟩
  | qEnd => exact ⟨rfl, rfl, rfl⟩
  | skip => exact ⟨rfl, rfl, rfl⟩
  | empty => exact ⟨rfl, rfl, rfl⟩
  | seq p q =>
      have hp := h.1.spec
      have hq := h.2.spec
      simp [Pattern.proper, Pattern.unambiguous, Pattern.optChars, hp, hq]
  | group p =>
      have hp : p.Regular := h
      exact hp.spec
  | braces ps =>
      have hps : ps.Regular := h
      exact hps.spec
  | star _ | plus _ =>
      have hp := h.1.spec
      simp [Pattern.proper, Pattern.unambiguous, Pattern.optChars, hp, h.2.consumes]
  | greedyStar p | greedyPlus p =>
      have hp := p.tests_spec h.1
      simp [Pattern.proper, Pattern.unambiguous, Pattern.optChars, hp, h.2.consumes]

/-- The code finds all matches of such alternatives. -/
theorem Alternatives.Regular.spec {ps : Alternatives} (h : ps.Regular) :
    ps.proper = true ∧ ps.unambiguous = true ∧ ps.optChars = [] := by
  cases ps with
  | last p =>
      have hp : p.Regular := h
      exact hp.spec
  | or p ps =>
      have hp := h.1.spec
      have hps := h.2.spec
      simp [Alternatives.proper, Alternatives.unambiguous, Alternatives.optChars, hp, hps]

end

/-! ## Blocks -/

/-- A compiled block ends with a flag in place of the string, and with the return stack as before; the
flag is true if the pattern matches a prefix of the string.  What is in memory behind the string does
not matter. -/
theorem compileBlock_decides (p : Pattern) (hp : p.Regular) (s : State)
    (hleave : ∀ a ∈ s.leaveStack, a < s.here) :
    ∃ s', compileBlock p s = some s' ∧
      ∀ (mem : Int → Byte) (behind : List Instr) (addr : Int) (str : List Byte), 0 ≤ addr →
        Holds mem addr str →
          ∀ (st rs : List Int) (startS endS last : Int) (vars : Nat → Int),
            ∃ (found : Bool) (last' : Int) (vars' : Nat → Int),
              Reaches (step mem (s'.code ++ behind))
                ⟨s.here, str.length :: addr :: st, rs, startS, endS, last, vars⟩
                ⟨s'.here, flag found :: st, rs, addr, addr + str.length, last', vars'⟩ ∧
              (found = true ↔ ∃ j, p.Matches str 0 j) := by
  rcases hp.spec with ⟨hproper, hunambiguous, hopt⟩
  rcases s with ⟨code, cs, leaveStack, loops, v⟩
  refine ⟨_, compileBlock_eq p cs loops v hleave, ?_⟩
  intro mem behind addr str haddr hstr st rs startS endS last vars
  rcases reaches_block mem p hproper code behind { v with vars := 0, varsmax := 0 } haddr
    str.length st rs startS endS last vars with ⟨last', vars', hreach, -⟩
  have hfind := p.find_isSome_iff hproper hunambiguous hstr (by simp [hopt])
  exact ⟨_, last', vars', hreach, hfind⟩

/-- The block {lit}`(( \x7b* -\d *\x7d \x7b\x7b \x7b++ \d ++\x7d || x \x7d\x7d ))`, where x is looked for,
matches the string "ax". -/
theorem compileBlock_decides_ax :
    ∃ s', compileBlock (.seq (.star (.charClass true digit))
        (.braces (.or (.greedyPlus (.charClass false digit)) (.last (.char false 0x78)))))
        ⟨[], [], [], [], 0, [], 0⟩ = some s' ∧
      ∃ last' vars', Reaches (step (fun a => if a = 100 then 0x61 else 0x78) (s'.code ++ []))
        ⟨0, [2, 100], [], 0, 0, 0, fun _ => 0⟩ ⟨s'.here, [-1], [], 100, 102, last', vars'⟩ := by
  have hconsuming : ∀ negated, (Pattern.charClass negated digit).Consuming := by
    intro negated s i h
    exact absurd h.1 (by omega)
  rcases compileBlock_decides (.seq (.star (.charClass true digit))
    (.braces (.or (.greedyPlus (.charClass false digit)) (.last (.char false 0x78)))))
    ⟨⟨trivial, hconsuming true⟩, ⟨rfl, hconsuming false⟩, trivial⟩ ⟨[], [], [], [], 0, [], 0⟩
    (by simp) with ⟨s', hs', hruns⟩
  rcases hruns (fun a => if a = 100 then 0x61 else 0x78) [] 100 [0x61, 0x78] (by decide)
    (by unfold Holds; decide) [] [] 0 0 0 fun _ => 0 with ⟨found, last', vars', hreach, hfound⟩
  have htrue : found = true := by
    apply hfound.mpr
    exact ⟨2, 1, Relation.ReflTransGen.single ⟨rfl, 0x61, rfl, by decide⟩,
      Or.inr ⟨rfl, 0x78, rfl, by decide⟩⟩
  rw [htrue] at hreach
  exact ⟨s', hs', last', vars', hreach⟩

/-! ### A body that matches an empty string -/

/-- The machine in a greedy loop around an empty string at the start, and at the start of each round -/
def emptyRounds : Nat → Machine
  | 0 => ⟨0, [0, 100], [], 0, 0, 100, fun _ => 0⟩
  | n + 1 => ⟨5, List.replicate (n + 1) 100, [n, 1], 100, 100, 100, fun _ => 0⟩

/-- The block {lit}`(( \x7b** =" " **\x7d ))` does not end, although its pattern matches the empty string. -/
theorem compileBlock_not_ends :
    (Pattern.string []).tests = true ∧ (∃ j, (Pattern.greedyStar (.string [])).Matches [] 0 j) ∧
    ∃ s', compileBlock (.greedyStar (.string [])) ⟨[], [], [], [], 0, [], 0⟩ = some s' ∧
      Holds (fun _ => 0x20) 100 [] ∧
      ∀ m, Reaches (step (fun _ => 0x20) (s'.code ++ [])) ⟨0, [0, 100], [], 0, 0, 100, fun _ => 0⟩ m →
        m.ip ≠ s'.here := by
  refine ⟨rfl, ⟨0, Relation.ReflTransGen.refl⟩, _, compileBlock_eq _ [] [] _ (by simp), rfl, ?_⟩
  intro m hreach hend
  refine not_reaches_of_stages emptyRounds ?_ ?_ hreach
  · intro n
    cases n with
    | zero =>
        refine ⟨_, rfl, ?_⟩
        iterate 3 refine Reaches.head rfl ?_
        exact Reaches.refl _
    | succ n =>
        -- the body finds the empty string, leaves the same address and returns true; the loop counts it
        refine ⟨_, rfl, ?_⟩
        iterate 17 refine Reaches.head rfl ?_
        exact Reaches.refl _
  · simp [step, hend, State.here]

end Regexp
end Gforth
