import Gforth.Regexp.Deciding

/-!
# Compiled patterns decide about positions

Where the code behind a pattern decides about the results of the pattern, the code of the pattern
  decides:
it takes the first result for which the rest succeeds.

Main results:

- Theorem {lit}`Pattern.runs`: the code of a pattern takes the first result for which the rest succeeds.
-/

namespace Gforth
namespace Regexp

open Lib State

variable {mem : Int → Byte} {code : List Instr} {startS endS : Int}

/-! ## Comparisons -/

theorem uLess_eq {x y : Int} (hx : 0 ≤ x) (hy : 0 ≤ y) : uLess x y = decide (x < y) := by
  simp only [uLess, hx, if_true]
  rw [decide_eq_decide]
  omega

/-- {lit}`compare` tells whether texts are equal. -/
theorem compare_eq_zero (s t : List Byte) : compare s t = 0 ↔ s = t := by
  induction s generalizing t with
  | nil => cases t <;> simp [compare]
  | cons c s ih =>
      cases t with
      | nil => simp [compare]
      | cons d t =>
          by_cases hcd : c = d
          · simp [compare, hcd, ih]
          · by_cases hlt : c < d <;> simp [compare, hcd, hlt]

@[simp]
theorem length_text (a : Int) (u : Nat) : (text mem a u).length = u := by
  simp [text]

/-- A string is compared with the rest of the other string, if it is that long. -/
theorem compare_rest (a : Int) (s : List Byte) :
    compare (text mem a (if uLess (endS - a) s.length then endS - a else s.length).toNat) s = 0 ↔
      text mem a s.length = s ∧ (a ≤ endS → a + s.length ≤ endS) := by
  rw [compare_eq_zero]
  by_cases hle : a ≤ endS
  · rw [uLess_eq (by omega) (by omega)]
    by_cases hlt : endS - a < s.length
    · simp only [hlt, decide_true, if_true, hle, true_imp_iff]
      constructor
      · intro h
        have hlength := congrArg List.length h
        rw [length_text] at hlength
        omega
      · rintro ⟨-, h⟩
        omega
    · have hin : a + s.length ≤ endS := by omega
      simp [hlt, hin]
  · have huLess : uLess (endS - a) s.length = false := by
      simp only [uLess]
      rw [if_neg (by omega)]
      simp
    simp [huLess, hle]

/-! ## Results -/

/-- A search through lists of results -/
theorem findSome?_flatMap {α β γ : Type*} (l : List α) (g : α → List β) (R : β → Option γ) :
    (l.flatMap g).findSome? R = l.findSome? fun a => (g a).findSome? R := by
  induction l with
  | nil => rfl
  | cons a l ih =>
      rw [List.flatMap_cons, List.findSome?_append, ih, List.findSome?_cons]
      cases (g a).findSome? R <;> rfl

theorem findSome?_cons_or {α β : Type*} (a : α) (l : List α) (R : α → Option β) :
    (a :: l).findSome? R = (R a).or (l.findSome? R) := by
  rw [List.findSome?_cons]
  cases R a <;> rfl

/-- A search through some elements -/
theorem findSome?_filter {α β : Type*} (q : α → Bool) (l : List α) (R : α → Option β) :
    (l.filter q).findSome? R = l.findSome? fun a => if q a then R a else none := by
  induction l with
  | nil => rfl
  | cons a l ih =>
      cases hq : q a with
      | true => simp [List.findSome?_cons, hq, ih]
      | false => simp [hq, ih]

/-- The repetitions of a step in the string -/
theorem findSome?_within {f : Int → List Int} (hf : ∀ a, ∀ b ∈ f a, a < b) (a : Int)
  (g : Int → List Int)
    (R : Int → Option Int) :
    ((within endS f a).flatMap g).findSome? R =
      (f a).findSome? fun b => if b ≤ endS then (g b).findSome? R else none := by
  rw [findSome?_flatMap, within, findSome?_filter]
  have hall := hf a
  generalize f a = l at hall
  induction l with
  | nil => rfl
  | cons b l ih =>
      have hb := hall b List.mem_cons_self
      rw [findSome?_cons_or, findSome?_cons_or, ih fun c hc => hall c (List.mem_cons_of_mem b hc)]
      simp [hb]

/-- The first result in the string -/
theorem head?_within {f : Int → List Int} (hf : ∀ a, ∀ b ∈ f a, a < b) (a : Int) :
    (within endS f a).head? = (f a).findSome? (Option.guard fun b => b ≤ endS) := by
  have hfilter : within endS f a = (f a).filter fun b => b ≤ endS := by
    apply List.filter_congr
    intro b hb
    simp [hf a b hb]
  rw [hfilter, List.head?_filter, List.findSome?_guard]

/-- The repetitions of a step from a position in the string -/
theorem findSome?_inside {f : Int → List Int} (hf : ∀ a, ∀ b ∈ f a, a < b) (a : Int)
  (g : Int → List Int)
    (R : Int → Option Int) :
    ((inside endS f a).flatMap g).findSome? R =
      if a ≤ endS then (f a).findSome? fun b => (g b).findSome? R else none := by
  rw [findSome?_flatMap]
  by_cases hle : a ≤ endS
  · have hall : inside endS f a = f a := by
      apply List.filter_eq_self.mpr
      intro b hb
      simp [hf a b hb, hle]
    rw [hall, if_pos hle]
  · simp [inside, hle]

/-! ## Ends -/

variable {addr target : Nat} {result : Option Int} {a : Int}

/-- The end of a block returns whether the position is in the string. -/
theorem runsAt_blockEnd (h : CodeAt code addr blockEnd) (hend : 0 ≤ endS) (ha : 0 ≤ a) :
    RunsAt mem code startS endS addr (Option.guard (fun b => b ≤ endS) a) a := by
  intro st ret rs last vars
  refine ⟨a, vars, ?_, by simp [Option.guard]⟩
  have hlast : Reaches (step mem code) ⟨addr, a :: st, ret :: rs, startS, endS, last, vars⟩ _ :=
    reaches_instr h rfl
  apply hlast.trans
  apply reaches_instr h.tail
  have hflag : (!decide (endS < a)) = (Option.guard (fun b => decide (b ≤ endS)) a).isSome := by
    by_cases hle : a ≤ endS
    · simp [Option.guard, hle]
    · simp [Option.guard, hle, not_le.mp hle]
  simp [Instr.exec, uLess_eq hend ha, hflag]

/-- {lit}`dup end$ u> UNTIL` with the end of the block -/
theorem runsAt_until (h : CodeAt code addr ([.dup, .endS, .uGreater, .qBranch target] ++ fail))
    (hend : 0 ≤ endS) (ha : 0 ≤ a)
    (hrest : a ≤ endS → RunsAt mem code startS endS target result a) :
    RunsAt mem code startS endS addr (if a ≤ endS then result else none) a := by
  intro st ret rs last vars
  have htest : runLine mem [.dup, .endS, .uGreater] ⟨addr, a :: st, ret :: rs, startS, endS, last,
    vars⟩ =
      some ⟨addr + 3, flag (decide (endS < a)) :: a :: st, ret :: rs, startS, endS, last, vars⟩ := by
    simp [runLine, Instr.exec, uLess_eq hend ha]
  have hline := (reaches_line (CodeAt.left (l := [.dup, .endS, .uGreater]) h) htest).trans
    (reaches_instr h.tail.tail.tail rfl)
  by_cases hle : a ≤ endS
  · rcases hrest hle st ret rs last vars with ⟨last', vars', hreach, hlast⟩
    refine ⟨last', vars', hline.trans ?_, by simpa [hle] using hlast⟩
    simpa [hle, not_lt.mpr hle, flag] using hreach
  · have hblock := CodeAt.right (l := [Instr.dup, .endS, .uGreater, .qBranch target]) h
    rcases runsAt_fail hblock a st ret rs last vars with ⟨last', vars', hreach, hlast⟩
    refine ⟨last', vars', hline.trans ?_, by simp [hle]⟩
    simpa [hle, not_le.mp hle, flag] using hreach

/-! ## Loops -/

variable (mem code startS endS) in
/-- The code of a loop body decides about the results of a step. -/
def BodyRuns (here stop : Nat) (f : Int → List Int) : Prop :=
  ∀ a, 0 ≤ a → ∀ R : Int → Option Int, (∀ b ∈ f a, RunsAt mem code startS endS stop (R b) b) →
    RunsAt mem code startS endS here ((f a).findSome? R) a

section Loops

variable {here called size : Nat} {f : Int → List Int} {R : Int → Option Int}

/-- The code of a repetition tries the greatest number first. -/
theorem runsAt_star (hend : 0 ≤ endS) (hf : ∀ a, ∀ b ∈ f a, a < b)
    (htry : CodeAt code here (tryCode called (here + 6)))
    (hbody : BodyRuns mem code startS endS (here + 6) (here + 6 + size) f)
    (huntil : CodeAt code (here + 6 + size) ([.dup, .endS, .uGreater, .qBranch here] ++ fail))
      (ha : 0 ≤ a)
    (hrest : ∀ b ∈ repeatAll (within endS f) (remaining endS) a,
      RunsAt mem code startS endS called (R b) b) :
    RunsAt mem code startS endS here
      ((repeatAll (within endS f) (remaining endS) a).findSome? R) a := by
  generalize hn : remaining endS a = n
  induction n using Nat.strongRecOn generalizing a with
  | _ n ih =>
      rw [repeatAll_eq (decreasing_within _ f)] at hrest ⊢
      rw [findSome?_cons_or, findSome?_within hf]
      apply runsAt_try htry (hrest a List.mem_cons_self)
      intro _
      apply hbody a ha
      intro b hb
      have hlt := hf a b hb
      apply runsAt_until huntil hend (by omega)
      intro hle
      have hmem : b ∈ within endS f a := mem_within.mpr ⟨hb, hlt, hle⟩
      have hless := decreasing_within _ f a b hmem
      apply ih (remaining endS b) (by omega) (by omega) _ rfl
      intro c hc
      exact hrest c (List.mem_cons_of_mem a (List.mem_flatMap.mpr ⟨b, hmem, hc⟩))

/-- The code of a repetition with one match at least -/
theorem runsAt_plus (hend : 0 ≤ endS) (hf : ∀ a, ∀ b ∈ f a, a < b)
    (hbody : BodyRuns mem code startS endS here (here + size) f)
    (htry : CodeAt code (here + size) (tryCode called (here + size + 9)))
    (huntil : CodeAt code (here + size + 9) ([.dup, .endS, .uGreater, .qBranch here] ++ fail))
    (ha : 0 ≤ a)
    (hrest : ∀ b ∈ (f a).flatMap (repeatAll (inside endS f) (remaining endS)),
      RunsAt mem code startS endS called (R b) b) :
    RunsAt mem code startS endS here
      (((f a).flatMap (repeatAll (inside endS f) (remaining endS))).findSome? R) a := by
  have hloop : ∀ b, 0 ≤ b → (∀ c ∈ repeatAll (inside endS f) (remaining endS) b,
      RunsAt mem code startS endS called (R c) c) →
        RunsAt mem code startS endS (here + size)
          ((repeatAll (inside endS f) (remaining endS) b).findSome? R) b := by
    intro b
    generalize hn : remaining endS b = n
    induction n using Nat.strongRecOn generalizing b with
    | _ n ih =>
        intro hb hrest
        rw [repeatAll_eq (decreasing_inside f)] at hrest ⊢
        rw [findSome?_cons_or, findSome?_inside hf]
        apply runsAt_try htry (hrest b List.mem_cons_self)
        intro _
        apply runsAt_until huntil hend hb
        intro hle
        apply hbody b hb
        intro c hc
        have hlt := hf b c hc
        have hmem : c ∈ inside endS f b := mem_inside.mpr ⟨hc, hlt, hle⟩
        have hless := decreasing_inside f b c hmem
        apply ih (remaining endS c) (by omega) c rfl (by omega)
        intro d hd
        exact hrest d (List.mem_cons_of_mem b (List.mem_flatMap.mpr ⟨c, hmem, hd⟩))
  rw [findSome?_flatMap]
  apply hbody a ha
  intro b hb
  have hlt := hf a b hb
  apply hloop b (by omega)
  intro c hc
  exact hrest c (List.mem_flatMap.mpr ⟨b, hb, hc⟩)

/-- The body of a greedy loop decides about its first result. -/
theorem runsAt_body (hend : 0 ≤ endS) (hf : ∀ a, ∀ b ∈ f a, a < b)
    (hbody : BodyRuns mem code startS endS here (here + size) f)
    (hblock : CodeAt code (here + size) blockEnd) (a : Int) (ha : 0 ≤ a) :
    RunsAt mem code startS endS here (within endS f a).head? a := by
  rw [head?_within hf]
  apply hbody a ha
  intro b hb
  have hlt := hf a b hb
  exact runsAt_blockEnd hblock hend (by omega)

/-- The code of a greedy repetition -/
theorem runsAt_greedyStar (hend : 0 ≤ endS) (hf : ∀ a, ∀ b ∈ f a, a < b)
    (hscan : CodeAt code here (scanCode here (here + 12) (here + size + 17)))
    (hbody : BodyRuns mem code startS endS (here + 12) (here + 12 + size) f)
    (hblock : CodeAt code (here + 12 + size) blockEnd)
    (hstart : CodeAt code (here + size + 17) [.onePlus, .lit (flag false)])
    (hretry : CodeAt code (here + size + 19) (retryCode (here + size + 19) called [.oneMinus]))
    (hfail : CodeAt code (here + size + 32) [.lit (flag false), .semis]) (ha : 0 ≤ a)
    (hrest : ∀ b ∈ chainAll (within endS f) (remaining endS) a,
      RunsAt mem code startS endS called (R b) b) :
    RunsAt mem code startS endS here
      ((chainAll (within endS f) (remaining endS) a).findSome? R) a := by
  intro st ret rs last vars
  rcases reaches_scan hscan (runsAt_body hend hf hbody hblock) ha st (ret :: rs) last vars with
    ⟨last', vars', hreach⟩
  generalize chainAll (within endS f) (remaining endS) a = saved at *
  have hadjust : ∀ (ip n : Nat) (st rs : List Int) (last : Int) (vars : Nat → Int),
      runLine mem [.oneMinus] ⟨ip, ((n : Int) + 1) :: st, rs, startS, endS, last, vars⟩ =
        some ⟨ip + 1, (n + ([] : List Int).length : Nat) :: st, rs, startS, endS, last, vars⟩ := by
    simp [runLine, Instr.exec]
  rcases reaches_uPlusDo hretry hadjust saved hrest st ret rs last' vars' with
    ⟨last'', vars'', hlast, hreach'⟩
  have hline : runLine mem [.onePlus, .lit (flag false)] ⟨here + size + 17,
      (saved.length - 1 : Int) :: (saved ++ st), ret :: rs, startS, endS, last', vars'⟩ =
        some ⟨here + size + 19, 0 :: (saved.length : Int) :: (saved ++ st), ret :: rs, startS, endS,
          last', vars'⟩ := by
    simp [runLine, Instr.exec, flag]
  have hall := (hreach.trans (reaches_line hstart hline)).trans hreach'
  refine ⟨last'', vars'', hall.trans ?_, hlast⟩
  cases hresult : saved.findSome? R with
  | some c => exact Reaches.refl _
  | none =>
      have hline' : runLine mem [.lit (flag false)] ⟨here + size + 32, st, ret :: rs, startS, endS,
          last'', vars''⟩ =
            some ⟨here + size + 33, flag false :: st, ret :: rs, startS, endS, last'', vars''⟩ := by
        simp [runLine, Instr.exec]
      exact (reaches_line (CodeAt.left (l := [.lit (flag false)]) hfail) hline').trans
        (reaches_instr hfail.tail rfl)

/-- The code of a greedy repetition with one match at least -/
theorem runsAt_greedyPlus (hend : 0 ≤ endS) (hf : ∀ a, ∀ b ∈ f a, a < b)
    (hscan : CodeAt code here (scanCode here (here + 12) (here + size + 17)))
    (hbody : BodyRuns mem code startS endS (here + 12) (here + 12 + size) f)
    (hblock : CodeAt code (here + 12 + size) blockEnd)
    (hstart : CodeAt code (here + size + 17) [.lit (flag false)])
    (hretry : CodeAt code (here + size + 18) (retryCode (here + size + 18) called []))
    (hfail : CodeAt code (here + size + 30) fail) (ha : 0 ≤ a)
    (hrest : ∀ b ∈ (chainAll (within endS f) (remaining endS) a).dropLast,
      RunsAt mem code startS endS called (R b) b) :
    RunsAt mem code startS endS here
      ((chainAll (within endS f) (remaining endS) a).dropLast.findSome? R) a := by
  intro st ret rs last vars
  rcases reaches_scan hscan (runsAt_body hend hf hbody hblock) ha st (ret :: rs) last vars with
    ⟨last', vars', hreach⟩
  rcases getLast_chainAll (decreasing_within endS f) a with ⟨saved, hsaved⟩
  rw [hsaved] at hreach hrest ⊢
  rw [List.dropLast_concat] at hrest ⊢
  have hadjust : ∀ (ip n : Nat) (st rs : List Int) (last : Int) (vars : Nat → Int),
      runLine mem [] ⟨ip, ((n : Int) + 1) :: st, rs, startS, endS, last, vars⟩ =
        some ⟨ip, (n + [a].length : Nat) :: st, rs, startS, endS, last, vars⟩ := by
    simp [runLine]
  rcases reaches_uPlusDo hretry hadjust saved hrest st ret rs last' vars' with
    ⟨last'', vars'', hlast, hreach'⟩
  have hline : runLine mem [.lit (flag false)] ⟨here + size + 17,
      ((saved ++ [a]).length - 1 : Int) :: (saved ++ [a] ++ st), ret :: rs, startS, endS, last',
        vars'⟩ =
        some ⟨here + size + 18, 0 :: (saved.length : Int) :: (saved ++ ([a] ++ st)), ret :: rs, startS,
          endS, last', vars'⟩ := by
    simp [runLine, Instr.exec, flag]
  have hall := (hreach.trans (reaches_line hstart hline)).trans hreach'
  cases hresult : saved.findSome? R with
  | some c =>
      rw [hresult] at hall hlast
      exact ⟨last'', vars'', hall, hlast⟩
  | none =>
      rw [hresult] at hall
      rcases runsAt_fail hfail a st ret rs last'' vars'' with ⟨last₃, vars₃, hreach₃, hlast₃⟩
      exact ⟨last₃, vars₃, hall.trans hreach₃, hlast₃⟩

end Loops

/-! ## Tests -/

/-- A test that passes at most one position on -/
theorem runsAt_test {fail' : Nat} {l : List Instr} {x a' : Int} {p : Prop} [Decidable p]
    {R : Int → Option Int} (h : CodeAt code addr (l ++ qLeaveCode fail'))
      (hfail : CodeAt code fail' fail)
    (hrun : ∀ st rs last vars,
      runLine mem l ⟨addr, a :: st, rs, startS, endS, last, vars⟩ =
        some ⟨addr + l.length, x :: a' :: st, rs, startS, endS, last, vars⟩)
    (hx : x ≠ 0 ↔ p)
    (hrest : ∀ b ∈ (if p then [] else [a']),
      RunsAt mem code startS endS (addr + (l.length + 2)) (R b) b) :
    RunsAt mem code startS endS addr ((if p then [] else [a']).findSome? R) a := by
  have hleave : RunsAt mem code startS endS addr (if x = 0 then R a' else none) a := by
    apply runsAt_leave h hfail hrun
    intro hzero
    have hp : ¬ p := fun hp => hx.mpr hp hzero
    exact hrest a' (by simp [hp])
  by_cases hp : p
  · simpa [hp, hx.mpr hp] using hleave
  · have hzero : x = 0 := not_not.mp fun hne => hp (hx.mp hne)
    simpa [hp, hzero] using hleave

theorem toNat_inj_int {c d : Byte} : (c.toNat : Int) = d.toNat ↔ c = d := by
  rw [Int.natCast_inj, BitVec.toNat_inj]

theorem flag_ne_zero (b : Bool) : flag b ≠ 0 ↔ b = true := by
  cases b <;> simp [flag]

/-! ## Patterns -/

mutual

/-- The code of a pattern takes the first result for which the rest succeeds. -/
theorem Pattern.runs (p : Pattern) (hp : p.proper = true) (here fail' : Nat) (v : VarState)
    (hcode : CodeAt code here (p.code here fail' v)) (hfail : CodeAt code fail' fail)
    (hstart : 0 ≤ startS) (hend : 0 ≤ endS) (a : Int) (ha : 0 ≤ a) (R : Int → Option Int)
    (hrest : ∀ b ∈ p.results mem startS endS a,
      RunsAt mem code startS endS (here + p.size) (R b) b) :
    RunsAt mem code startS endS here ((p.results mem startS endS a).findSome? R) a := by
  cases p with
  | charClass negated c =>
      cases negated with
      | false =>
          refine runsAt_test (l := [.charQ c, .zeroEquals])
            (x := flag ((if c (mem a) then 1 else 0) = (0 : Int))) hcode hfail ?_ ?_ hrest
          · simp [runLine, Instr.exec]
          · rw [flag_ne_zero]
            cases c (mem a) <;> simp
      | true =>
          refine runsAt_test (l := [.charQ c]) (x := if c (mem a) then 1 else 0) hcode hfail ?_ ?_ hrest
          · simp [runLine, Instr.exec]
          · cases c (mem a) <;> simp
  | char negated c =>
      cases negated with
      | false =>
          refine runsAt_test (l := [.count, .lit c.toNat, .notEquals])
            (x := flag (((mem a).toNat : Int) ≠ c.toNat)) hcode hfail ?_ ?_ hrest
          · simp [runLine, Instr.exec]
          · rw [flag_ne_zero, decide_eq_true_iff, ne_eq, toNat_inj_int]
            simp
      | true =>
          refine runsAt_test (l := [.count, .lit c.toNat, .equals])
            (x := flag (((mem a).toNat : Int) = c.toNat)) hcode hfail ?_ ?_ hrest
          · simp [runLine, Instr.exec]
          · rw [flag_ne_zero, decide_eq_true_iff, toNat_inj_int]
            simp
  | optChar c =>
      by_cases hc : mem a = c
      · have hline : RunsAt mem code startS endS here (R (a + 1)) a :=
          runsAt_line (l := [.count, .lit c.toNat, .notEquals, .plus]) hcode
            (fun st rs last vars => ⟨vars, by simp [runLine, Instr.exec, flag, hc]⟩)
            (hrest (a + 1) (by simp [Pattern.results, hc]))
        simpa [Pattern.results, hc] using hline
      · have hline : RunsAt mem code startS endS here (R a) a :=
          runsAt_line (l := [.count, .lit c.toNat, .notEquals, .plus]) hcode
            (fun st rs last vars => ⟨vars, by
              simp [runLine, Instr.exec, flag, BitVec.toNat_inj, hc]⟩)
            (hrest a (by simp [Pattern.results, hc]))
        simpa [Pattern.results, hc] using hline
  | string s =>
      have hleave := CodeAt.left (l := [.restS, .lit s.length, .umin, .compareLit s] ++ qLeaveCode fail')
        (r := [.lit s.length, .plus]) hcode
      have hplus := CodeAt.right (l := [.restS, .lit s.length, .umin, .compareLit s] ++ qLeaveCode fail')
        (r := [.lit s.length, .plus]) hcode
      have hbehind : compare (text mem a (if uLess (endS - a) s.length then endS - a else
        s.length).toNat)
          s = 0 → RunsAt mem code startS endS (here + 6) (R (a + s.length)) a := by
        intro hzero
        have hmem : a + (s.length : Int) ∈ (Pattern.string s).results mem startS endS a := by
          rw [Pattern.results, if_pos ((compare_rest a s).mp hzero)]
          exact List.mem_cons_self
        have hline := hrest _ hmem
        exact runsAt_line hplus (fun st rs last vars => ⟨vars, by simp [runLine, Instr.exec]⟩)
          hline
      have hline : ∀ (st rs : List Int) (last : Int) (vars : Nat → Int),
          runLine mem [.restS, .lit s.length, .umin, .compareLit s]
            ⟨here, a :: st, rs, startS, endS, last, vars⟩ =
              some ⟨here + 4, compare (text mem a (if uLess (endS - a) s.length then endS - a
                else s.length).toNat) s :: a :: st, rs, startS, endS, last, vars⟩ := by
        simp [runLine, Instr.exec]
      have hruns := runsAt_leave hleave hfail hline hbehind
      simp only [compare_rest] at hruns
      simp only [Pattern.results]
      by_cases hin : text mem a s.length = s ∧ (a ≤ endS → a + s.length ≤ endS)
      · rw [if_pos hin] at hruns ⊢
        simpa using hruns
      · rw [if_neg hin] at hruns ⊢
        exact hruns
  | startOf =>
      refine runsAt_test (l := [.startRexQ]) (x := flag (uLess startS a)) hcode hfail ?_ ?_ hrest
      · simp [runLine, Instr.exec]
      · rw [flag_ne_zero, uLess_eq hstart ha, decide_eq_true_iff]
  | endOf =>
      refine runsAt_test (l := [.endRexQ]) (x := flag (uLess a endS)) hcode hfail ?_ ?_ hrest
      · simp [runLine, Instr.exec]
      · rw [flag_ne_zero, uLess_eq ha hend, decide_eq_true_iff]
  | qEnd =>
      refine runsAt_test (l := [.dup, .endS, .uGreater]) (x := flag (uLess endS a)) hcode hfail ?_ ?_
        hrest
      · simp [runLine, Instr.exec]
      · rw [flag_ne_zero, uLess_eq hend ha, decide_eq_true_iff]
  | skip =>
      have hline : RunsAt mem code startS endS here (R (a + 1)) a :=
        runsAt_line (l := [.onePlus]) hcode
          (fun st rs last vars => ⟨vars, by simp [runLine, Instr.exec]⟩)
          (hrest (a + 1) List.mem_cons_self)
      simpa [Pattern.results] using hline
  | empty => simpa [Pattern.results, Pattern.size] using hrest a List.mem_cons_self
  | seq p q =>
      simp only [Pattern.proper, Bool.and_eq_true] at hp
      simp only [Pattern.code, codeAt_append_iff, p.length_code] at hcode
      simp only [Pattern.results, findSome?_flatMap]
      apply p.runs hp.1 here fail' v hcode.1 hfail hstart hend a ha
      intro b hb
      have hle := p.le_of_mem_results a b hb
      apply q.runs hp.2 (here + p.size) fail' (p.after v) hcode.2 hfail hstart hend b (ha.trans hle)
      intro c hc
      rw [Nat.add_assoc]
      exact hrest c (List.mem_flatMap.mpr ⟨b, hb, hc⟩)
  | group p =>
      simp only [Pattern.code, List.append_assoc, codeAt_append_iff, List.length_cons, List.length_nil,
        p.length_code, Nat.reduceAdd] at hcode
      rcases hcode with ⟨hopen, hbody, hclose⟩
      have hbehind : here + 2 + p.size + 2 = here + (p.size + 4) := by omega
      have hstore : ∀ (n ip : Nat) (b : Int) (st rs : List Int) (last : Int) (vars : Nat → Int), ∃
        vars',
          runLine mem [.dup, .storeVar n] ⟨ip, b :: st, rs, startS, endS, last, vars⟩ =
            some ⟨ip + 2, b :: st, rs, startS, endS, last, vars'⟩ := by
        intro n ip b st rs last vars
        simp [runLine, Instr.exec]
      apply runsAt_line hopen (hstore _ here a)
      apply p.runs hp (here + 2) fail' v.open hbody hfail hstart hend a ha
      intro b hb
      apply runsAt_line hclose (hstore _ _ b)
      rw [List.length_cons, List.length_singleton, hbehind]
      exact hrest b hb
  | braces ps =>
      exact ps.runs hp here fail' (here + ps.size) v.vars v hcode hfail hstart hend a ha R hrest
  | star p =>
      simp only [Pattern.proper, Bool.and_eq_true] at hp
      simp only [Pattern.code, List.append_assoc, codeAt_append_iff, length_tryCode, p.length_code]
        at hcode
      rcases hcode with ⟨htry, hbody, htest, hblock⟩
      have hstop : here + 6 + p.size + 4 = here + p.size + 10 := by omega
      rw [← hstop] at hbody
      exact runsAt_star hend (fun a b hb => p.lt_of_mem_results hp.1 a b hb) htry
        (fun a ha R hR => p.runs hp.2 _ _ v hbody hblock hstart hend a ha R hR)
        (codeAt_append_iff.mpr ⟨htest, hblock⟩) ha hrest
  | plus p =>
      simp only [Pattern.proper, Bool.and_eq_true] at hp
      simp only [Pattern.code, List.append_assoc, codeAt_append_iff, length_tryCode, p.length_code]
        at hcode
      rcases hcode with ⟨hbody, htry, hblock, htest, hend'⟩
      exact runsAt_plus hend (fun a b hb => p.lt_of_mem_results hp.1 a b hb)
        (fun a ha R hR => p.runs hp.2 _ _ v hbody hblock hstart hend a ha R hR) htry
        (codeAt_append_iff.mpr ⟨htest, hend'⟩) ha hrest
  | greedyStar p =>
      simp only [Pattern.proper, Bool.and_eq_true] at hp
      simp only [Pattern.code, List.append_assoc, codeAt_append_iff, length_scanCode, p.length_code,
        length_blockEnd, length_retryCode, List.length_cons, List.length_nil] at hcode
      rcases hcode with ⟨hscan, hbody, hblock, hinit, hretry, hend'⟩
      have hstop : here + 12 + p.size + 2 = here + p.size + 14 := by omega
      have hnext : here + 12 + p.size + 5 = here + p.size + 17 := by omega
      have hdo : here + 12 + p.size + 5 + (0 + 1 + 1) = here + p.size + 19 := by omega
      rw [hdo] at hretry hend'
      rw [hnext] at hinit
      have hfail' := (codeAt_append_iff.mp hblock).2
      simp only [List.length_cons, List.length_nil, Nat.reduceAdd, hstop] at hfail'
      exact runsAt_greedyStar hend (fun a b hb => p.lt_of_mem_results hp.1 a b hb) hscan
        (fun a ha R hR => p.runs hp.2 _ _ v hbody hfail' hstart hend a ha R hR) hblock hinit hretry
          hend'
        ha hrest
  | greedyPlus p =>
      simp only [Pattern.proper, Bool.and_eq_true] at hp
      simp only [Pattern.code, List.append_assoc, codeAt_append_iff, length_scanCode, p.length_code,
        length_blockEnd, length_retryCode, List.length_cons, List.length_nil] at hcode
      rcases hcode with ⟨hscan, hbody, hblock, hinit, hretry, hend'⟩
      have hstop : here + 12 + p.size + 2 = here + p.size + 14 := by omega
      have hnext : here + 12 + p.size + 5 = here + p.size + 17 := by omega
      have hdo : here + 12 + p.size + 5 + (0 + 1) = here + p.size + 18 := by omega
      rw [hdo] at hretry hend'
      rw [hnext] at hinit
      have hfail' := (codeAt_append_iff.mp hblock).2
      simp only [List.length_cons, List.length_nil, Nat.reduceAdd, hstop] at hfail'
      exact runsAt_greedyPlus hend (fun a b hb => p.lt_of_mem_results hp.1 a b hb) hscan
        (fun a ha R hR => p.runs hp.2 _ _ v hbody hfail' hstart hend a ha R hR) hblock hinit hretry
          hend'
        ha hrest

/-- The code of alternatives tries them in order. -/
theorem Alternatives.runs (ps : Alternatives) (hps : ps.proper = true) (here fail' stop n : Nat)
    (v : VarState) (hcode : CodeAt code here (ps.code here fail' stop n v))
    (hfail : CodeAt code fail' fail) (hstart : 0 ≤ startS) (hend : 0 ≤ endS) (a : Int) (ha : 0 ≤ a)
    (R : Int → Option Int)
    (hrest : ∀ b ∈ ps.results mem startS endS a, RunsAt mem code startS endS stop (R b) b) :
    RunsAt mem code startS endS here ((ps.results mem startS endS a).findSome? R) a := by
  cases ps with
  | last p =>
      simp only [Alternatives.code, List.append_assoc, codeAt_append_iff, length_tryCode, p.length_code]
        at hcode
      rcases hcode with ⟨htry, hbody, hbranch, hend'⟩
      have hnext : here + 6 + p.size + 1 = here + p.size + 7 := by omega
      simp only [List.length_singleton, hnext] at hend'
      have hruns := runsAt_try htry
        (p.runs hps (here + 6) fail' v hbody hfail hstart hend a ha R fun b hb =>
          runsAt_branch hbranch (hrest b hb)) fun _ => runsAt_fail hend' a
      simpa [Alternatives.results] using hruns
  | or p ps =>
      simp only [Alternatives.proper, Bool.and_eq_true] at hps
      simp only [Alternatives.code, List.append_assoc, codeAt_append_iff, length_tryCode, p.length_code]
        at hcode
      rcases hcode with ⟨htry, hbody, hbranch, hnext⟩
      have haddr : here + 6 + p.size + 1 = here + p.size + 7 := by omega
      simp only [List.length_singleton, haddr] at hnext
      simp only [Alternatives.results, List.mem_append] at hrest
      rw [Alternatives.results, List.findSome?_append]
      apply runsAt_try htry
      · exact p.runs hps.1 (here + 6) fail' v hbody hfail hstart hend a ha R fun b hb =>
          runsAt_branch hbranch (hrest b (Or.inl hb))
      · intro _
        exact ps.runs hps.2 (here + p.size + 7) fail' stop n _ hnext hfail hstart hend a ha R fun b hb
          =>
          hrest b (Or.inr hb)

end

end Regexp
end Gforth
