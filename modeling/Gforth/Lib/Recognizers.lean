import Mathlib.Tactic.Common

/-!
# Recognizers with one token of lookahead

A recognizer is a structured program that reads a sequence of tokens.  It decides by looking at the
next token, reads a token that must pass a test, and calls other recognizers by name.

Main results:

- Theorem {lit}`accepts_iff`: the runs that accept are those that the accepting rules derive.
- Theorems {lit}`Halts.seq`, {lit}`Halts.whileDo` and {lit}`Halts.doUntil`: what a recognizer needs
  to halt.
-/

namespace Gforth
namespace Lib

variable {τ ν : Type}

/-- A recognizer for tokens {lit}`τ` that calls recognizers by names {lit}`ν`.  A test gets the next
token, or nothing at the end of the sequence. -/
inductive Recognizer (τ ν : Type) where
  | skip
  | token (test : Option τ → Bool)
  | seq (a b : Recognizer τ ν)
  | branch (test : Option τ → Bool) (a b : Recognizer τ ν)
  | whileDo (test : Option τ → Bool) (a : Recognizer τ ν)
  | doUntil (a : Recognizer τ ν) (test : Option τ → Bool)
  | call (name : ν)

/-- How a recognizer ends: it accepts, with the tokens that it did not read; it rejects a token; or
it calls a name that stands for nothing. -/
inductive Outcome (τ : Type) where
  | accepted (rest : List τ)
  | rejected
  | crashed
deriving DecidableEq

/-- Go on with the rest of the tokens, if there was an acceptance. -/
def Outcome.andThen (o : Option (Outcome τ)) (f : List τ → Option (Outcome τ)) :
    Option (Outcome τ) :=
  match o with
  | some (.accepted rest) => f rest
  | other => other

namespace Recognizer

variable (env : ν → Option (Recognizer τ ν))

/-- Run a recognizer on a sequence of tokens.  The result is {lean}`none` if the given number of
nested steps does not suffice. -/
def run : Nat → Recognizer τ ν → List τ → Option (Outcome τ)
  | 0, _, _ => none
  | _ + 1, skip, i => some (.accepted i)
  | _ + 1, token test, i => if test i.head? then some (.accepted i.tail) else some .rejected
  | n + 1, seq a b, i => Outcome.andThen (run n a i) (run n b)
  | n + 1, branch test a b, i => if test i.head? then run n a i else run n b i
  | n + 1, whileDo test a, i =>
    if test i.head? then Outcome.andThen (run n a i) (run n (whileDo test a))
    else some (.accepted i)
  | n + 1, doUntil a test, i =>
    Outcome.andThen (run n a i) fun rest =>
      if test rest.head? then some (.accepted rest) else run n (doUntil a test) rest
  | n + 1, call name, i =>
    match env name with
    | none => some .crashed
    | some a => run n a i

/-! ## More steps -/

/-- What is accepted stays so when both parts accept more. -/
theorem andThen_mono {o o' : Option (Outcome τ)} {f f' : List τ → Option (Outcome τ)}
    {r : Outcome τ} (ho : ∀ r, o = some r → o' = some r)
    (hf : ∀ i r, f i = some r → f' i = some r) (h : Outcome.andThen o f = some r) :
    Outcome.andThen o' f' = some r := by
  cases o with
  | none => cases h
  | some out =>
    rw [ho out rfl]
    cases out with
    | accepted rest => exact hf rest r h
    | rejected => exact h
    | crashed => exact h

variable {a : Recognizer τ ν} {test : Option τ → Bool}

/-- A run that ends stays the same with one more step. -/
theorem run_succ (n : Nat) {i : List τ} {r : Outcome τ} (h : run env n a i = some r) :
    run env (n + 1) a i = some r := by
  induction n generalizing a i r with
  | zero => cases h
  | succ n ih =>
    cases a with
    | skip => exact h
    | token test => exact h
    | seq a b => exact andThen_mono (fun _ => ih) (fun _ _ => ih) h
    | branch test a b =>
      rw [run] at h ⊢
      split at h
      · next ht => rw [if_pos ht]; exact ih h
      · next ht => rw [if_neg ht]; exact ih h
    | whileDo test a =>
      rw [run] at h ⊢
      split at h
      · next ht =>
        rw [if_pos ht]
        exact andThen_mono (fun _ => ih) (fun _ _ => ih) h
      · next ht => rw [if_neg ht]; exact h
    | doUntil a test =>
      rw [run] at h ⊢
      refine andThen_mono (fun _ => ih) (fun rest r' h' => ?_) h
      split at h'
      · next ht => rw [if_pos ht]; exact h'
      · next ht => rw [if_neg ht]; exact ih h'
    | call name =>
      rw [run] at h ⊢
      cases he : env name with
      | none => simpa only [he] using h
      | some a => exact ih (by simpa only [he] using h)

/-- A run that ends stays the same with more steps. -/
theorem run_mono {n m : Nat} (hnm : n ≤ m) {i : List τ} {r : Outcome τ}
    (h : run env n a i = some r) : run env m a i = some r := by
  induction hnm with
  | refl => exact h
  | step _ ih => exact run_succ env _ ih

/-! ## Acceptance -/

/-- The rules by which a recognizer accepts a sequence, with what it leaves. -/
inductive Accepts : Recognizer τ ν → List τ → List τ → Prop
  | skip (i) : Accepts skip i i
  | token {test i} : test i.head? = true → Accepts (token test) i i.tail
  | seq {a b i j k} : Accepts a i j → Accepts b j k → Accepts (seq a b) i k
  | branchThen {test a b i j} : test i.head? = true → Accepts a i j → Accepts (branch test a b) i j
  | branchElse {test a b i j} : test i.head? = false → Accepts b i j → Accepts (branch test a b) i j
  | whileStop {test a i} : test i.head? = false → Accepts (whileDo test a) i i
  | whileStep {test a i j k} : test i.head? = true → Accepts a i j → Accepts (whileDo test a) j k →
      Accepts (whileDo test a) i k
  | untilStop {a test i j} : Accepts a i j → test j.head? = true → Accepts (doUntil a test) i j
  | untilStep {a test i j k} : Accepts a i j → test j.head? = false →
      Accepts (doUntil a test) j k → Accepts (doUntil a test) i k
  | call {name a i j} : env name = some a → Accepts a i j → Accepts (call name) i j

/-- Where a sequence accepts, both of its parts do. -/
theorem andThen_eq_accepted {o : Option (Outcome τ)} {f : List τ → Option (Outcome τ)}
    {k : List τ} (h : Outcome.andThen o f = some (.accepted k)) :
    ∃ j, o = some (.accepted j) ∧ f j = some (.accepted k) := by
  cases o with
  | none => cases h
  | some out =>
    cases out with
    | accepted j => exact ⟨j, rfl, h⟩
    | rejected => cases h
    | crashed => cases h

/-- A run that accepts gives a derivation. -/
theorem accepts_of_run (n : Nat) {i k : List τ} (h : run env n a i = some (.accepted k)) :
    Accepts env a i k := by
  induction n generalizing a i k with
  | zero => cases h
  | succ n ih =>
    cases a with
    | skip =>
      cases h
      exact .skip i
    | token test =>
      rw [run] at h
      split at h
      · next ht =>
        cases h
        exact .token ht
      · cases h
    | seq a b =>
      obtain ⟨j, ha, hb⟩ := andThen_eq_accepted h
      exact .seq (ih ha) (ih hb)
    | branch test a b =>
      rw [run] at h
      split at h
      · next ht => exact .branchThen ht (ih h)
      · next ht => exact .branchElse (Bool.eq_false_iff.mpr ht) (ih h)
    | whileDo test a =>
      rw [run] at h
      split at h
      · next ht =>
        obtain ⟨j, ha, hrest⟩ := andThen_eq_accepted h
        exact .whileStep ht (ih ha) (ih hrest)
      · next ht =>
        cases h
        exact .whileStop (Bool.eq_false_iff.mpr ht)
    | doUntil a test =>
      obtain ⟨j, ha, hrest⟩ := andThen_eq_accepted h
      split at hrest
      · next ht =>
        cases hrest
        exact .untilStop (ih ha) ht
      · next ht => exact .untilStep (ih ha) (Bool.eq_false_iff.mpr ht) (ih hrest)
    | call name =>
      rw [run] at h
      cases he : env name with
      | none =>
        rw [he] at h
        cases h
      | some a =>
        rw [he] at h
        exact .call he (ih h)

/-- Two runs that end, end within a common number of steps. -/
theorem exists_run_both {a b : Recognizer τ ν} {i j : List τ} {r r' : Outcome τ}
    (ha : ∃ n, run env n a i = some r) (hb : ∃ n, run env n b j = some r') :
    ∃ n, run env n a i = some r ∧ run env n b j = some r' := by
  obtain ⟨n, hn⟩ := ha
  obtain ⟨m, hm⟩ := hb
  exact ⟨max n m, run_mono env (Nat.le_max_left n m) hn, run_mono env (Nat.le_max_right n m) hm⟩

/-- A derivation gives a run that accepts. -/
theorem Accepts.exists_run {i k : List τ} (h : Accepts env a i k) :
    ∃ n, run env n a i = some (.accepted k) := by
  induction h with
  | skip i => exact ⟨1, rfl⟩
  | token ht => exact ⟨1, by rw [run, if_pos ht]⟩
  | seq _ _ iha ihb =>
    obtain ⟨n, ha, hb⟩ := exists_run_both env iha ihb
    exact ⟨n + 1, by rw [run, ha, Outcome.andThen, hb]⟩
  | branchThen ht _ ih =>
    obtain ⟨n, hn⟩ := ih
    exact ⟨n + 1, by rw [run, if_pos ht, hn]⟩
  | branchElse ht _ ih =>
    obtain ⟨n, hn⟩ := ih
    exact ⟨n + 1, by rw [run, if_neg (Bool.eq_false_iff.mp ht), hn]⟩
  | whileStop ht => exact ⟨1, by rw [run, if_neg (Bool.eq_false_iff.mp ht)]⟩
  | whileStep ht _ _ iha ihrest =>
    obtain ⟨n, ha, hrest⟩ := exists_run_both env iha ihrest
    exact ⟨n + 1, by rw [run, if_pos ht, ha, Outcome.andThen, hrest]⟩
  | untilStop _ ht ih =>
    obtain ⟨n, hn⟩ := ih
    exact ⟨n + 1, by rw [run, hn, Outcome.andThen, if_pos ht]⟩
  | untilStep _ ht _ iha ihrest =>
    obtain ⟨n, ha, hrest⟩ := exists_run_both env iha ihrest
    exact ⟨n + 1, by
      rw [run, ha, Outcome.andThen, if_neg (Bool.eq_false_iff.mp ht), hrest]⟩
  | call he _ ih =>
    obtain ⟨n, hn⟩ := ih
    exact ⟨n + 1, by rw [run, he]; exact hn⟩

/-- A recognizer accepts in some number of steps exactly if the rules derive it. -/
theorem accepts_iff {i k : List τ} :
    (∃ n, run env n a i = some (.accepted k)) ↔ Accepts env a i k := by
  constructor
  · rintro ⟨n, h⟩
    exact accepts_of_run env n h
  · exact Accepts.exists_run env

/-! ## Halting -/

/-- The recognizer ends on the sequence, by accepting or by rejecting. -/
def Halts (a : Recognizer τ ν) (i : List τ) : Prop :=
  ∃ n o, run env n a i = some o ∧ o ≠ .crashed

variable {env}

theorem Accepts.halts {i j : List τ} (h : Accepts env a i j) : Halts env a i := by
  obtain ⟨n, hn⟩ := h.exists_run
  exact ⟨n, .accepted j, hn, nofun⟩

/-- A test of a token halts. -/
theorem Halts.token (test : Option τ → Bool) (i : List τ) : Halts env (token test) i := by
  cases ht : test i.head? with
  | true => exact (Accepts.token ht).halts
  | false => exact ⟨1, .rejected, by rw [run, if_neg (Bool.eq_false_iff.mp ht)], nofun⟩

/-- What halts accepts or rejects. -/
theorem Halts.accepts_or {i : List τ} (h : Halts env a i) :
    (∃ j, Accepts env a i j) ∨ ∃ n, run env n a i = some .rejected := by
  obtain ⟨n, o, hn, ho⟩ := h
  cases o with
  | accepted j => exact .inl ⟨j, accepts_of_run env n hn⟩
  | rejected => exact .inr ⟨n, hn⟩
  | crashed => exact absurd rfl ho

/-- A sequence halts if its parts do. -/
theorem Halts.seq {a b : Recognizer τ ν} {i : List τ} (ha : Halts env a i)
    (hb : ∀ j, Accepts env a i j → Halts env b j) : Halts env (seq a b) i := by
  rcases ha.accepts_or with ⟨j, hj⟩ | ⟨n, hn⟩
  · obtain ⟨m, o, hm, ho⟩ := hb j hj
    obtain ⟨n, ha, hb⟩ := exists_run_both env hj.exists_run ⟨m, hm⟩
    exact ⟨n + 1, o, by rw [run, ha, Outcome.andThen, hb], ho⟩
  · exact ⟨n + 1, .rejected, by rw [run, hn]; rfl, nofun⟩

/-- A choice halts if the chosen branch does. -/
theorem Halts.branch {a b : Recognizer τ ν} {i : List τ} (ha : test i.head? = true → Halts env a i)
    (hb : test i.head? = false → Halts env b i) : Halts env (branch test a b) i := by
  cases ht : test i.head? with
  | true =>
    obtain ⟨n, o, hn, ho⟩ := ha ht
    exact ⟨n + 1, o, by rw [run, if_pos ht, hn], ho⟩
  | false =>
    obtain ⟨n, o, hn, ho⟩ := hb ht
    exact ⟨n + 1, o, by rw [run, if_neg (Bool.eq_false_iff.mp ht), hn], ho⟩

/-- A repetition halts if its body does and the repetition on each rest does. -/
theorem Halts.whileDo {i : List τ} (ha : test i.head? = true → Halts env a i)
    (hrest : ∀ j, test i.head? = true → Accepts env a i j → Halts env (whileDo test a) j) :
    Halts env (whileDo test a) i := by
  cases ht : test i.head? with
  | false => exact (Accepts.whileStop ht).halts
  | true =>
    rcases (ha ht).accepts_or with ⟨j, hj⟩ | ⟨n, hn⟩
    · obtain ⟨m, o, hm, ho⟩ := hrest j ht hj
      obtain ⟨n, ha, hrest⟩ := exists_run_both env hj.exists_run ⟨m, hm⟩
      exact ⟨n + 1, o, by rw [run, if_pos ht, ha, Outcome.andThen, hrest], ho⟩
    · exact ⟨n + 1, .rejected, by rw [run, if_pos ht, hn]; rfl, nofun⟩

/-- A repetition with its test at the end halts if its body does and the repetition on each rest does.
-/
theorem Halts.doUntil {i : List τ} (ha : Halts env a i)
    (hrest : ∀ j, Accepts env a i j → test j.head? = false → Halts env (doUntil a test) j) :
    Halts env (doUntil a test) i := by
  rcases ha.accepts_or with ⟨j, hj⟩ | ⟨n, hn⟩
  · cases ht : test j.head? with
    | true => exact (Accepts.untilStop hj ht).halts
    | false =>
      obtain ⟨m, o, hm, ho⟩ := hrest j hj ht
      obtain ⟨n, ha, hrest⟩ := exists_run_both env hj.exists_run ⟨m, hm⟩
      exact ⟨n + 1, o, by
        rw [run, ha, Outcome.andThen, if_neg (Bool.eq_false_iff.mp ht), hrest], ho⟩
  · exact ⟨n + 1, .rejected, by rw [run, hn]; rfl, nofun⟩

theorem Halts.call {name : ν} {i : List τ} (he : env name = some a) (ha : Halts env a i) :
    Halts env (call name) i := by
  obtain ⟨n, o, hn, ho⟩ := ha
  exact ⟨n + 1, o, by rw [run, he]; exact hn, ho⟩

end Recognizer
end Lib
end Gforth
