import Gforth.Gray.Sets

/-!
# Parsers for grammars without conflicts

{lit}`pass2` visits every syntax-expr that is needed, looks for conflicts there, and generates the
code of the rules.  If it finds none, one token of lookahead is enough.

Main results:

- Theorem {lit}`generate_spec`: the code that is generated for a syntax-expr.
- Theorem {lit}`pass2_spec`: every syntax-expr that has been visited has been checked.
- Theorem {lit}`parser_correct`: the parser halts, and accepts the language of the grammar.
-/

namespace Gforth
namespace Gray

open Lib Recognizer

variable {g : Grammar}

/-! ## Code -/

section Generate

variable {compute : Nat → Generator (Finset Nat × Bool)} {generate : Nat → Generator Code}

/-- What {lit}`generate` does for a syntax-expr -/
abbrev GenerateSpec (g : Grammar) (generate : Nat → Generator Code) : Prop :=
  ∀ e, Computes g (generate e) fun code => Generated g e (g e) code

/-- The code of an alternative -/
theorem generateAlternative_spec (hc : ComputeSpec g compute) (hg : GenerateSpec g generate)
    (e a b : Nat) :
    Computes g (generateAlternative compute generate a b)
      fun code => Generated g e (.alt a b) code := by
  refine (hc a).bindResult fun ⟨F, m⟩ va => ?_
  cases m with
  | false =>
    refine (getFirst_spec hc a).bindResult fun F₁ ⟨m₁, va₁⟩ => ?_
    refine (hg a).bindResult fun ca hca => ?_
    refine (hg b).bindResult fun cb hcb => .pure fun _ => ?_
    obtain ⟨rfl, rfl⟩ := va₁.unique va
    exact .alternative1 va hca hcb
  | true =>
    refine (getFirst_spec hc a).bindResult fun F₁ ⟨m₁, va₁⟩ => ?_
    refine (getFirst_spec hc b).bindResult fun F₂ ⟨m₂, vb⟩ => ?_
    refine (hg b).bindResult fun cb hcb => ?_
    refine (hg a).bindResult fun ca hca => .pure fun _ => ?_
    obtain ⟨rfl, rfl⟩ := va₁.unique va
    exact .alternative2 va vb hca hcb

/-- The code of an element -/
theorem generateMethod_spec (hc : ComputeSpec g compute) (hg : GenerateSpec g generate) (e : Nat)
    {n : Node} (hn : g e = n) :
    Computes g (generateMethod compute generate e n) fun code => Generated g e n code := by
  cases n with
  | eps => exact .pure fun _ => .eps
  | terminal set =>
    refine (getFirst_spec hc e).bindResult fun F ⟨m, hv⟩ => .pure fun _ => ?_
    rw [hn] at hv
    cases hv
    exact .terminal
  | concat a b =>
    refine (hg a).bindResult fun ca hca => ?_
    exact (hg b).bindResult fun cb hcb => .pure fun _ => .concat hca hcb
  | alt a b => exact generateAlternative_spec hc hg e a b
  | option a =>
    refine (getFirst_spec hc a).bindResult fun F ⟨m, hv⟩ => ?_
    exact (hg a).bindResult fun ca hca => .pure fun _ => .option hv hca
  | star a =>
    refine (getFirst_spec hc a).bindResult fun F ⟨m, hv⟩ => ?_
    exact (hg a).bindResult fun ca hca => .pure fun _ => .star hv hca
  | plus a =>
    refine (hg a).bindResult fun ca hca => ?_
    exact (getFirst_spec hc a).bindResult fun F ⟨m, hv⟩ => .pure fun _ => .plus hv hca
  | nt ruleBody => exact .pure fun _ => .nt

end Generate

theorem generate_spec (depth : Nat) : GenerateSpec g (generate g depth) := by
  induction depth with
  | zero => exact fun _ => .throw _
  | succ depth ih => exact fun e => generateMethod_spec (compute_spec depth) ih e rfl

/-! ## Conflicts -/

variable (g)

/-- What {lit}`pass2` has done for the operands of a syntax-expr, and found out about their sets, if
there was no conflict -/
def CheckedNode (s : State) (e : Nat) : Node → Prop
  | .eps => True
  | .terminal _ => True
  | .concat a b => s.markPass2 a = true ∧ s.markPass2 b = true
  | .alt a b => (∃ F m, Value g (g e) F m ∧ (m = true → Disjoint F (s.follow e))) ∧
      (∃ F F', (∃ m, Value g (g a) F m) ∧ (∃ m, Value g (g b) F' m) ∧ Disjoint F F') ∧
      s.markPass2 a = true ∧ s.markPass2 b = true
  | .option a => (∃ F, (∃ m, Value g (g a) F m) ∧ Disjoint (s.follow e) F) ∧ s.markPass2 a = true
  | .star a => (∃ F, (∃ m, Value g (g a) F m) ∧ Disjoint (s.follow e) F) ∧ s.markPass2 a = true
  | .plus a => (∃ F, (∃ m, Value g (g a) F m) ∧ Disjoint (s.follow e) F) ∧ s.markPass2 a = true
  | .nt none => False
  | .nt (some body) => s.markPass2 body = true ∧ ∃ code, s.exec e = some code

/-- The syntax-expr has a first set and no conflict. -/
def Checked (s : State) (e : Nat) : Prop :=
  (∃ F m, Value g (g e) F m) ∧ CheckedNode g s e (g e)

/-- What a call of {lit}`pass2` may do: every syntax-expr that is marked has been checked, unless it
was marked before, or a conflict has been found. -/
structure Passed (s s' : State) : Prop where
  follow : s'.follow = s.follow
  markPropagate : s'.markPropagate = s.markPropagate
  mark : ∀ e, s.markPass2 e = true → s'.markPass2 e = true
  exec : ∀ e, (∃ code, s.exec e = some code) → ∃ code, s'.exec e = some code
  conflicts : s'.conflicts = [] → s.conflicts = []
  checked : s'.conflicts = [] → ∀ e, s'.markPass2 e = true →
    Checked g s' e ∨ s.markPass2 e = true

variable {g}

/-- A checked element stays so. -/
theorem CheckedNode.mono {s s' : State} (h : Passed g s s') {e : Nat} {n : Node}
    (hc : CheckedNode g s e n) : CheckedNode g s' e n := by
  cases n with
  | eps => trivial
  | terminal => trivial
  | concat a b => exact ⟨h.mark a hc.1, h.mark b hc.2⟩
  | alt a b =>
    obtain ⟨hempty, hdisj, ha, hb⟩ := hc
    rw [← h.follow] at hempty
    exact ⟨hempty, hdisj, h.mark a ha, h.mark b hb⟩
  | option a | star a | plus a => exact ⟨by rw [h.follow]; exact hc.1, h.mark a hc.2⟩
  | nt ruleBody =>
    cases ruleBody with
    | none => exact hc
    | some body => exact ⟨h.mark body hc.1, h.exec e hc.2⟩

theorem Checked.mono {s s' : State} (h : Passed g s s') {e : Nat} (hc : Checked g s e) :
    Checked g s' e :=
  ⟨hc.1, CheckedNode.mono h hc.2⟩

instance : IsPreorder State (Passed g) where
  refl _ := ⟨rfl, rfl, fun _ => id, fun _ => id, id, fun _ _ => .inr⟩
  trans _ _ _ h h' := by
    refine ⟨h'.follow.trans h.follow, h'.markPropagate.trans h.markPropagate,
      fun e he => h'.mark e (h.mark e he), fun e he => h'.exec e (h.exec e he),
      fun hnil => h.conflicts (h'.conflicts hnil), fun hnil e he => ?_⟩
    rcases h'.checked hnil e he with hc | hmark
    · exact .inl hc
    · exact (h.checked (h'.conflicts hnil) e hmark).imp_left (Checked.mono h')

/-- Changes of the first sets do not matter for the second pass. -/
theorem FirstsOnly.passed {s s' : State} (h : FirstsOnly s s') : Passed g s s' where
  follow := h.follow
  markPropagate := h.markPropagate
  mark e he := by rw [h.markPass2]; exact he
  exec e he := by rw [h.exec]; exact he
  conflicts hnil := by rw [← h.conflicts]; exact hnil
  checked _ e he := .inr (by rw [← h.markPass2]; exact he)

variable (g) in
/-- The word keeps first sets and code right, and does what {lit}`pass2` may do. -/
abbrev Passes {α : Type} (word : Generator α) (Q : α → State → Prop) : Prop :=
  Keeps (fun s => FirstsOk g s ∧ ExecOk g s.exec) (Passed g) word Q

/-- What computes a value passes. -/
theorem passes_of_computes {α : Type} {word : Generator α} {Q : α → Prop}
    (h : Computes g word Q) : Passes g word fun a _ => Q a :=
  (Keeps.and h fun _ _ hrel hexec => by rw [hrel.exec]; exact hexec).weaken
    fun _ _ => FirstsOnly.passed

/-- If no conflict is found, the sets are disjoint. -/
theorem checkConflict_spec (set1 set2 : Finset Nat) :
    Passes g (checkConflict set1 set2) fun _ s => s.conflicts = [] → Disjoint set1 set2 := by
  intro s a s' hs hok
  cases hok
  rw [State.checkConflict]
  split
  · next hdisj => exact ⟨hs, refl s, fun _ => hdisj⟩
  · have hnil : s.conflicts ++ [set1 ∩ set2] ≠ [] :=
      List.append_ne_nil_of_right_ne_nil _ (List.cons_ne_nil _ _)
    exact ⟨hs, ⟨rfl, rfl, fun _ => id, fun _ => id, fun h => absurd h hnil,
      fun h => absurd h hnil⟩, fun h => absurd h hnil⟩

section Pass2

variable {compute : Nat → Generator (Finset Nat × Bool)} {generate : Nat → Generator Code}
  {pass2 : Nat → Generator Unit}

/-- The code of a rule is stored where there is none yet. -/
theorem setExec_spec {e body : Nat} (hn : g e = .nt (some body)) {code : Code}
    (hcode : Generated g body (g body) code) :
    Passes g (modify (State.setExec e code)) fun _ s => ∃ code, s.exec e = some code := by
  intro s a s' hs hok
  cases hok
  have hself : (s.setExec e code).exec e = some code := Function.update_self ..
  have hother : ∀ x, x ≠ e → (s.setExec e code).exec x = s.exec x :=
    fun x hne => Function.update_of_ne hne ..
  refine ⟨⟨hs.1, fun x code' hx => ?_⟩, ⟨rfl, rfl, fun _ => id, fun x hx => ?_, id,
    fun _ _ => .inr⟩, code, hself⟩
  · rcases eq_or_ne x e with rfl | hne
    · rw [hself] at hx
      cases hx
      exact ⟨body, hn, hcode⟩
    · exact hs.2 ((hother x hne).symm.trans hx)
  · rcases eq_or_ne x e with rfl | hne
    · exact ⟨code, hself⟩
    · rw [hother x hne]
      exact hx

/-- What {lit}`pass2` does for a syntax-expr -/
abbrev Pass2Spec (g : Grammar) (pass2 : Nat → Generator Unit) : Prop :=
  ∀ e, Passes g (pass2 e) fun _ s => s.markPass2 e = true

theorem pass2Binary_spec (hp : Pass2Spec g pass2) (a b : Nat) :
    Passes g (pass2Binary pass2 a b) fun _ s => s.markPass2 a = true ∧ s.markPass2 b = true := by
  refine (hp a).bind (fun _ _ _ h => h.mark a) fun _ => ?_
  exact (hp b).mono fun _ s hb ha => ⟨ha, hb⟩

theorem getFollow_spec : Passes g get fun s₀ s => s.follow = s₀.follow :=
  Keeps.getState.mono fun s₀ s h => by rw [h]

/-- A check without a conflict -/
theorem checkEmptyConflict_spec (hc : ComputeSpec g compute) (e : Nat) :
    Passes g (checkEmptyConflict compute e) fun _ s => s.conflicts = [] →
      ∃ F m, Value g (g e) F m ∧ (m = true → Disjoint F (s.follow e)) := by
  refine (passes_of_computes (hc e)).bindResult fun ⟨F, m⟩ hv => ?_
  refine getFollow_spec.bind (fun _ _ _ h hf => h.follow.trans hf) fun s₀ => ?_
  cases m with
  | false => exact .pure fun s _ _ => ⟨F, false, hv, Bool.noConfusion⟩
  | true =>
    refine (checkConflict_spec F (s₀.follow e)).mono fun _ s hdisj hfollow hnil => ?_
    rw [hfollow]
    exact ⟨F, true, hv, fun _ => hdisj hnil⟩

/-- The second pass of an alternative -/
theorem pass2Alternative_spec (hc : ComputeSpec g compute) (hp : Pass2Spec g pass2)
    (e a b : Nat) :
    Passes g (pass2Alternative compute pass2 e a b)
      fun _ s => s.conflicts = [] → CheckedNode g s e (.alt a b) := by
  refine (checkEmptyConflict_spec hc e).bind
    (fun _ _ _ h hQ hnil => by rw [h.follow]; exact hQ (h.conflicts hnil)) fun _ => ?_
  refine (passes_of_computes (getFirst_spec hc a)).bindResult fun F va => ?_
  refine (passes_of_computes (getFirst_spec hc b)).bindResult fun F' vb => ?_
  refine (checkConflict_spec F F').bind (fun _ _ _ h hQ hnil => hQ (h.conflicts hnil)) fun _ => ?_
  refine (pass2Binary_spec hp a b).mono fun _ s hmarks hdisj hempty hnil => ?_
  exact ⟨hempty hnil, ⟨F, F', va, vb, hdisj hnil⟩, hmarks⟩

/-- The second pass of options and repetitions -/
theorem pass2OptionAndRepetition_spec (hc : ComputeSpec g compute) (hp : Pass2Spec g pass2)
    (e a : Nat) :
    Passes g (pass2OptionAndRepetition compute pass2 e a) fun _ s => s.conflicts = [] →
      (∃ F, (∃ m, Value g (g a) F m) ∧ Disjoint (s.follow e) F) ∧ s.markPass2 a = true := by
  refine getFollow_spec.bind (fun _ _ _ h hf => h.follow.trans hf) fun s₀ => ?_
  refine (passes_of_computes (getFirst_spec hc a)).bindResult fun F hv => ?_
  refine (checkConflict_spec (s₀.follow e) F).bind
    (fun _ _ _ h hQ hnil => hQ (h.conflicts hnil)) fun _ => ?_
  refine (hp a).mono fun _ s hmark hdisj hfollow hnil => ?_
  rw [hfollow]
  exact ⟨⟨F, hv, hdisj hnil⟩, hmark⟩

/-- The second pass of a nonterminal -/
theorem pass2Nt_spec (hg : GenerateSpec g generate) (hp : Pass2Spec g pass2) {e : Nat}
    {ruleBody : Option Nat} (hn : g e = .nt ruleBody) :
    Passes g (pass2Nt generate pass2 e ruleBody)
      fun _ s => CheckedNode g s e (.nt ruleBody) := by
  refine (passes_of_computes (getBody_spec ruleBody)).bindResult fun body hbody => ?_
  subst hbody
  refine (hp body).bind (fun _ _ _ h => h.mark body) fun _ => ?_
  refine (passes_of_computes (getBody_spec (some body))).bindResult fun body' hbody' => ?_
  cases hbody'
  refine (passes_of_computes (hg body)).bindResult fun code hcode => ?_
  exact (setExec_spec hn hcode).mono fun _ s hexec hmark => ⟨hmark, hexec⟩

/-- The second pass of an element -/
theorem pass2Method_spec (hc : ComputeSpec g compute) (hg : GenerateSpec g generate)
    (hp : Pass2Spec g pass2) {e : Nat} {n : Node} (hn : g e = n) :
    Passes g (pass2Method compute generate pass2 e n)
      fun _ s => s.conflicts = [] → CheckedNode g s e n := by
  cases n with
  | eps | terminal => exact .pure fun _ _ => trivial
  | concat a b => exact (pass2Binary_spec hp a b).mono fun _ _ h _ => h
  | alt a b => exact pass2Alternative_spec hc hp e a b
  | option a | star a | plus a => exact pass2OptionAndRepetition_spec hc hp e a
  | nt ruleBody => exact (pass2Nt_spec hg hp hn).mono fun _ _ h _ => h

end Pass2

/-- A call that first marks a syntax-expr, and checks it -/
theorem Passed.of_mark {s s' : State} {e : Nat} (h : Passed g (s.setMarkPass2 e) s')
    (hchecked : s'.conflicts = [] → Checked g s' e) : Passed g s s' where
  follow := h.follow
  markPropagate := h.markPropagate
  mark x hx := by
    refine h.mark x ?_
    rcases eq_or_ne x e with rfl | hne
    · exact Function.update_self ..
    · exact (Function.update_of_ne hne ..).trans hx
  exec := h.exec
  conflicts := h.conflicts
  checked hnil x hx := by
    rcases h.checked hnil x hx with hc | hmark
    · exact .inl hc
    · rcases eq_or_ne x e with rfl | hne
      · exact .inl (hchecked hnil)
      · exact .inr ((Function.update_of_ne hne ..).symm.trans hmark)

/-- {lit}`pass2` checks everything that it visits. -/
theorem pass2_spec (depth : Nat) : Pass2Spec g (pass2 g depth) := by
  induction depth with
  | zero => exact fun _ => .throw _
  | succ depth ih =>
    intro e s a s' hs hok
    obtain ⟨s₀, s₁, hget, hok⟩ := bind_ok hok
    cases hget
    split at hok
    · next hmark =>
      cases hok
      exact ⟨hs, refl s, hmark⟩
    · obtain ⟨u, s₁, hmark, hok⟩ := bind_ok hok
      have hs₁ : FirstsOk g s₁ ∧ ExecOk g s₁.exec := by
        cases hmark
        exact hs
      have hword : Passes g (do
          checkCycle (compute g depth) e
          pass2Method (compute g depth) (generate g depth) (pass2 g depth) e (g e))
          fun _ s => s.conflicts = [] → Checked g s e := by
        refine (passes_of_computes ((compute_spec depth e).bindResult fun v hv =>
          .pure fun _ => ⟨v.1, v.2, hv⟩) : Passes g (checkCycle (compute g depth) e)
          fun _ _ => ∃ F m, Value g (g e) F m).bindResult fun _ hv => ?_
        exact (pass2Method_spec (compute_spec depth) (generate_spec depth) ih rfl).mono
          fun _ _ h hnil => ⟨hv, h hnil⟩
      obtain ⟨hs', hrel, hchecked⟩ := hword hs₁ hok
      cases hmark
      exact ⟨hs', hrel.of_mark hchecked, hrel.mark e (Function.update_self ..)⟩

/-! ## The parser -/

/-- The syntax-exprs that {lit}`propagate` and {lit}`pass2` have been at -/
def Visited (s₁ s₂ : State) (e : Nat) : Prop :=
  s₁.markPropagate e = true ∧ s₂.markPass2 e = true

/-- What is passed on after {lit}`propagate` and checked after {lit}`pass2` fulfils what parsing
needs. -/
theorem entry_of_checked {s₁ s₂ : State} (hfollow : s₂.follow = s₁.follow) {e : Nat} {n : Node}
    (hn : g e = n) (hp : PassedOn g s₁ (s₁.follow e) n) (hc : CheckedNode g s₂ e n) :
    Entry g s₁.follow s₂.exec (Visited s₁ s₂) e n := by
  have hrepetition : ∀ a, (∃ F, (∃ m, Value g (g a) F m) ∧ Reached s₁ (s₁.follow e ∪ F) a) →
      (∃ F, (∃ m, Value g (g a) F m) ∧ Disjoint (s₂.follow e) F) ∧ s₂.markPass2 a = true →
      Visited s₁ s₂ a ∧ s₁.follow e ⊆ s₁.follow a ∧ ∀ ⦃F m⦄, Value g (g a) F m →
        Disjoint F (s₁.follow e) ∧ F ⊆ s₁.follow a := by
    rintro a ⟨F₁, ⟨m₁, v₁⟩, hmark₁, hsub⟩ ⟨⟨F₂, ⟨m₂, v₂⟩, hdisj⟩, hmark₂⟩
    refine ⟨⟨hmark₁, hmark₂⟩, Finset.union_subset_left hsub, fun F m hv => ?_⟩
    obtain ⟨rfl, rfl⟩ := hv.unique v₁
    obtain ⟨rfl, rfl⟩ := hv.unique v₂
    rw [hfollow] at hdisj
    exact ⟨hdisj.symm, Finset.union_subset_right hsub⟩
  cases n with
  | eps => trivial
  | terminal => trivial
  | concat a b =>
    obtain ⟨⟨F', m', v', ha, hsub⟩, hb, hfb⟩ := hp
    refine ⟨⟨ha, hc.1⟩, ⟨hb, hc.2⟩, hfb, fun F m hv => ?_⟩
    obtain ⟨rfl, rfl⟩ := hv.unique v'
    cases m with
    | false => exact ⟨hsub, Bool.noConfusion⟩
    | true => exact ⟨Finset.union_subset_left hsub, fun _ => Finset.union_subset_right hsub⟩
  | alt a b =>
    obtain ⟨⟨F₀, m₀, v₀, hempty⟩, ⟨F₁, F₂, ⟨m₁, v₁⟩, ⟨m₂, v₂⟩, hdisj⟩, hmarkA, hmarkB⟩ := hc
    refine ⟨⟨hp.1.1, hmarkA⟩, ⟨hp.2.1, hmarkB⟩, hp.1.2, hp.2.2, fun F m F' m' va vb => ?_⟩
    obtain ⟨rfl, rfl⟩ := va.unique v₁
    obtain ⟨rfl, rfl⟩ := vb.unique v₂
    rw [hn] at v₀
    obtain ⟨rfl, rfl⟩ := v₀.unique (.alt va vb)
    rw [hfollow] at hempty
    exact ⟨hdisj, hempty⟩
  | option a =>
    obtain ⟨⟨F', ⟨m', v'⟩, hdisj⟩, hmark⟩ := hc
    refine ⟨⟨hp.1, hmark⟩, hp.2, fun F m hv => ?_⟩
    obtain ⟨rfl, rfl⟩ := hv.unique v'
    rw [hfollow] at hdisj
    exact hdisj.symm
  | star a => exact hrepetition a hp hc
  | plus a => exact hrepetition a hp hc
  | nt ruleBody =>
    cases ruleBody with
    | none => exact hp
    | some body => exact ⟨⟨hp.1, hc.1⟩, hp.2, hc.2⟩

theorem firstsOk_initial (g : Grammar) : FirstsOk g (initial g) := by
  intro e F m h
  change initialFirst (g e) = some (F, m) at h
  cases hn : g e <;> rw [hn] at h <;> cases h
  · exact .eps
  · exact .terminal

/-- Where the generator finds no conflict, one token of lookahead is enough. -/
theorem parser_spec {depth start : Nat} {code : Code} {s : State}
    (h : parser g depth start (initial g) = .ok (code, s)) (hnil : s.conflicts = []) :
    ∃ follow visited, OneToken g follow s.exec visited ∧ visited start ∧
      Generated g start (g start) code := by
  obtain ⟨u₁, s₁, hpropagate, h⟩ := bind_ok h
  obtain ⟨u₂, s₂, hpass2, hgenerate⟩ := bind_ok h
  obtain ⟨hfirsts₁, hpropagated, hstart₁⟩ :=
    propagate_spec depth ∅ start (firstsOk_initial g) hpropagate
  have hexec₁ : ExecOk g s₁.exec := by
    rw [hpropagated.exec]
    intro e code he
    cases he
  obtain ⟨⟨hfirsts₂, hexec₂⟩, hpassed, hstart₂⟩ :=
    pass2_spec depth start ⟨hfirsts₁, hexec₁⟩ hpass2
  obtain ⟨-, honly, hcode⟩ := generate_spec depth start hfirsts₂ hgenerate
  rw [honly.conflicts] at hnil
  have hchecked : ∀ e, s₂.markPass2 e = true → Checked g s₂ e := by
    intro e he
    rcases hpassed.checked hnil e he with hc | hmark
    · exact hc
    · rw [hpropagated.markPass2] at hmark
      cases hmark
  refine ⟨s₁.follow, Visited s₁ s₂, ⟨?_, ?_, ?_⟩, ⟨hstart₁.1, hstart₂⟩, hcode⟩
  · rw [honly.exec]
    exact hexec₂
  · exact fun e he => (hchecked e he.2).1
  · intro e he
    rw [honly.exec]
    refine entry_of_checked hpassed.follow rfl ?_ (hchecked e he.2).2
    rcases hpropagated.passedOn e he.1 with hp | ⟨hmark, -⟩
    · exact hp
    · cases hmark

/-- Nothing comes after the end of the input. -/
def EoiLast (eoi : Finset Nat) (w : List Nat) : Prop :=
  ∀ ⦃u t v⦄, w = u ++ t :: v → t ∈ eoi → v = []

/-- A sequence of a language that ends with the end of the input -/
theorem EndsWith.eoiLast {eoi : Finset Nat} {n : Node} (hend : EndsWith g eoi n) {w : List Nat}
    (hw : Derives g n w) : EoiLast eoi w := by
  obtain ⟨u, t, rfl, -, hfree⟩ := hend.eq_append hw
  intro u' t' v heq hmem
  induction v using List.reverseRecOn with
  | nil => rfl
  | append_singleton v x _ =>
    rw [← List.cons_append, ← List.append_assoc] at heq
    obtain ⟨rfl, -⟩ := List.append_inj' heq rfl
    exact absurd hmem (hfree t' (List.mem_append_right u' List.mem_cons_self))

/-- The parser for a grammar without conflicts halts on every sequence of tokens.  It reads a part
of the sequence without calling the error check of a terminal exactly if that part is in the
language.  In particular, a sequence is in the language exactly if nothing comes after the end of the
input in it, and the parser does not call the error check. -/
theorem parser_correct {depth start : Nat} {code : Code} {s : State}
    (h : parser g depth start (initial g) = .ok (code, s)) (hnil : s.conflicts = [])
    {eoi : Finset Nat} (hend : EndsWith g eoi (g start)) (w : List Nat) :
    Halts s.exec code w ∧
      (∀ rest, (∃ n, run s.exec n code w = some (.accepted rest)) ↔
        ∃ u, w = u ++ rest ∧ Derives g (g start) u) ∧
      (Derives g (g start) w ↔
        EoiLast eoi w ∧ ∃ n rest, run s.exec n code w = some (.accepted rest)) := by
  obtain ⟨follow, visited, ht, hstart, hcode⟩ := parser_spec h hnil
  have hparts : ∀ rest, (∃ n, run s.exec n code w = some (.accepted rest)) ↔
      ∃ u, w = u ++ rest ∧ Derives g (g start) u := by
    intro rest
    rw [accepts_iff]
    constructor
    · exact fun hacc => accepts_derives ht.execOk hacc rfl hcode
    · rintro ⟨u, rfl, hu⟩
      exact hend.derives_accepts ht hu rfl hstart hcode rest
  refine ⟨code_halts ht w hstart hcode, hparts, fun hw => ⟨hend.eoiLast hw, ?_⟩, ?_⟩
  · obtain ⟨n, hn⟩ := (hparts []).mpr ⟨w, (List.append_nil w).symm, hw⟩
    exact ⟨n, [], hn⟩
  · rintro ⟨hlast, n, rest, hn⟩
    obtain ⟨u, rfl, hu⟩ := (hparts rest).mp ⟨n, hn⟩
    obtain ⟨v, t, rfl, hmem, -⟩ := hend.eq_append hu
    have hrest : rest = [] := hlast (List.append_assoc v [t] rest) hmem
    rw [hrest, List.append_nil]
    exact hu

/-- A grammar for nested pairs of tokens 0 and 1, and token 2 for the end of the input -/
def nested : Grammar
  | 0 => .terminal {0}
  | 1 => .terminal {1}
  | 2 => .terminal {2}
  | 3 => .nt (some 7)
  | 4 => .concat 0 3
  | 5 => .concat 4 1
  | 6 => .eps
  | 7 => .alt 5 6
  | 8 => .concat 3 2
  | _ => .eps

/-- The token for the end of the input is not in the rule of the nonterminal. -/
theorem nested_not_occurs {n : Node} (h : Occurs nested 2 n) :
    n ∉ [nested 0, nested 1, nested 3, nested 4, nested 5, nested 6, nested 7] := by
  induction h with
  | terminal ht =>
    intro hn
    simp [nested] at hn
    rcases hn with rfl | rfl <;> simp at ht
  | concat1 _ ih | concat2 _ ih =>
    intro hn
    simp [nested] at hn
    rcases hn with ⟨rfl, rfl⟩ | ⟨rfl, rfl⟩ <;> simp at ih
  | alt1 _ ih | alt2 _ ih =>
    intro hn
    simp [nested] at hn
    obtain ⟨rfl, rfl⟩ := hn
    simp at ih
  | option => simp [nested]
  | star => simp [nested]
  | plus => simp [nested]
  | nt _ ih =>
    intro hn
    simp [nested] at hn
    rw [hn] at ih
    simp at ih

theorem nested_endsWith : EndsWith nested {2} (nested 8) := by
  refine .concat (fun t ht hocc => ?_) .terminal
  cases Finset.mem_singleton.mp ht
  exact nested_not_occurs hocc (by simp)

/-- The parser of nested pairs accepts two of them. -/
theorem parser_correct_nested : ∃ code s,
    parser nested 12 8 (initial nested) = .ok (code, s) ∧
      Halts s.exec code [0, 0, 1, 1, 2] ∧
      (∀ rest, (∃ n, run s.exec n code [0, 0, 1, 1, 2] = some (.accepted rest)) ↔
        ∃ u, [0, 0, 1, 1, 2] = u ++ rest ∧ Derives nested (nested 8) u) ∧
      (Derives nested (nested 8) [0, 0, 1, 1, 2] ↔ EoiLast {2} [0, 0, 1, 1, 2] ∧
        ∃ n rest, run s.exec n code [0, 0, 1, 1, 2] = some (.accepted rest)) := by
  have hfree : ((parser nested 12 8 (initial nested)).toOption.map
      fun r => r.2.conflicts) = some [] := by decide +kernel
  cases h : parser nested 12 8 (initial nested) with
  | error err =>
    rw [h] at hfree
    cases hfree
  | ok r =>
    rw [h] at hfree
    exact ⟨r.1, r.2, rfl, parser_correct h (Option.some.inj hfree) nested_endsWith _⟩

end Gray
end Gforth
