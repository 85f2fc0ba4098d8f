import Gforth.Selector.Rewrite

/-!
# Soundness of the code selector

The pieces that the rewrite loop emits for a basic block implement exactly the
block: they cover it in order with entries of the superinstruction table, their
stack-caching states fit together from the canonical state to the canonical
state, and no transition stands where the code generator has no code to append
it to.  This holds for every block, whatever blocks were rewritten before.

Main results:

- Theorem {lit}`optimizeRewrite_plan`: the rewriting of a block succeeds with a
  plan for it.
- Theorem {lit}`optimizeRewrite_sound`: the properties of the emitted pieces, in
  terms of the tables alone.
-/

namespace Gforth
namespace Selector

open Lib

/-! ## Properties of emitted pieces -/

/-- The instructions among the pieces, without the transitions. -/
def instructions (ps : List Piece) : List PrimNum :=
  ps.filterMap fun
    | Piece.inst s => some s
    | Piece.trans _ => none

/-- The pieces cover the block once and in order: the components of the
instructions, put together, are the block, every instruction is in the table for
its components and has some, and the other pieces are transitions. -/
structure Covers (e : Engine) (t : SuperTables) (origs : List PrimNum)
    (ps : List Piece) : Prop where
  flatMap_components : (instructions ps).flatMap e.components = origs
  inTable : ∀ s, Piece.inst s ∈ ps → InTable t s (e.components s)
  segment : ∀ s, Piece.inst s ∈ ps → e.components s ≠ []
  transition : ∀ s, Piece.trans s ∈ ps → s ∈ t.stateTransitions

/-- The states of the pieces chain from {lit}`k` to {lit}`k'`. -/
def Chain (e : Engine) (k : State) : List Piece → State → Prop
  | [], k' => k = k'
  | p :: ps, k' => (e.cost p.prim).stateIn = k ∧ Chain e (e.cost p.prim).stateOut ps k'

/-- No transition stands between two non-relocatable instructions or behind a
final non-relocatable one, and no two transitions follow each other. -/
structure WellPlaced (e : Engine) (ps : List Piece) : Prop where
  between : ∀ front back a s b,
    ps = front ++ Piece.inst a :: Piece.trans s :: Piece.inst b :: back →
    e.isRelocatable a = true ∨ e.isRelocatable b = true
  final : ∀ front a s, ps = front ++ [Piece.inst a, Piece.trans s] →
    e.isRelocatable a = true
  single : ∀ front back r s, ps ≠ front ++ Piece.trans r :: Piece.trans s :: back

namespace Plan

variable {e : Engine} {t : SuperTables} {b : Bool} {k : State} {origs : List PrimNum}
  {ps : List Piece}

/-- A superinstruction in front of a cover -/
theorem covers_inst_cons {q : PrimNum} {rest : List PrimNum} (ih : Covers e t rest ps)
    (htable : InTable t q (e.components q)) (hseg : e.components q ≠ []) :
    Covers e t (e.components q ++ rest) (Piece.inst q :: ps) := by
  refine ⟨?_, ?_, ?_, ?_⟩
  · rw [← ih.flatMap_components]
    rfl
  · intro s hmem
    rcases List.mem_cons.mp hmem with heq | hmem
    · cases heq
      exact htable
    · exact ih.inTable s hmem
  · intro s hmem
    rcases List.mem_cons.mp hmem with heq | hmem
    · cases heq
      exact hseg
    · exact ih.segment s hmem
  · intro s hmem
    rcases List.mem_cons.mp hmem with heq | hmem
    · cases heq
    · exact ih.transition s hmem

/-- A transition in front of a cover -/
theorem covers_trans_cons {r : PrimNum} (ih : Covers e t origs ps)
    (hr : r ∈ t.stateTransitions) : Covers e t origs (Piece.trans r :: ps) := by
  refine ⟨?_, ?_, ?_, ?_⟩
  · rw [← ih.flatMap_components]
    rfl
  · intro s hmem
    rcases List.mem_cons.mp hmem with heq | hmem
    · cases heq
    · exact ih.inTable s hmem
  · intro s hmem
    rcases List.mem_cons.mp hmem with heq | hmem
    · cases heq
    · exact ih.segment s hmem
  · intro s hmem
    rcases List.mem_cons.mp hmem with heq | hmem
    · cases heq
      exact hr
    · exact ih.transition s hmem

theorem covers_nil : Covers e t [] [] :=
  ⟨rfl, by simp, by simp, by simp⟩

/-- A plan covers its block. -/
theorem covers (h : Plan e t b k origs ps) : Covers e t origs ps := by
  induction h with
  | done => exact covers_nil
  | last hs _ => exact covers_trans_cons covers_nil hs
  | inst htable hseg _ ih => exact covers_inst_cons ih htable hseg
  | transInst hr _ _ htable hseg _ ih =>
      exact covers_trans_cons (covers_inst_cons ih htable hseg) hr

/-- The states of a plan fit together. -/
theorem chain (h : Plan e t b k origs ps) : Chain e k ps canonicalState := by
  induction h with
  | done => rfl
  | last _ hout => exact ⟨rfl, hout⟩
  | inst _ _ _ ih => exact ⟨rfl, ih⟩
  | transInst _ hout _ _ _ _ ih => exact ⟨rfl, hout.symm, ih⟩

/-- A plan that starts with a transition does so behind a relocatable instruction
or in front of one. -/
theorem trans_cons {s : PrimNum} (h : Plan e t b k origs (Piece.trans s :: ps)) :
    (b = true ∧ ps = []) ∨
      ∃ q ps', ps = Piece.inst q :: ps' ∧ (b = true ∨ e.isRelocatable q = true) := by
  cases h with
  | last _ _ => exact Or.inl ⟨rfl, rfl⟩
  | transInst _ _ hrel _ _ _ => exact Or.inr ⟨_, _, rfl, hrel⟩

/-- An instruction may stand in front of any plan for what follows it. -/
theorem wellPlaced_inst_cons {q : PrimNum}
    (hps : Plan e t (e.isRelocatable q) k origs ps) (ih : WellPlaced e ps) :
    WellPlaced e (Piece.inst q :: ps) := by
  refine ⟨?_, ?_, ?_⟩
  · intro front back a s b heq
    cases front with
    | nil =>
        obtain ⟨hq, rfl⟩ := List.cons.inj heq
        cases hq
        rcases hps.trans_cons with ⟨-, hnil⟩ | ⟨q', ps', heq', hrel⟩
        · cases hnil
        · cases heq'
          exact hrel
    | cons x front => exact ih.between front back a s b (List.cons.inj heq).2
  · intro front a s heq
    cases front with
    | nil =>
        obtain ⟨hq, rfl⟩ := List.cons.inj heq
        cases hq
        rcases hps.trans_cons with ⟨hrel, -⟩ | ⟨q', ps', heq', -⟩
        · exact hrel
        · cases heq'
    | cons x front => exact ih.final front a s (List.cons.inj heq).2
  · intro front back r s heq
    cases front with
    | nil => cases (List.cons.inj heq).1
    | cons x front => exact ih.single front back r s (List.cons.inj heq).2

/-- A transition in front of an instruction does not disturb what follows. -/
theorem wellPlaced_trans_cons {r q : PrimNum} (ih : WellPlaced e (Piece.inst q :: ps)) :
    WellPlaced e (Piece.trans r :: Piece.inst q :: ps) := by
  refine ⟨?_, ?_, ?_⟩
  · intro front back a s b heq
    cases front with
    | nil => cases (List.cons.inj heq).1
    | cons x front => exact ih.between front back a s b (List.cons.inj heq).2
  · intro front a s heq
    cases front with
    | nil => cases (List.cons.inj heq).1
    | cons x front => exact ih.final front a s (List.cons.inj heq).2
  · intro front back r' s heq
    cases front with
    | nil => cases (List.cons.inj (List.cons.inj heq).2).1
    | cons x front => exact ih.single front back r' s (List.cons.inj heq).2

/-- The pieces of a plan are in their places. -/
theorem wellPlaced (h : Plan e t b k origs ps) : WellPlaced e ps := by
  induction h with
  | done => exact ⟨by simp, by simp, by simp⟩
  | last _ _ =>
      refine ⟨?_, ?_, ?_⟩
      · intro front back a s b heq
        have := congrArg List.length heq
        simp at this
        omega
      · intro front a s heq
        have := congrArg List.length heq
        simp at this
      · intro front back r s heq
        have := congrArg List.length heq
        simp at this
        omega
  | inst _ _ hps ih => exact wellPlaced_inst_cons hps ih
  | transInst _ _ _ _ _ hps ih => exact wellPlaced_trans_cons (wellPlaced_inst_cons hps ih)

end Plan

/-! ## Every block is rewritten soundly -/

variable {t : SuperTables} {addr : Ptr → Nat}

/-- At its start the rewrite loop is on track. -/
theorem rewriteStart_onTrack {e : Engine} {n : Nat} {st : TpaState} (hcosts : CostsBelowInf e)
    (hst : LabelOk e t n st) (hn : n ≤ maxBB) : OnTrack e st false 0 (rewriteStart st) := by
  have hlt := hst.canonical.lt_infCost hcosts hn
  refine ⟨rfl, e.maxstates_pos, by simp, ?_⟩
  by_cases hno : (rewriteStart st).noTransition = true
  · exact Or.inl ⟨hno, hlt⟩
  · right
    simp only [rewriteStart, Bool.or_eq_true, Bool.not_eq_true', not_or,
      Bool.not_eq_false, Bool.not_eq_true] at hno ⊢
    exact ⟨by simp [hno.1, hno.2], hno.2,
      lt_of_le_of_lt hst.transitions.canonical_le hlt, Or.inr hno.1⟩

/-- Rewriting keeps the automaton reachable. -/
theorem optimizeRewrite_reachable {e : Engine} {a : Tpa} (h : a.Reachable e t addr)
    (origs : List PrimNum) : (optimizeRewrite e t addr origs a).1.Reachable e t addr := by
  unfold optimizeRewrite
  split
  · exact h
  · exact Tpa.Reachable.block origs h

/-- The rewriting of a block is the walk along its labels. -/
theorem optimizeRewrite_eq {e : Engine} (hok : t.Ok e) {a : Tpa} (h : a.Reachable e t addr)
    {origs : List PrimNum} (hne : origs ≠ []) :
    (optimizeRewrite e t addr origs a).2 = rewriteBlock e (labels e t origs) := by
  rw [optimizeRewrite, if_neg hne]
  simp only
  rw [labelBlock_spec hok h]

/-- On track at its start, the rewriting of a block succeeds with a plan for the
block. -/
theorem optimizeRewrite_plan {e : Engine} (hok : t.Ok e) (hnonneg : ∀ p, 0 ≤ e.ssCost p) {a : Tpa}
    (h : a.Reachable e t addr) {origs : List PrimNum} (hne : origs ≠ [])
    (hlabels : SoundLabels e t origs)
    (htrack : OnTrack e (labelHead e t origs) false 0 (rewriteStart (labelHead e t origs))) :
    ∃ calls, (optimizeRewrite e t addr origs a).2 = some calls ∧
      (noautomaton e t = true →
        (rewriteStart (labelHead e t origs)).value (labelHead e t origs) =
          pieceCost e (pieces calls)) ∧
      Plan e t false canonicalState origs (pieces calls) := by
  rw [optimizeRewrite_eq hok h hne]
  exact rewriteLoop_plan hok hnonneg origs.length rfl hlabels htrack

/-- For every block of primitives with canonical variants, whatever was rewritten
before, no assertion of the rewrite loop fails, and the emitted pieces cover the
block, chain their states from the canonical state to the canonical state, and
have their transitions well placed. -/
theorem optimizeRewrite_sound {e : Engine} {t : SuperTables}
    (hprep : prepareSuperTable e = some t) (hcosts : CostsBelowInf e)
    {addr : Ptr → Nat} {a : Tpa} (hreach : a.Reachable e t addr) {origs : List PrimNum}
    (hne : origs ≠ []) (hlen : origs.length ≤ maxBB)
    (hcan : ∀ p ∈ origs, ∃ i, CanonicalRow e p i) :
    ∃ calls, (optimizeRewrite e t addr origs a).2 = some calls ∧
      Covers e t origs (pieces calls) ∧
      Chain e canonicalState (pieces calls) canonicalState ∧
      WellPlaced e (pieces calls) := by
  have hcan' : ∀ p ∈ origs, t.HasCanonical e p := by
    intro p hp
    obtain ⟨i, hrow⟩ := hcan p hp
    exact prepareSuperTable_canonical hrow hprep
  have hok := prepareSuperTable_ok hprep
  obtain ⟨calls, hcalls, -, hplan⟩ := optimizeRewrite_plan hok hcosts.nonneg hreach hne
    (soundLabels_of_canonical hcosts hok hcan' hlen)
    (rewriteStart_onTrack hcosts (labelHead_ok hcosts hok hcan' hlen) hlen)
  exact ⟨calls, hcalls, hplan.covers, hplan.chain, hplan.wellPlaced⟩

/-! ## A small engine -/

/-- An engine with two states, two primitives with variants, a superinstruction
and a transition back to the canonical state; primitive 2 is not relocatable. -/
def smallEngine : Engine where
  superCosts :=
    [⟨0, 0, 0, 0, 0, 1, false⟩, ⟨0, 0, 0, 0, 1, 1, false⟩, ⟨0, 0, 0, 0, 2, 1, false⟩,
      ⟨0, 1, 0, 0, 1, 1, false⟩, ⟨1, 0, 0, 0, 0, 1, false⟩, ⟨1, 0, 0, 0, 3, 2, false⟩]
  super2 := [0, 1, 2, 1, 2]
  priminfos :=
    [⟨some 0, 0, 4, 4, false, 0, 0⟩, ⟨some 16, 0, 4, 4, false, 0, 0⟩,
      ⟨none, 0, 4, 4, false, 0, 0⟩, ⟨some 32, 0, 4, 4, false, 0, 0⟩,
      ⟨some 48, 0, 4, 4, false, 0, 0⟩, ⟨some 64, 0, 4, 4, false, 0, 0⟩]
  noDynamic := false
  maxstates := 2
  maxstates_pos := by decide
  staticSuperNumber := 10000
  tpaNoequiv := false
  tpaNoautomaton := false
  ssCost := fun _ => 1
  nNoop := 0

theorem smallEngine_costs : CostsBelowInf smallEngine := by
  refine ⟨fun _ => (by decide : (0 : Int) ≤ 1), ?_⟩
  intro ps hps
  have hsum : (ps.map smallEngine.ssCost).sum = ps.length := by
    simp [smallEngine]
  rw [hsum]
  simp only [maxBB] at hps
  simp only [infCost]
  omega

theorem smallEngine_canonicalRow {p : PrimNum} (hp : p = 1 ∨ p = 2) :
    CanonicalRow smallEngine p p := by
  rcases hp with rfl | rfl <;>
    exact ⟨by decide, by decide, by decide, by decide, by decide, by decide⟩

/-- The tables of the small engine. -/
def smallTables : SuperTables :=
  (prepareSuperTable smallEngine).get (by decide)

/-- The block of the example is covered. -/
theorem optimizeRewrite_sound_small :
    ∃ calls, (optimizeRewrite smallEngine smallTables id [1, 1, 2]
        (Tpa.initial smallEngine smallTables)).2 = some calls ∧
      Covers smallEngine smallTables [1, 1, 2] (pieces calls) ∧
      Chain smallEngine canonicalState (pieces calls) canonicalState ∧
      WellPlaced smallEngine (pieces calls) :=
  optimizeRewrite_sound (Option.some_get _).symm smallEngine_costs Tpa.Reachable.initial
    (by decide) (by decide)
    fun p hp => ⟨p, smallEngine_canonicalRow (by simpa using hp)⟩

end Selector
end Gforth
