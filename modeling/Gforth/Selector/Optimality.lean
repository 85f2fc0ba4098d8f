import Gforth.Selector.Uncached

/-!
# Optimality of the code selector

Without normalisation the transition waypoint of a label costs no more than any
way to implement the rest of the block from its state, and the rewrite loop emits
pieces of exactly that cost.  With relocatable code only, nothing keeps the
selector from taking a transition, so the emitted cover is a cheapest one.

Main results:

- Theorem {lit}`transAt_le_pieceCost`: the labels bound the cost of every cover from
  below.
- Theorem {lit}`optimizeRewrite_optimal`: no cover of the block is cheaper than the
  emitted one.
-/

namespace Gforth
namespace Selector

open Lib

/-! ## Labels bound all covers from below -/

/-- All variants that apply in the block are relocatable. -/
def AllRelocatable (e : Engine) (t : SuperTables) (origs : List PrimNum) : Prop :=
  ∀ s seq, InTable t s seq → seq <:+: origs → e.isRelocatable s = true

variable {e : Engine} {t : SuperTables} {origs : List PrimNum} {ps : List Piece}

/-- A transition offers its state what is reachable behind it. -/
theorem transitions_le_candidate {st : TpaState} {r : PrimNum} (hr : r ∈ t.stateTransitions)
    (hlt : (e.cost r).stateIn < st.inst.length)
    (hne : (st.instAt (e.cost r).stateOut).cost ≠ infCost) :
    ((transitions e t st).transAt (e.cost r).stateIn).cost ≤
      e.ssCost r + (st.instAt (e.cost r).stateOut).cost := by
  have hcand := chainCandidate_eq_some.mpr ⟨hne, rfl, rfl⟩
  have hlt' : (e.cost r).stateIn <
      (st.inst.map fun w => { w with noTransition := true }).length := by
    simpa using hlt
  have hle := relaxAll_le_candidate Waypoint.cost hlt' (List.mem_filterMap.mpr ⟨r, hr, hcand⟩)
  rw [add_comm]
  exact hle

/-- An instruction offers its state what is reachable behind it. -/
theorem labelInst_le_candidate {ts : List TpaState} {j : Nat} {s : PrimNum}
    (hrule : (j, s) ∈ baseRules t origs) (hlt : (e.cost s).stateIn < e.maxstates)
    (hne : (behind e (ts.getD j default) s).cost ≠ infCost) :
    ((labelInst e t origs ts).getD (e.cost s).stateIn default).cost ≤
      e.ssCost s + (behind e (ts.getD j default) s).cost := by
  have hcand := baseCandidate_eq_some.mpr ⟨hne, rfl, rfl⟩
  have hmem : _ ∈ (baseRules t origs).filterMap
      fun r => baseCandidate e (ts.getD r.1 default) r.2 :=
    List.mem_filterMap.mpr ⟨(j, s), hrule, hcand⟩
  rw [add_comm]
  exact relaxAll_le_candidate Waypoint.cost (by simpa using hlt) hmem

/-- Every label is made of instruction waypoints by adding the transitions, as long
as it is not normalised. -/
theorem labelHead_eq_transitions (hauto : noautomaton e t = true) (origs : List PrimNum) :
    ∃ st : TpaState, st.inst.length = e.maxstates ∧
      labelHead e t origs = transitions e t st := by
  cases origs with
  | nil => exact ⟨_, by simp [emptyTpaState], rfl⟩
  | cons p rest =>
      refine ⟨{ emptyTpaState e with inst := labelInst e t (p :: rest) (labels e t rest) },
        length_labelInst e t (p :: rest) (labels e t rest), ?_⟩
      rw [labelHead_cons, labelState_eq, if_pos hauto]
      rfl

/-- What a cover of the block with some pieces in front says about the pieces
behind them. -/
theorem Covers.inst_cons {s : PrimNum} (h : Covers e t origs (Piece.inst s :: ps)) :
    ∃ rest, origs = e.components s ++ rest ∧ Covers e t rest ps ∧
      InTable t s (e.components s) ∧ e.components s ≠ [] :=
  ⟨_, h.flatMap_components.symm,
    ⟨rfl, fun q hq => h.inTable q (List.mem_cons_of_mem _ hq),
      fun q hq => h.segment q (List.mem_cons_of_mem _ hq),
      fun q hq => h.transition q (List.mem_cons_of_mem _ hq)⟩,
    h.inTable s List.mem_cons_self, h.segment s List.mem_cons_self⟩

/-- A cover without its first transition -/
theorem Covers.trans_cons {r : PrimNum} (h : Covers e t origs (Piece.trans r :: ps)) :
    Covers e t origs ps ∧ r ∈ t.stateTransitions :=
  ⟨⟨h.flatMap_components, fun q hq => h.inTable q (List.mem_cons_of_mem _ hq),
      fun q hq => h.segment q (List.mem_cons_of_mem _ hq),
      fun q hq => h.transition q (List.mem_cons_of_mem _ hq)⟩,
    h.transition r List.mem_cons_self⟩

/-- No two transitions follow each other. -/
def SingleTransitions (ps : List Piece) : Prop :=
  ∀ front back r s, ps ≠ front ++ Piece.trans r :: Piece.trans s :: back

theorem SingleTransitions.tail {p : Piece} (h : SingleTransitions (p :: ps)) :
    SingleTransitions ps := by
  intro front back r s heq
  exact h (p :: front) back r s (by rw [heq, List.cons_append])

section

variable {e : Engine} {t : SuperTables} (hok : t.Ok e) (hauto : noautomaton e t = true)
  (hnonneg : ∀ p, 0 ≤ e.ssCost p)

include hauto

/-- A transition costs no more than an instruction. -/
theorem labelHead_trans_le_inst (origs : List PrimNum) {k : State} (hk : k < e.maxstates) :
    ((labelHead e t origs).transAt k).cost ≤ ((labelHead e t origs).instAt k).cost := by
  obtain ⟨st, hlen, heq⟩ := labelHead_eq_transitions hauto origs
  rw [heq, transitions_instAt]
  exact transitions_le_inst e t (by rwa [hlen])

include hok

/-- An instruction in front of a cover of the rest. -/
theorem instAt_le_of_rest {s : PrimNum} {rest : List PrimNum} {c : Int}
    (hrel : AllRelocatable e t (e.components s ++ rest)) (htable : InTable t s (e.components s))
    (hseg : e.components s ≠ []) (hc : c < infCost)
    (hrest : ((labelHead e t rest).transAt (e.cost s).stateOut).cost ≤ c) :
    ((labelHead e t (e.components s ++ rest)).instAt (e.cost s).stateIn).cost ≤
      e.ssCost s + c := by
  obtain ⟨ssList, hlookup, hs⟩ := htable
  obtain ⟨p, seq, hseq⟩ := List.exists_cons_of_ne_nil hseg
  have hlength : (e.cost s).length = seq.length + 1 := by
    rw [← Engine.length_components, hseq, List.length_cons]
  have hrule : (seq.length, s) ∈ baseRules t (e.components s ++ rest) := by
    refine mem_baseRules.mpr ⟨?_, ?_, ssList, ?_, hs⟩
    · have := hok.length_le_maxSuper hlookup
      rw [hseq, List.length_cons] at this
      omega
    · rw [hseq]
      simp
    · rw [List.take_append_of_le_length (by rw [hseq]; simp), List.take_of_length_le
        (by rw [hseq]; simp)]
      exact hlookup
  have hrels : e.isRelocatable s = true :=
    hrel s _ ⟨ssList, hlookup, hs⟩ (List.prefix_append _ _).isInfix
  have hnext : (labels e t (seq ++ rest)).getD seq.length default = labelHead e t rest := by
    rw [labels_getD e t (by simp), List.drop_left]
  have hbehind : behind e (labelHead e t rest) s =
      (labelHead e t rest).transAt (e.cost s).stateOut := by
    simp [behind, direct, hrels]
  have hle := labelInst_le_candidate hrule
    (hok.implements hlookup hs).stateIn_lt (by rw [hnext, hbehind]; omega)
  rw [hnext, hbehind] at hle
  have hhead : (labelHead e t (e.components s ++ rest)).instAt (e.cost s).stateIn =
      (labelInst e t (e.components s ++ rest) (labels e t (seq ++ rest))).getD
        (e.cost s).stateIn default := by
    rw [hseq, List.cons_append, labelHead_cons, labelState_eq, if_pos hauto]
    rfl
  rw [hhead]
  omega

include hnonneg

/-- The labels bound the cost of every cover from below: the transition waypoint in
any case, the instruction waypoint if the cover starts with an instruction. -/
theorem transAt_le_pieceCost (ps : List Piece) :
    ∀ {k : State} {origs : List PrimNum}, k < e.maxstates → AllRelocatable e t origs →
      Covers e t origs ps → Chain e k ps canonicalState → SingleTransitions ps →
      pieceCost e ps < infCost →
      ((labelHead e t origs).transAt k).cost ≤ pieceCost e ps ∧
        ((∀ r ps', ps ≠ Piece.trans r :: ps') →
          ((labelHead e t origs).instAt k).cost ≤ pieceCost e ps) := by
  induction ps with
  | nil =>
      intro k origs hk _ hcov hchain _ _
      obtain rfl : origs = [] := hcov.flatMap_components.symm
      obtain rfl : k = canonicalState := hchain
      have hinst : ((labelHead e t []).instAt canonicalState).cost = 0 := by
        change ((makeTermstate e t).instAt canonicalState).cost = 0
        rw [makeTermstate_instAt e t hk, if_pos rfl]
      have hle := labelHead_trans_le_inst hauto [] hk
      rw [pieceCost_nil]
      exact ⟨by omega, fun _ => by omega⟩
  | cons p ps ih =>
      intro k origs hk hrel hcov hchain hsingle hcost
      rw [pieceCost_cons] at hcost ⊢
      have hp := hnonneg p.prim
      cases p with
      | inst s =>
          obtain ⟨hin, hchain⟩ := hchain
          obtain ⟨rest, rfl, hrest, htable, hseg⟩ := hcov.inst_cons
          have himpl : Implements e s (e.components s) := by
            obtain ⟨ssList, hlookup, hs⟩ := htable
            exact hok.implements hlookup hs
          have hrelRest : AllRelocatable e t rest := fun q seq hq hpart =>
            hrel q seq hq (hpart.trans (List.suffix_append _ _).isInfix)
          obtain ⟨htrans, -⟩ := ih himpl.stateOut_lt hrelRest hrest hchain hsingle.tail
            (by simp only [Piece.prim] at hp hcost; omega)
          subst hin
          have hinst := instAt_le_of_rest hok hauto hrel htable hseg
            (by simp only [Piece.prim] at hp hcost; omega) htrans
          have hle := labelHead_trans_le_inst hauto (e.components s ++ rest) hk
          exact ⟨le_trans hle hinst, fun _ => hinst⟩
      | trans r =>
          obtain ⟨hin, hchain⟩ := hchain
          obtain ⟨hcov', hr⟩ := hcov.trans_cons
          have htr := hok.transitions hr
          have hstart : ∀ r' ps', ps ≠ Piece.trans r' :: ps' := by
            rintro r' ps' rfl
            exact hsingle [] ps' r r' rfl
          obtain ⟨-, hinst⟩ := ih htr.stateOut_lt hrel hcov' hchain hsingle.tail
            (by simp only [Piece.prim] at hp hcost; omega)
          have hinst := hinst hstart
          obtain ⟨st, hlen, heq⟩ := labelHead_eq_transitions hauto origs
          rw [heq] at hinst ⊢
          subst hin
          refine ⟨?_, fun hnot => (hnot r ps rfl).elim⟩
          have hle := transitions_le_candidate hr (by rw [hlen]; exact htr.stateIn_lt)
            (by
              rw [transitions_instAt] at hinst
              simp only [Piece.prim] at hp hcost
              omega)
          simp only [Piece.prim, transitions_instAt] at hle hinst hp hcost ⊢
          omega

/-- Where the canonical state is reachable, the loop starts on the waypoint of its
transitions. -/
theorem rewriteStart_onTrack_value {p : PrimNum} {rest : List PrimNum}
    (hrel : AllRelocatable e t (p :: rest))
    (hlt : ((labelHead e t (p :: rest)).transAt canonicalState).cost < infCost) :
    OnTrack e (labelHead e t (p :: rest)) false 0 (rewriteStart (labelHead e t (p :: rest))) ∧
      (rewriteStart (labelHead e t (p :: rest))).value (labelHead e t (p :: rest)) =
        ((labelHead e t (p :: rest)).transAt canonicalState).cost := by
  have hlabels := soundLabels_of_noautomaton hauto (p :: rest)
  have hst : TransitionsSound e t (labelHead e t (p :: rest)) := hlabels 0 (Nat.zero_le _)
  have hcanonical : canonicalState < e.maxstates := e.maxstates_pos
  have hsound := hst.sound hcanonical (ne_of_lt hlt)
  revert hlt hsound
  generalize hstEq : labelHead e t (p :: rest) = st
  intro hlt hsound
  rcases hsound with ⟨hno, hcost⟩ | ⟨hno, hmem, -, hcost, hrelEq⟩
  · have hstart : (rewriteStart st).noTransition = true := by simp [rewriteStart, hno]
    have hinst : (st.instAt canonicalState).cost < infCost := by omega
    refine ⟨⟨rfl, e.maxstates_pos, by simp, Or.inl ⟨hstart, hinst⟩⟩, ?_⟩
    rw [LoopState.value, if_pos hstart]
    exact hcost.symm
  · have hpos := hnonneg (st.transAt canonicalState).inst
    -- the transition leads to an instruction of the block, which is relocatable
    have hreloc : (st.transAt canonicalState).relocatable = true := by
      have hw := labelHead_instSound hok hnonneg hlabels (hok.transitions hmem).stateOut_lt
        (by rw [hstEq]; omega)
      obtain ⟨j, hrule, -⟩ := hw.rule
      obtain ⟨-, -, hin⟩ := mem_baseRules.mp hrule
      rw [hstEq] at hw hin
      rw [hrelEq, hw.relocatable_eq]
      exact hrel _ _ hin (List.take_prefix _ _).isInfix
    have hstart : (rewriteStart st).noTransition = false := by simp [rewriteStart, hno, hreloc]
    refine ⟨⟨rfl, e.maxstates_pos, by simp, Or.inr ⟨hstart, hno, hlt, Or.inr hreloc⟩⟩, ?_⟩
    rw [LoopState.value, if_neg (by simp [hstart])]
    rfl

end

/-! ## The emitted cover is a cheapest one -/

/-- The sequences of pieces among which the selector chooses: they cover the block,
chain their states from the canonical state to the canonical state, and have at most
one transition in front of each instruction and at the end. -/
structure Admissible (e : Engine) (t : SuperTables) (origs : List PrimNum)
    (ps : List Piece) : Prop where
  covers : Covers e t origs ps
  chain : Chain e canonicalState ps canonicalState
  single : SingleTransitions ps

/-- At most one transition in front of each instruction and one at the end. -/
theorem SingleTransitions.length_le (h : SingleTransitions ps) :
    ps.length ≤ 2 * (instructions ps).length + 1 ∧
      ((∀ r ps', ps ≠ Piece.trans r :: ps') → ps.length ≤ 2 * (instructions ps).length) := by
  induction ps with
  | nil => simp [instructions]
  | cons p ps ih =>
      obtain ⟨hle, hinst⟩ := ih h.tail
      cases p with
      | inst s =>
          have hcount : (instructions (Piece.inst s :: ps)).length =
              (instructions ps).length + 1 := rfl
          rw [hcount, List.length_cons]
          exact ⟨by omega, fun _ => by omega⟩
      | trans r =>
          have hcount : (instructions (Piece.trans r :: ps)).length =
              (instructions ps).length := rfl
          have hps := hinst (by
            rintro r' ps' rfl
            exact h [] ps' r r' rfl)
          rw [hcount, List.length_cons]
          exact ⟨by omega, fun hnot => (hnot r ps rfl).elim⟩

/-- A cover has no more instructions than the block. -/
theorem Covers.length_instructions_le :
    ∀ {origs : List PrimNum}, Covers e t origs ps →
      (instructions ps).length ≤ origs.length := by
  induction ps with
  | nil => simp [instructions]
  | cons p ps ih =>
      intro origs h
      cases p with
      | inst s =>
          obtain ⟨rest, rfl, hrest, -, hseg⟩ := h.inst_cons
          have hle := ih hrest
          have hpos := List.length_pos_iff.mpr hseg
          have hcount : (instructions (Piece.inst s :: ps)).length =
              (instructions ps).length + 1 := rfl
          rw [hcount, List.length_append]
          omega
      | trans r => exact ih h.trans_cons.1

/-- Covers have finite costs. -/
theorem Admissible.pieceCost_lt (h : Admissible e t origs ps) (hcosts : CostsBelowInf e)
    (hlen : origs.length ≤ maxBB) : pieceCost e ps < infCost := by
  have hinsts := h.covers.length_instructions_le
  have hle := h.single.length_le.1
  have hsum := hcosts.sum_lt (ps.map Piece.prim) (by rw [List.length_map]; omega)
  rwa [List.map_map] at hsum

/-- Nothing in the definition of a cover depends on the automaton. -/
theorem admissible_uncached : Admissible e.uncached t origs ps ↔ Admissible e t origs ps := by
  have hchain : ∀ {k : State} {ps : List Piece},
      Chain e.uncached k ps canonicalState ↔ Chain e k ps canonicalState := by
    intro k ps
    induction ps generalizing k with
    | nil => exact Iff.rfl
    | cons p ps ih => exact and_congr Iff.rfl ih
  constructor
  · intro h
    exact ⟨⟨h.covers.flatMap_components, h.covers.inTable, h.covers.segment,
      h.covers.transition⟩, hchain.mp h.chain, h.single⟩
  · intro h
    exact ⟨⟨h.covers.flatMap_components, h.covers.inTable, h.covers.segment,
      h.covers.transition⟩, hchain.mpr h.chain, h.single⟩

/-- The emitted cover of a block is a cheapest one, as long as labels are not
normalised. -/
theorem optimizeRewrite_optimal_of_noautomaton (hok : t.Ok e) (hauto : noautomaton e t = true)
    (hcosts : CostsBelowInf e) {addr : Ptr → Nat} {a : Tpa} (hreach : a.Reachable e t addr)
    (hne : origs ≠ []) (hlen : origs.length ≤ maxBB) (hrel : AllRelocatable e t origs)
    (hex : ∃ ps, Admissible e t origs ps) :
    ∃ calls, (optimizeRewrite e t addr origs a).2 = some calls ∧
      Admissible e t origs (pieces calls) ∧
      ∀ ps, Admissible e t origs ps → pieceCost e (pieces calls) ≤ pieceCost e ps := by
  obtain ⟨p, rest, rfl⟩ := List.exists_cons_of_ne_nil hne
  have hbound : ∀ ps, Admissible e t (p :: rest) ps →
      ((labelHead e t (p :: rest)).transAt canonicalState).cost ≤ pieceCost e ps :=
    fun ps hps => (transAt_le_pieceCost hok hauto hcosts.nonneg ps e.maxstates_pos hrel
      hps.covers hps.chain hps.single (hps.pieceCost_lt hcosts hlen)).1
  obtain ⟨qs, hqs⟩ := hex
  have hlt := lt_of_le_of_lt (hbound qs hqs) (hqs.pieceCost_lt hcosts hlen)
  obtain ⟨htrack, hvalue⟩ := rewriteStart_onTrack_value hok hauto hcosts.nonneg hrel hlt
  obtain ⟨calls, hcalls, hcost, hplan⟩ := optimizeRewrite_plan hok hcosts.nonneg hreach hne
    (soundLabels_of_noautomaton hauto _) htrack
  refine ⟨calls, hcalls, ⟨hplan.covers, hplan.chain, hplan.wellPlaced.single⟩, ?_⟩
  intro ps hps
  rw [← hcost hauto, hvalue]
  exact hbound ps hps

/-- For every block of relocatable primitives, without the automaton or without
superinstructions of two or more components, the emitted pieces cost no more than
any other way to cover the block. -/
theorem optimizeRewrite_optimal {e : Engine} {t : SuperTables}
    (hprep : prepareSuperTable e = some t) (hcosts : CostsBelowInf e)
    (hmode : noautomaton e t = true ∨ ∀ s seq, InTable t s seq → seq.length < 2)
    {addr : Ptr → Nat} {a : Tpa} (hreach : a.Reachable e t addr) {origs : List PrimNum}
    (hne : origs ≠ []) (hlen : origs.length ≤ maxBB) (hrel : AllRelocatable e t origs)
    (hex : ∃ ps, Admissible e t origs ps) :
    ∃ calls, (optimizeRewrite e t addr origs a).2 = some calls ∧
      Admissible e t origs (pieces calls) ∧
      ∀ ps, Admissible e t origs ps → pieceCost e (pieces calls) ≤ pieceCost e ps := by
  have hsafe : CacheSafe e t origs :=
    hmode.imp id fun h => ⟨fun s seq hin _ => h s seq hin, hcosts⟩
  have hreach' : (Tpa.initial e.uncached t).Reachable e.uncached t addr := Tpa.Reachable.initial
  obtain ⟨qs, hqs⟩ := hex
  obtain ⟨calls, hcalls, hadm, hmin⟩ := optimizeRewrite_optimal_of_noautomaton
    (uncached_ok hprep) (noautomaton_uncached e t) ⟨hcosts.nonneg, hcosts.sum_lt⟩ hreach'
    hne hlen hrel ⟨qs, admissible_uncached.mpr hqs⟩
  refine ⟨calls, ?_, admissible_uncached.mp hadm, ?_⟩
  · rw [optimizeRewrite_uncached hprep hreach hreach' hlen hsafe]
    exact hcalls
  · intro ps hps
    exact hmin ps (admissible_uncached.mpr hps)

/-- The small engine, with every primitive relocatable. -/
def relocatableEngine : Engine :=
  { cachedEngine with
    priminfos := cachedEngine.priminfos.set 2 ⟨some 80, 0, 4, 4, false, 0, 0⟩ }

/-- The tables of this engine. -/
def relocatableTables : SuperTables :=
  (prepareSuperTable relocatableEngine).get (by decide)

theorem relocatableTables_eq : prepareSuperTable relocatableEngine = some relocatableTables :=
  (Option.some_get _).symm

theorem relocatableTables_ok : relocatableTables.Ok relocatableEngine :=
  prepareSuperTable_ok relocatableTables_eq

theorem relocatableEngine_costs : CostsBelowInf relocatableEngine :=
  ⟨cachedEngine_costs.nonneg, cachedEngine_costs.sum_lt⟩

/-- The example has no superinstructions. -/
theorem relocatableTables_single {s : PrimNum} {seq : List PrimNum}
    (h : InTable relocatableTables s seq) : seq.length < 2 := by
  obtain ⟨ssList, hlookup, -⟩ := h
  by_contra hlen
  exact absurd (relocatableTables_ok.nsupers_pos hlookup (by omega)) (by decide)

/-- Everything is relocatable in the example. -/
theorem relocatableEngine_allRelocatable :
    AllRelocatable relocatableEngine relocatableTables [1, 1, 2] := by
  rintro s seq hin hpart
  have hlen := relocatableTables_single hin
  obtain ⟨ssList, hlookup, hs⟩ := hin
  have hlists : ∀ l ∈ [[], [1], [2]], ∀ q ∈ (relocatableTables.lookupSuper l).getD [],
      relocatableEngine.isRelocatable q = true := by
    decide
  refine hlists seq ?_ s (by rwa [hlookup])
  match seq, hlen with
  | [], _ => simp
  | [p], _ => simpa using hpart.subset List.mem_cons_self

/-- A cover of the example -/
theorem relocatableEngine_admissible : Admissible relocatableEngine relocatableTables [1, 1, 2]
    [Piece.inst 1, Piece.inst 1, Piece.inst 2] where
  covers := by
    have hone : InTable relocatableTables 1 (relocatableEngine.components 1) :=
      ⟨_, rfl, by decide⟩
    have htwo : InTable relocatableTables 2 (relocatableEngine.components 2) :=
      ⟨_, rfl, by decide⟩
    exact Plan.covers_inst_cons (Plan.covers_inst_cons (Plan.covers_inst_cons
      Plan.covers_nil htwo (by decide)) hone (by decide)) hone (by decide)
  chain := ⟨rfl, rfl, rfl, rfl⟩
  single := by
    intro front back r s heq
    have hmem : Piece.trans r ∈ [Piece.inst 1, Piece.inst 1, Piece.inst 2] := by
      rw [heq]
      simp
    simp at hmem

/-- The block of the example is covered at the least cost. -/
theorem optimizeRewrite_optimal_relocatable :
    noautomaton relocatableEngine relocatableTables = false ∧
    ∃ calls, (optimizeRewrite relocatableEngine relocatableTables id [1, 1, 2]
        (Tpa.initial relocatableEngine relocatableTables)).2 = some calls ∧
      Admissible relocatableEngine relocatableTables [1, 1, 2] (pieces calls) ∧
      ∀ ps, Admissible relocatableEngine relocatableTables [1, 1, 2] ps →
        pieceCost relocatableEngine (pieces calls) ≤ pieceCost relocatableEngine ps :=
  ⟨by decide, optimizeRewrite_optimal relocatableTables_eq relocatableEngine_costs
    (Or.inr fun _ _ h => relocatableTables_single h) Tpa.Reachable.initial
    (List.cons_ne_nil _ _) (by decide : [1, 1, 2].length ≤ maxBB) relocatableEngine_allRelocatable
    ⟨_, relocatableEngine_admissible⟩⟩

end Selector
end Gforth
