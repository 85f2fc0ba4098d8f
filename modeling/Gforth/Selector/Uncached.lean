import Gforth.Selector.Soundness

/-!
# The automaton against plain dynamic programming

With the automaton in use every new label is normalised: the cost of its
canonical state is subtracted from all its costs.  Where only single
instructions apply, all costs that the next label compares are lowered by the
same amount, so the same waypoints are chosen as without automaton.  Where a
superinstruction applies, costs from differently lowered labels are compared, and
the choices can differ.

Main results:

- Theorem {lit}`labelHead_lowered`: in a block without applicable
  superinstructions the normalised labels are the plain ones, with all costs
  lowered alike.
- Theorem {lit}`rewriteAll_cost_uncached`: the cost of the emitted cover is the one
  without automaton and without state equivalence, for every block of every run,
  if the automaton is off or no superinstruction applies in the blocks.
- Theorem {lit}`rewriteAll_cost_noequiv`: with state equivalence alone switched
  off, a block with an applicable superinstruction can get a worse cover.
-/

namespace Gforth
namespace Selector

open Lib

/-- The engine with the automaton and state equivalence both switched off. -/
def Engine.uncached (e : Engine) : Engine :=
  { e with tpaNoequiv := true, tpaNoautomaton := true }

@[simp]
theorem noautomaton_uncached (e : Engine) (t : SuperTables) :
    noautomaton e.uncached t = true :=
  rfl

theorem prepareSuperTable_uncached (e : Engine) :
    prepareSuperTable e.uncached = prepareSuperTable e :=
  rfl

variable {e : Engine} {t : SuperTables} {w : Waypoint} {st : TpaState} {origs : List PrimNum}

/-- Without the automaton there is nothing to normalise, whatever the other
settings are. -/
theorem labels_uncached (hauto : noautomaton e t = true) (origs : List PrimNum) :
    labels e t origs = labels e.uncached t origs := by
  induction origs with
  | nil => rfl
  | cons p rest ih =>
      simp only [labels]
      rw [ih, labelState_eq, labelState_eq, if_pos hauto, noautomaton_uncached, if_pos rfl]
      rfl

/-! ## Lowered labels -/

/-- Lower all costs of a label. -/
def TpaState.lower (d : Int) (st : TpaState) : TpaState where
  inst := st.inst.map (Waypoint.lower d)
  trans := st.trans.map (Waypoint.lower d)

theorem normalize_eq_lower (st : TpaState) :
    tpaStateNormalize st = st.lower (st.instAt canonicalState).cost :=
  rfl

/-- A cost that is as infinite lowered as it was before. -/
def Waypoint.Fits (d : Int) (w : Waypoint) : Prop :=
  w.cost = infCost ∨ (w.cost < infCost ∧ w.cost - d < infCost)

/-- Infinite costs stay infinite, and finite ones finite. -/
theorem lower_cost_eq_infCost_iff {d : Int} (hw : w.Fits d) :
    (w.lower d).cost = infCost ↔ w.cost = infCost := by
  constructor
  · intro h
    by_contra hne
    rw [lower_cost d hne] at h
    rcases hw with hw | ⟨-, hw⟩
    · exact hne hw
    · omega
  · intro h
    rw [Waypoint.lower, if_neg (by simpa using h)]
    exact h

/-- Lowering keeps the order of costs that fit. -/
theorem lower_cost_le_iff {d : Int} {v w : Waypoint} (hv : v.Fits d) (hw : w.Fits d) :
    (v.lower d).cost ≤ (w.lower d).cost ↔ v.cost ≤ w.cost := by
  rcases hv with hv | ⟨hv, hvd⟩ <;> rcases hw with hw | ⟨hw, hwd⟩
  · simp [Waypoint.lower, hv, hw]
  · rw [lower_cost d (ne_of_lt hw), Waypoint.lower, if_neg (by simpa using hv), hv]
    constructor <;> intro <;> omega
  · rw [lower_cost d (ne_of_lt hv), Waypoint.lower, if_neg (by simpa using hw), hw]
    constructor <;> intro <;> omega
  · rw [lower_cost d (ne_of_lt hv), lower_cost d (ne_of_lt hw)]
    omega

/-- Lowering twice -/
theorem lower_lower {d d' : Int} (hw : w.Fits d) : (w.lower d).lower d' = w.lower (d + d') := by
  by_cases hinf : w.cost = infCost
  · simp [Waypoint.lower, hinf]
  · have hne : (w.lower d).cost ≠ infCost := by
      rwa [Ne, lower_cost_eq_infCost_iff hw]
    rw [Waypoint.lower, if_pos hne, Waypoint.lower, if_pos hinf, Waypoint.lower, if_pos hinf]
    simp only
    congr 1
    ring

/-! ## Plain costs are sums of costs -/

/-- A reachable waypoint costs what at most {lit}`m` pieces cost. -/
def Waypoint.SumOf (e : Engine) (m : Nat) (w : Waypoint) : Prop :=
  w.cost ≠ infCost → ∃ ps : List PrimNum, ps.length ≤ m ∧ w.cost = (ps.map e.ssCost).sum

/-- A sum of costs is in its bounds. -/
theorem Waypoint.SumOf.bounds (hcosts : CostsBelowInf e) {m : Nat} (hm : m ≤ 2 * maxBB + 1)
    (hw : w.SumOf e m) (hne : w.cost ≠ infCost) : 0 ≤ w.cost ∧ w.cost < infCost := by
  obtain ⟨ps, hps, hsum⟩ := hw hne
  rw [hsum]
  exact ⟨List.sum_nonneg (by simpa using fun p _ => hcosts.nonneg p),
    hcosts.sum_lt ps (le_trans hps hm)⟩

/-- A sum of costs can be lowered. -/
theorem Waypoint.SumOf.fits (hcosts : CostsBelowInf e) {m : Nat} (hm : m ≤ 2 * maxBB + 1)
    (hw : w.SumOf e m) {d : Int} (hd : 0 ≤ d) : w.Fits d := by
  by_cases hinf : w.cost = infCost
  · exact Or.inl hinf
  · obtain ⟨-, hlt⟩ := hw.bounds hcosts hm hinf
    exact Or.inr ⟨hlt, by omega⟩

/-- One more piece in front. -/
theorem Waypoint.SumOf.add {m : Nat} (hw : w.SumOf e m) (hne : w.cost ≠ infCost) (s : PrimNum)
    (rel no : Bool) : Waypoint.SumOf e (m + 1) ⟨w.cost + e.ssCost s, s, rel, no⟩ := by
  obtain ⟨ps, hps, hsum⟩ := hw hne
  intro _
  refine ⟨s :: ps, by simpa using hps, ?_⟩
  rw [List.map_cons, List.sum_cons, ← hsum, add_comm]

/-- The costs of a label in front of {lit}`n` instructions, without
normalisation. -/
structure Plain (e : Engine) (n : Nat) (st : TpaState) : Prop where
  length_inst : st.inst.length = e.maxstates
  length_trans : st.trans.length = e.maxstates
  inst : ∀ w ∈ st.inst, w.SumOf e (2 * n)
  trans : ∀ w ∈ st.trans, w.SumOf e (2 * n + 1)

theorem getD_mem {ws : List Waypoint} {k : Nat} (hk : k < ws.length) :
    ws.getD k default ∈ ws := by
  rw [List.getD_eq_getElem _ _ hk]
  exact List.getElem_mem hk

theorem Plain.instAt {n : Nat} (h : Plain e n st) {k : State} (hk : k < e.maxstates) :
    (st.instAt k).SumOf e (2 * n) :=
  h.inst _ (getD_mem (by rwa [h.length_inst]))

theorem Plain.transAt {n : Nat} (h : Plain e n st) {k : State} (hk : k < e.maxstates) :
    (st.transAt k).SumOf e (2 * n + 1) :=
  h.trans _ (getD_mem (by rwa [h.length_trans]))

/-- The costs behind an instruction are sums. -/
theorem Plain.behind {n : Nat} {next : TpaState} (h : Plain e n next) {s : PrimNum}
    (hs : (e.cost s).stateOut < e.maxstates) : (behind e next s).SumOf e (2 * n + 1) := by
  unfold Selector.behind
  split
  · intro hne
    obtain ⟨ps, hps, hsum⟩ := h.instAt hs hne
    exact ⟨ps, by omega, hsum⟩
  · exact h.transAt hs

/-- Adding the transitions to instruction waypoints. -/
theorem transitions_plain (hok : t.Ok e) {n : Nat} (hlen : st.inst.length = e.maxstates)
    (hinst : ∀ w ∈ st.inst, w.SumOf e (2 * n)) : Plain e n (transitions e t st) := by
  refine ⟨hlen, by simpa using hlen, hinst, ?_⟩
  intro w hw
  rcases mem_relaxAll Waypoint.cost hw with hmem | ⟨c, hc, rfl⟩
  · obtain ⟨v, hv, rfl⟩ := List.mem_map.mp hmem
    intro hne
    obtain ⟨ps, hps, hsum⟩ := hinst v hv hne
    exact ⟨ps, by omega, hsum⟩
  · obtain ⟨s, hs, hcand⟩ := List.mem_filterMap.mp hc
    obtain ⟨hne, -, hw⟩ := chainCandidate_eq_some.mp hcand
    rw [← hw]
    have hout : (e.cost s).stateOut < st.inst.length := by
      rw [hlen]
      exact (hok.transitions hs).stateOut_lt
    exact (hinst _ (getD_mem hout)).add hne s _ _

/-- The label in front of an instruction, if the labels behind are plain. -/
theorem rawState_plain (hok : t.Ok e) {ts : List TpaState}
    (hts : ∀ j < origs.length, Plain e (origs.length - (j + 1)) (ts.getD j default)) :
    Plain e origs.length (rawState e t origs ts) := by
  refine transitions_plain hok (length_labelInst e t origs ts) ?_
  intro w hw
  rcases mem_relaxAll Waypoint.cost hw with hmem | ⟨c, hc, rfl⟩
  · intro hne
    rw [initWaypoints] at hmem
    exact absurd (congrArg Waypoint.cost (List.eq_of_mem_replicate hmem)) hne
  · obtain ⟨⟨j, s⟩, hrule, hcand⟩ := List.mem_filterMap.mp hc
    obtain ⟨hne, -, hw⟩ := baseCandidate_eq_some.mp hcand
    have hj : j + 1 ≤ origs.length := (mem_baseRules.mp hrule).2.1
    rw [← hw]
    intro hfinite
    obtain ⟨ps, hps, hsum⟩ := ((hts j hj).behind
      (baseRules_implements hok hrule).stateOut_lt).add hne s _ _ hfinite
    exact ⟨ps, by omega, hsum⟩

/-- The final state has costs that are sums. -/
theorem makeTermstate_plain (hok : t.Ok e) : Plain e 0 (makeTermstate e t) := by
  refine transitions_plain hok (by simp [emptyTpaState]) ?_
  intro w hw hne
  rcases List.mem_or_eq_of_mem_set hw with hmem | rfl
  · exact absurd (congrArg Waypoint.cost (List.eq_of_mem_replicate hmem)) hne
  · exact ⟨[], by simp, rfl⟩

/-- Without automaton all labels are plain. -/
theorem labelHead_plain (hok : t.Ok e) (hauto : noautomaton e t = true) (n : Nat) :
    ∀ {origs : List PrimNum}, origs.length = n → Plain e n (labelHead e t origs) := by
  induction n using Nat.strong_induction_on with
  | _ n ih =>
      intro origs hn
      cases origs with
      | nil =>
          subst hn
          exact makeTermstate_plain hok
      | cons p rest =>
          rw [labelHead_cons, labelState_eq, if_pos hauto, ← hn]
          refine rawState_plain hok ?_
          intro j hj
          have hj' : j ≤ rest.length := by simpa using Nat.lt_succ_iff.mp hj
          rw [labels_getD e t hj']
          refine ih _ ?_ ?_
          · simp only [List.length_cons] at hn ⊢
            omega
          · simp

/-! ## Lowering the label behind an instruction -/

theorem lower_instAt (d : Int) {k : State} (hk : k < st.inst.length) :
    (st.lower d).instAt k = (st.instAt k).lower d :=
  getD_map_of_lt _ hk

theorem lower_transAt (d : Int) {k : State} (hk : k < st.trans.length) :
    (st.lower d).transAt k = (st.transAt k).lower d :=
  getD_map_of_lt _ hk

section

variable {e : Engine} (hcosts : CostsBelowInf e) {d : Int} (hd : 0 ≤ d) {n : Nat}

include hcosts

/-- One more piece in front of a lowered waypoint. -/
theorem lower_add {m : Nat} (hm : m < 2 * maxBB + 1) {w : Waypoint} (hw : w.SumOf e m)
    (hne : w.cost ≠ infCost) (s : PrimNum) (rel no : Bool) :
    Waypoint.lower d ⟨w.cost + e.ssCost s, s, rel, no⟩ =
      ⟨(w.lower d).cost + e.ssCost s, s, rel, no⟩ := by
  obtain ⟨ps, hps, hsum⟩ := hw hne
  have hlt : w.cost + e.ssCost s < infCost := by
    have := hcosts.sum_lt (s :: ps) (by simp; omega)
    rw [List.map_cons, List.sum_cons, ← hsum] at this
    omega
  rw [Waypoint.lower, if_pos (ne_of_lt hlt), lower_cost d hne]
  simp only
  congr 1
  ring

include hd

/-- Lowering the label behind an instruction lowers what the instruction
offers. -/
theorem baseCandidate_lower (hn : 2 * n + 1 < 2 * maxBB + 1) {next : TpaState}
    (hnext : Plain e n next) {s : PrimNum} (hs : (e.cost s).stateOut < e.maxstates) :
    baseCandidate e (next.lower d) s =
      (baseCandidate e next s).map fun c => (c.1, c.2.lower d) := by
  have htrans := lower_transAt d (k := (e.cost s).stateOut)
    (by rwa [hnext.length_trans])
  have hinst := lower_instAt d (k := (e.cost s).stateOut)
    (by rwa [hnext.length_inst])
  have hdirect : direct e (next.lower d) s = direct e next s := by
    simp only [direct, htrans, lower_relocatable]
  have hbehind : behind e (next.lower d) s = (behind e next s).lower d := by
    simp only [behind, hdirect, htrans, hinst]
    split <;> rfl
  have hsum := hnext.behind hs
  have hiff := lower_cost_eq_infCost_iff (hsum.fits hcosts (by omega) hd)
  unfold baseCandidate
  simp only [hdirect, hbehind, htrans, lower_noTransition]
  by_cases hinf : (behind e next s).cost = infCost
  · rw [if_pos (hiff.mpr hinf), if_pos hinf, Option.map_none]
  · rw [if_neg (hiff.not.mpr hinf), if_neg hinf, Option.map_some,
      lower_add hcosts hn hsum hinf]

/-- Lowering the instruction waypoints lowers what a transition offers. -/
theorem chainCandidate_lower (hn : 2 * n < 2 * maxBB + 1) {st : TpaState}
    (hlen : st.inst.length = e.maxstates) (hinst : ∀ w ∈ st.inst, w.SumOf e (2 * n))
    {s : PrimNum} (hs : (e.cost s).stateOut < e.maxstates) :
    chainCandidate e (st.lower d) s =
      (chainCandidate e st s).map fun c => (c.1, c.2.lower d) := by
  have hk : (e.cost s).stateOut < st.inst.length := by rwa [hlen]
  have hsum : (st.instAt (e.cost s).stateOut).SumOf e (2 * n) := hinst _ (getD_mem hk)
  have hiff := lower_cost_eq_infCost_iff (hsum.fits hcosts (le_of_lt hn) hd)
  unfold chainCandidate
  simp only [lower_instAt d hk, lower_relocatable]
  by_cases hinf : (st.instAt (e.cost s).stateOut).cost = infCost
  · rw [if_pos (hiff.mpr hinf), if_pos hinf, Option.map_none]
  · rw [if_neg (hiff.not.mpr hinf), if_neg hinf, Option.map_some]
    congr 2
    exact (lower_add hcosts hn hsum hinf _ _ _).symm

/-- Transitions are chosen alike in front of lowered instruction waypoints. -/
theorem transitions_lower {t : SuperTables} (hok : t.Ok e) (hn : 2 * n < 2 * maxBB + 1)
    {st : TpaState} (hlen : st.inst.length = e.maxstates)
    (hinst : ∀ w ∈ st.inst, w.SumOf e (2 * n)) :
    transitions e t (st.lower d) = (transitions e t st).lower d := by
  have hcands : t.stateTransitions.filterMap (chainCandidate e (st.lower d)) =
      (t.stateTransitions.filterMap (chainCandidate e st)).map
        fun c => (c.1, c.2.lower d) := by
    rw [List.map_filterMap]
    refine List.filterMap_congr ?_
    intro s hs
    exact chainCandidate_lower hcosts hd hn hlen hinst (hok.transitions hs).stateOut_lt
  have hinit : (st.lower d).inst.map (fun w => { w with noTransition := true }) =
      (st.inst.map fun w => { w with noTransition := true }).map (Waypoint.lower d) := by
    simp only [TpaState.lower, List.map_map]
    refine List.map_congr_left ?_
    intro w _
    simp only [Function.comp_apply, Waypoint.lower]
    split <;> rfl
  have htrans : (transitions e t (st.lower d)).trans =
      (transitions e t st).trans.map (Waypoint.lower d) := by
    simp only [transitions, hcands, hinit]
    refine relaxAll_map Waypoint.cost (Waypoint.lower d) (Waypoint.Fits d)
      (fun _ _ => lower_cost_le_iff) ?_ ?_
    · intro w hw
      obtain ⟨v, hv, rfl⟩ := List.mem_map.mp hw
      exact (hinst v hv).fits hcosts (le_of_lt hn) hd
    · intro c hc
      obtain ⟨s, hs, hcand⟩ := List.mem_filterMap.mp hc
      obtain ⟨hne, hk, hw⟩ := chainCandidate_eq_some.mp hcand
      have hout : (e.cost s).stateOut < st.inst.length := by
        rw [hlen]
        exact (hok.transitions hs).stateOut_lt
      refine ⟨?_, ?_⟩
      · rw [← hw]
        exact ((hinst _ (getD_mem hout)).add hne s _ _).fits hcosts hn hd
      · rw [List.length_map, hlen, ← hk]
        exact (hok.transitions hs).stateIn_lt
  exact congrArg (TpaState.mk (st.inst.map (Waypoint.lower d))) htrans

/-- Where no superinstruction applies, lowering the label behind an instruction
lowers the label in front of it, before normalisation. -/
theorem rawState_lower {t : SuperTables} (hok : t.Ok e) {p : PrimNum} {rest : List PrimNum}
    (hlen : (p :: rest).length ≤ maxBB)
    (hsingle : ∀ r ∈ baseRules t (p :: rest), r.1 = 0) {ts us : List TpaState}
    (hts : ts.getD 0 default = (us.getD 0 default).lower d)
    (hus : ∀ j < (p :: rest).length, Plain e ((p :: rest).length - (j + 1)) (us.getD j default)) :
    rawState e t (p :: rest) ts = (rawState e t (p :: rest) us).lower d := by
  have hplain := rawState_plain hok hus
  have hnext : Plain e rest.length (us.getD 0 default) := by
    simpa using hus 0 (by simp)
  have hlen' : rest.length + 1 ≤ maxBB := by simpa using hlen
  have hcands : (baseRules t (p :: rest)).filterMap
      (fun r => baseCandidate e (ts.getD r.1 default) r.2) =
      ((baseRules t (p :: rest)).filterMap
        fun r => baseCandidate e (us.getD r.1 default) r.2).map
        fun c => (c.1, c.2.lower d) := by
    rw [List.map_filterMap]
    refine List.filterMap_congr ?_
    intro r hr
    rw [hsingle r hr, hts]
    exact baseCandidate_lower hcosts hd (by omega) hnext
      (baseRules_implements hok hr).stateOut_lt
  have hinit : initWaypoints e = (initWaypoints e).map (Waypoint.lower d) := by
    simp [initWaypoints, Waypoint.lower]
  have hinst : labelInst e t (p :: rest) ts =
      (labelInst e t (p :: rest) us).map (Waypoint.lower d) := by
    rw [labelInst, hcands, hinit]
    refine relaxAll_map Waypoint.cost (Waypoint.lower d) (Waypoint.Fits d)
      (fun _ _ => lower_cost_le_iff) ?_ ?_
    · intro w hw
      exact Or.inl (congrArg Waypoint.cost (List.eq_of_mem_replicate hw))
    · intro c hc
      obtain ⟨r, hr, hcand⟩ := List.mem_filterMap.mp hc
      obtain ⟨hne, hk, hw⟩ := baseCandidate_eq_some.mp hcand
      have himpl := baseRules_implements hok hr
      refine ⟨?_, ?_⟩
      · rw [← hw]
        rw [hsingle r hr] at hne ⊢
        exact ((hnext.behind himpl.stateOut_lt).add hne r.2 _ _).fits hcosts (by omega) hd
      · rw [length_initWaypoints, ← hk]
        exact himpl.stateIn_lt
  unfold rawState
  rw [hinst]
  exact transitions_lower hcosts hd hok (n := rest.length + 1) (by omega)
    (length_labelInst e t _ us) hplain.inst

end

/-! ## Blocks without applicable superinstructions -/

/-- No superinstruction of two or more components applies in the block. -/
def NoSuperApplies (t : SuperTables) (origs : List PrimNum) : Prop :=
  ∀ s seq, InTable t s seq → seq <:+: origs → seq.length < 2

theorem NoSuperApplies.tail {p : PrimNum} {rest : List PrimNum} (h : NoSuperApplies t (p :: rest)) :
    NoSuperApplies t rest :=
  fun s seq hin hpart => h s seq hin (hpart.trans (List.suffix_cons p rest).isInfix)

/-- Without superinstructions each rule takes one primitive. -/
theorem NoSuperApplies.baseRules (h : NoSuperApplies t origs) :
    ∀ r ∈ baseRules t origs, r.1 = 0 := by
  intro r hr
  obtain ⟨-, hlen, hin⟩ := mem_baseRules.mp hr
  have hlt := h r.2 (origs.take (r.1 + 1)) hin (List.take_prefix _ _).isInfix
  rw [List.length_take, min_eq_left hlen] at hlt
  omega

/-- No superinstruction applies if there is none. -/
theorem noSuperApplies_of_nsupers (hok : t.Ok e) (hnsupers : t.nsupers = 0) (origs : List PrimNum) :
    NoSuperApplies t origs := by
  rintro s seq ⟨ssList, hlookup, -⟩ -
  by_contra hlen
  have := hok.nsupers_pos hlookup (by omega)
  omega

theorem lower_zero (w : Waypoint) : w.lower 0 = w := by
  unfold Waypoint.lower
  split <;> simp

theorem TpaState.lower_zero (st : TpaState) : st.lower 0 = st := by
  have hid : Waypoint.lower 0 = id := funext Selector.lower_zero
  simp [TpaState.lower, hid]

/-- A state is lowered twice. -/
theorem TpaState.lower_lower {d d' : Int} (hinst : ∀ w ∈ st.inst, w.Fits d)
    (htrans : ∀ w ∈ st.trans, w.Fits d) : (st.lower d).lower d' = st.lower (d + d') := by
  simp only [TpaState.lower, List.map_map, TpaState.mk.injEq]
  exact ⟨List.map_congr_left fun w hw => Selector.lower_lower (hinst w hw),
    List.map_congr_left fun w hw => Selector.lower_lower (htrans w hw)⟩

section

variable {e : Engine} {t : SuperTables} (hprep : prepareSuperTable e = some t)
  (hcosts : CostsBelowInf e)

include hprep

theorem uncached_ok : t.Ok e.uncached :=
  prepareSuperTable_ok ((prepareSuperTable_uncached e).trans hprep)

include hcosts

/-- With the automaton, the label of a block without applicable superinstructions
is the plain one, with all costs lowered by the same amount. -/
theorem labelHead_lowered (hauto : noautomaton e t = false) {origs : List PrimNum}
    (hlen : origs.length ≤ maxBB) (hsingle : NoSuperApplies t origs) :
    ∃ d, 0 ≤ d ∧ labelHead e t origs = (labelHead e.uncached t origs).lower d := by
  have hok' := uncached_ok hprep
  have hcosts' : CostsBelowInf e.uncached := ⟨hcosts.nonneg, hcosts.sum_lt⟩
  induction origs with
  | nil => exact ⟨0, le_rfl, (TpaState.lower_zero _).symm⟩
  | cons p rest ih =>
      have hrestLen : rest.length ≤ maxBB := by
        simp only [List.length_cons] at hlen
        omega
      obtain ⟨d, hd, hrest⟩ := ih hrestLen hsingle.tail
      have hplain : ∀ j < (p :: rest).length, Plain e.uncached ((p :: rest).length - (j + 1))
          ((labels e.uncached t rest).getD j default) := by
        intro j hj
        have hj' : j ≤ rest.length := by simpa using Nat.lt_succ_iff.mp hj
        rw [labels_getD _ t hj']
        exact labelHead_plain hok' (noautomaton_uncached e t) _ (by simp)
      have hus : (labels e t rest).getD 0 default =
          ((labels e.uncached t rest).getD 0 default).lower d := by
        rw [labels_getD e t (Nat.zero_le _), labels_getD _ t (Nat.zero_le _), List.drop_zero,
          hrest]
      have hraw := rawState_lower hcosts' hd hok' hlen hsingle.baseRules hus hplain
      have hhead := labelHead_plain hok' (noautomaton_uncached e t) (p :: rest).length rfl
      have hfits : ∀ {m : Nat}, m ≤ 2 * maxBB + 1 → ∀ w : Waypoint,
          w.SumOf e.uncached m → w.Fits d := fun hm w hw => hw.fits hcosts' hm hd
      have h0 : canonicalState < e.uncached.maxstates := e.uncached.maxstates_pos
      have h0' : canonicalState < (labelHead e.uncached t (p :: rest)).inst.length := by
        rwa [hhead.length_inst]
      -- the label before normalisation is the plain one, lowered with the rest
      have hlabel : labelHead e t (p :: rest) =
          tpaStateNormalize ((labelHead e.uncached t (p :: rest)).lower d) := by
        rw [labelHead_cons, labelState_eq, if_neg (by simp [hauto])]
        exact congrArg tpaStateNormalize hraw
      rw [hlabel, normalize_eq_lower, lower_instAt d h0',
        TpaState.lower_lower (fun w hw => hfits (by omega) w (hhead.inst w hw))
          (fun w hw => hfits (by omega) w (hhead.trans w hw))]
      refine ⟨_, ?_, rfl⟩
      -- normalisation subtracts the lowered cost of the canonical state
      by_cases hinf : ((labelHead e.uncached t (p :: rest)).instAt canonicalState).cost = infCost
      · rw [Waypoint.lower, if_neg (by simpa using hinf), hinf]
        simp only [infCost]
        omega
      · obtain ⟨hnonneg, -⟩ := (hhead.instAt h0).bounds hcosts' (by omega) hinf
        rw [lower_cost d hinf]
        omega

end

/-! ## The same walk along lowered labels -/

/-- Two waypoints that the rewrite loop does not tell apart. -/
structure SameChoice (w v : Waypoint) : Prop where
  inst_eq : w.inst = v.inst
  relocatable_eq : w.relocatable = v.relocatable
  noTransition_eq : w.noTransition = v.noTransition
  infCost_iff : w.cost = infCost ↔ v.cost = infCost

/-- Two labels that the rewrite loop does not tell apart. -/
structure SameChoices (st st' : TpaState) : Prop where
  inst : ∀ k, SameChoice (st.instAt k) (st'.instAt k)
  trans : ∀ k, SameChoice (st.transAt k) (st'.transAt k)

theorem SameChoice.refl (w : Waypoint) : SameChoice w w :=
  ⟨rfl, rfl, rfl, Iff.rfl⟩

/-- Lowered costs lead to the same choices. -/
theorem sameChoice_lower {d : Int} {ws : List Waypoint} (hws : ∀ w ∈ ws, w.Fits d) (k : Nat) :
    SameChoice ((ws.map (Waypoint.lower d)).getD k default) (ws.getD k default) := by
  by_cases hk : k < ws.length
  · rw [getD_map_of_lt _ hk]
    exact ⟨lower_inst d _, lower_relocatable d _, lower_noTransition d _,
      lower_cost_eq_infCost_iff (hws _ (getD_mem hk))⟩
  · rw [List.getD_eq_default _ _ (by simpa using Nat.le_of_not_lt hk),
      List.getD_eq_default _ _ (Nat.le_of_not_lt hk)]
    exact SameChoice.refl default

/-- Transitions depend on the choices only. -/
theorem rewriteTransition_congr {st st' : TpaState} (h : SameChoices st st') (s : LoopState) :
    rewriteTransition e st s = rewriteTransition e.uncached st' s := by
  have hw := h.trans s.nextstate
  simp only [rewriteTransition, hw.inst_eq, ne_eq, hw.infCost_iff]
  rfl

/-- Instructions depend on the choices only. -/
theorem rewriteInstruction_congr {st st' : TpaState} (h : SameChoices st st') (i : Nat)
    (s : LoopState) (k : State) :
    rewriteInstruction e i st s k = rewriteInstruction e.uncached i st' s k := by
  have hw := h.inst k
  simp only [rewriteInstruction, hw.inst_eq, ne_eq, hw.infCost_iff, hw.noTransition_eq]
  rfl

/-- Each step depends on the choices only. -/
theorem rewriteStep_congr {st st' : TpaState} (h : SameChoices st st') (i : Nat) (s : LoopState) :
    rewriteStep e i st s = rewriteStep e.uncached i st' s := by
  unfold rewriteStep
  rw [rewriteTransition_congr h, (h.inst canonicalState).inst_eq]
  split
  · split
    · rfl
    · rw [rewriteInstruction_congr h]
  · rfl

/-- The end of a block depends on the choices only. -/
theorem rewriteEnd_congr {st st' : TpaState} (h : SameChoices st st') (i : Nat) (s : LoopState) :
    rewriteEnd e i st s = rewriteEnd e.uncached i st' s := by
  have hw := h.trans s.nextstate
  simp only [rewriteEnd, hw.inst_eq, ne_eq, hw.infCost_iff]
  rfl

/-- The loop depends on the choices only. -/
theorem rewriteLoop_congr {ts us : List TpaState} (h : List.Forall₂ SameChoices ts us) (i : Nat)
    (s : LoopState) : rewriteLoop e i ts s = rewriteLoop e.uncached i us s := by
  induction h generalizing i s with
  | nil => rfl
  | cons hst hrest ih =>
      cases hrest with
      | nil => exact rewriteEnd_congr hst i s
      | cons hst' hrest' =>
          rw [rewriteLoop, rewriteLoop, rewriteStep_congr hst]
          split
          · rfl
          · rw [ih]

/-- A block depends on the choices only. -/
theorem rewriteBlock_congr {ts us : List TpaState} (h : List.Forall₂ SameChoices ts us) :
    rewriteBlock e ts = rewriteBlock e.uncached us := by
  have hstart : rewriteStart (ts.headD default) = rewriteStart (us.headD default) := by
    cases h with
    | nil => rfl
    | cons hst _ =>
        have hw := hst.trans canonicalState
        simp only [rewriteStart, List.headD_cons, hw.relocatable_eq, hw.noTransition_eq]
  rw [rewriteBlock, rewriteBlock, hstart, rewriteLoop_congr h]

/-! ## Runs over many blocks -/

/-- Under this condition a block gets the same cover with and without the
automaton: the automaton is off, or no superinstruction applies in the block and
costs stay below the infinite cost. -/
def CacheSafe (e : Engine) (t : SuperTables) (origs : List PrimNum) : Prop :=
  noautomaton e t = true ∨ (NoSuperApplies t origs ∧ CostsBelowInf e)

/-- The label with automaton of a block without applicable superinstructions leads
to the same choices as the plain one. -/
theorem labelHead_sameChoices (hprep : prepareSuperTable e = some t) (hcosts : CostsBelowInf e)
    (hauto : noautomaton e t = false) (hlen : origs.length ≤ maxBB)
    (hsingle : NoSuperApplies t origs) :
    SameChoices (labelHead e t origs) (labelHead e.uncached t origs) := by
  have hcosts' : CostsBelowInf e.uncached := ⟨hcosts.nonneg, hcosts.sum_lt⟩
  obtain ⟨d, hd, hlower⟩ := labelHead_lowered hprep hcosts hauto hlen hsingle
  have hplain := labelHead_plain (uncached_ok hprep) (noautomaton_uncached e t) origs.length rfl
  rw [hlower]
  exact ⟨sameChoice_lower fun w hw => (hplain.inst w hw).fits hcosts' (by omega) hd,
    sameChoice_lower fun w hw => (hplain.trans w hw).fits hcosts' (by omega) hd⟩

/-- Labels lead to the same choices with and without an automaton. -/
theorem labels_sameChoices (hprep : prepareSuperTable e = some t) (hcosts : CostsBelowInf e)
    (hauto : noautomaton e t = false) (hlen : origs.length ≤ maxBB)
    (hsingle : NoSuperApplies t origs) :
    List.Forall₂ SameChoices (labels e t origs) (labels e.uncached t origs) := by
  induction origs with
  | nil =>
      exact List.Forall₂.cons
        (labelHead_sameChoices hprep hcosts hauto hlen hsingle) List.Forall₂.nil
  | cons p rest ih =>
      refine List.Forall₂.cons (labelHead_sameChoices hprep hcosts hauto hlen hsingle) ?_
      refine ih ?_ hsingle.tail
      simp only [List.length_cons] at hlen
      omega

/-- The walk along the labels of a block is the same with and without the
automaton. -/
theorem rewriteBlock_uncached (hprep : prepareSuperTable e = some t) (hlen : origs.length ≤ maxBB)
    (hsafe : CacheSafe e t origs) :
    rewriteBlock e (labels e t origs) = rewriteBlock e.uncached (labels e.uncached t origs) := by
  refine rewriteBlock_congr ?_
  cases hauto : noautomaton e t with
  | true =>
      rw [labels_uncached hauto]
      exact List.forall₂_same.mpr fun st _ =>
        ⟨fun k => SameChoice.refl _, fun k => SameChoice.refl _⟩
  | false =>
      obtain ⟨hsingle, hcosts⟩ := hsafe.resolve_left (by simp [hauto])
      exact labels_sameChoices hprep hcosts hauto hlen hsingle

/-- The total cost of the cover that was emitted. -/
def emittedCost (e : Engine) (result : Option (List Call)) : Option Int :=
  result.map fun calls => pieceCost e (pieces calls)

/-- Rewrite blocks one after another, keeping the automaton. -/
def rewriteAll (e : Engine) (t : SuperTables) (addr : Ptr → Nat) :
    List (List PrimNum) → Tpa → List (Option (List Call))
  | [], _ => []
  | origs :: blocks, a =>
      let result := optimizeRewrite e t addr origs a
      result.2 :: rewriteAll e t addr blocks result.1

/-- One block, in any reachable state of the automaton. -/
theorem optimizeRewrite_uncached (hprep : prepareSuperTable e = some t) {addr addr' : Ptr → Nat}
    {a a' : Tpa} (hreach : a.Reachable e t addr) (hreach' : a'.Reachable e.uncached t addr')
    (hlen : origs.length ≤ maxBB) (hsafe : CacheSafe e t origs) :
    (optimizeRewrite e t addr origs a).2 = (optimizeRewrite e.uncached t addr' origs a').2 := by
  by_cases hne : origs = []
  · simp [optimizeRewrite, hne]
  · rw [optimizeRewrite_eq (prepareSuperTable_ok hprep) hreach hne,
      optimizeRewrite_eq (uncached_ok hprep) hreach' hne, rewriteBlock_uncached hprep hlen hsafe]

/-- In every run whose blocks all meet the condition, every block gets a cover
that costs as much as the one it gets without automaton and without state
equivalence. -/
theorem rewriteAll_cost_uncached {e : Engine} {t : SuperTables}
    (hprep : prepareSuperTable e = some t) (addr addr' : Ptr → Nat)
    {blocks : List (List PrimNum)} (hlen : ∀ origs ∈ blocks, origs.length ≤ maxBB)
    (hsafe : ∀ origs ∈ blocks, CacheSafe e t origs) :
    (rewriteAll e t addr blocks (Tpa.initial e t)).map (emittedCost e) =
      (rewriteAll e.uncached t addr' blocks (Tpa.initial e.uncached t)).map (emittedCost e) := by
  suffices h : ∀ (a a' : Tpa), a.Reachable e t addr → a'.Reachable e.uncached t addr' →
      rewriteAll e t addr blocks a = rewriteAll e.uncached t addr' blocks a' by
    rw [h _ _ Tpa.Reachable.initial Tpa.Reachable.initial]
  induction blocks with
  | nil => exact fun _ _ _ _ => rfl
  | cons origs blocks ih =>
      intro a a' hreach hreach'
      simp only [rewriteAll]
      rw [optimizeRewrite_uncached hprep hreach hreach' (hlen origs List.mem_cons_self)
        (hsafe origs List.mem_cons_self)]
      rw [ih (fun b hb => hlen b (List.mem_cons_of_mem origs hb))
        (fun b hb => hsafe b (List.mem_cons_of_mem origs hb)) _ _
        (optimizeRewrite_reachable hreach origs) (optimizeRewrite_reachable hreach' origs)]

/-- The small engine without its superinstruction, so that it uses the
automaton. -/
def cachedEngine : Engine :=
  { smallEngine with superCosts := smallEngine.superCosts.take 5 }

theorem cachedEngine_costs : CostsBelowInf cachedEngine :=
  ⟨smallEngine_costs.nonneg, smallEngine_costs.sum_lt⟩

/-- The tables of the small engine without its superinstruction. -/
def cachedTables : SuperTables :=
  (prepareSuperTable cachedEngine).get (by decide)

theorem cachedTables_ok : cachedTables.Ok cachedEngine :=
  prepareSuperTable_ok (Option.some_get _).symm

/-- The blocks of the example cost the same in both ways. -/
theorem rewriteAll_cost_uncached_cached :
    noautomaton cachedEngine cachedTables = false ∧
    (rewriteAll cachedEngine cachedTables id [[1, 1], [1, 1, 2]]
        (Tpa.initial cachedEngine cachedTables)).map (emittedCost cachedEngine) =
      (rewriteAll cachedEngine.uncached cachedTables id [[1, 1], [1, 1, 2]]
        (Tpa.initial cachedEngine.uncached cachedTables)).map (emittedCost cachedEngine) := by
  refine ⟨by decide, rewriteAll_cost_uncached (Option.some_get _).symm id id (by decide) ?_⟩
  intro origs _
  exact Or.inr ⟨noSuperApplies_of_nsupers cachedTables_ok (by decide) origs,
    cachedEngine_costs⟩

/-! ## Normalised costs and superinstructions -/

/-- An engine without stack caching, with two primitives of 4 and 8 bytes and
their superinstruction of 10 bytes, started with state equivalence switched
off. -/
def noequivEngine : Engine where
  superCosts :=
    [⟨0, 0, 0, 0, 0, 1, false⟩, ⟨0, 0, 0, 0, 1, 1, false⟩, ⟨0, 0, 0, 0, 2, 1, false⟩,
      ⟨0, 0, 0, 0, 3, 2, false⟩]
  super2 := [0, 1, 2, 1, 2]
  priminfos :=
    [⟨some 0, 0, 0, 4, false, 0, 0⟩, ⟨some 16, 0, 4, 4, false, 0, 0⟩,
      ⟨some 32, 0, 8, 4, false, 0, 0⟩, ⟨some 48, 0, 10, 4, false, 0, 0⟩]
  noDynamic := false
  maxstates := 1
  maxstates_pos := Nat.one_pos
  staticSuperNumber := 10000
  tpaNoequiv := true
  tpaNoautomaton := false
  ssCost := fun p => ([0, 4, 8, 10] : List Int).getD p 0
  nNoop := 0

/-- The tables of this engine. -/
def noequivTables : SuperTables :=
  (prepareSuperTable noequivEngine).get (by decide)

/-- With the automaton and without state equivalence the superinstruction is
compared with its first component alone, and loses. -/
theorem rewriteAll_cost_noequiv :
    (rewriteAll noequivEngine noequivTables id [[1, 2]]
        (Tpa.initial noequivEngine noequivTables)).map (emittedCost noequivEngine) ≠
      (rewriteAll noequivEngine.uncached noequivTables id [[1, 2]]
        (Tpa.initial noequivEngine.uncached noequivTables)).map (emittedCost noequivEngine) := by
  decide

end Selector
end Gforth
