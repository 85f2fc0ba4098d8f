import Gforth.Lib.Relax
import Gforth.Selector.Tables

/-!
# Labels of a basic block

The selector labels every position of a basic block, back to front, with a
tree-parsing state: for every stack-caching state the best way to continue with
an instruction, and the best way to continue with a transition and then an
instruction.  This module embeds the computation of one label from the labels
behind it, and the labels of a whole block as the computation without any cache
gives them.

Main results:

- Theorem {lit}`labelState_sound`: whatever a label marks as reachable is a rule
  that applies at its position and continues at a reachable place of the label
  behind it, without a transition between two non-relocatable instructions.
- Theorem {lit}`labels_canonical`: the canonical state is reachable in every
  label of a block of primitives with canonical variants.
-/

namespace Gforth
namespace Selector

open Lib

/-! ## Waypoints and states -/

/-- {lit}`struct waypoint` -/
structure Waypoint where
  /-- The cost from here to the end. -/
  cost : Int
  /-- The instruction used from here to the next waypoint. -/
  inst : PrimNum
  /-- The last non-transition was relocatable. -/
  relocatable : Bool
  /-- Don't use the next transition, or this transition does not change the
  state. -/
  noTransition : Bool
deriving DecidableEq, Repr, Inhabited

/-- {lit}`struct tpa_state` -/
structure TpaState where
  /-- In front of an instruction. -/
  inst : List Waypoint
  /-- In front of an instruction and a transition. -/
  trans : List Waypoint
deriving DecidableEq, Repr, Inhabited

namespace TpaState

/-- The waypoint {lit}`t->inst[k]`. -/
def instAt (st : TpaState) (k : State) : Waypoint :=
  st.inst.getD k default

/-- The waypoint {lit}`t->trans[k]`. -/
def transAt (st : TpaState) (k : State) : Waypoint :=
  st.trans.getD k default

end TpaState

/-- {lit}`init_waypoints`, on a freshly cleared array. -/
def initWaypoints (e : Engine) : List Waypoint :=
  List.replicate e.maxstates { (default : Waypoint) with cost := infCost }

/-- {lit}`empty_tpa_state` -/
def emptyTpaState (e : Engine) : TpaState where
  inst := initWaypoints e
  trans := List.replicate e.maxstates default

/-! ## Transitions -/

/-- What a transition offers in front of it, given the instruction waypoints
behind it: the state it starts in, and the waypoint. -/
def chainCandidate (e : Engine) (st : TpaState) (s : PrimNum) : Option (State × Waypoint) :=
  let c := e.cost s
  let wo := st.instAt c.stateOut
  if wo.cost = infCost then none
  else
    some (c.stateIn,
      { cost := wo.cost + e.ssCost s
        inst := s
        relocatable := wo.relocatable
        noTransition := false })

/-- {lit}`transitions`: from the instruction waypoints of a state to its
transition waypoints. -/
def transitions (e : Engine) (t : SuperTables) (st : TpaState) : TpaState :=
  { st with
    trans := relaxAll Waypoint.cost
      (st.inst.map fun w => { w with noTransition := true })
      (t.stateTransitions.filterMap (chainCandidate e st)) }

/-- {lit}`make_termstate`: the label behind the last instruction. -/
def makeTermstate (e : Engine) (t : SuperTables) : TpaState :=
  let st := emptyTpaState e
  transitions e t
    { st with
      inst := st.inst.set canonicalState { st.instAt canonicalState with cost := 0 } }

/-! ## Instructions -/

/-- Between two non-relocatable instructions there is no transition. -/
def direct (e : Engine) (next : TpaState) (s : PrimNum) : Bool :=
  !e.isRelocatable s && !(next.transAt (e.cost s).stateOut).relocatable

/-- The waypoint {lit}`wo` at which an instruction continues in the label behind
it. -/
def behind (e : Engine) (next : TpaState) (s : PrimNum) : Waypoint :=
  if direct e next s then next.instAt (e.cost s).stateOut
  else next.transAt (e.cost s).stateOut

/-- What an instruction offers in front of it, given the label behind it. -/
def baseCandidate (e : Engine) (next : TpaState) (s : PrimNum) : Option (State × Waypoint) :=
  if (behind e next s).cost = infCost then none
  else
    some ((e.cost s).stateIn,
      { cost := (behind e next s).cost + e.ssCost s
        inst := s
        relocatable := e.isRelocatable s
        noTransition :=
          direct e next s || (next.transAt (e.cost s).stateOut).noTransition })

/-- The instructions that the labelling loops try at the front of
{lit}`origs`, in their order, each with the number of components after the
first one. -/
def baseRules (t : SuperTables) (origs : List PrimNum) : List (Nat × PrimNum) :=
  (List.range t.maxSuper).flatMap fun j =>
    if j + 1 ≤ origs.length then
      ((t.lookupSuper (origs.take (j + 1))).getD []).map fun s => (j, s)
    else []

/-- The instruction waypoints in front of {lit}`origs`, where {lit}`ts` holds
the labels behind its first, second, ... instruction. -/
def labelInst (e : Engine) (t : SuperTables) (origs : List PrimNum) (ts : List TpaState) :
    List Waypoint :=
  relaxAll Waypoint.cost (initWaypoints e)
    ((baseRules t origs).filterMap fun r => baseCandidate e (ts.getD r.1 default) r.2)

/-- Subtract from a cost unless it is infinite. -/
def Waypoint.lower (d : Int) (w : Waypoint) : Waypoint :=
  if w.cost ≠ infCost then { w with cost := w.cost - d } else w

/-- {lit}`tpa_state_normalize`: make the cost of the canonical state 0. -/
def tpaStateNormalize (st : TpaState) : TpaState :=
  let d := (st.instAt canonicalState).cost
  { inst := st.inst.map (Waypoint.lower d)
    trans := st.trans.map (Waypoint.lower d) }

/-- The label that the dynamic programming step computes. -/
def labelState (e : Engine) (t : SuperTables) (origs : List PrimNum) (ts : List TpaState) :
    TpaState :=
  let st := transitions e t { emptyTpaState e with inst := labelInst e t origs ts }
  if noautomaton e t then st else tpaStateNormalize st

/-- The labels of a block, from its start to behind its end, computed without
automaton and without state equivalence. -/
def labels (e : Engine) (t : SuperTables) : List PrimNum → List TpaState
  | [] => [makeTermstate e t]
  | p :: rest => labelState e t (p :: rest) (labels e t rest) :: labels e t rest

/-- There is a label for each primitive, and one behind them. -/
@[simp]
theorem length_labels (e : Engine) (t : SuperTables) (origs : List PrimNum) :
    (labels e t origs).length = origs.length + 1 := by
  induction origs with
  | nil => rfl
  | cons p rest ih => simp [labels, ih]

variable {origs : List PrimNum} {t : SuperTables} {e : Engine} {st : TpaState} {w : Waypoint}
  {k : State} {ts : List TpaState} {rest : List PrimNum}

/-- The labels behind the first {lit}`n` instructions are the labels of the rest
of the block. -/
theorem labels_drop (e : Engine) (t : SuperTables) {n : Nat} (hn : n ≤ origs.length) :
    (labels e t origs).drop n = labels e t (origs.drop n) := by
  induction origs generalizing n with
  | nil =>
      have : n = 0 := by simpa using hn
      simp [this]
  | cons p rest ih =>
      cases n with
      | zero => rfl
      | succ n => simpa [labels] using ih (by simpa using hn)

/-- The first label of a block. -/
def labelHead (e : Engine) (t : SuperTables) (origs : List PrimNum) : TpaState :=
  (labels e t origs).headD default

theorem labels_getD (e : Engine) (t : SuperTables) {n : Nat} (hn : n ≤ origs.length) :
    (labels e t origs).getD n default = labelHead e t (origs.drop n) := by
  rw [labelHead, ← labels_drop e t hn]
  simp [List.getD_eq_getElem?_getD, List.head?_drop]

theorem labelHead_cons (e : Engine) (t : SuperTables) (p : PrimNum) (rest : List PrimNum) :
    labelHead e t (p :: rest) = labelState e t (p :: rest) (labels e t rest) :=
  rfl

/-! ## Rules and ranges -/

/-- The rules for the front of a block -/
theorem mem_baseRules {j : Nat} {s : PrimNum} :
    (j, s) ∈ baseRules t origs ↔
      j < t.maxSuper ∧ j + 1 ≤ origs.length ∧
        ∃ ssList, t.lookupSuper (origs.take (j + 1)) = some ssList ∧ s ∈ ssList := by
  simp only [baseRules, List.mem_flatMap, List.mem_range]
  constructor
  · rintro ⟨j', hj', hmem⟩
    split at hmem
    · rename_i hlen
      cases hlookup : t.lookupSuper (origs.take (j' + 1)) with
      | none => simp [hlookup] at hmem
      | some ssList =>
          simp only [hlookup, Option.getD_some, List.mem_map, Prod.mk.injEq] at hmem
          obtain ⟨s', hs', rfl, rfl⟩ := hmem
          exact ⟨hj', hlen, ssList, hlookup, hs'⟩
    · simp at hmem
  · rintro ⟨hj, hlen, ssList, hlookup, hs⟩
    exact ⟨j, hj, by simp [hlen, hlookup, hs]⟩

theorem baseRules_implements (hok : t.Ok e) {j : Nat} {s : PrimNum}
    (h : (j, s) ∈ baseRules t origs) : Implements e s (origs.take (j + 1)) := by
  obtain ⟨-, -, ssList, hlookup, hs⟩ := mem_baseRules.mp h
  exact hok.implements hlookup hs

/-- A rule takes as many primitives as its superinstruction has. -/
theorem baseRules_length (hok : t.Ok e) {j : Nat} {s : PrimNum} (h : (j, s) ∈ baseRules t origs) :
    (e.cost s).length = j + 1 := by
  rw [← Engine.length_components, (baseRules_implements hok h).components_eq,
    List.length_take]
  exact min_eq_left (mem_baseRules.mp h).2.1

@[simp]
theorem length_initWaypoints (e : Engine) : (initWaypoints e).length = e.maxstates := by
  simp [initWaypoints]

@[simp]
theorem length_labelInst (e : Engine) (t : SuperTables) (origs : List PrimNum)
    (ts : List TpaState) : (labelInst e t origs ts).length = e.maxstates := by
  simp [labelInst]

@[simp]
theorem transitions_inst (e : Engine) (t : SuperTables) (st : TpaState) :
    (transitions e t st).inst = st.inst :=
  rfl

@[simp]
theorem transitions_instAt (e : Engine) (t : SuperTables) (st : TpaState) (k : State) :
    (transitions e t st).instAt k = st.instAt k :=
  rfl

@[simp]
theorem length_transitions_trans (e : Engine) (t : SuperTables) (st : TpaState) :
    (transitions e t st).trans.length = st.inst.length := by
  simp [transitions]

/-- The candidate of a rule that goes on -/
theorem chainCandidate_eq_some {s k : Nat} :
    chainCandidate e st s = some (k, w) ↔
      (st.instAt (e.cost s).stateOut).cost ≠ infCost ∧ (e.cost s).stateIn = k ∧
        { cost := (st.instAt (e.cost s).stateOut).cost + e.ssCost s
          inst := s
          relocatable := (st.instAt (e.cost s).stateOut).relocatable
          noTransition := false } = w := by
  unfold chainCandidate
  simp only
  split <;> simp [*]

/-- The candidate of a rule for a superinstruction -/
theorem baseCandidate_eq_some {next : TpaState} {s k : Nat} :
    baseCandidate e next s = some (k, w) ↔
      (behind e next s).cost ≠ infCost ∧ (e.cost s).stateIn = k ∧
        { cost := (behind e next s).cost + e.ssCost s
          inst := s
          relocatable := e.isRelocatable s
          noTransition :=
            direct e next s || (next.transAt (e.cost s).stateOut).noTransition } = w := by
  unfold baseCandidate
  split <;> simp [*]

/-! ## Sound waypoints -/

/-- Behind an instruction of the block the label of the rest is followed: with
its transition, which must not separate two non-relocatable instructions, or
without. -/
def Follows (e : Engine) (next : TpaState) (w : Waypoint) : Prop :=
  let k := (e.cost w.inst).stateOut
  (w.noTransition = true ∧ (next.instAt k).cost < infCost) ∨
    (w.noTransition = false ∧ (next.transAt k).noTransition = false ∧
      (next.transAt k).cost < infCost ∧
      (e.isRelocatable w.inst = true ∨ (next.transAt k).relocatable = true))

/-- The cost of the waypoint that is followed. -/
def followCost (e : Engine) (next : TpaState) (w : Waypoint) : Int :=
  if w.noTransition then (next.instAt (e.cost w.inst).stateOut).cost
  else (next.transAt (e.cost w.inst).stateOut).cost

/-- The waypoint of state {lit}`k` applies a rule to the front of the block, and
without normalisation it costs what the rule and the rest cost. -/
structure InstSound (e : Engine) (t : SuperTables) (origs : List PrimNum)
    (ts : List TpaState) (k : State) (w : Waypoint) : Prop where
  stateIn_eq : (e.cost w.inst).stateIn = k
  relocatable_eq : w.relocatable = e.isRelocatable w.inst
  rule : ∃ j, (j, w.inst) ∈ baseRules t origs ∧ Follows e (ts.getD j default) w ∧
    (noautomaton e t = true →
      w.cost = followCost e (ts.getD j default) w + e.ssCost w.inst)

/-- The transition waypoint of state {lit}`k` stands for no transition, or for
one to a state with an instruction. -/
def TransSound (e : Engine) (t : SuperTables) (st : TpaState) (k : State) : Prop :=
  let w := st.transAt k
  let wo := st.instAt (e.cost w.inst).stateOut
  (w.noTransition = true ∧ w.cost = (st.instAt k).cost) ∨
    (w.noTransition = false ∧ w.inst ∈ t.stateTransitions ∧ (e.cost w.inst).stateIn = k ∧
      w.cost = wo.cost + e.ssCost w.inst ∧ w.relocatable = wo.relocatable)

/-- Every reachable transition waypoint of a label is sound, and the canonical
state is no worse off with transitions. -/
structure TransitionsSound (e : Engine) (t : SuperTables) (st : TpaState) : Prop where
  length_inst : st.inst.length = e.maxstates
  length_trans : st.trans.length = e.maxstates
  sound : ∀ {k}, k < e.maxstates → (st.transAt k).cost ≠ infCost → TransSound e t st k
  canonical_le : (st.transAt canonicalState).cost ≤ (st.instAt canonicalState).cost

/-- A transition waypoint is the instruction waypoint of its state, or the
candidate of a transition. -/
theorem transitions_candidate (e : Engine) (t : SuperTables) (hk : k < st.inst.length) :
    (transitions e t st).transAt k = { st.instAt k with noTransition := true } ∨
      ∃ s ∈ t.stateTransitions,
        chainCandidate e st s = some (k, (transitions e t st).transAt k) := by
  have hk' : k < (st.inst.map fun w => { w with noTransition := true }).length := by
    rwa [List.length_map]
  rcases relaxAll_cases Waypoint.cost hk'
    (t.stateTransitions.filterMap (chainCandidate e st)) with hold | hmem
  · left
    rw [TpaState.transAt, transitions, hold, getD_map_of_lt _ hk]
    rfl
  · right
    obtain ⟨s, hs, hcand⟩ := List.mem_filterMap.mp hmem
    exact ⟨s, hs, hcand⟩

/-- Transitions do not make anything more expensive. -/
theorem transitions_le_inst (e : Engine) (t : SuperTables) (hk : k < st.inst.length) :
    ((transitions e t st).transAt k).cost ≤ (st.instAt k).cost := by
  have hk' : k < (st.inst.map fun w => { w with noTransition := true }).length := by
    rwa [List.length_map]
  have hle := relaxAll_le_initial Waypoint.cost hk'
    (t.stateTransitions.filterMap (chainCandidate e st))
  rw [getD_map_of_lt _ hk] at hle
  exact hle

/-- Transitions are sound. -/
theorem transitions_sound (e : Engine) (t : SuperTables) (hlen : st.inst.length = e.maxstates) :
    TransitionsSound e t (transitions e t st) := by
  refine ⟨hlen, by simpa using hlen, ?_, transitions_le_inst e t ?_⟩
  swap
  · rw [hlen]
    exact e.maxstates_pos
  intro k hk _
  unfold TransSound
  simp only [transitions_instAt]
  rcases transitions_candidate e t (k := k) (by rwa [hlen]) with hsame | ⟨s, hs, hcand⟩
  · left
    rw [hsame]
    exact ⟨rfl, rfl⟩
  · right
    obtain ⟨-, hk, hw⟩ := chainCandidate_eq_some.mp hcand
    rw [← hw]
    exact ⟨rfl, hs, hk, rfl, rfl⟩

/-- No accepted instruction waypoint exceeds the infinite cost. -/
theorem labelInst_le_infCost (e : Engine) (t : SuperTables) (origs : List PrimNum)
    (ts : List TpaState) (hk : k < e.maxstates) :
    ((labelInst e t origs ts).getD k default).cost ≤ infCost := by
  have hk' : k < (initWaypoints e).length := by simpa using hk
  have hle := relaxAll_le_initial Waypoint.cost hk'
    ((baseRules t origs).filterMap fun r => baseCandidate e (ts.getD r.1 default) r.2)
  rw [initWaypoints, List.getD_replicate _ hk] at hle
  exact hle

/-- A reachable instruction waypoint is the candidate of a rule. -/
theorem labelInst_candidate (e : Engine) (t : SuperTables) (hk : k < e.maxstates)
    (hcost : ((labelInst e t origs ts).getD k default).cost ≠ infCost) :
    ∃ j s, (j, s) ∈ baseRules t origs ∧
      baseCandidate e (ts.getD j default) s =
        some (k, (labelInst e t origs ts).getD k default) := by
  have hk' : k < (initWaypoints e).length := by simpa using hk
  rcases relaxAll_cases Waypoint.cost hk'
    ((baseRules t origs).filterMap fun r => baseCandidate e (ts.getD r.1 default) r.2)
    with hold | hmem
  · refine absurd ?_ hcost
    rw [labelInst, hold, initWaypoints, List.getD_replicate _ hk]
  · obtain ⟨⟨j, s⟩, hrule, hcand⟩ := List.mem_filterMap.mp hmem
    exact ⟨j, s, hrule, hcand⟩

/-- An accepted candidate follows the label behind it. -/
theorem follows_of_baseCandidate (hnonneg : ∀ p, 0 ≤ e.ssCost p) {next : TpaState}
    (hnext : TransitionsSound e t next) {s k : Nat} (hstateOut : (e.cost s).stateOut < e.maxstates)
    (hcand : baseCandidate e next s = some (k, w)) (hlt : w.cost < infCost) :
    Follows e next w ∧ w.cost = followCost e next w + e.ssCost s := by
  obtain ⟨-, rfl, rfl⟩ := baseCandidate_eq_some.mp hcand
  have hbehind : (behind e next s).cost < infCost := by
    have := hnonneg s
    change (behind e next s).cost + e.ssCost s < infCost at hlt
    omega
  simp only [Follows, followCost]
  cases hdirect : direct e next s with
  | true =>
      rw [behind, hdirect] at hbehind ⊢
      exact ⟨Or.inl ⟨rfl, hbehind⟩, rfl⟩
  | false =>
      rw [behind, hdirect] at hbehind ⊢
      cases hno : (next.transAt (e.cost s).stateOut).noTransition with
      | true =>
          rcases hnext.sound hstateOut (ne_of_lt hbehind) with ⟨-, hinst⟩ | ⟨hfalse, -⟩
          · exact ⟨Or.inl ⟨rfl, hinst ▸ hbehind⟩, by simpa using hinst⟩
          · rw [hno] at hfalse
            cases hfalse
      | false =>
          refine ⟨Or.inr ⟨rfl, rfl, hbehind, ?_⟩, rfl⟩
          rcases Bool.and_eq_false_iff.mp hdirect with hs | hwt
          · exact Or.inl (by simpa using hs)
          · exact Or.inr (by simpa using hwt)

/-- Every reachable instruction waypoint applies a rule, if the labels behind
are sound. -/
theorem labelInst_sound (hok : t.Ok e) (hnonneg : ∀ p, 0 ≤ e.ssCost p)
    (hts : ∀ j < origs.length, TransitionsSound e t (ts.getD j default)) (hk : k < e.maxstates)
    (hcost : ((labelInst e t origs ts).getD k default).cost ≠ infCost) :
    InstSound e t origs ts k ((labelInst e t origs ts).getD k default) := by
  have hlt := lt_of_le_of_ne (labelInst_le_infCost e t origs ts hk) hcost
  obtain ⟨j, s, hrule, hcand⟩ := labelInst_candidate e t hk hcost
  have hfollows := follows_of_baseCandidate hnonneg
    (hts j (mem_baseRules.mp hrule).2.1) (baseRules_implements hok hrule).stateOut_lt hcand hlt
  generalize (labelInst e t origs ts).getD k default = w at hcand hfollows
  obtain ⟨-, rfl, rfl⟩ := baseCandidate_eq_some.mp hcand
  exact ⟨rfl, rfl, j, hrule, hfollows.1, fun _ => hfollows.2⟩

/-! ## Normalisation -/

@[simp]
theorem lower_inst (d : Int) (w : Waypoint) : (w.lower d).inst = w.inst := by
  unfold Waypoint.lower
  split <;> rfl

@[simp]
theorem lower_relocatable (d : Int) (w : Waypoint) :
    (w.lower d).relocatable = w.relocatable := by
  unfold Waypoint.lower
  split <;> rfl

@[simp]
theorem lower_noTransition (d : Int) (w : Waypoint) :
    (w.lower d).noTransition = w.noTransition := by
  unfold Waypoint.lower
  split <;> rfl

theorem lower_cost (d : Int) (hw : w.cost ≠ infCost) : (w.lower d).cost = w.cost - d := by
  rw [Waypoint.lower, if_pos hw]

/-- A finite cost is lowered. -/
theorem cost_ne_of_lower {d : Int} (hw : (w.lower d).cost ≠ infCost) : w.cost ≠ infCost := by
  intro heq
  rw [Waypoint.lower, if_neg (by simpa using heq)] at hw
  exact hw heq

theorem normalize_instAt (hk : k < st.inst.length) :
    (tpaStateNormalize st).instAt k =
      (st.instAt k).lower (st.instAt canonicalState).cost :=
  getD_map_of_lt _ hk

theorem normalize_transAt (hk : k < st.trans.length) :
    (tpaStateNormalize st).transAt k =
      (st.transAt k).lower (st.instAt canonicalState).cost :=
  getD_map_of_lt _ hk

/-- Normalisation keeps the transition waypoints sound. -/
theorem normalize_transitions_sound (hok : t.Ok e) (hlen : st.inst.length = e.maxstates)
    (hcanonical : (st.instAt canonicalState).cost < infCost) :
    TransitionsSound e t (tpaStateNormalize (transitions e t st)) := by
  have hinst : ∀ {k}, k < e.maxstates → (tpaStateNormalize (transitions e t st)).instAt k =
      (st.instAt k).lower (st.instAt canonicalState).cost := by
    intro k hk
    exact normalize_instAt (by rwa [transitions_inst, hlen])
  have htrans : ∀ {k}, k < e.maxstates →
      (tpaStateNormalize (transitions e t st)).transAt k =
        ((transitions e t st).transAt k).lower (st.instAt canonicalState).cost := by
    intro k hk
    exact normalize_transAt (by rwa [length_transitions_trans, hlen])
  have h0 : canonicalState < e.maxstates := e.maxstates_pos
  refine ⟨by simpa [tpaStateNormalize] using hlen, by simpa [tpaStateNormalize] using hlen,
    ?_, ?_⟩
  · intro k hk hcost
    rw [htrans hk] at hcost
    have hraw := cost_ne_of_lower hcost
    unfold TransSound
    simp only [htrans hk, lower_inst, lower_noTransition, lower_relocatable]
    rcases transitions_candidate e t (k := k) (by rwa [hlen]) with hsame | ⟨s, hs, hcand⟩
    · left
      rw [hsame] at hraw ⊢
      have hrawInst : (st.instAt k).cost ≠ infCost := hraw
      refine ⟨rfl, ?_⟩
      rw [hinst hk, lower_cost _ hraw, lower_cost _ hrawInst]
    · right
      obtain ⟨hfinite, hk, hw⟩ := chainCandidate_eq_some.mp hcand
      have hout := (hok.transitions hs).stateOut_lt
      rw [← hw] at hraw ⊢
      refine ⟨rfl, hs, hk, ?_, ?_⟩
      · rw [hinst hout, lower_cost _ hraw, lower_cost _ hfinite]
        ring
      · rw [hinst hout, lower_relocatable]
  · have hle := transitions_le_inst e t (k := canonicalState) (by rwa [hlen])
    rw [htrans h0, hinst h0, lower_cost _ (ne_of_lt hcanonical),
      lower_cost _ (ne_of_lt (lt_of_le_of_lt hle hcanonical))]
    exact Int.sub_le_sub_right hle _

/-! ## Costs of the canonical state -/

/-- Costs are not negative, and the costs of the pieces that one block can be
rewritten to (one instruction and one transition for each of its instructions
and a transition at the end) sum up to less than the infinite cost. -/
structure CostsBelowInf (e : Engine) : Prop where
  nonneg : ∀ p, 0 ≤ e.ssCost p
  sum_lt : ∀ ps : List PrimNum, ps.length ≤ 2 * maxBB + 1 →
    (ps.map e.ssCost).sum < infCost

/-- The canonical state of a label costs no more than some choice of one
variant for each instruction. -/
def CanonicalBound (e : Engine) (st : TpaState) (n : Nat) : Prop :=
  ∃ ps : List PrimNum, ps.length = n ∧
    (st.instAt canonicalState).cost ≤ (ps.map e.ssCost).sum

/-- Canonical costs are finite. -/
theorem CanonicalBound.lt_infCost (hcosts : CostsBelowInf e) {n : Nat} (h : CanonicalBound e st n)
    (hn : n ≤ maxBB) : (st.instAt canonicalState).cost < infCost := by
  obtain ⟨ps, hlen, hle⟩ := h
  exact lt_of_le_of_lt hle (hcosts.sum_lt ps (by omega))

/-- The label of a block before normalisation. -/
def rawState (e : Engine) (t : SuperTables) (origs : List PrimNum) (ts : List TpaState) :
    TpaState :=
  transitions e t { emptyTpaState e with inst := labelInst e t origs ts }

/-- A state is normalized if there is an automaton. -/
theorem labelState_eq (e : Engine) (t : SuperTables) (origs : List PrimNum)
    (ts : List TpaState) :
    labelState e t origs ts =
      if noautomaton e t then rawState e t origs ts
      else tpaStateNormalize (rawState e t origs ts) :=
  rfl

/-- A state before it is normalized -/
theorem rawState_sound (e : Engine) (t : SuperTables)
    (origs : List PrimNum) (ts : List TpaState) :
    TransitionsSound e t (rawState e t origs ts) :=
  transitions_sound e t (length_labelInst e t origs ts)

/-- The canonical variant of the first instruction keeps the canonical state of
the next label reachable. -/
theorem rawState_canonicalBound (hcosts : CostsBelowInf e) {p : PrimNum} (hok : t.Ok e)
    (hp : t.HasCanonical e p) (hts : TransitionsSound e t (ts.getD 0 default))
    (hbound : CanonicalBound e (ts.getD 0 default) rest.length)
    (hlen : (p :: rest).length ≤ maxBB) :
    CanonicalBound e (rawState e t (p :: rest) ts) (p :: rest).length := by
  obtain ⟨ssList, s, hlookup, hs, hin, hout⟩ := hp
  obtain ⟨ps, hps, hle⟩ := hbound
  have hlt := CanonicalBound.lt_infCost hcosts ⟨ps, hps, hle⟩ (by simp at hlen; omega)
  have hmax : 0 < t.maxSuper := hok.length_le_maxSuper hlookup
  have hrule : (0, s) ∈ baseRules t (p :: rest) :=
    mem_baseRules.mpr ⟨hmax, by simp, ssList, by simpa using hlookup, hs⟩
  have hbehind : (behind e (ts.getD 0 default) s).cost ≤ (ps.map e.ssCost).sum := by
    unfold behind
    rw [hout]
    split
    · exact hle
    · exact le_trans hts.canonical_le hle
  have hcand : baseCandidate e (ts.getD 0 default) s = some (canonicalState, _) :=
    baseCandidate_eq_some.mpr ⟨?_, hin, rfl⟩
  · refine ⟨s :: ps, by simp [hps], ?_⟩
    have h0 : canonicalState < (initWaypoints e).length := by
      rw [length_initWaypoints]
      exact e.maxstates_pos
    refine le_trans (relaxAll_le_candidate Waypoint.cost h0
      (List.mem_filterMap.mpr ⟨(0, s), hrule, hcand⟩)) ?_
    simp only [List.map_cons, List.sum_cons]
    omega
  · refine ne_of_lt (lt_of_le_of_lt hbehind (hcosts.sum_lt ps ?_))
    simp at hlen
    omega

/-- What a label promises: sound transitions, and a canonical state that does not
exceed the costs of a choice of one variant for each instruction. -/
structure LabelOk (e : Engine) (t : SuperTables) (n : Nat) (st : TpaState) : Prop where
  transitions : TransitionsSound e t st
  canonical : CanonicalBound e st n

/-- The costs of the final state -/
theorem makeTermstate_instAt (e : Engine) (t : SuperTables) (hk : k < e.maxstates) :
    (makeTermstate e t).instAt k =
      { (default : Waypoint) with cost := if k = canonicalState then 0 else infCost } := by
  have hinit : ∀ {k}, k < e.maxstates → (emptyTpaState e).instAt k =
      { (default : Waypoint) with cost := infCost } := fun hk => List.getD_replicate _ hk
  have h0 : canonicalState < e.maxstates := Nat.lt_of_le_of_lt (Nat.zero_le k) hk
  change (((emptyTpaState e).inst.set canonicalState
    { (emptyTpaState e).instAt canonicalState with cost := 0 }).getD k default) = _
  rw [Lib.getD_set, hinit h0]
  by_cases hcan : k = canonicalState
  · have hlen : canonicalState < (emptyTpaState e).inst.length := by
      simpa [emptyTpaState] using h0
    rw [if_pos ⟨hcan.symm, hlen⟩, if_pos hcan]
  · rw [if_neg fun h => hcan h.1.symm, if_neg hcan]
    exact hinit hk

theorem makeTermstate_ok (e : Engine) (t : SuperTables) :
    LabelOk e t 0 (makeTermstate e t) where
  transitions := transitions_sound e t (by simp [emptyTpaState])
  canonical := ⟨[], rfl, by simp [makeTermstate_instAt e t (k := canonicalState) e.maxstates_pos]⟩

/-- The label in front of an instruction is as promised if the labels behind
are. -/
theorem labelState_ok (hcosts : CostsBelowInf e) (hok : t.Ok e) {p : PrimNum}
    (hp : t.HasCanonical e p) (hts : LabelOk e t rest.length (ts.getD 0 default))
    (hlen : (p :: rest).length ≤ maxBB) :
    LabelOk e t (p :: rest).length (labelState e t (p :: rest) ts) := by
  have hraw := rawState_canonicalBound hcosts hok hp hts.transitions hts.canonical hlen
  have hlt := hraw.lt_infCost hcosts hlen
  rw [labelState_eq]
  split
  · exact ⟨rawState_sound e t _ ts, hraw⟩
  · refine ⟨normalize_transitions_sound hok (length_labelInst e t _ ts) hlt, ?_⟩
    obtain ⟨ps, hps, -⟩ := hraw
    refine ⟨ps, hps, ?_⟩
    have h0 : canonicalState < (rawState e t (p :: rest) ts).inst.length := by
      rw [(rawState_sound e t _ ts).length_inst]
      exact e.maxstates_pos
    rw [normalize_instAt h0, lower_cost _ (ne_of_lt hlt), sub_self]
    exact List.sum_nonneg (by simpa using fun p _ => hcosts.nonneg p)

/-- Every label of a block of primitives with canonical variants is as
promised. -/
theorem labelHead_ok (hcosts : CostsBelowInf e) (hok : t.Ok e)
    (hcan : ∀ p ∈ origs, t.HasCanonical e p) (hlen : origs.length ≤ maxBB) :
    LabelOk e t origs.length (labelHead e t origs) := by
  induction origs with
  | nil => exact makeTermstate_ok e t
  | cons p rest ih =>
      have hrest := ih (fun q hq => hcan q (List.mem_cons_of_mem p hq))
        (by simp at hlen; omega)
      rw [labelHead_cons]
      refine labelState_ok hcosts hok (hcan p List.mem_cons_self) ?_ hlen
      rw [labels_getD e t (Nat.zero_le _), List.drop_zero]
      exact hrest

/-- The labels of all suffixes of the block have sound transitions. -/
def SoundLabels (e : Engine) (t : SuperTables) (origs : List PrimNum) : Prop :=
  ∀ n ≤ origs.length, TransitionsSound e t (labelHead e t (origs.drop n))

/-- The labels of the rest of a block -/
theorem SoundLabels.drop (h : SoundLabels e t origs) {m : Nat} (hm : m ≤ origs.length) :
    SoundLabels e t (origs.drop m) := by
  intro n hn
  rw [List.drop_drop]
  refine h (m + n) ?_
  rw [List.length_drop] at hn
  omega

/-- Labels are sound where each primitive has a rule of its own. -/
theorem soundLabels_of_canonical (hcosts : CostsBelowInf e) (hok : t.Ok e)
    (hcan : ∀ p ∈ origs, t.HasCanonical e p) (hlen : origs.length ≤ maxBB) :
    SoundLabels e t origs := by
  intro n _
  refine (labelHead_ok hcosts hok (fun p hp => hcan p (List.mem_of_mem_drop hp)) ?_).transitions
  rw [List.length_drop]
  omega

/-- Labels are sound without an automaton. -/
theorem soundLabels_of_noautomaton (hauto : noautomaton e t = true) (origs : List PrimNum) :
    SoundLabels e t origs := by
  intro n _
  cases origs.drop n with
  | nil => exact (makeTermstate_ok e t).transitions
  | cons p rest =>
      rw [labelHead_cons, labelState_eq, if_pos hauto]
      exact rawState_sound e t _ _

/-- Every reachable instruction waypoint in the first label of a block applies a
rule and follows the label behind it. -/
theorem labelHead_instSound (hok : t.Ok e) (hnonneg : ∀ p, 0 ≤ e.ssCost p) {p : PrimNum}
    (hsound : SoundLabels e t (p :: rest)) (hk : k < e.maxstates)
    (hcost : ((labelHead e t (p :: rest)).instAt k).cost ≠ infCost) :
    InstSound e t (p :: rest) (labels e t rest) k ((labelHead e t (p :: rest)).instAt k) := by
  have hts : ∀ j < (p :: rest).length,
      TransitionsSound e t ((labels e t rest).getD j default) := by
    intro j hj
    have hj' : j ≤ rest.length := by simpa using Nat.lt_succ_iff.mp hj
    rw [labels_getD e t hj']
    exact hsound (j + 1) (by simpa using hj')
  have hraw : ∀ {k}, k < e.maxstates →
      ((rawState e t (p :: rest) (labels e t rest)).instAt k).cost ≠ infCost →
      InstSound e t (p :: rest) (labels e t rest) k
        ((rawState e t (p :: rest) (labels e t rest)).instAt k) :=
    fun hk => labelInst_sound hok hnonneg hts hk
  rw [labelHead_cons, labelState_eq] at hcost ⊢
  split at hcost
  · rename_i hauto
    rw [if_pos hauto]
    exact hraw hk hcost
  · rename_i hauto
    have hk' : k < (rawState e t (p :: rest) (labels e t rest)).inst.length := by
      rwa [(rawState_sound e t _ _).length_inst]
    rw [normalize_instAt hk'] at hcost
    rw [if_neg hauto, normalize_instAt hk']
    have hsound := hraw hk (cost_ne_of_lower hcost)
    -- a waypoint changes in its cost only, and soundness does not mention it
    obtain ⟨j, hrule, hfollows, -⟩ := hsound.rule
    exact ⟨by rw [lower_inst, hsound.stateIn_eq],
      by rw [lower_inst, lower_relocatable, hsound.relocatable_eq],
      j, by rwa [lower_inst],
      by simpa only [Follows, lower_inst, lower_noTransition] using hfollows,
      fun htrue => absurd htrue hauto⟩

end Selector
end Gforth
