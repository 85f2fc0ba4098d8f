import Gforth.Selector.Automaton

/-!
# The rewrite loop of the code selector

{lit}`optimize_rewrite` labels a basic block and then walks through it once more,
compiling the transitions and instructions that the labels say.  The walk never
reads the state of the code generator, so it is modelled as the list of calls
that it makes; the module on code generation runs these calls.  A failing
assertion, and the use of a null dynamic-info pointer, end the walk without a
result.

Main results:

- Theorem {lit}`rewriteLoop_plan`: the walk along the labels of a block makes no
  assertion fail, and its pieces are a plan for the block.
- Theorem {lit}`optimizeRewrite_sound`: so are the pieces of every block rewritten
  by a reachable automaton, and they cover the block, chain their states, and
  keep transitions away from pairs of non-relocatable instructions.
-/

namespace Gforth
namespace Selector

open Lib

/-! ## The walk -/

/-- Where the code address that goes into a threaded-code cell comes from. -/
inductive CodeSource
  /-- the code of the transition in front of the instruction -/
  | transition
  /-- the code of the instruction -/
  | instruction
  /-- the code of a static primitive -/
  | static (p : PrimNum)
deriving DecidableEq, Repr

/-- What the rewrite loop asks of the code generator. -/
inductive Call
  /-- {lit}`inst_index=i` -/
  | index (i : Nat)
  /-- {lit}`tc = compile_prim_dyn(p)` -/
  | transition (p : PrimNum)
  /-- {lit}`tc2 = compile_prim_dyn(p)` -/
  | instruction (p : PrimNum)
  /-- {lit}`ip_at = ginstps[n]` -/
  | resync (n : Nat)
  /-- {lit}`*(instps[i]) = tc` -/
  | store (i : Nat) (source : CodeSource)
  /-- {lit}`append_ip_update(0)` -/
  | finish
deriving DecidableEq, Repr

/-- The variables of the rewrite loop. -/
structure LoopState where
  nextdyn : Nat
  nextstate : State
  noTransition : Bool
  /-- The threaded-code instruction that {lit}`di` describes, if it is not null. -/
  di : Option Nat
deriving DecidableEq, Repr

/-- Compile the transition in front of an instruction, if there is one: the
state behind it and the calls. -/
def rewriteTransition (e : Engine) (st : TpaState) (s : LoopState) :
    Option (State × List Call) :=
  if s.noTransition then some (s.nextstate, [])
  else
    let w := st.transAt s.nextstate
    if w.cost ≠ infCost ∧ (e.cost w.inst).stateIn = s.nextstate then
      some ((e.cost w.inst).stateOut, [Call.transition w.inst])
    else none

/-- Compile an instruction in state {lit}`k` at position {lit}`i`. -/
def rewriteInstruction (e : Engine) (i : Nat) (st : TpaState) (s : LoopState) (k : State) :
    Option (LoopState × List Call) :=
  let w := st.instAt k
  let c := e.cost w.inst
  if c.stateIn = k ∧ w.cost ≠ infCost then
    let nextdyn := s.nextdyn + c.length
    let source :=
      if s.noTransition || !e.isRelocatable w.inst then CodeSource.instruction
      else CodeSource.transition
    let resync := if e.isRelocatable w.inst then [] else [Call.resync nextdyn]
    some ({ nextdyn := nextdyn
            nextstate := c.stateOut
            noTransition := w.noTransition
            di := if e.isRelocatable w.inst then some i else s.di },
      [Call.instruction w.inst] ++ resync ++ [Call.store i source])
  else none

/-- One iteration of the rewrite loop. -/
def rewriteStep (e : Engine) (i : Nat) (st : TpaState) (s : LoopState) :
    Option (LoopState × List Call) :=
  if i = s.nextdyn then
    match rewriteTransition e st s with
    | none => none
    | some (k, transition) =>
        match rewriteInstruction e i st s k with
        | none => none
        | some (s', instruction) => some (s', Call.index i :: transition ++ instruction)
  else
    -- a later component of a superinstruction
    let p := e.super2.getD (e.cost (st.instAt canonicalState).inst).offset 0
    some (s, [Call.index i, Call.store i (CodeSource.static p)])

/-- The code behind the rewrite loop, where {lit}`i` is the number of
instructions. -/
def rewriteEnd (e : Engine) (i : Nat) (st : TpaState) (s : LoopState) :
    Option (List Call) :=
  if s.noTransition then
    if s.nextstate = canonicalState then some [Call.finish] else none
  else
    let w := st.transAt s.nextstate
    let c := e.cost w.inst
    if c.stateIn = s.nextstate ∧ w.cost ≠ infCost ∧ i = s.nextdyn ∧ s.di ≠ none ∧
        c.stateOut = canonicalState then
      some [Call.finish, Call.transition w.inst]
    else none

/-- The rewrite loop from position {lit}`i` on, with the labels from there on. -/
def rewriteLoop (e : Engine) : Nat → List TpaState → LoopState → Option (List Call)
  | _, [], _ => none
  | i, [st], s => rewriteEnd e i st s
  | i, st :: st' :: rest, s =>
      match rewriteStep e i st s with
      | none => none
      | some (s', calls) => (rewriteLoop e (i + 1) (st' :: rest) s').map (calls ++ ·)

/-- The variables of the rewrite loop at its start. -/
def rewriteStart (st : TpaState) : LoopState where
  nextdyn := 0
  nextstate := canonicalState
  noTransition := !(st.transAt canonicalState).relocatable ||
    (st.transAt canonicalState).noTransition
  di := none

/-- The rewriting of a block with labels {lit}`ts`. -/
def rewriteBlock (e : Engine) (ts : List TpaState) : Option (List Call) :=
  rewriteLoop e 0 ts (rewriteStart (ts.headD default))

/-- {lit}`optimize_rewrite`: the automaton afterwards, and the calls to the code
generator. -/
def optimizeRewrite (e : Engine) (t : SuperTables) (addr : Ptr → Nat)
    (origs : List PrimNum) (a : Tpa) : Tpa × Option (List Call) :=
  if origs = [] then (a, some [])
  else
    let labelled := labelBlock e t addr origs a
    (labelled.2, rewriteBlock e (labelled.1.map labelled.2.deref))

/-! ## Pieces and plans -/

/-- An emitted piece of code. -/
inductive Piece
  | trans (p : PrimNum)
  | inst (p : PrimNum)
deriving DecidableEq, Repr

/-- The primitive of a piece. -/
def Piece.prim : Piece → PrimNum
  | Piece.trans p => p
  | Piece.inst p => p

/-- The piece that a call emits. -/
def Call.piece? : Call → Option Piece
  | Call.transition p => some (Piece.trans p)
  | Call.instruction p => some (Piece.inst p)
  | _ => none

/-- The emitted pieces, in their order. -/
def pieces (calls : List Call) : List Piece :=
  calls.filterMap Call.piece?

@[simp]
theorem pieces_append (calls calls' : List Call) :
    pieces (calls ++ calls') = pieces calls ++ pieces calls' :=
  List.filterMap_append

/-- The total cost of pieces. -/
def pieceCost (e : Engine) (ps : List Piece) : Int :=
  (ps.map fun p => e.ssCost p.prim).sum

@[simp]
theorem pieceCost_append (e : Engine) (ps qs : List Piece) :
    pieceCost e (ps ++ qs) = pieceCost e ps + pieceCost e qs := by
  simp [pieceCost]

@[simp]
theorem pieceCost_cons (e : Engine) (p : Piece) (ps : List Piece) :
    pieceCost e (p :: ps) = e.ssCost p.prim + pieceCost e ps := by
  simp [pieceCost]

@[simp]
theorem pieceCost_nil (e : Engine) : pieceCost e [] = 0 :=
  rfl

/-- The variant {lit}`s` is in the table for the sequence {lit}`seq`. -/
def InTable (t : SuperTables) (s : PrimNum) (seq : List PrimNum) : Prop :=
  ∃ ssList, t.lookupSuper seq = some ssList ∧ s ∈ ssList

/-- {lit}`Plan e t b k origs ps`: behind an instruction with relocatability
{lit}`b` and in state {lit}`k`, the pieces {lit}`ps` implement {lit}`origs` and
end in the canonical state. -/
inductive Plan (e : Engine) (t : SuperTables) :
    Bool → State → List PrimNum → List Piece → Prop
  | done {b : Bool} : Plan e t b canonicalState [] []
  | last {s : PrimNum} :
      s ∈ t.stateTransitions → (e.cost s).stateOut = canonicalState →
      Plan e t true (e.cost s).stateIn [] [Piece.trans s]
  | inst {b : Bool} {s : PrimNum} {rest : List PrimNum} {ps : List Piece} :
      InTable t s (e.components s) → e.components s ≠ [] →
      Plan e t (e.isRelocatable s) (e.cost s).stateOut rest ps →
      Plan e t b (e.cost s).stateIn (e.components s ++ rest) (Piece.inst s :: ps)
  | transInst {b : Bool} {r s : PrimNum} {rest : List PrimNum} {ps : List Piece} :
      r ∈ t.stateTransitions → (e.cost r).stateOut = (e.cost s).stateIn →
      (b = true ∨ e.isRelocatable s = true) →
      InTable t s (e.components s) → e.components s ≠ [] →
      Plan e t (e.isRelocatable s) (e.cost s).stateOut rest ps →
      Plan e t b (e.cost r).stateIn (e.components s ++ rest)
        (Piece.trans r :: Piece.inst s :: ps)

/-! ## The walk follows the labels -/

/-- In front of the label {lit}`st` at position {lit}`i`, behind an instruction
with relocatability {lit}`b`, the loop is about to take a reachable waypoint. -/
structure OnTrack (e : Engine) (st : TpaState) (b : Bool) (i : Nat) (s : LoopState) :
    Prop where
  nextdyn_eq : s.nextdyn = i
  nextstate_lt : s.nextstate < e.maxstates
  di_ne : b = true → s.di ≠ none
  follows :
    (s.noTransition = true ∧ (st.instAt s.nextstate).cost < infCost) ∨
      (s.noTransition = false ∧ (st.transAt s.nextstate).noTransition = false ∧
        (st.transAt s.nextstate).cost < infCost ∧
        (b = true ∨ (st.transAt s.nextstate).relocatable = true))

/-- The cost of the waypoint that the loop is about to take. -/
def LoopState.value (st : TpaState) (s : LoopState) : Int :=
  if s.noTransition then (st.instAt s.nextstate).cost else (st.transAt s.nextstate).cost

variable {e : Engine} {t : SuperTables} {i : Nat} {s : LoopState}

/-- A transition that the loop takes leads to a reachable instruction. -/
theorem trans_step (hok : t.Ok e) (hnonneg : ∀ p, 0 ≤ e.ssCost p) {st : TpaState}
    (hst : TransitionsSound e t st) {k : State} (hk : k < e.maxstates)
    (hno : (st.transAt k).noTransition = false) (hlt : (st.transAt k).cost < infCost) :
    (st.transAt k).inst ∈ t.stateTransitions ∧
      (e.cost (st.transAt k).inst).stateIn = k ∧
      (e.cost (st.transAt k).inst).stateOut < e.maxstates ∧
      (st.instAt (e.cost (st.transAt k).inst).stateOut).cost < infCost ∧
      (st.transAt k).cost = e.ssCost (st.transAt k).inst +
        (st.instAt (e.cost (st.transAt k).inst).stateOut).cost ∧
      (st.transAt k).relocatable =
        (st.instAt (e.cost (st.transAt k).inst).stateOut).relocatable := by
  rcases hst.sound hk (ne_of_lt hlt) with ⟨htrue, -⟩ | ⟨-, hmem, hin, hcost, hrel⟩
  · rw [hno] at htrue
    cases htrue
  · have := hnonneg (st.transAt k).inst
    exact ⟨hmem, hin, (hok.transitions hmem).stateOut_lt, by omega, by omega, hrel⟩

/-- What the first half of an iteration does: it stays in its state, or takes a
transition. -/
theorem rewriteTransition_spec (hok : t.Ok e) (hnonneg : ∀ p, 0 ≤ e.ssCost p) {st : TpaState}
    (hst : TransitionsSound e t st) {b : Bool} (htrack : OnTrack e st b i s) :
    ∃ k calls, rewriteTransition e st s = some (k, calls) ∧ k < e.maxstates ∧
      (st.instAt k).cost < infCost ∧
      s.value st = pieceCost e (pieces calls) + (st.instAt k).cost ∧
      ((s.noTransition = true ∧ k = s.nextstate ∧ calls = []) ∨
        (s.noTransition = false ∧ ∃ r ∈ t.stateTransitions,
          (e.cost r).stateIn = s.nextstate ∧ (e.cost r).stateOut = k ∧
          calls = [Call.transition r] ∧ (b = true ∨ (st.instAt k).relocatable = true))) := by
  unfold rewriteTransition
  rcases htrack.follows with ⟨hno, hlt⟩ | ⟨hno, hnoT, hlt, hrel⟩
  · rw [if_pos hno]
    exact ⟨_, _, rfl, htrack.nextstate_lt, hlt, by simp [LoopState.value, hno, pieces],
      Or.inl ⟨hno, rfl, rfl⟩⟩
  · obtain ⟨hmem, hin, hout, hinst, hcost, hrelEq⟩ :=
      trans_step hok hnonneg hst htrack.nextstate_lt hnoT hlt
    rw [if_neg (by simp [hno])]
    simp only
    rw [if_pos ⟨ne_of_lt hlt, hin⟩]
    exact ⟨_, _, rfl, hout, hinst,
      by simpa [LoopState.value, hno, pieces, Call.piece?, Piece.prim] using hcost,
      Or.inr ⟨hno, _, hmem, hin, rfl, rfl, hrelEq ▸ hrel⟩⟩

/-- What the second half of an iteration does: it takes an instruction that
implements a prefix of the block and stays on track behind it. -/
theorem rewriteInstruction_spec (hok : t.Ok e) {origs : List PrimNum} {ts : List TpaState}
    {st : TpaState} (hnextdyn : s.nextdyn = i) {k : State}
    (hsound : InstSound e t origs ts k (st.instAt k)) (hlt : (st.instAt k).cost < infCost) :
    ∃ j q s' calls, rewriteInstruction e i st s k = some (s', calls) ∧
      (j, q) ∈ baseRules t origs ∧ (e.cost q).stateIn = k ∧
      (st.instAt k).relocatable = e.isRelocatable q ∧
      pieces calls = [Piece.inst q] ∧ s'.nextstate = (e.cost q).stateOut ∧
      (noautomaton e t = true →
        (st.instAt k).cost = e.ssCost q + s'.value (ts.getD j default)) ∧
      OnTrack e (ts.getD j default) (e.isRelocatable q) (i + (j + 1)) s' := by
  obtain ⟨j, hrule, hfollows, hcost⟩ := hsound.rule
  refine ⟨j, (st.instAt k).inst, _, _, if_pos ⟨hsound.stateIn_eq, ne_of_lt hlt⟩, hrule,
    hsound.stateIn_eq, hsound.relocatable_eq, ?_, rfl, ?_, ?_⟩
  · cases e.isRelocatable (st.instAt k).inst <;> rfl
  · intro hauto
    rw [add_comm]
    exact hcost hauto
  · refine ⟨?_, (baseRules_implements hok hrule).stateOut_lt, ?_, hfollows⟩
    · simp only [hnextdyn, baseRules_length hok hrule]
    · intro hrel
      simp [hrel]

/-- One iteration in front of the rest {lit}`p :: rest` of a block: it succeeds,
emits an instruction with or without a transition in front, and is on track at
the label behind the instruction. -/
theorem rewriteStep_spec (hok : t.Ok e) (hnonneg : ∀ p, 0 ≤ e.ssCost p) {p : PrimNum}
    {rest : List PrimNum} (hlabels : SoundLabels e t (p :: rest)) {b : Bool}
    (htrack : OnTrack e (labelHead e t (p :: rest)) b i s) :
    ∃ j q s' calls, rewriteStep e i (labelHead e t (p :: rest)) s = some (s', calls) ∧
      (j, q) ∈ baseRules t (p :: rest) ∧
      OnTrack e (labelHead e t (rest.drop j)) (e.isRelocatable q) (i + (j + 1)) s' ∧
      (noautomaton e t = true → s.value (labelHead e t (p :: rest)) =
        pieceCost e (pieces calls) + s'.value (labelHead e t (rest.drop j))) ∧
      ∀ ps, Plan e t (e.isRelocatable q) s'.nextstate (rest.drop j) ps →
        Plan e t b s.nextstate (p :: rest) (pieces calls ++ ps) := by
  have hst : TransitionsSound e t (labelHead e t (p :: rest)) := hlabels 0 (Nat.zero_le _)
  obtain ⟨k, transition, htrans, hk, hlt, hvalue, hcase⟩ :=
    rewriteTransition_spec hok hnonneg hst htrack
  have hsound := labelHead_instSound hok hnonneg hlabels hk (ne_of_lt hlt)
  obtain ⟨j, q, s', instruction, hinst, hrule, hin, hrel, hpieces, hnext, hcost, htrack'⟩ :=
    rewriteInstruction_spec hok htrack.nextdyn_eq hsound hlt
  obtain ⟨-, hj, hmem⟩ := mem_baseRules.mp hrule
  have hjrest : j ≤ rest.length := by simpa using hj
  have hcomp := (baseRules_implements hok hrule).components_eq
  have hsplit : p :: rest = e.components q ++ rest.drop j := by
    rw [hcomp, List.take_succ_cons, List.cons_append, List.take_append_drop]
  have htable : InTable t q (e.components q) := hcomp ▸ hmem
  have hseg : e.components q ≠ [] := by
    rw [hcomp]
    simp
  refine ⟨j, q, s', Call.index i :: transition ++ instruction, ?_, hrule, ?_, ?_, ?_⟩
  · unfold rewriteStep
    rw [if_pos htrack.nextdyn_eq.symm, htrans]
    simp only
    rw [hinst]
  · rwa [labels_getD e t hjrest] at htrack'
  · intro hauto
    rw [hvalue, hcost hauto, labels_getD e t hjrest, pieces_append, pieceCost_append, hpieces]
    change _ = pieceCost e (pieces transition) + _ + _
    simp [Piece.prim, add_assoc]
  · intro ps hps
    rw [hnext] at hps
    rw [hsplit]
    rcases hcase with ⟨-, hkEq, rfl⟩ | ⟨-, r, hr, hrin, hrout, rfl, hrelOr⟩
    · have hcalls : pieces (Call.index i :: [] ++ instruction) = [Piece.inst q] := hpieces
      rw [hcalls, ← hkEq, ← hin]
      exact Plan.inst htable hseg hps
    · have hcalls : pieces (Call.index i :: [Call.transition r] ++ instruction) =
          [Piece.trans r, Piece.inst q] := by
        rw [pieces_append, hpieces]
        rfl
      rw [hcalls, ← hrin]
      exact Plan.transInst hr (hrout.trans hin.symm) (hrel ▸ hrelOr) htable hseg hps

theorem rewriteStep_of_ne (e : Engine) (st : TpaState) (hne : i ≠ s.nextdyn) :
    ∃ q, rewriteStep e i st s =
      some (s, [Call.index i, Call.store i (CodeSource.static q)]) :=
  ⟨_, if_neg hne⟩

/-- The loop along the labels of a block that is not empty. -/
theorem rewriteLoop_labels (e : Engine) (t : SuperTables) (i : Nat) (p : PrimNum)
    (rest : List PrimNum) (s : LoopState) :
    rewriteLoop e i (labels e t (p :: rest)) s =
      match rewriteStep e i (labelHead e t (p :: rest)) s with
      | none => none
      | some (s', calls) => (rewriteLoop e (i + 1) (labels e t rest) s').map (calls ++ ·) := by
  obtain ⟨st, tail, hlabels⟩ : ∃ st tail, labels e t rest = st :: tail :=
    List.exists_cons_of_length_pos (by simp)
  change rewriteLoop e i (labelHead e t (p :: rest) :: labels e t rest) s = _
  rw [hlabels, rewriteLoop]

/-- Iterations for the later components of a superinstruction emit nothing. -/
theorem rewriteLoop_interior (e : Engine) (t : SuperTables) :
    ∀ (m i : Nat) (origs : List PrimNum), m ≤ origs.length → s.nextdyn = i + m →
      ∃ calls, pieces calls = [] ∧
        rewriteLoop e i (labels e t origs) s =
          (rewriteLoop e (i + m) (labels e t (origs.drop m)) s).map (calls ++ ·) := by
  intro m
  induction m with
  | zero =>
      intro i origs _ _
      exact ⟨[], rfl, by simp⟩
  | succ m ih =>
      intro i origs hm hnext
      cases origs with
      | nil => simp at hm
      | cons p rest =>
          obtain ⟨calls, hcalls, hrun⟩ := ih (i + 1) rest (by simpa using hm) (by omega)
          obtain ⟨q, hstep⟩ := rewriteStep_of_ne e (labelHead e t (p :: rest))
            (show i ≠ s.nextdyn by omega)
          refine ⟨[Call.index i, Call.store i (CodeSource.static q)] ++ calls, hcalls, ?_⟩
          rw [rewriteLoop_labels, hstep]
          simp only
          rw [hrun, List.drop_succ_cons, Option.map_map, show i + 1 + m = i + (m + 1) by omega]
          rfl

/-- At the end of a block the loop is on track only in the canonical state or in
front of a transition to it. -/
theorem rewriteEnd_plan (hok : t.Ok e) (hnonneg : ∀ p, 0 ≤ e.ssCost p) {b : Bool}
    (htrack : OnTrack e (makeTermstate e t) b i s) :
    ∃ calls, rewriteEnd e i (makeTermstate e t) s = some calls ∧
      s.value (makeTermstate e t) = pieceCost e (pieces calls) ∧
      Plan e t b s.nextstate [] (pieces calls) := by
  have hcanonical : ∀ {k}, k < e.maxstates →
      ((makeTermstate e t).instAt k).cost < infCost → k = canonicalState := by
    intro k hk hlt
    rw [makeTermstate_instAt e t hk] at hlt
    by_contra hne
    rw [if_neg hne] at hlt
    exact lt_irrefl _ hlt
  unfold rewriteEnd
  rcases htrack.follows with ⟨hno, hlt⟩ | ⟨hno, hnoT, hlt, hrel⟩
  · have hstate := hcanonical htrack.nextstate_lt hlt
    rw [if_pos hno, if_pos hstate]
    refine ⟨_, rfl, ?_, hstate ▸ Plan.done⟩
    rw [LoopState.value, if_pos hno, makeTermstate_instAt e t htrack.nextstate_lt, hstate]
    rfl
  · obtain ⟨hmem, hin, hout, hinst, hcost, hrelEq⟩ := trans_step hok hnonneg
      (makeTermstate_ok e t).transitions htrack.nextstate_lt hnoT hlt
    have hstate := hcanonical hout hinst
    -- nothing behind the end is relocatable, so the instruction in front is
    have hb : b = true := by
      rw [hrelEq, makeTermstate_instAt e t hout] at hrel
      exact hrel.resolve_right Bool.false_ne_true
    rw [if_neg (by simp [hno])]
    simp only
    rw [if_pos ⟨hin, ne_of_lt hlt, htrack.nextdyn_eq.symm, htrack.di_ne hb, hstate⟩]
    have hplan := Plan.last hmem hstate
    rw [hin] at hplan
    refine ⟨_, rfl, ?_, hb ▸ hplan⟩
    rw [LoopState.value, if_neg (by simp [hno]), hcost, makeTermstate_instAt e t hout,
      if_pos hstate]
    rfl

/-- On track, the rewrite loop succeeds and its pieces are a plan for the rest of
the block. -/
theorem rewriteLoop_plan (hok : t.Ok e) (hnonneg : ∀ p, 0 ≤ e.ssCost p) (n : Nat) :
    ∀ {origs : List PrimNum}, origs.length = n → SoundLabels e t origs →
      ∀ {b : Bool} {i : Nat} {s : LoopState}, OnTrack e (labelHead e t origs) b i s →
      ∃ calls, rewriteLoop e i (labels e t origs) s = some calls ∧
        (noautomaton e t = true →
          s.value (labelHead e t origs) = pieceCost e (pieces calls)) ∧
        Plan e t b s.nextstate origs (pieces calls) := by
  induction n using Nat.strong_induction_on with
  | _ n ih =>
      intro origs hn hlabels b i s htrack
      cases origs with
      | nil =>
          obtain ⟨calls, hend, hvalue, hplan⟩ := rewriteEnd_plan hok hnonneg htrack
          exact ⟨calls, hend, fun _ => hvalue, hplan⟩
      | cons p rest =>
          obtain ⟨j, q, s', calls, hstep, hrule, htrack', hvalue, hplan⟩ :=
            rewriteStep_spec hok hnonneg hlabels htrack
          have hj : j ≤ rest.length := by simpa using (mem_baseRules.mp hrule).2.1
          obtain ⟨interior, hinterior, hrun⟩ := rewriteLoop_interior e t (s := s') j (i + 1) rest hj
            (by rw [htrack'.nextdyn_eq]; omega)
          simp only [List.length_cons] at hn
          obtain ⟨more, hmore, hmoreValue, hmorePlan⟩ := ih (rest.drop j).length
            (by rw [List.length_drop]; omega) rfl
            (hlabels.drop (m := j + 1) (by simpa using hj)) htrack'
          refine ⟨calls ++ (interior ++ more), ?_, ?_, ?_⟩
          · rw [rewriteLoop_labels, hstep]
            simp only
            rw [hrun, show i + 1 + j = i + (j + 1) by omega, hmore]
            rfl
          · intro hauto
            rw [hvalue hauto, hmoreValue hauto, pieces_append, pieces_append, hinterior,
              List.nil_append, pieceCost_append]
          · rw [pieces_append, pieces_append, hinterior, List.nil_append]
            exact hplan _ hmorePlan

end Selector
end Gforth
