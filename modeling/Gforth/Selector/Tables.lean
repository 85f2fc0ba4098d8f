import Gforth.Lib.Buckets
import Gforth.Lib.Folds

/-!
# Superinstruction tables of the code selector

The code selector of {lit}`engine/main.c` chooses, for every basic block, a
sequence of static superinstructions and stack-caching transitions.  Its rules
come from the generated array {lit}`super_costs` and are entered into a chained
hash table keyed by component sequences, a list of state transitions, and the
table of branch variants.  This module embeds the arrays and the construction
of these tables, and says what the finished tables contain.

Main results:

- Theorem {lit}`prepareSuperTable_ok`: everything that a lookup can find is a
  variant of the primitives it is looked up for, with both states in range, and
  every state transition is relocatable.
- Theorem {lit}`prepareSuperTable_canonical`: a primitive with a variant from
  the canonical to the canonical state is found in such a variant, also after
  the ip-update headers have replaced some of the originals.
-/

namespace Gforth
namespace Selector

open Lib

/-! ## The generated arrays -/

/-- A primitive number; superinstructions and variants are numbered with the
primitives. -/
abbrev PrimNum := Nat

/-- A stack-caching state. -/
abbrev State := Nat

/-- {lit}`CANONICAL_STATE`, the state at the boundaries of basic blocks. -/
def canonicalState : State := 0

/-- {lit}`MAX_BB`, the maximum number of instructions in a basic block. -/
def maxBB : Nat := 128

/-- {lit}`INF_COST`, the cost of what cannot be reached. -/
def infCost : Int := 1000000

/-- The part of {lit}`struct cost` that code selection and code generation
read. -/
structure Cost where
  stateIn : State
  stateOut : State
  /-- Number of additional threaded-code slots. -/
  immOps : Nat
  /-- 0 if ip points to the end of the instruction, 1 if it points one cell
  earlier, and so on. -/
  ipOffset : Int
  /-- Offset of the components in {lit}`super2`. -/
  offset : Nat
  /-- Number of components. -/
  length : Nat
  branchToIp : Bool
deriving DecidableEq, Repr, Inhabited

/-- The part of {lit}`PrimInfo` that code selection and code generation read. -/
structure PrimInfo where
  /-- Address of the code to copy, absent if the code is not relocatable. -/
  start : Option Nat
  len1 : Int
  length : Int
  restlength : Int
  superend : Bool
  maxIpOffset : Int
  minIpOffset : Int
deriving DecidableEq, Repr, Inhabited

/-- What the engine knows about its primitives when it prepares the tables:
the generated arrays, the result of {lit}`check_prims` (the empty list stands
for a null {lit}`priminfos`), and the settings from the command line. -/
structure Engine where
  superCosts : List Cost
  super2 : List PrimNum
  priminfos : List PrimInfo
  noDynamic : Bool
  /-- Number of states for stack caching; the command line cannot set it to 0. -/
  maxstates : Nat
  maxstates_pos : 0 < maxstates
  staticSuperNumber : Int
  tpaNoequiv : Bool
  tpaNoautomaton : Bool
  ssCost : PrimNum → Int
  nNoop : PrimNum

namespace Engine

/-- The entry of a primitive in {lit}`super_costs`. -/
def cost (e : Engine) (p : PrimNum) : Cost :=
  e.superCosts.getD p default

/-- The entry of a primitive in {lit}`priminfos`. -/
def priminfo (e : Engine) (p : PrimNum) : PrimInfo :=
  e.priminfos.getD p default

/-- {lit}`is_relocatable` -/
def isRelocatable (e : Engine) (p : PrimNum) : Bool :=
  !e.noDynamic && (e.priminfo p).start.isSome

/-- The primitives that {lit}`super2+c->offset` points to, {lit}`c->length` of
them. -/
def components (e : Engine) (p : PrimNum) : List PrimNum :=
  (List.range (e.cost p).length).map fun k => e.super2.getD ((e.cost p).offset + k) 0

@[simp]
theorem length_components (e : Engine) (p : PrimNum) :
    (e.components p).length = (e.cost p).length := by
  simp [components]

/-- A variant that enters and leaves in the canonical state. -/
def IsCanonical (e : Engine) (p : PrimNum) : Prop :=
  (e.cost p).stateIn = canonicalState ∧ (e.cost p).stateOut = canonicalState

instance (e : Engine) (p : PrimNum) : Decidable (e.IsCanonical p) :=
  inferInstanceAs (Decidable (_ ∧ _))

end Engine

/-! ## Hashing and lookup -/

/-- {lit}`hash_super`: the hash bucket, out of {lit}`HASH_SIZE`, of a component
sequence. -/
def hashSuper (start : List PrimNum) : Nat :=
  start.foldl (fun r p => 2 * r + p) 0 % 256

/-- The tables that {lit}`prepare_super_table` fills. -/
structure SuperTables where
  superTable : Buckets (List PrimNum) (List PrimNum)
  stateTransitions : List PrimNum
  branchesToIp : PrimNum → PrimNum
  maxSuper : Nat
  nsupers : Nat
  ipUpdate0 : PrimNum
  minIpUpdate : Int
  maxIpUpdate : Int

namespace SuperTables

/-- The tables before the first entry is made. -/
def initial : SuperTables where
  superTable := Buckets.empty
  stateTransitions := []
  branchesToIp := fun _ => 0
  maxSuper := 2
  nsupers := 0
  ipUpdate0 := 0
  minIpUpdate := 0
  maxIpUpdate := 0

/-- {lit}`lookup_super`: the variants that implement a sequence of primitives. -/
def lookupSuper (t : SuperTables) (start : List PrimNum) : Option (List PrimNum) :=
  t.superTable.lookup hashSuper start

/-- {lit}`lookup_ss`: the variant of a sequence for given states. -/
def lookupSs (e : Engine) (t : SuperTables) (start : List PrimNum)
    (stateIn stateOut : State) : Option PrimNum :=
  match t.lookupSuper start with
  | none => none
  | some ssList =>
      ssList.find? fun s => (e.cost s).stateIn = stateIn ∧ (e.cost s).stateOut = stateOut

end SuperTables

/-! ## Filling the tables -/

/-- Enter one variant without ip offset: the body of the inner conditional of
{lit}`prepare_super_table`, with a failing assertion as {lean}`none`. -/
def registerSuper (e : Engine) (t : SuperTables) (i : PrimNum) : Option SuperTables :=
  let c := e.cost i
  if c.offset = e.nNoop ∧ i ≠ e.nNoop then
    -- stack caching transition, or the base of the ip-update series
    if e.isRelocatable i then
      if e.IsCanonical i then
        if t.ipUpdate0 = 0 then
          some { t with
            ipUpdate0 := i
            minIpUpdate := (e.priminfo i).minIpOffset
            maxIpUpdate := (e.priminfo i).maxIpOffset }
        else none
      else some { t with stateTransitions := i :: t.stateTransitions }
    else some t
  else
    match t.lookupSuper (e.components i) with
    | some ssList =>
        if e.IsCanonical i ∧ 0 < (e.priminfo i).maxIpOffset then
          -- header of ip-update variants: it takes the place of the original
          if c.length = 1 ∧ c.offset ∈ ssList then
            some { t with
              superTable := t.superTable.modify hashSuper (e.components i)
                fun ss => ss.replace c.offset i }
          else none
        else
          some { t with
            superTable := t.superTable.modify hashSuper (e.components i)
              fun ss => i :: ss }
    | none => some { t with superTable := t.superTable.link hashSuper (e.components i) [i] }

/-- The bookkeeping of {lit}`prepare_super_table` after an entry was made. -/
def countSuper (c : Cost) (t : SuperTables) : SuperTables :=
  { t with
    maxSuper := if t.maxSuper < c.length then c.length else t.maxSuper
    nsupers := if 2 ≤ c.length then t.nsupers + 1 else t.nsupers }

/-- The guard of {lit}`prepare_super_table` on entering a variant. -/
def Admitted (e : Engine) (t : SuperTables) (c : Cost) : Prop :=
  (c.length < 2 ∨ (t.nsupers : Int) < e.staticSuperNumber) ∧
    c.stateIn < e.maxstates ∧ c.stateOut < e.maxstates ∧ c.ipOffset = 0

instance (e : Engine) (t : SuperTables) (c : Cost) : Decidable (Admitted e t c) :=
  inferInstanceAs (Decidable (_ ∧ _))

/-- One iteration of {lit}`prepare_super_table`. -/
def prepareStep (e : Engine) (t : SuperTables) (i : PrimNum) : Option SuperTables :=
  let c := e.cost i
  if c.branchToIp then
    match t.lookupSs e (e.components i) c.stateIn c.stateOut with
    | some ss => some { t with branchesToIp := Function.update t.branchesToIp ss i }
    | none => some t
  else if Admitted e t c then
    (registerSuper e t i).map (countSuper c)
  else some t

/-- {lit}`prepare_super_table`, up to the choice of the automaton. -/
def prepareSuperTable (e : Engine) : Option SuperTables :=
  (List.range e.superCosts.length).foldlM (prepareStep e) SuperTables.initial

/-- The value of {lit}`tpa_noautomaton` that {lit}`prepare_super_table` leaves:
automaton and state equivalence are not used together with superinstructions. -/
def noautomaton (e : Engine) (t : SuperTables) : Bool :=
  e.tpaNoautomaton || (decide (0 < t.nsupers) && !e.tpaNoequiv)

/-! ## What the finished tables contain -/

/-- The variant {lit}`s` implements the sequence {lit}`seq`, between states that
the selector keeps track of. -/
structure Implements (e : Engine) (s : PrimNum) (seq : List PrimNum) : Prop where
  components_eq : e.components s = seq
  stateIn_lt : (e.cost s).stateIn < e.maxstates
  stateOut_lt : (e.cost s).stateOut < e.maxstates

/-- A transition between states that the selector keeps track of. -/
structure IsTransition (e : Engine) (s : PrimNum) : Prop where
  relocatable : e.isRelocatable s = true
  stateIn_lt : (e.cost s).stateIn < e.maxstates
  stateOut_lt : (e.cost s).stateOut < e.maxstates

/-- The invariant of {lit}`prepare_super_table`. -/
structure SuperTables.Ok (e : Engine) (t : SuperTables) : Prop where
  implements : ∀ {seq ssList s}, t.lookupSuper seq = some ssList → s ∈ ssList →
    Implements e s seq
  transitions : ∀ {s}, s ∈ t.stateTransitions → IsTransition e s
  length_le_maxSuper : ∀ {seq ssList}, t.lookupSuper seq = some ssList →
    seq.length ≤ t.maxSuper
  nsupers_pos : ∀ {seq ssList}, t.lookupSuper seq = some ssList →
    2 ≤ seq.length → 0 < t.nsupers

variable {e : Engine} {t t' : SuperTables} {i : PrimNum}

/-- Everything an entry can do to the tables: it adds a transition at most, or
it changes the variants of its own component sequence only. -/
theorem registerSuper_cases (h : registerSuper e t i = some t') :
    (t'.superTable = t.superTable ∧ ((e.cost i).offset = e.nNoop ∧ i ≠ e.nNoop) ∧
      (t'.stateTransitions = t.stateTransitions ∨
        e.isRelocatable i = true ∧ t'.stateTransitions = i :: t.stateTransitions)) ∨
    (t'.stateTransitions = t.stateTransitions ∧
      ∃ new, i ∈ new ∧
        (∀ seq, t'.lookupSuper seq =
          if seq = e.components i then some new else t.lookupSuper seq) ∧
        (∀ s ∈ new, s = i ∨ ∃ old, t.lookupSuper (e.components i) = some old ∧ s ∈ old) ∧
        (∀ old s, t.lookupSuper (e.components i) = some old → s ∈ old →
          e.IsCanonical s → ∃ s' ∈ new, e.IsCanonical s')) := by
  unfold registerSuper at h
  by_cases hnoop : (e.cost i).offset = e.nNoop ∧ i ≠ e.nNoop
  · simp only [if_pos hnoop] at h
    left
    split at h
    · rename_i hrel
      split at h
      · split at h
        · cases h
          exact ⟨rfl, hnoop, Or.inl rfl⟩
        · cases h
      · cases h
        exact ⟨rfl, hnoop, Or.inr ⟨hrel, rfl⟩⟩
    · cases h
      exact ⟨rfl, hnoop, Or.inl rfl⟩
  · simp only [if_neg hnoop] at h
    right
    split at h
    · rename_i old hold
      have hmodify : ∀ (f : List PrimNum → List PrimNum) (seq : List PrimNum),
          (t.superTable.modify hashSuper (e.components i) f).lookup hashSuper seq =
            if seq = e.components i then some (f old) else t.lookupSuper seq := by
        intro f seq
        rw [Buckets.lookup_modify]
        change (if _ then (t.lookupSuper _).map f else _) = _
        rw [hold]
        rfl
      split at h
      · rename_i hheader
        split at h
        · rename_i horiginal
          cases h
          refine ⟨rfl, old.replace (e.cost i).offset i, mem_replace_self horiginal.2,
            hmodify _, ?_, ?_⟩
          · intro s hs
            exact (mem_of_mem_replace hs).imp_right fun hs => ⟨old, hold, hs⟩
          · intro _ _ _ _ _
            exact ⟨i, mem_replace_self horiginal.2, hheader.1⟩
        · cases h
      · cases h
        refine ⟨rfl, i :: old, List.mem_cons_self, hmodify _, ?_, ?_⟩
        · intro s hs
          exact (List.mem_cons.mp hs).imp_right fun hs => ⟨old, hold, hs⟩
        · intro old' s hold' hs hcanonical
          rw [hold] at hold'
          cases hold'
          exact ⟨s, List.mem_cons_of_mem i hs, hcanonical⟩
    · rename_i hnone
      cases h
      refine ⟨rfl, [i], List.mem_singleton_self i, ?_, ?_, ?_⟩
      · intro seq
        by_cases hseq : seq = e.components i
        · simp [SuperTables.lookupSuper, hseq]
        · rw [if_neg hseq]
          exact Buckets.lookup_link_ne hashSuper t.superTable [i] hseq
      · intro s hs
        exact Or.inl (List.mem_singleton.mp hs)
      · intro old _ hold
        rw [hnone] at hold
        cases hold

/-- Registering a superinstruction does not count it. -/
theorem registerSuper_counts (h : registerSuper e t i = some t') :
    t'.maxSuper = t.maxSuper ∧ t'.nsupers = t.nsupers := by
  unfold registerSuper at h
  simp only at h
  repeat' split at h
  all_goals first | (cases h; exact ⟨rfl, rfl⟩) | cases h

@[simp]
theorem lookupSuper_countSuper (c : Cost) (t : SuperTables) (seq : List PrimNum) :
    (countSuper c t).lookupSuper seq = t.lookupSuper seq :=
  rfl

/-- Entering an admitted variant keeps the tables as described. -/
theorem registerSuper_ok (hok : t.Ok e) (hadm : Admitted e t (e.cost i))
    (h : registerSuper e t i = some t') : (countSuper (e.cost i) t').Ok e := by
  obtain ⟨hmax, hnsupers⟩ := registerSuper_counts h
  have hmaxLe : t.maxSuper ≤ (countSuper (e.cost i) t').maxSuper := by
    simp only [countSuper, hmax]
    split <;> omega
  have hnsupersLe : t.nsupers ≤ (countSuper (e.cost i) t').nsupers := by
    simp only [countSuper, hnsupers]
    split <;> omega
  rcases registerSuper_cases h with ⟨htable, -, htrans⟩ | ⟨htrans, new, -, hlookup, hnew, -⟩
  · have hsame : ∀ seq, (countSuper (e.cost i) t').lookupSuper seq = t.lookupSuper seq := by
      intro seq
      rw [lookupSuper_countSuper, SuperTables.lookupSuper, htable]
      rfl
    refine ⟨?_, ?_, ?_, ?_⟩
    · intro seq ssList s hseq
      exact hok.implements (hsame seq ▸ hseq)
    · intro s hs
      change s ∈ t'.stateTransitions at hs
      rcases htrans with heq | ⟨hrel, heq⟩
      · exact hok.transitions (heq ▸ hs)
      · rw [heq] at hs
        rcases List.mem_cons.mp hs with rfl | hs
        · exact ⟨hrel, hadm.2.1, hadm.2.2.1⟩
        · exact hok.transitions hs
    · intro seq ssList hseq
      exact le_trans (hok.length_le_maxSuper (hsame seq ▸ hseq)) hmaxLe
    · intro seq ssList hseq hlen
      exact lt_of_lt_of_le (hok.nsupers_pos (hsame seq ▸ hseq) hlen) hnsupersLe
  · refine ⟨?_, ?_, ?_, ?_⟩
    · intro seq ssList s hseq hs
      rw [lookupSuper_countSuper, hlookup] at hseq
      split at hseq
      · rename_i heq
        cases hseq
        rcases hnew s hs with rfl | ⟨old, hold, hs⟩
        · exact ⟨heq.symm, hadm.2.1, hadm.2.2.1⟩
        · exact heq ▸ hok.implements hold hs
      · exact hok.implements hseq hs
    · intro s hs
      exact hok.transitions (htrans ▸ hs)
    · intro seq ssList hseq
      rw [lookupSuper_countSuper, hlookup] at hseq
      split at hseq
      · rename_i heq
        rw [heq, Engine.length_components]
        simp only [countSuper]
        split <;> omega
      · exact le_trans (hok.length_le_maxSuper hseq) hmaxLe
    · intro seq ssList hseq hlen
      rw [lookupSuper_countSuper, hlookup] at hseq
      split at hseq
      · rename_i heq
        rw [heq, Engine.length_components] at hlen
        simp [countSuper, hlen]
      · exact lt_of_lt_of_le (hok.nsupers_pos hseq hlen) hnsupersLe

/-- The three ways an iteration of {lit}`prepare_super_table` can end. -/
theorem prepareStep_cases (h : prepareStep e t i = some t') :
    ((e.cost i).branchToIp = true ∧
      ∃ b : PrimNum → PrimNum, t' = { t with branchesToIp := b }) ∨
    ((e.cost i).branchToIp = false ∧ Admitted e t (e.cost i) ∧
      ∃ t₁, registerSuper e t i = some t₁ ∧ t' = countSuper (e.cost i) t₁) ∨
    (¬ Admitted e t (e.cost i) ∧ t' = t) := by
  unfold prepareStep at h
  simp only at h
  split at h
  · rename_i hbranch
    left
    refine ⟨hbranch, ?_⟩
    split at h
    · exact ⟨_, (Option.some.inj h).symm⟩
    · exact ⟨t.branchesToIp, (Option.some.inj h).symm⟩
  · rename_i hbranch
    split at h
    · rename_i hadm
      obtain ⟨t₁, ht₁, rfl⟩ := Option.map_eq_some_iff.mp h
      exact Or.inr (Or.inl ⟨by simpa using hbranch, hadm, t₁, ht₁, rfl⟩)
    · rename_i hadm
      exact Or.inr (Or.inr ⟨hadm, (Option.some.inj h).symm⟩)

/-- A step of the preparation keeps the tables right. -/
theorem prepareStep_ok (hok : t.Ok e) (h : prepareStep e t i = some t') : t'.Ok e := by
  rcases prepareStep_cases h with ⟨-, b, rfl⟩ | ⟨-, hadm, t₁, ht₁, rfl⟩ | ⟨-, rfl⟩
  · exact ⟨hok.implements, hok.transitions, hok.length_le_maxSuper, hok.nsupers_pos⟩
  · exact registerSuper_ok hok hadm ht₁
  · exact hok

/-- The empty tables are right. -/
theorem initial_ok (e : Engine) : SuperTables.initial.Ok e where
  implements h := by simp [SuperTables.initial, SuperTables.lookupSuper] at h
  transitions h := by simp [SuperTables.initial] at h
  length_le_maxSuper h := by simp [SuperTables.initial, SuperTables.lookupSuper] at h
  nsupers_pos h := by simp [SuperTables.initial, SuperTables.lookupSuper] at h

/-- The finished tables hold variants of what they are looked up for, and
relocatable transitions. -/
theorem prepareSuperTable_ok {t : SuperTables} (h : prepareSuperTable e = some t) : t.Ok e :=
  foldlM_option_invariant h (initial_ok e) fun _ _ _ _ => prepareStep_ok

/-! ## Canonical variants -/

/-- The table row {lit}`i` gives the primitive {lit}`p` a variant from the
canonical to the canonical state that {lit}`prepare_super_table` enters. -/
structure CanonicalRow (e : Engine) (p : PrimNum) (i : PrimNum) : Prop where
  lt : i < e.superCosts.length
  components_eq : e.components i = [p]
  canonical : e.IsCanonical i
  ipOffset_eq : (e.cost i).ipOffset = 0
  branchToIp_eq : (e.cost i).branchToIp = false
  not_transition : ¬ ((e.cost i).offset = e.nNoop ∧ i ≠ e.nNoop)

/-- A lookup of the primitive alone finds a variant from the canonical to the
canonical state. -/
def SuperTables.HasCanonical (e : Engine) (t : SuperTables) (p : PrimNum) : Prop :=
  ∃ ssList s, t.lookupSuper [p] = some ssList ∧ s ∈ ssList ∧ e.IsCanonical s

/-- No entry takes the canonical variant of a primitive away. -/
theorem prepareStep_hasCanonical {i p : PrimNum} (hcan : t.HasCanonical e p)
    (h : prepareStep e t i = some t') : t'.HasCanonical e p := by
  obtain ⟨ssList, s, hlookup, hs, hcanonical⟩ := hcan
  rcases prepareStep_cases h with ⟨-, b, rfl⟩ | ⟨-, -, t₁, ht₁, rfl⟩ | ⟨-, rfl⟩
  · exact ⟨ssList, s, hlookup, hs, hcanonical⟩
  · rcases registerSuper_cases ht₁ with ⟨htable, -, -⟩ | ⟨-, new, -, hnew, -, hkeep⟩
    · refine ⟨ssList, s, ?_, hs, hcanonical⟩
      rw [lookupSuper_countSuper, SuperTables.lookupSuper, htable]
      exact hlookup
    · by_cases hseq : [p] = e.components i
      · obtain ⟨s', hs', hcanonical'⟩ := hkeep ssList s (hseq ▸ hlookup) hs hcanonical
        exact ⟨new, s', by rw [lookupSuper_countSuper, hnew, if_pos hseq], hs', hcanonical'⟩
      · exact ⟨ssList, s, by rw [lookupSuper_countSuper, hnew, if_neg hseq, hlookup], hs,
          hcanonical⟩
  · exact ⟨ssList, s, hlookup, hs, hcanonical⟩

/-- The row itself is entered when its turn comes. -/
theorem prepareStep_canonicalRow {i p : PrimNum} (hrow : CanonicalRow e p i)
    (h : prepareStep e t i = some t') : t'.HasCanonical e p := by
  have hlength : (e.cost i).length = 1 := by
    rw [← Engine.length_components, hrow.components_eq]
    rfl
  have hadm : Admitted e t (e.cost i) := by
    refine ⟨Or.inl (by omega), ?_, ?_, hrow.ipOffset_eq⟩
    · rw [hrow.canonical.1]
      exact e.maxstates_pos
    · rw [hrow.canonical.2]
      exact e.maxstates_pos
  rcases prepareStep_cases h with ⟨hbranch, -⟩ | ⟨-, -, t₁, ht₁, rfl⟩ | ⟨hnot, -⟩
  · rw [hrow.branchToIp_eq] at hbranch
    cases hbranch
  · rcases registerSuper_cases ht₁ with ⟨-, hnoop, -⟩ | ⟨-, new, hmem, hnew, -, -⟩
    · exact (hrow.not_transition hnoop).elim
    · exact ⟨new, i, by rw [lookupSuper_countSuper, hnew, if_pos hrow.components_eq.symm],
        hmem, hrow.canonical⟩
  · exact (hnot hadm).elim

/-- A primitive with a canonical row is found in a canonical variant. -/
theorem prepareSuperTable_canonical {t : SuperTables} {p i : PrimNum} (hrow : CanonicalRow e p i)
    (h : prepareSuperTable e = some t) : t.HasCanonical e p :=
  foldlM_option_establish (Q := fun t => t.HasCanonical e p) h (List.mem_range.mpr hrow.lt)
    (fun _ _ => prepareStep_canonicalRow hrow)
    fun _ _ _ _ => prepareStep_hasCanonical

end Selector
end Gforth
