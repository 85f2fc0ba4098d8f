import Gforth.Selector.Labels

/-!
# The tree-parsing automaton as a cache of labels

Labels are allocated states.  With the automaton, the label in front of an
instruction is remembered under the instruction and the address of the label
behind it; with state equivalence, a label that was computed before is shared.
Both tables live as long as the engine and serve all basic blocks.  The model
gives states their allocation numbers as pointers and keeps the tables as the
source has them, buckets included.

Main results:

- Theorem {lit}`labelBlock_spec`: whatever blocks were labelled before, the labels
  that a block gets are the ones computed without any cache.
-/

namespace Gforth
namespace Selector

open Lib

/-! ## Allocated states and tables -/

/-- A pointer to an allocated state; 0 is {lit}`termstate`. -/
abbrev Ptr := Nat

/-- The states allocated so far and the two hash tables over them. -/
structure Tpa where
  states : List TpaState
  tpaTable : Buckets (PrimNum × Ptr) Ptr
  tpaStateTable : Nat → List Ptr

/-- The state that a pointer points to. -/
def Tpa.deref (a : Tpa) (q : Ptr) : TpaState :=
  a.states.getD q default

/-- The automaton when the loader has made {lit}`termstate`. -/
def Tpa.initial (e : Engine) (t : SuperTables) : Tpa where
  states := [makeTermstate e t]
  tpaTable := Buckets.empty
  tpaStateTable := fun _ => []

/-- {lit}`hash_tpa`, where {lit}`addr` gives the machine address of a state. -/
def hashTpa (addr : Ptr → Nat) (key : PrimNum × Ptr) : Nat :=
  (key.1 + addr key.2 + (addr key.2 >>> 14)) % 16384

/-- {lit}`lookup_tpa`: the remembered label in front of an instruction. -/
def lookupTpa (e : Engine) (t : SuperTables) (addr : Ptr → Nat) (a : Tpa) (p : PrimNum)
    (t2 : Ptr) : Option Ptr :=
  if noautomaton e t then none else a.tpaTable.lookup (hashTpa addr) (p, t2)

/-- {lit}`tpa_state_equivalent` -/
def tpaStateEquivalent (t1 t2 : TpaState) : Bool :=
  decide (t1.inst = t2.inst ∧ t1.trans = t2.trans)

/-- The machine words of a waypoint, added up. -/
def Waypoint.words (w : Waypoint) : Int :=
  w.cost + w.inst + (w.relocatable.toNat + 256 * w.noTransition.toNat)

/-- {lit}`hash_tpa_state` -/
def hashTpaState (st : TpaState) : Nat :=
  let r := (st.inst.map Waypoint.words).sum + (st.trans.map Waypoint.words).sum
  ((r + (r >>> (14 : Nat)) + (r >>> (22 : Nat))) % 16384).toNat

/-- {lit}`lookup_tpa_state`: share an equivalent state, or keep the new one.  A
new state becomes the only one of its bucket: it is linked in front of
{lit}`te`, which is null behind the search. -/
def lookupTpaState (e : Engine) (a : Tpa) (st : TpaState) : Ptr × Tpa :=
  let new := a.states.length
  if e.tpaNoequiv then (new, { a with states := a.states ++ [st] })
  else
    match (a.tpaStateTable (hashTpaState st)).find?
        fun q => tpaStateEquivalent st (a.deref q) with
    | some q => (q, a)
    | none =>
        (new,
          { a with
            states := a.states ++ [st]
            tpaStateTable := Function.update a.tpaStateTable (hashTpaState st) [new] })

/-! ## Labelling a block -/

/-- One iteration of the labelling loop of {lit}`optimize_rewrite`: the label in
front of the first instruction of {lit}`origs`, where {lit}`ts` are the labels
behind it.  The entry that {lit}`lookup_tpa` prepares is linked in when its label
is known. -/
def labelStep (e : Engine) (t : SuperTables) (addr : Ptr → Nat) (a : Tpa)
    (p : PrimNum) (rest : List PrimNum) (ts : List Ptr) : Ptr × Tpa :=
  match lookupTpa e t addr a p (ts.headD 0) with
  | some q => (q, a)
  | none =>
      let new := lookupTpaState e a (labelState e t (p :: rest) (ts.map a.deref))
      if noautomaton e t then new
      else
        (new.1,
          { new.2 with
            tpaTable := new.2.tpaTable.link (hashTpa addr) (p, ts.headD 0) new.1 })

/-- The labelling loop: the pointers {lit}`ts` of a block, from its start to
behind its end. -/
def labelBlock (e : Engine) (t : SuperTables) (addr : Ptr → Nat) :
    List PrimNum → Tpa → List Ptr × Tpa
  | [], a => ([0], a)
  | p :: rest, a =>
      let behind := labelBlock e t addr rest a
      let new := labelStep e t addr behind.2 p rest behind.1
      (new.1 :: behind.1, new.2)

/-- The automata that labelling some sequence of blocks can lead to. -/
inductive Tpa.Reachable (e : Engine) (t : SuperTables) (addr : Ptr → Nat) : Tpa → Prop
  | initial : Tpa.Reachable e t addr (Tpa.initial e t)
  | block {a : Tpa} (origs : List PrimNum) :
      Tpa.Reachable e t addr a → Tpa.Reachable e t addr (labelBlock e t addr origs a).2

/-! ## What the cache may identify -/

/-- The suffixes of blocks that may share a label: without state equivalence a
label belongs to one suffix, with it to all suffixes with this label. -/
def SameLabel (e : Engine) (t : SuperTables) (x y : List PrimNum) : Prop :=
  if e.tpaNoequiv then x = y else labelHead e t x = labelHead e t y

theorem SameLabel.refl (e : Engine) (t : SuperTables) (x : List PrimNum) :
    SameLabel e t x x := by
  unfold SameLabel
  split <;> rfl

variable {e : Engine} {t : SuperTables} {x y : List PrimNum} {origs : List PrimNum}
  {addr : Ptr → Nat} {suffix : Ptr → List PrimNum} {a : Tpa} {shared : Nat → List Ptr}
  {ts : List Ptr}

theorem SameLabel.trans {x y z : List PrimNum} (hxy : SameLabel e t x y) (hyz : SameLabel e t y z) :
    SameLabel e t x z := by
  unfold SameLabel at *
  split <;> simp_all

theorem SameLabel.symm (hxy : SameLabel e t x y) : SameLabel e t y x := by
  unfold SameLabel at *
  split <;> simp_all

/-- Blocks with the same label have the same state. -/
theorem SameLabel.labelHead_eq (h : SameLabel e t x y) : labelHead e t x = labelHead e t y := by
  unfold SameLabel at h
  split at h
  · rw [h]
  · exact h

/-- Without superinstructions only the label right behind an instruction
matters. -/
theorem baseRules_of_nsupers_eq_zero (hok : t.Ok e) (hnsupers : t.nsupers = 0) {r : Nat × PrimNum}
    (hr : r ∈ baseRules t origs) : r.1 = 0 := by
  obtain ⟨-, hlen, ssList, hlookup, -⟩ := mem_baseRules.mp hr
  by_contra hpos
  have hlength : 2 ≤ (origs.take (r.1 + 1)).length := by
    rw [List.length_take, min_eq_left hlen]
    omega
  have := hok.nsupers_pos hlookup hlength
  omega

/-- Where no superinstruction applies, the rules depend on the first instruction
only. -/
theorem baseRules_eq_single {p : PrimNum} {x : List PrimNum}
    (hx : ∀ r ∈ baseRules t (p :: x), r.1 = 0) : baseRules t (p :: x) = baseRules t [p] := by
  unfold baseRules
  refine List.flatMap_congr ?_
  intro j hj
  cases j with
  | zero => simp
  | succ j =>
      have hnone : t.lookupSuper ((p :: x).take (j + 1 + 1)) = none ∨
          t.lookupSuper ((p :: x).take (j + 1 + 1)) = some [] ∨
          ¬ j + 1 + 1 ≤ (p :: x).length := by
        by_contra hcontra
        push Not at hcontra
        obtain ⟨hsome, hne, hlen⟩ := hcontra
        obtain ⟨ssList, hlookup⟩ := Option.ne_none_iff_exists'.mp hsome
        obtain ⟨s, hs⟩ := List.exists_mem_of_ne_nil ssList (by rintro rfl; exact hne hlookup)
        have := hx (j + 1, s)
          (mem_baseRules.mpr ⟨List.mem_range.mp hj, hlen, ssList, hlookup, hs⟩)
        simp at this
      rcases hnone with hnone | hnone | hlen
      · rw [hnone]
        simp
      · rw [hnone]
        simp
      · rw [if_neg hlen, if_neg (by simp)]

/-- Where no superinstruction applies, a label depends on the first instruction
and the label behind it only. -/
theorem labelState_congr {p : PrimNum} {ts us : List TpaState}
    (hx : ∀ r ∈ baseRules t (p :: x), r.1 = 0) (hy : ∀ r ∈ baseRules t (p :: y), r.1 = 0)
    (hhead : ts.getD 0 default = us.getD 0 default) :
    labelState e t (p :: x) ts = labelState e t (p :: y) us := by
  have hinst : labelInst e t (p :: x) ts = labelInst e t (p :: y) us := by
    unfold labelInst
    congr 1
    rw [baseRules_eq_single hx, ← baseRules_eq_single hy]
    refine List.filterMap_congr ?_
    intro r hr
    rw [hy r hr, hhead]
  unfold labelState
  rw [hinst]

/-- The automaton is in use only where suffixes that share a label may share it
after one more instruction, too. -/
theorem SameLabel.cons (hok : t.Ok e) (hauto : noautomaton e t = false) (p : PrimNum)
    (h : SameLabel e t x y) : SameLabel e t (p :: x) (p :: y) := by
  unfold SameLabel at *
  split at h
  · rename_i hnoequiv
    rw [if_pos hnoequiv, h]
  · rename_i hnoequiv
    rw [if_neg hnoequiv, labelHead_cons, labelHead_cons]
    have hnsupers : t.nsupers = 0 := by
      simp only [noautomaton, Bool.or_eq_false_iff, Bool.and_eq_false_iff] at hauto
      simpa [hnoequiv] using hauto.2
    refine labelState_congr (fun r hr => baseRules_of_nsupers_eq_zero hok hnsupers hr)
      (fun r hr => baseRules_of_nsupers_eq_zero hok hnsupers hr) ?_
    rw [labels_getD e t (Nat.zero_le _), labels_getD e t (Nat.zero_le _)]
    exact h

/-! ## The invariant of the tables -/

/-- Every allocated state is the label of the suffix {lit}`suffix` assigns to it,
and the tables lead from suffixes to suffixes. -/
structure Tpa.Inv (e : Engine) (t : SuperTables) (addr : Ptr → Nat)
    (suffix : Ptr → List PrimNum) (a : Tpa) : Prop where
  states_pos : 0 < a.states.length
  termstate : suffix 0 = []
  deref_eq : ∀ {q}, q < a.states.length → a.deref q = labelHead e t (suffix q)
  table : ∀ {p t2 q}, a.tpaTable.lookup (hashTpa addr) (p, t2) = some q →
    t2 < a.states.length ∧ q < a.states.length ∧ SameLabel e t (suffix q) (p :: suffix t2)
  shared : ∀ {h q}, q ∈ a.tpaStateTable h → q < a.states.length

/-- The pointer stands for the label of the suffix {lit}`origs`. -/
def Represents (e : Engine) (t : SuperTables) (suffix : Ptr → List PrimNum) (a : Tpa)
    (q : Ptr) (origs : List PrimNum) : Prop :=
  q < a.states.length ∧ SameLabel e t (suffix q) origs

theorem Represents.deref_eq (hinv : a.Inv e t addr suffix) {q : Ptr}
    (h : Represents e t suffix a q origs) : a.deref q = labelHead e t origs := by
  rw [hinv.deref_eq h.1, h.2.labelHead_eq]

/-- States are added and never change, and neither do their suffixes. -/
structure Tpa.Extends (a : Tpa) (suffix : Ptr → List PrimNum) (a' : Tpa)
    (suffix' : Ptr → List PrimNum) : Prop where
  length_le : a.states.length ≤ a'.states.length
  suffix_eq : ∀ q < a.states.length, suffix' q = suffix q

theorem Tpa.Extends.refl (a : Tpa) (suffix : Ptr → List PrimNum) :
    Tpa.Extends a suffix a suffix :=
  ⟨le_rfl, fun _ _ => rfl⟩

/-- What a pointer stands for does not change. -/
theorem Represents.extends {a a' : Tpa} {suffix suffix' : Ptr → List PrimNum}
    (hext : Tpa.Extends a suffix a' suffix') {q : Ptr} (h : Represents e t suffix a q origs) :
    Represents e t suffix' a' q origs := by
  refine ⟨lt_of_lt_of_le h.1 hext.length_le, ?_⟩
  rw [hext.suffix_eq q h.1]
  exact h.2

theorem deref_append_of_lt {st : TpaState} {table : Buckets (PrimNum × Ptr) Ptr} {q : Ptr}
    (hq : q < a.states.length) : Tpa.deref ⟨a.states ++ [st], table, shared⟩ q = a.deref q := by
  simp [Tpa.deref, List.getD_eq_getElem?_getD, List.getElem?_append_left hq]

theorem deref_append_self {st : TpaState} {table : Buckets (PrimNum × Ptr) Ptr} :
    Tpa.deref ⟨a.states ++ [st], table, shared⟩ a.states.length = st := by
  simp [Tpa.deref, List.getD_eq_getElem?_getD]

/-- Allocating the label of a suffix keeps the invariant. -/
theorem Tpa.Inv.allocate (hinv : a.Inv e t addr suffix) (origs : List PrimNum)
    (hshared : ∀ {h q}, q ∈ shared h → q ∈ a.tpaStateTable h ∨ q = a.states.length) :
    Tpa.Inv e t addr (Function.update suffix a.states.length origs)
      ⟨a.states ++ [labelHead e t origs], a.tpaTable, shared⟩ := by
  have hold : ∀ {q}, q < a.states.length →
      Function.update suffix a.states.length origs q = suffix q :=
    fun hq => Function.update_of_ne (ne_of_lt hq) _ _
  refine ⟨by simp, ?_, ?_, ?_, ?_⟩
  · rw [hold hinv.states_pos]
    exact hinv.termstate
  · intro q hq
    rcases Nat.lt_succ_iff_lt_or_eq.mp (by simpa using hq) with hlt | rfl
    · rw [deref_append_of_lt hlt, hold hlt]
      exact hinv.deref_eq hlt
    · rw [deref_append_self, Function.update_self]
  · intro p t2 q hlookup
    obtain ⟨ht2, hq, hsame⟩ := hinv.table hlookup
    refine ⟨lt_of_lt_of_le ht2 (by simp), lt_of_lt_of_le hq (by simp), ?_⟩
    rw [hold hq, hold ht2]
    exact hsame
  · intro h q hmem
    rcases hshared hmem with hmem | rfl
    · exact lt_of_lt_of_le (hinv.shared hmem) (by simp)
    · simp

/-- Looking up a label yields a state that represents its suffix. -/
theorem lookupTpaState_spec (hinv : a.Inv e t addr suffix) (origs : List PrimNum) :
    ∃ suffix',
      (lookupTpaState e a (labelHead e t origs)).2.Inv e t addr suffix' ∧
      Tpa.Extends a suffix (lookupTpaState e a (labelHead e t origs)).2 suffix' ∧
      Represents e t suffix' (lookupTpaState e a (labelHead e t origs)).2
        (lookupTpaState e a (labelHead e t origs)).1 origs := by
  have hext : ∀ table shared, Tpa.Extends a suffix
      ⟨a.states ++ [labelHead e t origs], table, shared⟩
      (Function.update suffix a.states.length origs) := by
    intro table shared
    exact ⟨by simp, fun q hq => Function.update_of_ne (ne_of_lt hq) _ _⟩
  have hrep : ∀ table shared, Represents e t (Function.update suffix a.states.length origs)
      ⟨a.states ++ [labelHead e t origs], table, shared⟩ a.states.length origs := by
    intro table shared
    refine ⟨by simp, ?_⟩
    rw [Function.update_self]
    exact SameLabel.refl e t origs
  unfold lookupTpaState
  simp only
  split
  · exact ⟨_, hinv.allocate origs fun h => Or.inl h, hext _ _, hrep _ _⟩
  · rename_i hnoequiv
    split
    · rename_i q hfind
      have hmem := List.mem_of_find?_eq_some hfind
      have hequiv : tpaStateEquivalent (labelHead e t origs) (a.deref q) = true := by
        simpa using List.find?_some hfind
      refine ⟨suffix, hinv, Tpa.Extends.refl a suffix, hinv.shared hmem, ?_⟩
      unfold SameLabel
      rw [if_neg hnoequiv, ← hinv.deref_eq (hinv.shared hmem)]
      simp only [tpaStateEquivalent, decide_eq_true_eq] at hequiv
      cases hderef : a.deref q
      cases hlabel : labelHead e t origs
      simp_all
    · refine ⟨_, hinv.allocate origs ?_, hext _ _, hrep _ _⟩
      intro h q hmem
      by_cases hh : h = hashTpaState (labelHead e t origs)
      · subst hh
        rw [Function.update_self] at hmem
        exact Or.inr (List.mem_singleton.mp hmem)
      · rw [Function.update_of_ne hh] at hmem
        exact Or.inl hmem

/-- Remembering a label under an instruction and the label behind it keeps the
invariant. -/
theorem Tpa.Inv.link (hinv : a.Inv e t addr suffix) (hok : t.Ok e) (hauto : noautomaton e t = false)
    {p : PrimNum} {rest : List PrimNum} {t2 q : Ptr} (ht2 : Represents e t suffix a t2 rest)
    (hq : Represents e t suffix a q (p :: rest)) :
    Tpa.Inv e t addr suffix
      { a with tpaTable := a.tpaTable.link (hashTpa addr) (p, t2) q } := by
  refine ⟨hinv.states_pos, hinv.termstate, hinv.deref_eq, ?_, hinv.shared⟩
  intro p' t2' q' hlookup
  by_cases hkey : (p', t2') = (p, t2)
  · cases hkey
    rw [Buckets.lookup_link_self] at hlookup
    cases hlookup
    exact ⟨ht2.1, hq.1, hq.2.trans (SameLabel.cons hok hauto p ht2.2.symm)⟩
  · rw [Buckets.lookup_link_ne _ _ _ hkey] at hlookup
    exact hinv.table hlookup

/-- One iteration of the labelling loop yields a state that represents the label
in front of the instruction. -/
theorem labelStep_spec (hok : t.Ok e) (hinv : a.Inv e t addr suffix) (p : PrimNum)
    {rest : List PrimNum} (hhead : Represents e t suffix a (ts.headD 0) rest)
    (hts : ts.map a.deref = labels e t rest) :
    ∃ suffix',
      (labelStep e t addr a p rest ts).2.Inv e t addr suffix' ∧
      Tpa.Extends a suffix (labelStep e t addr a p rest ts).2 suffix' ∧
      Represents e t suffix' (labelStep e t addr a p rest ts).2
        (labelStep e t addr a p rest ts).1 (p :: rest) := by
  unfold labelStep
  split
  · rename_i q hlookup
    unfold lookupTpa at hlookup
    split at hlookup
    · cases hlookup
    · rename_i hauto
      obtain ⟨-, hq, hsame⟩ := hinv.table hlookup
      refine ⟨suffix, hinv, Tpa.Extends.refl a suffix, hq, ?_⟩
      exact hsame.trans (SameLabel.cons hok (by simpa using hauto) p hhead.2)
  · rw [hts, ← labelHead_cons]
    obtain ⟨suffix', hinv', hext, hrep⟩ := lookupTpaState_spec hinv (p :: rest)
    simp only
    split
    · exact ⟨suffix', hinv', hext, hrep⟩
    · rename_i hauto
      exact ⟨suffix', hinv'.link hok (by simpa using hauto) (hhead.extends hext) hrep,
        ⟨hext.length_le, hext.suffix_eq⟩, hrep.1, hrep.2⟩

/-- The pointers of a labelled block represent the labels of its suffixes. -/
inductive RepresentsAll (e : Engine) (t : SuperTables) (suffix : Ptr → List PrimNum)
    (a : Tpa) : List Ptr → List PrimNum → Prop
  | nil {q : Ptr} : Represents e t suffix a q [] → RepresentsAll e t suffix a [q] []
  | cons {q : Ptr} {ts : List Ptr} {p : PrimNum} {rest : List PrimNum} :
      Represents e t suffix a q (p :: rest) → RepresentsAll e t suffix a ts rest →
      RepresentsAll e t suffix a (q :: ts) (p :: rest)

/-- The first pointer of a block -/
theorem RepresentsAll.head (h : RepresentsAll e t suffix a ts origs) :
    Represents e t suffix a (ts.headD 0) origs := by
  cases h with
  | nil hq => exact hq
  | cons hq _ => exact hq

/-- What the pointers of a block stand for does not change. -/
theorem RepresentsAll.extends {a a' : Tpa} {suffix suffix' : Ptr → List PrimNum}
    (hext : Tpa.Extends a suffix a' suffix') (h : RepresentsAll e t suffix a ts origs) :
    RepresentsAll e t suffix' a' ts origs := by
  induction h with
  | nil hq => exact RepresentsAll.nil (hq.extends hext)
  | cons hq _ ih => exact RepresentsAll.cons (hq.extends hext) ih

/-- The states of a block are its labels. -/
theorem RepresentsAll.map_deref (hinv : a.Inv e t addr suffix)
    (h : RepresentsAll e t suffix a ts origs) : ts.map a.deref = labels e t origs := by
  induction h with
  | nil hq =>
      rw [List.map_singleton, hq.deref_eq hinv]
      rfl
  | cons hq _ ih =>
      rw [List.map_cons, hq.deref_eq hinv, ih]
      rfl

/-- Labelling a block keeps the invariant, and its pointers represent the labels
of its suffixes. -/
theorem labelBlock_inv (hok : t.Ok e) (hinv : a.Inv e t addr suffix) (origs : List PrimNum) :
    ∃ suffix',
      (labelBlock e t addr origs a).2.Inv e t addr suffix' ∧
      RepresentsAll e t suffix' (labelBlock e t addr origs a).2
        (labelBlock e t addr origs a).1 origs := by
  induction origs with
  | nil =>
      refine ⟨suffix, hinv, RepresentsAll.nil ⟨hinv.states_pos, ?_⟩⟩
      rw [hinv.termstate]
      exact SameLabel.refl e t []
  | cons p rest ih =>
      obtain ⟨suffix₁, hinv₁, hrep₁⟩ := ih
      obtain ⟨suffix₂, hinv₂, hext, hrep⟩ :=
        labelStep_spec hok hinv₁ p hrep₁.head (hrep₁.map_deref hinv₁)
      exact ⟨suffix₂, hinv₂, RepresentsAll.cons hrep (hrep₁.extends hext)⟩

/-- The automaton has its final state at the start. -/
theorem Tpa.initial_inv (e : Engine) (t : SuperTables) (addr : Ptr → Nat) :
    (Tpa.initial e t).Inv e t addr fun _ => [] where
  states_pos := by simp [Tpa.initial]
  termstate := rfl
  deref_eq hq := by
    obtain rfl := Nat.lt_one_iff.mp hq
    rfl
  table h := by simp [Tpa.initial] at h
  shared h := by simp [Tpa.initial] at h

/-- Each reachable automaton holds the invariant. -/
theorem Tpa.Reachable.inv (hok : t.Ok e) (h : a.Reachable e t addr) :
    ∃ suffix, a.Inv e t addr suffix := by
  induction h with
  | initial => exact ⟨_, Tpa.initial_inv e t addr⟩
  | block origs _ ih =>
      obtain ⟨suffix, hinv⟩ := ih
      obtain ⟨suffix', hinv', -⟩ := labelBlock_inv hok hinv origs
      exact ⟨suffix', hinv'⟩

/-- Whatever blocks were labelled before, the states that a block gets are its
labels as computed without a cache. -/
theorem labelBlock_spec (hok : t.Ok e) (h : a.Reachable e t addr) (origs : List PrimNum) :
    (labelBlock e t addr origs a).1.map (labelBlock e t addr origs a).2.deref =
      labels e t origs := by
  obtain ⟨suffix, hinv⟩ := h.inv hok
  obtain ⟨suffix', hinv', hrep⟩ := labelBlock_inv hok hinv origs
  exact hrep.map_deref hinv'

end Selector
end Gforth
