import Gforth.Selector.Soundness

/-!
# Sharing of automaton states

{lit}`lookup_tpa_state` is meant to share states: a state that was computed before should be
found again.  The search through a hash chain ends with a null pointer in {lit}`te`, and the
entry for a new state is linked in front of that, so it replaces the chain.

Main results:

- Theorem {lit}`lookupTpaState_miss`: a new state is alone in its chain.
- Theorem {lit}`shared_iff_noCollision`: states are shared exactly if no two different states
  have the same hash value.
-/

namespace Gforth
namespace Selector

open Lib

variable {e : Engine} {a : Tpa}

/-! ## Sequences of calls -/

/-- A sequence of calls of {lit}`lookup_tpa_state`: the states that are returned, and the
automaton afterwards. -/
def lookupTpaStates (e : Engine) : Tpa → List TpaState → List Ptr × Tpa
  | a, [] => ([], a)
  | a, st :: sts =>
      let found := lookupTpaState e a st
      let rest := lookupTpaStates e found.2 sts
      (found.1 :: rest.1, rest.2)

/-- No state that was entered in {lit}`tpa_state_table` by some calls is missing after more
calls. -/
def KeepsEntries (e : Engine) (a : Tpa) (sts : List TpaState) : Prop :=
  ∀ before after, before ++ after <+: sts → ∀ h, ∀ q ∈
    (lookupTpaStates e a before).2.tpaStateTable h,
      q ∈ (lookupTpaStates e a (before ++ after)).2.tpaStateTable h

/-- A call whose argument is equivalent to a state that an earlier call returned, returns this
state. -/
def FindsAgain (e : Engine) (a : Tpa) (sts : List TpaState) : Prop :=
  ∀ (i j : Nat) st p q, i < j → sts[j]? = some st → (lookupTpaStates e a sts).1[i]? = some p →
    (lookupTpaStates e a sts).1[j]? = some q →
      tpaStateEquivalent st ((lookupTpaStates e a sts).2.deref p) = true → q = p

/-- Different states that were returned are not equivalent. -/
def NoDuplicates (e : Engine) (a : Tpa) (sts : List TpaState) : Prop :=
  ∀ p ∈ (lookupTpaStates e a sts).1, ∀ q ∈ (lookupTpaStates e a sts).1,
    tpaStateEquivalent ((lookupTpaStates e a sts).2.deref p)
      ((lookupTpaStates e a sts).2.deref q) = true → p = q

/-- Sharing of states as it is meant to be -/
structure Shared (e : Engine) (a : Tpa) (sts : List TpaState) : Prop where
  findsAgain : FindsAgain e a sts
  noDuplicates : NoDuplicates e a sts
  keepsEntries : KeepsEntries e a sts

/-- States with the same hash value are equivalent. -/
def NoCollision (sts : List TpaState) : Prop :=
  ∀ x ∈ sts, ∀ y ∈ sts, hashTpaState x = hashTpaState y → tpaStateEquivalent x y = true

instance (sts : List TpaState) : Decidable (NoCollision sts) :=
  inferInstanceAs (Decidable (∀ x ∈ sts, ∀ y ∈ sts, _ → _))

theorem NoCollision.of_subset {sts sts' : List TpaState} (h : NoCollision sts)
    (hsub : sts' ⊆ sts) : NoCollision sts' :=
  fun x hx y hy => h x (hsub hx) y (hsub hy)

theorem tpaStateEquivalent_iff {x y : TpaState} : tpaStateEquivalent x y = true ↔ x = y := by
  rw [tpaStateEquivalent, decide_eq_true_eq, TpaState.mk.injEq]

/-- States are looked up one after the other. -/
theorem lookupTpaStates_append (before after : List TpaState) :
    lookupTpaStates e a (before ++ after) =
      ((lookupTpaStates e a before).1 ++
        (lookupTpaStates e (lookupTpaStates e a before).2 after).1,
        (lookupTpaStates e (lookupTpaStates e a before).2 after).2) := by
  induction before generalizing a with
  | nil => rfl
  | cons st before ih => simp [lookupTpaStates, ih]

/-- The last state is looked up last. -/
theorem lookupTpaStates_snoc (sts : List TpaState) (st : TpaState) :
    lookupTpaStates e a (sts ++ [st]) =
      ((lookupTpaStates e a sts).1 ++ [(lookupTpaState e (lookupTpaStates e a sts).2 st).1],
        (lookupTpaState e (lookupTpaStates e a sts).2 st).2) := by
  rw [lookupTpaStates_append]
  rfl

@[simp]
theorem length_lookupTpaStates (sts : List TpaState) :
    (lookupTpaStates e a sts).1.length = sts.length := by
  induction sts generalizing a with
  | nil => rfl
  | cons st sts ih => simp [lookupTpaStates, ih]

/-! ## One call -/

/-- A state that is in the chain is returned, and nothing changes. -/
theorem lookupTpaState_hit (hequiv : e.tpaNoequiv = false) {st : TpaState} {q : Ptr}
    (hchain : a.tpaStateTable (hashTpaState st) = [q]) (hq : a.deref q = st) :
    lookupTpaState e a st = (q, a) := by
  have hfound : tpaStateEquivalent st (a.deref q) = true := tpaStateEquivalent_iff.mpr hq.symm
  simp [lookupTpaState, hequiv, hchain, hfound]

/-- A state that is not in the chain is entered, and the chain is lost. -/
theorem lookupTpaState_miss (hequiv : e.tpaNoequiv = false) {st : TpaState}
    (hchain : ∀ q ∈ a.tpaStateTable (hashTpaState st), a.deref q ≠ st) :
    lookupTpaState e a st = (a.states.length,
      { a with
        states := a.states ++ [st]
        tpaStateTable :=
          Function.update a.tpaStateTable (hashTpaState st) [a.states.length] }) := by
  have hnone : (a.tpaStateTable (hashTpaState st)).find?
      (fun q => tpaStateEquivalent st (a.deref q)) = none := by
    rw [List.find?_eq_none]
    intro q hq hfound
    exact hchain q hq (tpaStateEquivalent_iff.mp hfound).symm
  simp [lookupTpaState, hequiv, hnone]

/-! ## The table without collisions -/

/-- The calls so far, with their results: each state is alone in its chain, and the other chains
are empty. -/
structure Sharing (a : Tpa) (calls : List (TpaState × Ptr)) : Prop where
  lt : ∀ c ∈ calls, c.2 < a.states.length
  deref : ∀ c ∈ calls, a.deref c.2 = c.1
  chain : ∀ c ∈ calls, a.tpaStateTable (hashTpaState c.1) = [c.2]
  unused : ∀ h, (∀ c ∈ calls, hashTpaState c.1 ≠ h) → a.tpaStateTable h = []

/-- Nothing is shared at the start. -/
theorem Sharing.initial (e : Engine) (t : SuperTables) : Sharing (Tpa.initial e t) [] where
  lt := by simp
  deref := by simp
  chain := by simp
  unused h _ := rfl

variable {calls : List (TpaState × Ptr)} {sts : List TpaState}

/-- A state that was looked up before is found again. -/
theorem Sharing.hit {c : TpaState × Ptr} (h : Sharing a calls) (hc : c ∈ calls) :
    Sharing a (calls ++ [c]) := by
  have hmem : ∀ x ∈ calls ++ [c], x ∈ calls := by
    intro x hx
    rcases List.mem_append.mp hx with hx | hx
    · exact hx
    · exact List.mem_singleton.mp hx ▸ hc
  exact ⟨fun x hx => h.lt x (hmem x hx), fun x hx => h.deref x (hmem x hx),
    fun x hx => h.chain x (hmem x hx),
    fun h' hne => h.unused h' fun x hx => hne x (List.mem_append_left _ hx)⟩

/-- A state with a new hash value gets a chain of its own. -/
theorem Sharing.miss {st : TpaState} (h : Sharing a calls)
    (hnew : ∀ c ∈ calls, hashTpaState c.1 ≠ hashTpaState st) :
    Sharing
      { a with
        states := a.states ++ [st]
        tpaStateTable := Function.update a.tpaStateTable (hashTpaState st) [a.states.length] }
      (calls ++ [(st, a.states.length)]) where
  lt := by
    intro c hc
    rcases List.mem_append.mp hc with hc | hc
    · simpa using lt_trans (h.lt c hc) (Nat.lt_succ_self _)
    · simp [List.mem_singleton.mp hc]
  deref := by
    intro c hc
    rcases List.mem_append.mp hc with hc | hc
    · rw [deref_append_of_lt (h.lt c hc)]
      exact h.deref c hc
    · rw [List.mem_singleton.mp hc, deref_append_self]
  chain := by
    intro c hc
    rcases List.mem_append.mp hc with hc | hc
    · simp only [Function.update_of_ne (hnew c hc)]
      exact h.chain c hc
    · simp [List.mem_singleton.mp hc]
  unused := by
    intro h' hne
    have hlast : h' ≠ hashTpaState st := fun heq => hne (st, a.states.length) (by simp) heq.symm
    simp only [Function.update_of_ne hlast]
    exact h.unused h' fun c hc => hne c (List.mem_append_left _ hc)

/-- The calls of a sequence, with their results -/
def callsOf (e : Engine) (a : Tpa) (sts : List TpaState) : List (TpaState × Ptr) :=
  sts.zip (lookupTpaStates e a sts).1

/-- The last call -/
theorem callsOf_snoc (sts : List TpaState) (st : TpaState) :
    callsOf e a (sts ++ [st]) =
      callsOf e a sts ++ [(st, (lookupTpaState e (lookupTpaStates e a sts).2 st).1)] := by
  rw [callsOf, lookupTpaStates_snoc, List.zip_append (by simp)]
  rfl

/-- Each state has its call. -/
theorem exists_call {x : TpaState} (hx : x ∈ sts) : ∃ p, (x, p) ∈ callsOf e a sts := by
  obtain ⟨i, hi, rfl⟩ := List.getElem_of_mem hx
  have hlen : i < (lookupTpaStates e a sts).1.length := by simpa using hi
  refine ⟨(lookupTpaStates e a sts).1[i], List.mem_iff_getElem.mpr ⟨i, ?_, ?_⟩⟩
  · simpa [callsOf] using hi
  · simp [callsOf]

theorem fst_mem_of_call {c : TpaState × Ptr} (hc : c ∈ callsOf e a sts) : c.1 ∈ sts :=
  (List.of_mem_zip hc).1

/-- One more call without a collision -/
theorem Sharing.step (hequiv : e.tpaNoequiv = false) {st : TpaState}
    (h : Sharing (lookupTpaStates e a sts).2 (callsOf e a sts))
    (hnew : ∀ x ∈ sts, hashTpaState x = hashTpaState st → x = st) :
    Sharing (lookupTpaStates e a (sts ++ [st])).2 (callsOf e a (sts ++ [st])) := by
  rw [callsOf_snoc, lookupTpaStates_snoc]
  by_cases hmem : st ∈ sts
  · obtain ⟨p, hp⟩ := exists_call (e := e) (a := a) hmem
    rw [lookupTpaState_hit hequiv (h.chain _ hp) (h.deref _ hp)]
    exact h.hit hp
  · have hne : ∀ c ∈ callsOf e a sts, hashTpaState c.1 ≠ hashTpaState st := by
      intro c hc hhash
      exact hmem (hnew c.1 (fst_mem_of_call hc) hhash ▸ fst_mem_of_call hc)
    have hchain := h.unused _ hne
    rw [lookupTpaState_miss hequiv (by simp [hchain])]
    exact h.miss hne

/-- The invariant of sequences without collisions -/
theorem sharing_of_noCollision (hequiv : e.tpaNoequiv = false) (t : SuperTables)
    (sts : List TpaState) (h : NoCollision sts) :
    Sharing (lookupTpaStates e (Tpa.initial e t) sts).2 (callsOf e (Tpa.initial e t) sts) := by
  induction sts using List.reverseRecOn with
  | nil => exact Sharing.initial e t
  | append_singleton sts st ih =>
      have hbefore : NoCollision sts := h.of_subset (List.subset_append_left _ _)
      exact (ih hbefore).step hequiv fun x hx hhash => tpaStateEquivalent_iff.mp
        (h x (List.mem_append_left _ hx) st (by simp) hhash)

/-! ## Sharing -/

/-- Equal states are shared. -/
theorem Sharing.eq_of_deref_eq (h : Sharing a calls) {c c' : TpaState × Ptr} (hc : c ∈ calls)
    (hc' : c' ∈ calls) (heq : a.deref c.2 = a.deref c'.2) : c.2 = c'.2 := by
  have hstate : c.1 = c'.1 := by rw [← h.deref c hc, ← h.deref c' hc', heq]
  have hchain := h.chain c hc
  rw [hstate, h.chain c' hc'] at hchain
  exact (List.singleton_inj.mp hchain).symm

/-- The pointer of each state -/
theorem call_of_getElem? {i : Nat} {p : Ptr} (hp : (lookupTpaStates e a sts).1[i]? = some p) :
    ∃ st, sts[i]? = some st ∧ (st, p) ∈ callsOf e a sts := by
  obtain ⟨hi, rfl⟩ := List.getElem?_eq_some_iff.mp hp
  have hlt : i < sts.length := by simpa using hi
  refine ⟨sts[i], by simp [hlt], List.mem_iff_getElem.mpr ⟨i, ?_, ?_⟩⟩
  · simpa [callsOf] using hlt
  · simp [callsOf]

/-- Chains only grow while there are no collisions. -/
theorem keepsEntries_of_noCollision (hequiv : e.tpaNoequiv = false) (t : SuperTables)
    (h : NoCollision sts) : KeepsEntries e (Tpa.initial e t) sts := by
  intro before after hpre h' q hq
  have hshare := sharing_of_noCollision hequiv t before
    (h.of_subset fun x hx => hpre.subset (List.mem_append_left _ hx))
  have hall := sharing_of_noCollision hequiv t _ (h.of_subset hpre.subset)
  by_cases hused : ∃ c ∈ callsOf e (Tpa.initial e t) before, hashTpaState c.1 = h'
  · obtain ⟨c, hc, rfl⟩ := hused
    rw [hshare.chain c hc] at hq
    have hc' : c ∈ callsOf e (Tpa.initial e t) (before ++ after) := by
      rw [callsOf, lookupTpaStates_append, List.zip_append (by simp)]
      exact List.mem_append_left _ hc
    rw [hall.chain c hc']
    exact hq
  · rw [hshare.unused h' fun c hc heq => hused ⟨c, hc, heq⟩] at hq
    simp at hq

/-- Without collisions states are shared. -/
theorem shared_of_noCollision (hequiv : e.tpaNoequiv = false) (t : SuperTables)
    (h : NoCollision sts) : Shared e (Tpa.initial e t) sts where
  findsAgain := by
    intro i j st p q _ hst hp hq hfound
    have hshare := sharing_of_noCollision hequiv t sts h
    obtain ⟨x, -, hx⟩ := call_of_getElem? hp
    obtain ⟨y, hy, hcall⟩ := call_of_getElem? hq
    have hyst : y = st := Option.some.inj (hy.symm.trans hst)
    have hderef := hshare.deref _ hcall
    rw [hyst, tpaStateEquivalent_iff.mp hfound] at hderef
    exact hshare.eq_of_deref_eq hcall hx hderef
  noDuplicates := by
    intro p hp q hq heq
    have hshare := sharing_of_noCollision hequiv t sts h
    obtain ⟨i, hi⟩ := List.getElem?_of_mem hp
    obtain ⟨j, hj⟩ := List.getElem?_of_mem hq
    obtain ⟨x, -, hx⟩ := call_of_getElem? hi
    obtain ⟨y, -, hy⟩ := call_of_getElem? hj
    exact hshare.eq_of_deref_eq hx hy (tpaStateEquivalent_iff.mp heq)
  keepsEntries := keepsEntries_of_noCollision hequiv t h

/-- A collision loses the entries of the chain. -/
theorem noCollision_of_keepsEntries (hequiv : e.tpaNoequiv = false) (t : SuperTables)
    (sts : List TpaState) (h : KeepsEntries e (Tpa.initial e t) sts) : NoCollision sts := by
  induction sts using List.reverseRecOn with
  | nil => simp [NoCollision]
  | append_singleton sts st ih =>
      have hbefore := ih fun before after hpre =>
        h before after (hpre.trans (List.prefix_append _ _))
      have hshare := sharing_of_noCollision hequiv t sts hbefore
      have hnew : ∀ x ∈ sts, hashTpaState x = hashTpaState st → x = st := by
        intro x hx hhash
        by_contra hne
        obtain ⟨p, hp⟩ := exists_call (e := e) (a := Tpa.initial e t) hx
        have hchain := hshare.chain _ hp
        have hmiss := @lookupTpaState_miss e (lookupTpaStates e (Tpa.initial e t) sts).2 hequiv st
          (by
            rw [← hhash, hchain]
            simpa [hshare.deref _ hp] using hne)
        -- the old entry would have to be the new one
        have hkept := h sts [st] (List.prefix_refl _) (hashTpaState x) p (by simp [hchain])
        rw [lookupTpaStates_snoc, hmiss, hhash] at hkept
        simp only [Function.update_self, List.mem_singleton] at hkept
        exact absurd (hshare.lt _ hp) (by simp [hkept])
      intro x hx y hy hhash
      rw [tpaStateEquivalent_iff]
      rcases List.mem_append.mp hx with hx | hx <;> rcases List.mem_append.mp hy with hy | hy
      · exact tpaStateEquivalent_iff.mp (hbefore x hx y hy hhash)
      · rw [List.mem_singleton.mp hy] at hhash ⊢
        exact hnew x hx hhash
      · rw [List.mem_singleton.mp hx] at hhash ⊢
        exact (hnew y hy hhash.symm).symm
      · rw [List.mem_singleton.mp hx, List.mem_singleton.mp hy]

/-- The states that are looked up are shared if and only if no two different ones have the same
hash value. -/
theorem shared_iff_noCollision (hequiv : e.tpaNoequiv = false) (t : SuperTables)
    (sts : List TpaState) : Shared e (Tpa.initial e t) sts ↔ NoCollision sts :=
  ⟨fun h => noCollision_of_keepsEntries hequiv t sts h.keepsEntries,
    shared_of_noCollision hequiv t⟩

/-- The label in front of two primitives of the small engine is found again. -/
theorem shared_iff_noCollision_small :
    Shared smallEngine (Tpa.initial smallEngine smallTables)
      [labelHead smallEngine smallTables [1], labelHead smallEngine smallTables [1, 2],
        labelHead smallEngine smallTables [1]] :=
  (shared_iff_noCollision rfl smallTables _).mpr (by decide)

/-- An engine without stack caching, where primitive 1 is relocatable and primitive 2 is not -/
def plainEngine : Engine where
  superCosts := [⟨0, 0, 0, 0, 0, 1, false⟩, ⟨0, 0, 0, 0, 1, 1, false⟩, ⟨0, 0, 0, 0, 2, 1, false⟩]
  super2 := [0, 1, 2]
  priminfos :=
    [⟨some 0, 0, 4, 4, false, 0, 0⟩, ⟨some 16, 0, 4, 4, false, 0, 0⟩, ⟨none, 0, 4, 4, false, 0, 0⟩]
  noDynamic := false
  maxstates := 1
  maxstates_pos := by decide
  staticSuperNumber := 10000
  tpaNoequiv := false
  tpaNoautomaton := false
  ssCost := fun _ => 4
  nNoop := 0

/-- The tables of the engine without stack caching -/
def plainTables : SuperTables :=
  (prepareSuperTable plainEngine).get (by decide)

/-- The labels in front of primitive 1 and in front of primitive 2 have the same hash value, so
that the label in front of primitive 1 is made again. -/
theorem lookupTpaStates_collision :
    (lookupTpaStates plainEngine (Tpa.initial plainEngine plainTables)
        [labelHead plainEngine plainTables [1], labelHead plainEngine plainTables [2],
          labelHead plainEngine plainTables [1, 1]]).1 = [1, 2, 3] ∧
      ¬Shared plainEngine (Tpa.initial plainEngine plainTables)
        [labelHead plainEngine plainTables [1], labelHead plainEngine plainTables [2],
          labelHead plainEngine plainTables [1, 1]] := by
  refine ⟨by decide, fun h => ?_⟩
  have hcollision : ¬NoCollision [labelHead plainEngine plainTables [1],
      labelHead plainEngine plainTables [2], labelHead plainEngine plainTables [1, 1]] := by
    decide
  exact hcollision (noCollision_of_keepsEntries rfl _ _ h.keepsEntries)

end Selector
end Gforth
