import Gforth.Vmgen.Superinstructions

/-!
# The temporary variables of superinstructions

C does not define what comes out of a variable that has not been written.  So no part may read a
temporary variable before an earlier part has written it, and all temporary variables have to be
declared.

Main results:

- Theorem {lit}`exists_writer`: an item that is neither at its place from the start nor at its final
place is a result of an earlier part.
- Theorem {lit}`outputParts_temporaries`: temporary variables are declared, and written before they are
read.
-/

namespace Gforth
namespace Vmgen

/-- What a statement reads -/
def Stmt.source : Stmt → Option Place
  | .assign _ source => some source
  | .update _ _ => none
  | .code => none

/-- What a statement writes -/
def Stmt.target : Stmt → Option Place
  | .assign target _ => some target
  | .update _ _ => none
  | .code => none

namespace Combination

variable {c : Combination} {stateIn stateOut : State} {ipOffset : Int} {ps qs : List Prim} {p : Prim}
  {k : Nat}

/-! ## Writers -/

variable (k) in
/-- With more parts at the end the greatest depth is not less. -/
theorem backFrom_le_append (qs : List Prim) (ps ps' : List Prim)
    (h : ps ++ ps' ++ qs = c.combinedPrims) : c.backFrom qs k ≤ c.backFrom (ps' ++ qs) k := by
  induction ps' generalizing ps with
  | nil => simp
  | cons p ps' ih =>
      have hrest := ih (ps ++ [p]) (by simpa using h)
      rw [List.cons_append, c.backFrom_cons]
      exact hrest.trans (le_max_left _ _)

variable (c ps) in
/-- An item that is not at its place from the start is a result of an earlier part. -/
theorem exists_writer (hk : k ≠ instStream) (x : Int) (hcurrent : c.currentAfter ps k ≤ x)
    (hreached : x < c.reachedBy ps k) :
    ∃ ps' p' ps'', ps' ++ p' :: ps'' = ps ∧ c.currentAfter (ps' ++ [p']) k ≤ x ∧
      x < c.reach ps' p' k := by
  induction ps using List.reverseRecOn with
  | nil =>
      rw [c.currentAfter_nil hk] at hcurrent
      rw [reachedBy_nil] at hreached
      omega
  | append_singleton ps p ih =>
      by_cases hx : x < c.reach ps p k
      · exact ⟨ps, p, [], rfl, hcurrent, hx⟩
      · rw [c.reachedBy_concat] at hreached
        have hle : c.currentAfter ps k ≤ c.reach ps p k := by
          have := c.adjustment_nonneg k
          unfold reach
          omega
        rcases ih (by omega) (by omega) with ⟨ps', p', ps'', rfl, hwriter⟩
        exact ⟨ps', p', ps'' ++ [p], by simp, hwriter⟩

/-! ## Statements -/

variable {n : Int} {stmt : Stmt}

/-- An access to a stack is not to a temporary. -/
theorem temp_of_normalStackAccess {vm : Vm} {k k' : Nat} {st : State} {j : Int} :
    vm.normalStackAccess n k st ≠ .temp k' j := by
  unfold Vm.normalStackAccess
  split
  · simp
  · split <;> simp

/-- The fetches of a part read a temporary variable for an item that was not there at the start. -/
theorem partStackRead_temp (h : ps ++ p :: qs = c.combinedPrims) {j k : Nat} {i : Int}
    (hread : c.partStackRead stateIn ps.length (c.depthOut ps) n k = .temp j i) :
    k = j ∧ c.currentAfter ps k + n < c.reachedBy ps k ∧
      i = c.combined.stacksIn k - (c.currentAfter ps k + n) - 1 := by
  unfold partStackRead at hread
  split at hread
  · exact absurd hread temp_of_normalStackAccess
  · rename_i hnot
    rw [c.sCMaxDepth_eq _ _ h, not_or] at hnot
    unfold partStackAccess at hread
    rw [if_neg hnot.2, Place.temp.injEq, depthOut_of_ne hnot.2] at hread
    rw [depthOut_of_ne hnot.2] at hnot
    exact ⟨hread.1, by omega, hread.2.symm⟩

/-- The stores of a part write a temporary variable for an item that is not there in the end. -/
theorem partStackWrite_temp (h : ps ++ p :: qs = c.combinedPrims) {j k : Nat} {i : Int}
    (hk : k ≠ instStream)
    (hwrite : c.partStackWrite stateOut (ps.length + 1) (c.depthOut (ps ++ [p])) n k = .temp j i) :
    k = j ∧ c.currentAfter (ps ++ [p]) k + n < c.backFrom qs k ∧
      i = c.combined.stacksIn k - (c.currentAfter (ps ++ [p]) k + n) - 1 := by
  have hback := c.sCMaxBackDepth_eq (ps ++ [p]) qs (by simpa using h) k
  rw [List.length_append, List.length_singleton] at hback
  unfold partStackWrite at hwrite
  split at hwrite
  · exact absurd hwrite temp_of_normalStackAccess
  · rename_i hnot
    rw [hback, depthOut_of_ne hk] at hnot
    unfold partStackAccess at hwrite
    rw [if_neg hk, Place.temp.injEq, depthOut_of_ne hk] at hwrite
    exact ⟨hwrite.1, by omega, hwrite.2.symm⟩

variable (stateOut) in
/-- What a later part reaches is written to a temporary. -/
theorem partStackWrite_of_lt (h : ps ++ p :: qs = c.combinedPrims) (hk : k ≠ instStream) (n : Int)
    (hn : c.currentAfter (ps ++ [p]) k + n < c.backFrom qs k) :
    c.partStackWrite stateOut (ps.length + 1) (c.depthOut (ps ++ [p])) n k =
      .temp k (c.combined.stacksIn k - (c.currentAfter (ps ++ [p]) k + n) - 1) := by
  have hback := c.sCMaxBackDepth_eq (ps ++ [p]) qs (by simpa using h) k
  rw [List.length_append, List.length_singleton] at hback
  unfold partStackWrite partStackAccess
  rw [hback, depthOut_of_ne hk, if_neg (by omega), if_neg hk]

/-- The moves between registers and the updates of stack pointers need no temporary variables. -/
theorem stackPointerUpdate_registers (x : Context) (h : stmt ∈ x.stackPointerUpdate k) :
    (∀ j i, stmt.source ≠ some (.temp j i)) ∧ ∀ j i, stmt.target ≠ some (.temp j i) := by
  have hupdate : ∀ n, ∀ stmt ∈ x.updateStackPointer k n,
      (∀ j i, stmt.source ≠ some (.temp j i)) ∧ ∀ j i, stmt.target ≠ some (.temp j i) := by
    intro n stmt hstmt
    unfold Context.updateStackPointer at hstmt
    by_cases hk : k = instStream
    · simp only [if_pos hk] at hstmt
      split at hstmt
      · cases hstmt
      · rw [List.mem_singleton] at hstmt
        simp [hstmt, Stmt.source, Stmt.target]
    · simp only [if_neg hk] at hstmt
      split at hstmt
      · cases hstmt
      · rw [List.mem_singleton] at hstmt
        simp [hstmt, Stmt.source, Stmt.target]
  have hmove : ∀ source target, ∀ stmt ∈ regRegMove source target,
      (∀ j i, stmt.source ≠ some (.temp j i)) ∧ ∀ j i, stmt.target ≠ some (.temp j i) := by
    intro source target stmt hstmt
    unfold regRegMove at hstmt
    split at hstmt
    · split at hstmt
      · cases hstmt
      · rw [List.mem_singleton] at hstmt
        subst hstmt
        simp [Stmt.source, Stmt.target]
    · cases hstmt
  unfold Context.stackPointerUpdate at h
  split at h
  · exact hupdate _ stmt h
  · rcases List.mem_append.mp h with h | h
    · exact hupdate _ stmt h
    · unfold Context.stackMoves at h
      simp only at h
      split at h <;> rcases List.mem_flatMap.mp h with ⟨i, -, hi⟩ <;> exact hmove _ _ stmt hi

/-- The updates of the stack pointers neither read nor write temporaries. -/
theorem partStackPointerUpdates_registers (partNum : Nat)
    (h : stmt ∈ c.partStackPointerUpdates stateIn stateOut ipOffset partNum) :
    (∀ j i, stmt.source ≠ some (.temp j i)) ∧ ∀ j i, stmt.target ≠ some (.temp j i) := by
  rcases List.mem_flatMap.mp h with ⟨k, -, hk⟩
  split at hk
  · exact stackPointerUpdate_registers _ hk
  · cases hk

/-- The statements of a part -/
theorem mem_outputPart {d : Depths} (hd : d.current = c.depthOut ps) :
    stmt ∈ c.outputPart stateIn stateOut ipOffset ps.length d p ↔
      (∃ item ∈ p.effectIn, ∃ part < item.type.size, stmt =
        .assign (.var item.name part) (c.partStackRead stateIn ps.length (c.depthOut ps)
          ((c.partContext stateIn stateOut ipOffset p).itemInIndex item - part) item.stack)) ∨
      stmt ∈ c.partStackPointerUpdates stateIn stateOut ipOffset ps.length ∨ stmt = .code ∨
      ∃ item ∈ p.effectOut, ∃ part < item.type.size, stmt =
        .assign (c.partStackWrite stateOut (ps.length + 1) (c.depthOut (ps ++ [p]))
          ((c.partContext stateIn stateOut ipOffset p).itemOutIndex item - part) item.stack)
            (.var item.name part) := by
  unfold outputPart
  rw [addDepths_current hd, hd, Context.fetches_eq, stores_eq_part]
  simp only [stmtsOfMoves, Context.fetchMoves, Context.storeMoves, partContext, List.mem_append,
    List.mem_map, List.mem_flatMap, List.mem_range, List.mem_singleton, or_assoc]
  constructor
  · rintro (⟨move, ⟨item, hitem, part, hpart, rfl⟩, rfl⟩ | h | h |
      ⟨move, ⟨item, hitem, part, hpart, rfl⟩, rfl⟩)
    · exact Or.inl ⟨item, hitem, part, hpart, rfl⟩
    · exact Or.inr (Or.inl h)
    · exact Or.inr (Or.inr (Or.inl h))
    · exact Or.inr (Or.inr (Or.inr ⟨item, hitem, part, hpart, rfl⟩))
  · rintro (⟨item, hitem, part, hpart, rfl⟩ | h | h | ⟨item, hitem, part, hpart, rfl⟩)
    · exact Or.inl ⟨_, ⟨item, hitem, part, hpart, rfl⟩, rfl⟩
    · exact Or.inr (Or.inl h)
    · exact Or.inr (Or.inr (Or.inl h))
    · exact Or.inr (Or.inr (Or.inr ⟨_, ⟨item, hitem, part, hpart, rfl⟩, rfl⟩))

/-! ## Parts -/

/-- The temporary variables of a part are declared. -/
theorem declared_of_mem (h : ps ++ p :: qs = c.combinedPrims) (hwf : p.WellFormed c.vm) {d : Depths}
    (hd : d.current = c.depthOut ps)
    (hstmt : stmt ∈ c.outputPart stateIn stateOut ipOffset ps.length d p) (hk : k ≠ instStream)
    (htemp : stmt.source = some (.temp k n) ∨ stmt.target = some (.temp k n)) : c.declared k n := by
  have hsplit : (ps ++ [p]) ++ qs = c.combinedPrims := by simpa using h
  rcases (mem_outputPart hd).mp hstmt with ⟨item, hitem, part, hpart, rfl⟩ | h' | rfl |
    ⟨item, hitem, part, hpart, rfl⟩
  · -- a part reads a temporary variable
    simp only [Stmt.source, Stmt.target, Option.some.injEq, reduceCtorEq, or_false] at htemp
    rcases partStackRead_temp h htemp with ⟨rfl, hreached, rfl⟩
    have hlt := hwf.stackIn_lt _ (mem_computeOffsets hitem).1
    have hin := c.stacksIn_combined hlt
    have hle := c.reachedBy_le _ _ h item.stack
    have hoffset := p.offset_le hitem
    have hps : ps ≠ [] := by
      intro hnil
      subst hnil
      rw [reachedBy_nil, c.currentAfter_nil hk] at hreached
      simp only [Context.itemInIndex, if_neg hk, partContext] at hreached
      omega
    have hmin := c.minAfter_mono ps (p :: qs) item.stack
    rw [h] at hmin
    have hmin' := c.minAfter_le _ hps item.stack
    have hall : c.depths.min item.stack = (c.depthsAfter c.combinedPrims).min item.stack := rfl
    simp only [Context.itemInIndex, if_neg hk, partContext] at hreached ⊢
    unfold declared
    constructor <;> omega
  · have hnone := partStackPointerUpdates_registers ps.length h'
    rcases htemp with htemp | htemp
    · exact absurd htemp (hnone.1 k n)
    · exact absurd htemp (hnone.2 k n)
  · simp [Stmt.source, Stmt.target] at htemp
  · -- a part writes a temporary variable
    have hitemk := hwf.stack_ne _ (mem_computeOffsets hitem).1
    have hlt := hwf.stack_lt _ (mem_computeOffsets hitem).1
    simp only [Stmt.source, Stmt.target, Option.some.injEq, reduceCtorEq, false_or] at htemp
    rcases partStackWrite_temp h hitemk htemp with ⟨rfl, hback, rfl⟩
    have hin := c.stacksIn_combined hlt
    have hle := c.backFrom_le hsplit item.stack
    have hoffset := p.offset_le_out hitem
    have hmin := c.minAfter_mono (ps ++ [p]) qs item.stack
    rw [hsplit] at hmin
    have hmin' := c.minAfter_le (ps ++ [p]) (by simp) item.stack
    have hall : c.depths.min item.stack = (c.depthsAfter c.combinedPrims).min item.stack := rfl
    simp only [Context.itemOutIndex, partContext] at hback ⊢
    unfold declared
    constructor <;> omega

/-- A temporary variable that a part reads is written by an earlier part. -/
theorem exists_write (h : ps ++ p :: qs = c.combinedPrims) {d : Depths}
    (hd : d.current = c.depthOut ps)
    (hstmt : stmt ∈ c.outputPart stateIn stateOut ipOffset ps.length d p) (hk : k ≠ instStream)
    (htemp : stmt.source = some (.temp k n)) :
    ∃ ps' p' ps'', ps' ++ p' :: ps'' = ps ∧ ∀ d' : Depths, d'.current = c.depthOut ps' →
      ∃ stmt' ∈ c.outputPart stateIn stateOut ipOffset ps'.length d' p',
        stmt'.target = some (.temp k n) := by
  rcases (mem_outputPart hd).mp hstmt with ⟨item, hitem, part, hpart, rfl⟩ | h' | rfl |
    ⟨item, hitem, part, hpart, rfl⟩
  · simp only [Stmt.source, Option.some.injEq] at htemp
    rcases partStackRead_temp h htemp with ⟨rfl, hreached, rfl⟩
    have hoffset := p.offset_le hitem
    have hindex : (c.partContext stateIn stateOut ipOffset p).itemInIndex item - part =
        p.stacksIn item.stack - 1 - (item.offset + part) := by
      simp only [Context.itemInIndex, if_neg hk, partContext]
      ring
    rw [hindex] at hreached ⊢
    generalize hx : c.currentAfter ps item.stack +
      ((p.stacksIn item.stack : Int) - 1 - (item.offset + part)) = x at hreached ⊢
    have hbackP : x < c.backFrom (p :: qs) item.stack := by
      rw [c.backFrom_cons_eq h]
      unfold reach
      rw [c.adjustment_of_ne hk]
      omega
    rcases exists_writer c ps hk x (by omega) hreached with
      ⟨ps', p', ps'', hps, hcurrent, hreach⟩
    refine ⟨ps', p', ps'', hps, fun d' hd' => ?_⟩
    have hsplit : ps' ++ p' :: (ps'' ++ p :: qs) = c.combinedPrims := by
      rw [← h, ← hps]
      simp
    -- the item at this depth is a result of the earlier part
    have hcount : (x - c.currentAfter (ps' ++ [p']) item.stack).toNat <
        itemCount p'.declsOut item.stack := by
      rw [← p'.stacksOut_eq]
      rw [c.currentAfter_concat] at hcurrent ⊢
      omega
    rcases exists_item (fun _ => 0) hcount with ⟨item', hitem', part', hpart', hstack, hplace⟩
    rw [← hstack, ← p'.stacksOut_eq] at hplace hcount
    have hoffset' := p'.offset_le_out hitem'
    have hindex' : (c.partContext stateIn stateOut ipOffset p').itemOutIndex item' - part' =
        x - c.currentAfter (ps' ++ [p']) item.stack := by
      simp only [Context.itemOutIndex, partContext]
      rw [← hstack] at hcurrent ⊢
      omega
    have hback : x < c.backFrom (ps'' ++ p :: qs) item.stack := by
      have hle := c.backFrom_le_append item.stack (p :: qs) (ps' ++ [p']) ps'' (by simpa using hsplit)
      omega
    refine ⟨_, (mem_outputPart hd').mpr (Or.inr (Or.inr (Or.inr
      ⟨item', hitem', part', hpart', rfl⟩))), ?_⟩
    have hwrite := c.partStackWrite_of_lt stateOut hsplit hk
      (x - c.currentAfter (ps' ++ [p']) item.stack) (by omega)
    simp only [Stmt.target]
    rw [hindex', hstack, hwrite]
    congr 2
    ring
  · exact absurd htemp ((partStackPointerUpdates_registers ps.length h').1 k n)
  · cases htemp
  · cases htemp

/-! ## The whole superinstruction -/

/-- The depths in front of a part. -/
theorem foldl_addDepths_current (ps : List Prim) :
    (ps.foldl (Depths.addDepths c.includeSkippedInsts)
      { c.depths with current := fun _ => 0 }).current = c.depthOut ps := by
  induction ps using List.reverseRecOn with
  | nil => exact c.depthOut_nil
  | append_singleton ps p ih =>
      rw [List.foldl_append, List.foldl_cons, List.foldl_nil]
      exact addDepths_current ih

/-- The output of a part of a combination. -/
theorem getElem?_outputPartsFrom (partNum : Nat) (d : Depths) (ps : List Prim) (i : Nat) :
    (c.outputPartsFrom stateIn stateOut ipOffset partNum d ps)[i]? =
      ps[i]?.map (c.outputPart stateIn stateOut ipOffset (partNum + i)
        ((ps.take i).foldl (Depths.addDepths c.includeSkippedInsts) d)) := by
  induction ps generalizing partNum d i with
  | nil => simp [outputPartsFrom]
  | cons p ps ih =>
      cases i with
      | zero => simp [outputPartsFrom]
      | succ i =>
          simp only [outputPartsFrom, List.getElem?_cons_succ, List.take_succ_cons, List.foldl_cons]
          rw [ih, Nat.add_assoc, Nat.add_comm 1 i]

variable (stateIn stateOut ipOffset) in
/-- The statements of the parts, in terms of the parts in front of them -/
theorem getElem?_outputParts (h : ps ++ p :: qs = c.combinedPrims) :
    ∃ d : Depths, d.current = c.depthOut ps ∧
      (c.outputParts stateIn stateOut ipOffset)[ps.length]? =
        some (c.outputPart stateIn stateOut ipOffset ps.length d p) := by
  refine ⟨_, foldl_addDepths_current ps, ?_⟩
  unfold outputParts
  rw [getElem?_outputPartsFrom, ← h, List.getElem?_append_right (le_refl _), List.take_left]
  simp

variable (c k) in
/-- There is one update of a stack pointer, and the temporary variables of its stack are declared and
are written before they are read. -/
def WellOrdered (stateIn stateOut : State) (ipOffset : Int) : Prop :=
  (∃! partNum, partNum < c.combinedPrims.length ∧ c.updates partNum k = true) ∧
    ∀ (i : Nat) (l : List Stmt), (c.outputParts stateIn stateOut ipOffset)[i]? = some l →
      ∀ stmt ∈ l, ∀ n : Int,
      (stmt.source = some (.temp k n) ∨ stmt.target = some (.temp k n) → c.declared k n) ∧
      (stmt.source = some (.temp k n) →
        ∃ j < i, ∃ l', (c.outputParts stateIn stateOut ipOffset)[j]? = some l' ∧
          ∃ stmt' ∈ l', stmt'.target = some (.temp k n))

/-- The stack pointers and temporary variables of every superinstruction -/
theorem wellOrdered (hparts : c.combinedPrims ≠ []) (hwf : ∀ p ∈ c.combinedPrims, p.WellFormed c.vm)
    (stateIn stateOut : State) (ipOffset : Int) (hk : k ≠ instStream) :
    c.WellOrdered k stateIn stateOut ipOffset := by
  refine ⟨c.existsUnique_update hparts k, ?_⟩
  intro i l hl stmt hstmt n
  have hi : i < c.combinedPrims.length := by
    by_contra hge
    unfold outputParts at hl
    rw [getElem?_outputPartsFrom, List.getElem?_eq_none (by omega)] at hl
    cases hl
  have hexists : ∃ ps p qs, ps ++ p :: qs = c.combinedPrims ∧ ps.length = i := by
    refine ⟨c.combinedPrims.take i, c.combinedPrims[i], c.combinedPrims.drop (i + 1), ?_, ?_⟩
    · rw [← List.drop_eq_getElem_cons hi, List.take_append_drop]
    · rw [List.length_take]
      omega
  rcases hexists with ⟨ps, p, qs, h, rfl⟩
  have hp : p.WellFormed c.vm := hwf p (by simp [← h])
  rcases getElem?_outputParts stateIn stateOut ipOffset h with
    ⟨d, hd, hpart⟩
  rw [hl] at hpart
  rw [Option.some.inj hpart] at hstmt
  constructor
  · exact declared_of_mem h hp hd hstmt hk
  · intro hread
    rcases exists_write h hd hstmt hk hread with ⟨ps', p', ps'', hps, hwrite⟩
    have h' : ps' ++ p' :: (ps'' ++ p :: qs) = c.combinedPrims := by
      rw [← h, ← hps]
      simp
    rcases getElem?_outputParts stateIn stateOut ipOffset h'
      with ⟨d', hd', hpart'⟩
    refine ⟨ps'.length, ?_, _, hpart', hwrite d' hd'⟩
    rw [← hps]
    simp

/-- In every superinstruction, there is one update of every stack pointer, all temporary variables are
declared, and all of them are written before they are read. -/
theorem outputParts_temporaries (hparts : c.combinedPrims ≠ [])
    (hwf : ∀ p ∈ c.combinedPrims, p.WellFormed c.vm) (stateIn stateOut : State) (ipOffset : Int)
    (hk : k ≠ instStream) :
    (∃! partNum, partNum < c.combinedPrims.length ∧ c.updates partNum k = true) ∧
    ∀ (i : Nat) (l : List Stmt), (c.outputParts stateIn stateOut ipOffset)[i]? = some l →
      ∀ stmt ∈ l, ∀ n : Int,
      (stmt.source = some (.temp k n) ∨ stmt.target = some (.temp k n) → c.declared k n) ∧
      (stmt.source = some (.temp k n) →
        ∃ j < i, ∃ l', (c.outputParts stateIn stateOut ipOffset)[j]? = some l' ∧
          ∃ stmt' ∈ l', stmt'.target = some (.temp k n)) :=
  wellOrdered hparts hwf stateIn stateOut ipOffset hk

/-- The temporaries of two additions. -/
theorem outputParts_temporaries_plus_plus :
    let c := combination false (fun _ => "sp") [⟨plus, plusCode⟩, ⟨plus, plusCode⟩]
    ∃ l stmt, (c.outputParts (pairCache.state topState) (pairCache.state topState) 0)[0]? = some l ∧
      stmt ∈ l ∧ stmt.target = some (.temp 1 1) := by
  intro c
  have hwf : ∀ p ∈ c.combinedPrims, p.WellFormed c.vm := by
    intro p hp
    simp only [c, combination, List.map_cons, List.map_nil, List.mem_cons, List.not_mem_nil,
      or_false, or_self] at hp
    rw [hp]
    exact plus_wellFormed
  have htemps := outputParts_temporaries (c := c) (k := 1) (by simp [c, combination]) hwf
    (pairCache.state topState) (pairCache.state topState) 0 (by decide)
  have hread := (htemps.2 1 _ rfl (.assign (.var "n2" 0) (.temp 1 1)) (by decide) 1).2 rfl
  rcases hread with ⟨j, hj, l, hl, stmt, hstmt, htarget⟩
  have hzero : j = 0 := by omega
  subst hzero
  exact ⟨l, stmt, hl, hstmt, htarget⟩

end Combination

end Vmgen
end Gforth
