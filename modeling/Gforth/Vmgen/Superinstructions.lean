import Gforth.Vmgen.Caching
import Gforth.Vmgen.Depths

/-!
# Static superinstructions are correct

A superinstruction does what its parts do one after the other.  Between two parts, every item is in
one of four places: deep items are where the cache state has them, items that no part has reached are
still on the stack, items that no later part reaches are already on the stack, and all others are in
temporary variables.

Main results:

- Theorem {lit}`between_step`: every part keeps the items in their places.
- Theorem {lit}`runCombined_correct`: the superinstruction does what its parts do.
-/

namespace Gforth
namespace Vmgen

open Lib SimpleCache

variable {V W : Type*}

/-! ## Parts -/

/-- A primitive, with its C code, which runs to its end -/
structure Part (vm : Vm) (V W : Type*) where
  prim : Prim
  code : Code vm prim V W

/-- Step over an instruction that is a part. -/
def skipInst (includeSkippedInsts : Bool) (s : Scene V W) : Scene V W :=
  if includeSkippedInsts then { s with operands := fun n => s.operands (n + 1) } else s

/-- What the primitives do, one after the other -/
def effects {vm : Vm} (includeSkippedInsts : Bool) (parts : List (Part vm V W)) (s : Scene V W) :
    Scene V W :=
  parts.foldl (fun s part => skipInst includeSkippedInsts (part.prim.effect part.code.act s)) s

/-- A part that does not end a basic block -/
structure Part.Continues {vm : Vm} (part : Part vm V W) : Prop where
  act_operands : ∀ s, (part.code.act s).operands = s.operands
  program_ip : ∀ m, (part.code.program m).pointer instStream = m.pointer instStream
  program_inst : ∀ m a, (part.code.program m).cells (.cell instStream a) = m.cells (.cell instStream a)

/-- The superinstruction for some parts -/
def combination {vm : Vm} (includeSkippedInsts : Bool) (stackPointer : Nat → String)
    (parts : List (Part vm V W)) : Combination where
  vm := vm
  includeSkippedInsts := includeSkippedInsts
  stackPointer := stackPointer
  combinedPrims := parts.map Part.prim

/-- The statements of every part, with its C code -/
def runParts {vm : Vm} (parts : List (Part vm V W)) (l : List (List Stmt)) (m : Machine V W) :
    Machine V W :=
  (parts.zip l).foldl (fun m x => run x.1.code.program m x.2) m

/-- The code of a superinstruction behind the first label -/
def runCombined {vm : Vm} (c : Combination) (stateIn stateOut : State) (ipOffset : Int)
    (parts : List (Part vm V W)) (m : Machine V W) : Machine V W :=
  run id (runParts parts (c.outputParts stateIn stateOut ipOffset)
    (run id m (c.outputHead stateIn stateOut ipOffset))) (c.outputTail stateIn stateOut ipOffset)

/-! ## The stack effect of a superinstruction -/

/-- What is declared on other stacks does not count. -/
theorem itemCount_eq_zero {ds : List Decl} {k : Nat} (h : ∀ d ∈ ds, d.stack ≠ k) :
    itemCount ds k = 0 := by
  induction ds with
  | nil => rfl
  | cons d ds ih =>
      rw [itemCount_cons_of_ne (h d List.mem_cons_self)]
      exact ih fun d' hd' => h d' (List.mem_cons_of_mem d hd')

/-- The items of two effects are counted together. -/
theorem itemCount_append (ds ds' : List Decl) (k : Nat) :
    itemCount (ds ++ ds') k = itemCount ds k + itemCount ds' k := by
  induction ds with
  | nil => simp
  | cons d ds ih =>
      rw [List.cons_append]
      simp only [itemCount, ih]
      omega

namespace Combination

variable (c : Combination)

/-- The effect of a combination on one stack. -/
theorem itemCount_makeEffectItems (k k' : Nat) (items : Int) :
    itemCount (c.makeEffectItems k items) k' = if k = k' then items.toNat else 0 := by
  unfold makeEffectItems
  induction items.toNat with
  | zero => simp
  | succ n ih =>
      rw [List.range_succ, List.map_append, itemCount_append, ih]
      by_cases hk : k = k'
      · simp [itemCount, ItemType.size, hk]
      · simp [itemCount, hk]

/-- The effect of a combination on all stacks. -/
theorem itemCount_combined (g : Nat → Int) (n k : Nat) :
    itemCount ((List.range n).flatMap fun k => c.makeEffectItems k (g k)) k =
      if k < n then (g k).toNat else 0 := by
  induction n with
  | zero => simp
  | succ n ih =>
      rw [List.range_succ, List.flatMap_append, itemCount_append, ih, List.flatMap_singleton,
        c.itemCount_makeEffectItems]
      rcases Nat.lt_trichotomy k n with hlt | heq | hgt
      · rw [if_pos hlt, if_neg (by omega), if_pos (by omega), Nat.add_zero]
      · rw [if_neg (by omega), if_pos heq.symm, if_pos (by omega), Nat.zero_add, heq]
      · rw [if_neg (by omega), if_neg (by omega), if_neg (by omega)]

/-- A combination takes as many items as its parts reach. -/
theorem stacksIn_combined {k : Nat} (hlt : k < c.vm.nextStackNumber) :
    (c.combined.stacksIn k : Int) = c.depths.max k := by
  have hnonneg : 0 ≤ c.depths.max k := c.reachedBy_nonneg c.combinedPrims k
  have hcount := c.itemCount_combined (fun k => c.depths.max k) c.vm.nextStackNumber k
  rw [if_pos hlt] at hcount
  rw [c.combined.stacksIn_eq]
  unfold combined
  rw [hcount]
  omega

/-- A combination leaves what its parts leave. -/
theorem stacksOut_combined {k : Nat} (hlt : k < c.vm.nextStackNumber) :
    (c.combined.stacksOut k : Int) = c.depths.max k - c.depths.current k := by
  have hle : c.depths.current k ≤ c.depths.max k := c.currentAfter_le c.combinedPrims k
  have hcount := c.itemCount_combined (fun k => c.depths.max k - c.depths.current k)
    c.vm.nextStackNumber k
  rw [if_pos hlt] at hcount
  rw [c.combined.stacksOut_eq]
  unfold combined
  rw [hcount]
  omega

/-! ## Places between parts -/

variable (cache : SimpleCache) (qIn qOut : CacheState)

/-- Where the result at some depth is -/
def resultAt (k : Nat) (back : Int) (pointer x : Int) : Loc :=
  if back ≤ x then
    cache.deepLoc c.vm qOut k 0 (qOut.items k) pointer
      (x - (c.combined.stacksIn k - c.combined.stacksOut k)).toNat
  else .temp k (c.combined.stacksIn k - x - 1)

/-- Where the item at some depth is -/
def heldAt (k : Nat) (reached back : Int) (updated : Bool) (pointer x : Int) : Loc :=
  if c.combined.stacksIn k ≤ x then
    if updated then
      cache.deepLoc c.vm qOut k (c.combined.stacksOut k) (kept c.combined qIn qOut k) pointer
        (x - c.combined.stacksIn k).toNat
    else
      cache.deepLoc c.vm qIn k (c.combined.stacksIn k) (kept c.combined qIn qOut k) pointer
        (x - c.combined.stacksIn k).toNat
  else if reached ≤ x then cache.deepLoc c.vm qIn k 0 (qIn.items k) pointer x.toNat
  else c.resultAt cache qOut k back pointer x

/-- The state between two parts -/
structure Between (ps qs : List Prim) (s : Scene V W) (m : Machine V W) : Prop where
  vars : m.vars = s.vars
  world : m.world = s.world
  stack : ∀ k, k ≠ instStream → k < c.vm.nextStackNumber → ∀ n : Nat,
    m.cells (c.heldAt cache qIn qOut k (c.reachedBy ps k) (c.backFrom qs k) (c.updated ps k)
      (m.pointer k) (c.currentAfter ps k + n)) = s.stack k n

/-- The current depth when the code of the parts is written -/
def depthOut (ps : List Prim) (k : Nat) : Int :=
  c.currentAfter ps k + instStreamAdjustment c.includeSkippedInsts k

/-- The operands of the remaining parts -/
def OperandsAt (ipOffset : Int) (ps : List Prim) (s : Scene V W) (m : Machine V W) : Prop :=
  ∀ n : Nat, s.operands n = m.cells (.cell instStream
    (m.pointer instStream + ipOffset - c.combined.stacksIn instStream + c.depthOut ps instStream + n))

variable {c cache qIn qOut} {ps qs : List Prim} {p : Prim} {k : Nat}

theorem depthOut_of_ne (hk : k ≠ instStream) : c.depthOut ps k = c.currentAfter ps k := by
  unfold depthOut
  rw [c.adjustment_of_ne hk, add_zero]

/-- The depth behind one more part. -/
theorem depthOut_concat : c.depthOut (ps ++ [p]) k =
    c.depthOut ps k + p.stacksIn k + instStreamAdjustment c.includeSkippedInsts k -
      p.stacksOut k := by
  unfold depthOut
  rw [c.currentAfter_concat]
  unfold reach
  ring

/-- Different items of the results have different places. -/
theorem resultAt_injective (back pointer : Nat → Int) {k' : Nat} {x x' : Int}
    (hback : ∀ k, c.depths.current k ≤ back k) (hlt : k < c.vm.nextStackNumber)
    (hlt' : k' < c.vm.nextStackNumber)
    (h : c.resultAt cache qOut k (back k) (pointer k) x =
      c.resultAt cache qOut k' (back k') (pointer k') x') : k = k' ∧ x = x' := by
  have hin := c.stacksIn_combined hlt
  have hout := c.stacksOut_combined hlt
  have hdepth := hback k
  unfold resultAt at h
  by_cases hx : back k ≤ x <;> by_cases hx' : back k' ≤ x'
  · rw [if_pos hx, if_pos hx'] at h
    have hsame : k = k' := deepLoc_unique h
    subst hsame
    have hindex := deepLoc_injective (Or.inl (by omega)) _ h
    exact ⟨rfl, by omega⟩
  · rw [if_pos hx, if_neg hx'] at h
    exact absurd h (deepLoc_ne_temp _ _ _ _ _)
  · rw [if_neg hx, if_pos hx'] at h
    exact absurd h.symm (deepLoc_ne_temp _ _ _ _ _)
  · rw [if_neg hx, if_neg hx'] at h
    have hsame := (Loc.temp.inj h).1
    subst hsame
    have hindex := (Loc.temp.inj h).2
    exact ⟨rfl, by omega⟩

/-- Results are on stacks. -/
theorem resultAt_eq_cell {back pointer x : Int} {k' : Nat} {a : Int}
    (h : c.resultAt cache qOut k back pointer x = .cell k' a) : k = k' := by
  unfold resultAt at h
  split at h
  · have howns := owns_deepLoc cache c.vm k qOut 0 (qOut.items k) pointer
      (x - (c.combined.stacksIn k - c.combined.stacksOut k)).toNat
    rw [h] at howns
    exact howns.symm
  · cases h

variable {updated : Bool} {ipOffset : Int} {s : Scene V W} {m : Machine V W} {d : Depths}

/-- A part moves the borders of the places, but no item that it does not use. -/
theorem heldAt_concat (h : ps ++ p :: qs = c.combinedPrims) {pointer x : Int}
    (hx : c.reach ps p k ≤ x) :
    c.heldAt cache qIn qOut k (c.reachedBy (ps ++ [p]) k) (c.backFrom qs k) updated pointer x =
      c.heldAt cache qIn qOut k (c.reachedBy ps k) (c.backFrom (p :: qs) k) updated pointer x := by
  have hreached : c.reachedBy (ps ++ [p]) k ≤ x ↔ c.reachedBy ps k ≤ x := by
    rw [c.reachedBy_concat]
    omega
  have hback : c.backFrom (p :: qs) k ≤ x ↔ c.backFrom qs k ≤ x := by
    rw [c.backFrom_cons_eq h]
    omega
  unfold heldAt resultAt
  simp only [hreached, hback]

/-- What holds for the items of a stack depends on this stack and its temporary variables only. -/
theorem heldAt_congr {reached back : Int} {m m' : Machine V W} (hagree : cache.Agree k m m')
    (htemp : ∀ n, m'.cells (.temp k n) = m.cells (.temp k n)) (x : Int) :
    m'.cells (c.heldAt cache qIn qOut k reached back updated (m'.pointer k) x) =
      m.cells (c.heldAt cache qIn qOut k reached back updated (m.pointer k) x) := by
  rw [← hagree.pointer]
  unfold heldAt resultAt
  split
  · split
    · exact (hagree.cells _ (owns_deepLoc _ _ _ _ _ _ _ _)).symm
    · exact (hagree.cells _ (owns_deepLoc _ _ _ _ _ _ _ _)).symm
  · split
    · exact (hagree.cells _ (owns_deepLoc _ _ _ _ _ _ _ _)).symm
    · split
      · exact (hagree.cells _ (owns_deepLoc _ _ _ _ _ _ _ _)).symm
      · exact htemp _

/-- The place of an item is not a variable. -/
theorem heldAt_ne_var {reached back : Int} {pointer x : Int} (name : String) (part : Nat) :
    c.heldAt cache qIn qOut k reached back updated pointer x ≠ .var name part := by
  unfold heldAt resultAt
  split
  · split
    · exact deepLoc_ne_var _ _ _ _ _
    · exact deepLoc_ne_var _ _ _ _ _
  · split
    · exact deepLoc_ne_var _ _ _ _ _
    · split
      · exact deepLoc_ne_var _ _ _ _ _
      · intro heq
        cases heq

/-- Items of different stacks are in different places. -/
theorem heldAt_eq_resultAt {reached back back' : Int} {pointer pointer' x x' : Int} {k' : Nat}
    (h : c.heldAt cache qIn qOut k reached back updated pointer x =
      c.resultAt cache qOut k' back' pointer' x') : k = k' := by
  unfold heldAt resultAt at h
  split at h
  · split at h
    · split at h
      · exact deepLoc_unique h
      · exact absurd h (deepLoc_ne_temp _ _ _ _ _)
    · split at h
      · exact deepLoc_unique h
      · exact absurd h (deepLoc_ne_temp _ _ _ _ _)
  · split at h
    · split at h
      · exact deepLoc_unique h
      · exact absurd h (deepLoc_ne_temp _ _ _ _ _)
    · split at h
      · split at h
        · exact deepLoc_unique h
        · exact absurd h (deepLoc_ne_temp _ _ _ _ _)
      · split at h
        · exact absurd h.symm (deepLoc_ne_temp _ _ _ _ _)
        · exact (Loc.temp.inj h).1

/-- The stack pointer has been updated before results are written to the stack. -/
theorem updated_of_backFrom_le (c : Combination) (h : ps ++ p :: qs = c.combinedPrims) {x : Int}
    (hx : x < c.reach ps p k) (hresult : c.backFrom qs k ≤ x) : c.updated (ps ++ [p]) k = true := by
  have hmax := c.max_reached_back (show (ps ++ [p]) ++ qs = c.combinedPrims by simpa using h) k
  have hreach : c.reach ps p k ≤ c.reachedBy (ps ++ [p]) k := by
    rw [c.reachedBy_concat]
    exact le_max_right _ _
  unfold updated
  simp only [ne_eq, List.append_eq_nil_iff, List.cons_ne_self, and_false, not_false_eq_true,
    and_true, decide_eq_true_eq]
  omega

/-- The results of a part are stored where no other item is. -/
theorem heldAt_ne_resultAt (h : ps ++ p :: qs = c.combinedPrims) (hlt : k < c.vm.nextStackNumber)
    {pointer x y : Int} (hx : x < c.reach ps p k) (hy : c.reach ps p k ≤ y) :
    c.heldAt cache qIn qOut k (c.reachedBy (ps ++ [p]) k) (c.backFrom qs k)
        (c.updated (ps ++ [p]) k) pointer y ≠
      c.resultAt cache qOut k (c.backFrom qs k) pointer x := by
  have hsplit : (ps ++ [p]) ++ qs = c.combinedPrims := by simpa using h
  have hin := c.stacksIn_combined hlt
  have hout := c.stacksOut_combined hlt
  have hmax := c.max_reached_back hsplit k
  have hend := c.depthEnd_le_backFrom qs k
  have hreach : c.reach ps p k ≤ c.reachedBy (ps ++ [p]) k := by
    rw [c.reachedBy_concat]
    exact le_max_right _ _
  intro heq
  unfold heldAt at heq
  by_cases hdeep : c.combined.stacksIn k ≤ y
  · rw [if_pos hdeep] at heq
    unfold resultAt at heq
    by_cases hresult : c.backFrom qs k ≤ x
    · rw [if_pos hresult, c.updated_of_backFrom_le h hx hresult, if_pos rfl] at heq
      exact deepLoc_ne_of_lt (kept_le_out c.combined qIn qOut k) (by omega) heq
    · rw [if_neg hresult] at heq
      split at heq
      · exact deepLoc_ne_temp _ _ _ _ _ heq
      · exact deepLoc_ne_temp _ _ _ _ _ heq
  · rw [if_neg hdeep] at heq
    by_cases hreached : c.reachedBy (ps ++ [p]) k ≤ y
    · rw [if_pos hreached] at heq
      unfold resultAt at heq
      rw [if_neg (by omega)] at heq
      exact deepLoc_ne_temp _ _ _ _ _ heq
    · rw [if_neg hreached] at heq
      have hsame := resultAt_injective (c.backFrom qs) (fun _ => pointer) (c.depthEnd_le_backFrom qs)
        hlt hlt heq
      omega

/-! ## Reads -/

/-- The index of an input counts from the top. -/
theorem itemInIndex_eq (ipOffset : Int) {item : Item} (hk : item.stack ≠ instStream)
    (hitem : item ∈ p.effectIn) {part : Nat} (hpart : part < item.type.size) :
    (c.partContext (cache.state qIn) (cache.state qOut) ipOffset p).itemInIndex item - part =
      ((p.stacksIn item.stack - 1 - (item.offset + part) : Nat) : Int) := by
  have hle := p.offset_le hitem
  simp only [Context.itemInIndex, if_neg hk, partContext]
  omega

variable (qOut) in
/-- Items are read where they are. -/
theorem partStackRead_loc (h : ps ++ p :: qs = c.combinedPrims) (hk : k ≠ instStream)
    (hlt : k < c.vm.nextStackNumber) (pointer : Nat → Int) {n : Nat} (hn : n < p.stacksIn k) :
    (c.partStackRead (cache.state qIn) ps.length (c.depthOut ps) n k).loc pointer =
      c.heldAt cache qIn qOut k (c.reachedBy ps k) (c.backFrom (p :: qs) k) (c.updated ps k)
        (pointer k) (c.currentAfter ps k + n) := by
  have hin := c.stacksIn_combined hlt
  have hback := c.backFrom_cons_eq h k
  have hsplit : (ps ++ [p]) ++ qs = c.combinedPrims := by simpa using h
  have hle := c.reachedBy_le _ _ hsplit k
  have hnonneg := c.reachedBy_nonneg ps k
  rw [c.reachedBy_concat] at hle
  have hreach : c.currentAfter ps k + n < c.reach ps p k := by
    unfold reach
    rw [c.adjustment_of_ne hk]
    omega
  unfold partStackRead heldAt
  rw [c.sCMaxDepth_eq _ _ h, depthOut_of_ne hk]
  simp only [hk, or_false]
  rw [if_neg (show ¬ (c.combined.stacksIn k : Int) ≤ c.currentAfter ps k + n by omega)]
  split
  · have hindex : c.currentAfter ps k + n = ((c.currentAfter ps k + n).toNat : Int) := by omega
    rw [hindex, access_loc hk]
    rfl
  · unfold resultAt partStackAccess
    rw [if_neg hk, if_neg (by omega), depthOut_of_ne hk]
    rfl

/-- The operands of a part are read from the instruction stream. -/
theorem partStackRead_operand (ipOffset : Int) (pointer : Nat → Int) {item : Item}
    (hk : item.stack = instStream) (part : Nat) :
    (c.partStackRead (cache.state qIn) ps.length (c.depthOut ps)
        ((c.partContext (cache.state qIn) (cache.state qOut) ipOffset p).itemInIndex item - part)
        item.stack).loc pointer =
      .cell instStream (pointer instStream + ipOffset - c.combined.stacksIn instStream +
        c.depthOut ps instStream + (item.offset + item.type.size - 1 - part)) := by
  unfold partStackRead
  rw [if_pos (Or.inr hk)]
  simp only [Vm.normalStackAccess, if_true, Place.loc, Context.itemInIndex, partContext, context, hk]
  congr 1
  ring

variable (c cache qIn) in
/-- The parts read places of the stacks. -/
theorem readsStacks_partStackRead (partNum : Nat) (currentDepth : Nat → Int) :
    Context.ReadsStacks (c.partStackRead (cache.state qIn) partNum currentDepth) := by
  intro n k pointer name part heq
  unfold partStackRead at heq
  split at heq
  · unfold Vm.normalStackAccess at heq
    split at heq
    · cases heq
    · split at heq <;> cases heq
  · unfold partStackAccess at heq
    split at heq <;> cases heq

/-- The fetches of a part -/
def fetched (c : Combination) (cache : SimpleCache) (qIn qOut : CacheState) (ipOffset : Int)
    (ps : List Prim) (p : Prim) (m : Machine V W) : Machine V W :=
  { m with
    cells := assignAll m.cells (locMoves m.pointer (p.effectIn.flatMap
      ((c.partContext (cache.state qIn) (cache.state qOut) ipOffset p).fetchMoves
        (c.partStackRead (cache.state qIn) ps.length (c.depthOut ps))))) }

/-- The fetches of a part change only variables. -/
theorem fetched_cells (ipOffset : Int) (m : Machine V W) {l : Loc}
    (hl : ∀ name part, l ≠ .var name part) :
    (c.fetched cache qIn qOut ipOffset ps p m).cells l = m.cells l := by
  refine Context.not_fetched (c := c.partContext (cache.state qIn) (cache.state qOut) ipOffset p)
    _ _ ?_
  intro item _ part _
  exact hl _ _

variable (qOut) in
/-- Behind the fetches of a part its variables hold its inputs. -/
theorem fetched_vars (h : ps ++ p :: qs = c.combinedPrims) (hwf : p.WellFormed c.vm)
    (hm : c.Between cache qIn qOut ps (p :: qs) s m) (hoperands : c.OperandsAt ipOffset ps s m) :
    (c.fetched cache qIn qOut ipOffset ps p m).vars = (p.popped s).vars := by
  have hread := readsStacks_partStackRead c cache qIn ps.length (c.depthOut ps)
  funext name part
  by_cases hname : ∃ item ∈ p.effectIn, item.name = name ∧ part < item.type.size
  · rcases hname with ⟨item, hitem, rfl, hpart⟩
    refine (Context.fetched (c := c.partContext (cache.state qIn) (cache.state qOut) ipOffset p)
      hwf.distinctNames hread _ _ hitem hpart).trans ?_
    have hle := p.offset_le hitem
    by_cases hstack : item.stack = instStream
    · rw [p.popped_operand hwf.distinctNames _ hitem hstack hpart, hoperands,
        partStackRead_operand ipOffset _ hstack]
      congr 2
      omega
    · have hlt := hwf.stackIn_lt _ (mem_computeOffsets hitem).1
      rw [p.popped_item hwf.distinctNames _ hitem hstack hpart,
        itemInIndex_eq ipOffset hstack hitem hpart,
        partStackRead_loc qOut h hstack hlt _ (by omega)]
      exact hm.stack item.stack hstack hlt _
  · have hother : ∀ item ∈ p.effectIn, item.name = name → item.type.size ≤ part := by
      intro item hitem heq
      by_contra hpart
      exact hname ⟨item, hitem, heq, by omega⟩
    rw [Prim.popped_other _ hother, ← hm.vars]
    refine Context.not_fetched (c := c.partContext (cache.state qIn) (cache.state qOut) ipOffset p)
      _ _ ?_
    intro item hitem part' hpart' heq
    have hvar := Loc.var.inj heq
    have := hother item hitem hvar.1.symm
    omega

/-! ## Stack pointer updates -/

variable (code : Machine V W → Machine V W)

/-- The update of the stack pointer moves the deep items, and all others that are still needed are in
temporary variables. -/
theorem heldAt_stackPointerUpdate (h : ps ++ p :: qs = c.combinedPrims) (hk : k ≠ instStream)
    (hlt : k < c.vm.nextStackNumber) (hupdates : c.updates ps.length k = true) (ipOffset : Int)
    (m : Machine V W) {x : Int} (hx : c.reach ps p k ≤ x) :
    (run code m ((c.context (cache.state qIn) (cache.state qOut) ipOffset).stackPointerUpdate k)).cells
        (c.heldAt cache qIn qOut k (c.reachedBy ps k) (c.backFrom (p :: qs) k)
          (c.updated (ps ++ [p]) k)
          ((run code m ((c.context (cache.state qIn) (cache.state qOut) ipOffset).stackPointerUpdate
            k)).pointer k) x) =
      m.cells (c.heldAt cache qIn qOut k (c.reachedBy ps k) (c.backFrom (p :: qs) k)
        (c.updated ps k) (m.pointer k) x) := by
  rw [c.updates_eq h, Bool.and_eq_true, Bool.not_eq_true'] at hupdates
  have hin := c.stacksIn_combined hlt
  have hframe := frame_run code (isLocal_stackPointerUpdate cache c.vm c.combined qIn qOut k ipOffset) m
  rw [hupdates.1, hupdates.2]
  unfold heldAt
  by_cases hdeep : c.combined.stacksIn k ≤ x
  · rw [if_pos hdeep, if_pos hdeep, if_pos rfl, if_neg Bool.false_ne_true]
    have hmoved := stackPointerUpdate_deep cache c.vm c.combined qIn qOut code hk rfl ipOffset m
      (fun j => m.cells (cache.deepLoc c.vm qIn k (c.combined.stacksIn k)
        (kept c.combined qIn qOut k) (m.pointer k) j)) fun j => rfl
    exact hmoved _
  · have hafter := hupdates.1
    have hbefore := hupdates.2
    unfold updated at hafter hbefore
    simp only [decide_eq_true_eq, decide_eq_false_iff_not] at hafter hbefore
    have hreached : x < c.reachedBy ps k := by
      have hboth := hafter.1
      rw [c.reachedBy_concat] at hboth
      omega
    have hnil : ps ≠ [] := by
      intro hnil
      have hreach : (0 : Int) ≤ c.reach [] p k := by
        unfold reach
        rw [c.currentAfter_nil hk, c.adjustment_of_ne hk]
        omega
      rw [hnil] at hx hreached
      rw [reachedBy_nil] at hreached
      omega
    have hmax := c.max_reached_back h k
    have hback : x < c.backFrom (p :: qs) k := by
      by_contra hnot
      apply hbefore
      refine ⟨?_, hnil⟩
      omega
    rw [if_neg hdeep, if_neg hdeep, if_neg (by omega), if_neg (by omega)]
    unfold resultAt
    rw [if_neg (by omega), if_neg (by omega)]
    exact hframe.cells _ fun howns => howns

variable (c cache qIn qOut) in
/-- The updates of the stack pointers concern only their stacks. -/
theorem isLocal_updates (partNum : Nat) (ipOffset : Int) :
    ∀ k, k ≠ instStream → ∀ stmt ∈ (if c.updates partNum k then
      (c.context (cache.state qIn) (cache.state qOut) ipOffset).stackPointerUpdate k else []),
        cache.IsLocal k stmt := by
  intro k _ stmt hstmt
  split at hstmt
  · exact isLocal_stackPointerUpdate _ c.vm c.combined _ _ _ ipOffset stmt hstmt
  · cases hstmt

/-- The fetches of a part and the updates of the stack pointers -/
def entered (c : Combination) (cache : SimpleCache) (qIn qOut : CacheState) (ipOffset : Int)
    (ps : List Prim) (p : Prim) (code : Machine V W → Machine V W) (m : Machine V W) : Machine V W :=
  run code (c.fetched cache qIn qOut ipOffset ps p m)
    (c.partStackPointerUpdates (cache.state qIn) (cache.state qOut) ipOffset ps.length)

theorem run_entered (hd : d.current = c.depthOut ps) (ipOffset : Int) (m : Machine V W) :
    run code m ((c.partContext (cache.state qIn) (cache.state qOut) ipOffset p).fetches
        (c.partStackRead (cache.state qIn) ps.length d.current) ++
      c.partStackPointerUpdates (cache.state qIn) (cache.state qOut) ipOffset ps.length) =
        c.entered cache qIn qOut ipOffset ps p code m := by
  rw [hd, Context.fetches_eq, run_append, run_stmtsOfMoves]
  rfl

variable (c cache qIn qOut ps p) in
theorem outside_entered (ipOffset : Int) (m : Machine V W) :
    Outside (c.fetched cache qIn qOut ipOffset ps p m) (c.entered cache qIn qOut ipOffset ps p code m) :=
  run_mapStacks1_outside code c.vm (isLocal_updates c cache qIn qOut ps.length ipOffset) _

/-- The updates of the stack pointers leave the items in their places. -/
theorem heldAt_entered (h : ps ++ p :: qs = c.combinedPrims) (hk : k ≠ instStream)
    (hlt : k < c.vm.nextStackNumber) (ipOffset : Int) (m : Machine V W) {x : Int}
    (hx : c.reach ps p k ≤ x) :
    (c.entered cache qIn qOut ipOffset ps p code m).cells
        (c.heldAt cache qIn qOut k (c.reachedBy ps k) (c.backFrom (p :: qs) k)
          (c.updated (ps ++ [p]) k) ((c.entered cache qIn qOut ipOffset ps p code m).pointer k) x) =
      m.cells (c.heldAt cache qIn qOut k (c.reachedBy ps k) (c.backFrom (p :: qs) k)
        (c.updated ps k) (m.pointer k) x) := by
  have hlocal := isLocal_updates c cache qIn qOut ps.length ipOffset
  have hagree := run_mapStacks1 code c.vm hlocal hk hlt (c.fetched cache qIn qOut ipOffset ps p m)
  have houtside := outside_entered c cache qIn qOut ps p code ipOffset m
  have hframe := frame_run code (hlocal k hk) (c.fetched cache qIn qOut ipOffset ps p m)
  have htemp := fun n => (houtside.temp k n).trans (hframe.cells (.temp k n) fun howns => howns).symm
  refine (heldAt_congr hagree htemp x).trans ?_
  cases hupdates : c.updates ps.length k with
  | true =>
      refine (heldAt_stackPointerUpdate code h hk hlt hupdates ipOffset _ hx).trans ?_
      exact fetched_cells ipOffset m heldAt_ne_var
  | false =>
      rw [c.updated_eq_of_not_updates h hupdates]
      exact fetched_cells ipOffset m heldAt_ne_var

/-! ## Stores -/

/-- In a part everything is stored. -/
theorem stores_eq_part (c : Context) (stackWrite : Int → Nat → Place) :
    c.stores true stackWrite = stmtsOfMoves (c.prim.effectOut.flatMap (c.storeMoves stackWrite)) := by
  unfold Context.stores stmtsOfMoves
  rw [List.map_flatMap]
  apply List.flatMap_congr
  intro item _
  unfold Context.store Context.storeMoves Context.reallyStoreSingle
  cases item.type with
  | single | double => simp [ItemType.size, List.range_succ]

/-- Where a part of a result is stored -/
theorem partStackWrite_loc (h : ps ++ p :: qs = c.combinedPrims) (hwf : p.WellFormed c.vm)
    (ipOffset : Int) (pointer : Nat → Int) {item : Item} (hitem : item ∈ p.effectOut) {part : Nat}
    (hpart : part < item.type.size) :
    (c.partStackWrite (cache.state qOut) (ps.length + 1) (c.depthOut (ps ++ [p]))
        ((c.partContext (cache.state qIn) (cache.state qOut) ipOffset p).itemOutIndex item - part)
        item.stack).loc pointer =
      c.resultAt cache qOut item.stack (c.backFrom qs item.stack) (pointer item.stack)
        (c.currentAfter (ps ++ [p]) item.stack +
          (p.stacksOut item.stack - 1 - (item.offset + part) : Nat)) := by
  have hk := hwf.stack_ne _ (mem_computeOffsets hitem).1
  have hlt := hwf.stack_lt _ (mem_computeOffsets hitem).1
  have hle := p.offset_le_out hitem
  have hin := c.stacksIn_combined hlt
  have hout := c.stacksOut_combined hlt
  have hend := c.depthEnd_le_backFrom qs item.stack
  have hback := c.sCMaxBackDepth_eq (ps ++ [p]) qs (by simpa using h) item.stack
  rw [List.length_append, List.length_singleton] at hback
  have hindex : (c.partContext (cache.state qIn) (cache.state qOut) ipOffset p).itemOutIndex item -
      part = ((p.stacksOut item.stack - 1 - (item.offset + part) : Nat) : Int) := by
    simp only [Context.itemOutIndex, partContext]
    omega
  rw [hindex]
  unfold partStackWrite resultAt
  rw [hback, depthOut_of_ne hk]
  generalize hx : c.currentAfter (ps ++ [p]) item.stack +
    ((p.stacksOut item.stack - 1 - (item.offset + part) : Nat) : Int) = x
  by_cases hresult : c.backFrom qs item.stack ≤ x
  · rw [if_pos hresult, if_pos hresult]
    have hplace : x - (c.combined.stacksIn item.stack - c.combined.stacksOut item.stack) =
        ((x - (c.combined.stacksIn item.stack - c.combined.stacksOut item.stack)).toNat : Int) := by
      omega
    rw [hplace, access_loc hk]
    rfl
  · rw [if_neg hresult, if_neg hresult]
    unfold partStackAccess
    rw [if_neg hk, depthOut_of_ne hk, hx]
    rfl

/-- The stores of a part write to different places. -/
theorem separates_partStackWrite (h : ps ++ p :: qs = c.combinedPrims) (hwf : p.WellFormed c.vm)
    (ipOffset : Int) (pointer : Nat → Int) :
    (c.partContext (cache.state qIn) (cache.state qOut) ipOffset p).Separates
      (c.partStackWrite (cache.state qOut) (ps.length + 1) (c.depthOut (ps ++ [p]))) pointer where
  injective item hitem part hpart item' hitem' part' hpart' heq := by
    change item ∈ p.effectOut at hitem
    change item' ∈ p.effectOut at hitem'
    have hle := p.offset_le_out hitem
    have hle' := p.offset_le_out hitem'
    rw [partStackWrite_loc h hwf ipOffset pointer hitem hpart,
      partStackWrite_loc h hwf ipOffset pointer hitem' hpart'] at heq
    have hsame := resultAt_injective _ _ (c.depthEnd_le_backFrom qs)
      (hwf.stack_lt _ (mem_computeOffsets hitem).1) (hwf.stack_lt _ (mem_computeOffsets hitem').1) heq
    rcases hsame with ⟨hk, hx⟩
    rw [hk] at hx hle
    exact ⟨hk, by omega⟩
  not_var item hitem part hpart name part' := by
    change item ∈ p.effectOut at hitem
    rw [partStackWrite_loc h hwf ipOffset pointer hitem hpart]
    unfold resultAt
    split
    · exact deepLoc_ne_var _ _ _ _ _
    · intro heq
      cases heq

/-- The stores of a part -/
def stored (c : Combination) (cache : SimpleCache) (qIn qOut : CacheState) (ipOffset : Int)
    (ps : List Prim) (p : Prim) (m : Machine V W) : Machine V W :=
  { m with
    cells := assignAll m.cells (locMoves m.pointer (p.effectOut.flatMap
      ((c.partContext (cache.state qIn) (cache.state qOut) ipOffset p).storeMoves
        (c.partStackWrite (cache.state qOut) (ps.length + 1) (c.depthOut (ps ++ [p])))))) }

/-- The stores push the results. -/
theorem heldAt_stored (h : ps ++ p :: qs = c.combinedPrims) (hwf : p.WellFormed c.vm)
    (hk : k ≠ instStream) (hlt : k < c.vm.nextStackNumber) (ipOffset : Int) {result : Scene V W}
    (hvars : m.vars = result.vars)
    (hstack : ∀ n : Nat, m.cells (c.heldAt cache qIn qOut k (c.reachedBy (ps ++ [p]) k)
      (c.backFrom qs k) (c.updated (ps ++ [p]) k) (m.pointer k) (c.reach ps p k + n)) =
        result.stack k n) (n : Nat) :
    (c.stored cache qIn qOut ipOffset ps p m).cells
        (c.heldAt cache qIn qOut k (c.reachedBy (ps ++ [p]) k) (c.backFrom qs k)
          (c.updated (ps ++ [p]) k) (m.pointer k) (c.currentAfter (ps ++ [p]) k + n)) =
      p.declsOut.foldl (Decl.push result.vars) result.stack k n := by
  have hcurrent := c.currentAfter_concat ps p k
  by_cases hn : n < p.stacksOut k
  · have hcount := hn
    rw [p.stacksOut_eq] at hcount
    rcases exists_item (fun _ => 0) hcount with ⟨item, hitem, part, hpart, rfl, hplace⟩
    have hpushed := foldl_push_item result.vars result.stack hitem hpart
    rw [← hplace] at hpushed
    rw [hpushed]
    have hindex : n = p.stacksOut item.stack - 1 - (item.offset + part) := by
      rw [hplace, p.stacksOut_eq, Nat.zero_add]
    have hreached : c.reach ps p item.stack ≤ c.reachedBy (ps ++ [p]) item.stack := by
      rw [c.reachedBy_concat]
      exact le_max_right _ _
    have hdepth := c.reachedBy_le (ps ++ [p]) qs (by simpa using h) item.stack
    have hin := c.stacksIn_combined hlt
    have hheld : c.heldAt cache qIn qOut item.stack (c.reachedBy (ps ++ [p]) item.stack)
        (c.backFrom qs item.stack) (c.updated (ps ++ [p]) item.stack) (m.pointer item.stack)
        (c.currentAfter (ps ++ [p]) item.stack + n) =
          c.resultAt cache qOut item.stack (c.backFrom qs item.stack) (m.pointer item.stack)
            (c.currentAfter (ps ++ [p]) item.stack + n) := by
      unfold heldAt
      rw [if_neg (by omega), if_neg (by omega)]
    rw [hheld, hindex, ← partStackWrite_loc h hwf ipOffset m.pointer hitem hpart]
    refine (Context.assignAll_storeMoves (separates_partStackWrite h hwf ipOffset m.pointer)
      (List.Sublist.refl _) _ hitem hpart).trans ?_
    exact congrFun (congrFun hvars item.name) part
  · have hrest := foldl_push_add result.vars p.declsOut result.stack k (n - itemCount p.declsOut k)
    rw [p.stacksOut_eq] at hn hcurrent
    rw [Nat.sub_add_cancel (by omega)] at hrest
    have hx : c.currentAfter (ps ++ [p]) k + n = c.reach ps p k + (n - itemCount p.declsOut k : Nat) := by
      omega
    rw [hrest, ← hstack, hx]
    refine Context.assignAll_storeMoves_other
      (c := c.partContext (cache.state qIn) (cache.state qOut) ipOffset p) _ ?_
    intro item hitem part hpart heq
    have hle := p.offset_le_out hitem
    have hltItem := hwf.stack_lt _ (mem_computeOffsets hitem).1
    rw [partStackWrite_loc h hwf ipOffset m.pointer hitem hpart] at heq
    have hsame : k = item.stack := heldAt_eq_resultAt heq
    subst hsame
    rw [p.stacksOut_eq] at hle
    refine heldAt_ne_resultAt h hlt ?_ ?_ heq
    · rw [p.stacksOut_eq]
      omega
    · omega

/-! ## Parts keep the items in their places -/

/-- The depths behind one more part. -/
theorem addDepths_current (hd : d.current = c.depthOut ps) :
    (d.addDepths c.includeSkippedInsts p).current = c.depthOut (ps ++ [p]) := by
  funext k
  rw [depthOut_concat, ← hd]
  rfl

/-- A part fetches, updates the stack pointers, runs its code and stores. -/
theorem run_outputPart (hd : d.current = c.depthOut ps) (ipOffset : Int) (m : Machine V W) :
    run code m (c.outputPart (cache.state qIn) (cache.state qOut) ipOffset ps.length d p) =
      c.stored cache qIn qOut ipOffset ps p (code (c.entered cache qIn qOut ipOffset ps p code m)) := by
  unfold outputPart
  rw [run_append, run_append, run_entered code hd, addDepths_current hd, stores_eq_part, run_stmtsOfMoves]
  rfl

/-- The C code leaves the items alone. -/
theorem agree_program (code : Code c.vm p V W) (hsync : p.stacksSync k = false) (hk : k ≠ instStream)
    (m : Machine V W) : cache.Agree k m (code.program m) where
  pointer := (code.program_pointer m k hk hsync).symm
  cells l hl := by
    cases l with
    | reg r => exact (code.program_reg m r).symm
    | cell k' a =>
        have hk' : k' = k := hl
        subst hk'
        exact (code.program_cell m k' a hk hsync).symm
    | var name part => exact hl.elim
    | temp k' n => exact hl.elim

/-- The C code of a part runs with the inputs in the variables. -/
theorem entered_vars (h : ps ++ p :: qs = c.combinedPrims) (hwf : p.WellFormed c.vm)
    (hm : c.Between cache qIn qOut ps (p :: qs) s m) (hoperands : c.OperandsAt ipOffset ps s m) :
    (c.entered cache qIn qOut ipOffset ps p code m).vars = (p.popped s).vars ∧
      (c.entered cache qIn qOut ipOffset ps p code m).world = s.world := by
  have houtside := outside_entered c cache qIn qOut ps p code ipOffset m
  rw [← fetched_vars qOut h hwf hm hoperands, ← hm.world]
  refine ⟨?_, houtside.world⟩
  funext name part
  exact houtside.var name part

/-- The C code of a part computes the results into the variables. -/
theorem part_computed (h : ps ++ p :: qs = c.combinedPrims) (hwf : p.WellFormed c.vm)
    (hsync : ∀ k, p.stacksSync k = false) (code : Code c.vm p V W)
    (hm : c.Between cache qIn qOut ps (p :: qs) s m) (hoperands : c.OperandsAt ipOffset ps s m) :
    (code.program (c.entered cache qIn qOut ipOffset ps p code.program m)).vars =
        (code.act (p.popped s)).vars ∧
      (code.program (c.entered cache qIn qOut ipOffset ps p code.program m)).world =
        (code.act (p.popped s)).world := by
  have hentered := entered_vars code.program h hwf hm hoperands
  -- the C code sees the popped items
  have hscene : SameFor p.stacksSync ((c.entered cache qIn qOut ipOffset ps p code.program m).scene
      c.vm (p.popped s).operands) (p.popped s) := by
    refine ⟨hentered.1, hentered.2.trans (p.popped_world s).symm, ?_⟩
    intro k hk
    rw [hsync k] at hk
    cases hk
  have hact := code.act_same _ _ hscene
  have hprogram := code.program_same (c.entered cache qIn qOut ipOffset ps p code.program m)
    (p.popped s).operands
  exact ⟨hprogram.vars.trans hact.vars, hprogram.world.trans hact.world⟩

/-- Every part keeps the items in their places. -/
theorem between_step (h : ps ++ p :: qs = c.combinedPrims) (hwf : p.WellFormed c.vm)
    (hsync : ∀ k, p.stacksSync k = false) (code : Code c.vm p V W) (hd : d.current = c.depthOut ps)
    (hm : c.Between cache qIn qOut ps (p :: qs) s m) (hoperands : c.OperandsAt ipOffset ps s m) :
    c.Between cache qIn qOut (ps ++ [p]) qs (p.effect code.act s)
      (run code.program m
        (c.outputPart (cache.state qIn) (cache.state qOut) ipOffset ps.length d p)) := by
  rw [run_outputPart code.program hd]
  have hcomputed := part_computed h hwf hsync code hm hoperands
  refine ⟨?_, hcomputed.2, ?_⟩
  · -- the stores change no variables
    refine Eq.trans ?_ hcomputed.1
    funext name part
    apply Context.assignAll_storeMoves_other
    intro item hitem part' hpart' heq
    exact (separates_partStackWrite h hwf ipOffset _).not_var item hitem part' hpart' name part heq.symm
  · intro k hk hlt n
    refine heldAt_stored h hwf hk hlt ipOffset hcomputed.1 ?_ n
    intro n
    have hreach : c.reach ps p k ≤ c.reach ps p k + n := by omega
    rw [code.act_stacks _ k (hsync k), p.popped_stack _ hk, ← hm.stack k hk hlt, heldAt_concat h hreach]
    rw [heldAt_congr (agree_program code (hsync k) hk _) fun n => code.program_temp _ k n]
    refine (heldAt_entered code.program h hk hlt ipOffset m hreach).trans ?_
    congr 2
    unfold reach
    rw [c.adjustment_of_ne hk]
    push_cast
    ring

/-- The operands of the parts behind are left alone. -/
theorem operandsAt_step {part : Part c.vm V W} (h : ps ++ part.prim :: qs = c.combinedPrims)
    (hwf : part.prim.WellFormed c.vm) (hcontinues : part.Continues) (hd : d.current = c.depthOut ps)
    (hoperands : c.OperandsAt ipOffset ps s m) :
    c.OperandsAt ipOffset (ps ++ [part.prim])
      (skipInst c.includeSkippedInsts (part.prim.effect part.code.act s))
      (run part.code.program m
        (c.outputPart (cache.state qIn) (cache.state qOut) ipOffset ps.length d part.prim)) := by
  rw [run_outputPart part.code.program hd]
  have houtside := outside_entered c cache qIn qOut ps part.prim part.code.program ipOffset m
  generalize c.entered cache qIn qOut ipOffset ps part.prim part.code.program m = m2 at houtside ⊢
  have hpointer : (c.stored cache qIn qOut ipOffset ps part.prim
      (part.code.program m2)).pointer instStream = m.pointer instStream :=
    (hcontinues.program_ip m2).trans houtside.pointer
  have hcells : ∀ a, (c.stored cache qIn qOut ipOffset ps part.prim
      (part.code.program m2)).cells (.cell instStream a) = m.cells (.cell instStream a) := by
    intro a
    have hstored : (c.stored cache qIn qOut ipOffset ps part.prim
        (part.code.program m2)).cells (.cell instStream a) =
          (part.code.program m2).cells (.cell instStream a) := by
      apply Context.assignAll_storeMoves_other
      intro item hitem part' hpart' heq
      have hk := hwf.stack_ne _ (mem_computeOffsets hitem).1
      rw [partStackWrite_loc h hwf ipOffset _ hitem hpart'] at heq
      exact hk (resultAt_eq_cell heq.symm)
    rw [hstored, hcontinues.program_inst, houtside.cell]
    apply fetched_cells
    intro name part heq
    cases heq
  have hout : part.prim.stacksOut instStream = 0 := by
    rw [part.prim.stacksOut_eq]
    exact itemCount_eq_zero hwf.stack_ne
  intro n
  rw [hpointer, hcells, depthOut_concat, hout]
  have hpopped : ∀ n, (part.prim.effect part.code.act s).operands n =
      s.operands (part.prim.stacksIn instStream + n) := by
    intro n
    rw [← part.prim.popped_operands]
    exact congrFun (hcontinues.act_operands (part.prim.popped s)) n
  cases hskip : c.includeSkippedInsts with
  | false =>
      unfold skipInst instStreamAdjustment
      rw [if_neg Bool.false_ne_true, hpopped, hoperands, if_neg (by simp)]
      congr 2
      push_cast
      ring
  | true =>
      unfold skipInst instStreamAdjustment
      rw [if_pos rfl, if_pos ⟨rfl, rfl⟩]
      simp only
      rw [hpopped, hoperands]
      congr 2
      push_cast
      ring

/-! ## Whole superinstructions -/

/-- A skipped instruction pointer is between the parts as well. -/
theorem skipInst_between {includeSkippedInsts : Bool} (hm : c.Between cache qIn qOut ps qs s m) :
    c.Between cache qIn qOut ps qs (skipInst includeSkippedInsts s) m := by
  unfold skipInst
  split
  · exact ⟨hm.vars, hm.world, hm.stack⟩
  · exact hm

variable (c ps) in
/-- All parts from some part on -/
theorem between_run (parts : List (Part c.vm V W)) (h : ps ++ parts.map Part.prim = c.combinedPrims)
    (hwf : ∀ part ∈ parts, part.prim.WellFormed c.vm)
    (hsync : ∀ part ∈ parts, ∀ k, part.prim.stacksSync k = false)
    (hcontinues : ∀ part ∈ parts.dropLast, part.Continues) (hd : d.current = c.depthOut ps)
    (hm : c.Between cache qIn qOut ps (parts.map Part.prim) s m)
    (hoperands : parts ≠ [] → c.OperandsAt ipOffset ps s m) :
    c.Between cache qIn qOut c.combinedPrims [] (effects c.includeSkippedInsts parts s)
      (runParts parts (c.outputPartsFrom (cache.state qIn) (cache.state qOut) ipOffset ps.length d
        (parts.map Part.prim)) m) := by
  induction parts generalizing ps d s m with
  | nil =>
      rw [List.map_nil, List.append_nil] at h
      rw [← h]
      exact hm
  | cons part parts ih =>
      rw [List.map_cons] at h hm
      have hstep := between_step h (hwf part List.mem_cons_self) (hsync part List.mem_cons_self)
        part.code hd hm (hoperands (List.cons_ne_nil _ _))
      have hrest := ih (ps ++ [part.prim]) (d := d.addDepths c.includeSkippedInsts part.prim)
        (s := skipInst c.includeSkippedInsts (part.prim.effect part.code.act s))
        (m := run part.code.program m
          (c.outputPart (cache.state qIn) (cache.state qOut) ipOffset ps.length d part.prim))
        (by simpa using h) (fun part' hmem => hwf part' (List.mem_cons_of_mem part hmem))
        (fun part' hmem => hsync part' (List.mem_cons_of_mem part hmem))
        (by
          intro part' hmem
          apply hcontinues
          rw [List.dropLast_cons_of_ne_nil (List.ne_nil_of_mem ((List.dropLast_sublist parts).subset hmem))]
          exact List.mem_cons_of_mem part hmem)
        (addDepths_current hd) (skipInst_between hstep)
        (by
          intro hne
          apply operandsAt_step h (hwf part List.mem_cons_self) _ hd
            (hoperands (List.cons_ne_nil _ _))
          apply hcontinues
          rw [List.dropLast_cons_of_ne_nil hne]
          exact List.mem_cons_self)
      rw [List.length_append, List.length_singleton] at hrest
      exact hrest

variable (c cache qIn qOut) in
/-- The items before the first part -/
theorem between_start (ipOffset : Int) (m : Machine V W) :
    c.Between cache qIn qOut [] c.combinedPrims (m.start c.vm c.combined (cache.state qIn) ipOffset)
        (run id m (c.outputHead (cache.state qIn) (cache.state qOut) ipOffset)) ∧
      c.OperandsAt ipOffset [] (m.start c.vm c.combined (cache.state qIn) ipOffset)
        (run id m (c.outputHead (cache.state qIn) (cache.state qOut) ipOffset)) := by
  have hlocal : ∀ k, k ≠ instStream →
      ∀ stmt ∈ (c.context (cache.state qIn) (cache.state qOut) ipOffset).spillStack k,
        cache.IsLocal k stmt :=
    fun k hk => isLocal_spillStack c.vm c.combined hk ipOffset
  have houtside : Outside m (run id m (c.outputHead (cache.state qIn) (cache.state qOut) ipOffset)) :=
    run_mapStacks1_outside id c.vm hlocal m
  constructor
  · refine ⟨?_, houtside.world, ?_⟩
    · funext name part
      exact houtside.var name part
    · intro k hk hlt n
      have hagree := run_mapStacks1 id c.vm hlocal hk hlt m
      have hin := c.stacksIn_combined hlt
      rw [Machine.start_stack _ _ hk, c.currentAfter_nil hk, zero_add, reachedBy_nil]
      unfold heldAt updated
      simp only [ne_eq, not_true_eq_false, and_false, decide_false, Bool.false_eq_true, if_false]
      by_cases hdeep : (c.combined.stacksIn k : Int) ≤ n
      · rw [if_pos hdeep]
        have hspilled := (spillStack_deep cache c.vm c.combined qIn qOut id hk ipOffset m).congr hagree
        have hindex : c.combined.stacksIn k + ((n : Int) - c.combined.stacksIn k).toNat = n := by omega
        refine (hspilled _).trans ?_
        simp only [hindex]
      · rw [if_neg hdeep, if_pos (by omega), Int.toNat_natCast]
        have hview := (view_congr hk hagree).trans (spillStack_view cache c.vm c.combined qIn qOut id
          hk ipOffset m)
        rw [← congrFun hview n]
        unfold Machine.view
        rw [access_loc hk]
        rfl
  · intro n
    have hdepth : c.depthOut [] instStream = 0 := by
      unfold depthOut currentAfter depthsAfter initCombined instStreamAdjustment
      simp only [List.foldl_nil]
      split <;> rfl
    rw [hdepth, houtside.pointer, houtside.cell, add_zero]
    rfl

variable (c) in
/-- In front of the first part the current depth is erased. -/
theorem depthOut_nil : (fun _ => 0 : Nat → Int) = c.depthOut [] := by
  funext k
  unfold depthOut currentAfter depthsAfter initCombined instStreamAdjustment
  simp only [List.foldl_nil]
  split <;> rfl

variable (c cache qIn qOut) in
/-- The items behind the last part -/
theorem between_parts (parts : List (Part c.vm V W)) (h : parts.map Part.prim = c.combinedPrims)
    (hwf : ∀ part ∈ parts, part.prim.WellFormed c.vm)
    (hsync : ∀ part ∈ parts, ∀ k, part.prim.stacksSync k = false)
    (hcontinues : ∀ part ∈ parts.dropLast, part.Continues) (ipOffset : Int) (m : Machine V W) :
    c.Between cache qIn qOut c.combinedPrims []
      (effects c.includeSkippedInsts parts (m.start c.vm c.combined (cache.state qIn) ipOffset))
      (runParts parts (c.outputParts (cache.state qIn) (cache.state qOut) ipOffset)
        (run id m (c.outputHead (cache.state qIn) (cache.state qOut) ipOffset))) := by
  have hstart := between_start c cache qIn qOut ipOffset m
  rw [← h] at hstart
  have hrun := between_run c [] parts h hwf hsync hcontinues
    (d := { c.depths with current := fun _ => 0 }) c.depthOut_nil hstart.1 fun _ => hstart.2
  rw [h] at hrun
  exact hrun

/-- Behind the last part all stack pointers have been updated. -/
theorem updated_combinedPrims (c : Combination) (hparts : c.combinedPrims ≠ []) :
    c.updated c.combinedPrims k = true := by
  unfold updated
  simp only [ne_eq, hparts, not_false_eq_true, and_true, decide_eq_true_eq]
  rfl

/-- The items behind the last part, when the registers are filled -/
theorem view_of_between (code : Machine V W → Machine V W) (hparts : c.combinedPrims ≠ [])
    (hm : c.Between cache qIn qOut c.combinedPrims [] s m) (ipOffset : Int) (hk : k ≠ instStream)
    (hlt : k < c.vm.nextStackNumber) :
    (run code m (c.outputTail (cache.state qIn) (cache.state qOut) ipOffset)).view c.vm
      (cache.state qOut) k = s.stack k := by
  have hlocal : ∀ k, k ≠ instStream →
      ∀ stmt ∈ (c.context (cache.state qIn) (cache.state qOut) ipOffset).fillStack k,
        cache.IsLocal k stmt :=
    fun k hk => isLocal_fillStack c.vm c.combined hk ipOffset
  have hin := c.stacksIn_combined hlt
  have hout := c.stacksOut_combined hlt
  have hcurrent : c.currentAfter c.combinedPrims k = c.depths.current k := rfl
  have hheld := hm.stack k hk hlt
  rw [c.updated_combinedPrims hparts] at hheld
  have hdeep : cache.Deep c.vm qOut k (c.combined.stacksOut k) (kept c.combined qIn qOut k) m
      fun j => s.stack k (c.combined.stacksOut k + j) := by
    intro j
    have hitem := hheld (c.combined.stacksOut k + j)
    unfold heldAt at hitem
    rw [if_pos (by omega), if_pos rfl] at hitem
    have hindex : (c.currentAfter c.combinedPrims k + ((c.combined.stacksOut k + j : Nat) : Int) -
        c.combined.stacksIn k).toNat = j := by omega
    rw [hindex] at hitem
    exact hitem
  have htop : ∀ n < c.combined.stacksOut k, m.view c.vm (cache.state qOut) k n = s.stack k n := by
    intro n hn
    have hitem := hheld n
    have hreached : c.reachedBy c.combinedPrims k = c.depths.max k := rfl
    have hback : c.backFrom [] k = c.depths.current k := rfl
    unfold heldAt resultAt at hitem
    rw [if_neg (by omega), if_neg (by omega), if_pos (by omega)] at hitem
    have hindex : (c.currentAfter c.combinedPrims k + (n : Int) -
        (c.combined.stacksIn k - c.combined.stacksOut k)).toNat = n := by omega
    rw [hindex] at hitem
    unfold Machine.view
    rw [access_loc hk]
    exact hitem
  refine (view_congr hk (run_mapStacks1 code c.vm hlocal hk hlt m)).trans ?_
  funext n
  refine (fillStack_view code hk ipOffset hdeep htop n).trans ?_
  split
  · rfl
  · congr 1
    omega

/-- The end of a combination does not change the world. -/
theorem world_of_between (code : Machine V W → Machine V W) {ps qs : List Prim}
    (hm : c.Between cache qIn qOut ps qs s m) (ipOffset : Int) :
    (run code m (c.outputTail (cache.state qIn) (cache.state qOut) ipOffset)).world = s.world := by
  have hlocal : ∀ k, k ≠ instStream →
      ∀ stmt ∈ (c.context (cache.state qIn) (cache.state qOut) ipOffset).fillStack k,
        cache.IsLocal k stmt :=
    fun k hk => isLocal_fillStack c.vm c.combined hk ipOffset
  have houtside := run_mapStacks1_outside code c.vm hlocal m
  exact houtside.world.trans hm.world

end Combination

/-- For every sequence of primitives without {lit}`INST_TAIL` that do not sync stacks, of which only the
last one may end a basic block, every pair of cache states, and every content of the registers and the
memory, the superinstruction does to the stacks and the world what the primitives do one after the
other. -/
theorem runCombined_correct (vm : Vm) (cache : SimpleCache) (qIn qOut : CacheState)
    (includeSkippedInsts : Bool) (stackPointer : Nat → String) (parts : List (Part vm V W))
    (hparts : parts ≠ []) (hwf : ∀ part ∈ parts, part.prim.WellFormed vm)
    (hsync : ∀ part ∈ parts, ∀ k, part.prim.stacksSync k = false)
    (hcontinues : ∀ part ∈ parts.dropLast, part.Continues) (ipOffset : Int) (m : Machine V W) :
    let c := combination includeSkippedInsts stackPointer parts
    let start := m.start vm c.combined (cache.state qIn) ipOffset
    let final := runCombined c (cache.state qIn) (cache.state qOut) ipOffset parts m
    (∀ k, k ≠ instStream → k < vm.nextStackNumber →
      final.view vm (cache.state qOut) k = (effects includeSkippedInsts parts start).stack k) ∧
    final.world = (effects includeSkippedInsts parts start).world := by
  intro c start final
  have hne : c.combinedPrims ≠ [] := by simpa [c, combination] using hparts
  have hrun := Combination.between_parts c cache qIn qOut parts rfl hwf hsync hcontinues ipOffset m
  constructor
  · intro k hk hlt
    exact Combination.view_of_between id hne hrun ipOffset hk hlt
  · exact Combination.world_of_between id hrun ipOffset

theorem plusCode_continues : (⟨plus, plusCode⟩ : Part dataVm Int Unit).Continues where
  act_operands _ := rfl
  program_ip _ := rfl
  program_inst _ _ := by simp [plusCode]

/-- Two additions of three items are eleven. -/
theorem runCombined_correct_plus_plus :
    (runCombined (combination false (fun _ => "sp") [⟨plus, plusCode⟩, ⟨plus, plusCode⟩])
      (pairCache.state topState) (pairCache.state topState) 0 [⟨plus, plusCode⟩, ⟨plus, plusCode⟩]
        threeOnTop).view dataVm (pairCache.state topState) 1 0 = 11 := by
  have hplus := runCombined_correct dataVm pairCache topState topState false (fun _ => "sp")
    [⟨plus, plusCode⟩, ⟨plus, plusCode⟩] (by simp) (by simp [plus_wellFormed]) (by simp [plus])
    (by simp [plusCode_continues]) 0 threeOnTop
  refine (congrFun (hplus.1 1 (by decide) (by decide)) 0).trans ?_
  rfl

end Vmgen
end Gforth
