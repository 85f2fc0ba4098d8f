import Gforth.Vmgen.Temporaries

/-!
# Ways out of a superinstruction

The C code of the last part can leave a superinstruction at an {lit}`INST_TAIL`, instead of going on to
its end.  For that, {lit}`output-combined-tail` stores the results once more, but with
{lit}`in-part` off: then the store of an item that is there on input is optimized away.  If an earlier
part has put this item into a temporary variable, it is missing on the stack.

Main results:

- Theorem {lit}`running_step`: every part leaves the places of later results alone.
- Theorem {lit}`leave_iff`: the way out is right just if the items that are not stored are in their
  places from the start.
- Theorem {lit}`runWithTails_correct_iff`: the same for the whole superinstruction.
-/

namespace Gforth
namespace Vmgen

open Lib SimpleCache

variable {V W : Type*}

/-- An assignment that needs no temporary variables -/
def Stmt.Plain (stmt : Stmt) : Prop :=
  (∃ target source, stmt = .assign target source) ∧ (∀ j i, stmt.source ≠ some (.temp j i)) ∧
    ∀ j i, stmt.target ≠ some (.temp j i)

theorem plain_assign {target source : Place} (htarget : ∀ j i, target ≠ .temp j i)
    (hsource : ∀ j i, source ≠ .temp j i) : (Stmt.assign target source).Plain :=
  ⟨⟨target, source, rfl⟩, fun j i heq => hsource j i (Option.some.inj heq),
    fun j i heq => htarget j i (Option.some.inj heq)⟩

/-- A part that may end a basic block, with {lit}`INST_TAIL` in its C code -/
structure LastPart (vm : Vm) (V W : Type*) extends Part vm V W where
  /-- The C code gets to an {lit}`INST_TAIL`. -/
  leaves : (String → Nat → V) → W → Bool

namespace Combination

variable (c : Combination)

/-! ## Output -/

section

variable (stateIn stateOut : State) (ipOffset : Int)

/-- {lit}`output-combined-tail`, which replaces an {lit}`INST_TAIL` in the C code of a part -/
def outputCombinedTail (p : Prim) : List Stmt :=
  (c.partContext stateIn stateOut ipOffset p).stores false
    (c.partContext stateIn stateOut ipOffset p).stackWrite ++ c.outputTail stateIn stateOut ipOffset

/-- {lit}`output-part`, if the C code gets to an {lit}`INST_TAIL` and leaves there -/
def outputLeaving (partNum : Nat) (d : Depths) (p : Prim) : List Stmt :=
  (c.partContext stateIn stateOut ipOffset p).fetches (c.partStackRead stateIn partNum d.current) ++
    c.partStackPointerUpdates stateIn stateOut ipOffset partNum ++ [.code] ++
    c.outputCombinedTail stateIn stateOut ipOffset p

end

/-! ## Places that no part has changed -/

section

variable (cache : SimpleCache) (qIn qOut : CacheState)

/-- The stack pointers behind the superinstruction -/
def pointerBehind (m : Machine V W) (k : Nat) : Int :=
  m.pointer k + (c.vm.stackAccessTransform k
    (c.combined.stacksIn k - c.combined.stacksOut k - qIn.offset k + qOut.offset k) -
      c.vm.stackAccessTransform k 0)

/-- The place of an item behind the superinstruction -/
def behindAt (m : Machine V W) (k n : Nat) : Loc :=
  cache.deepLoc c.vm qOut k 0 (qOut.items k) (c.pointerBehind qIn qOut m k) n

/-- The stack pointers are the ones before or behind the superinstruction, and the places of items that
the remaining parts still use are as they were. -/
structure Untouched (ps qs : List Prim) (start m : Machine V W) : Prop where
  pointer : ∀ k, k ≠ instStream → k < c.vm.nextStackNumber →
    m.pointer k = if c.updated ps k then c.pointerBehind qIn qOut start k else start.pointer k
  cells : ∀ k, k ≠ instStream → k < c.vm.nextStackNumber → ∀ n : Nat,
    n + c.depths.current k < c.backFrom qs k →
      m.cells (c.behindAt cache qIn qOut start k n) = start.cells (c.behindAt cache qIn qOut start k n)

end

variable {c} {cache : SimpleCache} {qIn qOut : CacheState} {ps qs : List Prim} {p : Prim} {k : Nat}

/-- The spills are below everything that the parts use. -/
theorem behindAt_ne_spilled (hlt : k < c.vm.nextStackNumber) {m : Machine V W} {n j : Nat}
    (hn : n < c.combined.stacksOut k) :
    c.behindAt cache qIn qOut m k n ≠ .cell k (m.pointer k + c.vm.stackAccessTransform k
      (((c.combined.stacksIn k + kept c.combined qIn qOut k + j : Nat) : Int) - qIn.offset k)) := by
  intro heq
  have hin := c.stacksIn_combined hlt
  have hout := c.stacksOut_combined hlt
  unfold behindAt deepLoc pointerBehind at heq
  split at heq
  · cases heq
  · have haddress := (Loc.cell.inj heq).2
    have hshift := transform_shift c.vm k n (-qOut.offset k)
      (c.combined.stacksIn k - c.combined.stacksOut k - qIn.offset k + qOut.offset k)
    have hsame : c.vm.stackAccessTransform k
        (n + (c.combined.stacksIn k - c.combined.stacksOut k - qIn.offset k + qOut.offset k) +
          -qOut.offset k) = c.vm.stackAccessTransform k
            (((c.combined.stacksIn k + kept c.combined qIn qOut k + j : Nat) : Int) - qIn.offset k) := by
      rw [← hshift]
      simp only [Nat.cast_zero, zero_add, sub_eq_add_neg] at haddress ⊢
      omega
    have := c.vm.transform_injective k hsame
    omega

variable (c cache qIn qOut) in
/-- Nothing is changed in front of the first part. -/
theorem untouched_start (ipOffset : Int) (m : Machine V W) :
    c.Untouched cache qIn qOut [] c.combinedPrims m
      (run id m (c.outputHead (cache.state qIn) (cache.state qOut) ipOffset)) := by
  have hlocal : ∀ k, k ≠ instStream →
      ∀ stmt ∈ (c.context (cache.state qIn) (cache.state qOut) ipOffset).spillStack k,
        cache.IsLocal k stmt :=
    fun k hk => isLocal_spillStack c.vm c.combined hk ipOffset
  have hspill : ∀ k, k ≠ instStream →
      (c.context (cache.state qIn) (cache.state qOut) ipOffset).spillStack k =
        stmtsOfMoves (cache.spillMoves c.vm c.combined qIn qOut k) :=
    fun k hk => spillStack_eq hk ipOffset
  constructor
  · intro k hk hlt
    have hagree := run_mapStacks1 id c.vm hlocal hk hlt m
    rw [hspill k hk, run_stmtsOfMoves] at hagree
    have hupdated : c.updated [] k = false := by simp [updated]
    rw [hupdated, if_neg Bool.false_ne_true]
    exact hagree.pointer.symm
  · intro k hk hlt n hn
    have hagree := run_mapStacks1 id c.vm hlocal hk hlt m
    rw [hspill k hk, run_stmtsOfMoves] at hagree
    refine (hagree.cells _ (owns_deepLoc _ _ _ _ _ _ _ _)).symm.trans ?_
    apply assignAll_of_not_target
    intro move hmove heq
    have hback := c.backFrom_le (show [] ++ c.combinedPrims = c.combinedPrims from rfl) k
    have hout := c.stacksOut_combined hlt
    simp only [locMoves, spillMoves, List.map_map, List.mem_map, List.mem_range] at hmove
    rcases hmove with ⟨j, -, rfl⟩
    exact behindAt_ne_spilled hlt (by omega) heq.symm

variable (code : Machine V W → Machine V W)

variable {start m : Machine V W} {d : Depths} {ipOffset : Int} {s : Scene V W} {item : Item}

/-- The fetches and the updates of the stack pointers change no results. -/
theorem untouched_entered (h : ps ++ p :: qs = c.combinedPrims) (ipOffset : Int)
    (hm : c.Untouched cache qIn qOut ps (p :: qs) start m) :
    c.Untouched cache qIn qOut (ps ++ [p]) (p :: qs) start
      (c.entered cache qIn qOut ipOffset ps p code m) := by
  have hlocal := isLocal_updates c cache qIn qOut ps.length ipOffset
  constructor
  · intro k hk hlt
    have hagree := run_mapStacks1 code c.vm hlocal hk hlt (c.fetched cache qIn qOut ipOffset ps p m)
    refine hagree.pointer.symm.trans ?_
    cases hupdates : c.updates ps.length k with
    | true =>
        rw [c.updates_eq h, Bool.and_eq_true, Bool.not_eq_true'] at hupdates
        have hpointer := hm.pointer k hk hlt
        rw [hupdates.2, if_neg Bool.false_ne_true] at hpointer
        rw [hupdates.1, if_pos rfl]
        have hupdate : (run code (c.fetched cache qIn qOut ipOffset ps p m)
            ((cache.context c.vm c.combined qIn qOut ipOffset).stackPointerUpdate k)).pointer k = _ :=
          stackPointerUpdate_pointer code hk rfl ipOffset _
        refine hupdate.trans ?_
        unfold pointerBehind
        rw [← hpointer]
        rfl
    | false =>
        rw [c.updated_eq_of_not_updates h hupdates, ← hm.pointer k hk hlt]
        rfl
  · intro k hk hlt n hn
    have hagree := run_mapStacks1 code c.vm hlocal hk hlt (c.fetched cache qIn qOut ipOffset ps p m)
    have hback := c.backFrom_le h k
    have hout := c.stacksOut_combined hlt
    have hsame : (run code (c.fetched cache qIn qOut ipOffset ps p m)
        (if c.updates ps.length k then
          (c.context (cache.state qIn) (cache.state qOut) ipOffset).stackPointerUpdate k
            else [])).cells (c.behindAt cache qIn qOut start k n) =
        (c.fetched cache qIn qOut ipOffset ps p m).cells (c.behindAt cache qIn qOut start k n) := by
      split
      · exact stackPointerUpdate_cells (p := c.combined) code hk ipOffset _
          (deepLoc_ne_moved _ (by omega))
      · rfl
    refine (hagree.cells _ (owns_deepLoc _ _ _ _ _ _ _ _)).symm.trans (hsame.trans ?_)
    refine (fetched_cells ipOffset m fun name part => deepLoc_ne_var _ _ _ _ _).trans ?_
    exact hm.cells k hk hlt n hn

/-- The C code of a part changes no results. -/
theorem untouched_program (code : Code c.vm p V W) (hsync : ∀ k, p.stacksSync k = false)
    (hm : c.Untouched cache qIn qOut ps qs start m) :
    c.Untouched cache qIn qOut ps qs start (code.program m) := by
  constructor
  · intro k hk hlt
    rw [← hm.pointer k hk hlt]
    exact code.program_pointer m k hk (hsync k)
  · intro k hk hlt n hn
    rw [← hm.cells k hk hlt n hn]
    have hagree : cache.Agree k m (code.program m) := agree_program code (hsync k) hk m
    exact (hagree.cells _ (owns_deepLoc _ _ _ _ _ _ _ _)).symm

/-- A part stores results that no later part uses. -/
theorem untouched_stored (h : ps ++ p :: qs = c.combinedPrims) (hwf : p.WellFormed c.vm)
    (ipOffset : Int) (hm : c.Untouched cache qIn qOut (ps ++ [p]) (p :: qs) start m) :
    c.Untouched cache qIn qOut (ps ++ [p]) qs start (c.stored cache qIn qOut ipOffset ps p m) := by
  refine ⟨hm.pointer, ?_⟩
  intro k hk hlt n hn
  have hbehind := c.backFrom_cons_eq h k
  rw [← hm.cells k hk hlt n (by omega)]
  refine Context.assignAll_storeMoves_other
    (c := c.partContext (cache.state qIn) (cache.state qOut) ipOffset p) _ ?_
  intro item hitem part hpart heq
  have hle := p.offset_le_out hitem
  rw [partStackWrite_loc h hwf ipOffset m.pointer hitem hpart] at heq
  unfold resultAt at heq
  split at heq
  · rename_i hresult
    have hstack : k = item.stack := deepLoc_unique heq
    subst hstack
    have hin := c.stacksIn_combined hlt
    have hout := c.stacksOut_combined hlt
    have hcurrent := c.currentAfter_concat ps p item.stack
    have hpointer := hm.pointer item.stack hk hlt
    rw [c.updated_of_backFrom_le h (by omega) hresult, if_pos rfl] at hpointer
    rw [hpointer] at heq
    have hindex := deepLoc_injective (Or.inl (by omega)) _ heq
    omega
  · exact deepLoc_ne_temp _ _ _ _ _ heq

/-! ## The parts in front of the last one -/

variable (c cache qIn qOut) in
/-- What holds between two parts -/
structure Running (ipOffset : Int) (ps qs : List Prim) (s : Scene V W) (start m : Machine V W) :
    Prop where
  between : c.Between cache qIn qOut ps qs s m
  operands : c.OperandsAt ipOffset ps s m
  untouched : c.Untouched cache qIn qOut ps qs start m

/-- The C code of a part runs behind the updates of the stack pointers. -/
theorem untouched_computed (h : ps ++ p :: qs = c.combinedPrims)
    (hsync : ∀ k, p.stacksSync k = false) (code : Code c.vm p V W) (ipOffset : Int)
    (hm : c.Untouched cache qIn qOut ps (p :: qs) start m) :
    c.Untouched cache qIn qOut (ps ++ [p]) (p :: qs) start
      (code.program (c.entered cache qIn qOut ipOffset ps p code.program m)) :=
  untouched_program code hsync (untouched_entered code.program h ipOffset hm)

/-- One part -/
theorem running_step {part : Part c.vm V W} (h : ps ++ part.prim :: qs = c.combinedPrims)
    (hwf : part.prim.WellFormed c.vm) (hsync : ∀ k, part.prim.stacksSync k = false)
    (hcontinues : part.Continues) (hd : d.current = c.depthOut ps)
    (hm : c.Running cache qIn qOut ipOffset ps (part.prim :: qs) s start m) :
    c.Running cache qIn qOut ipOffset (ps ++ [part.prim]) qs
      (skipInst c.includeSkippedInsts (part.prim.effect part.code.act s)) start
      (run part.code.program m
        (c.outputPart (cache.state qIn) (cache.state qOut) ipOffset ps.length d part.prim)) where
  between := skipInst_between (between_step h hwf hsync part.code hd hm.between hm.operands)
  operands := operandsAt_step h hwf hcontinues hd hm.operands
  untouched := by
    rw [run_outputPart part.code.program hd]
    exact untouched_stored h hwf ipOffset (untouched_computed h hsync part.code ipOffset hm.untouched)

variable (c ps) in
/-- Some parts in front of others -/
theorem running_parts (parts : List (Part c.vm V W))
    (h : ps ++ (parts.map Part.prim ++ qs) = c.combinedPrims)
    (hwf : ∀ part ∈ parts, part.prim.WellFormed c.vm)
    (hsync : ∀ part ∈ parts, ∀ k, part.prim.stacksSync k = false)
    (hcontinues : ∀ part ∈ parts, part.Continues) (hd : d.current = c.depthOut ps)
    (hm : c.Running cache qIn qOut ipOffset ps (parts.map Part.prim ++ qs) s start m) :
    c.Running cache qIn qOut ipOffset (ps ++ parts.map Part.prim) qs
      (effects c.includeSkippedInsts parts s) start
      (runParts parts (c.outputPartsFrom (cache.state qIn) (cache.state qOut) ipOffset ps.length d
        (parts.map Part.prim ++ qs)) m) := by
  induction parts generalizing ps d s m with
  | nil =>
      rw [List.map_nil, List.append_nil]
      exact hm
  | cons part parts ih =>
      rw [List.map_cons, List.cons_append] at h hm
      have hstep := running_step h (hwf part List.mem_cons_self) (hsync part List.mem_cons_self)
        (hcontinues part List.mem_cons_self) hd hm
      have hrest := ih (ps ++ [part.prim]) (by simpa using h)
        (fun part' hmem => hwf part' (List.mem_cons_of_mem part hmem))
        (fun part' hmem => hsync part' (List.mem_cons_of_mem part hmem))
        (fun part' hmem => hcontinues part' (List.mem_cons_of_mem part hmem))
        (addDepths_current hd) hstep
      rw [List.length_append, List.length_singleton, List.append_assoc] at hrest
      exact hrest

/-! ## The last part -/

/-- Outside of parts an item is skipped as in a primitive alone. -/
theorem skips_partContext (ipOffset : Int) (hk : item.stack ≠ instStream) :
    (c.partContext (cache.state qIn) (cache.state qOut) ipOffset p).skips item =
      (cache.context c.vm p qIn qOut ipOffset).skips item := by
  unfold Context.skips Context.itemInIndex
  rw [if_neg hk, if_neg hk]
  rfl

/-- The stores at an {lit}`INST_TAIL` -/
theorem stores_partContext (hwf : p.WellFormed c.vm) (ipOffset : Int) :
    (c.partContext (cache.state qIn) (cache.state qOut) ipOffset p).stores false
        (c.partContext (cache.state qIn) (cache.state qOut) ipOffset p).stackWrite =
      stmtsOfMoves ((cache.context c.vm p qIn qOut ipOffset).stored.flatMap
        ((cache.context c.vm p qIn qOut ipOffset).storeMoves
          (cache.context c.vm p qIn qOut ipOffset).stackWrite)) := by
  have hstored : (c.partContext (cache.state qIn) (cache.state qOut) ipOffset p).stored =
      (cache.context c.vm p qIn qOut ipOffset).stored := by
    apply List.filter_congr
    intro item hitem
    rw [skips_partContext ipOffset (hwf.stack_ne _ (mem_computeOffsets hitem).1)]
  rw [Context.stores_eq, hstored]
  rfl

/-- The machine behind the stores at an {lit}`INST_TAIL` -/
def left (c : Combination) (cache : SimpleCache) (qIn qOut : CacheState) (ipOffset : Int) (p : Prim)
    (m : Machine V W) : Machine V W :=
  { m with
    cells := assignAll m.cells (locMoves m.pointer
      ((cache.context c.vm p qIn qOut ipOffset).stored.flatMap
        ((cache.context c.vm p qIn qOut ipOffset).storeMoves
          (cache.context c.vm p qIn qOut ipOffset).stackWrite))) }

/-- The last part fetches, updates the stack pointers, runs its code, stores and leaves. -/
theorem run_outputLeaving (hwf : p.WellFormed c.vm) (hd : d.current = c.depthOut ps)
    (ipOffset : Int) (m : Machine V W) :
    run code m (c.outputLeaving (cache.state qIn) (cache.state qOut) ipOffset ps.length d p) =
      run code (c.left cache qIn qOut ipOffset p (code (c.entered cache qIn qOut ipOffset ps p code m)))
        (c.outputTail (cache.state qIn) (cache.state qOut) ipOffset) := by
  unfold outputLeaving outputCombinedTail
  rw [stores_partContext hwf, run_append, run_append, run_append, run_entered code hd, run_stmtsOfMoves]
  rfl

/-- The last part stores its results in their places behind the superinstruction. -/
theorem lastWrite_loc (h : ps ++ [p] = c.combinedPrims) (hwf : p.WellFormed c.vm) (ipOffset : Int)
    (pointer : Nat → Int) (hitem : item ∈ p.effectOut) {part : Nat}
    (hpart : part < item.type.size) :
    (c.partStackWrite (cache.state qOut) (ps.length + 1) (c.depthOut (ps ++ [p]))
        ((c.partContext (cache.state qIn) (cache.state qOut) ipOffset p).itemOutIndex item - part)
        item.stack).loc pointer =
      cache.deepLoc c.vm qOut item.stack 0 (qOut.items item.stack) (pointer item.stack)
        (p.stacksOut item.stack - 1 - (item.offset + part)) := by
  have hlt := hwf.stack_lt _ (mem_computeOffsets hitem).1
  have hin := c.stacksIn_combined hlt
  have hout := c.stacksOut_combined hlt
  have hcurrent : c.currentAfter (ps ++ [p]) item.stack = c.depths.current item.stack := by
    rw [h]
    rfl
  rw [partStackWrite_loc h hwf ipOffset pointer hitem hpart]
  unfold resultAt
  rw [if_pos (by rw [hcurrent]; change c.depths.current item.stack ≤ _; omega)]
  congr 1
  omega

/-- A skipped item has the value that is on the stack in front of the part. -/
theorem skipped_value {vm : Vm} (hwf : p.WellFormed vm) (code : Code vm p V W) (s : Scene V W)
    (hitem : item ∈ p.effectOut)
    (hskip : (cache.context vm p qIn qOut ipOffset).skips item = true) :
    (code.act (p.popped s)).vars item.name 0 =
      s.stack item.stack (p.stacksIn item.stack - 1 - item.offset) := by
  rcases skips_spec hskip with ⟨hopt, -, -, ⟨first, hfirst, hname, hstack, hoffset⟩, -⟩
  have hk := hwf.stack_ne _ (mem_computeOffsets hitem).1
  rw [← hname, code.act_vars hopt _ first.toDecl (mem_computeOffsets hfirst).1 item.toDecl
      (mem_computeOffsets hitem).1 hname,
    p.popped_item hwf.distinctNames s hfirst (by rwa [hstack]) first.type.size_pos, hstack, hoffset,
    Nat.add_zero]

/-! ## Skipped items -/

variable (c cache qIn qOut) in
/-- Items whose stores are optimized away at an {lit}`INST_TAIL` are in their places from the start. -/
def InPlace (ipOffset : Int) (p : Prim) (s : Scene V W) (start : Machine V W) : Prop :=
  ∀ item ∈ p.effectOut, (cache.context c.vm p qIn qOut ipOffset).skips item = true →
    start.cells (c.behindAt cache qIn qOut start item.stack (p.stacksOut item.stack - 1 - item.offset)) =
      s.stack item.stack (p.stacksIn item.stack - 1 - item.offset)

/-- What the last part leaves is among what the superinstruction leaves. -/
theorem stacksOut_le_combined (h : ps ++ [p] = c.combinedPrims) (hlt : k < c.vm.nextStackNumber) :
    p.stacksOut k ≤ c.combined.stacksOut k := by
  have hout := c.stacksOut_combined hlt
  have hcurrent := c.currentAfter_concat ps p k
  have hreached := c.reachedBy_concat ps p k
  have hle := le_max_right (c.reachedBy ps k) (c.reach ps p k)
  rw [h] at hcurrent hreached
  have hdepths : c.depths.current k = c.currentAfter c.combinedPrims k := rfl
  have hmax : c.depths.max k = c.reachedBy c.combinedPrims k := rfl
  omega

/-- Until an item is stored its place is as it was. -/
theorem untouched_last (h : ps ++ [p] = c.combinedPrims)
    (hm : c.Untouched cache qIn qOut (ps ++ [p]) [p] start m) (hk : k ≠ instStream)
    (hlt : k < c.vm.nextStackNumber) {n : Nat} (hn : n < p.stacksOut k) :
    m.cells (cache.deepLoc c.vm qOut k 0 (qOut.items k) (m.pointer k) n) =
      start.cells (c.behindAt cache qIn qOut start k n) := by
  have hpointer := hm.pointer k hk hlt
  rw [h, c.updated_combinedPrims (by simp [← h]), if_pos rfl] at hpointer
  rw [hpointer]
  refine hm.cells k hk hlt n ?_
  have hback := c.backFrom_cons_eq h k
  have hreach := c.currentAfter_concat ps p k
  rw [h] at hreach
  have hdepths : c.depths.current k = c.currentAfter c.combinedPrims k := rfl
  have hle := le_max_right (c.backFrom [] k) (c.reach ps p k)
  omega

/-- If the skipped items are in their places, the stores at an {lit}`INST_TAIL` leave what those at the
end leave. -/
theorem left_eq_stored (h : ps ++ [p] = c.combinedPrims) (hwf : p.WellFormed c.vm)
    (code : Code c.vm p V W) (hvars : m.vars = (code.act (p.popped s)).vars)
    (hm : c.Untouched cache qIn qOut (ps ++ [p]) [p] start m)
    (hplace : c.InPlace cache qIn qOut ipOffset p s start) :
    c.left cache qIn qOut ipOffset p m = c.stored cache qIn qOut ipOffset ps p m := by
  have hcells : (c.left cache qIn qOut ipOffset p m).cells =
      (c.stored cache qIn qOut ipOffset ps p m).cells := by
    funext l
    by_cases hl : ∃ item ∈ p.effectOut, ∃ part < item.type.size,
        l = cache.deepLoc c.vm qOut item.stack 0 (qOut.items item.stack) (m.pointer item.stack)
          (p.stacksOut item.stack - 1 - (item.offset + part))
    · rcases hl with ⟨item, hitem, part, hpart, rfl⟩
      have hseparates : (c.partContext (cache.state qIn) (cache.state qOut) ipOffset p).Separates
          (c.partStackWrite (cache.state qOut) (ps.length + 1) (c.depthOut (ps ++ [p]))) m.pointer :=
        separates_partStackWrite h hwf ipOffset m.pointer
      have hstored := Context.assignAll_storeMoves hseparates (List.Sublist.refl _) m.cells hitem hpart
      rw [lastWrite_loc h hwf ipOffset m.pointer hitem hpart] at hstored
      refine Eq.trans ?_ hstored.symm
      cases hskip : (cache.context c.vm p qIn qOut ipOffset).skips item with
      | false => exact stored_item hwf m.cells m.pointer hitem hskip hpart
      | true =>
          obtain rfl := part_of_skips hskip hpart
          have hk := hwf.stack_ne _ (mem_computeOffsets hitem).1
          have hlt := hwf.stack_lt _ (mem_computeOffsets hitem).1
          have hle := p.offset_le_out hitem
          have hpos := item.type.size_pos
          have hvalue : m.cells (.var item.name 0) =
              s.stack item.stack (p.stacksIn item.stack - 1 - item.offset) :=
            (congrFun (congrFun hvars item.name) 0).trans (skipped_value hwf code s hitem hskip)
          refine (not_stored_skipped hwf m.cells m.pointer hitem hskip).trans ?_
          rw [untouched_last h hm hk hlt (by omega), hplace item hitem hskip, hvalue]
    · -- all other places are left alone by both
      have hleft : (c.left cache qIn qOut ipOffset p m).cells l = m.cells l := by
        apply not_stored hwf
        intro item hitem _ part hpart heq
        exact hl ⟨item, hitem, part, hpart, heq⟩
      refine hleft.trans (Eq.symm ?_)
      apply Context.assignAll_storeMoves_other
      intro item hitem part hpart heq
      rw [lastWrite_loc h hwf ipOffset m.pointer hitem hpart] at heq
      exact hl ⟨item, hitem, part, hpart, heq⟩
  exact congrArg (fun cells => ({ m with cells := cells } : Machine V W)) hcells

/-- Behind the superinstruction a skipped item is what is in its place from the start. -/
theorem left_skipped (h : ps ++ [p] = c.combinedPrims) (hwf : p.WellFormed c.vm)
    (hm : c.Untouched cache qIn qOut (ps ++ [p]) [p] start m) (hitem : item ∈ p.effectOut)
    (hskip : (cache.context c.vm p qIn qOut ipOffset).skips item = true) :
    (run code (c.left cache qIn qOut ipOffset p m)
        (c.outputTail (cache.state qIn) (cache.state qOut) ipOffset)).view c.vm (cache.state qOut)
        item.stack (p.stacksOut item.stack - 1 - item.offset) =
      start.cells (c.behindAt cache qIn qOut start item.stack
        (p.stacksOut item.stack - 1 - item.offset)) := by
  have hk := hwf.stack_ne _ (mem_computeOffsets hitem).1
  have hlt := hwf.stack_lt _ (mem_computeOffsets hitem).1
  have hle := p.offset_le_out hitem
  have hpos := item.type.size_pos
  have hcombined := stacksOut_le_combined h hlt
  have hlocal : ∀ k, k ≠ instStream →
      ∀ stmt ∈ (c.context (cache.state qIn) (cache.state qOut) ipOffset).fillStack k,
        cache.IsLocal k stmt :=
    fun k hk => isLocal_fillStack c.vm c.combined hk ipOffset
  have hdeep : cache.Deep c.vm qOut item.stack (c.combined.stacksOut item.stack)
      (kept c.combined qIn qOut item.stack) (c.left cache qIn qOut ipOffset p m) fun j =>
        (c.left cache qIn qOut ipOffset p m).cells (cache.deepLoc c.vm qOut item.stack
          (c.combined.stacksOut item.stack) (kept c.combined qIn qOut item.stack)
          ((c.left cache qIn qOut ipOffset p m).pointer item.stack) j) :=
    fun _ => rfl
  have hfilled := fillStack_view code hk ipOffset hdeep (fun _ _ => rfl)
    (p.stacksOut item.stack - 1 - item.offset)
  rw [if_pos (by omega)] at hfilled
  refine (congrFun (view_congr hk (run_mapStacks1 code c.vm hlocal hk hlt _)) _).trans ?_
  refine hfilled.trans ?_
  unfold Machine.view
  rw [access_loc hk]
  exact (not_stored_skipped hwf m.cells m.pointer hitem hskip).trans
    (untouched_last h hm hk hlt (by omega))

/-- The way out leaves the stacks and the world as the last part does, just if the items that it does not
store are in their places from the start. -/
theorem leave_iff (h : ps ++ [p] = c.combinedPrims) (hwf : p.WellFormed c.vm)
    (hsync : ∀ k, p.stacksSync k = false) (code : Code c.vm p V W) (hd : d.current = c.depthOut ps)
    (hm : c.Running cache qIn qOut ipOffset ps [p] s start m) :
    ((∀ k, k ≠ instStream → k < c.vm.nextStackNumber →
        (run code.program m (c.outputLeaving (cache.state qIn) (cache.state qOut) ipOffset ps.length d
          p)).view c.vm (cache.state qOut) k = (p.effect code.act s).stack k) ∧
      (run code.program m (c.outputLeaving (cache.state qIn) (cache.state qOut) ipOffset ps.length d
        p)).world = (p.effect code.act s).world) ↔
    c.InPlace cache qIn qOut ipOffset p s start := by
  have hne : c.combinedPrims ≠ [] := by simp [← h]
  have hcomputed := part_computed h hwf hsync code hm.between hm.operands
  have huntouched := untouched_computed h hsync code ipOffset hm.untouched
  have hbetween := between_step h hwf hsync code hd hm.between hm.operands
  rw [run_outputPart code.program hd, h] at hbetween
  rw [run_outputLeaving code.program hwf hd]
  constructor
  · rintro ⟨hview, -⟩ item hitem hskip
    have hk := hwf.stack_ne _ (mem_computeOffsets hitem).1
    have hlt := hwf.stack_lt _ (mem_computeOffsets hitem).1
    have hpushed := foldl_push_item (code.act (p.popped s)).vars (code.act (p.popped s)).stack hitem
      item.type.size_pos
    rw [Nat.zero_add, ← p.stacksOut_eq, Nat.add_zero] at hpushed
    calc
      start.cells (c.behindAt cache qIn qOut start item.stack
          (p.stacksOut item.stack - 1 - item.offset)) =
          (p.effect code.act s).stack item.stack (p.stacksOut item.stack - 1 - item.offset) := by
        rw [← left_skipped code.program h hwf huntouched hitem hskip, hview item.stack hk hlt]
      _ = (code.act (p.popped s)).vars item.name 0 := hpushed
      _ = s.stack item.stack (p.stacksIn item.stack - 1 - item.offset) :=
        skipped_value hwf code s hitem hskip
  · intro hplace
    rw [left_eq_stored h hwf code hcomputed.1 huntouched hplace]
    constructor
    · intro k hk hlt
      exact view_of_between code.program hne hbetween ipOffset hk hlt
    · exact world_of_between code.program hbetween ipOffset

/-! ## Superinstructions with a way out -/

variable (stateIn stateOut : State) (ipOffset : Int)

/-- The stores at an {lit}`INST_TAIL` and the fills behind them update no stack pointer and need no
temporary variables. -/
theorem plain_outputCombinedTail {stmt : Stmt}
    (h : stmt ∈ c.outputCombinedTail stateIn stateOut ipOffset p) : stmt.Plain := by
  unfold outputCombinedTail at h
  rcases List.mem_append.mp h with h | h
  · rw [Context.stores_eq] at h
    simp only [stmtsOfMoves, Context.storeMoves, List.mem_map, List.mem_flatMap, List.mem_range] at h
    rcases h with ⟨move, ⟨item, -, part, -, rfl⟩, rfl⟩
    exact plain_assign (fun _ _ => temp_of_normalStackAccess) (by simp)
  · rcases List.mem_flatMap.mp h with ⟨k, -, hk⟩
    rcases List.mem_map.mp hk with ⟨i, -, rfl⟩
    exact plain_assign (fun _ _ => temp_of_normalStackAccess) (by simp)

/-- The last part, on its way to the end of the superinstruction or to an {lit}`INST_TAIL` -/
def runLast {vm : Vm} (c : Combination) (partNum : Nat) (d : Depths) (last : LastPart vm V W)
    (m : Machine V W) : Machine V W :=
  let entered := run id m
    ((c.partContext stateIn stateOut ipOffset last.prim).fetches
        (c.partStackRead stateIn partNum d.current) ++
      c.partStackPointerUpdates stateIn stateOut ipOffset partNum)
  if last.leaves entered.vars entered.world then
    run last.code.program m (c.outputLeaving stateIn stateOut ipOffset partNum d last.prim)
  else
    run id (run last.code.program m (c.outputPart stateIn stateOut ipOffset partNum d last.prim))
      (c.outputTail stateIn stateOut ipOffset)

/-- The code of a superinstruction behind the first label, whose last part may leave it -/
def runWithTails {vm : Vm} (c : Combination) (parts : List (Part vm V W)) (last : LastPart vm V W)
    (m : Machine V W) : Machine V W :=
  c.runLast stateIn stateOut ipOffset parts.length
    ((parts.map Part.prim).foldl (Depths.addDepths c.includeSkippedInsts)
      { c.depths with current := fun _ => 0 }) last
    (runParts parts (c.outputParts stateIn stateOut ipOffset)
      (run id m (c.outputHead stateIn stateOut ipOffset)))

variable {ipOffset}

/-- Either way the last part does what it does alone, if the items that are not stored on its way out
are in their places from the start. -/
theorem runLast_iff (last : LastPart c.vm V W) (h : ps ++ [last.prim] = c.combinedPrims)
    (hwf : last.prim.WellFormed c.vm) (hsync : ∀ k, last.prim.stacksSync k = false)
    (hd : d.current = c.depthOut ps)
    (hm : c.Running cache qIn qOut ipOffset ps [last.prim] s start m) :
    ((∀ k, k ≠ instStream → k < c.vm.nextStackNumber →
        (c.runLast (cache.state qIn) (cache.state qOut) ipOffset ps.length d last m).view c.vm
          (cache.state qOut) k = (last.prim.effect last.code.act s).stack k) ∧
      (c.runLast (cache.state qIn) (cache.state qOut) ipOffset ps.length d last m).world =
        (last.prim.effect last.code.act s).world) ↔
    (last.leaves (last.prim.popped s).vars s.world = true →
      c.InPlace cache qIn qOut ipOffset last.prim s start) := by
  have hentered := entered_vars id h hwf hm.between hm.operands
  unfold runLast
  rw [run_entered id hd]
  simp only [hentered.1, hentered.2]
  cases last.leaves (last.prim.popped s).vars s.world with
  | true =>
      rw [if_pos rfl]
      refine (leave_iff h hwf hsync last.code hd hm).trans ?_
      simp
  | false =>
      rw [if_neg Bool.false_ne_true]
      have hbetween := between_step h hwf hsync last.code hd hm.between hm.operands
      rw [h] at hbetween
      refine iff_of_true ⟨fun k hk hlt => ?_, ?_⟩ fun hleaves => by cases hleaves
      · exact view_of_between id (by simp [← h]) hbetween ipOffset hk hlt
      · exact world_of_between id hbetween ipOffset

variable (c cache qIn qOut) in
/-- The whole superinstruction, in terms of its parts -/
theorem runWithTails_iff (parts : List (Part c.vm V W)) (last : LastPart c.vm V W)
    (h : parts.map Part.prim ++ [last.prim] = c.combinedPrims)
    (hwf : ∀ part ∈ parts ++ [last.toPart], part.prim.WellFormed c.vm)
    (hsync : ∀ part ∈ parts ++ [last.toPart], ∀ k, part.prim.stacksSync k = false)
    (hcontinues : ∀ part ∈ parts, part.Continues) (ipOffset : Int) (m : Machine V W)
    (hs : effects c.includeSkippedInsts parts (m.start c.vm c.combined (cache.state qIn) ipOffset) = s) :
    ((∀ k, k ≠ instStream → k < c.vm.nextStackNumber →
        (c.runWithTails (cache.state qIn) (cache.state qOut) ipOffset parts last m).view c.vm
          (cache.state qOut) k = (last.prim.effect last.code.act s).stack k) ∧
      (c.runWithTails (cache.state qIn) (cache.state qOut) ipOffset parts last m).world =
        (last.prim.effect last.code.act s).world) ↔
    (last.leaves (last.prim.popped s).vars s.world = true →
      c.InPlace cache qIn qOut ipOffset last.prim s m) := by
  have hstart := between_start c cache qIn qOut ipOffset m
  have huntouched := untouched_start c cache qIn qOut ipOffset m
  have hparts : c.outputParts (cache.state qIn) (cache.state qOut) ipOffset =
      c.outputPartsFrom (cache.state qIn) (cache.state qOut) ipOffset 0
        { c.depths with current := fun _ => 0 } (parts.map Part.prim ++ [last.prim]) := by
    rw [h]
    rfl
  rw [← h] at hstart huntouched
  have hrun := running_parts c [] parts h (fun part hpart => hwf part (List.mem_append_left _ hpart))
    (fun part hpart => hsync part (List.mem_append_left _ hpart)) hcontinues
    (d := { c.depths with current := fun _ => 0 }) c.depthOut_nil ⟨hstart.1, hstart.2, huntouched⟩
  rw [List.nil_append, hs] at hrun
  have hlast : last.toPart ∈ parts ++ [last.toPart] := by simp
  have hlength : (parts.map Part.prim).length = parts.length := List.length_map _
  unfold runWithTails
  rw [hparts, ← hlength]
  exact runLast_iff last h (hwf _ hlast) (hsync _ hlast) (foldl_addDepths_current _) hrun

end Combination

/-- The effect of one part more, as far as the stacks and the world go. -/
theorem effects_concat {vm : Vm} (includeSkippedInsts : Bool) (parts : List (Part vm V W))
    (part : Part vm V W) (s : Scene V W) :
    (effects includeSkippedInsts (parts ++ [part]) s).stack =
        (part.prim.effect part.code.act (effects includeSkippedInsts parts s)).stack ∧
      (effects includeSkippedInsts (parts ++ [part]) s).world =
        (part.prim.effect part.code.act (effects includeSkippedInsts parts s)).world := by
  unfold effects
  rw [List.foldl_append, List.foldl_cons, List.foldl_nil]
  unfold skipInst
  split <;> exact ⟨rfl, rfl⟩

/-- A superinstruction whose last part may leave it at an {lit}`INST_TAIL` does to the stacks and the
world what its parts do one after the other, with one update of every stack pointer and with temporary
variables that are declared and written before they are read, just if the last part goes on to its end or
the items that are not stored on its way out are in their places from the start. -/
theorem runWithTails_correct_iff (vm : Vm) (cache : SimpleCache) (qIn qOut : CacheState)
    (includeSkippedInsts : Bool) (stackPointer : Nat → String) (parts : List (Part vm V W))
    (last : LastPart vm V W) (hwf : ∀ part ∈ parts ++ [last.toPart], part.prim.WellFormed vm)
    (hsync : ∀ part ∈ parts ++ [last.toPart], ∀ k, part.prim.stacksSync k = false)
    (hcontinues : ∀ part ∈ parts, part.Continues) (ipOffset : Int) (m : Machine V W) :
    let c := combination includeSkippedInsts stackPointer (parts ++ [last.toPart])
    let start := m.start vm c.combined (cache.state qIn) ipOffset
    let before := effects includeSkippedInsts parts start
    let after := effects includeSkippedInsts (parts ++ [last.toPart]) start
    let final := c.runWithTails (cache.state qIn) (cache.state qOut) ipOffset parts last m
    ((∀ k, k ≠ instStream → k < vm.nextStackNumber →
        final.view vm (cache.state qOut) k = after.stack k) ∧
      final.world = after.world ∧
      (∀ k, k ≠ instStream → c.WellOrdered k (cache.state qIn) (cache.state qOut) ipOffset) ∧
      ∀ stmt ∈ c.outputCombinedTail (cache.state qIn) (cache.state qOut) ipOffset last.prim,
        stmt.Plain) ↔
    (last.leaves (last.prim.popped before).vars before.world = true →
      c.InPlace cache qIn qOut ipOffset last.prim before m) := by
  intro c start before after final
  have hiff := Combination.runWithTails_iff c cache qIn qOut parts last (by simp [c, combination]) hwf
    hsync hcontinues ipOffset m rfl
  have hafter := effects_concat includeSkippedInsts parts last.toPart start
  constructor
  · rintro ⟨hview, hworld, -, -⟩
    exact hiff.mp ⟨fun k hk hlt => (hview k hk hlt).trans (congrFun hafter.1 k), hworld.trans hafter.2⟩
  · intro hplace
    rcases hiff.mpr hplace with ⟨hview, hworld⟩
    refine ⟨fun k hk hlt => (hview k hk hlt).trans (congrFun hafter.1 k).symm, hworld.trans hafter.2.symm,
      fun k hk => ?_, fun stmt hstmt => Combination.plain_outputCombinedTail _ _ ipOffset hstmt⟩
    refine Combination.wellOrdered (by simp [c, combination]) ?_ _ _ ipOffset hk
    intro p hp
    rcases List.mem_map.mp hp with ⟨part, hpart, rfl⟩
    exact hwf part hpart

/-! ### Loops -/

/-- A machine with a data stack and a return stack -/
def returnVm : Vm :=
  { dataVm with nextStackNumber := 3 }

/-- One item of the data stack is in a register. -/
def dataTopState : CacheState where
  items k := if k = 1 then 1 else 0
  offset _ := 0

/-- No C code -/
def noCode (vm : Vm) (p : Prim) : Code vm p Int Unit where
  act s := s
  act_same _ _ h := h
  act_stacks _ _ _ := rfl
  act_vars _ _ _ _ _ _ _ := rfl
  program m := m
  program_same _ _ := ⟨rfl, rfl, fun _ _ => rfl⟩
  program_reg _ _ := rfl
  program_temp _ _ _ := rfl
  program_pointer _ _ _ _ := rfl
  program_cell _ _ _ _ _ := rfl

/-- {lit}`2>r ( w1 w2 -- R:w1 R:w2 )` -/
def twoToR : Part returnVm Int Unit where
  prim :=
    { declsIn := [⟨"w1", 1, .single⟩, ⟨"w2", 1, .single⟩]
      declsOut := [⟨"w1", 2, .single⟩, ⟨"w2", 2, .single⟩]
      stacksSync := fun _ => false
      superend := false }
  code := noCode _ _

/-- {lit}`drop ( w -- )` -/
def drop : Part returnVm Int Unit where
  prim :=
    { declsIn := [⟨"w", 1, .single⟩]
      declsOut := []
      stacksSync := fun _ => false
      superend := false }
  code := noCode _ _

/-- {lit}`(loop) ( #a_target R:nlimit R:n1 -- R:nlimit R:n2 )` -/
def parenLoop : Prim where
  declsIn := [⟨"a_target", 0, .single⟩, ⟨"nlimit", 2, .single⟩, ⟨"n1", 2, .single⟩]
  declsOut := [⟨"nlimit", 2, .single⟩, ⟨"n2", 2, .single⟩]
  stacksSync _ := false
  superend := false

/-- {lit}`n2 = n1+1; if (n2 != nlimit) {SET_IP((Xt *)a_target); INST_TAIL; NEXT_P2;} SUPER_CONTINUE;` -/
def parenLoopCode : Code returnVm parenLoop Int Unit where
  act s := { s with vars := setVar s.vars "n2" 0 (s.vars "n1" 0 + 1) }
  act_same s s' h := by
    constructor
    · simp only [h.vars]
    · rfl
    · intro k hk
      cases hk
  act_stacks _ _ _ := rfl
  act_vars _ s d hd d' hd' hname := by
    refine setVar_of_name_ne _ ?_ 0 _
    simp only [parenLoop, List.mem_cons, List.not_mem_nil, or_false] at hd
    rcases hd with rfl | rfl | rfl <;> simp
  program m :=
    { m with
      pointer := if m.vars "n1" 0 + 1 ≠ m.vars "nlimit" 0 then
        Function.update m.pointer instStream (m.vars "a_target" 0) else m.pointer
      cells := Function.update m.cells (.var "n2" 0) (m.cells (.var "n1" 0) + 1) }
  program_same m operands := by
    constructor
    · funext name part
      simp only [Machine.scene, Machine.vars, setVar, Function.update_apply]
      by_cases hname : name = "n2" <;> by_cases hpart : part = 0 <;> simp [Machine.vars, hname, hpart]
    · rfl
    · intro k hk
      cases hk
  program_reg _ _ := by simp
  program_temp _ _ _ := by simp
  program_pointer m k hk _ := by
    split
    · exact Function.update_of_ne hk _ _
    · rfl
  program_cell _ _ _ _ _ := by simp

/-- {lit}`(loop)`, which leaves unless the limit is reached -/
def parenLoopPart : LastPart returnVm Int Unit where
  prim := parenLoop
  code := parenLoopCode
  leaves vars _ := vars "n1" 0 + 1 ≠ vars "nlimit" 0

/-- The limit 9 and the index 3 on the data stack and on the return stack -/
def limitAndIndex : Machine Int Unit where
  pointer _ := 0
  cells l :=
    if l = .reg (Nat.pair 1 0) ∨ l = .cell 2 0 then 3
    else if l = .cell 1 1 ∨ l = .cell 2 1 then 9 else 0
  world := ()

theorem twoToR_wellFormed : twoToR.prim.WellFormed returnVm where
  distinctNames := by simp [DistinctNames, twoToR]
  stack_lt := by simp [twoToR, returnVm]
  stackIn_lt := by simp [twoToR, returnVm]
  stack_ne := by simp [twoToR, instStream]
  sync := by simp [twoToR]

theorem drop_wellFormed : drop.prim.WellFormed returnVm where
  distinctNames := by simp [DistinctNames, drop]
  stack_lt := by simp [drop]
  stackIn_lt := by simp [drop, returnVm]
  stack_ne := by simp [drop]
  sync := by simp [drop]

theorem twoToR_continues : twoToR.Continues :=
  ⟨fun _ => rfl, fun _ => rfl, fun _ _ => rfl⟩

theorem drop_continues : drop.Continues :=
  ⟨fun _ => rfl, fun _ => rfl, fun _ _ => rfl⟩

theorem parenLoop_wellFormed : parenLoop.WellFormed returnVm where
  distinctNames := by simp [DistinctNames, parenLoop]
  stack_lt := by simp [parenLoop, returnVm]
  stackIn_lt := by simp [parenLoop, returnVm]
  stack_ne := by simp [parenLoop, instStream]
  sync := by simp [parenLoop]

/-- {lit}`2>r (loop)` leaves with the index 4 on the return stack, but without the limit, although its
parts meet all conditions. -/
theorem runWithTails_twoToR_loop :
    let parts := [twoToR, parenLoopPart.toPart]
    let c := combination true (fun _ => "sp") parts
    let final := c.runWithTails (pairCache.state dataTopState) (pairCache.state dataTopState) 0 [twoToR]
      parenLoopPart limitAndIndex
    let after := effects true parts
      (limitAndIndex.start returnVm c.combined (pairCache.state dataTopState) 0)
    (∀ part ∈ parts, part.prim.WellFormed returnVm ∧ ∀ k, part.prim.stacksSync k = false) ∧
      twoToR.Continues ∧
      (final.view returnVm (pairCache.state dataTopState) 2 0 = 4 ∧ after.stack 2 0 = 4) ∧
      final.view returnVm (pairCache.state dataTopState) 2 1 = 0 ∧ after.stack 2 1 = 9 := by
  intro parts c final after
  refine ⟨?_, twoToR_continues, by decide, by decide⟩
  intro part hpart
  simp only [parts, List.mem_cons, List.not_mem_nil, or_false] at hpart
  rcases hpart with rfl | rfl
  · exact ⟨twoToR_wellFormed, fun _ => rfl⟩
  · exact ⟨parenLoop_wellFormed, fun _ => rfl⟩

/-- {lit}`drop (loop)` leaves with the limit, which is in its place all the time. -/
theorem runWithTails_drop_loop :
    let parts := [drop, parenLoopPart.toPart]
    let c := combination true (fun _ => "sp") parts
    let final := c.runWithTails (pairCache.state dataTopState) (pairCache.state dataTopState) 0 [drop]
      parenLoopPart limitAndIndex
    final.view returnVm (pairCache.state dataTopState) 2 1 = 9 := by
  intro parts c final
  have hiff := runWithTails_correct_iff returnVm pairCache dataTopState dataTopState true (fun _ => "sp")
    [drop] parenLoopPart
    (by simp [drop_wellFormed, parenLoopPart, parenLoop_wellFormed])
    (by simp [drop, parenLoopPart, parenLoop])
    (by simpa using drop_continues) 0 limitAndIndex
  have hplace : c.InPlace pairCache dataTopState dataTopState 0 parenLoop
      (effects true [drop] (limitAndIndex.start returnVm c.combined (pairCache.state dataTopState) 0))
        limitAndIndex := by
    unfold Combination.InPlace
    decide
  have hstacks := (hiff.mpr fun _ => hplace).1 2 (by decide) (by decide)
  exact (congrFun hstacks 1).trans (by decide)

end Vmgen
end Gforth
