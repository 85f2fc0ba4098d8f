import Mathlib.Data.Nat.Pairing
import Gforth.Vmgen.Spilling

/-!
# Stack caching is correct

The generated code of a primitive takes a machine whose stacks are in one state of a simple stack
cache to one whose stacks are in another state, and does to the stacks what the stack effect and the C
code say.

Main results:

- Theorem {lit}`outputC_correct`: this holds for every stack effect, every pair of states, and every
  content of the registers and the memory.
- Theorem {lit}`outputC_transforms`: items on top of the stacks are replaced by the results, and
  everything below stays.
-/

namespace Gforth
namespace Vmgen

open Lib SimpleCache

variable {V W : Type*}

/-- The names on the input side are different, items are on stacks that there are, and operands are
on the input side only. -/
structure Prim.WellFormed (vm : Vm) (p : Prim) : Prop where
  distinctNames : DistinctNames p.declsIn
  stack_lt : ∀ d ∈ p.declsOut, d.stack < vm.nextStackNumber
  stackIn_lt : ∀ d ∈ p.declsIn, d.stack < vm.nextStackNumber
  stack_ne : ∀ d ∈ p.declsOut, d.stack ≠ instStream
  sync : ∀ k, p.stacksSync k = true → k ≠ instStream ∧ k < vm.nextStackNumber

variable {vm : Vm} {p : Prim}

theorem Prim.stacksIn_eq (p : Prim) (k : Nat) : p.stacksIn k = itemCount p.declsIn k := by
  simp [Prim.stacksIn, computeOffsets_counts]

theorem Prim.stacksOut_eq (p : Prim) (k : Nat) : p.stacksOut k = itemCount p.declsOut k := by
  simp [Prim.stacksOut, computeOffsets_counts]

variable {item : Item}

theorem Prim.offset_le (p : Prim) (h : item ∈ p.effectIn) :
    item.offset + item.type.size ≤ p.stacksIn item.stack := by
  have hle := (mem_computeOffsets h).2.2
  simpa [p.stacksIn_eq] using hle

theorem Prim.offset_le_out (p : Prim) (h : item ∈ p.effectOut) :
    item.offset + item.type.size ≤ p.stacksOut item.stack := by
  have hle := (mem_computeOffsets h).2.2
  simpa [p.stacksOut_eq] using hle

namespace Context

variable (c : Context)

/-! ## Fetches -/

/-- What the fetch of an item does -/
def fetchMoves (stackRead : Int → Nat → Place) (item : Item) : List (Move Place) :=
  (List.range item.type.size).map fun part : Nat =>
    ⟨.var item.name part, stackRead (c.itemInIndex item - part) item.stack⟩

/-- A fetch is a list of moves. -/
theorem fetch_eq (stackRead : Int → Nat → Place) (item : Item) :
    c.fetch stackRead item = stmtsOfMoves (c.fetchMoves stackRead item) := by
  unfold Context.fetch fetchMoves stmtsOfMoves
  cases item.type <;> simp [ItemType.size, List.range_succ]

/-- The fetches are a list of moves. -/
theorem fetches_eq (stackRead : Int → Nat → Place) :
    c.fetches stackRead = stmtsOfMoves (c.prim.effectIn.flatMap (c.fetchMoves stackRead)) := by
  unfold Context.fetches
  rw [stmtsOfMoves, List.map_flatMap]
  apply List.flatMap_congr
  intro item _
  exact c.fetch_eq stackRead item

/-- Items are fetched from the stacks, not from other variables. -/
def ReadsStacks (stackRead : Int → Nat → Place) : Prop :=
  ∀ n k pointer name part, (stackRead n k).loc pointer ≠ .var name part

variable {c} {stackRead : Int → Nat → Place}

/-- No fetch reads what an earlier one has written. -/
theorem sequenced_fetches (hnames : DistinctNames c.prim.declsIn) (hread : ReadsStacks stackRead)
    (pointer : Nat → Int) :
    Sequenced (locMoves pointer (c.prim.effectIn.flatMap (c.fetchMoves stackRead))) := by
  unfold locMoves
  rw [List.map_flatMap]
  apply Sequenced.flatMap
  · intro item _
    unfold Sequenced fetchMoves
    rw [List.map_map, List.pairwise_map]
    apply List.pairwise_lt_range.imp
    intro part part' hlt
    refine ⟨fun h => ?_, fun h => hread _ _ _ _ _ h.symm⟩
    have := (Loc.var.inj h).2
    omega
  · -- items of different names are different variables
    apply (computeOffsets_distinct hnames _).imp
    intro item item' hne move hmove move' hmove'
    simp only [fetchMoves, List.map_map, List.mem_map, Function.comp_apply] at hmove hmove'
    rcases hmove with ⟨part, -, rfl⟩
    rcases hmove' with ⟨part', -, rfl⟩
    exact ⟨fun h => hne (Loc.var.inj h).1, fun h => hread _ _ _ _ _ h.symm⟩

/-- An item is fetched. -/
theorem fetched (hnames : DistinctNames c.prim.declsIn) (hread : ReadsStacks stackRead)
    (s : Loc → V) (pointer : Nat → Int) {item : Item} (hitem : item ∈ c.prim.effectIn) {part : Nat}
    (hpart : part < item.type.size) :
    assignAll s (locMoves pointer (c.prim.effectIn.flatMap (c.fetchMoves stackRead)))
        (.var item.name part) =
      s ((stackRead (c.itemInIndex item - part) item.stack).loc pointer) := by
  have hmem : (⟨.var item.name part, stackRead (c.itemInIndex item - part) item.stack⟩ : Move Place) ∈
      c.prim.effectIn.flatMap (c.fetchMoves stackRead) := by
    simp only [fetchMoves, List.mem_flatMap, List.mem_map, List.mem_range]
    exact ⟨item, hitem, part, hpart, rfl⟩
  exact assignAll_of_mem (sequenced_fetches hnames hread pointer) (List.mem_map_of_mem hmem)

/-- The fetches change no other places. -/
theorem not_fetched (s : Loc → V) (pointer : Nat → Int) {l : Loc}
    (h : ∀ item ∈ c.prim.effectIn, ∀ part < item.type.size, l ≠ .var item.name part) :
    assignAll s (locMoves pointer (c.prim.effectIn.flatMap (c.fetchMoves stackRead))) l = s l := by
  apply assignAll_of_not_target
  intro move hmove heq
  simp only [locMoves, List.mem_map, List.mem_flatMap] at hmove
  rcases hmove with ⟨place, ⟨item, hitem, hplace⟩, rfl⟩
  simp only [fetchMoves, List.mem_map, List.mem_range] at hplace
  rcases hplace with ⟨part, hpart, rfl⟩
  exact h item hitem part hpart heq.symm

end Context

/-- The items of the input side, popped from a scene -/
def Prim.popped (p : Prim) (s : Scene V W) : Scene V W :=
  p.declsIn.foldr Decl.pop (p.declsIn.foldl Decl.takeOperand s)

theorem Prim.popped_world (p : Prim) (s : Scene V W) : (p.popped s).world = s.world := by
  unfold Prim.popped
  rw [foldr_pop_world, foldl_takeOperand_world]

theorem Prim.popped_operands (p : Prim) (s : Scene V W) (n : Nat) :
    (p.popped s).operands n = s.operands (p.stacksIn instStream + n) := by
  unfold Prim.popped
  rw [foldr_pop_operands, foldl_takeOperand_operands, p.stacksIn_eq]

theorem Prim.popped_stack (p : Prim) (s : Scene V W) {k : Nat} (hk : k ≠ instStream) (n : Nat) :
    (p.popped s).stack k n = s.stack k (p.stacksIn k + n) := by
  unfold Prim.popped
  rw [foldr_pop_stack _ _ hk, foldl_takeOperand_stack, p.stacksIn_eq, Nat.add_comm]

/-- The variable of an operand holds the operand. -/
theorem Prim.popped_operand (hnames : DistinctNames p.declsIn) (s : Scene V W)
    (hitem : item ∈ p.effectIn) (hstack : item.stack = instStream) {part : Nat}
    (hpart : part < item.type.size) :
    (p.popped s).vars item.name part = s.operands (item.offset + item.type.size - 1 - part) := by
  unfold Prim.popped
  rw [foldr_pop_vars_of_other, foldl_takeOperand_vars hnames s hitem hstack hpart, Nat.sub_zero]
  intro d hd hname
  right
  rw [← hstack]
  rw [List.inj_on_of_nodup_map hnames hd (mem_computeOffsets hitem).1 hname]

/-- The variable of an input holds the input. -/
theorem Prim.popped_item (hnames : DistinctNames p.declsIn) (s : Scene V W)
    (hitem : item ∈ p.effectIn) (hstack : item.stack ≠ instStream) {part : Nat}
    (hpart : part < item.type.size) :
    (p.popped s).vars item.name part =
      s.stack item.stack (p.stacksIn item.stack - 1 - (item.offset + part)) := by
  unfold Prim.popped
  rw [foldr_pop_vars hnames _ hitem hstack hpart, foldl_takeOperand_stack, p.stacksIn_eq,
    Nat.zero_add]

/-- The other variables are left alone. -/
theorem Prim.popped_other (s : Scene V W) {name : String} {part : Nat}
    (h : ∀ item ∈ p.effectIn, item.name = name → item.type.size ≤ part) :
    (p.popped s).vars name part = s.vars name part := by
  have hdecl : ∀ d ∈ p.declsIn, d.name = name → d.type.size ≤ part := by
    intro d hd hname
    rcases exists_mem_computeOffsets (fun _ => 0) hd with ⟨item, hitem, rfl⟩
    exact h item hitem hname
  unfold Prim.popped
  rw [foldr_pop_vars_of_other _ fun d hd hname => Or.inl (hdecl d hd hname),
    foldl_takeOperand_vars_of_other _ fun d hd hname => Or.inl (hdecl d hd hname)]

/-! ## Stores -/

namespace Context

variable (c : Context)

/-- The store of an item is optimized away. -/
def skips (item : Item) : Bool :=
  item.type = .single && (c.vm.storeOptimization && !false && c.sameAsIn item &&
    stackReg (c.itemInIndex item) item.stack c.stateIn =
      stackReg (c.itemOutIndex item) item.stack c.stateOut)

/-- What the store of an item does -/
def storeMoves (stackWrite : Int → Nat → Place) (item : Item) : List (Move Place) :=
  (List.range item.type.size).map fun part : Nat =>
    ⟨stackWrite (c.itemOutIndex item - part) item.stack, .var item.name part⟩

/-- A store is a list of moves, or nothing if the item is already there. -/
theorem store_eq (stackWrite : Int → Nat → Place) (item : Item) :
    c.store false stackWrite item =
      stmtsOfMoves (if c.skips item then [] else c.storeMoves stackWrite item) := by
  unfold Context.store skips storeMoves stmtsOfMoves reallyStoreSingle
  cases item.type with
  | single =>
      simp only [decide_true, Bool.true_and]
      split <;> simp [ItemType.size, List.range_succ]
  | double => simp [ItemType.size, List.range_succ]

/-- The items that are stored -/
def stored : List Item :=
  c.prim.effectOut.filter fun item => !c.skips item

/-- The stores are a list of moves. -/
theorem stores_eq (stackWrite : Int → Nat → Place) :
    c.stores false stackWrite = stmtsOfMoves (c.stored.flatMap (c.storeMoves stackWrite)) := by
  unfold Context.stores stored stmtsOfMoves
  rw [List.map_flatMap]
  induction c.prim.effectOut with
  | nil => rfl
  | cons item items ih =>
      rw [List.flatMap_cons, ih, c.store_eq, List.filter_cons]
      cases c.skips item <;> simp [stmtsOfMoves]

/-- Different results are stored in different places, and none is stored in a variable. -/
structure Separates (stackWrite : Int → Nat → Place) (pointer : Nat → Int) : Prop where
  injective : ∀ item ∈ c.prim.effectOut, ∀ part < item.type.size,
    ∀ item' ∈ c.prim.effectOut, ∀ part' < item'.type.size,
      (stackWrite (c.itemOutIndex item - part) item.stack).loc pointer =
          (stackWrite (c.itemOutIndex item' - part') item'.stack).loc pointer →
        item.stack = item'.stack ∧ item.offset + part = item'.offset + part'
  not_var : ∀ item ∈ c.prim.effectOut, ∀ part < item.type.size, ∀ name part',
    (stackWrite (c.itemOutIndex item - part) item.stack).loc pointer ≠ .var name part'

variable {c} {stackWrite : Int → Nat → Place} {pointer : Nat → Int} {items : List Item}

/-- No store reads what an earlier one has written. -/
theorem sequenced_storeMoves (h : c.Separates stackWrite pointer)
    (hsublist : items.Sublist c.prim.effectOut) :
    Sequenced (locMoves pointer (items.flatMap (c.storeMoves stackWrite))) := by
  unfold locMoves
  rw [List.map_flatMap]
  apply Sequenced.flatMap
  · intro item hitem
    have hmem := hsublist.subset hitem
    unfold Sequenced storeMoves
    rw [List.map_map, List.pairwise_map]
    apply List.pairwise_lt_range.imp_of_mem
    intro part part' hpart hpart' hlt
    rw [List.mem_range] at hpart hpart'
    refine ⟨fun heq => ?_, h.not_var item hmem part hpart _ _⟩
    have := (h.injective item hmem part hpart item hmem part' hpart' heq).2
    omega
  · have hordered : items.Pairwise fun item item' =>
        item.stack = item'.stack → item.offset + item.type.size ≤ item'.offset :=
      (computeOffsets_pairwise _ _).sublist hsublist
    apply hordered.imp_of_mem
    intro item item' hitem hitem' horder move hmove move' hmove'
    simp only [storeMoves, List.map_map, List.mem_map, List.mem_range, Function.comp_apply]
      at hmove hmove'
    rcases hmove with ⟨part, hpart, rfl⟩
    rcases hmove' with ⟨part', hpart', rfl⟩
    have hmem := hsublist.subset hitem
    have hmem' := hsublist.subset hitem'
    refine ⟨fun heq => ?_, h.not_var item hmem part hpart _ _⟩
    have hsame := h.injective item hmem part hpart item' hmem' part' hpart' heq
    have := horder hsame.1
    omega

/-- An item is stored. -/
theorem assignAll_storeMoves (h : c.Separates stackWrite pointer)
    (hsublist : items.Sublist c.prim.effectOut) (s : Loc → V) {item : Item} (hitem : item ∈ items)
    {part : Nat} (hpart : part < item.type.size) :
    assignAll s (locMoves pointer (items.flatMap (c.storeMoves stackWrite)))
        ((stackWrite (c.itemOutIndex item - part) item.stack).loc pointer) =
      s (.var item.name part) := by
  have hmem : (⟨stackWrite (c.itemOutIndex item - part) item.stack, .var item.name part⟩ :
      Move Place) ∈ items.flatMap (c.storeMoves stackWrite) := by
    simp only [storeMoves, List.mem_flatMap, List.mem_map, List.mem_range]
    exact ⟨item, hitem, part, hpart, rfl⟩
  exact assignAll_of_mem (sequenced_storeMoves h hsublist) (List.mem_map_of_mem hmem)

/-- Other places are left alone. -/
theorem assignAll_storeMoves_other (s : Loc → V) {l : Loc}
    (h : ∀ item ∈ items, ∀ part < item.type.size,
      l ≠ (stackWrite (c.itemOutIndex item - part) item.stack).loc pointer) :
    assignAll s (locMoves pointer (items.flatMap (c.storeMoves stackWrite))) l = s l := by
  apply assignAll_of_not_target
  intro move hmove heq
  simp only [locMoves, List.mem_map, List.mem_flatMap] at hmove
  rcases hmove with ⟨place, ⟨item, hitem, hplace⟩, rfl⟩
  simp only [storeMoves, List.mem_map, List.mem_range] at hplace
  rcases hplace with ⟨part, hpart, rfl⟩
  exact h item hitem part hpart heq.symm

end Context

section Stores

variable {cache : SimpleCache} {qIn qOut : CacheState} {ipOffset : Int}

variable {item : Item} {m : Machine V W}

/-- Where a part of an item is stored -/
theorem stackWrite_loc (pointer : Nat → Int) (hitem : item ∈ p.effectOut)
    (hstack : item.stack ≠ instStream) {part : Nat} (hpart : part < item.type.size) :
    ((cache.context vm p qIn qOut ipOffset).stackWrite
        ((cache.context vm p qIn qOut ipOffset).itemOutIndex item - part) item.stack).loc pointer =
      cache.deepLoc vm qOut item.stack 0 (qOut.items item.stack) (pointer item.stack)
        (p.stacksOut item.stack - 1 - (item.offset + part)) := by
  have hle := p.offset_le_out hitem
  rw [← access_loc hstack]
  unfold Context.stackWrite Context.itemOutIndex
  simp only [context]
  congr 2
  omega

/-- The stores of a primitive write to different places. -/
theorem separates_stackWrite (hwf : p.WellFormed vm) (pointer : Nat → Int) :
    (cache.context vm p qIn qOut ipOffset).Separates
      (cache.context vm p qIn qOut ipOffset).stackWrite pointer where
  injective item hitem part hpart item' hitem' part' hpart' heq := by
    change item ∈ p.effectOut at hitem
    change item' ∈ p.effectOut at hitem'
    have hle := p.offset_le_out hitem
    have hle' := p.offset_le_out hitem'
    rw [stackWrite_loc pointer hitem (hwf.stack_ne _ (mem_computeOffsets hitem).1) hpart,
      stackWrite_loc pointer hitem' (hwf.stack_ne _ (mem_computeOffsets hitem').1) hpart'] at heq
    have hsame : item.stack = item'.stack := deepLoc_unique heq
    rw [hsame] at heq hle
    have := deepLoc_injective (Or.inl (by omega)) _ heq
    exact ⟨hsame, by omega⟩
  not_var item hitem part hpart name part' := by
    change item ∈ p.effectOut at hitem
    rw [stackWrite_loc pointer hitem (hwf.stack_ne _ (mem_computeOffsets hitem).1) hpart]
    exact deepLoc_ne_var _ _ _ _ _

theorem stored_sublist :
    (cache.context vm p qIn qOut ipOffset).stored.Sublist p.effectOut :=
  List.filter_sublist

/-- An item that is not skipped is stored. -/
theorem stored_item (hwf : p.WellFormed vm) (s : Loc → V) (pointer : Nat → Int)
    (hitem : item ∈ p.effectOut) (hskip : (cache.context vm p qIn qOut ipOffset).skips item = false)
    {part : Nat} (hpart : part < item.type.size) :
    assignAll s (locMoves pointer ((cache.context vm p qIn qOut ipOffset).stored.flatMap
        ((cache.context vm p qIn qOut ipOffset).storeMoves
          (cache.context vm p qIn qOut ipOffset).stackWrite)))
        (cache.deepLoc vm qOut item.stack 0 (qOut.items item.stack) (pointer item.stack)
          (p.stacksOut item.stack - 1 - (item.offset + part))) =
      s (.var item.name part) := by
  have hstored : item ∈ (cache.context vm p qIn qOut ipOffset).stored :=
    List.mem_filter.mpr ⟨hitem, by simp [hskip]⟩
  have hassigned := Context.assignAll_storeMoves (c := cache.context vm p qIn qOut ipOffset)
    (separates_stackWrite hwf pointer) stored_sublist s hstored hpart
  rw [stackWrite_loc pointer hitem (hwf.stack_ne _ (mem_computeOffsets hitem).1) hpart] at hassigned
  exact hassigned

/-- The stores change only places of stored items. -/
theorem not_stored (hwf : p.WellFormed vm) (s : Loc → V) (pointer : Nat → Int) {l : Loc}
    (h : ∀ item ∈ p.effectOut, (cache.context vm p qIn qOut ipOffset).skips item = false →
      ∀ part < item.type.size,
        l ≠ cache.deepLoc vm qOut item.stack 0 (qOut.items item.stack) (pointer item.stack)
          (p.stacksOut item.stack - 1 - (item.offset + part))) :
    assignAll s (locMoves pointer ((cache.context vm p qIn qOut ipOffset).stored.flatMap
        ((cache.context vm p qIn qOut ipOffset).storeMoves
          (cache.context vm p qIn qOut ipOffset).stackWrite))) l = s l := by
  apply Context.assignAll_storeMoves_other
  intro item hstored part hpart heq
  rcases List.mem_filter.mp hstored with ⟨hitem, hskip⟩
  apply h item hitem (by simpa using hskip) part hpart
  rw [heq]
  exact stackWrite_loc pointer hitem (hwf.stack_ne _ (mem_computeOffsets hitem).1) hpart

/-! ## Skipped stores -/

/-- Why the store of an item is optimized away: the item comes from the same place of its stack, and
is in the same register on both sides, or in memory on both sides. -/
theorem skips_spec (hskip : (cache.context vm p qIn qOut ipOffset).skips item = true) :
    vm.storeOptimization = true ∧ item.type = .single ∧ p.stacksSync item.stack = false ∧
      (∃ first ∈ p.effectIn, first.name = item.name ∧ first.stack = item.stack ∧
        first.offset = item.offset) ∧
      stackReg ((cache.context vm p qIn qOut ipOffset).itemInIndex item) item.stack (cache.state qIn) =
        stackReg ((cache.context vm p qIn qOut ipOffset).itemOutIndex item) item.stack
          (cache.state qOut) := by
  unfold Context.skips at hskip
  simp only [Bool.and_eq_true, decide_eq_true_eq, Bool.not_false, and_true] at hskip
  rcases hskip with ⟨htype, ⟨hopt, hsame⟩, hreg⟩
  unfold Context.sameAsIn at hsame
  split at hsame
  · cases hsame
  · rename_i hsync
    split at hsame
    · cases hsame
    · rename_i first hfirst
      split at hsame
      · rename_i hmem
        have hname := List.find?_some hfirst
        simp only [decide_eq_true_eq] at hsame hname
        exact ⟨hopt, htype, by simpa [context] using hsync, ⟨first, hmem, hname, hsame⟩, hreg⟩
      · cases hsame

/-- A skipped item has one part. -/
theorem part_of_skips {item : Item} (hskip : (cache.context vm p qIn qOut ipOffset).skips item = true)
    {part : Nat} (hpart : part < item.type.size) : part = 0 := by
  rw [(skips_spec hskip).2.1] at hpart
  exact Nat.lt_one_iff.mp hpart

/-- The place of a skipped item stays as it is. -/
theorem not_stored_skipped (hwf : p.WellFormed vm) (s : Loc → V) (pointer : Nat → Int)
    (hitem : item ∈ p.effectOut)
    (hskip : (cache.context vm p qIn qOut ipOffset).skips item = true) :
    assignAll s (locMoves pointer ((cache.context vm p qIn qOut ipOffset).stored.flatMap
        ((cache.context vm p qIn qOut ipOffset).storeMoves
          (cache.context vm p qIn qOut ipOffset).stackWrite)))
        (cache.deepLoc vm qOut item.stack 0 (qOut.items item.stack) (pointer item.stack)
          (p.stacksOut item.stack - 1 - item.offset)) =
      s (cache.deepLoc vm qOut item.stack 0 (qOut.items item.stack) (pointer item.stack)
        (p.stacksOut item.stack - 1 - item.offset)) := by
  apply not_stored hwf
  intro item' hitem' hskip' part' hpart' heq
  have hle := p.offset_le_out hitem
  have hle' := p.offset_le_out hitem'
  have hpos := item.type.size_pos
  have hstack := deepLoc_unique heq
  rw [← hstack] at heq hle'
  have hindex := deepLoc_injective (Or.inl (by omega)) _ heq
  have hsame := computeOffsets_unique hitem hitem' hstack hpos hpart' (by omega)
  rw [← hsame, hskip] at hskip'
  cases hskip'

/-- A skipped item is in one place before and after the update of the stack pointer. -/
theorem skipped_loc {k inIndex outIndex : Nat} (pointer : Int)
    (hreg : stackReg inIndex k (cache.state qIn) = stackReg outIndex k (cache.state qOut))
    (hindex : (inIndex : Int) - p.stacksIn k = outIndex - p.stacksOut k) :
    cache.deepLoc vm qOut k 0 (qOut.items k) (pointer + (vm.stackAccessTransform k
        (p.stacksIn k - p.stacksOut k - qIn.offset k + qOut.offset k) -
          vm.stackAccessTransform k 0)) outIndex =
      cache.deepLoc vm qIn k 0 (qIn.items k) pointer inIndex := by
  unfold deepLoc
  by_cases hin : inIndex < qIn.items k
  · rw [stackReg_of_lt hin] at hreg
    by_cases hout : outIndex < qOut.items k
    · rw [stackReg_of_lt hout] at hreg
      rw [if_pos hin, if_pos hout, Nat.zero_add, Nat.zero_add, Option.some.inj hreg]
    · rw [stackReg_of_ge (Or.inr (by omega))] at hreg
      cases hreg
  · rw [stackReg_of_ge (Or.inr (by omega))] at hreg
    by_cases hout : outIndex < qOut.items k
    · rw [stackReg_of_lt hout] at hreg
      cases hreg
    · rw [if_neg hin, if_neg hout, add_assoc]
      have hshift := transform_shift vm k (outIndex - qOut.offset k) 0
        (p.stacksIn k - p.stacksOut k - qIn.offset k + qOut.offset k)
      rw [add_zero] at hshift
      simp only [Nat.cast_zero, zero_add]
      rw [hshift]
      congr 3
      omega

/-- The moves leave a place of an item on top alone. -/
theorem deepLoc_ne_moved {k outIndex : Nat} (pointer : Int) (hlt : outIndex < p.stacksOut k) :
    ∀ i < qOut.items k - p.stacksOut k,
      cache.deepLoc vm qOut k 0 (qOut.items k) pointer outIndex ≠ .reg (cache.reg k i) := by
  intro i hi heq
  unfold deepLoc at heq
  split at heq
  · have := (cache.reg_injective (Loc.reg.inj heq)).2
    omega
  · cases heq

/-! ## The phases -/

/-- What the machine looks like when the C code starts: {lit}`start` is the machine at the start of the
primitive. -/
structure Fetched (cache : SimpleCache) (vm : Vm) (p : Prim) (qIn qOut : CacheState)
    (start : Scene V W) (m : Machine V W) : Prop where
  vars : m.vars = (p.popped start).vars
  world : m.world = start.world
  deep : ∀ k, k ≠ instStream → k < vm.nextStackNumber →
    cache.Deep vm qIn k (p.stacksIn k) (kept p qIn qOut k) m fun j => start.stack k (p.stacksIn k + j)
  view : ∀ k, k ≠ instStream → k < vm.nextStackNumber →
    m.view vm (cache.state qIn) k = start.stack k

/-- The stacks at the start of a primitive, and its operands, which are in front of the next
instruction -/
def Machine.start (vm : Vm) (p : Prim) (st : State) (ipOffset : Int) (m : Machine V W) :
    Scene V W where
  operands n := m.cells (.cell instStream
    (m.pointer instStream + ipOffset - p.stacksIn instStream + n))
  stack k n :=
    if k = instStream then
      m.cells (.cell instStream (m.pointer instStream + ipOffset - p.stacksIn instStream + n))
    else m.view vm st k n
  vars := m.vars
  world := m.world

theorem Machine.start_stack (st : State) (m : Machine V W) {k : Nat} (hk : k ≠ instStream) :
    (m.start vm p st ipOffset).stack k = m.view vm st k := by
  funext n
  simp [Machine.start, hk]

/-- An instruction pointer that lags behind points to the same operands. -/
theorem Machine.start_update (st : State) (m : Machine V W) (n : Int) :
    (Machine.start vm p st ipOffset { m with
      pointer := Function.update m.pointer instStream (m.pointer instStream + n) }) =
      m.start vm p st (n + ipOffset) := by
  unfold Machine.start
  congr 1
  · funext j
    simp only [Function.update_self]
    congr 2
    ring
  · funext k j
    by_cases hk : k = instStream
    · simp only [hk, if_true, Function.update_self]
      congr 2
      ring
    · simp only [hk, if_false]
      unfold Machine.view Vm.normalStackAccess
      rw [if_neg hk]
      cases stackReg j k st <;> simp [Place.loc, hk]

variable (code : Machine V W → Machine V W)

variable (cache qIn qOut ipOffset) in
/-- Behind the fetches the variables hold the inputs. -/
theorem fetched_of_run (hwf : p.WellFormed vm) (m : Machine V W) :
    Fetched cache vm p qIn qOut (m.start vm p (cache.state qIn) ipOffset)
      (run code m ((cache.context vm p qIn qOut ipOffset).spillState ++
        (cache.context vm p qIn qOut ipOffset).fetches
          (cache.context vm p qIn qOut ipOffset).stackRead)) := by
  have hlocal : ∀ k, k ≠ instStream → ∀ stmt ∈ (cache.context vm p qIn qOut ipOffset).spillStack k,
      cache.IsLocal k stmt := fun k hk => isLocal_spillStack _ _ hk ipOffset
  have houtside : Outside m (run code m (cache.context vm p qIn qOut ipOffset).spillState) :=
    run_mapStacks1_outside code _ hlocal m
  have hspill : ∀ k, k ≠ instStream → k < vm.nextStackNumber →
      cache.Agree k (run code m ((cache.context vm p qIn qOut ipOffset).spillStack k))
        (run code m (cache.context vm p qIn qOut ipOffset).spillState) :=
    fun k hk hlt => run_mapStacks1 code _ hlocal hk hlt m
  have hview : ∀ k, k ≠ instStream → k < vm.nextStackNumber →
      (run code m (cache.context vm p qIn qOut ipOffset).spillState).view vm (cache.state qIn) k =
        m.view vm (cache.state qIn) k := by
    intro k hk hlt
    rw [view_congr hk (hspill k hk hlt), spillStack_view _ _ _ _ _ code hk]
  have hread : Context.ReadsStacks (cache.context vm p qIn qOut ipOffset).stackRead := by
    intro n k pointer name part heq
    unfold Context.stackRead Vm.normalStackAccess at heq
    split at heq
    · cases heq
    · split at heq <;> cases heq
  rw [run_append, Context.fetches_eq, run_stmtsOfMoves]
  generalize hm1 : run code m (cache.context vm p qIn qOut ipOffset).spillState = m1 at *
  -- the fetches leave the stacks alone
  have hagree : ∀ k, cache.Agree k m1 { m1 with
      cells := assignAll m1.cells (locMoves m1.pointer (p.effectIn.flatMap
        ((cache.context vm p qIn qOut ipOffset).fetchMoves
          (cache.context vm p qIn qOut ipOffset).stackRead))) } := by
    intro k
    refine ⟨rfl, fun l hl => ?_⟩
    apply Eq.symm
    refine Context.not_fetched (c := cache.context vm p qIn qOut ipOffset) _ _ ?_
    intro item _ part _ heq
    rw [heq] at hl
    exact hl
  refine ⟨?_, houtside.world, ?_, ?_⟩
  · funext name part
    by_cases hname : ∃ item ∈ p.effectIn, item.name = name ∧ part < item.type.size
    · rcases hname with ⟨item, hitem, rfl, hpart⟩
      refine (Context.fetched (c := cache.context vm p qIn qOut ipOffset) hwf.distinctNames hread _ _
        hitem hpart).trans ?_
      have hle := p.offset_le hitem
      by_cases hstack : item.stack = instStream
      · rw [p.popped_operand hwf.distinctNames _ hitem hstack hpart]
        simp only [Context.stackRead, Context.itemInIndex, Vm.normalStackAccess, if_pos hstack,
          Place.loc, Machine.start, context]
        rw [hstack, houtside.pointer, houtside.cell]
        congr 2
        omega
      · rw [p.popped_item hwf.distinctNames _ hitem hstack hpart]
        have hindex : (cache.context vm p qIn qOut ipOffset).itemInIndex item - part =
            ((p.stacksIn item.stack - 1 - (item.offset + part) : Nat) : Int) := by
          simp only [Context.itemInIndex, if_neg hstack, context]
          omega
        rw [hindex]
        have hlt := hwf.stackIn_lt _ (mem_computeOffsets hitem).1
        rw [Machine.start_stack _ _ hstack]
        exact congrFun (hview item.stack hstack hlt) _
    · have hother : ∀ item ∈ p.effectIn, item.name = name → item.type.size ≤ part := by
        intro item hitem heq
        by_contra hpart
        exact hname ⟨item, hitem, heq, by omega⟩
      rw [Prim.popped_other _ hother]
      refine (Context.not_fetched (c := cache.context vm p qIn qOut ipOffset) _ _ ?_).trans
        (houtside.var name part)
      intro item hitem part' hpart' heq
      have hvar := Loc.var.inj heq
      have := hother item hitem hvar.1.symm
      omega
  · intro k hk hlt
    have hdeep := (spillStack_deep _ _ _ _ _ code hk ipOffset m).congr (hspill k hk hlt)
    rw [Machine.start_stack _ _ hk]
    exact hdeep.congr (hagree k)
  · intro k hk hlt
    rw [Machine.start_stack _ _ hk]
    exact (view_congr hk (hagree k)).trans (hview k hk hlt)

/-- What the machine looks like when the C code runs -/
structure Updated (cache : SimpleCache) (vm : Vm) (p : Prim) (qIn qOut : CacheState) (ipOffset : Int)
    (start : Scene V W) (m : Machine V W) : Prop where
  vars : m.vars = (p.popped start).vars
  world : m.world = start.world
  deep : ∀ k, k ≠ instStream → k < vm.nextStackNumber → p.stacksSync k = false →
    cache.Deep vm qOut k (p.stacksOut k) (kept p qIn qOut k) m
      fun j => start.stack k (p.stacksIn k + j)
  memory : ∀ k, k ≠ instStream → k < vm.nextStackNumber → p.stacksSync k = true →
    cache.Deep vm inMemory k 0 0 m fun j => start.stack k (p.stacksIn k + j)
  skipped : ∀ item ∈ p.effectOut, (cache.context vm p qIn qOut ipOffset).skips item = true →
    m.cells (cache.deepLoc vm qOut item.stack 0 (qOut.items item.stack) (m.pointer item.stack)
      (p.stacksOut item.stack - 1 - item.offset)) =
        start.stack item.stack (p.stacksIn item.stack - 1 - item.offset)

/-- An update of the instruction pointer changes nothing else. -/
theorem run_ipUpdateMiddle (c : Context) (m : Machine V W) :
    ∃ ip, run code m c.ipUpdateMiddle =
      { m with pointer := Function.update m.pointer instStream ip } := by
  unfold Context.ipUpdateMiddle
  split
  · exact ⟨_, rfl⟩
  · exact ⟨m.pointer instStream, by simp⟩

variable (ipOffset) in
/-- The updates of the stack pointers keep what was fetched. -/
theorem updated_of_fetched (hwf : p.WellFormed vm) {start : Scene V W}
    (hm : Fetched cache vm p qIn qOut start m) :
    Updated cache vm p qIn qOut ipOffset start
      (run code m (cache.context vm p qIn qOut ipOffset).stackPointerUpdates) := by
  unfold Context.stackPointerUpdates
  rw [run_append]
  rcases run_ipUpdateMiddle code (cache.context vm p qIn qOut ipOffset) m with ⟨ip, hip⟩
  rw [hip]
  have hagree : ∀ k, k ≠ instStream → cache.Agree k m
      { m with pointer := Function.update m.pointer instStream ip } :=
    fun k hk => ⟨(Function.update_of_ne hk _ _).symm, fun _ _ => rfl⟩
  have hlocal : ∀ k, k ≠ instStream →
      ∀ stmt ∈ (cache.context vm p qIn qOut ipOffset).stackPointerUpdate k, cache.IsLocal k stmt :=
    fun k _ => isLocal_stackPointerUpdate _ _ _ _ _ _ ipOffset
  have hupdate := fun k (hk : k ≠ instStream) (hlt : k < vm.nextStackNumber) =>
    run_mapStacks1 code _ hlocal hk hlt { m with pointer := Function.update m.pointer instStream ip }
  have houtside := run_mapStacks1_outside code vm hlocal
    { m with pointer := Function.update m.pointer instStream ip }
  refine ⟨?_, ?_, ?_, ?_, ?_⟩
  · rw [← hm.vars]
    funext name part
    exact houtside.var name part
  · exact houtside.world.trans hm.world
  · intro k hk hlt hsync
    exact (stackPointerUpdate_deep _ _ _ _ _ code hk hsync ipOffset _ _
      ((hm.deep k hk hlt).congr (hagree k hk))).congr (hupdate k hk hlt)
  · intro k hk hlt hsync
    exact (stackPointerUpdate_sync code hk hsync ipOffset
      ((hm.deep k hk hlt).congr (hagree k hk))).congr (hupdate k hk hlt)
  · intro item hitem hskip
    rcases skips_spec hskip with ⟨-, htype, hsync, ⟨first, hfirst, -, hstack, hoffset⟩, hreg⟩
    have hk := hwf.stack_ne _ (mem_computeOffsets hitem).1
    have hlt := hwf.stack_lt _ (mem_computeOffsets hitem).1
    have hleOut := p.offset_le_out hitem
    have hleIn := p.offset_le hfirst
    have hpos := item.type.size_pos
    have hpos' := first.type.size_pos
    rw [hstack, hoffset] at hleIn
    have hinIndex : (cache.context vm p qIn qOut ipOffset).itemInIndex item =
        ((p.stacksIn item.stack - 1 - item.offset : Nat) : Int) := by
      simp only [Context.itemInIndex, if_neg hk, context]
      omega
    have houtIndex : (cache.context vm p qIn qOut ipOffset).itemOutIndex item =
        ((p.stacksOut item.stack - 1 - item.offset : Nat) : Int) := by
      simp only [Context.itemOutIndex, context]
      omega
    rw [hinIndex, houtIndex] at hreg
    have hagreed := hupdate item.stack hk hlt
    rw [context_vm, ← hagreed.pointer, ← hagreed.cells _ (owns_deepLoc _ _ _ _ _ _ _ _),
      stackPointerUpdate_cells code hk ipOffset _ (deepLoc_ne_moved _ (by omega)),
      stackPointerUpdate_pointer code hk hsync, skipped_loc _ hreg (by omega),
      ← congrFun (hm.view item.stack hk hlt) _]
    simp only [Machine.view, Function.update_of_ne hk]
    rw [access_loc hk]

/-- What the machine looks like when the results are stored -/
structure Computed (cache : SimpleCache) (vm : Vm) (p : Prim) (qIn qOut : CacheState) (ipOffset : Int)
    (result : Scene V W) (m : Machine V W) : Prop where
  vars : m.vars = result.vars
  world : m.world = result.world
  deep : ∀ k, k ≠ instStream → k < vm.nextStackNumber →
    cache.Deep vm qOut k (p.stacksOut k) (kept p qIn qOut k) m (result.stack k)
  skipped : ∀ item ∈ p.effectOut, (cache.context vm p qIn qOut ipOffset).skips item = true →
    m.cells (cache.deepLoc vm qOut item.stack 0 (qOut.items item.stack) (m.pointer item.stack)
      (p.stacksOut item.stack - 1 - item.offset)) = result.vars item.name 0

/-- The code of the primitive computes the results into the variables. -/
theorem computed_of_updated (hwf : p.WellFormed vm) (c : Code vm p V W) {start : Scene V W}
    (hm : Updated cache vm p qIn qOut ipOffset start m) :
    Computed cache vm p qIn qOut ipOffset (c.act (p.popped start))
      (run c.program (c.program m) (cache.context vm p qIn qOut ipOffset).stackPointerUpdates2) := by
  have hlocal : ∀ k, k ≠ instStream →
      ∀ stmt ∈ (cache.context vm p qIn qOut ipOffset).stackPointerUpdate2 k, cache.IsLocal k stmt :=
    fun k _ => isLocal_stackPointerUpdate2 ipOffset
  have hupdate := fun k (hk : k ≠ instStream) (hlt : k < vm.nextStackNumber) =>
    run_mapStacks1 c.program _ hlocal hk hlt (c.program m)
  have houtside := run_mapStacks1_outside c.program vm hlocal (c.program m)
  -- the C code sees the popped items and the synced stacks
  have hscene : SameFor p.stacksSync (m.scene vm (p.popped start).operands) (p.popped start) := by
    refine ⟨hm.vars, hm.world.trans (p.popped_world start).symm, fun k hsync => ?_⟩
    rcases hwf.sync k hsync with ⟨hk, hlt⟩
    refine (deep_inMemory_iff.mp (hm.memory k hk hlt hsync)).trans ?_
    funext n
    exact (p.popped_stack start hk n).symm
  have hact := c.act_same _ _ hscene
  have hprogram := c.program_same m (p.popped start).operands
  -- stacks that are not synced stay as they are
  have hagree : ∀ k, k ≠ instStream → p.stacksSync k = false → cache.Agree k m (c.program m) := by
    intro k hk hsync
    refine ⟨(c.program_pointer m k hk hsync).symm, fun l hl => ?_⟩
    cases l with
    | reg r => exact (c.program_reg m r).symm
    | cell k' a =>
        have hk' : k' = k := hl
        subst hk'
        exact (c.program_cell m k' a hk hsync).symm
    | var name part => exact hl.elim
    | temp k' n => exact hl.elim
  have hvars : (c.program m).vars = (c.act (p.popped start)).vars :=
    hprogram.vars.trans hact.vars
  refine ⟨?_, ?_, ?_, ?_⟩
  · rw [← hvars]
    funext name part
    exact houtside.var name part
  · exact houtside.world.trans (hprogram.world.trans hact.world)
  · intro k hk hlt
    cases hsync : p.stacksSync k with
    | false =>
        have hresult : (c.act (p.popped start)).stack k = fun j => start.stack k (p.stacksIn k + j) := by
          rw [c.act_stacks _ k hsync]
          funext n
          exact p.popped_stack start hk n
        have hunchanged := hupdate k hk hlt
        rw [stackPointerUpdate2_eq_nil hsync] at hunchanged
        rw [hresult]
        exact ((hm.deep k hk hlt hsync).congr (hagree k hk hsync)).congr hunchanged
    | true =>
        have hmemory : (c.program m).memory vm k = (c.act (p.popped start)).stack k :=
          (hprogram.stack k hsync).trans (hact.stack k hsync)
        exact (stackPointerUpdate2_sync c.program hk hsync ipOffset
          (deep_inMemory_iff.mpr hmemory)).congr (hupdate k hk hlt)
  · intro item hitem hskip
    rcases skips_spec hskip with ⟨hopt, -, hsync, ⟨first, hfirst, hname, hstack, hoffset⟩, -⟩
    have hk := hwf.stack_ne _ (mem_computeOffsets hitem).1
    have hlt := hwf.stack_lt _ (mem_computeOffsets hitem).1
    have hunchanged := hupdate item.stack hk hlt
    rw [stackPointerUpdate2_eq_nil hsync] at hunchanged
    have hboth := (hagree item.stack hk hsync).trans hunchanged
    unfold Context.stackPointerUpdates2
    rw [context_vm, ← hboth.pointer, ← hboth.cells _ (owns_deepLoc _ _ _ _ _ _ _ _),
      hm.skipped item hitem hskip, ← hname]
    rw [c.act_vars hopt _ first.toDecl (mem_computeOffsets hfirst).1 item.toDecl
        (mem_computeOffsets hitem).1 hname,
      p.popped_item hwf.distinctNames start hfirst (by rwa [hstack]) first.type.size_pos,
      hstack, hoffset, Nat.add_zero]

/-- The results are stored, and the caches are filled. -/
theorem view_of_computed (hwf : p.WellFormed vm) {result : Scene V W}
    (hm : Computed cache vm p qIn qOut ipOffset result m) {k : Nat} (hk : k ≠ instStream)
    (hlt : k < vm.nextStackNumber) :
    (run code m ((cache.context vm p qIn qOut ipOffset).stores false
        (cache.context vm p qIn qOut ipOffset).stackWrite ++
          (cache.context vm p qIn qOut ipOffset).fillState)).view vm (cache.state qOut) k =
      p.declsOut.foldl (Decl.push result.vars) result.stack k := by
  have hlocal : ∀ k, k ≠ instStream → ∀ stmt ∈ (cache.context vm p qIn qOut ipOffset).fillStack k,
      cache.IsLocal k stmt := fun k hk => isLocal_fillStack _ _ hk ipOffset
  rw [run_append, Context.stores_eq, run_stmtsOfMoves]
  generalize hm' : (⟨m.pointer, assignAll m.cells (locMoves m.pointer
    ((cache.context vm p qIn qOut ipOffset).stored.flatMap
      ((cache.context vm p qIn qOut ipOffset).storeMoves
        (cache.context vm p qIn qOut ipOffset).stackWrite))), m.world⟩ : Machine V W) = m'
  have hdeep : cache.Deep vm qOut k (p.stacksOut k) (kept p qIn qOut k) m' (result.stack k) := by
    intro j
    rw [← hm.deep k hk hlt j, ← hm']
    apply not_stored hwf
    intro item hitem _ part _ heq
    have hle := p.offset_le_out hitem
    have hstack := deepLoc_unique heq
    subst hstack
    exact deepLoc_ne_of_lt (kept_le_out p qIn qOut item.stack) (by omega) heq
  have htop : ∀ n < p.stacksOut k, m'.view vm (cache.state qOut) k n =
      p.declsOut.foldl (Decl.push result.vars) result.stack k n := by
    intro n hn
    rw [p.stacksOut_eq] at hn
    rcases exists_item (fun _ => 0) hn with ⟨item, hitem, part, hpart, rfl, hplace⟩
    have hpushed := foldl_push_item result.vars result.stack hitem hpart
    rw [← hplace] at hpushed
    rw [hpushed]
    have hn' : n = p.stacksOut item.stack - 1 - (item.offset + part) := by
      rw [hplace, p.stacksOut_eq, Nat.zero_add]
    simp only [Machine.view]
    rw [access_loc hk, hn', ← hm']
    cases hskip : (cache.context vm p qIn qOut ipOffset).skips item with
    | false =>
        refine (stored_item hwf m.cells m.pointer hitem hskip hpart).trans ?_
        exact congrFun (congrFun hm.vars item.name) part
    | true =>
        obtain rfl := part_of_skips hskip hpart
        rw [← hm.skipped item hitem hskip]
        exact not_stored_skipped hwf m.cells m.pointer hitem hskip
  refine (view_congr hk (run_mapStacks1 code _ hlocal hk hlt m')).trans ?_
  funext n
  rw [fillStack_view code hk ipOffset hdeep htop n]
  split
  · rfl
  · rename_i hn
    rw [p.stacksOut_eq] at hn ⊢
    have hrest := foldl_push_add result.vars p.declsOut result.stack k (n - itemCount p.declsOut k)
    rw [Nat.sub_add_cancel (by omega)] at hrest
    exact hrest.symm

/-- The stores do not change the world. -/
theorem world_of_computed {result : Scene V W}
    (hm : Computed cache vm p qIn qOut ipOffset result m) :
    (run code m ((cache.context vm p qIn qOut ipOffset).stores false
        (cache.context vm p qIn qOut ipOffset).stackWrite ++
          (cache.context vm p qIn qOut ipOffset).fillState)).world = result.world := by
  have hlocal : ∀ k, k ≠ instStream → ∀ stmt ∈ (cache.context vm p qIn qOut ipOffset).fillStack k,
      cache.IsLocal k stmt := fun k hk => isLocal_fillStack _ _ hk ipOffset
  rw [run_append, Context.stores_eq, run_stmtsOfMoves]
  exact (run_mapStacks1_outside code vm hlocal _).world.trans hm.world

end Stores

/-! ## Primitives -/

variable (cache : SimpleCache) (qIn qOut : CacheState)

/-- The code behind the first label, with an instruction pointer that may lag behind -/
theorem outputLabel1_correct (hwf : p.WellFormed vm) (c : Code vm p V W) (ipOffset : Int)
    (m : Machine V W) :
    (∀ k, k ≠ instStream → k < vm.nextStackNumber →
      (run c.program m (cache.context vm p qIn qOut ipOffset).outputLabel1).view vm
          (cache.state qOut) k =
        (p.effect c.act (m.start vm p (cache.state qIn) ipOffset)).stack k) ∧
    (run c.program m (cache.context vm p qIn qOut ipOffset).outputLabel1).world =
      (p.effect c.act (m.start vm p (cache.state qIn) ipOffset)).world := by
  have hfetched := fetched_of_run cache qIn qOut ipOffset c.program hwf m
  have hupdated := updated_of_fetched ipOffset c.program hwf hfetched
  have hcomputed := computed_of_updated hwf c hupdated
  have hrun : run c.program m (cache.context vm p qIn qOut ipOffset).outputLabel1 =
      run c.program (run c.program (c.program (run c.program (run c.program m
        ((cache.context vm p qIn qOut ipOffset).spillState ++
          (cache.context vm p qIn qOut ipOffset).fetches
            (cache.context vm p qIn qOut ipOffset).stackRead))
        (cache.context vm p qIn qOut ipOffset).stackPointerUpdates))
        (cache.context vm p qIn qOut ipOffset).stackPointerUpdates2)
        ((cache.context vm p qIn qOut ipOffset).stores false
          (cache.context vm p qIn qOut ipOffset).stackWrite ++
            (cache.context vm p qIn qOut ipOffset).fillState) := by
    unfold Context.outputLabel1
    simp only [run_append, run_cons, run_nil]
    rfl
  rw [hrun]
  constructor
  · intro k hk hlt
    exact view_of_computed c.program hwf hcomputed hk hlt
  · have hworld := world_of_computed c.program hcomputed
    exact hworld

/-- The whole code, whose operands are behind the instruction -/
theorem outputC_effect (hwf : p.WellFormed vm) (c : Code vm p V W) (ipOffset : Int)
    (m : Machine V W) :
    (∀ k, k ≠ instStream → k < vm.nextStackNumber →
      (run c.program m (cache.context vm p qIn qOut ipOffset).outputC).view vm (cache.state qOut) k =
        (p.effect c.act (m.start vm p (cache.state qIn)
          (p.stacksIn instStream + 1 + ipOffset))).stack k) ∧
    (run c.program m (cache.context vm p qIn qOut ipOffset).outputC).world =
      (p.effect c.act (m.start vm p (cache.state qIn)
        (p.stacksIn instStream + 1 + ipOffset))).world := by
  have hearly : run c.program m (cache.context vm p qIn qOut ipOffset).ipUpdateEarly =
      { m with
        pointer := Function.update m.pointer instStream
          (m.pointer instStream + (p.stacksIn instStream + 1)) } := by
    unfold Context.ipUpdateEarly Context.updateStackPointer
    simp only [if_true, context_prim]
    rw [if_neg (by omega)]
    rfl
  have hlabel := outputLabel1_correct cache qIn qOut hwf c ipOffset { m with
    pointer := Function.update m.pointer instStream
      (m.pointer instStream + (p.stacksIn instStream + 1)) }
  rw [Machine.start_update] at hlabel
  unfold Context.outputC
  rw [run_append, hearly]
  exact hlabel

/-- For every stack effect, every pair of states of a simple stack cache, and every content of the
registers and the memory, the generated code does to the stacks and the world what the stack effect
and the C code say.  This holds for code that is copied from the first label on, where the instruction
pointer may lag behind by {lit}`ip-offset` cells, and for the whole code. -/
theorem outputC_correct (hwf : p.WellFormed vm) (c : Code vm p V W) (ipOffset : Int)
    (m : Machine V W) :
    ((∀ k, k ≠ instStream → k < vm.nextStackNumber →
      (run c.program m (cache.context vm p qIn qOut ipOffset).outputLabel1).view vm
          (cache.state qOut) k =
        (p.effect c.act (m.start vm p (cache.state qIn) ipOffset)).stack k) ∧
      (run c.program m (cache.context vm p qIn qOut ipOffset).outputLabel1).world =
        (p.effect c.act (m.start vm p (cache.state qIn) ipOffset)).world) ∧
    (∀ k, k ≠ instStream → k < vm.nextStackNumber →
      (run c.program m (cache.context vm p qIn qOut ipOffset).outputC).view vm (cache.state qOut) k =
        (p.effect c.act (m.start vm p (cache.state qIn)
          (p.stacksIn instStream + 1 + ipOffset))).stack k) ∧
    (run c.program m (cache.context vm p qIn qOut ipOffset).outputC).world =
      (p.effect c.act (m.start vm p (cache.state qIn)
        (p.stacksIn instStream + 1 + ipOffset))).world :=
  ⟨outputLabel1_correct cache qIn qOut hwf c ipOffset m, outputC_effect cache qIn qOut hwf c ipOffset m⟩

/-! ### Addition between states with the top of stack in a register -/

/-- A machine with a data stack that grows towards lower addresses -/
def dataVm : Vm where
  nextStackNumber := 2
  stackAccessTransform _ n := n
  transform_add _ a b := by ring
  transform_injective _ _ _ h := h
  transform_instStream _ := rfl
  storeOptimization := true

/-- {lit}`+ ( n1 n2 -- n )` -/
def plus : Prim where
  declsIn := [⟨"n1", 1, .single⟩, ⟨"n2", 1, .single⟩]
  declsOut := [⟨"n", 1, .single⟩]
  stacksSync _ := false
  superend := false

/-- {lit}`+` is well formed. -/
theorem plus_wellFormed : plus.WellFormed dataVm where
  distinctNames := by simp [DistinctNames, plus]
  stack_lt := by simp [plus, dataVm]
  stackIn_lt := by simp [plus, dataVm]
  stack_ne := by simp [plus, instStream]
  sync := by simp [plus]

/-- {lit}`n = n1+n2;` -/
def plusCode : Code dataVm plus Int Unit where
  act s := { s with vars := setVar s.vars "n" 0 (s.vars "n1" 0 + s.vars "n2" 0) }
  act_same s s' h := by
    constructor
    · simp only [h.vars]
    · rfl
    · intro k hk
      cases hk
  act_stacks _ _ _ := rfl
  act_vars _ s d hd d' hd' hname := by
    simp only [plus, List.mem_cons, List.not_mem_nil, or_false] at hd hd'
    rcases hd with rfl | rfl <;> subst hd' <;> simp at hname
  program m := { m with
    cells := Function.update m.cells (.var "n" 0) (m.cells (.var "n1" 0) + m.cells (.var "n2" 0)) }
  program_same m operands := by
    constructor
    · funext name part
      simp only [Machine.scene, Machine.vars, setVar, Function.update_apply]
      by_cases hname : name = "n" <;> by_cases hpart : part = 0 <;> simp [Machine.vars, hname, hpart]
    · rfl
    · intro k hk
      cases hk
  program_reg _ _ := by simp
  program_temp _ _ _ := by simp
  program_pointer _ _ _ _ := rfl
  program_cell _ _ _ _ _ := by simp

/-- A register for every item of every stack -/
def pairCache : SimpleCache where
  reg := Nat.pair
  reg_injective h := by
    rw [Nat.pair_eq_pair] at h
    exact h

/-- One item of every stack is in a register. -/
def topState : CacheState where
  items _ := 1
  offset _ := 1

/-- The top of stack is 3, everything else is 4. -/
def threeOnTop : Machine Int Unit where
  pointer _ := 0
  cells l := if l = .reg (Nat.pair 1 0) then 3 else 4
  world := ()

/-- {lit}`+` adds the two items in the cache to seven. -/
theorem outputC_correct_plus :
    (run plusCode.program threeOnTop
      (pairCache.context dataVm plus topState topState 0).outputC).view dataVm
        (pairCache.state topState) 1 0 = 7 := by
  have hplus := outputC_correct pairCache topState topState plus_wellFormed plusCode 0 threeOnTop
  rw [hplus.2.1 1 (by decide) (by decide)]
  rfl

/-! ## Items in front of a primitive and behind it -/

/-- The stacks of a machine in a cache state -/
def Machine.Represents (vm : Vm) (st : State) (m : Machine V W) (stack : Nat → Nat → V) : Prop :=
  ∀ k, k ≠ instStream → k < vm.nextStackNumber → m.view vm st k = stack k

/-- The operands of an instruction have some values; {lit}`ipOffset` leads to the next instruction. -/
def Prim.HasOperands (p : Prim) (ipOffset : Int) (values : String → Nat → V) (m : Machine V W) : Prop :=
  ∀ item ∈ p.effectIn, item.stack = instStream → ∀ part < item.type.size,
    m.cells (.cell instStream (m.pointer instStream + ipOffset - p.stacksIn instStream +
      (item.offset + item.type.size - 1 - part : Nat))) = values item.name part

/-- The code of a primitive takes the items of its input side from the stacks, and leaves those of its
output side there: {lit}`s` is what the C code starts with. -/
structure Code.Transforms (c : Code vm p V W) (st : State) (stack : Nat → Nat → V)
    (values : String → Nat → V) (m m' : Machine V W) (s : Scene V W) : Prop where
  /-- The items are fetched. -/
  fetched : ∀ item ∈ p.effectIn, ∀ part < item.type.size,
    s.vars item.name part = values item.name part
  below : ∀ k, k ≠ instStream → k < vm.nextStackNumber → s.stack k = stack k
  world : s.world = m.world
  /-- The results of the C code are stored. -/
  represents : m'.Represents vm st (p.declsOut.foldl (Decl.push (c.act s).vars) (c.act s).stack)
  world_eq : m'.world = (c.act s).world
  /-- Deeper items stay as they are, except on stacks that the C code gets in memory. -/
  deeper : ∀ k, k ≠ instStream → k < vm.nextStackNumber → p.stacksSync k = false →
    (c.act s).stack k = stack k
  /-- Items on both sides keep their values where stores are optimized. -/
  kept : vm.storeOptimization = true → ∀ item ∈ p.effectIn, ∀ d ∈ p.declsOut, item.name = d.name →
    ∀ part < item.type.size, (c.act s).vars item.name part = values item.name part

/-- What was pushed is popped into variables. -/
theorem transforms_of_effect (hwf : p.WellFormed vm) (c : Code vm p V W) {ipOffset : Int}
    {m m' : Machine V W} {stack : Nat → Nat → V} {values : String → Nat → V}
    (hstack : m.Represents vm (cache.state qIn) (p.declsIn.foldl (Decl.push values) stack))
    (hoperands : p.HasOperands ipOffset values m)
    (heffect : ∀ k, k ≠ instStream → k < vm.nextStackNumber →
      m'.view vm (cache.state qOut) k =
        (p.effect c.act (m.start vm p (cache.state qIn) ipOffset)).stack k)
    (hworld : m'.world = (p.effect c.act (m.start vm p (cache.state qIn) ipOffset)).world) :
    ∃ s, c.Transforms (cache.state qOut) stack values m m' s := by
  have hvars : ∀ item ∈ p.effectIn, ∀ part < item.type.size,
      (p.popped (m.start vm p (cache.state qIn) ipOffset)).vars item.name part =
        values item.name part := by
    intro item hitem part hpart
    by_cases hk : item.stack = instStream
    · rw [p.popped_operand hwf.distinctNames _ hitem hk hpart]
      exact hoperands item hitem hk part hpart
    · have hpushed := foldl_push_item values stack hitem hpart
      rw [Nat.zero_add, ← p.stacksIn_eq] at hpushed
      rw [p.popped_item hwf.distinctNames _ hitem hk hpart, Machine.start_stack _ _ hk,
        hstack _ hk (hwf.stackIn_lt _ (mem_computeOffsets hitem).1), hpushed]
  have hbelow : ∀ k, k ≠ instStream → k < vm.nextStackNumber →
      (p.popped (m.start vm p (cache.state qIn) ipOffset)).stack k = stack k := by
    intro k hk hlt
    funext n
    rw [p.popped_stack _ hk, Machine.start_stack _ _ hk, hstack k hk hlt, p.stacksIn_eq, Nat.add_comm,
      foldl_push_add]
  refine ⟨p.popped (m.start vm p (cache.state qIn) ipOffset), hvars, hbelow, ?_, heffect, hworld, ?_, ?_⟩
  · rw [p.popped_world]
    rfl
  · intro k hk hlt hsync
    rw [c.act_stacks _ k hsync]
    exact hbelow k hk hlt
  · intro hopt item hitem d hd hname part hpart
    rw [c.act_vars hopt _ item.toDecl (mem_computeOffsets hitem).1 d hd hname]
    exact hvars item hitem part hpart

/-- If the stacks have the items of the input side on top in one state of a simple stack cache, the
generated code leaves the items of the output side on top in the other state, and everything below as
it was.  This holds for every stack effect, all states, and every content of the registers and the
memory, for code that is copied from the first label on and for the whole code. -/
theorem outputC_transforms (hwf : p.WellFormed vm) (c : Code vm p V W) (ipOffset : Int)
    (m : Machine V W) (stack : Nat → Nat → V) (values : String → Nat → V)
    (hstack : m.Represents vm (cache.state qIn) (p.declsIn.foldl (Decl.push values) stack)) :
    (p.HasOperands ipOffset values m →
      ∃ s, c.Transforms (cache.state qOut) stack values m
        (run c.program m (cache.context vm p qIn qOut ipOffset).outputLabel1) s) ∧
    (p.HasOperands (p.stacksIn instStream + 1 + ipOffset) values m →
      ∃ s, c.Transforms (cache.state qOut) stack values m
        (run c.program m (cache.context vm p qIn qOut ipOffset).outputC) s) := by
  have hlabel := outputLabel1_correct cache qIn qOut hwf c ipOffset m
  have hwhole := outputC_effect cache qIn qOut hwf c ipOffset m
  constructor
  · intro hoperands
    exact transforms_of_effect cache qIn qOut hwf c hstack hoperands hlabel.1 hlabel.2
  · intro hoperands
    exact transforms_of_effect cache qIn qOut hwf c hstack hoperands hwhole.1 hwhole.2

/-- {lit}`+` takes 4 and 3 from a data stack with the top in a register, and leaves 7. -/
theorem outputC_transforms_plus :
    ∃ s, plusCode.Transforms (pairCache.state topState) (fun _ _ => 4)
      (fun name _ => if name = "n1" then 4 else 3) threeOnTop
      (run plusCode.program threeOnTop (pairCache.context dataVm plus topState topState 0).outputC) s ∧
      (plusCode.act s).vars "n" 0 = 7 := by
  have hstack : threeOnTop.Represents dataVm (pairCache.state topState)
      (plus.declsIn.foldl (Decl.push fun name _ => if name = "n1" then 4 else 3) fun _ _ => 4) := by
    intro k hk hlt
    have hone : k = 1 := by
      simp only [instStream, dataVm] at hk hlt
      omega
    subst hone
    funext n
    rcases n with _ | _ | n
    · rfl
    · rfl
    · simp only [Machine.view]
      rw [access_of_ge hk (by simp [topState])]
      simp [plus, Decl.push, Place.loc, threeOnTop]
  rcases (outputC_transforms pairCache topState topState plus_wellFormed plusCode 0 threeOnTop
    (fun _ _ => 4) (fun name _ => if name = "n1" then 4 else 3) hstack).2
      (by simp [Prim.HasOperands, plus, Prim.effectIn, computeOffsets, instStream]) with ⟨s, hs⟩
  have hn1 := hs.fetched ⟨⟨"n1", 1, .single⟩, 0⟩ (by decide) 0 (by decide)
  have hn2 := hs.fetched ⟨⟨"n2", 1, .single⟩, 1⟩ (by decide) 0 (by decide)
  refine ⟨s, hs, ?_⟩
  simp [plusCode, hn1, hn2]

end Vmgen
end Gforth
