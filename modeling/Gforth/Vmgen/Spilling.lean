import Mathlib.Tactic.Linarith
import Gforth.Vmgen.Effects
import Gforth.Vmgen.Locality

/-!
# Spills, moves and fills of one stack

The items of a stack that a primitive does not use stay where they are, or are moved between
registers, or go to memory, or come from there.  For one stack, this module follows these items
through the generated statements.

Main results:

- Theorem {lit}`spillStack_deep`: after the spills, the items are where the moves and fills expect them.
- Theorems {lit}`stackPointerUpdate_deep`, {lit}`stackPointerUpdate_sync` and
  {lit}`stackPointerUpdate2_sync`: the update of the stack pointer, with the moves.
- Theorem {lit}`fillStack_view`: after the fills, all items are where the next state has them.
-/

namespace Gforth
namespace Vmgen

open Lib

variable {V W : Type*}

namespace SimpleCache

variable (cache : SimpleCache) (vm : Vm) (p : Prim) (qIn qOut : CacheState)

/-- The generator between two states of a simple stack cache -/
def context (ipOffset : Int) : Context where
  vm := vm
  prim := p
  stateIn := cache.state qIn
  stateOut := cache.state qOut
  ipOffset1 := p.stacksIn instStream + 1
  ipOffset := ipOffset

@[simp]
theorem context_vm (ipOffset : Int) : (cache.context vm p qIn qOut ipOffset).vm = vm :=
  rfl

@[simp]
theorem context_prim (ipOffset : Int) : (cache.context vm p qIn qOut ipOffset).prim = p :=
  rfl

/-- The number of items of a stack that stay in registers without being used -/
def kept (k : Nat) : Nat :=
  if p.stacksSync k then 0 else min (qIn.items k - p.stacksIn k) (qOut.items k - p.stacksOut k)

/-- The items that stay are in the registers of the state before. -/
theorem kept_le_in (k : Nat) : kept p qIn qOut k ≤ qIn.items k - p.stacksIn k := by
  unfold kept
  split
  · exact Nat.zero_le _
  · exact Nat.min_le_left _ _

/-- The items that stay are in the registers of the state behind. -/
theorem kept_le_out (k : Nat) : kept p qIn qOut k ≤ qOut.items k - p.stacksOut k := by
  unfold kept
  split
  · exact Nat.zero_le _
  · exact Nat.min_le_right _ _

/-- Where an unused item of a stack is, counted from the first unused one, if some of these items are
in registers -/
def deepLoc (q : CacheState) (k used kept : Nat) (pointer : Int) (j : Nat) : Loc :=
  if j < kept then .reg (cache.reg k (q.items k - 1 - (used + j)))
  else .cell k (pointer + vm.stackAccessTransform k (used + j - q.offset k))

/-- The unused items of a stack are where they should be. -/
def Deep (q : CacheState) (k used kept : Nat) (m : Machine V W) (f : Nat → V) : Prop :=
  ∀ j, m.cells (cache.deepLoc vm q k used kept (m.pointer k) j) = f j

/-- All items are in memory. -/
def inMemory : CacheState where
  items _ := 0
  offset _ := 0

variable {cache vm p qIn qOut} {k : Nat}

/-! ## Places -/

@[simp]
theorem stackStateItems_state (q : CacheState) : stackStateItems k (cache.state q) = q.items k := by
  simp [stackStateItems, state]

variable {q : CacheState} {m : Machine V W} {f : Nat → V}

/-- An item of the cache is in its register. -/
theorem stackReg_of_lt {n : Nat} (h : n < q.items k) :
    stackReg n k (cache.state q) = some (cache.reg k (q.items k - 1 - n)) := by
  unfold stackReg
  rw [if_pos (by omega), Int.toNat_natCast]
  have hlt : n < ((List.range (q.items k)).map (cache.reg k)).length := by simpa using h
  rw [state, List.getElem?_reverse hlt]
  simp only [List.length_map, List.length_range, List.getElem?_map]
  rw [List.getElem?_range (by omega)]
  rfl

/-- An item that is not in the cache has no register. -/
theorem stackReg_of_ge {n : Int} (h : n < 0 ∨ q.items k ≤ n) :
    stackReg n k (cache.state q) = none := by
  unfold stackReg
  split
  · rename_i hn
    apply List.getElem?_eq_none
    simp only [state, List.length_reverse, List.length_map, List.length_range]
    omega
  · rfl

/-- Counted from the bottom, an item of the cache is in the register of that number. -/
theorem stackBottomReg_of_lt {i : Nat} (h : i < q.items k) :
    stackBottomReg i k (cache.state q) = some (cache.reg k i) := by
  unfold stackBottomReg
  have hindex : (stackStateItems k (cache.state q) : Int) - i - 1 =
      ((q.items k - 1 - i : Nat) : Int) := by
    rw [stackStateItems_state]
    omega
  rw [hindex, stackReg_of_lt (by omega)]
  congr 2
  omega

theorem access_of_lt {n : Nat} (hk : k ≠ instStream) (h : n < q.items k) :
    vm.normalStackAccess n k (cache.state q) = .reg (cache.reg k (q.items k - 1 - n)) := by
  unfold Vm.normalStackAccess
  rw [if_neg hk, stackReg_of_lt h]

/-- An item behind the cache is accessed in its cell. -/
theorem access_of_ge {n : Nat} (hk : k ≠ instStream) (h : q.items k ≤ n) :
    vm.normalStackAccess n k (cache.state q) =
      .cell k (vm.stackAccessTransform k (n - q.offset k)) := by
  unfold Vm.normalStackAccess
  rw [if_neg hk, stackReg_of_ge (Or.inr (by omega))]
  rfl

/-- An access is to the place of the item. -/
theorem access_loc (hk : k ≠ instStream) (pointer : Nat → Int) (n : Nat) :
    (vm.normalStackAccess n k (cache.state q)).loc pointer =
      cache.deepLoc vm q k 0 (q.items k) (pointer k) n := by
  unfold deepLoc
  by_cases h : n < q.items k
  · rw [access_of_lt hk h, if_pos h, Nat.zero_add]
    rfl
  · rw [access_of_ge hk (by omega), if_neg h]
    simp [Place.loc]

variable (cache vm k) in
/-- The places of the deeper items belong to their stack. -/
theorem owns_deepLoc (q : CacheState) (used kept : Nat) (pointer : Int) (j : Nat) :
    cache.Owns k (cache.deepLoc vm q k used kept pointer j) := by
  unfold deepLoc
  split
  · exact ⟨_, rfl⟩
  · rfl

/-- The place of a deeper item is not a variable. -/
theorem deepLoc_ne_var (q : CacheState) (used kept : Nat) (pointer : Int) (j : Nat) {name : String}
    {part : Nat} : cache.deepLoc vm q k used kept pointer j ≠ .var name part := by
  intro heq
  have howns := owns_deepLoc cache vm k q used kept pointer j
  rw [heq] at howns
  exact howns

/-- The place of a deeper item is not a temporary. -/
theorem deepLoc_ne_temp (q : CacheState) (used kept : Nat) (pointer : Int) (j : Nat) {k' : Nat}
    {n : Int} : cache.deepLoc vm q k used kept pointer j ≠ .temp k' n := by
  intro heq
  have howns := owns_deepLoc cache vm k q used kept pointer j
  rw [heq] at howns
  exact howns

/-- An unused item is in no place of an item on top. -/
theorem deepLoc_ne_of_lt {used kept : Nat} (hkept : kept ≤ q.items k - used) {pointer : Int}
    {j n : Nat} (hn : n < used) :
    cache.deepLoc vm q k used kept pointer j ≠ cache.deepLoc vm q k 0 (q.items k) pointer n := by
  intro heq
  unfold deepLoc at heq
  split at heq
  · split at heq
    · have := (cache.reg_injective (Loc.reg.inj heq)).2
      omega
    · cases heq
  · split at heq
    · cases heq
    · have := vm.transform_injective _ (Int.add_left_cancel (Loc.cell.inj heq).2)
      omega

/-- Without cached items the deeper items are those in memory. -/
theorem deep_inMemory_iff : cache.Deep vm inMemory k 0 0 m f ↔ m.memory vm k = f := by
  rw [funext_iff]
  apply forall_congr'
  intro j
  simp [deepLoc, inMemory, Machine.memory]

/-- Items of different stacks are in different places. -/
theorem deepLoc_unique {q q' : CacheState} {k' used used' kept kept' : Nat} {pointer pointer' : Int}
    {j j' : Nat} (h : cache.deepLoc vm q k used kept pointer j =
      cache.deepLoc vm q' k' used' kept' pointer' j') : k = k' := by
  have howns := owns_deepLoc cache vm k q used kept pointer j
  rw [h] at howns
  exact howns.unique (owns_deepLoc _ _ _ q' used' kept' pointer' j')

theorem Deep.congr {used kept : Nat} {m m' : Machine V W} (h : cache.Deep vm q k used kept m f)
    (hm : cache.Agree k m m') : cache.Deep vm q k used kept m' f := by
  intro j
  rw [← h j, ← hm.pointer, hm.cells _ (owns_deepLoc _ _ _ q used kept _ j)]

/-- What a stack holds depends only on its own places. -/
theorem view_congr {m m' : Machine V W} (hk : k ≠ instStream) (hm : cache.Agree k m m') :
    m'.view vm (cache.state q) k = m.view vm (cache.state q) k := by
  funext n
  unfold Machine.view
  rw [access_loc hk, access_loc hk, ← hm.pointer, hm.cells _ (owns_deepLoc _ _ _ q 0 _ _ n)]

/-- Different unused items are in different places. -/
theorem deepLoc_injective {used kept : Nat} (hkept : used + kept ≤ q.items k ∨ kept = 0)
    (pointer : Int) : Function.Injective (cache.deepLoc vm q k used kept pointer) := by
  intro j j' h
  unfold deepLoc at h
  by_cases hj : j < kept <;> by_cases hj' : j' < kept
  · rw [if_pos hj, if_pos hj'] at h
    have := (cache.reg_injective (Loc.reg.inj h)).2
    omega
  · rw [if_pos hj, if_neg hj'] at h
    cases h
  · rw [if_neg hj, if_pos hj'] at h
    cases h
  · rw [if_neg hj, if_neg hj'] at h
    have := vm.transform_injective k (Int.add_left_cancel (Loc.cell.inj h).2)
    omega

/-! ## Numbers of items -/

/-- The indices of the items in registers that are not used and not kept -/
theorem plusDo_unused (items used other : Nat) :
    plusDo items (items + ((other : Int) - ((items - used : Nat) : Int))) =
      (List.range (items - (used + min (items - used) other))).map fun j : Nat =>
        ((used + min (items - used) other + j : Nat) : Int) := by
  unfold plusDo
  have hlength : ((items : Int) - (items + ((other : Int) - ((items - used : Nat) : Int)))).toNat =
      items - (used + min (items - used) other) := by omega
  rw [hlength]
  apply List.map_congr_left
  intro j hj
  rw [List.mem_range] at hj
  omega

variable (cache vm p qIn qOut k) in
/-- The items that are spilled. -/
theorem plusDo_spill (ipOffset : Int) :
    plusDo (qIn.items k)
        (qIn.items k + (cache.context vm p qIn qOut ipOffset).spillStackItems k) =
      (List.range (qIn.items k - (p.stacksIn k + kept p qIn qOut k))).map fun j : Nat =>
        ((p.stacksIn k + kept p qIn qOut k + j : Nat) : Int) := by
  unfold Context.spillStackItems Context.unusedStackItems kept context
  simp only [stackStateItems_state]
  by_cases hsync : p.stacksSync k = true
  · rw [if_pos hsync, if_pos hsync]
    have hunused := plusDo_unused (qIn.items k) (p.stacksIn k) 0
    rwa [Nat.min_zero] at hunused
  · rw [if_neg hsync, if_neg hsync]
    exact plusDo_unused _ _ _

variable (cache vm p qIn qOut k) in
/-- The items that are filled. -/
theorem plusDo_fill (ipOffset : Int) :
    plusDo (qOut.items k)
        (qOut.items k + (cache.context vm p qIn qOut ipOffset).fillStackItems k) =
      (List.range (qOut.items k - (p.stacksOut k + kept p qIn qOut k))).map fun j : Nat =>
        ((p.stacksOut k + kept p qIn qOut k + j : Nat) : Int) := by
  unfold Context.fillStackItems Context.unusedStackItems kept context
  simp only [stackStateItems_state]
  by_cases hsync : p.stacksSync k = true
  · rw [if_pos hsync, if_pos hsync]
    have hunused := plusDo_unused (qOut.items k) (p.stacksOut k) 0
    rwa [Nat.min_zero] at hunused
  · rw [if_neg hsync, if_neg hsync, Nat.min_comm]
    exact plusDo_unused _ _ _

/-! ## Spills -/

variable (code : Machine V W → Machine V W)

/-- What the spills of a stack do -/
def spillMoves (cache : SimpleCache) (vm : Vm) (p : Prim) (qIn qOut : CacheState) (k : Nat) :
    List (Move Place) :=
  (List.range (qIn.items k - (p.stacksIn k + kept p qIn qOut k))).map fun j : Nat =>
    ⟨.cell k (vm.stackAccessTransform k
        (((p.stacksIn k + kept p qIn qOut k + j : Nat) : Int) - qIn.offset k)),
      .reg (cache.reg k (qIn.items k - 1 - (p.stacksIn k + kept p qIn qOut k + j)))⟩

/-- {lit}`spill-stack` is a list of moves. -/
theorem spillStack_eq (hk : k ≠ instStream) (ipOffset : Int) :
    (cache.context vm p qIn qOut ipOffset).spillStack k =
      stmtsOfMoves (cache.spillMoves vm p qIn qOut k) := by
  have hindices := plusDo_spill cache vm p qIn qOut k ipOffset
  unfold Context.spillStack stmtsOfMoves spillMoves
  simp only [context, stackStateItems_state, List.map_map] at hindices ⊢
  rw [hindices, List.map_map]
  apply List.map_congr_left
  intro j hj
  rw [List.mem_range] at hj
  simp only [Function.comp_apply]
  rw [access_of_lt hk (by omega)]
  rfl

/-- No move of {lit}`spill-stack` reads what an earlier one has written. -/
theorem sequenced_spillMoves (pointer : Nat → Int) :
    Sequenced (locMoves pointer (cache.spillMoves vm p qIn qOut k)) := by
  unfold Sequenced locMoves spillMoves
  rw [List.map_map, List.pairwise_map]
  apply List.pairwise_lt_range.imp
  intro j j' hlt
  refine ⟨fun h => ?_, fun h => by cases h⟩
  have := vm.transform_injective k (Int.add_left_cancel (Loc.cell.inj h).2)
  omega

variable (cache vm p qIn qOut) in
/-- The spills leave all items where they were, in addition to where they put them. -/
theorem spillStack_view (hk : k ≠ instStream) (ipOffset : Int) (m : Machine V W) :
    (run code m ((cache.context vm p qIn qOut ipOffset).spillStack k)).view vm (cache.state qIn) k =
      m.view vm (cache.state qIn) k := by
  rw [spillStack_eq hk, run_stmtsOfMoves]
  funext n
  unfold Machine.view
  apply assignAll_of_not_target
  intro move hmove heq
  simp only [locMoves, spillMoves, List.map_map, List.mem_map, List.mem_range,
    Function.comp_apply] at hmove
  rcases hmove with ⟨j, hj, rfl⟩
  rw [access_loc hk] at heq
  unfold deepLoc at heq
  by_cases hn : n < qIn.items k
  · rw [if_pos hn] at heq
    cases heq
  · rw [if_neg hn] at heq
    have := vm.transform_injective k (Int.add_left_cancel (Loc.cell.inj heq).2)
    omega

variable (cache vm p qIn qOut) in
/-- After the spills, the items that are kept are in registers, and the others are in memory. -/
theorem spillStack_deep (hk : k ≠ instStream) (ipOffset : Int) (m : Machine V W) :
    cache.Deep vm qIn k (p.stacksIn k) (kept p qIn qOut k)
      (run code m ((cache.context vm p qIn qOut ipOffset).spillStack k))
      fun j => m.view vm (cache.state qIn) k (p.stacksIn k + j) := by
  intro j
  have hview := spillStack_view cache vm p qIn qOut code hk ipOffset m
  have hkept := kept_le_in p qIn qOut k
  by_cases hj : j < kept p qIn qOut k ∨ qIn.items k ≤ p.stacksIn k + j
  · -- such an item is where it was
    simp only [← hview]
    unfold Machine.view
    rw [access_loc hk]
    congr 1
    unfold deepLoc
    rcases hj with hj | hj
    · rw [if_pos hj, if_pos (by omega), Nat.zero_add]
    · rw [if_neg (by omega), if_neg (by omega)]
      congr 2
      push_cast
      ring_nf
  · rw [not_or] at hj
    rw [spillStack_eq hk, run_stmtsOfMoves]
    let move : Move Loc :=
      ⟨cache.deepLoc vm qIn k (p.stacksIn k) (kept p qIn qOut k) (m.pointer k) j,
        .reg (cache.reg k (qIn.items k - 1 - (p.stacksIn k + j)))⟩
    have hmem : move ∈ locMoves m.pointer (cache.spillMoves vm p qIn qOut k) := by
      simp only [locMoves, spillMoves, List.map_map, List.mem_map, List.mem_range,
        Function.comp_apply]
      refine ⟨j - kept p qIn qOut k, by omega, ?_⟩
      have hindex : p.stacksIn k + kept p qIn qOut k + (j - kept p qIn qOut k) =
          p.stacksIn k + j := by omega
      simp only [hindex, move, deepLoc, if_neg hj.1, Place.loc]
      push_cast
      rfl
    have htarget := assignAll_of_mem (s := m.cells) (sequenced_spillMoves m.pointer) hmem
    refine htarget.trans ?_
    simp only [Machine.view]
    rw [access_of_lt hk (by omega)]
    rfl

/-! ## Moves -/

theorem regRegMove_of_ne {r r' : Reg} (h : r ≠ r') :
    regRegMove (some r) (some r') = [.assign (.reg r') (.reg r)] := by
  simp [regRegMove, h]

theorem regRegMove_self (r : Reg) : regRegMove (some r) (some r) = [] := by
  simp [regRegMove]

/-- A loop that counts down to zero visits all numbers. -/
theorem minusDo_neg_one (n : Nat) :
    minusDo (-1) ((n : Int) - 1) = (List.range n).map fun j : Nat => (n : Int) - 1 - j := by
  unfold minusDo
  congr 1
  congr 1
  omega

theorem plusDo_zero (n : Nat) : plusDo n 0 = (List.range n).map fun j : Nat => (j : Int) := by
  unfold plusDo
  simp

/-- The moves of a stack, one after the other -/
def moveList (cache : SimpleCache) (k nIn nOut : Nat) : List (Move Place) :=
  if nIn < nOut then
    (List.range nIn).map fun j => ⟨.reg (cache.reg k (nOut - 1 - j)), .reg (cache.reg k (nIn - 1 - j))⟩
  else if nOut < nIn then
    (List.range nOut).map fun i => ⟨.reg (cache.reg k i), .reg (cache.reg k (i + (nIn - nOut)))⟩
  else []

/-- {lit}`stack-moves` is a list of moves. -/
theorem stackMoves_eq (ipOffset : Int) :
    (cache.context vm p qIn qOut ipOffset).stackMoves k =
      stmtsOfMoves (cache.moveList k (qIn.items k - p.stacksIn k) (qOut.items k - p.stacksOut k)) := by
  unfold Context.stackMoves Context.unusedStackItems moveList
  simp only [context, stackStateItems_state]
  generalize hnIn : qIn.items k - p.stacksIn k = nIn
  generalize hnOut : qOut.items k - p.stacksOut k = nOut
  rcases Nat.lt_trichotomy nIn nOut with hlt | heq | hgt
  · rw [if_pos (by omega), if_pos hlt, minusDo_neg_one, List.flatMap_map, stmtsOfMoves, List.map_map]
    rw [← List.flatMap_singleton' (List.map _ (List.range nIn)), List.flatMap_map]
    apply List.flatMap_congr
    intro j hj
    rw [List.mem_range] at hj
    have hsource : (nIn : Int) - 1 - j = ((nIn - 1 - j : Nat) : Int) := by omega
    have htarget : (nIn : Int) - 1 - j + (nOut - nIn) = ((nOut - 1 - j : Nat) : Int) := by omega
    rw [htarget, hsource, stackBottomReg_of_lt (by omega), stackBottomReg_of_lt (by omega),
      regRegMove_of_ne]
    · rfl
    · intro h
      have := (cache.reg_injective h).2
      omega
  · subst heq
    rw [if_neg (by omega), if_neg (by omega), if_neg (by omega), plusDo_zero, List.flatMap_map]
    simp only [stmtsOfMoves, List.map_nil, List.flatMap_eq_nil_iff, List.mem_range]
    intro j hj
    rw [sub_self, add_zero, stackBottomReg_of_lt (by omega), stackBottomReg_of_lt (by omega),
      regRegMove_self]
  · rw [if_neg (by omega), if_neg (by omega), if_pos hgt, plusDo_zero, List.flatMap_map,
      stmtsOfMoves, List.map_map]
    rw [← List.flatMap_singleton' (List.map _ (List.range nOut)), List.flatMap_map]
    apply List.flatMap_congr
    intro i hi
    rw [List.mem_range] at hi
    have hsource : (i : Int) + (nIn - nOut) = ((i + (nIn - nOut) : Nat) : Int) := by omega
    rw [hsource, stackBottomReg_of_lt (by omega), stackBottomReg_of_lt (by omega),
      regRegMove_of_ne]
    · rfl
    · intro h
      have := (cache.reg_injective h).2
      omega

/-- No move of {lit}`stack-moves` reads what an earlier one has written. -/
theorem sequenced_moveList (pointer : Nat → Int) (nIn nOut : Nat) :
    Sequenced (locMoves pointer (cache.moveList k nIn nOut)) := by
  unfold Sequenced locMoves moveList
  split
  · rw [List.map_map, List.pairwise_map]
    apply List.pairwise_lt_range.imp_of_mem
    intro j j' hj hj' hlt
    rw [List.mem_range] at hj hj'
    refine ⟨fun h => ?_, fun h => ?_⟩
    · have := (cache.reg_injective (Loc.reg.inj h)).2
      omega
    · have := (cache.reg_injective (Loc.reg.inj h)).2
      omega
  · split
    · rw [List.map_map, List.pairwise_map]
      apply List.pairwise_lt_range.imp
      intro i i' hlt
      refine ⟨fun h => ?_, fun h => ?_⟩
      · have := (cache.reg_injective (Loc.reg.inj h)).2
        omega
      · have := (cache.reg_injective (Loc.reg.inj h)).2
        omega
    · exact List.Pairwise.nil

/-- The kept items get to the registers of the next state. -/
theorem assignAll_moveList_kept (s : Loc → V) (pointer : Nat → Int) {nIn nOut j : Nat}
    (hj : j < min nIn nOut) :
    assignAll s (locMoves pointer (cache.moveList k nIn nOut)) (.reg (cache.reg k (nOut - 1 - j))) =
      s (.reg (cache.reg k (nIn - 1 - j))) := by
  rcases Nat.lt_trichotomy nIn nOut with hlt | heq | hgt
  · refine assignAll_of_mem (m := ⟨.reg (cache.reg k (nOut - 1 - j)), .reg (cache.reg k (nIn - 1 - j))⟩)
      (sequenced_moveList pointer nIn nOut) ?_
    simp only [locMoves, moveList, if_pos hlt, List.map_map, List.mem_map, List.mem_range]
    exact ⟨j, by omega, rfl⟩
  · subst heq
    simp [moveList, locMoves]
  · refine assignAll_of_mem (m := ⟨.reg (cache.reg k (nOut - 1 - j)), .reg (cache.reg k (nIn - 1 - j))⟩)
      (sequenced_moveList pointer nIn nOut) ?_
    simp only [locMoves, moveList, if_neg (Nat.lt_asymm hgt), if_pos hgt, List.map_map, List.mem_map,
      List.mem_range]
    refine ⟨nOut - 1 - j, by omega, ?_⟩
    have hindex : nOut - 1 - j + (nIn - nOut) = nIn - 1 - j := by omega
    simp only [Function.comp_apply, Place.loc, hindex]

/-- The moves change only registers of unused items. -/
theorem assignAll_moveList_other (s : Loc → V) (pointer : Nat → Int) {nIn nOut : Nat} {l : Loc}
    (h : ∀ i < nOut, l ≠ .reg (cache.reg k i)) :
    assignAll s (locMoves pointer (cache.moveList k nIn nOut)) l = s l := by
  apply assignAll_of_not_target
  intro move hmove heq
  simp only [locMoves, moveList, List.mem_map] at hmove
  rcases hmove with ⟨place, hplace, rfl⟩
  split at hplace
  · rcases List.mem_map.mp hplace with ⟨j, hj, rfl⟩
    rw [List.mem_range] at hj
    exact h (nOut - 1 - j) (by omega) heq.symm
  · split at hplace
    · rcases List.mem_map.mp hplace with ⟨i, hi, rfl⟩
      rw [List.mem_range] at hi
      exact h i hi heq.symm
    · cases hplace

/-! ## Stack pointers -/

/-- An update of the stack pointer changes nothing else. -/
theorem run_updateStackPointer (c : Context) (hk : k ≠ instStream) (n : Int) (m : Machine V W) :
    run code m (c.updateStackPointer k n) =
      { m with
        pointer := Function.update m.pointer k
          (m.pointer k + (c.vm.stackAccessTransform k n - c.vm.stackAccessTransform k 0)) } := by
  unfold Context.updateStackPointer
  simp only [if_neg hk]
  split
  · rename_i hn
    subst hn
    simp
  · rfl

variable (vm k) in
/-- Where an item is does not depend on what the pointer counts from. -/
theorem transform_shift (a b d : Int) :
    vm.stackAccessTransform k d - vm.stackAccessTransform k 0 + vm.stackAccessTransform k (a + b) =
      vm.stackAccessTransform k (a + d + b) := by
  have h : a + d + b = d + (a + b) := by ring
  rw [h, vm.transform_add k d (a + b)]
  ring

variable (cache vm p qIn qOut) in
/-- The update of the stack pointer and the moves, for a stack that is not synced -/
theorem stackPointerUpdate_deep (hk : k ≠ instStream) (hsync : p.stacksSync k = false)
    (ipOffset : Int) (m : Machine V W) (f : Nat → V)
    (hm : cache.Deep vm qIn k (p.stacksIn k) (kept p qIn qOut k) m f) :
    cache.Deep vm qOut k (p.stacksOut k) (kept p qIn qOut k)
      (run code m ((cache.context vm p qIn qOut ipOffset).stackPointerUpdate k)) f := by
  unfold Context.stackPointerUpdate
  rw [if_neg (by simpa [context] using hsync), run_append, run_updateStackPointer code _ hk,
    stackMoves_eq, run_stmtsOfMoves]
  have hkept : kept p qIn qOut k =
      min (qIn.items k - p.stacksIn k) (qOut.items k - p.stacksOut k) := by
    simp [kept, hsync]
  intro j
  rw [← hm j]
  simp only [Function.update_self]
  unfold deepLoc
  by_cases hj : j < kept p qIn qOut k
  · rw [if_pos hj, if_pos hj]
    have hout : qOut.items k - p.stacksOut k - 1 - j = qOut.items k - 1 - (p.stacksOut k + j) := by
      omega
    have hin : qIn.items k - p.stacksIn k - 1 - j = qIn.items k - 1 - (p.stacksIn k + j) := by
      omega
    rw [← hout, ← hin]
    exact assignAll_moveList_kept _ _ (by omega)
  · rw [if_neg hj, if_neg hj, assignAll_moveList_other _ _ (fun i _ h => by cases h)]
    congr 2
    simp only [context, state]
    rw [add_assoc]
    congr 1
    have hshift := transform_shift vm k (p.stacksOut k + j - qOut.offset k) 0
      (p.stacksIn k - p.stacksOut k - qIn.offset k + qOut.offset k)
    rw [add_zero] at hshift
    rw [hshift]
    congr 1
    ring

/-- The update and the moves leave the items that are used alone. -/
theorem stackPointerUpdate_cells (hk : k ≠ instStream) (ipOffset : Int) (m : Machine V W) {l : Loc}
    (hl : ∀ i < qOut.items k - p.stacksOut k, l ≠ .reg (cache.reg k i)) :
    (run code m ((cache.context vm p qIn qOut ipOffset).stackPointerUpdate k)).cells l =
      m.cells l := by
  unfold Context.stackPointerUpdate
  split
  · rw [run_updateStackPointer code _ hk]
  · rw [run_append, run_updateStackPointer code _ hk, stackMoves_eq, run_stmtsOfMoves]
    exact assignAll_moveList_other _ _ hl

/-- The stack pointer is moved by what the primitive takes and the cache states hold. -/
theorem stackPointerUpdate_pointer (hk : k ≠ instStream) (hsync : p.stacksSync k = false)
    (ipOffset : Int) (m : Machine V W) :
    (run code m ((cache.context vm p qIn qOut ipOffset).stackPointerUpdate k)).pointer k =
      m.pointer k + (vm.stackAccessTransform k
        (p.stacksIn k - p.stacksOut k - qIn.offset k + qOut.offset k) -
          vm.stackAccessTransform k 0) := by
  unfold Context.stackPointerUpdate
  rw [if_neg (by simpa [context] using hsync), run_append, run_updateStackPointer code _ hk,
    stackMoves_eq, run_stmtsOfMoves]
  simp [context, state]

/-- The update of the stack pointer in front of the C code, for a stack that is synced -/
theorem stackPointerUpdate_sync (hk : k ≠ instStream) (hsync : p.stacksSync k = true)
    (ipOffset : Int) (hm : cache.Deep vm qIn k (p.stacksIn k) (kept p qIn qOut k) m f) :
    cache.Deep vm inMemory k 0 0
      (run code m ((cache.context vm p qIn qOut ipOffset).stackPointerUpdate k)) f := by
  unfold Context.stackPointerUpdate
  rw [if_pos (by simpa [context] using hsync), run_updateStackPointer code _ hk]
  intro j
  rw [← hm j]
  have hkept : kept p qIn qOut k = 0 := by simp [kept, hsync]
  simp only [Function.update_self]
  unfold deepLoc
  rw [hkept, if_neg (Nat.not_lt_zero j), if_neg (Nat.not_lt_zero j)]
  congr 2
  simp only [context, state, inMemory]
  rw [add_assoc]
  congr 1
  have hshift := transform_shift vm k j 0 (p.stacksIn k - qIn.offset k)
  rw [add_zero] at hshift
  simp only [Nat.cast_zero, zero_add, sub_zero]
  rw [hshift]
  congr 1
  ring

/-- The update of the stack pointer behind the C code, for a stack that is synced -/
theorem stackPointerUpdate2_sync (hk : k ≠ instStream) (hsync : p.stacksSync k = true)
    (ipOffset : Int) (hm : cache.Deep vm inMemory k 0 0 m f) :
    cache.Deep vm qOut k (p.stacksOut k) (kept p qIn qOut k)
      (run code m ((cache.context vm p qIn qOut ipOffset).stackPointerUpdate2 k)) f := by
  unfold Context.stackPointerUpdate2
  rw [if_pos (by simpa [context] using hsync), run_updateStackPointer code _ hk]
  intro j
  rw [← hm j]
  have hkept : kept p qIn qOut k = 0 := by simp [kept, hsync]
  simp only [Function.update_self]
  unfold deepLoc
  rw [hkept, if_neg (Nat.not_lt_zero j), if_neg (Nat.not_lt_zero j)]
  congr 2
  simp only [context, state, inMemory]
  rw [add_assoc]
  congr 1
  have hshift := transform_shift vm k (p.stacksOut k + j - qOut.offset k) 0
    (qOut.offset k - p.stacksOut k)
  rw [add_zero] at hshift
  rw [hshift]
  congr 1
  simp

theorem stackPointerUpdate2_eq_nil (hsync : p.stacksSync k = false) (ipOffset : Int) :
    (cache.context vm p qIn qOut ipOffset).stackPointerUpdate2 k = [] := by
  unfold Context.stackPointerUpdate2
  rw [if_neg (by simpa [context] using hsync)]

/-! ## Fills -/

/-- What the fills of a stack do -/
def fillMoves (cache : SimpleCache) (vm : Vm) (p : Prim) (qIn qOut : CacheState) (k : Nat) :
    List (Move Place) :=
  (List.range (qOut.items k - (p.stacksOut k + kept p qIn qOut k))).map fun j : Nat =>
    ⟨.reg (cache.reg k (qOut.items k - 1 - (p.stacksOut k + kept p qIn qOut k + j))),
      .cell k (vm.stackAccessTransform k
        (((p.stacksOut k + kept p qIn qOut k + j : Nat) : Int) - qOut.offset k))⟩

/-- {lit}`fill-stack` is a list of moves. -/
theorem fillStack_eq (hk : k ≠ instStream) (ipOffset : Int) :
    (cache.context vm p qIn qOut ipOffset).fillStack k =
      stmtsOfMoves (cache.fillMoves vm p qIn qOut k) := by
  have hindices := plusDo_fill cache vm p qIn qOut k ipOffset
  unfold Context.fillStack stmtsOfMoves fillMoves
  simp only [context, stackStateItems_state, List.map_map] at hindices ⊢
  rw [hindices, List.map_map]
  apply List.map_congr_left
  intro j hj
  rw [List.mem_range] at hj
  simp only [Function.comp_apply]
  rw [access_of_lt hk (by omega)]
  rfl

/-- No move of {lit}`fill-stack` reads what an earlier one has written. -/
theorem sequenced_fillMoves (pointer : Nat → Int) :
    Sequenced (locMoves pointer (cache.fillMoves vm p qIn qOut k)) := by
  unfold Sequenced locMoves fillMoves
  rw [List.map_map, List.pairwise_map]
  apply List.pairwise_lt_range.imp_of_mem
  intro j j' hj hj' hlt
  rw [List.mem_range] at hj hj'
  refine ⟨fun h => ?_, fun h => by cases h⟩
  have := (cache.reg_injective (Loc.reg.inj h)).2
  omega

/-- After the fills, a stack is as the next state has it: the items that were stored are on top of the
unused ones. -/
theorem fillStack_view (hk : k ≠ instStream) (ipOffset : Int) {f g : Nat → V}
    (hdeep : cache.Deep vm qOut k (p.stacksOut k) (kept p qIn qOut k) m f)
    (htop : ∀ n < p.stacksOut k, m.view vm (cache.state qOut) k n = g n) (n : Nat) :
    (run code m ((cache.context vm p qIn qOut ipOffset).fillStack k)).view vm (cache.state qOut) k n =
      if n < p.stacksOut k then g n else f (n - p.stacksOut k) := by
  rw [fillStack_eq hk, run_stmtsOfMoves]
  have hkept : kept p qIn qOut k ≤ qOut.items k - p.stacksOut k := by
    unfold kept
    split
    · omega
    · exact Nat.min_le_right _ _
  by_cases hfilled : p.stacksOut k + kept p qIn qOut k ≤ n ∧ n < qOut.items k
  · rw [if_neg (by omega), ← hdeep (n - p.stacksOut k)]
    have hdeepLoc : cache.deepLoc vm qOut k (p.stacksOut k) (kept p qIn qOut k) (m.pointer k)
        (n - p.stacksOut k) = .cell k (m.pointer k + vm.stackAccessTransform k (n - qOut.offset k)) := by
      unfold deepLoc
      rw [if_neg (by omega)]
      congr 3
      omega
    let move : Move Loc := ⟨.reg (cache.reg k (qOut.items k - 1 - n)),
      cache.deepLoc vm qOut k (p.stacksOut k) (kept p qIn qOut k) (m.pointer k) (n - p.stacksOut k)⟩
    have hmem : move ∈ locMoves m.pointer (cache.fillMoves vm p qIn qOut k) := by
      simp only [locMoves, fillMoves, List.map_map, List.mem_map, List.mem_range,
        Function.comp_apply]
      refine ⟨n - (p.stacksOut k + kept p qIn qOut k), by omega, ?_⟩
      have hindex : p.stacksOut k + kept p qIn qOut k + (n - (p.stacksOut k + kept p qIn qOut k)) =
          n := by omega
      simp only [hindex, move, hdeepLoc, Place.loc]
    have htarget := assignAll_of_mem (s := m.cells) (sequenced_fillMoves m.pointer) hmem
    simp only [Machine.view]
    rw [access_of_lt hk hfilled.2]
    exact htarget
  · -- the other items are where they were
    have hsame : assignAll m.cells (locMoves m.pointer (cache.fillMoves vm p qIn qOut k))
        ((vm.normalStackAccess n k (cache.state qOut)).loc m.pointer) =
          m.view vm (cache.state qOut) k n := by
      apply assignAll_of_not_target
      intro move hmove heq
      simp only [locMoves, fillMoves, List.map_map, List.mem_map, List.mem_range,
        Function.comp_apply] at hmove
      rcases hmove with ⟨j, hj, rfl⟩
      rw [access_loc hk] at heq
      unfold deepLoc at heq
      by_cases hn : n < qOut.items k
      · rw [if_pos hn] at heq
        have := (cache.reg_injective (Loc.reg.inj heq)).2
        omega
      · rw [if_neg hn] at heq
        cases heq
    refine hsame.trans ?_
    by_cases hn : n < p.stacksOut k
    · rw [if_pos hn, htop n hn]
    · rw [if_neg hn, ← hdeep (n - p.stacksOut k)]
      simp only [Machine.view]
      rw [access_loc hk]
      congr 1
      unfold deepLoc
      by_cases hitems : n < qOut.items k
      · rw [if_pos hitems, if_pos (by omega)]
        congr 3
        omega
      · rw [if_neg hitems, if_neg (by omega)]
        congr 3
        omega

/-! ## Locality -/

/-- Moves between the places of a stack concern only this stack. -/
theorem isLocal_stmtsOfMoves {ms : List (Move Place)}
    (h : ∀ move ∈ ms, cache.OwnsPlace k move.target ∧ cache.OwnsPlace k move.source) :
    ∀ stmt ∈ stmtsOfMoves ms, cache.IsLocal k stmt := by
  intro stmt hstmt
  rcases List.mem_map.mp hstmt with ⟨move, hmove, rfl⟩
  exact h move hmove

variable (vm p) in
/-- {lit}`spill-stack` concerns only its stack. -/
theorem isLocal_spillStack (hk : k ≠ instStream) (ipOffset : Int) :
    ∀ stmt ∈ (cache.context vm p qIn qOut ipOffset).spillStack k, cache.IsLocal k stmt := by
  rw [spillStack_eq hk]
  apply isLocal_stmtsOfMoves
  intro move hmove
  rcases List.mem_map.mp hmove with ⟨j, hj, rfl⟩
  exact ⟨rfl, _, rfl⟩

variable (vm p) in
/-- {lit}`fill-stack` concerns only its stack. -/
theorem isLocal_fillStack (hk : k ≠ instStream) (ipOffset : Int) :
    ∀ stmt ∈ (cache.context vm p qIn qOut ipOffset).fillStack k, cache.IsLocal k stmt := by
  rw [fillStack_eq hk]
  apply isLocal_stmtsOfMoves
  intro move hmove
  rcases List.mem_map.mp hmove with ⟨j, hj, rfl⟩
  exact ⟨⟨_, rfl⟩, rfl⟩

/-- An update of a stack pointer concerns only its stack. -/
theorem isLocal_updateStackPointer (c : Context) (n : Int) :
    ∀ stmt ∈ c.updateStackPointer k n, cache.IsLocal k stmt := by
  intro stmt hstmt
  unfold Context.updateStackPointer at hstmt
  simp only at hstmt
  generalize (if k = instStream then n + 1 else n) = n1 at hstmt
  split at hstmt
  · cases hstmt
  · split at hstmt <;> rw [List.mem_singleton] at hstmt <;> subst hstmt <;> rfl

variable (cache vm p qIn qOut k) in
/-- {lit}`stack-pointer-update` concerns only its stack. -/
theorem isLocal_stackPointerUpdate (ipOffset : Int) :
    ∀ stmt ∈ (cache.context vm p qIn qOut ipOffset).stackPointerUpdate k, cache.IsLocal k stmt := by
  unfold Context.stackPointerUpdate
  split
  · exact isLocal_updateStackPointer _ _
  · intro stmt hstmt
    rcases List.mem_append.mp hstmt with hstmt | hstmt
    · exact isLocal_updateStackPointer _ _ stmt hstmt
    · rw [stackMoves_eq] at hstmt
      refine isLocal_stmtsOfMoves ?_ stmt hstmt
      intro move hmove
      unfold moveList at hmove
      split at hmove
      · rcases List.mem_map.mp hmove with ⟨j, hj, rfl⟩
        exact ⟨⟨_, rfl⟩, _, rfl⟩
      · split at hmove
        · rcases List.mem_map.mp hmove with ⟨j, hj, rfl⟩
          exact ⟨⟨_, rfl⟩, _, rfl⟩
        · cases hmove

/-- {lit}`stack-pointer-update2` concerns only its stack. -/
theorem isLocal_stackPointerUpdate2 (ipOffset : Int) :
    ∀ stmt ∈ (cache.context vm p qIn qOut ipOffset).stackPointerUpdate2 k, cache.IsLocal k stmt := by
  unfold Context.stackPointerUpdate2
  split
  · exact isLocal_updateStackPointer _ _
  · intro stmt hstmt
    cases hstmt

end SimpleCache

end Vmgen
end Gforth
