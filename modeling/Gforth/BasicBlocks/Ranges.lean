import Gforth.Image.Relocation
import Gforth.Selector.Rewrite

/-!
# Compiling a range of code

{lit}`gforth_compile_range` walks through the cells of a range and passes those that are marked on
to {lit}`compile_prim1`, which collects primitives in a block.  The block goes to
{lit}`optimize_rewrite` at a branch target, behind a primitive that ends superinstructions, when it
is full, and at a code word.

The code that is generated is not modelled; {lit}`optimize_rewrite` stores what the walk of the code
selector says into the cells of the block.

Main results:

- Theorem {lit}`compileRange_spec`: the blocks that a range is cut into.
- Theorem {lit}`primNum_of_label`: the search finds every label, if they are sorted.
-/

namespace Gforth
namespace BasicBlocks

open Lib
open Selector (CodeSource Call Ptr SuperTables Tpa maxBB)
open Image (relocSteps)

/-- An instruction of a block: its cell, and the number of its primitive -/
structure Inst where
  start : Nat
  prim : Nat
deriving DecidableEq

/-- What the engine knows about primitives, and how it generates code: {lit}`code` is the address
that an instruction of a block gets, after the blocks before it.  Code fields are not in the code
that is compiled, so {lit}`codeAddress` does not change. -/
structure Engine where
  vmPrims : BitVec 64
  label : Nat → BitVec 64
  npriminfos : Nat
  superend : Nat → Bool
  codeAddress : BitVec 64 → BitVec 64
  selector : Selector.Engine
  tables : SuperTables
  allocate : Ptr → Nat
  code : List (List Inst) → List Inst → Nat → CodeSource → BitVec 64

/-! ## Looking up primitives -/

/-- {lit}`for(i=1; i<npriminfos; i*=2);` -/
def doubled (n : Nat) : Nat → Nat → Nat
  | 0, i => i
  | fuel + 1, i => if i < n then doubled n fuel (i * 2) else i

namespace Engine

/-- {lit}`(((Xt)*start)-vm_prims)-CFA_OFFSET`, as an unsigned number of 32 bits -/
def direct (e : Engine) (cell : BitVec 64) : Nat :=
  (((cell - e.vmPrims).sshiftRight 3 - 2#64).setWidth 32).toNat

/-- The loop of the search in {lit}`vm_prims`, with the last value of {lit}`i` -/
def searchLoop (e : Engine) (inst : BitVec 64) : Nat → Nat → Nat → Nat
  | 0, _, i => i
  | fuel + 1, step, i =>
      if 0 < step then
        if i < e.npriminfos ∧ inst = e.label i then i
        else
          e.searchLoop inst fuel (step / 2)
            (if i < e.npriminfos ∧ (e.label i).ult inst then i + step else i - step)
      else i

/-- The search in {lit}`vm_prims` -/
def search (e : Engine) (inst : BitVec 64) : Nat :=
  let i := doubled e.npriminfos e.npriminfos 1 / 2
  e.searchLoop inst (i / 2) (i / 2) i

/-- {lit}`prim_num`; code words have none. -/
def primNum (e : Engine) (cell : BitVec 64) : Option Nat :=
  let direct := e.direct cell
  let inst := e.codeAddress cell
  let p :=
    if e.npriminfos ≤ direct then
      if inst = e.label (e.search inst) then e.search inst else direct
    else direct
  if e.npriminfos ≤ p then none else some p

end Engine

/-! ## Blocks -/

/-- The memory and the static variables of {lit}`compile_prim1`: the instructions of the block, the
blocks that {lit}`optimize_rewrite` has got, and the automaton of the code selector -/
structure Codegen where
  mem : Nat → BitVec 64
  insts : List Inst
  blocks : List (List Inst)
  automaton : Tpa

namespace Codegen

/-- What a call of the code selector stores -/
def storeCode (e : Engine) (s : Codegen) (mem : Nat → BitVec 64) : Call → Nat → BitVec 64
  | .store i source =>
      Function.update mem (s.insts.getD i ⟨0, 0⟩).start (e.code s.blocks s.insts i source)
  | _ => mem

/-- {lit}`optimize_rewrite(instps,origs,ninsts); ninsts=0;` -/
def optimizeRewrite (e : Engine) (s : Codegen) : Codegen :=
  let rewritten :=
    Selector.optimizeRewrite e.selector e.tables e.allocate (s.insts.map Inst.prim) s.automaton
  { mem := (rewritten.2.getD []).foldl (s.storeCode e) s.mem
    insts := []
    blocks := s.blocks ++ [s.insts]
    automaton := rewritten.1 }

/-- A cell is compiled. -/
def compileCell (e : Engine) (start : Nat) (s : Codegen) : Codegen :=
  let prim := e.primNum (s.mem start)
  match prim with
  | none =>
      let s := s.optimizeRewrite e
      { s with mem := Function.update s.mem start (e.codeAddress (s.mem start)) }
  | some p => { s with insts := s.insts ++ [⟨start, p⟩] }

/-- The block is full, or its last instruction ends superinstructions. -/
def full (e : Engine) (s : Codegen) : Bool :=
  maxBB ≤ s.insts.length || s.insts.getLast?.any fun inst => e.superend inst.prim

/-- {lit}`compile_prim1` -/
def compilePrim1 (e : Engine) : Option Nat → Codegen → Codegen
  | none, s => s.optimizeRewrite e
  | some start, s => (if s.full e then s.optimizeRewrite e else s).compileCell e start

/-- {lit}`finish_code` -/
def finishCode (e : Engine) (s : Codegen) : Codegen :=
  s.compilePrim1 e none

/-- One iteration of {lit}`gforth_compile_range` -/
def rangeStep (e : Engine) (image : Nat) (bitstring targets : List Byte) (s : Codegen) (i : Nat) :
    Codegen :=
  let s := if bitAt targets i then s.compilePrim1 e none else s
  if bitAt bitstring i then s.compilePrim1 e (some (image + 8 * i)) else s

/-- {lit}`gforth_compile_range` -/
def compileRange (e : Engine) (image size : Nat) (bitstring targets : List Byte) (s : Codegen) :
    Codegen :=
  if size = 0 then s
  else ((List.range (relocSteps size * 8)).foldl (rangeStep e image bitstring targets) s).finishCode e

end Codegen

/-- The states of the compiler, after any ranges -/
inductive Codegen.Reached (e : Engine) : Codegen → Prop
  | initial (mem : Nat → BitVec 64) (automaton : Tpa) : Reached e ⟨mem, [], [], automaton⟩
  | compilePrim1 {s : Codegen} (hs : Reached e s) : Reached e (s.compilePrim1 e none)
  | compileRange {s : Codegen} (hs : Reached e s) (mem : Nat → BitVec 64) (image size : Nat)
      (bitstring targets : List Byte) :
      Reached e (Codegen.compileRange e image size bitstring targets { s with mem := mem })

/-! ## What the engine stores -/

/-- The walk of the code selector stores into the cells of the block only. -/
theorem rewriteLoop_store (e : Selector.Engine) {i : Nat} {ts : List Selector.TpaState}
    {l : Selector.LoopState} {calls : List Call} (hrun : Selector.rewriteLoop e i ts l = some calls)
    {j : Nat} {source : CodeSource} (hj : Call.store j source ∈ calls) :
    i ≤ j ∧ j + 1 < i + ts.length := by
  fun_induction Selector.rewriteLoop e i ts l generalizing calls with
  | case1 => cases hrun
  | case2 i st l =>
    rw [Selector.rewriteEnd] at hrun
    split at hrun
    · split at hrun
      · obtain rfl := Option.some.inj hrun
        simp at hj
      · cases hrun
    · simp only at hrun
      split at hrun
      · obtain rfl := Option.some.inj hrun
        simp at hj
      · cases hrun
  | case3 => cases hrun
  | case4 i st st' rest l l' calls' hstep ih =>
    obtain ⟨later, hlater, rfl⟩ := Option.map_eq_some_iff.mp hrun
    rcases List.mem_append.mp hj with hj | hj
    · have hij : j = i := by
        rw [Selector.rewriteStep] at hstep
        split at hstep
        · split at hstep
          · cases hstep
          rename_i k transition htrans
          split at hstep
          · cases hstep
          rename_i l'' instruction hinst
          obtain ⟨-, rfl⟩ := Prod.mk.inj (Option.some.inj hstep)
          simp only [List.mem_cons, List.mem_append, reduceCtorEq, false_or] at hj
          rcases hj with hj | hj
          · rw [Selector.rewriteTransition] at htrans
            split at htrans
            · obtain ⟨-, rfl⟩ := Prod.mk.inj (Option.some.inj htrans)
              cases hj
            · simp only at htrans
              split at htrans
              · obtain ⟨-, rfl⟩ := Prod.mk.inj (Option.some.inj htrans)
                simp at hj
              · cases htrans
          · rw [Selector.rewriteInstruction] at hinst
            simp only at hinst
            split at hinst
            · obtain ⟨-, rfl⟩ := Prod.mk.inj (Option.some.inj hinst)
              by_cases hrel : e.isRelocatable (st.instAt k).inst = true
              · simp [hrel] at hj
                exact hj.1
              · simp [hrel] at hj
                exact hj.1
            · cases hinst
        · obtain ⟨-, rfl⟩ := Prod.mk.inj (Option.some.inj hstep)
          simp at hj
          exact hj.1
      simp only [List.length_cons]
      omega
    · have := ih hlater hj
      simp only [List.length_cons] at this ⊢
      omega

/-- Each primitive has a label, and there is one behind them. -/
theorem length_labelBlock (e : Selector.Engine) (t : SuperTables) (allocate : Ptr → Nat)
    (origs : List Selector.PrimNum) (a : Tpa) :
    (Selector.labelBlock e t allocate origs a).1.length = origs.length + 1 := by
  induction origs with
  | nil => rfl
  | cons p rest ih => exact congrArg (· + 1) ih

namespace Codegen

/-- {lit}`optimize_rewrite` changes the cells of the block only. -/
theorem optimizeRewrite_mem (e : Engine) (s : Codegen) {a : Nat}
    (ha : ∀ inst ∈ s.insts, a ≠ inst.start) : (s.optimizeRewrite e).mem a = s.mem a := by
  have hstores : ∀ calls : List Call,
      (∀ j source, Call.store j source ∈ calls → j < s.insts.length) →
      ∀ mem : Nat → BitVec 64, (calls.foldl (s.storeCode e) mem) a = mem a := by
    intro calls
    induction calls with
    | nil => exact fun _ _ => rfl
    | cons call calls ih =>
      intro hlt mem
      rw [List.foldl_cons, ih fun j source hj => hlt j source (List.mem_cons_of_mem _ hj)]
      cases call with
      | store j source =>
        have hj := hlt j source List.mem_cons_self
        have hget : s.insts.getD j ⟨0, 0⟩ ∈ s.insts := by
          rw [List.getD_eq_getElem _ _ hj]
          exact List.getElem_mem hj
        exact Function.update_of_ne (ha _ hget) _ mem
      | _ => rfl
  refine hstores _ (fun j source hj => ?_) s.mem
  cases hcalls : (Selector.optimizeRewrite e.selector e.tables e.allocate (s.insts.map Inst.prim)
      s.automaton).2 with
  | none =>
    rw [hcalls] at hj
    cases hj
  | some calls =>
    rw [hcalls, Option.getD_some] at hj
    rw [Selector.optimizeRewrite] at hcalls
    split at hcalls
    · obtain rfl := Option.some.inj hcalls
      cases hj
    · have hbound := (rewriteLoop_store e.selector hcalls hj).2
      rw [List.length_map, length_labelBlock, List.length_map] at hbound
      omega

end Codegen

/-! ## How a range is cut into blocks -/

/-- A range of code, with the memory before it is compiled -/
structure Range where
  mem : Nat → BitVec 64
  image : Nat
  bitstring : List Byte
  targets : List Byte

namespace Range

variable (r : Range) (e : Engine)

/-- The cells are marked. -/
def Flagged (i : Nat) : Prop :=
  bitAt r.bitstring i = true

instance (i : Nat) : Decidable (r.Flagged i) :=
  inferInstanceAs (Decidable (_ = _))

/-- The primitive in a cell -/
def prim (i : Nat) : Option Nat :=
  e.primNum (r.mem (r.image + 8 * i))

/-- The instruction that is passed on for a cell: it is marked and holds a primitive. -/
def inst (i : Nat) : Option Inst :=
  if r.Flagged i then (r.prim e i).map (Inst.mk (r.image + 8 * i)) else none

/-- The cell before a cell, among those that are marked -/
def Follows (i j : Nat) : Prop :=
  i < j ∧ r.Flagged i ∧ ∀ k, i < k → k < j → ¬ r.Flagged k

/-- A block has to start at the cell: it is a branch target, or follows a code word or a primitive
that ends superinstructions. -/
def Starts (j : Nat) : Prop :=
  bitAt r.targets j = true ∨
    ∃ i, r.Follows i j ∧ ∀ p, r.prim e i = some p → e.superend p = true

/-- The range is cut into blocks: they hold the marked primitives, each once and in the order of the
addresses, are not too long, and start where they have to. -/
structure CutInto (n : Nat) (blocks : List (List Inst)) : Prop where
  passed : blocks.flatten = (List.range n).filterMap (r.inst e)
  length_le : ∀ block ∈ blocks, block.length ≤ maxBB
  first : ∀ j < n, ∀ x, r.inst e j = some x → r.Starts e j → ∃ block ∈ blocks, block.head? = some x

/-- The first {lit}`m` cells are cut into blocks, and the last block is not closed. -/
structure Progress (m : Nat) (blocks : List (List Inst)) (s : Codegen) : Prop where
  passed : blocks.flatten ++ s.insts = (List.range m).filterMap (r.inst e)
  length_le : ∀ block ∈ blocks, block.length ≤ maxBB
  insts_length_le : s.insts.length ≤ maxBB
  first : ∀ j < m, ∀ x, r.inst e j = some x → r.Starts e j →
    (∃ block ∈ blocks, block.head? = some x) ∨ s.insts.head? = some x
  last : ∀ i, r.Follows i m → s.insts = [] ∨
    ∃ p, r.prim e i = some p ∧ s.insts.getLast? = some ⟨r.image + 8 * i, p⟩
  mem : ∀ a, (∀ i < m, r.Flagged i → a ≠ r.image + 8 * i) → s.mem a = r.mem a

variable {r e}

/-- The instructions of a range are its flagged cells. -/
theorem inst_eq_some_iff {i : Nat} {x : Inst} :
    r.inst e i = some x ↔
      r.Flagged i ∧ r.prim e i = some x.prim ∧ x.start = r.image + 8 * i := by
  rw [inst]
  split
  case isTrue h =>
    rw [Option.map_eq_some_iff]
    constructor
    · rintro ⟨p, hp, rfl⟩
      exact ⟨h, hp, rfl⟩
    · rintro ⟨-, hp, hstart⟩
      exact ⟨x.prim, hp, by rw [← hstart]⟩
  case isFalse h => exact ⟨nofun, fun hx => absurd hx.1 h⟩

namespace Progress

variable {m : Nat} {blocks : List (List Inst)} {s : Codegen}

/-- The block is closed. -/
theorem close (h : r.Progress e m blocks s) :
    r.Progress e m (blocks ++ [s.insts]) (s.optimizeRewrite e) where
  passed := by
    rw [List.flatten_append, List.flatten_singleton, ← h.passed]
    exact List.append_nil _
  length_le := by
    intro block hblock
    rcases List.mem_append.mp hblock with hblock | hblock
    · exact h.length_le block hblock
    · obtain rfl := List.mem_singleton.mp hblock
      exact h.insts_length_le
  insts_length_le := Nat.zero_le _
  first j hj x hx hstarts := by
    rcases h.first j hj x hx hstarts with ⟨block, hblock, hhead⟩ | hhead
    · exact .inl ⟨block, List.mem_append_left _ hblock, hhead⟩
    · exact .inl ⟨s.insts, List.mem_append_right _ (List.mem_singleton_self _), hhead⟩
  last _ _ := .inl rfl
  mem a ha := by
    refine (Codegen.optimizeRewrite_mem e s fun x hx => ?_).trans (h.mem a ha)
    have hpassed : x ∈ (List.range m).filterMap (r.inst e) := by
      rw [← h.passed]
      exact List.mem_append_right _ hx
    obtain ⟨i, hi, hinst⟩ := List.mem_filterMap.mp hpassed
    obtain ⟨hflag, -, hstart⟩ := inst_eq_some_iff.mp hinst
    rw [hstart]
    exact ha i (List.mem_range.mp hi) hflag

theorem mem_next (h : r.Progress e m blocks s) : s.mem (r.image + 8 * m) = r.mem (r.image + 8 * m) :=
  h.mem _ fun i hi _ => by omega

/-- A cell that is not marked -/
theorem skip (h : r.Progress e m blocks s) (hflag : ¬ r.Flagged m) :
    r.Progress e (m + 1) blocks s where
  passed := by
    have hnone : r.inst e m = none := if_neg hflag
    rw [h.passed, List.range_succ, List.filterMap_append, List.filterMap_cons, hnone]
    simp
  length_le := h.length_le
  insts_length_le := h.insts_length_le
  first j hj x hx hstarts := by
    have hne : j ≠ m := fun heq => hflag (heq ▸ (inst_eq_some_iff.mp hx).1)
    exact h.first j (by omega) x hx hstarts
  last i hi := by
    obtain ⟨hlt, hfi, hbetween⟩ := hi
    have hne : i ≠ m := fun heq => hflag (heq ▸ hfi)
    exact h.last i ⟨by omega, hfi, fun k hik hkm => hbetween k hik (by omega)⟩
  mem a ha := h.mem a fun i hi => ha i (by omega)

theorem follows_self {i : Nat} (hflag : r.Flagged m) (hi : r.Follows i (m + 1)) : i = m := by
  obtain ⟨hlt, -, hbetween⟩ := hi
  by_contra hne
  exact hbetween m (by omega) (by omega) hflag

/-- A code word -/
theorem codeWord (h : r.Progress e m blocks s) (hflag : r.Flagged m) (hprim : r.prim e m = none)
    (hinsts : s.insts = []) (x : BitVec 64) :
    r.Progress e (m + 1) blocks { s with mem := Function.update s.mem (r.image + 8 * m) x } where
  passed := by
    have hnone : r.inst e m = none := by
      rw [inst, if_pos hflag, hprim]
      rfl
    rw [List.range_succ, List.filterMap_append, List.filterMap_cons, hnone, ← h.passed]
    simp
  length_le := h.length_le
  insts_length_le := h.insts_length_le
  first j hj x hx hstarts := by
    have hne : j ≠ m := by
      rintro rfl
      rw [inst, if_pos hflag, hprim] at hx
      cases hx
    exact h.first j (by omega) x hx hstarts
  last _ _ := .inl hinsts
  mem a ha := by
    have hne : a ≠ r.image + 8 * m := ha m (by omega) hflag
    exact (Function.update_of_ne hne x s.mem).trans (h.mem a fun i hi => ha i (by omega))

/-- A primitive; a block that has to start here does. -/
theorem primitive (h : r.Progress e m blocks s) (hflag : r.Flagged m) {p : Nat}
    (hprim : r.prim e m = some p) (hlt : s.insts.length < maxBB)
    (hstart : r.Starts e m → s.insts = []) :
    r.Progress e (m + 1) blocks { s with insts := s.insts ++ [⟨r.image + 8 * m, p⟩] } where
  passed := by
    have hsome : r.inst e m = some ⟨r.image + 8 * m, p⟩ := by
      rw [inst, if_pos hflag, hprim]
      rfl
    rw [List.range_succ, List.filterMap_append, List.filterMap_cons, hsome, ← h.passed]
    simp
  length_le := h.length_le
  insts_length_le := by
    rw [List.length_append]
    exact hlt
  first j hj x hx hstarts := by
    rcases Nat.lt_or_eq_of_le (Nat.le_of_lt_succ hj) with hj | rfl
    · refine (h.first j hj x hx hstarts).imp_right fun hhead => ?_
      rw [List.head?_append, hhead]
      rfl
    · obtain ⟨-, hxp, hxs⟩ := inst_eq_some_iff.mp hx
      obtain rfl : p = x.prim := Option.some.inj (hprim.symm.trans hxp)
      refine .inr ?_
      rw [hstart hstarts, ← hxs]
      rfl
  last i hi := by
    obtain rfl := follows_self hflag hi
    exact .inr ⟨p, hprim, List.getLast?_concat⟩
  mem a ha := h.mem a fun i hi => ha i (by omega)

/-- One cell -/
theorem step (h : r.Progress e m blocks s) :
    ∃ more, (s.rangeStep e r.image r.bitstring r.targets m).blocks = s.blocks ++ more ∧
      r.Progress e (m + 1) (blocks ++ more) (s.rangeStep e r.image r.bitstring r.targets m) := by
  -- at a target the block is closed
  obtain ⟨more, s₁, hs₁, hblocks₁, h₁, htarget⟩ : ∃ more s₁,
      s₁ = (if bitAt r.targets m then s.compilePrim1 e none else s) ∧
        s₁.blocks = s.blocks ++ more ∧ r.Progress e m (blocks ++ more) s₁ ∧
        (bitAt r.targets m = true → s₁.insts = []) := by
    by_cases htarget : bitAt r.targets m = true
    · exact ⟨[s.insts], _, (if_pos htarget).symm, rfl, h.close, fun _ => rfl⟩
    · refine ⟨[], s, (if_neg htarget).symm, by simp, ?_, fun hbit => absurd hbit htarget⟩
      rw [List.append_nil]
      exact h
  rw [Codegen.rangeStep, ← hs₁]
  by_cases hflag : r.Flagged m
  case neg =>
    rw [if_neg (show ¬ bitAt r.bitstring m = true from hflag)]
    exact ⟨more, hblocks₁, h₁.skip hflag⟩
  -- a block that is full or ends superinstructions is closed
  obtain ⟨more', s₂, hs₂, hblocks₂, h₂, hlt, hstart⟩ : ∃ more' s₂,
      s₂ = (if s₁.full e then s₁.optimizeRewrite e else s₁) ∧
        s₂.blocks = s₁.blocks ++ more' ∧ r.Progress e m (blocks ++ more ++ more') s₂ ∧
        s₂.insts.length < maxBB ∧ (r.Starts e m → s₂.insts = []) := by
    by_cases hfull : s₁.full e = true
    · refine ⟨[s₁.insts], _, (if_pos hfull).symm, rfl, h₁.close, Nat.succ_pos 127, fun _ => rfl⟩
    · refine ⟨[], s₁, (if_neg hfull).symm, by simp, ?_, ?_, ?_⟩
      · rw [List.append_nil]
        exact h₁
      · simp only [Codegen.full, Bool.or_eq_true, decide_eq_true_eq, not_or] at hfull
        omega
      · rintro (hbit | ⟨i, hfollows, hsuper⟩)
        · exact htarget hbit
        · rcases h₁.last i hfollows with hinsts | ⟨p, hprim, hlast⟩
          · exact hinsts
          · refine absurd ?_ hfull
            simp [Codegen.full, hlast, hsuper p hprim]
  have hprim : e.primNum (s₂.mem (r.image + 8 * m)) = r.prim e m := by rw [h₂.mem_next, prim]
  rw [if_pos (show bitAt r.bitstring m = true from hflag), Codegen.compilePrim1, ← hs₂,
    Codegen.compileCell]
  simp only [hprim]
  cases hp : r.prim e m with
  | none =>
    refine ⟨more ++ more' ++ [s₂.insts], ?_, ?_⟩
    · change s₂.blocks ++ [s₂.insts] = _
      rw [hblocks₂, hblocks₁]
      simp
    · have hclosed := h₂.close.codeWord hflag hp rfl
        (e.codeAddress ((s₂.optimizeRewrite e).mem (r.image + 8 * m)))
      rw [← List.append_assoc, ← List.append_assoc]
      exact hclosed
  | some p =>
    refine ⟨more ++ more', ?_, ?_⟩
    · change s₂.blocks = _
      rw [hblocks₂, hblocks₁, List.append_assoc]
    · rw [← List.append_assoc]
      exact h₂.primitive hflag hp hlt hstart

end Progress

/-- All the cells -/
theorem Progress.run {s : Codegen} (hmem : s.mem = r.mem) (hinsts : s.insts = []) (n : Nat) :
    ∃ blocks,
      ((List.range n).foldl (Codegen.rangeStep e r.image r.bitstring r.targets) s).blocks =
        s.blocks ++ blocks ∧
      r.Progress e n blocks
        ((List.range n).foldl (Codegen.rangeStep e r.image r.bitstring r.targets) s) := by
  induction n with
  | zero =>
    refine ⟨[], by simp, ?_, by simp, by simp [hinsts], by simp, fun _ _ => .inl hinsts, ?_⟩
    · simp [hinsts]
    · exact fun a _ => congrFun hmem a
  | succ n ih =>
    obtain ⟨blocks, hblocks, hprogress⟩ := ih
    obtain ⟨more, hmore, hnext⟩ := hprogress.step
    rw [List.range_succ, List.foldl_append, List.foldl_cons, List.foldl_nil]
    refine ⟨blocks ++ more, ?_, hnext⟩
    rw [hmore, hblocks, List.append_assoc]

end Range

/-- The number of cells that {lit}`gforth_compile_range` looks at -/
def rangeCells (size : Nat) : Nat :=
  if size = 0 then 0 else relocSteps size * 8

/-- A range is cut into blocks, no instruction is left, and only marked cells change. -/
theorem compileRange_spec (e : Engine) (r : Range) (size : Nat) {s : Codegen} (hmem : s.mem = r.mem)
    (hinsts : s.insts = []) :
    let s' := s.compileRange e r.image size r.bitstring r.targets
    s'.insts = [] ∧
      (∃ blocks, s'.blocks = s.blocks ++ blocks ∧ r.CutInto e (rangeCells size) blocks) ∧
      ∀ a, (∀ i < rangeCells size, r.Flagged i → a ≠ r.image + 8 * i) → s'.mem a = r.mem a := by
  intro s'
  by_cases hsize : size = 0
  · have hs' : s' = s := if_pos hsize
    rw [hs', rangeCells, if_pos hsize]
    refine ⟨hinsts, ⟨[], by simp, ?_, by simp, by simp⟩, fun a _ => congrFun hmem a⟩
    rfl
  · obtain ⟨blocks, hblocks, hprogress⟩ :=
      Range.Progress.run (e := e) (r := r) hmem hinsts (relocSteps size * 8)
    have hs' : s' = ((List.range (relocSteps size * 8)).foldl
        (Codegen.rangeStep e r.image r.bitstring r.targets) s).optimizeRewrite e := if_neg hsize
    have hclosed := hprogress.close
    rw [← hs'] at hclosed
    rw [rangeCells, if_neg hsize]
    have hs'insts : s'.insts = [] := by rw [hs', Codegen.optimizeRewrite]
    refine ⟨hs'insts, ⟨_, ?_, ?_, hclosed.length_le, fun j hj x hx hstarts => ?_⟩, hclosed.mem⟩
    · rw [hs', Codegen.optimizeRewrite, hblocks, List.append_assoc]
    · rw [← hclosed.passed, hs'insts, List.append_nil]
    · refine (hclosed.first j hj x hx hstarts).resolve_right fun hhead => ?_
      rw [hs'insts] at hhead
      cases hhead

/-- No instruction is left between the ranges. -/
theorem Codegen.Reached.insts_eq_nil {e : Engine} {s : Codegen} (h : Reached e s) : s.insts = [] := by
  induction h with
  | initial mem automaton => rfl
  | compilePrim1 hs ih => rfl
  | @compileRange s hs mem image size bitstring targets ih =>
    exact (compileRange_spec e ⟨mem, image, bitstring, targets⟩ size (s := { s with mem := mem })
      rfl ih).1

/-! ## The search -/

/-- The loop ends at a power of two. -/
theorem doubled_eq (n : Nat) : ∀ fuel i, 0 < i → n ≤ i * 2 ^ fuel →
    ∃ k, doubled n fuel i = i * 2 ^ k ∧ n ≤ i * 2 ^ k ∧ (k = 0 ∨ i * 2 ^ k < 2 * n) := by
  intro fuel
  induction fuel with
  | zero => exact fun i _ hn => ⟨0, by simp [doubled], by simpa using hn, .inl rfl⟩
  | succ fuel ih =>
    intro i hi hn
    by_cases hlt : i < n
    · have hn' : n ≤ i * 2 * 2 ^ fuel := by
        rw [Nat.mul_assoc, Nat.mul_comm 2, ← Nat.pow_succ]
        exact hn
      obtain ⟨k, heq, hge, hk⟩ := ih (i * 2) (by omega) hn'
      have hpow : i * 2 * 2 ^ k = i * 2 ^ (k + 1) := by rw [Nat.pow_succ]; ring
      refine ⟨k + 1, by rw [doubled, if_pos hlt, heq, hpow], by rw [← hpow]; exact hge, .inr ?_⟩
      rw [← hpow]
      rcases hk with rfl | hk
      · omega
      · exact hk
    · exact ⟨0, by rw [doubled, if_neg hlt]; simp, by omega, .inl rfl⟩

namespace Engine

variable {e : Engine}

/-- The labels are sorted. -/
def Sorted (e : Engine) : Prop :=
  ∀ i j, i < j → j < e.npriminfos → (e.label i).ult (e.label j) = true

/-- Labels are in the order of their addresses. -/
theorem Sorted.ult_iff (h : e.Sorted) {i j : Nat} (hi : i < e.npriminfos) (hj : j < e.npriminfos) :
    (e.label i).ult (e.label j) = true ↔ i < j := by
  constructor
  · intro hlt
    by_contra hle
    rcases Nat.lt_or_eq_of_le (Nat.le_of_not_lt hle) with hji | rfl
    · have hgt := h j i hji hi
      rw [BitVec.ult_iff_lt] at hlt hgt
      exact BitVec.lt_asymm hlt hgt
    · rw [BitVec.ult_iff_lt] at hlt
      exact BitVec.lt_irrefl _ hlt
  · exact fun hij => h i j hij hj

/-- Different primitives have different labels. -/
theorem Sorted.label_inj (h : e.Sorted) {i j : Nat} (hi : i < e.npriminfos) (hj : j < e.npriminfos)
    (heq : e.label i = e.label j) : i = j := by
  have hij := h.ult_iff hi hj
  have hji := h.ult_iff hj hi
  have hself : ¬ (e.label j).ult (e.label j) = true := by
    rw [BitVec.ult_iff_lt]
    exact BitVec.lt_irrefl _
  rw [heq] at hij hji
  have hle : ¬ i < j := fun hlt => hself (hij.mpr hlt)
  have hge : ¬ j < i := fun hlt => hself (hji.mpr hlt)
  omega

/-- Where the search goes on -/
theorem Sorted.up_iff (h : e.Sorted) {i k : Nat} (hk : k < e.npriminfos) :
    (i < e.npriminfos ∧ (e.label i).ult (e.label k) = true) ↔ i < k := by
  constructor
  · exact fun hi => (h.ult_iff hi.1 hk).mp hi.2
  · exact fun hik => ⟨hik.trans hk, (h.ult_iff (hik.trans hk) hk).mpr hik⟩

/-- The search halves its distance to the label. -/
theorem searchLoop_eq (h : e.Sorted) {k : Nat} (hk : k < e.npriminfos) : ∀ n fuel i, n < fuel →
    i < k + 2 ^ (n + 1) → k < i + 2 ^ (n + 1) → e.searchLoop (e.label k) fuel (2 ^ n) i = k := by
  intro n
  induction n with
  | zero =>
    intro fuel i hfuel hi hk'
    obtain ⟨fuel, rfl⟩ := Nat.exists_eq_succ_of_ne_zero (by omega : fuel ≠ 0)
    have hend (i : Nat) : e.searchLoop (e.label k) fuel 0 i = i := by cases fuel <;> rfl
    rw [searchLoop, if_pos (Nat.two_pow_pos 0)]
    split
    · rename_i hfound
      exact (h.label_inj hk hfound.1 hfound.2).symm
    · rename_i hother
      have hne : i ≠ k := by
        rintro rfl
        exact hother ⟨hk, rfl⟩
      rw [show (2 ^ 0 / 2 : Nat) = 0 from rfl, hend]
      simp only [h.up_iff hk]
      split <;> omega
  | succ n ih =>
    intro fuel i hfuel hi hk'
    obtain ⟨fuel, rfl⟩ := Nat.exists_eq_succ_of_ne_zero (by omega : fuel ≠ 0)
    rw [searchLoop, if_pos (Nat.two_pow_pos _)]
    split
    · rename_i hfound
      exact (h.label_inj hk hfound.1 hfound.2).symm
    · rename_i hother
      have hhalf : 2 ^ (n + 1) / 2 = 2 ^ n := by rw [Nat.pow_succ]; omega
      have hpow : 2 ^ (n + 1 + 1) = 2 ^ (n + 1) + 2 ^ (n + 1) := by rw [Nat.pow_succ]; omega
      have hpos := Nat.two_pow_pos (n + 1)
      have hne : i ≠ k := by
        rintro rfl
        exact hother ⟨hk, rfl⟩
      rw [hhalf]
      simp only [h.up_iff hk]
      split
      · exact ih fuel _ (by omega) (by omega) (by omega)
      · exact ih fuel _ (by omega) (by omega) (by omega)

/-- The search finds every label but the first one. -/
theorem search_label (h : e.Sorted) {k : Nat} (hpos : 0 < k) (hk : k < e.npriminfos) :
    e.search (e.label k) = k := by
  obtain ⟨m, heq, hge, hm⟩ := doubled_eq e.npriminfos e.npriminfos 1 Nat.one_pos
    (by rw [Nat.one_mul]; exact Nat.lt_two_pow_self.le)
  rw [Nat.one_mul] at heq hge hm
  rw [search, heq]
  match m with
  | 0 => omega
  | 1 =>
    obtain rfl : k = 1 := by omega
    rfl
  | m + 2 =>
    have hhalf : 2 ^ (m + 2) / 2 = 2 ^ (m + 1) := by rw [Nat.pow_succ]; omega
    have hquarter : 2 ^ (m + 1) / 2 = 2 ^ m := by rw [Nat.pow_succ]; omega
    have hpow : 2 ^ (m + 2) = 2 ^ (m + 1) + 2 ^ (m + 1) := by rw [Nat.pow_succ]; omega
    simp only [hhalf, hquarter]
    exact searchLoop_eq h hk m _ _ Nat.lt_two_pow_self (by omega) (by omega)

/-- The xt of a word whose code is that of a primitive -/
theorem primNum_of_label (h : e.Sorted) {cell : BitVec 64} {p : Nat} (hpos : 0 < p)
    (hp : p < e.npriminfos) (hdirect : e.npriminfos ≤ e.direct cell)
    (hcode : e.codeAddress cell = e.label p) : e.primNum cell = some p := by
  rw [primNum, hcode, search_label h hpos hp]
  simp [hdirect, hp]

theorem primNum_of_direct {cell : BitVec 64} (hdirect : e.direct cell < e.npriminfos) :
    e.primNum cell = some (e.direct cell) := by
  rw [primNum]
  simp only [if_neg (Nat.not_le.mpr hdirect)]

end Engine

end BasicBlocks
end Gforth
