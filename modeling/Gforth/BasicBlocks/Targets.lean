import Gforth.BasicBlocks.Definitions
import Gforth.BasicBlocks.Ranges
import Gforth.Image.Sections

/-!
# Basic blocks and branch targets

{lit}`flush-code` hands the code of a definition to {lit}`gforth_compile_range`, and the loader does
so with the sections of an image.  In both cases the blocks that {lit}`optimize_rewrite` gets start
wherever a branch leads.

Main results:

- Theorem {lit}`blocks_respect_targets`: the blocks of definitions and of images.
-/

namespace Gforth
namespace BasicBlocks

open Lib
open Image (Loader RangeState aligned relocateRange relocateStep relocSteps markTarget sectionOf
  primSection inSection)

/-! ## Definitions -/

namespace State

/-- The size that {lit}`flush-code` passes on -/
def size (s : State) : Nat :=
  aligned s.here - s.codestart

/-- The range that {lit}`flush-code` passes on -/
def range (s : State) : Range where
  mem := s.mem
  image := s.codestart
  bitstring := bit (s.size / 8) s.primbits
  targets := bit (s.size / 8) s.targets

/-- {lit}`flush-code` -/
def flushCode (e : Engine) (s : State) (g : Codegen) : State × Codegen :=
  let r := s.range
  let g := Codegen.compileRange e r.image s.size r.bitstring r.targets { g with mem := s.mem }
  ({ s with mem := g.mem, primbits := [], targets := [], codestart := aligned s.here }, g)

/-- What {lit}`;` compiles in front of {lit}`flush-code`: an {lit}`exit`.  The hooks in front of it
(locals, of which there are none), and behind {lit}`flush-code` the check of the control-flow stack,
{lit}`reveal` and the change of the compilation state, are left out; they compile nothing. -/
def semicolon (c : Settings) (s : State) : State :=
  s.exit c

end State

/-! ## Images -/

/-- The memory with the cells of an image -/
def loaded (start : Nat) (image : List Cell) (mem : Nat → Cell) (a : Nat) : Cell :=
  if start ≤ a ∧ (a - start) % 8 = 0 ∧ (a - start) / 8 < image.length then
    image.getD ((a - start) / 8) 0#64
  else mem a

/-- A section of an image, with its relocation bits -/
structure ImageSection where
  start : Nat
  image : List Cell
  size : Nat
  base : Cell
  bitstring : List Byte
  sect : Nat

namespace ImageSection

/-- The section after {lit}`gforth_relocate_range` -/
def relocated (ld : Loader) (i : ImageSection) : RangeState :=
  relocateRange ld i.image i.size i.base i.bitstring i.sect

/-- The range that the loader compiles -/
def range (ld : Loader) (i : ImageSection) (mem : Nat → Cell) : Range where
  mem := loaded i.start (i.relocated ld).image mem
  image := i.start
  bitstring := (i.relocated ld).bitstring
  targets := (i.relocated ld).targets

/-- {lit}`gforth_relocate`, for one section -/
def load (ld : Loader) (e : Engine) (i : ImageSection) (g : Codegen) : Codegen :=
  let r := i.range ld g.mem
  Codegen.compileRange e r.image i.size r.bitstring r.targets { g with mem := r.mem }

/-- An address token of the section: it leads to a cell of the same section. -/
def LeadsTo (i : ImageSection) (j : Nat) : Prop :=
  ∃ k < relocSteps i.size * 8, bitAt i.bitstring k = true ∧
    sectionOf (i.image.getD k 0#64) ≠ primSection ∧ i.base.sle (i.image.getD k 0#64) = true ∧
    sectionOf (i.image.getD k 0#64) = i.sect ∧
    j = ((inSection (i.image.getD k 0#64) - inSection i.base) / 8#64).toNat

end ImageSection

/-- Setting a bit keeps those that are set. -/
theorem bitAt_setBit_of_bitAt {bits : List Byte} {v : Nat} (u : Nat) (h : bitAt bits v = true) :
    bitAt (setBit u bits) v = true := by
  by_cases hne : v = u
  · subst hne
    rcases Nat.lt_or_ge v (8 * bits.length) with hlt | hge
    · rw [bitAt_setBit hlt, h, Bool.or_true]
    · simp [bitAt, Nat.not_lt.mpr (by omega : bits.length ≤ v / 8)] at h
  · rw [bitAt_setBit_of_ne bits hne, h]

/-- Marking a target keeps the size of the bit map. -/
@[simp]
theorem length_markTarget (base token : Cell) (sect : Nat) (targets : List Byte) :
    (markTarget base token sect targets).length = targets.length := by
  rw [markTarget]
  split
  · exact length_setBit _ _
  · rfl

/-- A step of the relocation keeps the size of the bit map. -/
theorem relocateStep_targets_length (ld : Loader) (base : Cell) (sect : Nat) (s : RangeState) (k : Nat) :
    (relocateStep ld base sect s k).targets.length = s.targets.length := by
  rw [relocateStep]
  split
  · exact length_markTarget _ _ _ _
  · rfl

/-- A target that is marked stays marked. -/
theorem relocateStep_keeps_target (ld : Loader) (base : Cell) (sect : Nat) (s : RangeState) (k : Nat)
    {j : Nat} (h : bitAt s.targets j = true) :
    bitAt (relocateStep ld base sect s k).targets j = true := by
  rw [relocateStep]
  split
  · simp only [markTarget]
    split
    · exact bitAt_setBit_of_bitAt _ h
    · exact h
  · exact h

/-- The targets of the tokens that were looked at are marked. -/
theorem relocateSteps_targets (ld : Loader) (base : Cell) (sect : Nat) (s : RangeState) (m : Nat) :
    let s' := (List.range m).foldl (relocateStep ld base sect) s
    s'.targets.length = s.targets.length ∧
      ∀ k < m, bitAt s.bitstring k = true → sectionOf (s.image.getD k 0#64) ≠ primSection →
        base.sle (s.image.getD k 0#64) = true → sectionOf (s.image.getD k 0#64) = sect →
        ((inSection (s.image.getD k 0#64) - inSection base) / 8#64).toNat < 8 * s.targets.length →
        bitAt s'.targets ((inSection (s.image.getD k 0#64) - inSection base) / 8#64).toNat = true := by
  induction m with
  | zero => simp
  | succ m ih =>
    obtain ⟨hlen, hmarked⟩ := ih
    obtain ⟨himagelen, himage, hbits⟩ := Image.relocateSteps_spec ld base sect s m
    rw [List.range_succ, List.foldl_append, List.foldl_cons, List.foldl_nil]
    refine ⟨(relocateStep_targets_length _ _ _ _ _).trans hlen, fun k hk hbit hprim hbase hsect hj => ?_⟩
    rcases Nat.lt_or_eq_of_le (Nat.le_of_lt_succ hk) with hk | rfl
    · exact relocateStep_keeps_target _ _ _ _ _ (hmarked k hk hbit hprim hbase hsect hj)
    · have htoken : ((List.range k).foldl (relocateStep ld base sect) s).image.getD k 0#64 =
          s.image.getD k 0#64 := by
        rcases Nat.lt_or_ge k s.image.length with hlt | hge
        · rw [himage k hlt, if_neg (by simp)]
        · rw [List.getD_eq_default _ _ (himagelen.trans_le hge), List.getD_eq_default _ _ hge]
      rw [relocateStep, if_pos ((hbits k le_rfl).trans hbit)]
      simp only [htoken, markTarget]
      rw [if_pos ⟨hprim, hbase, hsect⟩, bitAt_setBit (by rw [hlen]; exact hj)]
      simp

/-! ## Blocks -/

/-- The calls of {lit}`optimize_rewrite` for a range respect the destinations of the branches: its
cells are cut into blocks, every instruction that a branch leads to is the first one of its block, no
instruction is left, and cells that are not marked are unchanged. -/
structure Respects (e : Engine) (r : Range) (n : Nat) (dest : Nat → Prop) (g g' : Codegen) : Prop where
  pending : g'.insts = []
  blocks : ∃ blocks, g'.blocks = g.blocks ++ blocks ∧ r.CutInto e n blocks ∧
    ∀ j < n, dest j → ∀ x, r.inst e j = some x → ∃ block ∈ blocks, block.head? = some x
  mem : ∀ a, (∀ i < n, r.Flagged i → a ≠ r.image + 8 * i) → g'.mem a = r.mem a

/-- The compiler respects every target that is marked. -/
theorem compileRange_respects (e : Engine) (r : Range) (size : Nat) {g : Codegen}
    (hinsts : g.insts = []) {dest : Nat → Prop}
    (hdest : ∀ j < rangeCells size, dest j → bitAt r.targets j = true) :
    Respects e r (rangeCells size) dest g
      (Codegen.compileRange e r.image size r.bitstring r.targets { g with mem := r.mem }) := by
  obtain ⟨hpending, ⟨blocks, hblocks, hcut⟩, hmem⟩ :=
    compileRange_spec e r size (s := { g with mem := r.mem }) rfl hinsts
  exact ⟨hpending, ⟨blocks, hblocks, hcut, fun j hj hd x hx =>
    hcut.first j hj x hx (.inl (hdest j hj hd))⟩, hmem⟩

/-- What {lit}`flush-code` passes on for a definition: the marked cells are the compiled
instructions, the destinations are among them, and the strings of bits are long enough. -/
structure State.Flushes (s : State) : Prop where
  flagged_iff : ∀ i, s.range.Flagged i ↔ ∃ xt, (s.codestart + 8 * i, xt) ∈ s.compiled
  mem : ∀ a xt, (a, xt) ∈ s.compiled → s.mem a = xt
  lt : ∀ i, s.range.Flagged i → i < rangeCells s.size
  dests : ∀ d ∈ s.dests, ∃ i, d = s.codestart + 8 * i ∧ s.range.Flagged i
  length : relocSteps s.size ≤ s.range.bitstring.length ∧ relocSteps s.size ≤ s.range.targets.length

/-- Marked items get their code flushed. -/
theorem State.Marked.flushes {s : State} {items : List Control.CsItem} (h : s.Marked false items) :
    s.Flushes := by
  have hflag (i : Nat) : s.range.Flagged i ↔ s.IsInstruction (s.codestart + 8 * i) := by
    rw [Range.Flagged, State.range, bitAt_bit]
    exact h.primbits i
  obtain ⟨n, hn⟩ := h.here
  have hsize : s.size = 8 * ((s.codestart + 8 * n + 7) / 8) - s.codestart := by
    rw [State.size, aligned, hn, Nat.mul_comm]
  refine ⟨hflag, fun a xt hmem => (h.compiled _ hmem).2.2, fun i hi => ?_, fun d hd => ?_, ?_⟩
  · have hlt := h.lt_here ((hflag i).mp hi)
    rw [rangeCells, if_neg (by omega), relocSteps]
    omega
  · obtain ⟨xt, hmem⟩ := (h.dests d hd).resolve_right (by simp)
    obtain ⟨i, rfl⟩ := (h.compiled _ hmem).1
    exact ⟨i, rfl, (hflag i).mpr ⟨xt, hmem⟩⟩
  · have hbits := lt_length_bit (s.size / 8) s.primbits
    have htargets := lt_length_bit (s.size / 8) s.targets
    simp only [State.range, relocSteps]
    omega

/-- Definitions: a branch that {lit}`>resolve` or {lit}`<resolve` has stored leads to the first
instruction of a block.  Images: so does an address token.  Sorted labels: the instructions that are
passed on are those whose xt is in {lit}`vm_prims` or has the code of a primitive. -/
theorem blocks_respect_targets (c : Settings) (e : Engine) :
    (∀ (ts : List Token) (s s' : State) (g : Codegen), s.Fresh → compileAll c ts s = some s' →
      Codegen.Reached e g →
        (s'.semicolon c).Flushes ∧
          Respects e (s'.semicolon c).range (rangeCells (s'.semicolon c).size)
            (fun j => (s'.semicolon c).codestart + 8 * j ∈ (s'.semicolon c).dests) g
            ((s'.semicolon c).flushCode e g).2) ∧
      (∀ (ld : Loader) (i : ImageSection) (g : Codegen), Codegen.Reached e g →
        Respects e (i.range ld g.mem) (rangeCells i.size) i.LeadsTo g (i.load ld e g)) ∧
      (e.Sorted → ∀ cell p, 0 < p → p < e.npriminfos →
        (e.primNum cell = some p ↔
          e.direct cell = p ∨ e.npriminfos ≤ e.direct cell ∧ e.codeAddress cell = e.label p)) := by
  refine ⟨fun ts s s' g hs hrun hg => ?_, fun ld i g hg => ?_, fun hsorted cell p hpos hp => ?_⟩
  · have hmarked := semicolon_marked c (compileAll_marked c ts hs.marked hrun)
    refine ⟨hmarked.flushes, compileRange_respects e _ _ hg.insts_eq_nil fun j _ hd => ?_⟩
    rw [State.range, bitAt_bit]
    exact (hmarked.targets j).mpr hd
  · refine compileRange_respects e _ _ hg.insts_eq_nil ?_
    rintro j hj ⟨k, hk, hbit, hprim, hbase, hsect, rfl⟩
    have hlen : rangeCells i.size ≤ 8 * relocSteps i.size := by
      rw [rangeCells]
      split <;> omega
    refine (relocateSteps_targets ld i.base i.sect ⟨i.image, i.bitstring,
      List.replicate (relocSteps i.size) 0#8⟩ (relocSteps i.size * 8)).2 k hk hbit hprim hbase hsect ?_
    rw [List.length_replicate]
    exact hj.trans_le hlen
  · constructor
    · intro hprim
      rcases Nat.lt_or_ge (e.direct cell) e.npriminfos with hlt | hge
      · rw [Engine.primNum_of_direct hlt] at hprim
        exact .inl (Option.some.inj hprim)
      · refine .inr ⟨hge, ?_⟩
        rw [Engine.primNum] at hprim
        simp only [if_pos hge] at hprim
        split at hprim
        case isTrue hcode =>
          split at hprim
          · cases hprim
          · rw [hcode, Option.some.inj hprim]
        case isFalse => simp at hprim
    · rintro (rfl | ⟨hge, hcode⟩)
      · exact Engine.primNum_of_direct hp
      · exact Engine.primNum_of_label hsorted hpos hp hge hcode

/-! ## An example -/

/-- Small numbers for the xts -/
def threaded : Settings where
  lit := 16#64
  branch := 24#64
  qBranch := 32#64
  qDupQBranch := 40#64
  qDupZeroQBranch := 48#64
  zeroEquals := 56#64
  unloop := 64#64
  semicolonS := 72#64
  enter _ := 80#64
  exit _ := 88#64
  unresolvedLeave := 0#64
  fold _ _ := none
  glocals := false

/-- An engine with twelve primitives, whose branches end superinstructions -/
def smallEngine : Engine where
  vmPrims := 0#64
  label i := BitVec.ofNat 64 i
  npriminfos := 12
  superend p := p = 1 ∨ p = 2 ∨ p = 7
  codeAddress _ := 100#64
  selector :=
    { superCosts := [], super2 := [], priminfos := [], noDynamic := true, maxstates := 1
      maxstates_pos := Nat.one_pos, staticSuperNumber := 0, tpaNoequiv := false
      tpaNoautomaton := false, ssCost := fun _ => 0, nNoop := 0 }
  tables := .initial
  allocate q := q
  code _ _ _ _ := 0#64

/-- The start of a definition -/
def State.start : State where
  mem _ := 0#64
  here := 64
  codestart := 64
  primbits := []
  targets := []
  litstack := []
  items := []
  leaveStack := []
  csDepth1 := 0
  deadCode := false
  localsList := 0
  compiled := []
  dests := []

theorem State.start_fresh : State.start.Fresh :=
  ⟨rfl, rfl, rfl, rfl, rfl, rfl, rfl, rfl⟩

/-- {lit}`BEGIN WHILE 5 word REPEAT`, with a code word -/
theorem blocks_respect_targets_while :
    ∃ s', compileAll threaded [.begin, .while, .literal 5#64, .word 1000#64 [], .repeat] .start =
        some s' ∧
      Respects smallEngine (s'.semicolon threaded).range (rangeCells (s'.semicolon threaded).size)
        (fun j => (s'.semicolon threaded).codestart + 8 * j ∈ (s'.semicolon threaded).dests)
        ⟨fun _ => 0#64, [], [], Selector.Tpa.initial smallEngine.selector .initial⟩
        ((s'.semicolon threaded).flushCode smallEngine
          ⟨fun _ => 0#64, [], [], Selector.Tpa.initial smallEngine.selector .initial⟩).2 :=
  ⟨_, rfl, ((blocks_respect_targets threaded smallEngine).1
    [.begin, .while, .literal 5#64, .word 1000#64 [], .repeat] .start _ _ State.start_fresh rfl
    (.initial _ _)).2⟩

end BasicBlocks
end Gforth
