import Gforth.Lib.Depths
import Gforth.RiscV.Correctness

/-!
# Sequences of instructions

The word {lit}`or` of the assembler does not join anything, so that each word for a field leaves more
on the stack than it has found there.  An instruction with operands does not consume them.

Main results:

- Theorem {lit}`exists_leaves_words`: the words of no type take anything from the stack.
- Theorem {lit}`not_correct_of_operands`: an instruction with operands is not assembled correctly.
- Theorem {lit}`allCorrect_iff`: sequences of instructions that are.
-/

namespace Gforth
namespace RiscV

open Lib Stacks

/-! ## Counts of the words -/

instance (u : Cell) : Counted (mask u) :=
  inferInstanceAs (Counted (unary _))

instance (k : Nat) : Counted (lshift k) :=
  inferInstanceAs (Counted (unary _))

instance (k : Nat) : Counted (rshift k) :=
  inferInstanceAs (Counted (unary _))

instance : Counted twoStar :=
  inferInstanceAs (Counted (unary _))

instance : Counted twoSlash :=
  inferInstanceAs (Counted (unary _))

instance : Counted and' :=
  inferInstanceAs (Counted (binary _))

instance : Counted or' :=
  inferInstanceAs (Counted (lit _))

/-- The check of a register replaces it. -/
theorem leaves_checkCReg : Leaves checkCReg 0 := by
  rintro ⟨d, r⟩ s' h
  match d with
  | [] => cases h
  | reg :: d =>
    rw [checkCReg] at h
    split at h
    · cases h
      simp
    · cases h

instance : Counted checkCReg := ⟨0, leaves_checkCReg⟩

instance (u : Cell) (k : Nat) : Counted (toField u k) :=
  inferInstanceAs (Counted (colon _))

instance : Counted toRd :=
  inferInstanceAs (Counted (toField _ _))

instance : Counted toRs0 :=
  inferInstanceAs (Counted (toField _ _))

instance : Counted toRs1 :=
  inferInstanceAs (Counted (toField _ _))

instance : Counted toRs2 :=
  inferInstanceAs (Counted (toField _ _))

instance : Counted toShift :=
  inferInstanceAs (Counted (toField _ _))

instance : Counted toRs3 :=
  inferInstanceAs (Counted (toField _ _))

instance : Counted toFence1 :=
  inferInstanceAs (Counted (toField _ _))

instance : Counted toFence2 :=
  inferInstanceAs (Counted (toField _ _))

instance : Counted toImmI :=
  inferInstanceAs (Counted (toField _ _))

instance (k : Nat) : Counted (toCField k) :=
  inferInstanceAs (Counted (colon _))

instance : Counted toRd' :=
  inferInstanceAs (Counted (toCField _))

instance : Counted toRs1' :=
  inferInstanceAs (Counted (toCField _))

instance : Counted toImm4spn :=
  inferInstanceAs (Counted (colon _))

instance : Counted toImmSize :=
  inferInstanceAs (Counted (colon _))

instance : Counted toImm1 :=
  inferInstanceAs (Counted (colon _))

instance : Counted toImm2 :=
  inferInstanceAs (Counted (colon _))

instance : Counted toImm2size :=
  inferInstanceAs (Counted (colon _))

instance : Counted toImm3 :=
  inferInstanceAs (Counted (colon _))

instance : Counted toImm3size :=
  inferInstanceAs (Counted (colon _))

instance (here : Cell) : Counted (toImmCj here) :=
  inferInstanceAs (Counted (colon _))

instance (here : Cell) : Counted (toImmBeq here) :=
  inferInstanceAs (Counted (colon _))

instance : Counted toImm16 :=
  inferInstanceAs (Counted (colon _))

instance : Counted toImmS :=
  inferInstanceAs (Counted (colon _))

instance : Counted toImmU :=
  inferInstanceAs (Counted (colon _))

instance : Counted toImmJ :=
  inferInstanceAs (Counted (colon _))

instance : Counted toImmB :=
  inferInstanceAs (Counted (colon _))

theorem exists_leaves_words (here : Cell) (f : Format) :
    ∃ k : Nat, Leaves (colon (f.words here)) k := by
  cases f <;> simp only [Format.words] <;> exact Counted.exists_leaves rfl

/-! ## Instructions -/

/-- The operands of an instruction are still on the stack behind it. -/
theorem Instruction.length_le_of_assemble {i : Instruction} {s s' : State}
    (h : i.assemble s = some s') : i.operands.length + s.data.length ≤ s'.data.length := by
  obtain ⟨k, hleaves⟩ := exists_leaves_words s.here i.format
  rw [Instruction.assemble] at h
  split at h
  case h_1 x d r hcolon =>
    have hlength := hleaves _ _ hcolon
    cases h
    simp only [List.length_cons, List.length_append] at hlength ⊢
    omega
  case h_2 => cases h

/-- An instruction with operands is not assembled correctly. -/
theorem not_correct_of_operands {i : Instruction} {s : State} (h : i.operands ≠ []) :
    ¬∃ s', Correct i s s' := by
  rintro ⟨s', hcorrect⟩
  have hlength := Instruction.length_le_of_assemble hcorrect.assemble
  have hpos := List.length_pos_iff.2 h
  rw [hcorrect.data] at hlength
  omega

/-- Only an instruction without operands is assembled correctly. -/
theorem correct_iff_operands_eq_nil (i : Instruction) (s : State)
    (h : i.format.Admissible s.here i.operands) : (∃ s', Correct i s s') ↔ i.operands = [] := by
  constructor
  · intro hcorrect
    by_contra hne
    exact not_correct_of_operands hne hcorrect
  · exact exists_correct h

/-! ## Sequences -/

/-- The number of bytes of an instruction -/
def Format.size (f : Format) : Cell :=
  if f.isCompressed then 2#64 else 4#64

theorem Format.size_stored (f : Format) (x : Cell) : (f.stored x).size = f.size := by
  rw [stored, size]
  split <;> rfl

/-- The operands can be given at the addresses of the instructions. -/
def AllAdmissible : List Instruction → Cell → Prop
  | [], _ => True
  | i :: is, here =>
      i.format.Admissible here i.operands ∧ AllAdmissible is (here + i.format.size)

/-- Each instruction is assembled correctly where the ones in front of it have led. -/
def AllCorrect : List Instruction → State → Prop
  | [], _ => True
  | i :: is, s => ∃ s', Correct i s s' ∧ AllCorrect is s'

/-- An instruction takes its size in the dictionary. -/
theorem Correct.here {i : Instruction} {s s' : State} (h : Correct i s s') :
    s'.here = s.here + i.format.size := by
  have hs := h.assemble
  rw [Instruction.assemble] at hs
  split at hs
  · cases hs
    rw [Format.size_stored]
  · cases hs

/-- The whole sequence consumes its operands. -/
theorem AllCorrect.foldlM {is : List Instruction} {s : State} (h : AllCorrect is s) :
    ∃ s', is.foldlM (fun s i => i.assemble s) s = some s' ∧ s'.data = s.data := by
  induction is generalizing s with
  | nil => exact ⟨s, rfl, rfl⟩
  | cons i is ih =>
    obtain ⟨s', hcorrect, hall⟩ := h
    obtain ⟨t, ht, hdata⟩ := ih hall
    refine ⟨t, ?_, hdata.trans hcorrect.data⟩
    rw [List.foldlM_cons, hcorrect.assemble]
    exact ht

/-- A sequence is assembled correctly if and only if none of its instructions has operands. -/
theorem allCorrect_iff (is : List Instruction) (s : State) (h : AllAdmissible is s.here) :
    AllCorrect is s ↔ ∀ i ∈ is, i.operands = [] := by
  induction is generalizing s with
  | nil => exact iff_of_true trivial (List.forall_mem_nil _)
  | cons i is ih =>
    obtain ⟨hi, his⟩ := h
    rw [List.forall_mem_cons, ← correct_iff_operands_eq_nil i s hi]
    constructor
    · rintro ⟨s', hcorrect, hall⟩
      exact ⟨⟨s', hcorrect⟩, (ih s' (hcorrect.here ▸ his)).1 hall⟩
    · rintro ⟨⟨s', hcorrect⟩, hall⟩
      exact ⟨s', hcorrect, (ih s' (hcorrect.here ▸ his)).2 hall⟩

/-! ## Instructions of the tables -/

/-- {lit}`ecall` -/
def ecall : Instruction :=
  ⟨0x73#64, .noargType, [], by decide⟩

/-- {lit}`a0 a1 -1 addi` -/
def addi : Instruction :=
  ⟨0x13#64, .iType, [-1#64, 11#64, 10#64], by decide⟩

/-- An empty stack, and no code -/
def start : State :=
  ⟨[], 0x1000#64, []⟩

theorem admissible_addi (here : Cell) : addi.format.Admissible here addi.operands :=
  ⟨⟨by decide, by decide⟩, by decide, by decide⟩

/-- Two instructions, one of them with operands -/
theorem allCorrect_iff_addi :
    AllAdmissible [ecall, addi] start.here ∧
      (AllCorrect [ecall, addi] start ↔ ∀ i ∈ [ecall, addi], i.operands = []) :=
  ⟨⟨trivial, admissible_addi _, trivial⟩,
    allCorrect_iff [ecall, addi] start ⟨trivial, admissible_addi _, trivial⟩⟩

/-- The constant is stored in place of the instruction, and six items are left. -/
theorem not_allCorrect_addi :
    AllAdmissible [addi] start.here ∧
      (addi.assemble start).map (fun s => (s.code, s.data.length)) = some ([.long 6#32], 6) ∧
      ¬AllCorrect [addi] start := by
  refine ⟨⟨admissible_addi _, trivial⟩, by decide, ?_⟩
  rintro ⟨s', hcorrect, -⟩
  exact not_correct_of_operands (by decide) ⟨s', hcorrect⟩

end RiscV
end Gforth
