import Gforth.RiscV.Disassembler

/-!
# What is correct about an assembled instruction

An instruction is assembled correctly if its operands are taken from the stack, the bits of the
opcode outside of its operands are kept, and the disassembler extracts the operands from the stored
word.

Main results:

- Definition {lit}`Format.Admissible`: the operands that instructions can be given.
- Definition {lit}`Correct`: what an instruction should do.
- Theorem {lit}`exists_correct`: instructions without operands.
-/

namespace Gforth
namespace RiscV

open Lib Stacks

/-! ## Ranges of operands -/

/-- The number can be represented in some signed bits. -/
def IsSigned (n : Nat) (v : Cell) : Prop :=
  -2 ^ (n - 1) ≤ v.toInt ∧ v.toInt < 2 ^ (n - 1)

/-- The number of a register -/
def IsReg (v : Cell) : Prop :=
  v < 32#64

/-- The number of a register in the compact range -/
def IsCReg (v : Cell) : Prop :=
  8#64 ≤ v ∧ v < 16#64

instance (v : Cell) : Decidable (IsReg v) :=
  inferInstanceAs (Decidable (v < 32#64))

instance (v : Cell) : Decidable (IsCReg v) :=
  inferInstanceAs (Decidable (_ ∧ _))

/-! ## Operands -/

namespace Format

/-- The bits of a stored word -/
def storedBits (f : Format) : Cell :=
  if f.isCompressed then 0xFFFF#64 else 0xFFFFFFFF#64

/-- The bits of the operands -/
def operandBits : Format → Cell
  | cNoarg | noargType => 0#64
  | cAddi4spn | cLdw | cLdd | cFldd => 0x1FFC#64
  | cAddi | cSli | cLi | cLui | cLdsp | cFldsp | cLwsp | cSdsp | cFsdsp | cSwsp => 0x1FFC#64
  | cAndi | cSri => 0x13FC#64
  | cAnd => 0x39C#64
  | cJ | cBeq => 0x1FFC#64
  | cAdd | cMv => 0xFFC#64
  | cJr => 0xF80#64
  | cAddi16 => 0x107C#64
  | atomType | rType | frType => 0x1FF8F80#64
  | bType | sType | fsType => 0xFFFF8F80#64
  | fenceType => 0xFF00000#64
  | fr2Type | friType | firType => 0xF8F80#64
  | fr4Type => 0xF9FF8F80#64
  | iType | lType | flType | csrType | csriType => 0xFFFF8F80#64
  | jType | uType | uTypePc => 0xFFFFFF80#64
  | shType => 0x3FF8F80#64

/-- The operands, the last one first, that an instruction at some address can be given -/
def Admissible (here : Cell) : Format → List Cell → Prop
  | cNoarg, [] | noargType, [] => True
  | cAddi4spn, [imm, rd] => imm < 1024#64 ∧ imm % 4#64 = 0#64 ∧ IsCReg rd
  | cLdw, [imm, rs1, rd] => imm < 128#64 ∧ imm % 4#64 = 0#64 ∧ IsCReg rs1 ∧ IsCReg rd
  | cLdd, [imm, rs1, rd] | cFldd, [imm, rs1, rd] =>
      imm < 256#64 ∧ imm % 8#64 = 0#64 ∧ IsCReg rs1 ∧ IsCReg rd
  | cAddi, [imm, rd] | cLi, [imm, rd] => IsSigned 6 imm ∧ IsReg rd
  | cSli, [imm, rd] => imm < 64#64 ∧ IsReg rd
  | cAndi, [imm, rd] => IsSigned 6 imm ∧ IsCReg rd
  | cSri, [imm, rd] => imm < 64#64 ∧ IsCReg rd
  | cLui, [imm, rd] => IsSigned 18 imm ∧ imm % 4096#64 = 0#64 ∧ IsReg rd
  | cAnd, [rs1, rd] => IsCReg rs1 ∧ IsCReg rd
  | cJ, [addr] => IsSigned 12 (addr - here) ∧ (addr - here) % 2#64 = 0#64
  | cBeq, [addr, rs1] => IsSigned 9 (addr - here) ∧ (addr - here) % 2#64 = 0#64 ∧ IsCReg rs1
  | cLdsp, [imm, rd] | cFldsp, [imm, rd] | cSdsp, [imm, rd] | cFsdsp, [imm, rd] =>
      imm < 512#64 ∧ imm % 8#64 = 0#64 ∧ IsReg rd
  | cLwsp, [imm, rd] | cSwsp, [imm, rd] => imm < 256#64 ∧ imm % 4#64 = 0#64 ∧ IsReg rd
  | cAdd, [rs0, rd] | cMv, [rs0, rd] => IsReg rs0 ∧ IsReg rd
  | cJr, [rd] => IsReg rd
  | cAddi16, [imm] => IsSigned 10 imm ∧ imm % 16#64 = 0#64
  | atomType, [r1, r2, rd] | rType, [r1, r2, rd] | frType, [r1, r2, rd] =>
      IsReg r1 ∧ IsReg r2 ∧ IsReg rd
  | bType, [imm, rs1, rs2] => IsSigned 13 imm ∧ imm % 2#64 = 0#64 ∧ IsReg rs1 ∧ IsReg rs2
  | fenceType, [f2, f1] => 0#64 < f2 ∧ f2 < 16#64 ∧ 0#64 < f1 ∧ f1 < 16#64
  | fr2Type, [rs1, rd] | friType, [rs1, rd] | firType, [rs1, rd] => IsReg rs1 ∧ IsReg rd
  | fr4Type, [rs3, rs2, rs1, rd] => IsReg rs3 ∧ IsReg rs2 ∧ IsReg rs1 ∧ IsReg rd
  | iType, [imm, rs1, rd] | lType, [imm, rs1, rd] | flType, [imm, rs1, rd]
  | sType, [imm, rs1, rd] | fsType, [imm, rs1, rd] => IsSigned 12 imm ∧ IsReg rs1 ∧ IsReg rd
  | csrType, [csr, rs1, rd] | csriType, [csr, rs1, rd] =>
      (IsSigned 12 csr ∨ csr < 4096#64) ∧ IsReg rs1 ∧ IsReg rd
  | jType, [imm, rd] => IsSigned 21 imm ∧ imm % 2#64 = 0#64 ∧ IsReg rd
  | shType, [amount, rs1, rd] => amount < 64#64 ∧ IsReg rs1 ∧ IsReg rd
  | uType, [imm, rd] => IsSigned 32 imm ∧ imm % 4096#64 = 0#64 ∧ IsReg rd
  | uTypePc, [addr, rd] => IsSigned 32 (addr - here) ∧ (addr - here) % 4096#64 = 0#64 ∧ IsReg rd
  | _, _ => False

/-- The operands in the order in which they are printed, with offsets for addresses -/
def shown (here : Cell) : Format → List Cell → List Cell
  | cLdw, [imm, rs1, rd] | cLdd, [imm, rs1, rd] | cFldd, [imm, rs1, rd] => [rd, imm, rs1]
  | cAddi, [imm, rd] | cSli, [imm, rd] | cAndi, [imm, rd] | cSri, [imm, rd] => [rd, rd, imm]
  | cAnd, [rs1, rd] => [rd, rs1, rd]
  | cJ, [addr] => [addr - here]
  | cBeq, [addr, rs1] => [rs1, addr - here]
  | cAdd, [rs0, rd] => [rd, rd, rs0]
  | atomType, [rs1, rs2, rd] => [rd, rs2, rs1]
  | bType, [imm, rs1, rs2] => [rs1, rs2, imm]
  | lType, [imm, rs1, rd] | flType, [imm, rs1, rd] => [rd, imm, rs1]
  | sType, [imm, rs2, rs1] | fsType, [imm, rs2, rs1] => [rs2, imm, rs1]
  | uTypePc, [addr, rd] => [rd, addr - here]
  | _, operands => operands.reverse

end Format

/-- An instruction leads from a state to another one as it should. -/
structure Correct (i : Instruction) (s s' : State) : Prop where
  assemble : i.assemble s = some s'
  data : s'.data = s.data
  word : ∃ c, s'.code = c :: s.code ∧ c.fetch &&& ~~~i.format.operandBits = i.opcode ∧
    (i.format.fields c.fetch).map Printed.value =
      (i.format.shown s.here i.operands).map some

/-! ## Tables -/

/-- Opcodes have no bits where operands are put. -/
theorem Instruction.opcode_and (i : Instruction) :
    i.opcode &&& (i.format.storedBits &&& ~~~i.format.operandBits) = i.opcode := by
  have htable : ∀ e ∈ inst16 ++ inst32,
      e.1 &&& (e.2.storedBits &&& ~~~e.2.operandBits) = e.1 := by decide +kernel
  exact htable (i.opcode, i.format) (List.mem_append.2 i.mem)

/-- Cutting a cell is masking. -/
theorem setWidth_setWidth_eq_and {n : Nat} (hn : n < 64) (x : Cell) :
    (x.setWidth n).setWidth 64 = x &&& BitVec.ofNat 64 (2 ^ n - 1) := by
  have hlt : 2 ^ n < 2 ^ 64 := Nat.pow_lt_pow_right (by decide) hn
  apply BitVec.eq_of_toNat_eq
  rw [BitVec.toNat_setWidth, BitVec.toNat_setWidth, BitVec.toNat_and, BitVec.toNat_ofNat,
    Nat.mod_eq_of_lt (a := 2 ^ n - 1) (by omega), Nat.and_two_pow_sub_one_eq_mod,
    Nat.mod_eq_of_lt (Nat.lt_trans (Nat.mod_lt _ (Nat.two_pow_pos n)) hlt)]

/-- What is fetched is what was stored, as far as the format has bits. -/
theorem Format.fetch_stored (f : Format) (x : Cell) : (f.stored x).fetch = x &&& f.storedBits := by
  rw [stored, storedBits]
  split
  · exact setWidth_setWidth_eq_and (n := 16) (by decide) x
  · exact setWidth_setWidth_eq_and (n := 32) (by decide) x

/-- Instructions without operands are assembled correctly. -/
theorem exists_correct {i : Instruction} {s : State} (h : i.format.Admissible s.here i.operands)
    (hnone : i.operands = []) : ∃ s', Correct i s s' := by
  obtain ⟨opcode, f, operands, hmem⟩ := i
  dsimp only at h hnone
  subst hnone
  have hopcode := Instruction.opcode_and ⟨opcode, f, [], hmem⟩
  cases f
  case cNoarg | noargType =>
    refine ⟨_, rfl, rfl, _, rfl, ?_, rfl⟩
    rw [Format.fetch_stored, BitVec.and_assoc]
    exact hopcode
  all_goals exact h.elim

end RiscV
end Gforth
