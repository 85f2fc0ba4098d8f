import Gforth.Lib.Stacks

/-!
# The RISC-V assembler

An instruction is a word that is to take its operands from the data stack and to put them into the
fields of its opcode, the last operand first.  The words for fields and the types of instructions are
the ones of {lit}`arch/riscv/asm.fs`, the opcodes the ones of {lit}`inst16.fs` and {lit}`inst32.fs`.

Main definitions:

- Definition {lit}`Format.words`: the words of each type of instructions.
- Definition {lit}`Instruction.assemble`: what an instruction does with the stack and the code.
-/

namespace Gforth
namespace RiscV

open Lib Stacks

/-- Cells have 64 bits. -/
abbrev Cell : Type :=
  BitVec 64

/-! ## Words with literals -/

/-- A literal and {lit}`and` -/
def mask (u : Cell) : Effect Cell :=
  unary (· &&& u)

/-- A literal and {lit}`lshift` -/
def lshift (k : Nat) : Effect Cell :=
  unary fun u => u <<< k

/-- A literal and {lit}`rshift` -/
def rshift (k : Nat) : Effect Cell :=
  unary fun u => u >>> k

/-- {lit}`and` -/
def and' : Effect Cell :=
  binary (· &&& ·)

/-- {lit}`or`, which is not the word for bits here: {lit}`fences:` has made it a constant for
{lit}`fence` in the word list that is searched first. -/
def or' : Effect Cell :=
  lit 6#64

/-- {lit}`2*` -/
def twoStar : Effect Cell :=
  lshift 1

/-- {lit}`2/` -/
def twoSlash : Effect Cell :=
  unary fun n => n.sshiftRight 1

/-! ## Registers -/

/-- The common body of the words for operands that are not spread over several fields -/
def toField (u : Cell) (k : Nat) : Effect Cell :=
  colon [swap, mask u, lshift k, or']

/-- {lit}`>rd` -/
def toRd : Effect Cell :=
  toField 0x1F#64 7

/-- {lit}`>rs0` -/
def toRs0 : Effect Cell :=
  toField 0x1F#64 2

/-- {lit}`>rs1` -/
def toRs1 : Effect Cell :=
  toField 0x1F#64 15

/-- {lit}`>rs2` -/
def toRs2 : Effect Cell :=
  toField 0x1F#64 20

/-- {lit}`>shift` -/
def toShift : Effect Cell :=
  toField 0x3F#64 20

/-- {lit}`>rs3` -/
def toRs3 : Effect Cell :=
  toField 0x1F#64 27

/-- {lit}`?c-reg`, which throws {lit}`no-reg` if the register is not in the compact range -/
def checkCReg : Effect Cell
  | ⟨reg :: d, r⟩ => if reg - 8#64 < 8#64 then some ⟨(reg - 8#64) :: d, r⟩ else none
  | _ => none

/-- The common body of the words for registers in the compact range -/
def toCField (k : Nat) : Effect Cell :=
  colon [swap, checkCReg, lshift k, or']

/-- {lit}`>rd'` -/
def toRd' : Effect Cell :=
  toCField 2

/-- {lit}`>rs1'` -/
def toRs1' : Effect Cell :=
  toCField 7

/-- {lit}`>fence1` -/
def toFence1 : Effect Cell :=
  toField 0xF#64 24

/-- {lit}`>fence2` -/
def toFence2 : Effect Cell :=
  toField 0xF#64 20

/-! ## Immediate operands of 16 bit instructions -/

/-- {lit}`>imm-4spn` -/
def toImm4spn : Effect Cell :=
  colon [toR,
    dup, rshift 4, mask 3#64, toR,
    dup, rshift 6, mask 0xF#64, fromR, lshift 4, or', toR,
    dup, rshift 2, mask 1#64, fromR, twoStar, or', toR,
    rshift 3, fromR, or', lshift 5, fromR, or']

/-- {lit}`>imm-size` -/
def toImmSize : Effect Cell :=
  colon [lit (-1#64), swap, binary fun x u => x <<< u.toNat, toR, dup, rshift 6, rFetch,
    unary (~~~·), and', swap, fromR, and', or']

/-- {lit}`>imm-1` -/
def toImm1 : Effect Cell :=
  colon [toR,
    dup, mask 0x20#64, lshift (12 - 5), fromR, or', toR,
    mask 0x1F#64, lshift 2, fromR, or']

/-- {lit}`>imm-2` -/
def toImm2 : Effect Cell :=
  colon [toR,
    dup, mask 0x1C#64, lshift (10 - 3), fromR, or', toR,
    mask 3#64, lshift 2, fromR, or']

/-- {lit}`>imm-2size` -/
def toImm2size : Effect Cell :=
  colon [swap, toR,
    toR, twoSlash, fromR, unary (· - 1#64), toImmSize, fromR, toImm2]

/-- {lit}`>imm-3` -/
def toImm3 : Effect Cell :=
  colon [toR,
    dup, mask 0x1F#64, lshift 7, fromR, or']

/-- {lit}`>imm-3size` -/
def toImm3size : Effect Cell :=
  colon [swap, toR,
    toImmSize, fromR, toImm3]

/-- {lit}`>imm-cj` -/
def toImmCj (here : Cell) : Effect Cell :=
  colon [toR, lit here, binary (· - ·),
    dup, rshift 11, mask 1#64, toR,
    dup, rshift 4, mask 1#64, fromR, twoStar, or', toR,
    dup, rshift 8, mask 3#64, fromR, twoStar, twoStar, or', toR,
    dup, rshift 10, mask 1#64, fromR, twoStar, or', toR,
    dup, rshift 6, mask 1#64, fromR, twoStar, or', toR,
    dup, rshift 7, mask 1#64, fromR, twoStar, or', toR,
    dup, rshift 1, mask 7#64, fromR, twoStar, twoStar, twoStar, or', toR,
    rshift 5, mask 1#64, fromR, twoStar, or',
    lshift 2, fromR, or']

/-- {lit}`>imm-beq` -/
def toImmBeq (here : Cell) : Effect Cell :=
  colon [toR, lit here, binary (· - ·),
    dup, rshift 8, mask 1#64, toR,
    dup, rshift 3, mask 3#64, fromR, twoStar, twoStar, or', toR,
    -- there is no or behind the shift
    dup, rshift 6, mask 3#64, fromR, lshift 5, toR,
    dup, rshift 1, mask 3#64, fromR, twoStar, twoStar, or', toR,
    rshift 5, mask 1#64, fromR, twoStar, or',
    lshift 2, fromR, or']

/-- {lit}`>imm-16` -/
def toImm16 : Effect Cell :=
  colon [toR,
    dup, rshift 9, mask 1#64, toR,
    dup, rshift 4, mask 1#64, fromR, lshift 6, or', toR,
    dup, rshift 6, mask 1#64, fromR, twoStar, or', toR,
    dup, rshift 7, mask 3#64, fromR, twoStar, twoStar, or', toR,
    rshift 5, mask 1#64, fromR, twoStar, or',
    lshift 2, fromR, or']

/-! ## Immediate operands of 32 bit instructions -/

/-- {lit}`>imm-i` -/
def toImmI : Effect Cell :=
  toField 0xFFF#64 20

/-- {lit}`>imm-s` -/
def toImmS : Effect Cell :=
  colon [over', mask 0x1F#64, lshift 7, or', swap, mask 0xFE0#64, lshift 20, or']

/-- {lit}`>imm-u` -/
def toImmU : Effect Cell :=
  colon [swap, mask 0xFFFFF000#64, or']

/-- {lit}`>imm-j` -/
def toImmJ : Effect Cell :=
  colon [toR,
    dup, rshift 20, mask 1#64, toR,
    dup, twoSlash, mask 0x3FF#64, fromR, lshift 10, or', toR,
    dup, rshift 11, mask 1#64, fromR, twoStar, or', toR,
    mask 0xFF000#64, fromR, lshift 20, or',
    lshift 12, fromR, or']

/-- {lit}`>imm-b` -/
def toImmB : Effect Cell :=
  colon [toR,
    dup, mask 0x1000#64, twoSlash, over', mask 0x7E0#64, and', lshift 20, fromR, or', toR,
    dup, mask 0x1E#64, swap, rshift 11, mask 1#64, or',
    lshift 7, fromR, or']

/-! ## Types of instructions -/

/-- The types of instructions; synonyms in the assembler are told apart by the disassembler. -/
inductive Format where
  | cNoarg | cAddi4spn | cLdw | cLdd | cFldd | cAddi | cSli | cLi | cAndi | cSri | cLui | cAnd
  | cJ | cBeq | cLdsp | cFldsp | cLwsp | cSdsp | cFsdsp | cSwsp | cAdd | cMv | cJr | cAddi16
  | atomType | bType | fenceType | fr2Type | fr4Type | friType | firType | iType | lType | flType
  | csrType | csriType | jType | noargType | rType | frType | shType | sType | fsType | uType
  | uTypePc
deriving DecidableEq

namespace Format

/-- The words of a type up to {lit}`w,` or {lit}`l,` -/
def words (here : Cell) : Format → List (Effect Cell)
  | cNoarg => []
  | cAddi4spn => [toImm4spn, toRd']
  | cLdw => [lit 2#64, toImm2size, toRs1', toRd']
  | cLdd | cFldd => [lit 3#64, toImm2size, toRs1', toRd']
  | cAddi | cSli | cLi => [toImm1, toRd]
  | cAndi | cSri => [toImm1, toRd']
  | cLui => [toR, rshift 12, fromR, toImm1, toRd']
  | cAnd => [toRs1', toRd']
  | cJ => [toImmCj here]
  | cBeq => [toImmBeq here, toRs1']
  | cLdsp | cFldsp => [lit 3#64, toImm2size, toRd]
  | cLwsp => [lit 2#64, toImm3size, toRd]
  | cSdsp | cFsdsp => [lit 3#64, toImm3size, toRs0]
  | cSwsp => [lit 2#64, toImm3size, toRs0]
  | cAdd | cMv => [toRs0, toRd]
  | cJr => [toRd]
  | cAddi16 => [toImm16]
  | atomType => [toRs1, toRs2, toRd]
  | bType => [toImmB, toRs1, toRs2]
  | fenceType => [toFence2, toFence1]
  | fr2Type | friType | firType => [toRs1, toRd]
  | fr4Type => [toRs3, toRs2, toRs1, toRd]
  | iType | lType | flType | csrType | csriType => [toImmI, toRs1, toRd]
  | jType => [toImmJ, toRd]
  | noargType => []
  | rType | frType => [toRs2, toRs1, toRd]
  | shType => [toShift, toRs1, toRd]
  | sType | fsType => [toImmS, toRs2, toRs1]
  | uType => [toImmU, toRd]
  | uTypePc => [swap, lit here, binary (· - ·), swap, toImmU, toRd]

/-- Whether instructions of the type have 16 bits -/
def isCompressed : Format → Bool
  | cNoarg | cAddi4spn | cLdw | cLdd | cFldd | cAddi | cSli | cLi | cAndi | cSri | cLui | cAnd
  | cJ | cBeq | cLdsp | cFldsp | cLwsp | cSdsp | cFsdsp | cSwsp | cAdd | cMv | cJr | cAddi16 => true
  | _ => false

end Format

/-! ## Instructions -/

/-- {lit}`inst16.fs` -/
def inst16 : List (Cell × Format) :=
  [(0x0000, .cNoarg), (0x0000, .cAddi4spn), (0x2000, .cFldd), (0x4000, .cLdw), (0x6000, .cLdd),
    (0xA000, .cFldd), (0xC000, .cLdw), (0xE000, .cLdd),
    (0x0001, .cNoarg), (0x0001, .cAddi), (0x2001, .cAddi), (0x4001, .cLi), (0x6101, .cAddi16),
    (0x6001, .cLui), (0x8001, .cSri), (0x8401, .cSri), (0x8801, .cAndi), (0x8C01, .cAnd),
    (0x8C21, .cAnd), (0x8C41, .cAnd), (0x8C61, .cAnd), (0x9C01, .cAnd), (0x9C21, .cAnd),
    (0xA001, .cJ), (0xC001, .cBeq), (0xE001, .cBeq),
    (0x0002, .cSli), (0x2002, .cFldsp), (0x4002, .cLwsp), (0x6002, .cLdsp), (0x8002, .cJr),
    (0x8002, .cMv), (0x9002, .cNoarg), (0x9002, .cJr), (0x9002, .cAdd), (0xA002, .cFsdsp),
    (0xC002, .cSwsp), (0xE002, .cSdsp)]

/-- {lit}`inst32.fs` -/
def inst32 : List (Cell × Format) :=
  [(0x00000037, .uType), (0x00000017, .uTypePc), (0x0000006F, .jType), (0x00000067, .lType),
    (0x00000063, .bType), (0x00001063, .bType), (0x00004063, .bType), (0x00005063, .bType),
    (0x00006063, .bType), (0x00007063, .bType), (0x00000003, .lType), (0x00001003, .lType),
    (0x00002003, .lType), (0x00003003, .lType), (0x00004003, .lType), (0x00005003, .lType),
    (0x00006003, .lType), (0x00000023, .sType), (0x00001023, .sType), (0x00002023, .sType),
    (0x00003023, .sType), (0x00000013, .iType), (0x00002013, .iType), (0x00003013, .iType),
    (0x00004013, .iType), (0x00006013, .iType), (0x00007013, .iType), (0x00001013, .shType),
    (0x00005013, .shType), (0x40005013, .shType), (0x0000101B, .shType), (0x0000501B, .shType),
    (0x4000501B, .shType), (0x00000033, .rType), (0x40000033, .rType), (0x00001033, .rType),
    (0x00002033, .rType), (0x00003033, .rType), (0x00004033, .rType), (0x00005033, .rType),
    (0x40005033, .rType), (0x00006033, .rType), (0x00007033, .rType), (0x0000003B, .rType),
    (0x4000003B, .rType), (0x0000103B, .rType), (0x0000503B, .rType), (0x4000503B, .rType),
    (0x0000000F, .fenceType), (0x0000100F, .fenceType), (0x00000073, .noargType),
    (0x00100073, .noargType), (0x00001073, .csrType), (0x00002073, .csrType),
    (0x00003073, .csrType), (0x00005073, .csriType), (0x00006073, .csriType),
    (0x00007073, .csriType), (0x02000033, .rType), (0x02001033, .rType), (0x02002033, .rType),
    (0x02003033, .rType), (0x02004033, .rType), (0x02005033, .rType), (0x02006033, .rType),
    (0x02007033, .rType), (0x0200003B, .rType), (0x0200403B, .rType), (0x0200503B, .rType),
    (0x0200603B, .rType), (0x0200703B, .rType), (0x0000202F, .atomType), (0x0800202F, .atomType),
    (0x1000202F, .atomType), (0x1800202F, .atomType), (0x2000202F, .atomType),
    (0x4000202F, .atomType), (0x6000202F, .atomType), (0x8000202F, .atomType),
    (0xA000202F, .atomType), (0xC000202F, .atomType), (0xE000202F, .atomType),
    (0x0000302F, .atomType), (0x0800302F, .atomType), (0x1000302F, .atomType),
    (0x1800302F, .atomType), (0x2000302F, .atomType), (0x4000302F, .atomType),
    (0x6000302F, .atomType), (0x8000302F, .atomType), (0xA000302F, .atomType),
    (0xC000302F, .atomType), (0xE000302F, .atomType), (0x00002007, .flType), (0x00002027, .fsType),
    (0x00000043, .fr4Type), (0x00000047, .fr4Type), (0x0000004B, .fr4Type), (0x0000004F, .fr4Type),
    (0x00000053, .frType), (0x08000053, .frType), (0x10000053, .frType), (0x18000053, .frType),
    (0x58000053, .fr2Type), (0x20000053, .frType), (0x20001053, .frType), (0x20002053, .frType),
    (0x28000053, .frType), (0x28001053, .frType), (0xC0000053, .friType), (0xC0100053, .friType),
    (0xC0200053, .friType), (0xC0300053, .friType), (0xE0000053, .firType), (0xA0000053, .frType),
    (0xA0001053, .frType), (0xA0002053, .frType), (0xE0001053, .frType), (0xD0000053, .firType),
    (0xD0100053, .firType), (0xD0200053, .firType), (0xD0300053, .firType), (0xF0000053, .friType),
    (0x00003007, .flType), (0x00003027, .fsType), (0x02000043, .fr4Type), (0x02000047, .fr4Type),
    (0x0200004B, .fr4Type), (0x0200004F, .fr4Type), (0x02000053, .frType), (0x0A000053, .frType),
    (0x12000053, .frType), (0x1A000053, .frType), (0x5A000053, .fr2Type), (0x22000053, .frType),
    (0x22001053, .frType), (0x22002053, .frType), (0x2A000053, .frType), (0x2A001053, .frType),
    (0xC2000053, .friType), (0xC2100053, .friType), (0xC2200053, .friType), (0xC2300053, .friType),
    (0xE2000053, .firType), (0xA2000053, .frType), (0xA2001053, .frType), (0xA2002053, .frType),
    (0xE2001053, .frType), (0xD2000053, .firType), (0xD2100053, .firType), (0xD2200053, .firType),
    (0xD2300053, .firType), (0xF2000053, .friType)]

/-- An instruction of a table, with its operands, the last one first -/
structure Instruction where
  opcode : Cell
  format : Format
  operands : List Cell
  mem : (opcode, format) ∈ inst16 ∨ (opcode, format) ∈ inst32

/-- What {lit}`w,` and {lit}`l,` store -/
inductive Stored where
  | half (h : BitVec 16)
  | long (l : BitVec 32)
deriving DecidableEq

namespace Stored

/-- {lit}`w@` and {lit}`l@` -/
def fetch : Stored → Cell
  | half h => h.setWidth 64
  | long l => l.setWidth 64

/-- The number of bytes -/
def size : Stored → Cell
  | half _ => 2#64
  | long _ => 4#64

end Stored

/-- {lit}`w,` or {lit}`l,` -/
def Format.stored (f : Format) (x : Cell) : Stored :=
  if f.isCompressed then .half (x.setWidth 16) else .long (x.setWidth 32)

/-- The data stack, {lit}`here`, and the words that have been stored, the last one first -/
structure State where
  data : List Cell
  here : Cell
  code : List Stored
deriving DecidableEq

/-- The execution of an instruction behind its operands; nothing is left if a word throws. -/
def Instruction.assemble (i : Instruction) (s : State) : Option State :=
  match colon (i.format.words s.here) ⟨i.opcode :: (i.operands ++ s.data), []⟩ with
  | some ⟨x :: d, _⟩ =>
      some ⟨d, s.here + (i.format.stored x).size, i.format.stored x :: s.code⟩
  | _ => none

end RiscV
end Gforth
