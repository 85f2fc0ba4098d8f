import Gforth.RiscV.Assembler

/-!
# The RISC-V disassembler

The words of {lit}`arch/riscv/disasm.fs` that extract the fields of an instruction, and the ones
that print them.  The commas and parentheses between the operands are left out, and so is the register
{lit}`sp` where it is not a field.

Main definitions:

- Definition {lit}`Format.fields`: what is printed of an instruction.
- Definition {lit}`Printed.value`: what the assembler takes a printed operand for.
-/

namespace Gforth
namespace RiscV

/-! ## Registers -/

/-- {lit}`0 .r` for a number that is not negative -/
def dotR (base n : Nat) : List Char :=
  (Nat.toDigits base n).map Char.toUpper

/-- {lit}`disline` sets {lit}`base`. -/
def dislineBase : Nat :=
  0x10

/-- {lit}`.reg` -/
def regName (n : Cell) : List Char :=
  let n := (n &&& 0x1F#64).toNat
  if n = 0 then ['z', 'e', 'r', 'o']
  else if n = 1 then ['r', 'a']
  else if n = 2 then ['s', 'p']
  else if n = 3 then ['g', 'p']
  else if n = 4 then ['t', 'p']
  else if 5 ≤ n ∧ n < 8 then 't' :: dotR dislineBase (n - 5)
  else if 8 ≤ n ∧ n < 10 then 's' :: dotR dislineBase (n - 8)
  else if 10 ≤ n ∧ n < 18 then 'a' :: dotR dislineBase (n - 10)
  else if 18 ≤ n ∧ n < 28 then 's' :: dotR 10 (n - 16)
  else 't' :: dotR dislineBase (n - 25)

/-- {lit}`.freg` -/
def fregName (n : Cell) : List Char :=
  let n := (n &&& 0x1F#64).toNat
  if n < 8 then 'f' :: 't' :: dotR dislineBase n
  else if 8 ≤ n ∧ n < 10 then 'f' :: 's' :: dotR dislineBase (n - 8)
  else if 10 ≤ n ∧ n < 18 then 'f' :: 'a' :: dotR dislineBase (n - 10)
  else if 18 ≤ n ∧ n < 28 then 'f' :: 's' :: dotR dislineBase (n - 16)
  else 'f' :: 't' :: dotR dislineBase (n - 20)

/-- {lit}`.fence` -/
def fenceName (n : Cell) : List Char :=
  (if n &&& 8#64 ≠ 0#64 then ['i'] else []) ++ (if n &&& 4#64 ≠ 0#64 then ['o'] else []) ++
    (if n &&& 2#64 ≠ 0#64 then ['r'] else []) ++ (if n &&& 1#64 ≠ 0#64 then ['w'] else [])

/-- A printed operand -/
inductive Printed where
  | name (s : List Char)
  | imm (n : Cell)
deriving DecidableEq

/-- {lit}`.reg` behind a shift -/
def reg (k : Nat) (x : Cell) : Printed :=
  .name (regName (x >>> k))

/-- {lit}`.freg` behind a shift -/
def freg (k : Nat) (x : Cell) : Printed :=
  .name (fregName (x >>> k))

/-- {lit}`.rs1'` and {lit}`.rd'` -/
def creg (k : Nat) (x : Cell) : Printed :=
  .name (regName ((x >>> k &&& 7#64) + 8#64))

/-- {lit}`.rfd'` -/
def cfreg (k : Nat) (x : Cell) : Printed :=
  .name (fregName ((x >>> k &&& 7#64) + 8#64))

/-! ## Immediate operands of 16 bit instructions -/

/-- {lit}`imm-4spn` -/
def imm4spn (x : Cell) : Cell :=
  let x := x >>> 5
  let r := (x &&& 1#64) <<< 3
  let x := x.sshiftRight 1
  let r := (x &&& 1#64) <<< 2 ||| r
  let x := x.sshiftRight 1
  let r := (x &&& 0xF#64) <<< 6 ||| r
  let x := x >>> 4
  (x &&& 3#64) <<< 4 ||| r

/-- {lit}`imm-1` -/
def imm1 (x : Cell) : Cell :=
  x >>> 2 &&& 0x1F#64 ||| x >>> (12 - 5) &&& 0x20#64

/-- {lit}`imm-1s` -/
def imm1s (x : Cell) : Cell :=
  imm1 x ||| -(imm1 x &&& 0x20#64)

/-- {lit}`imm-2` -/
def imm2 (x : Cell) : Cell :=
  (x >>> 5 &&& 3#64 ||| x >>> 8 &&& 0x1C#64) <<< 1

/-- {lit}`imm-size` -/
def immSize (imm : Cell) (size : Nat) : Cell :=
  let m := (-1#64) <<< size
  ((imm &&& ~~~m) <<< 6 ||| imm) &&& m

/-- {lit}`offset` -/
def offset (x : Cell) : Cell :=
  let x := x >>> 2
  let r := (x &&& 1#64) <<< 5
  let x := x.sshiftRight 1
  let r := (x &&& 7#64) <<< 1 ||| r
  let x := ((x.sshiftRight 1).sshiftRight 1).sshiftRight 1
  let r := (x &&& 1#64) <<< 7 ||| r
  let x := x.sshiftRight 1
  let r := (x &&& 1#64) <<< 6 ||| r
  let x := x.sshiftRight 1
  let r := (x &&& 1#64) <<< 10 ||| r
  let x := x.sshiftRight 1
  let r := (x &&& 3#64) <<< 8 ||| r
  let x := (x.sshiftRight 1).sshiftRight 1
  let r := (x &&& 1#64) <<< 4 ||| r
  let x := x.sshiftRight 1
  let r := (x &&& 1#64) <<< 11 ||| r
  r ||| -(r &&& 0x800#64)

/-- {lit}`offset'` -/
def offset' (x : Cell) : Cell :=
  (if x &&& 0x1000#64 ≠ 0#64 then -0x100#64 else 0#64) ||| (x &&& 0xC00#64) >>> 7 |||
    (x &&& 0x60#64) <<< 1 ||| (x &&& 0x18#64) >>> 2 ||| (x &&& 4#64) <<< 3

/-- The immediate operand of {lit}`c-addi16` -/
def imm16 (x : Cell) : Cell :=
  let x := imm1s x &&& 0x3F#64
  let r := (x &&& 1#64) <<< 5
  let x := x.sshiftRight 1
  let r := (x &&& 3#64) <<< 8 ||| r
  let x := (x.sshiftRight 1).sshiftRight 1
  let r := (x &&& 1#64) <<< 6 ||| r
  let x := x.sshiftRight 1
  let r := (x &&& 1#64) <<< 4 ||| r
  let x := x >>> 6
  let n := (-(x &&& 1#64)) <<< 9
  n ||| r

/-! ## Immediate operands of 32 bit instructions -/

/-- {lit}`l>s` -/
def lToS (x : Cell) : Cell :=
  (x.setWidth 32).signExtend 64

/-- {lit}`imm-i` -/
def immI (x : Cell) : Cell :=
  (lToS x).sshiftRight 20

/-- {lit}`imm-s` -/
def immS (x : Cell) : Cell :=
  (lToS x).sshiftRight 20 &&& -0x20#64 ||| x >>> 7 &&& 0x1F#64

/-- {lit}`imm-b` -/
def immB (x : Cell) : Cell :=
  immS x &&& -2#64 &&& ~~~0x800#64 ||| (immS x &&& 1#64) <<< 11

/-- {lit}`imm-u` -/
def immU (x : Cell) : Cell :=
  lToS x &&& -0x1000#64

/-- {lit}`imm-j` -/
def immJ (x : Cell) : Cell :=
  (immU x).sshiftRight 12 &&& -0x80000#64 |||
    ((immU x &&& 0x7FE00000#64) >>> 20 |||
      ((immU x &&& 0x100000#64) >>> 9 ||| immU x &&& 0xFF000#64))

/-! ## Types of instructions -/

namespace Format

/-- What is printed of the fields of an instruction.  {lit}`c-j`, {lit}`c-beq`, {lit}`b-type`,
{lit}`u-type-pc` and {lit}`j-type` print the sum of the offset here and the address. -/
def fields (x : Cell) : Format → List Printed
  | cNoarg => []
  | cAddi4spn => [creg 2 x, .imm (imm4spn x)]
  | cLdw => [creg 2 x, .imm (immSize (imm2 x) 2), creg 7 x]
  | cLdd => [creg 2 x, .imm (immSize (imm2 x) 3), creg 7 x]
  | cFldd => [cfreg 2 x, .imm (immSize (imm2 x) 3), creg 7 x]
  | cAddi => [reg 7 x, reg 7 x, .imm (imm1s x)]
  | cSli => [reg 7 x, reg 7 x, .imm (imm1 x)]
  | cLi => [reg 7 x, .imm (imm1s x)]
  | cAndi => [creg 2 x, creg 2 x, .imm (imm1s x)]
  | cSri => [creg 2 x, creg 2 x, .imm (imm1 x)]
  | cLui => [reg 7 x, .imm (imm1s x <<< 12)]
  | cAnd => [creg 2 x, creg 7 x, creg 2 x]
  | cJ => [.imm (offset x)]
  | cBeq => [creg 7 x, .imm (offset' x)]
  | cLdsp => [reg 7 x, .imm (immSize (imm1 x) 3)]
  | cFldsp => [freg 7 x, .imm (immSize (imm1 x) 3)]
  | cLwsp => [reg 7 x, .imm (immSize (imm1 x) 2)]
  | cSdsp => [reg 2 x, .imm (immSize (imm1 x) 3)]
  | cFsdsp => [freg 2 x, .imm (immSize (imm1 x) 3)]
  | cSwsp => [reg 2 x, .imm (immSize (imm1 x) 2)]
  | cAdd => [reg 7 x, reg 7 x, reg 2 x]
  | cMv => [reg 7 x, reg 2 x]
  | cJr => [reg 7 x]
  | cAddi16 => [.imm (imm16 x)]
  | atomType => [reg 7 x, reg 20 x, reg 15 x]
  | bType => [reg 15 x, reg 20 x, .imm (immB x)]
  | fenceType => [.name (fenceName (x >>> 24)), .name (fenceName (x >>> 20))]
  | fr2Type => [freg 7 x, freg 15 x]
  | fr4Type => [freg 7 x, freg 15 x, freg 20 x, freg 27 x]
  | friType => [reg 7 x, freg 15 x]
  | firType => [freg 7 x, reg 15 x]
  | iType => [reg 7 x, reg 15 x, .imm (immI x)]
  | lType => [reg 7 x, .imm (immI x), reg 15 x]
  | flType => [freg 7 x, .imm (immI x), reg 15 x]
  | csrType => [reg 7 x, reg 15 x, .imm (immI x)]
  | csriType => [reg 7 x, .imm (x >>> 15 &&& 0x1F#64), .imm (immI x)]
  | jType => [reg 7 x, .imm (immJ x)]
  | noargType => []
  | rType => [reg 7 x, reg 15 x, reg 20 x]
  | frType => [freg 7 x, freg 15 x, freg 20 x]
  | shType => [reg 7 x, reg 15 x, .imm (x >>> 20 &&& 0x3F#64)]
  | sType => [reg 20 x, .imm (immS x), reg 15 x]
  | fsType => [freg 20 x, .imm (immS x), reg 15 x]
  | uType => [reg 7 x, .imm (immU x)]
  | uTypePc => [reg 7 x, .imm (immU x)]

end Format

/-! ## Names of the assembler -/

/-- The names of {lit}`regs:` and {lit}`fences:` that the disassembler uses, with their constants -/
def constants : List (List Char × Cell) :=
  let named (names : List String) (n : Nat) : List (List Char × Cell) :=
    (names.zipIdx n).map fun p => (p.1.toList, BitVec.ofNat 64 p.2)
  named ["zero", "ra", "sp", "gp", "tp", "t0", "t1", "t2", "s0", "s1", "a0", "a1", "a2", "a3", "a4",
      "a5", "a6", "a7", "s2", "s3", "s4", "s5", "s6", "s7", "s8", "s9", "s10", "s11", "t3", "t4",
      "t5", "t6"] 0 ++
    named ["ft0", "ft1", "ft2", "ft3", "ft4", "ft5", "ft6", "ft7", "fs0", "fs1", "fa0", "fa1",
      "fa2", "fa3", "fa4", "fa5", "fa6", "fa7", "fs2", "fs3", "fs4", "fs5", "fs6", "fs7", "fs8",
      "fs9", "fs10", "fs11", "ft8", "ft9", "ft10", "ft11"] 0 ++
    named ["w", "r", "rw", "o", "ow", "or", "orw", "i", "iw", "ir", "irw", "io", "iow", "ior",
      "iorw"] 1

/-- What the assembler takes a printed operand for -/
def Printed.value : Printed → Option Cell
  | .name s => (constants.find? fun c => c.1 = s).map Prod.snd
  | .imm n => some n

end RiscV
end Gforth
