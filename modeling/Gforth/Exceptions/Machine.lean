import Mathlib.Logic.Function.Basic
import Mathlib.Logic.Relation

/-!
# The inner interpreter and exception frames

The state of the virtual machine as far as {lit}`catch` and {lit}`throw` have to do with it.  A
stack is the memory for it and the number of cells that are in use; a pointer into a stack is such
a number, so pushing increments it.  The exception frames are on the return stack, in six cells
each, and {lit}`handler` points to the most recent one.
-/

namespace Gforth
namespace Exceptions

/-- What is on the stacks -/
abbrev Cell := Int

/-- The data, floating-point and locals stacks, the current object, and {lit}`first-throw` -/
structure Regs where
  ds : Nat → Cell
  sp : Nat
  fs : Nat → BitVec 64
  fp : Nat
  ls : Nat → Cell
  lp : Nat
  op : Cell
  firstThrow : Cell

namespace Regs

/-- Push a cell on the data stack. -/
def push (r : Regs) (x : Cell) : Regs :=
  { r with ds := Function.update r.ds r.sp x, sp := r.sp + 1 }

/-- Pop a cell from the data stack. -/
def pop (r : Regs) : Option (Cell × Regs) :=
  match r.sp with
  | 0 => none
  | sp + 1 => some (r.ds sp, { r with sp := sp })

/-- The literal {lit}`x` -/
def lit (x : Cell) (r : Regs) : Option Regs :=
  some (r.push x)

/-- {lit}`nip` -/
def nip (r : Regs) : Option Regs :=
  match r.pop with
  | none => none
  | some (x, r) =>
      match r.pop with
      | none => none
      | some (_, r) => some (r.push x)

/-- {lit}`store-backtrace`, which only copies the return stack -/
def storeBacktrace (r : Regs) : Option Regs :=
  some { r with firstThrow := 0 }

/-- {lit}`1 first-throw !@` -/
def exchangeFirstThrow (r : Regs) : Option Regs :=
  some ({ r with firstThrow := 1 }.push r.firstThrow)

/-- {lit}`first-throw !` -/
def storeFirstThrow (r : Regs) : Option Regs :=
  match r.pop with
  | none => none
  | some (x, r) => some { r with firstThrow := x }

end Regs

/-- The state of the virtual machine; {lit}`handler` is 0 without an exception frame. -/
structure Machine extends Regs where
  ip : Nat
  rs : Nat → Cell
  rp : Nat
  handler : Nat

/-- The instructions: {lit}`prim f` is a primitive that has nothing to do with the return stack,
{lit}`firstThrowQBranch` and {lit}`handlerQBranch` are {lit}`first-throw @ 0< ?branch` and
{lit}`handler @ ?branch`, and {lit}`uncaught` stands for what {lit}`throw` does without an exception
frame, which ends with {lit}`(bye)`. -/
inductive Instr where
  | prim (f : Regs → Option Regs)
  | toR
  | rFrom
  | toO
  | oFrom
  | call (w : Nat)
  | execute
  | exit
  | branch (target : Nat)
  | qBranch (target : Nat)
  | qDupQBranch (target : Nat)
  | firstThrowQBranch (target : Nat)
  | handlerQBranch (target : Nat)
  | parenTry (recovery : Nat)
  | uncatch
  | fastThrow
  | uncaught

namespace Machine

/-- Push a cell on the return stack. -/
def rpush (m : Machine) (x : Cell) : Machine :=
  { m with rs := Function.update m.rs m.rp x, rp := m.rp + 1 }

/-- Pop a cell from the return stack. -/
def rpop (m : Machine) : Option (Cell × Machine) :=
  match m.rp with
  | 0 => none
  | rp + 1 => some (m.rs rp, { m with rp := rp })

/-- Continue with the next instruction. -/
def next (m : Machine) : Machine :=
  { m with ip := m.ip + 1 }

/-- Replace the stacks. -/
def setRegs (m : Machine) (r : Regs) : Machine :=
  { m with toRegs := r }

/-- {lit}`(try)` -/
def parenTry (m : Machine) (recovery : Nat) : Machine :=
  let oldhandler := m.handler
  let m := { m with
    handler := m.rp + 6
    firstThrow := if m.firstThrow = 0 then -1 else m.firstThrow }
  (((((m.rpush recovery).rpush m.sp).rpush m.op).rpush m.fp).rpush m.lp).rpush oldhandler

/-- {lit}`uncatch` -/
def uncatch (m : Machine) : Option Machine :=
  if 6 ≤ m.rp then some { m with handler := (m.rs (m.rp - 1)).toNat, rp := m.rp - 6 } else none

/-- {lit}`fast-throw` -/
def fastThrow (m : Machine) : Option Machine :=
  match m.toRegs.pop with
  | none => none
  | some (ball, r) =>
      let rp := m.handler
      if 6 ≤ rp then
        let r := { r with
          lp := (m.rs (rp - 2)).toNat
          fp := (m.rs (rp - 3)).toNat
          op := m.rs (rp - 4)
          sp := (m.rs (rp - 5)).toNat }
        some { m with toRegs := r.push ball, rp := rp, ip := (m.rs (rp - 6)).toNat }
      else none

end Machine

/-- One instruction; {lit}`entry` gives the threaded code of a word from its execution token. -/
def step (code : List Instr) (entry : Nat → Option Nat) (m : Machine) : Option Machine :=
  match code[m.ip]? with
  | none => none
  | some (.prim f) =>
      match f m.toRegs with
      | none => none
      | some r => some (m.next.setRegs r)
  | some .toR =>
      match m.toRegs.pop with
      | none => none
      | some (x, r) => some ((m.next.setRegs r).rpush x)
  | some .rFrom =>
      match m.rpop with
      | none => none
      | some (x, m) => some (m.next.setRegs (m.toRegs.push x))
  | some .toO =>
      match m.toRegs.pop with
      | none => none
      | some (x, r) => some ((m.next.setRegs { r with op := x }).rpush m.op)
  | some .oFrom =>
      match m.rpop with
      | none => none
      | some (x, m) => some (m.next.setRegs { m.toRegs with op := x })
  | some (.call w) =>
      match entry w with
      | none => none
      | some a => some { m.rpush (m.ip + 1 : Nat) with ip := a }
  | some .execute =>
      match m.toRegs.pop with
      | none => none
      | some (xt, r) =>
          match entry xt.toNat with
          | none => none
          | some a => some { (m.setRegs r).rpush (m.ip + 1 : Nat) with ip := a }
  | some .exit =>
      match m.rpop with
      | none => none
      | some (a, m) => some { m with ip := a.toNat }
  | some (.branch target) => some { m with ip := target }
  | some (.qBranch target) =>
      match m.toRegs.pop with
      | none => none
      | some (x, r) =>
          if x = 0 then some { m.setRegs r with ip := target } else some (m.next.setRegs r)
  | some (.qDupQBranch target) =>
      match m.toRegs.pop with
      | none => none
      | some (x, r) => if x = 0 then some { m.setRegs r with ip := target } else some m.next
  | some (.firstThrowQBranch target) =>
      if m.firstThrow < 0 then some m.next else some { m with ip := target }
  | some (.handlerQBranch target) =>
      if m.handler = 0 then some { m with ip := target } else some m.next
  | some (.parenTry recovery) => some (m.next.parenTry recovery)
  | some .uncatch => m.next.uncatch
  | some .fastThrow => m.fastThrow
  | some .uncaught => none

/-- Some steps of the virtual machine -/
abbrev Steps (code : List Instr) (entry : Nat → Option Nat) : Machine → Machine → Prop :=
  Relation.ReflTransGen fun m m' => step code entry m = some m'

end Exceptions
end Gforth
