import Gforth.Lib.Bytes
import Gforth.Lib.Code

/-!
# Words in compiled patterns

A compiled pattern consists of words that work on the data stack and the return stack, of branches,
and of calls into the middle of the same definition.  Words of {lit}`regexp.fs` that are called by the
compiled code, like {lit}`>last`, are single steps.

Addresses of characters do not wrap around; an instruction is one address further than the one in
front of it.
-/

namespace Gforth
namespace Regexp

open Lib

/-- {lit}`charclass`: a flag for each character -/
abbrev CharClass := Byte → Bool

/-- Instructions -/
inductive Instr
  | lit (n : Int)
  | dup
  | drop
  | onePlus
  | oneMinus
  | plus
  | minus
  | zeroEquals
  | equals
  | notEquals
  | count
  /-- The name of a class, and {lit}`char?` -/
  | charQ (c : CharClass)
  /-- {lit}`start-rex?` -/
  | startRexQ
  /-- {lit}`end-rex?` -/
  | endRexQ
  /-- {lit}`end$` -/
  | endS
  | uGreater
  /-- {lit}`rest$` -/
  | restS
  | umin
  /-- A string literal, and {lit}`compare` -/
  | compareLit (s : List Byte)
  /-- {lit}`!end` -/
  | storeEnd
  /-- {lit}`>last` -/
  | toLast
  /-- {lit}`last$` -/
  | lastS
  /-- The address of a cell of {lit}`vars`, and {lit}`!` -/
  | storeVar (n : Nat)
  | toR
  | rFrom
  | i
  | iTick
  | unloop
  | drops
  | branch (target : Nat)
  | qBranch (target : Nat)
  | call (target : Nat)
  | semis
  | uPlusDo (target : Nat)
  | loop (target : Nat)

/-- The state of the machine; {lit}`start$`, {lit}`end$`, {lit}`last$` and the cells of {lit}`vars` are
variables. -/
structure Machine where
  ip : Nat
  stack : List Int
  rstack : List Int
  startS : Int
  endS : Int
  lastS : Int
  vars : Nat → Int

/-- A flag -/
def flag (b : Bool) : Int :=
  if b then -1 else 0

/-- Unsigned comparison; negative numbers are large. -/
def uLess (x y : Int) : Bool :=
  if 0 ≤ x then y < 0 ∨ x < y else y < 0 ∧ x < y

/-- {lit}`compare` -/
def compare : List Byte → List Byte → Int
  | [], [] => 0
  | [], _ :: _ => -1
  | _ :: _, [] => 1
  | c :: s, d :: t => if c = d then compare s t else if c < d then -1 else 1

variable (mem : Int → Byte)

/-- The characters at an address -/
def text (addr : Int) (u : Nat) : List Byte :=
  (List.range u).map fun j : Nat => mem (addr + (j : Int))

/-- What an instruction does; stacks that are too small stop the machine. -/
def Instr.exec (m : Machine) : Instr → Option Machine
  | lit n => some { m with ip := m.ip + 1, stack := n :: m.stack }
  | dup =>
      match m.stack with
      | x :: st => some { m with ip := m.ip + 1, stack := x :: x :: st }
      | _ => none
  | drop =>
      match m.stack with
      | _ :: st => some { m with ip := m.ip + 1, stack := st }
      | _ => none
  | onePlus =>
      match m.stack with
      | x :: st => some { m with ip := m.ip + 1, stack := (x + 1) :: st }
      | _ => none
  | oneMinus =>
      match m.stack with
      | x :: st => some { m with ip := m.ip + 1, stack := (x - 1) :: st }
      | _ => none
  | plus =>
      match m.stack with
      | y :: x :: st => some { m with ip := m.ip + 1, stack := (x + y) :: st }
      | _ => none
  | minus =>
      match m.stack with
      | y :: x :: st => some { m with ip := m.ip + 1, stack := (x - y) :: st }
      | _ => none
  | zeroEquals =>
      match m.stack with
      | x :: st => some { m with ip := m.ip + 1, stack := flag (x = 0) :: st }
      | _ => none
  | equals =>
      match m.stack with
      | y :: x :: st => some { m with ip := m.ip + 1, stack := flag (x = y) :: st }
      | _ => none
  | notEquals =>
      match m.stack with
      | y :: x :: st => some { m with ip := m.ip + 1, stack := flag (x ≠ y) :: st }
      | _ => none
  | count =>
      match m.stack with
      | x :: st => some { m with ip := m.ip + 1, stack := (mem x).toNat :: (x + 1) :: st }
      | _ => none
  | charQ c =>
      match m.stack with
      -- the flags in a class are 1 and 0
      | x :: st => some { m with ip := m.ip + 1, stack := (if c (mem x) then 1 else 0) :: (x + 1) :: st }
      | _ => none
  | startRexQ =>
      match m.stack with
      | x :: st => some { m with ip := m.ip + 1, stack := flag (uLess m.startS x) :: x :: st }
      | _ => none
  | endRexQ =>
      match m.stack with
      | x :: st => some { m with ip := m.ip + 1, stack := flag (uLess x m.endS) :: x :: st }
      | _ => none
  | endS => some { m with ip := m.ip + 1, stack := m.endS :: m.stack }
  | uGreater =>
      match m.stack with
      | y :: x :: st => some { m with ip := m.ip + 1, stack := flag (uLess y x) :: st }
      | _ => none
  | restS =>
      match m.stack with
      | x :: st => some { m with ip := m.ip + 1, stack := (m.endS - x) :: x :: x :: st }
      | _ => none
  | umin =>
      match m.stack with
      | y :: x :: st => some { m with ip := m.ip + 1, stack := (if uLess x y then x else y) :: st }
      | _ => none
  | compareLit s =>
      match m.stack with
      | u :: x :: st =>
          some { m with ip := m.ip + 1, stack := compare (text mem x u.toNat) s :: st }
      | _ => none
  | storeEnd =>
      match m.stack with
      | u :: x :: st =>
          some { m with ip := m.ip + 1, stack := x :: st, startS := x, endS := x + u }
      | _ => none
  | toLast =>
      match m.stack with
      | x :: st =>
          some { m with ip := m.ip + 1, stack := flag (!uLess m.endS x) :: st, lastS := x }
      | _ => none
  | lastS => some { m with ip := m.ip + 1, stack := m.lastS :: m.stack }
  | storeVar n =>
      match m.stack with
      | x :: st => some { m with ip := m.ip + 1, stack := st, vars := Function.update m.vars n x }
      | _ => none
  | toR =>
      match m.stack with
      | x :: st => some { m with ip := m.ip + 1, stack := st, rstack := x :: m.rstack }
      | _ => none
  | rFrom =>
      match m.rstack with
      | x :: rs => some { m with ip := m.ip + 1, stack := x :: m.stack, rstack := rs }
      | _ => none
  | i =>
      match m.rstack with
      | x :: _ => some { m with ip := m.ip + 1, stack := x :: m.stack }
      | _ => none
  | iTick =>
      match m.rstack with
      | _ :: y :: _ => some { m with ip := m.ip + 1, stack := y :: m.stack }
      | _ => none
  | unloop =>
      match m.rstack with
      | _ :: _ :: rs => some { m with ip := m.ip + 1, rstack := rs }
      | _ => none
  | drops =>
      match m.stack with
      | n :: st => some { m with ip := m.ip + 1, stack := st.drop n.toNat }
      | _ => none
  | branch target => some { m with ip := target }
  | qBranch target =>
      match m.stack with
      | x :: st => some { m with ip := if x = 0 then target else m.ip + 1, stack := st }
      | _ => none
  | call target => some { m with ip := target, rstack := (m.ip + 1 : Nat) :: m.rstack }
  | semis =>
      match m.rstack with
      | r :: rs => some { m with ip := r.toNat, rstack := rs }
      | _ => none
  | uPlusDo target =>
      match m.stack with
      | x :: y :: st =>
          some { m with
            ip := if uLess x y then m.ip + 1 else target
            stack := st
            rstack := x :: y :: m.rstack }
      | _ => none
  | loop target =>
      match m.rstack with
      | x :: y :: rs =>
          some { m with
            ip := if x + 1 = y then m.ip + 1 else target
            rstack := (x + 1) :: y :: rs }
      | _ => none

/-- One step of the machine -/
def step (code : List Instr) (m : Machine) : Option Machine :=
  code[m.ip]?.bind (Instr.exec mem m)

end Regexp
end Gforth
