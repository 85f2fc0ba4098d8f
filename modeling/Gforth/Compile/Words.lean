import Gforth.Arith.Floored
import Gforth.Lib.Programs

/-!
# The words that the compiler optimizes

The primitives on the data stack that are folded at compile time, by the numbers of their
arguments and results, and the other words that the optimizers know.  Arguments and results
are listed as in stack effects, with the top of the stack last; stacks have their top first.
The divisions are those of an engine that checks them by software
({lit}`CHECK_DIVISION_SW`), so that a division by 0 or an overflow throws.
-/

namespace Gforth
namespace Compile

open Lib Arith

variable {w : Nat}

/-! ## Words with one argument -/

/-- Words {lit}`( x1 -- x2 )` -/
inductive Unary where
  | invert | abs | negate | toPow2
  | onePlus | oneMinus | twoStar | twoSlash | cells | cellSlash | cellPlus | cellMinus
  | floats | sfloats | dfloats | floatPlus | floatSlash | sfloatSlash | dfloatSlash
  | cToS | wToS | lToS | wordSwap | longSwap | extraLongSwap
  | wcwidth
  | zeroGreater | zeroEquals | zeroLess
deriving DecidableEq

/-- {lit}`FLAG` -/
def flag (b : Bool) : BitVec w :=
  if b then -1#w else 0#w

/-- {lit}`sizeof(Cell)` -/
def cell (w : Nat) : BitVec w :=
  BitVec.ofNat w (w / 8)

/-- The lowest bytes of a cell in reverse order -/
def byteSwap (bytes : Nat) (u : BitVec w) : BitVec w :=
  (List.range bytes).foldl (fun r i => (r <<< 8) ||| ((u >>> (8 * i)) &&& 255#w)) 0#w

/-- {lit}`>pow2` -/
def toPow2 (u1 : BitVec w) : BitVec w :=
  if u1 = 1#w then u1 else ((-1#w) >>> nlz (u1 - 1#w)) + 1#w

/-- Result of a word with one argument; {lit}`wcwidth` is a function of the C library. -/
def Unary.eval (wcwidth : BitVec w → BitVec w) : Unary → BitVec w → BitVec w
  | .invert, w1 => ~~~w1
  | .abs, n => if n.slt 0#w then -n else n
  | .negate, n1 => -n1
  | .toPow2, u1 => Compile.toPow2 u1
  | .onePlus, n1 => n1 + 1#w
  | .oneMinus, n1 => n1 - 1#w
  | .twoStar, n1 => 2#w * n1
  | .twoSlash, n1 => n1.sshiftRight 1
  | .cells, n1 => n1 * cell w
  | .cellSlash, n1 => n1.sshiftRight (if w = 64 then 3 else 2)
  | .cellPlus, a => a + cell w
  | .cellMinus, a => a - cell w
  | .floats, n1 => n1 * 8#w
  | .sfloats, n1 => n1 * 4#w
  | .dfloats, n1 => n1 * 8#w
  | .floatPlus, a => a + 8#w
  | .floatSlash, n1 => n1.sshiftRight 3
  | .sfloatSlash, n1 => n1.sshiftRight 2
  | .dfloatSlash, n1 => n1.sshiftRight 3
  | .cToS, x => (x.setWidth 8).signExtend w
  | .wToS, x => (x.setWidth 16).signExtend w
  | .lToS, x => (x.setWidth 32).signExtend w
  | .wordSwap, u1 => byteSwap 2 u1
  | .longSwap, u1 => byteSwap 4 u1
  | .extraLongSwap, u1 => byteSwap 8 u1
  | .wcwidth, u => wcwidth u
  | .zeroGreater, n => flag ((0#w).slt n)
  | .zeroEquals, n => flag (n = 0#w)
  | .zeroLess, n => flag (n.slt 0#w)

/-- Words {lit}`( x -- x1 x2 )` -/
inductive Spread where
  | dup | sToD
deriving DecidableEq

/-- Results of a word with one argument and two results -/
def Spread.eval : Spread → BitVec w → BitVec w × BitVec w
  | .dup, x => (x, x)
  | .sToD, n => (n, flag (n.slt 0#w))

/-! ## Words with two arguments -/

/-- Words {lit}`( x1 x2 -- x )` -/
inductive Binary where
  | star | and | or | xor
  | min | max | umin | umax
  | nip
  | rshift | lshift | arshift | rol | ror
  | equals | greater | greaterOrEqual | less | lessOrEqual
  | uGreater | uGreaterOrEqual | uLess | uLessOrEqual
  | dZeroGreater | dZeroLess | dZeroEquals
  | slashS | mods
  | plus | minus
  | slashF | modf | uSlash | umod
deriving DecidableEq

/-- The number of bits that the shift instructions of the machine shift by -/
def shiftCount (u : BitVec w) : Nat :=
  u.toNat % w

/-- {lit}`u/mod`: modulus and quotient -/
def uSlashMod (u1 u2 : BitVec w) : Except Ball (BitVec w × BitVec w) :=
  if u2 = 0#w then .error .divZero else .ok (u1 % u2, u1 / u2)

/-- {lit}`u/` -/
def uSlash (u1 u2 : BitVec w) : Except Ball (BitVec w) :=
  if u2 = 0#w then .error .divZero else .ok (u1 / u2)

/-- {lit}`umod` -/
def umod (u1 u2 : BitVec w) : Except Ball (BitVec w) :=
  if u2 = 0#w then .error .divZero else .ok (u1 % u2)

/-- {lit}`/mods`: remainder and quotient -/
def slashMods (n1 n2 : BitVec w) : Except Ball (BitVec w × BitVec w) :=
  match (CDivision.software w).divide n1 n2 with
  | .error e => .error e
  | .ok (n4, n3) => .ok (n3, n4)

/-- {lit}`/s` -/
def slashS (n1 n2 : BitVec w) : Except Ball (BitVec w) :=
  match (CDivision.software w).divide n1 n2 with
  | .error e => .error e
  | .ok (n, _) => .ok n

/-- {lit}`mods` -/
def mods (n1 n2 : BitVec w) : Except Ball (BitVec w) :=
  match (CDivision.software w).divide n1 n2 with
  | .error e => .error e
  | .ok (_, n) => .ok n

/-- Result of a word with two arguments -/
def Binary.eval : Binary → BitVec w → BitVec w → Except Ball (BitVec w)
  | .star, n1, n2 => .ok (n1 * n2)
  | .and, w1, w2 => .ok (w1 &&& w2)
  | .or, w1, w2 => .ok (w1 ||| w2)
  | .xor, w1, w2 => .ok (w1 ^^^ w2)
  | .min, n1, n2 => .ok (if n1.slt n2 then n1 else n2)
  | .max, n1, n2 => .ok (if n1.slt n2 then n2 else n1)
  | .umin, u1, u2 => .ok (if u1 < u2 then u1 else u2)
  | .umax, u1, u2 => .ok (if u1 < u2 then u2 else u1)
  | .nip, _, w2 => .ok w2
  | .rshift, u1, u => .ok (u1 >>> shiftCount u)
  | .lshift, u1, u => .ok (u1 <<< shiftCount u)
  | .arshift, n1, u => .ok (n1.sshiftRight (shiftCount u))
  | .rol, u1, u => .ok ((u1 <<< shiftCount u) ||| (u1 >>> shiftCount (BitVec.ofNat w w - u)))
  | .ror, u1, u => .ok ((u1 >>> shiftCount u) ||| (u1 <<< shiftCount (BitVec.ofNat w w - u)))
  | .equals, n1, n2 => .ok (flag (n1 = n2))
  | .greater, n1, n2 => .ok (flag (n2.slt n1))
  | .greaterOrEqual, n1, n2 => .ok (flag (n2.sle n1))
  | .less, n1, n2 => .ok (flag (n1.slt n2))
  | .lessOrEqual, n1, n2 => .ok (flag (n1.sle n2))
  | .uGreater, u1, u2 => .ok (flag (u2.ult u1))
  | .uGreaterOrEqual, u1, u2 => .ok (flag (u2.ule u1))
  | .uLess, u1, u2 => .ok (flag (u1.ult u2))
  | .uLessOrEqual, u1, u2 => .ok (flag (u1.ule u2))
  | .dZeroGreater, lo, hi => .ok (flag ((0#(w + w)).slt (twoCell lo hi)))
  | .dZeroLess, lo, hi => .ok (flag ((twoCell lo hi).slt 0#(w + w)))
  | .dZeroEquals, lo, hi => .ok (flag (twoCell lo hi = 0#(w + w)))
  | .slashS, n1, n2 => Compile.slashS n1 n2
  | .mods, n1, n2 => Compile.mods n1 n2
  | .plus, n1, n2 => .ok (n1 + n2)
  | .minus, n1, n2 => .ok (n1 - n2)
  | .slashF, n1, n2 => Arith.slashF (.software w) n1 n2
  | .modf, n1, n2 => Arith.modf (.software w) n1 n2
  | .uSlash, u1, u2 => Compile.uSlash u1 u2
  | .umod, u1, u2 => Compile.umod u1 u2

/-- Words {lit}`( x1 x2 -- x3 x4 )` -/
inductive Pair where
  | mStar | umStar | swap | dTwoStar | slashModf | slashMods | uSlashMod | bounds
  | arrayToMem
deriving DecidableEq

/-- The cells of a double -/
def cellsOf (d : BitVec (w + w)) : BitVec w × BitVec w :=
  (dlo d, dhi d)

/-- Results of a word with two arguments and two results -/
def Pair.eval : Pair → BitVec w → BitVec w → Except Ball (BitVec w × BitVec w)
  | .mStar, n1, n2 => .ok (cellsOf (mmul n1 n2))
  | .umStar, u1, u2 => .ok (cellsOf (ummul u1 u2))
  | .swap, w1, w2 => .ok (w2, w1)
  | .dTwoStar, lo, hi => .ok (cellsOf (twoCell lo hi <<< 1))
  | .slashModf, n1, n2 => Arith.slashModf (.software w) n1 n2
  | .slashMods, n1, n2 => Compile.slashMods n1 n2
  | .uSlashMod, u1, u2 => Compile.uSlashMod u1 u2
  | .bounds, u1, u2 => .ok (u1 + u2, u1)
  | .arrayToMem, uelements, uelemsize => .ok (uelements * uelemsize, uelemsize)

/-- Words {lit}`( x1 x2 -- x3 x4 x5 )` -/
inductive Copy where
  | over | tuck
deriving DecidableEq

/-- Results of a word with two arguments and three results -/
def Copy.eval : Copy → BitVec w → BitVec w → BitVec w × BitVec w × BitVec w
  | .over, w1, w2 => (w1, w2, w1)
  | .tuck, w1, w2 => (w2, w1, w2)

/-! ## Words with three arguments -/

/-- Words {lit}`( x1 x2 x3 -- x )` -/
inductive Ternary where
  | within | select | mux | starSlashF | starSlashS | uStarSlash
deriving DecidableEq

/-- Words {lit}`( x1 x2 x3 -- x4 x5 )` -/
inductive TernaryPair where
  | umSlashMod | fmSlashMod | smSlashRem | duSlashMod
  | starSlashModf | starSlashMods | uStarSlashMod | underPlus
deriving DecidableEq

/-- Words {lit}`( x1 x2 x3 -- x4 x5 x6 )` -/
inductive Rotation where
  | rot | notRot
deriving DecidableEq

section

variable (um : BitVec (w + w) → BitVec w → Except Ball (BitVec (w + w)))

/-- Remainder and quotient from the halves of a double -/
def halves : Except Ball (BitVec (w + w)) → Except Ball (BitVec w × BitVec w)
  | .error e => .error e
  | .ok r => .ok (dhi r, dlo r)

/-- The quotient in the lower half of a double -/
def lowHalf : Except Ball (BitVec (w + w)) → Except Ball (BitVec w)
  | .error e => .error e
  | .ok r => .ok (dlo r)

/-- Result of a word with three arguments -/
def Ternary.eval : Ternary → BitVec w → BitVec w → BitVec w → Except Ball (BitVec w)
  | .within, u1, u2, u3 => .ok (flag ((u1 - u2).ult (u3 - u2)))
  | .select, u1, u2, f => .ok (if f ≠ 0#w then u1 else u2)
  | .mux, u1, u2, u3 => .ok ((u3 &&& u1) ||| (~~~u3 &&& u2))
  | .starSlashF, n1, n2, n3 => Arith.starSlashF um n1 n2 n3
  | .starSlashS, n1, n2, n3 => lowHalf (smdiv um (mmul n1 n2) n3)
  | .uStarSlash, u1, u2, u3 => lowHalf (um (ummul u1 u2) u3)

/-- {lit}`du/mod` -/
def duSlashMod (lo hi u : BitVec w) : Except Ball (BitVec w × BitVec w) :=
  let correct : BitVec w := if hi.slt 0#w then -1#w else 0#w
  halves (um (twoCell lo (hi + (correct &&& u))) u)

/-- Results of a word with three arguments and two results -/
def TernaryPair.eval :
    TernaryPair → BitVec w → BitVec w → BitVec w → Except Ball (BitVec w × BitVec w)
  | .umSlashMod, lo, hi, u => Arith.umSlashMod um lo hi u
  | .fmSlashMod, lo, hi, n => Arith.fmSlashMod um (twoCell lo hi) n
  | .smSlashRem, lo, hi, n => halves (smdiv um (twoCell lo hi) n)
  | .duSlashMod, lo, hi, u => Compile.duSlashMod um lo hi u
  | .starSlashModf, n1, n2, n3 => Arith.starSlashModf um n1 n2 n3
  | .starSlashMods, n1, n2, n3 => halves (smdiv um (mmul n1 n2) n3)
  | .uStarSlashMod, u1, u2, u3 => halves (um (ummul u1 u2) u3)
  | .underPlus, n1, n2, n3 => .ok (n1 + n3, n2)

end

/-- Results of a word with three arguments and three results -/
def Rotation.eval : Rotation → BitVec w → BitVec w → BitVec w → BitVec w × BitVec w × BitVec w
  | .rot, w1, w2, w3 => (w2, w3, w1)
  | .notRot, w1, w2, w3 => (w3, w1, w2)

/-! ## Words with four arguments -/

/-- Words {lit}`( d1 d2 -- f )` -/
inductive DoubleTest where
  | dEquals | dGreater | dGreaterOrEqual | dLess | dLessOrEqual
  | duGreater | duGreaterOrEqual | duLess | duLessOrEqual
deriving DecidableEq

/-- Result of a comparison of doubles -/
def DoubleTest.eval : DoubleTest → BitVec (w + w) → BitVec (w + w) → BitVec w
  | .dEquals, d1, d2 => flag (d1 = d2)
  | .dGreater, d1, d2 => flag (d2.slt d1)
  | .dGreaterOrEqual, d1, d2 => flag (d2.sle d1)
  | .dLess, d1, d2 => flag (d1.slt d2)
  | .dLessOrEqual, d1, d2 => flag (d1.sle d2)
  | .duGreater, d1, d2 => flag (d2.ult d1)
  | .duGreaterOrEqual, d1, d2 => flag (d2.ule d1)
  | .duLess, d1, d2 => flag (d1.ult d2)
  | .duLessOrEqual, d1, d2 => flag (d1.ule d2)

/-- Words {lit}`( d1 d2 -- d )` -/
inductive DoubleOp where
  | dPlus | dMinus | twoNip
deriving DecidableEq

/-- Result of an operation on doubles -/
def DoubleOp.eval : DoubleOp → BitVec (w + w) → BitVec (w + w) → BitVec (w + w)
  | .dPlus, d1, d2 => d1 + d2
  | .dMinus, d1, d2 => d1 - d2
  | .twoNip, _, d2 => d2

/-! ## All words -/

/-- Words that use a fixed number of cells on top of the data stack -/
inductive Prim where
  | drop | unary (u : Unary) | spread (s : Spread)
  | twoDrop | binary (b : Binary) | pair (p : Pair) | copy (c : Copy)
  | ternary (t : Ternary) | ternaryPair (t : TernaryPair) | rotation (r : Rotation)
  | doubleTest (d : DoubleTest) | doubleOp (d : DoubleOp) | twoSwap
  | third | fourth
deriving DecidableEq

/-- The number of arguments -/
def Prim.arity : Prim → Nat
  | .drop | .unary _ | .spread _ => 1
  | .twoDrop | .binary _ | .pair _ | .copy _ => 2
  | .ternary _ | .ternaryPair _ | .rotation _ | .third => 3
  | .doubleTest _ | .doubleOp _ | .twoSwap | .fourth => 4

/-- Colon definitions among the words -/
def Prim.isColon : Prim → Bool
  | .spread .sToD | .pair .arrayToMem => true
  | _ => false

/-- The words that the optimizers know -/
inductive Word where
  | prim (p : Prim)
  | pick | fpick | fetch | execute
  | fdup | fover | fthird | ffourth
  | other (k : Nat)
deriving DecidableEq

/-- Why a run ends early: a {lit}`throw`, or a word that reads below the bottom of a stack -/
inductive Fault where
  | throw (ball : Int)
  | underflow
deriving DecidableEq

/-- The number of a ball -/
def Ball.number : Ball → Int
  | .divZero => -10
  | .resultRange => -11
  | .invalidNumericArgument => -24

/-- The data stack and the floating-point stack -/
structure Machine (w : Nat) (F : Type) where
  stack : List (BitVec w)
  floats : List F

/-- What the words use besides the stacks: the division instruction, {lit}`wcwidth`, the
memory, the words with their execution tokens and the effect of words without an
optimizer -/
structure Engine (w : Nat) (F : Type) where
  umdiv : BitVec (w + w) → BitVec w → Except Ball (BitVec (w + w))
  wcwidth : BitVec w → BitVec w
  fetch : BitVec w → Except Int (BitVec w)
  wordOf : BitVec w → Word
  other : Nat → Machine w F → Except Fault (Machine w F)

variable {F : Type}

/-- The list of two results with the top first -/
def topTwo (x : BitVec w × BitVec w) : List (BitVec w) :=
  [x.2, x.1]

/-- The list of three results with the top first -/
def topThree (x : BitVec w × BitVec w × BitVec w) : List (BitVec w) :=
  [x.2.2, x.2.1, x.1]

/-- Results of a word for its arguments; both lists have the top first. -/
def Prim.apply (e : Engine w F) : Prim → List (BitVec w) → Except Ball (List (BitVec w))
  | .drop, [_] => .ok []
  | .unary u, [x] => .ok [u.eval e.wcwidth x]
  | .spread s, [x] => .ok (topTwo (s.eval x))
  | .twoDrop, [_, _] => .ok []
  | .binary b, [x2, x1] => (b.eval x1 x2).map fun x => [x]
  | .pair p, [x2, x1] => (p.eval x1 x2).map topTwo
  | .copy c, [x2, x1] => .ok (topThree (c.eval x1 x2))
  | .ternary t, [x3, x2, x1] => (t.eval e.umdiv x1 x2 x3).map fun x => [x]
  | .ternaryPair t, [x3, x2, x1] => (t.eval e.umdiv x1 x2 x3).map topTwo
  | .rotation r, [x3, x2, x1] => .ok (topThree (r.eval x1 x2 x3))
  | .doubleTest d, [h2, l2, h1, l1] => .ok [d.eval (twoCell l1 h1) (twoCell l2 h2)]
  | .doubleOp d, [h2, l2, h1, l1] => .ok (topTwo (cellsOf (d.eval (twoCell l1 h1) (twoCell l2 h2))))
  | .twoSwap, [x4, x3, x2, x1] => .ok [x2, x1, x4, x3]
  | .third, [x3, x2, x1] => .ok [x1, x3, x2, x1]
  | .fourth, [x4, x3, x2, x1] => .ok [x1, x4, x3, x2, x1]
  | _, _ => .ok []

/-- The word takes its arguments from the data stack and leaves its results there. -/
def Prim.step (e : Engine w F) (p : Prim) (m : Machine w F) : Except Fault (Machine w F) :=
  if m.stack.length < p.arity then .error .underflow
  else
    match p.apply e (m.stack.take p.arity) with
    | .error b => .error (.throw (Ball.number b))
    | .ok results => .ok { m with stack := results ++ m.stack.drop p.arity }

/-- The results of a word on the stack, or what it throws -/
def putResults (floats : List F) (stack : List (BitVec w)) :
    Except Ball (List (BitVec w)) → Except Fault (Machine w F)
  | .error b => .error (.throw (Ball.number b))
  | .ok results => .ok ⟨results ++ stack, floats⟩

section

variable (e : Engine w F) (x x1 x2 : BitVec w) (stack : List (BitVec w)) (floats : List F)

theorem Prim.step_binary (b : Binary) :
    (Prim.binary b).step e ⟨x2 :: x1 :: stack, floats⟩ =
      putResults floats stack ((b.eval x1 x2).map fun x => [x]) :=
  rfl

theorem Prim.step_pair (p : Pair) :
    (Prim.pair p).step e ⟨x2 :: x1 :: stack, floats⟩ =
      putResults floats stack ((p.eval x1 x2).map topTwo) :=
  rfl

end

/-- {lit}`fpick` of a fixed float -/
def copyFloat (i : Nat) (m : Machine w F) : Except Fault (Machine w F) :=
  match m.floats[i]? with
  | none => .error .underflow
  | some r => .ok { m with floats := r :: m.floats }

/-- The words other than {lit}`execute` -/
def Word.simpleStep (e : Engine w F) (word : Word) (m : Machine w F) :
    Except Fault (Machine w F) :=
  match word with
  | .prim p => p.step e m
  | .pick =>
      match m.stack with
      | [] => .error .underflow
      | u :: stack =>
          match stack[u.toNat]? with
          | none => .error .underflow
          | some x => .ok { m with stack := x :: stack }
  | .fpick =>
      match m.stack with
      | [] => .error .underflow
      | u :: stack => copyFloat u.toNat { m with stack := stack }
  | .fetch =>
      match m.stack with
      | [] => .error .underflow
      | a :: stack =>
          match e.fetch a with
          | .error ball => .error (.throw ball)
          | .ok x => .ok { m with stack := x :: stack }
  | .fdup => copyFloat 0 m
  | .fover => copyFloat 1 m
  | .fthird => copyFloat 2 m
  | .ffourth => copyFloat 3 m
  | .other k => e.other k m
  | .execute => .ok m

/-- {lit}`execute` takes an execution token from the stack, which may be its own. -/
def executeStep (e : Engine w F) (floats : List F) : List (BitVec w) → Except Fault (Machine w F)
  | [] => .error .underflow
  | xt :: stack =>
      match e.wordOf xt with
      | .execute => executeStep e floats stack
      | word => word.simpleStep e ⟨stack, floats⟩

/-- The effect of a word -/
def Word.step (e : Engine w F) (word : Word) (m : Machine w F) : Except Fault (Machine w F) :=
  match word with
  | .execute => executeStep e m.floats m.stack
  | word => word.simpleStep e m

end Compile
end Gforth
