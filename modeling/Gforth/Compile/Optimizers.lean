import Gforth.Compile.Words

/-!
# Literal stack and optimizers

Literals are not compiled at once, but kept on a stack.  The optimizer of a word looks at the
literals that are pending when the word is compiled: it runs the word at compile time, or
compiles other words, or compiles the pending literals and the word.
-/

namespace Gforth
namespace Compile

open Lib Arith

variable {w : Nat} {F : Type}

/-! ## Compiled code -/

/-- The second stages of staged division -/
inductive Stage2 where
  | slashF | modf | slashModf | uSlash | umod | uSlashMod
deriving DecidableEq

/-- Results of a second stage, with the top first -/
def Stage2.eval : Stage2 → BitVec w → StageDiv w → List (BitVec w)
  | .slashF, n, reci => [slashFStage2m n reci]
  | .modf, n, reci => [modfStage2m n reci]
  | .slashModf, n, reci => topTwo (slashModfStage2m n reci)
  | .uSlash, u, reci => [uSlashStage2m u reci]
  | .umod, u, reci => [umodStage2m u reci]
  | .uSlashMod, u, reci => topTwo (uSlashModStage2m u reci)

/-- Compiled code; the literal address of the buffer before a second stage is represented by
the contents of the buffer. -/
inductive Instr (w : Nat) where
  | lit (x : BitVec w)
  | word (name : Word)
  | call (p : Prim)
  | litPlus (n : BitVec w)
  | litFetch (a : BitVec w)
  | stage2 (op : Stage2) (reci : StageDiv w)
deriving DecidableEq

/-- The effect of a literal -/
def push (x : BitVec w) (m : Machine w F) : Except Fault (Machine w F) :=
  .ok { m with stack := x :: m.stack }

/-- The effect of an instruction -/
def Instr.step (e : Engine w F) : Instr w → Machine w F → Except Fault (Machine w F)
  | .lit x, m => push x m
  | .word name, m => name.step e m
  | .call p, m => p.step e m
  | .litPlus n, m =>
      match m.stack with
      | [] => .error .underflow
      | x :: stack => .ok { m with stack := (x + n) :: stack }
  | .litFetch a, m =>
      match e.fetch a with
      | .error ball => .error (.throw ball)
      | .ok x => .ok { m with stack := x :: m.stack }
  | .stage2 op reci, m =>
      match m.stack with
      | [] => .error .underflow
      | x :: stack => .ok { m with stack := op.eval x reci ++ stack }

/-- The effect of compiled code -/
def run (e : Engine w F) : List (Instr w) → Machine w F → Except Fault (Machine w F) :=
  runAll (Instr.step e)

/-! ## The literal stack -/

/-- The code compiled so far and the pending literals, the last one first -/
structure Compiler (w : Nat) where
  code : List (Instr w)
  lits : List (BitVec w)
deriving DecidableEq

/-- {lit}`literal` -/
def Compiler.literal (x : BitVec w) (σ : Compiler w) : Compiler w :=
  { σ with lits := x :: σ.lits }

/-- {lit}`lits,` -/
def Compiler.litsComma (σ : Compiler w) : Compiler w where
  code := σ.code ++ σ.lits.reverse.map .lit
  lits := []

/-- {lit}`peephole-compile,` -/
def Compiler.peepholeCompile (i : Instr w) (σ : Compiler w) : Compiler w where
  code := σ.litsComma.code ++ [i]
  lits := σ.litsComma.lits

/-- Data stack and literal stack at compile time -/
abbrev Stacks (w : Nat) :=
  List (BitVec w) × List (BitVec w)

/-- {lit}`lits>` -/
def litsFrom : Stacks w → Stacks w
  | (s, x :: l) => (x :: s, l)
  | p => p

/-- {lit}`>lits` -/
def toLits : Stacks w → Stacks w
  | (x :: s, l) => (s, x :: l)
  | p => p

/-- {lit}`swap` at compile time -/
def swapStack : Stacks w → Stacks w
  | (x2 :: x1 :: s, l) => (x1 :: x2 :: s, l)
  | p => p

/-- {lit}`rot` at compile time -/
def rotStack : Stacks w → Stacks w
  | (x3 :: x2 :: x1 :: s, l) => (x1 :: x3 :: x2 :: s, l)
  | p => p

/-- {lit}`-rot` at compile time -/
def notRotStack : Stacks w → Stacks w
  | (x3 :: x2 :: x1 :: s, l) => (x2 :: x1 :: x3 :: s, l)
  | p => p

/-- {lit}`2swap` at compile time -/
def twoSwapStack : Stacks w → Stacks w
  | (x4 :: x3 :: x2 :: x1 :: s, l) => (x2 :: x1 :: x4 :: x3 :: s, l)
  | p => p

/-- {lit}`2lits>` -/
def twoLitsFrom (p : Stacks w) : Stacks w :=
  swapStack (litsFrom (litsFrom p))

/-- {lit}`>2lits` -/
def toTwoLits (p : Stacks w) : Stacks w :=
  toLits (toLits (swapStack p))

/-- {lit}`3lits>` -/
def threeLitsFrom (p : Stacks w) : Stacks w :=
  notRotStack (litsFrom (twoLitsFrom p))

/-- {lit}`>3lits` -/
def toThreeLits (p : Stacks w) : Stacks w :=
  toTwoLits (toLits (rotStack p))

/-- {lit}`4lits>` -/
def fourLitsFrom (p : Stacks w) : Stacks w :=
  twoSwapStack (twoLitsFrom (twoLitsFrom p))

/-- {lit}`>4lits` -/
def toFourLits (p : Stacks w) : Stacks w :=
  toTwoLits (toTwoLits (twoSwapStack p))

/-! ## Constant folding -/

/-- The parameters of {lit}`fold-constants` -/
structure Folder (w : Nat) where
  m : Nat
  pop : Stacks w → Stacks w
  unpop : Stacks w → Stacks w
  push : Stacks w → Stacks w

/-- The end of {lit}`fold-constants` -/
def compileUnfolded (p : Prim) (σ : Compiler w) : Compiler w :=
  if p.isColon then σ.peepholeCompile (.call p) else σ.peepholeCompile (.word (.prim p))

/-- Run a word under {lit}`catch-nobt`; after a throw the stack has its old depth, and the
words that throw leave their arguments as they are. -/
def catchNobt (e : Engine w F) (p : Prim) (s : List (BitVec w)) : List (BitVec w) × Bool :=
  if s.length < p.arity then (s, false)
  else
    match p.apply e (s.take p.arity) with
    | .error _ => (s, false)
    | .ok results => (results ++ s.drop p.arity, true)

/-- {lit}`fold-constants` -/
def foldConstants (e : Engine w F) (p : Prim) (f : Folder w) (σ : Compiler w) : Compiler w :=
  if f.m ≤ σ.lits.length then
    let (s, l) := f.pop ([], σ.lits)
    let (s, success) := catchNobt e p s
    if success then { σ with lits := (f.push (s, l)).2 }
    else compileUnfolded p { σ with lits := (f.unpop (s, l)).2 }
  else compileUnfolded p σ

/-- {lit}`fold1-0` -/
def fold10 : Folder w := ⟨1, litsFrom, toLits, id⟩

/-- {lit}`fold1-1` -/
def fold11 : Folder w := ⟨1, litsFrom, toLits, toLits⟩

/-- {lit}`fold1-2` -/
def fold12 : Folder w := ⟨1, litsFrom, toLits, toTwoLits⟩

/-- {lit}`fold2-0`, which puts back only one of two literals -/
def fold20 : Folder w := ⟨2, twoLitsFrom, toLits, id⟩

/-- {lit}`fold2-1` -/
def fold21 : Folder w := ⟨2, twoLitsFrom, toTwoLits, toLits⟩

/-- {lit}`fold2-2` -/
def fold22 : Folder w := ⟨2, twoLitsFrom, toTwoLits, toTwoLits⟩

/-- {lit}`fold2-3` -/
def fold23 : Folder w := ⟨2, twoLitsFrom, toTwoLits, toThreeLits⟩

/-- {lit}`fold3-1` -/
def fold31 : Folder w := ⟨3, threeLitsFrom, toThreeLits, toLits⟩

/-- {lit}`fold3-2` -/
def fold32 : Folder w := ⟨3, threeLitsFrom, toThreeLits, toTwoLits⟩

/-- {lit}`fold3-3` -/
def fold33 : Folder w := ⟨3, threeLitsFrom, toThreeLits, toThreeLits⟩

/-- {lit}`fold4-1` -/
def fold41 : Folder w := ⟨4, fourLitsFrom, toFourLits, toLits⟩

/-- {lit}`fold4-2` -/
def fold42 : Folder w := ⟨4, fourLitsFrom, toFourLits, toTwoLits⟩

/-- {lit}`fold4-4` -/
def fold44 : Folder w := ⟨4, fourLitsFrom, toFourLits, toFourLits⟩

/-- The words that each of the folders is used for, from the {lit}`folds` lines and the
optimizers that end in one -/
def folderOf : Prim → Option (Folder w)
  | .drop => some fold10
  | .unary _ => some fold11
  | .spread _ => some fold12
  | .twoDrop => some fold20
  | .binary _ => some fold21
  | .pair _ => some fold22
  | .copy _ => some fold23
  | .ternary _ => some fold31
  | .ternaryPair _ => some fold32
  | .rotation _ => some fold33
  | .doubleTest _ => some fold41
  | .doubleOp _ => some fold42
  | .twoSwap => some fold44
  | .third | .fourth => none

/-! ## Other optimizers -/

/-- The optimizer of {lit}`pick` -/
def optPick (e : Engine w F) (σ : Compiler w) : Compiler w :=
  match σ.lits with
  | [] => σ.peepholeCompile (.word .pick)
  | u :: lits =>
      let σ' := { σ with lits := lits }
      if u = 0#w then foldConstants e (.spread .dup) fold12 σ'
      else if u = 1#w then foldConstants e (.copy .over) fold23 σ'
      else if u = 2#w then σ'.peepholeCompile (.word (.prim .third))
      else if u = 3#w then σ'.peepholeCompile (.word (.prim .fourth))
      else (σ'.literal u).peepholeCompile (.word .pick)

/-- The optimizer of {lit}`fpick` -/
def optFpick (σ : Compiler w) : Compiler w :=
  match σ.lits with
  | [] => σ.peepholeCompile (.word .fpick)
  | u :: lits =>
      let σ' := { σ with lits := lits }
      if u = 0#w then σ'.peepholeCompile (.word .fdup)
      else if u = 1#w then σ'.peepholeCompile (.word .fover)
      else if u = 2#w then σ'.peepholeCompile (.word .fthird)
      else if u = 3#w then σ'.peepholeCompile (.word .ffourth)
      else (σ'.literal u).peepholeCompile (.word .fpick)

/-- {lit}`opt+-`, with the effect of the word on 0 and the literal -/
def optPlusMinus (e : Engine w F) (b : Binary) (op : BitVec w → BitVec w → BitVec w)
    (σ : Compiler w) : Compiler w :=
  match σ.lits with
  | [x] =>
      let σ' := { σ with lits := [] }
      let n := op 0#w x
      if n ≠ 0#w then σ'.peepholeCompile (.litPlus n) else σ'
  | _ => foldConstants e (.binary b) fold21 σ

/-- {lit}`opt*` -/
def optStar (e : Engine w F) (σ : Compiler w) : Compiler w :=
  match σ.lits with
  | [x] =>
      let σ' := { σ with lits := [] }
      if x = 0#w then (foldConstants e .drop fold10 σ').literal 0#w
      else if x = 2#w then foldConstants e (.unary .twoStar) fold11 σ'
      else if x = cell w then foldConstants e (.unary .cells) fold11 σ'
      else if pow2 x then foldConstants e (.binary .lshift) fold21 (σ'.literal (log2 x))
      else (σ'.literal x).peepholeCompile (.word (.prim (.binary .star)))
  | _ => foldConstants e (.binary .star) fold21 σ

/-- {lit}`opt-array>mem` -/
def optArrayToMem (e : Engine w F) (σ : Compiler w) : Compiler w :=
  match σ.lits with
  | [x] => (optStar e (Compiler.literal x { σ with lits := [] })).literal x
  | _ => foldConstants e (.pair .arrayToMem) fold22 σ

/-- {lit}`opt@` -/
def optFetch (σ : Compiler w) : Compiler w :=
  match σ.lits with
  | [] => σ.peepholeCompile (.word .fetch)
  | a :: lits => Compiler.peepholeCompile (.litFetch a) { σ with lits := lits }

/-! ## Division by a literal -/

/-- {lit}`ctz` -/
def ctz (x : BitVec w) : BitVec w :=
  if x ≠ 0#w then log2 (x &&& -x) else BitVec.ofNat w w

/-- {lit}`lit/,` -/
def litSlash (divisor : BitVec w) (stage1 : BitVec w → Except Ball (StageDiv w)) (stage2 : Stage2)
    (σ : Compiler w) : Except Ball (Compiler w) :=
  match stage1 divisor with
  | .error b => .error b
  | .ok reci => .ok (σ.peepholeCompile (.stage2 stage2 reci))

/-- The shape of all optimizers of divisions: the literal divisors that are optimized, the code
for powers of two, the two stages for others, and the folder -/
def optDivision (e : Engine w F) (suitable : BitVec w → Bool)
    (shifts : BitVec w → Compiler w → Compiler w)
    (stage1 : BitVec w → Except Ball (StageDiv w)) (stage2 : Stage2) (p : Prim) (f : Folder w)
    (σ : Compiler w) : Except Ball (Compiler w) :=
  match σ.lits with
  | [x] =>
      let σ' := { σ with lits := [] }
      if suitable x then
        if pow2 x then .ok (shifts x σ') else litSlash x stage1 stage2 σ'
      else .ok (foldConstants e p f (σ'.literal x))
  | _ => .ok (foldConstants e p f σ)

/-- {lit}`0>` for the optimizers of floored division -/
def positive (x : BitVec w) : Bool :=
  (0#w).slt x

/-- {lit}`0<>` for the optimizers of unsigned division -/
def nonzero (x : BitVec w) : Bool :=
  x ≠ 0#w

/-- {lit}`opt-`{lit}`/f` -/
def optSlashF (e : Engine w F) : Compiler w → Except Ball (Compiler w) :=
  optDivision e positive
    (fun x σ => foldConstants e (.binary .arshift) fold21 (σ.literal (ctz x)))
    (slashFStage1m e.umdiv) .slashF (.binary .slashF) fold21

/-- {lit}`opt-u/` -/
def optUSlash (e : Engine w F) : Compiler w → Except Ball (Compiler w) :=
  optDivision e nonzero
    (fun x σ => foldConstants e (.binary .rshift) fold21 (σ.literal (ctz x)))
    (uSlashStage1m e.umdiv) .uSlash (.binary .uSlash) fold21

/-- {lit}`opt-modf` -/
def optModf (e : Engine w F) : Compiler w → Except Ball (Compiler w) :=
  optDivision e positive
    (fun x σ => foldConstants e (.binary .and) fold21 (σ.literal (x - 1#w)))
    (slashFStage1m e.umdiv) .modf (.binary .modf) fold21

/-- {lit}`opt-umod` -/
def optUmod (e : Engine w F) : Compiler w → Except Ball (Compiler w) :=
  optDivision e nonzero
    (fun x σ => foldConstants e (.binary .and) fold21 (σ.literal (x - 1#w)))
    (uSlashStage1m e.umdiv) .umod (.binary .umod) fold21

/-- The code for modulus and quotient by a power of two -/
def maskAndShift (e : Engine w F) (shift : Binary) (x : BitVec w) (σ : Compiler w) : Compiler w :=
  let σ := foldConstants e (.spread .dup) fold12 σ
  let σ := foldConstants e (.binary .and) fold21 (σ.literal (x - 1#w))
  let σ := foldConstants e (.pair .swap) fold22 σ
  foldConstants e (.binary shift) fold21 (σ.literal (ctz x))

/-- {lit}`opt-`{lit}`/modf` -/
def optSlashModf (e : Engine w F) : Compiler w → Except Ball (Compiler w) :=
  optDivision e positive (maskAndShift e .arshift) (slashFStage1m e.umdiv) .slashModf
    (.pair .slashModf) fold22

/-- {lit}`opt-u/mod` -/
def optUSlashMod (e : Engine w F) : Compiler w → Except Ball (Compiler w) :=
  optDivision e nonzero (maskAndShift e .rshift) (uSlashStage1m e.umdiv) .uSlashMod
    (.pair .uSlashMod) fold22

/-! ## Compiling words -/

/-- {lit}`compile,` for the words on the data stack -/
def compilePrim (e : Engine w F) (p : Prim) (σ : Compiler w) : Except Ball (Compiler w) :=
  match p with
  | .binary .plus => .ok (optPlusMinus e .plus (· + ·) σ)
  | .binary .minus => .ok (optPlusMinus e .minus (· - ·) σ)
  | .binary .star => .ok (optStar e σ)
  | .pair .arrayToMem => .ok (optArrayToMem e σ)
  | .binary .slashF => optSlashF e σ
  | .binary .uSlash => optUSlash e σ
  | .binary .modf => optModf e σ
  | .binary .umod => optUmod e σ
  | .pair .slashModf => optSlashModf e σ
  | .pair .uSlashMod => optUSlashMod e σ
  | p =>
      match folderOf p with
      | some f => .ok (foldConstants e p f σ)
      | none => .ok (σ.peepholeCompile (.word (.prim p)))

/-- {lit}`compile,` for the words other than {lit}`execute` -/
def compileSimple (e : Engine w F) (word : Word) (σ : Compiler w) : Except Ball (Compiler w) :=
  match word with
  | .prim p => compilePrim e p σ
  | .pick => .ok (optPick e σ)
  | .fpick => .ok (optFpick σ)
  | .fetch => .ok (optFetch σ)
  | word => .ok (σ.peepholeCompile (.word word))

/-- The optimizer of {lit}`execute`; the word with a literal execution token may be
{lit}`execute` again. -/
def optExecute (e : Engine w F) (code : List (Instr w)) :
    List (BitVec w) → Except Ball (Compiler w)
  | [] => .ok (Compiler.peepholeCompile (.word .execute) ⟨code, []⟩)
  | xt :: lits =>
      match e.wordOf xt with
      | .execute => optExecute e code lits
      | word => compileSimple e word ⟨code, lits⟩

/-- {lit}`compile,` -/
def compileComma (e : Engine w F) (word : Word) (σ : Compiler w) : Except Ball (Compiler w) :=
  match word with
  | .execute => optExecute e σ.code σ.lits
  | word => compileSimple e word σ

/-- Source code without control flow -/
inductive Item (w : Nat) where
  | literal (x : BitVec w)
  | word (name : Word)

/-- Compile source code, a literal or a word at a time. -/
def compile (e : Engine w F) : List (Item w) → Compiler w → Except Ball (Compiler w)
  | [], σ => .ok σ
  | .literal x :: items, σ => compile e items (σ.literal x)
  | .word name :: items, σ =>
      match compileComma e name σ with
      | .error b => .error b
      | .ok σ => compile e items σ

/-- The code of a literal or a word without literal stack and optimizers -/
def Item.plain : Item w → Instr w
  | .literal x => .lit x
  | .word name => .word name

end Compile
end Gforth
