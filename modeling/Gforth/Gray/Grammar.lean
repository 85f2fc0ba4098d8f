import Mathlib.Data.Finset.Basic
import Mathlib.Logic.Function.Basic
import Mathlib.Data.Finset.Lattice.Basic
import Mathlib.Data.Finset.Disjoint
import Gforth.Lib.Recognizers

/-!
# Gray: grammars and their parsers

Gray is a parser generator.  A grammar is a graph of syntax-exprs, in which nonterminals point back
to the bodies of their rules, and several syntax-exprs can have an operand in common.  The generator
computes first sets on demand, passes follow sets down the graph, looks for conflicts, and
generates code that parses by recursive descent.

Main results:

- Definition {lit}`parser`: the generator, from a syntax-expr to the code that parses it.
- Definition {lit}`Derives`: the language of a syntax-expr.
-/

namespace Gforth
namespace Gray

open Lib

/-! ## Syntax-exprs -/

/-- A syntax-expr, with its operands.  A terminal stands for any token of its set; a nonterminal has
the body of its rule, once {lit}`rule` has set it. -/
inductive Node where
  | eps
  | terminal (set : Finset Nat)
  | concat (operand1 operand2 : Nat)
  | alt (operand1 operand2 : Nat)
  | option (operand : Nat)
  | star (operand : Nat)
  | plus (operand : Nat)
  | nt (ruleBody : Option Nat)
deriving DecidableEq

/-- The syntax-exprs by their addresses -/
abbrev Grammar := Nat → Node

/-- Generated code: it tests and reads tokens, and calls the code of nonterminals. -/
abbrev Code := Recognizer Nat Nat

/-- The fields of the syntax-exprs that the generator changes, and the conflicts that it has
reported. -/
structure State where
  markPropagate : Nat → Bool
  markPass2 : Nat → Bool
  first : Nat → Option (Finset Nat × Bool)
  follow : Nat → Finset Nat
  markCompute : Nat → Bool
  exec : Nat → Option Code
  conflicts : List (Finset Nat)

namespace State

def setMarkPropagate (e : Nat) (s : State) : State :=
  { s with markPropagate := Function.update s.markPropagate e true }

def setMarkPass2 (e : Nat) (s : State) : State :=
  { s with markPass2 := Function.update s.markPass2 e true }

def setFirst (e : Nat) (v : Finset Nat × Bool) (s : State) : State :=
  { s with first := Function.update s.first e (some v) }

def setFollow (e : Nat) (followSet : Finset Nat) (s : State) : State :=
  { s with follow := Function.update s.follow e followSet }

def setMarkCompute (e : Nat) (s : State) : State :=
  { s with markCompute := Function.update s.markCompute e true }

def setExec (e : Nat) (code : Code) (s : State) : State :=
  { s with exec := Function.update s.exec e (some code) }

/-- {lit}`check-conflict`: report the tokens that are in both sets. -/
def checkConflict (set1 set2 : Finset Nat) (s : State) : State :=
  if Disjoint set1 set2 then s else { s with conflicts := s.conflicts ++ [set1 ∩ set2] }

end State

/-- The first set and {lit}`maybe-empty` that {lit}`make-terminal` and {lit}`eps` store; those of
other syntax-exprs are not computed yet. -/
def initialFirst : Node → Option (Finset Nat × Bool)
  | .eps => some (∅, true)
  | .terminal set => some (set, false)
  | _ => none

/-- The syntax-exprs as they are made -/
def initial (g : Grammar) : State where
  markPropagate _ := false
  markPass2 _ := false
  first e := initialFirst (g e)
  follow _ := ∅
  markCompute _ := false
  exec _ := none
  conflicts := []

/-- The errors that end the generator, and the bound on the depth of the recursion -/
inductive GrayError where
  | leftRecursion
  | noRule
  | internalError
  | tooDeep
deriving DecidableEq

/-- What a word of the generator does -/
abbrev Generator := StateT State (Except GrayError)

/-- {lit}`get-body` -/
def getBody : Option Nat → Generator Nat
  | some body => pure body
  | none => throw .noRule

/-! ## First sets -/

section Compute

variable (compute : Nat → Generator (Finset Nat × Bool))

def computeConcatenation (operand1 operand2 : Nat) : Generator (Finset Nat × Bool) := do
  let (first1, maybeEmpty1) ← compute operand1
  if maybeEmpty1 then
    let (first2, maybeEmpty2) ← compute operand2
    return (first1 ∪ first2, maybeEmpty2)
  else
    return (first1, maybeEmpty1)

def computeAlternative (operand1 operand2 : Nat) : Generator (Finset Nat × Bool) := do
  let (first1, maybeEmpty1) ← compute operand1
  let (first2, maybeEmpty2) ← compute operand2
  return (first1 ∪ first2, maybeEmpty1 || maybeEmpty2)

/-- {lit}`compute-option` and {lit}`compute-*repetition` -/
def computeOption (operand : Nat) : Generator (Finset Nat × Bool) := do
  let (first, _) ← compute operand
  return (first, true)

def computeNt (e : Nat) (ruleBody : Option Nat) : Generator (Finset Nat × Bool) := do
  let s ← get
  if s.markCompute e then
    throw .leftRecursion
  else
    modify (State.setMarkCompute e)
    let body ← getBody ruleBody
    compute body

/-- The {lit}`compute-method` of a syntax-expr -/
def computeMethod (e : Nat) : Node → Generator (Finset Nat × Bool)
  | .eps => throw .internalError
  | .terminal _ => throw .internalError
  | .concat operand1 operand2 => computeConcatenation compute operand1 operand2
  | .alt operand1 operand2 => computeAlternative compute operand1 operand2
  | .option operand => computeOption compute operand
  | .star operand => computeOption compute operand
  | .plus operand => compute operand
  | .nt ruleBody => computeNt compute e ruleBody

/-- {lit}`get-first` -/
def getFirst (e : Nat) : Generator (Finset Nat) := do
  let (first, _) ← compute e
  return first

/-- {lit}`check-cycle` -/
def checkCycle (e : Nat) : Generator Unit := do
  let _ ← compute e
  return ()

end Compute

variable (g : Grammar)

/-- {lit}`compute`: the first set of a syntax-expr, and whether it can be empty, computed once. -/
def compute : Nat → Nat → Generator (Finset Nat × Bool)
  | 0, _ => throw .tooDeep
  | depth + 1, e => do
    let s ← get
    match s.first e with
    | some v => return v
    | none =>
      let v ← computeMethod (compute depth) e (g e)
      modify (State.setFirst e v)
      return v

/-! ## Follow sets -/

section Propagate

variable (compute : Nat → Generator (Finset Nat × Bool)) (propagate : Finset Nat → Nat → Generator Unit)

def propagateConcatenation (followSet : Finset Nat) (operand1 operand2 : Nat) : Generator Unit := do
  let (first, maybeEmpty) ← compute operand2
  propagate (if maybeEmpty then first ∪ followSet else first) operand1
  propagate followSet operand2

def propagateAlternative (followSet : Finset Nat) (operand1 operand2 : Nat) : Generator Unit := do
  propagate followSet operand1
  propagate followSet operand2

def propagateRepetition (followSet : Finset Nat) (operand : Nat) : Generator Unit := do
  let first ← getFirst compute operand
  propagate (followSet ∪ first) operand

def propagateNt (followSet : Finset Nat) (ruleBody : Option Nat) : Generator Unit := do
  let body ← getBody ruleBody
  propagate followSet body

/-- The {lit}`propagate-method` of a syntax-expr -/
def propagateMethod (followSet : Finset Nat) : Node → Generator Unit
  | .eps => return ()
  | .terminal _ => return ()
  | .concat operand1 operand2 =>
    propagateConcatenation compute propagate followSet operand1 operand2
  | .alt operand1 operand2 => propagateAlternative propagate followSet operand1 operand2
  | .option operand => propagate followSet operand
  | .star operand => propagateRepetition compute propagate followSet operand
  | .plus operand => propagateRepetition compute propagate followSet operand
  | .nt ruleBody => propagateNt propagate followSet ruleBody

end Propagate

/-- {lit}`propagate`: add to the follow set of a syntax-expr and of its operands, unless everything
would stay the same. -/
def propagate : Nat → Finset Nat → Nat → Generator Unit
  | 0, _, _ => throw .tooDeep
  | depth + 1, followSet, e => do
    let s ← get
    if ¬followSet ⊆ s.follow e ∨ s.markPropagate e = false then
      modify (State.setMarkPropagate e)
      modify (State.setFollow e (followSet ∪ s.follow e))
      propagateMethod (compute g depth) (propagate depth) (followSet ∪ s.follow e) (g e)
    else
      return ()

/-! ## Code -/

/-- {lit}`compile-test`: is the next token in the set? -/
def compileTest (set : Finset Nat) : Option Nat → Bool
  | some token => decide (token ∈ set)
  | none => false

section Generate

variable (compute : Nat → Generator (Finset Nat × Bool)) (generate : Nat → Generator Code)

/-- {lit}`generate-terminal`: the test, and {lit}`check&next`, which is called with its result. -/
def generateTerminal (e : Nat) : Generator Code := do
  let first ← getFirst compute e
  return .token (compileTest first)

def generateConcatenation (operand1 operand2 : Nat) : Generator Code := do
  let code1 ← generate operand1
  let code2 ← generate operand2
  return .seq code1 code2

def generateAlternative1 (operand1 operand2 : Nat) : Generator Code := do
  let first1 ← getFirst compute operand1
  let code1 ← generate operand1
  let code2 ← generate operand2
  return .branch (compileTest first1) code1 code2

def generateAlternative2 (operand1 operand2 : Nat) : Generator Code := do
  let first1 ← getFirst compute operand1
  let first2 ← getFirst compute operand2
  let code2 ← generate operand2
  let code1 ← generate operand1
  return .branch (fun token => !compileTest first1 token && compileTest first2 token) code2 code1

def generateAlternative (operand1 operand2 : Nat) : Generator Code := do
  let (_, maybeEmpty) ← compute operand1
  if maybeEmpty then
    generateAlternative2 compute generate operand1 operand2
  else
    generateAlternative1 compute generate operand1 operand2

def generateOption (operand : Nat) : Generator Code := do
  let first ← getFirst compute operand
  let code ← generate operand
  return .branch (compileTest first) code .skip

/-- {lit}`generate-*repetition` -/
def generateStar (operand : Nat) : Generator Code := do
  let first ← getFirst compute operand
  let code ← generate operand
  return .whileDo (compileTest first) code

/-- {lit}`generate-+repetition` -/
def generatePlus (operand : Nat) : Generator Code := do
  let code ← generate operand
  let first ← getFirst compute operand
  return .doUntil code fun token => !compileTest first token

/-- The {lit}`generate-method` of a syntax-expr.  For a nonterminal it calls the code that
{lit}`exec` has, or will have when the call is executed. -/
def generateMethod (e : Nat) : Node → Generator Code
  | .eps => return .skip
  | .terminal _ => generateTerminal compute e
  | .concat operand1 operand2 => generateConcatenation generate operand1 operand2
  | .alt operand1 operand2 => generateAlternative compute generate operand1 operand2
  | .option operand => generateOption compute generate operand
  | .star operand => generateStar compute generate operand
  | .plus operand => generatePlus compute generate operand
  | .nt _ => return .call e

end Generate

/-- {lit}`generate`: the code of a syntax-expr -/
def generate : Nat → Nat → Generator Code
  | 0, _ => throw .tooDeep
  | depth + 1, e => generateMethod (compute g depth) (generate depth) e (g e)

/-! ## Conflicts -/

section Pass2

variable (compute : Nat → Generator (Finset Nat × Bool)) (generate : Nat → Generator Code)
  (pass2 : Nat → Generator Unit)

def checkConflict (set1 set2 : Finset Nat) : Generator Unit :=
  modify (State.checkConflict set1 set2)

def pass2Binary (operand1 operand2 : Nat) : Generator Unit := do
  pass2 operand1
  pass2 operand2

/-- The first check of {lit}`pass2-alternative` -/
def checkEmptyConflict (e : Nat) : Generator Unit := do
  let (first, maybeEmpty) ← compute e
  let s ← get
  if maybeEmpty then checkConflict first (s.follow e) else return ()

def pass2Alternative (e operand1 operand2 : Nat) : Generator Unit := do
  checkEmptyConflict compute e
  let first1 ← getFirst compute operand1
  let first2 ← getFirst compute operand2
  checkConflict first1 first2
  pass2Binary pass2 operand1 operand2

/-- {lit}`pass2-option&repetition` -/
def pass2OptionAndRepetition (e operand : Nat) : Generator Unit := do
  let s ← get
  let first ← getFirst compute operand
  checkConflict (s.follow e) first
  pass2 operand

/-- {lit}`code-nt` -/
def codeNt (e : Nat) (ruleBody : Option Nat) : Generator Unit := do
  let body ← getBody ruleBody
  let code ← generate body
  modify (State.setExec e code)

def pass2Nt (e : Nat) (ruleBody : Option Nat) : Generator Unit := do
  let body ← getBody ruleBody
  pass2 body
  codeNt generate e ruleBody

/-- The {lit}`pass2-method` of a syntax-expr -/
def pass2Method (e : Nat) : Node → Generator Unit
  | .eps => return ()
  | .terminal _ => return ()
  | .concat operand1 operand2 => pass2Binary pass2 operand1 operand2
  | .alt operand1 operand2 => pass2Alternative compute pass2 e operand1 operand2
  | .option operand => pass2OptionAndRepetition compute pass2 e operand
  | .star operand => pass2OptionAndRepetition compute pass2 e operand
  | .plus operand => pass2OptionAndRepetition compute pass2 e operand
  | .nt ruleBody => pass2Nt generate pass2 e ruleBody

end Pass2

/-- {lit}`pass2`: look for left recursion and conflicts, and generate the code of the rules. -/
def pass2 : Nat → Nat → Generator Unit
  | 0, _ => throw .tooDeep
  | depth + 1, e => do
    let s ← get
    if s.markPass2 e then
      return ()
    else
      modify (State.setMarkPass2 e)
      checkCycle (compute g depth) e
      pass2Method (compute g depth) (generate g depth) (pass2 depth) e (g e)

/-- {lit}`parser`: the code that parses a syntax-expr -/
def parser (depth start : Nat) : Generator Code := do
  propagate g depth ∅ start
  pass2 g depth start
  generate g depth start

/-! ## The language -/

/-- The sequences of tokens that a syntax-expr stands for -/
inductive Derives : Node → List Nat → Prop
  | eps : Derives .eps []
  | terminal {set token} : token ∈ set → Derives (.terminal set) [token]
  | concat {a b u v} : Derives (g a) u → Derives (g b) v → Derives (.concat a b) (u ++ v)
  | alt1 {a b u} : Derives (g a) u → Derives (.alt a b) u
  | alt2 {a b u} : Derives (g b) u → Derives (.alt a b) u
  | optionNone {a} : Derives (.option a) []
  | optionSome {a u} : Derives (g a) u → Derives (.option a) u
  | starNone {a} : Derives (.star a) []
  | starSome {a u v} : Derives (g a) u → Derives (.star a) v → Derives (.star a) (u ++ v)
  | plusOne {a u} : Derives (g a) u → Derives (.plus a) u
  | plusMore {a u v} : Derives (g a) u → Derives (.plus a) v → Derives (.plus a) (u ++ v)
  | nt {body u} : Derives (g body) u → Derives (.nt (some body)) u

end Gray
end Gforth
