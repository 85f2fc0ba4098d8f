import Gforth.Regexp.Machine

/-!
# The regexp compiler

The words of {lit}`regexp.fs` are control structures: they compile instructions and put forward branches
on the control-flow stack.  A mismatch leaves the innermost block; these branches wait on the leave
stack until {lit}`done` resolves those of the block.
-/

namespace Gforth
namespace Regexp

open Lib

/-! ## Patterns -/

mutual

/-- Patterns, by the words that they are written with -/
inductive Pattern
  /-- {lit}`c?` and {lit}`-c?` -/
  | charClass (negated : Bool) (c : CharClass)
  /-- The characters that {lit}`backquote` and its negation look for -/
  | char (negated : Bool) (c : Byte)
  /-- An optional character -/
  | optChar (c : Byte)
  /-- {lit}`="` -/
  | string (s : List Byte)
  /-- {lit}`\^` -/
  | startOf
  /-- {lit}`\$` -/
  | endOf
  /-- {lit}`?end` -/
  | qEnd
  /-- {lit}`1+`, which skips a character -/
  | skip
  /-- No words -/
  | empty
  | seq (p q : Pattern)
  /-- {lit}`\( \)` -/
  | group (p : Pattern)
  /-- {lit}`\x7b\x7b \x7d\x7d` -/
  | braces (ps : Alternatives)
  /-- {lit}`\x7b* *\x7d` -/
  | star (p : Pattern)
  /-- {lit}`\x7b+ +\x7d` -/
  | plus (p : Pattern)
  /-- {lit}`\x7b** **\x7d` -/
  | greedyStar (p : Pattern)
  /-- {lit}`\x7b++ ++\x7d` -/
  | greedyPlus (p : Pattern)

/-- Alternatives that are separated by {lit}`||` -/
inductive Alternatives
  | last (p : Pattern)
  | or (p : Pattern) (ps : Alternatives)

end

/-! ## State -/

/-- An item on the control-flow stack, or a number between such items -/
inductive CsItem
  | orig (addr : Nat)
  | dest (addr : Nat)
  | doDest (addr : Nat)
  | number (n : Nat)
deriving DecidableEq

/-- The match variables: {lit}`vars`, {lit}`varstack` and {lit}`varsmax` -/
structure VarState where
  vars : Nat
  varstack : List Nat
  varsmax : Nat
deriving DecidableEq

/-- The state of the compiler -/
structure State where
  code : List Instr
  cs : List CsItem
  leaveStack : List Nat
  loops : List Nat
  vars : VarState

/-- A branch to an address -/
def Instr.setTarget (target : Nat) : Instr → Instr
  | branch _ => branch target
  | qBranch _ => qBranch target
  | call _ => call target
  | uPlusDo _ => uPlusDo target
  | loop _ => loop target
  | instr => instr

namespace State

/-- {lit}`here` -/
def here (s : State) : Nat :=
  s.code.length

/-- {lit}`compile,` and {lit}`literal` -/
def comma (instr : Instr) (s : State) : State :=
  { s with code := s.code ++ [instr] }

/-- Some words of a definition -/
def commas (l : List Instr) (s : State) : State :=
  { s with code := s.code ++ l }

/-- A branch with {lit}`>mark` -/
def mark (instr : Instr) (s : State) : State :=
  { s.comma instr with cs := .orig s.here :: s.cs }

/-- {lit}`>resolve` -/
def resolve (addr : Nat) (s : State) : State :=
  { s with code := changeAt (Instr.setTarget s.here) addr s.code }

/-! ## Control structures -/

/-- {lit}`ahead` -/
def ahead (s : State) : State :=
  s.mark (.branch 0)

/-- {lit}`if` -/
def if' (s : State) : State :=
  s.mark (.qBranch 0)

/-- {lit}`fork` -/
def fork (s : State) : State :=
  s.mark (.call 0)

/-- {lit}`then`, and {lit}`join` -/
def then' (s : State) : Option State :=
  match s.cs with
  | .orig addr :: cs => some { s.resolve addr with cs := cs }
  | _ => none

/-- {lit}`but` -/
def but (s : State) : Option State :=
  match s.cs with
  | x :: y :: cs => some { s with cs := y :: x :: cs }
  | _ => none

/-- {lit}`begin` -/
def begin' (s : State) : State :=
  { s with cs := .dest s.here :: s.cs }

/-- {lit}`again` -/
def again (s : State) : Option State :=
  match s.cs with
  | .dest addr :: cs => some { s.comma (.branch addr) with cs := cs }
  | _ => none

/-- {lit}`until` -/
def until' (s : State) : Option State :=
  match s.cs with
  | .dest addr :: cs => some { s.comma (.qBranch addr) with cs := cs }
  | _ => none

/-- {lit}`while` -/
def while' (s : State) : Option State :=
  s.if'.but

/-- {lit}`repeat` -/
def repeat' (s : State) : Option State :=
  s.again.bind then'

/-- {lit}`>leave` -/
def toLeave (s : State) : Option State :=
  match s.cs with
  | .orig addr :: cs => some { s with cs := cs, leaveStack := addr :: s.leaveStack }
  | _ => none

/-- {lit}`?leave` -/
def qLeave (s : State) : Option State :=
  (s.comma .zeroEquals).if'.toLeave

/-- The loop of {lit}`done` -/
def doneLoop (addr : Nat) : List Nat → State → State
  | [], s => { s with leaveStack := [] }
  | orig :: leaveStack, s =>
      if addr ≤ orig then doneLoop addr leaveStack (s.resolve orig)
      else { s with leaveStack := orig :: leaveStack }

/-- {lit}`done` -/
def done (addr : Nat) (s : State) : State :=
  doneLoop addr s.leaveStack s

/-- {lit}`u+do` -/
def uPlusDo (s : State) : Option State :=
  (s.mark (.uPlusDo 0)).toLeave.map fun s => { s with cs := .doDest s.here :: s.cs }

/-- {lit}`loop`; the operand in front of the loop is resolved, too. -/
def loop (s : State) : Option State :=
  match s.cs with
  | .doDest addr :: cs =>
      some (({ s.comma (.loop addr) with cs := cs }.done (addr - 1)).comma .unloop)
  | _ => none

/-! ## Blocks -/

/-- {lit}`begin,` -/
def beginComma (s : State) : State :=
  { s with loops := s.here :: s.loops }

/-- {lit}`done,` -/
def doneComma (s : State) : Option State :=
  match s.loops with
  | addr :: loops => some ({ s with loops := loops }.done addr)
  | [] => none

/-- {lit}`drop false ;s` -/
def fail : List Instr :=
  [.drop, .lit (flag false), .semis]

/-- {lit}`drop true ;s` -/
def succeed : List Instr :=
  [.drop, .lit (flag true), .semis]

/-- {lit}`((` -/
def openBlock (s : State) : Option State :=
  let s := { s with loops := [], vars := { s.vars with vars := 0, varsmax := 0 } }
  (s.fork.ahead.but.bind then').map fun s => (s.comma .storeEnd).beginComma

/-- {lit}`))` -/
def closeBlock (s : State) : Option State :=
  (s.commas [.toLast, .semis]).doneComma.bind fun s => (s.commas fail).then'

/-! ## Loops -/

/-- {lit}`\x7b**` and {lit}`\x7b++` -/
def openGreedy (s : State) : Option State :=
  let s := (s.commas [.lit (flag false), .toR]).begin'
  ((s.comma .dup).fork.but.bind while').bind fun s =>
    ((s.commas [.lastS, .rFrom, .onePlus, .toR]).repeat').bind fun s =>
      ((s.comma .rFrom).ahead.but.bind then').map beginComma

/-- The end of the block for the body of a greedy loop -/
def closeBody (s : State) : Option State :=
  (s.commas [.toLast, .semis]).doneComma.bind fun s => (s.commas fail).then'

/-- {lit}`**\x7d` -/
def closeGreedyStar (s : State) : Option State :=
  s.closeBody.bind fun s =>
    (s.commas [.onePlus, .lit (flag false)]).uPlusDo.bind fun s =>
      s.fork.but.bind fun s =>
        ((s.if'.commas [.iTick, .i, .minus, .oneMinus, .drops, .unloop, .lit (flag true),
          .semis]).then'.bind loop).bind fun s =>
            (s.commas [.lit (flag false), .semis]).then'

/-- {lit}`++\x7d` -/
def closeGreedyPlus (s : State) : Option State :=
  s.closeBody.bind fun s =>
    (s.comma (.lit (flag false))).uPlusDo.bind fun s =>
      s.fork.but.bind fun s =>
        ((s.if'.commas [.iTick, .i, .minus, .drops, .unloop, .lit (flag true),
          .semis]).then'.bind loop).bind fun s =>
            (s.commas fail).then'

/-- {lit}`\x7b+` -/
def openPlus (s : State) : State :=
  s.begin'.beginComma

/-- {lit}`\x7b*` -/
def openStar (s : State) : Option State :=
  (s.openPlus.comma .dup).fork.but.bind fun s => (s.if'.commas succeed).then'

/-- {lit}`*\x7d` -/
def closeStar (s : State) : Option State :=
  (s.commas [.dup, .endS, .uGreater]).until'.bind fun s =>
    s.doneComma.bind fun s => (s.commas fail).then'

/-- {lit}`+\x7d` -/
def closePlus (s : State) : Option State :=
  (s.comma .dup).fork.but.bind fun s =>
    (s.if'.commas succeed).doneComma.bind fun s =>
      (s.commas fail).beginComma.then'.bind closeStar

/-! ## Alternatives -/

/-- The start of an alternative, with the number of variables in front of it -/
def openAlternative (s : State) : Option State :=
  ((s.comma .dup).fork.if'.commas succeed).but.bind fun s =>
    s.then'.map fun s => { s with cs := .number s.vars.vars :: s.cs }

/-- {lit}`\x7b\x7b` -/
def openBraces (s : State) : Option State :=
  { s with cs := .number 0 :: s.cs }.openAlternative

/-- {lit}`||` -/
def nextAlternative (s : State) : Option State :=
  match s.cs with
  | .number n :: cs =>
      let s := { s with
        cs := cs
        vars := { s.vars with varsmax := max s.vars.vars s.vars.varsmax, vars := n } }
      (s.ahead.but.bind then').bind openAlternative
  | _ => none

/-- {lit}`THENs` -/
def thens : List CsItem → State → Option State
  | .number _ :: cs, s => some { s with cs := cs }
  | .orig addr :: cs, s => thens cs (s.resolve addr)
  | _, _ => none

/-- {lit}`\x7d\x7d` -/
def closeBraces (s : State) : Option State :=
  match s.cs with
  | .number _ :: cs =>
      let s := { s with
        cs := cs
        vars := { s.vars with vars := max s.vars.vars s.vars.varsmax } }
      (s.ahead.but.bind then').bind fun s =>
        thens (s.commas fail).cs (s.commas fail)
  | _ => none

/-! ## Match variables -/

/-- {lit}`\(`, with {lit}`>var` -/
def openVar (s : State) : State :=
  let n := s.vars.vars
  { s.commas [.dup, .storeVar (2 * n)] with
    vars := { s.vars with vars := n + 1, varstack := n :: s.vars.varstack } }

/-- {lit}`\)`, with {lit}`var>` -/
def closeVar (s : State) : Option State :=
  match s.vars.varstack with
  | n :: varstack =>
      some { s.commas [.dup, .storeVar (2 * n + 1)] with
        vars := { s.vars with varstack := varstack } }
  | [] => none

end State

/-! ## Compiling patterns -/

mutual

/-- The words of a pattern, one after the other -/
def Pattern.compile : Pattern → State → Option State
  | .charClass false c, s => (s.commas [.charQ c, .zeroEquals]).qLeave
  | .charClass true c, s => (s.comma (.charQ c)).qLeave
  | .char false c, s => (s.commas [.count, .lit c.toNat, .notEquals]).qLeave
  | .char true c, s => (s.commas [.count, .lit c.toNat, .equals]).qLeave
  | .optChar c, s => some (s.commas [.count, .lit c.toNat, .notEquals, .plus])
  | .string t, s =>
      (s.commas [.restS, .lit t.length, .umin, .compareLit t]).qLeave.map
        (State.commas [.lit t.length, .plus])
  | .startOf, s => (s.comma .startRexQ).qLeave
  | .endOf, s => (s.comma .endRexQ).qLeave
  | .qEnd, s => (s.commas [.dup, .endS, .uGreater]).qLeave
  | .skip, s => some (s.comma .onePlus)
  | .empty, s => some s
  | .seq p q, s => (p.compile s).bind q.compile
  | .group p, s => (p.compile s.openVar).bind State.closeVar
  | .braces ps, s => s.openBraces.bind ps.compile
  | .star p, s => s.openStar.bind fun s => (p.compile s).bind State.closeStar
  | .plus p, s => (p.compile s.openPlus).bind State.closePlus
  | .greedyStar p, s => s.openGreedy.bind fun s => (p.compile s).bind State.closeGreedyStar
  | .greedyPlus p, s => s.openGreedy.bind fun s => (p.compile s).bind State.closeGreedyPlus

/-- The words from an alternative on -/
def Alternatives.compile : Alternatives → State → Option State
  | .last p, s => (p.compile s).bind State.closeBraces
  | .or p ps, s => (p.compile s).bind fun s => s.nextAlternative.bind ps.compile

end

/-- {lit}`(( ))` around a pattern -/
def compileBlock (p : Pattern) (s : State) : Option State :=
  s.openBlock.bind fun s => (p.compile s).bind State.closeBlock

end Regexp
end Gforth
