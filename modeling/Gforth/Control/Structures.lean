import Mathlib.Tactic

/-!
# Control structures

The compiling words for conditionals, loops and counted loops.  Branches that are to be resolved later
are items on the control-flow stack; those of {lit}`leave` wait on a stack of their own, from which
{lit}`done` takes the items of a loop by comparing addresses.

Addresses count cells from the start of the code.
-/

namespace Gforth
namespace Control

/-! ## Code -/

/-- The words that start a counted loop -/
inductive Entry where
  | «do» | qDo | plusDo | uPlusDo | minusDo | uMinusDo | «for»
deriving DecidableEq

/-- The words that end a counted loop -/
inductive Exit where
  | loop | plusLoop | minusLoop | next
deriving DecidableEq

/-- Words that are compiled; {lit}`enter` and {lit}`exit` are the run-time words of counted loops. -/
inductive Xt where
  | lit | branch | qBranch | zeroEquals | unloop
  | enter (entry : Entry)
  | exit (ending : Exit)
  | word (n : Nat)
deriving DecidableEq

/-- A cell of the code: {lit}`zero` and {lit}`unresolvedLeave` are operands of branches that are not
resolved. -/
inductive Cell where
  | xt (x : Xt)
  | number (n : Nat)
  | zero
  | unresolvedLeave
  | target (addr : Nat)
deriving DecidableEq

/-! ## State -/

/-- The types of items on the control-flow stack -/
inductive ItemType where
  | liveOrig | deadOrig | dest | doDest
deriving DecidableEq

/-- An item on the control-flow stack -/
structure CsItem where
  stackState : Nat
  localsList : Nat
  addr : Nat
  type : ItemType
deriving DecidableEq

/-- The state of the compiler.  {lit}`resolved` records what {lit}`>resolve` has done, the operand
and the address that it got; the latest comes first. -/
structure State where
  code : List Cell
  litstack : List Nat
  items : List CsItem
  leaveStack : List CsItem
  csDepth1 : Int
  deadCode : Bool
  localsList : Nat
  resolved : List (Nat × Nat)

/-- What the compiler does with ordinary words: {lit}`fold` changes the pending literals instead of
compiling a word, {lit}`cells` is the code of a word.  {lit}`glocals` says whether the hooks for locals
are there. -/
structure Settings where
  fold : Xt → List Nat → Option (List Nat)
  cells : Nat → List Cell
  glocals : Bool

namespace State

/-- {lit}`here` -/
def here (s : State) : Nat :=
  s.code.length

/-- {lit}`,` -/
def comma (c : Cell) (s : State) : State :=
  { s with code := s.code ++ [c] }

/-- {lit}`lits,` -/
def litsComma (s : State) : State :=
  { s with code := s.code ++ s.litstack.flatMap fun n => [.xt .lit, .number n], litstack := [] }

/-- {lit}`basic-block-end` -/
def basicBlockEnd (s : State) : State :=
  s.litsComma

/-- {lit}`compile,` for a word that is not folded -/
def compileComma (x : Xt) (s : State) : State :=
  s.litsComma.comma (.xt x)

/-- {lit}`literal` -/
def literal (n : Nat) (s : State) : State :=
  { s with litstack := s.litstack ++ [n] }

/-- {lit}`compile,` for a word that may be folded -/
def foldComma (c : Settings) (x : Xt) (cells : List Cell) (s : State) : State :=
  match c.fold x s.litstack with
  | some lits => { s with litstack := lits }
  | none => { s.litsComma with code := s.litsComma.code ++ cells }

/-! ## The control-flow stack -/

/-- {lit}`before-cs-push` -/
def beforeCsPush (s : State) : State :=
  { s with csDepth1 := s.csDepth1 + 1 }

/-- {lit}`after-cs-pop` -/
def afterCsPop (s : State) : State :=
  { s with csDepth1 := s.csDepth1 - 1 }

/-- {lit}`cs-push-part`, with the type on top -/
def csPushPart (type : ItemType) (s : State) : State :=
  { s.beforeCsPush with items := ⟨0, s.localsList, s.here, type⟩ :: s.items }

/-- {lit}`cs-push-orig` -/
def csPushOrig (s : State) : State :=
  s.csPushPart (if s.deadCode then .deadOrig else .liveOrig)

/-- {lit}`cs-pick` -/
def csPick (u : Nat) (s : State) : Option State :=
  s.items[u]?.map fun item => { s.beforeCsPush with items := item :: s.items }

/-- {lit}`cs-roll` -/
def csRoll (u : Nat) (s : State) : Option State :=
  s.items[u]?.map fun item => { s with items := item :: s.items.eraseIdx u }

/-- {lit}`>mark` -/
def mark (s : State) : State :=
  s.csPushOrig.comma .zero

/-- {lit}`>resolve` -/
def resolve (addr : Nat) (s : State) : State :=
  { s.basicBlockEnd with
    code := s.basicBlockEnd.code.set addr (.target s.basicBlockEnd.here)
    resolved := (addr, s.basicBlockEnd.here) :: s.resolved }

/-- {lit}`<resolve` -/
def resolveBack (addr : Nat) (s : State) : State :=
  s.comma (.target addr)

/-- {lit}`unreachable` -/
def unreachable (s : State) : State :=
  { s with deadCode := true }

/-! ## Hooks -/

/-- {lit}`then-like`: {lit}`cs>addr`, or {lit}`(then-like)`, which compiles nothing else where there are
no locals -/
def thenLike (c : Settings) (orig : CsItem) (s : State) : State :=
  let s := (s.resolve orig.addr).afterCsPop
  if c.glocals then
    if orig.type ≠ .deadOrig ∧ s.deadCode then { s with localsList := orig.localsList, deadCode := false }
    else s
  else s

/-- {lit}`begin-like`: {lit}`lits,`, or {lit}`(begin-like)` -/
def beginLike (c : Settings) (s : State) : State :=
  if c.glocals then { s.litsComma with deadCode := false } else s.litsComma

/-- {lit}`again-like`: {lit}`nip`, or {lit}`(again-like)` -/
def againLike (c : Settings) (s : State) : State :=
  if c.glocals then s.unreachable else s

/-! ## Conditionals and loops -/

/-- {lit}`orig?` -/
def isOrig (type : ItemType) : Bool :=
  type = .liveOrig ∨ type = .deadOrig

/-- {lit}`ahead` -/
def ahead (s : State) : State :=
  (s.compileComma .branch).mark.unreachable

/-- {lit}`if` -/
def if' (s : State) : State :=
  (s.compileComma .qBranch).mark

/-- {lit}`then` -/
def then' (c : Settings) (s : State) : Option State :=
  match s.items with
  | [] => none
  | orig :: items => if isOrig orig.type then some (thenLike c orig { s with items := items }) else none

/-- {lit}`else` -/
def else' (c : Settings) (s : State) : Option State :=
  (s.ahead.csRoll 1).bind (then' c)

/-- {lit}`begin` -/
def begin' (c : Settings) (s : State) : State :=
  ((s.beginLike c).csPushPart .dest).basicBlockEnd

/-- {lit}`again` -/
def again (c : Settings) (s : State) : Option State :=
  match s.items with
  | [] => none
  | dest :: items =>
      if dest.type = .dest then
        some (((({ s with items := items }.againLike c).compileComma .branch).resolveBack
          dest.addr).afterCsPop)
      else none

/-- {lit}`until-like`, where no locals are to be dropped -/
def untilLike (x : Xt) (dest : CsItem) (s : State) : State :=
  ((s.compileComma x).resolveBack dest.addr).afterCsPop

/-- {lit}`until` -/
def until' (s : State) : Option State :=
  match s.items with
  | [] => none
  | dest :: items =>
      if dest.type = .dest then some ({ s with items := items }.untilLike .qBranch dest) else none

/-- {lit}`while` -/
def while' (s : State) : Option State :=
  s.if'.csRoll 1

/-- {lit}`repeat` -/
def repeat' (c : Settings) (s : State) : Option State :=
  (s.again c).bind (then' c)

/-! ## Counted loops -/

/-- {lit}`>leave` -/
def toLeave (s : State) : Option State :=
  match s.items with
  | [] => none
  | orig :: items => some { s.afterCsPop with items := items, leaveStack := orig :: s.leaveStack }

/-- The loop of {lit}`done`, with the items on the leave stack -/
def doneLoop (c : Settings) (addr : Nat) : List CsItem → State → Option State
  | [], s => some { s with leaveStack := [] }
  | orig :: leaveStack, s =>
      -- {lit}`leave>`
      let s := { s.beforeCsPush with items := orig :: s.items, leaveStack := leaveStack }
      if addr ≤ orig.addr then (s.then' c).bind (doneLoop c addr leaveStack) else s.toLeave

/-- {lit}`done` -/
def done (c : Settings) (s : State) : Option State :=
  match s.items with
  | [] => none
  | doSys :: items =>
      (doneLoop c doSys.addr s.leaveStack { s with items := items }).map afterCsPop

/-- {lit}`leave` -/
def leave (s : State) : Option State :=
  let s := s.ahead
  { s with code := s.code.set (s.here - 1) .unresolvedLeave }.toLeave

/-- {lit}`?leave` -/
def qLeave (c : Settings) (s : State) : Option State :=
  (s.foldComma c .zeroEquals [.xt .zeroEquals]).if'.toLeave

/-- {lit}`begin drop do-dest` -/
def beginDo (c : Settings) (s : State) : State :=
  match (s.begin' c).items with
  | [] => s.begin' c
  | dest :: items => { s.begin' c with items := { dest with type := .doDest } :: items }

/-- {lit}`?do-like` -/
def qDoLike (c : Settings) (s : State) : Option State :=
  s.mark.toLeave.map (beginDo c)

/-- The words that start a counted loop -/
def enter (c : Settings) (entry : Entry) (s : State) : Option State :=
  match entry with
  | .do => some ((s.compileComma (.enter .do)).beginDo c)
  | .for => some ((s.compileComma (.enter .for)).beginDo c)
  | .qDo => (s.compileComma (.enter .qDo)).qDoLike c
  | .plusDo => (s.compileComma (.enter .plusDo)).qDoLike c
  | .uPlusDo => (s.compileComma (.enter .uPlusDo)).qDoLike c
  | .minusDo => (s.compileComma (.enter .minusDo)).qDoLike c
  | .uMinusDo => (s.compileComma (.enter .uMinusDo)).qDoLike c

/-- {lit}`swap cell- swap` -/
def cellMinus (s : State) : Option State :=
  match s.items with
  | [] => none
  | item :: items => some { s with items := { item with addr := item.addr - 1 } :: items }

/-- {lit}`do-dest?` and {lit}`until-like` -/
def untilDo (x : Xt) (s : State) : Option State :=
  match s.items with
  | [] => none
  | doSys :: items =>
      if doSys.type = .doDest then some ({ s with items := items }.untilLike x doSys) else none

/-- {lit}`loop-like` -/
def loopLike (c : Settings) (x : Xt) (s : State) : Option State := do
  let s ← s.csPick 0
  let s ← s.cellMinus
  let s ← s.csRoll 1
  let s ← s.untilDo x
  let s ← s.done c
  some (s.compileComma .unloop)

/-- The words that end a counted loop -/
def exit (c : Settings) (ending : Exit) (s : State) : Option State :=
  s.loopLike c (.exit ending)

end State

/-! ## Source code -/

/-- The words of the source code -/
inductive Token where
  | literal (n : Nat) | word (n : Nat)
  | ahead | «if» | «then» | «else»
  | «begin» | again | «until» | «while» | «repeat»
  | enter (entry : Entry) | exit (ending : Exit)
  | leave | qLeave | done
  | csPick (u : Nat) | csRoll (u : Nat)
deriving DecidableEq

/-- Compile a word. -/
def Token.compile (c : Settings) : Token → State → Option State
  | .literal n, s => some (s.literal n)
  | .word n, s => some (s.foldComma c (.word n) (c.cells n))
  | .ahead, s => some s.ahead
  | .if, s => some s.if'
  | .then, s => s.then' c
  | .else, s => s.else' c
  | .begin, s => some (s.begin' c)
  | .again, s => s.again c
  | .until, s => s.until'
  | .while, s => s.while'
  | .repeat, s => s.repeat' c
  | .enter entry, s => s.enter c entry
  | .exit ending, s => s.exit c ending
  | .leave, s => s.leave
  | .qLeave, s => s.qLeave c
  | .done, s => s.done c
  | .csPick u, s => s.csPick u
  | .csRoll u, s => s.csRoll u

/-- Compile the words one after the other. -/
def compileAll (c : Settings) : List Token → State → Option State
  | [], s => some s
  | t :: ts, s => (t.compile c s).bind (compileAll c ts)

/-- The arrangements of loops and other control structures -/
inductive Source where
  | skip
  | literal (n : Nat)
  | word (n : Nat)
  | seq (p q : Source)
  | ifThen (p : Source)
  | ifElse (p q : Source)
  | beginAgain (p : Source)
  | beginUntil (p : Source)
  | beginWhile (p q : Source)
  | counted (entry : Entry) (p : Source) (ending : Exit)
  | leave
  | qLeave

namespace Source

/-- The words of an arrangement -/
def tokens : Source → List Token
  | skip => []
  | literal n => [.literal n]
  | word n => [.word n]
  | seq p q => p.tokens ++ q.tokens
  | ifThen p => .if :: p.tokens ++ [.then]
  | ifElse p q => .if :: p.tokens ++ .else :: q.tokens ++ [.then]
  | beginAgain p => .begin :: p.tokens ++ [.again]
  | beginUntil p => .begin :: p.tokens ++ [.until]
  | beginWhile p q => .begin :: p.tokens ++ .while :: q.tokens ++ [.repeat]
  | counted entry p ending => .enter entry :: p.tokens ++ [.exit ending]
  | leave => [.leave]
  | qLeave => [.qLeave]

/-- Every {lit}`leave` is in a counted loop. -/
def closed : Source → Bool
  | skip | literal _ | word _ | counted _ _ _ => true
  | seq p q | ifElse p q | beginWhile p q => p.closed && q.closed
  | ifThen p | beginAgain p | beginUntil p => p.closed
  | leave | qLeave => false

end Source

end Control
end Gforth
