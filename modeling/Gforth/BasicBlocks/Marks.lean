import Gforth.Control.Structures
import Gforth.Lib.Bytes

/-!
# Marking instructions and branch targets

The compiling words write cells at {lit}`here`.  {lit}`peephole-compile,` marks its cell in
{lit}`primbits`, {lit}`>resolve` and {lit}`<resolve` mark the destination of their branch in
{lit}`targets`; both strings of bits count cells from {lit}`codestart`.  Literals wait until
something else is compiled.

Addresses count bytes.  The state also records the cells that {lit}`peephole-compile,` has
written and the destinations that {lit}`>resolve` and {lit}`<resolve` have stored.
-/

namespace Gforth
namespace BasicBlocks

open Lib
open Control (CsItem ItemType Entry Exit)
open Control.State (isOrig)

/-- A cell; addresses are cells. -/
abbrev Cell := BitVec 64

/-! ## Strings of bits -/

/-- {lit}`$room` -/
def room (u : Nat) (bits : List Byte) : List Byte :=
  bits ++ List.replicate (u - bits.length) 0#8

/-- The string after {lit}`$bit` -/
def bit (u : Nat) (bits : List Byte) : List Byte :=
  room ((u + 8) / 8) bits

/-- {lit}`$+bit` -/
def plusBit (u : Nat) (bits : List Byte) : List Byte :=
  setBit u (bit u bits)

/-- {lit}`$bit` sets no bit. -/
theorem bitAt_bit (u : Nat) (bits : List Byte) (v : Nat) : bitAt (bit u bits) v = bitAt bits v := by
  unfold bitAt bit room
  by_cases hv : v / 8 < bits.length
  · simp [List.getElem?_append_left hv, List.getD_eq_getElem?_getD]
  · rw [List.getD_eq_getElem?_getD, List.getD_eq_getElem?_getD,
      List.getElem?_append_right (by omega), List.getElem?_eq_none (l := bits) (by omega),
      List.getElem?_replicate]
    split <;> rfl

theorem lt_length_bit (u : Nat) (bits : List Byte) : u / 8 < (bit u bits).length := by
  simp only [bit, room, List.length_append, List.length_replicate]
  omega

/-- {lit}`$+bit` sets one bit. -/
theorem bitAt_plusBit (u : Nat) (bits : List Byte) (v : Nat) :
    bitAt (plusBit u bits) v = true ↔ v = u ∨ bitAt bits v = true := by
  have hlen := lt_length_bit u bits
  rw [plusBit, bitAt_setBit (by omega), bitAt_bit]
  simp

theorem bitAt_nil (v : Nat) : bitAt [] v = false := by
  simp [bitAt]

/-! ## State -/

/-- The xts that the control-flow words compile, the body of {lit}`unresolved-leave`, and what
{lit}`compile,` does with the pending literals instead of compiling a word.  {lit}`glocals` says
whether the hooks for locals are there. -/
structure Settings where
  lit : Cell
  branch : Cell
  qBranch : Cell
  qDupQBranch : Cell
  qDupZeroQBranch : Cell
  zeroEquals : Cell
  unloop : Cell
  semicolonS : Cell
  enter : Entry → Cell
  exit : Exit → Cell
  unresolvedLeave : Cell
  fold : Cell → List Cell → Option (List Cell)
  glocals : Bool

/-- The state of the compiler -/
structure State where
  mem : Nat → Cell
  here : Nat
  codestart : Nat
  primbits : List Byte
  targets : List Byte
  litstack : List Cell
  items : List CsItem
  leaveStack : List CsItem
  csDepth1 : Int
  deadCode : Bool
  localsList : Nat
  compiled : List (Nat × Cell)
  dests : List Nat

namespace State

/-! ## Cells -/

/-- {lit}`!` -/
def store (addr : Nat) (x : Cell) (s : State) : State :=
  { s with mem := Function.update s.mem addr x }

/-- {lit}`,` -/
def comma (x : Cell) (s : State) : State :=
  { s.store s.here x with here := s.here + 8 }

/-- Several cells in a row -/
def commas (xs : List Cell) (s : State) : State :=
  xs.foldl (fun t x => t.comma x) s

/-- {lit}`+target` -/
def plusTarget (addr : Nat) (s : State) : State :=
  if s.codestart ≤ addr ∧ addr < s.here + 8 then
    { s with targets := plusBit ((addr - s.codestart) / 8) s.targets }
  else s

/-- {lit}`peephole-compile,` where no literal is pending -/
def instruction (xt : Cell) (s : State) : State :=
  { s.comma xt with
    primbits := plusBit ((s.here - s.codestart) / 8) s.primbits
    compiled := (s.here, xt) :: s.compiled }

/-- {lit}`lits,`; the literals are taken off before {lit}`lit` is compiled. -/
def litsComma (c : Settings) (s : State) : State :=
  s.litstack.foldl (fun t x => (t.instruction c.lit).comma x) { s with litstack := [] }

/-- {lit}`basic-block-end` -/
def basicBlockEnd (c : Settings) (s : State) : State :=
  s.litsComma c

/-- {lit}`peephole-compile,` -/
def peepholeCompile (c : Settings) (xt : Cell) (s : State) : State :=
  (s.litsComma c).instruction xt

/-- {lit}`literal` -/
def literal (x : Cell) (s : State) : State :=
  { s with litstack := s.litstack ++ [x] }

/-- {lit}`compile,` for a word that may be folded; its operands follow. -/
def compileComma (c : Settings) (xt : Cell) (operands : List Cell) (s : State) : State :=
  match c.fold xt s.litstack with
  | some lits => { s with litstack := lits }
  | none => (s.peepholeCompile c xt).commas operands

/-! ## The control-flow stack -/

/-- {lit}`before-cs-push` -/
def beforeCsPush (s : State) : State :=
  { s with csDepth1 := s.csDepth1 + 1 }

/-- {lit}`after-cs-pop` -/
def afterCsPop (s : State) : State :=
  { s with csDepth1 := s.csDepth1 - 1 }

/-- {lit}`cs-push-part`, with the type on top -/
def csPushPart (type : ItemType) (s : State) : State :=
  { s.beforeCsPush with items := ⟨0, s.localsList, s.here, type⟩ :: s.items }

/-- {lit}`cs-push-orig` -/
def csPushOrig (s : State) : State :=
  s.csPushPart (if s.deadCode then .deadOrig else .liveOrig)

/-- {lit}`cs-pick` -/
def csPick (u : Nat) (s : State) : Option State :=
  s.items[u]?.map fun item => { s.beforeCsPush with items := item :: s.items }

/-- {lit}`cs-roll` -/
def csRoll (u : Nat) (s : State) : Option State :=
  s.items[u]?.map fun item => { s with items := item :: s.items.eraseIdx u }

/-- {lit}`cs-drop` -/
def csDrop (s : State) : Option State :=
  match s.items with
  | [] => none
  | _ :: items => some { s.afterCsPop with items := items }

/-- {lit}`>mark` -/
def mark (s : State) : State :=
  s.csPushOrig.comma 0

/-- {lit}`>resolve` -/
def resolve (c : Settings) (addr : Nat) (s : State) : State :=
  let s := s.basicBlockEnd c
  { (s.plusTarget s.here).store addr (BitVec.ofNat 64 s.here) with dests := s.here :: s.dests }

/-- {lit}`<resolve` -/
def resolveBack (addr : Nat) (s : State) : State :=
  { (s.plusTarget addr).comma (BitVec.ofNat 64 addr) with dests := addr :: s.dests }

/-- {lit}`unreachable` -/
def unreachable (s : State) : State :=
  { s with deadCode := true }

/-! ## Hooks -/

/-- {lit}`then-like`: {lit}`cs>addr`, or {lit}`(then-like)`, which compiles nothing else where there
are no locals -/
def thenLike (c : Settings) (orig : CsItem) (s : State) : State :=
  let s := (s.resolve c orig.addr).afterCsPop
  if c.glocals then
    if orig.type ≠ .deadOrig ∧ s.deadCode then { s with localsList := orig.localsList, deadCode := false }
    else s
  else s

/-- {lit}`begin-like`: {lit}`lits,`, or {lit}`(begin-like)` -/
def beginLike (c : Settings) (s : State) : State :=
  if c.glocals then { s.litsComma c with deadCode := false } else s.litsComma c

/-- {lit}`again-like`: {lit}`nip`, or {lit}`(again-like)` -/
def againLike (c : Settings) (s : State) : State :=
  if c.glocals then s.unreachable else s

/-! ## Conditionals and loops -/

/-- {lit}`ahead` -/
def ahead (c : Settings) (s : State) : State :=
  (s.peepholeCompile c c.branch).mark.unreachable

/-- {lit}`if`, {lit}`?dup-if` and {lit}`?dup-0=-if`, with the branch that they compile -/
def ifLike (c : Settings) (xt : Cell) (s : State) : State :=
  (s.peepholeCompile c xt).mark

/-- {lit}`then` -/
def then' (c : Settings) (s : State) : Option State :=
  match s.items with
  | [] => none
  | orig :: items => if isOrig orig.type then some (thenLike c orig { s with items := items }) else none

/-- {lit}`else` -/
def else' (c : Settings) (s : State) : Option State :=
  ((s.ahead c).csRoll 1).bind (then' c)

/-- {lit}`begin` -/
def begin' (c : Settings) (s : State) : State :=
  ((s.beginLike c).csPushPart .dest).basicBlockEnd c

/-- {lit}`until-like`, where no locals are to be dropped -/
def untilLike (c : Settings) (xt : Cell) (dest : CsItem) (s : State) : State :=
  ((s.peepholeCompile c xt).resolveBack dest.addr).afterCsPop

/-- {lit}`again` -/
def again (c : Settings) (s : State) : Option State :=
  match s.items with
  | [] => none
  | dest :: items =>
      if dest.type = .dest then some (({ s with items := items }.againLike c).untilLike c c.branch dest)
      else none

/-- {lit}`until` -/
def until' (c : Settings) (s : State) : Option State :=
  match s.items with
  | [] => none
  | dest :: items =>
      if dest.type = .dest then some ({ s with items := items }.untilLike c c.qBranch dest) else none

/-- {lit}`while` -/
def while' (c : Settings) (s : State) : Option State :=
  (s.ifLike c c.qBranch).csRoll 1

/-- {lit}`repeat` -/
def repeat' (c : Settings) (s : State) : Option State :=
  (s.again c).bind (then' c)

/-- {lit}`exit`, where there are no locals -/
def exit (c : Settings) (s : State) : State :=
  ((s.peepholeCompile c c.semicolonS).basicBlockEnd c).unreachable

/-! ## Counted loops -/

/-- {lit}`>leave` -/
def toLeave (s : State) : Option State :=
  match s.items with
  | [] => none
  | orig :: items => some { s.afterCsPop with items := items, leaveStack := orig :: s.leaveStack }

/-- The loop of {lit}`done`, with the items on the leave stack -/
def doneLoop (c : Settings) (addr : Nat) : List CsItem → State → Option State
  | [], s => some { s with leaveStack := [] }
  | orig :: leaveStack, s =>
      -- {lit}`leave>`
      let s := { s.beforeCsPush with items := orig :: s.items, leaveStack := leaveStack }
      if addr ≤ orig.addr then (s.then' c).bind (doneLoop c addr leaveStack) else s.toLeave

/-- {lit}`done` -/
def done (c : Settings) (s : State) : Option State :=
  match s.items with
  | [] => none
  | doSys :: items =>
      (doneLoop c doSys.addr s.leaveStack { s with items := items }).map afterCsPop

/-- {lit}`leave` -/
def leave (c : Settings) (s : State) : Option State :=
  let s := s.ahead c
  (s.store (s.here - 8) c.unresolvedLeave).toLeave

/-- {lit}`?leave` -/
def qLeave (c : Settings) (s : State) : Option State :=
  ((s.compileComma c c.zeroEquals []).ifLike c c.qBranch).toLeave

/-- {lit}`begin drop do-dest` -/
def beginDo (c : Settings) (s : State) : State :=
  match (s.begin' c).items with
  | [] => s.begin' c
  | dest :: items => { s.begin' c with items := { dest with type := .doDest } :: items }

/-- {lit}`?do-like` -/
def qDoLike (c : Settings) (s : State) : Option State :=
  s.mark.toLeave.map (beginDo c)

/-- The words that start a counted loop -/
def enter (c : Settings) (entry : Entry) (s : State) : Option State :=
  let s := s.peepholeCompile c (c.enter entry)
  match entry with
  | .do | .for => some (s.beginDo c)
  | .qDo | .plusDo | .uPlusDo | .minusDo | .uMinusDo => s.qDoLike c

/-- {lit}`swap cell- swap` -/
def cellMinus (s : State) : Option State :=
  match s.items with
  | [] => none
  | item :: items => some { s with items := { item with addr := item.addr - 8 } :: items }

/-- {lit}`do-dest?` and {lit}`until-like` -/
def untilDo (c : Settings) (xt : Cell) (s : State) : Option State :=
  match s.items with
  | [] => none
  | doSys :: items =>
      if doSys.type = .doDest then some ({ s with items := items }.untilLike c xt doSys) else none

/-- {lit}`loop-like` -/
def loopLike (c : Settings) (xt : Cell) (s : State) : Option State := do
  let s ← s.csPick 0
  let s ← s.cellMinus
  let s ← s.csRoll 1
  let s ← s.untilDo c xt
  let s ← s.done c
  some (s.peepholeCompile c c.unloop)

end State

/-! ## Source code -/

/-- The words of the source code; {lit}`word` is a primitive or a code word with the operands that
are compiled behind it. -/
inductive Token where
  | literal (x : Cell) | word (xt : Cell) (operands : List Cell)
  | ahead | «if» | qDupIf | qDupZeroIf | «then» | «else»
  | «begin» | again | «until» | «while» | «repeat» | «exit»
  | enter (entry : Entry) | loop (ending : Exit)
  | leave | qLeave | done
  | csPick (u : Nat) | csRoll (u : Nat) | csDrop
deriving DecidableEq

/-- Compile a word. -/
def Token.compile (c : Settings) : Token → State → Option State
  | .literal x, s => some (s.literal x)
  | .word xt operands, s => some (s.compileComma c xt operands)
  | .ahead, s => some (s.ahead c)
  | .if, s => some (s.ifLike c c.qBranch)
  | .qDupIf, s => some (s.ifLike c c.qDupQBranch)
  | .qDupZeroIf, s => some (s.ifLike c c.qDupZeroQBranch)
  | .then, s => s.then' c
  | .else, s => s.else' c
  | .begin, s => some (s.begin' c)
  | .again, s => s.again c
  | .until, s => s.until' c
  | .while, s => s.while' c
  | .repeat, s => s.repeat' c
  | .exit, s => some (s.exit c)
  | .enter entry, s => s.enter c entry
  | .loop ending, s => s.loopLike c (c.exit ending)
  | .leave, s => s.leave c
  | .qLeave, s => s.qLeave c
  | .done, s => s.done c
  | .csPick u, s => s.csPick u
  | .csRoll u, s => s.csRoll u
  | .csDrop, s => s.csDrop

/-- Compile the words one after the other. -/
def compileAll (c : Settings) : List Token → State → Option State
  | [], s => some s
  | t :: ts, s => (t.compile c s).bind (compileAll c ts)

end BasicBlocks
end Gforth
