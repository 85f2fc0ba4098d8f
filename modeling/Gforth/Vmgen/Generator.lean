import Mathlib.Data.List.Range
import Mathlib.Logic.Function.Basic

/-!
# The generator for simple primitives

{lit}`prims2x.fs` turns the stack effect of a primitive into C statements around the C code of the
primitive.  The items of a stack are in registers as far as the cache state says, and in memory
behind that.  This module embeds the generator for one primitive between two cache states; a
statement of the generated C code is an element of a small type, and the order of the statements is
that of {lit}`output-c`.

Stack 0 is the instruction stream.  The two conversions for an item of two cells are two assignments.
-/

namespace Gforth
namespace Vmgen

/-! ## Stacks and states -/

/-- The settings of a virtual machine; stacks are given by their numbers. -/
structure Vm where
  nextStackNumber : Nat
  /-- {lit}`stack-access-transform` -/
  stackAccessTransform : Nat → Int → Int
  /-- Stacks grow towards lower or towards higher addresses, with some place for the top. -/
  transform_add : ∀ k a b, stackAccessTransform k (a + b) =
    stackAccessTransform k a + stackAccessTransform k b - stackAccessTransform k 0
  transform_injective : ∀ k, Function.Injective (stackAccessTransform k)
  transform_instStream : ∀ n, stackAccessTransform 0 n = n
  storeOptimization : Bool

/-- {lit}`inst-stream` -/
def instStream : Nat := 0

/-- A register, by its number -/
abbrev Reg := Nat

/-- {lit}`ss%` -/
structure StackState where
  /-- {lit}`ss-registers`; the first one is for the top of stack -/
  registers : List Reg
  /-- {lit}`ss-offset` -/
  offset : Int

/-- {lit}`state%`, the states of all stacks -/
abbrev State := Nat → StackState

/-! ## Primitives -/

/-- {lit}`type-size`, and how an item is fetched and stored -/
inductive ItemType
  | single
  | double
deriving DecidableEq, Repr

/-- {lit}`type-size` -/
def ItemType.size : ItemType → Nat
  | single => 1
  | double => 2

/-- An item of a stack effect, after its prefixes have been read -/
structure Decl where
  name : String
  stack : Nat
  type : ItemType
deriving DecidableEq, Repr

/-- {lit}`item%` -/
structure Item extends Decl where
  offset : Nat
deriving DecidableEq, Repr

/-- {lit}`compute-offset` for the items of one side, from the numbers of items so far: the numbers of
items in the end and the items with their offsets -/
def computeOffsets : (Nat → Nat) → List Decl → (Nat → Nat) × List Item
  | counts, [] => (counts, [])
  | counts, d :: ds =>
      let rest := computeOffsets
        (Function.update counts d.stack (counts d.stack + d.type.size)) ds
      (rest.1, { d with offset := counts d.stack } :: rest.2)

/-- {lit}`prim%`, as far as its stack effect goes -/
structure Prim where
  /-- The items of {lit}`prim-effect-in` -/
  declsIn : List Decl
  /-- The items of {lit}`prim-effect-out` -/
  declsOut : List Decl
  /-- {lit}`prim-stacks-sync` -/
  stacksSync : Nat → Bool
  /-- {lit}`prim-superend` -/
  superend : Bool

namespace Prim

/-- {lit}`prim-stacks-in` -/
def stacksIn (p : Prim) : Nat → Nat :=
  (computeOffsets (fun _ => 0) p.declsIn).1

/-- {lit}`prim-stacks-out` -/
def stacksOut (p : Prim) : Nat → Nat :=
  (computeOffsets (fun _ => 0) p.declsOut).1

/-- {lit}`prim-effect-in` -/
def effectIn (p : Prim) : List Item :=
  (computeOffsets (fun _ => 0) p.declsIn).2

/-- {lit}`prim-effect-out` -/
def effectOut (p : Prim) : List Item :=
  (computeOffsets (fun _ => 0) p.declsOut).2

/-- The first item of a name: what {lit}`prim-items-wordlist` has for it -/
def firstItem (p : Prim) (name : String) : Option Item :=
  (p.effectIn ++ p.effectOut).find? fun item => item.name = name

end Prim

/-! ## Generated statements -/

/-- What a statement reads or writes -/
inductive Place
  | reg (r : Reg)
  /-- {lit}`sp[index]` for the pointer of a stack -/
  | cell (stack : Nat) (index : Int)
  /-- A variable for an item; those of two cells have two parts. -/
  | var (name : String) (part : Nat)
  /-- {lit}`_sp0` and so on -/
  | temp (stack : Nat) (n : Int)
deriving DecidableEq, Repr

/-- A generated statement -/
inductive Stmt
  | assign (target source : Place)
  /-- {lit}`sp += n` -/
  | update (stack : Nat) (n : Int)
  /-- The C code of a primitive -/
  | code
deriving DecidableEq, Repr

/-- {lit}`limit start +do … loop` -/
def plusDo (limit start : Int) : List Int :=
  (List.range (limit - start).toNat).map fun i : Nat => start + (i : Int)

/-- {lit}`limit start -do … 1 -loop` -/
def minusDo (limit start : Int) : List Int :=
  (List.range (start - limit).toNat).map fun i : Nat => start - (i : Int)

/-- What the generator is working on -/
structure Context where
  vm : Vm
  prim : Prim
  stateIn : State
  stateOut : State
  /-- {lit}`ip-offset1`, the length of the instruction -/
  ipOffset1 : Int
  /-- {lit}`ip-offset` -/
  ipOffset : Int

/-- {lit}`map-stacks1` -/
def Vm.mapStacks1 (vm : Vm) (f : Nat → List Stmt) : List Stmt :=
  ((List.range vm.nextStackNumber).filter (1 ≤ ·)).flatMap f

/-- {lit}`stack-state-items` -/
def stackStateItems (k : Nat) (st : State) : Nat :=
  (st k).registers.length

/-- {lit}`stack-reg`; negative indices are not in registers. -/
def stackReg (n : Int) (k : Nat) (st : State) : Option Reg :=
  if 0 ≤ n then (st k).registers[n.toNat]? else none

/-- {lit}`normal-stack-access1`; the top of the instruction stream is read through {lit}`IPTOS`,
which is the cell at {lit}`ip`. -/
def Vm.normalStackAccess (vm : Vm) (n : Int) (k : Nat) (st : State) : Place :=
  if k = instStream then .cell k n
  else
    match stackReg n k st with
    | some r => .reg r
    | none => .cell k (vm.stackAccessTransform k (n - (st k).offset))

/-- {lit}`reg-reg-move` -/
def regRegMove (source target : Option Reg) : List Stmt :=
  match source, target with
  | some r, some r' => if r = r' then [] else [.assign (.reg r') (.reg r)]
  | _, _ => []

/-- {lit}`stack-bottom-reg` -/
def stackBottomReg (n : Int) (k : Nat) (st : State) : Option Reg :=
  stackReg (stackStateItems k st - n - 1) k st

namespace Context

variable (c : Context)

/-- {lit}`item-in-index`; the operands of an instruction are in front of the next one. -/
def itemInIndex (item : Item) : Int :=
  if item.stack = instStream then
    item.offset + item.type.size - c.ipOffset1 + c.ipOffset
  else c.prim.stacksIn item.stack - item.offset - 1

/-- {lit}`item-out-index` -/
def itemOutIndex (item : Item) : Int :=
  c.prim.stacksOut item.stack - item.offset - 1

/-! ## Fetches -/

/-- {lit}`fetch-single` and {lit}`fetch-double`, with {lit}`stack-read` -/
def fetch (stackRead : Int → Nat → Place) (item : Item) : List Stmt :=
  match item.type with
  | .single => [.assign (.var item.name 0) (stackRead (c.itemInIndex item) item.stack)]
  | .double =>
      [.assign (.var item.name 0) (stackRead (c.itemInIndex item) item.stack),
       .assign (.var item.name 1) (stackRead (c.itemInIndex item - 1) item.stack)]

/-- {lit}`fetches` -/
def fetches (stackRead : Int → Nat → Place) : List Stmt :=
  c.prim.effectIn.flatMap (c.fetch stackRead)

/-! ## Stores -/

/-- {lit}`same-as-in?` -/
def sameAsIn (item : Item) : Bool :=
  if c.prim.stacksSync item.stack then false
  else
    match c.prim.firstItem item.name with
    | none => false
    | some first =>
        -- an item that appears first in the output is itself not there on input
        if first ∈ c.prim.effectIn then first.stack = item.stack ∧ first.offset = item.offset
        else false

/-- {lit}`really-store-single` -/
def reallyStoreSingle (stackWrite : Int → Nat → Place) (item : Item) : List Stmt :=
  [.assign (stackWrite (c.itemOutIndex item) item.stack) (.var item.name 0)]

/-- {lit}`store-single` and {lit}`store-double`, with {lit}`stack-write` -/
def store (inPart : Bool) (stackWrite : Int → Nat → Place) (item : Item) : List Stmt :=
  match item.type with
  | .single =>
      if c.vm.storeOptimization && !inPart && c.sameAsIn item &&
          stackReg (c.itemInIndex item) item.stack c.stateIn =
            stackReg (c.itemOutIndex item) item.stack c.stateOut then []
      else c.reallyStoreSingle stackWrite item
  | .double =>
      [.assign (stackWrite (c.itemOutIndex item) item.stack) (.var item.name 0),
       .assign (stackWrite (c.itemOutIndex item - 1) item.stack) (.var item.name 1)]

/-- {lit}`stores` -/
def stores (inPart : Bool) (stackWrite : Int → Nat → Place) : List Stmt :=
  c.prim.effectOut.flatMap (c.store inPart stackWrite)

/-! ## Spills and fills -/

/-- {lit}`unused-stack-items` -/
def unusedStackItems (k : Nat) : Nat × Nat :=
  (stackStateItems k c.stateIn - c.prim.stacksIn k,
   stackStateItems k c.stateOut - c.prim.stacksOut k)

/-- {lit}`spill-stack-items`, which is negative if there is something to spill -/
def spillStackItems (k : Nat) : Int :=
  (if c.prim.stacksSync k then 0 else ((c.unusedStackItems k).2 : Int)) - (c.unusedStackItems k).1

/-- {lit}`spill-stack` -/
def spillStack (k : Nat) : List Stmt :=
  let items : Int := stackStateItems k c.stateIn
  (plusDo items (items + c.spillStackItems k)).map fun i =>
    .assign (.cell k (c.vm.stackAccessTransform k (i - (c.stateIn k).offset)))
      (c.vm.normalStackAccess i k c.stateIn)

/-- {lit}`spill-state` -/
def spillState : List Stmt :=
  c.vm.mapStacks1 c.spillStack

/-- {lit}`fill-stack-items`, which is negative if there is something to fill -/
def fillStackItems (k : Nat) : Int :=
  (if c.prim.stacksSync k then 0 else ((c.unusedStackItems k).1 : Int)) - (c.unusedStackItems k).2

/-- {lit}`fill-stack` -/
def fillStack (k : Nat) : List Stmt :=
  let items : Int := stackStateItems k c.stateOut
  (plusDo items (items + c.fillStackItems k)).map fun i =>
    .assign (c.vm.normalStackAccess i k c.stateOut)
      (.cell k (c.vm.stackAccessTransform k (i - (c.stateOut k).offset)))

/-- {lit}`fill-state` -/
def fillState : List Stmt :=
  c.vm.mapStacks1 c.fillStack

/-! ## Stack pointers and moves -/

/-- {lit}`stack-moves` -/
def stackMoves (k : Nat) : List Stmt :=
  let nIn : Int := (c.unusedStackItems k).1
  let nOut : Int := (c.unusedStackItems k).2
  if nIn < nOut then
    let diff := nOut - nIn
    (minusDo (-1) (nIn - 1)).flatMap fun i =>
      regRegMove (stackBottomReg i k c.stateIn) (stackBottomReg (i + diff) k c.stateOut)
  else
    let diff := nIn - nOut
    (plusDo nOut 0).flatMap fun i =>
      regRegMove (stackBottomReg (i + diff) k c.stateIn) (stackBottomReg i k c.stateOut)

/-- {lit}`stack-update-transform` -/
def stackUpdateTransform (n : Int) (k : Nat) : Int :=
  c.vm.stackAccessTransform k n - c.vm.stackAccessTransform k 0

/-- {lit}`update-stack-pointer` -/
def updateStackPointer (k : Nat) (n : Int) : List Stmt :=
  let n1 := if k = instStream then n + 1 else n
  if n1 = 0 then []
  else if k = instStream then [.update k n1]
  else [.update k (c.stackUpdateTransform n1 k)]

/-- {lit}`stack-pointer-update`; the instruction stream is not cached. -/
def stackPointerUpdate (k : Nat) : List Stmt :=
  if c.prim.stacksSync k then
    c.updateStackPointer k (c.prim.stacksIn k - (c.stateIn k).offset)
  else
    c.updateStackPointer k
        (c.prim.stacksIn k - c.prim.stacksOut k - (c.stateIn k).offset + (c.stateOut k).offset) ++
      c.stackMoves k

/-- {lit}`ip-update-middle` -/
def ipUpdateMiddle : List Stmt :=
  if c.prim.superend ∧ c.ipOffset ≠ 0 then [.update instStream c.ipOffset] else []

/-- {lit}`stack-pointer-updates` -/
def stackPointerUpdates : List Stmt :=
  c.ipUpdateMiddle ++ c.vm.mapStacks1 c.stackPointerUpdate

/-- {lit}`stack-pointer-update2` -/
def stackPointerUpdate2 (k : Nat) : List Stmt :=
  if c.prim.stacksSync k then
    c.updateStackPointer k ((c.stateOut k).offset - c.prim.stacksOut k)
  else []

/-- {lit}`stack-pointer-updates2` -/
def stackPointerUpdates2 : List Stmt :=
  c.vm.mapStacks1 c.stackPointerUpdate2

/-! ## The primitive -/

/-- {lit}`stack-read` outside of parts -/
def stackRead (n : Int) (k : Nat) : Place :=
  c.vm.normalStackAccess n k c.stateIn

/-- {lit}`stack-write` outside of parts -/
def stackWrite (n : Int) (k : Nat) : Place :=
  c.vm.normalStackAccess n k c.stateOut

/-- {lit}`ip-update-early`, in front of the first label -/
def ipUpdateEarly : List Stmt :=
  c.updateStackPointer instStream (c.prim.stacksIn instStream)

/-- {lit}`output-c` behind the first label, where code that is copied starts, up to the second one.
This is for primitives without {lit}`VM_JUMP`, whose tail is another one.  The copies of the tail for
each {lit}`INST_TAIL` in the C code, the registers that {lit}`kill-regs` names as dead, and the code
for debugging are left out. -/
def outputLabel1 : List Stmt :=
  c.spillState ++ c.fetches c.stackRead ++ c.stackPointerUpdates ++ [.code] ++
    c.stackPointerUpdates2 ++ c.stores false c.stackWrite ++ c.fillState

/-- {lit}`output-c` -/
def outputC : List Stmt :=
  c.ipUpdateEarly ++ c.outputLabel1

end Context

end Vmgen
end Gforth
