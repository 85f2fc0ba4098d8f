import Gforth.Vmgen.Generator

/-!
# The generator for static superinstructions

A static superinstruction does what a sequence of primitives does, its parts.  {lit}`prims2x.fs`
computes how deep every part reaches into the stacks, seen from the start and from the end of the
sequence.  Items that are there at the start are read from the stacks, items that are there in the end
are written to the stacks, and everything between is in temporary variables.

The depths count items from the top of a stack at the start of the superinstruction; results that go
beyond it have negative depths.

The way out of the superinstruction that {lit}`output-combined-tail` writes for an {lit}`INST_TAIL`, in
the middle of a part, comes later, beside what {lit}`output-part` writes for the end of a part.
-/

namespace Gforth
namespace Vmgen

/-! ## Depths -/

/-- {lit}`current-depth`, {lit}`max-depth` and {lit}`min-depth` -/
structure Depths where
  current : Nat → Int
  max : Nat → Int
  min : Nat → Int

/-- {lit}`inst-stream-adjustment`: instructions that are skipped take a cell, too. -/
def instStreamAdjustment (includeSkippedInsts : Bool) (k : Nat) : Int :=
  if k = instStream ∧ includeSkippedInsts then 1 else 0

/-- {lit}`init-combined`; a true flag is -1. -/
def initCombined (includeSkippedInsts : Bool) : Depths where
  current k := if k = instStream ∧ includeSkippedInsts then -1 else 0
  max _ := 0
  min _ := 0

/-- {lit}`add-depths` -/
def Depths.addDepths (includeSkippedInsts : Bool) (d : Depths) (p : Prim) : Depths where
  current k :=
    d.current k + p.stacksIn k + instStreamAdjustment includeSkippedInsts k - p.stacksOut k
  max k := Max.max (d.max k) (d.current k + p.stacksIn k + instStreamAdjustment includeSkippedInsts k)
  min k := Min.min (d.min k)
    (d.current k + p.stacksIn k + instStreamAdjustment includeSkippedInsts k - p.stacksOut k)

/-- What the generator knows about a superinstruction -/
structure Combination where
  vm : Vm
  includeSkippedInsts : Bool
  /-- {lit}`stack-pointer`, the names of the stack pointers -/
  stackPointer : Nat → String
  /-- {lit}`combined-prims` -/
  combinedPrims : List Prim

namespace Combination

variable (c : Combination)

/-- The depths after some parts, from {lit}`add-prim` for each of them -/
def depthsAfter (ps : List Prim) : Depths :=
  ps.foldl (Depths.addDepths c.includeSkippedInsts) (initCombined c.includeSkippedInsts)

/-- The depths at the end -/
def depths : Depths :=
  c.depthsAfter c.combinedPrims

/-- {lit}`s-c-max-depth`, which {lit}`copy-maxdepths` fills -/
def sCMaxDepth (k component : Nat) : Int :=
  (c.depthsAfter (c.combinedPrims.take component)).max k

/-- One round of the loop in {lit}`compute-stack-max-back-depths` -/
def backStep (k : Nat) (p : Prim) (depth : Int × Int) : Int × Int :=
  let reached := depth.2 + p.stacksOut k
  (Max.max depth.1 reached,
    reached - p.stacksIn k - instStreamAdjustment c.includeSkippedInsts k)

/-- {lit}`s-c-max-back-depth`, which {lit}`compute-stack-max-back-depths` fills from the end -/
def sCMaxBackDepth (k component : Nat) : Int :=
  ((c.combinedPrims.drop component).foldr (c.backStep k) (c.depths.current k, c.depths.current k)).1

/-- {lit}`make-effect-items` -/
def makeEffectItems (k : Nat) (items : Int) : List Decl :=
  (List.range items.toNat).map fun i => ⟨"_" ++ c.stackPointer k ++ toString i, k, .single⟩

/-- {lit}`combined` after {lit}`compute-effects` and {lit}`init-effects` -/
def combined : Prim where
  declsIn := (List.range c.vm.nextStackNumber).flatMap fun k => c.makeEffectItems k (c.depths.max k)
  declsOut := (List.range c.vm.nextStackNumber).flatMap fun k =>
    c.makeEffectItems k (c.depths.max k - c.depths.current k)
  stacksSync _ := false
  superend := false

/-! ## Output -/

variable (stateIn stateOut : State) (ipOffset : Int)

/-- The context of the superinstruction -/
def context : Context where
  vm := c.vm
  prim := c.combined
  stateIn := stateIn
  stateOut := stateOut
  ipOffset1 := c.combined.stacksIn instStream + 1
  ipOffset := ipOffset

/-- The context of a part -/
def partContext (p : Prim) : Context :=
  { c.context stateIn stateOut ipOffset with prim := p }

/-- {lit}`part-stack-access` -/
def partStackAccess (currentDepth : Nat → Int) (n : Int) (k : Nat) : Place :=
  if k = instStream then .temp k (currentDepth k + n)
  else .temp k (c.combined.stacksIn k - (currentDepth k + n) - 1)

/-- {lit}`part-stack-read` -/
def partStackRead (partNum : Nat) (currentDepth : Nat → Int) (n : Int) (k : Nat) : Place :=
  if c.sCMaxDepth k partNum ≤ currentDepth k + n ∨ k = instStream then
    c.vm.normalStackAccess (currentDepth k + n) k stateIn
  else c.partStackAccess currentDepth n k

/-- {lit}`part-stack-write`, with {lit}`stack-diff` of the superinstruction -/
def partStackWrite (partNum : Nat) (currentDepth : Nat → Int) (n : Int) (k : Nat) : Place :=
  if c.sCMaxBackDepth k partNum ≤ currentDepth k + n then
    c.vm.normalStackAccess
      (currentDepth k + n - (c.combined.stacksIn k - c.combined.stacksOut k)) k stateOut
  else c.partStackAccess currentDepth n k

/-- Why {lit}`part-stack-pointer-updates` updates a stack pointer: the final depth is reached, and it
has just been reached or the part is the first one. -/
def updates (partNum k : Nat) : Bool :=
  c.sCMaxDepth k (partNum + 1) = c.sCMaxDepth k c.combinedPrims.length ∧
    (c.sCMaxDepth k (partNum + 1) ≠ c.sCMaxDepth k partNum ∨ partNum = 0)

/-- {lit}`part-stack-pointer-updates` -/
def partStackPointerUpdates (partNum : Nat) : List Stmt :=
  c.vm.mapStacks1 fun k =>
    if c.updates partNum k then (c.context stateIn stateOut ipOffset).stackPointerUpdate k else []

/-- {lit}`output-part`, up to the end of the C code; the stores come after {lit}`add-depths`. -/
def outputPart (partNum : Nat) (d : Depths) (p : Prim) : List Stmt :=
  (c.partContext stateIn stateOut ipOffset p).fetches (c.partStackRead stateIn partNum d.current) ++
    c.partStackPointerUpdates stateIn stateOut ipOffset partNum ++ [.code] ++
    (c.partContext stateIn stateOut ipOffset p).stores true
      (c.partStackWrite stateOut (partNum + 1) (d.addDepths c.includeSkippedInsts p).current)

/-- {lit}`map-combined` with {lit}`output-part`, from some part on -/
def outputPartsFrom : Nat → Depths → List Prim → List (List Stmt)
  | _, _, [] => []
  | partNum, d, p :: ps =>
      c.outputPart stateIn stateOut ipOffset partNum d p ::
        outputPartsFrom (partNum + 1) (d.addDepths c.includeSkippedInsts p) ps

/-- {lit}`output-parts`; only {lit}`current-depth` is erased. -/
def outputParts : List (List Stmt) :=
  c.outputPartsFrom stateIn stateOut ipOffset 0 { c.depths with current := fun _ => 0 }
    c.combinedPrims

/-- The statements in front of the parts in {lit}`output-c-combined`, behind the first label -/
def outputHead : List Stmt :=
  (c.context stateIn stateOut ipOffset).spillState

/-- The statements behind the parts in {lit}`output-c-combined`, from
{lit}`output-c-tail2-no-stores` -/
def outputTail : List Stmt :=
  (c.context stateIn stateOut ipOffset).fillState

/-- {lit}`print-declarations-combined`: the temporary variables of a stack -/
def declared (k : Nat) (n : Int) : Prop :=
  0 ≤ n ∧ n < c.depths.max k - c.depths.min k

end Combination

end Vmgen
end Gforth
