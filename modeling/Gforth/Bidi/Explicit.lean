import Mathlib.Logic.Function.Basic

/-!
# Explicit levels

The rules X1 to X8 of the bidirectional algorithm work on a buffer of classes.  The stack of
embeddings is an array that is indexed by level, {lit}`stack#` is the index of its top entry, and
unused slots are 0.

The rules are given with the data stack, because one of them leaves an item there.
-/

namespace Gforth
namespace Bidi

/-! ## Classes -/

/-- The bidirectional classes -/
inductive BidiClass where
  | L | R | AL | EN | ES | ET | AN | CS | NSM | BN | B | S | WS | ON
  | LRE | LRO | RLE | RLO | PDF | LRI | RLI | FSI | PDI
deriving DecidableEq, Repr

/-- The classes that begin an isolate -/
def BidiClass.IsIsolate (c : BidiClass) : Prop :=
  c = .LRI ∨ c = .RLI ∨ c = .FSI

/-- The strong classes -/
def BidiClass.IsStrong (c : BidiClass) : Prop :=
  c = .L ∨ c = .R ∨ c = .AL

instance (c : BidiClass) : Decidable c.IsIsolate :=
  inferInstanceAs (Decidable (_ ∨ _))

instance (c : BidiClass) : Decidable c.IsStrong :=
  inferInstanceAs (Decidable (_ ∨ _))

/-- The level that a strong class stands for -/
def BidiClass.direction (c : BidiClass) : Nat :=
  if c = .R ∨ c = .AL then 1 else 0

/-- The loop of {lit}`(p2)` -/
def p2Loop : Int → List BidiClass → Nat
  | _, [] => 0
  | depth, c :: cs =>
      if c = .B then 0
      else
        let depth := depth + (if c.IsIsolate then 1 else 0) - (if c = .PDI then 1 else 0)
        if depth < 0 then 0
        else if depth = 0 ∧ c.IsStrong then c.direction
        else p2Loop depth cs

/-- {lit}`(p2)` -/
def p2 (cs : List BidiClass) : Nat :=
  p2Loop 0 cs

/-! ## States -/

/-- {lit}`max-depth#` -/
def maxDepth : Nat := 125

/-- {lit}`dis` -/
def dis : Nat := 4

/-- {lit}`neutral` -/
def neutral : Nat := 1

/-- {lit}`rtl` -/
def rtl : Nat := 2

/-- {lit}`ltr` -/
def ltr : Nat := 3

/-- {lit}`iso-region-element` -/
structure Region where
  start : Nat
  stop : Nat
deriving DecidableEq, Repr

/-- The variables of the rules.  Positions are counted from the start of the buffer. -/
structure State where
  buffer : List BidiClass
  levels : List Nat
  currentChar : Nat
  stack : Nat → Nat
  stackNum : Nat
  overflowIsolate : Nat
  isolate : Nat
  overflowEmbedded : Nat
  isoStart : Nat
  isoStack : Nat → List Region
  isoList : List (List Region)
  data : List Nat

/-- {lit}`next-odd` -/
def nextOdd (n : Nat) : Nat :=
  (n + 1) ||| 1

/-- {lit}`next-even`; masking with -2 clears the lowest bit. -/
def nextEven (n : Nat) : Nat :=
  (n + 2) / 2 * 2

namespace State

/-- {lit}`stack-top c@` -/
def stackTop (b : State) : Nat :=
  b.stack b.stackNum

/-- {lit}`iso-start` -/
def startIso (b : State) : State :=
  { b with isoStart := b.currentChar }

/-- {lit}`iso-update` -/
def isoUpdate (b : State) : State :=
  if b.isoStart < b.currentChar then
    { b with
      isoStack := Function.update b.isoStack b.stackNum
        (b.isoStack b.stackNum ++ [⟨b.isoStart, b.currentChar⟩]) }
  else b

/-- {lit}`iso-stack>list` -/
def isoStackToList (n : Nat) (b : State) : State :=
  if b.isoStack n = [] then b
  else
    { b with
      isoStack := Function.update b.isoStack n []
      isoList := b.isoList ++ [b.isoStack n] }

/-- {lit}`iso-push` -/
def isoPush (b : State) : State :=
  isoStackToList b.stackNum b.isoUpdate

/-- {lit}`x1-rest` -/
def x1Rest (level : Nat) (b : State) : State :=
  { b with
    stackNum := level
    stack := Function.update (fun _ => 0) level neutral
    isolate := 0
    overflowIsolate := 0
    overflowEmbedded := 0 }

/-- {lit}`x1-start` -/
def x1Start (b : State) : State :=
  startIso { b with currentChar := 0 }

/-- {lit}`change-current-char` -/
def changeCurrentChar (b : State) : State :=
  if b.stackTop &&& 3 = ltr then { b with buffer := b.buffer.set b.currentChar .L }
  else if b.stackTop &&& 3 = rtl then { b with buffer := b.buffer.set b.currentChar .R }
  else b

/-- {lit}`>level` -/
def toLevel (n : Nat) (b : State) : State :=
  { b with levels := b.levels.set b.currentChar (n % 256) }

/-! ## Embeddings -/

/-- The condition of the overflow branches -/
def Overflows (n : Nat) (b : State) : Prop :=
  maxDepth < n ∨ b.overflowIsolate ≠ 0 ∨ b.overflowEmbedded ≠ 0

instance (n : Nat) (b : State) : Decidable (b.Overflows n) :=
  inferInstanceAs (Decidable (_ ∨ _))

/-- {lit}`overflow-isolate# @ 0= negate overflow-embedded# +!` -/
def countEmbedded (b : State) : State :=
  { b with overflowEmbedded := b.overflowEmbedded + if b.overflowIsolate = 0 then 1 else 0 }

/-- {lit}`stack# !`, and an entry in its slot -/
def push (n entry : Nat) (b : State) : State :=
  { b with stackNum := n, stack := Function.update b.stack n entry }

/-- The rules for embeddings and overrides -/
def embed (next : Nat → Nat) (entry : Nat) (b : State) : State :=
  if b.Overflows (next b.stackNum) then b.countEmbedded
  else (b.toLevel (next b.stackNum)).push (next b.stackNum) entry

/-- {lit}`x2` -/
def x2 : State → State :=
  embed nextOdd neutral

/-- {lit}`x3`, whose overflow branch leaves the level on the data stack -/
def x3 (b : State) : State :=
  let n := nextEven b.stackNum
  if b.Overflows n then { b.countEmbedded with data := n :: b.data }
  else (b.toLevel n).push n neutral

/-- {lit}`x4` -/
def x4 : State → State :=
  embed nextOdd rtl

/-- {lit}`x5` -/
def x5 : State → State :=
  embed nextEven ltr

/-! ## Isolates and other characters -/

/-- {lit}`x6` -/
def x6 (b : State) : State :=
  (b.toLevel b.stackNum).changeCurrentChar

/-- The rules for the beginnings of isolates -/
def initiate (next : Nat → Nat) (entry : Nat) (b : State) : State :=
  let b := b.x6
  if b.Overflows (next b.stackNum) then { b with overflowIsolate := b.overflowIsolate + 1 }
  else { b.push (next b.stackNum) (entry ||| dis) with isolate := b.isolate + 1 }

/-- {lit}`x5a` -/
def x5a : State → State :=
  initiate nextOdd rtl

/-- {lit}`x5b` -/
def x5b : State → State :=
  initiate nextEven ltr

/-- {lit}`x5c` -/
def x5c (b : State) : State :=
  let b := b.toLevel b.stackNum
  if p2 (b.buffer.drop (b.currentChar + 1)) ≠ 0 then b.x5a else b.x5b

/-! ## Ends -/

/-- The loop of {lit}`x6a`.  It is not followed where {lit}`stack#` gets negative, because there the
entry is in the memory in front of {lit}`stack`. -/
def closeLoop : Nat → (Nat → Nat) → Option (Nat × (Nat → Nat))
  | 0, stack => some (0, stack)
  | n + 1, stack =>
      let top := stack (n + 1)
      let stack := Function.update stack (n + 1) 0
      if stack n = 0 then
        match n with
        | 0 => none
        | n + 1 => if top &&& dis ≠ 0 then some (n, stack) else closeLoop n stack
      else if top &&& dis ≠ 0 then some (n, stack) else closeLoop n stack

/-- {lit}`x6a` -/
def x6a (b : State) : Option State :=
  let b := b.toLevel b.stackNum
  if b.overflowIsolate ≠ 0 then some { b with overflowIsolate := b.overflowIsolate - 1 }
  else if b.isolate = 0 then some b
  else
    (closeLoop b.stackNum b.stack).map fun r =>
      { b with overflowEmbedded := 0, stackNum := r.1, stack := r.2 }.isoPush.startIso.x6

/-- The end of an embedding -/
def pop (b : State) : State :=
  let b := b.toLevel b.stackNum
  let stack := Function.update b.stack b.stackNum 0
  let n := b.stackNum - 1
  { b with stack := stack, stackNum := if 0 < n ∧ stack n = 0 then n - 1 else n }

/-- {lit}`x7` -/
def x7 (b : State) : State :=
  if b.overflowIsolate ≠ 0 then b
  else if b.overflowEmbedded ≠ 0 then { b with overflowEmbedded := b.overflowEmbedded - 1 }
  else
    let b := if 0 < b.stackNum ∧ b.stackTop &&& dis = 0 then b.pop else b
    let b := b.isoPush
    { b with currentChar := b.currentChar + 1 }.startIso

/-- {lit}`x8`; the elements of {lit}`iso-stack<>` behind those of the levels are empty. -/
def x8 (b : State) : State :=
  let b := { b with currentChar := b.currentChar + 1 }.isoPush
  let b := b.x1Rest (p2 (b.buffer.drop b.currentChar))
  ((List.range (maxDepth + 1)).foldl (fun b i => b.isoStackToList i) b).startIso

/-! ## The text -/

/-- {lit}`x-match` -/
def xMatch : BidiClass → State → Option State
  | .RLE, b => some b.x2
  | .LRE, b => some b.x3
  | .RLO, b => some b.x4
  | .LRO, b => some b.x5
  | .RLI, b => some b.x5a
  | .LRI, b => some b.x5b
  | .FSI, b => some b.x5c
  | .PDI, b => b.x6a
  | .PDF, b => some b.x7
  | .B, b => some b.x8
  | .L, b | .R, b | .AL, b | .AN, b | .CS, b | .EN, b | .ES, b | .ET, b | .NSM, b | .S, b | .WS, b
  | .ON, b | .BN, b => some b.x6

/-- One character in the loop of {lit}`bidi-rest` -/
def step (k : Nat) (b : State) : Option State :=
  match b.buffer[k]? with
  | some c => xMatch c { b with currentChar := k }
  | none => some b

/-- The loop of {lit}`bidi-rest`, for the first characters -/
def restLoop : Nat → State → Option State
  | 0, b => some b
  | k + 1, b => (restLoop k b).bind (step k)

end State

/-- The state in front of the text, after {lit}`x1-rest` and {lit}`x1-start` -/
def start (level : Nat) (cs : List BidiClass) (data : List Nat) : State :=
  State.x1Start (State.x1Rest level
    { buffer := cs, levels := List.replicate cs.length 0, currentChar := 0, stack := fun _ => 0,
      stackNum := 0, overflowIsolate := 0, isolate := 0, overflowEmbedded := 0, isoStart := 0,
      isoStack := fun _ => [], isoList := [], data := data })

end Bidi
end Gforth
