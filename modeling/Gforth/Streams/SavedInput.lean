import Gforth.Streams.Positions

/-!
# Saving and restoring the input source

Input sources are blocks on the heap, each with a pointer to the block of the source around it;
{lit}`current-input` points to the innermost one.  {lit}`save-input` leaves the data of the current
source and this pointer, and {lit}`restore-input` uses them later.

Main definitions:

- {lit}`Input`: the blocks, listed from the innermost, with what they read from.
- {lit}`Input.saveInput`, {lit}`Input.restoreInput`: the words of the source.
-/

namespace Gforth
namespace Streams

open Lib

variable {F : Type} [DecidableEq F]

/-! ## Input blocks -/

/-- The method tables of input sources -/
inductive Method where
  | terminal | evaluate | file
deriving DecidableEq

/-- An input block with its method table; the program does not keep whether the last
{lit}`refill` has returned true. -/
structure Source (F : Type) where
  method : Method
  block : InputBlock F
  filled : Bool

/-- The blocks with their addresses, the innermost first, {lit}`current-input`, the streams, and
the lines that will be typed on the terminal -/
structure Input (F : Type) where
  blocks : List (Nat × Source F)
  currentInput : Nat
  files : Files F
  typed : List (List Byte)

/-- A cell on the data stack -/
inductive Item (F : Type) where
  | cell (n : Int)
  | file (f : F)

namespace Input

/-- The block that {lit}`current-input` points to; there is none at an address that has been
freed. -/
def current (st : Input F) : Option (Source F) :=
  st.blocks.lookup st.currentInput

/-- The current block is another one. -/
def setCurrent (st : Input F) (e : Source F) : Input F :=
  { st with blocks := st.blocks.map fun p => if p.1 = st.currentInput then (p.1, e) else p }

/-- {lit}`resize` of the current block in {lit}`expand-tib`: it has another address, which is not
that of another block. -/
def move (st : Input F) (a : Nat) : Input F :=
  if a ∈ st.blocks.map Prod.fst then st
  else
    { st with
      blocks := st.blocks.map fun p => if p.1 = st.currentInput then (a, p.2) else p
      currentInput := a }

/-! ## Methods -/

/-- {lit}`refill`, where {lit}`resize` would put the block at the address {lit}`a` -/
def refill (a : Nat) (st : Input F) : Option (Bool × Input F) :=
  match st.current with
  | none => none
  | some e =>
      match e.method with
      | .evaluate => some (false, st)
      | .terminal =>
          match st.typed with
          | [] => some (false, st.setCurrent { e with filled := false })
          | line :: typed =>
              some (true,
                { st.setCurrent { e with
                    block := { e.block with
                      text := line.take e.block.maxTib
                      toIn := 0
                      loadline := e.block.loadline + 1 }
                    filled := true } with
                  typed := typed })
      | .file =>
          match Streams.refill ((st.files.left e.block.loadfile).length + 1) e.block st.files with
          | none => none
          | some (flag, b, fs) =>
              let st' := { st.setCurrent { e with block := b, filled := flag } with files := fs }
              some (flag, if b.maxTib = e.block.maxTib then st' else st'.move a)

/-- The words {lit}`(save-input)`: the items from the top of the stack -/
def saveMethod (st : Input F) : Option (List (Item F)) :=
  match st.current with
  | none => none
  | some e =>
      match e.method with
      | .terminal | .evaluate => some [.cell 2, .cell e.block.loadline, .cell e.block.toIn]
      | .file =>
          match st.files.stream e.block.loadfile with
          | none => none
          | some s =>
              some [.cell 5, .file e.block.loadfile, .cell 0, .cell (s.tell - e.block.fillBytes),
                .cell e.block.loadline, .cell e.block.toIn]

/-- Another {lit}`>in` and {lit}`loadline` in the current block -/
def setPosition (st : Input F) (toIn loadline : Int) : Input F :=
  match st.current with
  | none => st
  | some e =>
      st.setCurrent { e with block := { e.block with toIn := toIn.toNat, loadline := loadline } }

/-- The words {lit}`(restore-input)`, with balls for a freed block (-9), for arguments that do not
match (-12), and for a line that is not there any more (-36) -/
def restoreMethod (a : Nat) (stack : List (Item F)) (st : Input F) :
    EStateM.Result Int (Input F) (List (Item F)) :=
  match st.current with
  | none => .error (-9) st
  | some e =>
      match e.method with
      | .terminal | .evaluate =>
          match stack with
          | .cell 2 :: .cell loadline :: .cell toIn :: stack =>
              if loadline = e.block.loadline then .ok stack (st.setPosition toIn loadline)
              else .error (-12) st
          | _ => .error (-12) st
      | .file =>
          match stack with
          | .cell 5 :: .file f :: .cell _ :: .cell position :: .cell loadline :: .cell toIn ::
              stack =>
              if f = e.block.loadfile then
                let st := { st with files := st.files.repositionFile (some position.toNat) f }
                match st.refill a with
                | some (true, st) => .ok stack (st.setPosition toIn loadline)
                | some (false, st) => .error (-36) st
                | none => .error (-9) st
              else .error (-12) st
          | _ => .error (-12) st

/-! ## The words -/

/-- {lit}`save-input` -/
def saveInput (st : Input F) : Option (List (Item F)) :=
  match st.saveMethod with
  | some (.cell n :: items) => some (.cell (n + 1) :: .cell st.currentInput :: items)
  | _ => none

/-- {lit}`restore-input`: {lit}`catch` leaves as many items as it has found, and the loop removes
{lit}`n - 1` items below the ball. -/
def restoreInput (a : Nat) (stack : List (Item F)) (st : Input F) : List (Item F) × Input F :=
  match stack with
  | .cell n :: .cell input :: stack =>
      match restoreMethod a (.cell (n - 1) :: stack) { st with currentInput := input.toNat } with
      | .ok stack' st' => (.cell 0 :: stack', st')
      | .error _ st' =>
          (.cell (-1) :: (.cell (n - 1) :: stack).drop (n - 1).toNat,
            { st' with currentInput := st.currentInput })
  | _ => (stack, st)

/-! ## Runs -/

/-- {lit}`new-tib` at an address where no block is -/
def newTib (st : Input F) (a : Nat) (e : Source F) : Option (Input F) :=
  if a ∈ st.blocks.map Prod.fst then none
  else some { st with blocks := (a, e) :: st.blocks, currentInput := a }

/-- {lit}`pop-file`, with {lit}`close-file` for files; the last block stays. -/
def popFile (st : Input F) : Option (Input F) :=
  match st.blocks with
  | (_, e) :: (a, e') :: blocks =>
      some
        { st with
          blocks := (a, e') :: blocks
          currentInput := a
          files := if e.method = .file then st.files.closeFile e.block.loadfile else st.files }
  | _ => none

end Input

/-- What programs do with input sources -/
inductive InputOp (F : Type) where
  | setIn (n : Nat)
  | refill (a : Nat)
  | evaluate (text : List Byte) (a : Nat)
  | included (f : F) (contents : List Byte) (a : Nat)
  | popFile

namespace InputOp

/-- {lit}`evaluate` and {lit}`included` start a source, and {lit}`popFile` ends it;
{lit}`open-file` returns a pointer that no open stream has, and {lit}`null` is the file id 0 in
blocks that {lit}`new-tib` has erased. -/
def step (null : F) (st : Input F) : InputOp F → Option (Input F)
  | setIn n =>
      st.current.map fun e => st.setCurrent { e with block := { e.block with toIn := n } }
  | refill a => (st.refill a).map Prod.snd
  | evaluate text a => st.newTib a ⟨.evaluate, ⟨0, text, 8, -1, null, 0⟩, false⟩
  | included f contents a =>
      if st.files.stream f = none then
        ({ st with files := st.files.openFile f contents } : Input F).newTib a
          ⟨.file, ⟨0, [], 0x400, 0, f, 0⟩, false⟩
      else none
  | popFile => st.popFile

/-- A run -/
def run (null : F) (st : Input F) : List (InputOp F) → Option (Input F)
  | [] => some st
  | op :: ops => (op.step null st).bind fun st => run null st ops

/-- The sources that are started are ended again; {lit}`depth` of them are open. -/
def Closed : Nat → List (InputOp F) → Prop
  | depth, [] => depth = 0
  | depth, evaluate _ _ :: ops => Closed (depth + 1) ops
  | depth, included _ _ _ :: ops => Closed (depth + 1) ops
  | depth, popFile :: ops => 0 < depth ∧ Closed (depth - 1) ops
  | depth, _ :: ops => Closed depth ops

end InputOp

/-- {lit}`create-input`: a terminal, where these lines will be typed -/
def Input.start (null : F) (a : Nat) (typed : List (List Byte)) : Input F where
  blocks := [(a, ⟨.terminal, ⟨0, [], 0x400, 0, null, 0⟩, false⟩)]
  currentInput := a
  files := Files.initial
  typed := typed

/-- The results of {lit}`restore-input` that are claimed: the items of {lit}`save-input` are gone and
there is a flag; if it is false, the line, {lit}`>in` and the line number are those in the state
{lit}`saved`, and otherwise {lit}`current-input` is what it was in the state {lit}`before`. -/
def Restores (saved before : Input F) (rest : List (Item F)) (r : List (Item F) × Input F) : Prop :=
  ∃ flag, r.1 = .cell flag :: rest ∧
    (flag = 0 → ∃ e e', saved.current = some e ∧ r.2.current = some e' ∧
      e'.block.text = e.block.text ∧ e'.block.toIn = e.block.toIn ∧
      e'.block.loadline = e.block.loadline) ∧
    (flag ≠ 0 → r.2.currentInput = before.currentInput)

end Streams
end Gforth
