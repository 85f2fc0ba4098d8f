import Gforth.Lib.Files
import Mathlib.Logic.Function.Basic

/-!
# Block buffers

Blocks of the current blocks file are kept in buffers; a block can only be in one of them.
{lit}`block` returns the address of a buffer, {lit}`update` marks the buffer that was returned
last as changed.  A changed buffer is written before its contents are replaced.
-/

namespace Gforth
namespace Blocks

open Lib

/-- A character -/
abbrev Chr := BitVec 8

/-- {lit}`buffer-struct` -/
structure Buffer where
  block : Nat
  fid : Nat
  dirty : Bool
  data : List Chr
deriving DecidableEq

/-- The values that the words use: numbers of characters and buffers, {lit}`offset` and
{lit}`block-limit`, the cell with all bits set, the blocks file used by default, and the file
id that the system gives to a new file, which is not the one of the open file. -/
structure Config (File : Type) where
  charsPerBlock : Nat
  buffers : Nat
  offset : Nat
  blockLimit : Nat
  maxU : Nat
  defaultFile : File
  newFid : Nat → Nat → Nat
  buffers_pos : 0 < buffers
  blockLimit_le : blockLimit ≤ maxU
  newFid_ne_zero : ∀ k fid, newFid k fid ≠ 0
  newFid_ne : ∀ k fid, newFid k fid ≠ fid

/-- An open file with its position -/
structure Handle (File : Type) where
  file : File
  pos : Nat

/-- A call of {lit}`write-file` -/
structure Write (File : Type) where
  file : File
  pos : Nat
  data : List Chr

/-- The files, the open files, the calls of {lit}`write-file` with the last one first, and the
variables -/
structure State (File : Type) where
  disk : File → Option (List Chr)
  handle : Nat → Option (Handle File)
  opens : Nat
  writes : List (Write File)
  blockFid : Nat
  buffer : Nat → Buffer
  lastBlock : Option Nat

variable {File : Type} [DecidableEq File] (cfg : Config File)

/-! ## Files -/

/-- The ball of operations on files that are not open -/
def ioError : Int := -37

/-- The ball for invalid block numbers -/
def invalidBlock : Int := -35

/-- Change a buffer. -/
def State.setBuffer (s : State File) (i : Nat) (b : Buffer) : State File :=
  { s with buffer := Function.update s.buffer i b }

/-- {lit}`open-file`, or {lit}`create-file` if the file does not exist -/
def openFile (s : State File) (f : File) : Nat × State File :=
  let fid := cfg.newFid s.opens s.blockFid
  (fid,
    { s with
      disk := Function.update s.disk f (some ((s.disk f).getD []))
      handle := Function.update s.handle fid (some ⟨f, 0⟩)
      opens := s.opens + 1 })

/-- {lit}`close-file` -/
def closeFile (s : State File) (fid : Nat) : Except Int (State File) :=
  match s.handle fid with
  | none => .error ioError
  | some _ => .ok { s with handle := Function.update s.handle fid none }

/-- {lit}`reposition-file` -/
def repositionFile (s : State File) (fid pos : Nat) : Except Int (State File) :=
  match s.handle fid with
  | none => .error ioError
  | some h => .ok { s with handle := Function.update s.handle fid (some { h with pos := pos }) }

/-- {lit}`read-file` -/
def readFile (s : State File) (fid n : Nat) : Except Int (List Chr × State File) :=
  match s.handle fid with
  | none => .error ioError
  | some h =>
      match s.disk h.file with
      | none => .error ioError
      | some content =>
          let data := readAt content h.pos n
          .ok (data, { s with
            handle := Function.update s.handle fid (some { h with pos := h.pos + data.length }) })

/-- {lit}`write-file` and {lit}`flush-file` -/
def writeFile (s : State File) (fid : Nat) (data : List Chr) : Except Int (State File) :=
  match s.handle fid with
  | none => .error ioError
  | some h =>
      match s.disk h.file with
      | none => .error ioError
      | some content =>
          .ok { s with
            disk := Function.update s.disk h.file (some (writeAt 0#8 content h.pos data))
            handle := Function.update s.handle fid (some { h with pos := h.pos + data.length })
            writes := ⟨h.file, h.pos, data⟩ :: s.writes }

/-! ## Buffers -/

/-- {lit}`get-block-fid`; {lit}`open-blocks` only stores the file id if no file is open. -/
def getBlockFid (s : State File) : State File :=
  if s.blockFid = 0 then
    { (openFile cfg s cfg.defaultFile).2 with blockFid := (openFile cfg s cfg.defaultFile).1 }
  else s

/-- {lit}`block-position` -/
def blockPosition (s : State File) (u : Nat) : Except Int (State File) :=
  if cfg.blockLimit ≤ u then .error invalidBlock
  else
    let s := getBlockFid cfg s
    repositionFile s s.blockFid ((u - cfg.offset) * cfg.charsPerBlock)

/-- {lit}`update` -/
def update (s : State File) : State File :=
  match s.lastBlock with
  | none => s
  | some i => s.setBuffer i { s.buffer i with dirty := true }

/-- The file id of a buffer that has none -/
def assignFid (s : State File) (i : Nat) : State File :=
  if (s.buffer i).fid = 0 then
    let s := getBlockFid cfg s
    s.setBuffer i { s.buffer i with fid := s.blockFid }
  else s

/-- {lit}`save-buffer`: the position is set in the current blocks file, but the data are written
to the file of the buffer. -/
def saveBuffer (s : State File) (i : Nat) : Except Int (State File) :=
  if (s.buffer i).dirty then
    let s := assignFid cfg s i
    match blockPosition cfg s (s.buffer i).block with
    | .error ball => .error ball
    | .ok s =>
        match writeFile s (s.buffer i).fid (s.buffer i).data with
        | .error ball => .error ball
        | .ok s => .ok (s.setBuffer i { s.buffer i with dirty := false })
  else .ok s

/-- {lit}`empty-buffer` -/
def emptyBuffer (s : State File) (i : Nat) : State File :=
  s.setBuffer i { s.buffer i with block := cfg.maxU, dirty := false }

/-- {lit}`save-buffers` -/
def saveBuffers (s : State File) : Except Int (State File) :=
  (List.range cfg.buffers).foldlM (saveBuffer cfg) s

/-- {lit}`empty-buffers` -/
def emptyBuffers (s : State File) : State File :=
  (List.range cfg.buffers).foldl (emptyBuffer cfg) s

/-- {lit}`flush` -/
def flush (s : State File) : Except Int (State File) :=
  match saveBuffers cfg s with
  | .error ball => .error ball
  | .ok s => .ok (emptyBuffers cfg s)

/-- {lit}`open-blocks` -/
def openBlocks (s : State File) (f : File) : Except Int (State File) :=
  let (fid, s) := openFile cfg s f
  if s.blockFid = 0 then .ok { s with blockFid := fid }
  else
    match flush cfg s with
    | .error ball => .error ball
    | .ok s =>
        match closeFile s s.blockFid with
        | .error ball => .error ball
        | .ok s => .ok { s with blockFid := fid }

/-- Read a block into a buffer and blank the rest of the buffer. -/
def loadBuffer (s : State File) (u i : Nat) : Except Int (State File) :=
  let s := getBlockFid cfg s
  match readFile s s.blockFid cfg.charsPerBlock with
  | .error ball => .error ball
  | .ok (data, s) =>
      .ok (s.setBuffer i { s.buffer i with
        block := u
        fid := (getBlockFid cfg s).blockFid
        data := data ++ List.replicate (cfg.charsPerBlock - data.length) 32#8 })

/-- {lit}`block`, and {lit}`buffer`, which calls it; the address of the buffer is that of
{lit}`last-block`. -/
def block (s : State File) (u : Nat) : Except Int (State File) :=
  if u < cfg.offset then .error invalidBlock
  else
    let i := u % cfg.buffers
    if (s.buffer i).block ≠ u ∨ (s.buffer i).fid ≠ s.blockFid then
      match saveBuffer cfg s i with
      | .error ball => .error ball
      | .ok s =>
          match blockPosition cfg s u with
          | .error ball => .error ball
          | .ok s =>
              match loadBuffer cfg s u i with
              | .error ball => .error ball
              | .ok s => .ok { s with lastBlock := some i }
    else .ok { s with lastBlock := some i }

/-! ## Programs -/

/-- Store in the buffer that was returned last, and {lit}`update` -/
def change (s : State File) (data : List Chr) : State File :=
  match s.lastBlock with
  | none => s
  | some i => update (s.setBuffer i { s.buffer i with data := data })

/-- What a program does with blocks -/
inductive Op (File : Type) where
  | block (u : Nat)
  | change (data : List Chr)
  | saveBuffers
  | flush
  | openBlocks (f : File)

/-- One operation -/
def step (s : State File) : Op File → Except Int (State File)
  | .block u => block cfg s u
  | .change data => .ok (change s data)
  | .saveBuffers => saveBuffers cfg s
  | .flush => flush cfg s
  | .openBlocks f => openBlocks cfg s f

/-- A sequence of operations -/
def run (s : State File) : List (Op File) → Except Int (State File)
  | [] => .ok s
  | op :: ops =>
      match step cfg s op with
      | .error ball => .error ball
      | .ok s => run s ops

/-- {lit}`block-cold` -/
def blockCold (disk : File → Option (List Chr)) : State File where
  disk := disk
  handle := fun _ => none
  opens := 0
  writes := []
  blockFid := 0
  buffer := fun _ => ⟨cfg.maxU, 0, false, List.replicate cfg.charsPerBlock 0#8⟩
  lastBlock := none

end Blocks
end Gforth
