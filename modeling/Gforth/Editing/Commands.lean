import Gforth.Characters.Agreement
import Gforth.Lib.Splices

/-!
# Editing commands

The line editor keeps the size of its buffer, the length of the text, the address and the cursor on
the stack.  Characters are UTF-8.  The input buffer of the system can be resized.

Words that scan memory for a character, and the loops over words, get a number of steps that they may
take.  {lit}`resize` may fail, and then the command throws.
-/

namespace Gforth
namespace Editing

open Lib
open Memory
open Utf8
open Numbers
open Characters

variable {w : Nat}

/-! ## The buffer -/

/-- The items on the stack, the input buffer with its size, and the text in {lit}`paste$` -/
structure Editor (w : Nat) where
  mem : Chars w
  max : BitVec w
  span : BitVec w
  addr : BitVec w
  pos : BitVec w
  tib : BitVec w
  maxTib : BitVec w
  paste : List Byte

/-- What the words use of the system: the byte order, {lit}`resize` of a block with some size, and the
number of steps -/
structure System (w : Nat) where
  order : ByteOrder
  resize : Chars w → BitVec w → BitVec w → BitVec w → Option (Chars w × BitVec w)
  fuel : Nat

namespace Editor

/-- {lit}`>edit-rest` -/
def editRest (e : Editor w) : Str w :=
  ⟨e.addr + e.pos, e.span - e.pos⟩

/-- {lit}`expand-tib`, with {lit}`#tib` set to the length of the text -/
def expandTib (sys : System w) (n : BitVec w) (e : Editor w) : Option (Editor w) :=
  (sys.resize e.mem e.tib e.maxTib n).map fun r =>
    { e with
      mem := store r.1 (r.2 + e.span) (List.replicate (n - e.span).toNat 0#8)
      tib := r.2
      maxTib := n }

/-- {lit}`umax` -/
def umax (m n : BitVec w) : BitVec w :=
  if m ≤ n then n else m

/-- {lit}`xgrow-tib` -/
def xgrowTib (sys : System w) (more : BitVec w) (e : Editor w) : Option (Editor w × Bool) :=
  if e.span + more ≤ e.max then some (e, true)
  else if e.addr = e.tib then
    (e.expandTib sys (umax (e.span + more) (e.maxTib * 2#w))).map fun e =>
      ({ e with max := e.maxTib, addr := e.tib }, true)
  else some (e, false)

/-! ## Insertion -/

/-- {lit}`(xins)` -/
def xins (sys : System w) (xc : BitVec w) (e : Editor w) : Option (Editor w) :=
  (e.xgrowTib sys (u8len xc)).map fun r =>
    if r.2 then
      let e := r.1
      let rest := e.editRest
      let mem := move e.mem rest.addr (rest.addr + u8len xc) rest.len.toNat
      { e with
        mem := (u8StorePlusQuery mem xc ⟨e.addr + e.pos, u8len xc⟩).1
        span := e.span + u8len xc
        pos := e.pos + u8len xc }
    else r.1

/-- {lit}`insert` of a string into a buffer -/
def insert (mem : Chars w) (string : List Byte) (buffer size : BitVec w) : Chars w :=
  let n := if BitVec.ofNat w string.length ≤ size then BitVec.ofNat w string.length else size
  store (move mem buffer (buffer + n) (size - n).toNat) buffer (string.take n.toNat)

/-- {lit}`xins-string` of a string outside of the buffer -/
def xinsString (sys : System w) (string : List Byte) (e : Editor w) : Option (Editor w) :=
  let n := BitVec.ofNat w string.length
  (e.xgrowTib sys n).map fun r =>
    if r.2 then
      let e := r.1
      { e with
        mem := insert e.mem string e.editRest.addr (e.editRest.len + n)
        span := e.span + n
        pos := e.pos + n }
    else r.1

/-- {lit}`xpaste` -/
def xpaste (sys : System w) (e : Editor w) : Option (Editor w) :=
  e.xinsString sys e.paste

/-! ## Movement -/

/-- {lit}`over + xchar- over -` -/
def charLeft (sys : System w) (e : Editor w) (pos : BitVec w) : Option (BitVec w) :=
  (u8LessLess e.mem sys.fuel (e.addr + pos)).map (· - e.addr)

/-- {lit}`over + xchar+ over -` -/
def charRight (sys : System w) (e : Editor w) (pos : BitVec w) : BitVec w :=
  (u8FetchPlusPrim sys.order e.mem (e.addr + pos)).1 - e.addr

/-- A loop that goes on while a condition holds -/
def skipLoop (cond : BitVec w → Bool) (next : BitVec w → Option (BitVec w)) :
    Nat → BitVec w → Option (BitVec w)
  | 0, _ => none
  | fuel + 1, pos => if cond pos then (next pos).bind (skipLoop cond next fuel) else some pos

/-- {lit}`bl` -/
def bl : Byte := 0x20#8

/-- {lit}`xback`, with and without the modifier -/
def xback (sys : System w) (modifier : Bool) (e : Editor w) : Option (Editor w) :=
  if e.pos ≠ 0#w then
    let next := e.charLeft sys
    let skip := fun (cond : Byte → Bool) => skipLoop (fun pos =>
      cond (e.mem (e.addr + pos - 1#w)) && decide ((0#w).slt pos)) next sys.fuel
    (if modifier then (skip (· == bl) e.pos).bind (skip (· != bl)) else next e.pos).map fun pos =>
      { e with pos := if pos.slt 0#w then 0#w else pos }
  else some e

/-- {lit}`xforw` -/
def xforw (sys : System w) (modifier : Bool) (e : Editor w) : Option (Editor w) :=
  if e.span ≠ e.pos then
    let next := fun pos => some (e.charRight sys pos)
    let skip := fun (cond : Byte → Bool) => skipLoop (fun pos =>
      cond (e.mem (e.addr + pos)) && decide (pos < e.span)) next sys.fuel
    (if modifier then (skip (· == bl) e.pos).bind (skip (· != bl)) else next e.pos).map fun pos =>
      { e with pos := pos }
  else some e

/-- {lit}`xfirst-pos` -/
def xfirstPos (e : Editor w) : Editor w :=
  { e with pos := 0#w }

/-- {lit}`xend-pos` -/
def xendPos (e : Editor w) : Editor w :=
  { e with pos := e.span }

/-! ## Deletion -/

/-- {lit}`(xdel)` -/
def xdel (sys : System w) (e : Editor w) : Option (Editor w) :=
  (u8LessLess e.mem sys.fuel (e.addr + e.pos)).map fun before =>
    let n := e.addr + e.pos - before
    let e := { e with pos := before - e.addr }
    { e with
      mem := move e.mem (e.editRest.addr + n) e.editRest.addr e.editRest.len.toNat
      span := e.span - n }

/-- A loop that deletes characters while their last byte meets a condition -/
def xdelLoop (sys : System w) (cond : Byte → Bool) : Nat → Editor w → Option (Editor w)
  | 0, _ => none
  | fuel + 1, e =>
      if e.pos ≠ 0#w then
        if cond (e.mem (e.pos - 1#w + e.addr)) then (e.xdel sys).bind (xdelLoop sys cond fuel)
        else some e
      else some e

/-- {lit}`?xdel` -/
def qxdel (sys : System w) (modifier : Bool) (e : Editor w) : Option (Editor w) :=
  if modifier then
    (xdelLoop sys (fun c => decide (c ≤ bl)) sys.fuel e).bind
      (xdelLoop sys (fun c => decide (bl < c)) sys.fuel)
  else if e.pos ≠ 0#w then e.xdel sys
  else some e

/-- {lit}`<xdel>`; with the modifier it is {lit}`?xdel`. -/
def xdelRight (sys : System w) (modifier : Bool) (e : Editor w) : Option (Editor w) :=
  if modifier then e.qxdel sys modifier
  else if e.span ≠ e.pos then (e.xforw sys modifier).bind (xdel sys)
  else some e

/-- {lit}`xclear-rest` -/
def xclearRest (e : Editor w) : Editor w :=
  { e with
    paste := text e.mem e.editRest.addr e.editRest.len.toNat
    span := e.pos }

/-- {lit}`xclear-first` -/
def xclearFirst (e : Editor w) : Editor w :=
  { e with
    paste := text e.mem e.addr e.pos.toNat
    mem := move e.mem (e.addr + e.pos) e.addr (e.span - e.pos).toNat
    span := e.span - e.pos
    pos := 0#w }

/-- {lit}`xtranspose` -/
def xtranspose (sys : System w) (e : Editor w) : Option (Editor w) :=
  if e.pos ≠ 0#w then
    (if e.span = e.pos then e.charLeft sys e.pos else some e.pos).bind fun pos =>
      let e := { e with pos := pos }
      (u8LessLess e.mem sys.fuel (e.addr + e.pos)).bind fun before =>
        let xc := (u8FetchPlusPrim sys.order e.mem before).2
        (e.xdel sys).bind fun e => { e with pos := e.charRight sys e.pos }.xins sys xc
  else some e

/-- {lit}`xdelw` -/
def xdelw (sys : System w) (modifier : Bool) (e : Editor w) : Option (Editor w) :=
  (e.xforw sys modifier).map fun e' =>
    let n := e'.pos - e.pos
    { e' with
      paste := text e'.mem (e'.addr + e.pos) n.toNat
      span := e'.span - n
      mem := move e'.mem e'.editRest.addr (e'.addr + e.pos) e'.editRest.len.toNat
      pos := e.pos }

end Editor

/-! ## Commands -/

/-- The commands -/
inductive Command where
  | xins (xc : Nat)
  | xinsString (xcs : List Nat)
  | xpaste
  | xback (modifier : Bool)
  | xforw (modifier : Bool)
  | qxdel (modifier : Bool)
  | xdelRight (modifier : Bool)
  | xfirstPos
  | xendPos
  | xclearRest
  | xclearFirst
  | xtranspose
  | xdelw (modifier : Bool)
deriving DecidableEq, Repr

/-- What a command does in memory -/
def Command.run (sys : System w) : Command → Editor w → Option (Editor w)
  | xins xc, e => e.xins sys (BitVec.ofNat w xc)
  | xinsString xcs, e => e.xinsString sys (encodeAll xcs)
  | xpaste, e => e.xpaste sys
  | xback modifier, e => e.xback sys modifier
  | xforw modifier, e => e.xforw sys modifier
  | qxdel modifier, e => e.qxdel sys modifier
  | xdelRight modifier, e => e.xdelRight sys modifier
  | xfirstPos, e => some e.xfirstPos
  | xendPos, e => some e.xendPos
  | xclearRest, e => some e.xclearRest
  | xclearFirst, e => some e.xclearFirst
  | xtranspose, e => e.xtranspose sys
  | xdelw modifier, e => e.xdelw sys modifier

end Editing
end Gforth
