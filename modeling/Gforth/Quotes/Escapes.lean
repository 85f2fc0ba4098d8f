import Gforth.Characters.Encoding
import Gforth.Lib.Segments

/-!
# Parsing strings with escapes

The words of {lit}`quotes.fs`.  They read characters at addresses, the end of the line is an
address, and {lit}`refill` may put the next line somewhere else.

Main definitions:

- {lit}`backslashEscape`: {lit}`\-escape,`.
- {lit}`backslashQuoteParse`: {lit}`\"-parse`.
-/

namespace Gforth
namespace Quotes

open Lib
open Memory
open Numbers
open Characters

variable {w : Nat}

/-! ## Sources -/

/-- What {lit}`source` returns, and the memory at that time; there is memory behind the line. -/
structure Source (w : Nat) where
  addr : BitVec w
  len : BitVec w
  mem : Chars w
  half : 2 * len.toNat < 2 ^ w
  fits : addr.toNat + len.toNat + 8 ≤ 2 ^ w

/-- The characters of the line -/
def Source.line (src : Source w) : List Byte :=
  text src.mem src.addr src.len.toNat

/-- {lit}`source +` -/
def Source.stop (src : Source w) : BitVec w :=
  src.addr + src.len

/-- The encoding of extended characters, {lit}`newline`, the address of the compiled string of a
quote, and what {lit}`source` is when {lit}`refill` has returned false -/
structure Host (w : Nat) where
  encoding : Encoding
  newline : List Byte
  newline_ne : newline ≠ []
  quote : BitVec w
  ended : Source w

/-! ## Numbers -/

/-- {lit}`umin` -/
def umin (u1 u2 : BitVec w) : BitVec w :=
  if u2 < u1 then u2 else u1

/-- {lit}`parse-num-x`, with the base that {lit}`parse-num` sets -/
def parseNumX (src : Source w) (base a umax : BitVec w) : BitVec w × BitVec w :=
  let (d, a, _) := toNumber src.mem base 0 a (umin (src.stop - a) umax).toNat
  (a, dlo d)

/-- {lit}`parse-num` -/
def parseNum (src : Source w) (a : BitVec w) (umax base : Nat) : BitVec w × BitVec w :=
  parseNumX src (BitVec.ofNat w base) a (BitVec.ofNat w umax)

/-! ## Extended characters -/

/-- The bytes that {lit}`u8!+` stores -/
def u8Chars (u : BitVec w) : List Byte :=
  if u < 0x80#w then [u.setWidth 8]
  else ((u8Split u 0x3F#w [0#w]).takeWhile (0x80#w ≤ ·)).map (BitVec.setWidth 8)

/-- The bytes that {lit}`xc,` puts into the dictionary, where there is space for them -/
def xcComma : Encoding → BitVec w → List Byte
  | .fixedWidth, c => [c.setWidth 8]
  | .utf8, u => u8Chars u

/-! ## Escapes -/

/-- {lit}`\-escape-table` -/
def escapeTable : List Byte :=
  [7, 8, ascii 'c', ascii 'd', 27, 12, ascii 'g',
    ascii 'h', ascii 'i', ascii 'j', ascii 'k', 10, 10, 10,
    ascii 'o', ascii 'p', ascii '"', 13, ascii 's', 9, ascii 'u',
    11, ascii 'w', ascii 'x', ascii 'y', 0]

/-- The end of {lit}`\-escape,`, for one character -/
def escapeChar (host : Host w) (c : Byte) : List Byte :=
  if c = ascii 'n' then
    -- all but the last char right away
    host.newline.dropLast ++ [host.newline.getLastD 0]
  else
    (if c = ascii 'm' then [cr] else []) ++
      if ascii 'a' ≤ c ∧ c < ascii '{' then
        let translated := escapeTable.getD (c - ascii 'a').toNat 0
        (if c = translated then [ascii '\\'] else []) ++ [translated]
      else [c]

/-- {lit}`\-escape,`: the address behind the escape, and the bytes it puts into the dictionary -/
def backslashEscape (host : Host w) (src : Source w) (a : BitVec w) : BitVec w × List Byte :=
  let c := src.mem a
  if c = ascii 'U' then
    let (a, xc) := parseNum src (a + 1#w) 8 16
    (a, xcComma host.encoding xc)
  else if c = ascii 'u' then
    let (a, xc) := parseNum src (a + 1#w) 4 16
    if xc &&& 0xDC00#w = 0xD800#w then
      let (a, x) := (a + 1#w, src.mem a)
      let (a, y) := (a + 1#w, src.mem a)
      if x = ascii '\\' ∧ y = ascii 'u' then
        let (a, xc') := parseNum src a 4 16
        if xc' &&& 0xDC00#w = 0xDC00#w then
          (a, xcComma host.encoding ((xc' &&& 0x3FF#w) + (xc &&& 0x3FF#w) <<< 10 + 0x10000#w))
        else (a, xcComma host.encoding xc ++ xcComma host.encoding xc')
      else (a - 2#w, xcComma host.encoding xc)
    else (a, xcComma host.encoding xc)
  else if c = ascii 'x' then
    let (a, c) := parseNum src (a + 1#w) 2 16
    (a, [c.setWidth 8])
  else if ascii '0' ≤ c ∧ c < ascii '8' then
    let (a, c) := parseNum src a 3 8
    (a, [c.setWidth 8])
  else (a + 1#w, escapeChar host c)

/-! ## Strings -/

/-- The parse-area and its end, {lit}`here` at the start and now, the characters between them, the
source with the lines that can still be read, and the rest of the stack -/
structure Parse (w : Nat) where
  p : BitVec w
  stop : BitVec w
  start : BitVec w
  here : BitVec w
  chars : List Byte
  source : Source w
  lines : List (Source w)
  stack : List (BitVec w)

/-- {lit}`c,` for some characters -/
def Parse.comma (s : Parse w) (bs : List Byte) : Parse w :=
  { s with here := s.here + BitVec.ofNat w bs.length, chars := s.chars ++ bs }

/-- The part in front of {lit}`while`: at the end of the parse-area there is another line, or the
address of the string and what is below it are added. -/
def Parse.refill (host : Host w) (s : Parse w) : Option (Parse w) :=
  if s.stop ≤ s.p then
    let s := s.comma [lf]
    match s.lines, s.stack with
    | src :: lines, _ =>
        some { s with p := src.addr, stop := src.stop, source := src, lines := lines }
    | [], x :: stack =>
        -- over + >r, where only the address has been left
        some { s with p := x, stop := host.quote + x, source := host.ended, stack := stack }
    | [], [] => none
  else some s

/-- What is left at the end: {lit}`c-addr u` with its characters, {lit}`here`, {lit}`>in`, and the
rest -/
structure Returned (w : Nat) where
  addr : BitVec w
  u : BitVec w
  chars : List Byte
  here : BitVec w
  toIn : BitVec w
  source : Source w
  lines : List (Source w)
  stack : List (BitVec w)

/-- What {lit}`\"-parse` does: it returns, there is an unfinished escape, or the stack has been
empty. -/
inductive Result (w : Nat) where
  | returned (r : Returned w)
  | unfinished
  | underflow

/-- The part behind {lit}`repeat`, with a signed {lit}`min` -/
def Parse.finish (s : Parse w) : Returned w :=
  let n := s.p + 1#w - s.source.addr
  { addr := s.here - (s.here - s.start)
    u := s.here - s.start
    chars := s.chars
    here := s.here - (s.here - s.start)
    toIn := if n.slt s.source.len then n else s.source.len
    source := s.source
    lines := s.lines
    stack := s.stack }

/-- The loop of {lit}`\"-parse` -/
def parseLoop (host : Host w) : Nat → Parse w → Option (Result w)
  | 0, _ => none
  | fuel + 1, s =>
      match s.refill host with
      | none => some .underflow
      | some s =>
          let c := s.source.mem s.p
          if c = ascii '"' then some (.returned s.finish)
          else if c = ascii '\\' then
            if s.p + 1#w = s.stop then some .unfinished
            else
              let (p, bs) := backslashEscape host s.source (s.p + 1#w)
              parseLoop host fuel { s.comma bs with p := p }
          else parseLoop host fuel { s.comma [c] with p := s.p + 1#w }

/-- {lit}`\"-parse` -/
def backslashQuoteParse (host : Host w) (fuel : Nat) (here toIn : BitVec w) (src : Source w)
    (lines : List (Source w)) (stack : List (BitVec w)) : Option (Result w) :=
  parseLoop host fuel
    { p := toIn + src.addr
      stop := src.stop
      start := here
      here := here
      chars := []
      source := src
      lines := lines
      stack := stack }

end Quotes
end Gforth
