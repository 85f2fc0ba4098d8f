import Gforth.Image.Relocation

/-!
# Sections in image files

An image file is the memory of the sections from their starts on, one section after the
other, with a magic string before each section but the first.  A nonrelocatable file is
dumped from memory; the image maker compares two of them and writes the relocatable one,
where each section is followed by its relocation bits.  Two readers find the sections
again: {lit}`image-sections` in the dumps and {lit}`gforth_loader` in all files.

Every piece computes the sizes from the {lit}`start` and {lit}`dp` in the header of the
section.  The writers of later sections round the size up to cells, and the readers do
not.
-/

namespace Gforth
namespace Image

open Lib

/-! ## Sections in memory -/

/-- What is fixed about a section when it is dumped: its address, the field {lit}`sect-size`
and the number of bytes from its start to {lit}`dp`.  Addresses of processes have at most
56 bits, and nothing is in the first page. -/
structure Section where
  start : Cell
  size : Cell
  extent : Nat
  header_le : 24 ≤ extent
  start_gt : 0x100 < start.toNat
  end_lt : start.toNat + extent < 2 ^ 56

/-- {lit}`sect-dp` -/
def Section.dp (s : Section) : Cell :=
  s.start + BitVec.ofNat 64 s.extent

/-- The section, as the image maker looks at it. -/
def Section.sect (s : Section) : Sect :=
  ⟨s.start, s.dp⟩

/-- {lit}`aligned` -/
def aligned (n : Nat) : Nat :=
  (n + 7) / 8 * 8

/-- The first {lit}`n` bytes of a section, with what the memory holds after the fields
{lit}`sect-start`, {lit}`sect-size` and {lit}`sect-dp`. -/
def Section.bytes (s : Section) (mem : Nat → Byte) (n : Nat) : List Byte :=
  storeCell s.start ++ (storeCell s.size ++ (storeCell s.dp ++
    (List.range (n - 24)).map fun o => mem (24 + o)))

/-! ## Dumping -/

/-- The bytes of {lit}`Section.` -/
def sectionMagic : List Byte :=
  [0x53#8, 0x65#8, 0x63#8, 0x74#8, 0x69#8, 0x6f#8, 0x6e#8, 0x2e#8]

/-- A section after the first one in a file. -/
def withMagic (block : List Byte) : List Byte :=
  sectionMagic ++ block

/-- The memory of the sections, in whole cells. -/
def memory (mem : Nat → Nat → Byte) (ss : List Section) : List (List Byte) :=
  ss.mapIdx fun k s => s.bytes (mem k) (aligned s.extent)

/-- {lit}`dump-sections`: all sections but the first one -/
def dumpSections (mem : Nat → Nat → Byte) (ss : List Section) : List Byte :=
  ((memory mem ss).drop 1).flatMap withMagic

/-- {lit}`dump-fi`, after the preamble -/
def dumpFi (mem : Nat → Nat → Byte) : List Section → List Byte
  | [] => []
  | s :: ss => s.bytes (mem 0) s.extent ++ dumpSections mem (s :: ss)

/-! ## The image maker -/

/-- {lit}`sect-start`; an address in an image is modelled by the bytes from there on -/
def sectStart (sect : List Byte) : Cell :=
  loadCell (sect.take 8)

/-- {lit}`sect-size` -/
def sectSize (sect : List Byte) : Cell :=
  loadCell ((sect.drop 8).take 8)

/-- {lit}`sect-dp` -/
def sectDp (sect : List Byte) : Cell :=
  loadCell ((sect.drop 16).take 8)

/-- {lit}`sect-size@` -/
def sectExtent (sect : List Byte) : Nat :=
  (sectDp sect - sectStart sect).toNat

/-- The loop of {lit}`image-sections`; each iteration goes at least eight bytes on -/
def imageSectionsFrom : Nat → List Byte → List (List Byte)
  | 0, _ => []
  | fuel + 1, sect =>
      if sect = [] then []
      else if sectExtent sect = 0 then [sect]
      else if (sect.drop (sectExtent sect)).take 8 ≠ sectionMagic then [sect]
      else sect :: imageSectionsFrom fuel (sect.drop (sectExtent sect + 8))

/-- {lit}`image-sections` -/
def imageSections (image : List Byte) : List (List Byte) :=
  imageSectionsFrom (image.length + 1) image

/-- The section that the image maker compares with others. -/
def sectAt (sect : List Byte) : Sect :=
  ⟨sectStart sect, sectDp sect⟩

/-- What is written for a section: its cells and its relocation bits. -/
def sectionBlock (written : List Cell × List Byte) : List Byte :=
  storeCells written.1 ++ written.2

/-- Sections in a file, with {lit}`Section.` before all but the first. -/
def writeSections : List (List Byte) → List Byte
  | [] => []
  | block :: blocks => block ++ blocks.flatMap withMagic

/-- {lit}`compare-sections` -/
def compareSections (sym : Symbols) (imSects1 imSects2 : List (List Byte)) : List Byte :=
  writeSections (List.zipWith
    (fun sect1 sect2 =>
      let size := aligned (sectExtent sect2) / 8
      sectionBlock (compareSection sym (imSects1.map sectAt) (imSects2.map sectAt)
        (loadCells size sect1) (loadCells size sect2)))
    imSects1 imSects2)

/-- {lit}`check-sections` -/
def checkSections (imSects1 imSects2 : List (List Byte)) : Bool :=
  (List.zipWith (fun sect1 sect2 =>
    decide (sectStart sect1 ≠ sectStart sect2 ∧ sectSize sect1 = sectSize sect2))
    imSects1 imSects2).all id

/-- {lit}`comp-image`, after the preamble and {lit}`set-image-offsets` -/
def compImage (sym : Symbols) (image1 image2 : List Byte) : Option (List Byte) :=
  if aligned image1.length ≠ image1.length then none
  else if image1.length ≠ image2.length then none
  else
    let imSects1 := imageSections image1
    let imSects2 := imageSections image2
    if imSects1.length ≠ imSects2.length then none
    else if checkSections imSects1 imSects2 then some (compareSections sym imSects1 imSects2)
    else none

/-! ## The loader -/

/-- A section in the tables of the loader. -/
structure Loaded where
  bytes : List Byte
  bits : Option (List Byte)
deriving DecidableEq

/-- What comes of reading the relocation bits of a section. -/
inductive BitsRead where
  | wrongAddress
  | early (bits : List Byte)
  | done (bits : Option (List Byte)) (file : List Byte)

/-- The number of relocation bytes for a section, in unsigned arithmetic. -/
def relocBytes (size : Cell) : Nat :=
  (size - 1#64).toNat / 8 / 8 + 1

/-- Read the relocation bits of a section, if it has some. -/
def readBits (section_ base size : Cell) (file : List Byte) : BitsRead :=
  if base = 0#64 ∨ base = 0x100#64 then
    if file.length < relocBytes size then .early file
    else .done (some (file.take (relocBytes size))) (file.drop (relocBytes size))
  else if base ≠ section_ then .wrongAddress
  else .done none file

/-- The file after the magic string, if a header follows. -/
def readMagic (file : List Byte) : Option (List Byte) :=
  if file.take 8 = sectionMagic ∧ 24 ≤ (file.drop 8).length then some (file.drop 8) else none

/-- The loop of {lit}`gforth_loader`, for section {lit}`i`, with the number of iterations left;
{lit}`none` where it refuses a nonrelocatable image -/
def loaderLoop (sections : Nat → Cell) :
    Nat → Nat → Cell → Cell → List Byte → List Byte → Option (List Loaded)
  | 0, _, _, _, bytes, _ => some [⟨bytes, none⟩]
  | fuel + 1, i, base, size, bytes, file =>
      match readBits (sections i) base size file with
      | .wrongAddress => none
      | .early bits => some [⟨bytes, some bits⟩]
      | .done bits file =>
          match readMagic file with
          | none => some [⟨bytes, bits⟩]
          | some file =>
              let size := sectDp file - sectStart file
              if file.length < size.toNat then some [⟨bytes, bits⟩, ⟨file, none⟩]
              else
                (loaderLoop sections fuel (i + 1) (inSection (sectStart file)) size
                  (file.take size.toNat) (file.drop size.toNat)).map (⟨bytes, bits⟩ :: ·)

/-- {lit}`gforth_loader`: the sections in the file, to be loaded at the given addresses -/
def gforthLoader (sections : Nat → Cell) (file : List Byte) : Option (List Loaded) :=
  let size := sectDp file - sectStart file
  loaderLoop sections 0xFE 0 (sectStart file) size (file.take size.toNat) (file.drop size.toNat)

end Image
end Gforth
