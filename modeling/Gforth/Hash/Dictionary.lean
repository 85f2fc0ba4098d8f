import Gforth.Hash.Names
import Gforth.Lib.Chains
import Gforth.Lib.Folds

/-!
# The hashed dictionary

The wordlists of the system with their linked lists of words, and the hash table
that all hashed wordlists share.  An entry of the table is a node of two cells, the
link to the next entry of its bucket and the word; free nodes are in a list of their
own.  The table can double in the middle of every operation that allocates an index
or enters a word, and doubling enters all words again.

The bound on the number of doublings in one operation is computed from the state;
an operation that exceeded it, or that accessed memory outside of the table, would
return {lit}`none`.
-/

namespace Gforth
namespace Hash

open Lib

/-! ## Words and wordlists -/

/-- A header of a word. -/
structure Nt where
  addr : Nat
  name : List Byte
deriving DecidableEq, Inhabited

/-- {lit}`listlfind` -/
def listlfind (s : List Byte) : List Nt → Option Nt
  | [] => none
  | longname1 :: rest =>
      if nameMatches s longname1.name then some longname1 else listlfind s rest

/-- The maps of wordlists: linked lists only, hashed, and the two case-sensitive
kinds that are hashed, too. -/
inductive WordlistMap
  | f83search
  | hashsearchMap
  | csWordlistSearchMap
  | tablesearchMap
deriving DecidableEq

/-- The reveal method of the map is {lit}`hashvoc-to` or {lit}`tablevoc-to`. -/
def WordlistMap.hashed : WordlistMap → Bool
  | WordlistMap.f83search => false
  | _ => true

/-- {lit}`wordlist-struct`: the words are in the order of the linked list, the latest
one first. -/
structure Wordlist where
  map : WordlistMap
  id : List Nt
  extend : Nat
deriving DecidableEq

/-- Wordlist identifiers. -/
abbrev Wid := Nat

/-- The roots of linked lists of nodes: {lit}`HashPointer`, with the free nodes, and the
cells of the hash table. -/
inductive Root
  | hashPointer
  | bucket (b : Nat)
deriving DecidableEq

/-- The state of the dictionary.  {lit}`hashTable` is the size of the table in cells, or
{lit}`none` as long as there is no table; {lit}`entry` is the second cell of the nodes;
{lit}`heapTop` is the first node that was not allocated yet. -/
structure State where
  hashbits : Nat
  hashTable : Option Nat
  links : Links Root
  entry : Nat → Nt
  heapTop : Nat
  hashIndex : Nat
  hashPop : Nat
  insRule : Bool
  revealed : Bool
  voclink : List Wid
  wordlist : Wid → Wordlist

/-- {lit}`Hashlen` -/
def State.hashlen (s : State) : Nat :=
  2 ^ s.hashbits

/-- Before the first wordlist is created. -/
def State.initial (hashbits : Nat) : State where
  hashbits := hashbits
  hashTable := none
  links := fun _ => 0
  entry := fun _ => default
  heapTop := 1
  hashIndex := 0
  hashPop := 0
  insRule := true
  revealed := false
  voclink := []
  wordlist := fun _ => ⟨WordlistMap.f83search, [], 0⟩

/-! ## Nodes -/

/-- {lit}`DelFix`, with {lit}`HashPointer` as root -/
def delFix (links : Links Root) (a : Nat) : Links Root :=
  pushLink links Root.hashPointer a

/-- The part of {lit}`NewFix` that reserves memory for {lit}`n` more nodes. -/
def moreFix (n : Nat) (s : State) : State :=
  { s with
    links := (List.range n).foldl (fun links i => delFix links (s.heapTop + i)) s.links
    heapTop := s.heapTop + n }

/-- The part of {lit}`NewFix` that takes the first free node and erases it. -/
def takeFix (s : State) : Nat × State :=
  let a := s.links (Loc.root Root.hashPointer)
  let links := Function.update s.links (Loc.root Root.hashPointer) (s.links (Loc.node a))
  (a, { s with
    links := Function.update links (Loc.node a) 0
    entry := Function.update s.entry a default })

/-- {lit}`NewFix`, for nodes of the hash table -/
def newFix (n : Nat) (s : State) : Nat × State :=
  takeFix (if s.links (Loc.root Root.hashPointer) = 0 then moreFix n s else s)

/-- {lit}`bucket`: the bucket of a name in a wordlist, if it is a cell of the table -/
def bucket (s : State) (name : List Byte) (w : Wid) : Option Root :=
  let b := (s.wordlist w).extend ^^^ hash s.hashbits name
  if s.hashTable.any (b < ·) then some (Root.bucket b) else none

/-- {lit}`hashlfind` -/
def hashlfind (s : State) (name : List Byte) : Nat → Nat → Option (Option Nt)
  | 0, _ => none
  | fuel + 1, a =>
      if a = 0 then some none
      else if nameMatches name (s.entry a).name then some (some (s.entry a))
      else hashlfind s name fuel (s.links (Loc.node a))

/-- {lit}`hash-find` -/
def hashFind (s : State) (name : List Byte) (w : Wid) : Option (Option Nt) := do
  let r ← bucket s name w
  hashlfind s name s.heapTop (s.links (Loc.root r))

/-! ## Entering words

The operations below take the doubling of the table as a parameter, so that each
doubling can count down the bound on further ones.
-/

/-- The part of {lit}`(reveal` that enters a word into its bucket, in front of the other
entries or, with {lit}`insRule` off, behind them. -/
def enter (s : State) (nt : Nt) (w : Wid) : Option State := do
  let r ← bucket s nt.name w
  let (a, s) := newFix 0x400 s
  let s := { s with entry := Function.update s.entry a nt }
  if s.insRule then
    some { s with links := pushLink s.links r a }
  else do
    let l ← lastLink s.links s.heapTop (Loc.root r)
    some { s with links := Function.update s.links l a }

/-- The part of {lit}`hash-alloc` that reserves an empty hash table if there is none. -/
def allocTable (s : State) : State :=
  if s.hashTable = none then
    { s with
      hashTable := some s.hashlen
      links := fun
        | Loc.root (Root.bucket _) => 0
        | l => s.links l }
  else s

/-- {lit}`hash-alloc`: the next {lit}`n` indices; the first of them and the state
afterwards -/
def hashAlloc (double : State → Option State) (n : Nat) (s : State) : Option (Nat × State) :=
  let s := allocTable s
  let i := s.hashIndex
  let s := { s with hashIndex := s.hashIndex + n }
  if s.hashlen ≤ s.hashIndex ∨ 2 * s.hashlen ≤ s.hashPop then
    (double s).map fun s => (i, s)
  else some (i, s)

/-- {lit}`(reveal` -/
def revealHash (double : State → Option State) (w : Wid) (s : State) (nt : Nt) :
    Option State := do
  let s ← enter s nt w
  let s := { s with revealed := true, hashPop := s.hashPop + 1 }
  (hashAlloc double 0 s).map (·.2)

/-- Store an index into {lit}`wordlist-extend`. -/
def setExtend (s : State) (w : Wid) (i : Nat) : State :=
  { s with wordlist := Function.update s.wordlist w { s.wordlist w with extend := i } }

/-- {lit}`inithash` -/
def inithash (double : State → Option State) (s : State) (w : Wid) : Option State := do
  let insRule := s.insRule
  let (i, s) ← hashAlloc double 1 { s with insRule := false }
  let s := setExtend s w i
  let s ← (s.wordlist w).id.foldlM (revealHash double w) s
  some { s with insRule := insRule }

/-- {lit}`addall` -/
def addall (double : State → Option State) (s : State) : Option State :=
  s.voclink.foldlM
    (fun s w => if (s.wordlist w).map.hashed then inithash double s w else some s)
    { s with hashPop := 0 }

/-- Free the entries of one bucket. -/
def clearBucket (s : State) (b : Nat) : Option State := do
  let r ← if s.hashTable.any (b < ·) then some (Root.bucket b) else none
  let links ← drain Root.hashPointer s.heapTop (s.links (Loc.root r)) s.links
  some { s with links := Function.update links (Loc.root r) 0 }

/-- The wordlists with the indices of those that {lit}`hash-find` searches reset. -/
def resetExtends (s : State) : Wid → Wordlist := fun w =>
  if w ∈ s.voclink ∧ (s.wordlist w).map = WordlistMap.hashsearchMap then
    { s.wordlist w with extend := 0 }
  else s.wordlist w

/-- {lit}`clearhash` -/
def clearhash (s : State) : Option State := do
  let s ← (List.range s.hashlen).foldlM clearBucket s
  some { s with hashIndex := 0, wordlist := resetExtends s }

/-- Without a table every bucket is empty. -/
def dropTable (s : State) : State :=
  { s with
    hashTable := none
    links := fun
      | Loc.root (Root.bucket _) => 0
      | l => s.links l }

/-- {lit}`hashdouble`, with at most {lit}`fuel` doublings inside each other -/
def hashdouble : Nat → State → Option State
  | 0, _ => none
  | fuel + 1, s => do
      let s ← clearhash s
      addall (hashdouble fuel) (dropTable { s with hashbits := s.hashbits + 1 })

/-! ## Operations -/

/-- The hashed ones among some wordlists. -/
def State.hashedAmong (s : State) (ws : List Wid) : List Wid :=
  ws.filter fun w => (s.wordlist w).map.hashed

/-- The number of words of some wordlists. -/
def State.wordsOf (s : State) (ws : List Wid) : Nat :=
  (ws.map fun w => (s.wordlist w).id.length).sum

/-- All hashed wordlists. -/
def State.hashedVocs (s : State) : List Wid :=
  s.hashedAmong s.voclink

/-- The number of words of all hashed wordlists. -/
def State.words (s : State) : Nat :=
  s.wordsOf s.hashedVocs

/-- A bound on the doublings inside each other in one operation. -/
def State.doublings (s : State) : Nat :=
  4 * (s.words + s.hashPop + 1) + 2

/-- {lit}`rehashall` -/
def rehashall (s : State) : Option State :=
  if s.revealed then do
    let fuel := s.doublings
    let s ← clearhash s
    let s ← addall (hashdouble fuel) s
    some { s with revealed := false }
  else some s

/-- {lit}`(rehash)` -/
def rehash (s : State) (w : Wid) : Option State :=
  if (s.wordlist w).extend = 0 then inithash (hashdouble s.doublings) s w else rehashall s

/-- {lit}`initwl`: the second method of a wordlist's map -/
def initwl (s : State) (w : Wid) : Option State :=
  if (s.wordlist w).map.hashed then rehash s w else some s

/-- {lit}`mappedwordlist`: the new wordlist is linked in before it is initialised -/
def mappedwordlist (s : State) (map : WordlistMap) : Option State :=
  let w := s.voclink.length
  initwl { s with
    voclink := w :: s.voclink
    wordlist := Function.update s.wordlist w ⟨map, [], 0⟩ } w

/-- {lit}`(nocheck-reveal)` -/
def nocheckReveal (s : State) (nt : Nt) (w : Wid) : State :=
  { s with
    wordlist := Function.update s.wordlist w
      { s.wordlist w with id := nt :: (s.wordlist w).id } }

/-- {lit}`reveal` with the methods {lit}`(reveal)`, {lit}`hash-reveal` and
{lit}`table-reveal`; only hidden words are revealed -/
def reveal (s : State) (nt : Nt) (w : Wid) : Option State :=
  if s.voclink.any fun w' => nt ∈ (s.wordlist w').id then some s
  else
    let s := nocheckReveal s nt w
    if (s.wordlist w).map.hashed then revealHash (hashdouble s.doublings) w s nt else some s

/-- {lit}`hash-cold` -/
def hashCold (s : State) : Option State :=
  addall (hashdouble s.doublings)
    { dropTable s with
      links := Function.update (dropTable s).links (Loc.root Root.hashPointer) 0
      hashIndex := 0 }

/-- What a program can do to the dictionary. -/
inductive Op
  | wordlist (map : WordlistMap)
  | reveal (nt : Nt) (w : Wid)
  | initwl (w : Wid)
  | cold

/-- One operation. -/
def State.step (s : State) : Op → Option State
  | Op.wordlist map => mappedwordlist s map
  | Op.reveal nt w => Hash.reveal s nt w
  | Op.initwl w => Hash.initwl s w
  | Op.cold => hashCold s

end Hash
end Gforth
