import Gforth.Characters.Garbage
import Gforth.Lib.ByteOrder
import Gforth.Lib.Heaps
import Gforth.Strings.Padding

/-!
# Dynamic strings

A string variable is a cell with the address of a buffer, or null.  The words work on variables and
on blocks that the C library has allocated.  They fail when there is no memory; an access outside of
the blocks is a fault.
-/

namespace Gforth
namespace Strings

open Lib
open Numbers
open Hash.Keys (CellSize)

/-- Where a word ends early -/
inductive Fault where
  /-- {lit}`throw` of {lit}`allocate` or {lit}`resize` -/
  | outOfMemory
  /-- An access that is not within a block -/
  | outside
deriving DecidableEq

/-- The variables, and the blocks that the C library has allocated -/
structure Store (V : Type) (c : CellSize) where
  vars : V → BitVec c.bits
  heap : Heap (BitVec c.bits) Byte

/-- A word of the system -/
abbrev Word (V : Type) (c : CellSize) (α : Type) : Type :=
  EStateM Fault (Store V c) α

/-- An address in a block -/
structure Ptr (c : CellSize) where
  block : BitVec c.bits
  offset : BitVec c.bits

/-- Address arithmetic -/
def Ptr.plus {c : CellSize} (p : Ptr c) (n : BitVec c.bits) : Ptr c :=
  ⟨p.block, p.offset + n⟩

/-- {lit}`c-addr u` -/
structure Text (c : CellSize) where
  addr : Ptr c
  len : BitVec c.bits

/-- {lit}`safe/string` -/
def Text.safeSlashString {c : CellSize} (t : Text c) (n : BitVec c.bits) : Text c :=
  let s := Characters.safeSlashString ⟨t.addr.offset, t.len⟩ n
  ⟨⟨t.addr.block, s.addr⟩, s.len⟩

variable {V : Type} [DecidableEq V] {c : CellSize}

/-! ## Memory -/

/-- {lit}`@` of a string variable -/
def fetchVar (v : V) : Word V c (BitVec c.bits) := do
  return (← get).vars v

/-- {lit}`!` to a string variable -/
def storeVar (a : BitVec c.bits) (v : V) : Word V c Unit :=
  modify fun st => { st with vars := Function.update st.vars v a }

def loadBytes (p : Ptr c) (n : BitVec c.bits) : Word V c (List Byte) := do
  match (← get).heap.read p.block p.offset.toNat n.toNat with
  | some t => return t
  | none => throw .outside

def storeBytes (t : List Byte) (p : Ptr c) : Word V c Unit := do
  let st ← get
  match st.heap.write p.block p.offset.toNat t with
  | some h => set { st with heap := h }
  | none => throw .outside

/-- {lit}`move` -/
def move (from_ to_ : Ptr c) (n : BitVec c.bits) : Word V c Unit := do
  storeBytes (← loadBytes from_ n) to_

/-- {lit}`fill` -/
def fill (p : Ptr c) (n : BitVec c.bits) (b : Byte) : Word V c Unit :=
  storeBytes (List.replicate n.toNat b) p

section Cells

variable (order : ByteOrder)

/-- {lit}`@` -/
def loadCell (p : Ptr c) : Word V c (BitVec c.bits) := do
  return order.load c.bits (← loadBytes p (cell c))

/-- {lit}`!` -/
def storeCell (x : BitVec c.bits) (p : Ptr c) : Word V c Unit :=
  storeBytes (order.store c.bytes x) p

end Cells

section Allocation

variable (alloc : Allocator (BitVec c.bits) Byte 0#c.bits)

/-- {lit}`allocate throw` -/
def allocate (u : BitVec c.bits) : Word V c (BitVec c.bits) := do
  let st ← get
  match alloc.malloc st.heap (if u = 0#_ then 1 else u.toNat) with
  | some (a, h) => set { st with heap := h }; return a
  | none => throw .outOfMemory

/-- {lit}`free throw` -/
def free (a : BitVec c.bits) : Word V c Unit := do
  let st ← get
  match st.heap a with
  | some _ => set { st with heap := Function.update st.heap a none }
  | none => throw .outside

/-- {lit}`resize throw`, where {lit}`0 resize` allocates -/
def resize (a u : BitVec c.bits) : Word V c (BitVec c.bits) := do
  let st ← get
  if a = 0#_ then
    match alloc.malloc st.heap u.toNat with
    | some (a, h) => set { st with heap := h }; return a
    | none => throw .outOfMemory
  else
    match st.heap a with
    | none => throw .outside
    | some b =>
        match alloc.realloc st.heap a b (if u = 0#_ then 1 else u.toNat) with
        | some (a, h) => set { st with heap := h }; return a
        | none => throw .outOfMemory

end Allocation

/-! ## Strings -/

section Strings

variable (order : ByteOrder) (alloc : Allocator (BitVec c.bits) Byte 0#c.bits)

/-- {lit}`$free` -/
def stringFree (v : V) : Word V c Unit := do
  let a ← fetchVar v
  storeVar 0#_ v
  if a ≠ 0#_ then free a

/-- {lit}`$make` -/
def stringMake (t : Text c) : Word V c (BitVec c.bits) := do
  let buf ← allocate alloc (padding c t.len)
  storeCell order t.len ⟨buf, 0#_⟩
  move t.addr ⟨buf, cell c⟩ t.len
  return buf

/-- {lit}`$@len` -/
def stringFetchLen (v : V) : Word V c (BitVec c.bits) := do
  let a ← fetchVar v
  if a ≠ 0#_ then loadCell order ⟨a, 0#_⟩ else return 0#_

/-- {lit}`$!len` where the size of the buffer changes -/
def resizeTo (n u : BitVec c.bits) (v : V) : Word V c Unit := do
  let a ← resize alloc (← fetchVar v) n
  storeVar a v
  storeCell order u ⟨← fetchVar v, 0#_⟩

/-- {lit}`$!len` -/
def stringStoreLen (u : BitVec c.bits) (v : V) : Word V c Unit := do
  let n := padding c u
  let a ← fetchVar v
  if a ≠ 0#_ then
    let len ← loadCell order ⟨a, 0#_⟩
    if padding c len = n then storeCell order u ⟨a, 0#_⟩ else resizeTo order alloc n u v
  else resizeTo order alloc n u v

/-- {lit}`$!` where the size of the buffer may change -/
def storeResized (t : Text c) (v : V) : Word V c Unit := do
  stringStoreLen order alloc t.len v
  move t.addr ⟨← fetchVar v, cell c⟩ t.len

/-- {lit}`$!` -/
def stringStore (t : Text c) (v : V) : Word V c Unit := do
  let a ← fetchVar v
  if a ≠ 0#_ then
    let n := padding c t.len
    let len ← loadCell order ⟨a, 0#_⟩
    if n = padding c len then
      storeCell order t.len ⟨a, 0#_⟩
      move t.addr ⟨a, cell c⟩ t.len
    else storeResized order alloc t v
  else storeResized order alloc t v

/-- {lit}`$@` -/
def stringFetch (v : V) : Word V c (Text c) := do
  let a ← fetchVar v
  if a ≠ 0#_ then return ⟨⟨a, cell c⟩, ← loadCell order ⟨a, 0#_⟩⟩ else return ⟨⟨0#_, 0#_⟩, 0#_⟩

/-- {lit}`$+!len` -/
def stringPlusStoreLen (u : BitVec c.bits) (v : V) : Word V c (Ptr c) := do
  let len ← stringFetchLen order v
  stringStoreLen order alloc (len + u) v
  return ⟨← fetchVar v, cell c + len⟩

/-- {lit}`$+!` -/
def stringPlusStore (t : Text c) (v : V) : Word V c Unit := do
  let p ← stringPlusStoreLen order alloc t.len v
  move t.addr p t.len

/-- {lit}`c$+!` -/
def cStringPlusStore (char : BitVec c.bits) (v : V) : Word V c Unit := do
  let len ← stringFetchLen order v
  stringStoreLen order alloc (len + 1#_) v
  let s ← stringFetch order v
  storeBytes [char.setWidth 8] (s.addr.plus (s.len - 1#_))

/-- {lit}`insert` -/
def insert (t s : Text c) : Word V c Unit := do
  let u := if s.len < t.len then s.len else t.len
  move s.addr (s.addr.plus u) (s.len - u)
  move t.addr s.addr u

/-- {lit}`$ins` -/
def stringIns (t : Text c) (v : V) (off : BitVec c.bits) : Word V c Unit := do
  let len ← stringFetchLen order v
  stringStoreLen order alloc (t.len + len) v
  let s ← stringFetch order v
  insert t (s.safeSlashString off)

/-- {lit}`delete` -/
def delete (s : Text c) (u : BitVec c.bits) : Word V c Unit := do
  let u := if s.len < u then s.len else u
  let left := s.len - u
  move (s.addr.plus u) s.addr left
  fill (s.addr.plus left) u 0x20#8

/-- {lit}`$del` -/
def stringDel (v : V) (off u : BitVec c.bits) : Word V c Unit := do
  let s ← stringFetch order v
  delete (s.safeSlashString off) u
  let rest := (← stringFetchLen order v) - u
  stringStoreLen order alloc (if rest.slt 0#_ then 0#_ else rest) v

/-- {lit}`$init` -/
def stringInit (v : V) : Word V c Unit := do
  let buf ← stringMake order alloc ⟨⟨0#_, 0#_⟩, 0#_⟩
  storeVar buf v

/-- {lit}`$room` -/
def stringRoom (u : BitVec c.bits) (v : V) : Word V c Unit := do
  let len ← stringFetchLen order v
  if u ≤ len then return ()
  else
    let p ← stringPlusStoreLen order alloc (u - len) v
    fill p (u - len) 0#8

/-- {lit}`$[]` -/
def stringArray (u : BitVec c.bits) (v : V) : Word V c (Ptr c) := do
  let off := u * cell c
  stringRoom order alloc (off + cell c) v
  let s ← stringFetch order v
  return s.addr.plus off

end Strings

/-! ## Stacks -/

section Stacks

variable (order : ByteOrder) (alloc : Allocator (BitVec c.bits) Byte 0#c.bits)

/-- {lit}`cell/` -/
def cellSlash (n : BitVec c.bits) : BitVec c.bits :=
  n.sshiftRight (if c.bytes = 8 then 3 else 2)

/-- The loop of {lit}`get-stack`, within some number of steps -/
def getLoop (a limit : BitVec c.bits) : Nat → BitVec c.bits → Word V c (List (BitVec c.bits))
  | 0, _ => throw .outside
  | n + 1, i => do
      let x ← loadCell order ⟨a, i⟩
      if i + cell c < limit then return x :: (← getLoop a limit n (i + cell c)) else return [x]

/-- {lit}`get-stack` -/
def getStack (v : V) : Word V c (List (BitVec c.bits)) := do
  let s ← stringFetch order v
  if s.len = 0#_ then return [cellSlash s.len]
  else
    let xs ← getLoop order s.addr.block (s.addr.offset + s.len) s.len.toNat s.addr.offset
    return xs ++ [cellSlash s.len]

/-- The loop of {lit}`set-stack` over the cells from the top of the data stack on -/
def setLoop (a limit : BitVec c.bits) : List (BitVec c.bits) → BitVec c.bits → Word V c Unit
  | [], _ => return ()
  | x :: xs, i => do
      storeCell order x ⟨a, i⟩
      if limit < i - cell c then setLoop a limit xs (i - cell c)

/-- {lit}`set-stack` -/
def setStack (xs : List (BitVec c.bits)) (v : V) : Word V c Unit := do
  stringStoreLen order alloc (BitVec.ofNat c.bits xs.length * cell c) v
  let s ← stringFetch order v
  let limit := s.addr.offset - cell c
  let i := s.addr.offset + s.len - cell c
  if limit < i then setLoop order s.addr.block limit xs.reverse i

/-- {lit}`>stack` -/
def toStack (x : BitVec c.bits) (v : V) : Word V c Unit := do
  let len ← stringFetchLen order v
  stringStoreLen order alloc (len + cell c) v
  let s ← stringFetch order v
  storeCell order x (s.addr.plus (s.len - cell c))

/-- {lit}`stack>` -/
def stackFrom (v : V) : Word V c (List (BitVec c.bits)) := do
  let s ← stringFetch order v
  if s.len ≠ 0#_ then
    let x ← loadCell order (s.addr.plus (s.len - cell c))
    let len ← stringFetchLen order v
    stringStoreLen order alloc (len - cell c) v
    return [x]
  else return []

/-- {lit}`>back` -/
def toBack (x : BitVec c.bits) (v : V) : Word V c Unit := do
  let len ← stringFetchLen order v
  stringStoreLen order alloc (len + cell c) v
  let s ← stringFetch order v
  move s.addr (s.addr.plus (cell c)) (s.len - cell c)
  let s ← stringFetch order v
  storeCell order x s.addr

end Stacks

end Strings
end Gforth
