import Mathlib.Data.Int.Notation
import Mathlib.Logic.Function.Basic

/-!
# Method maps

The words of {lit}`objects.fs` that define interfaces, classes and their methods.  A map is given by
the cells around the place that objects point to: at negative offsets are the interface maps, and at
positive ones the methods.  All sizes and offsets are in cells.  The map of a class is in memory of
its own, and it is moved when it grows; the maps of interfaces are shared, and have addresses.
-/

namespace Gforth
namespace Objects

variable {X : Type}

/-- What is in the cell of a map: an execution token, the address of an interface map, an interface
or a class, or zero -/
inductive Cell (X : Type) where
  | xt (x : X)
  | map (a : Nat)
  | definition (d : Nat)
  | zero
deriving DecidableEq

/-- The memory around a place -/
abbrev Map (X : Type) : Type :=
  Int → Cell X

/-- The cells of one map between two places, and otherwise those of another one -/
def copy (lo hi : Int) (m other : Map X) : Map X :=
  fun i => if lo ≤ i ∧ i < hi then m i else other i

theorem copy_of_mem {lo hi i : Int} (m other : Map X) (hlo : lo ≤ i) (hhi : i < hi) :
    copy lo hi m other i = m i :=
  if_pos ⟨hlo, hhi⟩

/-- {lit}`interface%` and {lit}`class%`: the map and its size, and the other fields -/
structure Definition (X : Type) where
  map : Map X
  size : Int
  mapOffset : Int
  interfaceOffset : Int
  classParent : Option Nat

/-- {lit}`selector%`, and which of {lit}`do-interface-method` and {lit}`do-class-method` the word
does -/
structure Selector where
  offset : Int
  interface : Int
  isInterface : Bool

/-- The interfaces and classes, the selectors, the interface maps with the number of allocations so
far, and the variables {lit}`current-interface` and {lit}`last-interface-offset` -/
structure State (X : Type) where
  defs : Nat → Definition X
  defCount : Nat
  selectors : Nat → Selector
  selectorCount : Nat
  maps : Nat → Map X
  next : Nat
  current : Nat
  lastInterfaceOffset : Int

namespace State

/-- The current definition -/
def currentDef (st : State X) : Definition X :=
  st.defs st.current

/-- The current definition is changed. -/
def set (st : State X) (d : Definition X) : State X :=
  { st with defs := Function.update st.defs st.current d }

end State

/-! ## Definitions -/

variable (around : Nat → Map X)

/-- The cells of the map of a definition in other memory -/
def Definition.moved (d : Definition X) (other : Map X) : Map X :=
  copy (-d.mapOffset) (d.size - d.mapOffset) d.map other

/-- {lit}`interface`; {lit}`around` is the memory around what is allocated. -/
def interface (st : State X) : State X :=
  let offset := st.lastInterfaceOffset - 1
  { st with
    defs := Function.update st.defs st.defCount
      { map := Function.update (around st.next) 0 (.definition st.defCount)
        size := 1
        mapOffset := 0
        interfaceOffset := offset
        classParent := none }
    defCount := st.defCount + 1
    next := st.next + 1
    current := st.defCount
    lastInterfaceOffset := offset }

/-- {lit}`class` -/
def class' (parent : Nat) (st : State X) : State X :=
  let d := st.defs parent
  { st with
    defs := Function.update st.defs st.defCount
      { map := Function.update (d.moved (around st.next)) 0 (.definition st.defCount)
        size := d.size
        mapOffset := d.mapOffset
        interfaceOffset := 0
        classParent := some parent }
    defCount := st.defCount + 1
    next := st.next + 1
    current := st.defCount }

/-- {lit}`end-interface`; for maps, {lit}`end-class` does the same. -/
def endInterface (st : State X) : State X :=
  { st.set { st.currentDef with map := st.currentDef.moved (around st.next) } with
    next := st.next + 1 }

/-- {lit}`method` -/
def method (xt : X) (st : State X) : State X :=
  let d := st.currentDef
  let offset := d.size - d.mapOffset
  { st.set { d with
      map := Function.update (d.moved (around st.next)) offset (.xt xt)
      size := d.size + 1 } with
    selectors := Function.update st.selectors st.selectorCount
      ⟨offset, d.interfaceOffset, d.interfaceOffset ≠ 0⟩
    selectorCount := st.selectorCount + 1
    next := st.next + 1 }

/-! ## Implementations -/

/-- The first part of {lit}`implementation`: the map of the class is extended at the front if the
interface does not fit. -/
def frontExtend (offset : Int) (other : Map X) (d : Definition X) : Definition X :=
  let n := -d.mapOffset - offset
  if 0 < n then
    { d with
      map := copy offset (-d.mapOffset) (fun _ => .zero) (d.moved other)
      size := d.size + n
      mapOffset := -offset }
  else d

/-- {lit}`implementation` -/
def implementation (i : Nat) (st : State X) : State X :=
  let interface := st.defs i
  let offset := interface.interfaceOffset
  let d := frontExtend offset (around st.next) st.currentDef
  let a := st.next + 1
  { st.set { d with map := Function.update d.map offset (.map a) } with
    maps := Function.update st.maps a
      (copy 0 interface.size (fun j => interface.map (j - interface.mapOffset)) (around a))
    next := st.next + 2 }

/-! ## Overriding -/

section

variable [DecidableEq X]

/-- {lit}`unique-interface-map`, for the map of a class; it fails where something else is taken for
an address. -/
def uniqueInterfaceMap (c : Nat) (offset : Int) (st : State X) : Option (State X) :=
  let classMap := (st.defs c).map
  match classMap 0 with
  | .definition c' =>
      match (st.defs c').classParent with
      | none => none
      | some p =>
          -- the slot of the parent may be in front of its map
          if classMap offset = (st.defs p).map offset then
            match classMap offset with
            | .map a =>
                match st.maps a 0 with
                | .definition i =>
                    some { st with
                      maps := Function.update st.maps st.next
                        (copy 0 (st.defs i).size (st.maps a) (around st.next))
                      next := st.next + 1
                      defs := Function.update st.defs c
                        { st.defs c with map := Function.update classMap offset (.map st.next) } }
                | _ => none
            | _ => none
          else some st
  | _ => none

/-- {lit}`class-override!`, for the map of a class -/
def classOverride (xt : X) (s c : Nat) (st : State X) : Option (State X) :=
  let sel := st.selectors s
  if sel.interface ≠ 0 then
    match uniqueInterfaceMap around c sel.interface st with
    | none => none
    | some st =>
        match (st.defs c).map sel.interface with
        | .map a =>
            some { st with
              maps := Function.update st.maps a (Function.update (st.maps a) sel.offset (.xt xt)) }
        | _ => none
  else
    some { st with
      defs := Function.update st.defs c
        { st.defs c with map := Function.update (st.defs c).map sel.offset (.xt xt) } }

/-- {lit}`overrides` -/
def overrides (xt : X) (s : Nat) (st : State X) : Option (State X) :=
  classOverride around xt s st.current st

end

/-! ## Selecting methods -/

/-- The cell for a selector in a map, if {lit}`selector-interface` is used or not -/
def select (st : State X) (map : Map X) (sel : Selector) (isInterface : Bool) : Option (Cell X) :=
  if isInterface then
    match map sel.interface with
    | .map a => some (st.maps a sel.offset)
    | _ => none
  else some (map sel.offset)

/-- {lit}`<bind>` -/
def bind (st : State X) (c s : Nat) : Option (Cell X) :=
  let sel := st.selectors s
  select st (st.defs c).map sel (sel.interface ≠ 0)

/-- An object, with the class whose map it points to -/
structure Object where
  objectMap : Nat

/-- {lit}`init-object` -/
def initObject (c : Nat) : Object :=
  ⟨c⟩

/-- What a selector executes on an object -/
def execute (st : State X) (o : Object) (s : Nat) : Option (Cell X) :=
  let sel := st.selectors s
  select st (st.defs o.objectMap).map sel sel.isInterface

/-! ## Programs -/

/-- The words of a program that defines interfaces and classes -/
inductive Command (X : Type) where
  | interface
  | endInterface
  | class' (parent : Nat)
  | endClass
  | method (xt : X)
  | selector
  | overrides (xt : X) (s : Nat)
  | implementation (i : Nat)

/-- The class {lit}`object` at its start, with its map -/
def start : State X where
  defs := fun _ =>
    { map := Function.update (around 0) 0 (.definition 0)
      size := 1
      mapOffset := 0
      interfaceOffset := 0
      classParent := none }
  defCount := 1
  selectors := fun _ => ⟨0, 0, false⟩
  selectorCount := 0
  maps := around
  next := 1
  current := 0
  lastInterfaceOffset := 0

variable (noMethod : X) [DecidableEq X]

/-- One word -/
def step (st : State X) : Command X → Option (State X)
  | .interface => some (interface around st)
  | .endInterface | .endClass => some (endInterface around st)
  | .class' parent => some (class' around parent st)
  | .method xt => some (method around xt st)
  | .selector => some (method around noMethod st)
  | .overrides xt s => overrides around xt s st
  | .implementation i => some (implementation around i st)

/-- A program -/
def run (st : State X) : List (Command X) → Option (State X)
  | [] => some st
  | cmd :: cmds => (step around noMethod st cmd).bind fun st => run st cmds

end Objects
end Gforth
