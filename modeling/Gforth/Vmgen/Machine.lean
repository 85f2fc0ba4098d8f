import Gforth.Lib.Moves
import Gforth.Vmgen.Generator

/-!
# Generated statements and stack effects

The meaning of the generated statements on registers, variables and the memory of the stacks, and the
meaning of a stack effect: the items of the input side are popped, the C code computes those of the
output side, and these are pushed.

Stacks have no bottom here, so nothing depends on their depths.  The C code is known by its action on
the variables, on the stacks that are synced, and on the rest of the world.
-/

namespace Gforth
namespace Vmgen

open Lib

variable {V W : Type*}

/-! ## Statements -/

/-- A place, with the address of a cell -/
inductive Loc
  | reg (r : Reg)
  | cell (stack : Nat) (address : Int)
  | var (name : String) (part : Nat)
  | temp (stack : Nat) (n : Int)
deriving DecidableEq

/-- The state of the machine -/
structure Machine (V W : Type*) where
  pointer : Nat → Int
  cells : Loc → V
  world : W

/-- Where a place is -/
def Place.loc (pointer : Nat → Int) : Place → Loc
  | reg r => .reg r
  | cell k index => .cell k (pointer k + index)
  | var name part => .var name part
  | temp k n => .temp k n

/-- One statement, for some C code -/
def Stmt.run (code : Machine V W → Machine V W) (m : Machine V W) : Stmt → Machine V W
  | .assign target source =>
      { m with cells := Lib.assign m.cells ⟨target.loc m.pointer, source.loc m.pointer⟩ }
  | .update k n => { m with pointer := Function.update m.pointer k (m.pointer k + n) }
  | .code => code m

/-- Statements one after the other -/
def run (code : Machine V W → Machine V W) (m : Machine V W) (stmts : List Stmt) : Machine V W :=
  stmts.foldl (Stmt.run code) m

theorem run_append (code : Machine V W → Machine V W) (m : Machine V W) (l l' : List Stmt) :
    run code m (l ++ l') = run code (run code m l) l' := by
  simp [run]

@[simp]
theorem run_nil (code : Machine V W → Machine V W) (m : Machine V W) : run code m [] = m :=
  rfl

@[simp]
theorem run_cons (code : Machine V W → Machine V W) (m : Machine V W) (stmt : Stmt)
    (l : List Stmt) : run code m (stmt :: l) = run code (stmt.run code m) l :=
  rfl

/-- Statements that are assignments, as moves between places -/
def stmtsOfMoves (ms : List (Move Place)) : List Stmt :=
  ms.map fun m => .assign m.target m.source

/-- Moves between places, for given pointers -/
def locMoves (pointer : Nat → Int) (ms : List (Move Place)) : List (Move Loc) :=
  ms.map fun m => ⟨m.target.loc pointer, m.source.loc pointer⟩

/-- Moves run as moves between cells. -/
theorem run_stmtsOfMoves (code : Machine V W → Machine V W) (m : Machine V W)
    (ms : List (Move Place)) :
    run code m (stmtsOfMoves ms) = { m with cells := assignAll m.cells (locMoves m.pointer ms) } := by
  induction ms generalizing m with
  | nil => rfl
  | cons move ms ih =>
      unfold stmtsOfMoves at ih ⊢
      rw [List.map_cons, run_cons, ih]
      rfl

/-! ## Stack effects -/

/-- The operands of an instruction, the stacks, the variables, and the rest of the world -/
structure Scene (V W : Type*) where
  operands : Nat → V
  stack : Nat → Nat → V
  vars : String → Nat → V
  world : W

/-- A stack with one more value -/
def push (v : V) (s : Nat → V) : Nat → V
  | 0 => v
  | n + 1 => s n

@[simp]
theorem push_zero (v : V) (s : Nat → V) : push v s 0 = v :=
  rfl

@[simp]
theorem push_succ (v : V) (s : Nat → V) (n : Nat) : push v s (n + 1) = s n :=
  rfl

/-- Set the value of a variable. -/
def setVar (vars : String → Nat → V) (name : String) (part : Nat) (v : V) : String → Nat → V :=
  Function.update vars name (Function.update (vars name) part v)

namespace Decl

/-- Take an item from the front of the operands. -/
def takeOperand (s : Scene V W) (d : Decl) : Scene V W :=
  if d.stack = instStream then
    match d.type with
    | .single =>
        { s with
          operands := fun n => s.operands (n + 1)
          vars := setVar s.vars d.name 0 (s.operands 0) }
    | .double =>
        { s with
          operands := fun n => s.operands (n + 2)
          vars := setVar (setVar s.vars d.name 1 (s.operands 0)) d.name 0 (s.operands 1) }
  else s

/-- Pop an item. -/
def pop (d : Decl) (s : Scene V W) : Scene V W :=
  if d.stack = instStream then s
  else
    match d.type with
    | .single =>
        { s with
          stack := Function.update s.stack d.stack fun n => s.stack d.stack (n + 1)
          vars := setVar s.vars d.name 0 (s.stack d.stack 0) }
    | .double =>
        { s with
          stack := Function.update s.stack d.stack fun n => s.stack d.stack (n + 2)
          vars := setVar (setVar s.vars d.name 1 (s.stack d.stack 0)) d.name 0
            (s.stack d.stack 1) }

/-- Push an item. -/
def push (vars : String → Nat → V) (stack : Nat → Nat → V) (d : Decl) : Nat → Nat → V :=
  match d.type with
  | .single => Function.update stack d.stack (Vmgen.push (vars d.name 0) (stack d.stack))
  | .double =>
      Function.update stack d.stack
        (Vmgen.push (vars d.name 1) (Vmgen.push (vars d.name 0) (stack d.stack)))

end Decl

/-- What a primitive does: the items on its input side are popped, the leftmost one last, {lit}`act`
is what its C code does, and the items on its output side are pushed, the leftmost one first. -/
def Prim.effect (p : Prim) (act : Scene V W → Scene V W) (s : Scene V W) : Scene V W :=
  let popped := act (p.declsIn.foldr Decl.pop (p.declsIn.foldl Decl.takeOperand s))
  { popped with stack := p.declsOut.foldl (Decl.push popped.vars) popped.stack }

/-! ## C code -/

/-- The stacks as they are if all items are in memory at the stack pointer -/
def Machine.memory (vm : Vm) (m : Machine V W) (k n : Nat) : V :=
  m.cells (.cell k (m.pointer k + vm.stackAccessTransform k n))

/-- The variables of the machine -/
def Machine.vars (m : Machine V W) (name : String) (part : Nat) : V :=
  m.cells (.var name part)

/-- The variables, the world and the stacks that are synced are the same. -/
structure SameFor (sync : Nat → Bool) (s s' : Scene V W) : Prop where
  vars : s.vars = s'.vars
  world : s.world = s'.world
  stack : ∀ k, sync k = true → s.stack k = s'.stack k

/-- What the C code of a primitive sees if its stacks are in memory -/
def Machine.scene (vm : Vm) (m : Machine V W) (operands : Nat → V) : Scene V W where
  operands := operands
  stack := m.memory vm
  vars := m.vars
  world := m.world

/-- The C code of a primitive: its action, and a program on the machine that has this action where
the stacks that are synced are in memory -/
structure Code (vm : Vm) (p : Prim) (V W : Type*) where
  act : Scene V W → Scene V W
  /-- Only stacks that are synced are known and changed. -/
  act_same : ∀ s s', SameFor p.stacksSync s s' → SameFor p.stacksSync (act s) (act s')
  act_stacks : ∀ s k, p.stacksSync k = false → (act s).stack k = s.stack k
  /-- Items on both sides keep their values, as far as stores of them are optimized away. -/
  act_vars : vm.storeOptimization = true → ∀ s, ∀ d ∈ p.declsIn, ∀ d' ∈ p.declsOut, d.name = d'.name →
    (act s).vars d.name = s.vars d.name
  program : Machine V W → Machine V W
  program_same : ∀ m operands,
    SameFor p.stacksSync ((program m).scene vm operands) (act (m.scene vm operands))
  program_reg : ∀ m r, (program m).cells (.reg r) = m.cells (.reg r)
  program_temp : ∀ m k n, (program m).cells (.temp k n) = m.cells (.temp k n)
  program_pointer : ∀ m k, k ≠ instStream → p.stacksSync k = false →
    (program m).pointer k = m.pointer k
  program_cell : ∀ m k a, k ≠ instStream → p.stacksSync k = false →
    (program m).cells (.cell k a) = m.cells (.cell k a)

/-- The stacks as they are in a cache state -/
def Machine.view (vm : Vm) (st : State) (m : Machine V W) (k n : Nat) : V :=
  m.cells ((vm.normalStackAccess n k st).loc m.pointer)

end Vmgen
end Gforth
