import Gforth.Wrappers.Generation

/-!
# Calls of C functions

A wrapper in terms of what it does: the arguments that it takes from the stacks, where it stores the
result, and how it changes the stack pointers.  The stacks grow downwards; an index counts from the
top.

Main results:

- Theorem {lit}`Declaration.wrapper_implements`: the wrapper of a declaration has the stack effect of
  the declaration.
-/

namespace Gforth
namespace Wrappers

open Lib

/-! ## Stacks -/

variable {F : Type}

/-- The stacks from the stack pointers on -/
structure Stacks (F : Type) where
  sp : Int → BitVec 64
  fp : Int → F

/-- An item of a stack effect; the first cell of a pair is the deeper one. -/
inductive Value (F : Type) where
  | cell (c : BitVec 64)
  | pair (c1 c2 : BitVec 64)
  | float (x : F)
  | nothing

/-- The value has the shape of a type. -/
def Value.HasType : Value F → LibccType → Prop
  | .cell _, .n | .cell _, .u | .cell _, .a | .cell _, .func => True
  | .pair _ _, .d | .pair _ _, .ud | .pair _ _, .s | .pair _ _, .ws => True
  | .float _, .r => True
  | .nothing, .void | .nothing, .null => True
  | _, _ => False

/-- The cells of a type -/
def cells : LibccType → Int
  | .n | .u | .a | .func | .t => 1
  | .d | .ud | .s | .ws => 2
  | .r | .void | .null => 0

/-- The floats of a type -/
def floats : LibccType → Int
  | .r => 1
  | _ => 0

namespace Stacks

/-- Push a cell. -/
def pushCell (st : Stacks F) (c : BitVec 64) : Stacks F :=
  { st with sp := fun i => if i = 0 then c else st.sp (i - 1) }

/-- Push a float. -/
def pushFloat (st : Stacks F) (x : F) : Stacks F :=
  { st with fp := fun i => if i = 0 then x else st.fp (i - 1) }

/-- Push an item. -/
def push (st : Stacks F) : Value F → Stacks F
  | .cell c => st.pushCell c
  | .pair c1 c2 => (st.pushCell c1).pushCell c2
  | .float x => st.pushFloat x
  | .nothing => st

/-- Push the items of a stack effect. -/
def pushAll (st : Stacks F) (values : List (Value F)) : Stacks F :=
  values.foldl push st

/-- The stacks are the same from the top on. -/
def Agree (st st' : Stacks F) : Prop :=
  ∀ i, 0 ≤ i → st.sp i = st'.sp i ∧ st.fp i = st'.fp i

end Stacks

/-! ## Wrappers -/

/-- An argument in C, with its casts; the numbers are the indices on the stacks. -/
inductive Arg where
  | cell (cast : List Byte) (i : Int)
  | pointer (cast : List Byte) (i : Int)
  | longLong (cast : List Byte) (lo hi : Int)
  | string (cast : List Byte) (addr u : Int)
  | wide (cast : List Byte) (addr u : Int)
  | float (cast : List Byte) (i : Int)
  | null (cast : List Byte)

/-- What is called -/
inductive Callee where
  | func (name : List Byte) (args : List Arg)
  | const (name : List Byte)
  | var (name : List Byte)

/-- Where the result is stored -/
inductive Target where
  | cell (i : Int)
  | pointer (i : Int)
  | longLong (lo hi : Int)
  | unsignedLongLong (lo hi : Int)
  | string (addr u : Int)
  | float (i : Int)
  | nowhere

/-- A wrapper -/
structure Wrapper where
  arg0 : Int
  farg0 : Int
  callee : Callee
  target : Target
  spChange : Int
  fpChange : Int

/-! ## Printing -/

/-- An index on the data stack -/
def spIndex (i : Int) : List Piece :=
  [.lit "x.spx[", .num i, .lit "]"]

/-- Two cells as arguments -/
def pairText (open' : String) (cast : List Byte) (i j : Int) : List Piece :=
  questionReturn cast ++ .lit open' :: spIndex i ++ .lit "," :: spIndex j ++ [.lit ")"]

/-- The text of an argument -/
def Arg.text : Arg → List Piece
  | .cell cast i => .text cast :: spIndex i
  | .pointer cast i => pointerCast cast ++ .lit "(" :: spIndex i ++ [.lit ")"]
  | .longLong cast lo hi => pairText "gforth_d2ll(" cast lo hi
  | .string cast addr u => pairText "gforth_str2c((Char*)" cast addr u
  | .wide cast addr u => pairText "gforth_str2wc((Char*)" cast addr u
  | .float cast i => questionReturn cast ++ [.lit "x.fpx[", .num i, .lit "]"]
  | .null cast => questionReturn cast ++ [.lit "NULL"]

/-- The text of the arguments -/
def argsText : List Arg → List Piece
  | [] => []
  | [arg] => arg.text
  | arg :: args => arg.text ++ .lit "," :: argsText args

/-- The text of a call -/
def Callee.text : Callee → List Piece
  | .func name args => [.text name, .lit "("] ++ argsText args ++ [.lit ")"]
  | .const name => [.lit "(", .text name, .lit ")"]
  | .var name => [.lit "&(", .text name, .lit ")"]

/-- What is called -/
def Callee.name : Callee → List Byte
  | .func name _ => name
  | .const name => name
  | .var name => name

/-- A call whose result is stored in two cells -/
def pairTarget (open' : String) (call : List Piece) (i j : Int) : List Piece :=
  .lit open' :: call ++ .lit "," :: spIndex i ++ .lit "," :: spIndex j ++ [.lit ")"]

/-- The text of a call whose result is stored -/
def Target.text (call : List Piece) : Target → List Piece
  | .cell i => spIndex i ++ .lit "=" :: call
  | .pointer i => spIndex i ++ .lit "=(Cell)" :: call
  | .longLong lo hi => pairTarget "gforth_ll2d(" call lo hi
  | .unsignedLongLong lo hi => pairTarget "gforth_ll2ud(" call lo hi
  | .string addr u => pairTarget "c_str2gforth_str(" call addr u
  | .float i => [.lit "x.fpx[", .num i, .lit "]"] ++ .lit "=" :: call
  | .nowhere => call

/-- The text of a wrapper from {lit}`ARGN` on -/
def Wrapper.text (g : Settings) (w : Wrapper) : List Piece :=
  [.lit "  ARGN(", .num w.arg0, .lit ",", .num w.farg0, .lit ");\n  "] ++
    (if g.isWeak then [.lit "if(", .text w.callee.name, .lit ") \x7b\n    "] else []) ++
    w.target.text w.callee.text ++ [.lit ";\n"] ++
    (if g.isWeak then [.lit "\x7d else \x7b gforth_fail(); \x7d\n"] else []) ++
    ((if w.spChange ≠ 0 then [.lit "  x.spx += ", .num w.spChange, .lit ";\n"] else []) ++
      (if w.fpChange ≠ 0 then [.lit "  x.fpx += ", .num w.fpChange, .lit ";\n"] else []) ++
      [.lit "  return x;\n\x7d\n"])

/-! ## Execution -/

/-- The value of an argument -/
inductive ArgValue (F : Type) where
  | cell (cast : List Byte) (c : BitVec 64)
  | pointer (cast : List Byte) (c : BitVec 64)
  | longLong (lo hi : BitVec 64)
  | string (addr u : BitVec 64)
  | wide (addr u : BitVec 64)
  | float (x : F)
  | null

/-- An argument is taken from the stacks. -/
def Arg.eval (st : Stacks F) : Arg → ArgValue F
  | .cell cast i => .cell cast (st.sp i)
  | .pointer cast i => .pointer cast (st.sp i)
  | .longLong _ lo hi => .longLong (st.sp lo) (st.sp hi)
  | .string _ addr u => .string (st.sp addr) (st.sp u)
  | .wide _ addr u => .wide (st.sp addr) (st.sp u)
  | .float _ i => .float (st.fp i)
  | .null _ => .null

/-- The C functions, values and variables; the results are given as items. -/
structure Environment (F : Type) where
  func : List Byte → List (ArgValue F) → Value F
  const : List Byte → Value F
  var : List Byte → Value F

/-- The function that is called with its arguments, and its result -/
def Callee.eval (env : Environment F) (st : Stacks F) : Callee → List (ArgValue F) × Value F
  | .func name args => (args.map (Arg.eval st), env.func name (args.map (Arg.eval st)))
  | .const name => ([], env.const name)
  | .var name => ([], env.var name)

/-- The result is stored. -/
def Target.store (st : Stacks F) : Target → Value F → Stacks F
  | .cell i, .cell c | .pointer i, .cell c => { st with sp := Function.update st.sp i c }
  | .longLong i j, .pair c1 c2 | .unsignedLongLong i j, .pair c1 c2 | .string i j, .pair c1 c2 =>
      { st with sp := Function.update (Function.update st.sp i c1) j c2 }
  | .float i, .float x => { st with fp := Function.update st.fp i x }
  | _, _ => st

/-- The arguments of the call, and the stacks after a wrapper -/
def Wrapper.exec (w : Wrapper) (env : Environment F) (st : Stacks F) :
    List (ArgValue F) × Stacks F :=
  let (args, result) := w.callee.eval env st
  let st' := w.target.store st result
  (args, ⟨fun i => st'.sp (i + w.spChange), fun i => st'.fp (i + w.fpChange)⟩)

/-! ## Declarations -/

/-- The argument for an item of the declared stack effect -/
def argValue (i : Item) : Value F → ArgValue F
  | .cell c =>
      match i.type with
      | .a | .func => .pointer i.cast c
      | _ => .cell i.cast c
  | .pair c1 c2 =>
      match i.type with
      | .s => .string c1 c2
      | .ws => .wide c1 c2
      | _ => .longLong c1 c2
  | .float x => .float x
  | .nothing => .null

namespace Declaration

/-- The declared parameters -/
def pars : Declaration → List Item
  | .function pars _ _ => pars
  | _ => []

/-- The declared type of the result -/
def ret : Declaration → LibccType
  | .function _ ret _ => ret.type
  | .value i _ => i.type
  | .variable _ => .a

/-- The result for the arguments -/
def result (env : Environment F) (args : List (ArgValue F)) : Declaration → Value F
  | .function _ _ name => env.func name args
  | .value _ name => env.const name
  | .variable name => env.var name

end Declaration

/-- The values have the types of the items. -/
def HasTypes (values : List (Value F)) (items : List Item) : Prop :=
  List.Forall₂ (fun v (i : Item) => v.HasType i.type) values items

/-- The wrapper has the declared stack effect: it takes the items from the stacks as the arguments,
and pushes the result. -/
def Implements (w : Wrapper) (d : Declaration) : Prop :=
  ∀ (F : Type) (env : Environment F) (st : Stacks F) (values : List (Value F)),
    HasTypes values d.pars →
    (∀ args, (d.result env args).HasType d.ret) →
    let args := List.zipWith argValue d.pars values
    let r := w.exec env (st.pushAll values)
    r.1 = args ∧ r.2.Agree (st.push (d.result env args))

/-! ## Wrappers of declarations -/

/-- The cells of a list of items -/
def itemCells (items : List Item) : Int :=
  (items.map fun i => cells i.type).sum

/-- The floats of a list of items -/
def itemFloats (items : List Item) : Int :=
  (items.map fun i => floats i.type).sum

@[simp] theorem itemCells_cons (i : Item) (items : List Item) :
    itemCells (i :: items) = cells i.type + itemCells items := by
  simp [itemCells]

@[simp] theorem itemFloats_cons (i : Item) (items : List Item) :
    itemFloats (i :: items) = floats i.type + itemFloats items := by
  simp [itemFloats]

/-- The argument for the deepest item of what is on the stacks -/
def Item.arg (i : Item) (fp sp : Int) : Arg :=
  match i.type with
  | .n | .u => .cell i.cast (sp - 1)
  | .a | .func => .pointer i.cast (sp - 1)
  | .d | .ud => .longLong i.cast (sp - 1) (sp - 2)
  | .s => .string i.cast (sp - 1) (sp - 2)
  | .ws => .wide i.cast (sp - 1) (sp - 2)
  | .r => .float i.cast (fp - 1)
  | .void | .t | .null => .null i.cast

/-- The arguments for the items on the stacks -/
def itemArgs : List Item → Int → Int → List Arg
  | [], _, _ => []
  | i :: items, fp, sp => i.arg fp sp :: itemArgs items (fp - floats i.type) (sp - cells i.type)

/-- The place of the result -/
def returnTarget (fp sp : Int) : LibccType → Target
  | .n | .u => .cell (sp - 1)
  | .a | .func | .ws => .pointer (sp - 1)
  | .d => .longLong (sp - 1) (sp - 2)
  | .ud => .unsignedLongLong (sp - 1) (sp - 2)
  | .s => .string (sp - 1) (sp - 2)
  | .r => .float (fp - 1)
  | .void | .t | .null => .nowhere

namespace Declaration

/-- What a declaration calls -/
def callee : Declaration → Callee
  | .function pars _ name => .func name (itemArgs pars (itemFloats pars) (itemCells pars))
  | .value _ name => .const name
  | .variable name => .var name

/-- The wrapper of a declaration -/
def wrapper (d : Declaration) : Wrapper :=
  { arg0 := itemCells d.pars - 1
    farg0 := itemFloats d.pars - 1
    callee := d.callee
    target := returnTarget (itemFloats d.pars) (itemCells d.pars) d.ret
    spChange := itemCells d.pars - cells d.ret
    fpChange := itemFloats d.pars - floats d.ret }

/-- The types are those of parameters and of results. -/
def Typed (d : Declaration) : Prop :=
  (∀ i ∈ d.pars, i.type ≠ .void ∧ i.type ≠ .t) ∧ d.ret ≠ .ws ∧ d.ret ≠ .t ∧ d.ret ≠ .null

end Declaration

/-! ## Stack effects -/

theorem Stacks.push_sp {st : Stacks F} {v : Value F} {ty : LibccType} (hv : v.HasType ty) {i : Int}
    (hi : cells ty ≤ i) : (st.push v).sp i = st.sp (i - cells ty) := by
  have hpair : 2 ≤ i → ∀ c1 c2, (st.push (.pair c1 c2)).sp i = st.sp (i - 2) := by
    intro h c1 c2
    simp only [push, pushCell]
    rw [if_neg (by omega), if_neg (by omega)]
    congr 1
    omega
  cases v with
  | cell c =>
    have hcell : cells ty = 1 := by cases ty <;> simp_all [Value.HasType, cells]
    rw [hcell] at hi ⊢
    exact if_neg (by omega)
  | pair c1 c2 =>
    have hcells : cells ty = 2 := by cases ty <;> simp_all [Value.HasType, cells]
    rw [hcells] at hi ⊢
    exact hpair hi c1 c2
  | float x | nothing =>
    have hcells : cells ty = 0 := by cases ty <;> simp_all [Value.HasType, cells]
    rw [hcells, Int.sub_zero]
    rfl

theorem Stacks.push_fp {st : Stacks F} {v : Value F} {ty : LibccType} (hv : v.HasType ty) {i : Int}
    (hi : floats ty ≤ i) : (st.push v).fp i = st.fp (i - floats ty) := by
  cases v with
  | float x =>
    have hfloat : floats ty = 1 := by cases ty <;> simp_all [Value.HasType, floats]
    rw [hfloat] at hi ⊢
    exact if_neg (by omega)
  | cell | pair | nothing =>
    have hfloats : floats ty = 0 := by cases ty <;> simp_all [Value.HasType, floats]
    rw [hfloats, Int.sub_zero]
    rfl

/-- What is below the items of a stack effect is where it was. -/
theorem Stacks.pushAll_below {values : List (Value F)} {items : List Item}
    (h : HasTypes values items) (st : Stacks F) (i : Int) :
    (itemCells items ≤ i → (st.pushAll values).sp i = st.sp (i - itemCells items)) ∧
      (itemFloats items ≤ i → (st.pushAll values).fp i = st.fp (i - itemFloats items)) := by
  induction h generalizing st with
  | nil => simp [Stacks.pushAll, itemCells, itemFloats]
  | @cons v item values items hv _ ih =>
    have hstep : st.pushAll (v :: values) = (st.push v).pushAll values := rfl
    rw [hstep, itemCells_cons, itemFloats_cons]
    have hcells : 0 ≤ cells item.type := by cases item.type <;> decide
    have hfloats : 0 ≤ floats item.type := by cases item.type <;> decide
    constructor
    · intro hi
      rw [(ih _).1 (by omega), push_sp hv (by omega)]
      congr 1
      omega
    · intro hi
      rw [(ih _).2 (by omega), push_fp hv (by omega)]
      congr 1
      omega

/-- The argument for an item is its value if the rest of the stack effect is above the item. -/
theorem Item.arg_eval {v : Value F} {i : Item} (hv : v.HasType i.type) {st st' : Stacks F}
    {fp sp : Int} (hsp : ∀ k, sp ≤ k → st'.sp k = (st.push v).sp (k - sp))
    (hfp : ∀ k, fp ≤ k → st'.fp k = (st.push v).fp (k - fp)) :
    (i.arg (floats i.type + fp) (cells i.type + sp)).eval st' = argValue i v := by
  have hat : ∀ k j, k = sp + j → 0 ≤ j → st'.sp k = (st.push v).sp j := by
    intro k j hk hj
    rw [hsp k (by omega)]
    congr 1
    omega
  obtain ⟨ty, cast⟩ := i
  cases v with
  | cell c =>
    have hc : st'.sp (1 + sp - 1) = c := hat _ 0 (by omega) (by omega)
    cases ty with
    | n | u => exact congrArg (ArgValue.cell cast) hc
    | a | func => exact congrArg (ArgValue.pointer cast) hc
    | d | ud | r | void | s | ws | t | null => exact hv.elim
  | pair c1 c2 =>
    have hdeep : st'.sp (2 + sp - 1) = c1 := hat _ 1 (by omega) (by omega)
    have htop : st'.sp (2 + sp - 2) = c2 := hat _ 0 (by omega) (by omega)
    cases ty with
    | d | ud => exact congrArg₂ ArgValue.longLong hdeep htop
    | s => exact congrArg₂ ArgValue.string hdeep htop
    | ws => exact congrArg₂ ArgValue.wide hdeep htop
    | n | u | a | r | func | void | t | null => exact hv.elim
  | float x =>
    have hx : st'.fp (1 + fp - 1) = x := by
      rw [hfp _ (by omega), Int.sub_sub, Int.sub_eq_zero.2 (by omega)]
      rfl
    cases ty with
    | r => exact congrArg ArgValue.float hx
    | n | u | a | d | ud | func | void | s | ws | t | null => exact hv.elim
  | nothing =>
    cases ty with
    | void | null => rfl
    | n | u | a | d | ud | r | func | s | ws | t => exact hv.elim

/-- The arguments are the items of the stack effect. -/
theorem itemArgs_eval {values : List (Value F)} {items : List Item} (h : HasTypes values items)
    (st : Stacks F) :
    (itemArgs items (itemFloats items) (itemCells items)).map (Arg.eval (st.pushAll values)) =
      List.zipWith argValue items values := by
  induction h generalizing st with
  | nil => rfl
  | @cons v item values items hv htypes ih =>
    have hstep : st.pushAll (v :: values) = (st.push v).pushAll values := rfl
    have hbelow := Stacks.pushAll_below htypes (st.push v)
    rw [hstep, itemCells_cons, itemFloats_cons, itemArgs, List.map_cons, List.zipWith_cons_cons,
      add_sub_cancel_left, add_sub_cancel_left, ih]
    rw [Item.arg_eval hv (fun k => (hbelow k).1) (fun k => (hbelow k).2)]

/-- The result is where it belongs, and everything below it is where it was. -/
theorem returnTarget_store {v : Value F} {ty : LibccType} (hv : v.HasType ty) (hws : ty ≠ .ws)
    {st st' : Stacks F} {fp sp : Int} (hsp : ∀ k, sp ≤ k → st'.sp k = st.sp (k - sp))
    (hfp : ∀ k, fp ≤ k → st'.fp k = st.fp (k - fp)) :
    Stacks.Agree
      ⟨fun i => ((returnTarget fp sp ty).store st' v).sp (i + (sp - cells ty)),
        fun i => ((returnTarget fp sp ty).store st' v).fp (i + (fp - floats ty))⟩
      (st.push v) := by
  have hcells : ∀ k j, k = j + sp → 0 ≤ j → st'.sp k = st.sp j := by
    intro k j hk hj
    rw [hsp k (by omega)]
    congr 1
    omega
  have hfloats : ∀ k j, k = j + fp → 0 ≤ j → st'.fp k = st.fp j := by
    intro k j hk hj
    rw [hfp k (by omega)]
    congr 1
    omega
  intro i hi
  cases v with
  | cell c =>
    have hcell : Function.update st'.sp (sp - 1) c (i + (sp - 1)) = (st.pushCell c).sp i := by
      rcases eq_or_ne i 0 with rfl | h
      · rw [Int.zero_add, Function.update_self]
        rfl
      · rw [Function.update_of_ne (by omega), hcells _ (i - 1) (by omega) (by omega)]
        exact (if_neg h).symm
    have hfloat := hfloats (i + (fp - 0)) i (by omega) hi
    cases ty with
    | n | u | a | func => exact ⟨hcell, hfloat⟩
    | d | ud | r | void | s | ws | t | null => exact hv.elim
  | pair c1 c2 =>
    have hpair : Function.update (Function.update st'.sp (sp - 1) c1) (sp - 2) c2 (i + (sp - 2)) =
        ((st.pushCell c1).pushCell c2).sp i := by
      rcases eq_or_ne i 0 with rfl | h
      · rw [Int.zero_add, Function.update_self]
        rfl
      · have hright : ((st.pushCell c1).pushCell c2).sp i = (st.pushCell c1).sp (i - 1) := if_neg h
        rw [Function.update_of_ne (by omega), hright]
        rcases eq_or_ne i 1 with rfl | h1
        · rw [show (1 : Int) + (sp - 2) = sp - 1 by omega, Function.update_self]
          rfl
        · rw [Function.update_of_ne (by omega), hcells _ (i - 1 - 1) (by omega) (by omega)]
          exact (if_neg (by omega)).symm
    have hfloat := hfloats (i + (fp - 0)) i (by omega) hi
    cases ty with
    | d | ud | s => exact ⟨hpair, hfloat⟩
    | ws => exact absurd rfl hws
    | n | u | a | r | func | void | t | null => exact hv.elim
  | float x =>
    have hfloat : Function.update st'.fp (fp - 1) x (i + (fp - 1)) = (st.pushFloat x).fp i := by
      rcases eq_or_ne i 0 with rfl | h
      · rw [Int.zero_add, Function.update_self]
        rfl
      · rw [Function.update_of_ne (by omega), hfloats _ (i - 1) (by omega) (by omega)]
        exact (if_neg h).symm
    have hcell := hcells (i + (sp - 0)) i (by omega) hi
    cases ty with
    | r => exact ⟨hcell, hfloat⟩
    | n | u | a | d | ud | func | void | s | ws | t | null => exact hv.elim
  | nothing =>
    have hcell := hcells (i + (sp - 0)) i (by omega) hi
    have hfloat := hfloats (i + (fp - 0)) i (by omega) hi
    cases ty with
    | void | null => exact ⟨hcell, hfloat⟩
    | n | u | a | d | ud | r | func | s | ws | t => exact hv.elim

/-- The wrapper of a declaration has the stack effect of the declaration. -/
theorem Declaration.wrapper_implements {d : Declaration} (hd : d.Typed) : Implements d.wrapper d := by
  intro F env st values htypes hret
  have hbelow := Stacks.pushAll_below htypes st
  have hargs : (d.callee.eval env (st.pushAll values)) =
      (List.zipWith argValue d.pars values,
        d.result env (List.zipWith argValue d.pars values)) := by
    have heval := itemArgs_eval htypes st
    cases d with
    | function pars ret name =>
      simp only [Declaration.callee, Callee.eval, Declaration.result, Declaration.pars] at heval ⊢
      rw [heval]
    | _ => rfl
  refine ⟨congrArg Prod.fst hargs, ?_⟩
  simp only [Wrapper.exec, Declaration.wrapper, hargs]
  exact returnTarget_store (hret _) hd.2.1 (fun k => (hbelow k).1) (fun k => (hbelow k).2)

end Wrappers
end Gforth
