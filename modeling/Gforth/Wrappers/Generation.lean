import Gforth.Wrappers.Descriptors

/-!
# Generating wrappers

{lit}`gen-wrapper-function` prints a C function that calls a C function with what is on the stacks.
While it prints, it counts how much of the stacks is left.  A word that executes what is behind one
of the tables fails.
-/

namespace Gforth
namespace Wrappers

open Lib

/-- What is printed: a text of the generator, a number, or a text of the program -/
inductive Piece where
  | lit (s : String)
  | num (n : Int)
  | text (s : List Byte)
deriving DecidableEq

/-! ## Counting -/

/-- {lit}`count-stacks-types` -/
def countStacksType (fp sp : Int) : LibccType → Int × Int
  | .n | .u | .a | .func | .t => (fp, sp + 1)
  | .d | .ud | .s | .ws => (fp, sp + 2)
  | .r => (fp + 1, sp)
  | .void | .null => (fp, sp)

/-- The loop of {lit}`count-stacks`: the memory that is left, and the distance to the limit -/
def countStacks (m : List Byte) (left : Nat) (fp sp : Int) : Option (Int × Int) :=
  if left = 0 then some (fp, sp)
  else match m with
    | ty :: c :: m =>
        match libccTypes[ty.toNat]? with
        | none => none
        | some ty =>
            let (fp, sp) := countStacksType fp sp ty
            if c.toNat + 2 < left then countStacks (m.drop c.toNat) (left - (c.toNat + 2)) fp sp
            else some (fp, sp)
    | _ => none
termination_by left

theorem countStacks_zero (m : List Byte) (fp sp : Int) : countStacks m 0 fp sp = some (fp, sp) := by
  rw [countStacks.eq_def, if_pos rfl]

/-- The first parameter is counted, and its cast is skipped. -/
theorem countStacks_cons {b c : Byte} {ty : LibccType} (hty : libccTypes[b.toNat]? = some ty)
    (m : List Byte) {left : Nat} (hleft : 0 < left) (fp sp : Int) :
    countStacks (b :: c :: m) left fp sp =
      if c.toNat + 2 < left then
        countStacks (m.drop c.toNat) (left - (c.toNat + 2)) (countStacksType fp sp ty).1
          (countStacksType fp sp ty).2
      else some (countStacksType fp sp ty) := by
  rw [countStacks.eq_def, if_neg (Nat.ne_of_gt hleft)]
  simp only [hty]

/-! ## Parameters -/

/-- What a word prints, and the depths of the stacks that it leaves -/
structure Printed where
  pieces : List Piece
  fp : Int
  sp : Int

/-- The text is in front of what is printed. -/
def Printed.before (s : List Piece) (p : Printed) : Printed :=
  { p with pieces := s ++ p.pieces }

/-- The text is behind what is printed. -/
def Printed.behind (p : Printed) (s : List Piece) : Printed :=
  { p with pieces := p.pieces ++ s }

/-- {lit}`gen-par-sp` -/
def genParSp (fp sp : Int) : Printed :=
  ⟨[.lit "x.spx[", .num (sp - 1), .lit "]"], fp, sp - 1⟩

/-- {lit}`gen-par-fp` -/
def genParFp (fp sp : Int) : Printed :=
  ⟨[.lit "x.fpx[", .num (fp - 1), .lit "]"], fp - 1, sp⟩

/-- {lit}`*gen-par-sp++` -/
def genParSpPlus (rCast : List Byte) (fp sp : Int) : Printed :=
  ⟨[.text rCast, .lit "(x.spx[", .num sp, .lit "])"], fp, sp + 1⟩

/-- {lit}`gen-par-n` -/
def genParN (fp sp : Int) (cast : List Piece) : Printed :=
  (genParSp fp sp).before cast

/-- The cast that callbacks use for the result -/
def returnCast : List Byte :=
  "  return ".toList.map fun c => BitVec.ofNat 8 c.toNat

/-- The casts of {lit}`gen-par-a` -/
def pointerCast (cast : List Byte) : List Piece :=
  if cast = [] then [.lit "(void *)"]
  else if cast = returnCast then [.text cast, .lit "(void *)"]
  else [.text cast]

/-- {lit}`gen-par-a` -/
def genParA (fp sp : Int) (cast : List Byte) : Printed :=
  ((genParN fp sp [.lit "("]).before (pointerCast cast)).behind [.lit ")"]

/-- {lit}`?return` -/
def questionReturn (cast : List Byte) : List Piece :=
  if cast = returnCast then [.text cast] else []

/-- {lit}`gen-par-d`, {lit}`gen-par-ud`, {lit}`gen-par-s` and {lit}`gen-par-ws` -/
def genParPair (open' : String) (fp sp : Int) (cast : List Byte) : Printed :=
  let first := genParN fp sp [.lit open']
  let second := genParN first.fp first.sp [.lit ","]
  (second.before (questionReturn cast ++ first.pieces)).behind [.lit ")"]

/-- {lit}`gen-par-r` -/
def genParR (fp sp : Int) (cast : List Byte) : Printed :=
  (genParFp fp sp).before (questionReturn cast)

/-- {lit}`gen-par-0` -/
def genParNull (fp sp : Int) (cast : List Byte) : Printed :=
  ⟨questionReturn cast ++ [.lit "NULL"], fp, sp⟩

/-- {lit}`gen-par-t` -/
def genParT (fp sp : Int) (cast : List Byte) : Printed :=
  ((genParN fp sp [.lit "("]).before
    (if cast = [] then [.lit "(void *)"] else [.lit "*(", .text cast, .lit "*)"])).behind [.lit ")"]

/-- {lit}`gen-par` -/
def genPar (fp sp : Int) (cast : List Byte) : LibccType → Printed
  | .n | .u => genParN fp sp [.text cast]
  | .a | .func => genParA fp sp cast
  | .d | .ud => genParPair "gforth_d2ll(" fp sp cast
  | .r => genParR fp sp cast
  | .void => ⟨[], fp, sp⟩
  | .s => genParPair "gforth_str2c((Char*)" fp sp cast
  | .ws => genParPair "gforth_str2wc((Char*)" fp sp cast
  | .t => genParT fp sp cast
  | .null => genParNull fp sp cast

/-! ## Calls -/

/-- The loop of {lit}`gen-call-func` -/
def genPars (m : List Byte) (left : Nat) (fp sp : Int) : Option (List Piece) :=
  if left = 0 then some []
  else match m with
    | ty :: c :: m =>
        match libccTypes[ty.toNat]?, count (c :: m) with
        | some ty, some (cast, m) =>
            let p := genPar fp sp cast ty
            if c.toNat + 2 < left then
              (genPars m (left - (c.toNat + 2)) p.fp p.sp).map fun s => p.pieces ++ .lit "," :: s
            else some p.pieces
        | _, _ => none
    | _ => none
termination_by left

theorem genPars_zero (m : List Byte) (fp sp : Int) : genPars m 0 fp sp = some [] := by
  rw [genPars.eq_def, if_pos rfl]

/-- The first parameter is generated with its cast. -/
theorem genPars_cons {b c : Byte} {ty : LibccType} (hty : libccTypes[b.toNat]? = some ty)
    {m cast rest : List Byte} (hcount : count (c :: m) = some (cast, rest)) {left : Nat}
    (hleft : 0 < left) (fp sp : Int) :
    genPars (b :: c :: m) left fp sp =
      if c.toNat + 2 < left then
        (genPars rest (left - (c.toNat + 2)) (genPar fp sp cast ty).fp (genPar fp sp cast ty).sp).map
          fun s => (genPar fp sp cast ty).pieces ++ .lit "," :: s
      else some (genPar fp sp cast ty).pieces := by
  rw [genPars.eq_def, if_neg (Nat.ne_of_gt hleft)]
  simp only [hty, hcount]

/-- {lit}`gen-call-func`, {lit}`gen-call-const` and {lit}`gen-call-var`, by the call type -/
def genWrappedCall (cType : Byte) (m : List Byte) (left : Nat) (name : List Byte) (fp sp : Int) :
    Option (List Piece) :=
  if cType = cFunc then
    (genPars m left fp sp).map fun s => [.text name, .lit "("] ++ s ++ [.lit ")"]
  else if cType = cVal then some [.lit "(", .text name, .lit ")"]
  else if cType = cVar then some [.lit "&(", .text name, .lit ")"]
  else none

/-- {lit}`gen-wrapped-s`, {lit}`gen-wrapped-d` and {lit}`gen-wrapped-ud` -/
def genWrappedPair (open' : String) (call : List Piece) (fp sp : Int) : Printed :=
  let first := genParSp fp sp
  let second := genParSp first.fp first.sp
  (second.before ([.lit open'] ++ call ++ [.lit ","] ++ first.pieces ++ [.lit ","])).behind [.lit ")"]

/-- {lit}`gen-wrapped-stmt` -/
def genWrappedStmt (call : List Piece) (rCast : List Byte) (fp sp : Int) : LibccType → Printed
  | .n | .u => (genParSp fp sp).behind (.lit "=" :: call)
  | .a | .func | .ws => (genParSp fp sp).behind (.lit "=(Cell)" :: call)
  | .d => genWrappedPair "gforth_ll2d(" call fp sp
  | .ud => genWrappedPair "gforth_ll2ud(" call fp sp
  | .r => (genParFp fp sp).behind (.lit "=" :: call)
  | .void | .null => ⟨call, fp, sp⟩
  | .s => genWrappedPair "c_str2gforth_str(" call fp sp
  | .t => (genParSpPlus rCast fp sp).behind (.lit "=" :: call)

/-! ## Wrappers -/

/-- The flags of the generator, and the texts that it gets from elsewhere -/
structure Settings where
  /-- {lit}`is-funptr?` -/
  isFunptr : Bool
  /-- {lit}`is-weak?` -/
  isWeak : Bool
  /-- What {lit}`.externc` prints -/
  externC : List Piece
  /-- What {lit}`.prefix` prints -/
  library : List Piece
  /-- What {lit}`>ptr-declare` returns -/
  ptrDeclare : List Byte
  /-- What is behind the letters of {lit}`type-letter` -/
  behindLetters : Nat → Byte

variable (g : Settings)

/-- {lit}`type-letter` -/
def typeLetter (i : Nat) : Byte :=
  ("nuadUrfvsSt".toList.map fun c => BitVec.ofNat 8 c.toNat).getD i (g.behindLetters i)

/-- The letters in the loop of {lit}`wrapper-function-name` -/
def typeLetters (m : List Byte) (left : Nat) : Option (List Byte) :=
  if left = 0 then some []
  else match m with
    | ty :: c :: m =>
        if c.toNat + 2 < left then
          (typeLetters (m.drop c.toNat) (left - (c.toNat + 2))).map (typeLetter g ty.toNat :: ·)
        else some [typeLetter g ty.toNat]
    | _ => none
termination_by left

/-- {lit}`sanitize` -/
def sanitize (s : List Byte) : List Byte :=
  s.map fun c =>
    if 0x61#8 ≤ c ∧ c ≤ 0x7A#8 ∨ 0x41#8 ≤ c ∧ c ≤ 0x5A#8 ∨ 0x30#8 ≤ c ∧ c ≤ 0x39#8 then c else 0x5F#8

/-- {lit}`wrapper-function-name` -/
def wrapperFunctionName (ret : Byte) (m : List Byte) (left : Nat) (name : List Byte) :
    Option (List Byte) :=
  (typeLetters g m left).map fun letters =>
    sanitize (("gforth_c_".toList.map fun c => BitVec.ofNat 8 c.toNat) ++ name ++ [0x5F#8] ++ letters ++
      [0x5F#8, typeLetter g ret.toNat])

/-- The first lines of a wrapper; {lit}`s` is its name. -/
def headText (name s : List Byte) : List Piece :=
  (if g.isWeak then [.lit "#pragma weak ", .text name, .lit "\n"] else []) ++ g.externC ++
    [.lit "gforth_stackpointers "] ++ g.library ++ [.text s, .lit "(GFORTH_ARGS)\n\x7b\n"]

/-- The first lines with the name that is generated -/
def genHead (ret : Byte) (m : List Byte) (left : Nat) (name : List Byte) : Option (List Piece) :=
  (wrapperFunctionName g ret m left name).map (headText g name)

/-- The lines that change the stack pointers -/
def genChange (fp sp : Int) : List Piece :=
  (if sp ≠ 0 ∨ g.isFunptr then [.lit "  x.spx += ", .num sp, .lit ";\n"] else []) ++
    (if fp ≠ 0 then [.lit "  x.fpx += ", .num fp, .lit ";\n"] else []) ++ [.lit "  return x;\n\x7d\n"]

/-- The lines from {lit}`ARGN` on -/
def genBody (cType ret : Byte) (m : List Byte) (left : Nat) (rCast name : List Byte) :
    Option (List Piece) :=
  match countStacks m left 0 0, libccTypes[ret.toNat]? with
  | some (fp, sp), some ret =>
      (genWrappedCall cType m left name fp sp).map fun call =>
        let stmt := genWrappedStmt call rCast fp sp ret
        [.lit "  ARGN(", .num (sp - 1), .lit ",", .num (fp - 1), .lit ");\n  "] ++
          (if g.isFunptr then [.lit "Cell ptr = ", .text g.ptrDeclare, .lit ";\n  "] else []) ++
          (if g.isWeak then [.lit "if(", .text name, .lit ") \x7b\n    "] else []) ++
          stmt.pieces ++ [.lit ";\n"] ++
          (if g.isWeak then [.lit "\x7d else \x7b gforth_fail(); \x7d\n"] else []) ++
          genChange g stmt.fp stmt.sp
  | _, _ => none

/-- {lit}`gen-wrapper-function`; the memory begins with the call type in front of the return type. -/
def genWrapperFunction : List Byte → Option (List Piece)
  | cType :: ret :: m => do
      let (pars, m1) ← count m
      let (rCast, m2) ← count m1
      let (name, _) ← count m2
      let head ← genHead g ret m.tail pars.length name
      let body ← genBody g cType ret m.tail pars.length rCast name
      pure (head ++ body)
  | _ => none

end Wrappers
end Gforth
