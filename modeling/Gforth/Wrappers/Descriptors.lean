import Gforth.Lib.Bytes

/-!
# Descriptors of C functions

{lit}`c-function`, {lit}`c-value` and {lit}`c-variable` parse a declaration and leave a descriptor in
memory: the call type, the return type, the parameters with their casts, the cast of the result, and
the C name.  All lengths are single bytes.

Main results:

- Theorem {lit}`count_counted`: a counted string is read again.
-/

namespace Gforth
namespace Wrappers

open Lib

/-- The types in {lit}`libcc-types`, with {lit}`0` as {lit}`null` -/
inductive LibccType where
  | n
  | u
  | a
  | d
  | ud
  | r
  | func
  | void
  | s
  | ws
  | t
  | null
deriving DecidableEq

/-- The order of the index values, and of the tables -/
def libccTypes : List LibccType :=
  [.n, .u, .a, .d, .ud, .r, .func, .void, .s, .ws, .t, .null]

/-- The index value of a type -/
def LibccType.index : LibccType → Nat
  | .n => 0
  | .u => 1
  | .a => 2
  | .d => 3
  | .ud => 4
  | .r => 5
  | .func => 6
  | .void => 7
  | .s => 8
  | .ws => 9
  | .t => 10
  | .null => 11

theorem libccTypes_index (ty : LibccType) :
    libccTypes[(BitVec.ofNat 8 ty.index).toNat]? = some ty := by
  cases ty <;> rfl

/-- {lit}`c-func` -/
def cFunc : Byte := 0#8

/-- {lit}`c-val` -/
def cVal : Byte := 1#8

/-- {lit}`c-var` -/
def cVar : Byte := 2#8

/-- A type with its cast -/
structure Item where
  type : LibccType
  cast : List Byte
deriving DecidableEq

/-- {lit}`string,` -/
def stringComma (s : List Byte) : List Byte :=
  BitVec.ofNat 8 s.length :: s

/-- The type and the cast, as {lit}`function-types,` compiles them -/
def typeComma (i : Item) : List Byte :=
  BitVec.ofNat 8 i.type.index :: stringComma i.cast

/-- {lit}`function-types,` -/
def functionTypes (pars : List Item) : List Byte :=
  pars.flatMap typeComma

/-- {lit}`parse-function-types` -/
def parseFunctionTypes (pars : List Item) (ret : Item) : List Byte :=
  [cFunc, BitVec.ofNat 8 ret.type.index, BitVec.ofNat 8 (functionTypes pars).length] ++
    functionTypes pars ++ stringComma ret.cast

/-- {lit}`parse-value-type` -/
def parseValueType (i : Item) : List Byte :=
  [cVal, BitVec.ofNat 8 i.type.index] ++ stringComma i.cast ++ [0#8]

/-- {lit}`parse-variable-type` -/
def parseVariableType : List Byte :=
  [cVar, BitVec.ofNat 8 LibccType.a.index, 0#8, 0#8]

/-- A declaration with {lit}`c-function`, {lit}`c-value` or {lit}`c-variable` -/
inductive Declaration where
  | function (pars : List Item) (ret : Item) (name : List Byte)
  | value (item : Item) (name : List Byte)
  | variable (name : List Byte)
deriving DecidableEq

/-- The descriptor that {lit}`(c-function)` leaves in memory -/
def Declaration.descriptor : Declaration → List Byte
  | .function pars ret name => parseFunctionTypes pars ret ++ stringComma name
  | .value item name => parseValueType item ++ stringComma name
  | .variable name => parseVariableType ++ stringComma name

/-- {lit}`count`, if the memory is known: the string, and the memory behind it -/
def count : List Byte → Option (List Byte × List Byte)
  | [] => none
  | c :: s => if c.toNat ≤ s.length then some (s.take c.toNat, s.drop c.toNat) else none

theorem toNat_ofNat_byte {n : Nat} (h : n < 256) : (BitVec.ofNat 8 n).toNat = n := by
  rw [BitVec.toNat_ofNat, Nat.mod_eq_of_lt h]

theorem count_counted {s : List Byte} (h : s.length < 256) (t : List Byte) :
    count (stringComma s ++ t) = some (s, t) := by
  rw [stringComma, List.cons_append, count, toNat_ofNat_byte h, if_pos (by simp),
    List.take_left, List.drop_left]

end Wrappers
end Gforth
