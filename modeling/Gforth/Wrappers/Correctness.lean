import Gforth.Wrappers.Calls

/-!
# Generated wrappers

The wrapper that is generated for a declaration is the wrapper of the declaration, as long as the
descriptor is read as it was written.  The cast of a {lit}`c-value` is not: it stands where the
parameters are expected.

Main results:

- Theorem {lit}`genWrapperFunction_correct`: what is generated implements the declaration if and only
  if nothing is taken from the stacks for the cast of a value.
-/

namespace Gforth
namespace Wrappers

open Lib

variable {g : Settings}

/-! ## Statements -/

variable {ty : LibccType} {items : List Item}

/-- The result is stored where it belongs. -/
theorem genWrappedStmt_eq (call : List Piece) (rCast : List Byte) (fp sp : Int) (hws : ty ≠ .ws)
    (ht : ty ≠ .t) :
    genWrappedStmt call rCast fp sp ty =
      ⟨(returnTarget fp sp ty).text call, fp - floats ty, sp - cells ty⟩ := by
  have hsp : sp - 1 - 1 = sp - 2 := by omega
  cases ty with
  | ws => exact absurd rfl hws
  | t => exact absurd rfl ht
  | n | u | a | func | r =>
    simp [genWrappedStmt, returnTarget, Target.text, spIndex, genParSp, genParFp, Printed.behind,
      floats, cells]
  | d | ud | s =>
    simp [genWrappedStmt, genWrappedPair, returnTarget, Target.text, pairTarget, spIndex, genParSp,
      Printed.before, Printed.behind, floats, cells, hsp]
  | void | null => simp [genWrappedStmt, returnTarget, Target.text, floats, cells]

/-- The wrapper that is generated if the stacks hold so many items -/
def wrapperOf (callee : Callee) (fp sp : Int) (ty : LibccType) : Wrapper :=
  ⟨sp - 1, fp - 1, callee, returnTarget fp sp ty, sp - cells ty, fp - floats ty⟩

/-- The body of a wrapper function, part by part -/
theorem genBody_eq (hg : g.isFunptr = false) {cType ret : Byte} {m : List Byte} {left : Nat}
    (rCast : List Byte) {fp sp : Int} {callee : Callee}
    (hcount : countStacks m left 0 0 = some (fp, sp)) (hret : libccTypes[ret.toNat]? = some ty)
    (hws : ty ≠ .ws) (ht : ty ≠ .t)
    (hcall : genWrappedCall cType m left callee.name fp sp = some callee.text) :
    genBody g cType ret m left rCast callee.name = some ((wrapperOf callee fp sp ty).text g) := by
  simp only [genBody, hcount, hret, hcall, Option.map_some, genWrappedStmt_eq _ _ _ _ hws ht, hg]
  have hchange : (sp - cells ty ≠ 0 ∨ g.isFunptr) ↔ sp - cells ty ≠ 0 := by simp [hg]
  rw [genChange, if_congr hchange rfl rfl]
  simp only [Bool.false_eq_true, if_false, List.append_nil]
  rfl

/-! ## Parameters -/

/-- An argument is printed for the item, and its cells and floats are gone. -/
theorem genPar_eq (fp sp : Int) {i : Item} (hvoid : i.type ≠ .void) (ht : i.type ≠ .t) :
    genPar fp sp i.cast i.type =
      ⟨(i.arg fp sp).text, fp - floats i.type, sp - cells i.type⟩ := by
  have hsp : sp - 1 - 1 = sp - 2 := by omega
  obtain ⟨ty, cast⟩ := i
  cases ty with
  | void => exact absurd rfl hvoid
  | t => exact absurd rfl ht
  | n | u =>
    simp [genPar, genParN, genParSp, Printed.before, Item.arg, Arg.text, spIndex, floats, cells]
  | a | func =>
    simp [genPar, genParA, genParN, genParSp, Printed.before, Printed.behind, Item.arg, Arg.text,
      spIndex, floats, cells]
  | d | ud | s | ws =>
    simp [genPar, genParPair, genParN, genParSp, Printed.before, Printed.behind, Item.arg, Arg.text,
      pairText, spIndex, floats, cells, hsp]
  | r => simp [genPar, genParR, genParFp, Printed.before, Item.arg, Arg.text, floats, cells]
  | null => simp [genPar, genParNull, Item.arg, Arg.text, floats, cells]

@[simp] theorem functionTypes_cons (i : Item) (items : List Item) :
    functionTypes (i :: items) =
      BitVec.ofNat 8 i.type.index :: BitVec.ofNat 8 i.cast.length :: (i.cast ++ functionTypes items) :=
  rfl

/-- There is at least one type. -/
theorem functionTypes_length_pos (h : items ≠ []) : 0 < (functionTypes items).length := by
  cases items with
  | nil => exact absurd rfl h
  | cons i items => simp

/-- All items are counted. -/
theorem countStacks_functionTypes (h : ∀ i ∈ items, i.cast.length < 256) (m : List Byte)
    (fp sp : Int) :
    countStacks (functionTypes items ++ m) (functionTypes items).length fp sp =
      some (fp + itemFloats items, sp + itemCells items) := by
  induction items generalizing fp sp with
  | nil => simp [functionTypes, countStacks_zero, itemFloats, itemCells]
  | cons i items ih =>
    have hcast := h i (List.mem_cons_self ..)
    have htype : countStacksType fp sp i.type = (fp + floats i.type, sp + cells i.type) := by
      cases i.type <;> simp [countStacksType, floats, cells]
    have hih := ih (fun j hj => h j (List.mem_cons_of_mem _ hj)) (fp + floats i.type)
      (sp + cells i.type)
    have hleft : (functionTypes (i :: items)).length - (i.cast.length + 2) =
        (functionTypes items).length := by
      simp only [functionTypes_cons, List.length_cons, List.length_append]
      omega
    rw [functionTypes_cons, List.cons_append, List.cons_append, ← functionTypes_cons,
      countStacks_cons (libccTypes_index _) _ (functionTypes_length_pos (List.cons_ne_nil _ _)),
      toNat_ofNat_byte hcast, List.append_assoc, List.drop_left, hleft, htype, hih,
      itemFloats_cons, itemCells_cons, Int.add_assoc, Int.add_assoc]
    rcases eq_or_ne items [] with rfl | hitems
    · rw [if_neg (by simp [functionTypes, typeComma, stringComma])]
      simp [itemFloats, itemCells]
    · have hpos := functionTypes_length_pos hitems
      rw [if_pos (by omega)]

/-- The arguments are printed for the items. -/
theorem genPars_functionTypes (h : ∀ i ∈ items, i.cast.length < 256)
    (htypes : ∀ i ∈ items, i.type ≠ .void ∧ i.type ≠ .t) (m : List Byte) (fp sp : Int) :
    genPars (functionTypes items ++ m) (functionTypes items).length fp sp =
      some (argsText (itemArgs items fp sp)) := by
  induction items generalizing fp sp with
  | nil => exact genPars_zero _ fp sp
  | cons i items ih =>
    have hcast := h i (List.mem_cons_self ..)
    have hi := htypes i (List.mem_cons_self ..)
    have hih := ih (fun j hj => h j (List.mem_cons_of_mem _ hj))
      (fun j hj => htypes j (List.mem_cons_of_mem _ hj)) (fp - floats i.type) (sp - cells i.type)
    have hcount := count_counted hcast (functionTypes items ++ m)
    rw [stringComma, List.cons_append] at hcount
    have hleft : (functionTypes (i :: items)).length - (i.cast.length + 2) =
        (functionTypes items).length := by
      simp only [functionTypes_cons, List.length_cons, List.length_append]
      omega
    rw [functionTypes_cons, List.cons_append, List.cons_append, ← functionTypes_cons,
      List.append_assoc, genPars_cons (libccTypes_index _) hcount
        (functionTypes_length_pos (List.cons_ne_nil _ _)),
      toNat_ofNat_byte hcast, hleft, genPar_eq fp sp hi.1 hi.2, hih, itemArgs]
    rcases eq_or_ne items [] with rfl | hitems
    · rw [if_neg (by simp [functionTypes, typeComma, stringComma])]
      rfl
    · have hpos := functionTypes_length_pos hitems
      rw [if_pos (by omega)]
      obtain ⟨j, items, rfl⟩ := List.exists_cons_of_ne_nil hitems
      rfl

/-! ## Names -/

/-- The letters are in memory, whatever the bytes say. -/
theorem typeLetters_isSome (g : Settings) {m : List Byte} {left : Nat} (h : left < m.length) :
    ∃ letters, typeLetters g m left = some letters := by
  induction left using Nat.strong_induction_on generalizing m with
  | h left ih =>
    rw [typeLetters.eq_def]
    rcases Nat.eq_zero_or_pos left with rfl | hleft
    · exact ⟨[], if_pos rfl⟩
    · rw [if_neg (Nat.ne_of_gt hleft)]
      match m with
      | ty :: c :: m =>
        rw [List.length_cons, List.length_cons] at h
        rcases Nat.lt_or_ge (c.toNat + 2) left with hc | hc
        · have hdrop : left - (c.toNat + 2) < (m.drop c.toNat).length := by
            rw [List.length_drop]
            omega
          obtain ⟨letters, hletters⟩ := ih _ (by omega) hdrop
          exact ⟨_, by simp only [if_pos hc, hletters, Option.map_some]; rfl⟩
        · exact ⟨_, by simp only [if_neg (Nat.not_lt.2 hc)]; rfl⟩
      | [ty] => exact absurd h (by rw [List.length_singleton]; omega)
      | [] => exact absurd h (by simp)

/-! ## Descriptors -/

namespace Declaration

/-- The call type -/
def cType : Declaration → Byte
  | .function .. => cFunc
  | .value .. => cVal
  | .variable _ => cVar

/-- The bytes that the generator takes for the parameters -/
def parBytes : Declaration → List Byte
  | .function pars _ _ => functionTypes pars
  | .value item _ => item.cast
  | .variable _ => []

/-- The bytes that the generator takes for the cast of the result -/
def rCast : Declaration → List Byte
  | .function _ ret _ => ret.cast
  | _ => []

/-- The C name -/
def name : Declaration → List Byte
  | .function _ _ name => name
  | .value _ name => name
  | .variable name => name

/-- The lengths fit into bytes. -/
def Fits (d : Declaration) : Prop :=
  d.parBytes.length < 256 ∧ d.rCast.length < 256 ∧ d.name.length < 256

/-- What is behind the lengths -/
def behind (d : Declaration) (tail : List Byte) : List Byte :=
  stringComma d.rCast ++ (stringComma d.name ++ tail)

/-- The result of a descriptor is behind its parameters. -/
theorem descriptor_append (d : Declaration) (tail : List Byte) :
    d.descriptor ++ tail =
      d.cType :: BitVec.ofNat 8 d.ret.index :: (stringComma d.parBytes ++ d.behind tail) := by
  cases d <;>
    simp [descriptor, cType, ret, parBytes, behind, rCast, name, parseFunctionTypes, parseValueType,
      parseVariableType, stringComma]

end Declaration

/-- The generator reads the descriptor. -/
theorem genWrapperFunction_eq (g : Settings) {d : Declaration} (hd : d.Fits) (tail : List Byte) :
    ∃ s, genWrapperFunction g (d.descriptor ++ tail) =
      (genBody g d.cType (BitVec.ofNat 8 d.ret.index) (d.parBytes ++ d.behind tail)
        d.parBytes.length d.rCast d.name).map (headText g d.name s ++ ·) := by
  obtain ⟨hpars, hcast, hname⟩ := hd
  have hlong : d.parBytes.length < (d.parBytes ++ d.behind tail).length := by
    simp [Declaration.behind, stringComma]
  obtain ⟨letters, hletters⟩ := typeLetters_isSome g hlong
  have hs : ∃ s, wrapperFunctionName g (BitVec.ofNat 8 d.ret.index) (d.parBytes ++ d.behind tail)
      d.parBytes.length d.name = some s := by
    rw [wrapperFunctionName, hletters]
    exact ⟨_, rfl⟩
  obtain ⟨s, hs⟩ := hs
  refine ⟨s, ?_⟩
  rw [Declaration.descriptor_append, genWrapperFunction]
  have hbehind : count (d.behind tail) = some (d.rCast, stringComma d.name ++ tail) :=
    count_counted hcast _
  have htail : (stringComma d.parBytes ++ d.behind tail).tail = d.parBytes ++ d.behind tail := rfl
  simp only [count_counted hpars, hbehind, count_counted hname, Option.bind_eq_bind,
    Option.bind_some, genHead, htail, hs, Option.map_some]
  cases genBody g d.cType _ _ _ _ _ <;> rfl

/-! ## Casts of values -/

/-- Nothing is taken from the stacks for a byte: it stands for {lit}`void` or {lit}`0`. -/
def IdleByte (b : Byte) : Prop :=
  b = 7#8 ∨ b = 11#8

/-- Nothing is taken from the stacks for a cast that is read as parameters. -/
def Idle : List Byte → Prop
  | [] => True
  | [b] => IdleByte b
  | b :: c :: s => IdleByte b ∧ Idle (s.drop c.toNat)
termination_by s => s.length

theorem idle_cons (b c : Byte) (s : List Byte) :
    Idle (b :: c :: s) ↔ IdleByte b ∧ Idle (s.drop c.toNat) := by
  rw [Idle]

/-- The stacks hold at least what they held, and the same only for an idle byte. -/
theorem countStacksType_idle {b : Byte} (hty : libccTypes[b.toNat]? = some ty) (fp sp : Int) :
    fp ≤ (countStacksType fp sp ty).1 ∧ sp ≤ (countStacksType fp sp ty).2 ∧
      (IdleByte b ↔ countStacksType fp sp ty = (fp, sp)) := by
  have hindex : b = BitVec.ofNat 8 ty.index := by
    have hlt : b.toNat < 12 := (List.getElem?_eq_some_iff.1 hty).1
    have hb : b = BitVec.ofNat 8 b.toNat := by simp
    rw [hb]
    generalize b.toNat = n at hty hlt
    interval_cases n <;> cases hty <;> rfl
  subst hindex
  cases ty <;> simp [countStacksType, IdleByte, LibccType.index]

theorem countStacks_single {b : Byte} (hty : libccTypes[b.toNat]? = some ty) (m : List Byte)
    (fp sp : Int) : countStacks ([b] ++ 0#8 :: m) 1 fp sp = some (countStacksType fp sp ty) := by
  rw [List.singleton_append, countStacks_cons hty m Nat.one_pos, if_neg (by simp)]

/-- One step of the counting loop over a cast -/
theorem countStacks_drop {b : Byte} (hty : libccTypes[b.toNat]? = some ty) (c : Byte)
    (s m : List Byte) (fp sp : Int) :
    countStacks (b :: c :: s ++ 0#8 :: m) (b :: c :: s).length fp sp =
      countStacks (s.drop c.toNat ++ 0#8 :: m) (s.drop c.toNat).length (countStacksType fp sp ty).1
        (countStacksType fp sp ty).2 := by
  rw [List.cons_append, List.cons_append, List.length_cons, List.length_cons,
    countStacks_cons hty _ (Nat.succ_pos _), List.length_drop]
  rcases Nat.lt_or_ge c.toNat s.length with hc | hc
  · rw [if_pos (by omega), List.drop_append_of_le_length (Nat.le_of_lt hc),
      show s.length + 1 + 1 - (c.toNat + 2) = s.length - c.toNat by omega]
  · rw [if_neg (by omega), Nat.sub_eq_zero_of_le hc, countStacks_zero]

/-- A byte of a cast that is counted stands for a type. -/
theorem countStacks_type {b c : Byte} {m : List Byte} {left : Nat} {fp sp : Int} {r : Int × Int}
    (hleft : 0 < left) (h : countStacks (b :: c :: m) left fp sp = some r) :
    ∃ ty, libccTypes[b.toNat]? = some ty := by
  rw [countStacks.eq_def, if_neg (Nat.ne_of_gt hleft)] at h
  cases hty : libccTypes[b.toNat]? with
  | none => simp [hty] at h
  | some ty => exact ⟨ty, rfl⟩

/-- The counts do not fall, and they stay only for an idle cast. -/
theorem countStacks_cast {cast m : List Byte} {fp sp fp' sp' : Int}
    (h : countStacks (cast ++ 0#8 :: m) cast.length fp sp = some (fp', sp')) :
    fp ≤ fp' ∧ sp ≤ sp' ∧ (fp' = fp → sp' = sp → Idle cast) := by
  induction cast using Idle.induct generalizing fp sp with
  | case1 =>
    rw [List.length_nil, countStacks_zero] at h
    cases h
    exact ⟨le_rfl, le_rfl, fun _ _ => by rw [Idle]; trivial⟩
  | case2 b =>
    obtain ⟨ty, hty⟩ := countStacks_type Nat.one_pos h
    rw [List.length_singleton, countStacks_single hty] at h
    obtain ⟨hfp, hsp, hidle⟩ := countStacksType_idle hty fp sp
    rw [Option.some.inj h] at hfp hsp hidle
    refine ⟨hfp, hsp, fun h1 h2 => ?_⟩
    rw [Idle, hidle, h1, h2]
  | case3 b c s ih =>
    obtain ⟨ty, hty⟩ := countStacks_type (Nat.succ_pos _) h
    rw [countStacks_drop hty] at h
    obtain ⟨hfp, hsp, hidle⟩ := countStacksType_idle hty fp sp
    obtain ⟨hfp', hsp', hrest⟩ := ih h
    refine ⟨hfp.trans hfp', hsp.trans hsp', fun h1 h2 => ?_⟩
    have h1' : (countStacksType fp sp ty).1 = fp := by omega
    have h2' : (countStacksType fp sp ty).2 = sp := by omega
    rw [idle_cons]
    exact ⟨hidle.2 (Prod.ext h1' h2'), hrest (by omega) (by omega)⟩

/-- An idle byte has a type. -/
theorem IdleByte.type {b : Byte} (h : IdleByte b) :
    ∃ ty, libccTypes[b.toNat]? = some ty := by
  rcases h with rfl | rfl
  · exact ⟨.void, rfl⟩
  · exact ⟨.null, rfl⟩

/-- Nothing is counted for an idle cast. -/
theorem countStacks_of_idle {cast : List Byte} (h : Idle cast) (m : List Byte) (fp sp : Int) :
    countStacks (cast ++ 0#8 :: m) cast.length fp sp = some (fp, sp) := by
  induction cast using Idle.induct with
  | case1 => exact countStacks_zero _ fp sp
  | case2 b =>
    rw [Idle] at h
    obtain ⟨ty, hty⟩ := h.type
    rw [List.length_singleton, countStacks_single hty, (countStacksType_idle hty fp sp).2.2.1 h]
  | case3 b c s ih =>
    rw [idle_cons] at h
    obtain ⟨ty, hty⟩ := h.1.type
    rw [countStacks_drop hty, (countStacksType_idle hty fp sp).2.2.1 h.1, ih h.2]

/-! ## The last lines -/

/-- The changes of the stack pointers, read from the end -/
def changes (s : List Piece) : Int × Int :=
  match s.reverse with
  | .lit _ :: .lit ";\n" :: .num fp :: .lit _ :: .lit ";\n" :: .num sp :: _ => (sp, fp)
  | .lit _ :: .lit ";\n" :: .num n :: .lit text :: _ =>
      if text = "  x.spx += " then (n, 0) else (0, n)
  | _ => (0, 0)

/-- A call ends with a parenthesis. -/
theorem Callee.text_end (callee : Callee) : ∃ s, callee.text = s ++ [.lit ")"] := by
  cases callee with
  | func name args => exact ⟨_, rfl⟩
  | const name => exact ⟨[.lit "(", .text name], rfl⟩
  | var name => exact ⟨[.lit "&(", .text name], rfl⟩

/-- So does a statement. -/
theorem Target.text_end (target : Target) (callee : Callee) :
    ∃ s, target.text callee.text = s ++ [.lit ")"] := by
  obtain ⟨s, hs⟩ := callee.text_end
  cases target with
  | longLong | unsignedLongLong | string => exact ⟨_, rfl⟩
  | nowhere => exact ⟨s, hs⟩
  | cell | pointer | float =>
    simp only [Target.text, hs]
    exact ⟨_, (List.append_assoc _ (_ :: s) _).symm⟩

/-- The changes can be read from the text of a wrapper. -/
theorem changes_text (g : Settings) (s : List Piece) (w : Wrapper) :
    changes (s ++ w.text g) = (w.spChange, w.fpChange) := by
  obtain ⟨stmt, hstmt⟩ := w.target.text_end w.callee
  rw [Wrapper.text, hstmt]
  rcases eq_or_ne w.spChange 0 with hsp | hsp <;> rcases eq_or_ne w.fpChange 0 with hfp | hfp <;>
    cases g.isWeak <;> simp [changes, hsp, hfp]

/-! ## Wrappers -/

namespace Declaration

/-- What is generated for the declaration is a wrapper that implements it, and it changes the stack
pointers by the items of the stack effect. -/
def Wrapped (g : Settings) (d : Declaration) (tail : List Byte) : Prop :=
  ∃ (s : List Byte) (w : Wrapper),
    genWrapperFunction g (d.descriptor ++ tail) = some (headText g d.name s ++ w.text g) ∧
      Implements w d ∧ w.spChange = itemCells d.pars - cells d.ret ∧
      w.fpChange = itemFloats d.pars - floats d.ret

/-- Nothing is taken from the stacks for the cast of a value. -/
def CastIdle : Declaration → Prop
  | .value item _ => Idle item.cast
  | _ => True

theorem callee_name (d : Declaration) : d.callee.name = d.name := by
  cases d <;> rfl

/-- The casts of the parameters fit if the descriptor does. -/
theorem fits_casts {pars : List Item} (h : (functionTypes pars).length < 256) :
    ∀ i ∈ pars, i.cast.length < 256 := by
  induction pars with
  | nil => simp
  | cons i pars ih =>
    simp only [functionTypes_cons, List.length_cons, List.length_append] at h
    intro j hj
    rcases List.mem_cons.1 hj with rfl | hj
    · omega
    · exact ih (by omega) j hj

variable {d : Declaration}

/-- The call is generated. -/
theorem genWrappedCall_eq (hd : d.Typed) (hfits : d.Fits) (tail : List Byte) {fp sp : Int}
    (hcount : countStacks (d.parBytes ++ d.behind tail) d.parBytes.length 0 0 = some (fp, sp)) :
    genWrappedCall d.cType (d.parBytes ++ d.behind tail) d.parBytes.length d.callee.name fp sp =
      some d.callee.text := by
  cases d with
  | function pars ret name =>
    have hcasts := fits_casts hfits.1
    simp only [parBytes, countStacks_functionTypes hcasts, Option.some.injEq, Prod.mk.injEq,
      Int.zero_add] at hcount
    obtain ⟨rfl, rfl⟩ := hcount
    simp only [genWrappedCall, cType, parBytes, genPars_functionTypes hcasts hd.1]
    rfl
  | _ => rfl

/-- What is generated if the stacks hold so many items -/
theorem genWrapperFunction_of_count (g : Settings) (hg : g.isFunptr = false) (hd : d.Typed)
    (hfits : d.Fits) (tail : List Byte) {fp sp : Int}
    (hcount : countStacks (d.parBytes ++ d.behind tail) d.parBytes.length 0 0 = some (fp, sp)) :
    ∃ s, genWrapperFunction g (d.descriptor ++ tail) =
      some (headText g d.name s ++ (wrapperOf d.callee fp sp d.ret).text g) := by
  obtain ⟨s, hs⟩ := genWrapperFunction_eq g hfits tail
  have hbody := genBody_eq hg d.rCast hcount (libccTypes_index d.ret) hd.2.1 hd.2.2.1
    (genWrappedCall_eq hd hfits tail hcount)
  rw [callee_name] at hbody
  rw [hbody, Option.map_some] at hs
  exact ⟨s, hs⟩

/-- The stacks hold the parameters if the cast of a value is idle. -/
theorem countStacks_declared (hfits : d.Fits) (hidle : d.CastIdle) (tail : List Byte) :
    countStacks (d.parBytes ++ d.behind tail) d.parBytes.length 0 0 =
      some (itemFloats d.pars, itemCells d.pars) := by
  cases d with
  | function pars ret name =>
    rw [parBytes, countStacks_functionTypes (fits_casts hfits.1), Int.zero_add, Int.zero_add]
    rfl
  | value item name => exact countStacks_of_idle hidle _ 0 0
  | _ => exact countStacks_zero _ 0 0

/-- The cast of a value is idle if what is counted is what is declared. -/
theorem castIdle_of_count (tail : List Byte)
    (hcount : countStacks (d.parBytes ++ d.behind tail) d.parBytes.length 0 0 =
      some (itemFloats d.pars, itemCells d.pars)) : d.CastIdle := by
  cases d with
  | value item name => exact (countStacks_cast hcount).2.2 rfl rfl
  | _ => trivial

/-- If the wrapper is right, nothing is taken from the stacks for a cast. -/
theorem castIdle_of_wrapped (hg : g.isFunptr = false) (hd : d.Typed) (hfits : d.Fits)
    {tail : List Byte} (h : d.Wrapped g tail) : d.CastIdle := by
  obtain ⟨s, w, hgen, -, hsp, hfp⟩ := h
  cases hcount : countStacks (d.parBytes ++ d.behind tail) d.parBytes.length 0 0 with
  | none =>
    obtain ⟨s', hs'⟩ := genWrapperFunction_eq g hfits tail
    simp [hgen, genBody, hcount] at hs'
  | some r =>
    obtain ⟨fp, sp⟩ := r
    obtain ⟨s', hs'⟩ := d.genWrapperFunction_of_count g hg hd hfits tail hcount
    have hchanges := congrArg changes (Option.some.inj (hgen.symm.trans hs'))
    simp only [changes_text, wrapperOf, Prod.mk.injEq] at hchanges
    have hfp' : fp = itemFloats d.pars := by omega
    have hsp' : sp = itemCells d.pars := by omega
    rw [hfp', hsp'] at hcount
    exact d.castIdle_of_count tail hcount

/-- If nothing is taken from the stacks for a cast, the wrapper is right. -/
theorem wrapped_of_castIdle (hg : g.isFunptr = false) (hd : d.Typed) (hfits : d.Fits)
    (tail : List Byte) (hidle : d.CastIdle) : d.Wrapped g tail := by
  have hcount := d.countStacks_declared hfits hidle tail
  obtain ⟨s, hs⟩ := d.genWrapperFunction_of_count g hg hd hfits tail hcount
  exact ⟨s, d.wrapper, hs, d.wrapper_implements hd, rfl, rfl⟩

end Declaration

/-- What is generated for a declaration implements the declaration if and only if nothing is taken
from the stacks for the cast of a value. -/
theorem genWrapperFunction_correct (g : Settings) (hg : g.isFunptr = false) {d : Declaration}
    (hd : d.Typed) (hfits : d.Fits) (tail : List Byte) : d.Wrapped g tail ↔ d.CastIdle :=
  ⟨d.castIdle_of_wrapped hg hd hfits, d.wrapped_of_castIdle hg hd hfits tail⟩

/-- Neither weak nor a function pointer, in a C file -/
def plainSettings : Settings :=
  { isFunptr := false
    isWeak := false
    externC := []
    library := []
    ptrDeclare := []
    behindLetters := fun _ => 0#8 }

/-- {lit}`c-function fputs fputs s a -- n` -/
def fputs : Declaration :=
  .function [⟨.s, []⟩, ⟨.a, []⟩] ⟨.n, []⟩ [0x66#8, 0x70#8, 0x75#8, 0x74#8, 0x73#8]

/-- The wrapper of {lit}`fputs` is correct. -/
theorem genWrapperFunction_correct_fputs : fputs.Wrapped plainSettings [] := by
  have htyped : fputs.Typed := by
    refine ⟨fun i hi => ?_, by decide, by decide, by decide⟩
    rcases List.mem_pair.1 hi with rfl | rfl <;> decide
  have hfits : fputs.Fits := by
    refine ⟨by decide, by decide, by decide⟩
  exact (genWrapperFunction_correct plainSettings rfl htyped hfits []).2 trivial

/-- {lit}`c-value x x -- n{(int)}` -/
def valueWithCast : Declaration :=
  .value ⟨.n, [0x28#8, 0x69#8, 0x6E#8, 0x74#8, 0x29#8]⟩ [0x78#8]

/-- A value with a cast: the first byte of the cast is behind the table of types. -/
theorem not_wrapped_valueWithCast :
    ¬ ∀ (g : Settings) (d : Declaration) (tail : List Byte),
      g.isFunptr = false → d.Typed → d.Wrapped g tail := by
  intro h
  have htyped : valueWithCast.Typed :=
    ⟨by simp [valueWithCast, Declaration.pars], by decide, by decide, by decide⟩
  have hfits : valueWithCast.Fits := ⟨by decide, by decide, by decide⟩
  have hidle := Declaration.castIdle_of_wrapped rfl htyped hfits
    (h plainSettings valueWithCast [] rfl htyped)
  have hfirst : ¬ IdleByte 0x28#8 := by
    unfold IdleByte
    decide
  exact hfirst ((idle_cons _ _ _).1 hidle).1

end Wrappers
end Gforth
