import Gforth.Compile.Division

/-!
# Optimizing preserves meaning

Every optimizer changes the meaning of the compiler's state by the effect of its word, and so
does compiling a sequence of literals and words.  The only code that has an effect where the
words would read below the bottom of the stack is no code at all, for adding 0.

Main results:

- Theorem {lit}`compileComma_refines`: the optimizer of every word.
- Theorem {lit}`compile_preserves`: sequences of literals and words.
-/

namespace Gforth
namespace Compile

open Lib Arith

variable {w : Nat} {F : Type} {e : Engine w F}

/-! ## Words that copy from a stack -/

/-- {lit}`pick` of a fixed cell -/
def copyCell (i : Nat) (m : Machine w F) : Except Fault (Machine w F) :=
  match m.stack[i]? with
  | none => .error .underflow
  | some x => .ok { m with stack := x :: m.stack }

theorem push_pick (u : BitVec w) : andThen (push u) (Word.pick.step e) = copyCell u.toNat :=
  rfl

theorem push_fpick (u : BitVec w) : andThen (push u) (Word.fpick.step e) = copyFloat u.toNat :=
  rfl

theorem dup_step : (Prim.spread .dup).step e = copyCell 0 := by
  funext m
  obtain ⟨_ | ⟨x, stack⟩, floats⟩ := m <;> rfl

theorem over_step : (Prim.copy .over).step e = copyCell 1 := by
  funext m
  obtain ⟨_ | ⟨x, _ | ⟨y, stack⟩⟩, floats⟩ := m <;> rfl

theorem third_step : Prim.third.step e = copyCell 2 := by
  funext m
  obtain ⟨_ | ⟨x, _ | ⟨y, _ | ⟨z, stack⟩⟩⟩, floats⟩ := m <;> rfl

theorem fourth_step : Prim.fourth.step e = copyCell 3 := by
  funext m
  obtain ⟨_ | ⟨x, _ | ⟨y, _ | ⟨z, _ | ⟨v, stack⟩⟩⟩⟩, floats⟩ := m <;> rfl

/-- The literals that the optimizers of {lit}`pick` and {lit}`fpick` know -/
theorem toNat_small (hw : 1 < w) :
    (0#w).toNat = 0 ∧ (1#w).toNat = 1 ∧ (2#w).toNat = 2 ∧ (3#w).toNat = 3 := by
  have hpow : 2 ^ 2 ≤ 2 ^ w := Nat.pow_le_pow_right (by decide) hw
  simp only [BitVec.toNat_ofNat]
  refine ⟨?_, ?_, ?_, ?_⟩ <;> exact Nat.mod_eq_of_lt (by omega)

/-- {lit}`pick` of a literal keeps its meaning. -/
theorem optPick_meaning (hw : 1 < w) (σ : Compiler w) :
    (optPick e σ).meaning e = andThen (σ.meaning e) (Word.pick.step e) := by
  obtain ⟨code, lits⟩ := σ
  obtain ⟨hzero, hone, htwo, hthree⟩ := toNat_small hw
  cases lits with
  | nil => exact meaning_peepholeCompile e _ _
  | cons u lits =>
    rw [meaning_cons, andThen_assoc, push_pick]
    dsimp only [optPick]
    split_ifs with h0 h1 h2 h3
    · rw [folderOf_meaning rfl, dup_step, h0, hzero]
    · rw [folderOf_meaning rfl, over_step, h1, hone]
    · rw [meaning_peepholeCompile, h2, htwo, ← third_step]
      rfl
    · rw [meaning_peepholeCompile, h3, hthree, ← fourth_step]
      rfl
    · rw [meaning_peepholeCompile, meaning_literal, andThen_assoc]
      rfl

/-- {lit}`fpick` of a literal keeps its meaning. -/
theorem optFpick_meaning (hw : 1 < w) (σ : Compiler w) :
    (optFpick σ).meaning e = andThen (σ.meaning e) (Word.fpick.step e) := by
  obtain ⟨code, lits⟩ := σ
  obtain ⟨hzero, hone, htwo, hthree⟩ := toNat_small hw
  cases lits with
  | nil => exact meaning_peepholeCompile e _ _
  | cons u lits =>
    rw [meaning_cons, andThen_assoc, push_fpick]
    dsimp only [optFpick]
    split_ifs with h0 h1 h2 h3
    · rw [meaning_peepholeCompile, h0, hzero]
      rfl
    · rw [meaning_peepholeCompile, h1, hone]
      rfl
    · rw [meaning_peepholeCompile, h2, htwo]
      rfl
    · rw [meaning_peepholeCompile, h3, hthree]
      rfl
    · rw [meaning_peepholeCompile, meaning_literal, andThen_assoc]
      rfl

/-! ## Addition, multiplication and memory -/

/-- Adding a literal, or its negative, or nothing -/
theorem optPlusMinus_refines {b : Binary} {op : BitVec w → BitVec w → BitVec w}
    (heval : ∀ x y, b.eval x y = .ok (op x y)) (hop : ∀ x y, x + op 0#w y = op x y)
    (σ : Compiler w) :
    Refines .underflow (andThen (σ.meaning e) ((Prim.binary b).step e))
      ((optPlusMinus e b op σ).meaning e) := by
  obtain ⟨code, lits⟩ := σ
  rw [optPlusMinus]
  split
  case h_1 y hlits =>
    obtain rfl : lits = [y] := hlits
    rw [meaning_cons, andThen_assoc]
    dsimp only
    split_ifs with hne
    · refine .of_eq ?_
      rw [meaning_peepholeCompile]
      congr 1
      funext m
      obtain ⟨_ | ⟨x, stack⟩, floats⟩ := m
      · rfl
      · change _ = (Prim.binary b).step e ⟨y :: x :: stack, floats⟩
        rw [Prim.step_binary, heval]
        exact congrArg (fun z => Except.ok (Machine.mk (z :: stack) floats)) (hop x y)
    · have hzero : op 0#w y = 0#w := not_not.mp hne
      rw [← andThen_ok (Compiler.meaning e ⟨code, []⟩)]
      refine .andThen (.of_eq (andThen_ok _).symm) fun m => ?_
      obtain ⟨_ | ⟨x, stack⟩, floats⟩ := m
      · exact .inl rfl
      · have hx : op x y = x := by rw [← hop, hzero, BitVec.add_zero]
        change (Prim.binary b).step e ⟨y :: x :: stack, floats⟩ = _ ∨ _ =
          (Prim.binary b).step e ⟨y :: x :: stack, floats⟩
        rw [Prim.step_binary, heval, hx]
        exact .inr rfl
  case h_2 => exact .of_eq (folderOf_meaning rfl ⟨code, lits⟩)

/-- Multiplication by a literal keeps its meaning. -/
theorem optStar_meaning (σ : Compiler w) :
    (optStar e σ).meaning e = andThen (σ.meaning e) ((Prim.binary .star).step e) := by
  obtain ⟨code, lits⟩ := σ
  rw [optStar]
  split
  case h_1 n hlits =>
    obtain rfl : lits = [n] := hlits
    rw [meaning_cons, andThen_assoc]
    dsimp only
    split_ifs with h0 h2 hcell hpow2
    · rw [meaning_literal, folderOf_meaning rfl, andThen_assoc]
      congr 1
      funext m
      obtain ⟨_ | ⟨x, stack⟩, floats⟩ := m
      · rfl
      · have hstar : (Prim.binary .star).step e ⟨0#w :: x :: stack, floats⟩ =
            .ok ⟨x * 0#w :: stack, floats⟩ := rfl
        rw [BitVec.mul_zero] at hstar
        rw [h0]
        exact hstar.symm
    · rw [folderOf_meaning rfl]
      congr 1
      funext m
      obtain ⟨_ | ⟨x, stack⟩, floats⟩ := m
      · rfl
      · rw [h2]
        exact congrArg (fun z => Except.ok (Machine.mk (z :: stack) floats)) (BitVec.mul_comm 2#w x)
    · rw [folderOf_meaning rfl]
      congr 1
      funext m
      obtain ⟨_ | ⟨x, stack⟩, floats⟩ := m
      · rfl
      · rw [hcell]
        rfl
    · obtain ⟨k, hlt, hk, hcount, -⟩ := pow2_spec hpow2
      rw [folderOf_meaning rfl, meaning_literal, andThen_assoc]
      congr 1
      refine push_binary_congr fun x => ?_
      have hn : n = BitVec.twoPow w k := by
        rw [BitVec.toNat_eq, BitVec.toNat_twoPow, hk,
          Nat.mod_eq_of_lt (Nat.pow_lt_pow_right (by decide) hlt)]
      rw [Binary.eval, Binary.eval, hcount, BitVec.shiftLeft_eq_mul_twoPow, hn]
    · rw [meaning_peepholeCompile, meaning_literal, andThen_assoc]
      rfl
  case h_2 => exact folderOf_meaning rfl ⟨code, lits⟩

/-- {lit}`array>mem` of a literal keeps its meaning. -/
theorem optArrayToMem_meaning (σ : Compiler w) :
    (optArrayToMem e σ).meaning e = andThen (σ.meaning e) ((Prim.pair .arrayToMem).step e) := by
  obtain ⟨code, lits⟩ := σ
  rw [optArrayToMem]
  split
  case h_1 n hlits =>
    obtain rfl : lits = [n] := hlits
    rw [meaning_cons, meaning_literal, optStar_meaning, meaning_literal]
    simp only [andThen_assoc]
    congr 1
    funext m
    obtain ⟨_ | ⟨x, stack⟩, floats⟩ := m
    · rfl
    · rfl
  case h_2 => exact folderOf_meaning rfl ⟨code, lits⟩

/-- {lit}`@` of a literal keeps its meaning. -/
theorem optFetch_meaning (σ : Compiler w) :
    (optFetch σ).meaning e = andThen (σ.meaning e) (Word.fetch.step e) := by
  obtain ⟨code, lits⟩ := σ
  cases lits with
  | nil => exact meaning_peepholeCompile e _ _
  | cons a lits =>
    rw [meaning_cons, andThen_assoc, optFetch, meaning_peepholeCompile]
    rfl

/-! ## All words -/

section

variable (hum : UmdivExact e.umdiv) (hw : 1 < w)

variable {σ : Compiler w}

/-- Words with a folder and no other optimizer -/
theorem compilePrim_of_folder {p : Prim} {f : Folder w} (hf : folderOf p = some f)
    (h : compilePrim e p σ = .ok (foldConstants e p f σ)) :
    ∃ σ', compilePrim e p σ = .ok σ' ∧
      Refines .underflow (andThen (σ.meaning e) (p.step e)) (σ'.meaning e) :=
  ⟨_, h, .of_eq (folderOf_meaning hf σ)⟩

/-- Words whose optimizer is correct in all cases -/
theorem refines_of_meaning {p : Prim} {opt : Except Ball (Compiler w)}
    (h : ∃ σ', opt = .ok σ' ∧ σ'.meaning e = andThen (σ.meaning e) (p.step e)) :
    ∃ σ', opt = .ok σ' ∧
      Refines .underflow (andThen (σ.meaning e) (p.step e)) (σ'.meaning e) := by
  obtain ⟨σ', hopt, hmeaning⟩ := h
  exact ⟨σ', hopt, .of_eq hmeaning⟩

include hum hw

/-- The optimizer of a primitive refines it. -/
theorem compilePrim_refines (p : Prim) (σ : Compiler w) :
    ∃ σ', compilePrim e p σ = .ok σ' ∧
      Refines .underflow (andThen (σ.meaning e) (p.step e)) (σ'.meaning e) := by
  cases p with
  | binary b =>
    cases b with
    | plus =>
      exact ⟨_, rfl, optPlusMinus_refines (fun _ _ => rfl) (fun x y => by simp) σ⟩
    | minus =>
      exact ⟨_, rfl, optPlusMinus_refines (fun _ _ => rfl)
        (fun x y => by simp [BitVec.sub_eq_add_neg]) σ⟩
    | star => exact ⟨_, rfl, .of_eq (optStar_meaning σ)⟩
    | slashF => exact refines_of_meaning (optSlashF_meaning hum hw σ)
    | modf => exact refines_of_meaning (optModf_meaning hum hw σ)
    | uSlash => exact refines_of_meaning (optUSlash_meaning hum σ)
    | umod => exact refines_of_meaning (optUmod_meaning hum σ)
    | _ => exact compilePrim_of_folder rfl rfl
  | pair q =>
    cases q with
    | arrayToMem => exact ⟨_, rfl, .of_eq (optArrayToMem_meaning σ)⟩
    | slashModf => exact refines_of_meaning (optSlashModf_meaning hum hw σ)
    | uSlashMod => exact refines_of_meaning (optUSlashMod_meaning hum σ)
    | _ => exact compilePrim_of_folder rfl rfl
  | third | fourth => exact ⟨_, rfl, .of_eq (meaning_peepholeCompile e _ σ)⟩
  | _ => exact compilePrim_of_folder rfl rfl

/-- The optimizer of a word refines it. -/
theorem compileSimple_refines {word : Word} (hword : word ≠ .execute) (σ : Compiler w) :
    ∃ σ', compileSimple e word σ = .ok σ' ∧
      Refines .underflow (andThen (σ.meaning e) (word.step e)) (σ'.meaning e) := by
  cases word with
  | prim p => exact compilePrim_refines hum hw p σ
  | pick => exact ⟨_, rfl, .of_eq (optPick_meaning hw σ)⟩
  | fpick => exact ⟨_, rfl, .of_eq (optFpick_meaning hw σ)⟩
  | fetch => exact ⟨_, rfl, .of_eq (optFetch_meaning σ)⟩
  | execute => exact absurd rfl hword
  | _ => exact ⟨_, rfl, .of_eq (meaning_peepholeCompile e _ σ)⟩

omit hum hw in
/-- {lit}`execute` of a literal has the effect of the word. -/
theorem push_execute (xt : BitVec w) :
    andThen (push xt) (Word.execute.step e) = (e.wordOf xt).step e := by
  funext m
  change executeStep e m.floats (xt :: m.stack) = _
  rw [executeStep]
  cases e.wordOf xt <;> rfl

/-- Executing a literal is compiling the word, as often as the word is {lit}`execute`. -/
theorem optExecute_refines (code : List (Instr w)) (lits : List (BitVec w)) :
    ∃ σ', optExecute e code lits = .ok σ' ∧
      Refines .underflow (andThen (Compiler.meaning e ⟨code, lits⟩) (Word.execute.step e))
        (σ'.meaning e) := by
  induction lits with
  | nil => exact ⟨_, rfl, .of_eq (meaning_peepholeCompile e _ _)⟩
  | cons xt lits ih =>
    rw [meaning_cons, andThen_assoc, push_execute]
    by_cases hword : e.wordOf xt = .execute
    · rw [hword]
      obtain ⟨σ', hσ', hrefines⟩ := ih
      refine ⟨σ', ?_, hrefines⟩
      rw [optExecute, hword]
      exact hσ'
    · obtain ⟨σ', hσ', hrefines⟩ := compileSimple_refines hum hw hword ⟨code, lits⟩
      refine ⟨σ', ?_, hrefines⟩
      rw [optExecute]
      cases hof : e.wordOf xt with
      | execute => exact absurd hof hword
      | _ =>
        rw [hof] at hσ'
        exact hσ'

/-- Compiling a word -/
theorem compileComma_refines (word : Word) (σ : Compiler w) :
    ∃ σ', compileComma e word σ = .ok σ' ∧
      Refines .underflow (andThen (σ.meaning e) (word.step e)) (σ'.meaning e) := by
  by_cases hword : word = .execute
  · rw [hword]
    exact optExecute_refines hum hw σ.code σ.lits
  · obtain ⟨σ', hσ', hrefines⟩ := compileSimple_refines hum hw hword σ
    refine ⟨σ', ?_, hrefines⟩
    rw [← hσ']
    cases word with
    | execute => exact absurd rfl hword
    | _ => rfl

/-- Compiling source code after other code -/
theorem compile_refines (items : List (Item w)) (σ : Compiler w) :
    ∃ σ', compile e items σ = .ok σ' ∧
      Refines .underflow (andThen (σ.meaning e) (run e (items.map Item.plain))) (σ'.meaning e) := by
  induction items generalizing σ with
  | nil => exact ⟨σ, rfl, .of_eq (andThen_ok _).symm⟩
  | cons item items ih =>
    have hrun : run e ((item :: items).map Item.plain) =
        andThen (item.plain.step e) (run e (items.map Item.plain)) := rfl
    rw [hrun, ← andThen_assoc]
    cases item with
    | literal x =>
      obtain ⟨σ', hσ', hrefines⟩ := ih (σ.literal x)
      refine ⟨σ', hσ', ?_⟩
      rw [meaning_literal] at hrefines
      exact hrefines
    | word name =>
      obtain ⟨σ₁, hσ₁, hword⟩ := compileComma_refines hum hw name σ
      obtain ⟨σ', hσ', hrefines⟩ := ih σ₁
      refine ⟨σ', ?_, .trans (.andThen hword (.refl _)) hrefines⟩
      rw [compile, hσ₁]
      exact hσ'

omit hum hw

/-- A folder that throws makes the compiler throw. -/
theorem foldConstants_throws_of_folder {p : Prim} {f : Folder w} (hf : folderOf p = some f)
    {b : Ball} (hle : p.arity ≤ σ.lits.length) (happ : p.apply e (σ.lits.take p.arity) = .error b) :
    foldConstants e p f σ = compileUnfolded p σ := by
  have hfits : FolderFits e p f := folderOf_fits hf
  rw [hfits.arity] at hle happ
  exact foldConstants_throws hfits hle happ

/-- Two literals at least -/
theorem exists_of_two_le_length {α : Type} {xs : List α} (h : 2 ≤ xs.length) :
    ∃ x y rest, xs = x :: y :: rest := by
  match xs, h with
  | x :: y :: rest, _ => exact ⟨x, y, rest, rfl⟩

/-- A word that throws when it is run at compile time is compiled as if there were no
optimizer, after the literals that were pending. -/
theorem compileComma_throws {p : Prim} {b : Ball} (hle : p.arity ≤ σ.lits.length)
    (happ : p.apply e (σ.lits.take p.arity) = .error b) :
    compileComma e (.prim p) σ = .ok (compileUnfolded p σ) := by
  cases hf : folderOf p with
  | none =>
    -- the words without a folder do not throw
    cases p with
    | third =>
      obtain ⟨x, y, z, hlits⟩ := List.length_eq_three.mp (List.length_take_of_le hle)
      rw [Prim.arity, hlits] at happ
      cases happ
    | fourth =>
      obtain ⟨x, y, z, v, hlits⟩ := exists_of_length_four (List.length_take_of_le hle)
      rw [Prim.arity, hlits] at happ
      cases happ
    | _ => cases hf
  | some f =>
    rw [← foldConstants_throws_of_folder hf hle happ]
    obtain ⟨code, lits⟩ := σ
    cases p with
    | binary q | pair q =>
      obtain ⟨x, y, rest, rfl⟩ := exists_of_two_le_length hle
      cases hf
      cases q <;> rfl
    | third => cases hf
    | fourth => cases hf
    | _ =>
      cases hf
      rfl

include hum hw in
/-- Compiling literals and words with the literal stack and the optimizers gives code with the
effect of the literals and words, except that it may have an effect where they read below the
bottom of a stack.  A word that throws at compile time is compiled unfolded, after the
literals that were pending before. -/
theorem compile_preserves :
    (∀ items : List (Item w), ∃ σ, compile e items ⟨[], []⟩ = .ok σ ∧
      ∀ m, run e (items.map Item.plain) m = .error .underflow ∨
        run e σ.litsComma.code m = run e (items.map Item.plain) m) ∧
    ∀ (p : Prim) (σ : Compiler w) (b : Ball), p.arity ≤ σ.lits.length →
      p.apply e (σ.lits.take p.arity) = .error b →
      compileComma e (.prim p) σ = .ok (compileUnfolded p σ) := by
  refine ⟨fun items => ?_, fun p σ b => compileComma_throws⟩
  obtain ⟨σ, hσ, hrefines⟩ := compile_refines hum hw items ⟨[], []⟩
  exact ⟨σ, hσ, hrefines⟩

end

/-- The compiler for 64-bit cells. -/
theorem compile_preserves_64 :
    (∀ items : List (Item 64), ∃ σ, compile engine64 items ⟨[], []⟩ = .ok σ ∧
      ∀ m, run engine64 (items.map Item.plain) m = .error .underflow ∨
        run engine64 σ.litsComma.code m = run engine64 (items.map Item.plain) m) ∧
    ∀ (p : Prim) (σ : Compiler 64) (b : Ball), p.arity ≤ σ.lits.length →
      p.apply engine64 (σ.lits.take p.arity) = .error b →
      compileComma engine64 (.prim p) σ = .ok (compileUnfolded p σ) :=
  compile_preserves umdiv_exact (by decide)

/-- Dividing the literal 5 by the literal 0 is left to the run. -/
example : (compile engine64 [.literal 5, .literal 0, .word (.prim (.binary .slashF))]
    ⟨[], []⟩).toOption =
      some ⟨[.lit 5, .lit 0, .word (.prim (.binary .slashF))], []⟩ := by
  decide

end Compile
end Gforth
