import Gforth.Compile.Optimizers

/-!
# Constant folding

The meaning of the compiler's state is the effect of the code with the pending literals at its
end.  Compiling a word is correct if it changes the meaning by the effect of the word.

Main results:

- Theorem {lit}`foldConstants_meaning`: folding a word.
- Theorem {lit}`foldConstants_throws`: a word that throws at compile time is compiled
  unfolded.
-/

namespace Gforth
namespace Compile

open Lib Arith

variable {w : Nat} {F : Type} (e : Engine w F)

/-! ## Meaning -/

/-- The effect of the code after compiling the pending literals -/
def Compiler.meaning (σ : Compiler w) : Machine w F → Except Fault (Machine w F) :=
  run e σ.litsComma.code

/-- The effect of several literals -/
def pushAll (xs : List (BitVec w)) (m : Machine w F) : Except Fault (Machine w F) :=
  .ok { m with stack := xs ++ m.stack }

/-- A literal pushes its cell. -/
theorem meaning_literal (x : BitVec w) (σ : Compiler w) :
    (σ.literal x).meaning e = andThen (σ.meaning e) (push x) := by
  have hcode : (σ.literal x).litsComma.code = σ.litsComma.code ++ [.lit x] := by
    simp [Compiler.literal, Compiler.litsComma]
  rw [Compiler.meaning, run, hcode, runAll_append, runAll_singleton]
  rfl

/-- A primitive runs behind the literals. -/
theorem meaning_peepholeCompile (i : Instr w) (σ : Compiler w) :
    (σ.peepholeCompile i).meaning e = andThen (σ.meaning e) (i.step e) := by
  have hcode : (σ.peepholeCompile i).litsComma.code = σ.litsComma.code ++ [i] := by
    simp [Compiler.peepholeCompile, Compiler.litsComma]
  rw [Compiler.meaning, run, hcode, runAll_append, runAll_singleton]
  rfl

theorem meaning_cons (code : List (Instr w)) (x : BitVec w) (lits : List (BitVec w)) :
    Compiler.meaning e ⟨code, x :: lits⟩ = andThen (Compiler.meaning e ⟨code, lits⟩) (push x) :=
  meaning_literal e x ⟨code, lits⟩

theorem pushAll_cons (x : BitVec w) (xs : List (BitVec w)) :
    pushAll (F := F) (x :: xs) = andThen (pushAll xs) (push x) :=
  rfl

/-- Some literals are pushed behind the others. -/
theorem meaning_append (code : List (Instr w)) (xs lits : List (BitVec w)) :
    Compiler.meaning e ⟨code, xs ++ lits⟩ =
      andThen (Compiler.meaning e ⟨code, lits⟩) (pushAll xs) := by
  induction xs with
  | nil => exact (andThen_ok _).symm
  | cons x xs ih => rw [List.cons_append, meaning_cons, ih, andThen_assoc, pushAll_cons]

/-- A primitive that is not folded -/
theorem meaning_compileUnfolded (p : Prim) (σ : Compiler w) :
    (compileUnfolded p σ).meaning e = andThen (σ.meaning e) (p.step e) := by
  rw [compileUnfolded]
  split
  · exact meaning_peepholeCompile e (.call p) σ
  · exact meaning_peepholeCompile e (.word (.prim p)) σ

/-! ## Folding -/

/-- A word after its arguments -/
theorem pushAll_step {p : Prim} {xs : List (BitVec w)} (hlen : xs.length = p.arity) :
    andThen (pushAll xs) (p.step e) =
      match p.apply e xs with
      | .error b => fun _ => .error (.throw (Ball.number b))
      | .ok ys => pushAll ys := by
  funext m
  have hlt : ¬(xs ++ m.stack).length < p.arity := by
    rw [List.length_append]
    omega
  simp only [andThen, pushAll, Prim.step, if_neg hlt, List.take_left' hlen, List.drop_left' hlen]
  cases p.apply e xs <;> rfl

/-- A folder has the number of arguments of the word, takes them from the literal stack, puts
them back if the word throws and puts the results there otherwise. -/
structure FolderFits (p : Prim) (f : Folder w) : Prop where
  arity : p.arity = f.m
  pop : ∀ xs l, xs.length = f.m → f.pop ([], xs ++ l) = (xs, l)
  push : ∀ xs ys l, xs.length = f.m → p.apply e xs = .ok ys → (f.push (ys, l)).2 = ys ++ l
  unpop : ∀ xs l b, xs.length = f.m → p.apply e xs = .error b → (f.unpop (xs, l)).2 = xs ++ l

variable {e} {p : Prim} {f : Folder w}

/-- The steps of folding -/
theorem foldConstants_append (hf : FolderFits e p f) (code : List (Instr w))
    {xs : List (BitVec w)} (hlen : xs.length = f.m) (lits : List (BitVec w)) :
    foldConstants e p f ⟨code, xs ++ lits⟩ =
      match p.apply e xs with
      | .error _ => compileUnfolded p ⟨code, xs ++ lits⟩
      | .ok ys => ⟨code, ys ++ lits⟩ := by
  have hle : f.m ≤ (xs ++ lits).length := by
    rw [List.length_append]
    omega
  have harity : xs.length = p.arity := hlen.trans hf.arity.symm
  have hlt : ¬xs.length < p.arity := by omega
  have htake : xs.take p.arity = xs := by rw [← harity, List.take_length]
  have hdrop : xs.drop p.arity = [] := by rw [← harity, List.drop_length]
  simp only [foldConstants, if_pos hle, hf.pop xs lits hlen, catchNobt, if_neg hlt, htake, hdrop]
  cases happ : p.apply e xs with
  | error b => simp [hf.unpop xs lits b hlen happ]
  | ok ys => simp [hf.push xs ys lits hlen happ]

/-- A word that throws at compile time is compiled unfolded, with the literals that were
pending before. -/
theorem foldConstants_throws (hf : FolderFits e p f) {σ : Compiler w} (hle : f.m ≤ σ.lits.length)
    {b : Ball} (happ : p.apply e (σ.lits.take f.m) = .error b) :
    foldConstants e p f σ = compileUnfolded p σ := by
  obtain ⟨code, lits⟩ := σ
  have hsplit := List.take_append_drop f.m lits
  have hfold := foldConstants_append hf code (List.length_take_of_le hle) (lits.drop f.m)
  rw [happ, hsplit] at hfold
  exact hfold

/-- Folding or not, the word is compiled. -/
theorem foldConstants_meaning (hf : FolderFits e p f) (σ : Compiler w) :
    (foldConstants e p f σ).meaning e = andThen (σ.meaning e) (p.step e) := by
  obtain ⟨code, lits⟩ := σ
  by_cases hle : f.m ≤ lits.length
  · have hsplit := List.take_append_drop f.m lits
    have hlen : (lits.take f.m).length = f.m := List.length_take_of_le hle
    have hstep := pushAll_step e (p := p) (hlen.trans hf.arity.symm)
    have hfold := foldConstants_append hf code hlen (lits.drop f.m)
    rw [hsplit] at hfold
    rw [hfold]
    cases happ : p.apply e (lits.take f.m) with
    | error b => exact meaning_compileUnfolded e p _
    | ok ys =>
      rw [happ] at hstep
      have hmeaning := meaning_append e code (lits.take f.m) (lits.drop f.m)
      rw [hsplit] at hmeaning
      rw [meaning_append, hmeaning, andThen_assoc, hstep]
  · rw [foldConstants, if_neg hle]
    exact meaning_compileUnfolded e p _

/-! ## The folders of all words -/

variable {push : Stacks w → Stacks w}

/-- Folders for words with one argument -/
theorem FolderFits.one (harity : p.arity = 1)
    (hpush : ∀ x ys l, p.apply e [x] = .ok ys → (push (ys, l)).2 = ys ++ l) :
    FolderFits e p ⟨1, litsFrom, toLits, push⟩ where
  arity := harity
  pop := by
    intro xs l hlen
    obtain ⟨x, rfl⟩ := List.length_eq_one_iff.mp hlen
    rfl
  push := by
    intro xs ys l hlen happ
    obtain ⟨x, rfl⟩ := List.length_eq_one_iff.mp hlen
    exact hpush x ys l happ
  unpop := by
    intro xs l b hlen _
    obtain ⟨x, rfl⟩ := List.length_eq_one_iff.mp hlen
    rfl

/-- Folders for words with two arguments -/
theorem FolderFits.two (harity : p.arity = 2)
    (hpush : ∀ x2 x1 ys l, p.apply e [x2, x1] = .ok ys → (push (ys, l)).2 = ys ++ l) :
    FolderFits e p ⟨2, twoLitsFrom, toTwoLits, push⟩ where
  arity := harity
  pop := by
    intro xs l hlen
    obtain ⟨x2, x1, rfl⟩ := List.length_eq_two.mp hlen
    rfl
  push := by
    intro xs ys l hlen happ
    obtain ⟨x2, x1, rfl⟩ := List.length_eq_two.mp hlen
    exact hpush x2 x1 ys l happ
  unpop := by
    intro xs l b hlen _
    obtain ⟨x2, x1, rfl⟩ := List.length_eq_two.mp hlen
    rfl

/-- Folders for words with three arguments -/
theorem FolderFits.three (harity : p.arity = 3)
    (hpush : ∀ x3 x2 x1 ys l, p.apply e [x3, x2, x1] = .ok ys → (push (ys, l)).2 = ys ++ l) :
    FolderFits e p ⟨3, threeLitsFrom, toThreeLits, push⟩ where
  arity := harity
  pop := by
    intro xs l hlen
    obtain ⟨x3, x2, x1, rfl⟩ := List.length_eq_three.mp hlen
    rfl
  push := by
    intro xs ys l hlen happ
    obtain ⟨x3, x2, x1, rfl⟩ := List.length_eq_three.mp hlen
    exact hpush x3 x2 x1 ys l happ
  unpop := by
    intro xs l b hlen _
    obtain ⟨x3, x2, x1, rfl⟩ := List.length_eq_three.mp hlen
    rfl

/-- Four literals -/
theorem exists_of_length_four {α : Type} {xs : List α} (h : xs.length = 4) :
    ∃ x4 x3 x2 x1, xs = [x4, x3, x2, x1] := by
  match xs, h with
  | [x4, x3, x2, x1], _ => exact ⟨x4, x3, x2, x1, rfl⟩

/-- Folders for words with four arguments -/
theorem FolderFits.four (harity : p.arity = 4) (hpush : ∀ x4 x3 x2 x1 ys l,
      p.apply e [x4, x3, x2, x1] = .ok ys → (push (ys, l)).2 = ys ++ l) :
    FolderFits e p ⟨4, fourLitsFrom, toFourLits, push⟩ where
  arity := harity
  pop := by
    intro xs l hlen
    obtain ⟨x4, x3, x2, x1, rfl⟩ := exists_of_length_four hlen
    rfl
  push := by
    intro xs ys l hlen happ
    obtain ⟨x4, x3, x2, x1, rfl⟩ := exists_of_length_four hlen
    exact hpush x4 x3 x2 x1 ys l happ
  unpop := by
    intro xs l b hlen _
    obtain ⟨x4, x3, x2, x1, rfl⟩ := exists_of_length_four hlen
    rfl

/-- Pushing one result -/
theorem push_one {x : Except Ball (BitVec w)} {ys l : List (BitVec w)}
    (h : (x.map fun x => [x]) = .ok ys) : (toLits (ys, l)).2 = ys ++ l := by
  cases x with
  | error b => cases h
  | ok x =>
    cases h
    rfl

/-- Pushing two results -/
theorem push_two {x : Except Ball (BitVec w × BitVec w)} {ys l : List (BitVec w)}
    (h : x.map topTwo = .ok ys) : (toTwoLits (ys, l)).2 = ys ++ l := by
  cases x with
  | error b => cases h
  | ok x =>
    cases h
    rfl

/-- {lit}`2drop` does not throw, so it is not missed that {lit}`fold2-0` would not put back
both literals. -/
theorem FolderFits.twoDrop : FolderFits e .twoDrop (fold20 : Folder w) where
  arity := rfl
  pop := by
    intro xs l hlen
    obtain ⟨x2, x1, rfl⟩ := List.length_eq_two.mp hlen
    rfl
  push := by
    intro xs ys l hlen happ
    obtain ⟨x2, x1, rfl⟩ := List.length_eq_two.mp hlen
    cases happ
    rfl
  unpop := by
    intro xs l b hlen happ
    obtain ⟨x2, x1, rfl⟩ := List.length_eq_two.mp hlen
    cases happ

/-- Every word has the right folder. -/
theorem folderOf_fits {p : Prim} {f : Folder w} (h : folderOf p = some f) : FolderFits e p f := by
  cases p with
  | drop | unary _ | spread _ =>
    cases h
    exact .one rfl fun x ys l happ => by cases happ; rfl
  | twoDrop =>
    cases h
    exact .twoDrop
  | binary b =>
    cases h
    exact .two rfl fun x2 x1 ys l happ => push_one happ
  | pair q =>
    cases h
    exact .two rfl fun x2 x1 ys l happ => push_two happ
  | copy c =>
    cases h
    exact .two rfl fun x2 x1 ys l happ => by cases happ; rfl
  | ternary t =>
    cases h
    exact .three rfl fun x3 x2 x1 ys l happ => push_one happ
  | ternaryPair t =>
    cases h
    exact .three rfl fun x3 x2 x1 ys l happ => push_two happ
  | rotation r =>
    cases h
    exact .three rfl fun x3 x2 x1 ys l happ => by cases happ; rfl
  | doubleTest _ | doubleOp _ | twoSwap =>
    cases h
    exact .four rfl fun x4 x3 x2 x1 ys l happ => by cases happ; rfl
  | third => cases h
  | fourth => cases h

theorem folderOf_meaning {p : Prim} {f : Folder w} (h : folderOf p = some f) (σ : Compiler w) :
    (foldConstants e p f σ).meaning e = andThen (σ.meaning e) (p.step e) :=
  foldConstants_meaning (folderOf_fits h) σ

end Compile
end Gforth
