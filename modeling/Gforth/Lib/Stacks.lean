import Mathlib.Tactic

/-!
# Programs on two stacks

Sequences of words that work on a data stack and a return stack, with conditionals and counted
loops.  A word that finds too few items on its stacks has no result.

Main results:

- Theorem {lit}`colon_append`: programs are composed.
- Theorems {lit}`whileLoop_of_true` and {lit}`whileLoop_of_false`: a loop with a test.
- Theorem {lit}`countedLoop_run`: a loop that follows a sequence of data stacks.
-/

namespace Gforth
namespace Lib

variable {α : Type}

/-- The data stack and the return stack, each with its top first -/
structure Stacks (α : Type) where
  data : List α
  ret : List α
deriving DecidableEq

/-- The effect of a word -/
abbrev Effect (α : Type) : Type :=
  Stacks α → Option (Stacks α)

/-- The words one after the other -/
def colon : List (Effect α) → Effect α
  | [], s => some s
  | f :: fs, s => (f s).bind (colon fs)

namespace Stacks

/-! ## Words -/

/-- A literal -/
def lit (x : α) : Effect α
  | ⟨d, r⟩ => some ⟨x :: d, r⟩

/-- A word with one operand -/
def unary (f : α → α) : Effect α
  | ⟨x :: d, r⟩ => some ⟨f x :: d, r⟩
  | _ => none

/-- A word with two operands, of which the second one is the top -/
def binary (f : α → α → α) : Effect α
  | ⟨y :: x :: d, r⟩ => some ⟨f x y :: d, r⟩
  | _ => none

def dup : Effect α
  | ⟨x :: d, r⟩ => some ⟨x :: x :: d, r⟩
  | _ => none

def drop : Effect α
  | ⟨_ :: d, r⟩ => some ⟨d, r⟩
  | _ => none

def swap : Effect α
  | ⟨y :: x :: d, r⟩ => some ⟨x :: y :: d, r⟩
  | _ => none

/-- {lit}`over`, which is a word of Lean itself -/
def over' : Effect α
  | ⟨y :: x :: d, r⟩ => some ⟨x :: y :: x :: d, r⟩
  | _ => none

def rot : Effect α
  | ⟨z :: y :: x :: d, r⟩ => some ⟨x :: z :: y :: d, r⟩
  | _ => none

def notRot : Effect α
  | ⟨z :: y :: x :: d, r⟩ => some ⟨y :: x :: z :: d, r⟩
  | _ => none

def nip : Effect α
  | ⟨y :: _ :: d, r⟩ => some ⟨y :: d, r⟩
  | _ => none

def tuck : Effect α
  | ⟨y :: x :: d, r⟩ => some ⟨y :: x :: y :: d, r⟩
  | _ => none

def twoDup : Effect α
  | ⟨y :: x :: d, r⟩ => some ⟨y :: x :: y :: x :: d, r⟩
  | _ => none

/-- A copy of the item under {lit}`n` other ones -/
def pick (n : Nat) : Effect α
  | ⟨d, r⟩ => d[n]?.map fun x => ⟨x :: d, r⟩

/-- From the data stack to the return stack -/
def toR : Effect α
  | ⟨x :: d, r⟩ => some ⟨d, x :: r⟩
  | _ => none

/-- From the return stack to the data stack -/
def fromR : Effect α
  | ⟨d, x :: r⟩ => some ⟨x :: d, r⟩
  | _ => none

/-- A copy of the top of the return stack -/
def rFetch : Effect α
  | ⟨d, x :: r⟩ => some ⟨x :: d, x :: r⟩
  | _ => none

/-- A copy of the item under the top of the return stack -/
def rSecond : Effect α
  | ⟨d, y :: x :: r⟩ => some ⟨x :: d, y :: x :: r⟩
  | _ => none

/-! ## Control structures -/

/-- Depending on the top, the words of one or of the other branch -/
def ifElse (isTrue : α → Bool) (p q : List (Effect α)) : Effect α
  | ⟨x :: d, r⟩ => if isTrue x then colon p ⟨d, r⟩ else colon q ⟨d, r⟩
  | _ => none

/-- {lit}`begin`, the words of a test, {lit}`while`, the words of a body, {lit}`repeat` -/
def whileLoop (isTrue : α → Bool) (test body : List (Effect α)) : Nat → Effect α
  | 0, _ => none
  | fuel + 1, s =>
      match colon test s with
      | some ⟨x :: d, r⟩ =>
          if isTrue x then (colon body ⟨d, r⟩).bind (whileLoop isTrue test body fuel)
          else some ⟨d, r⟩
      | _ => none

variable [DecidableEq α]

/-- The passes of a counted loop; index and limit are on the return stack. -/
def passes (next : α → α) (body : List (Effect α)) : Nat → Effect α
  | 0, _ => none
  | fuel + 1, s =>
      match colon body s with
      | some ⟨d, i :: l :: r⟩ =>
          if next i = l then some ⟨d, r⟩ else passes next body fuel ⟨d, next i :: l :: r⟩
      | _ => none

/-- A counted loop from the top up to the item under it -/
def countedLoop (next : α → α) (fuel : Nat) (body : List (Effect α)) : Effect α
  | ⟨i :: l :: d, r⟩ => passes next body fuel ⟨d, i :: l :: r⟩
  | _ => none

/-- The same, but without a pass if index and limit are equal -/
def guardedLoop (next : α → α) (fuel : Nat) (body : List (Effect α)) : Effect α
  | ⟨i :: l :: d, r⟩ => if i = l then some ⟨d, r⟩ else passes next body fuel ⟨d, i :: l :: r⟩
  | _ => none

end Stacks

/-! ## Composition -/

@[simp]
theorem colon_nil (s : Stacks α) : colon [] s = some s :=
  rfl

theorem colon_cons (f : Effect α) (fs : List (Effect α)) (s : Stacks α) :
    colon (f :: fs) s = (f s).bind (colon fs) :=
  rfl

theorem colon_single (f : Effect α) (s : Stacks α) : colon [f] s = f s := by
  rw [colon_cons]
  cases f s <;> rfl

/-- A definition can be split between any two words. -/
theorem colon_append (fs gs : List (Effect α)) (s : Stacks α) :
    colon (fs ++ gs) s = (colon fs s).bind (colon gs) := by
  induction fs generalizing s with
  | nil => rfl
  | cons f fs ih =>
    rw [List.cons_append, colon_cons, colon_cons]
    cases f s with
    | none => rfl
    | some s' => exact ih s'

/-! ## Symbolic execution -/

theorem colon_cons_of_eq {f : Effect α} {s s' : Stacks α} (h : f s = some s')
    (fs : List (Effect α)) : colon (f :: fs) s = colon fs s' := by
  rw [colon_cons, h]
  rfl

namespace Stacks

variable (x y z : α) (d r : List α) (p : List (Effect α))

@[simp]
theorem colon_lit : colon (lit x :: p) ⟨d, r⟩ = colon p ⟨x :: d, r⟩ :=
  colon_cons_of_eq rfl p

@[simp]
theorem colon_unary (f : α → α) : colon (unary f :: p) ⟨x :: d, r⟩ = colon p ⟨f x :: d, r⟩ :=
  colon_cons_of_eq rfl p

@[simp]
theorem colon_binary (f : α → α → α) :
    colon (binary f :: p) ⟨y :: x :: d, r⟩ = colon p ⟨f x y :: d, r⟩ :=
  colon_cons_of_eq rfl p

@[simp]
theorem colon_dup : colon (dup :: p) ⟨x :: d, r⟩ = colon p ⟨x :: x :: d, r⟩ :=
  colon_cons_of_eq rfl p

@[simp]
theorem colon_drop : colon (drop :: p) ⟨x :: d, r⟩ = colon p ⟨d, r⟩ :=
  colon_cons_of_eq rfl p

@[simp]
theorem colon_swap : colon (swap :: p) ⟨y :: x :: d, r⟩ = colon p ⟨x :: y :: d, r⟩ :=
  colon_cons_of_eq rfl p

@[simp]
theorem colon_over : colon (over' :: p) ⟨y :: x :: d, r⟩ = colon p ⟨x :: y :: x :: d, r⟩ :=
  colon_cons_of_eq rfl p

@[simp]
theorem colon_rot : colon (rot :: p) ⟨z :: y :: x :: d, r⟩ = colon p ⟨x :: z :: y :: d, r⟩ :=
  colon_cons_of_eq rfl p

@[simp]
theorem colon_notRot :
    colon (notRot :: p) ⟨z :: y :: x :: d, r⟩ = colon p ⟨y :: x :: z :: d, r⟩ :=
  colon_cons_of_eq rfl p

@[simp]
theorem colon_nip : colon (nip :: p) ⟨y :: x :: d, r⟩ = colon p ⟨y :: d, r⟩ :=
  colon_cons_of_eq rfl p

@[simp]
theorem colon_tuck : colon (tuck :: p) ⟨y :: x :: d, r⟩ = colon p ⟨y :: x :: y :: d, r⟩ :=
  colon_cons_of_eq rfl p

@[simp]
theorem colon_twoDup :
    colon (twoDup :: p) ⟨y :: x :: d, r⟩ = colon p ⟨y :: x :: y :: x :: d, r⟩ :=
  colon_cons_of_eq rfl p

@[simp]
theorem colon_pick (n : Nat) :
    colon (pick n :: p) ⟨d, r⟩ = d[n]?.bind fun x => colon p ⟨x :: d, r⟩ := by
  rw [colon_cons, pick]
  cases d[n]? <;> rfl

@[simp]
theorem colon_toR : colon (toR :: p) ⟨x :: d, r⟩ = colon p ⟨d, x :: r⟩ :=
  colon_cons_of_eq rfl p

@[simp]
theorem colon_fromR : colon (fromR :: p) ⟨d, x :: r⟩ = colon p ⟨x :: d, r⟩ :=
  colon_cons_of_eq rfl p

@[simp]
theorem colon_rFetch : colon (rFetch :: p) ⟨d, x :: r⟩ = colon p ⟨x :: d, x :: r⟩ :=
  colon_cons_of_eq rfl p

@[simp]
theorem colon_rSecond :
    colon (rSecond :: p) ⟨d, y :: x :: r⟩ = colon p ⟨x :: d, y :: x :: r⟩ :=
  colon_cons_of_eq rfl p

/-- One of the branches runs in front of the rest of the definition. -/
@[simp]
theorem colon_ifElse (isTrue : α → Bool) (q q' : List (Effect α)) :
    colon (ifElse isTrue q q' :: p) ⟨x :: d, r⟩ =
      if isTrue x then colon (q ++ p) ⟨d, r⟩ else colon (q' ++ p) ⟨d, r⟩ := by
  rw [colon_cons, ifElse, colon_append, colon_append]
  split <;> rfl

end Stacks

/-! ## Loops with a test -/

namespace Stacks

section WhileLoop

variable {isTrue : α → Bool} {test body : List (Effect α)} {s : Stacks α} {x : α} {d r : List α}

/-- The loop goes on behind a test that gives true. -/
theorem whileLoop_of_true (fuel : Nat) {s' : Stacks α} (htest : colon test s = some ⟨x :: d, r⟩)
    (hx : isTrue x = true) (hbody : colon body ⟨d, r⟩ = some s') :
    whileLoop isTrue test body (fuel + 1) s = whileLoop isTrue test body fuel s' := by
  rw [whileLoop, htest]
  dsimp only
  rw [if_pos hx, hbody]
  rfl

/-- The loop ends behind a test that gives false. -/
theorem whileLoop_of_false (fuel : Nat) (htest : colon test s = some ⟨x :: d, r⟩)
    (hx : isTrue x = false) : whileLoop isTrue test body (fuel + 1) s = some ⟨d, r⟩ := by
  rw [whileLoop, htest]
  dsimp only
  rw [if_neg (by rw [hx]; exact Bool.false_ne_true)]

end WhileLoop

end Stacks

/-! ## Counted loops -/

namespace Stacks

variable [DecidableEq α] (next : α → α) (body : List (Effect α))

/-- A loop whose passes lead from each data stack of a sequence to the next one, while the index
goes up to the limit -/
theorem countedLoop_run (data : Nat → List α) (index : Nat → α) (limit : α) (r : List α) {k : Nat}
    (hindex : ∀ i, index (i + 1) = next (index i))
    (hbody : ∀ i < k, colon body ⟨data i, index i :: limit :: r⟩ =
      some ⟨data (i + 1), index i :: limit :: r⟩)
    (hend : index k = limit) (hbefore : ∀ i < k, 0 < i → index i ≠ limit) (hk : 0 < k)
    {fuel : Nat} (hfuel : k ≤ fuel) :
    countedLoop next fuel body ⟨index 0 :: limit :: data 0, r⟩ = some ⟨data k, r⟩ := by
  rw [countedLoop]
  induction k generalizing data index fuel with
  | zero => exact absurd hk (lt_irrefl 0)
  | succ k ih =>
    obtain ⟨fuel, rfl⟩ := Nat.exists_eq_add_of_le' (Nat.le_trans (Nat.succ_pos k) hfuel)
    rw [passes, hbody 0 hk]
    dsimp only
    rw [← hindex 0]
    rcases Nat.eq_zero_or_pos k with rfl | hpos
    · rw [if_pos hend]
    · rw [if_neg (hbefore 1 (by omega) Nat.one_pos)]
      exact ih (fun i => data (i + 1)) (fun i => index (i + 1))
        (fun i => hindex (i + 1)) (fun i hi => hbody (i + 1) (by omega)) hend
        (fun i hi hi0 => hbefore (i + 1) (by omega) (by omega)) hpos (by omega)

variable {next body} in
theorem guardedLoop_of_ne {i l : α} (h : i ≠ l) (fuel : Nat) (d r : List α) :
    guardedLoop next fuel body ⟨i :: l :: d, r⟩ = countedLoop next fuel body ⟨i :: l :: d, r⟩ :=
  if_neg h

end Stacks

end Lib
end Gforth
