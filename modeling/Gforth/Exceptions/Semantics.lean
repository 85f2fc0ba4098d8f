import Gforth.Exceptions.Compiler

/-!
# What exception handling means

The meaning of source code without exception frames and addresses: running a program either
returns, or ends in a throw that goes to the innermost {lit}`catch` or {lit}`try` around it, which
restores the stack depths that it was entered with.
-/

namespace Gforth
namespace Exceptions

/-- How a piece of code ends: with the cells that it has on the return stack, the top first; in a
throw; by doing something that is not allowed, such as popping what it did not push on the return
stack; or not within the given bound. -/
inductive Outcome where
  | ok (r : Regs) (u : List Cell)
  | threw (ball : Cell) (r : Regs)
  | stuck
  | timeout

namespace Outcome

/-- Continue if the code returned. -/
def bind (o : Outcome) (f : Regs → List Cell → Outcome) : Outcome :=
  match o with
  | ok r u => f r u
  | threw ball r => threw ball r
  | stuck => stuck
  | timeout => timeout

/-- Pop a cell from the data stack. -/
def pop (r : Regs) (f : Cell → Regs → Outcome) : Outcome :=
  match r.pop with
  | none => stuck
  | some (x, r) => f x r

/-- The end of a word or of a {lit}`try`: everything that was pushed on the return stack has been
popped. -/
def leave (u : List Cell) : Outcome → Outcome
  | ok r [] => ok r u
  | ok _ (_ :: _) => stuck
  | threw ball r => threw ball r
  | stuck => stuck
  | timeout => timeout

end Outcome

namespace Regs

/-- Entering a {lit}`try` -/
def enter (r : Regs) : Regs :=
  { r with firstThrow := if r.firstThrow = 0 then -1 else r.firstThrow }

/-- Set the depths to those of another state, and push the ball. -/
def recover (saved : Regs) (ball : Cell) (r : Regs) : Regs :=
  { r with sp := saved.sp, fp := saved.fp, lp := saved.lp, op := saved.op }.push ball

/-- What {lit}`throw` does before the frame is used -/
def thrown (r : Regs) : Regs :=
  if r.firstThrow < 0 then { r with firstThrow := 0 } else r

end Regs

/-- From {lit}`try` to {lit}`endtry`: an exception continues with the recovery code, also if it
happens there. -/
def region (recovery : Regs → Outcome) (saved : Regs) (u : List Cell) : Nat → Outcome → Outcome
  | 0, .threw _ _ => .timeout
  | k + 1, .threw ball r => region recovery saved u k (recovery (saved.recover ball r))
  | _, o => o.leave u

/-- The meaning of source code, with a bound for the nesting and the repetitions; the words 0 and 1
are {lit}`catch` and {lit}`throw`. -/
def eval (words : List Prog) : Nat → Prog → Regs → List Cell → Outcome
  | 0, _, _, _ => .timeout
  | _ + 1, .skip, r, u => .ok r u
  | _ + 1, .prim f, r, u =>
      match f r with
      | none => .stuck
      | some r => .ok r u
  | _ + 1, .toR, r, u => .pop r fun x r => .ok r (x :: u)
  | _ + 1, .rFrom, r, u =>
      match u with
      | [] => .stuck
      | x :: u => .ok (r.push x) u
  | _ + 1, .toO, r, u => .pop r fun x r' => .ok { r' with op := x } (r.op :: u)
  | _ + 1, .oFrom, r, u =>
      match u with
      | [] => .stuck
      | x :: u => .ok { r with op := x } u
  | n + 1, .call 0, r, u =>
      .pop r.enter fun xt r' =>
        match (eval words n (.call xt.toNat) r' []).leave u with
        | .ok r' u => .ok (r'.push 0) u
        | .threw ball r' =>
            match (r.recover ball r').nip with
            | none => .stuck
            | some r' => .ok r' u
        | o => o
  | _ + 1, .call 1, r, u =>
      .pop r fun ball r => if ball = 0 then .ok r u else .threw ball r.thrown
  | n + 1, .call (k + 2), r, u =>
      match words[k]? with
      | none => .stuck
      | some p => (eval words n p r []).leave u
  | n + 1, .execute, r, u => .pop r fun xt r => eval words n (.call xt.toNat) r u
  | _ + 1, .fastThrow, r, _ => .pop r fun ball r => .threw ball r
  | n + 1, .seq p q, r, u => (eval words n p r u).bind (eval words n q)
  | n + 1, .ifElse p q, r, u =>
      .pop r fun x r => if x = 0 then eval words n q r u else eval words n p r u
  | n + 1, .whileRepeat p q, r, u =>
      (eval words n p r u).bind fun r u =>
        .pop r fun x r =>
          if x = 0 then .ok r u
          else (eval words n q r u).bind (eval words n (.whileRepeat p q))
  | n + 1, .tryIferror body handler rest, r, u =>
      region (fun r => (eval words n handler r []).bind (eval words n rest)) r u n
        ((eval words n body r.enter []).bind (eval words n rest))
  | n + 1, .tryEndtryIferror body handler, r, u =>
      match (eval words n body r.enter []).leave u with
      | .threw ball r' => eval words n handler (r.recover ball r') u
      | o => o

/-- {lit}`: foo 7 throw ;  1 ['] foo catch` leaves 1 and 7. -/
example (r : Regs) (hsp : r.sp = 0) (hfirst : r.firstThrow = -1) :
    ∃ r', eval [.seq (.prim (Regs.lit 7)) (.call 1)] 6
        (.seq (.prim (Regs.lit 1)) (.seq (.prim (Regs.lit 2)) (.call 0))) r [] = .ok r' [] ∧
      r'.sp = 2 ∧ r'.ds 1 = 7 ∧ r'.ds 0 = 1 := by
  simp [eval, Outcome.bind, Outcome.pop, Outcome.leave, Regs.lit, Regs.push, Regs.pop, Regs.enter,
    Regs.recover, Regs.nip, Regs.thrown, hsp, hfirst, Function.update]

end Exceptions
end Gforth
