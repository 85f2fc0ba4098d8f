import Gforth.Regexp.Compiler

/-!
# The layout of compiled patterns

Where all branches are resolved, the code of a pattern depends only on its address and on the address
to which a mismatch goes.

Main results:

- Theorem {lit}`Pattern.length_code`: the length of the code does not depend on addresses.
- Theorem {lit}`Pattern.resolveAll_holes`: the branches that wait are those to the end of the block.
-/

namespace Gforth
namespace Regexp

open Lib

/-! ## Code -/

mutual

/-- The number of instructions of a pattern -/
def Pattern.size : Pattern → Nat
  | .charClass false _ => 4
  | .charClass true _ => 3
  | .char _ _ => 5
  | .optChar _ => 4
  | .string _ => 8
  | .startOf => 3
  | .endOf => 3
  | .qEnd => 5
  | .skip => 1
  | .empty => 0
  | .seq p q => p.size + q.size
  | .group p => p.size + 4
  | .braces ps => ps.size
  | .star p => p.size + 13
  | .plus p => p.size + 16
  | .greedyStar p => p.size + 34
  | .greedyPlus p => p.size + 33

/-- The number of instructions from an alternative on -/
def Alternatives.size : Alternatives → Nat
  | .last p => p.size + 10
  | .or p ps => p.size + 7 + ps.size

end

/-- {lit}`>var` -/
def VarState.open (v : VarState) : VarState :=
  { v with vars := v.vars + 1, varstack := v.vars :: v.varstack }

/-- {lit}`var>` -/
def VarState.close (v : VarState) : VarState :=
  { v with varstack := v.varstack.tail }

/-- The variables at the next alternative -/
def VarState.next (n : Nat) (v : VarState) : VarState :=
  { v with varsmax := max v.vars v.varsmax, vars := n }

/-- The variables after all alternatives -/
def VarState.max (v : VarState) : VarState :=
  { v with vars := Max.max v.vars v.varsmax }

mutual

/-- The variables after a pattern -/
def Pattern.after : Pattern → VarState → VarState
  | .seq p q, v => q.after (p.after v)
  | .group p, v => (p.after v.open).close
  | .braces ps, v => ps.after v.vars v
  | .star p, v => p.after v
  | .plus p, v => p.after v
  | .greedyStar p, v => p.after v
  | .greedyPlus p, v => p.after v
  | _, v => v

/-- The variables after some alternatives -/
def Alternatives.after : Alternatives → Nat → VarState → VarState
  | .last p, _, v => (p.after v).max
  | .or p ps, n, v => ps.after n ((p.after v).next n)

end

/-- {lit}`?leave` -/
def qLeaveCode (fail : Nat) : List Instr :=
  [.zeroEquals, .qBranch fail]

/-- {lit}`dup fork if drop true ;s` -/
def tryCode (called next : Nat) : List Instr :=
  [Instr.dup, .call called, .qBranch next] ++ State.succeed

/-- The end of a block -/
def blockEnd : List Instr :=
  [Instr.toLast, .semis] ++ State.fail

/-- The start of a greedy loop -/
def scanCode (here body stop : Nat) : List Instr :=
  [.lit (flag false), .toR, .dup, .call body, .qBranch (here + 10), .lastS, .rFrom, .onePlus, .toR,
    .branch (here + 2), .rFrom, .branch stop]

/-- The loop that tries the saved positions -/
def retryCode (here called : Nat) (adjust : List Instr) : List Instr :=
  [Instr.uPlusDo (here + 11 + adjust.length), .call called, .qBranch (here + 10 + adjust.length), .iTick, .i,
    .minus] ++ adjust ++ [Instr.drops, .unloop, .lit (flag true), .semis, .loop (here + 1), .unloop]

mutual

/-- The code of a pattern at an address -/
def Pattern.code : Pattern → Nat → Nat → VarState → List Instr
  | .charClass false c, _, fail, _ => [Instr.charQ c, .zeroEquals] ++ qLeaveCode fail
  | .charClass true c, _, fail, _ => [Instr.charQ c] ++ qLeaveCode fail
  | .char false c, _, fail, _ => [Instr.count, .lit c.toNat, .notEquals] ++ qLeaveCode fail
  | .char true c, _, fail, _ => [Instr.count, .lit c.toNat, .equals] ++ qLeaveCode fail
  | .optChar c, _, _, _ => [.count, .lit c.toNat, .notEquals, .plus]
  | .string t, _, fail, _ =>
      [Instr.restS, .lit t.length, .umin, .compareLit t] ++ qLeaveCode fail ++ [Instr.lit t.length, .plus]
  | .startOf, _, fail, _ => [Instr.startRexQ] ++ qLeaveCode fail
  | .endOf, _, fail, _ => [Instr.endRexQ] ++ qLeaveCode fail
  | .qEnd, _, fail, _ => [Instr.dup, .endS, .uGreater] ++ qLeaveCode fail
  | .skip, _, _, _ => [.onePlus]
  | .empty, _, _, _ => []
  | .seq p q, here, fail, v =>
      p.code here fail v ++ q.code (here + p.size) fail (p.after v)
  | .group p, here, fail, v =>
      [Instr.dup, .storeVar (2 * v.vars)] ++ p.code (here + 2) fail v.open ++
        [Instr.dup, .storeVar (2 * v.vars + 1)]
  | .braces ps, here, fail, v => ps.code here fail (here + ps.size) v.vars v
  | .star p, here, _, v =>
      tryCode (here + p.size + 13) (here + 6) ++ p.code (here + 6) (here + p.size + 10) v ++
        [Instr.dup, .endS, .uGreater, .qBranch here] ++ State.fail
  | .plus p, here, _, v =>
      p.code here (here + p.size + 6) v ++ tryCode (here + p.size + 16) (here + p.size + 9) ++
        State.fail ++ [Instr.dup, .endS, .uGreater, .qBranch here] ++ State.fail
  | .greedyStar p, here, _, v =>
      scanCode here (here + 12) (here + p.size + 17) ++ p.code (here + 12) (here + p.size + 14) v ++
        blockEnd ++ [Instr.onePlus, .lit (flag false)] ++
        retryCode (here + p.size + 19) (here + p.size + 34) [Instr.oneMinus] ++
        [Instr.lit (flag false), .semis]
  | .greedyPlus p, here, _, v =>
      scanCode here (here + 12) (here + p.size + 17) ++ p.code (here + 12) (here + p.size + 14) v ++
        blockEnd ++ [Instr.lit (flag false)] ++
        retryCode (here + p.size + 18) (here + p.size + 33) [] ++ State.fail

/-- The code from an alternative on; {lit}`stop` is the address behind all of them. -/
def Alternatives.code : Alternatives → Nat → Nat → Nat → Nat → VarState → List Instr
  | .last p, here, fail, stop, _, v =>
      tryCode (here + 6) (here + p.size + 7) ++ p.code (here + 6) fail v ++ [Instr.branch stop] ++
        State.fail
  | .or p ps, here, fail, stop, n, v =>
      tryCode (here + 6) (here + p.size + 7) ++ p.code (here + 6) fail v ++ [Instr.branch stop] ++
        ps.code (here + p.size + 7) fail stop n ((p.after v).next n)

end

/-- The code of a block -/
def blockCode (p : Pattern) (here : Nat) (v : VarState) : List Instr :=
  [Instr.call (here + 2), .branch (here + p.size + 8), .storeEnd] ++
    p.code (here + 3) (here + p.size + 5) v ++ blockEnd

mutual

/-- The branches of a pattern that wait for the end of its block -/
def Pattern.holes : Pattern → Nat → List Nat
  | .charClass false _, here => [here + 3]
  | .charClass true _, here => [here + 2]
  | .char _ _, here => [here + 4]
  | .string _, here => [here + 5]
  | .startOf, here => [here + 2]
  | .endOf, here => [here + 2]
  | .qEnd, here => [here + 4]
  | .seq p q, here => p.holes here ++ q.holes (here + p.size)
  | .group p, here => p.holes (here + 2)
  | .braces ps, here => ps.holes here
  | _, _ => []

/-- The branches of alternatives that wait for the end of their block -/
def Alternatives.holes : Alternatives → Nat → List Nat
  | .last p, here => p.holes (here + 6)
  | .or p ps, here => p.holes (here + 6) ++ ps.holes (here + p.size + 7)

end

/-! ## Lengths -/

@[simp]
theorem length_qLeaveCode (fail : Nat) : (qLeaveCode fail).length = 2 :=
  rfl

@[simp]
theorem length_tryCode (called next : Nat) : (tryCode called next).length = 6 :=
  rfl

@[simp]
theorem length_fail : State.fail.length = 3 :=
  rfl

@[simp]
theorem length_succeed : State.succeed.length = 3 :=
  rfl

@[simp]
theorem length_blockEnd : blockEnd.length = 5 :=
  rfl

@[simp]
theorem length_scanCode (here body stop : Nat) : (scanCode here body stop).length = 12 :=
  rfl

/-- The number of instructions -/
@[simp]
theorem length_retryCode (here called : Nat) (adjust : List Instr) :
    (retryCode here called adjust).length = 12 + adjust.length := by
  simp [retryCode]
  omega

mutual

/-- The code of a pattern has its size. -/
theorem Pattern.length_code (p : Pattern) (here fail : Nat) (v : VarState) :
    (p.code here fail v).length = p.size := by
  cases p with
  | charClass negated c => cases negated <;> rfl
  | char negated c => cases negated <;> rfl
  | optChar c => rfl
  | string s => rfl
  | startOf => rfl
  | endOf => rfl
  | qEnd => rfl
  | skip => rfl
  | empty => rfl
  | seq p q =>
      have hp := p.length_code here fail v
      have hq := q.length_code (here + p.size) fail (p.after v)
      simp [Pattern.code, Pattern.size, hp, hq]
  | group p =>
      have hp := p.length_code (here + 2) fail v.open
      simp [Pattern.code, Pattern.size, hp]
  | braces ps => exact ps.length_code here fail (here + ps.size) v.vars v
  | star p =>
      have hp := p.length_code (here + 6) (here + p.size + 10) v
      simp [Pattern.code, Pattern.size, hp]
      omega
  | plus p =>
      have hp := p.length_code here (here + p.size + 6) v
      simp [Pattern.code, Pattern.size, hp]
  | greedyStar p | greedyPlus p =>
      have hp := p.length_code (here + 12) (here + p.size + 14) v
      simp [Pattern.code, Pattern.size, hp]
      omega

/-- The code of alternatives has its size. -/
theorem Alternatives.length_code (ps : Alternatives) (here fail stop n : Nat) (v : VarState) :
    (ps.code here fail stop n v).length = ps.size := by
  cases ps with
  | last p =>
      have hp := p.length_code (here + 6) fail v
      simp [Alternatives.code, Alternatives.size, hp]
      omega
  | or p ps =>
      have hp := p.length_code (here + 6) fail v
      have hps := ps.length_code (here + p.size + 7) fail stop n ((p.after v).next n)
      simp [Alternatives.code, Alternatives.size, hp, hps]
      omega

end

/-! ## Resolving -/

/-- Branches to one address -/
def resolveAll (target : Nat) (l : List Nat) (code : List Instr) : List Instr :=
  l.foldl (fun code addr => changeAt (Instr.setTarget target) addr code) code

@[simp]
theorem resolveAll_nil (target : Nat) (code : List Instr) : resolveAll target [] code = code :=
  rfl

@[simp]
theorem resolveAll_cons (target addr : Nat) (l : List Nat) (code : List Instr) :
    resolveAll target (addr :: l) code =
      resolveAll target l (changeAt (Instr.setTarget target) addr code) :=
  rfl

theorem resolveAll_append (target : Nat) (l l' : List Nat) (code : List Instr) :
    resolveAll target (l ++ l') code = resolveAll target l' (resolveAll target l code) := by
  simp [resolveAll]

/-- Resolving keeps the length. -/
@[simp]
theorem length_resolveAll (target : Nat) (l : List Nat) (code : List Instr) :
    (resolveAll target l code).length = code.length := by
  induction l generalizing code with
  | nil => rfl
  | cons addr l ih => rw [resolveAll_cons, ih, length_changeAt]

theorem changeAt_mid (f : Instr → Instr) (addr : Nat) (front back : List Instr) (instr : Instr)
    (h : addr = front.length) :
    changeAt f addr (front ++ instr :: back) = front ++ f instr :: back := by
  rw [h, changeAt_append_cons]

/-- The target of a test is set. -/
theorem resolve_qLeaveCode (front back : List Instr) (addr target fail : Nat)
    (h : addr = front.length + 1) :
    changeAt (Instr.setTarget target) addr (front ++ (qLeaveCode fail ++ back)) =
      front ++ (qLeaveCode target ++ back) := by
  have hmid := changeAt_mid (Instr.setTarget target) addr (front ++ [Instr.zeroEquals]) back
    (.qBranch fail) (by simp [h])
  simpa [qLeaveCode, Instr.setTarget] using hmid

mutual

/-- The branches that wait are those to the end of the block. -/
theorem Pattern.resolveAll_holes (p : Pattern) (here fail target : Nat) (v : VarState)
    (front back : List Instr) (h : here = front.length) :
    resolveAll target (p.holes here).reverse (front ++ (p.code here fail v ++ back)) =
      front ++ (p.code here target v ++ back) := by
  cases p with
  | charClass negated c =>
      cases negated with
      | false =>
          have hq := resolve_qLeaveCode (front ++ [Instr.charQ c, .zeroEquals]) back (here + 3) target fail
            (by simp [h])
          simpa [Pattern.holes, Pattern.code] using hq
      | true =>
          have hq := resolve_qLeaveCode (front ++ [Instr.charQ c]) back (here + 2) target fail (by simp [h])
          simpa [Pattern.holes, Pattern.code] using hq
  | char negated c =>
      cases negated with
      | false =>
          have hq := resolve_qLeaveCode (front ++ [Instr.count, .lit c.toNat, .notEquals]) back (here + 4)
            target fail (by simp [h])
          simpa [Pattern.holes, Pattern.code] using hq
      | true =>
          have hq := resolve_qLeaveCode (front ++ [Instr.count, .lit c.toNat, .equals]) back (here + 4)
            target fail (by simp [h])
          simpa [Pattern.holes, Pattern.code] using hq
  | optChar c => rfl
  | string s =>
      have hq := resolve_qLeaveCode (front ++ [Instr.restS, .lit s.length, .umin, .compareLit s])
        ([Instr.lit s.length, .plus] ++ back) (here + 5) target fail (by simp [h])
      simpa [Pattern.holes, Pattern.code] using hq
  | startOf =>
      have hq := resolve_qLeaveCode (front ++ [Instr.startRexQ]) back (here + 2) target fail (by simp [h])
      simpa [Pattern.holes, Pattern.code] using hq
  | endOf =>
      have hq := resolve_qLeaveCode (front ++ [Instr.endRexQ]) back (here + 2) target fail (by simp [h])
      simpa [Pattern.holes, Pattern.code] using hq
  | qEnd =>
      have hq := resolve_qLeaveCode (front ++ [Instr.dup, .endS, .uGreater]) back (here + 4) target fail
        (by simp [h])
      simpa [Pattern.holes, Pattern.code] using hq
  | skip => rfl
  | empty => rfl
  | seq p q =>
      have hq := q.resolveAll_holes (here + p.size) fail target (p.after v)
        (front ++ p.code here fail v) back (by simp [h, p.length_code])
      have hp := p.resolveAll_holes here fail target v front
        (q.code (here + p.size) target (p.after v) ++ back) h
      simp only [List.append_assoc] at hq
      simp only [Pattern.holes, Pattern.code, List.reverse_append, resolveAll_append,
        List.append_assoc, hq, hp]
  | group p =>
      have hp := p.resolveAll_holes (here + 2) fail target v.open
        (front ++ [Instr.dup, .storeVar (2 * v.vars)]) ([Instr.dup, .storeVar (2 * v.vars + 1)] ++ back)
        (by simp [h])
      simp only [List.append_assoc] at hp
      simp only [Pattern.holes, Pattern.code, List.append_assoc, hp]
  | braces ps => exact ps.resolveAll_holes here fail target (here + ps.size) v.vars v front back h
  | star p => rfl
  | plus p => rfl
  | greedyStar p => rfl
  | greedyPlus p => rfl

/-- The holes of alternatives are those of their tests. -/
theorem Alternatives.resolveAll_holes (ps : Alternatives) (here fail target stop n : Nat)
    (v : VarState) (front back : List Instr) (h : here = front.length) :
    resolveAll target (ps.holes here).reverse (front ++ (ps.code here fail stop n v ++ back)) =
      front ++ (ps.code here target stop n v ++ back) := by
  cases ps with
  | last p =>
      have hp := p.resolveAll_holes (here + 6) fail target v
        (front ++ tryCode (here + 6) (here + p.size + 7)) ([Instr.branch stop] ++ State.fail ++ back)
        (by simp [h])
      simp only [List.append_assoc] at hp
      simp only [Alternatives.holes, Alternatives.code, List.append_assoc, hp]
  | or p ps =>
      have hps := ps.resolveAll_holes (here + p.size + 7) fail target stop n ((p.after v).next n)
        (front ++ tryCode (here + 6) (here + p.size + 7) ++ p.code (here + 6) fail v ++
          [Instr.branch stop]) back (by simp [h, p.length_code]; omega)
      have hp := p.resolveAll_holes (here + 6) fail target v
        (front ++ tryCode (here + 6) (here + p.size + 7))
        ([Instr.branch stop] ++ ps.code (here + p.size + 7) target stop n ((p.after v).next n) ++ back)
        (by simp [h])
      simp only [List.append_assoc] at hps hp
      simp only [Alternatives.holes, Alternatives.code, List.reverse_append, resolveAll_append,
        List.append_assoc, hps, hp]

end

end Regexp
end Gforth
