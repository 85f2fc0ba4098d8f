import Gforth.Regexp.Layout
import Gforth.Regexp.Results

/-!
# Code that decides about a position

The code behind a position is called: it returns a flag, and after a success the end of the match is in
{lit}`last$`.  Every piece of compiled code decides in this way, if the code behind it does.

Main results:

- Theorem {lit}`runsAt_try`: code is called, and other code is tried if it fails.
- Theorem {lit}`reaches_scan`: a greedy loop saves the positions of its chain.
- Theorem {lit}`reaches_uPlusDo`: the saved positions are tried.
-/

namespace Gforth
namespace Regexp

open Lib State

variable {mem : Int → Byte} {code l : List Instr} {startS endS : Int} {addr target : Nat}

/-! ## Straight code -/

variable (mem) in
/-- Instructions one after the other -/
def runLine : List Instr → Machine → Option Machine
  | [], m => some m
  | instr :: l, m =>
      (instr.exec mem m).bind fun m' => if m'.ip = m.ip + 1 then runLine l m' else none

/-- One instruction -/
theorem reaches_instr {instr : Instr} {m m' : Machine} (h : CodeAt code m.ip (instr :: l))
    (hexec : instr.exec mem m = some m') : Reaches (step mem code) m m' := by
  apply Reaches.head _ (Reaches.refl m')
  simp [step, h.fetch, hexec]

/-- A line of instructions -/
theorem reaches_line {m m' : Machine} (h : CodeAt code m.ip l) (hrun : runLine mem l m = some m') :
    Reaches (step mem code) m m' := by
  induction l generalizing m with
  | nil =>
      cases hrun
      exact Reaches.refl _
  | cons instr l ih =>
      simp only [runLine, Option.bind_eq_some_iff, Option.ite_none_right_eq_some] at hrun
      rcases hrun with ⟨m'', hexec, hip, hrun⟩
      apply (reaches_instr h hexec).trans
      apply ih _ hrun
      rw [hip]
      exact h.tail

/-! ## Deciding -/

variable (mem code startS endS) in
/-- The code at an address decides about a position. -/
def RunsAt (addr : Nat) (result : Option Int) (a : Int) : Prop :=
  ∀ (st : List Int) (ret : Nat) (rs : List Int) (last : Int) (vars : Nat → Int), ∃ last' vars',
    Reaches (step mem code) ⟨addr, a :: st, ret :: rs, startS, endS, last, vars⟩
      ⟨ret, flag result.isSome :: st, rs, startS, endS, last', vars'⟩ ∧ ∀ c ∈ result, last' = c

variable {result result' : Option Int} {a a' : Int}

/-- Straight code in front -/
theorem runsAt_line (h : CodeAt code addr l)
    (hrun : ∀ st rs last vars, ∃ vars',
      runLine mem l ⟨addr, a :: st, rs, startS, endS, last, vars⟩ =
        some ⟨addr + l.length, a' :: st, rs, startS, endS, last, vars'⟩)
    (hrest : RunsAt mem code startS endS (addr + l.length) result a') :
    RunsAt mem code startS endS addr result a := by
  intro st ret rs last vars
  rcases hrun st (ret :: rs) last vars with ⟨vars', hline⟩
  rcases hrest st ret rs last vars' with ⟨last', vars'', hreach, hlast⟩
  exact ⟨last', vars'', (reaches_line h hline).trans hreach, hlast⟩

/-- {lit}`drop false ;S` -/
theorem runsAt_fail (h : CodeAt code addr fail) (a : Int) :
    RunsAt mem code startS endS addr none a := by
  intro st ret rs last vars
  refine ⟨last, vars, ?_, by simp⟩
  have hline : runLine mem [.drop, .lit (flag false)] ⟨addr, a :: st, ret :: rs, startS, endS, last,
      vars⟩ = some ⟨addr + 2, flag false :: st, ret :: rs, startS, endS, last, vars⟩ := by
    simp [runLine, Instr.exec]
  apply (reaches_line (CodeAt.left (r := [.semis]) h) hline).trans
  apply reaches_instr (CodeAt.right (l := [.drop, .lit (flag false)]) h)
  simp [Instr.exec]

/-- {lit}`drop true ;S` -/
theorem reaches_succeed (h : CodeAt code addr succeed) (st rs : List Int) (ret : Nat) (last : Int)
    (vars : Nat → Int) :
    Reaches (step mem code) ⟨addr, a :: st, ret :: rs, startS, endS, last, vars⟩
      ⟨ret, flag true :: st, rs, startS, endS, last, vars⟩ := by
  have hline : runLine mem [.drop, .lit (flag true)] ⟨addr, a :: st, ret :: rs, startS, endS, last,
      vars⟩ = some ⟨addr + 2, flag true :: st, ret :: rs, startS, endS, last, vars⟩ := by
    simp [runLine, Instr.exec]
  apply (reaches_line (CodeAt.left (r := [.semis]) h) hline).trans
  apply reaches_instr (CodeAt.right (l := [.drop, .lit (flag true)]) h)
  simp [Instr.exec]

/-- A branch in front of the rest -/
theorem runsAt_branch (h : CodeAt code addr (.branch target :: l))
    (hrest : RunsAt mem code startS endS target result a) :
    RunsAt mem code startS endS addr result a := by
  intro st ret rs last vars
  rcases hrest st ret rs last vars with ⟨last', vars', hreach, hlast⟩
  refine ⟨last', vars', ?_, hlast⟩
  exact (reaches_instr h (by simp [Instr.exec])).trans hreach

/-- A test, and {lit}`?leave` -/
theorem runsAt_leave {x : Int} (h : CodeAt code addr (l ++ qLeaveCode target))
    (hfail : CodeAt code target fail)
    (hrun : ∀ st rs last vars,
      runLine mem l ⟨addr, a :: st, rs, startS, endS, last, vars⟩ =
        some ⟨addr + l.length, x :: a' :: st, rs, startS, endS, last, vars⟩)
    (hrest : x = 0 → RunsAt mem code startS endS (addr + l.length + 2) result a') :
    RunsAt mem code startS endS addr (if x = 0 then result else none) a := by
  intro st ret rs last vars
  have htest := h.right
  have hzero : runLine mem [.zeroEquals] ⟨addr + l.length, x :: a' :: st, ret :: rs, startS, endS, last,
      vars⟩ = some ⟨addr + l.length + 1, flag (x = 0) :: a' :: st, ret :: rs, startS, endS, last,
        vars⟩ := by
    simp [runLine, Instr.exec]
  have hline := (reaches_line h.left (hrun st (ret :: rs) last vars)).trans
    (reaches_line (CodeAt.left (l := [.zeroEquals]) htest) hzero)
  by_cases hx : x = 0
  · rcases hrest hx st ret rs last vars with ⟨last', vars', hreach, hlast⟩
    refine ⟨last', vars', hline.trans ?_, by simpa [hx] using hlast⟩
    apply (reaches_instr (CodeAt.right (l := [.zeroEquals]) htest) rfl).trans
    simpa [hx, flag] using hreach
  · rcases runsAt_fail hfail a' st ret rs last vars with ⟨last', vars', hreach, hlast⟩
    refine ⟨last', vars', hline.trans ?_, by simp [hx]⟩
    apply (reaches_instr (CodeAt.right (l := [.zeroEquals]) htest) rfl).trans
    simpa [hx, flag] using hreach

/-- Code is called, and other code is tried if it fails. -/
theorem runsAt_try {called next : Nat} (h : CodeAt code addr (tryCode called next))
    (hcalled : RunsAt mem code startS endS called result a)
    (hnext : result = none → RunsAt mem code startS endS next result' a) :
    RunsAt mem code startS endS addr (result.or result') a := by
  intro st ret rs last vars
  have hcode : CodeAt code addr [.dup, .call called, .qBranch next, .drop, .lit (flag true), .semis] := h
  rcases hcalled (a :: st) (addr + 2) (ret :: rs) last vars with ⟨last', vars', hreach, hlast⟩
  have hcall := ((reaches_instr (m := ⟨addr, a :: st, ret :: rs, startS, endS, last, vars⟩) hcode
    rfl).trans (reaches_instr hcode.tail rfl)).trans hreach
  have hbranch : Reaches (step mem code) ⟨addr + 2, flag result.isSome :: a :: st, ret :: rs, startS,
    endS, last', vars'⟩ _ := reaches_instr hcode.tail.tail rfl
  cases result with
  | none =>
      rcases hnext rfl st ret rs last' vars' with ⟨last'', vars'', hreach', hlast'⟩
      refine ⟨last'', vars'', (hcall.trans hbranch).trans ?_, hlast'⟩
      exact hreach'
  | some c =>
      refine ⟨last', vars', (hcall.trans hbranch).trans ?_, hlast⟩
      exact reaches_succeed hcode.tail.tail.tail st rs ret last' vars'

/-! ## Greedy loops -/

/-- A greedy loop saves the positions of its chain, and their number is on the return stack. -/
theorem reaches_saved {body stop : Nat} {f : Int → List Int}
    (h : CodeAt code addr (scanCode addr body stop))
    (hbody : ∀ a, 0 ≤ a → RunsAt mem code startS endS body (within endS f a).head? a) (ha : 0 ≤ a)
    (count : Int) (st rs : List Int) (last : Int) (vars : Nat → Int) :
    ∃ last' vars', Reaches (step mem code) ⟨addr + 2, a :: st, count :: rs, startS, endS, last, vars⟩
      ⟨addr + 10, chainAll (within endS f) (remaining endS) a ++ st,
        (count + (chainAll (within endS f) (remaining endS) a).length - 1) :: rs, startS, endS, last',
        vars'⟩ := by
  generalize hn : remaining endS a = n
  induction n using Nat.strongRecOn generalizing a count st last vars with
  | _ n ih =>
      have hcode : CodeAt code (addr + 2) [.dup, .call body, .qBranch (addr + 10), .lastS, .rFrom,
        .onePlus, .toR, .branch (addr + 2), .rFrom, .branch stop] := h.tail.tail
      rcases hbody a ha (a :: st) (addr + 4) (count :: rs) last vars with ⟨last', vars', hreach, hlast⟩
      have hcall := ((reaches_instr (m := ⟨addr + 2, a :: st, count :: rs, startS, endS, last, vars⟩)
        hcode rfl).trans (reaches_instr hcode.tail rfl)).trans hreach
      have hbranch : Reaches (step mem code) ⟨addr + 4, flag (within endS f a).head?.isSome :: a ::
        st, count :: rs, startS, endS, last', vars'⟩ _ := reaches_instr hcode.tail.tail rfl
      rw [chainAll_eq (decreasing_within _ f)]
      cases hf : within endS f a with
      | nil =>
          refine ⟨last', vars', (hcall.trans hbranch).trans ?_⟩
          simpa [hf, flag] using Reaches.refl _
      | cons b l =>
          have hb : b ∈ within endS f a := by simp [hf]
          have hlt := decreasing_within _ f a b hb
          rw [mem_within] at hb
          rcases ih (remaining endS b) (by omega) (a := b) (by omega) (count + 1) (a :: st) b vars' rfl
            with ⟨last'', vars'', hreach'⟩
          have hline : runLine mem [.lastS, .rFrom, .onePlus, .toR] ⟨addr + 5, a :: st, count :: rs,
              startS, endS, b, vars'⟩ =
                some ⟨addr + 9, b :: a :: st, (count + 1) :: rs, startS, endS, b, vars'⟩ := by
            simp [runLine, Instr.exec]
          have hbehind := hcode.tail.tail.tail
          have hsave := (reaches_line (CodeAt.left (l := [.lastS, .rFrom, .onePlus, .toR]) hbehind)
            hline).trans (reaches_instr hbehind.tail.tail.tail.tail rfl)
          have hlast' : last' = b := hlast b (by simp [hf])
          rw [hf, hlast'] at hbranch hcall
          refine ⟨last'', vars'', (hcall.trans (hbranch.trans hsave)).trans ?_⟩
          simp only [List.length_append, List.length_singleton, List.append_assoc,
            List.singleton_append]
          have hcount : count + ((chainAll (within endS f) (remaining endS) b).length + 1 : Nat) - 1 =
              count + 1 + (chainAll (within endS f) (remaining endS) b).length - 1 := by omega
          rw [hcount]
          exact hreach'

/-- The start of a greedy loop -/
theorem reaches_scan {body stop : Nat} {f : Int → List Int}
    (h : CodeAt code addr (scanCode addr body stop))
    (hbody : ∀ a, 0 ≤ a → RunsAt mem code startS endS body (within endS f a).head? a) (ha : 0 ≤ a)
    (st rs : List Int) (last : Int) (vars : Nat → Int) :
    ∃ last' vars', Reaches (step mem code) ⟨addr, a :: st, rs, startS, endS, last, vars⟩
      ⟨stop, ((chainAll (within endS f) (remaining endS) a).length - 1 : Int) ::
        (chainAll (within endS f) (remaining endS) a ++ st), rs, startS, endS, last', vars'⟩ := by
  have hcode : CodeAt code (addr + 10) [.rFrom, .branch stop] :=
    h.tail.tail.tail.tail.tail.tail.tail.tail.tail.tail
  have hline : runLine mem [.lit (flag false), .toR] ⟨addr, a :: st, rs, startS, endS, last, vars⟩ =
      some ⟨addr + 2, a :: st, 0 :: rs, startS, endS, last, vars⟩ := by
    simp [runLine, Instr.exec, flag]
  rcases reaches_saved h hbody ha 0 st rs last vars with ⟨last', vars', hreach⟩
  refine ⟨last', vars', ((reaches_line (CodeAt.left (l := [.lit (flag false), .toR]) h)
    hline).trans hreach).trans ?_⟩
  apply (reaches_instr hcode rfl).trans
  apply reaches_instr hcode.tail
  simp [Instr.exec]

variable {called : Nat} {adjust : List Instr}

/-- The code makes the number of saved positions behind the current one a number of items to drop. -/
def Adjusts (mem : Int → Byte) (startS endS : Int) (adjust : List Instr) (extra : List Int) : Prop :=
  ∀ (ip n : Nat) (st rs : List Int) (last : Int) (vars : Nat → Int),
    runLine mem adjust ⟨ip, ((n : Int) + 1) :: st, rs, startS, endS, last, vars⟩ =
      some ⟨ip + adjust.length, (n + extra.length : Nat) :: st, rs, startS, endS, last, vars⟩

/-- The parts of the loop that tries the saved positions -/
theorem codeAt_retryCode (h : CodeAt code addr (retryCode addr called adjust)) :
    CodeAt code (addr + 1) [.call called, .qBranch (addr + 10 + adjust.length), .iTick, .i, .minus] ∧
      CodeAt code (addr + 6) (adjust ++ [.drops, .unloop, .lit (flag true), .semis]) ∧
        CodeAt code (addr + 10 + adjust.length) [.loop (addr + 1), .unloop] := by
  have hcode : CodeAt code addr (.uPlusDo (addr + 11 + adjust.length) :: .call called ::
      .qBranch (addr + 10 + adjust.length) :: .iTick :: .i :: .minus ::
        (adjust ++ (.drops :: .unloop :: .lit (flag true) :: .semis ::
          [.loop (addr + 1), .unloop]))) := by
    simpa [retryCode] using h
  have hbehind := hcode.tail.tail.tail.tail.tail.tail
  have hsuccess : CodeAt code (addr + 6) (adjust ++ [.drops, .unloop, .lit (flag true), .semis]) := by
    apply CodeAt.left (r := [.loop (addr + 1), .unloop])
    simpa using hbehind
  have hloop := hbehind.right.tail.tail.tail.tail
  have haddr : addr + 6 + adjust.length + 4 = addr + 10 + adjust.length := by omega
  simp only [haddr] at hloop
  exact ⟨CodeAt.left (l := [Instr.call called, .qBranch (addr + 10 + adjust.length), .iTick, .i, .minus])
    hcode.tail, hsuccess, hloop⟩

/-- One of the saved positions is tried. -/
theorem reaches_retry_one {extra : List Int} (h : CodeAt code addr (retryCode addr called adjust))
    (hadjust : Adjusts mem startS endS adjust extra)
    {b : Int} (hrest : RunsAt mem code startS endS called result b) (saved : List Int) (count : Int)
    (st : List Int) (ret : Nat) (rs : List Int) (last : Int) (vars : Nat → Int) :
    ∃ last' vars', (∀ c ∈ result, last' = c) ∧
      Reaches (step mem code) ⟨addr + 1, b :: (saved ++ (extra ++ st)),
        count :: (count + saved.length + 1) :: ret :: rs, startS, endS, last, vars⟩
        (if result.isSome then ⟨ret, flag true :: st, rs, startS, endS, last', vars'⟩
        else ⟨addr + 10 + adjust.length, saved ++ (extra ++ st),
          count :: (count + saved.length + 1) :: ret :: rs, startS, endS, last', vars'⟩) := by
  rcases codeAt_retryCode h with ⟨hcall, hsuccess, -⟩
  rcases hrest (saved ++ (extra ++ st)) (addr + 2) (count :: (count + saved.length + 1) :: ret :: rs)
    last
    vars with ⟨last', vars', hreach, hlast⟩
  have hcalled := (reaches_instr (m := ⟨addr + 1, b :: (saved ++ (extra ++ st)), count ::
    (count + saved.length + 1) :: ret :: rs, startS, endS, last, vars⟩) hcall rfl).trans hreach
  have hbranch : Reaches (step mem code) ⟨addr + 2, flag result.isSome :: (saved ++ (extra ++ st)),
    count :: (count + saved.length + 1) :: ret :: rs, startS, endS, last', vars'⟩ _ := reaches_instr
    hcall.tail rfl
  refine ⟨last', vars', hlast, (hcalled.trans hbranch).trans ?_⟩
  cases result with
  | none => exact Reaches.refl _
  | some c =>
      have hnumber : runLine mem [.iTick, .i, .minus] ⟨addr + 3, saved ++ (extra ++ st),
          count :: (count + saved.length + 1) :: ret :: rs, startS, endS, last', vars'⟩ =
            some ⟨addr + 6, ((saved.length : Int) + 1) :: (saved ++ (extra ++ st)),
              count :: (count + saved.length + 1) :: ret :: rs, startS, endS, last', vars'⟩ := by
        simp [runLine, Instr.exec]
        omega
      have hdrops : runLine mem [.drops, .unloop, .lit (flag true)] ⟨addr + 6 + adjust.length,
          (saved.length + extra.length : Nat) :: (saved ++ (extra ++ st)),
          count :: (count + saved.length + 1) :: ret :: rs, startS, endS, last', vars'⟩ =
            some ⟨addr + 6 + adjust.length + 3, flag true :: st, ret :: rs, startS, endS, last',
              vars'⟩ := by
        simp [runLine, Instr.exec, ← List.append_assoc, ← List.length_append]
      have hline := ((reaches_line hcall.tail.tail hnumber).trans (reaches_line hsuccess.left
        (hadjust (addr + 6) saved.length (saved ++ (extra ++ st)) _ last' vars'))).trans
          (reaches_line (CodeAt.left (r := [.semis]) hsuccess.right) hdrops)
      have hsemis := CodeAt.right (l := [Instr.drops, .unloop, .lit (flag true)])
        (r := [.semis]) hsuccess.right
      exact hline.trans (reaches_instr hsemis rfl)

/-- The saved positions are tried; afterwards the stack is without them. -/
theorem reaches_retry {extra : List Int} {R : Int → Option Int}
    (h : CodeAt code addr (retryCode addr called adjust))
    (hadjust : Adjusts mem startS endS adjust extra)
    (b : Int) (saved : List Int)
    (hrest : ∀ c ∈ b :: saved, RunsAt mem code startS endS called (R c) c) (count : Int)
    (st : List Int) (ret : Nat) (rs : List Int) (last : Int) (vars : Nat → Int) :
    ∃ last' vars', (∀ c ∈ (b :: saved).findSome? R, last' = c) ∧
      Reaches (step mem code) ⟨addr + 1, b :: (saved ++ (extra ++ st)),
        count :: (count + saved.length + 1) :: ret :: rs, startS, endS, last, vars⟩
        (if ((b :: saved).findSome? R).isSome then
          ⟨ret, flag true :: st, rs, startS, endS, last', vars'⟩
        else
          ⟨addr + 12 + adjust.length, extra ++ st, ret :: rs, startS, endS, last', vars'⟩) := by
  induction saved generalizing b count last vars with
  | nil =>
      rcases reaches_retry_one h hadjust (hrest b List.mem_cons_self) [] count st ret rs last vars with
        ⟨last', vars', hlast, hreach⟩
      rcases codeAt_retryCode h with ⟨-, -, hloop⟩
      cases hb : R b with
      | some c =>
          rw [hb] at hlast hreach
          exact ⟨last', vars', by simpa [hb] using hlast, by simpa [hb] using hreach⟩
      | none =>
          rw [hb] at hreach
          refine ⟨last', vars', by simp [hb], hreach.trans ?_⟩
          have hline : runLine mem [.loop (addr + 1), .unloop] ⟨addr + 10 + adjust.length, extra ++ st,
              count :: (count + 1) :: ret :: rs, startS, endS, last', vars'⟩ =
                some ⟨addr + 12 + adjust.length, extra ++ st, ret :: rs, startS, endS, last',
                  vars'⟩ := by
            simp [runLine, Instr.exec]
            omega
          simpa [hb] using reaches_line hloop hline
  | cons c saved ih =>
      rcases reaches_retry_one h hadjust (hrest b List.mem_cons_self) (c :: saved) count st ret rs
        last vars
        with ⟨last', vars', hlast, hreach⟩
      rcases codeAt_retryCode h with ⟨-, -, hloop⟩
      cases hb : R b with
      | some d =>
          rw [hb] at hlast hreach
          exact ⟨last', vars', by simpa [hb] using hlast, by simpa [hb] using hreach⟩
      | none =>
          rw [hb] at hreach
          rcases ih c (fun d hd => hrest d (List.mem_cons_of_mem b hd)) (count + 1) last' vars' with
            ⟨last'', vars'', hlast', hreach'⟩
          refine ⟨last'', vars'', by simpa [hb] using hlast', (hreach.trans ?_)⟩
          have hnext : Reaches (step mem code) ⟨addr + 10 + adjust.length, c ::
            (saved ++ (extra ++ st)), count :: (count + (saved.length + 1 : Nat) + 1) :: ret :: rs,
            startS, endS, last', vars'⟩ _ := reaches_instr hloop rfl
          have hne : ¬ count + 1 = count + (saved.length + 1 : Nat) + 1 := by omega
          have hlimit : count + 1 + saved.length + 1 = count + (saved.length + 1 : Nat) + 1 := by omega
          simp only [hne, if_false] at hnext
          rw [hlimit] at hreach'
          simpa [hb] using hnext.trans hreach'

/-- The loop over the saved positions, which is not entered if there are none -/
theorem reaches_uPlusDo {extra : List Int} {R : Int → Option Int}
    (h : CodeAt code addr (retryCode addr called adjust))
    (hadjust : Adjusts mem startS endS adjust extra)
    (saved : List Int) (hrest : ∀ c ∈ saved, RunsAt mem code startS endS called (R c) c)
    (st : List Int) (ret : Nat) (rs : List Int) (last : Int) (vars : Nat → Int) :
    ∃ last' vars', (∀ c ∈ saved.findSome? R, last' = c) ∧
      Reaches (step mem code) ⟨addr, 0 :: (saved.length : Int) :: (saved ++ (extra ++ st)), ret :: rs,
        startS, endS, last, vars⟩
        (if (saved.findSome? R).isSome then
          ⟨ret, flag true :: st, rs, startS, endS, last', vars'⟩
        else
          ⟨addr + 12 + adjust.length, extra ++ st, ret :: rs, startS, endS, last', vars'⟩) := by
  have hdo : Reaches (step mem code) ⟨addr, 0 :: (saved.length : Int) :: (saved ++ (extra ++ st)), ret
    :: rs, startS, endS, last, vars⟩ _ := reaches_instr h rfl
  cases saved with
  | nil =>
      refine ⟨last, vars, by simp, ?_⟩
      have hunloop : CodeAt code (addr + 11 + adjust.length) [.unloop] := by
        have haddr : addr + 11 + adjust.length = addr + 10 + adjust.length + 1 := by omega
        rw [haddr]
        exact (codeAt_retryCode h).2.2.tail
      have hline : runLine mem [.unloop] ⟨addr + 11 + adjust.length, extra ++ st, 0 :: 0 :: ret :: rs,
          startS, endS, last, vars⟩ =
            some ⟨addr + 12 + adjust.length, extra ++ st, ret :: rs, startS, endS, last, vars⟩ := by
        simp [runLine, Instr.exec]
        omega
      apply hdo.trans
      simpa [uLess] using reaches_line hunloop hline
  | cons b saved =>
      rcases reaches_retry h hadjust b saved hrest 0 st ret rs last vars with
        ⟨last', vars', hlast, hreach⟩
      refine ⟨last', vars', hlast, hdo.trans ?_⟩
      have henter : uLess 0 ((saved.length : Int) + 1) = true := by
        simp [uLess]
      simpa [henter] using hreach

end Regexp
end Gforth
