import Gforth.Regexp.Matching
import Gforth.Regexp.Resolving

/-!
# Regexp blocks

A compiled block takes a string from the stack, and returns whether the pattern matches at the start of
the string.

Main results:

- Theorem {lit}`compileBlock_correct`: the block ends, and finds the first result in the string.
-/

namespace Gforth
namespace Regexp

open Lib State

variable {mem : Int → Byte}

/-- {lit}`digit` -/
def digit : CharClass :=
  fun c => 0x30 ≤ c ∧ c ≤ 0x39

/-- The end of the match that a pattern finds at the start of a string -/
def Pattern.find (mem : Int → Byte) (p : Pattern) (addr : Int) (u : Nat) : Option Int :=
  (p.results mem addr (addr + u) addr).find? fun b => b ≤ addr + u

theorem Pattern.mem_of_find_eq_some {p : Pattern} {addr b : Int} {u : Nat}
    (h : p.find mem addr u = some b) : b ∈ p.results mem addr (addr + u) addr ∧ b ≤ addr + u :=
  ⟨List.mem_of_find?_eq_some h, of_decide_eq_true (List.find?_some (p := fun b => b ≤ addr + u) h)⟩

/-- The code of a block takes the first result in the string. -/
theorem runsAt_block (p : Pattern) (hp : p.proper = true) {code : List Instr} {here : Nat}
  {v : VarState}
    (h : CodeAt code here (blockCode p here v)) {addr : Int} (haddr : 0 ≤ addr) (u : Nat) :
    RunsAt mem code addr (addr + u) (here + 3) (p.find mem addr u) addr := by
  simp only [blockCode, List.append_assoc, codeAt_append_iff, List.length_cons, List.length_nil,
    p.length_code, Nat.reduceAdd] at h
  rcases h with ⟨-, hbody, hblock⟩
  have hstop : here + 3 + p.size + 2 = here + p.size + 5 := by omega
  have hfail := (codeAt_append_iff.mp hblock).2
  simp only [List.length_cons, List.length_nil, Nat.reduceAdd, hstop] at hfail
  unfold Pattern.find
  rw [← List.findSome?_guard]
  apply p.runs hp (here + 3) (here + p.size + 5) v hbody hfail haddr (by omega) addr haddr
  intro b hb
  have hle := p.le_of_mem_results addr b hb
  exact runsAt_blockEnd hblock (by omega) (by omega)

variable (mem) in
/-- A block in code calls its body and branches behind itself. -/
theorem reaches_block (p : Pattern) (hp : p.proper = true) (code behind : List Instr) (v : VarState)
    {addr : Int} (haddr : 0 ≤ addr) (u : Nat) (st rs : List Int) (startS endS last : Int)
    (vars : Nat → Int) :
    ∃ last' vars',
      Reaches (step mem (code ++ blockCode p code.length v ++ behind))
        ⟨code.length, u :: addr :: st, rs, startS, endS, last, vars⟩
        ⟨(code ++ blockCode p code.length v).length, flag (p.find mem addr u).isSome :: st, rs, addr,
          addr + u, last', vars'⟩ ∧
      ∀ c ∈ p.find mem addr u, last' = c := by
  have hblock := codeAt_append (l := blockCode p code.length v) code behind
  have hcode : CodeAt (code ++ blockCode p code.length v ++ behind) code.length
      (.call (code.length + 2) :: .branch (code.length + p.size + 8) :: .storeEnd ::
        (p.code (code.length + 3) (code.length + p.size + 5) v ++ blockEnd)) := by
    simpa [blockCode] using hblock
  rcases runsAt_block p hp hblock haddr u st (code.length + 1) rs last vars with
    ⟨last', vars', hreach, hlast⟩
  have hcall : Reaches (step mem (code ++ blockCode p code.length v ++ behind))
    ⟨code.length, u :: addr :: st, rs, startS, endS, last, vars⟩ _ :=
    (reaches_instr hcode rfl).trans (reaches_instr hcode.tail.tail rfl)
  refine ⟨last', vars', (hcall.trans hreach).trans ?_, hlast⟩
  have hhere : (code ++ blockCode p code.length v).length = code.length + p.size + 8 := by
    simp [blockCode, p.length_code]
    omega
  rw [hhere]
  exact reaches_instr hcode.tail rfl

variable (mem) in
/-- A block is compiled behind the code in front of it, and the stacks of the compiler stay as they are.
Whatever code follows, the block ends with the stacks as before but for a flag in place of the string.
  The
flag is true if a result of the pattern is in the string, and {lit}`last$` is then the first one. -/
theorem compileBlock_correct (p : Pattern) (hp : p.proper = true) (s : State)
    (hleave : ∀ a ∈ s.leaveStack, a < s.here) :
    ∃ s', compileBlock p s = some s' ∧ s.code <+: s'.code ∧ s'.cs = s.cs ∧
      s'.leaveStack = s.leaveStack ∧
        ∀ (behind : List Instr) (addr : Int), 0 ≤ addr → ∀ (u : Nat) (st rs : List Int)
          (startS endS last : Int) (vars : Nat → Int), ∃ last' vars',
            Reaches (step mem (s'.code ++ behind)) ⟨s.here, u :: addr :: st, rs, startS, endS, last,
              vars⟩
              ⟨s'.here, flag (p.find mem addr u).isSome :: st, rs, addr, addr + u, last', vars'⟩ ∧
            ∀ c ∈ p.find mem addr u, last' = c := by
  rcases s with ⟨code, cs, leaveStack, loops, v⟩
  have hcompile := compileBlock_eq p cs loops v hleave
  refine ⟨_, hcompile, List.prefix_append _ _, rfl, rfl, ?_⟩
  intro behind addr haddr u st rs startS endS last vars
  exact reaches_block mem p hp code behind _ haddr u st rs startS endS last vars

/-- The block {lit}`(( \x7b++ \d ++\x7d \d ))` at the string "123": the loop gives back a digit. -/
theorem compileBlock_correct_digits :
    ∃ s', compileBlock (.seq (.greedyPlus (.charClass false digit)) (.charClass false digit))
        ⟨[], [], [], [], 0, [], 0⟩ = some s' ∧
      ∃ vars', Reaches (step (fun a => if a < 103 then 0x31 else 0x20) (s'.code ++ []))
        ⟨0, [3, 100], [], 0, 0, 0, fun _ => 0⟩ ⟨s'.here, [-1], [], 100, 103, 103, vars'⟩ := by
  rcases compileBlock_correct (fun a => if a < 103 then 0x31 else 0x20)
    (.seq (.greedyPlus (.charClass false digit)) (.charClass false digit)) rfl
    ⟨[], [], [], [], 0, [], 0⟩ (by simp) with ⟨s', hs', -, -, -, hruns⟩
  rcases hruns [] 100 (by decide) 3 [] [] 0 0 0 fun _ => 0 with ⟨last', vars', hreach, hlast⟩
  have hfind : (Pattern.seq (.greedyPlus (.charClass false digit)) (.charClass false digit)).find
      (fun a => if a < 103 then 0x31 else 0x20) 100 3 = some 103 := by decide
  rw [hfind] at hreach hlast
  have hlast' := hlast 103 rfl
  rw [hlast'] at hreach
  exact ⟨s', hs', vars', hreach⟩

end Regexp
end Gforth
