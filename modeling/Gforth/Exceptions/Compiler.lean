import Gforth.Exceptions.Machine
import Mathlib.Data.List.Induction

/-!
# Compiling exception handling

The words that compile exception frames resolve forward branches through the control-flow stack,
like {lit}`if` and {lit}`then`.  The code that they compile for nested control structures is
described by a layout with absolute addresses.

Main results:

- Theorem {lit}`compile_eq`: the words compile the layout of a program.
- Theorem {lit}`image_loaded`: the code of all words.
-/

namespace Gforth
namespace Exceptions

/-! ## Compiling words -/

/-- The threaded code, and the control-flow stack with the positions of its origs and dests -/
structure Compiler where
  code : List Instr
  cs : List Nat

/-- Change the target of a branch. -/
def Instr.setTarget (target : Nat) : Instr → Instr
  | .branch _ => .branch target
  | .qBranch _ => .qBranch target
  | .qDupQBranch _ => .qDupQBranch target
  | .firstThrowQBranch _ => .firstThrowQBranch target
  | .handlerQBranch _ => .handlerQBranch target
  | .parenTry _ => .parenTry target
  | instr => instr

namespace Compiler

/-- Compile an instruction. -/
def comma (c : Compiler) (instr : Instr) : Compiler :=
  { c with code := c.code ++ [instr] }

/-- Compile a forward branch: {lit}`>mark` -/
def mark (c : Compiler) (instr : Instr) : Compiler where
  code := c.code ++ [instr]
  cs := c.code.length :: c.cs

/-- {lit}`then`: {lit}`>resolve` -/
def then' (c : Compiler) : Compiler :=
  match c.cs with
  | [] => c
  | orig :: cs => { code := c.code.modify orig (Instr.setTarget c.code.length), cs := cs }

/-- {lit}`1 cs-roll` -/
def but (c : Compiler) : Compiler :=
  match c.cs with
  | x :: y :: cs => { c with cs := y :: x :: cs }
  | _ => c

/-- {lit}`ahead` -/
def ahead (c : Compiler) : Compiler :=
  c.mark (.branch 0)

/-- {lit}`if` -/
def if' (c : Compiler) : Compiler :=
  c.mark (.qBranch 0)

/-- {lit}`?dup-if` -/
def qDupIf (c : Compiler) : Compiler :=
  c.mark (.qDupQBranch 0)

/-- {lit}`else` -/
def else' (c : Compiler) : Compiler :=
  c.ahead.but.then'

/-- {lit}`begin` -/
def begin' (c : Compiler) : Compiler :=
  { c with cs := c.code.length :: c.cs }

/-- {lit}`again` -/
def again (c : Compiler) : Compiler :=
  match c.cs with
  | [] => c
  | dest :: cs => { code := c.code ++ [.branch dest], cs := cs }

/-- {lit}`while` -/
def while' (c : Compiler) : Compiler :=
  c.if'.but

/-- {lit}`repeat` -/
def repeat' (c : Compiler) : Compiler :=
  c.again.then'

/-- {lit}`try` -/
def try' (c : Compiler) : Compiler :=
  c.mark (.parenTry 0)

/-- {lit}`iferror` -/
def iferror (c : Compiler) : Compiler :=
  c.else'

/-- {lit}`restore` -/
def restore (c : Compiler) : Compiler :=
  c.iferror.then'

/-- {lit}`endtry` -/
def endtry (c : Compiler) : Compiler :=
  c.comma .uncatch

/-- {lit}`endtry-iferror` -/
def endtryIferror (c : Compiler) : Compiler :=
  (c.comma .uncatch).iferror.comma .uncatch

/-- {lit}`catch`: {lit}`try execute 0 uncatch exit iferror nip then endtry` -/
def catch' (c : Compiler) : Compiler :=
  let c := (((c.try'.comma .execute).comma (.prim (Regs.lit 0))).comma .uncatch).comma .exit
  (c.iferror.comma (.prim Regs.nip)).then'.endtry

/-- {lit}`throw` -/
def throw (c : Compiler) : Compiler :=
  let c := c.qDupIf
  let c := ((c.mark (.firstThrowQBranch 0)).comma (.prim Regs.storeBacktrace)).then'
  let c := ((c.mark (.handlerQBranch 0)).comma .fastThrow).then'
  (c.comma .uncaught).then'

end Compiler

/-! ## Programs -/

/-- The source code of words; {lit}`call w` is the word with the execution token {lit}`w`, where
{lit}`catch` and {lit}`throw` are words, too. -/
inductive Prog where
  | skip
  | prim (f : Regs → Option Regs)
  | toR
  | rFrom
  | toO
  | oFrom
  | call (w : Nat)
  | execute
  | fastThrow
  | seq (p q : Prog)
  | ifElse (p q : Prog)
  | whileRepeat (p q : Prog)
  | tryIferror (body handler rest : Prog)
  | tryEndtryIferror (body handler : Prog)

namespace Prog

/-- Compile the source code. -/
def compile : Prog → Compiler → Compiler
  | skip, c => c
  | prim f, c => c.comma (.prim f)
  | toR, c => c.comma .toR
  | rFrom, c => c.comma .rFrom
  | toO, c => c.comma .toO
  | oFrom, c => c.comma .oFrom
  | call w, c => c.comma (.call w)
  | execute, c => c.comma .execute
  | fastThrow, c => c.comma .fastThrow
  | seq p q, c => q.compile (p.compile c)
  | ifElse p q, c => (q.compile (p.compile c.if').else').then'
  | whileRepeat p q, c => (q.compile (p.compile c.begin').while').repeat'
  | tryIferror body handler rest, c =>
      (rest.compile (handler.compile (body.compile c.try').iferror).then').endtry
  | tryEndtryIferror body handler, c =>
      (handler.compile (body.compile c.try').endtryIferror).then'

/-- {lit}`try body restore rest endtry` -/
def tryRestore (body rest : Prog) : Prog :=
  tryIferror body skip rest

theorem compile_tryRestore (body rest : Prog) (c : Compiler) :
    (tryRestore body rest).compile c = (rest.compile (body.compile c.try').restore).endtry :=
  rfl

/-- {lit}`catch-nobt` -/
def catchNobt : Prog :=
  seq (prim Regs.exchangeFirstThrow) (seq toR (seq (call 0) (seq rFrom (prim Regs.storeFirstThrow))))

/-- The number of instructions -/
def size : Prog → Nat
  | skip => 0
  | prim _ | toR | rFrom | toO | oFrom | call _ | execute | fastThrow => 1
  | seq p q => p.size + q.size
  | ifElse p q => p.size + q.size + 2
  | whileRepeat p q => p.size + q.size + 2
  | tryIferror body handler rest => body.size + handler.size + rest.size + 3
  | tryEndtryIferror body handler => body.size + handler.size + 4

/-- The code at an address -/
def layout (a : Nat) : Prog → List Instr
  | skip => []
  | prim f => [.prim f]
  | toR => [.toR]
  | rFrom => [.rFrom]
  | toO => [.toO]
  | oFrom => [.oFrom]
  | call w => [.call w]
  | execute => [.execute]
  | fastThrow => [.fastThrow]
  | seq p q => p.layout a ++ q.layout (a + p.size)
  | ifElse p q =>
      .qBranch (a + p.size + 2) :: p.layout (a + 1) ++
        .branch (a + p.size + q.size + 2) :: q.layout (a + p.size + 2)
  | whileRepeat p q =>
      p.layout a ++ .qBranch (a + p.size + q.size + 2) :: q.layout (a + p.size + 1) ++ [.branch a]
  | tryIferror body handler rest =>
      .parenTry (a + body.size + 2) :: body.layout (a + 1) ++
        .branch (a + body.size + handler.size + 2) :: handler.layout (a + body.size + 2) ++
        rest.layout (a + body.size + handler.size + 2) ++ [.uncatch]
  | tryEndtryIferror body handler =>
      .parenTry (a + body.size + 3) :: body.layout (a + 1) ++
        .uncatch :: .branch (a + body.size + handler.size + 4) :: .uncatch ::
          handler.layout (a + body.size + 4)

/-- The code has the size of its program. -/
theorem length_layout (p : Prog) (a : Nat) : (p.layout a).length = p.size := by
  induction p generalizing a with
  | seq p q ihp ihq => simp [layout, size, ihp, ihq]
  | ifElse p q ihp ihq =>
    simp only [layout, size, List.length_append, List.length_cons, ihp, ihq]
    omega
  | whileRepeat p q ihp ihq =>
    simp only [layout, size, List.length_append, List.length_cons, List.length_nil, ihp, ihq]
    omega
  | tryIferror body handler rest ihb ihh ihr =>
    simp only [layout, size, List.length_append, List.length_cons, List.length_nil, ihb, ihh, ihr]
    omega
  | tryEndtryIferror body handler ihb ihh =>
    simp only [layout, size, List.length_append, List.length_cons, ihb, ihh]
    omega
  | _ => rfl

end Prog

/-! ## Resolving branches -/

/-- The target of a branch is set in the middle of the code. -/
theorem modify_append_length (pre post : List Instr) (instr : Instr) (f : Instr → Instr) :
    (pre ++ instr :: post).modify pre.length f = pre ++ f instr :: post := by
  induction pre with
  | nil => rfl
  | cons x pre ih =>
    rw [List.cons_append, List.length_cons, List.modify_succ_cons, ih]
    rfl

namespace Compiler

variable {c : Compiler} {pre post : List Instr} {instr : Instr} {cs : List Nat} {orig : Nat}

/-- {lit}`then` resolves the orig on the control-flow stack. -/
theorem then'_eq (pre post : List Instr) (instr : Instr) (hcode : c.code = pre ++ instr :: post)
    (hcs : c.cs = orig :: cs) (horig : orig = pre.length) :
    c.then' = ⟨pre ++ instr.setTarget (pre.length + post.length + 1) :: post, cs⟩ := by
  subst horig
  have hlen : c.code.length = pre.length + post.length + 1 := by
    rw [hcode, List.length_append, List.length_cons]
    omega
  simp only [then', hcs, hlen]
  rw [hcode, modify_append_length]

/-- {lit}`else` resolves the orig, and leaves one. -/
theorem else'_eq (hcode : c.code = pre ++ instr :: post) (hcs : c.cs = orig :: cs)
    (horig : orig = pre.length) :
    c.else' = ⟨pre ++ instr.setTarget (pre.length + post.length + 2) :: post ++ [.branch 0],
      (pre.length + post.length + 1) :: cs⟩ := by
  have hlen : c.code.length = pre.length + post.length + 1 := by
    rw [hcode, List.length_append, List.length_cons]
    omega
  have hbut : c.ahead.but =
      ⟨c.code ++ [.branch 0], orig :: (pre.length + post.length + 1) :: cs⟩ := by
    simp only [ahead, mark, but, hcs, hlen]
  rw [else', hbut, then'_eq pre (post ++ [.branch 0]) instr _ rfl horig]
  · simp [Nat.add_assoc]
  · simp [hcode]

theorem length_else' (hcode : c.code = pre ++ instr :: post) (hcs : c.cs = orig :: cs)
    (horig : orig = pre.length) : c.else'.code.length = pre.length + post.length + 2 := by
  rw [else'_eq hcode hcs horig]
  simp [Nat.add_assoc]

/-- What is compiled between {lit}`else` and {lit}`then` -/
theorem else'_then' (hcode : c.code = pre ++ instr :: post) (hcs : c.cs = orig :: cs)
    (horig : orig = pre.length) (more : List Instr) :
    then' ⟨c.else'.code ++ more, c.else'.cs⟩ =
      ⟨pre ++ instr.setTarget (pre.length + post.length + 2) :: post ++
        .branch (pre.length + post.length + more.length + 2) :: more, cs⟩ := by
  rw [else'_eq hcode hcs horig]
  have htarget : (pre ++ instr.setTarget (pre.length + post.length + 2) :: post).length +
      more.length + 1 = pre.length + post.length + more.length + 2 := by
    rw [List.length_append, List.length_cons]
    omega
  rw [then'_eq (pre ++ instr.setTarget (pre.length + post.length + 2) :: post) more (.branch 0)
    (by simp) rfl (by simp [Nat.add_assoc]), htarget]
  rfl

end Compiler

namespace Prog

open Compiler

/-- The compiled code -/
theorem compile_eq (p : Prog) (c : Compiler) :
    p.compile c = { c with code := c.code ++ p.layout c.code.length } := by
  induction p generalizing c with
  | skip => simp [compile, layout]
  | seq p q ihp ihq =>
    rw [compile, ihp, ihq]
    simp [layout, length_layout, List.append_assoc]
  | ifElse p q ihp ihq =>
    have hp : p.compile c.if' =
        ⟨c.code ++ .qBranch 0 :: p.layout (c.code.length + 1), c.code.length :: c.cs⟩ := by
      simp [ihp, if', mark]
    have hlen := length_else' (c := p.compile c.if') (by rw [hp]) (by rw [hp]) rfl
    rw [compile, ihq, else'_then' (by rw [hp]) (by rw [hp]) rfl, hlen]
    simp [layout, length_layout, Instr.setTarget]
  | whileRepeat p q ihp ihq =>
    have hp : q.compile (p.compile c.begin').while' =
        ⟨c.code ++ p.layout c.code.length ++ .qBranch 0 :: q.layout (c.code.length + p.size + 1),
          c.code.length :: (c.code.length + p.size) :: c.cs⟩ := by
      simp [ihp, ihq, begin', while', if', mark, but, length_layout, Nat.add_assoc]
    rw [compile, repeat', hp, again, then'_eq (c.code ++ p.layout c.code.length)
      (q.layout (c.code.length + p.size + 1) ++ [.branch c.code.length]) (.qBranch 0)
      (by simp) rfl (by simp [length_layout])]
    simp [layout, length_layout, Instr.setTarget, Nat.add_assoc]
  | tryIferror body handler rest ihb ihh ihr =>
    have hb : body.compile c.try' =
        ⟨c.code ++ .parenTry 0 :: body.layout (c.code.length + 1), c.code.length :: c.cs⟩ := by
      simp [ihb, try', mark]
    have hlen := length_else' (c := body.compile c.try') (by rw [hb]) (by rw [hb]) rfl
    rw [compile, iferror, ihh, else'_then' (by rw [hb]) (by rw [hb]) rfl, hlen, ihr]
    have hrest : c.code.length + (body.size + (handler.size + 1) + 1) =
        c.code.length + body.size + handler.size + 2 := by omega
    simp [layout, length_layout, Instr.setTarget, endtry, comma, hrest]
  | tryEndtryIferror body handler ihb ihh =>
    have hb : (body.compile c.try').comma .uncatch =
        ⟨c.code ++ .parenTry 0 :: (body.layout (c.code.length + 1) ++ [.uncatch]),
          c.code.length :: c.cs⟩ := by
      simp [ihb, try', mark, comma]
    have hlen := length_else' (c := (body.compile c.try').comma .uncatch) (by rw [hb]) (by rw [hb]) rfl
    rw [compile, endtryIferror, iferror, ihh, comma]
    simp only [List.append_assoc, List.length_append, hlen]
    rw [else'_then' (by rw [hb]) (by rw [hb]) rfl]
    have hbranch : c.code.length + (body.size + 1) + (handler.size + 1) =
        c.code.length + body.size + handler.size + 2 := by omega
    simp [layout, length_layout, Instr.setTarget, hbranch, Nat.add_assoc]
  | _ => rfl

end Prog

/-! ## The dictionary -/

/-- The code of all words, and where the code of each word starts -/
structure Dictionary where
  code : List Instr
  entries : List Nat

/-- {lit}`:` and {lit}`;` around the source code of a word -/
def Dictionary.colon (d : Dictionary) (source : Compiler → Compiler) : Dictionary where
  code := ((source ⟨d.code, []⟩).comma .exit).code
  entries := d.entries ++ [d.code.length]

/-- {lit}`catch` and {lit}`throw`, with the execution tokens 0 and 1, and the other words -/
def image (words : List Prog) : Dictionary :=
  words.foldl (fun d p => d.colon p.compile)
    (((⟨[], []⟩ : Dictionary).colon Compiler.catch').colon Compiler.throw)

/-- The code of {lit}`catch` -/
def catchCode (a : Nat) : List Instr :=
  [.parenTry (a + 6), .execute, .prim (Regs.lit 0), .uncatch, .exit, .branch (a + 7),
    .prim Regs.nip, .uncatch, .exit]

/-- The code of {lit}`throw` -/
def throwCode (a : Nat) : List Instr :=
  [.qDupQBranch (a + 6), .firstThrowQBranch (a + 3), .prim Regs.storeBacktrace,
    .handlerQBranch (a + 5), .fastThrow, .uncaught, .exit]

/-- Instructions that start at an address -/
def CodeAt (code : List Instr) : Nat → List Instr → Prop
  | _, [] => True
  | a, instr :: rest => code[a]? = some instr ∧ CodeAt code (a + 1) rest

/-- Code at an address is split at any place. -/
theorem codeAt_append {code first last : List Instr} {a : Nat} :
    CodeAt code a (first ++ last) ↔ CodeAt code a first ∧ CodeAt code (a + first.length) last := by
  induction first generalizing a with
  | nil => simp [CodeAt]
  | cons instr first ih =>
    simp only [List.cons_append, CodeAt, ih, List.length_cons, and_assoc]
    rw [Nat.add_right_comm, Nat.add_assoc]

/-- Code behind other code -/
theorem codeAt_of_append (pre code : List Instr) : CodeAt (pre ++ code) pre.length code := by
  induction code generalizing pre with
  | nil => trivial
  | cons instr code ih =>
    refine ⟨by simp, ?_⟩
    simpa using ih (pre ++ [instr])

/-- Code stays where it is when more is compiled. -/
theorem CodeAt.append_right {code rest : List Instr} {a : Nat} (h : CodeAt code a rest)
    (more : List Instr) : CodeAt (code ++ more) a rest := by
  induction rest generalizing a with
  | nil => trivial
  | cons instr rest ih =>
    obtain ⟨hinstr, hrest⟩ := h
    exact ⟨by rw [List.getElem?_append_left (List.getElem?_eq_some_iff.mp hinstr).1, hinstr],
      ih hrest⟩

/-- The code of {lit}`catch`, {lit}`throw`, and of all words is at their entries. -/
structure Loaded (code : List Instr) (entry : Nat → Option Nat) (words : List Prog) : Prop where
  catch' : ∃ a, entry 0 = some a ∧ CodeAt code a (catchCode a)
  throw : ∃ a, entry 1 = some a ∧ CodeAt code a (throwCode a)
  word : ∀ k p, words[k]? = some p →
    ∃ a, entry (k + 2) = some a ∧ CodeAt code a (p.layout a ++ [.exit])

theorem Dictionary.colon_compile (d : Dictionary) (p : Prog) :
    d.colon p.compile =
      ⟨d.code ++ (p.layout d.code.length ++ [.exit]), d.entries ++ [d.code.length]⟩ := by
  rw [colon, p.compile_eq, Compiler.comma, List.append_assoc]

/-- One more word -/
theorem Loaded.colon {d : Dictionary} {words : List Prog}
    (h : Loaded d.code (fun w => d.entries[w]?) words) (hlen : d.entries.length = words.length + 2)
    (p : Prog) : Loaded (d.colon p.compile).code (fun w => (d.colon p.compile).entries[w]?)
      (words ++ [p]) := by
  rw [d.colon_compile]
  have hold : ∀ {w a : Nat}, d.entries[w]? = some a → (d.entries ++ [d.code.length])[w]? = some a := by
    intro w a hw
    rw [List.getElem?_append_left (List.getElem?_eq_some_iff.mp hw).1, hw]
  obtain ⟨⟨ac, hac, hcatch⟩, ⟨at', hat, hthrow⟩, hword⟩ := h
  refine ⟨⟨ac, hold hac, hcatch.append_right _⟩, ⟨at', hold hat, hthrow.append_right _⟩, ?_⟩
  intro k q hq
  rcases Nat.lt_or_ge k words.length with hk | hk
  · rw [List.getElem?_append_left hk] at hq
    obtain ⟨a, ha, hcode⟩ := hword k q hq
    exact ⟨a, hold ha, hcode.append_right _⟩
  · have hk' : k = words.length := by
      have := (List.getElem?_eq_some_iff.mp hq).1
      simp only [List.length_append, List.length_cons, List.length_nil] at this
      omega
    subst hk'
    rw [List.getElem?_concat_length] at hq
    obtain rfl := Option.some.inj hq
    refine ⟨d.code.length, ?_, codeAt_of_append _ _⟩
    rw [← hlen]
    exact List.getElem?_concat_length

/-- The code that is compiled for a program -/
theorem image_loaded (words : List Prog) :
    Loaded (image words).code (fun w => (image words).entries[w]?) words ∧
      (image words).entries.length = words.length + 2 := by
  induction words using List.reverseRecOn with
  | nil =>
    refine ⟨⟨⟨0, rfl, ?_⟩, ⟨9, rfl, ?_⟩, ?_⟩, rfl⟩
    · exact ⟨rfl, rfl, rfl, rfl, rfl, rfl, rfl, rfl, rfl, trivial⟩
    · exact ⟨rfl, rfl, rfl, rfl, rfl, rfl, rfl, trivial⟩
    · intro k p hp
      cases hp
  | append_singleton words p ih =>
    have himage : image (words ++ [p]) = (image words).colon p.compile := by
      simp [image]
    rw [himage]
    refine ⟨ih.1.colon ih.2 p, ?_⟩
    rw [Dictionary.colon, List.length_append, ih.2, List.length_append]
    rfl

end Exceptions
end Gforth
