import Gforth.Regexp.Layout

/-!
# The compiler follows the layout

Every word of the compiler is described by what it adds to the code and by the branches that it
resolves.  From this follows the code of every pattern.

Main results:

- Theorem {lit}`Pattern.compile_eq`: the code of a pattern, with branches that wait on the leave stack.
- Theorem {lit}`compileBlock_eq`: the code of a whole block.
-/

namespace Gforth
namespace Regexp

open Lib

namespace State

variable {code : List Instr} {cs : List CsItem} {leaveStack l rest loops : List Nat} {v : VarState}
  {addr : Nat}

/-! ## Words -/

theorem commas_mk (instrs : List Instr) :
    commas instrs ⟨code, cs, leaveStack, loops, v⟩ = ⟨code ++ instrs, cs, leaveStack, loops, v⟩ :=
  rfl

theorem comma_mk (instr : Instr) :
    comma instr ⟨code, cs, leaveStack, loops, v⟩ = ⟨code ++ [instr], cs, leaveStack, loops, v⟩ :=
  rfl

theorem mark_mk (instr : Instr) : mark instr ⟨code, cs, leaveStack, loops, v⟩ =
    ⟨code ++ [instr], .orig code.length :: cs, leaveStack, loops, v⟩ :=
  rfl

theorem then'_mk : then' ⟨code, .orig addr :: cs, leaveStack, loops, v⟩ =
    some ⟨changeAt (Instr.setTarget code.length) addr code, cs, leaveStack, loops, v⟩ :=
  rfl

theorem until'_mk : until' ⟨code, .dest addr :: cs, leaveStack, loops, v⟩ =
    some ⟨code ++ [Instr.qBranch addr], cs, leaveStack, loops, v⟩ :=
  rfl

theorem qLeave_mk : qLeave ⟨code, cs, leaveStack, loops, v⟩ =
    some ⟨code ++ qLeaveCode 0, cs, (code.length + 1) :: leaveStack, loops, v⟩ := by
  simp [qLeave, toLeave, if', mark, comma, here, qLeaveCode]

theorem but_mk (x y : CsItem) : but ⟨code, x :: y :: cs, leaveStack, loops, v⟩ =
    some ⟨code, y :: x :: cs, leaveStack, loops, v⟩ :=
  rfl

theorem begin'_mk : begin' ⟨code, cs, leaveStack, loops, v⟩ =
    ⟨code, .dest code.length :: cs, leaveStack, loops, v⟩ :=
  rfl

theorem beginComma_mk : beginComma ⟨code, cs, leaveStack, loops, v⟩ =
    ⟨code, cs, leaveStack, code.length :: loops, v⟩ :=
  rfl

theorem again_mk : again ⟨code, .dest addr :: cs, leaveStack, loops, v⟩ =
    some ⟨code ++ [Instr.branch addr], cs, leaveStack, loops, v⟩ :=
  rfl

theorem toLeave_mk : toLeave ⟨code, .orig addr :: cs, leaveStack, loops, v⟩ =
    some ⟨code, cs, addr :: leaveStack, loops, v⟩ :=
  rfl

/-- {lit}`done` resolves the branches from an address on. -/
theorem doneLoop_eq (hl : ∀ a ∈ l, addr ≤ a) (hrest : ∀ a ∈ rest, a < addr) (s : State) :
    doneLoop addr (l ++ rest) s =
      { s with code := resolveAll s.here l s.code, leaveStack := rest } := by
  induction l generalizing s with
  | nil =>
      cases rest with
      | nil => rfl
      | cons orig rest =>
          have hlt := hrest orig List.mem_cons_self
          rw [List.nil_append, doneLoop, if_neg (by omega)]
          rfl
  | cons orig l ih =>
      have hle := hl orig List.mem_cons_self
      rw [List.cons_append, doneLoop, if_pos hle, ih fun a ha => hl a (List.mem_cons_of_mem orig ha)]
      simp [resolve, here]

variable (code cs l rest loops v addr) in
theorem done_mk (hl : ∀ a ∈ l, addr ≤ a) (hrest : ∀ a ∈ rest, a < addr) :
    done addr ⟨code, cs, l ++ rest, loops, v⟩ =
      ⟨resolveAll code.length l code, cs, rest, loops, v⟩ :=
  doneLoop_eq hl hrest _

variable (code cs l loops v) in
theorem doneComma_mk (hl : ∀ a ∈ l, addr ≤ a) (hrest : ∀ a ∈ rest, a < addr) :
    doneComma ⟨code, cs, l ++ rest, addr :: loops, v⟩ =
      some ⟨resolveAll code.length l code, cs, rest, loops, v⟩ :=
  congrArg some (done_mk _ _ _ _ _ _ _ hl hrest)

/-! ## Loops -/

/-- The start of code that tries the rest of the pattern -/
theorem try_mk (s : State) (hs : s = ⟨code, cs, leaveStack, loops, v⟩) :
    (s.if'.commas succeed).then' =
      some ⟨code ++ [Instr.qBranch (code.length + 4)] ++ succeed, cs, leaveStack, loops, v⟩ := by
  subst hs
  rw [if', mark_mk, commas_mk, then'_mk, List.append_assoc, List.singleton_append,
    changeAt_append_cons]
  simp [Instr.setTarget]

/-- A repetition begins with a call. -/
theorem openStar_mk : openStar ⟨code, cs, leaveStack, loops, v⟩ =
    some ⟨code ++ tryCode 0 (code.length + 6), .dest code.length :: .orig (code.length + 1) :: cs,
      leaveStack, code.length :: loops, v⟩ := by
  unfold openStar openPlus fork
  rw [begin'_mk, beginComma_mk, comma_mk, mark_mk, but_mk, Option.bind_some, try_mk _ rfl]
  simp [tryCode]

variable (code cs l rest loops v addr) in
/-- The end of a repetition -/
theorem closeStar_mk (called block : Nat) (hl : ∀ a ∈ l, block ≤ a) (hrest : ∀ a ∈ rest, a < block) :
    closeStar ⟨code, .dest addr :: .orig called :: cs, l ++ rest, block :: loops, v⟩ =
      some ⟨changeAt (Instr.setTarget (code.length + 7)) called
        (resolveAll (code.length + 4) l (code ++ [Instr.dup, .endS, .uGreater, .qBranch addr]) ++ fail),
          cs, rest, loops, v⟩ := by
  unfold closeStar
  rw [commas_mk, until'_mk, Option.bind_some, doneComma_mk _ _ _ _ _ hl hrest, Option.bind_some,
    commas_mk,
    then'_mk]
  simp

variable (code cs loops v) in
/-- The end of a repetition with one match at least -/
theorem closePlus_mk (hl : ∀ a ∈ l, addr ≤ a) (hrest : ∀ a ∈ rest, a < addr)
    (haddr : addr ≤ code.length) :
    closePlus ⟨code, .dest addr :: cs, l ++ rest, addr :: loops, v⟩ =
      some ⟨changeAt (Instr.setTarget (code.length + 16)) (code.length + 1)
        (changeAt (Instr.setTarget (code.length + 9)) (code.length + 2)
          (resolveAll (code.length + 6) l (code ++ tryCode 0 0) ++ fail) ++
            [Instr.dup, .endS, .uGreater, .qBranch addr] ++ fail), cs, rest, loops, v⟩ := by
  have hblock := closeStar_mk (changeAt
    (Instr.setTarget (code.length + 9)) (code.length + 2)
      (resolveAll (code.length + 6) l (code ++ tryCode 0 0) ++ fail)) cs [] rest loops v addr
      (code.length + 1) (code.length + 9) (by simp)
    fun a ha => (hrest a ha).trans_le (by omega)
  unfold closePlus fork if'
  rw [comma_mk, mark_mk, but_mk, Option.bind_some, mark_mk, commas_mk, doneComma_mk _ _ _ _ _ hl hrest,
    Option.bind_some, commas_mk, beginComma_mk, then'_mk, Option.bind_some]
  simp only [List.append_assoc, List.cons_append, List.nil_append, List.length_append,
    List.length_cons, List.length_nil, length_resolveAll, length_changeAt, length_succeed,
    length_fail, resolveAll_nil, tryCode, Nat.zero_add, Nat.reduceAdd, Nat.add_assoc]
    at hblock ⊢
  exact hblock

/-- A greedy repetition begins with a loop. -/
theorem openGreedy_mk : openGreedy ⟨code, cs, leaveStack, loops, v⟩ =
    some ⟨code ++ scanCode code.length (code.length + 12) 0, .orig (code.length + 11) :: cs,
      leaveStack, (code.length + 12) :: loops, v⟩ := by
  unfold openGreedy fork while' repeat' if' ahead
  rw [commas_mk, begin'_mk]
  dsimp only
  rw [comma_mk, mark_mk, but_mk, Option.bind_some, mark_mk, but_mk, Option.bind_some, commas_mk,
    again_mk, Option.bind_some, then'_mk, Option.bind_some, comma_mk,
    mark_mk, but_mk, Option.bind_some, then'_mk, Option.map_some, beginComma_mk]
  simp only [List.append_assoc, List.cons_append, List.nil_append, List.length_append,
    List.length_cons, List.length_nil, length_changeAt, Nat.zero_add, Nat.reduceAdd]
  have hqBranch := changeAt_mid (Instr.setTarget (code.length + 10)) (code.length + 4)
    (code ++ [Instr.lit (flag false), .toR, .dup, .call 0]) [.lastS, .rFrom, .onePlus, .toR, .branch
    (code.length + 2)] (.qBranch 0) (by simp)
  have hcall := changeAt_mid (Instr.setTarget (code.length + 12)) (code.length + 3)
    (code ++ [Instr.lit (flag false), .toR, .dup]) [.qBranch (code.length + 10), .lastS, .rFrom, .onePlus,
    .toR, .branch (code.length + 2),
      .rFrom, .branch 0] (.call 0) (by simp)
  simp only [List.append_assoc, List.cons_append, List.nil_append, Instr.setTarget] at hqBranch hcall
  rw [hqBranch]
  simp only [List.append_assoc, List.cons_append, List.nil_append, scanCode]
  rw [hcall]

variable (code cs loops v) in
/-- The end of the body of a greedy repetition -/
theorem closeBody_mk (hl : ∀ a ∈ l, addr ≤ a) (hrest : ∀ a ∈ rest, a < addr) (stop : Nat) :
    closeBody ⟨code, .orig stop :: cs, l ++ rest, addr :: loops, v⟩ =
      some ⟨changeAt (Instr.setTarget (code.length + 5)) stop
        (resolveAll (code.length + 2) l (code ++ [Instr.toLast, .semis]) ++ fail), cs, rest, loops, v⟩ := by
  unfold closeBody
  rw [commas_mk, doneComma_mk _ _ _ _ _ hl hrest, Option.bind_some, commas_mk, then'_mk]
  simp

variable (code cs loops v) in
/-- {lit}`loop` branches back to its start. -/
theorem loop_mk (hrest : ∀ a ∈ rest, a < addr) :
    loop ⟨code, .doDest (addr + 1) :: cs, addr :: rest, loops, v⟩ =
      some ⟨changeAt (Instr.setTarget (code.length + 1)) addr (code ++ [Instr.loop (addr + 1)]) ++ [Instr.unloop],
        cs, rest, loops, v⟩ := by
  have hdone := done_mk (code ++ [Instr.loop (addr + 1)]) cs [addr] rest loops v addr (by simp) hrest
  simp only [List.singleton_append, resolveAll_cons, resolveAll_nil, List.length_append,
    List.length_singleton] at hdone
  unfold loop
  simp only [comma_mk, Nat.add_sub_cancel]
  rw [hdone]
  rfl

variable (code cs rest loops v) in
/-- The loop that tries the rest of the pattern at the saved positions -/
theorem retry_mk (adjust : List Instr) (hrest : ∀ a ∈ rest, a < code.length) :
    (uPlusDo ⟨code, cs, rest, loops, v⟩).bind (fun s => s.fork.but.bind fun s =>
      (s.if'.commas ([Instr.iTick, .i, .minus] ++ adjust ++ [Instr.drops, .unloop, .lit (flag true),
        .semis])).then'.bind loop) =
      some ⟨code ++ retryCode code.length 0 adjust, .orig (code.length + 1) :: cs, rest, loops, v⟩ := by
  unfold retryCode
  generalize hbody : ([Instr.iTick, .i, .minus] ++ adjust ++ [Instr.drops, .unloop, .lit (flag true), .semis] :
    List Instr) = body
  have hlength : body.length = adjust.length + 7 := by
    rw [← hbody]
    simp
  have hqBranch := changeAt_mid (Instr.setTarget (code.length + (body.length + 3))) (code.length + 2)
    (code ++ [Instr.uPlusDo 0, .call 0]) body (.qBranch 0) (by simp)
  have huPlusDo := changeAt_mid (Instr.setTarget (code.length + (body.length + 4))) code.length code
    (.call 0 :: .qBranch (code.length + (body.length + 3)) ::
      (body ++ [Instr.loop (code.length + 1)])) (.uPlusDo 0) rfl
  simp only [List.append_assoc, List.cons_append, List.nil_append, Instr.setTarget]
    at hqBranch huPlusDo
  have hloop := loop_mk (code ++ .uPlusDo 0 :: .call 0 ::
    .qBranch (code.length + (body.length + 3)) :: body) (.orig (code.length + 1) :: cs) loops v hrest
  simp only [List.append_assoc, List.cons_append, List.length_append, List.length_cons, Nat.add_assoc,
    Nat.reduceAdd] at hloop
  unfold uPlusDo fork if'
  rw [mark_mk, toLeave_mk, Option.map_some, Option.bind_some, mark_mk, but_mk, Option.bind_some,
    mark_mk, commas_mk, then'_mk, Option.bind_some]
  simp only [List.append_assoc, List.cons_append, List.nil_append, List.length_append,
    List.length_cons, List.length_nil, Nat.zero_add, Nat.reduceAdd, Nat.add_assoc, here]
  rw [hqBranch, hloop, huPlusDo]
  have hstop : 11 + adjust.length = body.length + 4 := by omega
  have hnext : 10 + adjust.length = body.length + 3 := by omega
  rw [hstop, hnext, ← hbody]
  simp

variable (code cs loops v) in
/-- The end of a greedy repetition -/
theorem closeGreedyStar_mk (hl : ∀ a ∈ l, addr ≤ a) (hrest : ∀ a ∈ rest, a < addr)
    (haddr : addr ≤ code.length) (stop : Nat) :
    closeGreedyStar ⟨code, .orig stop :: cs, l ++ rest, addr :: loops, v⟩ =
      some ⟨changeAt (Instr.setTarget (code.length + 22)) (code.length + 8)
        (changeAt (Instr.setTarget (code.length + 5)) stop
          (resolveAll (code.length + 2) l (code ++ [Instr.toLast, .semis]) ++ fail) ++
            [Instr.onePlus, .lit (flag false)] ++ retryCode (code.length + 7) 0 [Instr.oneMinus] ++
              [Instr.lit (flag false), .semis]), cs, rest, loops, v⟩ := by
  unfold closeGreedyStar
  rw [closeBody_mk _ _ _ _ hl hrest _, Option.bind_some, commas_mk]
  generalize hbase : changeAt (Instr.setTarget (code.length + 5)) stop
    (resolveAll (code.length + 2) l (code ++ [Instr.toLast, .semis]) ++ fail) ++
      [Instr.onePlus, .lit (flag false)] = base
  have hlength : base.length = code.length + 7 := by
    rw [← hbase]
    simp
  have hretry := retry_mk base cs rest loops v [.oneMinus] fun a ha => (hrest a ha).trans_le (by omega)
  have hbind := congrArg (fun s => Option.bind s fun s =>
    (s.commas [.lit (flag false), .semis]).then') hretry
  simp only [Option.bind_assoc, List.append_assoc, List.cons_append, List.nil_append] at hbind ⊢
  rw [hbind, Option.bind_some, commas_mk, then'_mk, hlength]
  simp [hlength]

variable (code cs loops v) in
/-- The end of a greedy repetition with one match at least -/
theorem closeGreedyPlus_mk (hl : ∀ a ∈ l, addr ≤ a) (hrest : ∀ a ∈ rest, a < addr)
    (haddr : addr ≤ code.length) (stop : Nat) :
    closeGreedyPlus ⟨code, .orig stop :: cs, l ++ rest, addr :: loops, v⟩ =
      some ⟨changeAt (Instr.setTarget (code.length + 21)) (code.length + 7)
        (changeAt (Instr.setTarget (code.length + 5)) stop
          (resolveAll (code.length + 2) l (code ++ [Instr.toLast, .semis]) ++ fail) ++
            [Instr.lit (flag false)] ++ retryCode (code.length + 6) 0 [] ++ fail),
          cs, rest, loops, v⟩ := by
  unfold closeGreedyPlus
  rw [closeBody_mk _ _ _ _ hl hrest _, Option.bind_some, comma_mk]
  generalize hbase : changeAt (Instr.setTarget (code.length + 5)) stop
    (resolveAll (code.length + 2) l (code ++ [Instr.toLast, .semis]) ++ fail) ++
      [Instr.lit (flag false)] = base
  have hlength : base.length = code.length + 6 := by
    rw [← hbase]
    simp
  have hretry := retry_mk base cs rest loops v [] fun a ha => (hrest a ha).trans_le (by omega)
  have hbind := congrArg (fun s => Option.bind s fun s => (s.commas fail).then') hretry
  simp only [Option.bind_assoc, List.append_assoc, List.cons_append, List.nil_append,
    List.append_nil] at hbind ⊢
  rw [hbind, Option.bind_some, commas_mk, then'_mk, hlength]
  simp [hlength]

/-! ## Alternatives -/

/-- An alternative begins with a call. -/
theorem openAlternative_mk : openAlternative ⟨code, cs, leaveStack, loops, v⟩ =
    some ⟨code ++ tryCode (code.length + 6) 0, .number v.vars :: .orig (code.length + 2) :: cs,
      leaveStack, loops, v⟩ := by
  have hcall := changeAt_mid (Instr.setTarget (code.length + 6)) (code.length + 1) (code ++ [Instr.dup])
    (.qBranch 0 :: succeed) (.call 0) (by simp)
  simp only [List.append_assoc, List.cons_append, List.nil_append, Instr.setTarget] at hcall
  unfold openAlternative fork if'
  rw [comma_mk, mark_mk, mark_mk, commas_mk, but_mk, Option.bind_some, then'_mk, Option.map_some]
  simp only [List.append_assoc, List.cons_append, List.nil_append, List.length_append,
    List.length_cons, List.length_nil, length_succeed, Nat.zero_add, Nat.reduceAdd, tryCode]
  rw [hcall]

/-- The next alternative -/
theorem nextAlternative_mk {n next : Nat} :
    nextAlternative ⟨code, .number n :: .orig next :: cs, leaveStack, loops, v⟩ =
      some ⟨changeAt (Instr.setTarget (code.length + 1)) next (code ++ [Instr.branch 0]) ++
          tryCode (code.length + 7) 0,
        .number n :: .orig (code.length + 3) :: .orig code.length :: cs, leaveStack, loops,
        v.next n⟩ := by
  unfold nextAlternative ahead
  simp only [mark_mk, but_mk, Option.bind_some, then'_mk, openAlternative_mk]
  simp [VarState.next]

variable (code cs leaveStack loops v) in
/-- The branches behind all alternatives -/
theorem thens_mk (m : Nat) (origs : List Nat) :
    thens (origs.map CsItem.orig ++ .number m :: cs)
        ⟨code, origs.map CsItem.orig ++ .number m :: cs, leaveStack, loops, v⟩ =
      some ⟨resolveAll code.length origs code, cs, leaveStack, loops, v⟩ := by
  have hall : ∀ cs', thens (origs.map CsItem.orig ++ .number m :: cs)
      ⟨code, cs', leaveStack, loops, v⟩ =
        some ⟨resolveAll code.length origs code, cs, leaveStack, loops, v⟩ := by
    induction origs generalizing code with
    | nil => intro cs'; rfl
    | cons orig origs ih =>
        intro cs'
        rw [List.map_cons, List.cons_append, thens]
        refine (ih _ cs').trans ?_
        simp [here]
  exact hall _

/-- The end of the alternatives -/
theorem closeBraces_mk {n m next : Nat} (origs : List Nat) :
    closeBraces ⟨code, .number n :: .orig next :: (origs.map CsItem.orig ++ .number m :: cs),
        leaveStack, loops, v⟩ =
      some ⟨resolveAll (code.length + 4) (code.length :: origs)
        (changeAt (Instr.setTarget (code.length + 1)) next (code ++ [Instr.branch 0]) ++ fail), cs,
          leaveStack, loops, v.max⟩ := by
  have hthens := thens_mk (changeAt (Instr.setTarget (code.length + 1)) next
    (code ++ [Instr.branch 0]) ++ fail) cs leaveStack loops v.max m (code.length :: origs)
  unfold closeBraces ahead
  simp only [mark_mk, but_mk, Option.bind_some, then'_mk, commas_mk]
  simpa [VarState.max] using hthens

end State

/-! ## Patterns -/

open State

/-- Code behind the holes is left as it is. -/
theorem resolveAll_append_left (target : Nat) {l : List Nat} {front : List Instr}
    (h : ∀ a ∈ l, a < front.length) (back : List Instr) :
    resolveAll target l (front ++ back) = resolveAll target l front ++ back := by
  induction l generalizing front with
  | nil => rfl
  | cons addr l ih =>
      have hlt := h addr List.mem_cons_self
      have hchange : changeAt (Instr.setTarget target) addr (front ++ back) =
          changeAt (Instr.setTarget target) addr front ++ back :=
        changeAt_append_left _ hlt back
      rw [resolveAll_cons, hchange, ih fun a ha => by
        rw [length_changeAt]
        exact h a (List.mem_cons_of_mem addr ha)]
      rfl

mutual

/-- The holes of a pattern are in its code. -/
theorem Pattern.holes_range (p : Pattern) {here a : Nat} (h : a ∈ p.holes here) :
    here ≤ a ∧ a < here + p.size := by
  cases p with
  | charClass negated c =>
      cases negated <;> simp [Pattern.holes, Pattern.size] at h ⊢ <;> omega
  | char negated c =>
      simp [Pattern.holes, Pattern.size] at h ⊢
      omega
  | optChar c => cases h
  | string _ | startOf | endOf | qEnd =>
      simp [Pattern.holes, Pattern.size] at h ⊢
      omega
  | skip => cases h
  | empty => cases h
  | seq p q =>
      simp only [Pattern.holes, List.mem_append] at h
      simp only [Pattern.size]
      rcases h with h | h
      · have hp := p.holes_range h
        omega
      · have hq := q.holes_range h
        omega
  | group p =>
      have hp := p.holes_range h
      simp only [Pattern.size]
      omega
  | braces ps => exact ps.holes_range h
  | star p => cases h
  | plus p => cases h
  | greedyStar p => cases h
  | greedyPlus p => cases h

/-- The holes of alternatives are in their code. -/
theorem Alternatives.holes_range (ps : Alternatives) {here a : Nat} (h : a ∈ ps.holes here) :
    here ≤ a ∧ a < here + ps.size := by
  cases ps with
  | last p =>
      have hp := p.holes_range h
      simp only [Alternatives.size]
      omega
  | or p ps =>
      simp only [Alternatives.holes, List.mem_append] at h
      simp only [Alternatives.size]
      rcases h with h | h
      · have hp := p.holes_range h
        omega
      · have hps := ps.holes_range h
        omega

end

mutual

/-- Variables that are open stay so. -/
theorem Pattern.varstack_after (p : Pattern) (v : VarState) : (p.after v).varstack = v.varstack := by
  cases p with
  | seq p q =>
      have hp := p.varstack_after v
      have hq := q.varstack_after (p.after v)
      exact hq.trans hp
  | group p =>
      have hp := p.varstack_after v.open
      simp only [Pattern.after, VarState.close, hp]
      rfl
  | braces ps => exact ps.varstack_after v.vars v
  | star p => exact p.varstack_after v
  | plus p => exact p.varstack_after v
  | greedyStar p => exact p.varstack_after v
  | greedyPlus p => exact p.varstack_after v
  | charClass negated c => rfl
  | char negated c => rfl
  | optChar c => rfl
  | string s => rfl
  | startOf => rfl
  | endOf => rfl
  | qEnd => rfl
  | skip => rfl
  | empty => rfl

/-- Alternatives leave as many groups open as there were. -/
theorem Alternatives.varstack_after (ps : Alternatives) (n : Nat) (v : VarState) :
    (ps.after n v).varstack = v.varstack := by
  cases ps with
  | last p => exact p.varstack_after v
  | or p ps =>
      have hps := ps.varstack_after n ((p.after v).next n)
      exact hps.trans (p.varstack_after v)

end

theorem Pattern.reverse_holes_ge (p : Pattern) {addr here : Nat} (h : addr ≤ here) :
    ∀ a ∈ (p.holes here).reverse, addr ≤ a := by
  intro a ha
  exact h.trans (p.holes_range (List.mem_reverse.mp ha)).1

/-- A group is closed. -/
theorem closeVar_mk (code : List Instr) (cs : List CsItem) (leaveStack loops : List Nat)
    {varstack : List Nat}
    {v : VarState} {n : Nat} (h : v.varstack = n :: varstack) :
    closeVar ⟨code, cs, leaveStack, loops, v⟩ =
      some ⟨code ++ [Instr.dup, .storeVar (2 * n + 1)], cs, leaveStack, loops, v.close⟩ := by
  unfold closeVar
  simp only [h, VarState.close]
  rfl

/-! ## Resolved code -/

/-- The layout of a repetition -/
theorem star_layout (p : Pattern) (code : List Instr) (v : VarState) :
    changeAt (Instr.setTarget (code.length + 6 + p.size + 7)) (code.length + 1)
      (resolveAll (code.length + 6 + p.size + 4) (p.holes (code.length + 6)).reverse
        (code ++ tryCode 0 (code.length + 6) ++ p.code (code.length + 6) 0 v ++
          [Instr.dup, .endS, .uGreater, .qBranch code.length]) ++ fail) =
      code ++ (Pattern.star p).code code.length 0 v := by
  have hstop : code.length + 6 + p.size + 4 = code.length + p.size + 10 := by omega
  have hrest : code.length + 6 + p.size + 7 = code.length + p.size + 13 := by omega
  have hresolve := p.resolveAll_holes (code.length + 6) 0 (code.length + p.size + 10) v
    (code ++ tryCode 0 (code.length + 6)) [.dup, .endS, .uGreater, .qBranch code.length] (by simp)
  rw [hstop, hrest, List.append_assoc (code ++ tryCode 0 (code.length + 6)), hresolve]
  have hcall := changeAt_mid (Instr.setTarget (code.length + p.size + 13)) (code.length + 1)
    (code ++ [Instr.dup]) (.qBranch (code.length + 6) :: (succeed ++ (p.code (code.length + 6)
      (code.length + p.size + 10) v ++ ([Instr.dup, .endS, .uGreater, .qBranch code.length] ++ fail))))
      (.call 0) (by simp)
  simpa [Pattern.code, tryCode, Instr.setTarget] using hcall

/-- The layout of a repetition with one match at least -/
theorem plus_layout (p : Pattern) (code : List Instr) (v : VarState) :
    changeAt (Instr.setTarget (code.length + p.size + 16)) (code.length + p.size + 1)
      (changeAt (Instr.setTarget (code.length + p.size + 9)) (code.length + p.size + 2)
        (resolveAll (code.length + p.size + 6) (p.holes code.length).reverse
          (code ++ p.code code.length 0 v ++ tryCode 0 0) ++ fail) ++
            [Instr.dup, .endS, .uGreater, .qBranch code.length] ++ fail) =
      code ++ (Pattern.plus p).code code.length 0 v := by
  have hresolve := p.resolveAll_holes code.length 0 (code.length + p.size + 6) v code (tryCode 0 0) rfl
  rw [List.append_assoc code, hresolve]
  have hlength := p.length_code code.length (code.length + p.size + 6) v
  have hqBranch := changeAt_mid (Instr.setTarget (code.length + p.size + 9))
    (code.length + p.size + 2) (code ++ p.code code.length (code.length + p.size + 6) v ++
    [Instr.dup, .call 0]) (succeed ++ fail) (.qBranch 0) (by simp [hlength]; omega)
  have hcall := changeAt_mid (Instr.setTarget (code.length + p.size + 16)) (code.length + p.size + 1)
    (code ++ p.code code.length (code.length + p.size + 6) v ++ [Instr.dup])
    (.qBranch (code.length + p.size + 9) :: (succeed ++ fail ++
      ([Instr.dup, .endS, .uGreater, .qBranch code.length] ++ fail))) (.call 0) (by simp [hlength]; omega)
  simp only [List.append_assoc, List.cons_append, List.nil_append, Instr.setTarget] at hqBranch hcall
  simp only [List.append_assoc, List.cons_append, List.nil_append, tryCode, Pattern.code]
  rw [hqBranch]
  simp only [List.append_assoc, List.cons_append]
  rw [hcall]

/-- The code up to the end of the body of a greedy loop -/
theorem body_layout (p : Pattern) (code : List Instr) (v : VarState) :
    changeAt (Instr.setTarget (code.length + 12 + p.size + 5)) (code.length + 11)
      (resolveAll (code.length + 12 + p.size + 2) (p.holes (code.length + 12)).reverse
        (code ++ scanCode code.length (code.length + 12) 0 ++ p.code (code.length + 12) 0 v ++
          [Instr.toLast, .semis]) ++ fail) =
      code ++ scanCode code.length (code.length + 12) (code.length + p.size + 17) ++
        p.code (code.length + 12) (code.length + p.size + 14) v ++ blockEnd := by
  have hstop : code.length + 12 + p.size + 5 = code.length + p.size + 17 := by omega
  have hfail : code.length + 12 + p.size + 2 = code.length + p.size + 14 := by omega
  have hresolve := p.resolveAll_holes (code.length + 12) 0 (code.length + p.size + 14) v
    (code ++ scanCode code.length (code.length + 12) 0) [.toLast, .semis] (by simp)
  rw [hstop, hfail, List.append_assoc (code ++ scanCode code.length (code.length + 12) 0), hresolve]
  have hbranch := changeAt_mid (Instr.setTarget (code.length + p.size + 17)) (code.length + 11)
    (code ++ [Instr.lit (flag false), .toR, .dup,
      .call (code.length + 12), .qBranch (code.length + 10), .lastS, .rFrom, .onePlus, .toR,
      .branch (code.length + 2), .rFrom]) (p.code (code.length + 12)
        (code.length + p.size + 14) v ++ blockEnd) (.branch 0) (by simp)
  simpa [scanCode, blockEnd, Instr.setTarget] using hbranch

/-- The code of a greedy loop, with the call in the loop that tries the saved positions -/
theorem greedyStar_layout (p : Pattern) (code : List Instr) (v : VarState) :
    changeAt (Instr.setTarget (code.length + 12 + p.size + 22)) (code.length + 12 + p.size + 8)
      (code ++ scanCode code.length (code.length + 12) (code.length + p.size + 17) ++
        p.code (code.length + 12) (code.length + p.size + 14) v ++ blockEnd ++
          [Instr.onePlus, .lit (flag false)] ++ retryCode (code.length + 12 + p.size + 7) 0 [Instr.oneMinus] ++
            [Instr.lit (flag false), .semis]) =
      code ++ (Pattern.greedyStar p).code code.length 0 v := by
  have hlength := p.length_code (code.length + 12) (code.length + p.size + 14) v
  have hhere : code.length + 12 + p.size + 7 = code.length + p.size + 19 := by omega
  have hrest : code.length + 12 + p.size + 22 = code.length + p.size + 34 := by omega
  have hcall := changeAt_mid (Instr.setTarget (code.length + p.size + 34))
    (code.length + 12 + p.size + 8) (code ++ scanCode code.length (code.length + 12)
    (code.length + p.size + 17) ++
      p.code (code.length + 12) (code.length + p.size + 14) v ++ blockEnd ++
        [Instr.onePlus, .lit (flag false), .uPlusDo (code.length + p.size + 31)])
        [.qBranch (code.length + p.size + 30), .iTick, .i, .minus, .oneMinus, .drops, .unloop,
      .lit (flag true), .semis, .loop (code.length + p.size + 20), .unloop, .lit (flag false), .semis]
      (.call 0) (by simp [hlength]; omega)
  rw [hhere, hrest]
  simpa [Pattern.code, retryCode, Instr.setTarget, Nat.add_assoc] using hcall

/-- The layout of a greedy repetition with one match at least -/
theorem greedyPlus_layout (p : Pattern) (code : List Instr) (v : VarState) :
    changeAt (Instr.setTarget (code.length + 12 + p.size + 21)) (code.length + 12 + p.size + 7)
      (code ++ scanCode code.length (code.length + 12) (code.length + p.size + 17) ++
        p.code (code.length + 12) (code.length + p.size + 14) v ++ blockEnd ++
          [Instr.lit (flag false)] ++ retryCode (code.length + 12 + p.size + 6) 0 [] ++ fail) =
      code ++ (Pattern.greedyPlus p).code code.length 0 v := by
  have hlength := p.length_code (code.length + 12) (code.length + p.size + 14) v
  have hhere : code.length + 12 + p.size + 6 = code.length + p.size + 18 := by omega
  have hrest : code.length + 12 + p.size + 21 = code.length + p.size + 33 := by omega
  have hcall := changeAt_mid (Instr.setTarget (code.length + p.size + 33))
    (code.length + 12 + p.size + 7) (code ++ scanCode code.length (code.length + 12)
    (code.length + p.size + 17) ++
      p.code (code.length + 12) (code.length + p.size + 14) v ++ blockEnd ++
        [Instr.lit (flag false), .uPlusDo (code.length + p.size + 29)])
        ([Instr.qBranch (code.length + p.size + 28), .iTick, .i, .minus, .drops, .unloop,
      .lit (flag true), .semis, .loop (code.length + p.size + 19), .unloop] ++ fail) (.call 0)
      (by simp [hlength]; omega)
  rw [hhere, hrest]
  simpa [Pattern.code, retryCode, Instr.setTarget, Nat.add_assoc] using hcall

/-- The branch to the next alternative -/
theorem next_layout (p : Pattern) (front : List Instr) (v : VarState) :
    changeAt (Instr.setTarget (front.length + 6 + p.size + 1)) (front.length + 2)
      (front ++ tryCode (front.length + 6) 0 ++ p.code (front.length + 6) 0 v ++ [Instr.branch 0]) =
      front ++ tryCode (front.length + 6) (front.length + p.size + 7) ++
        p.code (front.length + 6) 0 v ++ [Instr.branch 0] := by
  have hnext : front.length + 6 + p.size + 1 = front.length + p.size + 7 := by omega
  have hqBranch := changeAt_mid (Instr.setTarget (front.length + p.size + 7)) (front.length + 2)
    (front ++ [Instr.dup, .call (front.length + 6)]) (succeed ++ p.code (front.length + 6) 0 v ++
    [Instr.branch 0]) (.qBranch 0) (by simp)
  rw [hnext]
  simpa [tryCode, Instr.setTarget] using hqBranch

/-- The last alternative -/
theorem last_layout (p : Pattern) (front : List Instr) (n : Nat) (v : VarState) {origs : List Nat}
    (horigs : ∀ a ∈ origs, a < front.length) :
    resolveAll (front.length + 6 + p.size + 4) ((front.length + 6 + p.size) :: origs)
      (changeAt (Instr.setTarget (front.length + 6 + p.size + 1)) (front.length + 2)
        (front ++ tryCode (front.length + 6) 0 ++ p.code (front.length + 6) 0 v ++ [Instr.branch 0]) ++
          fail) =
      resolveAll (front.length + (Alternatives.last p).size) origs front ++
        (Alternatives.last p).code front.length 0 (front.length + (Alternatives.last p).size) n v := by
  have hlength := p.length_code (front.length + 6) 0 v
  have hsize : front.length + 6 + p.size + 4 = front.length + (Alternatives.last p).size := by
    simp only [Alternatives.size]
    omega
  have hbranch := changeAt_mid (Instr.setTarget (front.length + (Alternatives.last p).size))
    (front.length + 6 + p.size) (front ++ tryCode (front.length + 6) (front.length + p.size + 7) ++
      p.code (front.length + 6) 0 v) fail (.branch 0) (by simp [hlength]; omega)
  rw [next_layout, hsize, resolveAll_cons, ← resolveAll_append_left _ horigs,
    List.append_assoc _ [Instr.branch 0], List.singleton_append, hbranch]
  simp [Instr.setTarget, Alternatives.code]

/-- An alternative in front of others -/
theorem or_layout (p : Pattern) (ps : Alternatives) (front : List Instr) (n : Nat) (v : VarState)
    {origs : List Nat} (horigs : ∀ a ∈ origs, a < front.length) :
    resolveAll (front.length + p.size + 7 + ps.size) ((front.length + 6 + p.size) :: origs)
      (front ++ tryCode (front.length + 6) (front.length + p.size + 7) ++
        p.code (front.length + 6) 0 v ++ [Instr.branch 0]) ++
          ps.code (front.length + p.size + 7) 0 (front.length + p.size + 7 + ps.size) n
            ((p.after v).next n) =
      resolveAll (front.length + (Alternatives.or p ps).size) origs front ++
        (Alternatives.or p ps).code front.length 0 (front.length + (Alternatives.or p ps).size) n
          v := by
  have hlength := p.length_code (front.length + 6) 0 v
  have hsize : front.length + p.size + 7 + ps.size = front.length + (Alternatives.or p ps).size := by
    simp only [Alternatives.size]
    omega
  have hbranch := changeAt_mid (Instr.setTarget (front.length + (Alternatives.or p ps).size))
    (front.length + 6 + p.size) (front ++ tryCode (front.length + 6) (front.length + p.size + 7) ++
      p.code (front.length + 6) 0 v) [] (.branch 0) (by simp [hlength]; omega)
  rw [hsize, resolveAll_cons, hbranch, ← resolveAll_append_left _ horigs, List.append_assoc front,
    List.append_assoc front, resolveAll_append_left _ horigs, resolveAll_append_left _ horigs]
  simp [Instr.setTarget, Alternatives.code]

mutual

/-- The compiler produces the code of a pattern, and its branches to the end of the block wait on the
leave stack. -/
theorem Pattern.compile_eq (p : Pattern) (code : List Instr) (cs : List CsItem)
    (leaveStack loops : List Nat) (v : VarState) (hleave : ∀ a ∈ leaveStack, a < code.length) :
    p.compile ⟨code, cs, leaveStack, loops, v⟩ =
      some ⟨code ++ p.code code.length 0 v, cs, (p.holes code.length).reverse ++ leaveStack, loops,
        p.after v⟩ := by
  cases p with
  | charClass negated c =>
      cases negated <;> simp [Pattern.compile, commas_mk, comma_mk, qLeave_mk, Pattern.code,
        Pattern.holes, Pattern.after]
  | char negated c =>
      cases negated <;> simp [Pattern.compile, commas_mk, qLeave_mk, Pattern.code, Pattern.holes,
        Pattern.after]
  | optChar c => rfl
  | string s =>
      simp [Pattern.compile, commas_mk, qLeave_mk, Pattern.code, Pattern.holes, Pattern.after]
  | startOf | endOf =>
      simp [Pattern.compile, comma_mk, qLeave_mk, Pattern.code, Pattern.holes, Pattern.after]
  | qEnd =>
      simp [Pattern.compile, commas_mk, qLeave_mk, Pattern.code, Pattern.holes, Pattern.after]
  | skip => rfl
  | empty => simp [Pattern.compile, Pattern.code, Pattern.holes, Pattern.after]
  | seq p q =>
      have hp := p.compile_eq _ cs _ loops v hleave
      have hq := q.compile_eq (code ++ p.code code.length 0 v) cs
        ((p.holes code.length).reverse ++ leaveStack) loops (p.after v) (by
          intro a ha
          rw [List.length_append, p.length_code]
          rcases List.mem_append.mp ha with ha | ha
          · exact (p.holes_range (List.mem_reverse.mp ha)).2
          · have := hleave a ha
            omega)
      simp only [Pattern.compile, hp, Option.bind_some, hq]
      simp [Pattern.code, Pattern.holes, Pattern.after, p.length_code]
  | group p =>
      have hp := p.compile_eq (code ++ [Instr.dup, .storeVar (2 * v.vars)]) cs leaveStack loops v.open fun
        a ha =>
          (hleave a ha).trans_le (by simp)
      have hopen : openVar ⟨code, cs, leaveStack, loops, v⟩ =
          ⟨code ++ [Instr.dup, .storeVar (2 * v.vars)], cs, leaveStack, loops, v.open⟩ := rfl
      have hclose := closeVar_mk (code ++ [Instr.dup, .storeVar (2 * v.vars)] ++
        p.code (code.length + 2) 0 v.open) cs ((p.holes (code.length + 2)).reverse ++ leaveStack)
        loops (p.varstack_after v.open)
      rw [List.length_append] at hp
      simp only [Pattern.compile, hopen]
      refine (congrArg (Option.bind · closeVar) hp).trans (hclose.trans ?_)
      simp [Pattern.code, Pattern.holes, Pattern.after]
  | braces ps =>
      have hps := ps.compile_eq code cs _ loops v v.vars 0 [] hleave (by simp)
      simp only [Pattern.compile, openBraces, openAlternative_mk, Option.bind_some]
      simpa [Pattern.code, Pattern.holes, Pattern.after] using hps
  | star p =>
      have hp := p.compile_eq (code ++ tryCode 0 (code.length + 6))
        (.dest code.length :: .orig (code.length + 1) :: cs) leaveStack (code.length :: loops) v fun a
        ha => (hleave a ha).trans_le (by simp)
      have hclose := closeStar_mk (code ++ tryCode 0 (code.length + 6) ++
        p.code (code.length + 6) 0 v) cs _ _ loops (p.after v) code.length (code.length + 1) _
        (p.reverse_holes_ge (Nat.le_add_right code.length 6)) hleave
      simp only [List.length_append, length_tryCode, p.length_code] at hp hclose
      simp only [Pattern.compile, openStar_mk, Option.bind_some, hp, hclose, star_layout]
      rfl
  | plus p =>
      have hp := p.compile_eq _ (.dest code.length :: cs) _ (code.length :: loops) v hleave
      have hclose := closePlus_mk (code ++ p.code code.length 0 v) cs loops (p.after v)
        (p.reverse_holes_ge (le_refl code.length)) hleave (by simp)
      simp only [List.length_append, p.length_code] at hclose
      simp only [Pattern.compile, openPlus, begin'_mk, beginComma_mk, hp, Option.bind_some, hclose,
        plus_layout]
      rfl
  | greedyStar p =>
      have hp := p.compile_eq (code ++ scanCode code.length (code.length + 12) 0)
        (.orig (code.length + 11) :: cs) leaveStack ((code.length + 12) :: loops) v fun a ha =>
        (hleave a ha).trans_le (by simp)
      have hclose := closeGreedyStar_mk (code ++ scanCode code.length (code.length + 12) 0 ++
        p.code (code.length + 12) 0 v) cs loops (p.after v)
        (p.reverse_holes_ge (le_refl (code.length + 12)))
        (fun a ha => (hleave a ha).trans_le (Nat.le_add_right _ _)) (by simp) (code.length + 11)
      simp only [List.length_append, length_scanCode, p.length_code] at hp hclose
      simp only [Pattern.compile, openGreedy_mk, Option.bind_some, hp, hclose, body_layout,
        greedyStar_layout]
      rfl
  | greedyPlus p =>
      have hp := p.compile_eq (code ++ scanCode code.length (code.length + 12) 0)
        (.orig (code.length + 11) :: cs) leaveStack ((code.length + 12) :: loops) v fun a ha =>
        (hleave a ha).trans_le (by simp)
      have hclose := closeGreedyPlus_mk (code ++ scanCode code.length (code.length + 12) 0 ++
        p.code (code.length + 12) 0 v) cs loops (p.after v)
        (p.reverse_holes_ge (le_refl (code.length + 12)))
        (fun a ha => (hleave a ha).trans_le (Nat.le_add_right _ _)) (by simp) (code.length + 11)
      simp only [List.length_append, length_scanCode, p.length_code] at hp hclose
      simp only [Pattern.compile, openGreedy_mk, Option.bind_some, hp, hclose, body_layout,
        greedyPlus_layout]
      rfl

/-- The code of alternatives, from the words at their start on -/
theorem Alternatives.compile_eq (ps : Alternatives) (front : List Instr) (cs : List CsItem)
    (leaveStack loops : List Nat) (v : VarState) (n m : Nat) (origs : List Nat)
    (hleave : ∀ a ∈ leaveStack, a < front.length) (horigs : ∀ a ∈ origs, a < front.length) :
    ps.compile ⟨front ++ tryCode (front.length + 6) 0,
        .number n :: .orig (front.length + 2) :: (origs.map CsItem.orig ++ .number m :: cs),
        leaveStack, loops, v⟩ =
      some ⟨resolveAll (front.length + ps.size) origs front ++
          ps.code front.length 0 (front.length + ps.size) n v, cs,
        (ps.holes front.length).reverse ++ leaveStack, loops, ps.after n v⟩ := by
  cases ps with
  | last p =>
      have hp := p.compile_eq (front ++ tryCode (front.length + 6) 0)
        (.number n :: .orig (front.length + 2) :: (origs.map CsItem.orig ++ .number m :: cs))
        leaveStack loops v fun a ha =>
          (hleave a ha).trans_le (by simp)
      simp only [List.length_append, length_tryCode] at hp
      simp only [Alternatives.compile, hp, Option.bind_some, closeBraces_mk, List.length_append,
        length_tryCode, p.length_code, last_layout p front n v horigs]
      rfl
  | or p ps =>
      have hp := p.compile_eq (front ++ tryCode (front.length + 6) 0)
        (.number n :: .orig (front.length + 2) :: (origs.map CsItem.orig ++ .number m :: cs))
        leaveStack loops v fun a ha =>
          (hleave a ha).trans_le (by simp)
      simp only [List.length_append, length_tryCode] at hp
      have hfront : (front ++ tryCode (front.length + 6) (front.length + p.size + 7) ++
          p.code (front.length + 6) 0 v ++ [Instr.branch 0]).length = front.length + p.size + 7 := by
        simp [p.length_code]
        omega
      have hps := ps.compile_eq (front ++ tryCode (front.length + 6) (front.length + p.size + 7)
        ++ p.code (front.length + 6) 0 v ++ [Instr.branch 0]) cs
        ((p.holes (front.length + 6)).reverse ++ leaveStack) loops ((p.after v).next n) n m
        ((front.length + 6 + p.size) :: origs) (by
          intro a ha
          rw [hfront]
          rcases List.mem_append.mp ha with ha | ha
          · have := (p.holes_range (List.mem_reverse.mp ha)).2
            omega
          · have := hleave a ha
            omega) (by
          intro a ha
          rw [hfront]
          rcases List.mem_cons.mp ha with ha | ha
          · omega
          · have := horigs a ha
            omega)
      simp only [Alternatives.compile, hp, Option.bind_some, nextAlternative_mk, List.length_append,
        length_tryCode, p.length_code, next_layout]
      rw [hfront, or_layout p ps front n v horigs] at hps
      have hnext : front.length + p.size + 7 + 6 = front.length + 6 + p.size + 7 := by omega
      have hqBranch : front.length + p.size + 7 + 2 = front.length + 6 + p.size + 3 := by omega
      rw [hnext, hqBranch] at hps
      refine hps.trans ?_
      simp [Alternatives.holes, Alternatives.after]

end

/-- The code of a block, with the end of the block for the pattern -/
theorem block_layout (p : Pattern) (code : List Instr) (v : VarState) :
    changeAt (Instr.setTarget (code.length + 3 + p.size + 5)) (code.length + 1)
      (resolveAll (code.length + 3 + p.size + 2) (p.holes (code.length + 3)).reverse
        (code ++ [Instr.call (code.length + 2), .branch 0, .storeEnd] ++ p.code (code.length + 3) 0 v ++
          [Instr.toLast, .semis]) ++ fail) =
      code ++ blockCode p code.length v := by
  have hstop : code.length + 3 + p.size + 5 = code.length + p.size + 8 := by omega
  have hfail : code.length + 3 + p.size + 2 = code.length + p.size + 5 := by omega
  have hresolve := p.resolveAll_holes (code.length + 3) 0 (code.length + p.size + 5) v
    (code ++ [Instr.call (code.length + 2), .branch 0, .storeEnd]) [.toLast, .semis] (by simp)
  rw [hstop, hfail, List.append_assoc (code ++ [Instr.call (code.length + 2), .branch 0, .storeEnd]),
    hresolve]
  have hbranch := changeAt_mid (Instr.setTarget (code.length + p.size + 8)) (code.length + 1)
    (code ++ [Instr.call (code.length + 2)]) (.storeEnd :: (p.code (code.length + 3)
    (code.length + p.size + 5) v ++ blockEnd)) (.branch 0) (by simp)
  simpa [blockCode, blockEnd, Instr.setTarget] using hbranch

/-- The code of a whole block: all its branches are resolved, and what waits on the stacks of the
compiler waits as before. -/
theorem compileBlock_eq (p : Pattern) {code : List Instr} (cs : List CsItem)
    {leaveStack : List Nat} (loops : List Nat) (v : VarState)
    (hleave : ∀ a ∈ leaveStack, a < code.length) :
    compileBlock p ⟨code, cs, leaveStack, loops, v⟩ =
      some ⟨code ++ blockCode p code.length { v with vars := 0, varsmax := 0 }, cs, leaveStack, [],
        p.after { v with vars := 0, varsmax := 0 }⟩ := by
  have hcall := changeAt_mid (Instr.setTarget (code.length + 2)) code.length code [.branch 0]
    (.call 0) rfl
  have hopen : openBlock ⟨code, cs, leaveStack, loops, v⟩ =
      some ⟨code ++ [Instr.call (code.length + 2), .branch 0, .storeEnd], .orig (code.length + 1) :: cs,
        leaveStack, [code.length + 3], { v with vars := 0, varsmax := 0 }⟩ := by
    unfold openBlock fork ahead
    simp only [mark_mk, but_mk, Option.bind_some, then'_mk, Option.map_some, comma_mk, beginComma_mk,
      List.append_assoc, List.length_append, List.cons_append, List.nil_append, hcall,
      Instr.setTarget, List.length_cons, List.length_nil, Nat.zero_add, Nat.reduceAdd]
  have hp := p.compile_eq (code ++ [Instr.call (code.length + 2), .branch 0, .storeEnd])
    (.orig (code.length + 1) :: cs) leaveStack [code.length + 3] ({ v with vars := 0, varsmax := 0 })
    fun a ha => (hleave a ha).trans_le (by simp)
  have hclose := closeBody_mk (code ++ [Instr.call (code.length + 2), .branch 0, .storeEnd] ++
      p.code (code.length + 3) 0 { v with vars := 0, varsmax := 0 }) cs []
      (p.after { v with vars := 0, varsmax := 0 }) (p.reverse_holes_ge (le_refl (code.length + 3)))
      (fun a ha => (hleave a ha).trans_le (Nat.le_add_right _ _)) (code.length + 1)
  simp only [List.length_append, List.length_cons, List.length_nil, Nat.zero_add, Nat.reduceAdd,
    p.length_code] at hp hclose
  unfold compileBlock
  rw [hopen, Option.bind_some, hp, Option.bind_some]
  refine hclose.trans ?_
  rw [block_layout]

end Regexp
end Gforth
