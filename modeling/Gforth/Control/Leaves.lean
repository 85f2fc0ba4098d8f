import Gforth.Control.Structures

/-!
# Resolving the branches of leave

Where an arrangement of control structures is compiled, every {lit}`leave` and every skip branch is
resolved once, to the end of its innermost counted loop.  A layout says which branches there are and
where these ends are; the compiler is compared with it.

Main results:

- Theorem {lit}`Compiled.done`: {lit}`done` resolves the branches of one loop.
- Theorem {lit}`compileAll_tokens`: the compiler follows the layout.
- Theorem {lit}`leaves_resolved`: what holds after a whole arrangement.
-/

namespace Gforth
namespace Control

/-! ## Layouts -/

/-- A point in the code, with the literals that are pending there -/
structure Place where
  here : Nat
  lits : List Nat
deriving DecidableEq

namespace Place

/-- The literals are compiled. -/
def flush (p : Place) : Place :=
  ⟨p.here + 2 * p.lits.length, []⟩

/-- Some cells are compiled after the literals. -/
def code (n : Nat) (p : Place) : Place :=
  ⟨p.flush.here + n, []⟩

theorem flush_of_nil {p : Place} (h : p.lits = []) : p.flush = p := by
  obtain ⟨here, lits⟩ := p
  subst h
  rfl

/-- A word is compiled as some cells, or folded. -/
def fold (c : Settings) (x : Xt) (n : Nat) (p : Place) : Place :=
  match c.fold x p.lits with
  | some lits => ⟨p.here, lits⟩
  | none => p.code n

end Place

/-- The point after some code, the operands of the branches that wait for the end of the enclosing loop,
the resolved branches, and those among them that belong to {lit}`leave` and to the starts of loops; the
latest come first. -/
structure Layout where
  stop : Place
  pending : List Nat
  resolved : List (Nat × Nat)
  branches : List (Nat × Nat)
deriving DecidableEq

namespace Layout

/-- Code without branches -/
def straight (p : Place) : Layout :=
  ⟨p, [], [], []⟩

/-- Code after other code -/
def andThen (l m : Layout) : Layout :=
  ⟨m.stop, m.pending ++ l.pending, m.resolved ++ l.resolved, m.branches ++ l.branches⟩

/-- Some cells at the end -/
def code (n : Nat) (l : Layout) : Layout :=
  { l with stop := l.stop.code n }

/-- A forward branch to the end -/
def resolve (addr : Nat) (l : Layout) : Layout :=
  { l with stop := l.stop.flush, resolved := (addr, l.stop.flush.here) :: l.resolved }

/-- The end of a counted loop: the pending branches go to {lit}`unloop`. -/
def close (l : Layout) : Layout where
  stop := l.stop.code 1
  pending := []
  resolved := (l.pending.map (·, l.stop.here)).reverse ++ l.resolved
  branches := l.pending.map (·, l.stop.here) ++ l.branches

end Layout

/-- Whether the run-time word has a branch around the loop -/
def Entry.skips : Entry → Bool
  | .do | .for => false
  | .qDo | .plusDo | .uPlusDo | .minusDo | .uMinusDo => true

/-- The start of a counted loop -/
def Entry.layout (entry : Entry) (p : Place) : Layout :=
  if entry.skips then ⟨p.code 2, [(p.code 2).here - 1], [], []⟩ else .straight (p.code 1)

namespace Source

/-- The layout of an arrangement that is compiled at a point -/
def layout (c : Settings) : Source → Place → Layout
  | skip, p => .straight p
  | literal n, p => .straight ⟨p.here, p.lits ++ [n]⟩
  | word n, p => .straight (p.fold c (.word n) (c.cells n).length)
  | seq a b, p => (a.layout c p).andThen (b.layout c (a.layout c p).stop)
  | ifThen a, p => (a.layout c (p.code 2)).resolve ((p.code 2).here - 1)
  | ifElse a b, p =>
      let l := ((a.layout c (p.code 2)).code 2).resolve ((p.code 2).here - 1)
      (l.andThen (b.layout c l.stop)).resolve (l.stop.here - 1)
  | beginAgain a, p => (a.layout c p.flush).code 2
  | beginUntil a, p => (a.layout c p.flush).code 2
  | beginWhile a b, p =>
      let l := (a.layout c p.flush).code 2
      ((l.andThen (b.layout c l.stop)).code 2).resolve (l.stop.here - 1)
  | counted entry a _, p =>
      (((entry.layout p).andThen (a.layout c (entry.layout p).stop)).code 2).close
  | leave, p => ⟨p.code 2, [(p.code 2).here - 1], [], []⟩
  | qLeave, p =>
      ⟨(p.fold c .zeroEquals 1).code 2, [((p.fold c .zeroEquals 1).code 2).here - 1], [], []⟩

/-- The number of branches for {lit}`leave` and for the starts of loops -/
def branchCount : Source → Nat
  | skip | literal _ | word _ => 0
  | seq a b | ifElse a b | beginWhile a b => a.branchCount + b.branchCount
  | ifThen a | beginAgain a | beginUntil a => a.branchCount
  | counted entry a _ => a.branchCount + if entry.skips then 1 else 0
  | leave | qLeave => 1

/-- The layout has all branches. -/
theorem length_branches (c : Settings) (src : Source) (p : Place) :
    (src.layout c p).branches.length + (src.layout c p).pending.length = src.branchCount := by
  induction src generalizing p with
  | skip | literal | word | leave | qLeave => rfl
  | seq a b iha ihb =>
    have ha := iha p
    have hb := ihb (a.layout c p).stop
    simp only [layout, Layout.andThen, List.length_append, branchCount]
    omega
  | ifThen a ih | beginAgain a ih | beginUntil a ih => exact ih _
  | ifElse a b iha ihb =>
    have ha := iha (p.code 2)
    have hb := ihb ((a.layout c (p.code 2)).stop.code 2).flush
    simp only [layout, Layout.andThen, Layout.resolve, Layout.code, List.length_append, branchCount]
    omega
  | beginWhile a b iha ihb =>
    have ha := iha p.flush
    have hb := ihb ((a.layout c p.flush).stop.code 2)
    simp only [layout, Layout.andThen, Layout.resolve, Layout.code, List.length_append, branchCount]
    omega
  | counted entry a ending ih =>
    simp only [layout, Layout.close, Layout.andThen, Layout.code, List.length_append, List.length_map,
      branchCount, ← ih (entry.layout p).stop, List.length_nil]
    rw [Entry.layout]
    split <;> simp [Layout.straight] <;> omega

/-- No branch waits outside of the loops. -/
theorem pending_of_closed (c : Settings) {src : Source} (h : src.closed) (p : Place) :
    (src.layout c p).pending = [] := by
  induction src generalizing p with
  | skip | literal | word | counted => rfl
  | leave | qLeave => cases h
  | seq a b iha ihb | ifElse a b iha ihb | beginWhile a b iha ihb =>
    obtain ⟨ha, hb⟩ := Bool.and_eq_true_iff.mp h
    simp only [layout, Layout.andThen, Layout.resolve, Layout.code, iha ha, ihb hb, List.append_nil]
  | ifThen a ih | beginAgain a ih | beginUntil a ih => exact ih h _

end Source

/-! ## Compiled code -/

/-- An operand that is not resolved -/
def IsHole (s : State) (addr : Nat) : Prop :=
  s.code[addr]? = some .zero ∨ s.code[addr]? = some .unresolvedLeave

theorem lt_here {s : State} {addr : Nat} {x : Cell} (h : s.code[addr]? = some x) : addr < s.here :=
  (List.getElem?_eq_some_iff.mp h).1

theorem IsHole.lt {s : State} {addr : Nat} (h : IsHole s addr) : addr < s.here :=
  h.elim lt_here lt_here

/-- From a state to another one, code with a certain layout was compiled. -/
structure Compiled (s s' : State) (l : Layout) : Prop where
  here : s'.here = l.stop.here
  litstack : s'.litstack = l.stop.lits
  leaveStack : ∃ origs, s'.leaveStack = origs ++ s.leaveStack ∧ origs.map CsItem.addr = l.pending ∧
    ∀ orig ∈ origs, State.isOrig orig.type = true
  resolved : s'.resolved = l.resolved ++ s.resolved
  le : s.here ≤ s'.here
  frame : ∀ i < s.here, s'.code[i]? = s.code[i]?
  holes : ∀ a ∈ l.pending, s.here ≤ a ∧ IsHole s' a
  targets : ∀ p ∈ l.resolved, s.here ≤ p.1 ∧ s'.code[p.1]? = some (.target p.2)
  unloops : ∀ p ∈ l.branches, p ∈ l.resolved ∧ s'.code[p.2]? = some (.xt .unloop)
  pending_nodup : l.pending.Nodup
  resolved_nodup : (l.resolved.map Prod.fst).Nodup
  branches_nodup : (l.branches.map Prod.fst).Nodup

namespace Compiled

variable {s s' s'' : State} {l m : Layout}

/-- Only the code, the literals, the leave stack and the resolved branches count. -/
theorem congr {t t' : State} (h : Compiled s s' l) (hcode : t.code = s.code)
    (hleave : t.leaveStack = s.leaveStack) (hresolved : t.resolved = s.resolved)
    (hcode' : t'.code = s'.code) (hlits' : t'.litstack = s'.litstack)
    (hleave' : t'.leaveStack = s'.leaveStack) (hresolved' : t'.resolved = s'.resolved) :
    Compiled t t' l := by
  obtain ⟨here, litstack, leaveStack, resolved, le, frame, holes, targets, unloops, hp, hr, hb⟩ := h
  constructor <;> simp only [State.here, IsHole, hcode, hleave, hresolved, hcode', hlits', hleave',
    hresolved'] at * <;> assumption

/-- Cells at the end of the code -/
theorem straight (cells : List Cell) (hcode : s'.code = s.code ++ cells)
    (hleave : s'.leaveStack = s.leaveStack) (hresolved : s'.resolved = s.resolved) :
    Compiled s s' (.straight ⟨s.here + cells.length, s'.litstack⟩) where
  here := by rw [State.here, hcode, List.length_append]; rfl
  litstack := rfl
  leaveStack := ⟨[], hleave, rfl, fun _ h => nomatch h⟩
  resolved := hresolved
  le := by rw [State.here, State.here, hcode, List.length_append]; omega
  frame := fun i hi => by rw [hcode, List.getElem?_append_left hi]
  holes := fun _ h => nomatch h
  targets := fun _ h => nomatch h
  unloops := fun _ h => nomatch h
  pending_nodup := List.nodup_nil
  resolved_nodup := List.nodup_nil
  branches_nodup := List.nodup_nil

theorem refl (s : State) : Compiled s s (.straight ⟨s.here, s.litstack⟩) :=
  straight [] (List.append_nil _).symm rfl rfl

theorem getElem?_eq (h : Compiled s s' l) {i : Nat} {x : Cell} (hi : s.code[i]? = some x) :
    s'.code[i]? = some x := by
  rw [h.frame i (List.getElem?_eq_some_iff.mp hi).1, hi]

/-- Code after other code -/
theorem trans (h : Compiled s s' l) (h' : Compiled s' s'' m) : Compiled s s'' (l.andThen m) where
  here := h'.here
  litstack := h'.litstack
  leaveStack := by
    obtain ⟨origs, hstack, haddrs, htypes⟩ := h.leaveStack
    obtain ⟨origs', hstack', haddrs', htypes'⟩ := h'.leaveStack
    refine ⟨origs' ++ origs, ?_, ?_, ?_⟩
    · rw [hstack', hstack, List.append_assoc]
    · rw [List.map_append, haddrs, haddrs']
      rfl
    · intro orig horig
      exact (List.mem_append.mp horig).elim (htypes' orig) (htypes orig)
  resolved := by rw [h'.resolved, h.resolved, ← List.append_assoc]; rfl
  le := h.le.trans h'.le
  frame := fun i hi => by rw [h'.frame i (hi.trans_le h.le), h.frame i hi]
  holes := by
    intro a ha
    rcases List.mem_append.mp ha with ha | ha
    · exact ⟨h.le.trans (h'.holes a ha).1, (h'.holes a ha).2⟩
    · obtain ⟨hle, hhole⟩ := h.holes a ha
      exact ⟨hle, hhole.imp h'.getElem?_eq h'.getElem?_eq⟩
  targets := by
    intro p hp
    rcases List.mem_append.mp hp with hp | hp
    · exact ⟨h.le.trans (h'.targets p hp).1, (h'.targets p hp).2⟩
    · exact ⟨(h.targets p hp).1, h'.getElem?_eq (h.targets p hp).2⟩
  unloops := by
    intro p hp
    rcases List.mem_append.mp hp with hp | hp
    · exact ⟨List.mem_append_left _ (h'.unloops p hp).1, (h'.unloops p hp).2⟩
    · exact ⟨List.mem_append_right _ (h.unloops p hp).1, h'.getElem?_eq (h.unloops p hp).2⟩
  pending_nodup := by
    refine List.Nodup.append h'.pending_nodup h.pending_nodup fun a ha' ha => ?_
    have hlt := (h.holes a ha).2.lt
    have hle := (h'.holes a ha').1
    omega
  resolved_nodup := by
    change ((m.resolved ++ l.resolved).map Prod.fst).Nodup
    rw [List.map_append]
    refine List.Nodup.append h'.resolved_nodup h.resolved_nodup fun a ha' ha => ?_
    obtain ⟨p', hp', rfl⟩ := List.mem_map.mp ha'
    obtain ⟨p, hp, heq⟩ := List.mem_map.mp ha
    have hlt := lt_here (h.targets p hp).2
    have hle := (h'.targets p' hp').1
    omega
  branches_nodup := by
    change ((m.branches ++ l.branches).map Prod.fst).Nodup
    rw [List.map_append]
    refine List.Nodup.append h'.branches_nodup h.branches_nodup fun a ha' ha => ?_
    obtain ⟨p', hp', rfl⟩ := List.mem_map.mp ha'
    obtain ⟨p, hp, heq⟩ := List.mem_map.mp ha
    have hlt := lt_here (h.targets p (h.unloops p hp).1).2
    have hle := (h'.targets p' (h'.unloops p' hp').1).1
    omega

/-- A hole is resolved. -/
theorem set (h : Compiled s s' l) {a : Nat} (hle : s.here ≤ a) (hhole : IsHole s' a)
    (hpending : a ∉ l.pending) :
    Compiled s { s' with
        code := s'.code.set a (.target s'.here), resolved := (a, s'.here) :: s'.resolved }
      { l with resolved := (a, s'.here) :: l.resolved } := by
  have hother : ∀ {i : Nat} {x : Cell}, x ≠ .zero → x ≠ .unresolvedLeave → s'.code[i]? = some x →
      (s'.code.set a (.target s'.here))[i]? = some x := by
    intro i x hzero hleave hi
    rw [List.getElem?_set_ne, hi]
    rintro rfl
    rcases hhole with hhole | hhole <;> rw [hi] at hhole
    · exact hzero (Option.some.inj hhole)
    · exact hleave (Option.some.inj hhole)
  refine ⟨?_, h.litstack, h.leaveStack, ?_, ?_, ?_, ?_, ?_, ?_, h.pending_nodup, ?_,
    h.branches_nodup⟩
  · rw [State.here, List.length_set]
    exact h.here
  · rw [h.resolved]
    rfl
  · rw [State.here, State.here, List.length_set]
    exact h.le
  · intro i hi
    rw [List.getElem?_set_ne (by omega), h.frame i hi]
  · intro b hb
    have hne : a ≠ b := fun heq => hpending (heq ▸ hb)
    obtain ⟨hleb, hholeb⟩ := h.holes b hb
    refine ⟨hleb, ?_⟩
    rwa [IsHole, List.getElem?_set_ne hne]
  · intro p hp
    rcases List.mem_cons.mp hp with rfl | hp
    · exact ⟨hle, List.getElem?_set_self hhole.lt⟩
    · exact ⟨(h.targets p hp).1, hother nofun nofun (h.targets p hp).2⟩
  · intro p hp
    exact ⟨List.mem_cons_of_mem _ (h.unloops p hp).1, hother nofun nofun (h.unloops p hp).2⟩
  · rw [List.map_cons, List.nodup_cons]
    refine ⟨fun hmem => ?_, h.resolved_nodup⟩
    obtain ⟨p, hp, heq⟩ := List.mem_map.mp hmem
    have htarget := (h.targets p hp).2
    rw [heq] at htarget
    rcases hhole with hhole | hhole <;> rw [htarget] at hhole <;> cases hhole

/-- A hole waits for the end of the loop. -/
theorem push (h : Compiled s s' l) {orig : CsItem} (hle : s.here ≤ orig.addr)
    (hhole : IsHole s' orig.addr) (hpending : orig.addr ∉ l.pending)
    (htype : State.isOrig orig.type = true) :
    Compiled s { s' with leaveStack := orig :: s'.leaveStack }
      { l with pending := orig.addr :: l.pending } := by
  refine ⟨h.here, h.litstack, ?_, h.resolved, h.le, h.frame, ?_, h.targets, h.unloops, ?_,
    h.resolved_nodup, h.branches_nodup⟩
  · obtain ⟨origs, hstack, haddrs, htypes⟩ := h.leaveStack
    refine ⟨orig :: origs, ?_, ?_, ?_⟩
    · rw [hstack]
      rfl
    · rw [List.map_cons, haddrs]
    · intro o ho
      rcases List.mem_cons.mp ho with rfl | ho
      · exact htype
      · exact htypes o ho
  · intro a ha
    rcases List.mem_cons.mp ha with rfl | ha
    · exact ⟨hle, hhole⟩
    · exact h.holes a ha
  · exact List.nodup_cons.mpr ⟨hpending, h.pending_nodup⟩

/-- Branches that go to {lit}`unloop` are named. -/
theorem branches (h : Compiled s s' l) (branches : List (Nat × Nat))
    (hbranches : ∀ p ∈ branches, p ∈ l.resolved ∧ s'.code[p.2]? = some (.xt .unloop))
    (hnodup : ((branches ++ l.branches).map Prod.fst).Nodup) :
    Compiled s s' { l with branches := branches ++ l.branches } := by
  refine ⟨h.here, h.litstack, h.leaveStack, h.resolved, h.le, h.frame, h.holes, h.targets, ?_,
    h.pending_nodup, h.resolved_nodup, hnodup⟩
  intro p hp
  exact (List.mem_append.mp hp).elim (hbranches p) (h.unloops p)

/-- The latest waiting hole is taken back. -/
theorem pop (h : Compiled s s' l) {a : Nat} {pending : List Nat} (hl : l.pending = a :: pending) :
    ∃ orig leaveStack, s'.leaveStack = orig :: leaveStack ∧ orig.addr = a ∧
      State.isOrig orig.type = true ∧ s.here ≤ a ∧ IsHole s' a ∧ a ∉ pending ∧
      Compiled s { s' with leaveStack := leaveStack } { l with pending := pending } := by
  obtain ⟨origs, hstack, haddrs, htypes⟩ := h.leaveStack
  have hnodup := h.pending_nodup
  rw [hl] at haddrs hnodup
  obtain ⟨orig, origs, rfl, rfl, rfl⟩ := List.map_eq_cons_iff.mp haddrs
  obtain ⟨hnot, hnodup⟩ := List.nodup_cons.mp hnodup
  obtain ⟨hle, hhole⟩ := h.holes orig.addr (by rw [hl]; exact List.mem_cons_self)
  refine ⟨orig, origs ++ s.leaveStack, hstack, rfl, htypes orig List.mem_cons_self, hle, hhole, hnot,
    h.here, h.litstack, ⟨origs, rfl, rfl, fun o ho => htypes o (List.mem_cons_of_mem _ ho)⟩,
    h.resolved, h.le, h.frame, fun b hb => h.holes b (by rw [hl]; exact List.mem_cons_of_mem _ hb),
    h.targets, h.unloops, hnodup, h.resolved_nodup, h.branches_nodup⟩

end Compiled

/-- The point that the compiler has reached -/
def State.place (s : State) : Place :=
  ⟨s.here, s.litstack⟩

namespace Compiled

variable {s s' : State} {l : Layout}

theorem place_eq (h : Compiled s s' l) : s'.place = l.stop := by
  rw [State.place, h.here, h.litstack]

/-- Cells after the pending literals -/
theorem code (h : Compiled s s' l) {t : State} (cells : List Cell)
    (hcode : t.code = s'.litsComma.code ++ cells) (hlits : t.litstack = [])
    (hleave : t.leaveStack = s'.leaveStack) (hresolved : t.resolved = s'.resolved) :
    Compiled s t (l.code cells.length) := by
  have hflush : ∀ ns : List Nat,
      (ns.flatMap fun n => [Cell.xt .lit, .number n]).length = 2 * ns.length := by
    intro ns
    induction ns with
    | nil => rfl
    | cons n ns ih =>
      rw [List.flatMap_cons, List.length_append, ih, List.length_cons]
      simp only [List.length_cons, List.length_nil]
      omega
  rw [State.litsComma, List.append_assoc] at hcode
  have hstop := (h.trans (straight _ hcode hleave hresolved))
  rw [List.length_append, hflush, hlits, ← Nat.add_assoc, h.here, h.litstack] at hstop
  exact hstop

/-- A forward branch is resolved. -/
theorem resolve (h : Compiled s s' l) {a : Nat} (hle : s.here ≤ a) (hhole : IsHole s' a)
    (hpending : a ∉ l.pending) : Compiled s (s'.resolve a) (l.resolve a) := by
  have hflush : Compiled s s'.litsComma (l.code 0) :=
    h.code [] (List.append_nil _).symm rfl rfl rfl
  have hhole' : IsHole s'.litsComma a :=
    hhole.imp (fun hcell => by rw [State.litsComma, List.getElem?_append_left hhole.lt, hcell])
      (fun hcell => by rw [State.litsComma, List.getElem?_append_left hhole.lt, hcell])
  have hset := hflush.set hle hhole' hpending
  rw [hflush.here] at hset
  rw [State.resolve, State.basicBlockEnd, hflush.here]
  exact hset

/-- The leave stack stays in the code. -/
theorem leaveStack_lt (h : Compiled s s' l) (hs : ∀ orig ∈ s.leaveStack, orig.addr < s.here) :
    ∀ orig ∈ s'.leaveStack, orig.addr < s'.here := by
  obtain ⟨origs, hstack, haddrs, -⟩ := h.leaveStack
  intro orig horig
  rw [hstack] at horig
  rcases List.mem_append.mp horig with horig | horig
  · exact (h.holes orig.addr (haddrs ▸ List.mem_map_of_mem horig)).2.lt
  · exact (hs orig horig).trans_le h.le

end Compiled

theorem Layout.straight_andThen (p : Place) (l : Layout) : (straight p).andThen l = l := by
  simp only [andThen, straight, List.append_nil]

/-! ## The words -/

section Words

variable (c : Settings) {s : State}

/-- A comparison is compiled by the optimizer or as it is. -/
theorem compiled_fold (x : Xt) (cells : List Cell) :
    Compiled s (s.foldComma c x cells) (.straight (s.place.fold c x cells.length)) := by
  rw [State.foldComma, Place.fold]
  cases hfold : c.fold x s.litstack with
  | some lits =>
    rw [State.place, hfold]
    exact Compiled.straight [] (List.append_nil _).symm rfl rfl
  | none =>
    rw [State.place, hfold]
    exact (Compiled.refl s).code cells rfl rfl rfl rfl

/-- A word has compiled a forward branch. -/
structure Opens (s s' : State) (l : Layout) (orig : CsItem) : Prop where
  compiled : Compiled s s' l
  items : s'.items = orig :: s.items
  csDepth1 : s'.csDepth1 = s.csDepth1 + 1
  isOrig : State.isOrig orig.type = true
  addr : orig.addr + 1 = s'.here
  hole : IsHole s' orig.addr
  le : s.here ≤ orig.addr

/-- {lit}`>mark` opens a structure. -/
theorem opens_mark (x : Xt) (s : State) :
    ∃ orig, Opens s (s.compileComma x).mark (.straight (s.place.code 2)) orig := by
  refine ⟨⟨0, s.localsList, (s.compileComma x).here, if s.deadCode then .deadOrig else .liveOrig⟩,
    (Compiled.refl s).code [.xt x, .zero] ?_ rfl rfl rfl, rfl, rfl, ?_, ?_, ?_, ?_⟩
  · simp [State.mark, State.comma, State.csPushOrig, State.csPushPart, State.beforeCsPush,
      State.compileComma]
  · cases s.deadCode <;> rfl
  · simp [State.here, State.mark, State.comma, State.csPushOrig, State.csPushPart,
      State.beforeCsPush]
  · exact .inl (by simp [State.here, State.mark, State.comma, State.csPushOrig, State.csPushPart,
      State.beforeCsPush])
  · simp [State.here, State.compileComma, State.comma, State.litsComma]

theorem opens_if (s : State) : ∃ orig, Opens s s.if' (.straight (s.place.code 2)) orig :=
  opens_mark .qBranch s

theorem opens_ahead (s : State) : ∃ orig, Opens s s.ahead (.straight (s.place.code 2)) orig := by
  obtain ⟨orig, h⟩ := opens_mark .branch s
  exact ⟨orig, h.compiled.congr rfl rfl rfl rfl rfl rfl rfl, h.items, h.csDepth1, h.isOrig, h.addr,
    h.hole, h.le⟩

/-- {lit}`then` resolves the branch, and code behind it starts afresh. -/
theorem thenLike_eq (orig : CsItem) (s : State) :
    (s.thenLike c orig).code = (s.resolve orig.addr).code ∧
      (s.thenLike c orig).litstack = (s.resolve orig.addr).litstack ∧
      (s.thenLike c orig).items = s.items ∧ (s.thenLike c orig).csDepth1 = s.csDepth1 - 1 ∧
      (s.thenLike c orig).leaveStack = s.leaveStack ∧
      (s.thenLike c orig).resolved = (s.resolve orig.addr).resolved := by
  rw [State.thenLike]
  split
  · split <;> exact ⟨rfl, rfl, rfl, rfl, rfl, rfl⟩
  · exact ⟨rfl, rfl, rfl, rfl, rfl, rfl⟩

variable {s' : State} {l : Layout} {s : State}

/-- {lit}`then` resolves the top of the control-flow stack. -/
theorem then_spec (h : Compiled s s' l) {orig : CsItem} {items : List CsItem}
    (hitems : s'.items = orig :: items) (htype : State.isOrig orig.type = true)
    (hle : s.here ≤ orig.addr) (hhole : IsHole s' orig.addr) (hpending : orig.addr ∉ l.pending) :
    ∃ s'', s'.then' c = some s'' ∧ s''.items = items ∧ s''.csDepth1 = s'.csDepth1 - 1 ∧
      s''.leaveStack = s'.leaveStack ∧
      (∀ i < s'.here, i ≠ orig.addr → s''.code[i]? = s'.code[i]?) ∧
      Compiled s s'' (l.resolve orig.addr) := by
  obtain ⟨hcode, hlits, hitems', hdepth, hleave, hresolved⟩ :=
    thenLike_eq c orig { s' with items := items }
  refine ⟨_, by rw [State.then', hitems]; exact if_pos htype, hitems', hdepth, hleave, ?_,
    (h.resolve hle hhole hpending).congr rfl rfl rfl hcode hlits hleave hresolved⟩
  intro i hi hne
  rw [hcode, State.resolve, List.getElem?_set_ne (Ne.symm hne)]
  exact List.getElem?_append_left hi

/-- {lit}`begin` leaves an item on the control-flow stack. -/
theorem begin_spec (s : State) :
    Compiled s (s.begin' c) (.straight s.place.flush) ∧
      (s.begin' c).items = ⟨0, s.localsList, (s.begin' c).here, .dest⟩ :: s.items ∧
      (s.begin' c).csDepth1 = s.csDepth1 + 1 := by
  have hflush : Compiled s s.litsComma ((Layout.straight s.place).code 0) :=
    (Compiled.refl s).code [] (List.append_nil _).symm rfl rfl rfl
  have hcode : (s.begin' c).code = s.litsComma.code := by
    rw [State.begin', State.basicBlockEnd, State.beginLike]
    split <;> exact List.append_nil _
  refine ⟨?_, ?_, ?_⟩
  · refine hflush.congr rfl rfl rfl hcode ?_ ?_ ?_ <;>
      rw [State.begin', State.basicBlockEnd, State.beginLike] <;> split <;> rfl
  · rw [State.here, hcode, State.begin', State.basicBlockEnd, State.beginLike]
    split <;> rfl
  · rw [State.begin', State.basicBlockEnd, State.beginLike]
    split <;> rfl

/-- A branch back -/
theorem untilLike_spec (h : Compiled s s' l) (x : Xt) (dest : CsItem) (items : List CsItem) :
    Compiled s ({ s' with items := items }.untilLike x dest) (l.code 2) :=
  h.code [.xt x, .target dest.addr]
    (by simp [State.untilLike, State.afterCsPop, State.resolveBack, State.comma, State.compileComma,
      State.litsComma]) rfl rfl rfl

/-- {lit}`again` closes a loop. -/
theorem again_spec (h : Compiled s s' l) {dest : CsItem} {items : List CsItem}
    (hitems : s'.items = dest :: items) (htype : dest.type = .dest) :
    ∃ s'', s'.again c = some s'' ∧ s''.items = items ∧ s''.csDepth1 = s'.csDepth1 - 1 ∧
      Compiled s s'' (l.code 2) := by
  refine ⟨_, by rw [State.again, hitems]; exact if_pos htype, ?_, ?_, ?_⟩
  · rw [State.againLike]
    split <;> rfl
  · rw [State.againLike]
    split <;> rfl
  · refine (untilLike_spec h .branch dest items).congr rfl rfl rfl ?_ ?_ ?_ ?_ <;>
      rw [State.againLike] <;> split <;> rfl

/-- {lit}`until` closes a loop. -/
theorem until_spec (h : Compiled s s' l) {dest : CsItem} {items : List CsItem}
    (hitems : s'.items = dest :: items) (htype : dest.type = .dest) :
    ∃ s'', s'.until' = some s'' ∧ s''.items = items ∧ s''.csDepth1 = s'.csDepth1 - 1 ∧
      Compiled s s'' (l.code 2) :=
  ⟨_, by rw [State.until', hitems]; exact if_pos htype, rfl, rfl, untilLike_spec h .qBranch dest items⟩

/-- {lit}`1 cs-roll` -/
theorem csRoll_one {x y : CsItem} {items : List CsItem} (hitems : s.items = x :: y :: items) :
    s.csRoll 1 = some { s with items := y :: x :: items } := by
  rw [State.csRoll, hitems]
  rfl

/-! ## Counted loops -/

/-- {lit}`done` resolves the waiting branches of a loop, which are those above its start. -/
theorem Compiled.done {bound : Nat} (hbelow : ∀ orig ∈ s.leaveStack, orig.addr < bound)
    {pending : List Nat} (habove : ∀ a ∈ pending, bound ≤ a) {t : State} (h : Compiled s t l)
    (hpending : l.pending = pending) (hlits : t.litstack = []) :
    ∃ t', State.doneLoop c bound t.leaveStack t = some t' ∧ t'.items = t.items ∧
      t'.csDepth1 = t.csDepth1 ∧
      Compiled s t' { l with
        pending := [], resolved := (pending.map (·, t.here)).reverse ++ l.resolved } := by
  induction pending generalizing t l with
  | nil =>
    obtain ⟨origs, hstack, haddrs, -⟩ := h.leaveStack
    rw [hpending] at haddrs
    rw [List.map_eq_nil_iff.mp haddrs] at hstack
    have hsame : ∀ t' : State, t'.code = t.code → t'.litstack = t.litstack →
        t'.leaveStack = t.leaveStack → t'.resolved = t.resolved →
        Compiled s t' { l with pending := [], resolved := l.resolved } := by
      intro t' hcode hlits' hleave hresolved
      rw [← hpending]
      exact h.congr rfl rfl rfl hcode hlits' hleave hresolved
    rw [hstack, List.nil_append]
    cases hleave : s.leaveStack with
    | nil => exact ⟨_, rfl, rfl, rfl, hsame _ rfl rfl (by rw [hstack, hleave]; rfl) rfl⟩
    | cons orig leaveStack =>
      have hlt : ¬bound ≤ orig.addr :=
        Nat.not_le.mpr (hbelow orig (by rw [hleave]; exact List.mem_cons_self))
      refine ⟨_, if_neg hlt, rfl, ?_, hsame _ rfl rfl (by rw [hstack, hleave]; rfl) rfl⟩
      exact Int.add_sub_cancel _ 1
  | cons a pending ih =>
    obtain ⟨orig, leaveStack, hstack, rfl, htype, hle, hhole, hnot, hpop⟩ := h.pop hpending
    have hopen : Compiled s { t.beforeCsPush with items := orig :: t.items, leaveStack := leaveStack }
        { l with pending := pending } := hpop.congr rfl rfl rfl rfl rfl rfl rfl
    obtain ⟨t', hthen, hitems, hdepth, hleave, -, hresolve⟩ :=
      then_spec c hopen rfl htype hle hhole hnot
    have hflush : l.stop.flush = l.stop := Place.flush_of_nil (by rw [← h.litstack, hlits])
    have hplace := hresolve.place_eq
    rw [Layout.resolve, hflush] at hplace hresolve
    obtain ⟨hhere', hlits'⟩ := Place.mk.inj hplace
    obtain ⟨t'', hdone, hitems', hdepth', hcompiled⟩ :=
      ih (fun b hb => habove b (List.mem_cons_of_mem _ hb)) hresolve rfl
        (by rw [hlits', ← h.litstack, hlits])
    refine ⟨t'', ?_, by rw [hitems', hitems], ?_, ?_⟩
    · rw [hstack, State.doneLoop]
      rw [if_pos (habove _ List.mem_cons_self), hthen, ← hdone, hleave]
      rfl
    · rw [hdepth', hdepth]
      exact Int.add_sub_cancel _ 1
    · rw [hhere'] at hcompiled
      rw [h.here, List.map_cons, List.reverse_cons, List.append_assoc]
      exact hcompiled

/-- {lit}`begin drop do-dest`, after the run-time word of the loop -/
theorem beginDo_spec (h : Compiled s s' l) (hlits : s'.litstack = []) :
    (s'.beginDo c).items = ⟨0, s'.localsList, s'.here, .doDest⟩ :: s'.items ∧
      (s'.beginDo c).csDepth1 = s'.csDepth1 + 1 ∧ Compiled s (s'.beginDo c) l ∧
      (s'.beginDo c).here = s'.here := by
  obtain ⟨hcompiled, hitems, hdepth⟩ := begin_spec c s'
  have hplace : s'.place.flush = l.stop := by
    rw [h.place_eq, Place.flush_of_nil (by rw [← h.litstack, hlits])]
  rw [hplace] at hcompiled
  have hhere : (s'.begin' c).here = s'.here := by
    rw [hcompiled.here, h.here]
    rfl
  have hbegin : s'.beginDo c = { s'.begin' c with
      items := ⟨0, s'.localsList, s'.here, .doDest⟩ :: s'.items } := by
    rw [State.beginDo]
    split
    · rename_i hnil
      rw [hitems] at hnil
      cases hnil
    · rename_i dest items hcons
      rw [hitems, hhere] at hcons
      obtain ⟨rfl, rfl⟩ := List.cons.inj hcons
      rfl
  rw [hbegin]
  refine ⟨rfl, hdepth, ?_, hhere⟩
  have hboth := h.trans hcompiled
  exact hboth.congr rfl rfl rfl rfl rfl rfl rfl

/-- The start of a counted loop -/
theorem enter_spec (entry : Entry) (s : State) :
    ∃ s' doSys, s.enter c entry = some s' ∧ s'.items = doSys :: s.items ∧
      s'.csDepth1 = s.csDepth1 + 1 ∧ doSys.type = .doDest ∧ doSys.addr = s'.here ∧
      s.here < s'.here ∧ (∀ a ∈ (entry.layout s.place).pending, s'.here ≤ a + 1) ∧
      Compiled s s' (entry.layout s.place) := by
  have hplain : ∀ x : Xt, ∃ s' doSys, some ((s.compileComma x).beginDo c) = some s' ∧
      s'.items = doSys :: s.items ∧ s'.csDepth1 = s.csDepth1 + 1 ∧ doSys.type = .doDest ∧
      doSys.addr = s'.here ∧ s.here < s'.here ∧ Compiled s s' (.straight (s.place.code 1)) := by
    intro x
    have hword : Compiled s (s.compileComma x) (.straight (s.place.code 1)) :=
      (Compiled.refl s).code [.xt x] rfl rfl rfl rfl
    obtain ⟨hitems, hdepth, hcompiled, hhere⟩ := beginDo_spec c hword rfl
    refine ⟨_, _, rfl, hitems, hdepth, rfl, hhere.symm, ?_, hcompiled⟩
    rw [hcompiled.here]
    exact Nat.lt_succ_of_le (Nat.le_add_right _ _)
  have hskip : ∀ x : Xt, ∃ s' doSys, (s.compileComma x).qDoLike c = some s' ∧
      s'.items = doSys :: s.items ∧ s'.csDepth1 = s.csDepth1 + 1 ∧ doSys.type = .doDest ∧
      doSys.addr = s'.here ∧ s.here < s'.here ∧
      Compiled s s' ⟨s.place.code 2, [(s.place.code 2).here - 1], [], []⟩ := by
    intro x
    obtain ⟨orig, hopens⟩ := opens_mark x s
    have hpush := hopens.compiled.push hopens.le hopens.hole nofun hopens.isOrig
    have haddr : orig.addr = (s.place.code 2).here - 1 := by
      have hhere := hopens.compiled.here
      have hlast := hopens.addr
      rw [hhere] at hlast
      exact Nat.eq_sub_of_add_eq hlast
    rw [haddr] at hpush
    have hleave : (s.compileComma x).mark.toLeave =
        some { (s.compileComma x).mark.afterCsPop with
          items := s.items, leaveStack := orig :: (s.compileComma x).mark.leaveStack } := by
      rw [State.toLeave, hopens.items]
    have hmark : Compiled s { (s.compileComma x).mark.afterCsPop with
        items := s.items, leaveStack := orig :: (s.compileComma x).mark.leaveStack }
        ⟨s.place.code 2, [(s.place.code 2).here - 1], [], []⟩ :=
      hpush.congr rfl rfl rfl rfl rfl rfl rfl
    obtain ⟨hitems, hdepth, hcompiled, hhere⟩ := beginDo_spec c hmark rfl
    refine ⟨_, _, by rw [State.qDoLike, hleave]; rfl, hitems, ?_, rfl, hhere.symm, ?_, hcompiled⟩
    · rw [hdepth]
      have hmarked := hopens.csDepth1
      change (s.compileComma x).mark.csDepth1 - 1 + 1 = s.csDepth1 + 1
      rw [hmarked, Int.sub_add_cancel]
    · rw [hcompiled.here]
      exact Nat.lt_succ_of_le (Nat.le_add_right_of_le (Nat.le_add_right _ _))
  cases hentry : entry.skips with
  | false =>
    rw [Entry.layout, hentry, if_neg Bool.false_ne_true]
    cases entry with
    | «do» | «for» =>
      obtain ⟨s', doSys, henter, hitems, hdepth, htype, haddr, hlt, hcompiled⟩ := hplain _
      exact ⟨s', doSys, henter, hitems, hdepth, htype, haddr, hlt, nofun, hcompiled⟩
    | qDo | plusDo | uPlusDo | minusDo | uMinusDo => cases hentry
  | true =>
    rw [Entry.layout, hentry, if_pos rfl]
    cases entry with
    | «do» | «for» => cases hentry
    | qDo | plusDo | uPlusDo | minusDo | uMinusDo =>
      obtain ⟨s', doSys, henter, hitems, hdepth, htype, haddr, hlt, hcompiled⟩ := hskip _
      refine ⟨s', doSys, henter, hitems, hdepth, htype, haddr, hlt, ?_, hcompiled⟩
      intro a ha
      rw [List.mem_singleton.mp ha, hcompiled.here]
      exact Nat.le_add_of_sub_le (le_refl _)

/-- The end of a counted loop -/
theorem exit_spec (ending : Exit) (h : Compiled s s' l) {doSys : CsItem} {items : List CsItem}
    (hitems : s'.items = doSys :: items) (htype : doSys.type = .doDest)
    (hbelow : ∀ orig ∈ s.leaveStack, orig.addr < doSys.addr - 1)
    (habove : ∀ a ∈ l.pending, doSys.addr - 1 ≤ a) :
    ∃ s'', s'.exit c ending = some s'' ∧ s''.items = items ∧ s''.csDepth1 = s'.csDepth1 - 1 ∧
      Compiled s s'' (l.code 2).close := by
  have hcopy : Compiled s s'.beforeCsPush l := h.congr rfl rfl rfl rfl rfl rfl rfl
  have huntil := untilLike_spec hcopy (.exit ending) doSys items
  obtain ⟨t, hdone, hitems', hdepth, hcompiled⟩ := huntil.done c hbelow habove rfl rfl
  have hcell := hcompiled.code (t := t.afterCsPop.compileComma .unloop) [.xt .unloop]
    rfl rfl rfl rfl
  have hunloop : (t.afterCsPop.compileComma .unloop).code[(l.code 2).stop.here]? =
      some (.xt .unloop) := by
    have hcode : (t.afterCsPop.compileComma .unloop).code = t.code ++ [.xt .unloop] := by
      have hlits : t.litstack = [] := hcompiled.litstack
      simp [State.compileComma, State.comma, State.litsComma, State.afterCsPop, hlits]
    have hhere : (l.code 2).stop.here = t.code.length := hcompiled.here.symm
    rw [hcode, hhere, List.getElem?_concat_length]
  rw [huntil.here] at hcell
  have hnodup : ((l.pending.map (·, (l.code 2).stop.here) ++ l.branches).map Prod.fst).Nodup := by
    have hresolved : (((l.pending.map (·, (l.code 2).stop.here)).reverse ++ l.resolved).map
        Prod.fst).Nodup := hcell.resolved_nodup
    rw [List.map_append, List.map_reverse, List.nodup_append'] at hresolved
    rw [List.map_append]
    refine List.Nodup.append (List.nodup_reverse.mp hresolved.1) h.branches_nodup
      fun a ha ha' => hresolved.2.2 (List.mem_reverse.mpr ha) ?_
    obtain ⟨p, hp, rfl⟩ := List.mem_map.mp ha'
    exact List.mem_map_of_mem (h.unloops p hp).1
  have hclose := hcell.branches (l.pending.map (·, (l.code 2).stop.here)) (by
    intro p hp
    refine ⟨List.mem_append_left _ (List.mem_reverse.mpr hp), ?_⟩
    obtain ⟨a, -, rfl⟩ := List.mem_map.mp hp
    exact hunloop) hnodup
  refine ⟨t.afterCsPop.compileComma .unloop, ?_, hitems', ?_, hclose⟩
  · have hpick : s'.csPick 0 =
        some { s'.beforeCsPush with items := doSys :: doSys :: items } := by
      rw [State.csPick, hitems]
      rfl
    have huntil' : ({ s'.beforeCsPush with
          items := doSys :: { doSys with addr := doSys.addr - 1 } :: items } : State).untilDo
            (.exit ending) =
        some ({ s'.beforeCsPush with
          items := { doSys with addr := doSys.addr - 1 } :: items }.untilLike (.exit ending) doSys) :=
      if_pos htype
    have hdone' : ({ s'.beforeCsPush with items := { doSys with addr := doSys.addr - 1 } ::
          items }.untilLike (.exit ending) doSys).done c = some t.afterCsPop :=
      congrArg (Option.map State.afterCsPop) hdone
    rw [State.exit, State.loopLike]
    exact Option.bind_eq_some_iff.mpr ⟨_, hpick, Option.bind_eq_some_iff.mpr ⟨_, rfl,
      Option.bind_eq_some_iff.mpr ⟨_, rfl, Option.bind_eq_some_iff.mpr ⟨_, huntil',
        Option.bind_eq_some_iff.mpr ⟨_, hdone', rfl⟩⟩⟩⟩⟩
  · change t.csDepth1 - 1 = s'.csDepth1 - 1
    rw [hdepth]
    change s'.csDepth1 + 1 - 1 - 1 = s'.csDepth1 - 1
    rw [Int.add_sub_cancel]

/-! ## Arrangements -/

/-- Tokens are compiled one behind the other. -/
theorem compileAll_append (ts us : List Token) (s : State) :
    compileAll c (ts ++ us) s = (compileAll c ts s).bind (compileAll c us) := by
  induction ts generalizing s with
  | nil => rfl
  | cons t ts ih =>
    rw [List.cons_append, compileAll, compileAll, Option.bind_assoc]
    exact congrArg _ (funext ih)

theorem compileAll_singleton (t : Token) (s : State) : compileAll c [t] s = t.compile c s := by
  rw [compileAll]
  cases t.compile c s <;> rfl

/-- The words compile code with the layout, and take from the control-flow stack what they put there. -/
def Compiles (ts : List Token) (s : State) (l : Layout) : Prop :=
  ∃ s', compileAll c ts s = some s' ∧ s'.items = s.items ∧ s'.csDepth1 = s.csDepth1 ∧ Compiled s s' l

theorem foldComma_items (x : Xt) (cells : List Cell) (s : State) :
    (s.foldComma c x cells).items = s.items ∧ (s.foldComma c x cells).csDepth1 = s.csDepth1 := by
  rw [State.foldComma]
  split <;> exact ⟨rfl, rfl⟩

/-- A forward branch around some code -/
theorem Opens.closes {s₁ s₂ : State} {l m : Layout} {orig : CsItem} (h : Opens s s₁ l orig)
    (hl : l.pending = []) (hbody : Compiled s₁ s₂ m) {items : List CsItem}
    (hitems : s₂.items = orig :: items) :
    ∃ s₃, s₂.then' c = some s₃ ∧ s₃.items = items ∧ s₃.csDepth1 = s₂.csDepth1 - 1 ∧
      (∀ i < s₂.here, i ≠ orig.addr → s₃.code[i]? = s₂.code[i]?) ∧
      Compiled s s₃ ((l.andThen m).resolve (l.stop.here - 1)) := by
  have hnot : orig.addr ∉ (l.andThen m).pending := by
    rw [Layout.andThen, hl, List.append_nil]
    intro hmem
    have hle := (hbody.holes orig.addr hmem).1
    have haddr := h.addr
    omega
  obtain ⟨s₃, hthen, hitems', hdepth, -, hframe, hcompiled⟩ := then_spec c (h.compiled.trans hbody) hitems
    h.isOrig h.le (h.hole.imp hbody.getElem?_eq hbody.getElem?_eq) hnot
  have haddr : orig.addr = l.stop.here - 1 := by
    rw [← h.compiled.here]
    exact Nat.eq_sub_of_add_eq h.addr
  rw [haddr] at hcompiled
  exact ⟨s₃, hthen, hitems', hdepth, hframe, hcompiled⟩

/-- A conditional without an {lit}`else` -/
theorem compiles_ifThen {a : Source} (hs : ∀ orig ∈ s.leaveStack, orig.addr < s.here)
    (ih : ∀ {s : State}, (∀ orig ∈ s.leaveStack, orig.addr < s.here) →
      Compiles c a.tokens s (a.layout c s.place)) :
    Compiles c (Source.ifThen a).tokens s ((Source.ifThen a).layout c s.place) := by
  obtain ⟨orig, hopens⟩ := opens_if s
  obtain ⟨s₂, hrun, hitems, hdepth, hbody⟩ := ih (hopens.compiled.leaveStack_lt hs)
  rw [hopens.compiled.place_eq] at hbody
  obtain ⟨s₃, hthen, hitems', hdepth', -, hcompiled⟩ :=
    hopens.closes c rfl hbody (hitems.trans hopens.items)
  rw [Layout.straight_andThen] at hcompiled
  refine ⟨s₃, ?_, hitems', ?_, hcompiled⟩
  · rw [Source.tokens, compileAll_append, compileAll]
    change ((compileAll c a.tokens s.if').bind _) = _
    rw [hrun]
    exact (compileAll_singleton c _ _).trans hthen
  · rw [hdepth', hdepth, hopens.csDepth1, Int.add_sub_cancel]

/-- {lit}`else` ends the first part with a branch of its own. -/
theorem compiles_ifElse {a b : Source} (hs : ∀ orig ∈ s.leaveStack, orig.addr < s.here)
    (iha : ∀ {s : State}, (∀ orig ∈ s.leaveStack, orig.addr < s.here) →
      Compiles c a.tokens s (a.layout c s.place))
    (ihb : ∀ {s : State}, (∀ orig ∈ s.leaveStack, orig.addr < s.here) →
      Compiles c b.tokens s (b.layout c s.place)) :
    Compiles c (Source.ifElse a b).tokens s ((Source.ifElse a b).layout c s.place) := by
  obtain ⟨orig, hopens⟩ := opens_if s
  obtain ⟨s₂, hrun, hitems, hdepth, hbody⟩ := iha (hopens.compiled.leaveStack_lt hs)
  rw [hopens.compiled.place_eq] at hbody
  obtain ⟨orig', hopens'⟩ := opens_ahead s₂
  rw [hbody.place_eq] at hopens'
  -- the first orig is on top again
  have hroll : s₂.ahead.csRoll 1 =
      some { s₂.ahead with items := orig :: orig' :: s.items } :=
    csRoll_one (by rw [hopens'.items, hitems, hopens.items])
  have hfirst : Compiled s.if' { s₂.ahead with items := orig :: orig' :: s.items }
      ((a.layout c (s.place.code 2)).code 2) :=
    (hbody.trans hopens'.compiled).congr rfl rfl rfl rfl rfl rfl rfl
  obtain ⟨s₄, helse, hitems', hdepth', hframe, hcompiled⟩ := hopens.closes c rfl hfirst rfl
  rw [Layout.straight_andThen] at hcompiled
  obtain ⟨s₅, hrun', hitems'', hdepth'', hbody'⟩ := ihb (hcompiled.leaveStack_lt hs)
  rw [hcompiled.place_eq] at hbody'
  have hhere : s₄.here = s₂.ahead.here := by
    rw [hcompiled.here, hopens'.compiled.here]
    rfl
  have hlast := hopens'.addr
  have hle : s.if'.here ≤ orig'.addr := hbody.le.trans hopens'.le
  -- resolving the first branch leaves the second one unresolved
  have hhole : IsHole s₄ orig'.addr := by
    have haddr := hopens.addr
    rw [IsHole, hframe orig'.addr hopens'.hole.lt (by omega)]
    exact hopens'.hole
  have hnot : orig'.addr ∉ (Layout.andThen (((a.layout c (s.place.code 2)).code 2).resolve
      ((s.place.code 2).here - 1)) (b.layout c (((a.layout c (s.place.code 2)).code 2).resolve
        ((s.place.code 2).here - 1)).stop)).pending := by
    intro hmem
    rcases List.mem_append.mp hmem with hmem | hmem
    · have hge := (hbody'.holes _ hmem).1
      omega
    · have hlt := (hbody.holes _ hmem).2.lt
      have hge := hopens'.le
      omega
  obtain ⟨s₆, hthen, hitems₆, hdepth₆, -, -, hcompiled₆⟩ := then_spec c (hcompiled.trans hbody')
    (hitems''.trans hitems') hopens'.isOrig (hopens.compiled.le.trans hle)
    (hhole.imp hbody'.getElem?_eq hbody'.getElem?_eq) hnot
  have horig' : orig'.addr = (((a.layout c (s.place.code 2)).code 2).resolve
      ((s.place.code 2).here - 1)).stop.here - 1 := by
    have hstop := hcompiled.here
    rw [hhere, ← hlast] at hstop
    exact Nat.eq_sub_of_add_eq hstop
  rw [horig'] at hcompiled₆
  refine ⟨s₆, ?_, hitems₆, ?_, hcompiled₆⟩
  · have helse' : s₂.else' c = some s₄ := by
      rw [State.else', hroll]
      exact helse
    rw [Source.tokens, compileAll_append, compileAll_append, compileAll]
    change (((compileAll c a.tokens s.if').bind _).bind _) = _
    rw [hrun]
    change ((((s₂.else' c).bind (compileAll c b.tokens))).bind _) = _
    rw [helse']
    change ((compileAll c b.tokens s₄).bind _) = _
    rw [hrun']
    exact (compileAll_singleton c _ _).trans hthen
  · have hdepth₃ := hopens'.csDepth1
    rw [hdepth₆, hdepth'', hdepth']
    change s₂.ahead.csDepth1 - 1 - 1 = s.csDepth1
    rw [hdepth₃, hdepth, hopens.csDepth1]
    omega

/-- A branch back to {lit}`begin` -/
theorem compiles_begin {a : Source} {t : Token} (hs : ∀ orig ∈ s.leaveStack, orig.addr < s.here)
    (ih : ∀ {s : State}, (∀ orig ∈ s.leaveStack, orig.addr < s.here) →
      Compiles c a.tokens s (a.layout c s.place))
    (hback : ∀ {s s' : State} {l : Layout}, Compiled s s' l → ∀ {dest : CsItem} {items : List CsItem},
      s'.items = dest :: items → dest.type = .dest →
      ∃ s'', t.compile c s' = some s'' ∧ s''.items = items ∧ s''.csDepth1 = s'.csDepth1 - 1 ∧
        Compiled s s'' (l.code 2)) :
    Compiles c (.begin :: a.tokens ++ [t]) s ((a.layout c s.place.flush).code 2) := by
  obtain ⟨hbegin, hitems, hdepth⟩ := begin_spec c s
  obtain ⟨s₂, hrun, hitems', hdepth', hbody⟩ := ih (hbegin.leaveStack_lt hs)
  rw [hbegin.place_eq] at hbody
  have hboth := hbegin.trans hbody
  rw [Layout.straight_andThen] at hboth
  obtain ⟨s₃, hcompile, hitems'', hdepth'', hcompiled⟩ := hback hboth (hitems'.trans hitems) rfl
  refine ⟨s₃, ?_, hitems'', ?_, hcompiled⟩
  · rw [compileAll_append, compileAll]
    change ((compileAll c a.tokens (s.begin' c)).bind _) = _
    rw [hrun]
    exact (compileAll_singleton c _ _).trans hcompile
  · rw [hdepth'', hdepth', hdepth, Int.add_sub_cancel]

/-- {lit}`while` puts its branch under the item of {lit}`begin`. -/
theorem compiles_beginWhile {a b : Source} (hs : ∀ orig ∈ s.leaveStack, orig.addr < s.here)
    (iha : ∀ {s : State}, (∀ orig ∈ s.leaveStack, orig.addr < s.here) →
      Compiles c a.tokens s (a.layout c s.place))
    (ihb : ∀ {s : State}, (∀ orig ∈ s.leaveStack, orig.addr < s.here) →
      Compiles c b.tokens s (b.layout c s.place)) :
    Compiles c (Source.beginWhile a b).tokens s ((Source.beginWhile a b).layout c s.place) := by
  obtain ⟨hbegin, hitems, hdepth⟩ := begin_spec c s
  obtain ⟨s₂, hrun, hitems', hdepth', hbody⟩ := iha (hbegin.leaveStack_lt hs)
  rw [hbegin.place_eq] at hbody
  have hfirst := hbegin.trans hbody
  rw [Layout.straight_andThen] at hfirst
  obtain ⟨orig, hopens⟩ := opens_if s₂
  rw [hfirst.place_eq] at hopens
  have hwhile : s₂.while' = some { s₂.if' with
      items := ⟨0, s.localsList, (s.begin' c).here, .dest⟩ :: orig :: s.items } :=
    csRoll_one (by rw [hopens.items, hitems', hitems])
  have hopened : Compiled s { s₂.if' with
      items := ⟨0, s.localsList, (s.begin' c).here, .dest⟩ :: orig :: s.items }
      ((a.layout c s.place.flush).code 2) :=
    (hfirst.trans hopens.compiled).congr rfl rfl rfl rfl rfl rfl rfl
  obtain ⟨s₄, hrun', hitems'', hdepth'', hbody'⟩ := ihb (hopened.leaveStack_lt hs)
  rw [hopened.place_eq] at hbody'
  obtain ⟨s₅, hagain, hitems₅, hdepth₅, hback⟩ := again_spec c hbody' hitems'' rfl
  obtain ⟨s₆, hthen, hitems₆, hdepth₆, -, hcompiled⟩ :=
    hopens.closes c rfl (hback.congr rfl rfl rfl rfl rfl rfl rfl) hitems₅
  rw [Layout.straight_andThen] at hcompiled
  refine ⟨s₆, ?_, hitems₆, ?_, hfirst.trans hcompiled⟩
  · rw [Source.tokens, compileAll_append, compileAll_append, compileAll]
    change (((compileAll c a.tokens (s.begin' c)).bind _).bind _) = _
    rw [hrun]
    change ((s₂.while'.bind (compileAll c b.tokens)).bind _) = _
    rw [hwhile]
    change ((compileAll c b.tokens _).bind _) = _
    rw [hrun']
    refine (compileAll_singleton c _ _).trans ?_
    change (s₄.again c).bind _ = _
    rw [hagain]
    exact hthen
  · rw [hdepth₆, hdepth₅, hdepth'']
    change s₂.if'.csDepth1 - 1 - 1 = s.csDepth1
    rw [hopens.csDepth1, hdepth', hdepth]
    omega

/-- A counted loop, whose exits all go behind it -/
theorem compiles_counted {entry : Entry} {a : Source} {ending : Exit}
    (hs : ∀ orig ∈ s.leaveStack, orig.addr < s.here)
    (ih : ∀ {s : State}, (∀ orig ∈ s.leaveStack, orig.addr < s.here) →
      Compiles c a.tokens s (a.layout c s.place)) :
    Compiles c (Source.counted entry a ending).tokens s
      ((Source.counted entry a ending).layout c s.place) := by
  obtain ⟨s₁, doSys, henter, hitems, hdepth, htype, haddr, hlt, hskip, hcompiled⟩ :=
    enter_spec c entry s
  obtain ⟨s₂, hrun, hitems', hdepth', hbody⟩ := ih (hcompiled.leaveStack_lt hs)
  rw [hcompiled.place_eq] at hbody
  have hbelow : ∀ orig ∈ s.leaveStack, orig.addr < doSys.addr - 1 := by
    intro orig horig
    have := hs orig horig
    omega
  have habove : ∀ a' ∈ ((entry.layout s.place).andThen
      (a.layout c (entry.layout s.place).stop)).pending, doSys.addr - 1 ≤ a' := by
    intro a' ha'
    rcases List.mem_append.mp ha' with ha' | ha'
    · have := (hbody.holes a' ha').1
      omega
    · have := hskip a' ha'
      omega
  obtain ⟨s₃, hexit, hitems'', hdepth'', hcompiled₃⟩ := exit_spec c ending (hcompiled.trans hbody)
    (hitems'.trans hitems) htype hbelow habove
  refine ⟨s₃, ?_, hitems'', ?_, hcompiled₃⟩
  · rw [Source.tokens, compileAll_append, compileAll]
    change (((s.enter c entry).bind _).bind _) = _
    rw [henter]
    change ((compileAll c a.tokens s₁).bind _) = _
    rw [hrun]
    exact (compileAll_singleton c _ _).trans hexit
  · rw [hdepth'', hdepth', hdepth, Int.add_sub_cancel]

/-- {lit}`leave` and {lit}`?leave`: a forward branch that waits -/
theorem Opens.leaves {s s₁ : State} {p : Place} {orig : CsItem} (h : Opens s s₁ (.straight p) orig) :
    ∃ s₂, s₁.toLeave = some s₂ ∧ s₂.items = s.items ∧ s₂.csDepth1 = s.csDepth1 ∧
      Compiled s s₂ ⟨p, [p.here - 1], [], []⟩ := by
  have hpush := h.compiled.push h.le h.hole nofun h.isOrig
  have haddr : orig.addr = p.here - 1 := by
    have hhere : s₁.here = p.here := h.compiled.here
    rw [← hhere]
    exact Nat.eq_sub_of_add_eq h.addr
  rw [haddr] at hpush
  refine ⟨{ s₁.afterCsPop with items := s.items, leaveStack := orig :: s₁.leaveStack }, ?_, rfl, ?_,
    hpush.congr rfl rfl rfl rfl rfl rfl rfl⟩
  · rw [State.toLeave, h.items]
  · change s₁.csDepth1 - 1 = s.csDepth1
    rw [h.csDepth1, Int.add_sub_cancel]

/-- {lit}`leave` opens a branch that is resolved at the end of its loop. -/
theorem compiles_leave (s : State) :
    Compiles c Source.leave.tokens s (Source.leave.layout c s.place) := by
  obtain ⟨orig, hopens⟩ := opens_ahead s
  have hcode : s.ahead.code.set (s.ahead.here - 1) .unresolvedLeave =
      s.litsComma.code ++ [.xt .branch, .unresolvedLeave] := by
    have hahead : s.ahead.code = (s.litsComma.code ++ [.xt .branch]) ++ [.zero] := rfl
    rw [State.here, hahead, List.length_append, List.length_singleton, Nat.add_sub_cancel,
      List.set_append_right _ _ (le_refl _), Nat.sub_self, List.append_assoc]
    rfl
  have hpatched : Opens s { s.ahead with
      code := s.ahead.code.set (s.ahead.here - 1) .unresolvedLeave }
      (.straight (s.place.code 2)) orig := by
    have hhere : (s.ahead.code.set (s.ahead.here - 1) .unresolvedLeave).length = s.ahead.here :=
      List.length_set
    refine ⟨(Compiled.refl s).code [.xt .branch, .unresolvedLeave] hcode rfl rfl rfl, hopens.items,
      hopens.csDepth1, hopens.isOrig, hopens.addr.trans hhere.symm, .inr ?_, hopens.le⟩
    rw [← hopens.addr, Nat.add_sub_cancel]
    exact List.getElem?_set_self hopens.hole.lt
  obtain ⟨s₂, hleave, hitems, hdepth, hcompiled⟩ := hpatched.leaves
  exact ⟨s₂, (compileAll_singleton c _ _).trans hleave, hitems, hdepth, hcompiled⟩

/-- The compiler follows the layout. -/
theorem compileAll_tokens (src : Source) (hs : ∀ orig ∈ s.leaveStack, orig.addr < s.here) :
    Compiles c src.tokens s (src.layout c s.place) := by
  induction src generalizing s with
  | skip => exact ⟨s, rfl, rfl, rfl, Compiled.refl s⟩
  | literal n => exact ⟨s.literal n, rfl, rfl, rfl, Compiled.straight [] (List.append_nil _).symm rfl rfl⟩
  | word n =>
    obtain ⟨hitems, hdepth⟩ := foldComma_items c (.word n) (c.cells n) s
    exact ⟨_, rfl, hitems, hdepth, compiled_fold c (.word n) (c.cells n)⟩
  | seq a b iha ihb =>
    obtain ⟨s₁, hrun, hitems, hdepth, hcompiled⟩ := iha hs
    obtain ⟨s₂, hrun', hitems', hdepth', hcompiled'⟩ := ihb (hcompiled.leaveStack_lt hs)
    rw [hcompiled.place_eq] at hcompiled'
    refine ⟨s₂, ?_, hitems'.trans hitems, hdepth'.trans hdepth, hcompiled.trans hcompiled'⟩
    rw [Source.tokens, compileAll_append, hrun]
    exact hrun'
  | ifThen a ih => exact compiles_ifThen c hs ih
  | ifElse a b iha ihb => exact compiles_ifElse c hs iha ihb
  | beginAgain a ih => exact compiles_begin c hs ih (again_spec c)
  | beginUntil a ih => exact compiles_begin c hs ih until_spec
  | beginWhile a b iha ihb => exact compiles_beginWhile c hs iha ihb
  | counted entry a ending ih => exact compiles_counted c hs ih
  | leave => exact compiles_leave c s
  | qLeave =>
    obtain ⟨hitems, hdepth⟩ := foldComma_items c .zeroEquals [.xt .zeroEquals] s
    have hzero := compiled_fold c .zeroEquals [.xt .zeroEquals] (s := s)
    obtain ⟨orig, hopens⟩ := opens_if (s.foldComma c .zeroEquals [.xt .zeroEquals])
    rw [hzero.place_eq] at hopens
    obtain ⟨s₂, hleave, hitems', hdepth', hcompiled⟩ := hopens.leaves
    have hboth := hzero.trans hcompiled
    rw [Layout.straight_andThen] at hboth
    exact ⟨s₂, (compileAll_singleton c _ _).trans hleave, hitems'.trans hitems, hdepth'.trans hdepth,
      hboth⟩

end Words

end Control
end Gforth
