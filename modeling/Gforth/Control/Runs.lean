import Gforth.Control.Leaves

/-!
# Compiling in any state

In every state that the compiler can reach, the branches that wait are in the code that is there
already.  So the branches of an arrangement are resolved in any state.

Main results:

- Theorem {lit}`compile_sound`: the words keep this invariant.
- Theorem {lit}`leaves_resolved`: what holds after an arrangement.
-/

namespace Gforth
namespace Control

/-- The states that the compiler reaches from the start of a definition, with any words in any order -/
inductive Reachable (c : Settings) : State → Prop
  | colon {s : State} (hitems : s.items = []) (hleave : s.leaveStack = [])
      (hresolved : s.resolved = []) : Reachable c s
  | step {s s' : State} (t : Token) (hs : Reachable c s) (hstep : t.compile c s = some s') :
      Reachable c s'

/-- The branches are in the code. -/
structure State.Sound (s : State) : Prop where
  items : ∀ item ∈ s.items, isOrig item.type = true → item.addr < s.here
  leaveStack : ∀ orig ∈ s.leaveStack, orig.addr < s.here
  resolved : ∀ p ∈ s.resolved, p.1 < s.here

namespace State.Sound

variable {s t : State}

/-- The code grows. -/
theorem grow (h : s.Sound) (hle : s.here ≤ t.here) (hitems : t.items = s.items)
    (hleave : t.leaveStack = s.leaveStack) (hresolved : t.resolved = s.resolved) : t.Sound where
  items := by
    rw [hitems]
    exact fun item hitem htype => (h.items item hitem htype).trans_le hle
  leaveStack := by
    rw [hleave]
    exact fun orig horig => (h.leaveStack orig horig).trans_le hle
  resolved := by
    rw [hresolved]
    exact fun p hp => (h.resolved p hp).trans_le hle

/-- The control-flow stack changes. -/
theorem withItems (h : s.Sound) (hcode : t.code = s.code) (hleave : t.leaveStack = s.leaveStack)
    (hresolved : t.resolved = s.resolved)
    (hitems : ∀ item ∈ t.items, isOrig item.type = true → item.addr < s.here) : t.Sound := by
  have hhere : t.here = s.here := congrArg List.length hcode
  refine ⟨?_, ?_, ?_⟩ <;> rw [hhere]
  · exact hitems
  · rw [hleave]
    exact h.leaveStack
  · rw [hresolved]
    exact h.resolved

theorem litsComma (h : s.Sound) : s.litsComma.Sound :=
  h.grow (by simp [State.here, State.litsComma]) rfl rfl rfl

theorem comma (h : s.Sound) (x : Cell) : (s.comma x).Sound :=
  h.grow (by simp [State.here, State.comma]) rfl rfl rfl

theorem compileComma (h : s.Sound) (x : Xt) : (s.compileComma x).Sound :=
  h.litsComma.comma (.xt x)

/-- The optimizer keeps the state sound. -/
theorem foldComma (h : s.Sound) (c : Settings) (x : Xt) (cells : List Cell) :
    (s.foldComma c x cells).Sound := by
  rw [State.foldComma]
  split
  · exact h.grow (le_refl _) rfl rfl rfl
  · exact h.litsComma.grow (by simp [State.here]) rfl rfl rfl

/-- {lit}`>mark` keeps the state sound. -/
theorem mark (h : s.Sound) : s.mark.Sound where
  items := by
    have hlt : s.here < s.mark.here := by
      simp [State.here, State.mark, State.comma, State.csPushOrig, State.csPushPart,
        State.beforeCsPush]
    intro item hitem htype
    rcases List.mem_cons.mp hitem with rfl | hitem
    · exact hlt
    · exact (h.items item hitem htype).trans hlt
  leaveStack := ((h.withItems rfl rfl rfl h.items : s.beforeCsPush.Sound).comma .zero).leaveStack
  resolved := ((h.withItems rfl rfl rfl h.items : s.beforeCsPush.Sound).comma .zero).resolved

/-- {lit}`cs-pick` keeps the state sound. -/
theorem csPick (h : s.Sound) {u : Nat} (hpick : s.csPick u = some t) : t.Sound := by
  rw [State.csPick] at hpick
  obtain ⟨item, hitem, rfl⟩ := Option.map_eq_some_iff.mp hpick
  refine h.withItems rfl rfl rfl fun item' hitem' => ?_
  rcases List.mem_cons.mp hitem' with rfl | hitem'
  · exact h.items _ (List.mem_of_getElem? hitem)
  · exact h.items item' hitem'

/-- {lit}`cs-roll` keeps the state sound. -/
theorem csRoll (h : s.Sound) {u : Nat} (hroll : s.csRoll u = some t) : t.Sound := by
  rw [State.csRoll] at hroll
  obtain ⟨item, hitem, rfl⟩ := Option.map_eq_some_iff.mp hroll
  refine h.withItems rfl rfl rfl fun item' hitem' => ?_
  rcases List.mem_cons.mp hitem' with rfl | hitem'
  · exact h.items _ (List.mem_of_getElem? hitem)
  · exact h.items item' (List.mem_of_mem_eraseIdx hitem')

/-- {lit}`then` keeps the state sound. -/
theorem then' (h : s.Sound) (c : Settings) (hthen : s.then' c = some t) :
    t.Sound ∧ s.here ≤ t.here := by
  rw [State.then'] at hthen
  split at hthen
  · cases hthen
  rename_i orig items hitems
  split at hthen
  case isFalse => cases hthen
  case isTrue htype =>
    obtain rfl := Option.some.inj hthen
    obtain ⟨hcode, -, hitems', -, hleave, hresolved⟩ :=
      thenLike_eq c orig { s with items := items }
    have hlits := h.litsComma
    have horig := hlits.items orig (by rw [State.litsComma, hitems]; exact List.mem_cons_self) htype
    have hhere : (State.thenLike c orig { s with items := items }).here = s.litsComma.here := by
      rw [State.here, hcode, State.resolve, List.length_set]
      rfl
    refine ⟨⟨?_, ?_, ?_⟩, ?_⟩ <;> rw [hhere]
    · rw [hitems']
      exact fun item hitem =>
        hlits.items item (by rw [State.litsComma, hitems]; exact List.mem_cons_of_mem _ hitem)
    · rw [hleave]
      exact hlits.leaveStack
    · rw [hresolved]
      intro p hp
      rcases List.mem_cons.mp hp with rfl | hp
      · exact horig
      · exact hlits.resolved p hp
    · simp [State.here, State.litsComma]

/-- {lit}`begin` keeps the state sound. -/
theorem begin' (h : s.Sound) (c : Settings) : (s.begin' c).Sound := by
  obtain ⟨hcompiled, hitems, -⟩ := begin_spec c s
  have hle := hcompiled.le
  refine ⟨?_, hcompiled.leaveStack_lt h.leaveStack, ?_⟩
  · rw [hitems]
    intro item hitem htype
    rcases List.mem_cons.mp hitem with rfl | hitem
    · cases htype
    · exact (h.items item hitem htype).trans_le hle
  · rw [hcompiled.resolved]
    exact fun p hp => (h.resolved p hp).trans_le hle

/-- The top is dropped. -/
theorem drop (h : s.Sound) {item : CsItem} {items : List CsItem} (hitems : s.items = item :: items) :
    ({ s with items := items } : State).Sound :=
  h.withItems rfl rfl rfl fun item' hitem' =>
    h.items item' (by rw [hitems]; exact List.mem_cons_of_mem _ hitem')

theorem untilLike (h : s.Sound) (x : Xt) (dest : CsItem) : (s.untilLike x dest).Sound :=
  ((h.compileComma x).comma (.target dest.addr)).withItems rfl rfl rfl
    ((h.compileComma x).comma (.target dest.addr)).items

/-- {lit}`again` keeps the state sound. -/
theorem again (h : s.Sound) (c : Settings) (hagain : s.again c = some t) : t.Sound := by
  rw [State.again] at hagain
  split at hagain
  · cases hagain
  rename_i dest items hitems
  split at hagain
  case isFalse => cases hagain
  case isTrue =>
    obtain rfl := Option.some.inj hagain
    have huntil := (h.drop hitems).untilLike .branch dest
    rw [State.againLike]
    split
    · exact huntil.withItems rfl rfl rfl huntil.items
    · exact huntil

/-- {lit}`until` keeps the state sound. -/
theorem until' (h : s.Sound) (huntil : s.until' = some t) : t.Sound := by
  rw [State.until'] at huntil
  split at huntil
  · cases huntil
  rename_i dest items hitems
  split at huntil
  case isFalse => cases huntil
  case isTrue =>
    obtain rfl := Option.some.inj huntil
    exact (h.drop hitems).untilLike .qBranch dest

/-- A branch waits; {lit}`>leave` does not look at the type. -/
theorem toLeave (h : s.Sound) (htop : ∀ orig ∈ s.items.head?, orig.addr < s.here)
    (hleave : s.toLeave = some t) : t.Sound := by
  rw [State.toLeave] at hleave
  split at hleave
  · cases hleave
  rename_i orig items hitems
  obtain rfl := Option.some.inj hleave
  refine ⟨(h.drop hitems).items, ?_, h.resolved⟩
  intro orig' horig'
  rcases List.mem_cons.mp horig' with rfl | horig'
  · exact htop _ (by rw [hitems]; rfl)
  · exact h.leaveStack orig' horig'

/-- Resolving the exits of a loop keeps the state sound. -/
theorem doneLoop (c : Settings) (addr : Nat) {leaveStack : List CsItem} (h : s.Sound)
    (hstack : ∀ orig ∈ leaveStack, orig.addr < s.here)
    (hdone : State.doneLoop c addr leaveStack s = some t) : t.Sound := by
  induction leaveStack generalizing s with
  | nil =>
    obtain rfl := Option.some.inj hdone
    exact ⟨h.items, nofun, h.resolved⟩
  | cons orig leaveStack ih =>
    rw [State.doneLoop] at hdone
    have hback : ({ s.beforeCsPush with items := orig :: s.items, leaveStack := leaveStack } :
        State).Sound := by
      refine ⟨?_, fun orig' h' => hstack orig' (List.mem_cons_of_mem _ h'), h.resolved⟩
      intro item hitem htype
      rcases List.mem_cons.mp hitem with rfl | hitem
      · exact hstack _ List.mem_cons_self
      · exact h.items item hitem htype
    dsimp only at hdone
    split at hdone
    · obtain ⟨s', hthen, hdone⟩ := Option.bind_eq_some_iff.mp hdone
      obtain ⟨hsound, hle⟩ := hback.then' c hthen
      exact ih hsound
        (fun orig' h' => (hstack orig' (List.mem_cons_of_mem _ h')).trans_le hle) hdone
    · refine hback.toLeave ?_ hdone
      intro orig' h'
      obtain rfl := Option.some.inj h'
      exact hstack _ List.mem_cons_self

/-- {lit}`done` keeps the state sound. -/
theorem done (h : s.Sound) (c : Settings) (hdone : s.done c = some t) : t.Sound := by
  rw [State.done] at hdone
  split at hdone
  · cases hdone
  rename_i doSys items hitems
  obtain ⟨s', hloop, rfl⟩ := Option.map_eq_some_iff.mp hdone
  have hsound := (h.drop hitems).doneLoop c doSys.addr h.leaveStack hloop
  exact hsound.withItems rfl rfl rfl hsound.items

theorem markLeave (h : s.Sound) (hleave : s.mark.toLeave = some t) : t.Sound := by
  refine h.mark.toLeave (fun orig horig => ?_) hleave
  obtain rfl := Option.some.inj horig
  simp [State.here, State.mark, State.comma, State.csPushOrig, State.csPushPart, State.beforeCsPush]

/-- The start of a loop keeps the state sound. -/
theorem beginDo (h : s.Sound) (c : Settings) : (s.beginDo c).Sound := by
  have hbegin := h.begin' c
  rw [State.beginDo]
  split
  · exact hbegin
  · rename_i dest items hitems
    refine hbegin.withItems rfl rfl rfl fun item hitem htype => ?_
    rcases List.mem_cons.mp hitem with rfl | hitem
    · cases htype
    · exact hbegin.items item (by rw [hitems]; exact List.mem_cons_of_mem _ hitem) htype

theorem qDoLike (h : s.Sound) (c : Settings) (hdo : s.qDoLike c = some t) : t.Sound := by
  obtain ⟨s', hleave, rfl⟩ := Option.map_eq_some_iff.mp hdo
  exact (h.markLeave hleave).beginDo c

/-- Each way to enter a loop keeps the state sound. -/
theorem enter (h : s.Sound) (c : Settings) (entry : Entry) (henter : s.enter c entry = some t) :
    t.Sound := by
  cases entry with
  | «do» | «for» =>
    obtain rfl := Option.some.inj henter
    exact (h.compileComma _).beginDo c
  | qDo | plusDo | uPlusDo | minusDo | uMinusDo => exact (h.compileComma _).qDoLike c henter

/-- Each end of a loop keeps the state sound. -/
theorem exit (h : s.Sound) (c : Settings) (ending : Exit) (hexit : s.exit c ending = some t) :
    t.Sound := by
  rw [State.exit, State.loopLike] at hexit
  obtain ⟨s₁, hpick, hexit⟩ := Option.bind_eq_some_iff.mp hexit
  obtain ⟨s₂, hminus, hexit⟩ := Option.bind_eq_some_iff.mp hexit
  obtain ⟨s₃, hroll, hexit⟩ := Option.bind_eq_some_iff.mp hexit
  obtain ⟨s₄, huntil, hexit⟩ := Option.bind_eq_some_iff.mp hexit
  obtain ⟨s₅, hdone, hexit⟩ := Option.bind_eq_some_iff.mp hexit
  obtain rfl := Option.some.inj hexit
  have h₂ : s₂.Sound := by
    have h₁ := h.csPick hpick
    rw [State.cellMinus] at hminus
    split at hminus
    · cases hminus
    rename_i item items hitems
    obtain rfl := Option.some.inj hminus
    refine h₁.withItems rfl rfl rfl fun item' hitem' htype => ?_
    rcases List.mem_cons.mp hitem' with rfl | hitem'
    · have hlt := h₁.items item (by rw [hitems]; exact List.mem_cons_self) htype
      exact lt_of_le_of_lt (Nat.sub_le _ _) hlt
    · exact h₁.items item' (by rw [hitems]; exact List.mem_cons_of_mem _ hitem') htype
  have h₄ : s₄.Sound := by
    rw [State.untilDo] at huntil
    split at huntil
    · cases huntil
    rename_i doSys items hitems
    split at huntil
    case isFalse => cases huntil
    case isTrue =>
      obtain rfl := Option.some.inj huntil
      exact ((h₂.csRoll hroll).drop hitems).untilLike _ doSys
  exact (h₄.done c hdone).compileComma .unloop

end State.Sound

/-- Every word keeps the branches in the code. -/
theorem compile_sound (c : Settings) (t : Token) {s s' : State} (h : s.Sound)
    (hstep : t.compile c s = some s') : s'.Sound := by
  cases t with
  | literal n =>
    obtain rfl := Option.some.inj hstep
    exact h.grow (le_refl _) rfl rfl rfl
  | word n =>
    obtain rfl := Option.some.inj hstep
    exact h.foldComma c _ _
  | ahead =>
    obtain rfl := Option.some.inj hstep
    have hmark := (h.compileComma .branch).mark
    exact hmark.withItems rfl rfl rfl hmark.items
  | «if» =>
    obtain rfl := Option.some.inj hstep
    exact (h.compileComma .qBranch).mark
  | «then» => exact (h.then' c hstep).1
  | «else» =>
    obtain ⟨s₁, hroll, hthen⟩ := Option.bind_eq_some_iff.mp hstep
    have hmark := (h.compileComma .branch).mark
    have hahead : s.ahead.Sound := hmark.withItems rfl rfl rfl hmark.items
    exact ((hahead.csRoll hroll).then' c hthen).1
  | «begin» =>
    obtain rfl := Option.some.inj hstep
    exact h.begin' c
  | again => exact h.again c hstep
  | «until» => exact h.until' hstep
  | «while» => exact (h.compileComma .qBranch).mark.csRoll hstep
  | «repeat» =>
    obtain ⟨s₁, hagain, hthen⟩ := Option.bind_eq_some_iff.mp hstep
    exact ((h.again c hagain).then' c hthen).1
  | enter entry => exact h.enter c entry hstep
  | exit ending => exact h.exit c ending hstep
  | leave =>
    have hmark := (h.compileComma .branch).mark
    have hpatched : ({ s.ahead with
        code := s.ahead.code.set (s.ahead.here - 1) .unresolvedLeave } : State).Sound :=
      hmark.grow (by simp [State.here, State.ahead, State.unreachable]) rfl rfl rfl
    refine hpatched.toLeave (fun orig horig => ?_) hstep
    obtain rfl := Option.some.inj horig
    simp [State.here, State.ahead, State.unreachable, State.mark, State.comma, State.csPushOrig,
      State.csPushPart, State.beforeCsPush]
  | qLeave => exact ((h.foldComma c _ _).compileComma .qBranch).markLeave hstep
  | done => exact h.done c hstep
  | csPick u => exact h.csPick hstep
  | csRoll u => exact h.csRoll hstep

/-- Every state that is reached is sound. -/
theorem Reachable.sound {c : Settings} {s : State} (h : Reachable c s) : s.Sound := by
  induction h with
  | colon hitems hleave hresolved =>
    refine ⟨?_, ?_, ?_⟩
    · rw [hitems]
      exact nofun
    · rw [hleave]
      exact nofun
    · rw [hresolved]
      exact nofun
  | step t _ hstep ih => exact compile_sound c t ih hstep

/-- In every reachable state, compiling an arrangement whose {lit}`leave`s are in loops resolves each
branch of a {lit}`leave` and of the start of a loop once, to the {lit}`unloop` of its loop, and restores
both stacks. -/
theorem leaves_resolved (c : Settings) {s : State} (hs : Reachable c s) {src : Source}
    (hclosed : src.closed) :
    ∃ s', compileAll c src.tokens s = some s' ∧ s'.leaveStack = s.leaveStack ∧
      s'.items = s.items ∧ s'.csDepth1 = s.csDepth1 ∧
      (src.layout c s.place).branches.length = src.branchCount ∧
      ((src.layout c s.place).branches.map Prod.fst).Nodup ∧
      ∀ p ∈ (src.layout c s.place).branches, s'.code[p.1]? = some (.target p.2) ∧
        s'.code[p.2]? = some (.xt .unloop) ∧ (s'.resolved.map Prod.fst).count p.1 = 1 := by
  obtain ⟨s', hrun, hitems, hdepth, hcompiled⟩ := compileAll_tokens c src hs.sound.leaveStack
  have hpending := Source.pending_of_closed c hclosed s.place
  have hcount := Source.length_branches c src s.place
  rw [hpending, List.length_nil, Nat.add_zero] at hcount
  refine ⟨s', hrun, ?_, hitems, hdepth, hcount, hcompiled.branches_nodup, fun p hp => ?_⟩
  · obtain ⟨origs, hstack, haddrs, -⟩ := hcompiled.leaveStack
    rw [hpending, List.map_eq_nil_iff] at haddrs
    rw [hstack, haddrs, List.nil_append]
  · obtain ⟨hmem, hunloop⟩ := hcompiled.unloops p hp
    obtain ⟨hle, htarget⟩ := hcompiled.targets p hmem
    refine ⟨htarget, hunloop, ?_⟩
    have hold : p.1 ∉ s.resolved.map Prod.fst := by
      intro hmem'
      obtain ⟨q, hq, heq⟩ := List.mem_map.mp hmem'
      have hlt := hs.sound.resolved q hq
      omega
    rw [hcompiled.resolved, List.map_append, List.count_append, List.count_eq_zero.mpr hold,
      List.count_eq_one_of_mem hcompiled.resolved_nodup (List.mem_map_of_mem hmem)]

/-- Threaded code without folding -/
def threaded : Settings where
  fold _ _ := none
  cells n := [.xt (.word n)]
  glocals := true

/-- The start of the first definition -/
def State.start : State where
  code := []
  litstack := []
  items := []
  leaveStack := []
  csDepth1 := 0
  deadCode := false
  localsList := 0
  resolved := []

/-- {lit}`?do if leave then for ?leave next loop` -/
def nested : Source :=
  .counted .qDo (.seq (.ifThen .leave) (.counted .for .qLeave .next)) .loop

example : (nested.layout threaded State.start.place).branches = [(5, 15), (1, 15), (9, 12)] := by
  decide

/-- A loop in a loop, with a {lit}`leave` in each of them -/
theorem leaves_resolved_nested :
    ∃ s', compileAll threaded nested.tokens State.start = some s' ∧ s'.leaveStack = [] ∧
      ∀ p ∈ (nested.layout threaded State.start.place).branches,
        s'.code[p.1]? = some (.target p.2) ∧ s'.code[p.2]? = some (.xt .unloop) := by
  obtain ⟨s', hrun, hleave, -, -, -, -, hbranches⟩ :=
    leaves_resolved threaded (Reachable.colon (s := State.start) rfl rfl rfl)
      (show nested.closed = true from rfl)
  exact ⟨s', hrun, hleave, fun p hp => ⟨(hbranches p hp).1, (hbranches p hp).2.1⟩⟩

end Control
end Gforth
