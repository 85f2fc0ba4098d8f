import Gforth.BasicBlocks.Marks

/-!
# The marks of a definition

At every point of a definition the bits of {lit}`primbits` are those of the compiled instructions,
and the bits of {lit}`targets` those of the stored destinations.  A destination is an instruction or
the place of the next one, a branch that waits is an operand.

Main results:

- Theorem {lit}`compile_marked`: every word keeps the marks.
- Theorem {lit}`semicolon_marked`: at the end of a definition the destinations are instructions.
-/

namespace Gforth
namespace BasicBlocks

open Lib
open Control (CsItem ItemType Entry Exit)
open Control.State (isOrig)

namespace State

/-- An instruction is compiled there. -/
def IsInstruction (s : State) (a : Nat) : Prop :=
  ∃ xt, (a, xt) ∈ s.compiled

/-- A place for a destination: an instruction or, unless an operand is going to be compiled,
{lit}`here` -/
def Place (s : State) (atHere : Bool) (a : Nat) : Prop :=
  s.IsInstruction a ∨ (atHere = true ∧ a = s.here)

/-- A cell of the code that is not an instruction -/
def Operand (s : State) (a : Nat) : Prop :=
  a < s.here ∧ ¬ s.IsInstruction a

/-- The marks of the code, where {lit}`items` are the items of the control-flow stack that are going
to be used. -/
structure Marked (s : State) (atHere : Bool) (items : List CsItem) : Prop where
  here : ∃ n, s.here = s.codestart + 8 * n
  compiled : ∀ p ∈ s.compiled,
    (∃ i, p.1 = s.codestart + 8 * i) ∧ p.1 < s.here ∧ s.mem p.1 = p.2
  primbits : ∀ i, bitAt s.primbits i = true ↔ s.IsInstruction (s.codestart + 8 * i)
  targets : ∀ i, bitAt s.targets i = true ↔ s.codestart + 8 * i ∈ s.dests
  dests : ∀ d ∈ s.dests, s.Place atHere d
  origs : ∀ item ∈ items, isOrig item.type = true → s.Operand item.addr
  others : ∀ item ∈ items, isOrig item.type = false → s.Place atHere item.addr
  leaves : ∀ orig ∈ s.leaveStack, s.Operand orig.addr

namespace Marked

variable {s t : State} {atHere : Bool} {items : List CsItem} {c : Settings}

theorem lt_here (h : s.Marked atHere items) {a : Nat} (ha : s.IsInstruction a) : a < s.here := by
  obtain ⟨xt, hmem⟩ := ha
  exact (h.compiled _ hmem).2.1

theorem not_here (h : s.Marked atHere items) : ¬ s.IsInstruction s.here :=
  fun ha => (h.lt_here ha).false

theorem weaken (h : s.Marked false items) : s.Marked true items :=
  { h with
    dests := fun d hd => .inl ((h.dests d hd).resolve_right (by simp))
    others := fun item hitem htype => .inl ((h.others item hitem htype).resolve_right (by simp)) }

/-- The other fields of the state do not matter. -/
theorem withControl (h : s.Marked atHere items) (litstack : List Cell) (csItems : List CsItem)
    (csDepth1 : Int) (deadCode : Bool) (localsList : Nat) :
    ({ s with litstack := litstack, items := csItems, csDepth1 := csDepth1, deadCode := deadCode,
              localsList := localsList } : State).Marked atHere items :=
  ⟨h.here, h.compiled, h.primbits, h.targets, h.dests, h.origs, h.others, h.leaves⟩

theorem withLeaves (h : s.Marked atHere items) (leaveStack : List CsItem)
    (hleaves : ∀ orig ∈ leaveStack, s.Operand orig.addr) :
    ({ s with leaveStack := leaveStack } : State).Marked atHere items :=
  ⟨h.here, h.compiled, h.primbits, h.targets, h.dests, h.origs, h.others, hleaves⟩

/-- Fewer items -/
theorem withItems (h : s.Marked atHere items) {items' : List CsItem}
    (hitems : ∀ item ∈ items', item ∈ items) : s.Marked atHere items' :=
  { h with
    origs := fun item hitem => h.origs item (hitems item hitem)
    others := fun item hitem => h.others item (hitems item hitem) }

/-- A new item on the control-flow stack -/
theorem push (h : s.Marked atHere items) (item : CsItem)
    (horig : isOrig item.type = true → s.Operand item.addr)
    (hother : isOrig item.type = false → s.Place atHere item.addr) :
    s.Marked atHere (item :: items) :=
  { h with
    origs := List.forall_mem_cons.mpr ⟨horig, h.origs⟩
    others := List.forall_mem_cons.mpr ⟨hother, h.others⟩ }

theorem pop {item : CsItem} (h : s.Marked atHere (item :: items)) : s.Marked atHere items :=
  h.withItems fun _ => List.mem_cons_of_mem item

/-! ## Cells -/

/-- An instruction is compiled, and is marked. -/
theorem instruction (h : s.Marked true items) (xt : Cell) : (s.instruction xt).Marked false items := by
  have hiff (a : Nat) : (s.instruction xt).IsInstruction a ↔ a = s.here ∨ s.IsInstruction a := by
    simp only [IsInstruction, State.instruction, List.mem_cons, Prod.mk.injEq]
    constructor
    · rintro ⟨x, ⟨rfl, -⟩ | hx⟩
      · exact .inl rfl
      · exact .inr ⟨x, hx⟩
    · rintro (rfl | ⟨x, hx⟩)
      · exact ⟨xt, .inl ⟨rfl, rfl⟩⟩
      · exact ⟨x, .inr hx⟩
  have hplace {a : Nat} (ha : s.Place true a) : (s.instruction xt).Place false a :=
    .inl ((hiff a).mpr (ha.symm.imp_left And.right))
  have hoperand {a : Nat} (ha : s.Operand a) : (s.instruction xt).Operand a := by
    refine ⟨ha.1.trans (Nat.lt_add_of_pos_right (by decide)), fun ha' => ?_⟩
    exact ((hiff a).mp ha').elim ha.1.ne ha.2
  obtain ⟨n, hn⟩ := h.here
  refine ⟨⟨n + 1, ?_⟩, ?_, fun i => ?_, h.targets, fun d hd => hplace (h.dests d hd),
    fun item hitem htype => hoperand (h.origs item hitem htype),
    fun item hitem htype => hplace (h.others item hitem htype),
    fun orig horig => hoperand (h.leaves orig horig)⟩
  · change s.here + 8 = s.codestart + 8 * (n + 1)
    omega
  · intro p hp
    rcases List.mem_cons.mp hp with rfl | hp
    · refine ⟨⟨n, hn⟩, Nat.lt_add_of_pos_right (by decide), ?_⟩
      simp [State.instruction, State.comma, State.store]
    · obtain ⟨hi, hlt, hmem⟩ := h.compiled p hp
      refine ⟨hi, hlt.trans (Nat.lt_add_of_pos_right (by decide)), ?_⟩
      exact (Function.update_of_ne hlt.ne xt s.mem).trans hmem
  · have hdiv : (s.here - s.codestart) / 8 = n := by omega
    have heq : i = n ↔ s.codestart + 8 * i = s.here := by omega
    change bitAt (plusBit ((s.here - s.codestart) / 8) s.primbits) i = true ↔
      (s.instruction xt).IsInstruction (s.codestart + 8 * i)
    rw [bitAt_plusBit, hdiv, hiff, h.primbits, heq]

/-- An operand is compiled. -/
theorem comma (h : s.Marked false items) (x : Cell) : (s.comma x).Marked false items := by
  have hoperand {a : Nat} (ha : s.Operand a) : (s.comma x).Operand a :=
    ⟨ha.1.trans (Nat.lt_add_of_pos_right (by decide)), ha.2⟩
  have hplace {a : Nat} (ha : s.Place false a) : (s.comma x).Place false a :=
    .inl (ha.resolve_right (by simp))
  obtain ⟨n, hn⟩ := h.here
  refine ⟨⟨n + 1, ?_⟩, fun p hp => ?_, h.primbits, h.targets, fun d hd => hplace (h.dests d hd),
    fun item hitem htype => hoperand (h.origs item hitem htype),
    fun item hitem htype => hplace (h.others item hitem htype),
    fun orig horig => hoperand (h.leaves orig horig)⟩
  · change s.here + 8 = s.codestart + 8 * (n + 1)
    omega
  · obtain ⟨hi, hlt, hmem⟩ := h.compiled p hp
    refine ⟨hi, hlt.trans (Nat.lt_add_of_pos_right (by decide)), ?_⟩
    exact (Function.update_of_ne hlt.ne x s.mem).trans hmem

theorem commas (h : s.Marked false items) (xs : List Cell) : (s.commas xs).Marked false items := by
  induction xs generalizing s with
  | nil => exact h
  | cons x xs ih => exact ih (h.comma x)

/-- A store into an operand -/
theorem store (h : s.Marked atHere items) {a : Nat} (ha : ¬ s.IsInstruction a) (x : Cell) :
    (s.store a x).Marked atHere items := by
  refine ⟨h.here, fun p hp => ?_, h.primbits, h.targets, h.dests, h.origs, h.others, h.leaves⟩
  obtain ⟨hi, hlt, hmem⟩ := h.compiled p hp
  have hne : p.1 ≠ a := fun heq => ha ⟨p.2, heq ▸ hp⟩
  refine ⟨hi, hlt, ?_⟩
  exact (Function.update_of_ne hne x s.mem).trans hmem

/-- A place is marked and recorded. -/
theorem plusTarget (h : s.Marked atHere items) {a : Nat} (ha : s.Place atHere a) :
    ({ s.plusTarget a with dests := a :: s.dests } : State).Marked atHere items := by
  obtain ⟨n, hn⟩ := h.here
  have hplace : ∃ i, a = s.codestart + 8 * i ∧ a ≤ s.here := by
    rcases ha with ⟨xt, hmem⟩ | ⟨-, rfl⟩
    · obtain ⟨⟨i, hi⟩, hlt, -⟩ := h.compiled _ hmem
      exact ⟨i, hi, hlt.le⟩
    · exact ⟨n, hn, le_refl _⟩
  obtain ⟨i, hi, hle⟩ := hplace
  have hrange : s.codestart ≤ a ∧ a < s.here + 8 := by omega
  rw [State.plusTarget, if_pos hrange]
  refine ⟨h.here, h.compiled, h.primbits, fun j => ?_, List.forall_mem_cons.mpr ⟨ha, h.dests⟩,
    h.origs, h.others, h.leaves⟩
  have hdiv : (a - s.codestart) / 8 = i := by omega
  have heq : j = i ↔ s.codestart + 8 * j = a := by omega
  simp only [List.mem_cons]
  rw [bitAt_plusBit, hdiv, h.targets, heq]

/-- The pending literals are compiled. -/
theorem litsComma (h : s.Marked true items) : (s.litsComma c).Marked true items := by
  suffices hfold : ∀ (xs : List Cell) {s : State}, s.Marked true items →
      (xs.foldl (fun t x => (t.instruction c.lit).comma x) s).Marked true items from
    hfold s.litstack (h.withControl [] s.items s.csDepth1 s.deadCode s.localsList)
  intro xs
  induction xs with
  | nil => exact fun h => h
  | cons x xs ih => exact fun h => ih ((h.instruction c.lit).comma x).weaken

theorem peepholeCompile (h : s.Marked true items) (xt : Cell) :
    (s.peepholeCompile c xt).Marked false items :=
  h.litsComma.instruction xt

/-- {lit}`compile,` of a word leaves every item marked. -/
theorem compileComma (h : s.Marked true items) (xt : Cell) (operands : List Cell) :
    (s.compileComma c xt operands).Marked true items := by
  rw [State.compileComma]
  split
  · exact h.withControl _ s.items s.csDepth1 s.deadCode s.localsList
  · exact ((h.peepholeCompile xt).commas operands).weaken

end Marked

/-! ## What the words leave alone -/

/-- Compiling the literals changes neither the control-flow stack nor the leave stack. -/
theorem litsComma_stacks (c : Settings) (s : State) :
    (s.litsComma c).items = s.items ∧ (s.litsComma c).leaveStack = s.leaveStack := by
  suffices hfold : ∀ (xs : List Cell) (s : State),
      (xs.foldl (fun t x => (t.instruction c.lit).comma x) s).items = s.items ∧
        (xs.foldl (fun t x => (t.instruction c.lit).comma x) s).leaveStack = s.leaveStack from
    hfold s.litstack { s with litstack := [] }
  intro xs
  induction xs with
  | nil => exact fun s => ⟨rfl, rfl⟩
  | cons x xs ih => exact fun s => ih ((s.instruction c.lit).comma x)

@[simp]
theorem litsComma_items (c : Settings) (s : State) : (s.litsComma c).items = s.items :=
  (litsComma_stacks c s).1

@[simp]
theorem litsComma_leaveStack (c : Settings) (s : State) :
    (s.litsComma c).leaveStack = s.leaveStack :=
  (litsComma_stacks c s).2

@[simp]
theorem peepholeCompile_items (c : Settings) (xt : Cell) (s : State) :
    (s.peepholeCompile c xt).items = s.items :=
  litsComma_items c s

@[simp]
theorem plusTarget_items (a : Nat) (s : State) : (s.plusTarget a).items = s.items := by
  rw [plusTarget]
  split <;> rfl

@[simp]
theorem plusTarget_leaveStack (a : Nat) (s : State) : (s.plusTarget a).leaveStack = s.leaveStack := by
  rw [plusTarget]
  split <;> rfl

/-- {lit}`compile,` does not change the control-flow stack. -/
@[simp]
theorem compileComma_items (c : Settings) (xt : Cell) (operands : List Cell) (s : State) :
    (s.compileComma c xt operands).items = s.items := by
  have hcommas (xs : List Cell) (s : State) : (s.commas xs).items = s.items := by
    induction xs generalizing s with
    | nil => rfl
    | cons x xs ih => exact ih (s.comma x)
  rw [compileComma]
  split
  · rfl
  · rw [hcommas, peepholeCompile_items]

@[simp]
theorem resolve_items (c : Settings) (a : Nat) (s : State) : (s.resolve c a).items = s.items :=
  (plusTarget_items _ (s.litsComma c)).trans (litsComma_items c s)

@[simp]
theorem resolve_leaveStack (c : Settings) (a : Nat) (s : State) :
    (s.resolve c a).leaveStack = s.leaveStack :=
  (plusTarget_leaveStack _ (s.litsComma c)).trans (litsComma_leaveStack c s)

theorem plusTarget_compiled (a : Nat) (s : State) : (s.plusTarget a).compiled = s.compiled := by
  rw [plusTarget]
  split <;> rfl

/-- {lit}`then-like` resolves the branch, and changes neither code nor stacks otherwise. -/
theorem thenLike_eq (c : Settings) (orig : CsItem) (s : State) :
    ∃ deadCode localsList, thenLike c orig s =
      { s.resolve c orig.addr with
        csDepth1 := (s.resolve c orig.addr).csDepth1 - 1
        deadCode := deadCode
        localsList := localsList } := by
  by_cases hlocals : c.glocals = true
  · by_cases hdead : orig.type ≠ .deadOrig ∧ (s.resolve c orig.addr).afterCsPop.deadCode = true
    · exact ⟨_, _, (if_pos hlocals).trans (if_pos hdead)⟩
    · exact ⟨_, _, (if_pos hlocals).trans (if_neg hdead)⟩
  · exact ⟨_, _, if_neg hlocals⟩

/-! ## Conditionals and loops -/

namespace Marked

variable {s t : State} {items : List CsItem} {c : Settings}

/-- A branch waits. -/
theorem mark (h : s.Marked false items) :
    s.mark.Marked false
      (⟨0, s.localsList, s.here, if s.deadCode then .deadOrig else .liveOrig⟩ :: items) := by
  have hcomma : s.mark.Marked false items :=
    (h.withControl s.litstack s.csPushOrig.items (s.csDepth1 + 1) s.deadCode s.localsList).comma 0
  refine hcomma.push _ (fun _ => ⟨Nat.lt_add_of_pos_right (by decide), h.not_here⟩) fun htype => ?_
  cases hdead : s.deadCode <;> simp [hdead, isOrig] at htype

theorem markItems (h : s.Marked false s.items) : s.mark.Marked false s.mark.items :=
  h.mark

/-- A branch is resolved. -/
theorem resolve {orig : CsItem} (h : s.Marked true (orig :: items)) (htype : isOrig orig.type = true) :
    (s.resolve c orig.addr).Marked true items := by
  have hlits := h.litsComma (c := c)
  have horig := hlits.origs orig List.mem_cons_self htype
  have htarget := hlits.pop.plusTarget (.inr ⟨rfl, rfl⟩)
  refine htarget.store ?_ _
  change ¬ ∃ xt, (orig.addr, xt) ∈ ((s.litsComma c).plusTarget (s.litsComma c).here).compiled
  rw [plusTarget_compiled]
  exact horig.2

theorem resolveBack {a : Nat} (h : s.Marked false items) (ha : s.IsInstruction a) :
    (s.resolveBack a).Marked false items :=
  (h.plusTarget (.inl ha)).comma _

/-- {lit}`ahead` leaves every item marked. -/
theorem ahead (h : s.Marked true s.items) : (s.ahead c).Marked true (s.ahead c).items := by
  have hxt : (s.peepholeCompile c c.branch).Marked false (s.peepholeCompile c c.branch).items := by
    rw [peepholeCompile_items]
    exact h.peepholeCompile c.branch
  exact (hxt.markItems.withControl _ _ _ true _).weaken

/-- {lit}`if` and its relatives leave every item marked. -/
theorem ifLike (h : s.Marked true s.items) (xt : Cell) :
    (s.ifLike c xt).Marked true (s.ifLike c xt).items := by
  have hxt : (s.peepholeCompile c xt).Marked false (s.peepholeCompile c xt).items := by
    rw [peepholeCompile_items]
    exact h.peepholeCompile xt
  exact hxt.markItems.weaken

/-- {lit}`cs-pick` leaves every item marked. -/
theorem csPick {u : Nat} (h : s.Marked true s.items) (hpick : s.csPick u = some t) :
    t.Marked true t.items := by
  rw [State.csPick] at hpick
  obtain ⟨item, hitem, rfl⟩ := Option.map_eq_some_iff.mp hpick
  refine (h.withItems fun item' hitem' => ?_).withControl _ _ _ _ _
  rcases List.mem_cons.mp hitem' with rfl | hitem'
  · exact List.mem_of_getElem? hitem
  · exact hitem'

/-- {lit}`cs-roll` leaves every item marked. -/
theorem csRoll {u : Nat} (h : s.Marked true s.items) (hroll : s.csRoll u = some t) :
    t.Marked true t.items := by
  rw [State.csRoll] at hroll
  obtain ⟨item, hitem, rfl⟩ := Option.map_eq_some_iff.mp hroll
  refine (h.withItems fun item' hitem' => ?_).withControl _ _ _ _ _
  rcases List.mem_cons.mp hitem' with rfl | hitem'
  · exact List.mem_of_getElem? hitem
  · exact List.mem_of_mem_eraseIdx hitem'

/-- {lit}`cs-drop` leaves every item marked. -/
theorem csDrop (h : s.Marked true s.items) (hdrop : s.csDrop = some t) : t.Marked true t.items := by
  rw [State.csDrop] at hdrop
  split at hdrop
  · cases hdrop
  rename_i item items hitems
  obtain rfl := Option.some.inj hdrop
  rw [hitems] at h
  exact h.pop.withControl _ _ _ _ _

/-- {lit}`then` resolves the item on top. -/
theorem then' (h : ∀ orig items, s.items = orig :: items → isOrig orig.type = true →
      s.Marked true (orig :: items)) (hthen : s.then' c = some t) :
    t.Marked true t.items ∧ t.leaveStack = s.leaveStack := by
  rw [State.then'] at hthen
  split at hthen
  · cases hthen
  rename_i orig items hitems
  split at hthen
  case isFalse => cases hthen
  case isTrue htype =>
    obtain rfl := Option.some.inj hthen
    obtain ⟨deadCode, localsList, heq⟩ := thenLike_eq c orig { s with items := items }
    have hs : ({ s with items := items } : State).Marked true (orig :: items) :=
      (h orig items hitems htype).withControl _ _ _ _ _
    have hresolve := (hs.resolve (c := c) htype).withControl
      (({ s with items := items } : State).resolve c orig.addr).litstack items
      ((({ s with items := items } : State).resolve c orig.addr).csDepth1 - 1) deadCode localsList
    have hitems' := resolve_items c orig.addr { s with items := items }
    rw [heq]
    refine ⟨?_, resolve_leaveStack c orig.addr { s with items := items }⟩
    change State.Marked _ true (({ s with items := items } : State).resolve c orig.addr).items
    rw [hitems']
    exact hresolve.withControl _ _ _ _ _

theorem thenItems (h : s.Marked true s.items) (hthen : s.then' c = some t) : t.Marked true t.items :=
  (then' (fun _ _ hitems _ => hitems ▸ h) hthen).1

/-- {lit}`begin` leaves a marked destination. -/
theorem begin' (h : s.Marked true s.items) :
    (s.begin' c).Marked true (s.begin' c).items ∧
      ∃ dest, (s.begin' c).items = dest :: s.items ∧ dest.type = .dest := by
  have hbegin : (s.beginLike c).Marked true s.items ∧ (s.beginLike c).items = s.items := by
    rw [State.beginLike]
    split
    · exact ⟨h.litsComma.withControl _ _ _ _ _, litsComma_items c s⟩
    · exact ⟨h.litsComma, litsComma_items c s⟩
  obtain ⟨hmarked, hitems⟩ := hbegin
  rw [← hitems] at hmarked
  have hpush : ((s.beginLike c).csPushPart .dest).Marked true ((s.beginLike c).csPushPart .dest).items :=
    (hmarked.push ⟨0, (s.beginLike c).localsList, (s.beginLike c).here, .dest⟩
      (fun htype => absurd htype (by simp [isOrig])) fun _ => .inr ⟨rfl, rfl⟩).withControl _ _ _ _ _
  have hlits : (s.begin' c).items = ((s.beginLike c).csPushPart .dest).items :=
    litsComma_items c _
  refine ⟨?_, ⟨_, hlits.trans (congrArg (_ :: ·) hitems), rfl⟩⟩
  rw [hlits]
  exact hpush.litsComma

/-- A branch back to the item on top -/
theorem untilLike {dest : CsItem} (h : s.Marked true (dest :: items))
    (htype : isOrig dest.type = false) (xt : Cell) :
    (s.untilLike c xt dest).Marked true items := by
  have hxt := h.peepholeCompile (c := c) xt
  have hdest := (hxt.others dest List.mem_cons_self htype).resolve_right (by simp)
  exact ((hxt.pop.resolveBack hdest).withControl _ _ _ _ _).weaken

end Marked

@[simp]
theorem untilLike_items (c : Settings) (xt : Cell) (dest : CsItem) (s : State) :
    (s.untilLike c xt dest).items = s.items :=
  (plusTarget_items _ _).trans (peepholeCompile_items c xt s)

namespace Marked

variable {s t : State} {items : List CsItem} {c : Settings}

/-- {lit}`again` leaves every item marked. -/
theorem again (h : s.Marked true s.items) (hagain : s.again c = some t) : t.Marked true t.items := by
  rw [State.again] at hagain
  split at hagain
  · cases hagain
  rename_i dest items hitems
  split at hagain
  case isFalse => cases hagain
  case isTrue htype =>
    obtain rfl := Option.some.inj hagain
    rw [hitems] at h
    have hlike : (({ s with items := items } : State).againLike c).Marked true (dest :: items) ∧
        (({ s with items := items } : State).againLike c).items = items := by
      rw [State.againLike]
      split
      · exact ⟨h.withControl _ _ _ true _, rfl⟩
      · exact ⟨h.withControl _ _ _ _ _, rfl⟩
    rw [untilLike_items, hlike.2]
    exact hlike.1.untilLike (by simp [htype, isOrig]) c.branch

/-- {lit}`until` leaves every item marked. -/
theorem until' (h : s.Marked true s.items) (huntil : s.until' c = some t) : t.Marked true t.items := by
  rw [State.until'] at huntil
  split at huntil
  · cases huntil
  rename_i dest items hitems
  split at huntil
  case isFalse => cases huntil
  case isTrue htype =>
    obtain rfl := Option.some.inj huntil
    rw [hitems] at h
    have hs : ({ s with items := items } : State).Marked true (dest :: items) :=
      h.withControl _ _ _ _ _
    rw [untilLike_items]
    exact hs.untilLike (by simp [htype, isOrig]) c.qBranch

/-- {lit}`exit` leaves every item marked. -/
theorem exit (h : s.Marked true s.items) : (s.exit c).Marked true (s.exit c).items := by
  have hitems : (s.exit c).items = s.items :=
    (litsComma_items c _).trans (peepholeCompile_items c c.semicolonS s)
  rw [hitems]
  exact (h.peepholeCompile c.semicolonS).weaken.litsComma.withControl _ _ _ true _

/-! ## Counted loops -/

/-- A branch waits on the leave stack. -/
theorem toLeave (h : s.Marked true s.items) (htop : ∀ orig ∈ s.items.head?, s.Operand orig.addr)
    (hleave : s.toLeave = some t) : t.Marked true t.items := by
  rw [State.toLeave] at hleave
  split at hleave
  · cases hleave
  rename_i orig items hitems
  obtain rfl := Option.some.inj hleave
  rw [hitems] at h htop
  exact (h.pop.withLeaves (orig :: s.leaveStack)
    (List.forall_mem_cons.mpr ⟨htop orig rfl, h.leaves⟩)).withControl _ items (s.csDepth1 - 1) _ _

theorem mark_operand (h : s.Marked false items) : ∀ orig ∈ s.mark.items.head?, s.mark.Operand orig.addr := by
  intro orig horig
  obtain rfl := Option.some.inj horig
  exact ⟨Nat.lt_add_of_pos_right (by decide), h.not_here⟩

theorem markLeave (h : s.Marked false s.items) (hleave : s.mark.toLeave = some t) :
    t.Marked true t.items :=
  h.markItems.weaken.toLeave h.mark_operand hleave

/-- The start of a counted loop leaves every item marked. -/
theorem beginDo (h : s.Marked true s.items) : (s.beginDo c).Marked true (s.beginDo c).items := by
  obtain ⟨hbegin, dest, hitems, htype⟩ := h.begin' (c := c)
  rw [State.beginDo, hitems]
  rw [hitems] at hbegin
  refine (hbegin.pop.push { dest with type := .doDest } (fun hd => ?_) fun _ => ?_).withControl
    _ _ _ _ _
  · simp [isOrig] at hd
  · exact hbegin.others dest List.mem_cons_self (by simp [htype, isOrig])

theorem qDoLike (h : s.Marked false s.items) (hdo : s.qDoLike c = some t) : t.Marked true t.items := by
  rw [State.qDoLike] at hdo
  obtain ⟨s', hleave, rfl⟩ := Option.map_eq_some_iff.mp hdo
  exact (h.markLeave hleave).beginDo

/-- Each way to enter a loop leaves every item marked. -/
theorem enter (h : s.Marked true s.items) (entry : Entry) (henter : s.enter c entry = some t) :
    t.Marked true t.items := by
  have hxt : (s.peepholeCompile c (c.enter entry)).Marked false
      (s.peepholeCompile c (c.enter entry)).items := by
    rw [peepholeCompile_items]
    exact h.peepholeCompile _
  cases entry with
  | «do» | «for» =>
    obtain rfl := Option.some.inj henter
    exact hxt.weaken.beginDo
  | qDo | plusDo | uPlusDo | minusDo | uMinusDo => exact hxt.qDoLike henter

/-- Resolving the exits of a loop leaves every item marked. -/
theorem doneLoop (addr : Nat) {leaveStack : List CsItem} (h : s.Marked true s.items)
    (hstack : ∀ orig ∈ leaveStack, s.Operand orig.addr)
    (hdone : State.doneLoop c addr leaveStack s = some t) : t.Marked true t.items := by
  induction leaveStack generalizing s with
  | nil =>
    obtain rfl := Option.some.inj hdone
    exact h.withLeaves [] (by simp)
  | cons orig leaveStack ih =>
    obtain ⟨horig, hrest⟩ := List.forall_mem_cons.mp hstack
    have hleaves : ({ s with leaveStack := leaveStack } : State).Marked true s.items :=
      h.withLeaves leaveStack hrest
    rw [State.doneLoop] at hdone
    split at hdone
    · obtain ⟨s', hthen, hdone⟩ := Option.bind_eq_some_iff.mp hdone
      have hs' := then' (c := c) (t := s') (fun _ _ hitems htype => ?_) hthen
      · refine ih hs'.1 ?_ hdone
        have hback := hs'.1.leaves
        rw [hs'.2] at hback
        exact hback
      · obtain ⟨rfl, rfl⟩ := List.cons.inj hitems
        refine (hleaves.push orig (fun _ => horig) fun hother => ?_).withControl _ _ _ _ _
        exact absurd htype (by simp [hother])
    · obtain rfl := Option.some.inj hdone
      exact (h.withLeaves _ (List.forall_mem_cons.mpr ⟨horig, hrest⟩)).withControl _ _ _ _ _

/-- {lit}`done` consumes the item of its loop. -/
theorem done {doSys : CsItem} (h : s.Marked true items) (hitems : s.items = doSys :: items)
    (hdone : s.done c = some t) : t.Marked true t.items := by
  rw [State.done, hitems] at hdone
  obtain ⟨s', hloop, rfl⟩ := Option.map_eq_some_iff.mp hdone
  have hs : ({ s with items := items } : State).Marked true items := h.withControl _ _ _ _ _
  exact (hs.doneLoop doSys.addr h.leaves hloop).withControl _ _ _ _ _

/-- {lit}`done` leaves every item marked. -/
theorem doneItems (h : s.Marked true s.items) (hdone : s.done c = some t) : t.Marked true t.items := by
  cases hitems : s.items with
  | nil =>
    rw [State.done, hitems] at hdone
    cases hdone
  | cons doSys items =>
    rw [hitems] at h
    exact h.pop.done hitems hdone

/-- {lit}`leave` leaves every item marked. -/
theorem leave (h : s.Marked true s.items) (hleave : s.leave c = some t) : t.Marked true t.items := by
  have hxt : (s.peepholeCompile c c.branch).Marked false (s.peepholeCompile c c.branch).items := by
    rw [peepholeCompile_items]
    exact h.peepholeCompile c.branch
  have hahead : (s.ahead c).Marked true (s.ahead c).items := h.ahead
  have hhere : (s.ahead c).here - 8 = (s.peepholeCompile c c.branch).here := Nat.add_sub_cancel ..
  have hoperand : (s.ahead c).Operand ((s.ahead c).here - 8) := by
    rw [hhere]
    exact ⟨Nat.lt_add_of_pos_right (by decide), hxt.not_here⟩
  exact (hahead.store hoperand.2 c.unresolvedLeave).toLeave hxt.mark_operand hleave

/-- {lit}`?leave` leaves every item marked. -/
theorem qLeave (h : s.Marked true s.items) (hleave : s.qLeave c = some t) : t.Marked true t.items := by
  have hzero : (s.compileComma c c.zeroEquals []).Marked true
      (s.compileComma c c.zeroEquals []).items := by
    rw [compileComma_items]
    exact h.compileComma c.zeroEquals []
  have hxt := hzero.peepholeCompile (c := c) c.qBranch
  rw [← peepholeCompile_items c c.qBranch] at hxt
  exact hxt.markLeave hleave

/-- The end of a counted loop; the item that {lit}`done` drops is no place. -/
theorem loopLike (h : s.Marked true s.items) (xt : Cell) (hloop : s.loopLike c xt = some t) :
    t.Marked true t.items := by
  cases hitems : s.items with
  | nil => simp [State.loopLike, State.csPick, hitems] at hloop
  | cons doSys items =>
    rw [hitems] at h
    simp only [State.loopLike, State.csPick, State.cellMinus, State.csRoll, State.untilDo, hitems,
      Option.bind_eq_bind, List.getElem?_cons_zero, List.getElem?_cons_succ, Option.map_some,
      Option.bind_some, List.eraseIdx_cons_succ, List.eraseIdx_cons_zero] at hloop
    split at hloop
    case isFalse => cases hloop
    case isTrue htype =>
      rw [Option.bind_some] at hloop
      obtain ⟨s', hdone, hunloop⟩ := Option.bind_eq_some_iff.mp hloop
      obtain rfl := Option.some.inj hunloop
      have htop := (h.withControl s.litstack ({ doSys with addr := doSys.addr - 8 } :: items)
        (s.csDepth1 + 1) s.deadCode s.localsList).untilLike (c := c) (by simp [htype, isOrig]) xt
      have hend := htop.done (untilLike_items c xt doSys _) hdone
      rw [peepholeCompile_items]
      exact (hend.peepholeCompile c.unloop).weaken

end Marked

end State

/-! ## Definitions -/

/-- Every word keeps the marks. -/
theorem compile_marked (c : Settings) (t : Token) {s s' : State} (h : s.Marked true s.items)
    (hstep : t.compile c s = some s') : s'.Marked true s'.items := by
  cases t with
  | literal x =>
    obtain rfl := Option.some.inj hstep
    exact h.withControl _ _ _ _ _
  | word xt operands =>
    obtain rfl := Option.some.inj hstep
    rw [State.compileComma_items]
    exact h.compileComma xt operands
  | ahead =>
    obtain rfl := Option.some.inj hstep
    exact h.ahead
  | «if» | qDupIf | qDupZeroIf =>
    obtain rfl := Option.some.inj hstep
    exact h.ifLike _
  | «then» => exact h.thenItems hstep
  | «else» =>
    obtain ⟨s₁, hroll, hthen⟩ := Option.bind_eq_some_iff.mp hstep
    exact (h.ahead.csRoll hroll).thenItems hthen
  | «begin» =>
    obtain rfl := Option.some.inj hstep
    exact h.begin'.1
  | again => exact h.again hstep
  | «until» => exact h.until' hstep
  | «while» => exact (h.ifLike c.qBranch).csRoll hstep
  | «repeat» =>
    obtain ⟨s₁, hagain, hthen⟩ := Option.bind_eq_some_iff.mp hstep
    exact (h.again hagain).thenItems hthen
  | «exit» =>
    obtain rfl := Option.some.inj hstep
    exact h.exit
  | enter entry => exact h.enter entry hstep
  | loop ending => exact h.loopLike (c.exit ending) hstep
  | leave => exact h.leave hstep
  | qLeave => exact h.qLeave hstep
  | done => exact h.doneItems hstep
  | csPick u => exact h.csPick hstep
  | csRoll u => exact h.csRoll hstep
  | csDrop => exact h.csDrop hstep

/-- A whole definition leaves every item marked. -/
theorem compileAll_marked (c : Settings) (ts : List Token) {s s' : State} (h : s.Marked true s.items)
    (hrun : compileAll c ts s = some s') : s'.Marked true s'.items := by
  induction ts generalizing s with
  | nil =>
    obtain rfl := Option.some.inj hrun
    exact h
  | cons t ts ih =>
    obtain ⟨s₁, hstep, hrest⟩ := Option.bind_eq_some_iff.mp hrun
    exact ih (compile_marked c t h hstep) hrest

/-- The state behind {lit}`:-hook1`: nothing is marked, and neither literals nor branches wait. -/
structure State.Fresh (s : State) : Prop where
  codestart : s.codestart = s.here
  primbits : s.primbits = []
  targets : s.targets = []
  litstack : s.litstack = []
  items : s.items = []
  leaveStack : s.leaveStack = []
  compiled : s.compiled = []
  dests : s.dests = []

/-- Nothing is marked before a definition starts. -/
theorem State.Fresh.marked {s : State} (h : s.Fresh) : s.Marked true s.items where
  here := ⟨0, h.codestart.symm⟩
  compiled := by simp [h.compiled]
  primbits i := by simp [h.primbits, bitAt_nil, State.IsInstruction, h.compiled]
  targets i := by simp [h.targets, bitAt_nil, h.dests]
  dests := by simp [h.dests]
  origs := by simp [h.items]
  others := by simp [h.items]
  leaves := by simp [h.leaveStack]

/-- At the end of a definition the destinations are instructions. -/
theorem semicolon_marked (c : Settings) {s : State} (h : s.Marked true s.items) :
    (s.exit c).Marked false [] := by
  have hlits : (s.peepholeCompile c c.semicolonS).litstack = [] := by
    have hfold : ∀ (xs : List Cell) (s : State),
        (xs.foldl (fun t x => (t.instruction c.lit).comma x) s).litstack = s.litstack := by
      intro xs
      induction xs with
      | nil => exact fun s => rfl
      | cons x xs ih => exact fun s => ih ((s.instruction c.lit).comma x)
    exact hfold s.litstack { s with litstack := [] }
  have hend : s.exit c = { s.peepholeCompile c c.semicolonS with litstack := [], deadCode := true } := by
    rw [State.exit, State.basicBlockEnd, State.litsComma, hlits]
    rfl
  rw [hend]
  exact ((h.peepholeCompile c.semicolonS).withItems (by simp)).withControl [] _ _ true _

end BasicBlocks
end Gforth
