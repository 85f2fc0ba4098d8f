import Gforth.Bidi.Explicit
import Gforth.Lib.Slots

/-!
# The entries of the level stack

The slots of {lit}`stack` that are not 0 are the entries of a stack.  The bottom entry has level 0,
1 or 2; without entries {lit}`stack#` is 0.

Main results:

- Theorem {lit}`Stacked.push`: a new entry.
- Theorem {lit}`Stacked.pop`: the end of an embedding.
- Theorem {lit}`Stacked.closeLoop`: the end of an isolate.
-/

namespace Gforth
namespace Bidi

open Lib

/-! ## Levels -/

/-- The next odd number -/
theorem nextOdd_eq (n : Nat) : nextOdd n = (n + 1) / 2 * 2 + 1 := by
  have hdiv : nextOdd n / 2 = (n + 1) / 2 := by
    rw [nextOdd, Nat.or_div_two, Nat.or_zero]
  have hmod : nextOdd n % 2 = 1 := by
    rw [nextOdd, Nat.or_mod_two_eq_one]
    exact .inr rfl
  omega

/-- A rule that gives one of the next two levels -/
def IsNext (next : Nat → Nat) : Prop :=
  ∀ n, n < next n ∧ next n ≤ n + 2

theorem isNext_nextOdd : IsNext nextOdd := fun n => by
  rw [nextOdd_eq]
  omega

theorem isNext_nextEven : IsNext nextEven := fun n => by
  rw [nextEven]
  omega

/-! ## Entries -/

/-- The array is that of a stack with these entries, which have a level and a byte. -/
structure Stacked (b : State) (es : List (Nat × Nat)) : Prop where
  stack : b.stack = slots 0 es
  stackNum : b.stackNum = topLevel es
  descends : Descends es
  nonzero : ∀ e ∈ es, e.2 ≠ 0
  le_maxDepth : topLevel es ≤ maxDepth
  bottom : ∀ e ∈ es.getLast?, e.1 ≤ 2

namespace Stacked

variable {b b' : State} {es : List (Nat × Nat)} {level entry : Nat}

theorem congr (h : Stacked b es) (hstack : b'.stack = b.stack)
    (hnum : b'.stackNum = b.stackNum) : Stacked b' es :=
  { h with stack := hstack.trans h.stack, stackNum := hnum.trans h.stackNum }

/-- The entry of a paragraph -/
theorem start (level : Nat) (hlevel : level ≤ 1) (hstack : b.stack = slots 0 [(level, neutral)])
    (hnum : b.stackNum = level) : Stacked b [(level, neutral)] where
  stack := hstack
  stackNum := hnum
  descends := List.isChain_singleton _
  nonzero e he := by
    rw [List.mem_singleton.1 he]
    exact Nat.one_ne_zero
  le_maxDepth := hlevel.trans (by decide)
  bottom e he := by
    cases he
    exact hlevel.trans (by decide)

/-- Without the top entry -/
theorem tail {e : Nat × Nat} (h : Stacked b (e :: es)) (hstack : b'.stack = slots 0 es)
    (hnum : b'.stackNum = topLevel es) : Stacked b' es where
  stack := hstack
  stackNum := hnum
  descends := h.descends.tail
  nonzero e' he' := h.nonzero e' (List.mem_cons_of_mem e he')
  le_maxDepth := by
    cases es with
    | nil => exact Nat.zero_le _
    | cons e₁ es => exact (h.descends.lt_of_mem List.mem_cons_self).le.trans h.le_maxDepth
  bottom e' he' := by
    refine h.bottom e' ?_
    cases es with
    | nil => cases he'
    | cons e₁ es => rwa [List.getLast?_cons_cons]

theorem stackTop (h : Stacked b ((level, entry) :: es)) : b.stackTop = entry := by
  rw [State.stackTop, h.stack, h.stackNum]
  exact slots_top

/-- A new entry -/
theorem push (h : Stacked b es) {next : Nat → Nat} (hnext : IsNext next)
    (hle : next b.stackNum ≤ maxDepth) (hentry : entry ≠ 0) :
    Stacked (b.push (next b.stackNum) entry) ((next b.stackNum, entry) :: es) where
  stack := by
    rw [State.push, h.stack]
    rfl
  stackNum := rfl
  descends := by
    obtain ⟨hlt, hle'⟩ := hnext b.stackNum
    rw [h.stackNum] at hlt hle' ⊢
    exact h.descends.push (fun _ => hlt) hle'
  nonzero e he := by
    rcases List.mem_cons.1 he with rfl | hmem
    · exact hentry
    · exact h.nonzero e hmem
  le_maxDepth := hle
  bottom e he := by
    cases es with
    | nil =>
      cases he
      have := (hnext b.stackNum).2
      rw [h.stackNum] at this ⊢
      exact this
    | cons e₁ es =>
      rw [List.getLast?_cons_cons] at he
      exact h.bottom e he

/-- Below the top entry there is a slot that is not empty, one or two levels lower. -/
theorem slot_below (h : Stacked b ((level + 1, entry) :: es)) :
    (slots 0 es level = 0 → topLevel es = level - 1) ∧
      (slots 0 es level ≠ 0 → topLevel es = level) := by
  cases es with
  | nil =>
    refine ⟨fun _ => ?_, fun hne => absurd rfl hne⟩
    have hbottom : level + 1 ≤ 2 := h.bottom _ rfl
    show 0 = level - 1
    omega
  | cons e es =>
    obtain ⟨⟨hlt, hle⟩, htail⟩ := List.isChain_cons_cons.1 h.descends
    have htop : topLevel (e :: es) = e.1 := rfl
    rw [htop]
    dsimp only at hlt hle
    constructor
    · intro hzero
      have hne : e.1 ≠ level := fun heq => by
        rw [← heq, slots_of_mem htail List.mem_cons_self] at hzero
        exact h.nonzero e (List.mem_cons_of_mem _ List.mem_cons_self) hzero
      omega
    · intro hslot
      by_contra hne
      exact hslot (slots_above htail (by rw [htop]; omega))

/-- Clearing the top slot -/
theorem update_top (h : Stacked b ((level, entry) :: es)) :
    Function.update b.stack b.stackNum 0 = slots 0 es := by
  rw [h.stackNum, h.stack]
  exact slots_pop h.descends

/-- The end of an embedding; an entry with level 0 is not removed. -/
theorem pop (h : Stacked b ((level + 1, entry) :: es)) : Stacked b.pop es := by
  refine h.tail h.update_top ?_
  have hnum : b.stackNum - 1 = level := by
    rw [h.stackNum]
    rfl
  have hclear : Function.update b.stack b.stackNum 0 = slots 0 es := h.update_top
  obtain ⟨hempty, hused⟩ := h.slot_below
  show (if 0 < b.stackNum - 1 ∧ Function.update b.stack b.stackNum 0 (b.stackNum - 1) = 0
    then b.stackNum - 1 - 1 else b.stackNum - 1) = topLevel es
  rw [hclear, hnum]
  split
  · rw [hempty (by omega)]
  · by_cases hzero : slots 0 es level = 0
    · rw [hempty hzero]
      omega
    · rw [hused hzero]

end Stacked

/-! ## The end of an isolate -/

/-- What the end of an isolate leaves, if it does not go below the level 0 -/
def closeEntries : List (Nat × Nat) → Option (List (Nat × Nat))
  | [] => some []
  | (level, entry) :: es =>
      if level = 0 then some ((level, entry) :: es)
      else if level = 1 ∧ es = [] then none
      else if entry &&& dis ≠ 0 then some es
      else closeEntries es

/-- One pass of the loop -/
theorem closeLoop_succ (n : Nat) (stack : Nat → Nat) :
    State.closeLoop (n + 1) stack =
      let cleared := Function.update stack (n + 1) 0
      if cleared n = 0 ∧ n = 0 then none
      else
        let n' := if cleared n = 0 then n - 1 else n
        if stack (n + 1) &&& dis ≠ 0 then some (n', cleared)
        else State.closeLoop n' cleared := by
  rw [State.closeLoop.eq_def]
  dsimp only
  by_cases hzero : Function.update stack (n + 1) 0 n = 0
  · rw [if_pos hzero]
    cases n with
    | zero => rw [if_pos ⟨hzero, rfl⟩]
    | succ n => rw [if_neg fun h => Nat.succ_ne_zero n h.2, if_pos hzero, Nat.add_sub_cancel]
  · rw [if_neg hzero, if_neg (not_and.2 fun h => absurd h hzero), if_neg hzero]

variable {es : List (Nat × Nat)}

/-- The closing loop goes down to the entry of the last isolate. -/
theorem Stacked.closeLoop {b : State} (h : Stacked b es) :
    State.closeLoop b.stackNum b.stack =
      (closeEntries es).map fun es' => (topLevel es', slots 0 es') := by
  induction es generalizing b with
  | nil =>
    rw [h.stackNum, h.stack]
    rfl
  | cons e es ih =>
    obtain ⟨level, entry⟩ := e
    rw [closeEntries]
    cases level with
    | zero =>
      rw [if_pos rfl, h.stackNum, h.stack]
      rfl
    | succ level =>
      have hclear := h.update_top
      have htop := h.stackTop
      have hnum : b.stackNum = level + 1 := h.stackNum
      rw [hnum] at hclear
      rw [State.stackTop, hnum] at htop
      obtain ⟨hempty, hused⟩ := h.slot_below
      have hnext : (if slots 0 es level = 0 then level - 1 else level) = topLevel es := by
        split
        · exact (hempty ‹_›).symm
        · exact (hused ‹_›).symm
      have hlow : (slots 0 es level = 0 ∧ level = 0) ↔ (level + 1 = 1 ∧ es = []) := by
        constructor
        · rintro ⟨hzero, rfl⟩
          refine ⟨rfl, List.eq_nil_iff_forall_not_mem.2 fun e he => ?_⟩
          -- an entry below the level 1 has level 0
          have hlt : e.1 < 0 + 1 := h.descends.lt_of_mem he
          have hslot : slots 0 es e.1 = e.2 := slots_of_mem h.descends.tail he
          rw [Nat.lt_one_iff.1 hlt, hzero] at hslot
          exact h.nonzero e (List.mem_cons_of_mem _ he) hslot.symm
        · rintro ⟨hlevel, rfl⟩
          exact ⟨rfl, Nat.succ.inj hlevel⟩
      have htail : Stacked { b with stack := slots 0 es, stackNum := topLevel es } es := h.tail rfl rfl
      have hrest := ih htail
      rw [if_neg (Nat.succ_ne_zero level), hnum, closeLoop_succ]
      dsimp only at hrest ⊢
      rw [hclear, htop, hnext]
      by_cases hbelow : level + 1 = 1 ∧ es = []
      · rw [if_pos (hlow.2 hbelow), if_pos hbelow]
        rfl
      · rw [if_neg (hlow.not.2 hbelow), if_neg hbelow]
        by_cases hdis : entry &&& dis ≠ 0
        · rw [if_pos hdis, if_pos hdis]
          rfl
        · rw [if_neg hdis, if_neg hdis, hrest]

/-- The end of an isolate stays above the level 0 if a slot 0 is used, the slot 1 is not, or there is
an isolate in another slot. -/
def State.Closes (b : State) : Prop :=
  b.stack 0 ≠ 0 ∨ b.stack 1 = 0 ∨ ∃ i, 2 ≤ i ∧ b.stack i &&& dis ≠ 0

/-- The closing loop stops unless it gets below the stack. -/
theorem closeEntries_ne_none_iff (h : Descends es) (hne : ∀ e ∈ es, e.2 ≠ 0) :
    closeEntries es ≠ none ↔
      slots 0 es 0 ≠ 0 ∨ slots 0 es 1 = 0 ∨ ∃ i, 2 ≤ i ∧ slots 0 es i &&& dis ≠ 0 := by
  induction es with
  | nil => exact iff_of_true (Option.some_ne_none _) (.inr (.inl rfl))
  | cons e es ih =>
    obtain ⟨level, entry⟩ := e
    have hentry := hne _ List.mem_cons_self
    have ih := ih h.tail fun e he => hne e (List.mem_cons_of_mem _ he)
    have hother : ∀ i, i ≠ level → slots 0 ((level, entry) :: es) i = slots 0 es i :=
      fun i hi => Function.update_of_ne hi _ _
    rw [closeEntries]
    rcases level with _ | _ | level
    · rw [if_pos rfl]
      exact iff_of_true (Option.some_ne_none _) (.inl (by rwa [slots_top]))
    · rw [if_neg (Nat.succ_ne_zero 0), slots_top, hother 0 (by decide)]
      cases es with
      | nil =>
        rw [if_pos ⟨rfl, rfl⟩]
        refine iff_of_false (not_not.2 rfl) ?_
        rintro (hzero | hone | ⟨i, hi, hdis⟩)
        · exact hzero rfl
        · exact hentry hone
        · rw [hother i (by omega)] at hdis
          exact hdis (Nat.zero_and dis)
      | cons e es =>
        -- the entry below has level 0
        have hlevel : e.1 = 0 := Nat.lt_one_iff.1 (h.lt_of_mem List.mem_cons_self)
        have hslot : slots 0 (e :: es) 0 ≠ 0 := by
          have hmem : slots 0 (e :: es) e.1 = e.2 := slots_of_mem h.tail List.mem_cons_self
          rw [hlevel] at hmem
          rw [hmem]
          exact hne e (List.mem_cons_of_mem _ List.mem_cons_self)
        rw [if_neg (not_and.2 fun _ => List.cons_ne_nil e es)]
        refine iff_of_true ?_ (.inl hslot)
        split
        · exact Option.some_ne_none _
        · exact ih.2 (.inl hslot)
    · rw [if_neg (Nat.succ_ne_zero _), if_neg (not_and.2 fun h => absurd h (by omega)),
        hother 0 (by omega), hother 1 (by omega)]
      by_cases hdis : entry &&& dis ≠ 0
      · rw [if_pos hdis]
        refine iff_of_true (Option.some_ne_none _) (.inr (.inr ⟨level + 2, by omega, ?_⟩))
        rwa [slots_top]
      · rw [if_neg hdis, ih]
        refine or_congr_right (or_congr_right (exists_congr fun i => and_congr_right fun _ => ?_))
        by_cases hi : i = level + 2
        · rw [hi, slots_top, slots_above h.tail]
          · exact iff_of_false (not_not.2 (Nat.zero_and dis)) hdis
          · cases es with
            | nil => exact Nat.succ_pos _
            | cons e es => exact h.lt_of_mem List.mem_cons_self
        · rw [hother i hi]

theorem Stacked.closeLoop_ne_none_iff {b : State} (h : Stacked b es) :
    State.closeLoop b.stackNum b.stack ≠ none ↔ b.Closes := by
  rw [h.closeLoop, ne_eq, Option.map_eq_none_iff, State.Closes, h.stack]
  exact closeEntries_ne_none_iff h.descends h.nonzero

/-- What is left are entries again. -/
theorem Stacked.close {b b' : State} {es es' : List (Nat × Nat)} (h : Stacked b es)
    (hclose : closeEntries es = some es') (hstack : b'.stack = slots 0 es')
    (hnum : b'.stackNum = topLevel es') : Stacked b' es' := by
  induction es generalizing b with
  | nil =>
    cases hclose
    exact h.congr (hstack.trans h.stack.symm) (hnum.trans h.stackNum.symm)
  | cons e es ih =>
    obtain ⟨level, entry⟩ := e
    rw [closeEntries] at hclose
    split at hclose
    · cases hclose
      exact h.congr (hstack.trans h.stack.symm) (hnum.trans h.stackNum.symm)
    · split at hclose
      · cases hclose
      · split at hclose
        · cases hclose
          exact h.tail hstack hnum
        · have htail : Stacked { b with stack := slots 0 es, stackNum := topLevel es } es :=
            h.tail rfl rfl
          exact ih htail hclose

end Bidi
end Gforth
