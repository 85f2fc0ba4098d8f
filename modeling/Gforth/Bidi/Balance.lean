import Gforth.Bidi.Entries
import Gforth.Bidi.Terminators

/-!
# Balanced rules

The rules keep the level stack and the levels in their bounds and leave the data stack as it was, as
long as no left-to-right embedding overflows, the end of an isolate finds a stop, and no region goes on
behind a European terminator.

Main results:

- Theorem {lit}`Sound.xMatch`: one character.
- Theorem {lit}`balanced_iff`: the conditions are exact.
-/

namespace Gforth
namespace Bidi

open Lib

/-! ## What the rules change -/

namespace State

theorem changeCurrentChar_eq (b : State) :
    ∃ buffer, b.changeCurrentChar = { b with buffer := buffer } := by
  rw [changeCurrentChar]
  split
  · exact ⟨_, rfl⟩
  · split
    · exact ⟨_, rfl⟩
    · exact ⟨_, rfl⟩

theorem x6_eq (b : State) :
    ∃ buffer, b.x6 = { b.toLevel b.stackNum with buffer := buffer } :=
  (b.toLevel b.stackNum).changeCurrentChar_eq

end State

/-- The class and the level of one character change. -/
structure Frame (k : Nat) (b b' : State) : Prop where
  buffer : ∀ j, j ≠ k → b'.buffer[j]? = b.buffer[j]?
  levels : ∀ j, j ≠ k → b'.levels[j]? = b.levels[j]?
  length_buffer : b'.buffer.length = b.buffer.length
  length_levels : b'.levels.length = b.levels.length

namespace Frame

variable {k : Nat} {b b' b'' : State} {c : BidiClass}

/-- States with the same classes and levels -/
theorem refl (k : Nat) (hbuffer : b'.buffer = b.buffer) (hlevels : b'.levels = b.levels) :
    Frame k b b' where
  buffer j _ := by rw [hbuffer]
  levels j _ := by rw [hlevels]
  length_buffer := by rw [hbuffer]
  length_levels := by rw [hlevels]

/-- Two changes of the same character -/
theorem trans (h : Frame k b b') (h' : Frame k b' b'') : Frame k b b'' where
  buffer j hj := (h'.buffer j hj).trans (h.buffer j hj)
  levels j hj := (h'.levels j hj).trans (h.levels j hj)
  length_buffer := h'.length_buffer.trans h.length_buffer
  length_levels := h'.length_levels.trans h.length_levels

theorem congr (h : Frame k b b') (hbuffer : b''.buffer = b'.buffer)
    (hlevels : b''.levels = b'.levels) : Frame k b b'' :=
  h.trans (refl k hbuffer hlevels)

/-- A level that is stored -/
theorem toLevel (hk : b.currentChar = k) (n : Nat) : Frame k b (b.toLevel n) where
  buffer _ _ := rfl
  levels j hj := List.getElem?_set_ne (by rw [hk]; exact hj.symm)
  length_buffer := rfl
  length_levels := List.length_set

/-- A class that is stored -/
theorem setBuffer (hk : b.currentChar = k) (c : BidiClass) :
    Frame k b { b with buffer := b.buffer.set b.currentChar c } where
  buffer j hj := List.getElem?_set_ne (by rw [hk]; exact hj.symm)
  levels _ _ := rfl
  length_buffer := List.length_set
  length_levels := rfl

theorem changeCurrentChar (hk : b.currentChar = k) : Frame k b b.changeCurrentChar := by
  rw [State.changeCurrentChar]
  split
  · exact setBuffer hk .L
  · split
    · exact setBuffer hk .R
    · exact refl k rfl rfl

theorem x6 (hk : b.currentChar = k) : Frame k b b.x6 :=
  (toLevel hk b.stackNum).trans (changeCurrentChar hk)

theorem andX6 (h : Frame k b b') (hk : b'.currentChar = k) : Frame k b b'.x6 :=
  h.trans (x6 hk)

/-- Embeddings store a level at most. -/
theorem embed (hk : b.currentChar = k) (next : Nat → Nat) (entry : Nat) :
    Frame k b (b.embed next entry) := by
  rw [State.embed]
  split
  · exact refl k rfl rfl
  · exact (toLevel hk _).congr rfl rfl

theorem x3 (hk : b.currentChar = k) : Frame k b b.x3 := by
  rw [State.x3]
  dsimp only
  split
  · exact refl k rfl rfl
  · exact (toLevel hk _).congr rfl rfl

/-- Beginnings of isolates change one character. -/
theorem initiate (hk : b.currentChar = k) (next : Nat → Nat) (entry : Nat) :
    Frame k b (b.initiate next entry) := by
  rw [State.initiate]
  dsimp only
  split
  · exact (x6 hk).congr rfl rfl
  · exact (x6 hk).congr rfl rfl

theorem x5c (hk : b.currentChar = k) : Frame k b b.x5c := by
  rw [State.x5c]
  split
  · exact (toLevel hk b.stackNum).trans (initiate (b := b.toLevel b.stackNum) hk _ _)
  · exact (toLevel hk b.stackNum).trans (initiate (b := b.toLevel b.stackNum) hk _ _)

/-- Ends of isolates change one character. -/
theorem x6a (hk : b.currentChar = k) (h : b.x6a = some b') : Frame k b b' := by
  rw [State.x6a] at h
  split at h
  · cases h
    exact (toLevel hk _).congr rfl rfl
  · split at h
    · cases h
      exact toLevel hk _
    · obtain ⟨r, -, rfl⟩ := Option.map_eq_some_iff.1 h
      obtain ⟨isoStack, isoList, hpush⟩ := State.isoPush_eq
        { b.toLevel b.stackNum with overflowEmbedded := 0, stackNum := r.1, stack := r.2 }
      rw [hpush]
      exact andX6 ((toLevel hk b.stackNum).congr rfl rfl) hk

/-- Ends of embeddings change one character. -/
theorem x7 (hk : b.currentChar = k) : Frame k b b.x7 := by
  rw [State.x7]
  split
  · exact refl k rfl rfl
  · split
    · exact refl k rfl rfl
    · dsimp only
      split
      · obtain ⟨isoStack, isoList, hpush⟩ := b.pop.isoPush_eq
        rw [hpush]
        exact (toLevel hk b.stackNum).congr rfl rfl
      · obtain ⟨isoStack, isoList, hpush⟩ := b.isoPush_eq
        rw [hpush]
        exact refl k rfl rfl

/-- Ends of paragraphs change no character. -/
theorem x8 (k : Nat) (b : State) : Frame k b b.x8 := by
  rw [State.x8]
  obtain ⟨isoStack, isoList, hpush⟩ := State.isoPush_eq
    { b with currentChar := b.currentChar + 1 }
  rw [hpush]
  obtain ⟨isoStack', isoList', hfold⟩ := State.foldl_isoStackToList_eq
    (List.range (maxDepth + 1)) (State.x1Rest (p2 (b.buffer.drop (b.currentChar + 1)))
      { b with currentChar := b.currentChar + 1, isoStack := isoStack, isoList := isoList })
  rw [hfold]
  exact refl k rfl rfl

/-- Each rule changes the current character only. -/
theorem xMatch (hk : b.currentChar = k) (h : State.xMatch c b = some b') : Frame k b b' := by
  cases c
  case PDI => exact x6a hk h
  case LRE => exact Option.some.inj h ▸ x3 hk
  case RLE => exact Option.some.inj h ▸ embed hk _ _
  case RLO => exact Option.some.inj h ▸ embed hk _ _
  case LRO => exact Option.some.inj h ▸ embed hk _ _
  case RLI => exact Option.some.inj h ▸ initiate hk _ _
  case LRI => exact Option.some.inj h ▸ initiate hk _ _
  case FSI => exact Option.some.inj h ▸ x5c hk
  case PDF => exact Option.some.inj h ▸ x7 hk
  case B => exact Option.some.inj h ▸ x8 k b
  all_goals exact Option.some.inj h ▸ x6 hk

/-- A step of the loop changes its own character only. -/
theorem step (h : State.step k b = some b') : Frame k b b' := by
  rw [State.step] at h
  split at h
  · have hframe : Frame k b { b with currentChar := k } := refl k rfl rfl
    exact hframe.trans (xMatch rfl h)
  · cases h
    exact refl k rfl rfl

end Frame

/-- The characters that have not been read are those of the text. -/
theorem restLoop_frame {k : Nat} {b b' : State} (h : State.restLoop k b = some b') :
    (∀ j, k ≤ j → b'.buffer[j]? = b.buffer[j]?) ∧ b'.buffer.length = b.buffer.length ∧
      b'.levels.length = b.levels.length := by
  induction k generalizing b' with
  | zero =>
    cases h
    exact ⟨fun _ _ => rfl, rfl, rfl⟩
  | succ k ih =>
    obtain ⟨b₁, hfront, hstep⟩ := Option.bind_eq_some_iff.1 h
    obtain ⟨hbuffer, hlen, hlevels⟩ := ih hfront
    have hframe := Frame.step hstep
    refine ⟨fun j hj => ?_, hframe.length_buffer.trans hlen, hframe.length_levels.trans hlevels⟩
    rw [hframe.buffer j (by omega), hbuffer j (by omega)]

/-! ## One character -/

/-- The level stack consists of entries, and the levels are in their bounds. -/
structure Sound (b : State) : Prop where
  entries : ∃ es, Stacked b es
  levels : ∀ l ∈ b.levels, l ≤ maxDepth

variable {b b' : State} {c : BidiClass}

theorem Sound.congr (h : Sound b) (hstack : b'.stack = b.stack) (hnum : b'.stackNum = b.stackNum)
    (hlevels : b'.levels = b.levels) : Sound b' := by
  obtain ⟨es, hes⟩ := h.entries
  exact ⟨⟨es, hes.congr hstack hnum⟩, by rw [hlevels]; exact h.levels⟩

/-- The index is in the stack. -/
theorem Sound.stackNum_le (h : Sound b) : b.stackNum ≤ maxDepth := by
  obtain ⟨es, hes⟩ := h.entries
  rw [hes.stackNum]
  exact hes.le_maxDepth

/-- A level in bounds -/
theorem Sound.toLevel (h : Sound b) {n : Nat} (hn : n ≤ maxDepth) : Sound (b.toLevel n) := by
  refine ⟨?_, fun l hl => ?_⟩
  · obtain ⟨es, hes⟩ := h.entries
    exact ⟨es, hes.congr rfl rfl⟩
  · rcases List.mem_or_eq_of_mem_set hl with hmem | rfl
    · exact h.levels l hmem
    · exact (Nat.mod_le n 256).trans hn

theorem Sound.x6 (h : Sound b) : Sound b.x6 ∧ b.x6.data = b.data := by
  obtain ⟨buffer, hx6⟩ := b.x6_eq
  rw [hx6]
  exact ⟨(h.toLevel h.stackNum_le).congr rfl rfl rfl, rfl⟩

/-- A new entry -/
theorem Sound.push (h : Sound b) {next : Nat → Nat} (hnext : IsNext next) {entry : Nat}
    (hover : ¬b.Overflows (next b.stackNum)) (hentry : entry ≠ 0) :
    Sound (b.push (next b.stackNum) entry) := by
  obtain ⟨es, hes⟩ := h.entries
  have hle := Nat.le_of_not_lt (not_or.1 hover).1
  exact ⟨⟨_, hes.push hnext hle hentry⟩, h.levels⟩

/-- Embeddings keep the bounds and the data stack. -/
theorem Sound.embed (h : Sound b) {next : Nat → Nat} (hnext : IsNext next) {entry : Nat}
    (hentry : entry ≠ 0) :
    Sound (b.embed next entry) ∧ (b.embed next entry).data = b.data := by
  rw [State.embed]
  split
  · exact ⟨h.congr rfl rfl rfl, rfl⟩
  · have hle := Nat.le_of_not_lt (not_or.1 ‹_›).1
    exact ⟨(h.toLevel hle).push hnext ‹_› hentry, rfl⟩

/-- {lit}`x3` leaves an item where it overflows. -/
theorem Sound.x3 (h : Sound b) :
    Sound b.x3 ∧
      b.x3.data = if b.Overflows (nextEven b.stackNum) then nextEven b.stackNum :: b.data
        else b.data := by
  rw [State.x3]
  dsimp only
  split
  · exact ⟨h.congr rfl rfl rfl, rfl⟩
  · have hle := Nat.le_of_not_lt (not_or.1 ‹_›).1
    exact ⟨(h.toLevel hle).push isNext_nextEven ‹_› Nat.one_ne_zero, rfl⟩

theorem or_dis_ne_zero (entry : Nat) : entry ||| dis ≠ 0 := fun h =>
  absurd (Nat.or_eq_zero_iff.1 h).2 (by decide)

/-- Beginnings of isolates keep the bounds and the data stack. -/
theorem Sound.initiate (h : Sound b) {next : Nat → Nat} (hnext : IsNext next) (entry : Nat) :
    Sound (b.initiate next entry) ∧ (b.initiate next entry).data = b.data := by
  obtain ⟨hsound, hdata⟩ := h.x6
  rw [State.initiate]
  dsimp only
  split
  · exact ⟨hsound.congr rfl rfl rfl, hdata⟩
  · exact ⟨(hsound.push hnext ‹_› (or_dis_ne_zero entry)).congr rfl rfl rfl, hdata⟩

/-- {lit}`x5c` keeps the bounds and the data stack. -/
theorem Sound.x5c (h : Sound b) : Sound b.x5c ∧ b.x5c.data = b.data := by
  have hsound := h.toLevel h.stackNum_le
  rw [State.x5c]
  split
  · exact hsound.initiate isNext_nextOdd rtl
  · exact hsound.initiate isNext_nextEven ltr

/-- {lit}`x6a` goes below the level 0 only if it finds no stop. -/
theorem Sound.x6a (h : Sound b) :
    (∀ b', b.x6a = some b' → Sound b' ∧ b'.data = b.data) ∧
      (b.x6a ≠ none ↔ (b.overflowIsolate = 0 → b.isolate ≠ 0 → b.Closes)) := by
  have hsound := h.toLevel h.stackNum_le
  obtain ⟨es, hes⟩ := h.entries
  have hes' : Stacked (b.toLevel b.stackNum) es := hes.congr rfl rfl
  rw [State.x6a]
  by_cases hover : (b.toLevel b.stackNum).overflowIsolate = 0
  · rw [if_neg (not_not.2 hover)]
    by_cases hisolate : (b.toLevel b.stackNum).isolate = 0
    · rw [if_pos hisolate]
      refine ⟨?_, iff_of_true (Option.some_ne_none _) fun _ hne => absurd hisolate hne⟩
      rintro b' ⟨⟩
      exact ⟨hsound, rfl⟩
    · rw [if_neg hisolate]
      constructor
      · intro b' hb'
        obtain ⟨r, hloop, rfl⟩ := Option.map_eq_some_iff.1 hb'
        rw [hes'.closeLoop] at hloop
        obtain ⟨es', hclose, rfl⟩ := Option.map_eq_some_iff.1 hloop
        obtain ⟨isoStack, isoList, hpush⟩ := State.isoPush_eq
          { b.toLevel b.stackNum with
            overflowEmbedded := 0, stackNum := topLevel es', stack := slots 0 es' }
        rw [hpush]
        exact Sound.x6 ⟨⟨es', hes.close hclose rfl rfl⟩, hsound.levels⟩
      · rw [ne_eq, Option.map_eq_none_iff]
        exact hes'.closeLoop_ne_none_iff.trans ⟨fun hclose _ _ => hclose, fun hclose =>
          hclose hover hisolate⟩
  · rw [if_pos hover]
    refine ⟨?_, iff_of_true (Option.some_ne_none _) fun h0 => absurd h0 hover⟩
    rintro b' ⟨⟩
    exact ⟨hsound.congr rfl rfl rfl, rfl⟩

/-- The end of an embedding keeps the bounds. -/
theorem Sound.pop (h : Sound b) (hpos : 0 < b.stackNum) : Sound b.pop := by
  obtain ⟨es, hes⟩ := h.entries
  have hnum := hes.stackNum
  rcases es with _ | ⟨⟨_ | level, entry⟩, es⟩
  · exact absurd hnum hpos.ne'
  · exact absurd hnum hpos.ne'
  · exact ⟨⟨es, hes.pop⟩, (h.toLevel h.stackNum_le).levels⟩

/-- {lit}`x7` keeps the bounds and the data stack. -/
theorem Sound.x7 (h : Sound b) : Sound b.x7 ∧ b.x7.data = b.data := by
  rw [State.x7]
  split
  · exact ⟨h, rfl⟩
  · split
    · exact ⟨h.congr rfl rfl rfl, rfl⟩
    · dsimp only
      split
      · obtain ⟨isoStack, isoList, hpush⟩ := b.pop.isoPush_eq
        rw [hpush]
        exact ⟨(h.pop (And.left ‹_›)).congr rfl rfl rfl, rfl⟩
      · obtain ⟨isoStack, isoList, hpush⟩ := b.isoPush_eq
        rw [hpush]
        exact ⟨h.congr rfl rfl rfl, rfl⟩

theorem BidiClass.direction_le (c : BidiClass) : c.direction ≤ 1 := by
  rw [direction]
  split
  · exact Nat.le_refl 1
  · exact Nat.zero_le 1

/-- The level of a paragraph is 0 or 1. -/
theorem p2Loop_le (depth : Int) (cs : List BidiClass) : p2Loop depth cs ≤ 1 := by
  induction cs generalizing depth with
  | nil => exact Nat.zero_le 1
  | cons c cs ih =>
    rw [p2Loop]
    dsimp only
    generalize depth + (if c.IsIsolate then 1 else 0) - (if c = .PDI then 1 else 0) = depth'
    split
    · exact Nat.zero_le 1
    · split
      · exact Nat.zero_le 1
      · split
        · exact c.direction_le
        · exact ih depth'

theorem Sound.x1Rest (hlevels : ∀ l ∈ b.levels, l ≤ maxDepth) {level : Nat} (hlevel : level ≤ 1) :
    Sound (b.x1Rest level) :=
  ⟨⟨_, .start level hlevel rfl rfl⟩, hlevels⟩

/-- {lit}`x8` keeps the bounds and the data stack. -/
theorem Sound.x8 (h : Sound b) : Sound b.x8 ∧ b.x8.data = b.data := by
  rw [State.x8]
  obtain ⟨isoStack, isoList, hpush⟩ := State.isoPush_eq
    { b with currentChar := b.currentChar + 1 }
  rw [hpush]
  have hlevel := p2Loop_le 0 (b.buffer.drop (b.currentChar + 1))
  obtain ⟨isoStack', isoList', hfold⟩ := State.foldl_isoStackToList_eq
    (List.range (maxDepth + 1)) (State.x1Rest (p2 (b.buffer.drop (b.currentChar + 1)))
      { b with currentChar := b.currentChar + 1, isoStack := isoStack, isoList := isoList })
  rw [hfold]
  exact ⟨(Sound.x1Rest (b := b) h.levels hlevel).congr rfl rfl rfl, rfl⟩

/-- A left-to-right embedding does not overflow, and the end of an isolate finds a stop. -/
def Fits (c : BidiClass) (b : State) : Prop :=
  (c = .LRE → ¬b.Overflows (nextEven b.stackNum)) ∧
    (c = .PDI → b.overflowIsolate = 0 → b.isolate ≠ 0 → b.Closes)

/-- One character: if it fits, the data stack is left as it was; otherwise it is longer or
{lit}`stack#` gets negative. -/
theorem Sound.xMatch (h : Sound b) (c : BidiClass) :
    (∀ b', State.xMatch c b = some b' → Sound b' ∧ b.data <:+ b'.data) ∧
      (Fits c b ↔ ∃ b', State.xMatch c b = some b' ∧ b'.data = b.data) := by
  -- all rules but two leave the data stack as it was
  have hkeep : ∀ b' : State, State.xMatch c b = some b' → c ≠ .LRE → c ≠ .PDI →
      Sound b' ∧ b'.data = b.data →
      (∀ b'', State.xMatch c b = some b'' → Sound b'' ∧ b.data <:+ b''.data) ∧
        (Fits c b ↔ ∃ b'', State.xMatch c b = some b'' ∧ b''.data = b.data) := by
    intro b' hmatch hLRE hPDI hb'
    refine ⟨fun b'' hb'' => ?_, iff_of_true ⟨fun h => absurd h hLRE, fun h => absurd h hPDI⟩
      ⟨b', hmatch, hb'.2⟩⟩
    cases hmatch.symm.trans hb''
    exact ⟨hb'.1, hb'.2 ▸ List.suffix_refl _⟩
  cases c
  case LRE =>
    obtain ⟨hsound, hdata⟩ := h.x3
    refine ⟨?_, ?_⟩
    · rintro b' ⟨⟩
      refine ⟨hsound, ?_⟩
      rw [hdata]
      split
      · exact List.suffix_cons _ _
      · exact List.suffix_refl _
    · by_cases hover : b.Overflows (nextEven b.stackNum)
      · refine iff_of_false (fun hfits => hfits.1 rfl hover) ?_
        rintro ⟨b', ⟨⟩, hsame⟩
        rw [hdata, if_pos hover] at hsame
        exact absurd (congrArg List.length hsame) (Nat.succ_ne_self _)
      · rw [if_neg hover] at hdata
        exact iff_of_true ⟨fun _ => hover, fun h => nomatch h⟩ ⟨_, rfl, hdata⟩
  case PDI =>
    obtain ⟨hsome, hnone⟩ := h.x6a
    refine ⟨fun b' hb' => ⟨(hsome b' hb').1, (hsome b' hb').2 ▸ List.suffix_refl _⟩, ?_⟩
    refine (Iff.trans ⟨fun hfits => hfits.2 rfl, fun hclose => ⟨(nomatch ·), fun _ => hclose⟩⟩
      hnone.symm).trans ?_
    rw [Option.ne_none_iff_exists']
    exact exists_congr fun b' => ⟨fun hb' => ⟨hb', (hsome b' hb').2⟩, And.left⟩
  case RLE => exact hkeep _ rfl (by decide) (by decide) (h.embed isNext_nextOdd Nat.one_ne_zero)
  case RLO => exact hkeep _ rfl (by decide) (by decide) (h.embed isNext_nextOdd (by decide))
  case LRO => exact hkeep _ rfl (by decide) (by decide) (h.embed isNext_nextEven (by decide))
  case RLI => exact hkeep _ rfl (by decide) (by decide) (h.initiate isNext_nextOdd rtl)
  case LRI => exact hkeep _ rfl (by decide) (by decide) (h.initiate isNext_nextEven ltr)
  case FSI => exact hkeep _ rfl (by decide) (by decide) h.x5c
  case PDF => exact hkeep _ rfl (by decide) (by decide) h.x7
  case B => exact hkeep _ rfl (by decide) (by decide) h.x8
  all_goals exact hkeep _ rfl (by decide) (by decide) h.x6

/-! ## The text -/

/-- Every character of the text fits, and each terminator is the last character of its region. -/
structure RunFits (level : Nat) (cs : List BidiClass) (data : List Nat) : Prop where
  chars : ∀ k c b, cs[k]? = some c → State.restLoop k (start level cs data) = some b → Fits c b
  quiet : ∀ b, State.restLoop cs.length (start level cs data) = some b → b.x8.Quiet level

/-- The data stack is left as it was; and if the text is not skipped, {lit}`stack#` and the levels are
in their bounds behind each character. -/
structure Balanced (mask : List BidiClass) (level : Nat) (cs : List BidiClass) (data : List Nat)
    (result : Option (List Nat)) : Prop where
  bounds : ¬skipBidi mask cs → ∀ k, k ≤ cs.length →
    ∃ b, State.restLoop k (start level cs data) = some b ∧
      b.stackNum ≤ maxDepth ∧ ∀ l ∈ b.levels, l ≤ maxDepth
  data : result = some data

variable {num : BidiClass → Nat} {level k : Nat} {cs : List BidiClass} {data : List Nat}

/-- The state in front of the text is in its bounds. -/
theorem Sound.start (hlevel : level ≤ 1) (cs : List BidiClass) (data : List Nat) :
    Sound (start level cs data) := by
  have hlevels : ∀ l ∈ List.replicate cs.length 0, l ≤ maxDepth := fun l hl => by
    rw [List.eq_of_mem_replicate hl]
    exact Nat.zero_le _
  exact ⟨⟨_, .start level hlevel rfl rfl⟩, hlevels⟩

/-- The next character of the loop -/
theorem step_eq {b : State} (hrun : State.restLoop k (start level cs data) = some b)
    {c : BidiClass} (hc : cs[k]? = some c) :
    State.restLoop (k + 1) (start level cs data) =
      State.xMatch c { b with currentChar := k } := by
  have hbuffer : b.buffer[k]? = some c :=
    ((restLoop_frame hrun).1 k (Nat.le_refl k)).trans hc
  rw [State.restLoop, hrun, Option.bind_some, State.step, hbuffer]

/-- Behind each character the state is sound and nothing has been taken from the data stack. -/
theorem Sound.restLoop (hlevel : level ≤ 1) {b : State} (hk : k ≤ cs.length)
    (hrun : State.restLoop k (Bidi.start level cs data) = some b) :
    Sound b ∧ data <:+ b.data := by
  induction k generalizing b with
  | zero =>
    cases hrun
    exact ⟨.start hlevel cs data, List.suffix_refl _⟩
  | succ k ih =>
    obtain ⟨b₁, hfront, -⟩ := Option.bind_eq_some_iff.1 hrun
    obtain ⟨hsound, hsuffix⟩ := ih (Nat.le_of_succ_le hk) hfront
    rw [step_eq hfront (List.getElem?_eq_getElem hk)] at hrun
    obtain ⟨hsound', hsuffix'⟩ :=
      (Sound.xMatch (b := { b₁ with currentChar := k }) (hsound.congr rfl rfl rfl) _).1 b hrun
    exact ⟨hsound', hsuffix.trans hsuffix'⟩

/-- As long as the characters fit, the data stack is left as it was. -/
theorem restLoop_data (hlevel : level ≤ 1) (hk : k ≤ cs.length)
    (hfits : ∀ j < k, ∀ c b, cs[j]? = some c →
      State.restLoop j (start level cs data) = some b → Fits c b) :
    ∃ b, State.restLoop k (start level cs data) = some b ∧ b.data = data := by
  induction k with
  | zero => exact ⟨_, rfl, rfl⟩
  | succ k ih =>
    obtain ⟨b, hrun, hdata⟩ := ih (Nat.le_of_succ_le hk) fun j hj => hfits j (hj.trans k.lt_succ_self)
    have hc := List.getElem?_eq_getElem hk
    have hsound := (Sound.restLoop hlevel (Nat.le_of_succ_le hk) hrun).1
    have hstep := (Sound.xMatch (b := { b with currentChar := k })
      (hsound.congr rfl rfl rfl) cs[k]).2.1 (hfits k k.lt_succ_self _ b hc hrun)
    obtain ⟨b', hmatch, hdata'⟩ := hstep
    exact ⟨b', (step_eq hrun hc).trans hmatch, hdata'.trans hdata⟩

/-- What has been left on the data stack stays there. -/
theorem data_suffix_of_le (hlevel : level ≤ 1) {j : Nat} (hjk : j ≤ k) (hk : k ≤ cs.length)
    {b b' : State} (hrun : State.restLoop j (start level cs data) = some b)
    (hrun' : State.restLoop k (start level cs data) = some b') : b.data <:+ b'.data := by
  induction k generalizing b' with
  | zero =>
    obtain rfl := Nat.le_zero.1 hjk
    cases hrun.symm.trans hrun'
    exact List.suffix_refl _
  | succ k ih =>
    rcases hjk.eq_or_lt with rfl | hlt
    · cases hrun.symm.trans hrun'
      exact List.suffix_refl _
    · obtain ⟨b₁, hfront, -⟩ := Option.bind_eq_some_iff.1 hrun'
      have hsound := (Sound.restLoop hlevel (Nat.le_of_succ_le hk) hfront).1
      rw [step_eq hfront (List.getElem?_eq_getElem hk)] at hrun'
      have hsuffix := ((Sound.xMatch (b := { b₁ with currentChar := k })
        (hsound.congr rfl rfl rfl) _).1 b' hrun').2
      exact (ih (Nat.le_of_lt_succ hlt) (Nat.le_of_succ_le hk) hfront).trans hsuffix

/-- The data stack behind the rules, if the loop ends -/
theorem bidiRest_eq_some_iff {result : List Nat} :
    (start level cs data).bidiRest num level = some result ↔
      ∃ b, State.restLoop cs.length (start level cs data) = some b ∧
        b.x8.x10 num level = result :=
  Option.map_eq_some_iff

/-- The algorithm is balanced if and only if it is skipped, or every character fits and each terminator
is the last character of its region. -/
theorem balanced_bidiLevel_iff (num : BidiClass → Nat) (mask : List BidiClass) (hlevel : level ≤ 1)
    (cs : List BidiClass) (data : List Nat) :
    Balanced mask level cs data (bidiLevel num mask level cs data) ↔
      skipBidi mask cs ∨ RunFits level cs data := by
  rw [bidiLevel]
  by_cases hskip : skipBidi mask cs
  · rw [if_pos hskip]
    exact iff_of_true ⟨fun hrun => absurd hskip hrun, rfl⟩ (.inl hskip)
  rw [if_neg hskip, or_iff_right hskip]
  constructor
  · intro hbalanced
    obtain ⟨b, hrun, hresult⟩ := bidiRest_eq_some_iff.1 hbalanced.data
    obtain ⟨hsound, hsuffix⟩ := Sound.restLoop hlevel (Nat.le_refl _) hrun
    have hx10 := b.x8.data_suffix_x10 num level
    rw [hresult, hsound.x8.2] at hx10
    -- nothing is ever taken from the data stack, so nothing has been left there
    have hend : b.data = data := hx10.eq_of_length_le hsuffix.length_le
    refine ⟨fun k c b₁ hc hrun₁ => ?_, fun b' hrun' => ?_⟩
    · obtain ⟨hk, -⟩ := List.getElem?_eq_some_iff.1 hc
      obtain ⟨hsound₁, hsuffix₁⟩ := Sound.restLoop hlevel hk.le hrun₁
      obtain ⟨b₂, hrun₂, -⟩ := hbalanced.bounds hskip (k + 1) hk
      have hsuffix₂ := (Sound.restLoop hlevel hk hrun₂).2
      have hrest₁ := data_suffix_of_le hlevel hk.le (Nat.le_refl _) hrun₁ hrun
      have hrest₂ := data_suffix_of_le hlevel hk (Nat.le_refl _) hrun₂ hrun
      rw [hend] at hrest₁ hrest₂
      have hsame : b₂.data = b₁.data :=
        (hrest₂.eq_of_length_le hsuffix₂.length_le).trans
          (hrest₁.eq_of_length_le hsuffix₁.length_le).symm
      have hmatch := Sound.xMatch (b := { b₁ with currentChar := k }) (hsound₁.congr rfl rfl rfl) c
      exact hmatch.2.2 ⟨b₂, (step_eq hrun₁ hc).symm.trans hrun₂, hsame⟩
    · cases hrun.symm.trans hrun'
      rw [← b.x8.x10_eq_iff num level (pairwise_apart_x8 hrun), hresult, hsound.x8.2, hend]
  · intro hfits
    refine ⟨fun _ k hk => ?_, ?_⟩
    · obtain ⟨b, hrun, -⟩ := restLoop_data hlevel hk fun j _ => hfits.chars j
      obtain ⟨hsound, -⟩ := Sound.restLoop hlevel hk hrun
      exact ⟨b, hrun, hsound.stackNum_le, hsound.levels⟩
    · obtain ⟨b, hrun, hdata⟩ := restLoop_data hlevel (Nat.le_refl _) fun j _ => hfits.chars j
      obtain ⟨hsound, -⟩ := Sound.restLoop hlevel (Nat.le_refl _) hrun
      refine bidiRest_eq_some_iff.2 ⟨b, hrun, ?_⟩
      rw [← hdata, ← hsound.x8.2]
      exact (b.x8.x10_eq_iff num level (pairwise_apart_x8 hrun)).2 (hfits.quiet b hrun)

/-- Both words are balanced if and only if the text is skipped, or no left-to-right embedding
overflows, each end of an isolate finds a stop, and each terminator that {lit}`w5` gets is the last
character of its region. -/
theorem balanced_iff (num : BidiClass → Nat) (cs : List BidiClass) (data : List Nat) :
    (Balanced rMask (p2 cs) cs data (bidiAlgorithm num cs data) ↔
        skipBidi rMask cs ∨ RunFits (p2 cs) cs data) ∧
      ∀ level, level ≤ 1 →
        (Balanced (levelMask level) level cs data (bidiAlgorithmLevel num level cs data) ↔
          skipBidi (levelMask level) cs ∨ RunFits level cs data) :=
  ⟨balanced_bidiLevel_iff num rMask (p2Loop_le 0 cs) cs data,
    fun level hlevel => balanced_bidiLevel_iff num (levelMask level) hlevel cs data⟩

/-- An isolate with an embedding in it, and a terminator at the end of the text -/
theorem balanced_iff_isolate :
    1 ≤ 1 ∧ (Balanced (levelMask 1) 1 [.R, .LRI, .LRE, .L, .PDF, .ON, .PDI, .EN, .ET] [7]
        (bidiAlgorithmLevel BidiClass.number 1 [.R, .LRI, .LRE, .L, .PDF, .ON, .PDI, .EN, .ET] [7]) ↔
      skipBidi (levelMask 1) [.R, .LRI, .LRE, .L, .PDF, .ON, .PDI, .EN, .ET] ∨
        RunFits 1 [.R, .LRI, .LRE, .L, .PDF, .ON, .PDI, .EN, .ET] [7]) :=
  ⟨Nat.le_refl 1, (balanced_iff BidiClass.number
    [.R, .LRI, .LRE, .L, .PDF, .ON, .PDI, .EN, .ET] [7]).2 1 (Nat.le_refl 1)⟩

/-- The 63rd left-to-right embedding, the second end of one isolate in a right-to-left text, and a
character behind a terminator -/
theorem not_balanced :
    ¬Balanced rMask (p2 (.R :: List.replicate 63 .LRE)) (.R :: List.replicate 63 .LRE) []
        (bidiAlgorithm BidiClass.number (.R :: List.replicate 63 .LRE) []) ∧
      ¬Balanced (levelMask 1) 1 [.LRI, .PDI, .PDI] []
        (bidiAlgorithmLevel BidiClass.number 1 [.LRI, .PDI, .PDI] []) ∧
      ¬Balanced rMask (p2 [.R, .ET, .R]) [.R, .ET, .R] []
        (bidiAlgorithm BidiClass.number [.R, .ET, .R] []) :=
  ⟨fun h => absurd h.data (by decide +kernel), fun h => absurd h.data (by decide +kernel),
    fun h => absurd h.data (by decide +kernel)⟩

end Bidi
end Gforth
