import Gforth.Bidi.Balance
import Gforth.Bidi.Standard

/-!
# The rules and the standard

The slots of the level stack hold the entries of the directional status stack.  The byte of an isolate
has an override where the standard has none.

Main results:

- Theorem {lit}`Sim.step`: one character.
- Theorem {lit}`levels_eq_standard`: the levels and classes of a paragraph.
-/

namespace Gforth
namespace Bidi

open Lib

/-! ## Entries -/

/-- The byte of an entry -/
def byteOf (e : Entry) : Nat :=
  if e.isolate then (if e.level % 2 = 1 then rtl else ltr) ||| dis
  else
    match e.override with
    | .neutral => neutral
    | .ltr => ltr
    | .rtl => rtl

/-- The slots of the entries -/
def slotsOf (es : List Entry) : List (Nat × Nat) :=
  es.map fun e => (e.level, byteOf e)

variable {b b' : State} {m : Machine} {c : BidiClass} {e : Entry} {es : List Entry} {k : Nat}

theorem byteOf_isolate (h : e.isolate = true) :
    byteOf e &&& dis ≠ 0 ∧ byteOf e &&& 3 = if e.level % 2 = 1 then rtl else ltr := by
  rw [byteOf, if_pos h]
  split <;> decide

/-- The entry of an embedding in the source -/
theorem byteOf_embedding (h : e.isolate = false) :
    byteOf e &&& dis = 0 ∧ byteOf e &&& 3 =
      match e.override with
      | .neutral => neutral
      | .ltr => ltr
      | .rtl => rtl := by
  rw [byteOf, if_neg (by rw [h]; decide)]
  split <;> decide

/-- The bit for isolates -/
theorem dis_byteOf : byteOf e &&& dis ≠ 0 ↔ e.isolate = true := by
  cases h : e.isolate with
  | true => exact iff_of_true (byteOf_isolate h).1 rfl
  | false => exact iff_of_false (not_not.2 (byteOf_embedding h).1) nofun

theorem nextOdd_eq_nextLevel (n : Nat) : nextOdd n = nextLevel 1 n := by
  rw [nextOdd_eq, nextLevel]
  split <;> omega

theorem nextEven_eq_nextLevel (n : Nat) : nextEven n = nextLevel 0 n := by
  rw [nextEven, nextLevel]
  split <;> omega

/-! ## Simulation -/

/-- The entry of the paragraph -/
structure IsBottom (e : Entry) : Prop where
  isolate : e.isolate = false
  override : e.override = .neutral
  level_le : e.level ≤ 1

/-- The variables hold a directional status stack.  {lit}`isolate#` only grows. -/
structure Sim (b : State) (m : Machine) : Prop where
  stacked : Stacked b (slotsOf m.stack)
  nonempty : m.stack ≠ []
  overflowIsolate : b.overflowIsolate = m.overflowIsolate
  overflowEmbedded : b.overflowEmbedded = m.overflowEmbedding
  two_le : m.overflowEmbedding ≠ 0 → 2 ≤ m.top.level
  valid : m.validIsolate = m.stack.countP (·.isolate)
  isolate : m.validIsolate ≤ b.isolate
  neutral : ∀ e ∈ m.stack, e.isolate = true → e.override = .neutral
  bottom : ∀ e ∈ m.stack.getLast?, IsBottom e

namespace Sim

/-- States that agree in the stack and the counters -/
theorem congr (h : Sim b m) (hstack : b'.stack = b.stack) (hnum : b'.stackNum = b.stackNum)
    (hoi : b'.overflowIsolate = b.overflowIsolate) (hi : b'.isolate = b.isolate)
    (hoe : b'.overflowEmbedded = b.overflowEmbedded) : Sim b' m :=
  { h with
    stacked := h.stacked.congr hstack hnum
    overflowIsolate := hoi.trans h.overflowIsolate
    overflowEmbedded := hoe.trans h.overflowEmbedded
    isolate := hi ▸ h.isolate }

theorem stack_eq (h : Sim b m) : ∃ es, m.stack = m.top :: es := by
  obtain ⟨e, es, hes⟩ := List.exists_cons_of_ne_nil h.nonempty
  exact ⟨es, by rw [Machine.top, hes]; rfl⟩

theorem top_mem (h : Sim b m) : m.top ∈ m.stack := by
  obtain ⟨es, hes⟩ := h.stack_eq
  rw [hes]
  exact List.mem_cons_self

theorem stackNum (h : Sim b m) : b.stackNum = m.top.level := by
  obtain ⟨es, hes⟩ := h.stack_eq
  rw [h.stacked.stackNum, hes]
  rfl

/-- The top of {lit}`stack` is the last entry. -/
theorem stackTop (h : Sim b m) : b.stackTop = byteOf m.top := by
  obtain ⟨es, hes⟩ := h.stack_eq
  have hstacked := h.stacked
  rw [hes] at hstacked
  exact hstacked.stackTop

theorem overflows_iff (h : Sim b m) (n : Nat) : b.Overflows n ↔ ¬m.HasRoom n := by
  rw [State.Overflows, Machine.HasRoom, h.overflowIsolate, h.overflowEmbedded, maxDepth]
  omega

theorem toLevel (h : Sim b m) (n : Nat) : Sim (b.toLevel n) m :=
  h.congr rfl rfl rfl rfl rfl

/-- {lit}`x6` keeps the entries. -/
theorem x6 (h : Sim b m) : Sim b.x6 m := by
  obtain ⟨buffer, hx6⟩ := b.x6_eq
  rw [hx6]
  exact h.congr rfl rfl rfl rfl rfl

/-- What is stored for a character -/
structure Stores (k : Nat) (b : State) (r : Nat × BidiClass) : Prop where
  level : b.levels[k]? = some r.1
  buffer : b.buffer[k]? = some r.2

/-- A level that is stored for the current character -/
theorem toLevel_stores (h : Sim b m) (hbuffer : b.buffer[b.currentChar]? = some c)
    (hlevels : b.currentChar < b.levels.length) :
    Stores b.currentChar (b.toLevel b.stackNum) (m.top.level, c) := by
  have hle : m.top.level ≤ maxDepth := by
    rw [← h.stackNum, h.stacked.stackNum]
    exact h.stacked.le_maxDepth
  refine ⟨?_, hbuffer⟩
  show (b.levels.set b.currentChar (b.stackNum % 256))[b.currentChar]? = _
  rw [List.getElem?_set_self hlevels, h.stackNum,
    Nat.mod_eq_of_lt (hle.trans_lt (show maxDepth < 256 by decide))]

/-- {lit}`x6` stores the level and the class; directly in an isolate the class must not change. -/
theorem x6_stores (h : Sim b m) (hbuffer : b.buffer[b.currentChar]? = some c)
    (hlevels : b.currentChar < b.levels.length)
    (hclass : m.top.isolate = true → c = levelClass m.top.level) :
    Stores b.currentChar b.x6 (m.stored c) := by
  obtain ⟨hlt, -⟩ := List.getElem?_eq_some_iff.1 hbuffer
  have htop : (b.toLevel b.stackNum).stackTop = byteOf m.top := h.stackTop
  have hlevel : b.x6.levels[b.currentChar]? = some m.top.level := by
    obtain ⟨buffer, hx6⟩ := b.x6_eq
    rw [hx6]
    exact (h.toLevel_stores hbuffer hlevels).level
  refine ⟨hlevel, ?_⟩
  -- the class that is stored
  have hset : ∀ d, (b.buffer.set b.currentChar d)[b.currentChar]? = some d := fun d =>
    List.getElem?_set_self hlt
  rw [State.x6, State.changeCurrentChar, htop, Machine.stored]
  cases hisolate : m.top.isolate with
  | true =>
    have hc := hclass hisolate
    rw [(byteOf_isolate hisolate).2, h.neutral _ h.top_mem hisolate]
    rw [levelClass] at hc
    by_cases hodd : m.top.level % 2 = 1
    · rw [if_pos hodd] at hc ⊢
      rw [if_neg (by decide), if_pos rfl, hc]
      exact hset _
    · rw [if_neg hodd] at hc ⊢
      rw [if_pos rfl, hc]
      exact hset _
  | false =>
    rw [(byteOf_embedding hisolate).2]
    cases m.top.override with
    | neutral => exact hbuffer
    | ltr => exact hset _
    | rtl => exact hset _

/-! ## Embeddings and isolates -/

/-- No entry of the source is 0. -/
theorem byteOf_ne_zero (e : Entry) : byteOf e ≠ 0 := by
  cases h : e.isolate with
  | true =>
    intro hzero
    refine (byteOf_isolate h).1 ?_
    rw [hzero]
    rfl
  | false =>
    rw [byteOf, if_neg (by rw [h]; decide)]
    split <;> decide

variable {next : Nat → Nat} {parity : Nat}

/-- A new entry -/
theorem push (h : Sim b m) (hnext : ∀ n, next n = nextLevel parity n)
    (hroom : m.HasRoom (nextLevel parity m.top.level)) (isolate : Bool) (override : Override)
    (hneutral : isolate = true → override = .neutral) :
    Sim { b.push (next b.stackNum) (byteOf ⟨nextLevel parity m.top.level, override, isolate⟩) with
          isolate := b.isolate + if isolate then 1 else 0 }
      { m with
        stack := ⟨nextLevel parity m.top.level, override, isolate⟩ :: m.stack
        validIsolate := m.validIsolate + if isolate then 1 else 0 } where
  stacked := by
    have hisNext : IsNext next := fun n => by
      rw [hnext, nextLevel]
      split <;> omega
    have hle : next b.stackNum ≤ maxDepth := by
      rw [hnext, h.stackNum]
      exact hroom.1
    have hpush := h.stacked.push hisNext hle (byteOf_ne_zero ⟨nextLevel parity m.top.level, override, isolate⟩)
    rw [slotsOf, List.map_cons]
    dsimp only
    rw [hnext, h.stackNum] at hpush ⊢
    exact hpush.congr rfl rfl
  nonempty := List.cons_ne_nil _ _
  overflowIsolate := h.overflowIsolate
  overflowEmbedded := h.overflowEmbedded
  two_le hne := absurd hroom.2.2 hne
  valid := by
    rw [List.countP_cons, h.valid]
  isolate := Nat.add_le_add_right h.isolate _
  neutral e he hisolate := by
    rcases List.mem_cons.1 he with rfl | hmem
    · exact hneutral hisolate
    · exact h.neutral e hmem hisolate
  bottom e he := by
    obtain ⟨es, hes⟩ := h.stack_eq
    dsimp only at he
    rw [hes, List.getLast?_cons_cons, ← hes] at he
    exact h.bottom e he

/-- The overflow branch of an embedding -/
theorem countEmbedded (h : Sim b m) {n : Nat} (hn : n ≤ m.top.level + 2) (hroom : ¬m.HasRoom n) :
    Sim b.countEmbedded (if m.overflowIsolate = 0 then
      { m with overflowEmbedding := m.overflowEmbedding + 1 } else m) := by
  have hcount : b.countEmbedded.overflowEmbedded =
      m.overflowEmbedding + if m.overflowIsolate = 0 then 1 else 0 := by
    rw [State.countEmbedded, h.overflowIsolate, h.overflowEmbedded]
  split
  · rw [if_pos ‹_›] at hcount
    refine { h with
      stacked := h.stacked.congr rfl rfl
      overflowEmbedded := hcount
      two_le := fun _ => ?_ }
    -- the level is too high, or there was an overflow before
    by_cases hbefore : m.overflowEmbedding = 0
    · have hhigh : ¬n ≤ 125 := fun hle => hroom ⟨hle, ‹_›, hbefore⟩
      show 2 ≤ m.top.level
      omega
    · exact h.two_le hbefore
  · rw [if_neg ‹_›] at hcount
    exact { h with stacked := h.stacked.congr rfl rfl, overflowEmbedded := hcount }

theorem nextLevel_le (parity n : Nat) : nextLevel parity n ≤ n + 2 := by
  rw [nextLevel]
  split <;> omega

theorem byteOf_level (level level' : Nat) (override : Override) :
    byteOf ⟨level, override, false⟩ = byteOf ⟨level', override, false⟩ := by
  cases override <;> rfl

/-- Embeddings follow the standard. -/
theorem embed (h : Sim b m) (hnext : ∀ n, next n = nextLevel parity n) (override : Override) :
    Sim (b.embed next (byteOf ⟨0, override, false⟩)) (m.beginEmbedding parity override) := by
  have hlevel : next b.stackNum = nextLevel parity m.top.level := by rw [hnext, h.stackNum]
  rw [State.embed, Machine.beginEmbedding]
  by_cases hroom : m.HasRoom (nextLevel parity m.top.level)
  · rw [if_neg (by rw [h.overflows_iff, hlevel]; exact not_not.2 hroom), if_pos hroom]
    have hpush := (h.toLevel (next b.stackNum)).push hnext hroom false override
      fun hisolate => absurd hisolate Bool.false_ne_true
    rw [byteOf_level _ 0] at hpush
    exact hpush.congr rfl rfl rfl rfl rfl
  · rw [if_pos (by rw [h.overflows_iff, hlevel]; exact hroom), if_neg hroom]
    exact h.countEmbedded (nextLevel_le _ _) hroom

/-- {lit}`x3` is the rule for a left-to-right embedding, except for the data stack. -/
theorem x3 (h : Sim b m) : Sim b.x3 (m.beginEmbedding 0 .neutral) := by
  have hembed := h.embed nextEven_eq_nextLevel .neutral
  rw [State.embed] at hembed
  rw [State.x3]
  dsimp only
  split
  · rw [if_pos ‹_›] at hembed
    exact hembed.congr rfl rfl rfl rfl rfl
  · rwa [if_neg ‹_›] at hembed

/-- Beginnings of isolates follow the standard. -/
theorem initiate (h : Sim b m) (hnext : ∀ n, next n = nextLevel parity n) {entry : Nat}
    (hentry : ∀ n, byteOf ⟨nextLevel parity n, .neutral, true⟩ = entry ||| dis) :
    Sim (b.initiate next entry) (m.beginIsolate parity) := by
  have hx6 := h.x6
  have hlevel : next b.x6.stackNum = nextLevel parity m.top.level := by rw [hnext, hx6.stackNum]
  rw [State.initiate, Machine.beginIsolate]
  dsimp only
  by_cases hroom : m.HasRoom (nextLevel parity m.top.level)
  · rw [if_neg (by rw [hx6.overflows_iff, hlevel]; exact not_not.2 hroom), if_pos hroom]
    have hpush := hx6.push hnext hroom true .neutral fun _ => rfl
    rwa [hentry] at hpush
  · rw [if_pos (by rw [hx6.overflows_iff, hlevel]; exact hroom), if_neg hroom]
    exact { hx6 with
      stacked := hx6.stacked.congr rfl rfl
      overflowIsolate := congrArg (· + 1) hx6.overflowIsolate }

/-- The entry of a right-to-left isolate -/
theorem byteOf_nextLevel_odd (n : Nat) :
    byteOf ⟨nextLevel 1 n, .neutral, true⟩ = rtl ||| dis := by
  have hodd : nextLevel 1 n % 2 = 1 := by
    rw [nextLevel]
    split <;> omega
  rw [byteOf, if_pos rfl, if_pos hodd]

/-- The entry of a left-to-right isolate -/
theorem byteOf_nextLevel_even (n : Nat) :
    byteOf ⟨nextLevel 0 n, .neutral, true⟩ = ltr ||| dis := by
  have heven : ¬nextLevel 0 n % 2 = 1 := by
    rw [nextLevel]
    split <;> omega
  rw [byteOf, if_pos rfl, if_neg heven]

/-! ## Ends -/

/-- The entries that are left below an isolate -/
theorem closeEntries_slotsOf (hdescends : Descends (slotsOf es))
    (hbottom : ∀ e ∈ es.getLast?, e.isolate = false) (hisolate : ∃ e ∈ es, e.isolate = true) :
    closeEntries (slotsOf es) = some (slotsOf (es.dropWhile fun e => !e.isolate).tail) := by
  induction es with
  | nil =>
    obtain ⟨e, he, -⟩ := hisolate
    cases he
  | cons e es ih =>
    rw [slotsOf, List.map_cons, ← slotsOf] at hdescends ⊢
    rw [closeEntries]
    -- below an isolate there is the entry of the paragraph
    have hrest : es ≠ [] := by
      rintro rfl
      obtain ⟨e', he', htrue⟩ := hisolate
      rw [List.mem_singleton.1 he', hbottom e rfl] at htrue
      cases htrue
    obtain ⟨e₁, es₁, rfl⟩ := List.exists_cons_of_ne_nil hrest
    have hlt := hdescends.lt_of_mem (List.mem_cons_self (a := (e₁.level, byteOf e₁)))
    have hslots : slotsOf (e₁ :: es₁) ≠ [] := List.cons_ne_nil _ _
    rw [if_neg (Nat.ne_zero_of_lt hlt), if_neg (not_and.2 fun _ => hslots)]
    cases he : e.isolate with
    | true =>
      rw [if_pos (dis_byteOf.2 he), List.dropWhile_cons_of_neg (by rw [he]; decide), List.tail_cons]
    | false =>
      rw [if_neg (not_not.2 (byteOf_embedding he).1), List.dropWhile_cons_of_pos (by rw [he]; rfl)]
      refine ih hdescends.tail (fun e' he' => hbottom e' ?_) ?_
      · rwa [List.getLast?_cons_cons]
      · obtain ⟨e', he', htrue⟩ := hisolate
        rcases List.mem_cons.1 he' with rfl | hmem
        · rw [he] at htrue
          cases htrue
        · exact ⟨e', hmem, htrue⟩

/-- Entries below other entries -/
theorem suffix (h : Sim b m) {oe vi : Nat} (hsuffix : es <:+ m.stack) (hne : es ≠ [])
    (hstacked : Stacked b' (slotsOf es)) (hoi : b'.overflowIsolate = m.overflowIsolate)
    (hoe : b'.overflowEmbedded = oe) (hzero : oe = 0) (hvi : vi = es.countP (·.isolate))
    (hi : vi ≤ b'.isolate) :
    Sim b' { m with stack := es, overflowEmbedding := oe, validIsolate := vi } where
  stacked := hstacked
  nonempty := hne
  overflowIsolate := hoi
  overflowEmbedded := hoe
  two_le hne := absurd hzero hne
  valid := hvi
  isolate := hi
  neutral e he := h.neutral e (hsuffix.subset he)
  bottom e he := by
    refine h.bottom e ?_
    obtain ⟨front, hfront⟩ := hsuffix
    rw [← hfront, List.getLast?_append_of_ne_nil _ hne]
    exact he

/-- The end of an embedding; in a right-to-left paragraph the last entry must not be the top one. -/
theorem x7 (h : Sim b m) (hfits : m.overflowIsolate ≠ 0 ∨ m.overflowEmbedding ≠ 0 ∨
      m.top.isolate = true ∨ 2 ≤ m.stack.length ∨ m.top.level = 0) :
    Sim b.x7 m.endEmbedding := by
  rw [State.x7, Machine.endEmbedding, h.overflowIsolate, h.overflowEmbedded]
  by_cases hoi : m.overflowIsolate = 0
  swap
  · rw [if_pos hoi, if_pos (Nat.pos_of_ne_zero hoi)]
    exact h
  rw [if_neg (not_not.2 hoi), if_neg (Nat.not_lt.2 hoi.le)]
  by_cases hoe : m.overflowEmbedding = 0
  swap
  · rw [if_pos hoe, if_pos (Nat.pos_of_ne_zero hoe)]
    exact { h with
      stacked := h.stacked.congr rfl rfl
      overflowIsolate := rfl
      overflowEmbedded := rfl
      two_le := fun _ => h.two_le hoe }
  rw [if_neg (not_not.2 hoe), if_neg (Nat.not_lt.2 hoe.le)]
  dsimp only
  obtain ⟨es, hes⟩ := h.stack_eq
  have hstacked := h.stacked
  rw [hes, slotsOf, List.map_cons, ← slotsOf] at hstacked
  -- the code asks for the level, the standard for the number of entries
  have hpop : (0 < b.stackNum ∧ b.stackTop &&& dis = 0) ↔
      (m.top.isolate = false ∧ 2 ≤ m.stack.length) := by
    rw [h.stackNum, h.stackTop, and_comm, ← Bool.not_eq_true, ← dis_byteOf, not_not]
    refine and_congr_right fun hdis => ?_
    have hisolate : ¬m.top.isolate = true := dis_byteOf.not.1 (not_not.2 hdis)
    constructor
    · intro hpos
      rcases hfits with h' | h' | h' | h' | h'
      · exact absurd hoi h'
      · exact absurd hoe h'
      · exact absurd h' hisolate
      · exact h'
      · exact absurd h' hpos.ne'
    · intro hlength
      rw [hes] at hlength
      obtain ⟨e₁, es₁, rfl⟩ := List.exists_cons_of_length_pos (Nat.lt_of_succ_le
        (Nat.le_of_succ_le_succ hlength))
      exact Nat.zero_lt_of_lt
        (hstacked.descends.lt_of_mem (List.mem_cons_self (a := (e₁.level, byteOf e₁))))
  by_cases hcond : m.top.isolate = false ∧ 2 ≤ m.stack.length
  · rw [if_pos (hpop.2 hcond), if_pos hcond]
    obtain ⟨isoStack, isoList, hpush⟩ := b.pop.isoPush_eq
    rw [hpush]
    obtain ⟨hpos, -⟩ := hpop.2 hcond
    rw [h.stackNum] at hpos
    obtain ⟨level, hlevel⟩ := Nat.exists_eq_succ_of_ne_zero hpos.ne'
    rw [hlevel] at hstacked
    have hpopped := hstacked.pop
    have htail : m.stack.tail = es := by rw [hes, List.tail_cons]
    have hne : es ≠ [] := fun hnil => by
      have hlength := hcond.2
      rw [hes, hnil] at hlength
      exact absurd hlength (Nat.not_succ_le_self 1)
    have hvalid : m.validIsolate = es.countP (·.isolate) := by
      rw [h.valid, hes, List.countP_cons_of_neg (by rw [hcond.1]; decide)]
    rw [htail]
    exact h.suffix (by rw [hes]; exact List.suffix_cons _ _) hne (hpopped.congr rfl rfl)
      h.overflowIsolate h.overflowEmbedded hoe hvalid h.isolate
  · rw [if_neg (hpop.not.2 hcond), if_neg hcond]
    obtain ⟨isoStack, isoList, hpush⟩ := b.isoPush_eq
    rw [hpush]
    exact h.congr rfl rfl rfl rfl rfl

/-- Closing an isolate removes one isolate. -/
theorem countP_dropWhile_tail (h : ∃ e ∈ es, e.isolate = true) :
    es.countP (·.isolate) = ((es.dropWhile fun e => !e.isolate).tail).countP (·.isolate) + 1 := by
  induction es with
  | nil =>
    obtain ⟨e, he, -⟩ := h
    cases he
  | cons e es ih =>
    cases he : e.isolate with
    | true =>
      rw [List.dropWhile_cons_of_neg (by rw [he]; decide), List.tail_cons,
        List.countP_cons_of_pos (by exact he)]
    | false =>
      rw [List.dropWhile_cons_of_pos (by rw [he]; rfl),
        List.countP_cons_of_neg (by rw [he]; decide)]
      obtain ⟨e', he', htrue⟩ := h
      rcases List.mem_cons.1 he' with rfl | hmem
      · rw [he] at htrue
        cases htrue
      · exact ih ⟨e', hmem, htrue⟩

/-- An entry is left behind a closed isolate. -/
theorem dropWhile_tail_ne_nil (hbottom : ∀ e ∈ es.getLast?, e.isolate = false)
    (h : ∃ e ∈ es, e.isolate = true) : (es.dropWhile fun e => !e.isolate).tail ≠ [] := by
  induction es with
  | nil =>
    obtain ⟨e, he, -⟩ := h
    cases he
  | cons e es ih =>
    cases he : e.isolate with
    | true =>
      rw [List.dropWhile_cons_of_neg (by rw [he]; decide), List.tail_cons]
      rintro rfl
      rw [hbottom e rfl] at he
      cases he
    | false =>
      rw [List.dropWhile_cons_of_pos (by rw [he]; rfl)]
      obtain ⟨e', he', htrue⟩ := h
      rcases List.mem_cons.1 he' with rfl | hmem
      · rw [he] at htrue
        cases htrue
      · obtain ⟨e₁, es₁, rfl⟩ := List.exists_cons_of_ne_nil (List.ne_nil_of_mem hmem)
        exact ih (fun e' he' => hbottom e' (by rwa [List.getLast?_cons_cons])) ⟨e', hmem, htrue⟩

theorem suffix_dropWhile_tail (es : List Entry) :
    (es.dropWhile fun e => !e.isolate).tail <:+ es :=
  (List.tail_suffix _).trans (List.dropWhile_suffix _)

/-- The end of an isolate does not leave a character directly in an isolate.  In an overflow, and
without any isolate so far, there must be no override; an unmatched one behind other isolates must be
in the entry of a left-to-right paragraph. -/
def EndFits (b : State) (m : Machine) : Prop :=
  if m.overflowIsolate ≠ 0 then m.top.override = .neutral
  else if m.validIsolate ≠ 0 then m.endIsolate.top.isolate = false
  else if b.isolate = 0 then m.top.override = .neutral
  else m.stack.length = 1 ∧ m.top.level = 0

theorem stored_of_neutral (h : m.top.override = .neutral) (c : BidiClass) :
    m.stored c = (m.top.level, c) := by
  rw [Machine.stored, h]

/-- What {lit}`x6a` does behind its loop -/
theorem x6a_of_closeLoop (hoi : b.overflowIsolate = 0) (hi : b.isolate ≠ 0)
    {r : Nat × (Nat → Nat)} (hclose : State.closeLoop b.stackNum b.stack = some r) :
    ∃ b₁ : State, b.x6a = some b₁.x6 ∧ b₁.stackNum = r.1 ∧ b₁.stack = r.2 ∧
      b₁.overflowIsolate = 0 ∧ b₁.overflowEmbedded = 0 ∧ b₁.isolate = b.isolate ∧
      b₁.currentChar = b.currentChar ∧ b₁.buffer = b.buffer ∧
      b₁.levels.length = b.levels.length := by
  have hoi' : ¬(b.toLevel b.stackNum).overflowIsolate ≠ 0 := not_not.2 hoi
  have hi' : ¬(b.toLevel b.stackNum).isolate = 0 := hi
  have hclose' : State.closeLoop (b.toLevel b.stackNum).stackNum (b.toLevel b.stackNum).stack =
      some r := hclose
  rw [State.x6a, if_neg hoi', if_neg hi', hclose', Option.map_some]
  obtain ⟨isoStack, isoList, hpush⟩ := State.isoPush_eq
    { b.toLevel b.stackNum with overflowEmbedded := 0, stackNum := r.1, stack := r.2 }
  rw [hpush]
  exact ⟨_, rfl, rfl, rfl, hoi, rfl, rfl, rfl, rfl, List.length_set⟩

/-- The end of an isolate that was not entered -/
theorem x6a_overflow (h : Sim b m) (hoi : m.overflowIsolate ≠ 0)
    (hneutral : m.top.override = .neutral) (hbuffer : b.buffer[b.currentChar]? = some .PDI)
    (hlevels : b.currentChar < b.levels.length) :
    ∃ b', b.x6a = some b' ∧ Sim b' m.endIsolate ∧
      Stores b.currentChar b' (m.endIsolate.stored .PDI) := by
  have hlevel := h.toLevel b.stackNum
  have hstores := h.toLevel_stores hbuffer hlevels
  have hoi' : (b.toLevel b.stackNum).overflowIsolate ≠ 0 := hlevel.overflowIsolate ▸ hoi
  rw [State.x6a, if_pos hoi', Machine.endIsolate, if_pos (Nat.pos_of_ne_zero hoi),
    stored_of_neutral (m := { m with overflowIsolate := m.overflowIsolate - 1 }) hneutral]
  refine ⟨_, rfl, ?_, hstores.level, hstores.buffer⟩
  exact { hlevel with
    stacked := hlevel.stacked.congr rfl rfl
    overflowIsolate := congrArg (· - 1) hlevel.overflowIsolate }

/-- The end of an isolate that was not begun -/
theorem x6a_unmatched (h : Sim b m) (hoi : m.overflowIsolate = 0) (hvalid : m.validIsolate = 0)
    (hfits : if b.isolate = 0 then m.top.override = .neutral
      else m.stack.length = 1 ∧ m.top.level = 0)
    (hbuffer : b.buffer[b.currentChar]? = some .PDI)
    (hlevels : b.currentChar < b.levels.length) :
    ∃ b', b.x6a = some b' ∧ Sim b' m.endIsolate ∧
      Stores b.currentChar b' (m.endIsolate.stored .PDI) := by
  have hend : m.endIsolate = m := by
    rw [Machine.endIsolate, if_neg (Nat.not_lt.2 hoi.le), if_pos hvalid]
  have hoi' := h.overflowIsolate.trans hoi
  rw [hend]
  by_cases hi : b.isolate = 0
  · have hoi'' : ¬(b.toLevel b.stackNum).overflowIsolate ≠ 0 := not_not.2 hoi'
    have hi' : (b.toLevel b.stackNum).isolate = 0 := hi
    rw [if_pos hi] at hfits
    rw [State.x6a, if_neg hoi'', if_pos hi', stored_of_neutral hfits]
    exact ⟨_, rfl, h.toLevel b.stackNum, h.toLevel_stores hbuffer hlevels⟩
  · -- all entries are closed, and there is only the one of the paragraph
    rw [if_neg hi] at hfits
    obtain ⟨hlength, hzero⟩ := hfits
    have hoe : m.overflowEmbedding = 0 := by
      by_contra hne
      have := h.two_le hne
      omega
    have hnum := h.stackNum.trans hzero
    obtain ⟨b₁, hx6a, hnum₁, hstack₁, hoi₁, hoe₁, hi₁, hcurrent, hbuffer₁, hlevels₁⟩ :=
      x6a_of_closeLoop hoi' hi (by rw [hnum, State.closeLoop])
    have hsim : Sim b₁ m := h.congr hstack₁ (hnum₁.trans hnum.symm) (hoi₁.trans hoi'.symm) hi₁
      (hoe₁.trans (hoe.symm.trans h.overflowEmbedded.symm))
    have hstores := hsim.x6_stores (c := .PDI) (by rw [hbuffer₁, hcurrent, hbuffer])
      (by rw [hcurrent, hlevels₁]; exact hlevels) fun hisolate => by
        obtain ⟨es, hes⟩ := h.stack_eq
        obtain rfl : es = [] := by
          rw [hes] at hlength
          exact List.eq_nil_of_length_eq_zero (Nat.succ.inj hlength)
        have hbottom := h.bottom m.top (by rw [hes]; rfl)
        rw [hbottom.isolate] at hisolate
        cases hisolate
    rw [hcurrent] at hstores
    exact ⟨_, hx6a, hsim.x6, hstores⟩

/-- The end of an isolate that is on the stack -/
theorem x6a_matched (h : Sim b m) (hoi : m.overflowIsolate = 0) (hvalid : m.validIsolate ≠ 0)
    (hfits : m.endIsolate.top.isolate = false) (hbuffer : b.buffer[b.currentChar]? = some .PDI)
    (hlevels : b.currentChar < b.levels.length) :
    ∃ b', b.x6a = some b' ∧ Sim b' m.endIsolate ∧
      Stores b.currentChar b' (m.endIsolate.stored .PDI) := by
  have hi : b.isolate ≠ 0 := fun hzero => hvalid (Nat.le_zero.1 (hzero ▸ h.isolate))
  have hexists : ∃ e ∈ m.stack, e.isolate = true :=
    List.countP_pos_iff.1 (h.valid ▸ Nat.pos_of_ne_zero hvalid)
  have hclose := closeEntries_slotsOf h.stacked.descends
    (fun e he => (h.bottom e he).isolate) hexists
  have hend : m.endIsolate =
      { m with
        stack := (m.stack.dropWhile fun e => !e.isolate).tail
        overflowEmbedding := 0
        validIsolate := m.validIsolate - 1 } := by
    rw [Machine.endIsolate, if_neg (Nat.not_lt.2 hoi.le), if_neg hvalid]
  have hcount : m.validIsolate - 1 =
      ((m.stack.dropWhile fun e => !e.isolate).tail).countP (·.isolate) := by
    rw [h.valid, countP_dropWhile_tail hexists, Nat.add_sub_cancel]
  have hne : (m.stack.dropWhile fun e => !e.isolate).tail ≠ [] :=
    dropWhile_tail_ne_nil (fun e he => (h.bottom e he).isolate) hexists
  have hloop := h.stacked.closeLoop
  rw [hclose, Option.map_some] at hloop
  obtain ⟨b₁, hx6a, hnum₁, hstack₁, hoi₁, hoe₁, hi₁, hcurrent, hbuffer₁, hlevels₁⟩ :=
    x6a_of_closeLoop (h.overflowIsolate.trans hoi) hi hloop
  have hsim : Sim b₁ m.endIsolate := by
    rw [hend]
    exact h.suffix (suffix_dropWhile_tail _) hne (h.stacked.close hclose hstack₁ hnum₁)
      (hoi₁.trans hoi.symm) hoe₁ rfl hcount
      (hi₁ ▸ (Nat.sub_le _ _).trans h.isolate)
  have hstores := hsim.x6_stores (c := .PDI) (by rw [hbuffer₁, hcurrent, hbuffer])
    (by rw [hcurrent, hlevels₁]; exact hlevels) fun hisolate => by
      rw [hfits] at hisolate
      cases hisolate
  rw [hcurrent] at hstores
  exact ⟨_, hx6a, hsim.x6, hstores⟩

/-- The end of an isolate follows the standard where it finds its entry. -/
theorem x6a (h : Sim b m) (hfits : EndFits b m) (hbuffer : b.buffer[b.currentChar]? = some .PDI)
    (hlevels : b.currentChar < b.levels.length) :
    ∃ b', b.x6a = some b' ∧ Sim b' m.endIsolate ∧
      Stores b.currentChar b' (m.endIsolate.stored .PDI) := by
  rw [EndFits] at hfits
  by_cases hoi : m.overflowIsolate = 0
  · rw [if_neg (not_not.2 hoi)] at hfits
    by_cases hvalid : m.validIsolate = 0
    · rw [if_neg (not_not.2 hvalid)] at hfits
      exact h.x6a_unmatched hoi hvalid hfits hbuffer hlevels
    · rw [if_pos hvalid] at hfits
      exact h.x6a_matched hoi hvalid hfits hbuffer hlevels
  · rw [if_pos hoi] at hfits
    exact h.x6a_overflow hoi hfits hbuffer hlevels

/-! ## One character -/

/-- A character directly in an isolate already has the class of its direction.  An embedding does not
end where only the entry of a right-to-left paragraph is left. -/
def StepFits (c : BidiClass) (b : State) (m : Machine) : Prop :=
  match c with
  | .RLE | .LRE | .RLO | .LRO | .BN => True
  | .PDF =>
      m.overflowIsolate ≠ 0 ∨ m.overflowEmbedding ≠ 0 ∨ m.top.isolate = true ∨
        2 ≤ m.stack.length ∨ m.top.level = 0
  | .PDI => EndFits b m
  | c => m.top.isolate = true → c = levelClass m.top.level

/-- The beginning of an isolate follows the standard. -/
theorem initiate_spec (h : Sim b m) (hnext : ∀ n, next n = nextLevel parity n) {entry : Nat}
    (hentry : ∀ n, byteOf ⟨nextLevel parity n, .neutral, true⟩ = entry ||| dis)
    (hbuffer : b.buffer[b.currentChar]? = some c) (hlevels : b.currentChar < b.levels.length)
    (hclass : m.top.isolate = true → c = levelClass m.top.level) :
    Sim (b.initiate next entry) (m.beginIsolate parity) ∧
      Stores b.currentChar (b.initiate next entry) (m.stored c) := by
  refine ⟨h.initiate hnext hentry, ?_⟩
  obtain ⟨hlevel, hbuffer'⟩ := h.x6_stores hbuffer hlevels hclass
  rw [State.initiate]
  dsimp only
  split
  · exact ⟨hlevel, hbuffer'⟩
  · exact ⟨hlevel, hbuffer'⟩

theorem paragraphLevel_le (cs : List BidiClass) : paragraphLevel cs ≤ 1 := by
  induction cs using paragraphLevel.induct with
  | case1 =>
    rw [paragraphLevel]
    exact Nat.zero_le 1
  | case2 c cs hstrong =>
    rw [paragraphLevel, if_pos hstrong]
    exact c.direction_le
  | case3 c cs hstrong hisolate ih => rwa [paragraphLevel, if_neg hstrong, if_pos hisolate]
  | case4 c cs hstrong hisolate ih => rwa [paragraphLevel, if_neg hstrong, if_neg hisolate]

/-- One character -/
theorem step (h : Sim b m) (hc : c ≠ .B) (hfits : StepFits c b m)
    (hbuffer : b.buffer[b.currentChar]? = some c) (hlevels : b.currentChar < b.levels.length)
    (hrest : ∀ d ∈ b.buffer.drop (b.currentChar + 1), d ≠ .B) :
    ∃ b', State.xMatch c b = some b' ∧
      Sim b' (m.step c (b.buffer.drop (b.currentChar + 1))).2 ∧
      (¬c.IsRemoved →
        Stores b.currentChar b' (m.step c (b.buffer.drop (b.currentChar + 1))).1) := by
  cases c
  case B => exact absurd rfl hc
  case RLE => exact ⟨_, rfl, h.embed nextOdd_eq_nextLevel .neutral, fun h => absurd (by decide) h⟩
  case LRE => exact ⟨_, rfl, h.x3, fun h => absurd (by decide) h⟩
  case RLO => exact ⟨_, rfl, h.embed nextOdd_eq_nextLevel .rtl, fun h => absurd (by decide) h⟩
  case LRO => exact ⟨_, rfl, h.embed nextEven_eq_nextLevel .ltr, fun h => absurd (by decide) h⟩
  case PDF => exact ⟨_, rfl, h.x7 hfits, fun h => absurd (by decide) h⟩
  case PDI =>
    obtain ⟨b', hx6a, hsim, hstores⟩ := h.x6a hfits hbuffer hlevels
    exact ⟨b', hx6a, hsim, fun _ => hstores⟩
  case RLI =>
    obtain ⟨hsim, hstores⟩ := h.initiate_spec nextOdd_eq_nextLevel byteOf_nextLevel_odd hbuffer
      hlevels hfits
    exact ⟨_, rfl, hsim, fun _ => hstores⟩
  case LRI =>
    obtain ⟨hsim, hstores⟩ := h.initiate_spec nextEven_eq_nextLevel byteOf_nextLevel_even hbuffer
      hlevels hfits
    exact ⟨_, rfl, hsim, fun _ => hstores⟩
  case FSI =>
    -- the level is that of the text up to the end of the isolate
    have hlevel := p2_eq_insideIsolate hrest
    have hle := paragraphLevel_le (insideIsolate 0 (b.buffer.drop (b.currentChar + 1)))
    have hbuffer' : (b.toLevel b.stackNum).buffer[(b.toLevel b.stackNum).currentChar]? =
        some .FSI := hbuffer
    have hlevels' : (b.toLevel b.stackNum).currentChar < (b.toLevel b.stackNum).levels.length :=
      hlevels.trans_eq List.length_set.symm
    refine ⟨b.x5c, rfl, ?_⟩
    have hx5c : b.x5c = if p2 (b.buffer.drop (b.currentChar + 1)) ≠ 0
        then (b.toLevel b.stackNum).x5a else (b.toLevel b.stackNum).x5b := rfl
    rw [hx5c, Machine.step, ← hlevel]
    rw [← hlevel] at hle
    by_cases hzero : p2 (b.buffer.drop (b.currentChar + 1)) = 0
    · obtain ⟨hsim, hstores⟩ := (h.toLevel b.stackNum).initiate_spec nextEven_eq_nextLevel
        byteOf_nextLevel_even hbuffer' hlevels' hfits
      rw [if_neg (not_not.2 hzero), hzero]
      exact ⟨hsim, fun _ => hstores⟩
    · obtain ⟨hsim, hstores⟩ := (h.toLevel b.stackNum).initiate_spec nextOdd_eq_nextLevel
        byteOf_nextLevel_odd hbuffer' hlevels' hfits
      have hone : p2 (b.buffer.drop (b.currentChar + 1)) = 1 := by omega
      rw [if_pos hzero, hone]
      exact ⟨hsim, fun _ => hstores⟩
  case BN => exact ⟨_, rfl, h.x6, fun h => absurd (by decide) h⟩
  all_goals exact ⟨_, rfl, h.x6, fun _ => h.x6_stores hbuffer hlevels hfits⟩

end Sim

/-! ## The paragraph -/

variable {cs : List BidiClass} {data : List Nat} {level : Nat}

/-- The state in front of the text -/
theorem Sim.start (hlevel : level ≤ 1) (cs : List BidiClass) (data : List Nat) :
    Sim (start level cs data) (Machine.initial level) where
  stacked := .start level hlevel rfl rfl
  nonempty := List.cons_ne_nil _ _
  overflowIsolate := rfl
  overflowEmbedded := rfl
  two_le hne := absurd rfl hne
  valid := rfl
  isolate := Nat.le_refl 0
  neutral e he hisolate := by
    rw [List.mem_singleton.1 he]
  bottom e he := by
    cases he
    exact ⟨rfl, rfl, hlevel⟩

/-- Every character fits. -/
def StepsFit (level : Nat) (cs : List BidiClass) (data : List Nat) : Prop :=
  ∀ k c b, cs[k]? = some c → State.restLoop k (start level cs data) = some b →
    Sim.StepFits c b (Machine.after level cs k)

/-- The first characters of a text whose steps fit -/
theorem Sim.restLoop (hB : ∀ c ∈ cs, c ≠ .B) (hlevel : level ≤ 1) (hfits : StepsFit level cs data)
    (hk : k ≤ cs.length) :
    ∃ b, State.restLoop k (Bidi.start level cs data) = some b ∧ Sim b (Machine.after level cs k) ∧
      ∀ j c, j < k → cs[j]? = some c → ¬c.IsRemoved →
        Stores j b (standard level cs j c) := by
  induction k with
  | zero => exact ⟨_, rfl, .start hlevel cs data, fun j c hj => absurd hj (Nat.not_lt_zero j)⟩
  | succ k ih =>
    obtain ⟨b, hrun, hsim, hstored⟩ := ih (Nat.le_of_succ_le hk)
    have hc := List.getElem?_eq_getElem hk
    obtain ⟨hbuffer, -, hlength⟩ := restLoop_frame hrun
    have hdrop : b.buffer.drop (k + 1) = cs.drop (k + 1) := by
      refine List.ext_getElem? fun i => ?_
      rw [List.getElem?_drop, List.getElem?_drop]
      exact hbuffer _ (by omega)
    have hlevels : k < b.levels.length := by
      rw [hlength]
      exact hk.trans_eq List.length_replicate.symm
    have hsim' : Sim { b with currentChar := k } (Machine.after level cs k) :=
      hsim.congr rfl rfl rfl rfl rfl
    have hrest : ∀ d ∈ b.buffer.drop (k + 1), d ≠ .B := fun d hd =>
      hB d (List.mem_of_mem_drop (hdrop ▸ hd))
    obtain ⟨b', hmatch, hafter, hstores⟩ := hsim'.step (hB _ (List.getElem_mem hk))
      (hfits k _ b hc hrun) ((hbuffer k (Nat.le_refl k)).trans hc) hlevels hrest
    have hstep := (step_eq hrun hc).trans hmatch
    have hframe := Frame.xMatch (k := k) rfl hmatch
    dsimp only at hafter hstores
    rw [hdrop] at hafter hstores
    refine ⟨b', hstep, ?_, fun j c hj hc' hcompared => ?_⟩
    · rw [Machine.after, hc]
      exact hafter
    · rcases Nat.lt_succ_iff_lt_or_eq.1 hj with hlt | rfl
      · obtain ⟨hlevel', hbuffer'⟩ := hstored j c hlt hc' hcompared
        exact ⟨(hframe.levels j hlt.ne).trans hlevel', (hframe.buffer j hlt.ne).trans hbuffer'⟩
      · cases hc.symm.trans hc'
        exact hstores hcompared

/-- The paragraph level is that of the standard, and behind {lit}`x8` so are the levels and classes of
all characters that the standard does not remove. -/
def FollowsStandard (cs : List BidiClass) (data : List Nat) : Prop :=
  p2 cs = paragraphLevel cs ∧
    ∃ b, State.restLoop cs.length (start (p2 cs) cs data) = some b ∧
      ∀ k c, cs[k]? = some c → ¬c.IsRemoved →
        Sim.Stores k b.x8 (standard (paragraphLevel cs) cs k c)

/-- No unmatched end of an isolate is in front of the character that gives the paragraph level, and
every character fits. -/
structure ParagraphFits (cs : List BidiClass) (data : List Nat) : Prop where
  level : leavesAtPDI 0 cs = true → paragraphLevel cs = 0
  steps : StepsFit (p2 cs) cs data

/-- The rules follow the standard in a paragraph that fits. -/
theorem followsStandard_of_fits (hB : ∀ c ∈ cs, c ≠ .B) (hfits : ParagraphFits cs data) :
    FollowsStandard cs data := by
  have hlevel := (p2_eq hB).2 hfits.level
  have hle : p2 cs ≤ 1 := p2Loop_le 0 cs
  obtain ⟨b, hrun, -, hstores⟩ := Sim.restLoop hB hle hfits.steps (Nat.le_refl _)
  refine ⟨hlevel, b, hrun, fun k c hc hcompared => ?_⟩
  obtain ⟨hk, -⟩ := List.getElem?_eq_some_iff.1 hc
  have hstore := hstores k c hk hc hcompared
  have hframe := Frame.x8 (k + 1) b
  rw [hlevel] at hstore
  exact ⟨(hframe.levels k k.lt_succ_self.ne).trans hstore.level,
    (hframe.buffer k k.lt_succ_self.ne).trans hstore.buffer⟩

/-- A left-to-right text with a right-to-left isolate -/
theorem followsStandard_isolate :
    (∀ c ∈ [.L, .RLI, .R, .PDI], c ≠ BidiClass.B) ∧ ParagraphFits [.L, .RLI, .R, .PDI] [] ∧
      FollowsStandard [.L, .RLI, .R, .PDI] [] := by
  have hB : ∀ c ∈ [.L, .RLI, .R, .PDI], c ≠ BidiClass.B := by decide
  have hfits : ParagraphFits [.L, .RLI, .R, .PDI] [] := by
    refine ⟨by decide, fun k c b hc _ => ?_⟩
    rcases k with _ | _ | _ | _ | k
    · cases hc
      exact (by decide : (Machine.initial 0).top.isolate = true → BidiClass.L = levelClass 0)
    · cases hc
      exact (by decide : (Machine.initial 0).top.isolate = true → BidiClass.RLI = levelClass 0)
    · cases hc
      exact fun _ => rfl
    · cases hc
      rw [Sim.StepFits, Sim.EndFits, if_neg (by decide), if_pos (by decide)]
      decide
    · cases hc
  exact ⟨hB, hfits, followsStandard_of_fits hB hfits⟩

/-- What is stored for one character in a text that follows the standard -/
theorem FollowsStandard.stores {cs : List BidiClass} {data : List Nat}
    (h : FollowsStandard cs data) {k : Nat} {c : BidiClass} (hc : cs[k]? = some c)
    (hcompared : ¬c.IsRemoved) :
    (State.restLoop cs.length (start (p2 cs) cs data)).map
        (fun b => (b.x8.levels[k]?, b.x8.buffer[k]?)) =
      some (some (standard (paragraphLevel cs) cs k c).1,
        some (standard (paragraphLevel cs) cs k c).2) := by
  obtain ⟨-, b, hrun, hstores⟩ := h
  obtain ⟨hlevel, hbuffer⟩ := hstores k c hc hcompared
  rw [hrun, Option.map_some, hlevel, hbuffer]

/-- An unmatched end of an isolate in front of a right-to-left paragraph, a left-to-right character
in a right-to-left isolate, the end of an embedding in a right-to-left paragraph without one, a second
end of an isolate in an embedding, and an unmatched end of an isolate in an override -/
theorem not_followsStandard :
    ¬FollowsStandard [.PDI, .R] [] ∧ ¬FollowsStandard [.RLI, .L, .PDI] [] ∧
      ¬FollowsStandard [.R, .PDF, .R] [] ∧
      ¬FollowsStandard [.L, .LRI, .PDI, .RLE, .PDI, .R] [] ∧
      ¬FollowsStandard [.L, .RLO, .PDI] [] :=
  ⟨fun h => absurd h.1 (by decide +kernel),
    fun h => absurd (h.stores (k := 1) rfl (by decide)) (by decide +kernel),
    fun h => absurd (h.stores (k := 2) rfl (by decide)) (by decide +kernel),
    fun h => absurd (h.stores (k := 5) rfl (by decide)) (by decide +kernel),
    fun h => absurd (h.stores (k := 2) rfl (by decide)) (by decide +kernel)⟩

end Bidi
end Gforth
