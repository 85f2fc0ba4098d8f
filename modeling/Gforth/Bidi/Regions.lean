import Gforth.Bidi.Explicit
import Gforth.Lib.Piles
import Mathlib.Order.Nat

/-!
# Isolated regions

The rules collect the regions of the text for each level, and put them into {lit}`iso-list[]` at the
end of an isolate, an embedding or a paragraph.  A region starts where the one before it stops, or
behind it, so that no character is in two regions.

Main results:

- Theorem {lit}`Marked.xMatch`: one character.
- Theorem {lit}`pairwise_apart_x8`: the regions of the text have no character in common.
-/

namespace Gforth
namespace Bidi

open Lib

/-- No character is in both regions. -/
def Region.Apart (r r' : Region) : Prop :=
  r.stop ≤ r'.start ∨ r'.stop ≤ r.start

/-- The regions in {lit}`iso-list[]`, and those in {lit}`iso-stack<>` -/
def State.piles (b : State) : Option Nat → List Region
  | none => b.isoList.flatten
  | some n => b.isoStack n

/-- The regions are apart, and none goes beyond a position. -/
structure Cut (m : Nat) (b : State) : Prop where
  apart : Piles.Related Region.Apart b.piles
  stop_le : ∀ i, ∀ r ∈ b.piles i, r.stop ≤ m

/-- The next region does not start before the others stop, and not behind the current character. -/
structure Marked (b : State) : Prop where
  cut : Cut b.isoStart b
  isoStart_le : b.isoStart ≤ b.currentChar

/-- The same regions and the same current character -/
structure SameRegions (b b' : State) : Prop where
  currentChar : b'.currentChar = b.currentChar
  isoStart : b'.isoStart = b.isoStart
  isoStack : b'.isoStack = b.isoStack
  isoList : b'.isoList = b.isoList

variable {b b' b'' : State} {k m n : Nat}

/-! ## Regions on the piles -/

namespace State

/-- {lit}`iso-stack>list` changes nothing but the regions. -/
theorem isoStackToList_eq (n : Nat) (b : State) :
    ∃ isoStack isoList,
      b.isoStackToList n = { b with isoStack := isoStack, isoList := isoList } := by
  rw [isoStackToList]
  split
  · exact ⟨_, _, rfl⟩
  · exact ⟨_, _, rfl⟩

/-- {lit}`x8` changes nothing but the regions when it empties the piles. -/
theorem foldl_isoStackToList_eq (is : List Nat) (b : State) :
    ∃ isoStack isoList, is.foldl (fun b i => b.isoStackToList i) b =
      { b with isoStack := isoStack, isoList := isoList } := by
  induction is generalizing b with
  | nil => exact ⟨_, _, rfl⟩
  | cons i is ih =>
    obtain ⟨isoStack, isoList, hfirst⟩ := b.isoStackToList_eq i
    obtain ⟨isoStack', isoList', hrest⟩ := ih (b.isoStackToList i)
    rw [hfirst] at hrest
    exact ⟨isoStack', isoList', by rw [List.foldl_cons, hfirst, hrest]⟩

/-- {lit}`iso-push` changes nothing but the regions. -/
theorem isoPush_eq (b : State) :
    ∃ isoStack isoList, b.isoPush = { b with isoStack := isoStack, isoList := isoList } := by
  obtain ⟨isoStack, isoList, hpush⟩ := b.isoUpdate.isoStackToList_eq b.stackNum
  rw [isoPush, hpush, isoUpdate]
  split
  · exact ⟨_, _, rfl⟩
  · exact ⟨_, _, rfl⟩

end State

/-- {lit}`iso-update` puts a region onto a pile. -/
theorem piles_isoUpdate (h : b.isoStart < b.currentChar) :
    b.isoUpdate.piles = Piles.add (some b.stackNum) ⟨b.isoStart, b.currentChar⟩ b.piles := by
  funext i
  rw [State.isoUpdate, if_pos h, Piles.add]
  cases i with
  | none => rfl
  | some n =>
    by_cases hn : n = b.stackNum
    · subst hn
      simp [State.piles]
    · simp [State.piles, hn]

/-- {lit}`iso-stack>list` puts a pile of {lit}`iso-stack<>` onto the list. -/
theorem piles_isoStackToList (h : b.isoStack n ≠ []) :
    (b.isoStackToList n).piles = Piles.move (some n) none b.piles := by
  funext i
  rw [State.isoStackToList, if_neg h, Piles.move]
  cases i with
  | none => simp [State.piles]
  | some j =>
    by_cases hj : j = n
    · subst hj
      simp [State.piles]
    · simp [State.piles, hj]

/-- A piece up to the current character -/
theorem Cut.isoUpdate (h : Cut b.isoStart b) (hle : b.isoStart ≤ b.currentChar) :
    Cut b.currentChar b.isoUpdate := by
  by_cases hlt : b.isoStart < b.currentChar
  · refine ⟨?_, fun i r hr => ?_⟩
    · rw [piles_isoUpdate hlt]
      exact h.apart.add fun j r hr => ⟨.inl (h.stop_le j r hr), .inr (h.stop_le j r hr)⟩
    · rw [piles_isoUpdate hlt, Piles.mem_add_iff] at hr
      rcases hr with hr | ⟨-, rfl⟩
      · exact (h.stop_le i r hr).trans hle
      · exact Nat.le_refl _
  · rw [State.isoUpdate, if_neg hlt]
    exact ⟨h.apart, fun i r hr => (h.stop_le i r hr).trans hle⟩

/-- A pile that is put onto the list -/
theorem Cut.isoStackToList (h : Cut m b) (n : Nat) : Cut m (b.isoStackToList n) := by
  by_cases hnil : b.isoStack n = []
  · rw [State.isoStackToList, if_pos hnil]
    exact h
  · refine ⟨?_, fun i r hr => ?_⟩
    · rw [piles_isoStackToList hnil]
      exact h.apart.move nofun
    · rw [piles_isoStackToList hnil] at hr
      obtain ⟨j, hj⟩ := Piles.exists_mem_of_mem_move hr
      exact h.stop_le j r hj

/-- All piles that are put onto the list -/
theorem Cut.foldl_isoStackToList (h : Cut m b) (is : List Nat) :
    Cut m (is.foldl (fun b i => b.isoStackToList i) b) := by
  induction is generalizing b with
  | nil => exact h
  | cons i is ih => exact ih (h.isoStackToList i)

/-- Regions that do not change -/
theorem Cut.congr (h : Cut m b) (hstack : b'.isoStack = b.isoStack)
    (hlist : b'.isoList = b.isoList) : Cut m b' := by
  have hpiles : b'.piles = b.piles := by
    funext i
    cases i with
    | none => exact congrArg List.flatten hlist
    | some n => exact congrFun hstack n
  exact ⟨hpiles ▸ h.apart, fun i r hr => h.stop_le i r (hpiles ▸ hr)⟩

namespace SameRegions

theorem refl (b : State) : SameRegions b b :=
  ⟨rfl, rfl, rfl, rfl⟩

theorem trans (h : SameRegions b b') (h' : SameRegions b' b'') : SameRegions b b'' :=
  ⟨h'.currentChar.trans h.currentChar, h'.isoStart.trans h.isoStart,
    h'.isoStack.trans h.isoStack, h'.isoList.trans h.isoList⟩

/-- {lit}`x6` only stores a class and a level. -/
theorem x6 (b : State) : SameRegions b b.x6 := by
  rw [State.x6, State.changeCurrentChar]
  split
  · exact ⟨rfl, rfl, rfl, rfl⟩
  · split
    · exact ⟨rfl, rfl, rfl, rfl⟩
    · exact ⟨rfl, rfl, rfl, rfl⟩

/-- Embeddings do not cut the text. -/
theorem embed (next : Nat → Nat) (entry : Nat) (b : State) :
    SameRegions b (b.embed next entry) := by
  rw [State.embed]
  split
  · exact ⟨rfl, rfl, rfl, rfl⟩
  · exact ⟨rfl, rfl, rfl, rfl⟩

theorem x3 (b : State) : SameRegions b b.x3 := by
  rw [State.x3]
  dsimp only
  split
  · exact ⟨rfl, rfl, rfl, rfl⟩
  · exact ⟨rfl, rfl, rfl, rfl⟩

/-- Beginnings of isolates do not cut the text. -/
theorem initiate (next : Nat → Nat) (entry : Nat) (b : State) :
    SameRegions b (b.initiate next entry) := by
  refine (x6 b).trans ?_
  rw [State.initiate]
  dsimp only
  split
  · exact ⟨rfl, rfl, rfl, rfl⟩
  · exact ⟨rfl, rfl, rfl, rfl⟩

theorem x5c (b : State) : SameRegions b b.x5c := by
  have hlevel : SameRegions b (b.toLevel b.stackNum) := ⟨rfl, rfl, rfl, rfl⟩
  rw [State.x5c]
  split
  · exact hlevel.trans (initiate nextOdd rtl _)
  · exact hlevel.trans (initiate nextEven ltr _)

end SameRegions

/-! ## Characters -/

/-- States with the same regions -/
theorem Marked.congr (h : Marked b) (hsame : SameRegions b b') : Marked b' where
  cut := by
    rw [hsame.isoStart]
    exact h.cut.congr hsame.isoStack hsame.isoList
  isoStart_le := by
    rw [hsame.isoStart, hsame.currentChar]
    exact h.isoStart_le

theorem Marked.goOn (h : Marked b) (hle : b.currentChar ≤ k) :
    Marked { b with currentChar := k } :=
  ⟨h.cut.congr rfl rfl, h.isoStart_le.trans hle⟩

theorem Marked.isoPush (h : Marked b) : Cut b.currentChar b.isoPush :=
  (h.cut.isoUpdate h.isoStart_le).isoStackToList b.stackNum

theorem Cut.startIso (h : Cut m b) (hle : m ≤ b.currentChar) : Marked b.startIso :=
  ⟨⟨h.apart, fun i r hr => (h.stop_le i r hr).trans hle⟩, Nat.le_refl _⟩

theorem currentChar_startIso (b : State) : b.startIso.currentChar = b.currentChar :=
  rfl

theorem currentChar_isoPush (b : State) : b.isoPush.currentChar = b.currentChar := by
  obtain ⟨isoStack, isoList, hpush⟩ := b.isoPush_eq
  rw [hpush]

/-- {lit}`x8` goes to the next character. -/
theorem currentChar_x8 (b : State) : b.x8.currentChar = b.currentChar + 1 := by
  have hchar := currentChar_isoPush { b with currentChar := b.currentChar + 1 }
  rw [State.x8]
  generalize { b with currentChar := b.currentChar + 1 }.isoPush = c at hchar
  obtain ⟨isoStack, isoList, hfold⟩ := State.foldl_isoStackToList_eq (List.range (maxDepth + 1))
    (c.x1Rest (p2 (c.buffer.drop c.currentChar)))
  rw [hfold]
  exact hchar

/-- The end of an isolate is the first character of the next region. -/
theorem Marked.x6a (h : Marked b) (hb : b.x6a = some b') :
    Marked b' ∧ b'.currentChar = b.currentChar := by
  rw [State.x6a] at hb
  split at hb
  · cases hb
    exact ⟨h.congr ⟨rfl, rfl, rfl, rfl⟩, rfl⟩
  · split at hb
    · cases hb
      exact ⟨h.congr ⟨rfl, rfl, rfl, rfl⟩, rfl⟩
    · obtain ⟨⟨num, stack⟩, -, rfl⟩ := Option.map_eq_some_iff.1 hb
      have hclosed : Marked
          { b.toLevel b.stackNum with overflowEmbedded := 0, stackNum := num, stack := stack } :=
        h.congr ⟨rfl, rfl, rfl, rfl⟩
      have hpush := hclosed.isoPush.startIso (currentChar_isoPush _).ge
      exact ⟨hpush.congr (.x6 _), (SameRegions.x6 _).currentChar.trans (currentChar_isoPush _)⟩

/-- The end of an embedding belongs to no region. -/
theorem Marked.x7 (h : Marked b) : Marked b.x7 ∧ b.x7.currentChar ≤ b.currentChar + 1 := by
  have hskip : ∀ c : State, Marked c →
      Marked { c.isoPush with currentChar := c.isoPush.currentChar + 1 }.startIso := fun c hc =>
    Cut.startIso (hc.isoPush.congr rfl rfl)
      ((currentChar_isoPush c).ge.trans (Nat.le_succ c.isoPush.currentChar))
  rw [State.x7]
  split
  · exact ⟨h, Nat.le_succ _⟩
  · split
    · exact ⟨h.congr ⟨rfl, rfl, rfl, rfl⟩, Nat.le_succ _⟩
    · dsimp only
      split
      · exact ⟨hskip b.pop (h.congr ⟨rfl, rfl, rfl, rfl⟩),
          Nat.succ_le_succ (currentChar_isoPush b.pop).le⟩
      · exact ⟨hskip b h, Nat.succ_le_succ (currentChar_isoPush b).le⟩

/-- The end of a paragraph belongs to the region in front of it. -/
theorem Marked.x8 (h : Marked b) : Marked b.x8 := by
  have hpush := (h.goOn (Nat.le_succ b.currentChar)).isoPush
  have hnext := currentChar_x8 b
  rw [State.x8] at hnext ⊢
  dsimp only at hpush
  rw [currentChar_startIso] at hnext
  generalize { b with currentChar := b.currentChar + 1 }.isoPush = c at hpush hnext ⊢
  have hrest : Cut (b.currentChar + 1) (c.x1Rest (p2 (c.buffer.drop c.currentChar))) :=
    hpush.congr rfl rfl
  have hlists := hrest.foldl_isoStackToList (List.range (maxDepth + 1))
  exact hlists.startIso hnext.ge

/-- One character -/
theorem Marked.xMatch {c : BidiClass} (h : Marked b) (hb : State.xMatch c b = some b') :
    Marked b' ∧ b'.currentChar ≤ b.currentChar + 1 := by
  have hsame : ∀ b'', SameRegions b b'' → some b'' = some b' →
      Marked b' ∧ b'.currentChar ≤ b.currentChar + 1 := by
    rintro b'' hsame ⟨⟩
    exact ⟨h.congr hsame, hsame.currentChar.le.trans (Nat.le_succ _)⟩
  cases c
  case RLE => exact hsame _ (.embed nextOdd neutral b) hb
  case LRE => exact hsame _ (.x3 b) hb
  case RLO => exact hsame _ (.embed nextOdd rtl b) hb
  case LRO => exact hsame _ (.embed nextEven ltr b) hb
  case RLI => exact hsame _ (.initiate nextOdd rtl b) hb
  case LRI => exact hsame _ (.initiate nextEven ltr b) hb
  case FSI => exact hsame _ (.x5c b) hb
  case PDI => exact (h.x6a hb).imp_right fun hchar => hchar.le.trans (Nat.le_succ _)
  case PDF =>
    cases hb
    exact h.x7
  case B =>
    rw [← Option.some.inj hb]
    exact ⟨h.x8, (currentChar_x8 b).le⟩
  all_goals exact hsame _ (.x6 b) hb

/-! ## The text -/

/-- The first characters of a text -/
theorem Marked.restLoop {level : Nat} {cs : List BidiClass} {data : List Nat}
    (hrun : State.restLoop k (start level cs data) = some b) :
    Marked b ∧ b.currentChar ≤ k := by
  induction k generalizing b with
  | zero =>
    cases hrun
    have hpiles : (start level cs data).piles = fun _ => [] := by
      funext i
      cases i <;> rfl
    exact ⟨⟨⟨hpiles ▸ .empty, fun i r hr => absurd (hpiles ▸ hr) List.not_mem_nil⟩,
      Nat.le_refl 0⟩, Nat.le_refl 0⟩
  | succ k ih =>
    obtain ⟨b₁, hfront, hstep⟩ := Option.bind_eq_some_iff.1 hrun
    obtain ⟨hmarked, hle⟩ := ih hfront
    rw [State.step] at hstep
    split at hstep
    · exact (hmarked.goOn hle).xMatch hstep
    · cases hstep
      exact ⟨hmarked, hle.trans (Nat.le_succ k)⟩

theorem pairwise_apart_x8 {level : Nat} {cs : List BidiClass} {data : List Nat}
    (hrun : State.restLoop k (start level cs data) = some b) :
    b.x8.isoList.flatten.Pairwise Region.Apart :=
  (Marked.restLoop hrun).1.x8.cut.apart.within none

end Bidi
end Gforth
