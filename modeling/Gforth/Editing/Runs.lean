import Gforth.Editing.Insertions

/-!
# Runs of editing commands

Every command does in the buffer what it does on a list of characters with a cursor, or the text does
not fit, except for the exchange at the end of a single character.

Main results:

- Theorem {lit}`Shows.run`: one command.
- Theorem {lit}`reaches_shows`: all commands in all lines that are reached.
-/

namespace Gforth
namespace Editing

open Lib
open Memory
open Utf8
open Numbers
open Characters

variable {w : Nat} {e e₀ e' : Editor w} {a a₀ : Cursor} {sys : System w} {c : Command}

/-! ## Single commands -/

/-- The inserted characters are code points, and strings are as short as anything in memory. -/
def Command.Admissible (w : Nat) : Command → Prop
  | xins xc => xc ≤ lastCodePoint
  | xinsString xcs => (∀ n ∈ xcs, n ≤ lastCodePoint) ∧ bytes xcs < 2 ^ (w - 1)
  | _ => True

theorem Shows.xfirstPos (h : Shows e a) : Shows e.xfirstPos (a.retreat []) :=
  h.retreat (List.nil_prefix)

theorem Shows.xendPos (h : Shows e a) : Shows e.xendPos (a.advance []) := by
  have hadvance := h.advance (r := []) (List.nil_suffix)
  rwa [List.length_nil, Nat.sub_zero, List.take_length, bytes_append, ← h.span] at hadvance

/-- {lit}`<xdel>` -/
theorem Shows.xdelRight (hw : 21 ≤ w) (hsys : Enough sys) (h : Shows e a) (modifier : Bool) :
    ∃ e', e.xdelRight sys modifier = some e' ∧ Shows e' (a.step (.xdelRight modifier)) ∧
      Keeps e e' := by
  obtain ⟨l, r, ms⟩ := a
  rw [Editor.xdelRight, Cursor.step]
  cases modifier with
  | true =>
    simp only [if_true]
    exact h.qxdel hw hsys true
  | false =>
    simp only [Bool.false_eq_true, if_false]
    cases r with
    | nil =>
      have hspan : e.span = e.pos := by
        rw [h.span, h.pos]
        rfl
      rw [if_neg (not_not.2 hspan)]
      exact ⟨e, rfl, h, Keeps.refl e⟩
    | cons n r =>
      have hspan : e.span ≠ e.pos := by
        have hlt := h.lt
        have hsize := size_pos n
        have hcons := bytes_cons n r
        dsimp only at hlt
        rw [h.span, h.pos, ne_eq, cell_eq_cell hw hlt (by dsimp only; omega)]
        dsimp only
        omega
      obtain ⟨e₁, hforw, hshows, hkeeps, -, -⟩ := h.xforw hw hsys false
      have hadvance : Cursor.advance (Cursor.rest false ⟨l, n :: r, ms⟩) ⟨l, n :: r, ms⟩ =
          ⟨l ++ [n], r, ms⟩ := by
        simp [Cursor.advance, Cursor.rest]
      rw [hadvance] at hshows
      obtain ⟨e₂, hdel, hshows', hkeeps'⟩ := hshows.xdel hw hsys
      rw [if_pos hspan, hforw, Option.bind_some, hdel]
      exact ⟨e₂, rfl, hshows', hkeeps.trans hkeeps'⟩

theorem Outcome.of_exists {r : Option (Editor w)}
    (h : ∃ e', r = some e' ∧ Shows e' a ∧ Keeps e e') : Outcome sys e a r := by
  obtain ⟨e', rfl, hshows, hkeeps⟩ := h
  exact .kept hshows hkeeps

/-- One command does what it does on a list of characters. -/
theorem Shows.run (hw : 21 ≤ w) (hsys : Enough sys) (hresizes : Resizes sys) (h : Shows e a)
    (hc : c.Admissible w) (hexchanges : c = .xtranspose → a.Exchanges) :
    Outcome sys e (a.step c) (c.run sys e) := by
  cases c with
  | xins xc => exact h.xins hw hresizes hc
  | xinsString xcs => exact h.xinsString hw hresizes hc.1 hc.2
  | xpaste => exact h.xpaste hw hresizes
  | xback modifier => exact .of_exists (h.xback hw hsys modifier)
  | xforw modifier =>
    obtain ⟨e', hrun, hshows, hkeeps, -, -⟩ := h.xforw hw hsys modifier
    exact .of_exists ⟨e', hrun, hshows, hkeeps⟩
  | qxdel modifier => exact .of_exists (h.qxdel hw hsys modifier)
  | xdelRight modifier => exact .of_exists (h.xdelRight hw hsys modifier)
  | xfirstPos => exact .kept h.xfirstPos (Keeps.setPos e _)
  | xendPos => exact .kept h.xendPos (Keeps.setPos e _)
  | xclearRest => exact .kept (h.xclearRest hw).1 (h.xclearRest hw).2
  | xclearFirst => exact .kept (h.xclearFirst hw).1 (h.xclearFirst hw).2
  | xtranspose => exact .of_exists (h.xtranspose hw hsys hresizes (hexchanges rfl))
  | xdelw modifier => exact .of_exists (h.xdelw hw hsys modifier)

/-! ## Runs -/

/-- The cursor is in the text, and the text is in the buffer. -/
theorem Shows.bounds (hw : 21 ≤ w) (h : Shows e a) :
    0 ≤ e.pos.toInt ∧ e.pos.toInt ≤ e.span.toInt ∧ e.span.toInt ≤ e.max.toInt := by
  have hlt := h.lt
  have hle := h.le
  have hmax : e.max.toInt = e.max.toNat := by
    rw [BitVec.toInt_eq_toNat_of_lt]
    have hpow := two_pow_pred hw
    have hmax := h.max_lt
    omega
  rw [h.pos, h.span, toInt_cell hw (by omega), toInt_cell hw hlt, hmax]
  omega

/-- The exchange is possible in front of the end of the line. -/
theorem Shows.exchanges (h : Shows e a) (hne : e.pos ≠ e.span) : a.Exchanges := by
  rintro ⟨-, hright⟩
  refine hne ?_
  rw [h.pos, h.span, hright]
  rfl

/-- Lines that are reached by commands that do not exchange at the end of a single character -/
inductive Reaches (sys : System w) (e₀ : Editor w) : Editor w → Prop
  | refl : Reaches sys e₀ e₀
  | step {e e' : Editor w} {c : Command} : Reaches sys e₀ e → c.Admissible w →
      (c = .xtranspose → ∀ a, Shows e a → a.Exchanges) → c.run sys e = some e' → Reaches sys e₀ e'

/-- Every line that is reached is a line of characters with a cursor in a buffer. -/
theorem Reaches.shows (hw : 21 ≤ w) (hsys : Enough sys) (hresizes : Resizes sys)
    (h : Reaches sys e₀ e) (hshows : Shows e₀ a₀) : ∃ a, Shows e a := by
  induction h with
  | refl => exact ⟨a₀, hshows⟩
  | step hreach hc hexchanges hrun ih =>
    obtain ⟨a, ha⟩ := ih
    have houtcome := ha.run hw hsys hresizes hc fun heq => hexchanges heq a ha
    rw [hrun] at houtcome
    cases houtcome with
    | kept hshows _ => exact ⟨_, hshows⟩
    | grown _ hshows _ => exact ⟨_, hshows⟩
    | full _ _ => exact ⟨a, ha⟩

/-- In every line that is reached, the next command does what it does on a list of characters with a
cursor, or the text does not fit. -/
theorem reaches_shows (hw : 21 ≤ w) (hsys : Enough sys) (hresizes : Resizes sys)
    (hshows : Shows e₀ a₀) (h : Reaches sys e₀ e) :
    (0 ≤ e.pos.toInt ∧ e.pos.toInt ≤ e.span.toInt ∧ e.span.toInt ≤ e.max.toInt) ∧
    ∃ a, Shows e a ∧ ∀ c, c.Admissible w → (c = .xtranspose → a.Exchanges) →
      Outcome sys e (a.step c) (c.run sys e) := by
  obtain ⟨a, ha⟩ := h.shows hw hsys hresizes hshows
  exact ⟨ha.bounds hw, a, ha, fun c hc hexchanges => ha.run hw hsys hresizes hc hexchanges⟩

/-! ## A word and a single character -/

/-- A system that resizes blocks in their places -/
def placing : System 64 where
  order := .little
  resize mem addr _ new := if new.toNat < 2 ^ 63 then some (mem, addr) else none
  fuel := 2 ^ 64

/-- A word with two letters in the wrong order, in a buffer of sixteen bytes -/
def misspelt : Editor 64 where
  mem := store (fun _ => 0#8) 0x1000#64 (encodeAll [0x71, 0x69, 0xFC, 0x63, 0x6B])
  max := 16#64
  span := 6#64
  addr := 0x1000#64
  pos := 6#64
  tib := 0x2000#64
  maxTib := 256#64
  paste := []

/-- The character {lit}`a` in a buffer of four bytes, with the cursor behind it -/
def single : Editor 64 where
  mem b := if b = 0x1000#64 then 0x61#8 else 0#8
  max := 4#64
  span := 1#64
  addr := 0x1000#64
  pos := 1#64
  tib := 0x2000#64
  maxTib := 256#64
  paste := []

/-- The blocks that are resized in their places keep their bytes. -/
theorem placing_resizes : Resizes placing where
  lt {mem addr old new r} h := by
    dsimp only [placing] at h
    split at h
    · assumption
    · nomatch h
  text {mem addr old new r} h n _ _ := by
    dsimp only [placing] at h
    split at h
    · obtain rfl := Option.some.inj h
      rfl
    · nomatch h

/-- The word with the cursor behind it -/
theorem misspelt_shows : Shows misspelt ⟨[0x71, 0x69, 0xFC, 0x63, 0x6B], [], []⟩ where
  holds := ⟨by decide, by decide⟩
  span := by decide
  pos := by decide
  le := by decide
  max_lt := by decide
  paste := by decide
  codes := by decide
  pasted_lt := by decide
  tib := by decide

/-- The letters are exchanged, and a character is inserted behind the word. -/
theorem reaches_shows_misspelt :
    ∃ e, (Reaches placing misspelt e ∧ e.pos = 7#64 ∧ e.span = 7#64) ∧
      (0 ≤ e.pos.toInt ∧ e.pos.toInt ≤ e.span.toInt ∧ e.span.toInt ≤ e.max.toInt) ∧
      ∃ a, Shows e a ∧ ∀ c : Command, c.Admissible 64 → (c = .xtranspose → a.Exchanges) →
        Outcome placing e (a.step c) (c.run placing e) := by
  have hfirst : Reaches placing misspelt _ := .step (c := .xfirstPos) .refl trivial nofun rfl
  have hforw := Reaches.step (c := .xforw false) hfirst trivial nofun rfl
  have hforw' := Reaches.step (c := .xforw false) hforw trivial nofun rfl
  have htranspose := Reaches.step (c := .xtranspose) hforw' trivial
    (fun _ a ha => ha.exchanges (by decide)) rfl
  have hend := Reaches.step (c := .xendPos) htranspose trivial nofun rfl
  have hins := Reaches.step (c := .xins 0x21) hend (by decide : 0x21 ≤ lastCodePoint) nofun rfl
  exact ⟨_, ⟨hins, by decide +kernel, by decide +kernel⟩,
    reaches_shows (by decide) (Nat.le_refl (2 ^ 64)) placing_resizes misspelt_shows hins⟩

/-- The character with the cursor behind it -/
theorem single_shows : Shows single ⟨[0x61], [], []⟩ where
  holds := ⟨by decide, by decide⟩
  span := by decide
  pos := by decide
  le := by decide
  max_lt := by decide
  paste := by decide
  codes := by decide
  pasted_lt := by decide
  tib := by decide

/-- {lit}`xtranspose` behind a single character stores the character in front of the buffer. -/
theorem not_outcome_single : Shows single ⟨[0x61], [], []⟩ ∧
    ¬Outcome placing single (Cursor.step .xtranspose ⟨[0x61], [], []⟩)
      (Command.xtranspose.run placing single) := by
  refine ⟨single_shows, fun h => ?_⟩
  have hrun : (Command.xtranspose.run placing single).map (fun e => e.mem 0xFFF#64) =
      some 0x61#8 := by
    decide
  obtain ⟨e', heq, -, hkeeps⟩ := h.of_le (by decide)
  rw [heq, Option.map_some] at hrun
  have hkept := hkeeps.mem 0xFFF#64 (by
    rintro ⟨i, hi, heq⟩
    have hmax : single.max.toNat = 4 := rfl
    have hsum : 0xFFF = (0x1000 + i % 2 ^ 64) % 2 ^ 64 := congrArg BitVec.toNat heq
    omega)
  rw [Option.some.inj hrun] at hkept
  exact absurd hkept (by decide)

end Editing
end Gforth
