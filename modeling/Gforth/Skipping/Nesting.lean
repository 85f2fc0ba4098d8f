import Gforth.Skipping.Words

/-!
# Nested structures in skipped text

The text between {lit}`[IF]` and the word that balances it is nested.  The scan keeps its counter on
nested text, and a word that ends a structure which has not been begun in the text ends the scan.

Main results:

- Theorem {lit}`Nested.levelAfter`: nested text keeps the counter.
- Theorem {lit}`scanLoop_words`: the scan of words up to which it does not end.
- Theorem {lit}`skipping_correct`: skipping stops behind the balancing word, or at the end of the input.
-/

namespace Gforth
namespace Skipping

open Lib
open Hash (nameMatches)
open Numbers (ascii)

/-! ## Nested text -/

/-- A text whose structures are complete: each has its end, and a conditional can have an
{lit}`[ELSE]` -/
inductive Nested : List Kind → Prop
  | nil : Nested []
  | dummy {ks} : Nested ks → Nested (.dummy :: ks)
  | structure' {body ks} : Nested body → Nested ks → Nested (.opens :: (body ++ .closes :: ks))
  | ifElse {body body' ks} : Nested body → Nested body' → Nested ks →
      Nested (.opens :: (body ++ .else' :: (body' ++ .closes :: ks)))
  | whileRepeat {test body ks} : Nested test → Nested body → Nested ks →
      Nested (.opens :: (test ++ .opens :: (body ++ .repeat' :: ks)))

/-- The number of open structures after a word, unless it ends one that is not open -/
def Kind.level : Kind → Nat → Option Nat
  | .opens, n => some (n + 1)
  | .closes, n => if n = 0 then none else some (n - 1)
  | .else', n => if n = 0 then none else some n
  | .repeat', n => if n ≤ 1 then none else some (n - 2)
  | .dummy, n => some n

/-- The number of open structures after some words -/
def levelAfter : List Kind → Nat → Option Nat
  | [], n => some n
  | k :: ks, n => (k.level n).bind (levelAfter ks)

/-- Words are counted one after the other. -/
theorem levelAfter_append (ks ks' : List Kind) (n : Nat) :
    levelAfter (ks ++ ks') n = (levelAfter ks n).bind (levelAfter ks') := by
  induction ks generalizing n with
  | nil => rfl
  | cons k ks ih =>
    rw [List.cons_append, levelAfter, levelAfter]
    cases k.level n with
    | none => rfl
    | some m => exact ih m

/-- Nested text leaves as many structures open as there have been. -/
theorem Nested.levelAfter {ks : List Kind} (h : Nested ks) (n : Nat) :
    levelAfter ks n = some n := by
  induction h generalizing n with
  | nil => rfl
  | dummy _ ih => exact ih n
  | structure' _ _ ih ih' =>
    rw [Skipping.levelAfter, Kind.level, Option.bind_some, levelAfter_append, ih, Option.bind_some,
      Skipping.levelAfter, Kind.level, if_neg (Nat.succ_ne_zero n), Option.bind_some]
    exact ih' n
  | ifElse _ _ _ ih ih' ih'' =>
    rw [Skipping.levelAfter, Kind.level, Option.bind_some, levelAfter_append, ih, Option.bind_some,
      Skipping.levelAfter, Kind.level, if_neg (Nat.succ_ne_zero n), Option.bind_some,
      levelAfter_append, ih', Option.bind_some,
      Skipping.levelAfter, Kind.level, if_neg (Nat.succ_ne_zero n), Option.bind_some]
    exact ih'' n
  | whileRepeat _ _ _ ih ih' ih'' =>
    rw [Skipping.levelAfter, Kind.level, Option.bind_some, levelAfter_append, ih, Option.bind_some,
      Skipping.levelAfter, Kind.level, Option.bind_some, levelAfter_append, ih', Option.bind_some,
      Skipping.levelAfter, Kind.level, if_neg (by omega), Option.bind_some]
    exact ih'' n

/-- The beginning of a nested text -/
theorem exists_level_of_nested {ks more : List Kind} (h : Nested (ks ++ more)) (n : Nat) :
    ∃ m, levelAfter ks n = some m := by
  have hall := h.levelAfter n
  rw [levelAfter_append] at hall
  cases hks : levelAfter ks n with
  | none =>
    rw [hks] at hall
    cases hall
  | some m => exact ⟨m, rfl⟩

/-! ## Words that are executed -/

variable {s : State}

/-- The scan goes on, with some structures open. -/
structure Scanning (s : State) (n : Nat) : Prop where
  countif : s.countif = n
  endif : s.endif = false

/-- What the words that count leave alone -/
structure SameInput (s s' : State) : Prop where
  source : s'.source = s.source
  lexeme : s'.lexeme = s.lexeme
  loadline : s'.loadline = s.loadline
  loadfilename : s'.loadfilename = s.loadfilename
  warnings : s'.warnings = s.warnings

theorem SameInput.trans {s s' s'' : State} (h : SameInput s s') (h' : SameInput s' s'') :
    SameInput s s'' :=
  ⟨h'.source.trans h.source, h'.lexeme.trans h.lexeme, h'.loadline.trans h.loadline,
    h'.loadfilename.trans h.loadfilename, h'.warnings.trans h.warnings⟩

theorem sameInput_queryIf (s : State) (n : Int) : SameInput s (queryIf { s with countif := n }) := by
  rw [queryIf]
  split <;> exact ⟨rfl, rfl, rfl, rfl, rfl⟩

/-- Counting does not change the input. -/
theorem sameInput_execute (k : Kind) (s : State) : SameInput s (k.execute s) := by
  cases k with
  | opens | closes => exact sameInput_queryIf s _
  | else' | repeat' => exact (sameInput_queryIf s _).trans (sameInput_queryIf _ _)
  | dummy => exact ⟨rfl, rfl, rfl, rfl, rfl⟩

/-- A scan that has ended stays so. -/
theorem endif_queryIf_of_endif {s : State} (h : s.endif = true) : (queryIf s).endif = true := by
  rw [queryIf]
  split
  · rfl
  · exact h

variable {n : Nat} {l : List Byte} {ls : List (List Byte)}

/-- A word that opens a structure -/
theorem Scanning.opens (h : Scanning s n) : Scanning (scanIf s) (n + 1) := by
  have hn : ¬s.countif + 1 < 0 := by
    rw [h.countif]
    omega
  rw [scanIf, queryIf, if_neg hn]
  exact ⟨by rw [h.countif]; rfl, h.endif⟩

/-- A word that closes a structure -/
theorem Scanning.closes (h : Scanning s (n + 1)) : Scanning (scanThen s) n := by
  have hn : ¬s.countif + -1 < 0 := by
    rw [h.countif]
    omega
  rw [scanThen, queryIf, if_neg hn]
  refine ⟨?_, h.endif⟩
  change s.countif + -1 = n
  rw [h.countif]
  omega

/-- A word that closes nothing ends the scan. -/
theorem Scanning.closes_zero (h : Scanning s 0) : (scanThen s).endif = true := by
  have hn : s.countif + -1 < 0 := by
    rw [h.countif]
    omega
  rw [scanThen, queryIf, if_pos hn]

/-- A word that ends no structure that is not open -/
theorem Scanning.execute {n m : Nat} (h : Scanning s n) {k : Kind} (hk : k.level n = some m) :
    Scanning (k.execute s) m := by
  cases k with
  | opens =>
    cases hk
    exact h.opens
  | closes =>
    obtain ⟨hn, rfl⟩ : n ≠ 0 ∧ n - 1 = m := by simpa [Kind.level] using hk
    obtain ⟨n, rfl⟩ := Nat.exists_eq_succ_of_ne_zero hn
    exact h.closes
  | else' =>
    obtain ⟨hn, rfl⟩ : n ≠ 0 ∧ n = m := by simpa [Kind.level] using hk
    obtain ⟨n, rfl⟩ := Nat.exists_eq_succ_of_ne_zero hn
    exact h.closes.opens
  | repeat' =>
    obtain ⟨hn, rfl⟩ : 1 < n ∧ n - 2 = m := by simpa [Kind.level] using hk
    obtain ⟨n, rfl⟩ := Nat.exists_eq_add_of_le' hn
    exact h.closes.closes
  | dummy =>
    cases hk
    exact h

/-- A word that ends a structure that is not open -/
theorem Scanning.execute_end (h : Scanning s n) {k : Kind} (hk : k.level n = none) :
    (k.execute s).endif = true := by
  cases k with
  | opens | dummy => cases hk
  | closes =>
    obtain rfl : n = 0 := by simpa [Kind.level] using hk
    exact h.closes_zero
  | else' =>
    obtain rfl : n = 0 := by simpa [Kind.level] using hk
    exact endif_queryIf_of_endif h.closes_zero
  | repeat' =>
    have hn : n ≤ 1 := by simpa [Kind.level] using hk
    obtain rfl | rfl : n = 0 ∨ n = 1 := by omega
    · exact endif_queryIf_of_endif h.closes_zero
    · exact h.closes.closes_zero

/-! ## Words of the input -/

variable {isSpace : Byte → Bool} {w : List Byte} {ws : List (List Byte)}

/-- The lines that {lit}`refill` gets -/
def Source.lines (src : Source) : List (List Byte) :=
  if src.inputClass = .evaluate then [] else src.later

/-- The words of the rest of the input -/
def State.words (isSpace : Byte → Bool) (s : State) : List (List Byte) :=
  lineWords isSpace s.text ++ s.source.lines.flatMap (lineWords isSpace)

/-- The input has gone on, and what does not change with it is as before. -/
structure Later (s s' : State) : Prop where
  inputClass : s'.source.inputClass = s.source.inputClass
  lines : s'.source.line :: s'.source.lines <:+ s.source.line :: s.source.lines
  warnings : s'.warnings = s.warnings

/-- The place right behind a word -/
def State.Behind (s : State) (w : List Byte) : Prop :=
  ∃ front rest, s.source.line = front ++ (w ++ rest) ∧
    s.source.toIn = min (front.length + w.length + 1) s.source.line.length

theorem Later.refl (s : State) : Later s s :=
  ⟨rfl, List.suffix_rfl, rfl⟩

theorem Later.trans {s s' s'' : State} (h : Later s s') (h' : Later s' s'') : Later s s'' :=
  ⟨h'.inputClass.trans h.inputClass, h'.lines.trans h.lines, h'.warnings.trans h.warnings⟩

theorem SameInput.later {s s' : State} (h : SameInput s s') : Later s s' :=
  ⟨by rw [h.source], by rw [h.source], h.warnings⟩

theorem SameInput.words {s s' : State} (h : SameInput s s') :
    s'.words isSpace = s.words isSpace := by
  rw [State.words, State.words, State.text, State.text, h.source]

/-- A line that has been got -/
theorem refill_of_lines (h : s.source.lines = l :: ls) : refill s = (true, s.startLine l ls) := by
  rw [Source.lines] at h
  split at h
  · cases h
  · rename_i hclass
    rw [refill]
    split <;> simp_all

/-- At the end of the lines there is nothing to refill. -/
theorem refill_of_lines_nil (h : s.source.lines = []) :
    (refill s).1 = false ∧ ((refill s).2 = s ∨ (refill s).2 = s.startLine [] []) := by
  rw [Source.lines] at h
  rw [refill]
  split <;> simp_all

/-- The lines behind the next one -/
theorem lines_startLine (h : s.source.lines = l :: ls) : (s.startLine l ls).source.lines = ls := by
  rw [Source.lines] at h ⊢
  split at h
  · cases h
  · rename_i hclass
    exact if_neg hclass

theorem words_startLine (h : s.source.lines = l :: ls) :
    (s.startLine l ls).words isSpace = (s.source.lines).flatMap (lineWords isSpace) := by
  rw [State.words, lines_startLine h, h, List.flatMap_cons]
  rfl

/-- The next line is later. -/
theorem later_startLine (h : s.source.lines = l :: ls) : Later s (s.startLine l ls) := by
  refine ⟨rfl, ?_, rfl⟩
  rw [lines_startLine h, h]
  exact List.suffix_cons _ _

/-- The first word of the line is parsed. -/
theorem parseName_word (h : (parseName isSpace s).1 ≠ []) :
    lineWords isSpace s.text =
        (parseName isSpace s).1 :: lineWords isSpace (parseName isSpace s).2.text ∧
      (parseName isSpace s).2.Behind (parseName isSpace s).1 := by
  obtain ⟨sp, word, rest, hp⟩ := exists_parsed isSpace s.text
  rw [parseName_eq hp] at h ⊢
  refine ⟨?_, s.source.line.take s.source.toIn ++ sp, rest, ?_, ?_⟩
  · rw [hp.lineWords_cons h, text_advance]
  · rw [List.append_assoc, ← hp.eq]
    exact (List.take_append_drop _ _).symm
  · have := s.source.inLine
    rw [List.length_append, List.length_take, Nat.min_eq_left this]
    rfl

/-- Where no word is found, none is left in the line. -/
theorem parseName_nil (h : (parseName isSpace s).1 = []) :
    lineWords isSpace s.text = [] ∧ lineWords isSpace (parseName isSpace s).2.text = [] := by
  obtain ⟨sp, word, rest, hp⟩ := exists_parsed isSpace s.text
  rw [parseName_eq hp] at h ⊢
  obtain rfl : word = [] := h
  have hrest : rest = [] := hp.behind.resolve_right fun hne => hne.1 rfl
  refine ⟨hp.lineWords_nil, ?_⟩
  rw [text_advance, List.drop_of_length_le]
  · rfl
  · rw [hp.eq, hrest, List.append_nil, List.length_append, List.length_nil]
    omega

theorem later_parseName (s : State) : Later s (parseName isSpace s).2 :=
  ⟨rfl, List.suffix_rfl, rfl⟩

theorem lines_parseName (isSpace : Byte → Bool) (s : State) :
    (parseName isSpace s).2.source.lines = s.source.lines :=
  rfl

/-! ## Steps of the scan -/

/-- The scan executes the next word. -/
theorem scanLoop_of_word (h : (parseName isSpace s).1 ≠ []) :
    scanLoop isSpace s =
      if ((scanifR (parseName isSpace s).1).execute (parseName isSpace s).2).endif then
        (true, (scanifR (parseName isSpace s).1).execute (parseName isSpace s).2)
      else scanLoop isSpace ((scanifR (parseName isSpace s).1).execute (parseName isSpace s).2) := by
  rw [scanLoop]
  exact dif_neg h

/-- The scan goes to the next line. -/
theorem scanLoop_of_line (h : (parseName isSpace s).1 = []) (hend : s.endif = false)
    (hls : s.source.lines = l :: ls) :
    scanLoop isSpace s = scanLoop isSpace ((parseName isSpace s).2.startLine l ls) := by
  have hrefill := refill_of_lines ((lines_parseName isSpace s).trans hls)
  rw [scanLoop]
  dsimp only
  rw [dif_pos h, dif_pos (by rw [hrefill]), hrefill]
  exact if_neg (by rw [State.startLine]; exact fun htrue => Bool.noConfusion (hend.symm.trans htrue))

/-- The scan ends with the input. -/
theorem scanLoop_of_end (h : (parseName isSpace s).1 = []) (hls : s.source.lines = []) :
    scanLoop isSpace s = (false, (refill (parseName isSpace s).2).2) := by
  have hrefill := (refill_of_lines_nil ((lines_parseName isSpace s).trans hls)).1
  rw [scanLoop]
  dsimp only
  rw [dif_pos h, dif_neg (by rw [hrefill]; exact Bool.false_ne_true)]

theorem Scanning.parseName (h : Scanning s n) : Scanning (parseName isSpace s).2 n :=
  ⟨h.countif, h.endif⟩

theorem Scanning.startLine (h : Scanning s n) (l : List Byte) (ls : List (List Byte)) :
    Scanning (s.startLine l ls) n :=
  ⟨h.countif, h.endif⟩

theorem words_parseName (h : (parseName isSpace s).1 ≠ []) :
    s.words isSpace = (parseName isSpace s).1 :: (parseName isSpace s).2.words isSpace := by
  rw [State.words, (parseName_word h).1]
  rfl

/-- The scan executes the first word of the input, after it has got lines without words. -/
theorem scanLoop_word (h : Scanning s n) (hwords : s.words isSpace = w :: ws) :
    ∃ s₁, Later s s₁ ∧ s₁.Behind w ∧ s₁.words isSpace = ws ∧ Scanning s₁ n ∧
      scanLoop isSpace s =
        if ((scanifR w).execute s₁).endif then (true, (scanifR w).execute s₁)
        else scanLoop isSpace ((scanifR w).execute s₁) := by
  generalize hls : s.source.lines = ls
  induction ls generalizing s with
  | nil =>
    have hword : (parseName isSpace s).1 ≠ [] := fun hnil => by
      rw [State.words, (parseName_nil hnil).1, hls] at hwords
      cases hwords
    rw [words_parseName hword] at hwords
    cases hwords
    exact ⟨_, later_parseName s, (parseName_word hword).2, rfl, h.parseName, scanLoop_of_word hword⟩
  | cons l ls ih =>
    by_cases hword : (parseName isSpace s).1 = []
    · have hline := (lines_parseName isSpace s).trans hls
      have hwords' : ((parseName isSpace s).2.startLine l ls).words isSpace = w :: ws := by
        rw [words_startLine hline, ← hwords, State.words, (parseName_nil hword).1]
        rfl
      obtain ⟨s₁, hlater, hrest⟩ := ih (h.parseName.startLine l ls) hwords' (lines_startLine hline)
      refine ⟨s₁, ((later_parseName s).trans (later_startLine hline)).trans hlater, ?_⟩
      rw [scanLoop_of_line hword h.endif hls]
      exact hrest
    · rw [words_parseName hword] at hwords
      cases hwords
      exact ⟨_, later_parseName s, (parseName_word hword).2, rfl, h.parseName,
        scanLoop_of_word hword⟩

/-- The input ends without another word. -/
theorem scanLoop_end (h : Scanning s n) (hwords : s.words isSpace = []) :
    ∃ s₁, scanLoop isSpace s = (false, s₁) ∧ s₁.words isSpace = [] ∧ s₁.warnings = s.warnings := by
  generalize hls : s.source.lines = ls
  have hword : (parseName isSpace s).1 = [] := by
    by_contra hne
    rw [words_parseName hne] at hwords
    cases hwords
  induction ls generalizing s with
  | nil =>
    have hline := (lines_parseName isSpace s).trans hls
    refine ⟨_, scanLoop_of_end hword hls, ?_⟩
    rcases (refill_of_lines_nil hline).2 with hrefill | hrefill
    · rw [hrefill, State.words, (parseName_nil hword).2, hline]
      exact ⟨rfl, rfl⟩
    · rw [hrefill]
      refine ⟨?_, rfl⟩
      rw [State.words, Source.lines]
      split <;> rfl
  | cons l ls ih =>
    have hline := (lines_parseName isSpace s).trans hls
    have hwords' : ((parseName isSpace s).2.startLine l ls).words isSpace = [] := by
      rw [words_startLine hline]
      exact (List.append_eq_nil_iff.1 hwords).2
    have hword' : (parseName isSpace ((parseName isSpace s).2.startLine l ls)).1 = [] := by
      by_contra hne
      rw [words_parseName hne] at hwords'
      cases hwords'
    rw [scanLoop_of_line hword h.endif hls]
    exact ih (h.parseName.startLine l ls) hwords' (lines_startLine hline) hword'

/-! ## Runs of the scan -/

/-- The scan goes on behind words that end no structure that is not open. -/
theorem scanLoop_words {n m : Nat} {skipped rest : List (List Byte)} (h : Scanning s n)
    (hwords : s.words isSpace = skipped ++ rest)
    (hlevel : levelAfter (skipped.map scanifR) n = some m) :
    ∃ s₁, Later s s₁ ∧ s₁.words isSpace = rest ∧ Scanning s₁ m ∧
      scanLoop isSpace s = scanLoop isSpace s₁ := by
  induction skipped generalizing s n with
  | nil =>
    cases hlevel
    exact ⟨s, Later.refl s, hwords, h, rfl⟩
  | cons w skipped ih =>
    rw [List.map_cons, levelAfter] at hlevel
    cases hk : (scanifR w).level n with
    | none =>
      rw [hk] at hlevel
      cases hlevel
    | some k =>
      rw [hk, Option.bind_some] at hlevel
      obtain ⟨s₁, hlater, -, hwords₁, hscanning, hloop⟩ := scanLoop_word h hwords
      have hinput := sameInput_execute (scanifR w) s₁
      have hscanning := hscanning.execute hk
      obtain ⟨s₂, hlater₂, hrest⟩ := ih hscanning (hinput.words.trans hwords₁) hlevel
      refine ⟨s₂, (hlater.trans hinput.later).trans hlater₂, ?_⟩
      rw [hloop, if_neg (by rw [hscanning.endif]; exact Bool.false_ne_true)]
      exact hrest

/-- A word that ends the skipped text: {lit}`[ELSE]`, or the end of a structure -/
def Balances (k : Kind) : Prop :=
  k = .closes ∨ k = .else'

/-- The scan of a nested text and the word that balances it -/
theorem scanLoop_balanced {skipped rest : List (List Byte)} (h : Scanning s 0)
    (hwords : s.words isSpace = skipped ++ w :: rest) (hnested : Nested (skipped.map scanifR))
    (hw : Balances (scanifR w)) :
    ∃ s₁, scanLoop isSpace s = (true, s₁) ∧ Later s s₁ ∧ s₁.Behind w ∧ s₁.words isSpace = rest ∧
      s₁.endif = true := by
  obtain ⟨s₁, hlater₁, hwords₁, hscanning₁, hloop₁⟩ := scanLoop_words h hwords (hnested.levelAfter 0)
  obtain ⟨s₂, hlater₂, hbehind, hwords₂, hscanning₂, hloop₂⟩ := scanLoop_word hscanning₁ hwords₁
  have hinput := sameInput_execute (scanifR w) s₂
  have hend : ((scanifR w).execute s₂).endif = true := by
    refine hscanning₂.execute_end ?_
    rcases hw with hw | hw <;> rw [hw] <;> rfl
  refine ⟨_, ?_, (hlater₁.trans hlater₂).trans hinput.later, ?_, hinput.words.trans hwords₂, hend⟩
  · rw [hloop₁, hloop₂, if_pos hend]
  · rw [State.Behind, hinput.source]
    exact hbehind

/-- The scan of the beginning of a nested text -/
theorem scanLoop_unfinished {more : List Kind} (h : Scanning s 0)
    (hnested : Nested ((s.words isSpace).map scanifR ++ more)) :
    ∃ s₁, scanLoop isSpace s = (false, s₁) ∧ s₁.words isSpace = [] ∧ s₁.warnings = s.warnings := by
  obtain ⟨m, hm⟩ := exists_level_of_nested hnested 0
  obtain ⟨s₁, hlater₁, hwords₁, hscanning₁, hloop₁⟩ :=
    scanLoop_words h (List.append_nil _).symm hm
  obtain ⟨s₂, hloop₂, hwords₂, hwarnings⟩ := scanLoop_end hscanning₁ hwords₁
  exact ⟨s₂, hloop₁.trans hloop₂, hwords₂, hwarnings.trans hlater₁.warnings⟩

/-! ## Skipping -/

/-- The names of the words that count are found in any letter case. -/
theorem scanifR_congr {word word' : List Byte} (h : Hash.SameName word word') :
    scanifR word = scanifR word' := by
  have hmatches : ∀ name, nameMatches word name = nameMatches word' name := by
    intro name
    have hlength : word.length = word'.length := by
      simpa using congrArg List.length h
    rw [nameMatches, nameMatches, hlength]
    by_cases hname : name.length = word'.length
    · have h₁ := @Hash.memcasecmp_eq_zero_iff word _ (hname.trans hlength.symm)
      have h₂ := Hash.memcasecmp_eq_zero_iff hname
      rw [hlength] at h₁
      rw [decide_eq_decide.2 (h₁.trans (Iff.trans ?_ h₂.symm))]
      rw [Hash.SameName, Hash.SameName, h]
    · simp [hname]
  simp only [scanifR, hmatches]

example : scanifR ("[Else]".toList.map ascii) = .else' := by decide

/-- What skipping does, and where it ends -/
structure Skips (isSpace : Byte → Bool) (s : State) (result : Option Throw × State) : Prop where
  /-- The place behind the balancing word -/
  balanced : ∀ {skipped w rest}, s.words isSpace = skipped ++ w :: rest →
    Nested (skipped.map scanifR) → Balances (scanifR w) →
    result.1 = none ∧ scanning? result.2 = false ∧ Later s result.2 ∧ result.2.Behind w ∧
      result.2.words isSpace = rest
  /-- The end of the input -/
  unfinished : ∀ {more}, Nested ((s.words isSpace).map scanifR ++ more) →
    result.2.words isSpace = [] ∧ result.2.currentSourcepos3 = s.currentSourcepos3 ∧
      if warningThrows s then result.1 = some .warningError
      else result.1 = none ∧ scanning? result.2 = false

/-- {lit}`scanif` skips up to the balancing word. -/
theorem scanif_skips (s : State) : Skips isSpace s (scanif isSpace s) := by
  have hscanning : Scanning { s with countif := 0, endif := false } 0 := ⟨rfl, rfl⟩
  constructor
  · intro skipped w rest hwords hnested hw
    obtain ⟨s₁, hloop, hlater, hbehind, hwords₁, hend⟩ :=
      scanLoop_balanced hscanning hwords hnested hw
    rw [scanif]
    dsimp only
    rw [hloop]
    refine ⟨rfl, ?_, ⟨hlater.inputClass, hlater.lines, hlater.warnings⟩, hbehind, hwords₁⟩
    rw [scanning?, hend]
    rfl
  · intro more hnested
    obtain ⟨s₁, hloop, hwords₁, hwarnings⟩ := scanLoop_unfinished hscanning hnested
    have hthrows : ∀ pos : Sourcepos, warningThrows { s₁ with
        lexeme := (pos.nchar, 1)
        loadline := pos.nline
        loadfilename := pos.nfile } = warningThrows s := fun pos => by
      rw [warningThrows, warningThrows]
      dsimp only
      rw [hwarnings]
    rw [scanif]
    dsimp only
    rw [hloop]
    dsimp only
    rw [hthrows]
    cases warningThrows s with
    | true => exact ⟨hwords₁, rfl, rfl⟩
    | false => exact ⟨hwords₁, rfl, rfl, rfl⟩

variable (isSpace) in
/-- For every input, a false {lit}`[IF]` and an {lit}`[ELSE]` skip nested text up to the word that
balances it.  If there is none, they skip all of the input, and its unfinished {lit}`[IF]` becomes the
place of a warning. -/
theorem skipping_correct (s : State) (defined : List Byte → Bool) :
    Skips isSpace s (bracketIf isSpace false s) ∧ Skips isSpace s (bracketElse isSpace s) ∧
      (defined (parseName isSpace s).1 = false →
        Skips isSpace (parseName isSpace s).2 (bracketIfdef isSpace defined s)) ∧
      (defined (parseName isSpace s).1 = true →
        Skips isSpace (parseName isSpace s).2 (bracketIfundef isSpace defined s)) := by
  refine ⟨scanif_skips s, scanif_skips s, fun hdefined => ?_, fun hdefined => ?_⟩
  · rw [bracketIfdef, hdefined]
    exact scanif_skips _
  · rw [bracketIfundef, hdefined]
    exact scanif_skips _

/-- A line that begins with a conditional, and the lines behind it -/
def conditional (line : String) (behind : Nat) (later : List String) : State where
  source := ⟨.file, line.toList.map ascii, min behind (line.toList.map ascii).length,
    later.map fun line => line.toList.map ascii, Nat.min_le_right ..⟩
  lexeme := (0, 0)
  loadline := 1
  loadfilename := 0
  countif := 0
  endif := true
  warnings := 0

/-- A nested conditional in front of the {lit}`[ELSE]`, the text behind an {lit}`[ELSE]`, an unknown
and a known name, and an {lit}`[IF]` without an end -/
theorem skipping_correct_conditional :
    let blank : Byte → Bool := (· = 0x20#8)
    let words : List String → List (List Byte) := List.map fun w => w.toList.map ascii
    (bracketIf blank false (conditional "0 [IF] a [IFDEF] b" 7
        ["[else] c [THEN] d", "[Else] e [THEN] f"])).2.words blank = words ["e", "[THEN]", "f"] ∧
      (bracketElse blank (conditional "[ELSE] e [THEN] f" 7 [])).2.words blank = words ["f"] ∧
      (bracketIfdef blank (fun _ => false) (conditional "[IFDEF] x a [THEN] b" 8 [])).2.words blank =
        words ["b"] ∧
      (bracketIfundef blank (fun _ => true) (conditional "[IFUNDEF] x a [THEN] b" 10 [])).2.words
        blank = words ["b"] ∧
      scanning? (bracketIf blank false (conditional "0 [IF] a [BEGIN]" 7 ["b"])).2 = false := by
  intro blank words
  refine ⟨?_, ?_, ?_, ?_, ?_⟩
  · have hskips := (skipping_correct blank (conditional "0 [IF] a [IFDEF] b" 7
      ["[else] c [THEN] d", "[Else] e [THEN] f"]) fun _ => false).1
    have hwords : (conditional "0 [IF] a [IFDEF] b" 7
        ["[else] c [THEN] d", "[Else] e [THEN] f"]).words blank =
        words ["a", "[IFDEF]", "b", "[else]", "c", "[THEN]", "d"] ++
          "[Else]".toList.map ascii :: words ["e", "[THEN]", "f"] := by decide
    exact (hskips.balanced hwords (.dummy (.ifElse (.dummy .nil) (.dummy .nil) (.dummy .nil)))
      (.inr (by decide))).2.2.2.2
  · have hskips := (skipping_correct blank (conditional "[ELSE] e [THEN] f" 7 []) fun _ => false).2.1
    have hwords : (conditional "[ELSE] e [THEN] f" 7 []).words blank =
        words ["e"] ++ "[THEN]".toList.map ascii :: words ["f"] := by decide
    exact (hskips.balanced hwords (.dummy .nil) (.inl (by decide))).2.2.2.2
  · have hskips := (skipping_correct blank (conditional "[IFDEF] x a [THEN] b" 8 [])
      fun _ => false).2.2.1 rfl
    have hwords : (parseName blank (conditional "[IFDEF] x a [THEN] b" 8 [])).2.words blank =
        words ["a"] ++ "[THEN]".toList.map ascii :: words ["b"] := by decide
    exact (hskips.balanced hwords (.dummy .nil) (.inl (by decide))).2.2.2.2
  · have hskips := (skipping_correct blank (conditional "[IFUNDEF] x a [THEN] b" 10 [])
      fun _ => true).2.2.2 rfl
    have hwords : (parseName blank (conditional "[IFUNDEF] x a [THEN] b" 10 [])).2.words blank =
        words ["a"] ++ "[THEN]".toList.map ascii :: words ["b"] := by decide
    exact (hskips.balanced hwords (.dummy .nil) (.inl (by decide))).2.2.2.2
  · have hskips := (skipping_correct blank (conditional "0 [IF] a [BEGIN]" 7 ["b"])
      fun _ => false).1
    have hnested : Nested (((conditional "0 [IF] a [BEGIN]" 7 ["b"]).words blank).map scanifR ++
        [.closes]) := .dummy (.structure' (.dummy .nil) .nil)
    have hend := (hskips.unfinished hnested).2.2
    rw [if_neg (by decide)] at hend
    exact hend.2

/-- A line behind {lit}`[IF]` without other words -/
def unfinishedIf : State where
  source := ⟨.file, "0 [IF]".toList.map ascii, 6, [], by decide⟩
  lexeme := (2, 4)
  loadline := 1
  loadfilename := 0
  countif := 0
  endif := true
  warnings := -4

/-- An error of the warning leaves the scan unfinished. -/
theorem not_scanning?_unfinished :
    ¬∀ (s : State) (more : List Kind),
      Nested ((s.words (· = 0x20#8)).map scanifR ++ more) →
        (bracketIf (· = 0x20#8) false s).1 = none ∧
          scanning? (bracketIf (· = 0x20#8) false s).2 = false := by
  intro hclaim
  have hnested : Nested ((unfinishedIf.words (· = 0x20#8)).map scanifR ++ []) := .nil
  have hthrow := ((scanif_skips unfinishedIf).unfinished hnested).2.2
  rw [if_pos (by decide)] at hthrow
  have hnone := (hclaim unfinishedIf [] hnested).1
  rw [bracketIf, if_pos rfl, hthrow] at hnone
  cases hnone

end Skipping
end Gforth
