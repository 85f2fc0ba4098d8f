import Gforth.Hash.Names
import Gforth.Numbers.Digits
import Mathlib.Data.List.TakeWhile

/-!
# Conditional compilation

{lit}`[IF]` with a false flag and {lit}`[ELSE]` skip text.  The words of the text are looked up in a
wordlist of their own, where the words for structures count how deeply they are nested; every other
word is skipped.

Main results:

- Theorems {lit}`Parsed.lineWords_cons` and {lit}`parseName_eq`: {lit}`parse-name` parses the first
  word of a line, and the others are behind it.
-/

namespace Gforth
namespace Skipping

open Lib
open Hash (nameMatches)
open Numbers (ascii)

/-! ## Input -/

/-- The kinds of input sources -/
inductive InputClass where
  | terminal | evaluate | file
deriving DecidableEq

/-- The input source: its current line with the place in it, and the lines that {lit}`refill` will
get.  {lit}`parse-name` throws at a place behind the line. -/
structure Source where
  inputClass : InputClass
  line : List Byte
  toIn : Nat
  later : List (List Byte)
  inLine : toIn ≤ line.length

/-- {lit}`loadfilename#`, {lit}`loadline`, and the place of the lexeme in the line -/
structure Sourcepos where
  nfile : Int
  nline : Int
  nchar : Nat
deriving DecidableEq

/-- What conditional compilation works on; {lit}`input-lexeme` is given by its place in the line. -/
structure State where
  source : Source
  lexeme : Nat × Nat
  loadline : Int
  loadfilename : Int
  countif : Int
  endif : Bool
  warnings : Int

variable (isSpace : Byte → Bool)

/-- {lit}`(parse-white)`: the place and the length of the first word -/
def parseWhite (l : List Byte) : Nat × Nat :=
  let n1 := (l.takeWhile isSpace).length
  (n1, ((l.drop n1).takeWhile fun c => !isSpace c).length)

/-- The input behind a word at a place behind the current one -/
def Source.advance (src : Source) (n1 n2 : Nat) : Source :=
  { src with
    toIn := min (src.toIn + n1 + n2 + 1) src.line.length
    inLine := Nat.min_le_right _ _ }

/-- The rest of the line -/
def State.text (s : State) : List Byte :=
  s.source.line.drop s.source.toIn

/-- {lit}`(name)` -/
def parseName (s : State) : List Byte × State :=
  let p := parseWhite isSpace s.text
  ((s.text.drop p.1).take p.2,
    { s with
      source := s.source.advance p.1 p.2
      lexeme := (s.source.toIn + p.1, p.2) })

/-- The start of a line -/
def State.startLine (s : State) (line : List Byte) (later : List (List Byte)) : State :=
  { s with
    source := ⟨s.source.inputClass, line, 0, later, Nat.zero_le _⟩
    lexeme := (0, 0)
    loadline := s.loadline + 1 }

/-- {lit}`refill` of the input source -/
def refill (s : State) : Bool × State :=
  match s.source.inputClass, s.source.later with
  | .evaluate, _ => (false, s)
  | .terminal, [] => (false, s)
  | .file, [] => (false, s.startLine [] [])
  | _, l :: ls => (true, s.startLine l ls)

/-- {lit}`current-sourcepos3` -/
def State.currentSourcepos3 (s : State) : Sourcepos :=
  ⟨s.loadfilename, s.loadline, s.lexeme.1⟩

/-! ## The words that count -/

/-- {lit}`?if` -/
def queryIf (s : State) : State :=
  if s.countif < 0 then { s with endif := true } else s

/-- {lit}`scanning?` -/
def scanning? (s : State) : Bool :=
  s.endif = false

/-- The scanning version of {lit}`[IF]` -/
def scanIf (s : State) : State :=
  queryIf { s with countif := s.countif + 1 }

/-- The scanning version of {lit}`[THEN]` -/
def scanThen (s : State) : State :=
  queryIf { s with countif := s.countif + -1 }

/-- The scanning version of {lit}`[ELSE]` -/
def scanElse (s : State) : State :=
  scanIf (scanThen s)

/-- The scanning version of {lit}`[REPEAT]` -/
def scanRepeat (s : State) : State :=
  scanThen (scanThen s)

/-- What a word does while text is skipped -/
inductive Kind where
  | opens | closes | else' | repeat' | dummy
deriving DecidableEq

/-- The words in {lit}`[struct]-voc` -/
def structVoc : List (List Byte × Kind) :=
  [("[REPEAT]", .repeat'), ("[+LOOP]", .closes), ("[LOOP]", .closes), ("[?DO]", .opens),
    ("[DO]", .opens), ("[AGAIN]", .closes), ("[UNTIL]", .closes), ("[WHILE]", .opens),
    ("[BEGIN]", .opens), ("[ENDIF]", .closes), ("[IFUNDEF]", .opens), ("[IFDEF]", .opens),
    ("[ELSE]", .else'), ("[THEN]", .closes), ("[IF]", .opens)].map
    fun e => (e.1.toList.map ascii, e.2)

/-- {lit}`scanif-r`: {lit}`dummy` for what is not in the wordlist -/
def scanifR (word : List Byte) : Kind :=
  ((structVoc.find? fun e => nameMatches word e.1).map Prod.snd).getD .dummy

/-- {lit}`execute` -/
def Kind.execute : Kind → State → State
  | .opens => scanIf
  | .closes => scanThen
  | .else' => scanElse
  | .repeat' => scanRepeat
  | .dummy => id

/-! ## Frames -/

@[simp] theorem queryIf_source (s : State) : (queryIf s).source = s.source := by
  rw [queryIf]
  split <;> rfl

@[simp] theorem queryIf_countif (s : State) : (queryIf s).countif = s.countif := by
  rw [queryIf]
  split <;> rfl

@[simp] theorem execute_source (k : Kind) (s : State) : (k.execute s).source = s.source := by
  cases k <;> simp [Kind.execute, scanIf, scanThen, scanElse, scanRepeat]

/-! ## Words of a line -/

/-- The words of a line, between its spaces -/
def lineWords (l : List Byte) : List (List Byte) :=
  (l.splitOnP isSpace).filter (· ≠ [])

/-- What is behind the longest front -/
theorem drop_takeWhile_length {α : Type} (p : α → Bool) (l : List α) :
    l.drop (l.takeWhile p).length = l.dropWhile p := by
  induction l with
  | nil => rfl
  | cons c l ih =>
    cases hc : p c with
    | true =>
      rw [List.takeWhile_cons_of_pos hc, List.dropWhile_cons_of_pos hc]
      exact ih
    | false => simp [hc]

/-- What {lit}`(parse-white)` finds: spaces, a word, and a space behind it or the end -/
structure Parsed (l sp word rest : List Byte) : Prop where
  eq : l = sp ++ (word ++ rest)
  spaces : ∀ c ∈ sp, isSpace c = true
  graphic : ∀ c ∈ word, isSpace c = false
  behind : rest = [] ∨ word ≠ [] ∧ ∃ c rest', rest = c :: rest' ∧ isSpace c = true
  place : parseWhite isSpace l = (sp.length, word.length)

/-- A line begins with spaces and a word. -/
theorem exists_parsed (l : List Byte) : ∃ sp word rest, Parsed isSpace l sp word rest := by
  refine ⟨l.takeWhile isSpace, (l.dropWhile isSpace).takeWhile fun c => !isSpace c,
    (l.dropWhile isSpace).dropWhile fun c => !isSpace c, ?_, fun c hc => List.mem_takeWhile_imp hc,
    fun c hc => ?_, ?_, ?_⟩
  · rw [List.takeWhile_append_dropWhile, List.takeWhile_append_dropWhile]
  · simpa using List.mem_takeWhile_imp hc
  · cases hrest : (l.dropWhile isSpace).dropWhile fun c => !isSpace c with
    | nil => exact .inl rfl
    | cons c rest' =>
      refine .inr ⟨fun hword => ?_, c, rest', rfl, ?_⟩
      · -- behind the spaces there is a character of a word
        have hall := List.takeWhile_append_dropWhile (p := fun c => !isSpace c)
          (l := l.dropWhile isSpace)
        rw [hword, hrest, List.nil_append] at hall
        have hfirst := List.head?_dropWhile_not isSpace l
        have hfirst' := List.head?_dropWhile_not (fun c => !isSpace c) (l.dropWhile isSpace)
        rw [← hall, List.head?_cons] at hfirst
        rw [hrest, List.head?_cons] at hfirst'
        simp_all
      · have hfirst := List.head?_dropWhile_not (fun c => !isSpace c) (l.dropWhile isSpace)
        rw [hrest, List.head?_cons] at hfirst
        simpa using hfirst
  · rw [parseWhite, drop_takeWhile_length]

variable {isSpace} {l sp word rest : List Byte}

/-- Spaces in front of the words -/
theorem lineWords_spaces (hsp : ∀ c ∈ sp, isSpace c = true) :
    lineWords isSpace (sp ++ l) = lineWords isSpace l := by
  induction sp with
  | nil => rfl
  | cons c sp ih =>
    have hc := hsp c List.mem_cons_self
    rw [← ih fun c hc => hsp c (List.mem_cons_of_mem _ hc), lineWords, lineWords, List.cons_append,
      List.splitOnP_cons_eq_if_modifyHead, if_pos hc, List.filter_cons_of_neg (by simp)]

/-- A line without a word -/
theorem Parsed.lineWords_nil (h : Parsed isSpace l sp [] rest) : lineWords isSpace l = [] := by
  obtain rfl : rest = [] := h.behind.resolve_right fun hne => hne.1 rfl
  rw [h.eq, lineWords_spaces h.spaces]
  rfl

/-- A line with a word -/
theorem Parsed.lineWords_cons (h : Parsed isSpace l sp word rest) (hword : word ≠ []) :
    lineWords isSpace l = word :: lineWords isSpace (l.drop (sp.length + word.length + 1)) := by
  have hdrop : l.drop (sp.length + word.length + 1) = rest.drop 1 := by
    rw [h.eq, ← List.append_assoc, ← List.drop_drop, List.drop_left' (by rw [List.length_append])]
  have hsplit : lineWords isSpace (word ++ rest) = word :: lineWords isSpace (rest.drop 1) := by
    rcases h.behind with rfl | ⟨-, c, rest', rfl, hc⟩
    · rw [List.append_nil, lineWords, List.splitOnP_eq_singleton h.graphic,
        List.filter_cons_of_pos (by simpa using hword)]
      rfl
    · rw [lineWords, List.splitOnP_append_cons_of_forall_mem h.graphic c hc,
        List.filter_cons_of_pos (by simpa using hword)]
      rfl
  rw [hdrop, ← hsplit]
  conv_lhs => rw [h.eq]
  exact lineWords_spaces h.spaces

/-! ## Parsing a word -/

variable {s : State}

/-- The word that is parsed -/
theorem parseName_eq (h : Parsed isSpace s.text sp word rest) :
    parseName isSpace s = (word,
      { s with
        source := s.source.advance sp.length word.length
        lexeme := (s.source.toIn + sp.length, word.length) }) := by
  rw [parseName, h.place]
  refine Prod.ext ?_ rfl
  change (s.text.drop sp.length).take word.length = word
  rw [h.eq, List.drop_left, List.take_left]

/-- The rest of the line behind a word -/
theorem text_advance (n1 n2 : Nat) (lexeme : Nat × Nat) :
    State.text { s with source := s.source.advance n1 n2, lexeme := lexeme } =
      s.text.drop (n1 + n2 + 1) := by
  rw [State.text, State.text, List.drop_drop]
  change s.source.line.drop (min (s.source.toIn + n1 + n2 + 1) s.source.line.length) = _
  rcases Nat.le_total (s.source.toIn + n1 + n2 + 1) s.source.line.length with hle | hle
  · rw [Nat.min_eq_left hle]
    congr 1
    omega
  · rw [Nat.min_eq_right hle, List.drop_length, List.drop_of_length_le (by omega)]

/-! ## Progress -/

/-- A word that is not empty is behind the current place. -/
theorem parseName_toIn (h : (parseName isSpace s).1 ≠ []) :
    s.source.toIn < (parseName isSpace s).2.source.toIn := by
  obtain ⟨sp, word, rest, hp⟩ := exists_parsed isSpace s.text
  rw [parseName_eq hp] at h ⊢
  have hpos : 0 < word.length := List.length_pos_of_ne_nil h
  have hlength := congrArg List.length hp.eq
  rw [State.text, List.length_drop, List.length_append, List.length_append] at hlength
  change s.source.toIn < min (s.source.toIn + sp.length + word.length + 1) s.source.line.length
  omega

/-- Refilling takes a line. -/
theorem refill_later (h : (refill s).1 = true) :
    (refill s).2.source.later.length < s.source.later.length := by
  rw [refill] at h ⊢
  split at h <;> simp_all [State.startLine]

variable (isSpace)

/-- The loops of {lit}`scanif`, and whether the balancing word has been found -/
def scanLoop (s : State) : Bool × State :=
  let p := parseName isSpace s
  if _hword : p.1 = [] then
    let r := refill p.2
    if _hrefill : r.1 = true then
      if r.2.endif then (true, r.2) else scanLoop r.2
    else (false, r.2)
  else
    let s₁ := (scanifR p.1).execute p.2
    if s₁.endif then (true, s₁) else scanLoop s₁
termination_by (s.source.later.length, s.source.line.length - s.source.toIn)
decreasing_by
  · exact Prod.Lex.left _ _ (refill_later _hrefill)
  · rw [execute_source]
    refine Prod.Lex.right _ ?_
    have := parseName_toIn _hword
    have : (parseName isSpace s).2.source.toIn ≤ s.source.line.length :=
      (parseName isSpace s).2.source.inLine
    change s.source.line.length - (parseName isSpace s).2.source.toIn < _
    omega

/-! ## The words that skip -/

/-- What is thrown -/
inductive Throw where
  | warningError
deriving DecidableEq

/-- {lit}`?warning` throws if warnings are errors. -/
def warningThrows (s : State) : Bool :=
  s.warnings ≠ 0 ∧ 4 ≤ s.warnings.natAbs

/-- {lit}`scanif`, with what it throws -/
def scanif (s : State) : Option Throw × State :=
  let s := { s with countif := 0, endif := false }
  let pos := s.currentSourcepos3
  match scanLoop isSpace s with
  | (true, s) => (none, s)
  | (false, s) =>
      let s := { s with
        lexeme := (pos.nchar, 1)
        loadline := pos.nline
        loadfilename := pos.nfile }
      if warningThrows s then (some .warningError, s) else (none, { s with endif := true })

/-- {lit}`[IF]` -/
def bracketIf (flag : Bool) (s : State) : Option Throw × State :=
  if flag = false then scanif isSpace s else (none, s)

/-- {lit}`[IFDEF]`, for the words that are defined -/
def bracketIfdef (defined : List Byte → Bool) (s : State) : Option Throw × State :=
  let p := parseName isSpace s
  bracketIf isSpace (defined p.1) p.2

/-- {lit}`[IFUNDEF]` -/
def bracketIfundef (defined : List Byte → Bool) (s : State) : Option Throw × State :=
  let p := parseName isSpace s
  bracketIf isSpace (!defined p.1) p.2

/-- {lit}`[ELSE]` -/
def bracketElse (s : State) : Option Throw × State :=
  bracketIf isSpace false s

end Skipping
end Gforth
