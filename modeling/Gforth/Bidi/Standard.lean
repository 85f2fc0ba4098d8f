import Gforth.Bidi.Explicit

/-!
# The directional status stack

The standard gives the explicit levels by a stack of entries with a level, an override and a mark for
isolates.  The paragraph level comes from the first strong character outside of isolates.

Main results:

- Theorem {lit}`p2_eq`: the level of a paragraph, unless there is an unmatched end of an isolate in
  front of the strong character.
- Theorem {lit}`p2_eq_insideIsolate`: the level for a first strong isolate.
-/

namespace Gforth
namespace Bidi

/-! ## Paragraph levels -/

/-- The text behind the end of an isolate, where {lit}`n` more isolates have been begun in it -/
def afterIsolate : Nat → List BidiClass → List BidiClass
  | _, [] => []
  | n, c :: cs =>
      if c.IsIsolate then afterIsolate (n + 1) cs
      else if c = .PDI then if n = 0 then cs else afterIsolate (n - 1) cs
      else afterIsolate n cs

/-- The text up to the end of an isolate -/
def insideIsolate : Nat → List BidiClass → List BidiClass
  | _, [] => []
  | n, c :: cs =>
      if c.IsIsolate then c :: insideIsolate (n + 1) cs
      else if c = .PDI then if n = 0 then [] else c :: insideIsolate (n - 1) cs
      else c :: insideIsolate n cs

/-- The text behind an isolate is not longer. -/
theorem length_afterIsolate_le (n : Nat) (cs : List BidiClass) :
    (afterIsolate n cs).length ≤ cs.length := by
  induction cs generalizing n with
  | nil => exact Nat.le_refl _
  | cons c cs ih =>
    rw [afterIsolate]
    split
    · exact Nat.le_succ_of_le (ih _)
    · split
      · split
        · exact Nat.le_succ _
        · exact Nat.le_succ_of_le (ih _)
      · exact Nat.le_succ_of_le (ih _)

/-- The level of the first strong character; what is in isolates is skipped. -/
def paragraphLevel : List BidiClass → Nat
  | [] => 0
  | c :: cs =>
      if c.IsStrong then c.direction
      else if c.IsIsolate then paragraphLevel (afterIsolate 0 cs)
      else paragraphLevel cs
termination_by cs => cs.length
decreasing_by
  · exact Nat.lt_succ_of_le (length_afterIsolate_le 0 cs)
  · exact Nat.lt_succ_self _

/-! ## Entries -/

/-- The override of an entry -/
inductive Override where
  | neutral | ltr | rtl
deriving DecidableEq, Repr

/-- An entry of the directional status stack -/
structure Entry where
  level : Nat
  override : Override
  isolate : Bool
deriving DecidableEq, Repr

/-- The stack, with the top entry first, and the counters -/
structure Machine where
  stack : List Entry
  overflowIsolate : Nat
  overflowEmbedding : Nat
  validIsolate : Nat
deriving DecidableEq, Repr

/-- The next level with this parity -/
def nextLevel (parity n : Nat) : Nat :=
  if n % 2 = parity then n + 2 else n + 1

namespace Machine

/-- The stack of a paragraph -/
def initial (level : Nat) : Machine :=
  ⟨[⟨level, .neutral, false⟩], 0, 0, 0⟩

/-- The top entry -/
def top (m : Machine) : Entry :=
  m.stack.headD ⟨0, .neutral, false⟩

/-- The level and the class of a character -/
def stored (m : Machine) (c : BidiClass) : Nat × BidiClass :=
  (m.top.level,
    match m.top.override with
    | .neutral => c
    | .ltr => .L
    | .rtl => .R)

/-- There is room for an entry with this level. -/
def HasRoom (n : Nat) (m : Machine) : Prop :=
  n ≤ 125 ∧ m.overflowIsolate = 0 ∧ m.overflowEmbedding = 0

instance (n : Nat) (m : Machine) : Decidable (m.HasRoom n) :=
  inferInstanceAs (Decidable (_ ∧ _))

/-- Begin an embedding or an override. -/
def beginEmbedding (parity : Nat) (override : Override) (m : Machine) : Machine :=
  let n := nextLevel parity m.top.level
  if m.HasRoom n then { m with stack := ⟨n, override, false⟩ :: m.stack }
  else if m.overflowIsolate = 0 then { m with overflowEmbedding := m.overflowEmbedding + 1 }
  else m

/-- Begin an isolate. -/
def beginIsolate (parity : Nat) (m : Machine) : Machine :=
  let n := nextLevel parity m.top.level
  if m.HasRoom n then
    { m with stack := ⟨n, .neutral, true⟩ :: m.stack, validIsolate := m.validIsolate + 1 }
  else { m with overflowIsolate := m.overflowIsolate + 1 }

/-- End an isolate. -/
def endIsolate (m : Machine) : Machine :=
  if 0 < m.overflowIsolate then { m with overflowIsolate := m.overflowIsolate - 1 }
  else if m.validIsolate = 0 then m
  else
    { m with
      stack := (m.stack.dropWhile fun e => !e.isolate).tail
      overflowEmbedding := 0
      validIsolate := m.validIsolate - 1 }

/-- End an embedding. -/
def endEmbedding (m : Machine) : Machine :=
  if 0 < m.overflowIsolate then m
  else if 0 < m.overflowEmbedding then { m with overflowEmbedding := m.overflowEmbedding - 1 }
  else if m.top.isolate = false ∧ 2 ≤ m.stack.length then { m with stack := m.stack.tail }
  else m

/-- A character in front of a text: what is stored for it, and the stack behind it -/
def step (c : BidiClass) (rest : List BidiClass) (m : Machine) : (Nat × BidiClass) × Machine :=
  match c with
  | .RLE => (m.stored c, m.beginEmbedding 1 .neutral)
  | .LRE => (m.stored c, m.beginEmbedding 0 .neutral)
  | .RLO => (m.stored c, m.beginEmbedding 1 .rtl)
  | .LRO => (m.stored c, m.beginEmbedding 0 .ltr)
  | .RLI => (m.stored c, m.beginIsolate 1)
  | .LRI => (m.stored c, m.beginIsolate 0)
  | .FSI => (m.stored c, m.beginIsolate (paragraphLevel (insideIsolate 0 rest)))
  | .PDI => (m.endIsolate.stored c, m.endIsolate)
  | .PDF => (m.stored c, m.endEmbedding)
  | _ => (m.stored c, m)

/-- The stack behind the first characters -/
def after (level : Nat) (cs : List BidiClass) : Nat → Machine
  | 0 => initial level
  | k + 1 =>
      match cs[k]? with
      | some c => (step c (cs.drop (k + 1)) (after level cs k)).2
      | none => after level cs k

end Machine

/-- What the standard stores for a character -/
def standard (level : Nat) (cs : List BidiClass) (k : Nat) (c : BidiClass) : Nat × BidiClass :=
  ((Machine.after level cs k).step c (cs.drop (k + 1))).1

/-! ## The first strong character -/

/-- {lit}`(p2)` meets an unmatched end of an isolate in front of the strong character. -/
def leavesAtPDI : Nat → List BidiClass → Bool
  | _, [] => false
  | n, c :: cs =>
      if c.IsIsolate then leavesAtPDI (n + 1) cs
      else if c = .PDI then n = 0 || leavesAtPDI (n - 1) cs
      else if n = 0 ∧ c.IsStrong then false
      else leavesAtPDI n cs

/-- The text behind {lit}`n` open isolates -/
def skipIsolates : Nat → List BidiClass → List BidiClass
  | 0, cs => cs
  | n + 1, cs => afterIsolate n cs

theorem not_strong_PDI : ¬BidiClass.IsStrong .PDI := by decide

theorem BidiClass.IsIsolate.facts {c : BidiClass} (h : c.IsIsolate) :
    ¬c.IsStrong ∧ c ≠ .PDI ∧ c ≠ .B := by
  rcases h with rfl | rfl | rfl <;> decide

/-- One character of {lit}`(p2)` in an isolate or not -/
theorem p2Loop_cons {c : BidiClass} (hB : c ≠ .B) (n : Nat) (cs : List BidiClass) :
    p2Loop n (c :: cs) =
      if c.IsIsolate then p2Loop (n + 1 : Nat) cs
      else if c = .PDI then if n = 0 then 0 else p2Loop (n - 1 : Nat) cs
      else if n = 0 ∧ c.IsStrong then c.direction
      else p2Loop n cs := by
  rw [p2Loop, if_neg hB]
  dsimp only
  by_cases hisolate : c.IsIsolate
  · obtain ⟨hstrong, hPDI, -⟩ := hisolate.facts
    rw [if_pos hisolate, if_pos hisolate, if_neg hPDI, if_neg (by omega),
      if_neg fun h => hstrong h.2]
    congr 1
  · rw [if_neg hisolate, if_neg hisolate]
    by_cases hPDI : c = .PDI
    · subst hPDI
      rw [if_pos rfl, if_pos rfl]
      cases n with
      | zero => rw [if_pos (by decide), if_pos rfl]
      | succ n =>
        rw [if_neg (by omega), if_neg fun h => not_strong_PDI h.2, if_neg (Nat.succ_ne_zero n)]
        congr 1
        omega
    · rw [if_neg hPDI, if_neg hPDI, if_neg (by omega)]
      have hdepth : (n : Int) + 0 - 0 = n := by omega
      rw [hdepth]
      simp only [Int.natCast_eq_zero]

variable {cs : List BidiClass}

/-- {lit}`(p2)` skips what is in isolates. -/
theorem p2Loop_eq (hB : ∀ c ∈ cs, c ≠ .B) {n : Nat} (hleaves : leavesAtPDI n cs = false) :
    p2Loop n cs = paragraphLevel (skipIsolates n cs) := by
  induction cs generalizing n with
  | nil =>
    cases n with
    | zero => rw [skipIsolates, p2Loop, paragraphLevel.eq_def]
    | succ n =>
      rw [skipIsolates, p2Loop, paragraphLevel.eq_def]
      rfl
  | cons c cs ih =>
    have ih := @ih fun d hd => hB d (List.mem_cons_of_mem c hd)
    rw [p2Loop_cons (hB c List.mem_cons_self)]
    rw [leavesAtPDI] at hleaves
    by_cases hisolate : c.IsIsolate
    · rw [if_pos hisolate] at hleaves ⊢
      rw [ih hleaves]
      cases n with
      | zero => rw [skipIsolates, skipIsolates, paragraphLevel.eq_2, if_neg hisolate.facts.1,
          if_pos hisolate]
      | succ n => rw [skipIsolates, skipIsolates, afterIsolate, if_pos hisolate]
    · rw [if_neg hisolate] at hleaves ⊢
      by_cases hPDI : c = .PDI
      · rw [if_pos hPDI] at hleaves ⊢
        cases n with
        | zero => cases hleaves
        | succ n =>
          rw [if_neg (Nat.succ_ne_zero n), Nat.add_sub_cancel]
          rw [Nat.add_sub_cancel] at hleaves
          rw [ih (by simpa using hleaves), skipIsolates, afterIsolate, if_neg hisolate,
            if_pos hPDI]
          cases n with
          | zero => rfl
          | succ n => rfl
      · rw [if_neg hPDI] at hleaves ⊢
        by_cases hstrong : n = 0 ∧ c.IsStrong
        · obtain ⟨rfl, hstrong'⟩ := hstrong
          rw [if_pos ⟨rfl, hstrong'⟩, skipIsolates, paragraphLevel.eq_2, if_pos hstrong']
        · rw [if_neg hstrong] at hleaves ⊢
          rw [ih hleaves]
          cases n with
          | zero =>
            rw [skipIsolates, skipIsolates, paragraphLevel.eq_2,
              if_neg fun h => hstrong ⟨rfl, h⟩, if_neg hisolate]
          | succ n =>
            rw [skipIsolates, skipIsolates, afterIsolate, if_neg hisolate, if_neg hPDI]

/-- Behind an unmatched end of an isolate the level is 0. -/
theorem p2Loop_of_leaves (hB : ∀ c ∈ cs, c ≠ .B) {n : Nat} (hleaves : leavesAtPDI n cs = true) :
    p2Loop n cs = 0 := by
  induction cs generalizing n with
  | nil => rfl
  | cons c cs ih =>
    have ih := @ih fun d hd => hB d (List.mem_cons_of_mem c hd)
    rw [p2Loop_cons (hB c List.mem_cons_self)]
    rw [leavesAtPDI] at hleaves
    split at hleaves
    · rw [if_pos ‹_›]
      exact ih hleaves
    · rw [if_neg ‹_›]
      split at hleaves
      · rw [if_pos ‹_›]
        split
        · rfl
        · refine ih ?_
          simpa [*] using hleaves
      · rw [if_neg ‹_›]
        split at hleaves
        · cases hleaves
        · rw [if_neg ‹_›]
          exact ih hleaves

/-- The level of a paragraph, unless an unmatched end of an isolate is in front of the strong
character -/
theorem p2_eq (hB : ∀ c ∈ cs, c ≠ .B) :
    p2 cs = paragraphLevel cs ↔ (leavesAtPDI 0 cs = true → paragraphLevel cs = 0) := by
  cases hleaves : leavesAtPDI 0 cs with
  | false => exact iff_of_true (p2Loop_eq (n := 0) hB hleaves) fun h => nomatch h
  | true =>
    have hzero : p2 cs = 0 := p2Loop_of_leaves (n := 0) hB hleaves
    rw [hzero]
    exact ⟨fun h _ => h.symm, fun h => (h rfl).symm⟩

/-- The characters inside of an isolate are characters of the text. -/
theorem mem_of_mem_insideIsolate {n : Nat} {c : BidiClass} (h : c ∈ insideIsolate n cs) :
    c ∈ cs := by
  induction cs generalizing n with
  | nil => cases h
  | cons d cs ih =>
    have hcons : ∀ {n}, c ∈ d :: insideIsolate n cs → c ∈ d :: cs := fun h =>
      (List.mem_cons.1 h).elim (fun h => h ▸ List.mem_cons_self)
        fun h => List.mem_cons_of_mem d (ih h)
    rw [insideIsolate] at h
    split at h
    · exact hcons h
    · split at h
      · split at h
        · cases h
        · exact hcons h
      · exact hcons h

/-- {lit}`(p2)` leaves at the end of the isolate. -/
theorem p2Loop_insideIsolate (hB : ∀ c ∈ cs, c ≠ .B) (n : Nat) :
    p2Loop n (insideIsolate n cs) = p2Loop n cs ∧
      leavesAtPDI n (insideIsolate n cs) = false := by
  induction cs generalizing n with
  | nil => exact ⟨rfl, rfl⟩
  | cons c cs ih =>
    have ih := @ih fun d hd => hB d (List.mem_cons_of_mem c hd)
    have hc := hB c List.mem_cons_self
    rw [insideIsolate, p2Loop_cons hc]
    by_cases hisolate : c.IsIsolate
    · rw [if_pos hisolate, if_pos hisolate, p2Loop_cons hc, leavesAtPDI, if_pos hisolate,
        if_pos hisolate]
      exact ih (n + 1)
    · rw [if_neg hisolate, if_neg hisolate]
      by_cases hPDI : c = .PDI
      · rw [if_pos hPDI, if_pos hPDI]
        cases n with
        | zero => exact ⟨rfl, rfl⟩
        | succ n =>
          rw [if_neg (Nat.succ_ne_zero n), if_neg (Nat.succ_ne_zero n), p2Loop_cons hc, leavesAtPDI,
            if_neg hisolate, if_neg hisolate, if_pos hPDI, if_pos hPDI,
            if_neg (Nat.succ_ne_zero n), Nat.add_sub_cancel]
          exact ih n
      · rw [if_neg hPDI, if_neg hPDI, p2Loop_cons hc, leavesAtPDI, if_neg hisolate,
          if_neg hisolate, if_neg hPDI, if_neg hPDI]
        by_cases hstrong : n = 0 ∧ c.IsStrong
        · rw [if_pos hstrong, if_pos hstrong, if_pos hstrong]
          exact ⟨rfl, rfl⟩
        · rw [if_neg hstrong, if_neg hstrong, if_neg hstrong]
          exact ih n

theorem p2_eq_insideIsolate (hB : ∀ c ∈ cs, c ≠ .B) :
    p2 cs = paragraphLevel (insideIsolate 0 cs) := by
  obtain ⟨hsame, hleaves⟩ := p2Loop_insideIsolate hB 0
  exact hsame.symm.trans (p2Loop_eq (n := 0) (fun c hc => hB c (mem_of_mem_insideIsolate hc)) hleaves)

end Bidi
end Gforth
