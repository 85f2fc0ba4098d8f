import Gforth.Dictionary.Sections

/-!
# Nested sections

Outside of the extra sections, the current section is as far above the first one as there are uses
of {lit}`next-section` without a matching {lit}`previous-section`, and {lit}`lits<>` has the
literals of these uses.  In an extra section both words throw at once.

Main results:

- Theorem {lit}`Program.run_home`: the stack of sections along a program.
- Theorem {lit}`switches_of_roomy`: switching is LIFO and atomic if {lit}`next-section` can create
  the sections that it has to create.
-/

namespace Gforth
namespace Dictionary

open Strings (bind_ok bind_error bind_get)

variable {L : Layout} {st st' : State} {opened : List State} {home : Nat}

/-! ## The invariant -/

/-- The stack of sections while the uses {lit}`opened` of {lit}`next-section` are open, with the
section {lit}`home` above those where they have been used -/
structure State.Nested (st : State) (opened : List State) (home : Nat) : Prop where
  nodup : st.sections.Nodup
  stack : ∃ rest, st.sections =
    st.sections.take st.extraSections ++ ((opened.map (·.currentSection)).reverse ++ home :: rest)
  length : (st.sections.take st.extraSections).length = st.extraSections
  dp : ∀ s ∈ opened, (st.desc s.currentSection).dp = s.dp
  lits : st.lits = opened.map (·.litstack)
  dpp : st.dpp = st.currentSection

/-- An extra section is current. -/
def State.InExtra (st : State) : Prop :=
  st.currentSection ∈ st.sections.take st.extraSections

/-- Nothing is nested at the start. -/
theorem State.Initial.nested (h : st.Initial) : st.Nested [] st.currentSection := by
  obtain ⟨hlt, hget⟩ := List.getElem?_eq_some_iff.mp h.first
  refine ⟨h.nodup, ⟨st.sections.drop (st.extraSections + 1), ?_⟩, ?_, by simp, by simp [h.lits],
    h.dpp⟩
  · rw [← hget, List.map_nil, List.reverse_nil, List.nil_append, ← List.drop_eq_getElem_cons hlt,
      List.take_append_drop]
  · rw [List.length_take, Nat.min_eq_left hlt.le]

/-- The section behind the first ones of the stack -/
theorem sectionNumber_eq {below above : List Nat}
    (hstack : st.sections = below ++ st.currentSection :: above)
    (hbelow : st.currentSection ∉ below) : st.sectionNumber = below.length := by
  rw [State.sectionNumber, if_pos (by simp [hstack]), hstack, List.idxOf_append_of_notMem hbelow,
    List.idxOf_cons_self, Nat.add_zero]

/-- An extra section has a number below the others. -/
theorem sectionNumber_lt_of_inExtra (h : st.InExtra) : st.sectionNumber < st.extraSections := by
  have hmem := List.mem_of_mem_take h
  rw [State.sectionNumber, if_pos hmem, Nat.cast_lt]
  conv_lhs => rw [← List.take_append_drop st.extraSections st.sections,
    List.idxOf_append_of_mem h]
  exact lt_of_lt_of_le (List.idxOf_lt_length_of_mem h) (List.length_take_le _ _)

namespace State.Nested

/-- The number of the section counts the open ones. -/
theorem sectionNumber (h : st.Nested opened st.currentSection) :
    st.sectionNumber = st.extraSections + opened.length := by
  obtain ⟨rest, hstack⟩ := h.stack
  rw [← List.append_assoc] at hstack
  have hnodup := h.nodup
  rw [hstack, List.nodup_middle, List.nodup_cons, List.mem_append, not_or] at hnodup
  rw [sectionNumber_eq hstack hnodup.1.1, List.length_append, h.length, List.length_reverse,
    List.length_map, Nat.cast_add]

/-- The sections where {lit}`next-section` has been used are not the current one. -/
theorem ne_of_mem (h : st.Nested opened st.currentSection) {s : State} (hs : s ∈ opened) :
    s.currentSection ≠ st.currentSection := by
  obtain ⟨rest, hstack⟩ := h.stack
  have hnodup := h.nodup
  rw [hstack, ← List.append_assoc, List.nodup_middle, List.nodup_cons] at hnodup
  intro heq
  exact hnodup.1 (by simpa using Or.inr (Or.inl ⟨s, hs, heq⟩))

/-- No open section is the extra one. -/
theorem ne_of_inExtra (h : st.Nested opened home) (hextra : st.InExtra) {s : State}
    (hs : s ∈ opened) : s.currentSection ≠ st.currentSection := by
  obtain ⟨rest, hstack⟩ := h.stack
  have hnodup := h.nodup
  rw [hstack] at hnodup
  intro heq
  exact List.disjoint_of_nodup_append hnodup hextra
    (by simpa using Or.inl ⟨s, hs, heq⟩)

end State.Nested

/-! ## Creating sections -/

/-- The state with a new section at an address -/
def State.create (st : State) (L : Layout) (size sec : Nat) : State :=
  { st with
    desc := Function.update st.desc sec
      { start := sec, size, dp := (sec + L.sectionDesc : Nat), codestart := sec } }

/-- A section is created at a new address. -/
theorem createSection_of_notMem {size block : Nat} (hnew : block + L.imageOffset ∉ st.sections) :
    createSection L size (some block) st =
      .ok (block + L.imageOffset) (st.create L size (block + L.imageOffset)) := by
  have hallocate : allocateThrow L (some block) st = .ok block st := by
    change (if block + L.imageOffset ∈ st.sections then throw .allocate else pure block :
      Forth Nat) st = _
    rw [if_neg hnew]
    rfl
  rw [createSection, bind_get, bind_ok hallocate]
  rfl

/-- A section is created, or there is no memory for it. -/
theorem createSection_cases (L : Layout) (size : Nat) (memory : Option Nat) (st : State) :
    (∃ block, memory = some block ∧ block + L.imageOffset ∉ st.sections) ∨
      createSection L size memory st = .error .allocate st := by
  cases memory with
  | none => exact .inr rfl
  | some block =>
      refine or_iff_not_imp_left.mpr fun h => ?_
      have hused : block + L.imageOffset ∈ st.sections := by simpa using h
      have hallocate : allocateThrow L (some block) st = .error .allocate st := by
        change (if block + L.imageOffset ∈ st.sections then throw .allocate else pure block :
          Forth Nat) st = _
        rw [if_pos hused]
        rfl
      rw [createSection, bind_get, bind_error hallocate]

theorem create_desc_of_mem {size sec a : Nat} (hsec : sec ∉ st.sections) (ha : a ∈ st.sections) :
    (st.create L size sec).desc a = st.desc a :=
  Function.update_of_ne (ne_of_mem_of_not_mem ha hsec) _ _

/-! ## Switching -/

/-- The state in which a section is current, with other literals -/
def State.switch (st : State) (sec : Nat) (litstack : List Nat) (lits : List (List Nat)) : State :=
  { st with currentSection := sec, dpp := sec, litstack, lits }

/-- {lit}`next-section` throws in an extra section. -/
theorem nextSection_inExtra (h : st.InExtra) (memory : Option Nat) :
    nextSection L memory st = .error .extraSection st := by
  change (if st.sectionNumber < st.extraSections then _ else _ : Forth Unit) st = _
  rw [if_pos (sectionNumber_lt_of_inExtra h)]
  rfl

/-- {lit}`previous-section` throws in an extra section. -/
theorem previousSection_inExtra (h : st.InExtra) :
    previousSection st = .error .extraSection st := by
  change (if st.sectionNumber < st.extraSections then _ else _ : Forth Unit) st = _
  rw [if_pos (sectionNumber_lt_of_inExtra h)]
  rfl

theorem numberToSection_eq {n : Nat} {sec : Nat} (h : st.sections[n]? = some sec) :
    numberToSection n st = .ok () (st.switch sec st.litstack st.lits) := by
  rw [numberToSection, bind_get, Int.toNat_natCast, h]
  rfl

/-- {lit}`new-section` appends a section. -/
theorem newSection_of_notMem (st : State) {block : Nat}
    (hnew : block + L.imageOffset ∉ st.sections) :
    newSection L (some block) st = .ok ()
      { st.create L ((st.desc st.currentSection).size / 2 / 2) (block + L.imageOffset) with
        sections := st.sections ++ [block + L.imageOffset] } := by
  rw [newSection, bind_get, bind_ok (createSection_of_notMem hnew)]
  rfl

/-- There is a next section already. -/
theorem nextSection_of_getElem? {n : Nat} {sec : Nat} (hn : st.sectionNumber = n)
    (hextra : st.extraSections ≤ n) (hsec : st.sections[n + 1]? = some sec)
    (memory : Option Nat) :
    nextSection L memory st = .ok () (st.switch sec [] (st.litstack :: st.lits)) := by
  change (if st.sectionNumber < st.extraSections then _ else _ : Forth Unit) st = _
  obtain ⟨hlt, -⟩ := List.getElem?_eq_some_iff.mp hsec
  rw [if_neg (by omega), hn, if_neg (by omega)]
  exact numberToSection_eq (n := n + 1) hsec

/-- A section is created, and is the next one. -/
theorem nextSection_of_length {n : Nat} {block : Nat} (hn : st.sectionNumber = n)
    (hextra : st.extraSections ≤ n) (hlen : n + 1 = st.sections.length)
    (hnew : block + L.imageOffset ∉ st.sections) :
    nextSection L (some block) st = .ok ()
      (({ st.create L ((st.desc st.currentSection).size / 2 / 2) (block + L.imageOffset) with
          sections := st.sections ++ [block + L.imageOffset] } : State).switch
        (block + L.imageOffset) [] (st.litstack :: st.lits)) := by
  change (if st.sectionNumber < st.extraSections then _ else _ : Forth Unit) st = _
  rw [if_neg (by omega), hn, if_pos (by omega)]
  refine (bind_ok (newSection_of_notMem { st with lits := _, litstack := [] } hnew)).trans
    (numberToSection_eq (n := n + 1) ?_)
  change (st.sections ++ [block + L.imageOffset])[n + 1]? = _
  rw [hlen, List.getElem?_concat_length]

namespace State.Nested

theorem numberOf (h : st.Nested opened st.currentSection) :
    st.sectionNumber = (st.extraSections + opened.length : Nat) := by
  rw [h.sectionNumber, Nat.cast_add]

/-- The section above the current one becomes the current one. -/
theorem openNext (h : st.Nested opened st.currentSection) {desc : Nat → Section}
    {sections rest : List Nat} {sec : Nat} (hnodup : sections.Nodup)
    (hstack : sections = st.sections.take st.extraSections ++
      ((opened.map (·.currentSection)).reverse ++ st.currentSection :: sec :: rest))
    (hdesc : ∀ a ∈ st.sections, desc a = st.desc a) :
    (({ st with sections, desc } : State).switch sec [] (st.litstack :: st.lits)).Nested
      (st :: opened) sec := by
  have hextra : sections.take st.extraSections = st.sections.take st.extraSections := by
    rw [hstack]
    exact List.take_left' h.length
  obtain ⟨rest', hold⟩ := h.stack
  refine ⟨hnodup, ⟨rest, ?_⟩, ?_, ?_, ?_, rfl⟩
  · change sections = sections.take st.extraSections ++ _
    rw [hextra, hstack]
    simp
  · exact (congrArg List.length hextra).trans h.length
  · intro s hs
    change (desc s.currentSection).dp = s.dp
    rcases List.mem_cons.mp hs with rfl | hs
    · rw [hdesc _ (by rw [hold]; simp), State.dp, h.dpp]
    · have hmem : s.currentSection ∈ st.sections := by
        rw [hold]
        simpa using Or.inr (Or.inl ⟨s, hs, rfl⟩)
      rw [hdesc _ hmem, h.dp s hs]
  · exact congrArg _ h.lits

/-- What {lit}`next-section` does outside of the extra sections -/
theorem nextSection (h : st.Nested opened st.currentSection) {memory : Option Nat}
    (hroomy : st.sectionNumber + 1 = st.sections.length →
      (∃ block, memory = some block ∧ block + L.imageOffset ∉ st.sections) ∧
        L.sectionDesc < (st.desc st.currentSection).size / 4) :
    ∃ st', Dictionary.nextSection L memory st = .ok () st' ∧
      st'.Nested (st :: opened) st'.currentSection ∧
      ∀ sec ∈ st'.sections, sec ∉ st.sections → L.sectionDesc < (st'.desc sec).size := by
  obtain ⟨rest, hstack⟩ := h.stack
  have hnumber := h.numberOf
  cases rest with
  | cons sec rest =>
      -- the section exists
      have hsec : st.sections[st.extraSections + opened.length + 1]? = some sec := by
        rw [hstack, List.getElem?_append_right (by rw [h.length]; omega), h.length,
          List.getElem?_append_right (by simp; omega)]
        have hone : st.extraSections + opened.length + 1 - st.extraSections - opened.length = 1 := by
          omega
        simp [hone]
      exact ⟨_, nextSection_of_getElem? hnumber (by omega) hsec memory,
        h.openNext h.nodup hstack fun _ _ => rfl, fun sec hmem hnot => absurd hmem hnot⟩
  | nil =>
      have hlen : st.extraSections + opened.length + 1 = st.sections.length := by
        rw [hstack, List.length_append, h.length]
        simp
        omega
      obtain ⟨⟨block, rfl, hnew⟩, hsize⟩ := hroomy (by rw [hnumber]; omega)
      have hnext : st.sections ++ [block + L.imageOffset] = st.sections.take st.extraSections ++
          ((opened.map (·.currentSection)).reverse ++
            st.currentSection :: (block + L.imageOffset) :: []) := by
        conv_lhs => rw [hstack]
        simp
      refine ⟨_, nextSection_of_length hnumber (by omega) hlen hnew, h.openNext ?_ hnext
        fun a ha => create_desc_of_mem hnew ha, ?_⟩
      · rw [List.nodup_append]
        exact ⟨h.nodup, List.nodup_singleton _,
          by simpa using fun a ha => ne_of_mem_of_not_mem ha hnew⟩
      · intro sec hmem hnot
        have hsec : sec = block + L.imageOffset := by
          have := List.mem_append.mp hmem
          simpa [hnot] using this
        rw [hsec]
        change _ < (Function.update st.desc _ _ _).size
        rw [Function.update_self]
        change _ < (st.desc st.currentSection).size / 2 / 2
        rwa [Nat.div_div_eq_div_mul]

/-- What {lit}`previous-section` does outside of the extra sections -/
theorem previousSection (h : st.Nested opened st.currentSection) :
    (opened = [] ∧ Dictionary.previousSection st = .error .firstSection st) ∨
    ∃ s saved, opened = s :: saved ∧ ∃ st', Dictionary.previousSection st = .ok () st' ∧
      st'.Nested saved st'.currentSection ∧ st'.currentSection = s.currentSection ∧
      st'.dp = s.dp ∧ st'.litstack = s.litstack := by
  have hnumber := h.sectionNumber
  cases opened with
  | nil =>
      refine .inl ⟨rfl, ?_⟩
      rw [List.length_nil, Nat.cast_zero, add_zero] at hnumber
      change (if st.sectionNumber < st.extraSections then _
        else if st.sectionNumber = st.extraSections then _ else _ : Forth Unit) st = _
      rw [if_neg (by omega), if_pos hnumber]
      rfl
  | cons s saved =>
      refine .inr ⟨s, saved, rfl, st.switch s.currentSection s.litstack (saved.map (·.litstack)), ?_⟩
      obtain ⟨rest, hstack⟩ := h.stack
      rw [List.length_cons] at hnumber
      have hbelow : st.sections[st.extraSections + saved.length]? = some s.currentSection := by
        rw [hstack, List.getElem?_append_right (by rw [h.length]; omega), h.length,
          List.getElem?_append_left (by simp)]
        simp
      refine ⟨?_, ⟨h.nodup, ⟨st.currentSection :: rest, ?_⟩, h.length,
        fun a ha => h.dp a (List.mem_cons_of_mem _ ha), rfl, rfl⟩, rfl,
        h.dp s List.mem_cons_self, rfl⟩
      · change (if st.sectionNumber < st.extraSections then _
          else if st.sectionNumber = st.extraSections then _ else _ : Forth Unit) st = _
        rw [if_neg (by omega), if_neg (by omega),
          show st.sectionNumber - 1 = (st.extraSections + saved.length : Nat) by omega,
          bind_ok (numberToSection_eq hbelow), bind_get]
        have hlits : (st.switch s.currentSection st.litstack st.lits).lits =
            (s :: saved).map (·.litstack) := h.lits
        rw [hlits]
        rfl
      · simpa [State.switch] using hstack

theorem enter (h : st.Nested opened home) (sec : Nat) : (st.enter sec).Nested opened home :=
  ⟨h.nodup, h.stack, h.length, h.dp, h.lits, rfl⟩

/-- The open sections are in the list. -/
theorem mem_sections (h : st.Nested opened home) {s : State} (hs : s ∈ opened) :
    s.currentSection ∈ st.sections := by
  obtain ⟨rest, hstack⟩ := h.stack
  rw [hstack]
  simpa using Or.inr (Or.inl ⟨s, hs, rfl⟩)

/-- Compiling changes the current section only. -/
theorem compile (h : st.Nested opened home)
    (hne : ∀ s ∈ opened, s.currentSection ≠ st.currentSection) (f : List Nat → List Nat)
    (bytes : Int) :
    ∃ st', Dictionary.compile f bytes st = .ok () st' ∧ st'.Nested opened home ∧
      st'.currentSection = st.currentSection ∧
      st'.sections.take st'.extraSections = st.sections.take st.extraSections := by
  refine ⟨_, rfl, ⟨h.nodup, h.stack, h.length, ?_, h.lits, h.dpp⟩, rfl, rfl⟩
  intro s hs
  change (Function.update st.desc st.dpp _ s.currentSection).dp = s.dp
  rw [Function.update_of_ne (by rw [h.dpp]; exact hne s hs), h.dp s hs]

/-- {lit}`extra-section` adds to the bottom of the stack. -/
theorem extraSection (h : st.Nested opened home) (size : Nat) (memory : Option Nat)
    (header : Int) :
    Dictionary.extraSection L size memory header st = .error .allocate st ∨
    ∃ st', Dictionary.extraSection L size memory header st = .ok () st' ∧
      st'.Nested opened home ∧ st'.currentSection = st.currentSection ∧
      st.sections.take st.extraSections ⊆ st'.sections.take st'.extraSections := by
  rw [Dictionary.extraSection]
  rcases createSection_cases L size memory st with ⟨block, rfl, hnew⟩ | herror
  · right
    rw [bind_ok (createSection_of_notMem hnew)]
    refine ⟨_, rfl, ⟨List.nodup_cons.mpr ⟨hnew, h.nodup⟩, ?_, ?_, ?_, h.lits, rfl⟩, rfl, ?_⟩
    · obtain ⟨rest, hstack⟩ := h.stack
      exact ⟨rest, congrArg _ hstack⟩
    · exact congrArg (· + 1) h.length
    · intro s hs
      have hne := ne_of_mem_of_not_mem (h.mem_sections hs) hnew
      change (Function.update (Function.update st.desc _ _) _ _ s.currentSection).dp = s.dp
      rw [Function.update_of_ne hne, Function.update_of_ne hne, h.dp s hs]
    · exact List.subset_cons_self _ _
  · exact .inl (bind_error herror)

end State.Nested

/-! ## Programs -/

/-- The state at the end -/
def endState : EStateM.Result Throw State Unit → State
  | .ok _ st => st
  | .error _ st => st

/-- {lit}`catch` gives the ball, and keeps the state. -/
theorem catchThrow_endState (xt : Forth Unit) (st : State) :
    ∃ ball, catchThrow xt st = .ok ball (endState (xt st)) := by
  rw [catchThrow]
  cases xt st with
  | ok u st' => exact ⟨none, rfl⟩
  | error e st' => exact ⟨some e, rfl⟩

/-- {lit}`section-execute` comes back to the section where it began. -/
theorem sectionExecute_endState (xt : Forth Unit) (sec : Nat) :
    endState (sectionExecute xt sec st) =
      (endState (xt (st.enter sec))).enter st.currentSection := by
  obtain ⟨ball, hball⟩ := catchThrow_endState xt (st.enter sec)
  refine (congrArg endState (bind_ok hball)).trans ?_
  cases ball <;> rfl

/-- {lit}`catch` does not change the final state. -/
theorem caught_endState (p : Program) :
    endState (p.caught.run L st) = endState (p.run L st) := by
  obtain ⟨ball, hball⟩ := catchThrow_endState (p.run L) st
  rw [Program.run, bind_ok hball]
  rfl

/-- What is claimed of one word -/
def Event.Good (L : Layout) (opened : List State) (e : Event) : Prop :=
  e.Restores opened ∧ e.Atomic ∧ e.Inside L

/-- What is claimed of the words of a log -/
def Tracked (L : Layout) : List State → List Event → Prop
  | _, [] => True
  | opened, e :: events => e.Good L opened ∧ Tracked L (e.track opened) events

/-- Two parts of a run -/
theorem Tracked.append {events events' : List Event} (h : Tracked L opened events)
    (h' : Tracked L (events.foldl Event.track opened) events') :
    Tracked L opened (events ++ events') := by
  induction events generalizing opened with
  | nil => exact h'
  | cons e events ih => exact ⟨h.1, ih h.2 h'⟩

/-- Each event of a tracked run is good. -/
theorem Tracked.good {before events : List Event} {e : Event} (h : Tracked L opened events)
    (hpre : before ++ [e] <+: events) : e.Good L (before.foldl Event.track opened) := by
  induction before generalizing opened events with
  | nil =>
      obtain ⟨rest, rfl⟩ := hpre
      exact h.1
  | cons b before ih =>
      obtain ⟨rest, rfl⟩ := hpre
      exact ih h.2 ⟨rest, by simp⟩

/-- Events that are all good are tracked. -/
theorem Tracked.of_good {events : List Event}
    (h : ∀ before e, before ++ [e] <+: events → e.Good L (before.foldl Event.track opened)) :
    Tracked L opened events := by
  induction events generalizing opened with
  | nil => trivial
  | cons e events ih =>
      refine ⟨h [] e ⟨events, rfl⟩, ih fun before e' hpre => h (e :: before) e' ?_⟩
      exact List.cons_prefix_cons.mpr ⟨rfl, hpre⟩

/-- What a program that starts in an extra section leaves as it is -/
structure StaysInExtra (L : Layout) (opened : List State) (home : Nat) (st : State)
    (events : List Event) (st' : State) : Prop where
  tracked : Tracked L opened events
  track : events.foldl Event.track opened = opened
  nested : st'.Nested opened home
  current : st'.currentSection = st.currentSection
  grows : st.sections.take st.extraSections ⊆ st'.sections.take st'.extraSections

theorem StaysInExtra.inExtra {events : List Event}
    (h : StaysInExtra L opened home st events st') (hextra : st.InExtra) : st'.InExtra := by
  rw [State.InExtra, h.current]
  exact h.grows hextra

/-- A word that starts in an extra section stays in one. -/
theorem Word.run_inExtra (h : st.Nested opened home) (hextra : st.InExtra) (w : Word) :
    StaysInExtra L opened home st [⟨st, w, w.run L st⟩] (endState (w.run L st)) := by
  cases w with
  | nextSection memory =>
      rw [Word.run, nextSection_inExtra hextra]
      exact ⟨⟨⟨trivial, ⟨rfl, rfl, rfl, rfl⟩, trivial⟩, trivial⟩, rfl, h, rfl, List.Subset.refl _⟩
  | previousSection =>
      rw [Word.run, previousSection_inExtra hextra]
      exact ⟨⟨⟨trivial, ⟨rfl, rfl, rfl, rfl⟩, trivial⟩, trivial⟩, rfl, h, rfl, List.Subset.refl _⟩
  | extraSection size memory header =>
      rw [Word.run]
      rcases h.extraSection (L := L) size memory header with herror | ⟨st', hok, hnested, hcur, hgrows⟩
      · rw [herror]
        exact ⟨⟨⟨trivial, trivial, trivial⟩, trivial⟩, rfl, h, rfl, List.Subset.refl _⟩
      · rw [hok]
        exact ⟨⟨⟨trivial, trivial, trivial⟩, trivial⟩, rfl, hnested, hcur, hgrows⟩
  | compile f bytes =>
      rw [Word.run]
      obtain ⟨st', hok, hnested, hcur, hsame⟩ :=
        h.compile (fun s hs => h.ne_of_inExtra hextra hs) f bytes
      rw [hok]
      exact ⟨⟨⟨trivial, trivial, trivial⟩, trivial⟩, rfl, hnested, hcur, hsame ▸ List.Subset.refl _⟩

theorem State.InExtra.of_extra {k sec : Nat} (h : st.extra k = some sec) :
    (st.enter sec).InExtra :=
  List.mem_reverse.mp (List.mem_of_getElem? h)

/-- A program that starts in an extra section stays in one. -/
theorem Program.run_inExtra (p : Program) (h : st.Nested opened home) (hextra : st.InExtra) :
    StaysInExtra L opened home st (p.log L st) (endState (p.run L st)) := by
  induction p generalizing st with
  | word w => exact Word.run_inExtra h hextra w
  | seq p q ihp ihq =>
      have hp := ihp h hextra
      rw [Program.log, Program.run]
      cases hrun : p.run L st with
      | ok u st' =>
          rw [hrun] at hp
          have hq := ihq hp.nested (hp.inExtra hextra)
          rw [bind_ok hrun]
          refine ⟨hp.tracked.append (hp.track.symm ▸ hq.tracked), ?_, hq.nested,
            hq.current.trans hp.current, List.Subset.trans hp.grows hq.grows⟩
          rw [List.foldl_append, hp.track]
          exact hq.track
      | error e st' =>
          rw [hrun] at hp
          rw [bind_error hrun]
          exact hp
  | inExtra k p ih =>
      rw [Program.log, Program.run, bind_get]
      cases hsec : st.extra k with
      | none => exact ⟨trivial, rfl, h, rfl, List.Subset.refl _⟩
      | some sec =>
          have hp := ih (h.enter sec) (.of_extra hsec)
          dsimp only
          rw [sectionExecute_endState]
          exact ⟨hp.tracked, hp.track, hp.nested.enter _, rfl, hp.grows⟩
  | caught p ih =>
      rw [Program.log, caught_endState]
      exact ih h hextra

/-- A word in the current section is good if there is room. -/
theorem Word.run_home (h : st.Nested opened st.currentSection) (w : Word)
    (hroomy : (Event.mk st w (w.run L st)).Roomy L) :
    (Event.mk st w (w.run L st)).Good L opened ∧
      (endState (w.run L st)).Nested ((Event.mk st w (w.run L st)).track opened)
        (endState (w.run L st)).currentSection := by
  cases w with
  | nextSection memory =>
      have hextra : (st.extraSections : Int) ≤ st.sectionNumber := by
        rw [h.sectionNumber]
        omega
      obtain ⟨st', hok, hnested, hinside⟩ := h.nextSection (hroomy hextra)
      rw [Word.run, hok]
      exact ⟨⟨trivial, trivial, hinside⟩, hnested⟩
  | previousSection =>
      rw [Word.run]
      rcases h.previousSection with ⟨hnil, herror⟩ | ⟨s, saved, rfl, st', hok, hnested, hrestored⟩
      · rw [herror]
        exact ⟨⟨trivial, ⟨rfl, rfl, rfl, rfl⟩, trivial⟩, h⟩
      · rw [hok]
        exact ⟨⟨⟨s, rfl, hrestored⟩, trivial, trivial⟩, hnested⟩
  | extraSection size memory header =>
      rw [Word.run]
      rcases h.extraSection (L := L) size memory header with herror | ⟨st', hok, hnested, hcur, -⟩
      · rw [herror]
        exact ⟨⟨trivial, trivial, trivial⟩, h⟩
      · rw [hok]
        exact ⟨⟨trivial, trivial, trivial⟩, hcur ▸ hnested⟩
  | compile f bytes =>
      rw [Word.run]
      obtain ⟨st', hok, hnested, hcur, -⟩ := h.compile (fun s hs => h.ne_of_mem hs) f bytes
      rw [hok]
      exact ⟨⟨trivial, trivial, trivial⟩, hcur ▸ hnested⟩

/-- A program in the current section is tracked if there is room. -/
theorem Program.run_home (p : Program) (h : st.Nested opened st.currentSection)
    (hroomy : ∀ e ∈ p.log L st, e.Roomy L) :
    Tracked L opened (p.log L st) ∧
      (endState (p.run L st)).Nested ((p.log L st).foldl Event.track opened)
        (endState (p.run L st)).currentSection := by
  induction p generalizing st opened with
  | word w =>
      obtain ⟨hgood, hnested⟩ := Word.run_home h w (hroomy _ List.mem_cons_self)
      exact ⟨⟨hgood, trivial⟩, hnested⟩
  | seq p q ihp ihq =>
      rw [Program.log] at hroomy
      rw [Program.log, Program.run]
      cases hrun : p.run L st with
      | ok u st' =>
          rw [hrun] at hroomy
          obtain ⟨hp, hnested⟩ := ihp h fun e he => hroomy e (List.mem_append_left _ he)
          rw [hrun] at hnested
          obtain ⟨hq, hend⟩ := ihq hnested fun e he => hroomy e (List.mem_append_right _ he)
          rw [bind_ok hrun]
          exact ⟨hp.append hq, by rw [List.foldl_append]; exact hend⟩
      | error e st' =>
          rw [hrun] at hroomy
          have hp := ihp h hroomy
          rw [hrun] at hp
          rw [bind_error hrun]
          exact hp
  | inExtra k p _ =>
      rw [Program.log, Program.run, bind_get]
      cases hsec : st.extra k with
      | none => exact ⟨trivial, h⟩
      | some sec =>
          have hp := p.run_inExtra (L := L) (h.enter sec) (.of_extra hsec)
          dsimp only
          rw [sectionExecute_endState, hp.track]
          exact ⟨hp.tracked, hp.nested.enter _⟩
  | caught p ih =>
      rw [Program.log, caught_endState]
      exact ih h hroomy

/-- Switching sections is LIFO and atomic in programs where {lit}`next-section` can create the
sections that it has to create. -/
theorem switches_of_roomy (L : Layout) (p : Program) (st : State) (hst : st.Initial)
    (hroomy : ∀ e ∈ p.log L st, e.Roomy L) : Switches L p st := fun _ _ hpre =>
  (p.run_home hst.nested hroomy).1.good hpre

/-- The first section only, with a size and pending literals -/
def started (size : Nat) (litstack : List Nat) : State where
  sections := [0x100000]
  extraSections := 0
  desc _ := { start := 0x100000, size, dp := 0x100040, codestart := 0x100000 }
  currentSection := 0x100000
  dpp := 0x100000
  litstack
  lits := []

theorem started_initial (size : Nat) (litstack : List Nat) : (started size litstack).Initial :=
  ⟨List.nodup_singleton _, rfl, rfl, rfl⟩

/-- Two sections deep and back, with an extra section on the way -/
def tour : Program :=
  .seq (.word (.nextSection (some 0x200000)))
    (.seq (.word (.extraSection 0x1000 (some 0x300000) 0x20))
      (.seq (.inExtra 0 (.caught (.word .previousSection)))
        (.seq (.word (.nextSection (some 0x400000)))
          (.seq (.word .previousSection) (.word .previousSection)))))

/-- A tour through some sections -/
theorem switches_tour : Switches ⟨0x40, 0⟩ tour (started 0x800000 [1]) :=
  switches_of_roomy ⟨0x40, 0⟩ tour _ (started_initial _ _) (by
    intro e he
    change e ∈ [_, _, _, _, _, _] at he
    simp only [List.mem_cons, List.not_mem_nil, or_false] at he
    rcases he with rfl | rfl | rfl | rfl | rfl | rfl
    · exact fun _ _ => ⟨⟨_, rfl, by decide⟩, by decide⟩
    · trivial
    · trivial
    · exact fun _ _ => ⟨⟨_, rfl, by decide⟩, by decide⟩
    · trivial
    · trivial)

/-- {lit}`next-section` again and again -/
def deeper : Nat → Program
  | 0 => .word (.compile id 0)
  | n + 1 => .seq (.word (.nextSection (some (0x1000000 * (n + 1))))) (deeper n)

/-- Without memory for a section the literals are lost, and 9 levels below a section of 8 MiB
there is no space for a descriptor. -/
theorem not_switches :
    ¬Switches ⟨0x40, 0⟩ (.word (.nextSection none)) (started 0x800000 [1]) ∧
      ¬Switches ⟨0x40, 0⟩ (deeper 9) (started 0x800000 []) := by
  constructor
  · intro h
    have hatomic := (h [] _ (List.prefix_refl _)).2.1
    exact absurd hatomic.2.1 (by decide)
  · intro h
    have hinside := (Tracked.of_good fun _ _ => h _ _).2.2.2.2.2.2.2.2.1.2.2
    exact absurd (hinside 0x1000000 (by decide) (by decide)) (by decide)

end Dictionary
end Gforth
