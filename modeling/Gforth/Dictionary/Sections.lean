import Gforth.Strings.Effects

/-!
# Sections of the dictionary

The stack of sections has the extra sections at its bottom and above them the first section and the
sections that {lit}`next-section` has created.  {lit}`next-section` and {lit}`previous-section` look
the current section up in this stack, and keep the pending literals on a stack of their own.  The
stacks are lists here; that the words for stacks work on them like this is shown with these words,
and that they find memory for their few cells is assumed.

Main definitions:

- {lit}`nextSection`, {lit}`previousSection`, {lit}`sectionExecute`: the words of the source.
- {lit}`Program`: programs of these words, with what they log.
-/

namespace Gforth
namespace Dictionary

/-! ## Descriptors -/

/-- What the words throw -/
inductive Throw where
  | extraSection | firstSection | allocate | undefinedWord | stackUnderflow
deriving DecidableEq

/-- The descriptor at the start of a section -/
structure Section where
  start : Nat
  size : Nat
  dp : Int
  codestart : Nat
deriving DecidableEq

/-- The size of descriptors, and how far the image is behind the start of a page -/
structure Layout where
  sectionDesc : Nat
  imageOffset : Nat

/-- The sections by their addresses, the section whose {lit}`dp` is in force, and the literals;
the stack of sections is listed from its bottom, {lit}`lits<>` from its top. -/
structure State where
  sections : List Nat
  extraSections : Nat
  desc : Nat → Section
  currentSection : Nat
  dpp : Nat
  litstack : List Nat
  lits : List (List Nat)

abbrev Forth := EStateM Throw State

namespace State

/-- The dictionary pointer in force -/
def dp (st : State) : Int :=
  (st.desc st.dpp).dp

/-- {lit}`section#`: where the current section is in the stack, or -1 -/
def sectionNumber (st : State) : Int :=
  if st.currentSection ∈ st.sections then st.sections.idxOf st.currentSection else -1

/-- The section that the {lit}`k`-th use of {lit}`extra-section` has created -/
def extra (st : State) (k : Nat) : Option Nat :=
  (st.sections.take st.extraSections).reverse[k]?

end State

/-! ## Words -/

/-- {lit}`set-section` -/
def setSection : Forth Unit :=
  modify fun st => { st with dpp := st.currentSection }

/-- The word {lit}`current-section !` -/
def storeCurrentSection (a : Nat) : Forth Unit :=
  modify fun st => { st with currentSection := a }

/-- {lit}`catch`, with what has been thrown -/
def catchThrow (xt : Forth Unit) : Forth (Option Throw) := fun st =>
  match xt st with
  | .ok _ st' => .ok none st'
  | .error e st' => .ok (some e) st'

def sectionExecute (xt : Forth Unit) (sec : Nat) : Forth Unit := do
  let old := (← get).currentSection
  storeCurrentSection sec
  setSection
  let ball ← catchThrow xt
  storeCurrentSection old
  setSection
  match ball with
  | none => pure ()
  | some e => throw e

variable (L : Layout)

/-- {lit}`allocate throw`, where the system answers with the block {lit}`memory`; it never answers
with memory that is in use for a section. -/
def allocateThrow (memory : Option Nat) : Forth Nat := do
  let st ← get
  match memory with
  | none => throw .allocate
  | some block => if block + L.imageOffset ∈ st.sections then throw .allocate else pure block

/-- The fields of the current section are set. -/
def storeDescriptor (desc : Section) : Forth Unit :=
  modify fun st => { st with desc := Function.update st.desc st.currentSection desc }

def createSection (size : Nat) (memory : Option Nat) : Forth Nat := do
  let old := (← get).currentSection
  let block ← allocateThrow L memory
  let sec := block + L.imageOffset
  storeCurrentSection sec
  storeDescriptor { start := sec, size, dp := (sec + L.sectionDesc : Nat), codestart := sec }
  storeCurrentSection old
  pure sec

def newSection (memory : Option Nat) : Forth Unit := do
  let st ← get
  let sec ← createSection L ((st.desc st.currentSection).size / 2 / 2) memory
  modify fun st => { st with sections := st.sections ++ [sec] }

/-- {lit}`#>section`; {lit}`safe/string` takes an offset below 0 for 0. -/
def numberToSection (n : Int) : Forth Unit := do
  match (← get).sections[n.toNat]? with
  | some sec => do
      storeCurrentSection sec
      setSection
  | none => pure ()

def nextSection (memory : Option Nat) : Forth Unit := do
  let st ← get
  let n := st.sectionNumber
  if n < st.extraSections then throw .extraSection
  else do
    modify fun st => { st with lits := st.litstack :: st.lits, litstack := [] }
    if n + 1 = st.sections.length then newSection L memory
    numberToSection (n + 1)

def previousSection : Forth Unit := do
  let st ← get
  let n := st.sectionNumber
  if n < st.extraSections then throw .extraSection
  else if n = st.extraSections then throw .firstSection
  else do
    numberToSection (n - 1)
    let st ← get
    match st.lits with
    -- {lit}`stack>` leaves nothing, and the store takes a cell of the caller
    | [] => throw .stackUnderflow
    | l :: lits => set { st with litstack := l, lits }

/-- Words that compile into the current section: they change the pending literals and move
{lit}`dp`. -/
def compile (f : List Nat → List Nat) (bytes : Int) : Forth Unit :=
  modify fun st =>
    { st with
      litstack := f st.litstack
      desc := Function.update st.desc st.dpp
        { st.desc st.dpp with dp := (st.desc st.dpp).dp + bytes } }

def toExtraSections (sec : Nat) : Forth Unit :=
  modify fun st =>
    { st with sections := sec :: st.sections, extraSections := st.extraSections + 1 }

/-- {lit}`extra-section`, with what {lit}`create ,` compiles into the new section -/
def extraSection (size : Nat) (memory : Option Nat) (header : Int) : Forth Unit := do
  let sec ← createSection L size memory
  toExtraSections sec
  sectionExecute (compile id header) sec

/-! ## Programs -/

inductive Word where
  | nextSection (memory : Option Nat)
  | previousSection
  | extraSection (size : Nat) (memory : Option Nat) (header : Int)
  | compile (f : List Nat → List Nat) (bytes : Int)

def Word.run : Word → Forth Unit
  | nextSection memory => Dictionary.nextSection L memory
  | previousSection => Dictionary.previousSection
  | extraSection size memory header => Dictionary.extraSection L size memory header
  | compile f bytes => Dictionary.compile f bytes

/-- Programs: words in sequence, programs that the word of an extra section executes in it, and
programs whose throws are caught -/
inductive Program where
  | word (w : Word)
  | seq (p q : Program)
  | inExtra (k : Nat) (p : Program)
  | caught (p : Program)

def Program.run : Program → Forth Unit
  | word w => w.run L
  | seq p q => do
      p.run
      q.run
  | inExtra k p => do
      match (← get).extra k with
      | some sec => sectionExecute p.run sec
      | none => throw .undefinedWord
  | caught p => do
      let _ ← catchThrow p.run

/-- A word that has been executed: the state before it, and its result -/
structure Event where
  before : State
  word : Word
  result : EStateM.Result Throw State Unit

/-- The section is current. -/
def State.enter (st : State) (sec : Nat) : State :=
  { st with currentSection := sec, dpp := sec }

/-- The words that a program executes, in order -/
def Program.log : Program → State → List Event
  | word w, st => [⟨st, w, w.run L st⟩]
  | seq p q, st =>
      match p.run L st with
      | .ok _ st' => p.log st ++ q.log st'
      | .error _ _ => p.log st
  | inExtra k p, st =>
      match st.extra k with
      | some sec => p.log (st.enter sec)
      | none => []
  | caught p, st => p.log st

/-! ## Matching -/

/-- The states before those uses of {lit}`next-section` that have no matching
{lit}`previous-section` yet; the innermost is the first. -/
def Event.track (opened : List State) (e : Event) : List State :=
  match e.word, e.result with
  | .nextSection _, .ok _ _ => e.before :: opened
  | .previousSection, .ok _ _ => opened.tail
  | _, _ => opened

/-- A {lit}`previous-section` that succeeds restores what was in force before the matching
{lit}`next-section`. -/
def Event.Restores (opened : List State) (e : Event) : Prop :=
  match e.word, e.result with
  | .previousSection, .ok _ st' => ∃ st ∈ opened.head?,
      st'.currentSection = st.currentSection ∧ st'.dp = st.dp ∧ st'.litstack = st.litstack
  | _, _ => True

/-- The section, the stack of sections and the literals are the same. -/
def State.SameSwitch (st st' : State) : Prop :=
  st'.currentSection = st.currentSection ∧ st'.litstack = st.litstack ∧ st'.lits = st.lits ∧
    st'.sections = st.sections

/-- {lit}`next-section` and {lit}`previous-section` change nothing when they throw. -/
def Event.Atomic (e : Event) : Prop :=
  match e.word, e.result with
  | .nextSection _, .error _ st' => e.before.SameSwitch st'
  | .previousSection, .error _ st' => e.before.SameSwitch st'
  | _, _ => True

/-- The sections that {lit}`next-section` creates are larger than their descriptors. -/
def Event.Inside (e : Event) : Prop :=
  match e.word, e.result with
  | .nextSection _, .ok _ st' => ∀ sec ∈ st'.sections, sec ∉ e.before.sections →
      L.sectionDesc < (st'.desc sec).size
  | _, _ => True

/-- What is claimed of a program that is started in a state -/
def Switches (p : Program) (st : State) : Prop :=
  ∀ before e, before ++ [e] <+: p.log L st →
    e.Restores (before.foldl Event.track []) ∧ e.Atomic ∧ e.Inside L

/-- A {lit}`next-section` that has to create a section gets memory, and a quarter of the size of
the current section is more than a descriptor. -/
def Event.Roomy (e : Event) : Prop :=
  match e.word with
  | .nextSection memory =>
      (e.before.extraSections : Int) ≤ e.before.sectionNumber →
      e.before.sectionNumber + 1 = e.before.sections.length →
        (∃ block, memory = some block ∧ block + L.imageOffset ∉ e.before.sections) ∧
          L.sectionDesc < (e.before.desc e.before.currentSection).size / 4
  | _ => True

/-- The first section is current, and no literals are kept. -/
structure State.Initial (st : State) : Prop where
  nodup : st.sections.Nodup
  first : st.sections[st.extraSections]? = some st.currentSection
  dpp : st.dpp = st.currentSection
  lits : st.lits = []

end Dictionary
end Gforth
