import Gforth.Bidi.Explicit

/-!
# Weak types

The rules W1 to W7 go through the isolated regions of the text.  {lit}`w5` remembers the start of a
sequence of European terminators in {lit}`et-start`, and leaves an item on the data stack for each
character that it reads while there is one.  The rules N0 to I2 behind them leave the data stack as
it is; they are not part of the model.

The numbers of the classes are a parameter; {lit}`number` gives those of {lit}`bidi-db.fs`.

Main results:

- Theorem {lit}`w5_data_of_some`: the item that {lit}`w5` leaves for a character.
- Theorem {lit}`data_suffix_w5`: nothing is ever taken from the data stack.
-/

namespace Gforth
namespace Bidi

/-! ## Regions -/

/-- The state of {lit}`run-isolated`: the item that the rule gets and gives, and {lit}`et-start` -/
structure Weak (σ : Type) where
  buffer : List BidiClass
  p : σ
  etStart : Option Nat
  data : List Nat

/-- What {lit}`run-isolated` comes across -/
inductive Event where
  | enterList (sos : BidiClass)
  | enterRegion
  | char (i : Nat)
  | leaveRegion (stop : Nat)

/-- The events of a region, which is cut at the end of the buffer -/
def regionEvents (len : Nat) (r : Region) : List Event :=
  let stop := min len r.stop
  .enterRegion :: (List.range' (min r.start stop) (stop - r.start)).map .char ++ [.leaveRegion stop]

/-- The events of all lists of regions -/
def events (len : Nat) (soss : List BidiClass) (lists : List (List Region)) : List Event :=
  (lists.zipIdx).flatMap fun l =>
    .enterList (soss.getD l.2 .L) :: l.1.flatMap (regionEvents len)

/-- {lit}`fill` with a class -/
def fill (i j : Nat) (c : BidiClass) (buffer : List BidiClass) : List BidiClass :=
  (List.range' i (j - i)).foldl (fun buffer k => buffer.set k c) buffer

variable {σ : Type}

/-- One event of {lit}`run-isolated` -/
def Weak.step (init : BidiClass → σ) (rule : Nat → Weak σ → Weak σ) (w : Weak σ) :
    Event → Weak σ
  | .enterList sos => { w with p := init sos }
  | .enterRegion => { w with etStart := none }
  | .char i => rule i w
  | .leaveRegion stop =>
      match w.etStart with
      | some et => { w with buffer := fill et stop .EN w.buffer }
      | none => w

/-- {lit}`run-isolated` -/
def runIsolated (init : BidiClass → σ) (rule : Nat → Weak σ → Weak σ) (es : List Event)
    (w : Weak σ) : Weak σ :=
  es.foldl (Weak.step init rule) w

/-! ## Rules -/

/-- The class of a character -/
def Weak.classAt (i : Nat) (w : Weak σ) : BidiClass :=
  w.buffer.getD i .ON

/-- Store a class. -/
def Weak.setClass (i : Nat) (c : BidiClass) (w : Weak σ) : Weak σ :=
  { w with buffer := w.buffer.set i c }

/-- The classes that the rules skip -/
def BidiClass.IsRemoved (c : BidiClass) : Prop :=
  c = .RLE ∨ c = .LRE ∨ c = .RLO ∨ c = .LRO ∨ c = .PDF ∨ c = .BN

instance (c : BidiClass) : Decidable c.IsRemoved :=
  inferInstanceAs (Decidable (_ ∨ _))

/-- The rule of {lit}`w1` -/
def w1 (i : Nat) (w : Weak BidiClass) : Weak BidiClass :=
  let w :=
    if w.classAt i = .NSM then
      w.setClass i (if w.p = .LRI ∨ w.p = .RLI ∨ w.p = .PDI then .ON else w.p)
    else w
  { w with p := if (w.classAt i).IsRemoved then w.p else w.classAt i }

/-- The rule of {lit}`w2` -/
def w2 (i : Nat) (w : Weak BidiClass) : Weak BidiClass :=
  if w.classAt i = .EN then
    if w.p = .AL then w.setClass i .AN else w
  else { w with p := if (w.classAt i).IsStrong then w.classAt i else w.p }

/-- The rule of {lit}`w3` -/
def w3 (i : Nat) (w : Weak BidiClass) : Weak BidiClass :=
  if w.classAt i = .AL then w.setClass i .R else w

/-- The rule of {lit}`w4`, which gets the last two classes -/
def w4 (i : Nat) (w : Weak (Option BidiClass × BidiClass)) :
    Weak (Option BidiClass × BidiClass) :=
  let c := w.classAt i
  let w' :=
    if w.p = (some .EN, .ES) ∧ c = .EN then w.setClass (i - 1) .EN
    else if w.p = (some .EN, .CS) ∧ c = .EN then w.setClass (i - 1) .EN
    else if w.p = (some .AN, .CS) ∧ c = .AN then w.setClass (i - 1) .AN
    else w
  { w' with p := (some w.p.2, c) }

/-- The numbers of the classes in {lit}`bidi-db.fs` -/
def BidiClass.number : BidiClass → Nat
  | .L => 0 | .LRE => 1 | .LRO => 2 | .LRI => 3 | .R => 4 | .RLE => 5 | .RLO => 6 | .RLI => 7
  | .AL => 8 | .PDF => 9 | .PDI => 10 | .AN => 11 | .B => 12 | .BN => 13 | .CS => 14 | .EN => 15
  | .ES => 16 | .ET => 17 | .FSI => 18 | .NSM => 19 | .S => 20 | .WS => 21 | .ON => 22

/-- A mask for classes with these numbers -/
def mask (num : BidiClass → Nat) (cs : List BidiClass) : Nat :=
  (cs.map fun c => 1 <<< num c).foldl (· ||| ·) 0

/-- The rule of {lit}`w5`; the class is compared with a mask without {lit}`lshift`, and the 1 for it
stays on the data stack. -/
def w5 (num : BidiClass → Nat) (i : Nat) (w : Weak BidiClass) : Weak BidiClass :=
  match w.etStart with
  | some et =>
      let w := if w.classAt i = .EN then { w with buffer := fill et i .EN w.buffer } else w
      { w with
        data := 1 :: w.data
        etStart :=
          if num (w.classAt i) &&& mask num [.ET, .RLE, .LRE, .RLO, .LRO, .PDF, .BN] = 0 then none
          else some et }
  | none => if w.classAt i = .ET then { w with etStart := some i } else w

/-- The rule of {lit}`w6` -/
def w6 (i : Nat) (w : Weak BidiClass) : Weak BidiClass :=
  if w.classAt i = .ES ∨ w.classAt i = .CS ∨ w.classAt i = .ET then w.setClass i .ON else w

/-- The rule of {lit}`w7` -/
def w7 (i : Nat) (w : Weak BidiClass) : Weak BidiClass :=
  let w := if w.p = .L ∧ w.classAt i = .EN then w.setClass i .L else w
  { w with p := if w.classAt i = .L ∨ w.classAt i = .R then w.classAt i else w.p }

/-- No character of a region but its last one has the class ET. -/
def Region.QuietIn (len : Nat) (r : Region) (w : Weak σ) : Prop :=
  ∀ i, r.start ≤ i → i + 1 < min len r.stop → w.classAt i ≠ .ET

/-! ## The algorithm -/

/-- The class for a level -/
def levelClass (level : Nat) : BidiClass :=
  if level % 2 = 1 then .R else .L

namespace State

/-- The class in front of a region, as {lit}`gen-sos/eos` stores it in {lit}`sos$` -/
def sosOf (embedded : Nat) (b : State) (r : Region) : BidiClass :=
  levelClass (max (if r.start = 0 then embedded else b.levels.getD (r.start - 1) embedded)
    (b.levels.getD r.start 0))

/-- {lit}`sos$`, which has one element for each list of regions -/
def sosList (embedded : Nat) (b : State) : List BidiClass :=
  (b.isoList.flatten.map (b.sosOf embedded)).take b.isoList.length

/-- The events of {lit}`run-isolated` -/
def events (embedded : Nat) (b : State) : List Event :=
  Bidi.events b.buffer.length (b.sosList embedded) b.isoList

/-- The state of {lit}`w5` at its start -/
def w5Start (embedded : Nat) (b : State) : Weak BidiClass :=
  let es := b.events embedded
  let w := runIsolated id w1 es ⟨b.buffer, .L, none, b.data⟩
  let w := runIsolated id w2 es w
  let w := runIsolated id w3 es w
  let w := runIsolated (fun sos => (none, sos)) w4 es ⟨w.buffer, (none, .L), none, w.data⟩
  ⟨w.buffer, .L, none, w.data⟩

/-- {lit}`x10`: the data stack behind the rules -/
def x10 (num : BidiClass → Nat) (embedded : Nat) (b : State) : List Nat :=
  let es := b.events embedded
  let w := runIsolated id (w5 num) es (b.w5Start embedded)
  let w := runIsolated id w6 es w
  (runIsolated id w7 es w).data

/-- No character of a region but its last one has the class ET when {lit}`w5` gets it. -/
def Quiet (embedded : Nat) (b : State) : Prop :=
  ∀ r ∈ b.isoList.flatten, r.QuietIn b.buffer.length (b.w5Start embedded)

/-- {lit}`bidi-rest`: the data stack behind it -/
def bidiRest (num : BidiClass → Nat) (embedded : Nat) (b : State) : Option (List Nat) :=
  (restLoop b.buffer.length b).map fun b => b.x8.x10 num embedded

end State

/-- {lit}`R-mask` -/
def rMask : List BidiClass := [.R, .RLE, .RLO, .RLI, .AL]

/-- {lit}`L-Mask` -/
def lMask : List BidiClass := [.L, .LRE, .LRO, .LRI]

/-- {lit}`skip-bidi?` -/
def skipBidi (mask cs : List BidiClass) : Prop :=
  ∀ c ∈ cs, c ∉ mask

instance (mask cs : List BidiClass) : Decidable (skipBidi mask cs) :=
  inferInstanceAs (Decidable (∀ c ∈ cs, c ∉ mask))

/-- The part of the algorithm behind the choice of the level -/
def bidiLevel (num : BidiClass → Nat) (mask : List BidiClass) (level : Nat) (cs : List BidiClass)
    (data : List Nat) : Option (List Nat) :=
  if skipBidi mask cs then some data else (start level cs data).bidiRest num level

/-- {lit}`bidi-algorithm` -/
def bidiAlgorithm (num : BidiClass → Nat) (cs : List BidiClass) (data : List Nat) :
    Option (List Nat) :=
  bidiLevel num rMask (p2 cs) cs data

/-- The mask for a level -/
def levelMask (level : Nat) : List BidiClass :=
  if level ≠ 0 then lMask else rMask

/-- {lit}`bidi-algorithm#`, behind the level that it takes -/
def bidiAlgorithmLevel (num : BidiClass → Nat) (level : Nat) (cs : List BidiClass)
    (data : List Nat) : Option (List Nat) :=
  bidiLevel num (levelMask level) level cs data

/-! ## The data stack -/

/-- Rules that leave the data stack as it is -/
def KeepsData (rule : Nat → Weak σ → Weak σ) : Prop :=
  ∀ i w, (rule i w).data = w.data

/-- Only characters can change the data stack. -/
theorem Weak.step_data (init : BidiClass → σ) {rule : Nat → Weak σ → Weak σ} {w : Weak σ}
    {e : Event} (hchar : ∀ i, e = .char i → (rule i w).data = w.data) :
    (w.step init rule e).data = w.data := by
  cases e with
  | enterList sos => rfl
  | enterRegion => rfl
  | char i => exact hchar i rfl
  | leaveRegion stop =>
    rw [Weak.step]
    split <;> rfl

/-- The first event of a text -/
theorem runIsolated_cons (init : BidiClass → σ) (rule : Nat → Weak σ → Weak σ) (e : Event)
    (es : List Event) (w : Weak σ) :
    runIsolated init rule (e :: es) w = runIsolated init rule es (w.step init rule e) :=
  rfl

/-- A rule that keeps the data stack keeps it over all regions. -/
theorem KeepsData.runIsolated {rule : Nat → Weak σ → Weak σ} (h : KeepsData rule)
    (init : BidiClass → σ) (es : List Event) (w : Weak σ) :
    (runIsolated init rule es w).data = w.data := by
  induction es generalizing w with
  | nil => rfl
  | cons e es ih =>
    rw [runIsolated_cons, ih]
    exact Weak.step_data init fun i _ => h i w

/-- {lit}`w1` keeps the data. -/
theorem keepsData_w1 : KeepsData w1 := fun i w => by
  rw [w1]
  dsimp only
  split <;> rfl

/-- {lit}`w2` keeps the data. -/
theorem keepsData_w2 : KeepsData w2 := fun i w => by
  rw [w2]
  split
  · split <;> rfl
  · rfl

theorem keepsData_w3 : KeepsData w3 := fun i w => by
  rw [w3]
  split <;> rfl

/-- {lit}`w4` keeps the data. -/
theorem keepsData_w4 : KeepsData w4 := fun i w => by
  rw [w4]
  dsimp only
  split
  · rfl
  · split
    · rfl
    · split <;> rfl

theorem keepsData_w6 : KeepsData w6 := fun i w => by
  rw [w6]
  split <;> rfl

/-- {lit}`w7` keeps the data. -/
theorem keepsData_w7 : KeepsData w7 := fun i w => by
  rw [w7]
  dsimp only
  split <;> rfl

variable {num : BidiClass → Nat} {i : Nat} {w : Weak BidiClass}

theorem w5_data_of_none (h : w.etStart = none) : (w5 num i w).data = w.data := by
  rw [w5, h]
  dsimp only
  split <;> rfl

/-- In a sequence of terminators {lit}`w5` leaves a 1. -/
theorem w5_data_of_some {et : Nat} (h : w.etStart = some et) :
    (w5 num i w).data = 1 :: w.data := by
  rw [w5, h]
  dsimp only
  split <;> rfl

/-- {lit}`w5` takes nothing from the data stack. -/
theorem data_suffix_w5 (num : BidiClass → Nat) (es : List Event) (w : Weak BidiClass) :
    w.data <:+ (runIsolated id (w5 num) es w).data := by
  induction es generalizing w with
  | nil => exact List.suffix_refl _
  | cons e es ih =>
    rw [runIsolated_cons]
    refine List.IsSuffix.trans ?_ (ih _)
    by_cases hchar : ∃ i et, e = .char i ∧ w.etStart = some et
    · obtain ⟨i, et, rfl, het⟩ := hchar
      show w.data <:+ (w5 num i w).data
      rw [w5_data_of_some het]
      exact List.suffix_cons 1 w.data
    · have hkeep : (w.step id (w5 num) e).data = w.data := by
        refine Weak.step_data id ?_
        rintro i rfl
        refine w5_data_of_none (Option.eq_none_iff_forall_ne_some.2 fun et het => ?_)
        exact hchar ⟨i, et, rfl, het⟩
      exact hkeep.symm ▸ List.suffix_refl _

/-- The rules in front of {lit}`w5` leave the data stack as it is. -/
theorem State.w5Start_data (embedded : Nat) (b : State) : (b.w5Start embedded).data = b.data := by
  rw [w5Start]
  dsimp only
  rw [keepsData_w4.runIsolated]
  dsimp only
  rw [keepsData_w3.runIsolated, keepsData_w2.runIsolated, keepsData_w1.runIsolated]

theorem State.data_suffix_x10 (num : BidiClass → Nat) (embedded : Nat) (b : State) :
    b.data <:+ b.x10 num embedded := by
  rw [x10, keepsData_w7.runIsolated, keepsData_w6.runIsolated, ← b.w5Start_data embedded]
  exact data_suffix_w5 num _ _

end Bidi
end Gforth
