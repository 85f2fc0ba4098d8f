import Gforth.Lib.Traces
import Gforth.Numbers.Conversion

/-!
# Number conversion and its variables

{lit}`s>number?` and {lit}`snumber?` leave {lit}`base` and {lit}`>num-state` as they were, except
after a minus sign and a quote: {lit}`s>unumber?` leaves before it gets to {lit}`>num-state off`, and
the next minus sign is taken for a second one.

Main results:

- Theorem {lit}`conversions_leave_no_trace_iff`: when the conversions of a run do not influence each
  other.
- Theorem {lit}`signedQuote_leaves_trace`: the minus sign that is lost.
-/

namespace Gforth
namespace Numbers

open Lib
open Memory

variable {w : Nat}

/-! ## Calls -/

/-- The two words -/
inductive Word where
  | sToNumber
  | snumber
deriving DecidableEq

/-- A call with the text it gets -/
structure Call (w : Nat) where
  word : Word
  mem : Chars w
  str : Str w

/-- What a call leaves: the value, the flag and {lit}`dpl` -/
inductive Answer (w : Nat) where
  | converted (value : BitVec (w + w)) (flag : Bool) (dpl : BitVec w)
  | recognized (result : Recognized w) (dpl : BitVec w)
deriving DecidableEq

/-- One call -/
def call (setup : Setup) (st : NumberState w) (c : Call w) : NumberState w × Answer w :=
  match c.word with
  | .sToNumber =>
      let r := sToNumber? setup c.mem st c.str
      (r.1, .converted r.2.1 r.2.2 r.1.dpl)
  | .snumber =>
      let r := snumber? setup c.mem st c.str
      (r.1, .recognized r.2 r.1.dpl)

/-- The variables before the first conversion -/
def NumberState.initial (base dpl : BitVec w) : NumberState w :=
  ⟨base, 0#w, dpl⟩

/-- {lit}`base` and {lit}`>num-state` are the same. -/
def Restored (st st' : NumberState w) : Prop :=
  st'.base = st.base ∧ st'.numState = st.numState

instance (st st' : NumberState w) : Decidable (Restored st st') :=
  inferInstanceAs (Decidable (_ ∧ _))

/-- There is a minus sign and a quote at the address. -/
def SignedQuote (mem : Chars w) (s : Str w) : Prop :=
  mem s.addr = ascii '-' ∧ mem (s.addr + 1#w) = ascii '\''

instance (mem : Chars w) (s : Str w) : Decidable (SignedQuote mem s) :=
  inferInstanceAs (Decidable (_ ∧ _))

/-! ## One call -/

section

variable (setup : Setup) (mem : Chars w)

theorem sToNumber?_dpl (st : NumberState w) (x : BitVec w) (s : Str w) :
    sToNumber? setup mem { st with dpl := x } s = sToNumber? setup mem st s := by
  simp only [sToNumber?, sign?]
  split <;> rfl

theorem Warn.run_base (warn : Warn) (st : NumberState w) : (warn.run st).base = st.base := by
  cases warn <;> rfl

/-- What {lit}`s>unumber?` does to {lit}`base` and {lit}`>num-state` -/
theorem sToUnumber?_state (st : NumberState w) (s : Str w) :
    (sToUnumber? setup mem st s).1.base = st.base ∧
      (sToUnumber? setup mem st s).1.numState =
        if s.head mem = ascii '\'' then st.numState else 0#w := by
  rw [sToUnumber?]
  split
  · exact ⟨rfl, rfl⟩
  · exact ⟨Warn.run_base _ _, rfl⟩

/-- The state behind a signed number -/
theorem sToNumber?_fst (st : NumberState w) (s : Str w) :
    (sToNumber? setup mem st s).1 =
      (sToUnumber? setup mem (sign? mem st s).1 (sign? mem st s).2.1).1 := by
  simp only [sToNumber?]
  split <;> rfl

/-- What {lit}`s>number?` does to them, before any other conversion -/
theorem sToNumber?_state (base dpl : BitVec w) (s : Str w) :
    (sToNumber? setup mem (NumberState.initial base dpl) s).1.base = base ∧
      (sToNumber? setup mem (NumberState.initial base dpl) s).1.numState =
        if SignedQuote mem s then 2#w else 0#w := by
  rw [sToNumber?_fst]
  obtain ⟨hbase, hstate⟩ := sToUnumber?_state setup mem
    (sign? mem (NumberState.initial base dpl) s).1 (sign? mem (NumberState.initial base dpl) s).2.1
  rw [hbase, hstate, sign?]
  by_cases hminus : s.head mem = ascii '-'
  · have hsigned : SignedQuote mem s ↔ mem (s.addr + 1#w) = ascii '\'' := and_iff_right hminus
    rw [if_pos ⟨hminus, by simp [NumberState.initial]⟩]
    refine ⟨rfl, ?_⟩
    simp only [hsigned, NumberState.initial, BitVec.zero_add]
    rfl
  · have hsigned : ¬SignedQuote mem s := fun h => hminus h.1
    rw [if_neg (fun h => hminus h.1), if_neg hsigned]
    exact ⟨rfl, ite_self _⟩

end

/-! ## Runs -/

/-- A call does not depend on the decimal point of an earlier one. -/
theorem call_dpl (setup : Setup) (st : NumberState w) (x : BitVec w) (c : Call w) :
    call setup { st with dpl := x } c = call setup st c := by
  obtain ⟨word, mem, s⟩ := c
  cases word with
  | sToNumber => simp only [call, sToNumber?_dpl]
  | snumber => simp only [call, snumber?, sToNumber?_dpl]

/-- The state behind a call -/
theorem call_fst (setup : Setup) (st : NumberState w) (c : Call w) :
    (call setup st c).1 = (sToNumber? setup c.mem st c.str).1 := by
  obtain ⟨word, mem, s⟩ := c
  cases word with
  | sToNumber => rfl
  | snumber =>
      simp only [call, snumber?]
      split
      · rfl
      · split <;> rfl

/-- The conversions of a run do not influence each other, and {lit}`base` and {lit}`>num-state` are
restored after each of them, if no text of the run starts with a minus sign and a quote. -/
theorem conversions_leave_no_trace_iff (hw : 8 ≤ w) (setup : Setup) (base dpl : BitVec w)
    (calls : List (Call w)) :
    NoTrace (call setup) Restored (NumberState.initial base dpl) calls ↔
      ∀ c ∈ calls, ¬SignedQuote c.mem c.str := by
  have hlike : ∀ st, Restored (NumberState.initial base dpl) st →
      st = { NumberState.initial base dpl with dpl := st.dpl } := by
    rintro ⟨b, n, d⟩ ⟨hbase, hstate⟩
    cases hbase
    cases hstate
    rfl
  have hcall : ∀ st c, Restored (NumberState.initial base dpl) st →
      call setup st c = call setup (NumberState.initial base dpl) c := by
    intro st c hst
    rw [hlike st hst, call_dpl]
  have htwo : 2#w ≠ 0#w := by
    intro h
    have hval := congrArg BitVec.toNat h
    have hlt : 2 < 2 ^ w := lt_of_lt_of_le (by decide) (Nat.pow_le_pow_right (by decide) hw)
    simp [Nat.mod_eq_of_lt hlt] at hval
  refine noTrace_iff ⟨rfl, rfl⟩ (fun st c hst => by rw [hcall st c hst]) (fun st c hst => ?_) calls
  obtain ⟨hbase, hstate⟩ := sToNumber?_state setup c.mem base dpl c.str
  rw [hcall st c hst, call_fst, Restored, hbase, hstate]
  by_cases hquote : SignedQuote c.mem c.str
  · rw [if_pos hquote]
    exact iff_of_false (fun h => htwo h.2) (not_not_intro hquote)
  · rw [if_neg hquote]
    exact iff_of_true ⟨rfl, rfl⟩ hquote

/-- A call with a text at address 0 -/
def Call.ofText (word : Word) (t : List Char) : Call 64 :=
  ⟨word, (Str.placed t).1, (Str.placed t).2⟩

/-- A character, a number with prefix and sign, and a rejected text leave no trace. -/
theorem conversions_leave_no_trace_iff_three :
    NoTrace (call ⟨.utf8, .noop⟩) Restored (NumberState.initial 10#64 0#64)
      [Call.ofText .snumber ['\'', 'a', '\''], Call.ofText .sToNumber ['$', '-', 'f', '.'],
        Call.ofText .snumber ['-', '1', 'x']] :=
  (conversions_leave_no_trace_iff (by decide) _ _ _ _).mpr (by decide)

/-- After {lit}`-'a'` the text {lit}`-5` is no number. -/
theorem signedQuote_leaves_trace :
    (call ⟨.utf8, .noop⟩ (NumberState.initial 10#64 0#64) (Call.ofText .sToNumber ['-', '5'])).2 =
        .converted (-5) true (-1) ∧
      (call ⟨.utf8, .noop⟩
        (after (call ⟨.utf8, .noop⟩) (NumberState.initial 10#64 0#64)
          [Call.ofText .sToNumber ['-', '\'', 'a', '\'']])
        (Call.ofText .sToNumber ['-', '5'])).2 = .converted 0 false (-1) ∧
      ¬NoTrace (call ⟨.utf8, .noop⟩) Restored (NumberState.initial 10#64 0#64)
        [Call.ofText .sToNumber ['-', '\'', 'a', '\''], Call.ofText .sToNumber ['-', '5']] := by
  refine ⟨by decide +kernel, by decide +kernel, fun h => ?_⟩
  have hanswer := (h [Call.ofText .sToNumber ['-', '\'', 'a', '\'']] _ (List.prefix_refl _)).1
  revert hanswer
  decide +kernel

end Numbers
end Gforth
