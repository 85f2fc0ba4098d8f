import Gforth.Texts.Words

/-!
# Substitution of macros

{lit}`.substitute` prints a text in which the names between percent signs are replaced, and
{lit}`substitute` puts it into a buffer.  {lit}`unescape` doubles the percent signs of a text.

{lit}`$split` does not tell whether it has found a percent sign; the words look at the byte in front
of the rest.

A macro stands for its content.  Temporary strings are given by their characters.

Main results:

- Theorem {lit}`iteration_spec`: an iteration of {lit}`.substitute` does not change the final result.
- Theorem {lit}`substitute_correct`: the results of {lit}`substitute`, also after {lit}`unescape`.
-/

namespace Gforth
namespace Texts

open Lib

/-! ## The words -/

/-- {lit}`'%'` -/
def percent : Byte := 0x25#8

/-- {lit}`$split` -/
def split (mem : Memory 64 Byte) (t : Text) (char : Byte) : Text × Text :=
  let rest := scan mem char t.addr t.len
  (⟨t.addr, t.len - rest.len⟩, if rest.len ≠ 0 then rest.slashString 1 else rest)

/-- The contents of the macros in {lit}`macros-wordlist` -/
abbrev Macros : Type :=
  List Byte → Option (List Byte)

/-- The loop of {lit}`.substitute`: the text that is left, what was printed, and the number of
substitutions -/
structure Loop where
  rest : Text
  printed : List Byte
  n : Nat

/-- {lit}`type` -/
def Loop.type (l : Loop) (s : List Byte) : Loop :=
  { l with printed := l.printed ++ s }

/-- An iteration of {lit}`.substitute` -/
def iteration (macros : Macros) (mem : Memory 64 Byte) (l : Loop) : Loop :=
  let (text, rest) := split mem l.rest percent
  let l := l.type (text.chars mem)
  if rest.len ≠ 0 then
    if mem rest.addr = percent then
      { l.type [percent] with rest := rest.slashString 1 }
    else
      let (name, rest) := split mem rest percent
      if name.len = 0 then
        { l.type [percent] with rest := rest }
      else if mem (rest.addr - 1#64) = percent then
        match macros (name.chars mem) with
        | some content => { l.type content with rest := rest, n := l.n + 1 }
        | none => { ((l.type [percent]).type (name.chars mem)).type [percent] with rest := rest }
      else
        { (l.type [percent]).type (name.chars mem) with rest := rest }
  else if mem (rest.addr - 1#64) = percent then
    { l.type [percent] with rest := rest }
  else
    { l with rest := rest }

/-! ## Splitting -/

variable {mem : Memory 64 Byte}

/-- A text is split at the first occurrence of a character.  If there is none, the rest is empty and
behind the last character. -/
theorem split_cases (mem : Memory 64 Byte) (t : Text) (char : Byte) :
    char ∉ t.chars mem ∧ split mem t char = (t, t.slashString t.len) ∧
      (t.len ≠ 0 → mem ((t.slashString t.len).addr - 1#64) ≠ char) ∨
    ∃ text rest : Text, split mem t char = (text, rest) ∧ char ∉ text.chars mem ∧
      t.chars mem = text.chars mem ++ char :: rest.chars mem ∧
      mem (rest.addr - 1#64) = char ∧ text.len + 1 + rest.len = t.len := by
  rcases scan_cases mem char t.addr t.len with ⟨hnone, heq⟩ | ⟨k, hk, hnone, hfound, heq⟩
  · refine Or.inl ⟨?_, ?_, ?_⟩
    · rintro hmem
      obtain ⟨i, hi, heqi⟩ := (Memory.mem_text mem).1 hmem
      exact hnone i hi heqi
    · rw [split, heq, if_neg (by simp), Text.slashString, Nat.sub_self]
      rfl
    · intro hlen
      obtain ⟨n, hn⟩ := Nat.exists_eq_add_one_of_ne_zero hlen
      rw [Text.slashString, hn, BitVec.ofNat_add, ← BitVec.add_assoc, BitVec.add_sub_cancel]
      exact hnone n (by omega)
  · refine Or.inr ⟨⟨t.addr, k⟩, ⟨t.addr + BitVec.ofNat 64 (k + 1), t.len - k - 1⟩, ?_, ?_, ?_, ?_, ?_⟩
    · rw [split, heq, if_pos (by simp only; omega), Text.slashString, Memory.add_ofNat_ofNat]
      simp only [Prod.mk.injEq, Text.mk.injEq, and_true, true_and]
      omega
    · rintro hmem
      obtain ⟨i, hi, heqi⟩ := (Memory.mem_text mem).1 hmem
      exact hnone i hi heqi
    · exact text_found hk hfound
    · rw [BitVec.ofNat_add, ← BitVec.add_assoc, BitVec.add_sub_cancel]
      exact hfound
    · simp only
      omega

/-! ## The substituted text -/

/-- A text is substituted from left to right.  The characters since a percent sign are the name of a
macro if another percent sign follows. -/
def expand (macros : Macros) : Option (List Byte) → List Byte → List Byte × Nat
  | none, [] => ([], 0)
  | some name, [] => (percent :: name, 0)
  | none, c :: s =>
      if c = percent then expand macros (some []) s
      else let (t, n) := expand macros none s; (c :: t, n)
  | some name, c :: s =>
      if c ≠ percent then expand macros (some (name ++ [c])) s
      else
        let (t, n) := expand macros none s
        if name = [] then (percent :: t, n)
        else match macros name with
          | some content => (content ++ t, n + 1)
          | none => (percent :: name ++ percent :: t, n)

variable (macros : Macros)

@[simp]
theorem expand_nil : expand macros none [] = ([], 0) :=
  rfl

@[simp]
theorem expand_name_nil (name : List Byte) : expand macros (some name) [] = (percent :: name, 0) :=
  rfl

theorem expand_cons (c : Byte) (s : List Byte) : expand macros none (c :: s) =
    if c = percent then expand macros (some []) s
    else (c :: (expand macros none s).1, (expand macros none s).2) :=
  rfl

/-- A character within a name belongs to the name, and a percent sign ends it. -/
theorem expand_name_cons (name : List Byte) (c : Byte) (s : List Byte) :
    expand macros (some name) (c :: s) =
      if c ≠ percent then expand macros (some (name ++ [c])) s
      else
        let (t, n) := expand macros none s
        if name = [] then (percent :: t, n)
        else match macros name with
          | some content => (content ++ t, n + 1)
          | none => (percent :: name ++ percent :: t, n) :=
  rfl

/-- What is in front of the first percent sign stays. -/
theorem expand_append {s : List Byte} (h : percent ∉ s) (t : List Byte) :
    expand macros none (s ++ t) = (s ++ (expand macros none t).1, (expand macros none t).2) := by
  induction s with
  | nil => rfl
  | cons c s ih =>
      rw [List.mem_cons, not_or] at h
      rw [List.cons_append, expand_cons, if_neg (Ne.symm h.1), ih h.2]
      rfl

/-- A name goes on up to the next percent sign. -/
theorem expand_name {s : List Byte} (h : percent ∉ s) (name t : List Byte) :
    expand macros (some name) (s ++ t) = expand macros (some (name ++ s)) t := by
  induction s generalizing name with
  | nil => rw [List.nil_append, List.append_nil]
  | cons c s ih =>
      rw [List.mem_cons, not_or] at h
      rw [List.cons_append, expand_name_cons, if_pos (Ne.symm h.1), ih h.2, List.append_assoc]
      rfl

theorem expand_percent (t : List Byte) :
    expand macros none (percent :: t) = expand macros (some []) t := by
  rw [expand_cons, if_pos rfl]

/-- What the loop of {lit}`.substitute` results in: the output and the number of substitutions -/
def Loop.result (mem : Memory 64 Byte) (l : Loop) : List Byte × Nat :=
  (l.printed ++ (expand macros none (l.rest.chars mem)).1,
    l.n + (expand macros none (l.rest.chars mem)).2)

/-- Every iteration shortens the text that is left, and does not change the result. -/
theorem iteration_spec (mem : Memory 64 Byte) {l : Loop} (h : l.rest.len ≠ 0) :
    (iteration macros mem l).rest.len < l.rest.len ∧
      (iteration macros mem l).result macros mem = l.result macros mem := by
  rw [iteration]
  rcases split_cases mem l.rest percent with ⟨hnone, heq, hlast⟩ |
    ⟨text, rest, heq, htext, hchars, hfound, hlen⟩
  · -- no percent sign
    have hsub : (l.rest.slashString l.rest.len).len = 0 := Nat.sub_self _
    simp only [heq, hsub, ne_eq, not_true_eq_false, if_false, if_neg (hlast h)]
    have hall := expand_append macros hnone []
    rw [List.append_nil] at hall
    refine ⟨by omega, ?_⟩
    simp only [Loop.result, Loop.type, chars_of_len_eq_zero hsub, hall]
    simp
  simp only [heq]
  by_cases hrest : rest.len = 0
  · -- a percent sign at the end
    simp only [hrest, ne_eq, not_true_eq_false, if_false, if_pos hfound]
    refine ⟨by omega, ?_⟩
    simp only [Loop.result, Loop.type, hchars, chars_of_len_eq_zero hrest, expand_append macros htext]
    simp [expand_percent]
  simp only [ne_eq, hrest, not_false_eq_true, if_true]
  by_cases htwo : mem rest.addr = percent
  · -- two percent signs
    simp only [if_pos htwo]
    refine ⟨by simp only [Text.slashString]; omega, ?_⟩
    simp only [Loop.result, Loop.type, hchars, expand_append macros htext,
      chars_of_len_ne_zero hrest, htwo]
    simp [expand_percent, expand_name_cons]
  simp only [if_neg htwo]
  rcases split_cases mem rest percent with ⟨hnone, heq', hlast⟩ |
    ⟨name, rest', heq', hname, hchars', hfound', hlen'⟩
  · -- an unpaired percent sign
    have hsub : (rest.slashString rest.len).len = 0 := Nat.sub_self _
    simp only [heq', if_neg hrest, if_neg (hlast hrest)]
    refine ⟨by omega, ?_⟩
    have hall := expand_name macros hnone [] []
    rw [List.append_nil] at hall
    simp only [Loop.result, Loop.type, hchars, expand_append macros htext, expand_percent, hall,
      chars_of_len_eq_zero hsub]
    simp
  -- a name
  have hne : name.len ≠ 0 := by
    intro hzero
    rw [chars_of_len_ne_zero hrest, chars_of_len_eq_zero hzero] at hchars'
    exact htwo (List.cons.inj hchars').1
  have hnil : name.chars mem ≠ [] := by
    rwa [Ne, chars_eq_nil]
  simp only [heq', if_neg hne, if_pos hfound']
  cases hmacro : macros (name.chars mem) with
  | some content =>
      refine ⟨by simp only; omega, ?_⟩
      simp only [Loop.result, Loop.type, hchars, hchars', expand_append macros htext, expand_percent,
        expand_name macros hname, List.nil_append]
      simp [expand_name_cons, hnil, hmacro]
      omega
  | none =>
      refine ⟨by simp only; omega, ?_⟩
      simp only [Loop.result, Loop.type, hchars, hchars', expand_append macros htext, expand_percent,
        expand_name macros hname, List.nil_append]
      simp [expand_name_cons, hnil, hmacro]

/-- {lit}`.substitute` -/
def dotSubstitute (macros : Macros) (mem : Memory 64 Byte) (l : Loop) : List Byte × Nat :=
  if l.rest.len ≠ 0 then dotSubstitute macros mem (iteration macros mem l)
  else (l.printed, l.n)
termination_by l.rest.len
decreasing_by exact (iteration_spec macros mem ‹_›).1

/-- {lit}`$substitute` -/
def stringSubstitute (macros : Macros) (mem : Memory 64 Byte) (t : Text) : List Byte × Nat :=
  dotSubstitute macros mem ⟨t, [], 0⟩

/-- The loop returns its result. -/
theorem dotSubstitute_eq (l : Loop) : dotSubstitute macros mem l = l.result macros mem := by
  induction hlen : l.rest.len using Nat.strongRecOn generalizing l with
  | ind n ih =>
      rw [dotSubstitute]
      split
      · rename_i hne
        obtain ⟨hlt, hresult⟩ := iteration_spec macros mem hne
        rw [ih _ (hlen ▸ hlt) _ rfl, hresult]
      · rename_i hzero
        rw [Loop.result, chars_of_len_eq_zero (not_not.1 hzero)]
        simp

theorem stringSubstitute_eq (t : Text) :
    stringSubstitute macros mem t = expand macros none (t.chars mem) := by
  rw [stringSubstitute, dotSubstitute_eq, Loop.result]
  simp

/-! ## The words with buffers -/

/-- The memory and the dictionary pointer -/
structure State where
  mem : Memory 64 Byte
  dp : BitVec 64

/-- {lit}`substitute` -/
def substitute (macros : Macros) (st : State) (t : Text) (addr2 : BitVec 64) (len2 : Nat) :
    State × Text × Int :=
  let (result, n) := stringSubstitute macros st.mem t
  let ior := if result.length ≤ len2 then (n : Int) else -78
  let u := min len2 result.length
  ({ st with mem := st.mem.store addr2 (result.take u) }, ⟨addr2, u⟩, ior)

/-- {lit}`c,` -/
def State.cComma (st : State) (c : Byte) : State :=
  ⟨Function.update st.mem st.dp c, st.dp + 1#64⟩

/-- The loop of {lit}`unescape` -/
def unescapeLoop : Nat → BitVec 64 → State → State
  | 0, _, st => st
  | n + 1, i, st =>
      let c := st.mem i
      let st := if c = percent then st.cComma c else st
      unescapeLoop n (i + 1#64) (st.cComma c)

/-- {lit}`unescape` -/
def unescape (st : State) (t : Text) (dest : BitVec 64) : State × Text :=
  let st' := unescapeLoop t.len t.addr { st with dp := dest }
  ({ st' with dp := st.dp }, ⟨dest, (st'.dp - dest).toNat⟩)

/-- The loop of {lit}`$unescape`, with its output -/
def stringUnescapeLoop (mem : Memory 64 Byte) : Nat → BitVec 64 → List Byte
  | 0, _ => []
  | n + 1, i =>
      (if mem i = percent then [mem i, percent] else [mem i]) ++ stringUnescapeLoop mem n (i + 1#64)

/-- {lit}`$unescape` -/
def stringUnescape (mem : Memory 64 Byte) (t : Text) : List Byte :=
  stringUnescapeLoop mem t.len t.addr

/-! ## Doubled percent signs -/

/-- The percent signs of a text are doubled. -/
def doubled : List Byte → List Byte
  | [] => []
  | c :: s => if c = percent then c :: c :: doubled s else c :: doubled s

/-- Doubled percent signs are expanded to the text. -/
theorem expand_doubled (s : List Byte) : expand macros none (doubled s) = (s, 0) := by
  induction s with
  | nil => rfl
  | cons c s ih =>
      rw [doubled]
      split
      · rename_i hc
        subst hc
        rw [expand_percent, expand_name_cons, if_neg (not_not.2 rfl), ih]
        rfl
      · rename_i hc
        rw [expand_cons, if_neg hc, ih]

/-- {lit}`$unescape` doubles the percent signs. -/
theorem stringUnescape_eq (t : Text) : stringUnescape mem t = doubled (t.chars mem) := by
  have hloop : ∀ n a, stringUnescapeLoop mem n a = doubled (mem.text a n) := by
    intro n
    induction n with
    | zero => exact fun a => rfl
    | succ n ih =>
        intro a
        rw [stringUnescapeLoop, Memory.text_succ, doubled, ih]
        split
        · rename_i hc
          rw [hc]
          rfl
        · rfl
  exact hloop t.len t.addr

/-- The next {lit}`m` bytes of the dictionary do not overlap the next {lit}`n` characters. -/
def Apart (i : BitVec 64) (n : Nat) (dp : BitVec 64) (m : Nat) : Prop :=
  ∀ k < n, ∀ j < m, i + BitVec.ofNat 64 k ≠ dp + BitVec.ofNat 64 j

/-- The text is shorter than the memory. -/
theorem Apart.lt {i dp : BitVec 64} {n m : Nat} (h : Apart i n dp m) (hpos : 0 < n) : m < 2 ^ 64 := by
  by_contra hle
  have hlt := (i - dp).isLt
  refine h 0 hpos (i - dp).toNat (by omega) ?_
  rw [BitVec.ofNat_toNat, BitVec.setWidth_eq, BitVec.add_zero, BitVec.add_comm, BitVec.sub_add_cancel]

/-- The next character is apart, too. -/
theorem Apart.next {i dp : BitVec 64} {n m : Nat} (h : Apart i (n + 1) dp m) :
    Apart (i + 1#64) n dp m := by
  intro k hk j hj
  rw [Memory.add_one_ofNat]
  exact h (k + 1) (by omega) j hj

/-- Storing a character leaves the others as they are. -/
theorem Apart.cComma {i : BitVec 64} {n m : Nat} {st : State} (h : Apart i n st.dp (m + 1))
    (c : Byte) :
    Apart i n (st.cComma c).dp m ∧ (st.cComma c).mem.text i n = st.mem.text i n := by
  constructor
  · intro k hk j hj
    rw [State.cComma, Memory.add_one_ofNat]
    exact h k hk (j + 1) (by omega)
  · refine Memory.text_congr _ fun k hk => ?_
    have hne := h k hk 0 (by omega)
    rw [BitVec.add_zero] at hne
    exact Function.update_of_ne hne _ _

/-- Characters were put into the dictionary. -/
def Put (st : State) (s : List Byte) (st' : State) : Prop :=
  st' = ⟨st.mem.store st.dp s, st.dp + BitVec.ofNat 64 s.length⟩

/-- One more character in front -/
theorem put_cons {st st' : State} {s : List Byte} {c : Byte} (h : Put (st.cComma c) s st')
    (hlt : s.length < 2 ^ 64) : Put st (c :: s) st' := by
  rw [Put] at h ⊢
  rw [h, State.cComma, Memory.store_update _ hlt, Memory.add_one_ofNat]
  rfl

/-- The loop puts the doubled text into the dictionary. -/
theorem unescapeLoop_put {n : Nat} {i : BitVec 64} {st : State}
    (h : Apart i n st.dp (doubled (st.mem.text i n)).length) :
    Put st (doubled (st.mem.text i n)) (unescapeLoop n i st) := by
  induction n generalizing i st with
  | zero => simp [Put, unescapeLoop, doubled]
  | succ n ih =>
      have hlt := h.lt (Nat.succ_pos n)
      have hnext := h.next
      rw [Memory.text_succ, doubled] at hlt hnext ⊢
      rw [unescapeLoop]
      by_cases hc : st.mem i = percent
      · simp only [if_pos hc] at hlt hnext ⊢
        simp only [List.length_cons] at hlt hnext
        obtain ⟨hone, htext⟩ := hnext.cComma (st.mem i)
        obtain ⟨htwo, htext'⟩ := hone.cComma (st.mem i)
        rw [htext] at htext'
        rw [← htext'] at htwo hlt ⊢
        exact put_cons (put_cons (ih htwo) (by omega)) (by rw [List.length_cons]; omega)
      · simp only [if_neg hc] at hlt hnext ⊢
        rw [List.length_cons] at hlt hnext
        obtain ⟨hone, htext⟩ := hnext.cComma (st.mem i)
        rw [← htext] at hone hlt ⊢
        exact put_cons (ih hone) (by omega)

/-- {lit}`unescape` puts the text with doubled percent signs into the buffer. -/
theorem unescape_spec {st : State} {t : Text} {dest : BitVec 64}
    (h : Apart t.addr t.len dest (doubled (t.chars st.mem)).length) :
    (unescape st t dest).2.chars (unescape st t dest).1.mem = doubled (t.chars st.mem) := by
  have hput : Put { st with dp := dest } _ _ := unescapeLoop_put h
  have hlt : (doubled (t.chars st.mem)).length < 2 ^ 64 := by
    rcases Nat.eq_zero_or_pos t.len with hzero | hpos
    · rw [chars_of_len_eq_zero hzero]
      decide
    · exact h.lt hpos
  rw [Put] at hput
  simp only [unescape, hput, Text.chars] at hlt ⊢
  rw [BitVec.add_comm, BitVec.add_sub_cancel, BitVec.toNat_ofNat, Nat.mod_eq_of_lt hlt]
  exact Memory.text_store_self _ hlt.le

/-! ## The results -/

/-- {lit}`substitute` writes into the buffer only, tells whether the text {lit}`s` fits into it, and
returns the text and the number of substitutions if it does. -/
def Yields (macros : Macros) (st : State) (t : Text) (s : List Byte) (n : Nat) : Prop :=
  ∀ addr2 len2, len2 < 2 ^ 64 →
    let (st', t', ior) := substitute macros st t addr2 len2
    (∀ b, (∀ i < len2, b ≠ addr2 + BitVec.ofNat 64 i) → st'.mem b = st.mem b) ∧
    (ior = -78 ↔ len2 < s.length) ∧
    (s.length ≤ len2 → t'.addr = addr2 ∧ t'.chars st'.mem = s ∧ ior = n)

/-- {lit}`substitute` yields what the text is expanded to. -/
theorem yields_expand (st : State) (t : Text) :
    Yields macros st t (expand macros none (t.chars st.mem)).1
      (expand macros none (t.chars st.mem)).2 := by
  intro addr2 len2 hlen2
  simp only [substitute, stringSubstitute_eq]
  generalize expand macros none (t.chars st.mem) = r
  refine ⟨?_, ?_, ?_⟩
  · intro b hb
    refine Memory.store_of_ne _ fun i hi => hb i ?_
    rw [List.length_take] at hi
    omega
  · split
    · omega
    · omega
  · intro hle
    rw [if_pos hle, Nat.min_eq_right hle, List.take_length]
    exact ⟨trivial, Memory.text_store_self _ (by omega), rfl⟩

/-- {lit}`substitute` substitutes a text from left to right, and it restores a text from the results
of {lit}`unescape` and {lit}`$unescape`. -/
theorem substitute_correct (macros : Macros) :
    (∀ st t dest, Apart t.addr t.len dest (doubled (t.chars st.mem)).length →
      Yields macros (unescape st t dest).1 (unescape st t dest).2 (t.chars st.mem) 0) ∧
    (∀ mem t st u, Text.chars st.mem u = stringUnescape mem t →
      Yields macros st u (t.chars mem) 0) ∧
    ∀ st t, Yields macros st t (expand macros none (t.chars st.mem)).1
      (expand macros none (t.chars st.mem)).2 := by
  refine ⟨?_, ?_, yields_expand macros⟩
  · intro st t dest hapart
    have hyields := yields_expand macros (unescape st t dest).1 (unescape st t dest).2
    rwa [unescape_spec hapart, expand_doubled] at hyields
  · intro mem t st u heq
    have hyields := yields_expand macros st u
    rwa [heq, stringUnescape_eq, expand_doubled] at hyields

/-- {lit}`a%b%` in memory, and the same text with its percent signs doubled behind it -/
def percents : State where
  mem := Memory.store (fun _ => 0#8) 0x1000#64 [0x61#8, percent, 0x62#8, percent,
    0x61#8, percent, percent, 0x62#8, percent, percent]
  dp := 0x3000#64

/-- The doubled percent signs do not begin the name of a macro. -/
theorem substitute_correct_percents :
    Yields (fun _ => some [0x63#8]) (unescape percents ⟨0x1000#64, 4⟩ 0x2000#64).1
        (unescape percents ⟨0x1000#64, 4⟩ 0x2000#64).2 [0x61#8, percent, 0x62#8, percent] 0 ∧
      Yields (fun _ => some [0x63#8]) percents ⟨0x1004#64, 6⟩ [0x61#8, percent, 0x62#8, percent] 0 ∧
      Yields (fun _ => some [0x63#8]) percents ⟨0x1000#64, 4⟩ [0x61#8, 0x63#8] 1 := by
  obtain ⟨hunescape, hstringUnescape, hexpand⟩ := substitute_correct fun _ => some [0x63#8]
  refine ⟨hunescape percents ⟨0x1000#64, 4⟩ 0x2000#64 ?_,
    hstringUnescape percents.mem ⟨0x1000#64, 4⟩ percents ⟨0x1004#64, 6⟩ (by decide),
    hexpand percents ⟨0x1000#64, 4⟩⟩
  show ∀ k < 4, ∀ j < 6, _
  decide

end Texts
end Gforth
