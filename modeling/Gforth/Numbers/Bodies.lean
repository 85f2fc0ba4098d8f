import Gforth.Numbers.Conversion

/-!
# Bodies of numbers

What is left of a number without its sign and its base prefix: digits, underscores and points.  The
loop of {lit}`s>unumber?` accepts every body that is not empty, in which no two points are adjacent
and which starts with a point only if there is something behind it; a digit is not needed.

Main results:

- Theorem {lit}`digit?_eq`: {lit}`digit?` up to base 36.
- Theorem {lit}`accumulateAll_eq_bodyValue`: the digits of a text are accumulated to its value.
- Theorem {lit}`convertUnsigned_flag_iff`: the bodies that are accepted.
- Theorem {lit}`convertUnsigned_of_body`: what is left for them.
-/

namespace Gforth
namespace Numbers

open Lib
open Memory

variable {w : Nat}

/-! ## The syntax of bodies -/

/-- The digit that a character stands for -/
def digitValue (c : Byte) : Option Nat :=
  if ascii '0' ≤ c ∧ c ≤ ascii '9' then some (c.toNat - 48)
  else if ascii 'A' ≤ c ∧ c ≤ ascii 'Z' then some (c.toNat - 55)
  else if ascii 'a' ≤ c ∧ c ≤ ascii 'z' then some (c.toNat - 87)
  else none

/-- The digit of a base -/
def digitOf (base : Nat) (c : Byte) : Option Nat :=
  (digitValue c).filter (· < base)

/-- A digit of the base, an underscore or a point -/
def BodyChar (base : Nat) (c : Byte) : Prop :=
  digitOf base c ≠ none ∨ c = ascii '_' ∨ c = ascii '.'

instance (base : Nat) : DecidablePred (BodyChar base) :=
  fun _ => inferInstanceAs (Decidable (_ ∨ _ ∨ _))

/-- Not two points -/
def Apart (c c' : Byte) : Prop :=
  c = ascii '.' → c' ≠ ascii '.'

instance : DecidableRel Apart :=
  fun _ _ => inferInstanceAs (Decidable (_ → _))

/-- The body of a number -/
structure Body (base : Nat) (t : List Byte) : Prop where
  nonempty : t ≠ []
  chars : ∀ c ∈ t, BodyChar base c
  apart : t.IsChain Apart
  leading : t.head? = some (ascii '.') → 1 < t.length

/-- The value of the digits of a body, without underscores and points -/
def bodyValue (base : Nat) (t : List Byte) : Nat :=
  Nat.ofDigits base (t.filterMap (digitOf base)).reverse

/-- The number of characters behind the last point -/
def afterPoint : List Byte → Option Nat
  | [] => none
  | c :: t => (afterPoint t).or (if c = ascii '.' then some t.length else none)

/-- {lit}`dpl` for a body -/
def pointPlace (t : List Byte) (dpl : BitVec w) : BitVec w :=
  ((afterPoint t).map (BitVec.ofNat w)).getD dpl

/-! ## Digits -/

/-- A character is a digit of the base, or of none, or of a greater base. -/
theorem anyDigit_cases (c : Byte) :
    anyDigit c = digitValue c ∨ digitValue c = none ∧ ∃ d, anyDigit c = some d ∧ 36 ≤ d := by
  have h : ∀ c : Byte, anyDigit c = digitValue c ∨
      digitValue c = none ∧ (anyDigit c).isSome ∧ 36 ≤ (anyDigit c).getD 0 := by
    decide
  rcases h c with heq | ⟨hnone, hsome, hle⟩
  · exact .inl heq
  · obtain ⟨d, hd⟩ := Option.isSome_iff_exists.mp hsome
    rw [hd, Option.getD_some] at hle
    exact .inr ⟨hnone, d, hd, hle⟩

variable {base : BitVec w}

/-- {lit}`digit?` up to base 36, where no digit lies beyond {lit}`Z` -/
theorem digit?_eq (hw : 8 ≤ w) (hbase : base.toNat ≤ 36) (c : Byte) :
    digit? base c = (digitOf base.toNat c).map (BitVec.ofNat w) := by
  rw [digit?_eq_anyDigit hw (by omega), digitOf]
  rcases anyDigit_cases c with heq | ⟨hnone, d, hd, hle⟩
  · rw [heq]
  · rw [hnone, hd, Option.filter_some_neg (by simp; omega)]
    rfl

theorem numberChar_or_point_iff (hw : 8 ≤ w) (hbase : base.toNat ≤ 36) (c : Byte) :
    NumberChar base c ∨ c = ascii '.' ↔ BodyChar base.toNat c := by
  rw [NumberChar, BodyChar, digit?_eq hw hbase, ne_eq, Option.map_eq_none_iff, or_assoc]

theorem not_numberChar_point (hw : 8 ≤ w) (hbase : base.toNat ≤ 36) :
    ¬NumberChar base (ascii '.') := by
  have hvalue : digitValue (ascii '.') = none := by decide
  rw [NumberChar, digit?_eq hw hbase, digitOf, hvalue]
  simp [ascii]

theorem digitOf_lt {base : Nat} {c : Byte} {d : Nat} (h : digitOf base c = some d) : d < base := by
  rw [digitOf, Option.filter_eq_some_iff] at h
  simpa using h.2

/-- One character more -/
theorem bodyValue_append_singleton (base : Nat) (t : List Byte) (c : Byte) :
    bodyValue base (t ++ [c]) =
      ((digitOf base c).map fun d => d + base * bodyValue base t).getD (bodyValue base t) := by
  rw [bodyValue, List.filterMap_append, List.reverse_append]
  cases hc : digitOf base c with
  | none => simp [hc, bodyValue]
  | some d => simp [hc, bodyValue, Nat.ofDigits_cons]

/-- The digits of a text are accumulated to its value. -/
theorem accumulateAll_eq_bodyValue (hw : 8 ≤ w) (hbase : base.toNat ≤ 36) (t : List Byte) :
    accumulateAll base 0#(w + w) t = BitVec.ofNat (w + w) (bodyValue base.toNat t) := by
  induction t using List.reverseRecOn with
  | nil => rfl
  | append_singleton t c ih =>
      rw [accumulateAll_append, ih, bodyValue_append_singleton]
      have hdigit := digit?_eq hw hbase c
      cases hc : digitOf base.toNat c with
      | none =>
          rw [hc, Option.map_none] at hdigit
          rw [accumulateAll_cons_none hdigit]
          rfl
      | some d =>
          rw [hc, Option.map_some] at hdigit
          have hlt : d < 2 ^ w := (digitOf_lt hc).trans base.isLt
          rw [accumulateAll_cons_some hdigit, accumulate_eq]
          refine BitVec.eq_of_toNat_eq ?_
          change (BitVec.ofNat (w + w) _).toNat = (BitVec.ofNat (w + w) (d + _)).toNat
          rw [BitVec.toNat_ofNat, BitVec.toNat_ofNat, BitVec.toNat_ofNat, BitVec.toNat_ofNat,
            Nat.mod_eq_of_lt hlt, Nat.add_comm, Nat.mul_comm]
          exact ((Nat.mod_modEq _ _).mul_left base.toNat).add_left d

/-! ## The loop -/

/-- A text whose parts between points are not empty, except the last one -/
structure Fields (base : BitVec w) (t : List Byte) : Prop where
  chars : ∀ c ∈ t, NumberChar base c ∨ c = ascii '.'
  apart : t.IsChain Apart
  leading : t.head? ≠ some (ascii '.')

/-- A field with another character behind it -/
theorem not_fields_append {field t : List Byte} {c : Byte} (hchar : ¬NumberChar base c)
    (hpoint : field = [] ∨ c ≠ ascii '.') : ¬Fields base (field ++ c :: t) := by
  rintro ⟨hchars, -, hleading⟩
  have hc : c = ascii '.' := (hchars c (by simp)).resolve_left hchar
  rcases hpoint with rfl | hne
  · exact hleading (by rw [hc]; rfl)
  · exact hne hc

theorem pointPlace_point (t : List Byte) (dpl : BitVec w) :
    pointPlace (ascii '.' :: t) dpl = pointPlace t (BitVec.ofNat w t.length) := by
  rw [pointPlace, afterPoint, if_pos rfl, pointPlace]
  cases afterPoint t <;> rfl

section

variable (hw : 8 ≤ w) {base : BitVec w} (hbase : base.toNat ≤ 36) {field t : List Byte}
  (hfield : ∀ c ∈ field, NumberChar base c)
include hw hbase hfield

theorem ne_point_of_field : ∀ c ∈ field, c ≠ ascii '.' := by
  rintro c hc rfl
  exact not_numberChar_point hw hbase (hfield _ hc)

/-- A field does not change whether separators are apart. -/
theorem isChain_field (s : List Byte) : (field ++ s).IsChain Apart ↔ s.IsChain Apart := by
  have hne := ne_point_of_field hw hbase hfield
  clear hfield
  induction field with
  | nil => rfl
  | cons c field ih =>
      refine List.isChain_cons.trans ((and_congr_right' (ih ?_)).trans (and_iff_right ?_))
      · exact fun x hx => hne x (List.mem_cons_of_mem c hx)
      · exact fun y _ hc => absurd hc (hne c List.mem_cons_self)

/-- A field alone -/
theorem fields_field : Fields base field := by
  refine ⟨fun c hc => .inl (hfield c hc), ?_, fun h => ?_⟩
  · have := (isChain_field hw hbase hfield []).mpr .nil
    rwa [List.append_nil] at this
  · exact ne_point_of_field hw hbase hfield _ (List.mem_of_mem_head? h) rfl

/-- A field in front of others -/
theorem fields_append_point (hne : field ≠ []) :
    Fields base (field ++ ascii '.' :: t) ↔ Fields base t := by
  have hchain : (field ++ ascii '.' :: t).IsChain Apart ↔
      (∀ y ∈ t.head?, y ≠ ascii '.') ∧ t.IsChain Apart := by
    rw [isChain_field hw hbase hfield, List.isChain_cons]
    simp only [Apart, true_implies]
  constructor
  · rintro ⟨hchars, hapart, -⟩
    obtain ⟨hhead, htail⟩ := hchain.mp hapart
    exact ⟨fun c hc => hchars c (List.mem_append_right _ (List.mem_cons_of_mem _ hc)), htail,
      fun h => hhead _ h rfl⟩
  · rintro ⟨hchars, hapart, hleading⟩
    refine ⟨fun c hc => ?_, hchain.mpr ⟨fun y hy hpoint => hleading (hpoint ▸ hy), hapart⟩, ?_⟩
    · rcases List.mem_append.mp hc with hc | hc
      · exact .inl (hfield c hc)
      · rcases List.mem_cons.mp hc with rfl | hc
        · exact .inr rfl
        · exact hchars c hc
    · rw [List.head?_append_of_ne_nil _ hne]
      exact fun h => ne_point_of_field hw hbase hfield _ (List.mem_of_mem_head? h) rfl

/-- There is nothing behind the point of a field without one. -/
theorem afterPoint_field : afterPoint field = none := by
  have hne := ne_point_of_field hw hbase hfield
  clear hfield
  induction field with
  | nil => rfl
  | cons c field ih =>
      rw [afterPoint, ih fun x hx => hne x (List.mem_cons_of_mem c hx),
        if_neg (hne c List.mem_cons_self)]
      rfl

theorem pointPlace_field (dpl : BitVec w) : pointPlace field dpl = dpl := by
  rw [pointPlace, afterPoint_field hw hbase hfield]
  rfl

/-- The place behind a field and a point -/
theorem pointPlace_append_point (dpl : BitVec w) :
    pointPlace (field ++ ascii '.' :: t) dpl = pointPlace t (BitVec.ofNat w t.length) := by
  rw [← pointPlace_point t dpl]
  have hne := ne_point_of_field hw hbase hfield
  clear hfield
  induction field with
  | nil => rfl
  | cons c field ih =>
      rw [← ih fun x hx => hne x (List.mem_cons_of_mem c hx), List.cons_append, pointPlace, afterPoint,
        if_neg (hne c List.mem_cons_self), Option.or_none]
      rfl

end

/-- The loop converts fields with points between them, and nothing else. -/
theorem convert_spec (hw : 8 ≤ w) (hbase : base.toNat ≤ 36) (mem : Chars w) (d : BitVec (w + w))
    (a : BitVec w) {n : Nat} (hn : 2 * n < 2 ^ w) (dpl : BitVec w) :
    (Fields base (text mem a n) → convert mem base d a n dpl =
        ⟨accumulateAll base d (text mem a n), true, pointPlace (text mem a n) dpl⟩) ∧
      ((convert mem base d a n dpl).flag = true → Fields base (text mem a n)) := by
  induction n using Nat.strong_induction_on generalizing d a dpl with
  | _ n ih =>
      obtain ⟨k, hle, hchars, hend, hround⟩ := convert_round mem base d a n dpl
      rw [hround]
      by_cases hall : k = n
      · subst hall
        rw [if_pos rfl, pointPlace_field hw hbase hchars]
        exact ⟨fun _ => rfl, fun _ => fields_field hw hbase hchars⟩
      · rw [if_neg hall]
        have hstop := (hend hn).resolve_left hall
        have hrest : text mem a n = text mem a k ++ mem (a + BitVec.ofNat w k) ::
            text mem (a + BitVec.ofNat w (k + 1)) (n - (k + 1)) := by
          rw [show n = k + ((n - (k + 1)) + 1) by omega, text_add, text_succ, ← add_ofNat_ofNat a k 1]
          congr 3
          omega
        have hnil : text mem a k = [] ↔ k = 0 := by
          rw [← List.length_eq_zero_iff, length_text]
        rw [hrest]
        by_cases hpoint : 0 < k ∧ mem (a + BitVec.ofNat w k) = ascii '.'
        · obtain ⟨hconv, hflag⟩ := ih (n - (k + 1)) (by omega)
            (accumulateAll base d (text mem a k)) (a + BitVec.ofNat w (k + 1)) (by omega)
            (BitVec.ofNat w (n - (k + 1)))
          have hskip : digit? base (ascii '.') = none := by
            by_contra hdigit
            exact not_numberChar_point hw hbase (.inl hdigit)
          rw [if_pos hpoint, hpoint.2,
            fields_append_point hw hbase hchars (fun h => by have := hnil.mp h; omega),
            pointPlace_append_point hw hbase hchars, accumulateAll_append,
            accumulateAll_cons_none hskip, length_text]
          exact ⟨hconv, hflag⟩
        · rw [if_neg hpoint]
          have hnot : ¬Fields base (text mem a k ++ mem (a + BitVec.ofNat w k) ::
              text mem (a + BitVec.ofNat w (k + 1)) (n - (k + 1))) := by
            refine not_fields_append hstop ?_
            by_cases hzero : k = 0
            · exact .inl (hnil.mpr hzero)
            · exact .inr fun h => hpoint ⟨by omega, h⟩
          exact ⟨fun h => absurd h hnot, fun h => by cases h⟩

/-! ## Whole bodies -/

/-- The loop accepts the bodies that the grammar describes. -/
theorem body_iff_fields (hw : 8 ≤ w) (hbase : base.toNat ≤ 36) {t : List Byte} (hne : t ≠ [])
    (hhead : t.head? ≠ some (ascii '.')) : Body base.toNat t ↔ Fields base t := by
  constructor
  · rintro ⟨-, hchars, hapart, -⟩
    exact ⟨fun c hc => (numberChar_or_point_iff hw hbase c).mpr (hchars c hc), hapart, hhead⟩
  · rintro ⟨hchars, hapart, -⟩
    exact ⟨hne, fun c hc => (numberChar_or_point_iff hw hbase c).mp (hchars c hc), hapart,
      fun h => absurd h hhead⟩

/-- Bodies that start with a point -/
theorem body_point_iff_fields (hw : 8 ≤ w) (hbase : base.toNat ≤ 36) {t : List Byte}
    (hne : t ≠ []) : Body base.toNat (ascii '.' :: t) ↔ Fields base t := by
  constructor
  · rintro ⟨-, hchars, hapart, -⟩
    obtain ⟨hhead, htail⟩ := List.isChain_cons.mp hapart
    exact ⟨fun c hc => (numberChar_or_point_iff hw hbase c).mpr
      (hchars c (List.mem_cons_of_mem _ hc)), htail, fun h => hhead _ h rfl rfl⟩
  · rintro ⟨hchars, hapart, hleading⟩
    refine ⟨List.cons_ne_nil _ _, ?_, List.isChain_cons.mpr ⟨?_, hapart⟩, fun _ => ?_⟩
    · intro c hc
      rcases List.mem_cons.mp hc with rfl | hc
      · exact .inr (.inr rfl)
      · exact (numberChar_or_point_iff hw hbase c).mp (hchars c hc)
    · exact fun y hy _ hpoint => hleading (hpoint ▸ hy)
    · have := List.length_pos_of_ne_nil hne
      rw [List.length_cons]
      omega

section

variable (mem : Chars w) {base : BitVec w} (s : Str w) (negative : Bool)

/-- The loop starts behind a leading point. -/
theorem convertUnsigned_of_leading (hpoint : s.head mem = ascii '.') (hlen : 1 < s.len.toNat) :
    convertUnsigned mem base s negative =
      let r := convert mem base 0#(w + w) (s.addr + 1#w) (s.len.toNat - 1)
        (BitVec.ofNat w (s.len.toNat - 1))
      if r.flag then { r with value := dnegate? r.value negative } else r := by
  have hone : (1#w).toNat < s.len.toNat := lt_of_le_of_lt (Nat.mod_le 1 _) hlen
  have hrest := Str.toNat_len_slashString s hlen.le
  have hne : s.len ≠ 0#w := by
    intro hzero
    rw [hzero, BitVec.toNat_zero] at hlen
    omega
  have hdpl : s.len - 1#w = BitVec.ofNat w (s.len.toNat - 1) := by
    rw [← hrest, BitVec.ofNat_toNat, BitVec.setWidth_eq]
    rfl
  rw [convertUnsigned, if_pos hne, if_pos ⟨hpoint, BitVec.lt_def.mpr hone⟩]
  simp only [hdpl]
  rw [← hrest]
  rfl

/-- The loop starts with a text that is no longer than its point or does not start with one. -/
theorem convertUnsigned_of_not_leading (hne : s.len ≠ 0#w)
    (hpoint : ¬(s.head mem = ascii '.' ∧ 1#w < s.len)) :
    convertUnsigned mem base s negative =
      let r := convert mem base 0#(w + w) s.addr s.len.toNat (BitVec.allOnes w)
      if r.flag then { r with value := dnegate? r.value negative } else r := by
  rw [convertUnsigned, if_pos hne, if_neg hpoint]

/-- The text that the loop starts with, and the {lit}`dpl` it starts with -/
theorem convertUnsigned_eq (hw : 8 ≤ w) (hne : s.chars mem ≠ []) :
    ∃ a n dpl, convertUnsigned mem base s negative =
        (let r := convert mem base 0#(w + w) a n dpl
        if r.flag then { r with value := dnegate? r.value negative } else r) ∧ n ≤ s.len.toNat ∧
      (s.chars mem = ascii '.' :: text mem a n ∧ text mem a n ≠ [] ∧ dpl = BitVec.ofNat w n ∨
        s.chars mem = text mem a n ∧ dpl = BitVec.allOnes w ∧
          ((s.chars mem).head? = some (ascii '.') → s.chars mem = [ascii '.'])) := by
  have hcons := Str.chars_eq_cons mem s hne
  have hlen : 0 < s.len.toNat := by
    rw [← Str.length_chars mem s]
    exact List.length_pos_of_ne_nil hne
  by_cases hpoint : s.head mem = ascii '.' ∧ 1 < s.len.toNat
  · refine ⟨_, _, _, convertUnsigned_of_leading mem s negative hpoint.1 hpoint.2, by omega, .inl ?_⟩
    refine ⟨?_, fun h => ?_, rfl⟩
    · rw [hcons, hpoint.1, Str.chars, show 1#w = BitVec.ofNat w 1 from rfl,
        Str.toNat_len_slashString s hlen]
      rfl
    · have hzero := congrArg List.length h
      rw [length_text, List.length_nil] at hzero
      omega
  · have hone : 1#w < s.len ↔ 1 < s.len.toNat := by
      rw [BitVec.lt_def, BitVec.toNat_one (by omega)]
    refine ⟨_, _, _, convertUnsigned_of_not_leading mem s negative
      ((Str.len_ne_zero_iff mem s).mpr hne) (by rwa [hone]), Nat.le_refl _, .inr ⟨rfl, rfl, ?_⟩⟩
    intro hhead
    rw [hcons, List.head?_cons, Option.some_inj] at hhead
    have hle : ¬1 < s.len.toNat := fun h => hpoint ⟨hhead, h⟩
    have hshort : ((s.slashString 1#w).chars mem).length = 0 := by
      rw [Str.length_chars, show 1#w = BitVec.ofNat w 1 from rfl,
        Str.toNat_len_slashString (k := 1) s hlen]
      omega
    rw [hcons, hhead, List.length_eq_zero_iff.mp hshort]

theorem flag_signed (r : Converted w) :
    (if r.flag then { r with value := dnegate? r.value negative } else r).flag = r.flag := by
  split <;> rfl

/-- What is converted consists of the characters of bodies, also in a text that wraps around. -/
theorem convertUnsigned_chars (hw : 8 ≤ w) (hbase : base.toNat ≤ 36)
    (h : (convertUnsigned mem base s negative).flag = true) :
    ∀ c ∈ s.chars mem, BodyChar base.toNat c := by
  intro c hc
  obtain ⟨a, n, dpl, heq, -, hcases⟩ :=
    @convertUnsigned_eq w mem base s negative hw (List.ne_nil_of_mem hc)
  rw [heq, flag_signed] at h
  have hchars := convert_chars h
  rcases hcases with ⟨htext, -, -⟩ | ⟨htext, -, -⟩
  · rw [htext] at hc
    rcases List.mem_cons.mp hc with rfl | hc
    · exact .inr (.inr rfl)
    · exact (numberChar_or_point_iff hw hbase c).mp (hchars c hc)
  · rw [htext] at hc
    exact (numberChar_or_point_iff hw hbase c).mp (hchars c hc)

/-- A point at the start does not change the value. -/
theorem bodyValue_point (base : Nat) (t : List Byte) :
    bodyValue base (ascii '.' :: t) = bodyValue base t := by
  have hpoint : digitOf base (ascii '.') = none := by
    rw [digitOf, show digitValue (ascii '.') = none by decide]
    rfl
  rw [bodyValue, List.filterMap_cons_none hpoint, bodyValue]

/-- The bodies that are accepted, and what is left for them -/
theorem convertUnsigned_spec (hw : 8 ≤ w) (hbase : base.toNat ≤ 36)
    (hlen : 2 * s.len.toNat < 2 ^ w) :
    (Body base.toNat (s.chars mem) → convertUnsigned mem base s negative =
        ⟨dnegate? (BitVec.ofNat (w + w) (bodyValue base.toNat (s.chars mem))) negative, true,
          pointPlace (s.chars mem) (BitVec.allOnes w)⟩) ∧
      ((convertUnsigned mem base s negative).flag = true → Body base.toNat (s.chars mem)) := by
  by_cases hne : s.chars mem = []
  · refine ⟨fun h => absurd hne h.nonempty, fun h => ?_⟩
    have hzero : ¬s.len ≠ 0#w := fun h => (Str.len_ne_zero_iff mem s).mp h hne
    rw [convertUnsigned, if_neg hzero] at h
    cases h
  · obtain ⟨a, n, dpl, heq, hn, hcases⟩ := @convertUnsigned_eq w mem base s negative hw hne
    obtain ⟨hconv, hflag⟩ := convert_spec hw hbase mem 0#(w + w) a (n := n) (by omega) dpl
    rw [heq]
    have hbody : Body base.toNat (s.chars mem) ↔ Fields base (text mem a n) := by
      rcases hcases with ⟨htext, hrest, -⟩ | ⟨htext, -, hleading⟩
      · rw [htext]
        exact body_point_iff_fields hw hbase hrest
      · rw [← htext]
        by_cases hhead : (s.chars mem).head? = some (ascii '.')
        · rw [hleading hhead]
          exact iff_of_false (fun h => absurd (h.leading rfl) (by decide)) fun h => h.leading rfl
        · exact body_iff_fields hw hbase hne hhead
    rw [hbody, flag_signed]
    refine ⟨fun h => ?_, hflag⟩
    simp only [hconv h, if_true]
    have hvalue := accumulateAll_eq_bodyValue hw hbase (text mem a n)
    rcases hcases with ⟨htext, -, hdpl⟩ | ⟨htext, hdpl, -⟩
    · rw [hvalue, htext, bodyValue_point, pointPlace_point, length_text, hdpl]
    · rw [hvalue, htext, hdpl]

end

end Numbers
end Gforth
