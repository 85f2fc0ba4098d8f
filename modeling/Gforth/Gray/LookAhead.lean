import Gforth.Gray.Grammar

/-!
# Parsing with one token of lookahead

Generated code parses the language of its syntax-expr if the first sets and the follow sets have
the properties that make one token of lookahead enough.

Main results:

- Theorem {lit}`accepts_derives`: what the code accepts is in the language.
- Theorem {lit}`derives_accepts`: what is in the language is accepted, before anything that may
  follow.
- Theorem {lit}`code_halts`: the code halts on every sequence of tokens.
-/

namespace Gforth
namespace Gray

open Lib Recognizer

variable (g : Grammar)

/-! ## First sets -/

/-- The first set of a syntax-expr and whether it can be empty, by the rules of {lit}`compute`. -/
inductive Value : Node → Finset Nat → Bool → Prop
  | eps : Value .eps ∅ true
  | terminal {set} : Value (.terminal set) set false
  | concatStop {a b F} : Value (g a) F false → Value (.concat a b) F false
  | concat {a b F F' m} : Value (g a) F true → Value (g b) F' m → Value (.concat a b) (F ∪ F') m
  | alt {a b F F' m m'} : Value (g a) F m → Value (g b) F' m' →
      Value (.alt a b) (F ∪ F') (m || m')
  | option {a F m} : Value (g a) F m → Value (.option a) F true
  | star {a F m} : Value (g a) F m → Value (.star a) F true
  | plus {a F m} : Value (g a) F m → Value (.plus a) F m
  | nt {body F m} : Value (g body) F m → Value (.nt (some body)) F m

variable {g}

variable {n : Node} {u : List Nat} {F : Finset Nat} {m : Bool} {c : Code} {i k : List Nat}
  {v : List Nat}

/-- A syntax-expr has one first set. -/
theorem Value.unique {F F' : Finset Nat} {m m' : Bool} (h : Value g n F m) (h' : Value g n F' m') :
    F = F' ∧ m = m' := by
  induction h generalizing F' m' with
  | eps => cases h'; exact ⟨rfl, rfl⟩
  | terminal => cases h'; exact ⟨rfl, rfl⟩
  | concatStop _ ih =>
    cases h' with
    | concatStop ha => exact ih ha
    | concat ha _ => exact absurd (ih ha).2 Bool.false_ne_true
  | concat _ _ iha ihb =>
    cases h' with
    | concatStop ha => exact absurd (iha ha).2.symm Bool.false_ne_true
    | concat ha hb => exact ⟨by rw [(iha ha).1, (ihb hb).1], (ihb hb).2⟩
  | alt _ _ iha ihb =>
    cases h' with
    | alt ha hb => exact ⟨by rw [(iha ha).1, (ihb hb).1], by rw [(iha ha).2, (ihb hb).2]⟩
  | option _ ih => cases h' with | option ha => exact ⟨(ih ha).1, rfl⟩
  | star _ ih => cases h' with | star ha => exact ⟨(ih ha).1, rfl⟩
  | plus _ ih => cases h' with | plus ha => exact ih ha
  | nt _ ih => cases h' with | nt ha => exact ih ha

/-- A syntax-expr that has an empty sequence in its language can be empty. -/
theorem Derives.maybeEmpty (h : Derives g n u) (hu : u = []) (hv : Value g n F m) : m = true := by
  induction h generalizing F m with
  | eps => cases hv; rfl
  | terminal => cases hu
  | concat _ _ iha ihb =>
    obtain ⟨ha, hb⟩ := List.append_eq_nil_iff.mp hu
    cases hv with
    | concatStop va => exact iha ha va
    | concat va vb => exact ihb hb vb
  | alt1 _ ih => cases hv with | alt va vb => rw [ih hu va, Bool.true_or]
  | alt2 _ ih => cases hv with | alt va vb => rw [ih hu vb, Bool.or_true]
  | optionNone => cases hv; rfl
  | optionSome => cases hv; rfl
  | starNone => cases hv; rfl
  | starSome => cases hv; rfl
  | plusOne _ ih => cases hv with | plus va => exact ih hu va
  | plusMore _ _ ih _ =>
    cases hv with | plus va => exact ih (List.append_eq_nil_iff.mp hu).1 va
  | nt _ ih => cases hv with | nt va => exact ih hu va

/-- The first token of a sequence in the language is in the first set. -/
theorem Derives.head_mem (h : Derives g n u) {t : Nat} {w : List Nat} (hu : u = t :: w)
    (hv : Value g n F m) : t ∈ F := by
  induction h generalizing w F m with
  | eps => cases hu
  | terminal ht => cases hv; cases hu; exact ht
  | concat ha _ iha ihb =>
    rcases List.append_eq_cons_iff.mp hu with ⟨hnil, hcons⟩ | ⟨w', hcons, -⟩
    · cases hv with
      | concatStop va => exact absurd (ha.maybeEmpty hnil va) Bool.false_ne_true
      | concat va vb => exact Finset.mem_union_right _ (ihb hcons vb)
    · cases hv with
      | concatStop va => exact iha hcons va
      | concat va vb => exact Finset.mem_union_left _ (iha hcons va)
  | alt1 _ ih => cases hv with | alt va vb => exact Finset.mem_union_left _ (ih hu va)
  | alt2 _ ih => cases hv with | alt va vb => exact Finset.mem_union_right _ (ih hu vb)
  | optionNone => cases hu
  | optionSome _ ih => cases hv with | option va => exact ih hu va
  | starNone => cases hu
  | starSome _ _ iha ih =>
    rcases List.append_eq_cons_iff.mp hu with ⟨-, hcons⟩ | ⟨w', hcons, -⟩
    · exact ih hcons hv
    · cases hv with | star va => exact iha hcons va
  | plusOne _ ih => cases hv with | plus va => exact ih hu va
  | plusMore _ _ iha ih =>
    rcases List.append_eq_cons_iff.mp hu with ⟨-, hcons⟩ | ⟨w', hcons, -⟩
    · exact ih hcons hv
    · cases hv with | plus va => exact iha hcons va
  | nt _ ih => cases hv with | nt va => exact ih hu va

/-! ## The tables of a conflict-free grammar -/

variable (g)

/-- The code that {lit}`generate` makes for a syntax-expr -/
inductive Generated : Nat → Node → Code → Prop
  | eps {e} : Generated e .eps .skip
  | terminal {e set} : Generated e (.terminal set) (.token (compileTest set))
  | concat {e a b ca cb} : Generated a (g a) ca → Generated b (g b) cb →
      Generated e (.concat a b) (.seq ca cb)
  | alternative1 {e a b ca cb F} : Value g (g a) F false → Generated a (g a) ca →
      Generated b (g b) cb → Generated e (.alt a b) (.branch (compileTest F) ca cb)
  | alternative2 {e a b ca cb F F' m} : Value g (g a) F true → Value g (g b) F' m →
      Generated a (g a) ca → Generated b (g b) cb →
      Generated e (.alt a b)
        (.branch (fun token => !compileTest F token && compileTest F' token) cb ca)
  | option {e a ca F m} : Value g (g a) F m → Generated a (g a) ca →
      Generated e (.option a) (.branch (compileTest F) ca .skip)
  | star {e a ca F m} : Value g (g a) F m → Generated a (g a) ca →
      Generated e (.star a) (.whileDo (compileTest F) ca)
  | plus {e a ca F m} : Value g (g a) F m → Generated a (g a) ca →
      Generated e (.plus a) (.doUntil ca fun token => !compileTest F token)
  | nt {e body} : Generated e (.nt body) (.call e)

/-- Every word that {lit}`exec` points to is the code of the body of its rule. -/
def ExecOk (exec : Nat → Option Code) : Prop :=
  ∀ ⦃e code⦄, exec e = some code →
    ∃ body, g e = .nt (some body) ∧ Generated g body (g body) code

/-- What the follow sets, the generated code and the set of visited syntax-exprs have to fulfil at
one syntax-expr -/
def Entry (follow : Nat → Finset Nat) (exec : Nat → Option Code) (visited : Nat → Prop) (e : Nat) :
    Node → Prop
  | .eps => True
  | .terminal _ => True
  | .concat a b => visited a ∧ visited b ∧ follow e ⊆ follow b ∧
      ∀ ⦃F m⦄, Value g (g b) F m → F ⊆ follow a ∧ (m = true → follow e ⊆ follow a)
  | .alt a b => visited a ∧ visited b ∧ follow e ⊆ follow a ∧ follow e ⊆ follow b ∧
      ∀ ⦃F m F' m'⦄, Value g (g a) F m → Value g (g b) F' m' →
        Disjoint F F' ∧ ((m || m') = true → Disjoint (F ∪ F') (follow e))
  | .option a => visited a ∧ follow e ⊆ follow a ∧
      ∀ ⦃F m⦄, Value g (g a) F m → Disjoint F (follow e)
  | .star a => visited a ∧ follow e ⊆ follow a ∧
      ∀ ⦃F m⦄, Value g (g a) F m → Disjoint F (follow e) ∧ F ⊆ follow a
  | .plus a => visited a ∧ follow e ⊆ follow a ∧
      ∀ ⦃F m⦄, Value g (g a) F m → Disjoint F (follow e) ∧ F ⊆ follow a
  | .nt none => False
  | .nt (some body) => visited body ∧ follow e ⊆ follow body ∧ ∃ code, exec e = some code

/-- One token of lookahead is enough at all visited syntax-exprs. -/
structure OneToken (follow : Nat → Finset Nat) (exec : Nat → Option Code) (visited : Nat → Prop) :
    Prop where
  execOk : ExecOk g exec
  value : ∀ ⦃e⦄, visited e → ∃ F m, Value g (g e) F m
  entry : ∀ ⦃e⦄, visited e → Entry g follow exec visited e (g e)

variable {g} {exec : Nat → Option Code} {follow : Nat → Finset Nat} {visited : Nat → Prop}

/-- The test for a set of tokens looks at the next token. -/
theorem compileTest_head {i : List Nat} :
    compileTest F i.head? = true ↔ ∃ t w, i = t :: w ∧ t ∈ F := by
  cases i with
  | nil => simp [compileTest]
  | cons t w => simp [compileTest]

/-! ## What is accepted -/

/-- What generated code reads is in the language of its syntax-expr. -/
theorem accepts_derives (hexec : ExecOk g exec) (h : Accepts exec c i k) {e : Nat} (hn : g e = n)
    (hc : Generated g e n c) : ∃ u, i = u ++ k ∧ Derives g n u := by
  induction h generalizing e n with
  | skip i =>
    cases hc
    exact ⟨[], rfl, .eps⟩
  | token ht =>
    cases hc
    obtain ⟨t, w, rfl, hmem⟩ := compileTest_head.mp ht
    exact ⟨[t], rfl, .terminal hmem⟩
  | seq _ _ iha ihb =>
    cases hc with
    | concat ca cb =>
      obtain ⟨u, rfl, hu⟩ := iha rfl ca
      obtain ⟨v, rfl, hv⟩ := ihb rfl cb
      exact ⟨u ++ v, (List.append_assoc ..).symm, .concat hu hv⟩
  | branchThen _ _ ih =>
    cases hc with
    | alternative1 _ ca cb =>
      obtain ⟨u, hi, hu⟩ := ih rfl ca
      exact ⟨u, hi, .alt1 hu⟩
    | alternative2 _ _ ca cb =>
      obtain ⟨u, hi, hu⟩ := ih rfl cb
      exact ⟨u, hi, .alt2 hu⟩
    | option _ ca =>
      obtain ⟨u, hi, hu⟩ := ih rfl ca
      exact ⟨u, hi, .optionSome hu⟩
  | branchElse _ hskip ih =>
    cases hc with
    | alternative1 _ ca cb =>
      obtain ⟨u, hi, hu⟩ := ih rfl cb
      exact ⟨u, hi, .alt2 hu⟩
    | alternative2 _ _ ca cb =>
      obtain ⟨u, hi, hu⟩ := ih rfl ca
      exact ⟨u, hi, .alt1 hu⟩
    | option _ ca =>
      cases hskip
      exact ⟨[], rfl, .optionNone⟩
  | whileStop _ =>
    cases hc
    exact ⟨[], rfl, .starNone⟩
  | whileStep _ _ _ iha ihrest =>
    cases hc with
    | star va ca =>
      obtain ⟨u, rfl, hu⟩ := iha rfl ca
      obtain ⟨v, rfl, hv⟩ := ihrest hn (.star va ca)
      exact ⟨u ++ v, (List.append_assoc ..).symm, .starSome hu hv⟩
  | untilStop _ _ ih =>
    cases hc with
    | plus _ ca =>
      obtain ⟨u, hi, hu⟩ := ih rfl ca
      exact ⟨u, hi, .plusOne hu⟩
  | untilStep _ _ _ iha ihrest =>
    cases hc with
    | plus va ca =>
      obtain ⟨u, rfl, hu⟩ := iha rfl ca
      obtain ⟨v, rfl, hv⟩ := ihrest hn (.plus va ca)
      exact ⟨u ++ v, (List.append_assoc ..).symm, .plusMore hu hv⟩
  | call hcode _ ih =>
    cases hc
    obtain ⟨body, hbody, hc⟩ := hexec hcode
    obtain ⟨u, hi, hu⟩ := ih rfl hc
    rw [← hn, hbody]
    exact ⟨u, hi, .nt hu⟩

/-- Generated code that cannot be empty reads a token when it accepts. -/
theorem length_lt_of_accepts (hexec : ExecOk g exec) {e : Nat} (h : Accepts exec c i k)
    (hc : Generated g e (g e) c) (hv : Value g (g e) F false) : k.length < i.length := by
  obtain ⟨u, rfl, hu⟩ := accepts_derives hexec h rfl hc
  have hne : u ≠ [] := fun hnil => Bool.false_ne_true (hu.maybeEmpty hnil hv)
  have hpos := List.length_pos_iff.mpr hne
  rw [List.length_append]
  omega

/-- What is left is not longer than the input. -/
theorem length_le_of_accepts (hexec : ExecOk g exec) {e : Nat} (h : Accepts exec c i k)
    (hc : Generated g e (g e) c) : k.length ≤ i.length := by
  obtain ⟨u, rfl, -⟩ := accepts_derives hexec h rfl hc
  rw [List.length_append]
  exact Nat.le_add_left _ _

/-! ## What is in the language -/

/-- The next token, if there is one, may follow the syntax-expr. -/
def MayFollow (follow : Nat → Finset Nat) (e : Nat) (v : List Nat) : Prop :=
  ∀ t ∈ v.head?, t ∈ follow e

theorem MayFollow.mono {a b : Nat} (h : MayFollow follow a v) (hab : follow a ⊆ follow b) :
    MayFollow follow b v :=
  fun t ht => hab (h t ht)

/-- A token that may follow fails the test for a disjoint set. -/
theorem compileTest_eq_false {e : Nat} (h : MayFollow follow e v) (hF : Disjoint F (follow e)) :
    compileTest F v.head? = false := by
  rw [Bool.eq_false_iff]
  intro ht
  obtain ⟨t, w, rfl, htF⟩ := compileTest_head.mp ht
  exact Finset.disjoint_left.mp hF htF (h t rfl)

/-- A syntax-expr that can be empty reads nothing before a token that may follow it. -/
theorem Value.accepts_nil (ht : OneToken g follow exec visited) (hv : Value g n F m) (hm : m = true)
    {e : Nat} (hn : g e = n) (he : visited e) (hc : Generated g e n c) (hf : MayFollow follow e v) :
    Accepts exec c v v := by
  have hentry := ht.entry he
  rw [hn] at hentry
  induction hv generalizing e c with
  | eps =>
    cases hc
    exact .skip v
  | terminal => cases hm
  | concatStop => cases hm
  | concat va vb iha ihb =>
    obtain ⟨hva, hvb, hfb, hfa⟩ := hentry
    cases hc with
    | concat ca cb =>
      have ha := iha rfl rfl hva ca (hf.mono ((hfa vb).2 hm)) (ht.entry hva)
      have hb := ihb hm rfl hvb cb (hf.mono hfb) (ht.entry hvb)
      exact .seq ha hb
  | alt va vb iha ihb =>
    obtain ⟨hva, hvb, hfa, hfb, hdisj⟩ := hentry
    have hempty := (hdisj va vb).2 hm
    cases hc with
    | alternative1 va' ca cb =>
      obtain ⟨rfl, rfl⟩ := va.unique va'
      have htest := compileTest_eq_false hf (hempty.mono_left Finset.subset_union_left)
      exact .branchElse htest (ihb (by simpa using hm) rfl hvb cb (hf.mono hfb) (ht.entry hvb))
    | alternative2 va' vb' ca cb =>
      obtain ⟨rfl, rfl⟩ := va.unique va'
      obtain ⟨rfl, rfl⟩ := vb.unique vb'
      have htest := compileTest_eq_false hf (hempty.mono_left Finset.subset_union_right)
      exact .branchElse (by rw [htest, Bool.and_false])
        (iha rfl rfl hva ca (hf.mono hfa) (ht.entry hva))
  | option va _ =>
    cases hc with
    | option va' _ =>
      exact .branchElse (compileTest_eq_false hf (hentry.2.2 va')) (.skip v)
  | star va _ =>
    cases hc with
    | star va' _ => exact .whileStop (compileTest_eq_false hf (hentry.2.2 va').1)
  | plus va iha =>
    obtain ⟨hva, hfa, hdisj⟩ := hentry
    cases hc with
    | plus va' ca =>
      have htest := compileTest_eq_false hf (hdisj va').1
      exact .untilStop (iha hm rfl hva ca (hf.mono hfa) (ht.entry hva)) (by rw [htest]; rfl)
  | nt vbody ih =>
    obtain ⟨hvbody, hfbody, code, hcode⟩ := hentry
    cases hc
    obtain ⟨body, hbody, hc⟩ := ht.execOk hcode
    rw [hn] at hbody
    cases hbody
    exact .call hcode (ih hm rfl hvbody hc (hf.mono hfbody) (ht.entry hvbody))

/-- An element that derives the empty word accepts it. -/
theorem Derives.accepts_nil (ht : OneToken g follow exec visited) (hu : Derives g n u)
    (hnil : u = []) {e : Nat} (hn : g e = n) (he : visited e) (hc : Generated g e n c)
    (hf : MayFollow follow e v) : Accepts exec c (u ++ v) v := by
  obtain ⟨F, m, hv⟩ := ht.value he
  rw [hn] at hv
  rw [hnil]
  exact hv.accepts_nil ht (hu.maybeEmpty hnil hv) hn he hc hf

/-- The code of alternatives goes to the first one for a token of its first set. -/
theorem accepts_alt1 {e a b : Nat} (hc : Generated g e (.alt a b) c) (va : Value g (g a) F m)
    (hi : compileTest F i.head? = true) (h : ∀ ca, Generated g a (g a) ca → Accepts exec ca i k) :
    Accepts exec c i k := by
  cases hc with
  | alternative1 va' ca cb =>
    obtain ⟨rfl, rfl⟩ := va.unique va'
    exact .branchThen hi (h _ ca)
  | alternative2 va' vb' ca cb =>
    obtain ⟨rfl, rfl⟩ := va.unique va'
    exact .branchElse (by rw [hi]; rfl) (h _ ca)

/-- The code of alternatives goes to the second one for a token of its first set. -/
theorem accepts_alt2 (ht : OneToken g follow exec visited) {e a b : Nat} (he : visited e)
    (hn : g e = .alt a b) (hc : Generated g e (.alt a b) c) (vb : Value g (g b) F m)
    (hi : compileTest F i.head? = true) (h : ∀ cb, Generated g b (g b) cb → Accepts exec cb i k) :
    Accepts exec c i k := by
  have hentry := ht.entry he
  rw [hn] at hentry
  obtain ⟨-, -, -, -, hdisj⟩ := hentry
  -- the first sets are disjoint, so the test for the first alternative fails
  have hother : ∀ {F' m'}, Value g (g a) F' m' → compileTest F' i.head? = false := by
    intro F' m' va
    obtain ⟨t, w, rfl, hmem⟩ := compileTest_head.mp hi
    exact decide_eq_false fun hmem' => Finset.disjoint_left.mp (hdisj va vb).1 hmem' hmem
  cases hc with
  | alternative1 va' ca cb => exact .branchElse (hother va') (h _ cb)
  | alternative2 va' vb' ca cb =>
    obtain ⟨rfl, rfl⟩ := vb.unique vb'
    exact .branchThen (by rw [hother va', hi]; rfl) (h _ cb)

/-- The next token after a part of a sequence is in the first set of what stands there, or may
follow it. -/
theorem mayFollow_append {e a : Nat} {u v : List Nat} (hu : Derives g n u) (hv : Value g n F m)
    (hF : F ⊆ follow a) (hfe : m = true → follow e ⊆ follow a) (hf : MayFollow follow e v) :
    MayFollow follow a (u ++ v) := by
  cases u with
  | nil => exact hf.mono (hfe (hu.maybeEmpty rfl hv))
  | cons t w =>
    intro t' ht'
    cases ht'
    exact hF (hu.head_mem rfl hv)

/-- The test for a first set succeeds at a sequence of the language, unless that is empty. -/
theorem compileTest_append (hu : Derives g n u) (hne : u ≠ []) (hv : Value g n F m) (v : List Nat) :
    compileTest F (u ++ v).head? = true := by
  cases u with
  | nil => exact absurd rfl hne
  | cons t w => exact compileTest_head.mpr ⟨t, w ++ v, rfl, hu.head_mem rfl hv⟩

/-- A sequence of the language is read, before anything that may follow it. -/
theorem derives_accepts (ht : OneToken g follow exec visited) (hu : Derives g n u) {e : Nat}
    (hn : g e = n) (he : visited e) (hc : Generated g e n c) (hf : MayFollow follow e v) :
    Accepts exec c (u ++ v) v := by
  have hentry := ht.entry he
  rw [hn] at hentry
  induction hu generalizing e c v with
  | eps =>
    cases hc
    exact .skip v
  | terminal hmem =>
    cases hc
    exact .token (compileTest_head.mpr ⟨_, v, rfl, hmem⟩)
  | concat hua hub iha ihb =>
    obtain ⟨hva, hvb, hfb, hfa⟩ := hentry
    obtain ⟨F, m, vb⟩ := ht.value hvb
    cases hc with
    | concat ca cb =>
      have hmay := mayFollow_append hub vb (hfa vb).1 (hfa vb).2 hf
      rw [List.append_assoc]
      exact .seq (iha rfl hva ca hmay (ht.entry hva))
        (ihb rfl hvb cb (hf.mono hfb) (ht.entry hvb))
  | @alt1 a b u hua iha =>
    obtain ⟨hva, -, hfa, -, -⟩ := hentry
    obtain ⟨F, m, va⟩ := ht.value hva
    by_cases hnil : u = []
    · exact (Derives.alt1 hua).accepts_nil ht hnil hn he hc hf
    · exact accepts_alt1 hc va (compileTest_append hua hnil va v)
        fun ca hca => iha rfl hva hca (hf.mono hfa) (ht.entry hva)
  | @alt2 a b u hub ihb =>
    obtain ⟨-, hvb, -, hfb, -⟩ := hentry
    obtain ⟨F, m, vb⟩ := ht.value hvb
    by_cases hnil : u = []
    · exact (Derives.alt2 hub).accepts_nil ht hnil hn he hc hf
    · exact accepts_alt2 ht he hn hc vb (compileTest_append hub hnil vb v)
        fun cb hcb => ihb rfl hvb hcb (hf.mono hfb) (ht.entry hvb)
  | optionNone => exact Derives.optionNone.accepts_nil ht rfl hn he hc hf
  | @optionSome a u hua iha =>
    obtain ⟨hva, hfa, -⟩ := hentry
    by_cases hnil : u = []
    · exact (Derives.optionSome hua).accepts_nil ht hnil hn he hc hf
    · cases hc with
      | option va ca =>
        exact .branchThen (compileTest_append hua hnil va v)
          (iha rfl hva ca (hf.mono hfa) (ht.entry hva))
  | starNone => exact Derives.starNone.accepts_nil ht rfl hn he hc hf
  | @starSome a u w hua hrest iha ih =>
    have hread := ih hn he hc hf hentry
    obtain ⟨hva, hfa, hdisj⟩ := hentry
    by_cases hnil : u = []
    · rw [hnil]
      exact hread
    · cases hc with
      | star va ca =>
        have hmay := mayFollow_append hrest (.star va) (hdisj va).2 (fun _ => hfa) hf
        rw [List.append_assoc]
        exact .whileStep (compileTest_append hua hnil va _)
          (iha rfl hva ca hmay (ht.entry hva)) hread
  | plusOne hua iha =>
    obtain ⟨hva, hfa, hdisj⟩ := hentry
    cases hc with
    | plus va ca =>
      have htest := compileTest_eq_false hf (hdisj va).1
      exact .untilStop (iha rfl hva ca (hf.mono hfa) (ht.entry hva)) (by rw [htest]; rfl)
  | @plusMore a u w hua hrest iha ih =>
    have hread := ih hn he hc hf hentry
    obtain ⟨hva, hfa, hdisj⟩ := hentry
    cases hc with
    | plus va ca =>
      have hmay := mayFollow_append hrest (.plus va) (hdisj va).2 (fun _ => hfa) hf
      have hfirst := iha rfl hva ca hmay (ht.entry hva)
      rw [List.append_assoc]
      by_cases hnil : w = []
      · have htest := compileTest_eq_false hf (hdisj va).1
        rw [hnil] at hfirst ⊢
        exact .untilStop hfirst (by rw [htest]; rfl)
      · have htest := compileTest_append hrest hnil (.plus va) v
        exact .untilStep hfirst (by rw [htest]; rfl) hread
  | nt hubody ih =>
    obtain ⟨hvbody, hfbody, code, hcode⟩ := hentry
    cases hc
    obtain ⟨body, hbody, hc⟩ := ht.execOk hcode
    rw [hn] at hbody
    cases hbody
    exact .call hcode (ih rfl hvbody hc (hf.mono hfbody) (ht.entry hvbody))

/-! ## Halting -/

/-- Nothing that may follow a syntax-expr that can be empty is in its first set. -/
theorem Value.disjoint_follow (ht : OneToken g follow exec visited) (hv : Value g n F m)
    (hm : m = true) {e : Nat} (hn : g e = n) (he : visited e) : Disjoint F (follow e) := by
  have hentry := ht.entry he
  rw [hn] at hentry
  induction hv generalizing e with
  | eps => exact Finset.disjoint_empty_left _
  | terminal => cases hm
  | concatStop => cases hm
  | concat va vb iha ihb =>
    obtain ⟨hva, hvb, hfb, hfa⟩ := hentry
    have ha := iha rfl rfl hva (ht.entry hva)
    have hb := ihb hm rfl hvb (ht.entry hvb)
    exact Finset.disjoint_union_left.mpr
      ⟨ha.mono_right ((hfa vb).2 hm), hb.mono_right hfb⟩
  | alt va vb _ _ => exact (hentry.2.2.2.2 va vb).2 hm
  | option va _ => exact hentry.2.2 va
  | star va _ => exact (hentry.2.2 va).1
  | plus va _ => exact (hentry.2.2 va).1
  | nt vbody ih =>
    obtain ⟨hvbody, hfbody, -⟩ := hentry
    exact (ih hm rfl hvbody (ht.entry hvbody)).mono_right hfbody

/-- Every round of a loop reads a token. -/
theorem length_lt_of_round (ht : OneToken g follow exec visited) {a : Nat} (ha : visited a)
    (va : Value g (g a) F m) (hF : F ⊆ follow a) (hc : Generated g a (g a) c)
    (h : Accepts exec c i k) (htest : compileTest F v.head? = true) : k.length < i.length := by
  cases m with
  | false => exact length_lt_of_accepts ht.execOk h hc va
  | true =>
    -- the operand cannot be empty, since its first set has a token and may follow it
    obtain ⟨t, w, -, hmem⟩ := compileTest_head.mp htest
    have hdisj := va.disjoint_follow ht rfl rfl ha
    exact absurd (hF hmem) (Finset.disjoint_left.mp hdisj hmem)

/-- If generated code halts on everything that is shorter, it halts. -/
theorem Value.code_halts (ht : OneToken g follow exec visited) (hv : Value g n F m) {i : List Nat}
    (hshort : ∀ ⦃e c k⦄, visited e → Generated g e (g e) c → k.length < i.length →
      Halts exec c k) {e : Nat} (hn : g e = n) (he : visited e) (hc : Generated g e n c)
    {k : List Nat} (hk : k.length = i.length) : Halts exec c k := by
  have hentry := ht.entry he
  rw [hn] at hentry
  induction hv generalizing e c k with
  | eps =>
    cases hc
    exact (Accepts.skip k).halts
  | terminal =>
    cases hc
    exact Halts.token _ k
  | concatStop va iha =>
    obtain ⟨hva, hvb, -, -⟩ := hentry
    cases hc with
    | concat ca cb =>
      refine .seq (iha rfl hva ca hk (ht.entry hva)) fun j hj => ?_
      have hlt := length_lt_of_accepts ht.execOk hj ca va
      exact hshort hvb cb (by omega)
  | concat va vb iha ihb =>
    obtain ⟨hva, hvb, -, -⟩ := hentry
    cases hc with
    | concat ca cb =>
      refine .seq (iha rfl hva ca hk (ht.entry hva)) fun j hj => ?_
      have hle := length_le_of_accepts ht.execOk hj ca
      rcases Nat.lt_or_ge j.length i.length with hlt | hge
      · exact hshort hvb cb hlt
      · exact ihb rfl hvb cb (by omega) (ht.entry hvb)
  | alt va vb iha ihb =>
    obtain ⟨hva, hvb, -, -, -⟩ := hentry
    cases hc with
    | alternative1 _ ca cb =>
      exact .branch (fun _ => iha rfl hva ca hk (ht.entry hva))
        (fun _ => ihb rfl hvb cb hk (ht.entry hvb))
    | alternative2 _ _ ca cb =>
      exact .branch (fun _ => ihb rfl hvb cb hk (ht.entry hvb))
        (fun _ => iha rfl hva ca hk (ht.entry hva))
  | option va iha =>
    cases hc with
    | option _ ca =>
      exact .branch (fun _ => iha rfl hentry.1 ca hk (ht.entry hentry.1))
        (fun _ => (Accepts.skip k).halts)
  | star va iha =>
    obtain ⟨hva, -, hdisj⟩ := hentry
    cases hc with
    | star va' ca =>
      refine .whileDo (fun _ => iha rfl hva ca hk (ht.entry hva)) fun j htest hj => ?_
      have hlt := length_lt_of_round ht hva va' (hdisj va').2 ca hj htest
      exact hshort he (by rw [hn]; exact .star va' ca) (by omega)
  | plus va iha =>
    obtain ⟨hva, -, hdisj⟩ := hentry
    cases hc with
    | plus va' ca =>
      refine .doUntil (iha rfl hva ca hk (ht.entry hva)) fun j hj htest => ?_
      have hlt := length_lt_of_round ht hva va' (hdisj va').2 ca hj (by simpa using htest)
      exact hshort he (by rw [hn]; exact .plus va' ca) (by omega)
  | nt vbody ih =>
    obtain ⟨hvbody, -, code, hcode⟩ := hentry
    cases hc
    obtain ⟨body, hbody, hc⟩ := ht.execOk hcode
    rw [hn] at hbody
    cases hbody
    exact .call hcode (ih rfl hvbody hc hk (ht.entry hvbody))

/-- Generated code halts on every sequence of tokens. -/
theorem code_halts (ht : OneToken g follow exec visited) (i : List Nat) {e : Nat} (he : visited e)
    (hc : Generated g e (g e) c) : Halts exec c i := by
  induction hlen : i.length using Nat.strong_induction_on generalizing i e c with
  | _ len ih =>
    obtain ⟨F, m, hv⟩ := ht.value he
    refine hv.code_halts ht (fun e' c' k he' hc' hlt => ?_) rfl he hc rfl
    exact ih k.length (by omega) k he' hc' rfl

/-! ## The end of the input -/

variable (g)

/-- The token is in the set of a terminal of the syntax-expr. -/
inductive Occurs (t : Nat) : Node → Prop
  | terminal {set} : t ∈ set → Occurs t (.terminal set)
  | concat1 {a b} : Occurs t (g a) → Occurs t (.concat a b)
  | concat2 {a b} : Occurs t (g b) → Occurs t (.concat a b)
  | alt1 {a b} : Occurs t (g a) → Occurs t (.alt a b)
  | alt2 {a b} : Occurs t (g b) → Occurs t (.alt a b)
  | option {a} : Occurs t (g a) → Occurs t (.option a)
  | star {a} : Occurs t (g a) → Occurs t (.star a)
  | plus {a} : Occurs t (g a) → Occurs t (.plus a)
  | nt {body} : Occurs t (g body) → Occurs t (.nt (some body))

/-- The syntax-expr ends with a terminal for the end of the input, whose tokens occur nowhere
else. -/
inductive EndsWith (eoi : Finset Nat) : Node → Prop
  | terminal : EndsWith eoi (.terminal eoi)
  | concat {a b} : (∀ t ∈ eoi, ¬Occurs g t (g a)) → EndsWith eoi (g b) →
      EndsWith eoi (.concat a b)
  | alt {a b} : EndsWith eoi (g a) → EndsWith eoi (g b) → EndsWith eoi (.alt a b)
  | nt {body} : EndsWith eoi (g body) → EndsWith eoi (.nt (some body))

variable {g}

/-- A token of a derived word occurs in the element. -/
theorem Derives.occurs (h : Derives g n u) {t : Nat} (ht : t ∈ u) : Occurs g t n := by
  induction h with
  | eps => cases ht
  | terminal hmem =>
    cases List.mem_singleton.mp ht
    exact .terminal hmem
  | concat _ _ iha ihb =>
    rcases List.mem_append.mp ht with h | h
    · exact .concat1 (iha h)
    · exact .concat2 (ihb h)
  | alt1 _ ih => exact .alt1 (ih ht)
  | alt2 _ ih => exact .alt2 (ih ht)
  | optionNone => cases ht
  | optionSome _ ih => exact .option (ih ht)
  | starNone => cases ht
  | starSome _ _ iha ih =>
    rcases List.mem_append.mp ht with h | h
    · exact .star (iha h)
    · exact ih h
  | plusOne _ ih => exact .plus (ih ht)
  | plusMore _ _ iha ih =>
    rcases List.mem_append.mp ht with h | h
    · exact .plus (iha h)
    · exact ih h
  | nt _ ih => exact .nt (ih ht)

/-- The end of the input is the last token of each sequence, and no other. -/
theorem EndsWith.eq_append {eoi : Finset Nat} (hend : EndsWith g eoi n) (hu : Derives g n u) :
    ∃ w t, u = w ++ [t] ∧ t ∈ eoi ∧ ∀ x ∈ w, x ∉ eoi := by
  induction hend generalizing u with
  | terminal =>
    cases hu with
    | terminal hmem => exact ⟨[], _, rfl, hmem, by simp⟩
  | concat hfree _ ih =>
    cases hu with
    | @concat _ _ ua ub hua hub =>
      obtain ⟨w, t, rfl, ht, hw⟩ := ih hub
      refine ⟨ua ++ w, t, (List.append_assoc ..).symm, ht, fun x hx hmem => ?_⟩
      rcases List.mem_append.mp hx with hx | hx
      · exact hfree x hmem (hua.occurs hx)
      · exact hw x hx hmem
  | alt _ _ iha ihb =>
    cases hu with
    | alt1 hua => exact iha hua
    | alt2 hub => exact ihb hub
  | nt _ ih => cases hu with | nt hubody => exact ih hubody

theorem EndsWith.ne_nil {eoi : Finset Nat} (hend : EndsWith g eoi n) (hu : Derives g n u) :
    u ≠ [] := by
  obtain ⟨w, t, rfl, -, -⟩ := hend.eq_append hu
  exact List.append_ne_nil_of_right_ne_nil w (List.cons_ne_nil t [])

/-- A sequence that ends with the end of the input is read, whatever comes after it. -/
theorem EndsWith.derives_accepts (ht : OneToken g follow exec visited) {eoi : Finset Nat}
    (hend : EndsWith g eoi n) (hu : Derives g n u) {e : Nat} (hn : g e = n) (he : visited e)
    (hc : Generated g e n c) (v : List Nat) : Accepts exec c (u ++ v) v := by
  have hentry := ht.entry he
  rw [hn] at hentry
  induction hend generalizing u e c with
  | terminal =>
    cases hu with
    | terminal hmem =>
      cases hc
      exact .token (compileTest_head.mpr ⟨_, v, rfl, hmem⟩)
  | @concat a b _ hb ih =>
    obtain ⟨hva, hvb, -, hfa⟩ := hentry
    obtain ⟨F, m, vb⟩ := ht.value hvb
    cases hu with
    | @concat _ _ ua ub hua hub =>
      cases hc with
      | concat ca cb =>
        have hmay : MayFollow follow a (ub ++ v) := by
          intro t hhead
          obtain ⟨t', w, rfl⟩ := List.exists_cons_of_ne_nil (hb.ne_nil hub)
          cases hhead
          exact (hfa vb).1 (hub.head_mem rfl vb)
        rw [List.append_assoc]
        exact .seq (Gray.derives_accepts ht hua rfl hva ca hmay)
          (ih hub rfl hvb cb (ht.entry hvb))
  | alt ha hb iha ihb =>
    obtain ⟨hva, hvb, -, -, -⟩ := hentry
    cases hu with
    | alt1 hua =>
      obtain ⟨F, m, va⟩ := ht.value hva
      exact accepts_alt1 hc va (compileTest_append hua (ha.ne_nil hua) va v)
        fun ca hca => iha hua rfl hva hca (ht.entry hva)
    | alt2 hub =>
      obtain ⟨F, m, vb⟩ := ht.value hvb
      exact accepts_alt2 ht he hn hc vb (compileTest_append hub (hb.ne_nil hub) vb v)
        fun cb hcb => ihb hub rfl hvb hcb (ht.entry hvb)
  | nt _ ih =>
    obtain ⟨hvbody, -, code, hcode⟩ := hentry
    cases hc
    obtain ⟨body, hbody, hc⟩ := ht.execOk hcode
    rw [hn] at hbody
    cases hbody
    cases hu with
    | nt hubody => exact .call hcode (ih hubody rfl hvbody hc (ht.entry hvbody))

end Gray
end Gforth
