import Gforth.Numbers.Digits

/-!
# Escape sequences of keys

A table has the byte sequences that terminals send for special keys behind an escape character.  The
prefixes of these sequences are in the table, too, as aliases of the word that recognises sequences;
so recognition is a recursion through the table.  Numbers in a sequence give modifiers, which are
masked out before a sequence is looked up.

Main results:

- Theorem {lit}`closed_escSequence`: a table that is built by {lit}`esc-sequence` has all prefixes.
- Theorem {lit}`escPrefix_of_hasCode`: what is recognised, and which modifiers are combined with it.
- Theorem {lit}`losesNoKeys_iff`: when the modifiers are exactly the ones of the sequence.
-/

namespace Gforth
namespace Ekey

open Lib
open Numbers (ascii digit? accumulate)

variable {w : Nat}

/-! ## Modifiers -/

/-- {lit}`$split` -/
def split (s : List Byte) (c : Byte) : List Byte × List Byte :=
  (s.takeWhile (· ≠ c), (s.dropWhile (· ≠ c)).drop 1)

/-- {lit}`>number` on the characters of a string -/
def toNumber (base : BitVec w) (d : BitVec (w + w)) : List Byte → BitVec (w + w) × List Byte
  | [] => (d, [])
  | c :: s =>
      match digit? base c with
      | some digit => toNumber base (accumulate base d digit) s
      | none => (d, c :: s)

/-- {lit}`1- 0 max` and {lit}`7 and mask-shift# lshift` -/
def modifiers (n : BitVec w) : BitVec w :=
  ((if (n - 1#w).slt 0#w then 0#w else n - 1#w) &&& 7#w) <<< 28

/-- {lit}`esc-mask`: the string without its modifier, and the mask of the modifier -/
def escMask (s : List Byte) : List Byte × BitVec w :=
  let (s₁, s₂) := split s (ascii ';')
  if s₂ ≠ [] then
    let (d, rest) := toNumber 10#w 0#(w + w) s₂
    -- the parameter 1 in front of the semicolon is a place holder
    ((if s₁.drop 1 = [ascii '1'] then s₁.take (s₁.length - 1) else s₁) ++ rest, modifiers (dlo d))
  else if s.head? = some (ascii 'O') then
    let (d, rest) := toNumber 10#w 0#(w + w) (s₁.drop 1)
    (ascii 'O' :: rest, modifiers (dlo d))
  else (s₁, 0#w)

/-! ## Tables -/

/-- What a name in the table does -/
inductive Action (w : Nat) where
  | constant (u : BitVec w)
  | escPrefix
deriving DecidableEq

/-- {lit}`esc-sequences`, with the latest name first -/
abbrev Table (w : Nat) : Type :=
  List (List Byte × Action w)

/-- {lit}`search-wordlist` in a table, where letter case matters -/
def search (table : Table w) (name : List Byte) : Option (Action w) :=
  (table.find? fun e => e.1 = name).map Prod.snd

/-- The last step of {lit}`esc-sequence` -/
def define (u1 : BitVec w) (name : List Byte) (table : Table w) : Table w :=
  (name, if u1 ≠ 0#w then .constant u1 else .escPrefix) :: table

/-- {lit}`esc-sequence` for a sequence that is not empty -/
def escSequence (u1 : BitVec w) (name : List Byte) (table : Table w) : Table w :=
  if _h : 1 < name.length then
    if (search table name.dropLast).isSome then define u1 name table
    else define u1 name (escSequence 0#w name.dropLast table)
  else define u1 name table
termination_by name.length
decreasing_by
  rw [List.length_dropLast]
  omega

/-- All prefixes of the sequences are in the table. -/
def Closed (table : Table w) : Prop :=
  ∀ e ∈ table, e.1 ≠ [] ∧ ∀ s, s ≠ [] → s <+: e.1 → (search table s).isSome

/-- A definition is found first, unless the name is another one. -/
theorem search_define (u1 : BitVec w) (name s : List Byte) (table : Table w) :
    search (define u1 name table) s =
      if name = s then some (if u1 ≠ 0#w then .constant u1 else .escPrefix) else search table s := by
  rw [search, define, List.find?_cons]
  by_cases h : name = s
  · rw [if_pos h]
    simp [h]
  · rw [if_neg h]
    simp [h, search]

variable {table : Table w} {k : Keys}

/-- A name that is found stays so. -/
theorem search_define_isSome {u1 : BitVec w} {name s : List Byte} (h : (search table s).isSome) :
    (search (define u1 name table) s).isSome := by
  rw [search_define]
  split
  · rfl
  · exact h

/-- A defined name is found. -/
theorem search_define_self (u1 : BitVec w) (name : List Byte) (table : Table w) :
    (search (define u1 name table) name).isSome := by
  rw [search_define, if_pos rfl]
  rfl

/-- What is found is in the table. -/
theorem exists_of_search {name : List Byte} (h : (search table name).isSome) :
    ∃ e ∈ table, e.1 = name := by
  rw [search, Option.isSome_map, List.find?_isSome] at h
  obtain ⟨e, he, hname⟩ := h
  exact ⟨e, he, of_decide_eq_true hname⟩

/-- A sequence whose longest proper prefix is in the table -/
theorem closed_define (hc : Closed table) (u1 : BitVec w) {name : List Byte} (hname : name ≠ [])
    (h : 1 < name.length → (search table name.dropLast).isSome) :
    Closed (define u1 name table) := by
  intro e he
  rcases List.mem_cons.1 he with rfl | he
  · refine ⟨hname, fun s hs hpre => ?_⟩
    rcases eq_or_ne s name with rfl | hne
    · exact search_define_self u1 s table
    · -- a proper prefix is a prefix of the longest one
      have hlength : s.length < name.length := Nat.lt_of_le_of_ne hpre.length_le
        fun heq => hne (hpre.eq_of_length heq)
      have hpos := List.length_pos_of_ne_nil hs
      have hlast : s <+: name.dropLast :=
        List.prefix_of_prefix_length_le hpre (List.dropLast_prefix name)
          (by rw [List.length_dropLast]; omega)
      obtain ⟨e, he, heq⟩ := exists_of_search (h (by omega))
      exact search_define_isSome ((hc e he).2 s hs (heq ▸ hlast))
  · exact ⟨(hc e he).1, fun s hs hpre => search_define_isSome ((hc e he).2 s hs hpre)⟩

theorem search_escSequence (u1 : BitVec w) (name : List Byte) (table : Table w) :
    (search (escSequence u1 name table) name).isSome := by
  rw [escSequence]
  split_ifs <;> exact search_define_self u1 name _

/-- Tables built by {lit}`esc-sequence` have all prefixes of their sequences. -/
theorem closed_escSequence (hc : Closed table) (u1 : BitVec w) {name : List Byte}
    (hname : name ≠ []) : Closed (escSequence u1 name table) := by
  generalize hn : name.length = n
  induction n generalizing u1 name with
  | zero => exact absurd (List.length_eq_zero_iff.1 hn) hname
  | succ n ih =>
    rw [escSequence]
    split_ifs with hlength hfound
    · exact closed_define hc u1 hname fun _ => hfound
    · have hlast : name.dropLast ≠ [] := by
        rw [← List.length_pos_iff, List.length_dropLast]
        omega
      refine closed_define (ih 0#w hlast ?_) u1 hname fun _ => search_escSequence 0#w _ table
      rw [List.length_dropLast, hn]
      rfl
    · exact closed_define hc u1 hname fun h => absurd h hlength

/-! ## Recognition -/

/-- {lit}`key-buffer`, the keys that arrive after the ones in it, and {lit}`ekey-buffer` -/
structure Keys where
  keyBuffer : List Byte
  arriving : List Byte
  ekeyBuffer : List Byte
deriving DecidableEq

/-- The keys that {lit}`key` reads -/
def Keys.available (k : Keys) : List Byte :=
  k.keyBuffer ++ k.arriving

/-- {lit}`key`, if {lit}`key?` says that there is one; {lit}`buf-key` takes it from the buffer
first -/
def key (k : Keys) : Option (Byte × Keys) :=
  match k.keyBuffer, k.arriving with
  | c :: cs, _ => some (c, { k with keyBuffer := cs })
  | [], c :: cs => some (c, { k with arriving := cs })
  | [], [] => none

/-- {lit}`unkeys` -/
def unkeys (s : List Byte) (k : Keys) : Keys :=
  { k with keyBuffer := s ++ k.keyBuffer }

/-- {lit}`clear-ekey-buffer` -/
def clearEkeyBuffer (k : Keys) : Keys :=
  { k with ekeyBuffer := [] }

/-- {lit}`#esc` -/
def escCode : BitVec w :=
  27#w

/-- A key is taken from those that are available. -/
theorem available_of_key {k k' : Keys} {c : Byte} (h : key k = some (c, k')) :
    k.available = c :: k'.available ∧ k'.ekeyBuffer = k.ekeyBuffer := by
  rw [key] at h
  rw [Keys.available, Keys.available]
  split at h
  · rename_i hk
    cases h
    exact ⟨by rw [hk]; rfl, rfl⟩
  · rename_i hk ha
    cases h
    exact ⟨by rw [hk, ha]; rfl, rfl⟩
  · cases h

/-- {lit}`esc-prefix` -/
def escPrefix (table : Table w) (k : Keys) : BitVec w × Keys :=
  match _hkey : key k with
  | none => (escCode, clearEkeyBuffer (unkeys k.ekeyBuffer k))
  | some (c, k₁) =>
      let k₂ := { k₁ with ekeyBuffer := k₁.ekeyBuffer ++ [c] }
      let p : List Byte × BitVec w := escMask k₂.ekeyBuffer
      match search table p.1 with
      | some (.constant u) => (u ||| p.2, clearEkeyBuffer k₂)
      | some .escPrefix =>
          let r := escPrefix table k₂
          (r.1 ||| p.2, clearEkeyBuffer r.2)
      | none => escPrefix table k₂
termination_by k.available.length
decreasing_by
  all_goals
    rw [(available_of_key _hkey).1]
    exact Nat.lt_succ_self _

/-! ## Steps of the recognition -/

variable {table : Table w}

/-- The first available key is taken. -/
theorem key_of_available_cons {c : Byte} {cs : List Byte} (h : k.available = c :: cs) :
    ∃ k', key k = some (c, k') ∧ k'.available = cs ∧ k'.ekeyBuffer = k.ekeyBuffer := by
  cases hkey : key k with
  | none =>
    rw [key] at hkey
    rw [Keys.available] at h
    split at hkey <;> simp_all
  | some p =>
    obtain ⟨hcons, hekey⟩ := @available_of_key _ p.2 p.1 hkey
    rw [h] at hcons
    cases hcons
    exact ⟨p.2, rfl, rfl, hekey⟩

theorem key_of_available_nil (h : k.available = []) : key k = none ∧ k.keyBuffer = [] := by
  obtain ⟨hbuffer, harriving⟩ := List.append_eq_nil_iff.1 h
  rw [key, hbuffer, harriving]
  exact ⟨rfl, rfl⟩

/-- The keys with one more in {lit}`ekey-buffer` -/
def Keys.collect (k : Keys) (c : Byte) : Keys :=
  { k with ekeyBuffer := k.ekeyBuffer ++ [c] }

/-- At the end of the keys they are all given back. -/
theorem escPrefix_of_none (h : key k = none) :
    escPrefix table k = (escCode, clearEkeyBuffer (unkeys k.ekeyBuffer k)) := by
  rw [escPrefix]
  split
  · rfl
  · rename_i hsome
    rw [h] at hsome
    cases hsome

/-- The next key goes on with a longer sequence. -/
theorem escPrefix_of_some {k k' : Keys} {c : Byte} (h : key k = some (c, k')) :
    escPrefix table k =
      match search table (escMask (w := w) (k'.collect c).ekeyBuffer).1 with
      | some (.constant u) =>
          (u ||| (escMask (k'.collect c).ekeyBuffer).2, clearEkeyBuffer (k'.collect c))
      | some .escPrefix =>
          ((escPrefix table (k'.collect c)).1 ||| (escMask (k'.collect c).ekeyBuffer).2,
            clearEkeyBuffer (escPrefix table (k'.collect c)).2)
      | none => escPrefix table (k'.collect c) := by
  rw [escPrefix]
  split
  · rename_i hnone
    rw [h] at hnone
    cases hnone
  · rename_i hsome
    rw [h] at hsome
    cases hsome
    rfl

/-! ## What is recognised -/

/-- The bytes are masked to a sequence with a code. -/
def HasCode (table : Table w) (s : List Byte) (u : BitVec w) : Prop :=
  search table (escMask (w := w) s).1 = some (.constant u)

/-- The bytes are masked to a prefix in the table. -/
def IsAlias (table : Table w) (s : List Byte) : Prop :=
  search table (escMask (w := w) s).1 = some .escPrefix

instance (table : Table w) (s : List Byte) : Decidable (IsAlias table s) :=
  inferInstanceAs (Decidable (_ = _))

/-- The modifiers of the prefixes that are met behind some bytes -/
def passed (table : Table w) (e : List Byte) : List Byte → BitVec w
  | [] => 0#w
  | c :: cs =>
      (if IsAlias table (e ++ [c]) then (escMask (e ++ [c])).2 else 0#w) ||| passed table (e ++ [c]) cs

/-- No sequence with a code is met. -/
def NoCode (table : Table w) (e cs : List Byte) : Prop :=
  ∀ p, p ≠ [] → p <+: cs → ∀ u, ¬HasCode table (e ++ p) u

theorem NoCode.head {e cs : List Byte} {c : Byte} (h : NoCode table e (c :: cs)) (u : BitVec w) :
    ¬HasCode table (e ++ [c]) u :=
  h [c] (List.cons_ne_nil _ _) (List.prefix_append [c] cs) u

/-- No sequence ends in the keys behind it. -/
theorem NoCode.tail {e cs : List Byte} {c : Byte} (h : NoCode table e (c :: cs)) :
    NoCode table (e ++ [c]) cs := by
  intro p hp hpre u
  rw [List.append_assoc]
  exact h (c :: p) (List.cons_ne_nil _ _) ((List.prefix_cons_inj c).2 hpre) u

/-- Some keys lead to a result, whatever is in front of them. -/
theorem escPrefix_step {c : Byte} {cs : List Byte} (h : k.available = c :: cs)
    (hcode : ∀ u, ¬HasCode table (k.ekeyBuffer ++ [c]) u) :
    ∃ k', k'.available = cs ∧ k'.ekeyBuffer = k.ekeyBuffer ++ [c] ∧
      (escPrefix table k).1 = (escPrefix table k').1 |||
        (if IsAlias table (k.ekeyBuffer ++ [c]) then (escMask (k.ekeyBuffer ++ [c])).2 else 0#w) ∧
      ((escPrefix table k').2.ekeyBuffer = [] → (escPrefix table k).2 = (escPrefix table k').2) := by
  obtain ⟨k', hkey, hcs, hekey⟩ := key_of_available_cons h
  have hcollect : (k'.collect c).ekeyBuffer = k.ekeyBuffer ++ [c] := by
    rw [← hekey]
    rfl
  refine ⟨k'.collect c, hcs, hcollect, ?_⟩
  rw [escPrefix_of_some hkey, hcollect]
  cases hsearch : search table (escMask (w := w) (k.ekeyBuffer ++ [c])).1 with
  | none =>
    have halias : ¬IsAlias table (k.ekeyBuffer ++ [c]) := by
      rw [IsAlias, hsearch]
      exact fun h => nomatch h
    rw [if_neg halias, BitVec.or_zero]
    exact ⟨rfl, fun _ => rfl⟩
  | some a =>
    cases a with
    | constant u => exact absurd hsearch (hcode u)
    | escPrefix =>
      rw [if_pos (show IsAlias table _ from hsearch)]
      refine ⟨rfl, fun hempty => ?_⟩
      change { (escPrefix table (k'.collect c)).2 with ekeyBuffer := [] } = _
      rw [← hempty]

/-- Nothing is recognised, and all keys are available again. -/
theorem escPrefix_of_noCode (h : NoCode table k.ekeyBuffer k.available) :
    (escPrefix table k).1 = escCode ||| passed table k.ekeyBuffer k.available ∧
      (escPrefix table k).2.available = k.ekeyBuffer ++ k.available ∧
      (escPrefix table k).2.ekeyBuffer = [] := by
  generalize hcs : k.available = cs at h ⊢
  induction cs generalizing k with
  | nil =>
    obtain ⟨hkey, hbuffer⟩ := key_of_available_nil hcs
    rw [escPrefix_of_none hkey, passed, BitVec.or_zero]
    refine ⟨rfl, ?_, rfl⟩
    change (k.ekeyBuffer ++ k.keyBuffer) ++ k.arriving = _
    rw [List.append_assoc, ← hcs]
    rfl
  | cons c cs ih =>
    obtain ⟨k', hcs', hekey, hcode, hkeys⟩ := escPrefix_step hcs h.head
    obtain ⟨hcode', havailable, hempty⟩ := ih hcs' (hekey ▸ h.tail)
    rw [hkeys hempty, hcode, hcode', hekey, passed, BitVec.or_assoc, BitVec.or_comm (passed _ _ _)]
    refine ⟨rfl, ?_, hempty⟩
    rw [havailable, hekey, List.append_assoc]
    rfl

/-- The first sequence with a code is recognised, and the keys behind it are still available. -/
theorem escPrefix_of_hasCode {init rest : List Byte} {c : Byte} {u : BitVec w}
    (hcs : k.available = init ++ c :: rest) (h : NoCode table k.ekeyBuffer init)
    (hcode : HasCode table (k.ekeyBuffer ++ (init ++ [c])) u) :
    (escPrefix table k).1 = (u ||| (escMask (k.ekeyBuffer ++ (init ++ [c]))).2) |||
        passed table k.ekeyBuffer init ∧
      (escPrefix table k).2.available = rest ∧ (escPrefix table k).2.ekeyBuffer = [] := by
  induction init generalizing k with
  | nil =>
    obtain ⟨k', hkey, hrest, hekey⟩ := key_of_available_cons hcs
    have hcollect : (k'.collect c).ekeyBuffer = k.ekeyBuffer ++ ([] ++ [c]) := by
      rw [← hekey]
      rfl
    rw [escPrefix_of_some hkey, hcollect, show search table _ = _ from hcode, passed, BitVec.or_zero]
    exact ⟨rfl, hrest, rfl⟩
  | cons a init ih =>
    obtain ⟨k', hcs', hekey, hcode', hkeys⟩ := escPrefix_step hcs h.head
    have hsplit : k'.ekeyBuffer ++ (init ++ [c]) = k.ekeyBuffer ++ (a :: init ++ [c]) := by
      rw [hekey, List.append_assoc]
      rfl
    obtain ⟨hcode'', havailable, hempty⟩ := ih hcs' (hekey ▸ h.tail) (hsplit ▸ hcode)
    rw [hkeys hempty, hcode', hcode'', hsplit, hekey, passed, BitVec.or_assoc,
      BitVec.or_comm (passed _ _ _)]
    exact ⟨rfl, havailable, hempty⟩

/-! ## Modifiers of recognised sequences -/

/-- Bits that are already set -/
theorem or_or_eq_iff (x a b : BitVec w) : x ||| (a ||| b) = x ↔ x ||| a = x ∧ x ||| b = x := by
  constructor
  · intro h
    constructor
    · rw [← h, BitVec.or_assoc, BitVec.or_comm (a ||| b), ← BitVec.or_assoc a, BitVec.or_self]
    · rw [← h, BitVec.or_assoc, BitVec.or_assoc, BitVec.or_self]
  · rintro ⟨ha, hb⟩
    rw [← BitVec.or_assoc, ha, hb]

/-- The modifiers of all prefixes that are met are among some bits if and only if the ones of each
are. -/
theorem or_passed_eq_iff (e cs : List Byte) (x : BitVec w) :
    x ||| passed table e cs = x ↔
      ∀ p, p ≠ [] → p <+: cs → IsAlias table (e ++ p) → x ||| (escMask (e ++ p)).2 = x := by
  induction cs generalizing e with
  | nil =>
    rw [passed, BitVec.or_zero]
    exact iff_of_true rfl fun p hp hpre => absurd (List.prefix_nil.1 hpre) hp
  | cons c cs ih =>
    have hhead : x ||| (if IsAlias table (e ++ [c]) then (escMask (e ++ [c])).2 else 0#w) = x ↔
        (IsAlias table (e ++ [c]) → x ||| (escMask (e ++ [c])).2 = x) := by
      by_cases halias : IsAlias table (e ++ [c])
      · rw [if_pos halias]
        exact ⟨fun h _ => h, fun h => h halias⟩
      · rw [if_neg halias, BitVec.or_zero]
        exact iff_of_true rfl fun h => absurd h halias
    rw [passed, or_or_eq_iff, hhead, ih]
    constructor
    · rintro ⟨hfirst, hrest⟩ p hp hpre halias
      obtain ⟨a, p, rfl⟩ := List.exists_cons_of_ne_nil hp
      obtain ⟨rfl, htail⟩ := List.cons_prefix_cons.1 hpre
      rcases eq_or_ne p [] with rfl | hp'
      · exact hfirst halias
      · have hsplit : e ++ a :: p = e ++ [a] ++ p := by rw [List.append_assoc]; rfl
        rw [hsplit] at halias ⊢
        exact hrest p hp' htail halias
    · intro h
      refine ⟨fun halias => h [c] (List.cons_ne_nil _ _) (List.prefix_append [c] cs) halias,
        fun p _ hpre halias => ?_⟩
      have hsplit : e ++ [c] ++ p = e ++ c :: p := by rw [List.append_assoc]; rfl
      rw [hsplit] at halias ⊢
      exact h (c :: p) (List.cons_ne_nil _ _) ((List.prefix_cons_inj c).2 hpre) halias

/-- What is marked is in the high bits. -/
theorem escMask_snd (s : List Byte) : ∃ y : BitVec w, (escMask s).2 = y <<< 28 := by
  rw [escMask]
  dsimp only
  split_ifs
  · exact ⟨_, rfl⟩
  · exact ⟨_, rfl⟩
  · exact ⟨_, rfl⟩
  · refine ⟨0#w, ?_⟩
    rw [BitVec.zero_shiftLeft]

/-- The bits of modifiers are apart from {lit}`#esc`. -/
theorem escCode_or_mask_iff (s : List Byte) :
    (escCode : BitVec w) ||| (escMask s).2 = escCode ↔ (escMask s).2 = 0#w := by
  obtain ⟨y, hy⟩ := escMask_snd (w := w) s
  rw [hy]
  constructor
  · intro h
    refine BitVec.eq_of_getLsbD_eq fun i hi => ?_
    have hbit : (escCode ||| y <<< 28).getLsbD i = (escCode : BitVec w).getLsbD i := by rw [h]
    rw [BitVec.getLsbD_or, BitVec.getLsbD_shiftLeft] at hbit
    rw [BitVec.getLsbD_shiftLeft, BitVec.getLsbD_zero]
    by_cases hlow : i < 28
    · simp [hlow]
    · have hesc : (escCode : BitVec w).getLsbD i = false := by
        rw [escCode, BitVec.getLsbD_ofNat, Nat.testBit_lt_two_pow, Bool.and_false]
        exact Nat.lt_of_lt_of_le (show 27 < 2 ^ 5 by decide) (Nat.pow_le_pow_right (by decide) (by omega))
      rwa [hesc, Bool.false_or] at hbit
  · intro h
    rw [h, BitVec.or_zero]

/-! ## Lost keys -/

/-- The first sequence with a code that is met among some keys -/
structure Recognised (table : Table w) (cs init : List Byte) (c : Byte) (rest : List Byte)
    (u : BitVec w) : Prop where
  eq : cs = init ++ c :: rest
  noCode : NoCode table [] init
  hasCode : HasCode table (init ++ [c]) u

/-- The keys begin with a sequence, or no prefix of them is one. -/
theorem recognised_or_noCode (table : Table w) (cs : List Byte) :
    (∃ init c rest u, Recognised table cs init c rest u) ∨ NoCode table [] cs := by
  induction cs using List.reverseRecOn with
  | nil => exact Or.inr fun p hp hpre => absurd (List.prefix_nil.1 hpre) hp
  | append_singleton cs c ih =>
    rcases ih with ⟨init, a, rest, u, h⟩ | hno
    · refine Or.inl ⟨init, a, rest ++ [c], u, ?_, h.noCode, h.hasCode⟩
      rw [h.eq, List.append_assoc]
      rfl
    · by_cases hcode : ∃ u, HasCode table (cs ++ [c]) u
      · obtain ⟨u, hu⟩ := hcode
        exact Or.inl ⟨cs, c, [], u, rfl, hno, hu⟩
      · refine Or.inr fun p hp hpre u hu => ?_
        rcases List.prefix_concat_iff.1 hpre with rfl | hpre
        · exact hcode ⟨u, hu⟩
        · exact hno p hp hpre u hu

/-- Either the code of a sequence is returned, with its own modifiers, and the keys behind it are left;
or {lit}`#esc`, and all keys are left.  In both cases {lit}`ekey-buffer` is empty. -/
def LosesNoKeys (table : Table w) (cs : List Byte) (r : BitVec w × Keys) : Prop :=
  r.2.ekeyBuffer = [] ∧
    ((∃ p rest u, p ≠ [] ∧ cs = p ++ rest ∧ HasCode table p u ∧ r.1 = u ||| (escMask p).2 ∧
        r.2.available = rest) ∨
      r.1 = escCode ∧ r.2.available = cs)

/-- The prefixes in the table that are met in front of the sequence have no modifiers that it does not
have; if there is no sequence, they have none at all. -/
def ModifiersFit (table : Table w) (cs : List Byte) : Prop :=
  (∀ init c rest u, Recognised table cs init c rest u → ∀ p, p ≠ [] → p <+: init → IsAlias table p →
    (u ||| (escMask (init ++ [c])).2) ||| (escMask p).2 = u ||| (escMask (init ++ [c])).2) ∧
  (NoCode table [] cs → ∀ p, p ≠ [] → p <+: cs → IsAlias table p → (escMask (w := w) p).2 = 0#w)

/-- A recognised sequence loses no keys if no bits are added to its code. -/
theorem losesNoKeys_of_recognised_iff (hk : k.ekeyBuffer = []) {init rest : List Byte} {c : Byte}
    {u : BitVec w} (h : Recognised table k.available init c rest u) :
    LosesNoKeys table k.available (escPrefix table k) ↔
      (u ||| (escMask (init ++ [c])).2) ||| passed table [] init = u ||| (escMask (init ++ [c])).2 := by
  obtain ⟨hcode, havailable, hempty⟩ :=
    escPrefix_of_hasCode h.eq (hk ▸ h.noCode) (by rw [hk]; exact h.hasCode)
  rw [hk, List.nil_append] at hcode
  constructor
  · rintro ⟨-, ⟨p, rest', u', -, hcs, hu', hcode', hrest⟩ | ⟨-, hall⟩⟩
    · -- what is left determines the bytes that were recognised
      rw [havailable] at hrest
      subst hrest
      have hp : p = init ++ [c] := by
        rw [h.eq, ← List.singleton_append, ← List.append_assoc] at hcs
        exact (List.append_cancel_right hcs).symm
      subst hp
      obtain rfl : u = u' := by
        have heq := h.hasCode.symm.trans hu'
        injection heq with heq
        injection heq
      rw [← hcode, hcode']
    · have hlength := congrArg List.length (havailable.symm.trans hall)
      rw [h.eq, List.length_append, List.length_cons] at hlength
      omega
  · intro hmask
    refine ⟨hempty, Or.inl ⟨init ++ [c], rest, u, List.concat_ne_nil c init, ?_, h.hasCode, ?_,
      havailable⟩⟩
    · rw [h.eq, List.append_assoc]
      rfl
    · rw [hcode, hmask]

/-- Without a sequence no keys are lost if no bits are added to the code of the escape key. -/
theorem losesNoKeys_of_noCode_iff (hk : k.ekeyBuffer = []) (h : NoCode table [] k.available) :
    LosesNoKeys table k.available (escPrefix table k) ↔
      escCode ||| passed table [] k.available = escCode := by
  obtain ⟨hcode, havailable, hempty⟩ := escPrefix_of_noCode (hk ▸ h)
  rw [hk, List.nil_append] at havailable
  rw [hk] at hcode
  constructor
  · rintro ⟨-, ⟨p, rest, u, hp, hcs, -, -, hrest⟩ | ⟨hesc, -⟩⟩
    · rw [havailable] at hrest
      have hlength := congrArg List.length hcs
      rw [hrest, List.length_append] at hlength
      exact absurd (List.length_eq_zero_iff.1 (by omega)) hp
    · rw [← hcode, hesc]
  · intro hmask
    exact ⟨hempty, Or.inr ⟨hcode.trans hmask, havailable⟩⟩

/-- Keys that begin with a sequence are not free of sequences. -/
theorem Recognised.not_noCode {cs init rest : List Byte} {c : Byte} {u : BitVec w}
    (h : Recognised table cs init c rest u) : ¬NoCode table [] cs := by
  intro hno
  refine hno (init ++ [c]) (List.concat_ne_nil c init) ⟨rest, ?_⟩ u h.hasCode
  rw [h.eq, List.append_assoc]
  rfl

/-- The first sequence that is met is met only once. -/
theorem Recognised.unique {cs init init' rest rest' : List Byte} {c c' : Byte} {u u' : BitVec w}
    (h : Recognised table cs init c rest u) (h' : Recognised table cs init' c' rest' u') :
    init = init' ∧ c = c' ∧ u = u' := by
  have hpre : init ++ [c] <+: cs := ⟨rest, by rw [h.eq, List.append_assoc]; rfl⟩
  have hpre' : init' ++ [c'] <+: cs := ⟨rest', by rw [h'.eq, List.append_assoc]; rfl⟩
  have heq : init ++ [c] = init' ++ [c'] := by
    rcases List.prefix_or_prefix_of_prefix hpre hpre' with hle | hle
    · rcases List.prefix_concat_iff.1 hle with heq | hle
      · exact heq
      · exact absurd h.hasCode (h'.noCode _ (List.concat_ne_nil c init) hle u)
    · rcases List.prefix_concat_iff.1 hle with heq | hle
      · exact heq.symm
      · exact absurd h'.hasCode (h.noCode _ (List.concat_ne_nil c' init') hle u')
  obtain ⟨hinit, hc⟩ := List.append_inj' heq rfl
  refine ⟨hinit, List.singleton_injective hc, ?_⟩
  have hcode := h.hasCode
  rw [heq] at hcode
  have hu := hcode.symm.trans h'.hasCode
  injection hu with hu
  injection hu

/-- Escape sequences lose no keys if and only if the modifiers fit. -/
theorem losesNoKeys_iff (table : Table w) (k : Keys) (hk : k.ekeyBuffer = []) :
    LosesNoKeys table k.available (escPrefix table k) ↔ ModifiersFit table k.available := by
  rcases recognised_or_noCode table k.available with ⟨init, c, rest, u, h⟩ | hno
  · rw [losesNoKeys_of_recognised_iff hk h, or_passed_eq_iff]
    constructor
    · refine fun hmask => ⟨fun init' c' rest' u' h' => ?_, fun hno => absurd hno h.not_noCode⟩
      obtain ⟨rfl, rfl, rfl⟩ := h.unique h'
      exact hmask
    · exact fun hfit => hfit.1 init c rest u h
  · rw [losesNoKeys_of_noCode_iff hk hno, or_passed_eq_iff]
    constructor
    · exact fun hmask => ⟨fun init c rest u h => absurd hno h.not_noCode, fun _ p hp hpre halias =>
        (escCode_or_mask_iff p).1 (hmask p hp hpre halias)⟩
    · exact fun hfit p hp hpre halias =>
        (escCode_or_mask_iff p).2 (hfit.2 hno p hp hpre halias)

/-! ## Sequences that terminals send -/

/-- {lit}`k-right` and {lit}`k-f5` have the sequences {lit}`[C` and {lit}`[15~`. -/
def terminal : Table 64 :=
  escSequence 0x8000000F#64 ("[15~".toList.map ascii)
    (escSequence 0x80000001#64 ("[C".toList.map ascii) [])

/-- Keys that have arrived -/
def typed (s : List Char) : Keys :=
  ⟨[], s.map ascii, []⟩

theorem closed_nil : Closed ([] : Table w) :=
  fun _ he => absurd he List.not_mem_nil

theorem closed_terminal : Closed terminal :=
  closed_escSequence (closed_escSequence closed_nil _ (by decide)) _ (by decide)

theorem escPrefix_incomplete :
    (escPrefix terminal (typed ['[', '1', ';', '5'])).1 = 0x4000001B#64 ∧
      (escPrefix terminal (typed ['[', '1', ';', '5'])).2.available.length = 4 := by
  decide +kernel

/-- {lit}`ctrl` with {lit}`k-right` -/
theorem losesNoKeys_iff_ctrl :
    (typed ['[', '1', ';', '5', 'C']).ekeyBuffer = [] ∧
      (LosesNoKeys terminal (typed ['[', '1', ';', '5', 'C']).available
          (escPrefix terminal (typed ['[', '1', ';', '5', 'C'])) ↔
        ModifiersFit terminal (typed ['[', '1', ';', '5', 'C']).available) :=
  ⟨rfl, losesNoKeys_iff terminal (typed ['[', '1', ';', '5', 'C']) rfl⟩

/-- {lit}`ctrl` of an incomplete sequence for {lit}`k-right` -/
theorem not_losesNoKeys_incomplete :
    Closed terminal ∧ (typed ['[', '1', ';', '5']).ekeyBuffer = [] ∧
      ¬LosesNoKeys terminal (typed ['[', '1', ';', '5']).available
        (escPrefix terminal (typed ['[', '1', ';', '5'])) := by
  refine ⟨closed_terminal, rfl, ?_⟩
  rintro ⟨-, ⟨p, rest, u, hp, hcs, -, -, hrest⟩ | ⟨hcode, -⟩⟩
  · -- all four keys are left, so nothing was recognised
    have hlength := congrArg List.length hcs
    rw [List.length_append, ← hrest, escPrefix_incomplete.2] at hlength
    exact hp (List.length_eq_zero_iff.1 (Nat.add_eq_right.1 hlength.symm))
  · rw [escPrefix_incomplete.1] at hcode
    exact absurd hcode (by decide)

end Ekey
end Gforth
