import Gforth.Hash.Agreement

/-!
# Runs of the hashed dictionary

As long as no new index is the last one of the table, every run of operations keeps
the hash table in agreement with the linked lists of all hashed wordlists, whatever
doublings happen on the way.  When the last index is allocated, the table doubles
before the index is stored; the index then belongs to another wordlist.

Main results:

- Theorem {lit}`step_keeps`: every operation keeps the agreement.
- Theorem {lit}`run_agrees`: so does every run.
- Theorem {lit}`run_last_index`: 2048 wordlists get the same index twice.
-/

namespace Gforth
namespace Hash

open Lib

/-- The hash table agrees with the linked lists: a search finds what a search of the
linked list finds, the latest word with the name up to ASCII case, and the indices of
hashed wordlists are distinct and inside the table. -/
structure DictAgrees (s : State) : Prop where
  find_eq : ∀ w ∈ s.hashedVocs, ∀ name,
    hashFind s name w = some (listlfind name (s.wordlist w).id)
  find_latest : ∀ w ∈ s.hashedVocs, ∀ name,
    hashFind s name w = some ((s.wordlist w).id.find? fun nt => SameName name nt.name)
  extend_inj : ∀ w ∈ s.hashedVocs, ∀ w' ∈ s.hashedVocs,
    (s.wordlist w).extend = (s.wordlist w').extend → w = w'
  extend_lt : ∀ w ∈ s.hashedVocs, (s.wordlist w).extend < s.hashlen

/-- The invariant between operations. -/
structure Invariant (s : State) : Prop where
  nodup : s.voclink.Nodup
  wid_lt : ∀ w ∈ s.voclink, w < s.voclink.length
  insRule : s.insRule = true
  agree : ∃ B, Agree s.hashedVocs s B

variable {s : State} {B : Nat → List Nt} {w : Wid}

/-- The invariant says that searches agree with the lists. -/
theorem Invariant.dictAgrees (h : Invariant s) : DictAgrees s := by
  obtain ⟨B, hagree⟩ := h.agree
  have hlt : ∀ w ∈ s.hashedVocs, (s.wordlist w).extend < s.hashlen :=
    fun w hw => lt_trans (hagree.extend_lt w hw) hagree.index_lt
  have hfind : ∀ w ∈ s.hashedVocs, ∀ name,
      hashFind s name w = some (listlfind name (s.wordlist w).id) := by
    intro w hw name
    rw [hashFind_eq hagree.represents (hagree.table_of_extend (hagree.extend_lt w hw)) (hlt w hw),
      ← hagree.find_eq w hw name]
    rfl
  refine ⟨hfind, fun w hw name => ?_, hagree.extend_inj, hlt⟩
  rw [hfind w hw name, listlfind_eq_find]

/-- The operation does not allocate the last index of the table, and its wordlist
exists. -/
def Safe (s : State) : Op → Prop
  | Op.wordlist map => map.hashed = true → s.hashIndex + 1 < s.hashlen
  | Op.reveal _ w => w ∈ s.voclink
  | Op.initwl w => w ∈ s.voclink ∧
      ((s.wordlist w).map.hashed = true → (s.wordlist w).extend = 0 →
        s.hashIndex + 1 < s.hashlen)
  | Op.cold => True

/-! ## Every operation keeps the agreement -/

/-- Distinct indices are no more than were allocated. -/
theorem Agree.length_le {D : List Wid} (h : Agree D s B) (hD : D.Nodup) :
    D.length ≤ s.hashIndex := by
  have hnodup : (D.map fun w => (s.wordlist w).extend).Nodup :=
    List.Nodup.map_on (fun w hw w' hw' => h.extend_inj w hw w' hw') hD
  have hsub : (D.map fun w => (s.wordlist w).extend).toFinset ⊆ Finset.range s.hashIndex := by
    intro i hi
    rw [List.mem_toFinset, List.mem_map] at hi
    obtain ⟨w, hw, rfl⟩ := hi
    exact Finset.mem_range.mpr (h.extend_lt w hw)
  have hcard := Finset.card_le_card hsub
  rwa [List.toFinset_card_of_nodup hnodup, List.length_map, Finset.card_range] at hcard

theorem nodup_hashedVocs (h : s.voclink.Nodup) : s.hashedVocs.Nodup :=
  h.filter _

theorem Invariant.hashedVocs_lt (h : Invariant s) : s.hashedVocs.length < s.hashlen := by
  obtain ⟨B, hagree⟩ := h.agree
  exact lt_of_le_of_lt (hagree.length_le (nodup_hashedVocs h.nodup)) hagree.index_lt

theorem mem_hashedVocs : w ∈ s.hashedVocs ↔ w ∈ s.voclink ∧ (s.wordlist w).map.hashed = true :=
  List.mem_filter

/-- The fuel of an operation suffices for all of its doublings. -/
theorem doubleOk_doublings {s₀ s : State} (hnodup : s₀.voclink.Nodup)
    (hn : s₀.hashedVocs.length < 2 ^ s₀.hashbits) (hs : SameDict s₀ s) :
    DoubleOk (hashdouble s₀.doublings) s s₀.hashbits (s₀.words + s₀.hashPop + 1) :=
  (hashdouble_spec hnodup (by omega) s₀.doublings s₀.hashbits hn
    (by rw [State.doublings]; omega)).of_sameDict hs

/-- A state whose table was filled anew. -/
theorem Added.invariant {s s' : State} (h : Added s s.voclink s') (hnodup : s.voclink.Nodup)
    (hwid : ∀ w ∈ s.voclink, w < s.voclink.length) (hrule : s.insRule = true) :
    Invariant s' := by
  obtain ⟨B, hagree⟩ := h.agree
  refine ⟨h.sameDict.voclink ▸ hnodup, h.sameDict.voclink ▸ hwid, h.insRule.trans hrule, B, ?_⟩
  rw [h.sameDict.hashedVocs]
  exact hagree

/-- {lit}`hash-cold` keeps the invariant. -/
theorem hashCold_keeps (h : Invariant s) : ∃ s', hashCold s = some s' ∧ Invariant s' := by
  obtain ⟨B, hagree⟩ := h.agree
  let s₁ : State := { dropTable s with
    links := Function.update (dropTable s).links (Loc.root Root.hashPointer) 0
    hashIndex := 0 }
  have hlinks : s₁.links =
      Function.update (dropTable s).links (Loc.root Root.hashPointer) 0 := rfl
  have hclear : Cleared s₁ fun _ => [] := by
    refine ⟨hagree.represents.erase (fun _ => ?_) (Or.inr ?_) (fun _ => ?_) rfl, Or.inr rfl, rfl,
      fun _ _ => rfl⟩
    · rw [hlinks, Function.update_of_ne (by simp)]
      rfl
    · rw [hlinks, Function.update_self]
    · rw [hlinks, Function.update_of_ne (by simp)]
      rfl
  have hdouble : DoubleOk (hashdouble s.doublings) s₁ s₁.hashbits (s.words + s.hashPop + 1) :=
    doubleOk_doublings h.nodup h.hashedVocs_lt ⟨rfl, fun _ => rfl, fun _ => rfl⟩
  obtain ⟨s', hs', hadded⟩ := addall_spec hdouble hclear h.hashedVocs_lt
    (by change s.words ≤ _; omega) h.nodup
  exact ⟨s', hs', hadded.invariant h.nodup h.wid_lt h.insRule⟩

/-- {lit}`rehashall` keeps the invariant. -/
theorem rehashall_keeps (h : Invariant s) (htable : s.hashTable = some s.hashlen) :
    ∃ s', rehashall s = some s' ∧ Invariant s' := by
  obtain ⟨B, hagree⟩ := h.agree
  cases hrevealed : s.revealed with
  | false => exact ⟨s, by simp [rehashall, hrevealed], h⟩
  | true =>
      obtain ⟨s₁, B₁, hs₁, hdict, hbits, hrule, hclear⟩ :=
        clearhash_spec hagree.represents htable
      have hdouble := doubleOk_doublings h.nodup h.hashedVocs_lt hdict
      rw [← hbits] at hdouble
      have hlen : s₁.hashlen = s.hashlen := by rw [State.hashlen, State.hashlen, hbits]
      obtain ⟨s₂, hs₂, hadded⟩ := addall_spec hdouble hclear
        (by rw [hdict.hashedVocs, hlen]; exact h.hashedVocs_lt)
        (by rw [hdict.words]; omega) (by rw [hdict.voclink]; exact h.nodup)
      have hinv := hadded.invariant (by rw [hdict.voclink]; exact h.nodup)
        (by rw [hdict.voclink]; exact h.wid_lt) (hrule.trans h.insRule)
      obtain ⟨B₂, hagree₂⟩ := hinv.agree
      refine ⟨{ s₂ with revealed := false }, ?_, hinv.nodup, hinv.wid_lt, hinv.insRule, B₂,
        hagree₂.of_flags s₂.insRule false hagree₂.pop_lt⟩
      simp [rehashall, hrevealed, hs₁, hs₂]

/-- {lit}`inithash` outside of a doubling. -/
theorem inithash_keeps {D : List Wid} (hnodup : s.voclink.Nodup)
    (hwid : ∀ w ∈ s.voclink, w < s.voclink.length) (hrule : s.insRule = true) (hagree : Agree D s B)
    (hw : w ∈ s.hashedVocs) (hwD : w ∉ D) (hD : ∀ w', w' ∈ s.hashedVocs ↔ w' = w ∨ w' ∈ D)
    (hlt : s.hashIndex + 1 < s.hashlen) (hn : s.hashedVocs.length < s.hashlen) :
    ∃ s', inithash (hashdouble s.doublings) s w = some s' ∧ Invariant s' := by
  have hid : (s.wordlist w).id.length ≤ s.words := by
    unfold State.words State.wordsOf
    exact List.single_le_sum (by simp) _ (List.mem_map_of_mem hw)
  have hcounts : Counts s.hashedVocs.length s.words s.hashbits s.hashIndex s.hashPop s :=
    ⟨le_rfl, Nat.le_add_right _ _, Nat.le_add_right _ _⟩
  obtain ⟨s', B', hs', hdict, hrule', hagree', -⟩ :=
    inithash_spec (doubleOk_doublings hnodup hn SameDict.rfl) hagree hw
      (fun w' hw' => (hD w').mpr (Or.inr hw')) hwD hcounts hlt (by omega) (by omega)
  refine ⟨s', hs', hdict.voclink ▸ hnodup, hdict.voclink ▸ hwid, hrule'.trans hrule, B',
    hagree'.mono ?_⟩
  intro w' hw'
  rw [hdict.hashedVocs] at hw'
  exact List.mem_cons.mpr ((hD w').mp hw')

/-- {lit}`initwl` keeps the invariant. -/
theorem initwl_keeps (h : Invariant s) (hw : w ∈ s.voclink)
    (hsafe : (s.wordlist w).map.hashed = true → (s.wordlist w).extend = 0 →
      s.hashIndex + 1 < s.hashlen) : ∃ s', initwl s w = some s' ∧ Invariant s' := by
  obtain ⟨B, hagree⟩ := h.agree
  unfold initwl
  by_cases hhashed : (s.wordlist w).map.hashed = true
  · rw [if_pos hhashed, rehash]
    have hmem : w ∈ s.hashedVocs := mem_hashedVocs.mpr ⟨hw, hhashed⟩
    split
    · rename_i hzero
      refine inithash_keeps (D := s.hashedVocs.filter (· ≠ w)) h.nodup h.wid_lt h.insRule
        (hagree.mono fun w' hw' => List.mem_of_mem_filter hw') hmem (by simp) ?_
        (hsafe hhashed hzero) h.hashedVocs_lt
      intro w'
      rw [List.mem_filter]
      by_cases heq : w' = w
      · simp [heq, hmem]
      · simp [heq]
    · exact rehashall_keeps h (hagree.table_of_extend (hagree.extend_lt w hmem))
  · rw [if_neg hhashed]
    exact ⟨s, rfl, h⟩

/-- Changes to other wordlists do not matter. -/
theorem Agree.of_wordlist {D : List Wid} {s s' : State} (h : Agree D s B)
    (hnodes : s'.links = s.links ∧ s'.entry = s.entry ∧ s'.heapTop = s.heapTop)
    (hcounters : s'.hashbits = s.hashbits ∧ s'.hashTable = s.hashTable ∧
      s'.hashIndex = s.hashIndex ∧ s'.hashPop = s.hashPop)
    (hwl : ∀ w ∈ D, s'.wordlist w = s.wordlist w) : Agree D s' B := by
  obtain ⟨hlinks, hentry, hheapTop⟩ := hnodes
  obtain ⟨hbits, htable, hindex, hpop⟩ := hcounters
  have hlen : s'.hashlen = s.hashlen := by rw [State.hashlen, State.hashlen, hbits]
  refine ⟨h.represents.of_nodes hlinks hentry hheapTop, ?_, ?_, ?_, ?_, ?_, ?_, ?_⟩
  · rw [htable, hlen, hindex]
    exact h.table
  · rw [hindex, hlen]
    exact h.index_lt
  · rw [hpop, hlen]
    exact h.pop_lt
  · rw [hindex, hlen, hbits]
    exact h.fresh
  · intro w hw
    rw [hwl w hw, hindex]
    exact h.extend_lt w hw
  · intro w hw w' hw'
    rw [hwl w hw, hwl w' hw']
    exact h.extend_inj w hw w' hw'
  · intro w hw
    rw [hwl w hw, hbits]
    exact h.find_eq w hw

/-- A new wordlist keeps the invariant. -/
theorem mappedwordlist_keeps (map : WordlistMap) (h : Invariant s)
    (hsafe : map.hashed = true → s.hashIndex + 1 < s.hashlen) :
    ∃ s', mappedwordlist s map = some s' ∧ Invariant s' := by
  obtain ⟨B, hagree⟩ := h.agree
  let w := s.voclink.length
  let s₁ : State := { s with
    voclink := w :: s.voclink
    wordlist := Function.update s.wordlist w ⟨map, [], 0⟩ }
  have hwnew : w ∉ s.voclink := fun hw => absurd (h.wid_lt w hw) (lt_irrefl _)
  have hself : s₁.wordlist w = ⟨map, [], 0⟩ := Function.update_self _ _ _
  have hother : ∀ w' ∈ s.voclink, s₁.wordlist w' = s.wordlist w' := by
    intro w' hw'
    have hne : w' ≠ w := fun heq => hwnew (heq ▸ hw')
    exact Function.update_of_ne hne _ _
  have hvocs : ∀ w', w' ∈ s₁.hashedVocs ↔
      (w' = w ∧ map.hashed = true) ∨ w' ∈ s.hashedVocs := by
    intro w'
    rw [mem_hashedVocs, mem_hashedVocs]
    change w' ∈ w :: s.voclink ∧ _ ↔ _
    rw [List.mem_cons]
    by_cases heq : w' = w
    · subst heq
      simp [hself, hwnew]
    · constructor
      · rintro ⟨hmem | hmem, hhashed⟩
        · exact absurd hmem heq
        · exact Or.inr ⟨hmem, hother w' hmem ▸ hhashed⟩
      · rintro (⟨hmem, -⟩ | ⟨hmem, hhashed⟩)
        · exact absurd hmem heq
        · exact ⟨Or.inr hmem, (hother w' hmem).symm ▸ hhashed⟩
  have hagree₁ : Agree s.hashedVocs s₁ B :=
    hagree.of_wordlist ⟨rfl, rfl, rfl⟩ ⟨rfl, rfl, rfl, rfl⟩
      fun w' hw' => hother w' (mem_hashedVocs.mp hw').1
  have hnodup₁ : s₁.voclink.Nodup := List.nodup_cons.mpr ⟨hwnew, h.nodup⟩
  have hwid₁ : ∀ w' ∈ s₁.voclink, w' < s₁.voclink.length := by
    intro w' hw'
    change w' < s.voclink.length + 1
    rcases List.mem_cons.mp hw' with heq | hw'
    · exact heq ▸ Nat.lt_succ_self _
    · exact Nat.lt_succ_of_lt (h.wid_lt w' hw')
  change ∃ s', initwl s₁ w = some s' ∧ Invariant s'
  unfold initwl
  by_cases hhashed : map.hashed = true
  · rw [if_pos (by rw [hself]; exact hhashed), rehash, if_pos (by rw [hself])]
    have hn : s₁.hashedVocs.length < s₁.hashlen := by
      have hle : s₁.hashedVocs.length ≤ s.hashedVocs.length + 1 := by
        have hsub : s₁.hashedVocs ⊆ w :: s.hashedVocs := by
          intro w' hw'
          rcases (hvocs w').mp hw' with ⟨heq, -⟩ | hmem
          · exact heq ▸ List.mem_cons_self
          · exact List.mem_cons_of_mem w hmem
        exact (List.subperm_of_subset (nodup_hashedVocs hnodup₁) hsub).length_le
      have hindex := hagree.length_le (nodup_hashedVocs h.nodup)
      have hlt := hsafe hhashed
      change _ < s.hashlen
      omega
    refine inithash_keeps hnodup₁ hwid₁ h.insRule hagree₁ ((hvocs w).mpr (Or.inl ⟨rfl, hhashed⟩))
      (fun hmem => hwnew (mem_hashedVocs.mp hmem).1) ?_ (hsafe hhashed) hn
    intro w'
    rw [hvocs w', hhashed]
    simp
  · rw [if_neg (by rw [hself]; exact hhashed)]
    refine ⟨s₁, rfl, hnodup₁, hwid₁, h.insRule, B, hagree₁.mono ?_⟩
    intro w' hw'
    rcases (hvocs w').mp hw' with ⟨-, hmap⟩ | hmem
    · exact absurd hmap hhashed
    · exact hmem

/-- The linked list of a wordlist grows in front. -/
theorem nocheckReveal_wordlist (s : State) (nt : Nt) (w w' : Wid) :
    (nocheckReveal s nt w).wordlist w' =
      if w' = w then { s.wordlist w with id := nt :: (s.wordlist w).id } else s.wordlist w' := by
  by_cases h : w' = w
  · subst h
    simp [nocheckReveal]
  · simp [nocheckReveal, h]

/-- Revealing a word hashes no wordlist. -/
theorem nocheckReveal_hashedVocs (s : State) (nt : Nt) (w : Wid) :
    (nocheckReveal s nt w).hashedVocs = s.hashedVocs := by
  have hmap : ∀ w', ((nocheckReveal s nt w).wordlist w').map = (s.wordlist w').map := by
    intro w'
    rw [nocheckReveal_wordlist]
    split
    · rename_i heq
      rw [heq]
    · rfl
  unfold State.hashedVocs State.hashedAmong
  simp only [hmap]
  rfl

/-- A word revealed into a wordlist and entered into its bucket is the one that is found
from then on. -/
theorem Agree.reveal {s s' : State} {nt : Nt} (h : Agree s.hashedVocs s B) (hw : w ∈ s.hashedVocs)
    (hsame : SameButNodes (nocheckReveal s nt w) s') (hrep : Represents s' (Function.update B
      ((s.wordlist w).extend ^^^ hash s.hashbits nt.name)
      (insertWord true nt (B ((s.wordlist w).extend ^^^ hash s.hashbits nt.name))))) :
    ∃ B', Agree s.hashedVocs s' B' := by
  have hlen : s'.hashlen = s.hashlen := by
    rw [State.hashlen, State.hashlen, hsame.hashbits]
    rfl
  have hwl : ∀ w', s'.wordlist w' =
      if w' = w then { s.wordlist w with id := nt :: (s.wordlist w).id } else s.wordlist w' := by
    intro w'
    rw [hsame.wordlist, nocheckReveal_wordlist]
  have hext : ∀ w', (s'.wordlist w').extend = (s.wordlist w').extend := by
    intro w'
    rw [hwl]
    split
    · rename_i heq
      rw [heq]
    · rfl
  have hview := view_insert s.hashbits B true nt (s.wordlist w).extend
  have hbits : s'.hashbits = s.hashbits := hsame.hashbits
  have hindex : s'.hashIndex = s.hashIndex := hsame.hashIndex
  refine ⟨_, hrep, ?_, ?_, ?_, ?_, ?_, ?_, ?_⟩
  · rw [hsame.hashTable, hlen, hindex]
    exact h.table
  · rw [hindex, hlen]
    exact h.index_lt
  · rw [hsame.hashPop, hlen]
    exact h.pop_lt
  · intro i hi hlt name
    rw [hindex] at hi
    rw [hlen] at hlt
    have hne := h.extend_lt w hw
    rw [hbits, hview, if_neg (by rintro ⟨rfl, -⟩; omega), h.fresh i hi hlt name]
  · intro w' hw'
    rw [hext, hindex]
    exact h.extend_lt w' hw'
  · intro w₁ h₁ w₂ h₂
    rw [hext, hext]
    exact h.extend_inj w₁ h₁ w₂ h₂
  · intro w' hw' name
    rw [hbits, hext, hview, hwl]
    by_cases heq : w' = w
    · subst heq
      rw [if_pos rfl]
      simp only [true_and, if_true, listlfind]
      rw [h.find_eq w' hw' name]
    · rw [if_neg heq, if_neg fun hand => heq (h.extend_inj w' hw' w hw hand.1),
        h.find_eq w' hw' name]

/-- {lit}`reveal` keeps the invariant. -/
theorem reveal_keeps {nt : Nt} (h : Invariant s) (hw : w ∈ s.voclink) :
    ∃ s', reveal s nt w = some s' ∧ Invariant s' := by
  obtain ⟨B, hagree⟩ := h.agree
  unfold Hash.reveal
  split
  · exact ⟨s, rfl, h⟩
  have hmap : ((nocheckReveal s nt w).wordlist w).map = (s.wordlist w).map := by
    rw [nocheckReveal_wordlist, if_pos rfl]
  simp only [hmap]
  have hvocs := nocheckReveal_hashedVocs s nt w
  by_cases hhashed : (s.wordlist w).map.hashed = true
  · rw [if_pos hhashed]
    have hmem : w ∈ s.hashedVocs := mem_hashedVocs.mpr ⟨hw, hhashed⟩
    have hext : ((nocheckReveal s nt w).wordlist w).extend = (s.wordlist w).extend := by
      rw [nocheckReveal_wordlist, if_pos rfl]
    have htable := hagree.table_of_extend (hagree.extend_lt w hmem)
    have hbucket := bucket_eq (s := nocheckReveal s nt w) htable (w := w)
      (by rw [hext]; exact lt_trans (hagree.extend_lt w hmem) hagree.index_lt) nt.name
    rw [hext] at hbucket
    have hrep : Represents (nocheckReveal s nt w) B := hagree.represents.of_nodes rfl rfl rfl
    obtain ⟨s₁, hs₁, hsame, hrep₁⟩ := enter_spec hrep hbucket
    have hrule : (nocheckReveal s nt w).insRule = true := h.insRule
    rw [hrule] at hrep₁
    obtain ⟨B₁, hagree₁⟩ := hagree.reveal hmem hsame hrep₁
    have hbits₁ : s₁.hashbits = s.hashbits := hsame.hashbits
    have hlen₁ : s₁.hashlen = s.hashlen := by rw [State.hashlen, State.hashlen, hbits₁]
    -- the state in front of the check for doubling
    let s₂ : State := { s₁ with revealed := true, hashPop := s₁.hashPop + 1 }
    have hdict₁ := hsame.sameDict
    have hdict₂ : SameDict (nocheckReveal s nt w) s₂ := ⟨hdict₁.voclink, hdict₁.map, hdict₁.id⟩
    have htable₂ : s₂.hashTable = some s₂.hashlen := by
      change s₁.hashTable = some s₁.hashlen
      rw [hsame.hashTable, hlen₁]
      exact htable
    have hreveal : revealHash (hashdouble (nocheckReveal s nt w).doublings) w
        (nocheckReveal s nt w) nt =
        (hashAlloc (hashdouble (nocheckReveal s nt w).doublings) 0 s₂).map (·.2) := by
      simp only [revealHash, hs₁, Option.bind_eq_bind, Option.bind_some]
      rfl
    have hvocs₂ : s₂.hashedVocs = s.hashedVocs := hdict₂.hashedVocs.trans hvocs
    have hvoclink₂ : s₂.voclink = s.voclink := hdict₂.voclink
    rw [hreveal, hashAlloc_zero htable₂ hagree₁.index_lt]
    by_cases hfull : 2 * s₂.hashlen ≤ s₂.hashPop
    · have hlt : (nocheckReveal s nt w).hashedVocs.length < 2 ^ (nocheckReveal s nt w).hashbits := by
        rw [hvocs]
        exact h.hashedVocs_lt
      have hnodup : (nocheckReveal s nt w).voclink.Nodup := h.nodup
      have hdouble := doubleOk_doublings hnodup hlt SameDict.rfl
      have hpop : s₂.hashPop = s.hashPop + 1 := congrArg (· + 1) hsame.hashPop
      have hbits : s₂.hashbits + 1 ≤
          4 * ((nocheckReveal s nt w).words + (nocheckReveal s nt w).hashPop + 1) := by
        refine bits_le_of_pop ?_
        calc 2 ^ (s₂.hashbits + 1) = 2 * s₂.hashlen := by rw [State.hashlen, pow_succ']
          _ ≤ s.hashPop + 1 := hpop ▸ hfull
          _ ≤ (nocheckReveal s nt w).words + (nocheckReveal s nt w).hashPop + 1 := by
            change s.hashPop + 1 ≤ _ + s.hashPop + 1
            omega
          _ ≤ _ := Nat.le_mul_of_pos_right _ (Nat.succ_pos _)
      obtain ⟨s₃, B₃, hs₃, hdoubled⟩ := hdouble s₂ B₁ hdict₂ (le_of_eq hbits₁.symm) hbits
        (hagree₁.represents.of_nodes rfl rfl rfl) htable₂
      rw [if_pos hfull, hs₃]
      have hvoclink₃ : s₃.voclink = s.voclink := hdoubled.sameDict.voclink.trans hvoclink₂
      refine ⟨s₃, rfl, hvoclink₃ ▸ h.nodup, hvoclink₃ ▸ h.wid_lt, ?_, B₃, ?_⟩
      · rw [hdoubled.insRule]
        exact hsame.insRule.trans h.insRule
      · rw [hdoubled.sameDict.hashedVocs]
        exact hdoubled.agree
    · rw [if_neg hfull]
      refine ⟨s₂, rfl, hvoclink₂ ▸ h.nodup, hvoclink₂ ▸ h.wid_lt, hsame.insRule.trans h.insRule,
        B₁, ?_⟩
      rw [hvocs₂]
      exact hagree₁.of_flags _ _ (Nat.not_le.mp hfull)
  · rw [if_neg hhashed]
    refine ⟨nocheckReveal s nt w, rfl, h.nodup, h.wid_lt, h.insRule, B, ?_⟩
    rw [hvocs]
    refine hagree.of_wordlist ⟨rfl, rfl, rfl⟩ ⟨rfl, rfl, rfl, rfl⟩ fun w' hw' => ?_
    rw [nocheckReveal_wordlist, if_neg]
    rintro rfl
    exact hhashed (mem_hashedVocs.mp hw').2

/-- Every operation that does not allocate the last index of the table succeeds and
keeps the invariant. -/
theorem step_keeps {op : Op} (h : Invariant s) (hsafe : Safe s op) :
    ∃ s', s.step op = some s' ∧ Invariant s' := by
  cases op with
  | wordlist map => exact mappedwordlist_keeps map h hsafe
  | reveal nt w => exact reveal_keeps h hsafe
  | initwl w => exact initwl_keeps h hsafe.1 hsafe.2
  | cold => exact hashCold_keeps h

/-! ## Runs -/

/-- The invariant holds at the start. -/
theorem initial_invariant (hashbits : Nat) : Invariant (State.initial hashbits) := by
  have hpos : 0 < 2 ^ hashbits := Nat.two_pow_pos _
  refine ⟨List.nodup_nil, by simp [State.initial], rfl, fun _ => [], ?_, Or.inr ⟨rfl, rfl⟩, hpos,
    Nat.mul_pos (by decide) hpos, fun _ _ _ _ => rfl, ?_, ?_, ?_⟩
  · exact ⟨fun _ => [], ⟨chains_empty fun _ => rfl, by simp, Nat.one_pos⟩, by simp⟩
  · simp [State.initial, State.hashedVocs, State.hashedAmong]
  · simp [State.initial, State.hashedVocs, State.hashedAmong]
  · simp [State.initial, State.hashedVocs, State.hashedAmong]

/-- One operation after another. -/
def State.run (s : State) (ops : List Op) : Option State :=
  ops.foldlM State.step s

/-- Every operation of the run is safe in the state in which it starts. -/
def SafeRun (s : State) : List Op → Prop
  | [] => True
  | op :: ops => Safe s op ∧ ∀ s', s.step op = some s' → SafeRun s' ops

/-- In every run whose operations all leave the last index of the table alone, every
operation succeeds and the hash table agrees with the linked lists afterwards. -/
theorem run_agrees (hashbits : Nat) {ops : List Op}
    (hsafe : SafeRun (State.initial hashbits) ops) :
    ∃ s, (State.initial hashbits).run ops = some s ∧ DictAgrees s := by
  suffices h : ∀ s, Invariant s → SafeRun s ops → ∃ s', s.run ops = some s' ∧ DictAgrees s' from
    h _ (initial_invariant hashbits) hsafe
  clear hsafe
  induction ops with
  | nil => exact fun s h _ => ⟨s, rfl, h.dictAgrees⟩
  | cons op ops ih =>
      intro s h hsafe
      obtain ⟨s₁, hs₁, h₁⟩ := step_keeps h hsafe.1
      obtain ⟨s₂, hs₂, hagrees⟩ := ih s₁ h₁ (hsafe.2 s₁ hs₁)
      refine ⟨s₂, ?_, hagrees⟩
      rw [State.run, List.foldlM_cons, hs₁]
      exact hs₂

/-- A word with the name {lit}`DUP`. -/
def dupNt : Nt := ⟨8, [0x44#8, 0x55#8, 0x50#8]⟩

/-- What the safety of an operation looks at. -/
def State.allocation (s : State) : List Wid × Nat × Nat :=
  (s.voclink, s.hashIndex, s.hashbits)

/-- A wordlist with a word that is inserted twice -/
theorem run_agrees_dup : ∃ s, (State.initial 11).run
    [Op.wordlist WordlistMap.hashsearchMap, Op.reveal dupNt 0, Op.initwl 0] = some s ∧
      DictAgrees s := by
  refine run_agrees 11 ⟨fun _ => by decide, fun s₁ hs₁ => ?_⟩
  have hrun₁ : ((State.initial 11).step (Op.wordlist WordlistMap.hashsearchMap)).map
      State.allocation = some ([0], 1, 11) := by
    decide
  rw [hs₁] at hrun₁
  have hvoc₁ : s₁.voclink = [0] := congrArg Prod.fst (Option.some.inj hrun₁)
  refine ⟨by simp [Safe, hvoc₁], fun s₂ hs₂ => ?_⟩
  have hrun₂ : (((State.initial 11).step (Op.wordlist WordlistMap.hashsearchMap)).bind
      fun s => s.step (Op.reveal dupNt 0)).map State.allocation = some ([0], 1, 11) := by
    decide
  rw [hs₁, Option.bind_some, hs₂] at hrun₂
  obtain ⟨hvoc₂, hindex₂, hbits₂⟩ : s₂.voclink = [0] ∧ s₂.hashIndex = 1 ∧ s₂.hashbits = 11 := by
    simpa [State.allocation] using hrun₂
  refine ⟨⟨by simp [hvoc₂], fun _ _ => ?_⟩, fun _ _ => trivial⟩
  rw [hindex₂, State.hashlen, hbits₂]
  decide

/-! ## The last index -/

/-- {lit}`inithash` of an empty wordlist, with indices left in the table. -/
theorem inithash_empty (double : State → Option State) (hid : (s.wordlist w).id = [])
    (hlt : s.hashIndex + 1 < s.hashlen) (hpop : s.hashPop < 2 * s.hashlen) :
    inithash double s w =
      some { setExtend { allocTable { s with insRule := false } with
          hashIndex := s.hashIndex + 1 } w s.hashIndex with insRule := s.insRule } := by
  obtain ⟨hbits, hindex, hpop₁, -, -, hwl⟩ := allocTable_fields { s with insRule := false }
  have hlen : (allocTable { s with insRule := false }).hashlen = s.hashlen := by
    rw [State.hashlen, State.hashlen, hbits]
  have halloc : hashAlloc double 1 { s with insRule := false } =
      some (s.hashIndex, { allocTable { s with insRule := false } with
        hashIndex := s.hashIndex + 1 }) := by
    rw [hashAlloc, hindex]
    refine if_neg ?_
    rintro (hge | hge)
    · have : s.hashlen ≤ s.hashIndex + 1 := hlen ▸ hge
      omega
    · have hge' : 2 * (allocTable { s with insRule := false }).hashlen ≤
          (allocTable { s with insRule := false }).hashPop := hge
      rw [hlen, hpop₁] at hge'
      exact absurd hpop (Nat.not_lt.mpr hge')
  have hnil : ((setExtend { allocTable { s with insRule := false } with
      hashIndex := s.hashIndex + 1 } w s.hashIndex).wordlist w).id = [] := by
    simp [setExtend, hwl, hid]
  simp only [inithash, halloc, Option.bind_eq_bind, Option.bind_some, hnil]
  rfl

/-- What remains to be known of the state after {lit}`inithash` of an empty wordlist. -/
theorem inithash_empty_fields (double : State → Option State) (hid : (s.wordlist w).id = [])
    (hlt : s.hashIndex + 1 < s.hashlen) (hpop : s.hashPop < 2 * s.hashlen) :
    ∃ s', inithash double s w = some s' ∧ s'.hashbits = s.hashbits ∧
      s'.hashIndex = s.hashIndex + 1 ∧ s'.hashPop = s.hashPop ∧ s'.voclink = s.voclink ∧
      s'.wordlist =
        Function.update s.wordlist w { s.wordlist w with extend := s.hashIndex } := by
  obtain ⟨hbits, -, hpop₁, -, hvoc, hwl⟩ := allocTable_fields { s with insRule := false }
  refine ⟨_, inithash_empty double hid hlt hpop, hbits, rfl, hpop₁, hvoc, ?_⟩
  simp [setExtend, hwl]

/-- Empty wordlists get their indices in the order of the list of wordlists. -/
theorem addall_empty (double : State → Option State) (hindex : s.hashIndex = 0)
    (hmap : ∀ w ∈ s.voclink, (s.wordlist w).map.hashed = true)
    (hid : ∀ w ∈ s.voclink, (s.wordlist w).id = []) (hlen : s.voclink.length < s.hashlen)
    (hnodup : s.voclink.Nodup) :
    ∃ s', addall double s = some s' ∧ s'.voclink = s.voclink ∧
      (∀ w, (s'.wordlist w).map = (s.wordlist w).map) ∧
      (∀ w, (s'.wordlist w).id = (s.wordlist w).id) ∧
      ∀ (k : Nat) (w : Wid), s.voclink[k]? = some w → (s'.wordlist w).extend = k := by
  obtain ⟨s', hs', hdict, -, -, -, hext⟩ := foldlM_option_run
    (f := fun s w => if (s.wordlist w).map.hashed then inithash double s w else some s)
    (l := s.voclink) (b := { s with hashPop := 0 })
    (P := fun front s' => SameDict s s' ∧ s'.hashbits = s.hashbits ∧
      s'.hashIndex = front.length ∧ s'.hashPop = 0 ∧
      ∀ (k : Nat) (w : Wid), front[k]? = some w → (s'.wordlist w).extend = k)
    ⟨⟨rfl, fun _ => rfl, fun _ => rfl⟩, rfl, hindex, rfl, by simp⟩
    (by
      rintro front w back s₁ hvoc ⟨hdict, hbits, hindex₁, hpop, hext⟩
      have hw : w ∈ s.voclink := by simp [hvoc]
      have hlen₁ : s₁.hashlen = s.hashlen := by rw [State.hashlen, State.hashlen, hbits]
      have hpos : 0 < s.hashlen := Nat.two_pow_pos _
      have hlength : front.length + 1 ≤ s.voclink.length := by simp [hvoc]
      obtain ⟨s₂, hs₂, hbits₂, hindex₂, hpop₂, hvoc₂, hwl₂⟩ := inithash_empty_fields double
        (s := s₁) (w := w) ((hdict.id w).trans (hid w hw)) (by omega) (by omega)
      refine ⟨s₂, ?_, ⟨hvoc₂.trans hdict.voclink, fun w' => ?_, fun w' => ?_⟩,
        hbits₂.trans hbits, ?_, hpop₂.trans hpop, ?_⟩
      · rw [if_pos ((hdict.map w).symm ▸ hmap w hw), hs₂]
      · rw [hwl₂, ← hdict.map]
        by_cases heq : w' = w
        · rw [heq, Function.update_self]
        · rw [Function.update_of_ne heq]
      · rw [hwl₂, ← hdict.id]
        by_cases heq : w' = w
        · rw [heq, Function.update_self]
        · rw [Function.update_of_ne heq]
      · rw [hindex₂, hindex₁, List.length_append, List.length_singleton]
      · intro k w' hk
        rw [hwl₂]
        by_cases heq : w' = w
        · subst heq
          have hnot : w' ∉ front := by
            rw [hvoc] at hnodup
            exact fun hmem => (List.nodup_middle.mp hnodup).notMem (List.mem_append_left _ hmem)
          rw [Function.update_self]
          rcases lt_or_ge k front.length with hlt | hge
          · rw [List.getElem?_append_left hlt] at hk
            exact absurd (List.mem_of_getElem? hk) hnot
          · rw [List.getElem?_append_right hge, List.getElem?_singleton] at hk
            split at hk
            · simp only
              omega
            · cases hk
        · rw [Function.update_of_ne heq]
          refine hext k w' ?_
          rcases lt_or_ge k front.length with hlt | hge
          · rwa [List.getElem?_append_left hlt] at hk
          · rw [List.getElem?_append_right hge, List.getElem?_singleton] at hk
            split at hk
            · exact absurd (Option.some.inj hk).symm heq
            · cases hk)
  exact ⟨s', hs', hdict.voclink, hdict.map, hdict.id, hext⟩

/-- A dictionary of {lit}`n` empty hashed wordlists, with their indices in the order of
their creation. -/
structure EmptyVocs (n : Nat) (s : State) : Prop where
  invariant : Invariant s
  hashbits : s.hashbits = 11
  hashIndex : s.hashIndex = n
  hashPop : s.hashPop = 0
  voclink : s.voclink = (List.range n).reverse
  wordlist : ∀ w < n, s.wordlist w = ⟨WordlistMap.hashsearchMap, [], w⟩

/-- The state in which a new hashed wordlist is initialised. -/
def newWordlist (s : State) : State :=
  { s with
    voclink := s.voclink.length :: s.voclink
    wordlist := Function.update s.wordlist s.voclink.length
      ⟨WordlistMap.hashsearchMap, [], 0⟩ }

/-- A new hashed wordlist is inserted at once. -/
theorem mappedwordlist_eq (s : State) :
    mappedwordlist s WordlistMap.hashsearchMap =
      inithash (hashdouble (newWordlist s).doublings) (newWordlist s) s.voclink.length := by
  have hself : (newWordlist s).wordlist s.voclink.length =
      ⟨WordlistMap.hashsearchMap, [], 0⟩ := Function.update_self _ _ _
  have hhashed : ((newWordlist s).wordlist s.voclink.length).map.hashed = true := by
    rw [hself]
    rfl
  have hzero : ((newWordlist s).wordlist s.voclink.length).extend = 0 := by rw [hself]
  change initwl (newWordlist s) s.voclink.length = _
  rw [initwl, if_pos hhashed, rehash, if_pos hzero]

theorem EmptyVocs.length {n : Nat} (h : EmptyVocs n s) : s.voclink.length = n := by
  rw [h.voclink]
  simp

/-- One more empty wordlist -/
theorem EmptyVocs.step {n : Nat} (h : EmptyVocs n s) (hn : n + 1 < 2048) :
    ∃ s', s.step (Op.wordlist WordlistMap.hashsearchMap) = some s' ∧ EmptyVocs (n + 1) s' := by
  have hlen : s.hashlen = 2048 := by
    rw [State.hashlen, h.hashbits]
    norm_num
  have hlength := h.length
  have hlt : s.hashIndex + 1 < s.hashlen := by rw [h.hashIndex, hlen]; exact hn
  obtain ⟨s₁, hs₁, hinv⟩ := mappedwordlist_keeps WordlistMap.hashsearchMap
    h.invariant fun _ => hlt
  have hself : (newWordlist s).wordlist s.voclink.length =
      ⟨WordlistMap.hashsearchMap, [], 0⟩ := Function.update_self _ _ _
  obtain ⟨s₂, hs₂, hbits, hindex, hpop, hvoc, hwl⟩ := inithash_empty_fields
    (hashdouble (newWordlist s).doublings) (s := newWordlist s) (w := s.voclink.length)
    (by rw [hself]) hlt (by change s.hashPop < 2 * s.hashlen; rw [h.hashPop, hlen]; decide)
  obtain rfl : s₁ = s₂ := by
    rw [mappedwordlist_eq, hs₂] at hs₁
    exact (Option.some.inj hs₁).symm
  refine ⟨s₁, hs₁, hinv, hbits.trans h.hashbits, ?_, hpop.trans h.hashPop, ?_, ?_⟩
  · rw [hindex, ← h.hashIndex]
    rfl
  · rw [hvoc, List.range_succ, List.reverse_append, ← h.voclink]
    change s.voclink.length :: s.voclink = n :: s.voclink
    rw [hlength]
  · intro w hw
    rw [hwl, hlength]
    by_cases heq : w = n
    · subst heq
      rw [Function.update_self, ← hlength, hself, hlength, ← h.hashIndex]
      rfl
    · rw [Function.update_of_ne heq, newWordlist, hlength]
      change Function.update s.wordlist n _ w = _
      rw [Function.update_of_ne heq]
      exact h.wordlist w (by omega)

/-- Many empty wordlists -/
theorem emptyVocs_run {n : Nat} (hn : n < 2048) :
    ∃ s, (State.initial 11).run (List.replicate n (Op.wordlist WordlistMap.hashsearchMap)) =
      some s ∧ EmptyVocs n s := by
  induction n with
  | zero =>
      exact ⟨_, rfl, initial_invariant 11, rfl, rfl, rfl, rfl, fun w hw => absurd hw (by omega)⟩
  | succ n ih =>
      obtain ⟨s, hs, hempty⟩ := ih (by omega)
      obtain ⟨s', hs', hempty'⟩ := hempty.step hn
      refine ⟨s', ?_, hempty'⟩
      rw [List.replicate_succ', State.run, List.foldlM_append]
      rw [State.run] at hs
      rw [hs]
      simpa using hs'

/-- The last index of the table: the table doubles, the new wordlist gets an index, and
then the one it was meant to get in the old table. -/
theorem EmptyVocs.last (h : EmptyVocs 2047 s) :
    ∃ s', s.step (Op.wordlist WordlistMap.hashsearchMap) = some s' ∧ ¬DictAgrees s' := by
  obtain ⟨B, hagree⟩ := h.invariant.agree
  have hlen : s.hashlen = 2048 := by
    rw [State.hashlen, h.hashbits]
    norm_num
  have hlength := h.length
  have hwnew : s.voclink.length ∉ s.voclink :=
    fun hw => absurd (h.invariant.wid_lt _ hw) (lt_irrefl _)
  have htable : s.hashTable = some s.hashlen :=
    hagree.table_of_extend (i := 0) (by rw [h.hashIndex]; decide)
  have hmem : ∀ w ∈ (newWordlist s).voclink,
      ((newWordlist s).wordlist w).map = WordlistMap.hashsearchMap ∧
        ((newWordlist s).wordlist w).id = [] := by
    intro w hw
    by_cases heq : w = s.voclink.length
    · rw [heq]
      have hself : (newWordlist s).wordlist s.voclink.length =
          ⟨WordlistMap.hashsearchMap, [], 0⟩ := Function.update_self _ _ _
      rw [hself]
      exact ⟨rfl, rfl⟩
    · have hold : w ∈ s.voclink := (List.mem_cons.mp hw).resolve_left heq
      have hwl : (newWordlist s).wordlist w = s.wordlist w := Function.update_of_ne heq _ _
      have hlt : w < 2047 := by
        rw [h.voclink] at hold
        simpa using hold
      rw [hwl, h.wordlist w hlt]
      exact ⟨rfl, rfl⟩
  -- the state in which the table doubles
  let s₁ : State := { newWordlist s with insRule := false, hashIndex := s.hashIndex + 1 }
  have halloc : hashAlloc (hashdouble (newWordlist s).doublings) 1
      { newWordlist s with insRule := false } =
        (hashdouble (newWordlist s).doublings s₁).map fun s' => (s.hashIndex, s') := by
    have htable₁ : allocTable { newWordlist s with insRule := false } =
        { newWordlist s with insRule := false } := by
      refine if_neg ?_
      change s.hashTable ≠ none
      rw [htable]
      simp
    rw [hashAlloc, htable₁]
    refine if_pos (Or.inl ?_)
    change s.hashlen ≤ s.hashIndex + 1
    rw [hlen, h.hashIndex]
  obtain ⟨s₂, B₂, hs₂, hdict₂, hbits₂, -, hclear₂⟩ := clearhash_spec (s := s₁)
    (hagree.represents.of_nodes rfl rfl rfl) htable
  let s₃ := dropTable { s₂ with hashbits := s₂.hashbits + 1 }
  have hvoc₃ : s₃.voclink = s.voclink.length :: s.voclink := hdict₂.voclink
  obtain ⟨s₄, hs₄, hvoc₄, hmap₄, hid₄, hext₄⟩ := addall_empty
    (hashdouble (4 * ((newWordlist s).words + (newWordlist s).hashPop + 1) + 1)) (s := s₃)
    hclear₂.index_eq
    (fun w hw => by
      have hmap : (s₃.wordlist w).map = ((newWordlist s).wordlist w).map := hdict₂.map w
      rw [hmap, (hmem w (hdict₂.voclink ▸ hw)).1]
      rfl)
    (fun w hw => (hdict₂.id w).trans (hmem w (hdict₂.voclink ▸ hw)).2)
    (by
      rw [hvoc₃, List.length_cons, hlength, State.hashlen]
      change _ < 2 ^ (s₂.hashbits + 1)
      have hbits : s₂.hashbits = 11 := hbits₂.trans h.hashbits
      rw [hbits]
      norm_num)
    (by rw [hvoc₃]; exact List.nodup_cons.mpr ⟨hwnew, h.invariant.nodup⟩)
  have hdouble : hashdouble (newWordlist s).doublings s₁ = some s₄ := by
    rw [State.doublings, hashdouble, hs₂]
    exact hs₄
  have hidw : (s₄.wordlist s.voclink.length).id = [] :=
    (hid₄ _).trans ((hdict₂.id _).trans (hmem _ List.mem_cons_self).2)
  refine ⟨{ setExtend s₄ s.voclink.length s.hashIndex with insRule := s.insRule }, ?_, ?_⟩
  · change mappedwordlist s _ = _
    rw [mappedwordlist_eq]
    simp only [inithash, halloc, hdouble, Option.map_some, Option.bind_eq_bind, Option.bind_some]
    have hnil : ((setExtend s₄ s.voclink.length s.hashIndex).wordlist
        s.voclink.length).id = [] := by
      simp [setExtend, hidw]
    rw [hnil]
    rfl
  · intro hagrees
    have hvoc₅ : s₄.voclink = s.voclink.length :: s.voclink := hvoc₄.trans hvoc₃
    have hmap₅ : ∀ w ∈ s.voclink.length :: s.voclink,
        (s₄.wordlist w).map = WordlistMap.hashsearchMap := by
      intro w hw
      rw [hmap₄]
      exact (hdict₂.map w).trans (hmem w hw).1
    have hzero : (0 : Wid) ∈ s.voclink := by simp [h.voclink]
    have hne : (0 : Wid) ≠ s.voclink.length := by
      rw [hlength]
      decide
    -- the first wordlist is the last one to be entered into the new table
    have hext : (s₄.wordlist 0).extend = s.hashIndex := by
      refine (hext₄ 2047 0 ?_).trans h.hashIndex.symm
      rw [hvoc₃, List.getElem?_cons_succ, h.voclink, List.getElem?_reverse (by simp)]
      simp
    refine hne (hagrees.extend_inj 0 (mem_hashedVocs.mpr ⟨?_, ?_⟩) s.voclink.length
      (mem_hashedVocs.mpr ⟨?_, ?_⟩) ?_)
    · change 0 ∈ s₄.voclink
      rw [hvoc₅]
      exact List.mem_cons_of_mem _ hzero
    · simp [setExtend, hne, hmap₅ 0 (List.mem_cons_of_mem _ hzero), WordlistMap.hashed]
    · change s.voclink.length ∈ s₄.voclink
      rw [hvoc₅]
      exact List.mem_cons_self
    · simp [setExtend, hmap₅ _ List.mem_cons_self, WordlistMap.hashed]
    · simp [setExtend, hne, hext]

/-- Not every run keeps the agreement: with the table of 2048 buckets that the system
starts with, the wordlist number 2048 gets the index of the first one. -/
theorem run_last_index :
    ¬∀ (ops : List Op) (s : State), (State.initial 11).run ops = some s → DictAgrees s := by
  intro hall
  obtain ⟨s, hs, hempty⟩ := emptyVocs_run (n := 2047) (by decide)
  obtain ⟨s', hs', hnot⟩ := hempty.last
  refine hnot (hall
    (List.replicate 2047 (Op.wordlist WordlistMap.hashsearchMap) ++
      [Op.wordlist WordlistMap.hashsearchMap]) s' ?_)
  rw [State.run] at hs ⊢
  rw [List.foldlM_append, hs]
  simpa using hs'

end Hash
end Gforth
